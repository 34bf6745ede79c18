import Mathlib.Data.List.SplitOn
import LogicConduit.ByteRegion

namespace LogicConduit

/-- `std::path::Component`. -/
inductive PathComponent
  | rootDir
  | curDir
  | parentDir
  | normal (name : String)
  deriving DecidableEq

abbrev OutputPath := List PathComponent

def pathComponent : List Char → PathComponent
  | ['.', '.'] => .parentDir
  | part => .normal (String.ofList part)

/-- `Path::components`. Repeated and trailing separators count for nothing, nor does `.` unless the path starts
with it. -/
def components (name : String) : OutputPath :=
  match name.toList.splitOn '/' with
  | [] => []
  | first :: rest =>
    (if first = [] then if rest = [] then [] else [.rootDir]
      else if first = ['.'] then [.curDir] else [pathComponent first]) ++
      (rest.filter fun part => part ≠ [] ∧ part ≠ ['.']).map pathComponent

def OutputPath.parent (path : OutputPath) : Option OutputPath :=
  match path.getLast? with
  | none | some .rootDir => none
  | some _ => some path.dropLast

def OutputPath.fileName (path : OutputPath) : String :=
  match path.getLast? with
  | some (.normal name) => name
  | _ => ""

abbrev Files := OutputPath → Option Bytes

namespace Files

variable (files : Files) {path other : OutputPath}

def set (path : OutputPath) (content : Bytes) : Files := fun other => if other = path then some content else files other

def create (path : OutputPath) : Files := files.set path []

def write (path : OutputPath) (bytes : Bytes) : Files := files.set path ((files path).getD [] ++ bytes)

@[simp]
theorem set_self (content : Bytes) : files.set path content path = some content := if_pos rfl

theorem set_other (content : Bytes) (h : other ≠ path) : files.set path content other = files other := if_neg h

@[simp]
theorem set_set (first second : Bytes) : (files.set path first).set path second = files.set path second := by
  funext other
  by_cases h : other = path
  · rw [h, set_self, set_self]
  · rw [set_other _ _ h, set_other _ _ h, set_other _ _ h]

theorem create_write (bytes : Bytes) : (files.create path).write path bytes = files.set path bytes := by
  simp [create, write]

theorem set_write (content bytes : Bytes) : (files.set path content).write path bytes = files.set path (content ++ bytes) := by
  simp [write]

theorem write_other (bytes : Bytes) (h : other ≠ path) : files.write path bytes other = files other :=
  set_other files _ h

end Files

end LogicConduit
