import LogicConduit.ByteRegion

namespace LogicConduit

/-- Stable repository address, independent of a filesystem path. -/
structure ArtifactKey where
  nameSpace : String
  identity : Bytes
  deriving DecidableEq

inductive RepositoryError
  | unavailable
  | quotaExceeded
  | permissionDenied
  | invalidKey (message : String)
  | rangeOverflow (offset length : Nat)
  | outOfBounds (offset stop artifactLength : Nat)
  | corrupt (message : String)
  | io (message : String)
  | unsupported (message : String)
  deriving DecidableEq

def RepositoryError.display : RepositoryError → String
  | .unavailable => "artifact repository is unavailable"
  | .quotaExceeded => "artifact repository quota is exhausted"
  | .permissionDenied => "artifact repository permission was denied"
  | .invalidKey message => s!"artifact key is invalid: {message}"
  | .rangeOverflow offset length => s!"artifact range {offset}..+{length} overflows the address space"
  | .outOfBounds offset stop artifactLength =>
    s!"artifact range {offset}..{stop} exceeds artifact length {artifactLength}"
  | .corrupt message => s!"artifact repository data is corrupt: {message}"
  | .io message => s!"artifact repository I/O failed: {message}"
  | .unsupported message => s!"artifact repository does not support {message}"

def Repository : Type := ArtifactKey → Option Bytes

namespace Repository

def empty : Repository := fun _ => none

def publish (repository : Repository) (key : ArtifactKey) (bytes : Bytes) : Repository :=
  fun k => if k = key then some bytes else repository k

def remove (repository : Repository) (removed : ArtifactKey → Bool) : Repository :=
  fun key => if removed key then none else repository key

@[simp] theorem publish_same (repository : Repository) (key : ArtifactKey) (bytes : Bytes) :
    repository.publish key bytes key = some bytes :=
  if_pos rfl

theorem publish_other {repository : Repository} {key other : ArtifactKey} {bytes : Bytes}
    (h : other ≠ key) : repository.publish key bytes other = repository other :=
  if_neg h

end Repository

/-- Sets the length of an unpublished artifact; new bytes are zero. -/
def resizeStaged (staged : Bytes) (length : Nat) : Bytes :=
  staged.take length ++ List.replicate (length - staged.length) 0

def writeAt (staged : Bytes) (offset : Nat) (source : Bytes) : Bytes :=
  putRange (if staged.length < offset + source.length then resizeStaged staged (offset + source.length)
    else staged) offset source

theorem writeAt_length (staged source : Bytes) :
    writeAt staged staged.length source = staged ++ source := by
  have hgrown : resizeStaged staged (staged.length + source.length) =
      staged ++ List.replicate source.length 0 := by
    rw [resizeStaged, List.take_of_length_le (by omega), Nat.add_sub_cancel_left]
  unfold writeAt putRange
  by_cases h : source = []
  · simp [h]
  · have hpos : 0 < source.length := List.length_pos_iff.mpr h
    rw [if_pos (by omega), hgrown]
    simp

theorem resizeStaged_length (staged : Bytes) : resizeStaged staged staged.length = staged := by
  simp [resizeStaged]

theorem writeAt_zero (source : Bytes) : writeAt [] 0 source = source :=
  writeAt_length [] source

/-- `read_artifact_region` over the range of `ByteRange::new(offset, length)`. -/
def readArtifactRegion (artifact : Bytes) (offset length : Nat) : Except RepositoryError Bytes :=
  if 2 ^ 64 ≤ offset + length then .error (.rangeOverflow offset length)
  else match getRange artifact offset (offset + length) with
    | some bytes => .ok bytes
    | none => .error (.outOfBounds offset (offset + length) artifact.length)

theorem HasAt.readArtifactRegion {artifact bytes : Bytes} {offset : Nat}
    (h : HasAt artifact offset bytes) (hs : offset + bytes.length < 2 ^ 64) :
    readArtifactRegion artifact offset bytes.length = .ok bytes := by
  rw [LogicConduit.readArtifactRegion, if_neg (Nat.not_le.mpr hs), h.getRange]

end LogicConduit
