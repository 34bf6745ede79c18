import Mathlib.Algebra.Group.Nat.Defs
import Mathlib.Data.List.DropRight

namespace LogicConduit

variable {text : Text} {c : Char} {separator : Char} {line : Text}

abbrev Text := List Char

/-- The characters with the property `White_Space`. -/
def isWhiteSpace (c : Char) : Bool :=
  (9 ≤ c.toNat && c.toNat ≤ 13) || c.toNat == 0x20 || c.toNat == 0x85 || c.toNat == 0xa0 || c.toNat == 0x1680 ||
    (0x2000 ≤ c.toNat && c.toNat ≤ 0x200a) || c.toNat == 0x2028 || c.toNat == 0x2029 || c.toNat == 0x202f ||
    c.toNat == 0x205f || c.toNat == 0x3000

theorem not_blank_of_all (h : text.all (fun c => !isWhiteSpace c) = true) :
    ∀ c ∈ text, isWhiteSpace c = false := by
  intro c hc
  simpa using List.all_eq_true.mp h c hc

def trim (text : Text) : Text := (text.dropWhile isWhiteSpace).rdropWhile isWhiteSpace

theorem rdropWhile_append_cons {p : Char → Bool} (hc : p c = false) (front back : Text) :
    (front ++ c :: back).rdropWhile p = front ++ c :: back.rdropWhile p := by
  simp only [List.rdropWhile, List.reverse_append, List.reverse_cons, List.append_assoc, List.singleton_append,
    List.dropWhile_append]
  split
  next hempty =>
    rw [List.isEmpty_iff.mp hempty, List.dropWhile_cons_of_neg (by simp [hc])]
    simp
  · simp

/-- The blanks are trimmed from the ends, so a text that neither begins nor ends with one stays. -/
theorem trim_eq_self (hhead : ∀ c ∈ text.head?, isWhiteSpace c = false)
    (hlast : ∀ c ∈ text.getLast?, isWhiteSpace c = false) : trim text = text := by
  have hfront : text.dropWhile isWhiteSpace = text := by
    cases text with
    | nil => rfl
    | cons c rest => exact List.dropWhile_cons_of_neg (by simp [hhead c rfl])
  rw [trim, hfront, List.rdropWhile_eq_self_iff]
  intro hne
  rw [hlast _ (List.getLast?_eq_some_getLast hne)]
  exact Bool.false_ne_true

theorem trim_eq_self_of_all (h : ∀ c ∈ text, isWhiteSpace c = false) : trim text = text :=
  trim_eq_self (fun c hc => h c (List.mem_of_head? hc)) fun c hc => h c (List.mem_of_getLast? hc)

def splitInclusive (separator : Char) : Text → List Text
  | [] => []
  | c :: rest =>
    if c = separator then [c] :: splitInclusive separator rest
    else
      match splitInclusive separator rest with
      | [] => [[c]]
      | piece :: pieces => (c :: piece) :: pieces

def stripSuffix (c : Char) (text : Text) : Option Text :=
  if text.getLast? = some c then some text.dropLast else none

def stripLineEnding (piece : Text) : Text :=
  match stripSuffix '\n' piece with
  | none => piece
  | some line => (stripSuffix '\r' line).getD line

def lines (text : Text) : List Text := (splitInclusive '\n' text).map stripLineEnding

theorem splitInclusive_line (h : separator ∉ line) (rest : Text) :
    splitInclusive separator (line ++ separator :: rest) = (line ++ [separator]) :: splitInclusive separator rest := by
  induction line with
  | nil => simp [splitInclusive]
  | cons c line ih =>
    have hc : c ≠ separator := fun heq => h (heq ▸ List.mem_cons_self)
    have hline : separator ∉ line := fun hmem => h (List.mem_cons_of_mem c hmem)
    rw [List.cons_append, splitInclusive, if_neg hc, ih hline]
    rfl

theorem stripLineEnding_line (h : '\r' ∉ line) : stripLineEnding (line ++ ['\n']) = line := by
  have hreturn : stripSuffix '\r' line = none := by
    rw [stripSuffix, if_neg]
    intro hlast
    exact h (List.mem_of_getLast? hlast)
  rw [stripLineEnding, stripSuffix, if_pos List.getLast?_concat, List.dropLast_concat]
  simp [hreturn]

theorem lines_written {written : List Text} (h : ∀ line ∈ written, '\n' ∉ line ∧ '\r' ∉ line) :
    lines (written.flatMap (· ++ ['\n'])) = written := by
  induction written with
  | nil => rfl
  | cons line written ih =>
    obtain ⟨hbreak, hreturn⟩ := h line List.mem_cons_self
    have hrest := ih fun other hother => h other (List.mem_cons_of_mem _ hother)
    rw [lines] at hrest
    rw [lines, List.flatMap_cons, List.append_assoc, List.singleton_append, splitInclusive_line hbreak, List.map_cons,
      stripLineEnding_line hreturn, hrest]

def splitOnce (separator : Char) : Text → Option (Text × Text)
  | [] => none
  | c :: rest =>
    if c = separator then some ([], rest)
    else (splitOnce separator rest).map fun (front, back) => (c :: front, back)

theorem splitOnce_append {front : Text} (h : separator ∉ front) (back : Text) :
    splitOnce separator (front ++ separator :: back) = some (front, back) := by
  induction front with
  | nil => simp [splitOnce]
  | cons c front ih =>
    have hc : c ≠ separator := fun heq => h (heq ▸ List.mem_cons_self)
    have hfront : separator ∉ front := fun hmem => h (List.mem_cons_of_mem c hmem)
    rw [List.cons_append, splitOnce, if_neg hc, ih hfront]
    rfl

def splitWhitespace (text : Text) : List Text := (text.splitOnP isWhiteSpace).filter (· ≠ [])

theorem splitWhitespace_pair {front back : Text} {blank : Char} (hblank : isWhiteSpace blank = true)
    (hfront : ∀ c ∈ front, isWhiteSpace c = false) (hback : ∀ c ∈ back, isWhiteSpace c = false)
    (hne : front ≠ []) (hne' : back ≠ []) : splitWhitespace (front ++ blank :: back) = [front, back] := by
  rw [splitWhitespace, List.splitOnP_append_cons_of_forall_mem hfront blank hblank, List.splitOnP_eq_singleton hback]
  simp [hne, hne']

/-- `strip_prefix`. -/
def stripFront (front text : Text) : Option Text :=
  if front.isPrefixOf text then some (text.drop front.length) else none

theorem stripFront_append (front back : Text) : stripFront front (front ++ back) = some back := by
  simp [stripFront]

def decimal (n : Nat) : Text := Nat.toDigits 10 n

/-- `parse` to an unsigned number of 64 bits; one plus sign is allowed. -/
def parseUnsigned (text : Text) : Option Nat :=
  let digits := if text.head? = some '+' then text.tail else text
  if digits ≠ [] ∧ digits.all Char.isDigit ∧ Nat.ofDigitChars 10 digits 0 < 2 ^ 64 then
    some (Nat.ofDigitChars 10 digits 0)
  else none

theorem isDigit_of_mem_decimal {n : Nat} (h : c ∈ decimal n) : c.isDigit = true :=
  Nat.isDigit_of_mem_toDigits (by decide) (by decide) h

theorem decimal_ne_nil (n : Nat) : decimal n ≠ [] := Nat.toDigits_ne_nil

theorem digit_not_blank (h : c.isDigit = true) : isWhiteSpace c = false := by
  simp only [Char.isDigit, Bool.and_eq_true, decide_eq_true_eq] at h
  have hlow : 48 ≤ c.toNat := h.1
  have hhigh : c.toNat ≤ 57 := h.2
  simp only [isWhiteSpace, Bool.or_eq_false_iff, Bool.and_eq_false_imp, beq_eq_false_iff_ne, decide_eq_true_eq,
    decide_eq_false_iff_not]
  omega

theorem parseUnsigned_decimal {n : Nat} (h : n < 2 ^ 64) : parseUnsigned (decimal n) = some n := by
  have hplus : ¬(decimal n).head? = some '+' := by
    intro hhead
    exact absurd (isDigit_of_mem_decimal (List.mem_of_head? hhead)) (by decide)
  have hall : (decimal n).all Char.isDigit = true := List.all_eq_true.mpr fun c hc => isDigit_of_mem_decimal hc
  have hvalue : Nat.ofDigitChars 10 (decimal n) 0 = n := Nat.ofDigitChars_ten_toDigits
  rw [parseUnsigned, if_neg hplus, hvalue, if_pos ⟨decimal_ne_nil n, hall, h⟩]

theorem decimal_injective {m n : Nat} (h : decimal m = decimal n) : m = n := by
  have hvalue := congrArg (Nat.ofDigitChars 10 · 0) h
  simpa only [decimal, Nat.ofDigitChars_ten_toDigits] using hvalue

abbrev TextMap (β : Type) := Std.TreeMap Text β

namespace TextMap

variable {β : Type} {fields : List (Text × β)} {key : Text}

theorem getElem?_insert (table : TextMap β) (key other : Text) (value : β) :
    (Std.TreeMap.insert table key value)[other]? = if key = other then some value else table[other]? := by
  simp only [Std.TreeMap.getElem?_insert, Std.LawfulEqCmp.compare_eq_iff_eq]

def insertAll (table : TextMap β) (fields : List (Text × β)) : TextMap β :=
  fields.foldl (fun table field => table.insert field.1 field.2) table

theorem getElem?_insertAll_of_not_mem (table : TextMap β)
    (h : ∀ field ∈ fields, field.1 ≠ key) : (table.insertAll fields)[key]? = table[key]? := by
  induction fields generalizing table with
  | nil => rfl
  | cons field fields ih =>
    have hrest := ih (table.insert field.1 field.2) fun other hother => h other (List.mem_cons_of_mem _ hother)
    rw [getElem?_insert, if_neg (h field List.mem_cons_self)] at hrest
    exact hrest

theorem getElem?_insertAll_of_mem {value : β} (table : TextMap β)
    (hkeys : (fields.map Prod.fst).Nodup) (h : (key, value) ∈ fields) :
    (table.insertAll fields)[key]? = some value := by
  induction fields generalizing table with
  | nil => cases h
  | cons field fields ih =>
    obtain ⟨hfresh, hrest⟩ := List.nodup_cons.mp hkeys
    rcases List.mem_cons.mp h with rfl | hmem
    · have hlater : ∀ field ∈ fields, field.1 ≠ key := by
        intro field hfield heq
        exact hfresh (List.mem_map.mpr ⟨field, hfield, heq⟩)
      have hlookup := getElem?_insertAll_of_not_mem (table.insert key value) hlater
      rw [getElem?_insert, if_pos rfl] at hlookup
      exact hlookup
    · exact ih (table.insert field.1 field.2) hrest hmem

end TextMap

end LogicConduit
