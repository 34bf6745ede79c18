import LogicConduit.CacheKeyIdentity

namespace LogicConduit

namespace Json

mutual
/-- The value with the fields of every object by rising key. -/
def inKeyOrder : Json → Json
  | .array items => .array (itemsInKeyOrder items)
  | .object fields => .object (sortBy Prod.fst (fieldsInKeyOrder fields))
  | value => value

def itemsInKeyOrder : List Json → List Json
  | [] => []
  | item :: items => inKeyOrder item :: itemsInKeyOrder items

def fieldsInKeyOrder : List (String × Json) → List (String × Json)
  | [] => []
  | (name, value) :: fields => (name, inKeyOrder value) :: fieldsInKeyOrder fields
end

mutual
def keys : Json → List String
  | .array items => itemKeys items
  | .object fields => fieldKeys fields
  | _ => []

def itemKeys : List Json → List String
  | [] => []
  | item :: items => keys item ++ itemKeys items

def fieldKeys : List (String × Json) → List String
  | [] => []
  | (name, value) :: fields => name :: keys value ++ fieldKeys fields
end

/-- The keys of the objects inside another object or an array. -/
def nestedKeys : Json → List String
  | .array items => items.flatMap keys
  | .object fields => fields.flatMap fun field => field.2.keys
  | _ => []

/-- Induction over a value by what its arrays and objects hold. -/
@[elab_as_elim]
theorem nested {motive : Json → Prop} (null : motive .null) (bool : ∀ value, motive (.bool value))
    (number : ∀ text, motive (.number text)) (string : ∀ value, motive (.string value))
    (array : ∀ items, (∀ item ∈ items, motive item) → motive (.array items))
    (object : ∀ fields, (∀ field ∈ fields, motive field.2) → motive (.object fields)) (value : Json) :
    motive value := by
  refine @Json.rec motive (fun items => ∀ item ∈ items, motive item)
    (fun fields => ∀ field ∈ fields, motive field.2) (fun field => motive field.2)
    null bool number string array object ?_ ?_ ?_ ?_ (fun _ _ h => h) value
  · nofun
  · exact fun _ _ first rest => List.forall_mem_cons.mpr ⟨first, rest⟩
  · nofun
  · exact fun _ _ first rest => List.forall_mem_cons.mpr ⟨first, rest⟩

theorem itemsInKeyOrder_eq (items : List Json) : itemsInKeyOrder items = items.map inKeyOrder := by
  induction items with
  | nil => rfl
  | cons item items ih => rw [itemsInKeyOrder, ih, List.map_cons]

theorem itemKeys_eq (items : List Json) : itemKeys items = items.flatMap keys := by
  induction items with
  | nil => rfl
  | cons item items ih => rw [itemKeys, ih, List.flatMap_cons]

theorem fieldKeys_eq (fields : List (String × Json)) :
    fieldKeys fields = fields.flatMap fun field => field.1 :: field.2.keys := by
  induction fields with
  | nil => rfl
  | cons field fields ih => rw [fieldKeys, ih, List.flatMap_cons]

/-- What an object is written as between its brackets, field by field. -/
def fieldBytes (field : String × Json) : Bytes := hashField (utf8Bytes field.1) ++ canonicalJsonBytes field.2

theorem sortBy_map {α β : Type*} {key : α → String} {key' : β → String} {f : α → β}
    (same : ∀ a, key' (f a) = key a) (l : List α) : sortBy key' (l.map f) = (sortBy key l).map f := by
  refine (List.map_insertionSort _ _ f l fun a _ b _ => ?_).symm
  rw [same, same]

theorem inKeyOrder_object (fields : List (String × Json)) :
    inKeyOrder (.object fields) =
      .object ((sortBy Prod.fst fields).map fun field => (field.1, field.2.inKeyOrder)) := by
  have each : fieldsInKeyOrder fields = fields.map fun field => (field.1, field.2.inKeyOrder) := by
    induction fields with
    | nil => rfl
    | cons field fields ih => rw [fieldsInKeyOrder, ih, List.map_cons]
  rw [inKeyOrder, each, sortBy_map fun _ => rfl]

theorem canonicalItems_eq (items : List Json) : canonicalItems items = items.flatMap canonicalJsonBytes := by
  induction items with
  | nil => rfl
  | cons item items ih => rw [canonicalItems, ih, List.flatMap_cons]

theorem canonicalFields_eq (fields : List (String × Json)) :
    (sortBy Prod.fst (canonicalFields fields)).flatMap (fun field => hashField (utf8Bytes field.1) ++ field.2) =
      (sortBy Prod.fst fields).flatMap fieldBytes := by
  have each : canonicalFields fields = fields.map fun field => (field.1, canonicalJsonBytes field.2) := by
    induction fields with
    | nil => rfl
    | cons field fields ih => rw [canonicalFields, ih, List.map_cons]
  rw [each, sortBy_map fun _ => rfl, List.flatMap_map]
  rfl

theorem canonicalJsonBytes_array (items : List Json) :
    canonicalJsonBytes (.array items) = 0x5b :: (items.flatMap canonicalJsonBytes ++ [0x5d]) := by
  rw [canonicalJsonBytes, canonicalItems_eq, List.cons_append]

theorem canonicalJsonBytes_object (fields : List (String × Json)) :
    canonicalJsonBytes (.object fields) = 0x7b :: ((sortBy Prod.fst fields).flatMap fieldBytes ++ [0x7d]) := by
  rw [canonicalJsonBytes, canonicalFields_eq, List.cons_append]

theorem canonicalJsonBytes_inKeyOrder (value : Json) :
    canonicalJsonBytes value.inKeyOrder = canonicalJsonBytes value := by
  induction value using nested with
  | array items ih =>
    rw [inKeyOrder, itemsInKeyOrder_eq, canonicalJsonBytes_array, canonicalJsonBytes_array, List.flatMap_map,
      List.flatMap_congr ih]
  | object fields ih =>
    have sorted : sortBy Prod.fst (sortBy Prod.fst fields) = sortBy Prod.fst fields :=
      List.Pairwise.insertionSort_eq (sortBy_sorted Prod.fst fields)
    have same : ∀ field ∈ sortBy Prod.fst fields, fieldBytes (field.1, field.2.inKeyOrder) = fieldBytes field :=
      fun field inside => by rw [fieldBytes, ih field ((sortBy_perm _ _).mem_iff.mp inside), fieldBytes]
    have moved := @sortBy_map _ _ Prod.fst Prod.fst (fun field : String × Json => (field.1, field.2.inKeyOrder))
      (fun _ => rfl) (sortBy Prod.fst fields)
    rw [inKeyOrder_object, canonicalJsonBytes_object, canonicalJsonBytes_object, moved, sorted, List.flatMap_map,
      List.flatMap_congr same]
  | _ => rfl

/-- A key that is not read as the end of its object. The low byte of its length is not the byte that closes an
object; or the next one is below all tags and all closing bytes, and the first byte of the key, read as the high
byte of a length, would give a name beyond the size of all values. -/
def KeyApart (size : Nat) (name : String) : Prop :=
  (utf8Bytes name).length % 256 ≠ 0x7d ∨
    (utf8Bytes name).length < 0x22 * 256 + 0x7d ∧ (utf8Bytes name).head? ≠ some 0 ∧ size ≤ 2 ^ 56

instance (size : Nat) (name : String) : Decidable (KeyApart size name) := inferInstanceAs (Decidable (_ ∨ _))

/-- A value of less than a number of bytes, all keys of which are apart. -/
structure Apart (size : Nat) (value : Json) : Prop where
  keys : ∀ name ∈ value.keys, KeyApart size name
  short : (canonicalJsonBytes value).length < size

/-- What can follow a value: nothing, a tag or a closing byte, or the name of a field. -/
inductive Follows (size : Nat) : Bytes → Prop
  | nothing : Follows size []
  | mark {byte : UInt8} (tail : Bytes) (h : 0x22 ≤ byte.toNat) : Follows size (byte :: tail)
  | name {name : Bytes} (tail : Bytes) (h : name.length < size) : Follows size (hashField name ++ tail)

variable {size : Nat}

theorem item_short {items : List Json} (short : (canonicalJsonBytes (.array items)).length < size) {item : Json}
    (inside : item ∈ items) : (canonicalJsonBytes item).length < size := by
  have part := (List.sublist_flatten_of_mem (List.mem_map_of_mem (f := canonicalJsonBytes) inside)).length_le
  rw [canonicalJsonBytes_array, List.length_cons, List.length_append, List.flatMap_def] at short
  omega

variable {fields : List (String × Json)} {field : String × Json} {tail tail' : Bytes}

theorem field_short (short : (canonicalJsonBytes (.object fields)).length < size)
    (inside : field ∈ sortBy Prod.fst fields) :
    (utf8Bytes field.1).length < size ∧ (canonicalJsonBytes field.2).length < size := by
  have part := (List.sublist_flatten_of_mem (List.mem_map_of_mem (f := fieldBytes) inside)).length_le
  rw [canonicalJsonBytes_object, List.length_cons, List.length_append, List.flatMap_def] at short
  rw [fieldBytes, List.length_append, hashField_length] at part
  omega

theorem Apart.item {items : List Json} (h : Apart size (.array items)) {item : Json} (inside : item ∈ items) :
    Apart size item :=
  ⟨fun name held => h.keys name (by
    rw [Json.keys, itemKeys_eq]
    exact List.mem_flatMap.mpr ⟨item, inside, held⟩), item_short h.short inside⟩

theorem Apart.member (h : Apart size (.object fields)) (inside : field ∈ sortBy Prod.fst fields) :
    KeyApart size field.1 ∧ Apart size field.2 := by
  have held : ∀ name ∈ field.1 :: field.2.keys, KeyApart size name := fun name held => h.keys name (by
    rw [Json.keys, fieldKeys_eq]
    exact List.mem_flatMap.mpr ⟨field, (sortBy_perm _ _).mem_iff.mp inside, held⟩)
  exact ⟨held _ List.mem_cons_self, fun name later => held name (List.mem_cons_of_mem _ later),
    (field_short h.short inside).2⟩

theorem canonicalJsonBytes_ne_close (value : Json) (tail rest : Bytes) :
    canonicalJsonBytes value ++ tail ≠ 0x5d :: rest := by
  rcases value with _ | (_ | _) | _ | _ | _ | _ <;> simp [canonicalJsonBytes]

theorem Follows.value (value : Json) (tail : Bytes) : Follows size (canonicalJsonBytes value ++ tail) := by
  rcases value with _ | (_ | _) | _ | _ | _ | _ <;> exact .mark _ (by decide)

theorem Follows.member (short : (utf8Bytes field.1).length < size) (tail : Bytes) :
    Follows size (fieldBytes field ++ tail) := by
  rw [fieldBytes, List.append_assoc]
  exact .name _ short

/-- A field does not begin with the byte that closes an object and what can follow it: the second byte of its
length is no mark, and as the length of a name the bytes behind would be too large. -/
theorem fieldBytes_ne_close (apart : KeyApart size field.1) (follows : Follows size tail') (tail : Bytes) :
    fieldBytes field ++ tail ≠ 0x7d :: tail' := by
  intro same
  rw [fieldBytes, hashField, leBytes] at same
  obtain ⟨first, same⟩ := List.cons.inj same
  have low : (utf8Bytes field.1).length % 256 = 0x7d := by
    have low := congrArg UInt8.toNat first
    rw [UInt8.toNat_ofNat'] at low
    exact (Nat.mod_mod_of_dvd _ (by decide)).symm.trans low
  obtain ⟨short, head, small⟩ := apart.resolve_left fun other => other low
  obtain ⟨byte, name, filled⟩ : ∃ byte name, utf8Bytes field.1 = byte :: name := by
    refine List.exists_cons_of_ne_nil fun none => ?_
    rw [none] at low
    cases low
  rw [filled, List.head?_cons] at head
  have next : (utf8Bytes field.1).length / 256 < 0x22 := by omega
  have rest : leBytes 7 ((utf8Bytes field.1).length / 256) =
      [UInt8.ofNat ((utf8Bytes field.1).length / 256), 0, 0, 0, 0, 0, 0] := by
    have zero : (utf8Bytes field.1).length / 256 / 256 = 0 := by omega
    rw [leBytes, Nat.mod_eq_of_lt (by omega), zero]
    rfl
  rw [rest, filled] at same
  cases follows with
  | nothing => cases same
  | mark tail h =>
    have toNat := congrArg UInt8.toNat (List.cons.inj same).1
    rw [← filled, UInt8.toNat_ofNat'] at toNat
    omega
  | @name other tail h =>
    have high : byte.toNat ≠ 0 := fun zero => head (congrArg some (UInt8.toNat_inj.mp zero))
    have front : (hashField other ++ tail).take 8 = leBytes 8 other.length := by
      rw [hashField, List.append_assoc]
      exact List.take_left' (leBytes_length 8 other.length)
    have length := congrArg ofLeBytes (front.symm.trans (congrArg (List.take 8) same.symm))
    rw [ofLeBytes_leBytes (show other.length < 256 ^ 8 by omega)] at length
    simp [ofLeBytes] at length
    omega

theorem fields_append_inj {xs ys : List (String × Json)} {close close' : Bytes} (hsize : size ≤ 2 ^ 64)
    (hclose : Follows size close) (hclose' : Follows size close')
    (hx : ∀ x ∈ xs, ∀ tail, fieldBytes x ++ tail ≠ close') (hy : ∀ y ∈ ys, ∀ tail, fieldBytes y ++ tail ≠ close)
    (short : ∀ x ∈ xs, (utf8Bytes x.1).length < size) (short' : ∀ y ∈ ys, (utf8Bytes y.1).length < size)
    (inj : ∀ x ∈ xs, ∀ y ∈ ys, ∀ tail tail', Follows size tail → Follows size tail' →
      canonicalJsonBytes x.2 ++ tail = canonicalJsonBytes y.2 ++ tail' →
        x.2.inKeyOrder = y.2.inKeyOrder ∧ tail = tail')
    (same : xs.flatMap fieldBytes ++ close = ys.flatMap fieldBytes ++ close') :
    (xs.map fun field => (field.1, field.2.inKeyOrder)) = (ys.map fun field => (field.1, field.2.inKeyOrder)) ∧
      close = close' := by
  refine flatMap_append_inj hclose hclose' (fun x hm => .member (short x hm)) (fun y hm => .member (short' y hm)) hx
    (fun y hm tail => (hy y hm tail).symm) ?_ same
  intro x hm y hm' tail tail' follows follows' each
  rw [fieldBytes, fieldBytes, List.append_assoc, List.append_assoc] at each
  obtain ⟨names, rest⟩ := hashField_append_inj ((short x hm).trans_le hsize) ((short' y hm').trans_le hsize) each
  obtain ⟨values, ends⟩ := inj x hm y hm' tail tail' follows follows' rest
  exact ⟨Prod.ext (utf8Bytes_inj names) values, ends⟩

theorem text_append_inj {s t : String} {mark : UInt8} (hsize : size ≤ 2 ^ 64)
    (hs : (mark :: hashField (utf8Bytes s)).length < size) (ht : (mark :: hashField (utf8Bytes t)).length < size)
    (same : hashField (utf8Bytes s) ++ tail = hashField (utf8Bytes t) ++ tail') : s = t ∧ tail = tail' := by
  rw [List.length_cons, hashField_length] at hs ht
  obtain ⟨bytes, ends⟩ := hashField_append_inj (by omega) (by omega) same
  exact ⟨utf8Bytes_inj bytes, ends⟩

/-- Where keys are apart, the bytes of a value are read in one way before all that can follow them. -/
theorem canonicalJsonBytes_append_inj {a b : Json} (hsize : size ≤ 2 ^ 64) (ha : Apart size a) (hb : Apart size b)
    (follows : Follows size tail) (follows' : Follows size tail')
    (same : canonicalJsonBytes a ++ tail = canonicalJsonBytes b ++ tail') :
    a.inKeyOrder = b.inKeyOrder ∧ tail = tail' := by
  induction a using nested generalizing b tail tail' with
  | null =>
    rcases b with _ | (_ | _) | _ | _ | _ | _ <;> simp [canonicalJsonBytes] at same
    exact ⟨rfl, same⟩
  | bool value =>
    cases value <;> rcases b with _ | (_ | _) | _ | _ | _ | _ <;> simp [canonicalJsonBytes] at same <;>
      exact ⟨rfl, same⟩
  | number text =>
    rcases b with _ | (_ | _) | _ | _ | _ | _ <;> simp [canonicalJsonBytes] at same
    obtain ⟨rfl, ends⟩ := text_append_inj hsize ha.short hb.short same
    exact ⟨rfl, ends⟩
  | string value =>
    rcases b with _ | (_ | _) | _ | _ | _ | _ <;> simp [canonicalJsonBytes] at same
    obtain ⟨rfl, ends⟩ := text_append_inj hsize ha.short hb.short same
    exact ⟨rfl, ends⟩
  | array items ih =>
    rcases b with _ | (_ | _) | _ | _ | others | _ <;> simp [canonicalJsonBytes] at same
    rw [canonicalItems_eq, canonicalItems_eq] at same
    obtain ⟨each, ends⟩ := flatMap_append_inj (.mark tail (by decide)) (.mark tail' (by decide))
      (fun x _ => .value x) (fun y _ => .value y) (fun x _ rest => canonicalJsonBytes_ne_close x rest tail')
      (fun y _ rest held => canonicalJsonBytes_ne_close y rest tail held.symm)
      (fun x hm y hm' _ _ => ih x hm (ha.item hm) (hb.item hm')) same
    rw [inKeyOrder, inKeyOrder, itemsInKeyOrder_eq, itemsInKeyOrder_eq, each]
    exact ⟨rfl, (List.cons.inj ends).2⟩
  | object fields ih =>
    rcases b with _ | (_ | _) | _ | _ | _ | others <;> simp [canonicalJsonBytes] at same
    rw [canonicalFields_eq, canonicalFields_eq] at same
    obtain ⟨each, ends⟩ := fields_append_inj hsize (.mark tail (by decide)) (.mark tail' (by decide))
      (fun x hm => fieldBytes_ne_close (ha.member hm).1 follows')
      (fun y hm => fieldBytes_ne_close (hb.member hm).1 follows) (fun x hm => (field_short ha.short hm).1)
      (fun y hm => (field_short hb.short hm).1)
      (fun x hm y hm' _ _ => ih x ((sortBy_perm _ _).mem_iff.mp hm) (ha.member hm).2 (hb.member hm').2) same
    rw [inKeyOrder_object, inKeyOrder_object, each]
    exact ⟨rfl, (List.cons.inj ends).2⟩

theorem Apart.of_nested (apart : ∀ name ∈ (object fields).nestedKeys, KeyApart size name)
    (short : (canonicalJsonBytes (.object fields)).length < size) (inside : field ∈ sortBy Prod.fst fields) :
    Apart size field.2 :=
  ⟨fun name held => apart name (List.mem_flatMap.mpr ⟨field, (sortBy_perm _ _).mem_iff.mp inside, held⟩),
    (field_short short inside).2⟩

theorem nestedKeys_eq {value : Json} (other : ¬∃ fields, value = .object fields) : value.nestedKeys = value.keys := by
  cases value with
  | object fields => exact absurd ⟨fields, rfl⟩ other
  | array items => rw [keys, itemKeys_eq, nestedKeys]
  | _ => rfl

theorem head_object (value : Json) :
    (canonicalJsonBytes value).head? = some 0x7b ↔ ∃ fields, value = .object fields := by
  rcases value with _ | (_ | _) | _ | _ | _ | _ <;> simp [canonicalJsonBytes]

end Json

open Json

/-- Where no key of an object inside another object or an array can be read as the end of its object, values share
their canonical bytes exactly when they are equal up to the order of keys. -/
theorem canonical_bytes_injective {a b : Json} {size : Nat} (hsize : size ≤ 2 ^ 64)
    (ha : ∀ name ∈ a.nestedKeys, KeyApart size name) (hb : ∀ name ∈ b.nestedKeys, KeyApart size name)
    (sa : (canonicalJsonBytes a).length < size) (sb : (canonicalJsonBytes b).length < size) :
    canonicalJsonBytes a = canonicalJsonBytes b ↔ a.inKeyOrder = b.inKeyOrder := by
  refine ⟨fun same => ?_, fun same => ?_⟩
  · by_cases outer : ∃ fields, a = .object fields
    · obtain ⟨others, rfl⟩ := (head_object b).mp (same ▸ (head_object a).mpr outer)
      obtain ⟨fields, rfl⟩ := outer
      -- nothing follows the outermost object, so that its own keys may be any
      have filled : ∀ field tail, fieldBytes field ++ tail ≠ [] := fun field tail none => by
        have := congrArg List.length none
        rw [fieldBytes, List.length_append, List.length_append, hashField_length, List.length_nil] at this
        omega
      rw [canonicalJsonBytes_object, canonicalJsonBytes_object, List.cons.injEq, List.append_left_inj] at same
      obtain ⟨each, -⟩ := fields_append_inj hsize .nothing .nothing (fun x _ => filled x) (fun y _ => filled y)
        (fun x hm => (field_short sa hm).1) (fun y hm => (field_short sb hm).1)
        (fun x hm y hm' _ _ => canonicalJsonBytes_append_inj hsize (.of_nested ha sa hm) (.of_nested hb sb hm'))
        (by rw [List.append_nil, List.append_nil, same.2])
      rw [inKeyOrder_object, inKeyOrder_object, each]
    · have outer' : ¬∃ fields, b = .object fields :=
        fun held => outer ((head_object a).mp (same ▸ (head_object b).mpr held))
      rw [nestedKeys_eq outer] at ha
      rw [nestedKeys_eq outer'] at hb
      exact (canonicalJsonBytes_append_inj hsize ⟨ha, sa⟩ ⟨hb, sb⟩ .nothing .nothing (congrArg (· ++ []) same)).1
  · rw [← canonicalJsonBytes_inKeyOrder, same, canonicalJsonBytes_inKeyOrder]

/-- The length of the nested key begins with the closing byte. -/
def longState : Json := .object [(String.ofList (List.replicate 125 'a'), .null)]

theorem canonical_bytes_injective_swapped :
    canonicalJsonBytes (.object [("mode", longState), ("edge", .bool true)]) =
      canonicalJsonBytes (.object [("edge", .bool true), ("mode", longState)]) :=
  (@canonical_bytes_injective _ _ (2 ^ 56) (by decide) (by decide +kernel) (by decide +kernel) (by decide +kernel)
    (by decide +kernel)).mpr (by decide +kernel)

/-- A key of 381 bytes that goes on as the rest of another object. -/
def splitKey : String := "\x00b\"t\x01\x00\x00\x00\x00\x00\x00" ++ String.ofList (List.replicate 370 'a')

theorem long_key_shares_bytes :
    let value := Json.object [("", .object [(splitKey, .null)])]
    let other := Json.object [("", .object []), ("b", .string (String.ofList (List.replicate 370 'a') ++ "n\x7d"))]
    canonicalJsonBytes value = canonicalJsonBytes other ∧ value.inKeyOrder ≠ other.inKeyOrder := by
  decide +kernel

end LogicConduit
