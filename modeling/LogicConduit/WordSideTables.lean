import LogicConduit.WordDecode

namespace LogicConduit

open Vlq

namespace Word

def bare (word : Word) : Word := Word.new word.value word.timestampNs

def setDuration (source word : Word) : Word :=
  if source.durationNs ≠ 0 then { word with durationNs := source.durationNs } else word

def setPayload (source word : Word) : Word :=
  match source.payload with
  | some payload => { word with payload := some payload }
  | none => word

theorem setPayload_setDuration_bare (word : Word) :
    setPayload word (setDuration word word.bare) = word := by
  obtain ⟨value, payload, timestampNs, durationNs⟩ := word
  by_cases hd : durationNs = 0
  · cases payload <;> simp [setPayload, setDuration, bare, Word.new, hd]
  · cases payload <;> simp [setPayload, setDuration, bare, Word.new, hd]

end Word

def exceptionDelta (previous : Option Nat) (index : Nat) : Nat :=
  match previous with
  | none => index
  | some previous => index - previous

def durationTable : Option Nat → Nat → List Word → Bytes
  | _, _, [] => []
  | previous, index, word :: rest =>
    if word.durationNs ≠ 0 then
      encodeU64 (exceptionDelta previous index) ++ encodeU64 word.duration ++
        durationTable (some index) (index + 1) rest
    else durationTable previous (index + 1) rest

def payloadTable : Option Nat → Nat → List Word → Bytes
  | _, _, [] => []
  | previous, index, word :: rest =>
    match word.payload with
    | some payload =>
      encodeU64 (exceptionDelta previous index) ++ RecordTables.encodePayload payload ++
        payloadTable (some index) (index + 1) rest
    | none => payloadTable previous (index + 1) rest

/-- Applies `f source` to the record of each source word; the sources start at `index`. -/
def modifyFrom (firstRecordIndex : Nat) (f : Word → Word → Word) :
    Nat → List Word → List Word → List Word
  | _, [], words => words
  | index, source :: rest, words =>
    modifyFrom firstRecordIndex f (index + 1) rest
      (modifyRecord words firstRecordIndex index (f source))

theorem getElem?_modifyRecord (words : List Word) (firstRecordIndex recordIndex : Nat)
    (f : Word → Word) (j : Nat) :
    (modifyRecord words firstRecordIndex recordIndex f)[j]? =
      if firstRecordIndex + j = recordIndex then words[j]?.map f else words[j]? := by
  unfold modifyRecord
  split
  next hle =>
    rw [List.getElem?_modify]
    by_cases hj : firstRecordIndex + j = recordIndex
    · have he : recordIndex - firstRecordIndex = j := by omega
      simp [hj, he]
    · have he : recordIndex - firstRecordIndex ≠ j := by omega
      simp [hj, he]
  next hlt =>
    have hj : firstRecordIndex + j ≠ recordIndex := by omega
    rw [if_neg hj]

theorem getElem?_modifyFrom (firstRecordIndex : Nat) (f : Word → Word → Word) (index : Nat)
    (sources words : List Word) (j : Nat) :
    (modifyFrom firstRecordIndex f index sources words)[j]? =
      words[j]?.map (fun word =>
        if index ≤ firstRecordIndex + j then
          (sources[firstRecordIndex + j - index]?.map (f · word)).getD word
        else word) := by
  induction sources generalizing index words with
  | nil => simp [modifyFrom]
  | cons source rest ih =>
    rw [modifyFrom, ih, getElem?_modifyRecord]
    rcases Nat.lt_trichotomy (firstRecordIndex + j) index with hlt | heq | hgt
    · rw [if_neg (by omega)]
      simp [show ¬index + 1 ≤ firstRecordIndex + j by omega, show ¬index ≤ firstRecordIndex + j by omega]
    · rw [if_pos heq, Option.map_map]
      congr 1
      funext word
      simp [show ¬index + 1 ≤ firstRecordIndex + j by omega, show index ≤ firstRecordIndex + j by omega,
        show firstRecordIndex + j - index = 0 by omega]
    · rw [if_neg (by omega)]
      have hs : firstRecordIndex + j - index = firstRecordIndex + j - (index + 1) + 1 := by omega
      simp [show index + 1 ≤ firstRecordIndex + j by omega, show index ≤ firstRecordIndex + j by omega, hs]

theorem modifyFrom_bare (words : List Word) (firstRecordIndex count : Nat) :
    modifyFrom firstRecordIndex Word.setPayload 0 words
      (modifyFrom firstRecordIndex Word.setDuration 0 words
        (((words.drop firstRecordIndex).take count).map Word.bare)) =
      (words.drop firstRecordIndex).take count := by
  apply List.ext_getElem?
  intro j
  rw [getElem?_modifyFrom, getElem?_modifyFrom, List.getElem?_map]
  by_cases hj : j < count
  · rw [List.getElem?_take_of_lt hj, List.getElem?_drop]
    cases hw : words[firstRecordIndex + j]? with
    | none => rfl
    | some word => simp [Word.setPayload_setDuration_bare]
  · have hnone : ((words.drop firstRecordIndex).take count)[j]? = none := by
      rw [List.getElem?_take, if_neg hj]
    rw [hnone]
    rfl

theorem modifyRecord_of_id (words : List Word) (firstRecordIndex recordIndex : Nat) {f : Word → Word}
    (h : ∀ word, f word = word) : modifyRecord words firstRecordIndex recordIndex f = words := by
  apply List.ext_getElem?
  intro j
  rw [getElem?_modifyRecord]
  split
  · cases words[j]? <;> simp [h]
  · rfl

theorem exceptionIndex_exceptionDelta {previous : Option Nat} {index : Nat} (notIncreasing tooLarge : String)
    (hp : ∀ p ∈ previous, p < index) (hi : index < 2 ^ 64) :
    exceptionIndex previous.isNone (previous.getD 0) (exceptionDelta previous index) notIncreasing
      tooLarge = .ok index := by
  cases previous with
  | none => rfl
  | some p =>
    have hlt : p < index := hp p rfl
    have h1 : index - p ≠ 0 := by omega
    have h2 : p + (index - p) = index := by omega
    simp only [exceptionIndex, exceptionDelta, Option.isNone_some, Option.getD_some, h1, h2, hi,
      Bool.false_eq_true, if_false, if_true]

theorem exceptionDelta_le (previous : Option Nat) (index : Nat) : exceptionDelta previous index ≤ index := by
  cases previous <;> simp [exceptionDelta]

theorem durationsLoop_durationTable {bytes : Bytes} {wordCount firstRecordIndex : Nat}
    (sources : List Word) {previous : Option Nat} {index cursor : Nat} (words : List Word)
    (hp : ∀ p ∈ previous, p < index) (hc : index + sources.length ≤ wordCount) (hw : wordCount < 2 ^ 64)
    (h : HasAt bytes cursor (durationTable previous index sources)) :
    durationsLoop bytes wordCount firstRecordIndex (durationCountOf sources) previous.isNone cursor
        (previous.getD 0) words =
      .ok (cursor + (durationTable previous index sources).length,
        modifyFrom firstRecordIndex Word.setDuration index sources words) := by
  induction sources generalizing previous index cursor words with
  | nil => simp [durationCountOf, durationsLoop, durationTable, modifyFrom]
  | cons source rest ih =>
    simp only [List.length_cons] at hc
    by_cases hd : source.durationNs = 0
    · have hskip : modifyRecord words firstRecordIndex index (Word.setDuration source) = words :=
        modifyRecord_of_id words firstRecordIndex index (by simp [Word.setDuration, hd])
      simp only [durationTable, hd, ne_eq, not_true_eq_false, if_false] at h ⊢
      have hrest := ih words (fun p hm => (hp p hm).trans (by omega)) (by omega) h
      simpa [durationCountOf, List.countP_cons, hd, modifyFrom, hskip] using hrest
    · simp only [durationTable, hd, ne_eq, not_false_eq_true, if_true] at h ⊢
      obtain ⟨h, htail⟩ := HasAt.append.mp h
      obtain ⟨hdelta, hduration⟩ := HasAt.append.mp h
      have hle := exceptionDelta_le previous index
      have hd1 := decodeU64_encode (by omega) hdelta
      have hd2 := decodeU64_encode source.duration_lt hduration
      have hi := exceptionIndex_exceptionDelta "duration exception indices are not increasing"
        "duration index overflow" hp (by omega)
      have hpos : source.duration ≠ 0 := fun hz => hd (Word.duration_eq_zero.mp hz)
      have hbound : ¬wordCount ≤ index := by omega
      have hset : (fun word : Word => { word with durationNs := UInt64.ofNat source.duration }) =
          Word.setDuration source := by
        funext word
        simp [Word.setDuration, hd, Word.duration]
      have hcount : durationCountOf (source :: rest) = durationCountOf rest + 1 := by
        simp [durationCountOf, hd]
      rw [List.length_append, ← Nat.add_assoc] at htail
      have hrest := @ih (some index) (index + 1) _
        (modifyRecord words firstRecordIndex index (Word.setDuration source)) (by simp) (by omega) htail
      simp only [Option.isNone_some, Option.getD_some] at hrest
      rw [hcount]
      simp only [durationsLoop, hd1, hi, hd2, hpos, hbound, if_false, hset, bind, Except.bind, hrest,
        modifyFrom, List.length_append]
      congr 2
      omega

theorem fromUTF8?_toByteArray (text : String) :
    String.fromUTF8? ⟨text.toByteArray.data.toList.toArray⟩ = some text := by
  have hb : (⟨text.toByteArray.data.toList.toArray⟩ : ByteArray) = text.toByteArray := by simp
  rw [hb, String.fromUTF8?, dif_pos text.isValidUTF8]
  rfl

theorem encodePayload_parts (payload : WordPayload) :
    ∃ kind value, RecordTables.encodePayload payload = kind :: (encodeU64 value.length ++ value) ∧
      decodePayload kind value = .ok payload := by
  cases payload with
  | bytes value => exact ⟨1, value, rfl, rfl⟩
  | text value =>
    refine ⟨2, value.toByteArray.data.toList, ?_, ?_⟩
    · simp [RecordTables.encodePayload]
    · unfold decodePayload
      rw [fromUTF8?_toByteArray]
      rfl

theorem payloadsLoop_payloadTable {bytes : Bytes} {wordCount firstRecordIndex : Nat}
    (sources : List Word) {previous : Option Nat} {index cursor : Nat} (words : List Word)
    (hp : ∀ p ∈ previous, p < index) (hc : index + sources.length ≤ wordCount) (hw : wordCount < 2 ^ 64)
    (hb : bytes.length < 2 ^ 64) (h : HasAt bytes cursor (payloadTable previous index sources)) :
    payloadsLoop bytes wordCount firstRecordIndex (payloadCountOf sources) previous.isNone cursor
        (previous.getD 0) words =
      .ok (cursor + (payloadTable previous index sources).length,
        modifyFrom firstRecordIndex Word.setPayload index sources words) := by
  induction sources generalizing previous index cursor words with
  | nil => simp [payloadCountOf, payloadsLoop, payloadTable, modifyFrom]
  | cons source rest ih =>
    simp only [List.length_cons] at hc
    cases hpay : source.payload with
    | none =>
      have hskip : modifyRecord words firstRecordIndex index (Word.setPayload source) = words :=
        modifyRecord_of_id words firstRecordIndex index (by simp [Word.setPayload, hpay])
      simp only [payloadTable, hpay] at h ⊢
      have hrest := ih words (fun p hm => (hp p hm).trans (by omega)) (by omega) h
      simpa [payloadCountOf, List.countP_cons, hpay, modifyFrom, hskip] using hrest
    | some payload =>
      obtain ⟨kind, value, he, hdecode⟩ := encodePayload_parts payload
      simp only [payloadTable, hpay, he] at h ⊢
      obtain ⟨h, htail⟩ := HasAt.append.mp h
      obtain ⟨hdelta, hentry⟩ := HasAt.append.mp h
      have hkind := hentry.head
      obtain ⟨hlen, hvalue⟩ := HasAt.append.mp (HasAt.cons.mp hentry).2
      have hle := exceptionDelta_le previous index
      have hsize := hvalue.length_le
      have hd1 := decodeU64_encode (by omega) hdelta
      have hd2 := decodeU64_encode (by omega) hlen
      have hi := exceptionIndex_exceptionDelta "word payload indices are not increasing"
        "word payload index overflow" hp (by omega)
      have hbound : ¬wordCount ≤ index := by omega
      have hfits := Nat.not_le.mpr (lt_of_le_of_lt hsize hb)
      have hset : (fun word : Word => { word with payload := some payload }) =
          Word.setPayload source := by
        funext word
        simp [Word.setPayload, hpay]
      have hcount : payloadCountOf (source :: rest) = payloadCountOf rest + 1 := by
        simp [payloadCountOf, hpay]
      have hcursor : cursor + (encodeU64 (exceptionDelta previous index) ++
          kind :: (encodeU64 value.length ++ value)).length =
          cursor + (encodeU64 (exceptionDelta previous index)).length + 1 +
            (encodeU64 value.length).length + value.length := by
        simp only [List.length_append, List.length_cons]
        omega
      rw [hcursor] at htail
      have hrest := @ih (some index) (index + 1) _
        (modifyRecord words firstRecordIndex index (Word.setPayload source)) (by simp) (by omega) htail
      simp only [Option.isNone_some, Option.getD_some] at hrest
      rw [hcount]
      simp only [payloadsLoop, hd1, hi, hkind, hd2, hbound, hfits, if_false, hvalue.getRange, hdecode,
        hset, bind, Except.bind, hrest, modifyFrom, List.length_append, List.length_cons]
      congr 2
      omega

end LogicConduit
