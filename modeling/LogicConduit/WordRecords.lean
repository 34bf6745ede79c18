import LogicConduit.WordSideTables

namespace LogicConduit

open Vlq

def recordBytes (width previous : Nat) (word : Word) : Bytes :=
  encodeU64 (word.time - previous) ++ leBytes width word.value.toNat

def recordsOf (width : Nat) : Nat → List Word → Bytes
  | _, [] => []
  | previous, word :: rest => recordBytes width previous word ++ recordsOf width word.time rest

def restartsOf (width restartInterval : Nat) : Nat → Nat → Nat → List Word → List RestartEntry
  | _, _, _, [] => []
  | index, offset, previous, word :: rest =>
    (if index % restartInterval = 0 then
      [⟨word.timestampNs, UInt32.ofNat offset, UInt32.ofNat index⟩] else []) ++
      restartsOf width restartInterval (index + 1) (offset + (recordBytes width previous word).length)
        word.time rest

theorem recordBytes_length_pos (width previous : Nat) (word : Word) :
    0 < (recordBytes width previous word).length := by
  have h := encodeU64_length_pos (word.time - previous)
  simp only [recordBytes, List.length_append]
  omega

theorem appendValue_eq {value : UInt64} {width : Nat} (h : width ≤ 8) :
    appendValue value width = leBytes width value.toNat :=
  take_leBytes value.toNat h

def lastException (count index : Nat) : Option Nat := if count = 0 then none else some index

theorem exceptionDelta_lastException (count previous index : Nat) :
    exceptionDelta (lastException count previous) index = if count = 0 then index else index - previous := by
  unfold lastException
  split <;> rfl

namespace RecordTables

section

variable (tables : RecordTables)
include tables

theorem pushDuration_spec (index : Nat) (word : Word) (rest : List Word) :
    (tables.pushDuration index word).durations ++
        durationTable (lastException (tables.pushDuration index word).durationCount
          (tables.pushDuration index word).previousDurationIndex) (index + 1) rest =
      tables.durations ++ durationTable (lastException tables.durationCount tables.previousDurationIndex)
        index (word :: rest) ∧
    (tables.pushDuration index word).durationCount + durationCountOf rest =
      tables.durationCount + durationCountOf (word :: rest) := by
  by_cases hd : word.durationNs = 0
  · simp [pushDuration, durationTable, durationCountOf, hd]
  · constructor
    · simp only [pushDuration, durationTable, hd, ne_eq, not_false_eq_true, if_true,
        exceptionDelta_lastException]
      simp [lastException]
    · simp [pushDuration, durationCountOf, hd]
      omega

theorem pushPayload_spec (index : Nat) (word : Word) (rest : List Word) :
    (tables.pushPayload index word).payloads ++
        payloadTable (lastException (tables.pushPayload index word).emittedPayloadCount
          (tables.pushPayload index word).previousPayloadIndex) (index + 1) rest =
      tables.payloads ++ payloadTable (lastException tables.emittedPayloadCount
        tables.previousPayloadIndex) index (word :: rest) := by
  cases hp : word.payload with
  | none => simp [pushPayload, payloadTable, hp]
  | some payload =>
    simp only [pushPayload, payloadTable, hp, exceptionDelta_lastException]
    simp [lastException]

theorem push_frame (index : Nat) (word : Word) :
    ((tables.pushDuration index word).pushPayload index word).records = tables.records ∧
    ((tables.pushDuration index word).pushPayload index word).restarts = tables.restarts ∧
    ((tables.pushDuration index word).pushPayload index word).previousTimestamp =
      tables.previousTimestamp ∧
    (tables.pushDuration index word).payloads = tables.payloads ∧
    (tables.pushDuration index word).emittedPayloadCount = tables.emittedPayloadCount ∧
    (tables.pushDuration index word).previousPayloadIndex = tables.previousPayloadIndex := by
  unfold pushDuration
  by_cases hd : word.durationNs = 0 <;> cases hp : word.payload <;> simp [hd, hp, pushPayload]

theorem pushPayload_durations (index : Nat) (word : Word) :
    (tables.pushPayload index word).durations = tables.durations ∧
    (tables.pushPayload index word).durationCount = tables.durationCount ∧
    (tables.pushPayload index word).previousDurationIndex = tables.previousDurationIndex := by
  cases hp : word.payload <;> simp [hp, pushPayload]

end

/-- What the loop over `words` adds to the tables. -/
structure Filled (restartInterval width index : Nat) (tables : RecordTables) (words : List Word)
    (result : RecordTables) : Prop where
  records : result.records = tables.records ++ recordsOf width tables.previousTimestamp words
  restarts : result.restarts = tables.restarts ++
    restartsOf width restartInterval index tables.records.length tables.previousTimestamp words
  durations : result.durations = tables.durations ++
    durationTable (lastException tables.durationCount tables.previousDurationIndex) index words
  durationCount : result.durationCount = tables.durationCount + durationCountOf words
  payloads : result.payloads = tables.payloads ++
    payloadTable (lastException tables.emittedPayloadCount tables.previousPayloadIndex) index words

variable {tables result : RecordTables}

theorem pushRestart_eq {restartInterval index : Nat} {word : Word}
    (h : tables.pushRestart restartInterval index word = .ok result) :
    result = { tables with restarts := tables.restarts ++
      (if index % restartInterval = 0 then
        [⟨word.timestampNs, UInt32.ofNat tables.records.length, UInt32.ofNat index⟩] else []) } := by
  unfold pushRestart at h
  split at h
  next hm =>
    cases h
    simp [hm]
  next hm =>
    split at h
    · cases h
      simp only [not_not.mp hm, if_true]
    · cases h

theorem loop_filled {restartInterval width : Nat} (hwidth : width ≤ 8) (words : List Word)
    {index : Nat} (hfirst : index = 0 → ∀ word ∈ words.head?, word.time = tables.previousTimestamp)
    (h : loop restartInterval width words index tables = .ok result) :
    Filled restartInterval width index tables words result := by
  induction words generalizing index tables with
  | nil =>
    cases h
    constructor <;> simp [recordsOf, restartsOf, durationTable, payloadTable, durationCountOf]
  | cons word rest ih =>
    obtain ⟨restarted, hr, h⟩ := except_bind_ok h
    have hsame := pushRestart_eq hr
    have hdelta : (if index = 0 then 0 else word.time - tables.previousTimestamp) =
        word.time - tables.previousTimestamp := by
      split
      next hz => rw [hfirst hz word (by simp), Nat.sub_self]
      next => rfl
    have hrecord : restarted.pushRecord width index word = { restarted with
        records := tables.records ++ recordBytes width tables.previousTimestamp word
        previousTimestamp := word.time } := by
      simp [pushRecord, hsame, hdelta, appendValue_eq hwidth, recordBytes]
    have hrest := ih (fun hz => absurd hz (Nat.succ_ne_zero index)) h
    generalize hpushed : restarted.pushRecord width index word = pushed at h hrest
    obtain ⟨hf1, hf2, hf3, hf4, hf5, hf6⟩ := pushed.push_frame index word
    obtain ⟨hp1, hp2, hp3⟩ := (pushed.pushDuration index word).pushPayload_durations index word
    obtain ⟨hd1, hd2⟩ := pushed.pushDuration_spec index word rest
    have hpay := (pushed.pushDuration index word).pushPayload_spec index word rest
    have hfields := hpushed.symm.trans hrecord
    rw [hsame] at hfields
    constructor
    · rw [hrest.records, hf1, hf3, hfields]
      simp [recordsOf]
    · rw [hrest.restarts, hf1, hf2, hf3, hfields]
      simp [restartsOf]
    · rw [hrest.durations, hp1, hp2, hp3, hd1, hfields]
    · rw [hrest.durationCount, hp2, hd2, hfields]
    · rw [hrest.payloads, hpay, hf4, hf5, hf6, hfields]

end RecordTables

def deltasFrom : Nat → List Word → List Nat
  | _, [] => []
  | previous, word :: rest => (word.time - previous) :: deltasFrom word.time rest

theorem recordsOf_dense_length {previous : Nat} {word : Word} (h : word.time - previous < 128) :
    (recordBytes 1 previous word).length = 2 := by
  simp [recordBytes, encodeU64_of_lt h]

theorem RecordTables.denseLoop_filled {restartInterval : Nat} (words : List Word) {index : Nat}
    {tables : RecordTables}
    (hfirst : index = 0 → ∀ word ∈ words.head?, word.time = tables.previousTimestamp)
    (hsmall : ∀ delta ∈ deltasFrom tables.previousTimestamp words, delta < 128)
    (hlen : tables.records.length = index * 2) :
    (denseLoop restartInterval words index tables).records =
        tables.records ++ recordsOf 1 tables.previousTimestamp words ∧
      (denseLoop restartInterval words index tables).restarts = tables.restarts ++
        restartsOf 1 restartInterval index tables.records.length tables.previousTimestamp words ∧
      (denseLoop restartInterval words index tables).durations = tables.durations ∧
      (denseLoop restartInterval words index tables).durationCount = tables.durationCount ∧
      (denseLoop restartInterval words index tables).payloads = tables.payloads := by
  induction words generalizing index tables with
  | nil => simp [denseLoop, recordsOf, restartsOf]
  | cons word rest ih =>
    have hd : word.time - tables.previousTimestamp < 128 := hsmall _ (by simp [deltasFrom])
    have hdelta : (if index = 0 then 0 else word.time - tables.previousTimestamp) =
        word.time - tables.previousTimestamp := by
      split
      next hz => rw [hfirst hz word (by simp), Nat.sub_self]
      next => rfl
    have hbytes : [UInt8.ofNat (word.time - tables.previousTimestamp), UInt8.ofNat word.value.toNat] =
        recordBytes 1 tables.previousTimestamp word := by
      rw [recordBytes, encodeU64_of_lt hd, leBytes_one]
      rfl
    simp only [denseLoop, hdelta, hbytes]
    obtain ⟨h1, h2, h3, h4, h5⟩ := @ih (index + 1)
      { tables with
        records := tables.records ++ recordBytes 1 tables.previousTimestamp word
        restarts := tables.restarts ++ (if index % restartInterval = 0 then
          [⟨word.timestampNs, UInt32.ofNat (index * 2), UInt32.ofNat index⟩] else [])
        previousTimestamp := word.time }
      (fun hz => absurd hz (Nat.succ_ne_zero index))
      (fun delta hm => hsmall delta (by simp [deltasFrom, hm]))
      (by simp [hlen, recordsOf_dense_length hd]; omega)
    refine ⟨?_, ?_, h3, h4, h5⟩
    · rw [h1]
      simp [recordsOf]
    · rw [h2]
      simp [restartsOf, hlen]

end LogicConduit
