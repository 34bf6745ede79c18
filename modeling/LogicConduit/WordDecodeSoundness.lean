import LogicConduit.WordDecodeSafety

namespace LogicConduit

open Vlq

variable {restart : RestartEntry}

section Steps

variable {bytes : Bytes} {parsed : ParsedWordBlock} {recordIndex : Nat} {decoder decoder' : RecordDecoder}

structure RecordDecoder.Step (parsed : ParsedWordBlock) (recordIndex : Nat) (decoder decoder' : RecordDecoder) :
    Prop where
  skip : decoder'.skipInitialLegacyDelta = false
  bound : decoder'.timestamp < 2 ^ 64
  due : ∀ restart, decoder.dueRestart parsed recordIndex = some restart →
    decoder'.timestamp = restart.timestampNs.toNat ∧ decoder'.nextRestartIndex = decoder.nextRestartIndex + 1
  between : decoder.dueRestart parsed recordIndex = none →
    decoder.timestamp ≤ decoder'.timestamp ∧ decoder'.nextRestartIndex = decoder.nextRestartIndex
  legacy : parsed.header.flags &&& blockFlagGroupedTimestamps = 0 → decoder.timestamp ≤ decoder'.timestamp

theorem advance_ok {delta : Nat} (h : decoder.advance delta = .ok decoder') :
    decoder' = { decoder with timestamp := decoder.timestamp + delta } ∧ decoder.timestamp + delta < 2 ^ 64 := by
  rw [RecordDecoder.advance] at h
  split at h
  next hlt => exact ⟨(Except.ok.inj h).symm, hlt⟩
  next => cases h

theorem startGroup_ok (h : decoder.startGroup bytes parsed restart recordIndex = .ok decoder') :
    decoder'.timestamp = restart.timestampNs.toNat ∧ decoder'.nextRestartIndex = decoder.nextRestartIndex + 1 ∧
      decoder'.skipInitialLegacyDelta = decoder.skipInitialLegacyDelta ∧
      restart.payloadOffset = decoder.payloadOffset := by
  rw [RecordDecoder.startGroup] at h
  split at h
  next => cases h
  next =>
    split at h
    next => cases h
    next hoffset =>
      split at h
      next => cases h
      next mode _ =>
        obtain ⟨group, -, h⟩ := except_bind_ok h
        obtain rfl := Except.ok.inj h
        exact ⟨rfl, rfl, rfl, not_not.mp hoffset⟩

theorem groupDelta_ok {result : Nat × RecordDecoder} (h : decoder.groupDelta bytes parsed = .ok result) :
    result.2.timestamp = decoder.timestamp ∧ result.2.nextRestartIndex = decoder.nextRestartIndex ∧
      result.2.skipInitialLegacyDelta = decoder.skipInitialLegacyDelta := by
  rw [RecordDecoder.groupDelta] at h
  split at h
  next =>
    obtain ⟨delta, -, h⟩ := except_bind_ok h
    obtain rfl := Except.ok.inj h
    exact ⟨rfl, rfl, rfl⟩
  next =>
    obtain rfl := Except.ok.inj h
    exact ⟨rfl, rfl, rfl⟩
  next =>
    split at h
    next => cases h
    next =>
      split at h
      next => cases h
      next =>
        obtain rfl := Except.ok.inj h
        exact ⟨rfl, rfl, rfl⟩

theorem nextGrouped_step (hflag : parsed.header.flags &&& blockFlagGroupedTimestamps ≠ 0)
    (hskip : decoder.skipInitialLegacyDelta = false)
    (h : decoder.nextGrouped bytes parsed recordIndex = .ok decoder') :
    RecordDecoder.Step parsed recordIndex decoder decoder' := by
  rw [RecordDecoder.nextGrouped] at h
  split at h
  next restart hdue =>
    obtain ⟨htime, hnext, hsame, -⟩ := startGroup_ok h
    refine ⟨hsame.trans hskip, htime ▸ restart.timestampNs.toNat_lt, ?_, ?_, fun hlegacy => absurd hlegacy hflag⟩
    · intro other hother
      obtain rfl := Option.some.inj (hdue.symm.trans hother)
      exact ⟨htime, hnext⟩
    · intro hnone
      cases hdue.symm.trans hnone
  next hdue =>
    obtain ⟨delta, hdelta, h⟩ := except_bind_ok h
    obtain ⟨htime, hnext, hsame⟩ := groupDelta_ok hdelta
    obtain ⟨rfl, hbound⟩ := advance_ok h
    refine ⟨hsame.trans hskip, hbound, ?_, fun _ => ⟨?_, hnext⟩, fun hlegacy => absurd hlegacy hflag⟩
    · intro restart hrestart
      cases hdue.symm.trans hrestart
    · exact htime ▸ Nat.le_add_right _ _

theorem legacyTimestamp_ok {delta : Nat} (h : decoder.legacyTimestamp recordIndex delta = .ok decoder')
    (hskip : decoder.skipInitialLegacyDelta = false) (hbound : decoder.timestamp < 2 ^ 64) :
    decoder.timestamp ≤ decoder'.timestamp ∧ decoder'.timestamp < 2 ^ 64 ∧
      decoder'.nextRestartIndex = decoder.nextRestartIndex ∧ decoder'.skipInitialLegacyDelta = false := by
  rw [RecordDecoder.legacyTimestamp] at h
  split at h
  next => cases h
  next =>
    rw [hskip, if_neg Bool.false_ne_true] at h
    split at h
    next =>
      obtain rfl := Except.ok.inj h
      exact ⟨Nat.le_refl _, hbound, rfl, hskip⟩
    next =>
      obtain ⟨rfl, hlt⟩ := advance_ok h
      exact ⟨Nat.le_add_right _ _, hlt, rfl, hskip⟩

theorem nextLegacy_step (hskip : decoder.skipInitialLegacyDelta = false) (hbound : decoder.timestamp < 2 ^ 64)
    (h : decoder.nextLegacy bytes parsed recordIndex = .ok decoder') :
    RecordDecoder.Step parsed recordIndex decoder decoder' := by
  obtain ⟨delta, -, h⟩ := except_bind_ok h
  obtain ⟨stamped, hstamped, h⟩ := except_bind_ok h
  obtain ⟨hle, hlt, hnext, hsame⟩ := legacyTimestamp_ok hstamped hskip hbound
  have hdue : stamped.dueRestart parsed recordIndex = decoder.dueRestart parsed recordIndex := by
    rw [RecordDecoder.dueRestart, RecordDecoder.dueRestart, hnext]
  rw [hdue] at h
  split at h
  next restart hrestart =>
    split at h
    next => cases h
    next hmatch =>
      obtain rfl := Except.ok.inj h
      refine ⟨hsame, hlt, ?_, ?_, fun _ => hle⟩
      · intro other hother
        obtain rfl := Option.some.inj (hrestart.symm.trans hother)
        exact ⟨(not_not.mp fun hne => hmatch (.inl hne)).symm, congrArg (· + 1) hnext⟩
      · intro hnone
        cases hrestart.symm.trans hnone
  next hnone =>
    obtain rfl := Except.ok.inj h
    refine ⟨hsame, hlt, ?_, fun _ => ⟨hle, hnext⟩, fun _ => hle⟩
    intro restart hrestart
    cases hnone.symm.trans hrestart

theorem next_step (hskip : decoder.skipInitialLegacyDelta = false) (hbound : decoder.timestamp < 2 ^ 64)
    {word : Word} (h : decoder.next bytes parsed recordIndex = .ok (word, decoder')) :
    RecordDecoder.Step parsed recordIndex decoder decoder' ∧ word.time = decoder'.timestamp := by
  rw [next_eq_bind] at h
  obtain ⟨stamped, hstamped, h⟩ := except_bind_ok h
  obtain ⟨value, -, h⟩ := except_bind_ok h
  obtain ⟨rfl, rfl⟩ := Prod.mk.inj (Except.ok.inj h)
  have hstep : RecordDecoder.Step parsed recordIndex decoder stamped := by
    split at hstamped
    next hflag => exact nextGrouped_step hflag hskip hstamped
    next => exact nextLegacy_step hskip hbound hstamped
  refine ⟨⟨hstep.skip, hstep.bound, hstep.due, hstep.between, hstep.legacy⟩, ?_⟩
  show (UInt64.ofNat stamped.timestamp).toNat = stamped.timestamp
  exact UInt64.toNat_ofNat_of_lt' hstep.bound

end Steps

variable {first second : RestartEntry} {k : Nat} {words : List Word}

section Restarts

variable {bytes : Bytes} {parsed : ParsedWordBlock}

theorem strictlyOrdered_pairwise {restarts : List RestartEntry} (h : strictlyOrdered restarts = true) :
    restarts.Pairwise fun a b => a.recordIndex.toNat < b.recordIndex.toNat := by
  induction restarts with
  | nil => exact List.Pairwise.nil
  | cons first rest ih =>
    cases rest with
    | nil => exact List.pairwise_singleton _ _
    | cons second rest =>
      rw [strictlyOrdered, decide_eq_true_eq] at h
      obtain ⟨hlt, -, -, hrest⟩ := h
      have hpairwise := ih hrest
      have hfirst : first.recordIndex.toNat < second.recordIndex.toNat := UInt32.lt_iff_toNat_lt.mp hlt
      refine List.pairwise_cons.mpr ⟨fun later hlater => ?_, hpairwise⟩
      rcases List.mem_cons.mp hlater with rfl | hlater
      · exact hfirst
      · exact lt_trans hfirst ((List.pairwise_cons.mp hpairwise).1 later hlater)

theorem ParsedWordBlock.Valid.ordered (h : parsed.Valid bytes) : strictlyOrdered parsed.restarts = true := by
  have horder := h.order
  rw [validateRestartOrder] at horder
  split at horder
  next => cases horder
  next =>
    split at horder
    next => cases horder
    next hordered => exact not_not.mp hordered

theorem ParsedWordBlock.Valid.index_lt (h : parsed.Valid bytes) {i k : Nat} (hlt : i < k)
    (hfirst : parsed.restarts[i]? = some first) (hsecond : parsed.restarts[k]? = some second) :
    first.recordIndex.toNat < second.recordIndex.toNat := by
  obtain ⟨hi, rfl⟩ := List.getElem?_eq_some_iff.mp hfirst
  obtain ⟨hk, rfl⟩ := List.getElem?_eq_some_iff.mp hsecond
  exact List.pairwise_iff_getElem.mp (strictlyOrdered_pairwise h.ordered) i k hi hk hlt

/-- The entries before the next one are of earlier records, the others are not. -/
structure DueAfter (parsed : ParsedWordBlock) (recordIndex nextRestartIndex : Nat) : Prop where
  before : ∀ k restart, k < nextRestartIndex → parsed.restarts[k]? = some restart →
    restart.recordIndex.toNat < recordIndex
  after : ∀ k restart, nextRestartIndex ≤ k → parsed.restarts[k]? = some restart →
    recordIndex ≤ restart.recordIndex.toNat

theorem DueAfter.zero (parsed : ParsedWordBlock) : DueAfter parsed 0 0 :=
  ⟨fun _ _ hlt => absurd hlt (Nat.not_lt_zero _), fun _ _ _ _ => Nat.zero_le _⟩

theorem DueAfter.next_eq (h : DueAfter parsed recordIndex nextRestartIndex) (hvalid : parsed.Valid bytes)
    (hrestart : parsed.restarts[k]? = some restart) (hrecord : restart.recordIndex.toNat = recordIndex) :
    nextRestartIndex = k := by
  rcases lt_trichotomy k nextRestartIndex with hlt | heq | hgt
  · have hearlier := h.before k restart hlt hrestart
    omega
  · exact heq.symm
  · have hk := (List.getElem?_eq_some_iff.mp hrestart).1
    obtain ⟨first, hfirst⟩ : ∃ first, parsed.restarts[nextRestartIndex]? = some first :=
      ⟨_, List.getElem?_eq_getElem (Nat.lt_trans hgt hk)⟩
    have hlater := h.after nextRestartIndex first (Nat.le_refl _) hfirst
    have hindex := hvalid.index_lt hgt hfirst hrestart
    omega

structure RecordDecoder.Running (bytes : Bytes) (parsed : ParsedWordBlock) (recordIndex : Nat)
    (decoder : RecordDecoder) : Prop extends decoder.Inside bytes parsed where
  skip : decoder.skipInitialLegacyDelta = false
  bound : decoder.timestamp < 2 ^ 64
  dueAfter : DueAfter parsed recordIndex decoder.nextRestartIndex

variable {decoder decoder' : RecordDecoder}

theorem RecordDecoder.Running.next (hvalid : parsed.Valid bytes) {recordIndex : Nat}
    (h : decoder.Running bytes parsed recordIndex) {word : Word}
    (hnext : decoder.next bytes parsed recordIndex = .ok (word, decoder')) :
    decoder'.Running bytes parsed (recordIndex + 1) := by
  obtain ⟨hstep, -⟩ := next_step h.skip h.bound hnext
  refine ⟨next_inside hvalid.toFits h.toInside hnext, hstep.skip, hstep.bound, ?_⟩
  cases hdue : decoder.dueRestart parsed recordIndex with
  | some restart =>
    obtain ⟨hentry, hrecord⟩ := Option.filter_eq_some_iff.mp hdue
    have hindex : restart.recordIndex.toNat = recordIndex := of_decide_eq_true hrecord
    rw [(hstep.due restart hdue).2]
    refine ⟨fun k other hlt hother => ?_, fun k other hle hother => ?_⟩
    · rcases Nat.lt_succ_iff_lt_or_eq.mp hlt with hlt | rfl
      · exact Nat.lt_succ_of_lt (h.dueAfter.before k other hlt hother)
      · obtain rfl := Option.some.inj (hentry.symm.trans hother)
        omega
    · have hlater := hvalid.index_lt (show decoder.nextRestartIndex < k by omega) hentry hother
      omega
  | none =>
    rw [(hstep.between hdue).2]
    refine ⟨fun k other hlt hother => Nat.lt_succ_of_lt (h.dueAfter.before k other hlt hother), fun k other hle hother => ?_⟩
    have hlater := h.dueAfter.after k other hle hother
    refine lt_of_le_of_ne hlater fun heq => ?_
    obtain rfl := h.dueAfter.next_eq hvalid hother heq.symm
    rw [RecordDecoder.dueRestart, hother, Option.filter_some, if_pos (decide_eq_true heq.symm)] at hdue
    cases hdue

variable {count recordIndex : Nat} {decoder final : RecordDecoder}

theorem decodeRecords_succ
    (h : RecordDecoder.decodeRecords bytes parsed (count + 1) recordIndex decoder = .ok (words, final)) :
    ∃ word rest next, decoder.next bytes parsed recordIndex = .ok (word, next) ∧
      RecordDecoder.decodeRecords bytes parsed count (recordIndex + 1) next = .ok (rest, final) ∧
      words = word :: rest := by
  obtain ⟨⟨word, next⟩, hnext, h⟩ := except_bind_ok h
  obtain ⟨⟨rest, last⟩, hrest, h⟩ := except_bind_ok h
  obtain ⟨rfl, rfl⟩ := Prod.mk.inj (Except.ok.inj h)
  exact ⟨word, rest, next, hnext, hrest, rfl⟩

theorem decodeRecords_length
    (h : RecordDecoder.decodeRecords bytes parsed count recordIndex decoder = .ok (words, final)) :
    words.length = count := by
  induction count generalizing recordIndex decoder words with
  | zero =>
    obtain ⟨rfl, -⟩ := Prod.mk.inj (Except.ok.inj h)
    rfl
  | succ count ih =>
    obtain ⟨word, rest, next, -, hrest, rfl⟩ := decodeRecords_succ h
    rw [List.length_cons, ih hrest]

theorem decodeRecords_append {first second recordIndex : Nat}
    (h : RecordDecoder.decodeRecords bytes parsed (first + second) recordIndex decoder = .ok (words, final)) :
    ∃ before middle after, RecordDecoder.decodeRecords bytes parsed first recordIndex decoder = .ok (before, middle) ∧
      RecordDecoder.decodeRecords bytes parsed second (recordIndex + first) middle = .ok (after, final) ∧
      words = before ++ after := by
  induction first generalizing recordIndex decoder words with
  | zero =>
    rw [Nat.zero_add] at h
    exact ⟨[], decoder, words, rfl, h, rfl⟩
  | succ first ih =>
    rw [Nat.succ_add] at h
    obtain ⟨word, rest, next, hnext, hrest, rfl⟩ := decodeRecords_succ h
    obtain ⟨before, middle, after, hbefore, hafter, rfl⟩ := ih hrest
    refine ⟨word :: before, middle, after, ?_, ?_, rfl⟩
    · rw [RecordDecoder.decodeRecords, hnext]
      show (RecordDecoder.decodeRecords bytes parsed first (recordIndex + 1) next >>= _) = _
      rw [hbefore]
      rfl
    · rwa [Nat.add_assoc, Nat.add_comm 1 first] at hafter

theorem RecordDecoder.Running.records (hvalid : parsed.Valid bytes) (h : decoder.Running bytes parsed recordIndex)
    (hwords : RecordDecoder.decodeRecords bytes parsed count recordIndex decoder = .ok (words, final)) :
    final.Running bytes parsed (recordIndex + count) := by
  induction count generalizing recordIndex decoder words with
  | zero =>
    obtain ⟨-, rfl⟩ := Prod.mk.inj (Except.ok.inj hwords)
    exact h
  | succ count ih =>
    obtain ⟨word, rest, next, hnext, hrest, -⟩ := decodeRecords_succ hwords
    have hlater := ih (h.next hvalid hnext) hrest
    rwa [Nat.add_assoc, Nat.add_comm 1 count] at hlater

theorem decodeRecords_last (hvalid : parsed.Valid bytes) (h : decoder.Running bytes parsed recordIndex)
    (hwords : RecordDecoder.decodeRecords bytes parsed count recordIndex decoder = .ok (words, final)) :
    ∀ word ∈ words.getLast?, word.time = final.timestamp := by
  cases count with
  | zero =>
    obtain ⟨rfl, -⟩ := Prod.mk.inj (Except.ok.inj hwords)
    intro word hword
    cases hword
  | succ count =>
    obtain ⟨before, middle, after, hbefore, hafter, rfl⟩ := decodeRecords_append hwords
    obtain ⟨word, rest, next, hnext, hrest, rfl⟩ := decodeRecords_succ hafter
    obtain ⟨rfl, rfl⟩ := Prod.mk.inj (Except.ok.inj hrest)
    have hmiddle := h.records hvalid hbefore
    intro last hlast
    rw [List.getLast?_concat] at hlast
    obtain rfl := Option.some.inj hlast
    exact (next_step hmiddle.skip hmiddle.bound hnext).2

theorem ParsedWordBlock.Valid.first_record (h : parsed.Valid bytes) {first : RestartEntry}
    (hfirst : parsed.restarts[0]? = some first) : first.recordIndex.toNat = 0 := by
  have horder := h.order
  rw [validateRestartOrder, List.head?_eq_getElem?, hfirst] at horder
  split at horder
  next => cases horder
  next hhead =>
    have hzero : first.recordIndex = 0 ∧ first.payloadOffset = 0 := by simpa using hhead
    rw [hzero.1]
    rfl

theorem ParsedWordBlock.Valid.record_lt (h : parsed.Valid bytes) (hrestart : parsed.restarts[k]? = some restart) :
    restart.recordIndex.toNat < parsed.header.wordCount.toNat := by
  have hk := (List.getElem?_eq_some_iff.mp hrestart).1
  obtain ⟨last, hlast⟩ : ∃ last, parsed.restarts[parsed.restarts.length - 1]? = some last :=
    ⟨_, List.getElem?_eq_getElem (by omega)⟩
  have hbound : last.recordIndex.toNat < parsed.header.wordCount.toNat := by
    have horder := h.order
    rw [validateRestartOrder, List.getLast?_eq_getElem?, hlast] at horder
    split at horder
    next => cases horder
    next =>
      split at horder
      next => cases horder
      next =>
        split at horder
        next => cases horder
        next hinside =>
          simp only [Option.any_some, decide_eq_true_eq, not_or, UInt32.not_le] at hinside
          exact UInt32.lt_iff_toNat_lt.mp hinside.1
  rcases Nat.lt_or_ge k (parsed.restarts.length - 1) with hlt | hge
  · exact lt_trans (h.index_lt hlt hrestart hlast) hbound
  · obtain rfl : k = parsed.restarts.length - 1 := by omega
    obtain rfl := Option.some.inj (hrestart.symm.trans hlast)
    exact hbound

variable {decoder : RecordDecoder}

theorem dueRestart_of_getElem? (hnext : decoder.nextRestartIndex = k) (hrestart : parsed.restarts[k]? = some restart) :
    decoder.dueRestart parsed restart.recordIndex.toNat = some restart := by
  rw [RecordDecoder.dueRestart, hnext, hrestart, Option.filter_some, if_pos (decide_eq_true rfl)]

theorem startGroup_new {k recordIndex : Nat} (hinside : decoder.Inside bytes parsed)
    (hskip : decoder.skipInitialLegacyDelta = false) (hnext : decoder.nextRestartIndex = k)
    (h : decoder.startGroup bytes parsed restart recordIndex = .ok decoder') :
    (RecordDecoder.new k restart false).startGroup bytes parsed restart recordIndex = .ok decoder' := by
  obtain ⟨-, -, -, hoffset⟩ := startGroup_ok h
  have hcursor : decoder.cursor = blockHeaderSize + restart.payloadOffset.toNat := by
    have hheader := hinside.header
    have hbound := hinside.cursor
    unfold blockHeaderSize at hheader
    rw [hoffset, RecordDecoder.payloadOffset, UInt32.toNat_ofNat_of_lt' (by unfold blockHeaderSize UInt32.size; omega)]
    unfold blockHeaderSize
    omega
  obtain ⟨cursor, timestamp, nextRestartIndex, groupTimestamps, skip⟩ := decoder
  dsimp only at hcursor hskip hnext
  subst hcursor hskip hnext
  rw [RecordDecoder.startGroup] at h ⊢
  split at h
  next => cases h
  next =>
    have hraw : ¬¬(RecordDecoder.new nextRestartIndex restart false).groupTimestamps.isComplete = true := not_not.mpr rfl
    rw [if_neg hraw]
    exact h

theorem next_from_restart (hvalid : parsed.Valid bytes) (hflag : parsed.header.flags &&& blockFlagGroupedTimestamps ≠ 0)
    (hrestart : parsed.restarts[k]? = some restart) (h : decoder.Running bytes parsed restart.recordIndex.toNat)
    {result : Word × RecordDecoder} (hnext : decoder.next bytes parsed restart.recordIndex.toNat = .ok result) :
    (RecordDecoder.new k restart false).next bytes parsed restart.recordIndex.toNat = .ok result := by
  have hindex := h.dueAfter.next_eq hvalid hrestart rfl
  rw [next_eq_bind, if_pos hflag] at hnext ⊢
  obtain ⟨stamped, hstamped, hnext⟩ := except_bind_ok hnext
  rw [RecordDecoder.nextGrouped, dueRestart_of_getElem? hindex hrestart] at hstamped
  rw [RecordDecoder.nextGrouped, dueRestart_of_getElem? rfl hrestart]
  dsimp only
  rw [startGroup_new h.toInside h.skip hindex hstamped]
  exact hnext

theorem decodeRecords_from_restart (hvalid : parsed.Valid bytes)
    (hflag : parsed.header.flags &&& blockFlagGroupedTimestamps ≠ 0) {k count : Nat}
    (hrestart : parsed.restarts[k]? = some restart) (h : decoder.Running bytes parsed restart.recordIndex.toNat)
    {final : RecordDecoder}
    (hwords : RecordDecoder.decodeRecords bytes parsed (count + 1) restart.recordIndex.toNat decoder = .ok (words, final)) :
    RecordDecoder.decodeRecords bytes parsed (count + 1) restart.recordIndex.toNat (RecordDecoder.new k restart false) =
      .ok (words, final) := by
  obtain ⟨word, rest, next, hnext, hrest, rfl⟩ := decodeRecords_succ hwords
  rw [RecordDecoder.decodeRecords, next_from_restart hvalid hflag hrestart h hnext]
  show (RecordDecoder.decodeRecords bytes parsed count (restart.recordIndex.toNat + 1) next >>= _) = _
  rw [hrest]
  rfl

theorem decodeRecords_ordered (hvalid : parsed.Valid bytes) (h : decoder.Running bytes parsed recordIndex)
    (hsteps : ∀ i before middle word next, i < count →
      RecordDecoder.decodeRecords bytes parsed i recordIndex decoder = .ok (before, middle) →
      middle.next bytes parsed (recordIndex + i) = .ok (word, next) → middle.timestamp ≤ next.timestamp)
    (hwords : RecordDecoder.decodeRecords bytes parsed count recordIndex decoder = .ok (words, final)) :
    Ordered words ∧ ∀ word ∈ words, decoder.timestamp ≤ word.time := by
  induction count generalizing recordIndex decoder words with
  | zero =>
    obtain ⟨rfl, -⟩ := Prod.mk.inj (Except.ok.inj hwords)
    exact ⟨List.Pairwise.nil, fun _ hword => absurd hword List.not_mem_nil⟩
  | succ count ih =>
    obtain ⟨word, rest, next, hnext, hrest, rfl⟩ := decodeRecords_succ hwords
    have hfirst := hsteps 0 [] decoder word next (Nat.succ_pos count) rfl hnext
    have htime := (next_step h.skip h.bound hnext).2
    obtain ⟨hordered, hlower⟩ := ih (h.next hvalid hnext) (fun i before middle other next' hi hbefore hother => by
      refine hsteps (i + 1) (word :: before) middle other next' (by omega) ?_ ?_
      · rw [RecordDecoder.decodeRecords, hnext]
        show (RecordDecoder.decodeRecords bytes parsed i (recordIndex + 1) next >>= _) = _
        rw [hbefore]
        rfl
      · rwa [Nat.add_comm i 1, ← Nat.add_assoc]) hrest
    refine ⟨List.pairwise_cons.mpr ⟨fun later hlater => htime.le.trans (hlower later hlater), hordered⟩, ?_⟩
    intro later hlater
    rcases List.mem_cons.mp hlater with rfl | hlater
    · exact hfirst.trans_eq htime.symm
    · exact hfirst.trans (hlower later hlater)

end Restarts

variable {parsed : ParsedWordBlock}

section Exceptions

theorem modifyRecord_times {firstRecordIndex recordIndex : Nat} {f : Word → Word}
    (h : ∀ word, (f word).timestampNs = word.timestampNs) (words : List Word) :
    (modifyRecord words firstRecordIndex recordIndex f).map Word.timestampNs = words.map Word.timestampNs := by
  unfold modifyRecord
  split
  next =>
    refine List.ext_getElem? fun i => ?_
    rw [List.getElem?_map, List.getElem?_map, List.getElem?_modify]
    cases words[i]? with
    | none => rfl
    | some word =>
      show some (Word.timestampNs (if _ then f word else word)) = some word.timestampNs
      split
      next => rw [h]
      next => rfl
  next => rfl

variable {bytes : Bytes} {wordCount firstRecordIndex count cursor previous : Nat}

theorem durationsLoop_times {first : Bool} {result : Nat × List Word}
    (h : durationsLoop bytes wordCount firstRecordIndex count first cursor previous words = .ok result) :
    result.2.map Word.timestampNs = words.map Word.timestampNs := by
  induction count generalizing first cursor previous words with
  | zero =>
    obtain rfl := Except.ok.inj h
    rfl
  | succ count ih =>
    obtain ⟨indexDelta, -, h⟩ := except_bind_ok h
    obtain ⟨recordIndex, -, h⟩ := except_bind_ok h
    obtain ⟨duration, -, h⟩ := except_bind_ok h
    dsimp only at h
    split at h
    next => cases h
    next =>
      split at h
      next => cases h
      next =>
        refine (ih h).trans (modifyRecord_times ?_ words)
        intro word
        rfl

theorem payloadsLoop_times {first : Bool} {result : Nat × List Word}
    (h : payloadsLoop bytes wordCount firstRecordIndex count first cursor previous words = .ok result) :
    result.2.map Word.timestampNs = words.map Word.timestampNs := by
  induction count generalizing first cursor previous words with
  | zero =>
    obtain rfl := Except.ok.inj h
    rfl
  | succ count ih =>
    obtain ⟨indexDelta, -, h⟩ := except_bind_ok h
    obtain ⟨recordIndex, -, h⟩ := except_bind_ok h
    dsimp only at h
    split at h
    next => cases h
    next =>
      split at h
      next => cases h
      next =>
        obtain ⟨length, -, h⟩ := except_bind_ok h
        split at h
        next => cases h
        next =>
          split at h
          next => cases h
          next =>
            obtain ⟨payload, -, h⟩ := except_bind_ok h
            refine (ih h).trans (modifyRecord_times ?_ words)
            intro word
            rfl

theorem applyDurations_times {firstRecordIndex : Nat} {words result : List Word}
    (h : applyDurations bytes parsed firstRecordIndex words = .ok result) :
    result.map Word.timestampNs = words.map Word.timestampNs := by
  rw [applyDurations_eq_bind] at h
  obtain ⟨durations, hdurations, h⟩ := except_bind_ok h
  obtain ⟨payloads, hpayloads, h⟩ := except_bind_ok h
  have htimes : payloads.2.map Word.timestampNs = durations.2.map Word.timestampNs := by
    split at hpayloads
    next =>
      obtain ⟨payloadCount, -, hpayloads⟩ := except_bind_ok hpayloads
      exact payloadsLoop_times hpayloads
    next =>
      obtain rfl := Except.ok.inj hpayloads
      rfl
  split at h
  next => cases h
  next =>
    split at h
    next => cases h
    next =>
      obtain rfl := Except.ok.inj h
      exact htimes.trans (durationsLoop_times hdurations)

end Exceptions

section Blocks

variable {bytes : Bytes} {checksum : BlockChecksum}

/-- What the directory of a store relies on. -/
structure DecodedWordBlock.Sound (block : DecodedWordBlock) : Prop where
  nonempty : 1 ≤ block.header.wordCount.toNat
  count : block.words.length = block.header.wordCount.toNat
  ordered : Ordered block.words
  first : block.words.head?.map Word.timestampNs = some block.header.firstTimestampNs
  last : block.words.getLast?.map Word.timestampNs = some block.header.lastTimestampNs

/-- The restart table begins at the first timestamp of the header, and no group of a grouped block, read from its
entry, ends behind the timestamp of the entry after it. -/
structure ParsedWordBlock.TimesAgree (bytes : Bytes) (parsed : ParsedWordBlock) : Prop where
  first : ∀ restart, parsed.restarts[0]? = some restart → restart.timestampNs = parsed.header.firstTimestampNs
  groups : parsed.header.flags &&& blockFlagGroupedTimestamps ≠ 0 → ∀ k restart following words decoder,
    parsed.restarts[k]? = some restart → parsed.restarts[k + 1]? = some following →
    RecordDecoder.decodeRecords bytes parsed (following.recordIndex.toNat - restart.recordIndex.toNat)
      restart.recordIndex.toNat (RecordDecoder.new k restart false) = .ok (words, decoder) →
    decoder.timestamp ≤ following.timestampNs.toNat

/-- An accepted block: its records, and the words with their exceptions. -/
structure Accepted (bytes : Bytes) (parsed : ParsedWordBlock) (restart : RestartEntry) (words : List Word)
    (decoder : RecordDecoder) (block : DecodedWordBlock) : Prop where
  entry : parsed.restarts[0]? = some restart
  records : RecordDecoder.decodeRecords bytes parsed parsed.header.wordCount.toNat 0 (RecordDecoder.new 0 restart false) =
    .ok (words, decoder)
  last : decoder.timestamp = parsed.header.lastTimestampNs.toNat
  header : block.header = parsed.header
  times : block.words.map Word.timestampNs = words.map Word.timestampNs

theorem decodeWordBlock_accepted (hparsed : parseWordBlock checksum bytes = .ok parsed) {block : DecodedWordBlock}
    (h : decodeWordBlock checksum bytes = .ok block) :
    ∃ restart words decoder, Accepted bytes parsed restart words decoder block := by
  obtain ⟨other, hother, h⟩ := except_bind_ok h
  obtain rfl := Except.ok.inj (hparsed.symm.trans hother)
  obtain ⟨restart, hrestart, h⟩ := except_bind_ok h
  obtain ⟨⟨words, decoder⟩, hwords, h⟩ := except_bind_ok h
  dsimp only at h
  split at h
  next => cases h
  next =>
    split at h
    next => cases h
    next hlast =>
      obtain ⟨result, hresult, h⟩ := except_bind_ok h
      obtain rfl := Except.ok.inj h
      refine ⟨restart, words, decoder, ?_, hwords, not_not.mp hlast, rfl, applyDurations_times hresult⟩
      rw [restartAt] at hrestart
      split at hrestart
      next other hentry =>
        obtain rfl := Except.ok.inj hrestart
        exact hentry
      next => cases hrestart

theorem running_start (restart : RestartEntry) :
    (RecordDecoder.new 0 restart false).Running bytes parsed 0 := by
  have hoffset := restart.payloadOffset.toNat_lt
  refine ⟨⟨Nat.le_add_right _ _, ?_, Nat.zero_le _, trivial⟩, rfl, restart.timestampNs.toNat_lt, DueAfter.zero parsed⟩
  simp only [RecordDecoder.new, blockHeaderSize]
  omega

variable {parsed : ParsedWordBlock} {restart : RestartEntry} {words : List Word} {decoder : RecordDecoder}
  {block : DecodedWordBlock}

theorem group_before_entry (hvalid : parsed.Valid bytes)
    (hflag : parsed.header.flags &&& blockFlagGroupedTimestamps ≠ 0) (hfirst : parsed.restarts[k]? = some first)
    (hsecond : parsed.restarts[k + 1]? = some second) {before : List Word} {middle : RecordDecoder}
    (hbefore : RecordDecoder.decodeRecords bytes parsed second.recordIndex.toNat 0 (RecordDecoder.new 0 restart false) =
      .ok (before, middle)) :
    ∃ earlier group, before = earlier ++ group ∧ group ≠ [] ∧
      (∀ word ∈ group.getLast?, word.time = middle.timestamp) ∧
      RecordDecoder.decodeRecords bytes parsed (second.recordIndex.toNat - first.recordIndex.toNat)
        first.recordIndex.toNat (RecordDecoder.new k first false) = .ok (group, middle) := by
  have hlt := hvalid.index_lt (Nat.lt_succ_self k) hfirst hsecond
  obtain ⟨count, hcount⟩ := Nat.exists_eq_add_of_lt hlt
  rw [Nat.add_assoc] at hcount
  rw [hcount] at hbefore
  obtain ⟨earlier, reached, group, hearlier, hgroup, rfl⟩ := decodeRecords_append hbefore
  have hrunning := (running_start restart).records hvalid hearlier
  rw [Nat.zero_add] at hgroup hrunning
  refine ⟨earlier, group, rfl, ?_, decodeRecords_last hvalid hrunning hgroup, ?_⟩
  · intro hnil
    have hlength := decodeRecords_length hgroup
    rw [hnil] at hlength
    cases hlength
  · rw [hcount, Nat.add_sub_cancel_left]
    exact decodeRecords_from_restart hvalid hflag hfirst hrunning hgroup

section

variable (h : Accepted bytes parsed restart words decoder block)
include h

theorem Accepted.ordered (hvalid : parsed.Valid bytes)
    (hagree : parsed.TimesAgree bytes) : Ordered words := by
  refine (decodeRecords_ordered hvalid (running_start restart) ?_ h.records).1
  intro i before middle word next _ hbefore hnext
  have hrunning := (running_start restart).records hvalid hbefore
  rw [Nat.zero_add] at hnext hrunning
  obtain ⟨hstep, -⟩ := next_step hrunning.skip hrunning.bound hnext
  cases hdue : middle.dueRestart parsed i with
  | none => exact (hstep.between hdue).1
  | some second =>
    obtain ⟨hentry, hrecord⟩ := Option.filter_eq_some_iff.mp hdue
    obtain rfl : second.recordIndex.toNat = i := of_decide_eq_true hrecord
    rw [(hstep.due second hdue).1]
    by_cases hflag : parsed.header.flags &&& blockFlagGroupedTimestamps = 0
    · exact (hstep.legacy hflag).trans_eq (hstep.due second hdue).1
    · cases hindex : middle.nextRestartIndex with
      | zero =>
        rw [hindex] at hentry
        obtain rfl := Option.some.inj (h.entry.symm.trans hentry)
        rw [hvalid.first_record hentry] at hbefore
        obtain ⟨-, rfl⟩ := Prod.mk.inj (Except.ok.inj hbefore)
        exact Nat.le_refl _
      | succ k =>
        rw [hindex] at hentry
        have hk := (List.getElem?_eq_some_iff.mp hentry).1
        obtain ⟨first, hfirst⟩ : ∃ first, parsed.restarts[k]? = some first :=
          ⟨_, List.getElem?_eq_getElem (Nat.lt_of_succ_lt hk)⟩
        obtain ⟨earlier, group, -, -, -, hgroup⟩ := group_before_entry hvalid hflag hfirst hentry hbefore
        exact hagree.groups hflag k first second group middle hfirst hentry hgroup

theorem Accepted.groups (hvalid : parsed.Valid bytes)
    (hordered : Ordered words) (hflag : parsed.header.flags &&& blockFlagGroupedTimestamps ≠ 0) {group : List Word}
    {final : RecordDecoder} (hfirst : parsed.restarts[k]? = some first)
    (hsecond : parsed.restarts[k + 1]? = some second)
    (hgroup : RecordDecoder.decodeRecords bytes parsed (second.recordIndex.toNat - first.recordIndex.toNat) first.recordIndex.toNat
      (RecordDecoder.new k first false) = .ok (group, final)) :
    final.timestamp ≤ second.timestampNs.toNat := by
  have hrecords := h.records
  obtain ⟨count, hcount⟩ := Nat.exists_eq_add_of_lt (hvalid.record_lt hsecond)
  rw [hcount, Nat.add_assoc] at hrecords
  obtain ⟨before, middle, after, hbefore, hafter, rfl⟩ := decodeRecords_append hrecords
  obtain ⟨earlier, others, rfl, hne, hlast, hothers⟩ := group_before_entry hvalid hflag hfirst hsecond hbefore
  obtain ⟨rfl, rfl⟩ := Prod.mk.inj (Except.ok.inj (hgroup.symm.trans hothers))
  have hrunning := (running_start restart).records hvalid hbefore
  rw [Nat.zero_add] at hafter hrunning
  obtain ⟨word, rest, next, hnext, -, rfl⟩ := decodeRecords_succ hafter
  obtain ⟨hstep, htime⟩ := next_step hrunning.skip hrunning.bound hnext
  have hdue := dueRestart_of_getElem? (hrunning.dueAfter.next_eq hvalid hsecond rfl) hsecond
  have hword : word.time = second.timestampNs.toNat := htime.trans (hstep.due second hdue).1
  have hmem : group.getLast hne ∈ earlier ++ group := List.mem_append_right earlier (List.getLast_mem hne)
  have hle := (List.pairwise_append.mp hordered).2.2 _ hmem word List.mem_cons_self
  rw [hlast _ (List.getLast?_eq_getLast_of_ne_nil hne ▸ Option.mem_some_self _), hword] at hle
  exact hle

end

theorem ordered_iff_times :
    Ordered words ↔ (words.map Word.timestampNs).Pairwise fun a b => a.toNat ≤ b.toNat := by
  rw [List.pairwise_map]
  rfl

section

variable (h : Accepted bytes parsed restart words decoder block)
include h

theorem Accepted.head (hvalid : parsed.Valid bytes) :
    block.words.head?.map Word.timestampNs = some restart.timestampNs := by
  rw [← List.head?_map, h.times, List.head?_map]
  have hpos : 0 < parsed.header.wordCount.toNat :=
    Nat.lt_of_le_of_lt (Nat.zero_le _) (hvalid.record_lt h.entry)
  have hrecords := h.records
  rw [← Nat.sub_add_cancel hpos] at hrecords
  obtain ⟨word, rest, next, hnext, -, rfl⟩ := decodeRecords_succ hrecords
  obtain ⟨hstep, htime⟩ := next_step rfl restart.timestampNs.toNat_lt hnext
  have hdue : (RecordDecoder.new 0 restart false).dueRestart parsed restart.recordIndex.toNat = some restart :=
    dueRestart_of_getElem? rfl h.entry
  rw [hvalid.first_record h.entry] at hdue
  exact congrArg some (UInt64.toNat.inj (htime.trans (hstep.due restart hdue).1))

theorem Accepted.getLast (hvalid : parsed.Valid bytes) :
    block.words.getLast?.map Word.timestampNs = some block.header.lastTimestampNs := by
  rw [← List.getLast?_map, h.times, List.getLast?_map, h.header]
  have hne : words ≠ [] := by
    intro hnil
    have hlength := decodeRecords_length h.records
    have hpos := hvalid.record_lt h.entry
    rw [hnil, List.length_nil] at hlength
    omega
  have hlast := decodeRecords_last hvalid (running_start restart) h.records (words.getLast hne)
    (List.getLast?_eq_getLast_of_ne_nil hne ▸ Option.mem_some_self _)
  rw [List.getLast?_eq_getLast_of_ne_nil hne]
  exact congrArg some (UInt64.toNat.inj (hlast.trans h.last))

theorem Accepted.sound_iff (hvalid : parsed.Valid bytes) : block.Sound ↔ parsed.TimesAgree bytes := by
  have hsame : Ordered block.words ↔ Ordered words := by
    rw [ordered_iff_times, ordered_iff_times, h.times]
  constructor
  · intro hsound
    refine ⟨fun other hother => ?_, ?_⟩
    · obtain rfl := Option.some.inj (h.entry.symm.trans hother)
      have hfirst := hsound.first
      rw [h.head hvalid, h.header] at hfirst
      exact Option.some.inj hfirst
    · intro hflag k first second group final hfirst hsecond hgroup
      exact h.groups hvalid (hsame.mp hsound.ordered) hflag hfirst hsecond hgroup
  · intro hagree
    refine ⟨?_, ?_, hsame.mpr (h.ordered hvalid hagree), ?_, h.getLast hvalid⟩
    · rw [h.header]
      exact Nat.lt_of_le_of_lt (Nat.zero_le _) (hvalid.record_lt h.entry)
    · have hlength := congrArg List.length h.times
      rw [List.length_map, List.length_map, decodeRecords_length h.records] at hlength
      rw [hlength, h.header]
    · rw [h.head hvalid, h.header, hagree.first restart h.entry]

end

end Blocks

/-- A checksum of any bytes that is always the same. -/
def BlockChecksum.constant (value : UInt32) : BlockChecksum := ⟨fun _ _ => value, fun _ _ _ _ _ => rfl⟩

/-- A grouped block of three words whose second group begins before the first one ends. -/
def backwardBlock : Bytes :=
  let header : WordBlockHeader := {
    flags := blockFlagGroupedTimestamps, sequence := 0, firstTimestampNs := 100, lastTimestampNs := 105
    wordCount := 3, valueBytes := 1, recordPayloadLen := 6, restartCount := 2, restartTableOffset := 78
    durationCount := 0, durationTableOffset := 110, blockLen := 110, crc32c := 701222559 }
  header.writeTo (List.replicate blockHeaderSize 0) ++ [0, 1, 10, 2, 0, 3] ++ RestartEntry.appendTo ⟨100, 0, 0⟩ ++
    RestartEntry.appendTo ⟨105, 4, 2⟩

set_option maxRecDepth 20000 in
theorem backward_block_decodes : ∃ block, checkedDecodeWordBlock Crc32c.blockChecksum backwardBlock = .done block ∧
    block.words.map Word.timestampNs = [100, 110, 105] ∧
    ¬(checkedDecodeWordBlock Crc32c.blockChecksum backwardBlock).Returns DecodedWordBlock.Sound := by
  have hdecoded : (match checkedDecodeWordBlock Crc32c.blockChecksum backwardBlock with
    | .done block => some (block.words.map Word.timestampNs)
    | _ => none) = some [100, 110, 105] := by decide +kernel
  cases hblock : checkedDecodeWordBlock Crc32c.blockChecksum backwardBlock with
  | failed error =>
    rw [hblock] at hdecoded
    cases hdecoded
  | aborted cause =>
    rw [hblock] at hdecoded
    cases hdecoded
  | done block =>
    rw [hblock] at hdecoded
    have htimes := Option.some.inj hdecoded
    refine ⟨block, rfl, htimes, fun hsound => ?_⟩
    have hordered := ordered_iff_times.mp (DecodedWordBlock.Sound.ordered hsound)
    rw [htimes] at hordered
    exact absurd hordered (by decide)

/-- With a `usize` of 64 bits, decoding any bytes aborts on none, and what it accepts is sound exactly when the
timestamps of the restart table agree with the header and the groups. -/
theorem decoded_block_sound_iff (blockChecksum : Bytes → Nat → UInt32) (bytes : Bytes) :
    (checkedDecodeWordBlock blockChecksum bytes).Returns DecodedWordBlock.Sound ↔
      ∀ parsed block, checkedParseWordBlock blockChecksum bytes = .done parsed →
        checkedDecodeWordBlock blockChecksum bytes = .done block → parsed.TimesAgree bytes := by
  have hsum : blockChecksum bytes blockChecksumOffset =
      (BlockChecksum.constant (blockChecksum bytes blockChecksumOffset)).sum bytes blockChecksumOffset := rfl
  generalize BlockChecksum.constant (blockChecksum bytes blockChecksumOffset) = checksum at hsum
  rw [checkedDecodeWordBlock_eq hsum, checkedParseWordBlock_eq hsum]
  cases hparsed : parseWordBlock checksum bytes with
  | error error =>
    rw [decodeWordBlock, hparsed]
    exact ⟨fun _ _ _ _ hnone => (by cases hnone), fun _ => trivial⟩
  | ok parsed =>
    have hvalid := parseWordBlock_valid hparsed
    cases hblock : decodeWordBlock checksum bytes with
    | error error => exact ⟨fun _ _ _ _ hnone => (by cases hnone), fun _ => trivial⟩
    | ok block =>
      obtain ⟨restart, words, decoder, haccepted⟩ := decodeWordBlock_accepted hparsed hblock
      refine (haccepted.sound_iff hvalid).trans ⟨?_, ?_⟩
      · rintro hagree other _ hother -
        obtain rfl := Checked.done.inj hother
        exact hagree
      · intro hagree
        exact hagree parsed block rfl rfl

end LogicConduit
