import LogicConduit.WordRecords

namespace LogicConduit

open Vlq

/-- From `decoder` on, the records of the block are those of `words`, and then it is at its end. -/
def Decodes (bytes : Bytes) (parsed : ParsedWordBlock) : Nat → List Word → RecordDecoder → Prop
  | _, [], decoder =>
    decoder.cursor = parsed.recordEnd ∧ decoder.nextRestartIndex = parsed.restarts.length ∧
      decoder.groupTimestamps.isComplete = true
  | index, word :: rest, decoder => ∃ decoder' : RecordDecoder,
    decoder.next bytes parsed index = .ok (word.bare, decoder') ∧ decoder'.timestamp = word.time ∧
      Decodes bytes parsed (index + 1) rest decoder'

variable {bytes : Bytes} {parsed : ParsedWordBlock} {decoder : RecordDecoder}

variable {words : List Word}

theorem decodeRecords_of_decodes {index : Nat} (h : Decodes bytes parsed index words decoder) :
    ∃ decoder' : RecordDecoder,
      RecordDecoder.decodeRecords bytes parsed words.length index decoder =
        .ok (words.map Word.bare, decoder') ∧
      Decodes bytes parsed (index + words.length) [] decoder' ∧
      (∀ word ∈ words.getLast?, decoder'.timestamp = word.time) := by
  induction words generalizing index decoder with
  | nil => exact ⟨decoder, rfl, h, by simp⟩
  | cons word rest ih =>
    obtain ⟨next, hn, ht, hrest⟩ := h
    obtain ⟨last, hr, hend, hlast⟩ := ih hrest
    refine ⟨last, ?_, hend, ?_⟩
    · simp [RecordDecoder.decodeRecords, hn, hr, bind, Except.bind, pure, Except.pure]
    · intro w hw
      cases rest with
      | nil =>
        have he : word = w := by simpa using hw
        cases hr
        rw [← he]
        exact ht
      | cons v vs =>
        rw [List.getLast?_cons_cons] at hw
        exact hlast w hw

theorem decodeU64_take {cursor recordEnd value : Nat} (h : HasAt bytes cursor (encodeU64 value)) (hv : value < 2 ^ 64)
    (he : cursor + (encodeU64 value).length ≤ recordEnd) :
    decodeU64 (bytes.take recordEnd) cursor = .ok (value, cursor + (encodeU64 value).length) :=
  decodeU64_encode hv (h.take he)

theorem readValue_leBytes {cursor recordEnd width value : Nat} (h : HasAt bytes cursor (leBytes width value))
    (hv : value < 256 ^ width) (he : cursor + width ≤ recordEnd) :
    readValue bytes cursor recordEnd width = .ok (UInt64.ofNat value, cursor + width) := by
  have hr := h.getRange
  rw [leBytes_length] at hr
  simp [readValue, Nat.min_eq_left he, hr, ofLeBytes_leBytes hv]

theorem word_bare_eq (word : Word) :
    Word.new (UInt64.ofNat word.value.toNat) (UInt64.ofNat word.time) = word.bare := by
  simp [Word.bare, Word.time]

/-- The restart entries of a table, in the order the decoder meets them. -/
def RestartsWithin (endIndex endOffset : Nat) : Nat → Nat → Nat → List RestartEntry → Prop
  | _, _, _, [] => True
  | index, offset, time, restart :: rest =>
    index ≤ restart.recordIndex.toNat ∧ restart.recordIndex.toNat < endIndex ∧
      offset ≤ restart.payloadOffset.toNat ∧ restart.payloadOffset.toNat < endOffset ∧
      time ≤ restart.timestampNs.toNat ∧
      RestartsWithin endIndex endOffset (restart.recordIndex.toNat + 1)
        (restart.payloadOffset.toNat + 1) restart.timestampNs.toNat rest

variable {restarts : List RestartEntry}

theorem RestartsWithin.mono {endIndex endOffset index offset time index' offset' time' : Nat}
    (h : RestartsWithin endIndex endOffset index offset time restarts) (hi : index' ≤ index) (ho : offset' ≤ offset)
    (ht : time' ≤ time) : RestartsWithin endIndex endOffset index' offset' time' restarts := by
  cases restarts with
  | nil => trivial
  | cons restart rest =>
    obtain ⟨h1, h2, h3, h4, h5, h6⟩ := h
    exact ⟨hi.trans h1, h2, ho.trans h3, h4, ht.trans h5, h6⟩

variable {endIndex endOffset index offset time : Nat}

theorem RestartsWithin.strictlyOrdered (h : RestartsWithin endIndex endOffset index offset time restarts) :
    strictlyOrdered restarts = true := by
  induction restarts generalizing index offset time with
  | nil => rfl
  | cons restart rest ih =>
    have hrest := h.2.2.2.2.2
    cases rest with
    | nil => rfl
    | cons next tail =>
      have htail := ih hrest
      obtain ⟨h1, -, h3, -, h5, -⟩ := hrest
      have hi : restart.recordIndex < next.recordIndex := UInt32.lt_iff_toNat_lt.mpr h1
      have ho : restart.payloadOffset < next.payloadOffset := UInt32.lt_iff_toNat_lt.mpr h3
      have ht : restart.timestampNs ≤ next.timestampNs := UInt64.le_iff_toNat_le.mpr h5
      simp only [LogicConduit.strictlyOrdered, hi, ho, ht, htail, and_self, decide_true]

variable {restart : RestartEntry}

theorem RestartsWithin.mem (h : RestartsWithin endIndex endOffset index offset time restarts) (hm : restart ∈ restarts) :
    index ≤ restart.recordIndex.toNat ∧ restart.recordIndex.toNat < endIndex ∧
      restart.payloadOffset.toNat < endOffset := by
  induction restarts generalizing index offset time with
  | nil => simp at hm
  | cons first rest ih =>
    obtain ⟨h1, h2, -, h4, -, h6⟩ := h
    rcases List.mem_cons.mp hm with he | hm
    · subst he
      exact ⟨h1, h2, h4⟩
    · obtain ⟨hi, hrest⟩ := ih h6 hm
      exact ⟨by omega, hrest⟩

theorem RestartsWithin.validate {time : Nat} {first : RestartEntry} {wordCount payloadLen : UInt32}
    (h : RestartsWithin wordCount.toNat payloadLen.toNat 0 0 time restarts) (hh : restarts.head? = some first)
    (hi : first.recordIndex = 0) (ho : first.payloadOffset = 0) :
    validateRestartOrder restarts wordCount payloadLen = .ok () := by
  have hlast : restarts.getLast?.any
      (fun last => wordCount ≤ last.recordIndex ∨ payloadLen ≤ last.payloadOffset) = false := by
    cases hl : restarts.getLast? with
    | none => rfl
    | some last =>
      obtain ⟨-, h2, h3⟩ := h.mem (List.mem_of_getLast? hl)
      have hw : ¬wordCount ≤ last.recordIndex := by
        rw [UInt32.le_iff_toNat_le]
        omega
      have hp : ¬payloadLen ≤ last.payloadOffset := by
        rw [UInt32.le_iff_toNat_le]
        omega
      simp only [Option.any_some, hw, hp, or_self, decide_false]
  simp only [validateRestartOrder, hh, hi, ho, h.strictlyOrdered, hlast, Option.any_some]
  rfl

theorem recordBytes_length (width previous : Nat) (word : Word) :
    (recordBytes width previous word).length = (encodeU64 (word.time - previous)).length + width := by
  simp [recordBytes]

theorem restartsOf_within {width restartInterval : Nat} (words : List Word)
    {index offset previous : Nat} (hi : index + words.length ≤ u32Max)
    (ho : offset + (recordsOf width previous words).length ≤ u32Max) (hs : Ordered words)
    {time : Nat} (ht : ∀ word ∈ words, time ≤ word.time) :
    RestartsWithin (index + words.length) (offset + (recordsOf width previous words).length)
      index offset time (restartsOf width restartInterval index offset previous words) := by
  induction words generalizing index offset previous time with
  | nil => trivial
  | cons word rest ih =>
    obtain ⟨hw, hs⟩ := List.pairwise_cons.mp hs
    simp only [List.length_cons, recordsOf, List.length_append] at hi ho ⊢
    have hpos := recordBytes_length_pos width previous word
    have hrest := @ih (index + 1) (offset + (recordBytes width previous word).length) word.time
      (by omega) (by omega) hs word.time hw
    rw [show index + 1 + rest.length = index + (rest.length + 1) by omega, Nat.add_assoc] at hrest
    unfold restartsOf
    split
    next hm =>
      have h1 : (UInt32.ofNat index).toNat = index := u32_toNat_ofNat (by omega)
      have h2 : (UInt32.ofNat offset).toNat = offset := u32_toNat_ofNat (by omega)
      refine ⟨by simp [h1], by simp only [h1]; omega, by simp [h2], by simp only [h2]; omega,
        ht word (by simp), ?_⟩
      simp only [h1, h2]
      exact hrest.mono (by omega) (by omega) le_rfl
    next hm =>
      exact hrest.mono (by omega) (by omega) (ht word (by simp))

/-- The decoder stands before the record of index `index`, with `words` still to come. The first
record after a restart does not add its delta, which is taken from a word that was not read. -/
structure LegacyAt (bytes : Bytes) (parsed : ParsedWordBlock) (restartInterval index previous : Nat)
    (words : List Word) (decoder : RecordDecoder) : Prop where
  records : HasAt bytes decoder.cursor (recordsOf parsed.valueBytes previous words)
  recordEnd : decoder.cursor + (recordsOf parsed.valueBytes previous words).length = parsed.recordEnd
  header : blockHeaderSize ≤ decoder.cursor
  restarts : parsed.restarts.drop decoder.nextRestartIndex =
    restartsOf parsed.valueBytes restartInterval index (decoder.cursor - blockHeaderSize) previous words
  nextRestart : decoder.nextRestartIndex ≤ parsed.restarts.length
  timestamp : ∀ word ∈ words.head?,
    decoder.timestamp = if decoder.skipInitialLegacyDelta then word.time else previous
  first : index = 0 → ∀ word ∈ words.head?, word.time = previous
  complete : decoder.groupTimestamps.isComplete = true

theorem RecordDecoder.legacyTimestamp_eq {index previous : Nat} {word : Word}
    (ht : decoder.timestamp = if decoder.skipInitialLegacyDelta then word.time else previous)
    (hf : index = 0 → word.time = previous) (hp : previous ≤ word.time) :
    decoder.legacyTimestamp index (word.time - previous) =
      .ok { decoder with timestamp := word.time, skipInitialLegacyDelta := false } := by
  have hzero : ¬(index = 0 ∧ word.time - previous ≠ 0) := by
    intro h
    have := hf h.1
    omega
  obtain ⟨cursor, timestamp, nextRestartIndex, groupTimestamps, skip⟩ := decoder
  simp only [legacyTimestamp, if_neg hzero]
  cases skip with
  | true =>
    simp only [if_true] at ht ⊢
    rw [ht]
  | false =>
    simp only [Bool.false_eq_true, if_false] at ht ⊢
    split
    next hi => rw [ht, hf hi]
    next hi =>
      have hsum : timestamp + (word.time - previous) = word.time := by omega
      simp only [advance, hsum, word.time_lt, if_true]

variable {restartInterval index previous : Nat} {word : Word} {rest : List Word}

theorem LegacyAt.dueRestart {decoder decoder' : RecordDecoder}
    (h : LegacyAt bytes parsed restartInterval index previous (word :: rest) decoder)
    (hn : decoder'.nextRestartIndex = decoder.nextRestartIndex) (hi : index + (word :: rest).length ≤ u32Max)
    (hs : Ordered (word :: rest)) (ho : parsed.recordEnd ≤ blockHeaderSize + u32Max) :
    decoder'.dueRestart parsed index =
      if index % restartInterval = 0 then
        some ⟨word.timestampNs, decoder.payloadOffset, UInt32.ofNat index⟩ else none := by
  have hr := h.restarts
  have he := h.recordEnd
  have hh := h.header
  have hx : (UInt32.ofNat index).toNat = index := u32_toNat_ofNat (by omega)
  rw [RecordDecoder.dueRestart, hn, ← List.head?_drop, hr, restartsOf]
  split
  next hm => simp [hx, RecordDecoder.payloadOffset]
  next hm =>
    obtain ⟨hw, hs⟩ := List.pairwise_cons.mp hs
    simp only [recordsOf, List.length_append, List.length_cons] at he hi
    have hwithin := @restartsOf_within parsed.valueBytes restartInterval rest (index + 1)
      (decoder.cursor - blockHeaderSize + (recordBytes parsed.valueBytes previous word).length) word.time
      (by omega) (by omega) hs word.time hw
    simp only [List.nil_append]
    apply Option.filter_eq_none_iff.mpr
    intro restart hm'
    have := (hwithin.mem (List.mem_of_mem_head? hm')).1
    simp
    omega

theorem LegacyAt.next (h : LegacyAt bytes parsed restartInterval index previous (word :: rest) decoder)
    (hflag : parsed.header.flags &&& blockFlagGroupedTimestamps = 0) (hi : index + (word :: rest).length ≤ u32Max)
    (hs : Ordered (word :: rest)) (ho : parsed.recordEnd ≤ blockHeaderSize + u32Max) (hp : previous ≤ word.time)
    (hv : word.value.toNat < 256 ^ parsed.valueBytes) :
    ∃ decoder' : RecordDecoder, decoder.next bytes parsed index = .ok (word.bare, decoder') ∧
      decoder'.timestamp = word.time ∧
      LegacyAt bytes parsed restartInterval (index + 1) word.time rest decoder' := by
  obtain ⟨hrecord, htail⟩ := HasAt.append.mp h.records
  obtain ⟨hdelta, hvalue⟩ := HasAt.append.mp hrecord
  have hend := h.recordEnd
  have hheader := h.header
  have hlen := recordBytes_length parsed.valueBytes previous word
  simp only [recordsOf, List.length_append] at hend
  have hd := decodeU64_take hdelta (lt_of_le_of_lt (Nat.sub_le _ _) word.time_lt)
    (by omega : _ ≤ parsed.recordEnd)
  have htime : ({ decoder with cursor := decoder.cursor + (encodeU64 (word.time - previous)).length } :
      RecordDecoder).timestamp = if decoder.skipInitialLegacyDelta then word.time else previous :=
    h.timestamp word (by simp)
  have hl := RecordDecoder.legacyTimestamp_eq htime (fun hz => h.first hz word (by simp)) hp
  have hrv := readValue_leBytes hvalue hv (by omega : _ ≤ parsed.recordEnd)
  have hdue : ∀ timestamp skip, RecordDecoder.dueRestart parsed { decoder with
      cursor := decoder.cursor + (encodeU64 (word.time - previous)).length
      timestamp, skipInitialLegacyDelta := skip } index = _ := fun _ _ => h.dueRestart rfl hi hs ho
  have hcursor : decoder.cursor + (encodeU64 (word.time - previous)).length + parsed.valueBytes =
      decoder.cursor + (recordBytes parsed.valueBytes previous word).length := by omega
  have hoffset : decoder.cursor + (recordBytes parsed.valueBytes previous word).length - blockHeaderSize =
      decoder.cursor - blockHeaderSize + (recordBytes parsed.valueBytes previous word).length := by omega
  have hts : word.timestampNs.toNat = word.time := rfl
  by_cases hm : index % restartInterval = 0
  · have hrest := h.restarts
    simp only [restartsOf, hm, if_true, List.singleton_append] at hrest
    have hlt : decoder.nextRestartIndex < parsed.restarts.length := by
      by_contra hge
      rw [List.drop_eq_nil_of_le (by omega)] at hrest
      cases hrest
    refine ⟨{ decoder with
      cursor := decoder.cursor + (recordBytes parsed.valueBytes previous word).length
      timestamp := word.time
      nextRestartIndex := decoder.nextRestartIndex + 1
      skipInitialLegacyDelta := false }, ?_, rfl, ⟨htail, by simp only; omega, by simp only; omega, ?_,
        hlt, fun _ _ => rfl, fun hz => absurd hz (Nat.succ_ne_zero index), h.complete⟩⟩
    · simp only [RecordDecoder.next, hflag, ne_eq, not_true_eq_false, if_false, RecordDecoder.nextLegacy,
        hd, hl, hdue, hm, if_true, bind, Except.bind, hts, or_self, hrv]
      simp only [pure, Except.pure, hcursor, ← word_bare_eq]
    · rw [← List.drop_drop, hrest, List.drop_one, List.tail_cons, hoffset]
  · refine ⟨{ decoder with
      cursor := decoder.cursor + (recordBytes parsed.valueBytes previous word).length
      timestamp := word.time
      skipInitialLegacyDelta := false }, ?_, rfl, ⟨htail, by simp only; omega, by simp only; omega, ?_,
        h.nextRestart, fun _ _ => rfl, fun hz => absurd hz (Nat.succ_ne_zero index), h.complete⟩⟩
    · simp only [RecordDecoder.next, hflag, ne_eq, not_true_eq_false, if_false, RecordDecoder.nextLegacy,
        hd, hl, hdue, hm, bind, Except.bind, hrv]
      simp only [pure, Except.pure, hcursor, ← word_bare_eq]
    · have hrest := h.restarts
      simp only [restartsOf, hm, if_false, List.nil_append] at hrest
      rw [hrest, hoffset]

theorem LegacyAt.decodes (h : LegacyAt bytes parsed restartInterval index previous words decoder)
    (hflag : parsed.header.flags &&& blockFlagGroupedTimestamps = 0) (hi : index + words.length ≤ u32Max)
    (hs : Ordered words) (ho : parsed.recordEnd ≤ blockHeaderSize + u32Max) (hp : ∀ word ∈ words, previous ≤ word.time)
    (hv : ∀ word ∈ words, word.value.toNat < 256 ^ parsed.valueBytes) :
    Decodes bytes parsed index words decoder := by
  induction words generalizing index previous decoder with
  | nil =>
    have hend := h.recordEnd
    have hrest := h.restarts
    have hnext := h.nextRestart
    rw [restartsOf, List.drop_eq_nil_iff] at hrest
    simp only [recordsOf, List.length_nil, Nat.add_zero] at hend
    exact ⟨hend, by omega, h.complete⟩
  | cons word rest ih =>
    obtain ⟨next, hn, ht, hat⟩ := h.next hflag hi hs ho (hp word (by simp)) (hv word (by simp))
    obtain ⟨hw, hs⟩ := List.pairwise_cons.mp hs
    simp only [List.length_cons] at hi
    exact ⟨next, hn, ht, ih hat (by omega) hs hw (fun w hm => hv w (by simp [hm]))⟩

/-- Each restart entry cuts the words in two, and the table goes on behind the cut. -/
theorem restartsOf_getElem? {width restartInterval : Nat} (words : List Word) {index offset previous k : Nat}
    (h : (restartsOf width restartInterval index offset previous words)[k]? = some restart) :
    ∃ (before : List Word) (word : Word) (after : List Word) (previous' : Nat),
      words = before ++ word :: after ∧
      recordsOf width previous words =
        recordsOf width previous before ++ recordsOf width previous' (word :: after) ∧
      restart = ⟨word.timestampNs, UInt32.ofNat (offset + (recordsOf width previous before).length),
        UInt32.ofNat (index + before.length)⟩ ∧
      (restartsOf width restartInterval index offset previous words).drop k =
        restartsOf width restartInterval (index + before.length)
          (offset + (recordsOf width previous before).length) previous' (word :: after) ∧
      (before = [] → previous' = previous) ∧ (∀ b ∈ before.getLast?, previous' = b.time) := by
  induction words generalizing index offset previous k with
  | nil => simp [restartsOf] at h
  | cons word rest ih =>
    have later : ∀ {k : Nat}, (restartsOf width restartInterval (index + 1)
        (offset + (recordBytes width previous word).length) word.time rest)[k]? = some restart →
        ∃ (before : List Word) (w : Word) (after : List Word) (previous' : Nat),
          word :: rest = before ++ w :: after ∧
          recordsOf width previous (word :: rest) =
            recordsOf width previous before ++ recordsOf width previous' (w :: after) ∧
          restart = ⟨w.timestampNs, UInt32.ofNat (offset + (recordsOf width previous before).length),
            UInt32.ofNat (index + before.length)⟩ ∧
          (restartsOf width restartInterval (index + 1)
            (offset + (recordBytes width previous word).length) word.time rest).drop k =
            restartsOf width restartInterval (index + before.length)
              (offset + (recordsOf width previous before).length) previous' (w :: after) ∧
          (before = [] → previous' = previous) ∧ (∀ b ∈ before.getLast?, previous' = b.time) := by
      intro k hk
      obtain ⟨before, w, after, previous', hw, hr, he, hd, hn, hl⟩ := ih hk
      have hoff : offset + (recordsOf width previous (word :: before)).length =
          offset + (recordBytes width previous word).length +
            (recordsOf width word.time before).length := by
        simp only [recordsOf, List.length_append]
        omega
      have hidx : index + (word :: before).length = index + 1 + before.length := by
        simp only [List.length_cons]
        omega
      refine ⟨word :: before, w, after, previous', by simp [hw], by simp [recordsOf, hr], ?_, ?_,
        by simp, ?_⟩
      · rw [hoff, hidx]
        exact he
      · rw [hoff, hidx]
        exact hd
      · intro b hb
        cases before with
        | nil =>
          have : word = b := by simpa using hb
          rw [hn rfl, this]
        | cons c cs =>
          rw [List.getLast?_cons_cons] at hb
          exact hl b hb
    unfold restartsOf at h
    by_cases hm : index % restartInterval = 0
    · rw [if_pos hm] at h
      cases k with
      | zero =>
        refine ⟨[], word, rest, previous, rfl, by simp [recordsOf], ?_, rfl, fun _ => rfl, by simp⟩
        simpa [recordsOf] using h.symm
      | succ k =>
        obtain ⟨before, w, after, previous', hw, hr, he, hd, hn⟩ := later (by simpa using h)
        refine ⟨before, w, after, previous', hw, hr, he, ?_, hn⟩
        rw [restartsOf, if_pos hm]
        simpa using hd
    · rw [if_neg hm] at h
      obtain ⟨before, w, after, previous', hw, hr, he, hd, hn⟩ := later (by simpa using h)
      refine ⟨before, w, after, previous', hw, hr, he, ?_, hn⟩
      rw [restartsOf, if_neg hm]
      simpa using hd

/-- A decoder that starts at any entry of the restart table reads the rest of the block. Only the
first entry may add its delta, which is zero. -/
theorem legacy_decodes_restart {restartInterval first : Nat} {k : Nat} {skip : Bool}
    (hrecords : HasAt bytes blockHeaderSize (recordsOf parsed.valueBytes first words))
    (hend : parsed.recordEnd = blockHeaderSize + (recordsOf parsed.valueBytes first words).length)
    (hrestarts : parsed.restarts = restartsOf parsed.valueBytes restartInterval 0 0 first words)
    (hfirst : ∀ word ∈ words.head?, word.time = first) (hflag : parsed.header.flags &&& blockFlagGroupedTimestamps = 0)
    (hi : words.length ≤ u32Max) (hs : Ordered words) (ho : (recordsOf parsed.valueBytes first words).length ≤ u32Max)
    (hv : ∀ word ∈ words, word.value.toNat < 256 ^ parsed.valueBytes) (hk : parsed.restarts[k]? = some restart)
    (hskip : skip = true ∨ k = 0) :
    restart.recordIndex.toNat < words.length ∧
      Decodes bytes parsed restart.recordIndex.toNat (words.drop restart.recordIndex.toNat)
        (RecordDecoder.new k restart skip) := by
  rw [hrestarts] at hk
  obtain ⟨before, word, after, previous, hw, hr, he, hd, hn, hl⟩ := restartsOf_getElem? words hk
  simp only [Nat.zero_add] at he hd
  have hlen : words.length = before.length + (after.length + 1) := by simp [hw]
  have hsum : (recordsOf parsed.valueBytes first words).length =
      (recordsOf parsed.valueBytes first before).length +
        (recordsOf parsed.valueBytes previous (word :: after)).length := by
    rw [hr, List.length_append]
  have hx : restart.recordIndex.toNat = before.length := by
    rw [he]
    exact u32_toNat_ofNat (by omega)
  have hoff : restart.payloadOffset.toNat = (recordsOf parsed.valueBytes first before).length := by
    rw [he]
    exact u32_toNat_ofNat (by omega)
  have hdrop : words.drop before.length = word :: after := by
    rw [hw, List.drop_left' rfl]
  have hsorted : Ordered (word :: after) := by
    have := hs.sublist (List.drop_sublist before.length words)
    rwa [hdrop] at this
  have hprev : ∀ w ∈ word :: after, previous ≤ w.time := by
    intro w hm
    cases hb : before.getLast? with
    | none =>
      have hnil : before = [] := List.getLast?_eq_none_iff.mp hb
      have hwf : word.time = first := hfirst word (by simp [hw, hnil])
      rw [hn hnil, ← hwf]
      rcases List.mem_cons.mp hm with he' | hm
      · rw [he']
      · exact (List.pairwise_cons.mp hsorted).1 w hm
    | some b =>
      rw [hl b hb]
      rw [hw] at hs
      exact (List.pairwise_append.mp hs).2.2 b (List.mem_of_getLast? hb) w hm
  refine ⟨by omega, ?_⟩
  rw [hx, hdrop]
  have hat : LegacyAt bytes parsed restartInterval before.length previous (word :: after)
      (RecordDecoder.new k restart skip) := by
    refine ⟨?_, ?_, by simp [RecordDecoder.new], ?_, ?_, ?_, ?_, rfl⟩
    · simp only [RecordDecoder.new, hoff]
      rw [hr] at hrecords
      exact (HasAt.append.mp hrecords).2
    · simp only [RecordDecoder.new, hoff, hend]
      omega
    · simp only [RecordDecoder.new, hoff, hrestarts, Nat.add_sub_cancel_left]
      exact hd
    · rw [hrestarts]
      have := List.getElem?_eq_some_iff.mp hk
      exact this.1.le
    · intro w hm
      have hww : word = w := by simpa using hm
      have htime : restart.timestampNs.toNat = word.time := by
        rw [he]
        rfl
      rcases hskip with rfl | rfl
      · simp only [RecordDecoder.new, htime, if_true, hww]
      · have hnil : before = [] := by
          by_contra hne
          obtain ⟨b, bs, hb⟩ := List.exists_cons_of_ne_nil hne
          have hzero : restart.recordIndex.toNat = 0 := by
            simp only [hw, hb, List.cons_append, restartsOf, Nat.zero_mod, if_true,
              List.getElem?_cons_zero, Option.some.injEq] at hk
            rw [← hk]
            rfl
          rw [hx, hb] at hzero
          simp at hzero
        have hwf : word.time = first := hfirst word (by simp [hw, hnil])
        simp only [RecordDecoder.new, htime, hn hnil, ← hww, hwf, ite_self]
    · intro hz w hm
      have hww : word = w := by simpa using hm
      have hnil : before = [] := List.length_eq_zero_iff.mp hz
      rw [← hww, hn hnil]
      exact hfirst word (by simp [hw, hnil])
  refine hat.decodes hflag (by simp only [List.length_cons]; omega) hsorted (by omega) hprev ?_
  intro w hm
  apply hv
  rw [hw]
  exact List.mem_append_right _ hm

end LogicConduit
