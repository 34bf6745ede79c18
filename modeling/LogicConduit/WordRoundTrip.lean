import LogicConduit.WordLayout

namespace LogicConduit

open Vlq

/-- What the encoder may assume of the words and of the sizes the builder passes along. -/
structure BlockInput (words : List Word) (restartInterval width : Nat) (dense : Bool) : Prop where
  nonempty : words ≠ []
  interval : 0 < restartInterval
  widths : width = 1 ∨ width = 2 ∨ width = 4 ∨ width = 8
  values : ∀ word ∈ words, word.value.toNat < 256 ^ width
  length : words.length ≤ u32Max
  ordered : Ordered words
  dense : dense = true → width = 1 ∧ (∀ word ∈ words, word.durationNs = 0 ∧ word.payload = none) ∧
    ∀ delta ∈ deltasFrom ((words.head?.map Word.time).getD 0) words, delta < 128

theorem valueWidth_spec (maxValue : Nat) (h : maxValue < 2 ^ 64) :
    (valueWidth maxValue = 1 ∨ valueWidth maxValue = 2 ∨ valueWidth maxValue = 4 ∨
      valueWidth maxValue = 8) ∧ maxValue < 256 ^ valueWidth maxValue := by
  unfold valueWidth
  split
  · exact ⟨by simp, by norm_num; omega⟩
  · split
    · exact ⟨by simp, by norm_num; omega⟩
    · split
      · exact ⟨by simp, by norm_num; omega⟩
      · exact ⟨by simp, by norm_num; omega⟩

theorem maxValueOf_lt (words : List Word) : maxValueOf words < 2 ^ 64 := by
  induction words with
  | nil => simp [maxValueOf]
  | cons word rest ih =>
    have hw := word.value.toNat_lt
    simp only [maxValueOf, List.map_cons, List.foldr_cons] at ih ⊢
    omega

theorem deltaBytes_eq_length {previous : Nat} {words : List Word} :
    words.length ≤ deltaBytes previous words ∧ (deltaBytes previous words = words.length →
      ∀ delta ∈ deltasFrom previous words, delta < 128) := by
  induction words generalizing previous with
  | nil => simp [deltaBytes, deltasFrom]
  | cons word rest ih =>
    obtain ⟨hle, hsmall⟩ := @ih word.time
    have hpos := encodedLen_pos (word.time - previous)
    simp only [deltaBytes, List.length_cons, deltasFrom]
    refine ⟨by omega, ?_⟩
    intro h delta hm
    rcases List.mem_cons.mp hm with he | hm
    · rw [he]
      exact encodedLen_eq_one_iff.mp (by omega)
    · exact hsmall (by omega) delta hm

theorem WordBlockBuilder.Sized.blockInput {builder : WordBlockBuilder} (h : builder.Sized)
    (hne : builder.words ≠ []) (ho : Ordered builder.words) :
    BlockInput builder.words builder.config.restartInterval (valueWidth builder.maxValue)
      builder.denseByteWords := by
  have hof := h.fits.of
  have hmax : builder.maxValue = maxValueOf builder.words := hof.maxValue
  obtain ⟨hwidth, hlt⟩ := valueWidth_spec builder.maxValue (hmax ▸ maxValueOf_lt builder.words)
  refine ⟨hne, h.restartInterval, hwidth, ?_, h.fits.length.trans h.maxWords_le, ho, ?_⟩
  · intro word hm
    have := le_maxValueOf hm
    omega
  · intro hd
    simp only [denseByteWords, decide_eq_true_eq] at hd
    obtain ⟨hdur, hpay, hval, hbytes⟩ := hd
    refine ⟨by simp [valueWidth, hval], ?_, ?_⟩
    · intro word hm
      have h1 := hof.durationCount.symm.trans hdur
      have h2 := hof.payloadCount.symm.trans hpay
      rw [List.countP_eq_zero] at h1 h2
      have h1 := h1 word hm
      have h2 := h2 word hm
      exact ⟨by simpa using h1, by simpa using h2⟩
    · have hsize := hof.timestampBytes.symm.trans hbytes
      obtain ⟨word, rest, hw⟩ := List.exists_cons_of_ne_nil hne
      rw [hw] at hsize ⊢
      have hone : encodedLen 0 = 1 := encodedLen_of_lt (by decide)
      have hrest := @deltaBytes_eq_length word.time rest
      simp only [timestampBytesOf, List.length_cons] at hsize
      simp only [List.head?_cons, Option.map_some, Option.getD_some, deltasFrom]
      intro delta hm
      rcases List.mem_cons.mp hm with he | hm
      · omega
      · exact hrest.2 (by omega) delta hm

/-- The tables of a block of `words`, in whichever layout. -/
structure PartsOf (words : List Word) (width : Nat) (parts : BlockParts) : Prop where
  decodes : ∀ (bytes : Bytes) (parsed : ParsedWordBlock), HasAt bytes blockHeaderSize parts.records →
    parsed.recordEnd = blockHeaderSize + parts.records.length → parsed.restarts = parts.restarts →
    parsed.header.flags = parts.flags → parsed.valueBytes = width →
    parsed.header.wordCount.toNat = words.length → parts.records.length ≤ u32Max →
    ∀ (k : Nat) (restart : RestartEntry) (skip : Bool), parsed.restarts[k]? = some restart →
      skip = true ∨ k = 0 → restart.recordIndex.toNat < words.length ∧
        Decodes bytes parsed restart.recordIndex.toNat (words.drop restart.recordIndex.toNat)
          (RecordDecoder.new k restart skip)
  within : parts.records.length ≤ u32Max →
    RestartsWithin words.length parts.records.length 0 0 0 parts.restarts
  head : ∃ timestampNs, parts.restarts.head? = some ⟨timestampNs, 0, 0⟩
  durations : parts.durations = durationTable none 0 words
  durationCount : parts.durationCount = durationCountOf words
  payloads : parts.payloads =
    (if 0 < payloadCountOf words then encodeU64 (payloadCountOf words) else []) ++
      payloadTable none 0 words
  supported : parts.flags &&& ~~~(blockFlagHasDurations ||| blockFlagHasPayloads |||
    blockFlagGroupedTimestamps) = 0
  hasPayloads : parts.flags &&& blockFlagHasPayloads ≠ 0 ↔ 0 < payloadCountOf words

theorem flags_spec (d p g : Prop) [Decidable d] [Decidable p] [Decidable g] :
    let flags := (if d then blockFlagHasDurations else 0) ||| (if p then blockFlagHasPayloads else 0) |||
      (if g then blockFlagGroupedTimestamps else 0)
    flags &&& ~~~(blockFlagHasDurations ||| blockFlagHasPayloads ||| blockFlagGroupedTimestamps) = 0 ∧
      (flags &&& blockFlagHasPayloads ≠ 0 ↔ p) ∧ (flags &&& blockFlagGroupedTimestamps ≠ 0 ↔ g) := by
  by_cases hd : d <;> by_cases hp : p <;> by_cases hg : g <;> simp only [hd, hp, hg, if_true, if_false] <;>
    decide

variable {words : List Word}

theorem durationTable_of_free (h : ∀ word ∈ words, word.durationNs = 0) (previous : Option Nat) (index : Nat) :
    durationTable previous index words = [] ∧ durationCountOf words = 0 := by
  induction words generalizing previous index with
  | nil => exact ⟨rfl, rfl⟩
  | cons word rest ih =>
    have hw := h word (by simp)
    obtain ⟨h1, h2⟩ := ih (fun w hm => h w (by simp [hm])) previous (index + 1)
    refine ⟨by simp [durationTable, hw, h1], ?_⟩
    rw [durationCountOf, List.countP_cons_of_neg (by simp [hw])]
    exact h2

theorem payloadTable_of_free (h : ∀ word ∈ words, word.payload = none) (previous : Option Nat) (index : Nat) :
    payloadTable previous index words = [] ∧ payloadCountOf words = 0 := by
  induction words generalizing previous index with
  | nil => exact ⟨rfl, rfl⟩
  | cons word rest ih =>
    have hw := h word (by simp)
    obtain ⟨h1, h2⟩ := ih (fun w hm => h w (by simp [hm])) previous (index + 1)
    refine ⟨by simp [payloadTable, hw, h1], ?_⟩
    rw [payloadCountOf, List.countP_cons_of_neg (by simp [hw])]
    exact h2

theorem head?_restartsOf {width restartInterval previous : Nat} (h : words ≠ []) :
    ∃ timestampNs, (restartsOf width restartInterval 0 0 previous words).head? = some ⟨timestampNs, 0, 0⟩ := by
  obtain ⟨word, rest, rfl⟩ := List.exists_cons_of_ne_nil h
  exact ⟨word.timestampNs, rfl⟩

/-- The tables of the general and of the dense layout: both have the same records. -/
structure LegacyTables (words : List Word) (restartInterval width : Nat) (parts : BlockParts) : Prop where
  records : parts.records = recordsOf width ((words.head?.map Word.time).getD 0) words
  restarts : parts.restarts =
    restartsOf width restartInterval 0 0 ((words.head?.map Word.time).getD 0) words
  durations : parts.durations = durationTable none 0 words
  durationCount : parts.durationCount = durationCountOf words
  payloads : parts.payloads =
    (if 0 < payloadCountOf words then encodeU64 (payloadCountOf words) else []) ++
      payloadTable none 0 words
  flags : parts.flags = (if 0 < parts.durationCount then blockFlagHasDurations else 0) |||
    (if 0 < payloadCountOf words then blockFlagHasPayloads else 0) |||
    (if False then blockFlagGroupedTimestamps else 0)

structure GroupedTables (words : List Word) (restartInterval timestampBytes : Nat) (parts : BlockParts) :
    Prop where
  records : parts.records = (chunks restartInterval words).flatMap encodeGroup
  restarts : parts.restarts = groupRestarts 0 0 (chunks restartInterval words)
  durations : parts.durations = []
  durationCount : parts.durationCount = 0
  payloads : parts.payloads = []
  flags : parts.flags = (if 0 < parts.durationCount then blockFlagHasDurations else 0) |||
    (if 0 < payloadCountOf words then blockFlagHasPayloads else 0) |||
    (if True then blockFlagGroupedTimestamps else 0)
  shorter : parts.records.length < timestampBytes + words.length

variable {dense : Bool} {parts : BlockParts}

variable {restartInterval width : Nat}

theorem LegacyTables.partsOf (hl : LegacyTables words restartInterval width parts)
    (h : BlockInput words restartInterval width dense) : PartsOf words width parts := by
  obtain ⟨hr, hs, hd, hdc, hp, hf⟩ := hl
  obtain ⟨hf1, hf2, hf3⟩ := flags_spec (0 < parts.durationCount) (0 < payloadCountOf words) False
  rw [← hf] at hf1 hf2 hf3
  refine ⟨?_, ?_, ?_, hd, hdc, hp, hf1, hf2⟩
  · intro bytes parsed hbytes hend hrestarts hflags hvb hcount hsize k restart skip hk hskip
    rw [hr] at hbytes hend hsize
    rw [hs] at hrestarts
    subst hvb
    refine legacy_decodes_restart hbytes hend hrestarts ?_ ?_ h.length h.ordered hsize h.values hk hskip
    · intro word hm
      have hh : words.head? = some word := hm
      simp [hh]
    · rw [hflags]
      exact not_not.mp (fun hne => hf3.mp hne)
  · intro hsize
    rw [hr] at hsize ⊢
    rw [hs]
    have hw := @restartsOf_within width restartInterval words 0 0 ((words.head?.map Word.time).getD 0)
      (by simpa using h.length) (by simpa using hsize) h.ordered 0 (fun _ _ => Nat.zero_le _)
    simpa using hw
  · rw [hs]
    exact head?_restartsOf h.nonempty

variable {restartInterval width timestampBytes : Nat}

theorem GroupedTables.partsOf (hg : GroupedTables words restartInterval timestampBytes parts)
    (h : BlockInput words restartInterval width true) : PartsOf words width parts := by
  obtain ⟨hr, hs, hd, hdc, hp, hf, -⟩ := hg
  obtain ⟨hflat, hne⟩ := chunksLoop_spec h.interval words.length (le_refl words.length)
  rw [← chunks] at hflat hne
  generalize chunks restartInterval words = groups at hr hs hflat hne
  obtain ⟨hf1, hf2, hf3⟩ := flags_spec (0 < parts.durationCount) (0 < payloadCountOf words) True
  rw [← hf] at hf1 hf2 hf3
  obtain ⟨hw, hfree, -⟩ := h.dense rfl
  obtain ⟨hdt, hdn⟩ := durationTable_of_free (fun word hm => (hfree word hm).1) none 0
  obtain ⟨hpt, hpn⟩ := payloadTable_of_free (fun word hm => (hfree word hm).2) none 0
  refine ⟨?_, ?_, ?_, by rw [hd, hdt], by rw [hdc, hdn], by simp [hp, hpt, hpn], hf1, hf2⟩
  · intro bytes parsed hbytes hend hrestarts hflags hvb hcount hsize k restart skip hk hskip
    rw [hr] at hbytes hend hsize
    rw [hs] at hrestarts
    rw [← hflat] at hcount ⊢
    refine grouped_decodes_restart skip hbytes hend hrestarts ?_ (hvb.trans hw) hcount hne ?_ hsize ?_ hk
    · rw [hflags]
      exact hf3.mpr trivial
    · rw [hflat]
      exact h.ordered
    · intro word hm
      rw [hflat] at hm
      simpa [hw] using h.values word hm
  · intro hsize
    rw [hr] at hsize ⊢
    rw [hs]
    have hwithin := @groupRestarts_within groups 0 0 (by simpa [hflat] using h.length)
      (by simpa using hsize) (by rw [hflat]; exact h.ordered) hne 0 (fun _ _ => Nat.zero_le _)
    simpa [hflat] using hwithin
  · rw [hs]
    cases groups with
    | nil => exact absurd hflat.symm h.nonempty
    | cons group groups => exact ⟨_, rfl⟩

theorem encodeParts_tables (h : BlockInput words restartInterval width dense)
    (he : encodeParts words restartInterval width timestampBytes dense = .ok parts) :
    LegacyTables words restartInterval width parts ∨
      dense = true ∧ GroupedTables words restartInterval timestampBytes parts := by
  have hwidth : width ≤ 8 := by
    have := h.widths
    omega
  have hfirst : 0 = 0 → ∀ word ∈ words.head?, word.time = (words.head?.map Word.time).getD 0 := by
    intro _ word hm
    have hh : words.head? = some word := hm
    simp [hh]
  unfold encodeParts at he
  obtain ⟨tables, ht, he⟩ := except_bind_ok he
  cases hg : (if dense then encodeGroupedDenseRecords words restartInterval timestampBytes else none) with
  | some grouped =>
    obtain ⟨records, restarts⟩ := grouped
    have hd : dense = true := by
      by_contra hn
      rw [if_neg hn] at hg
      cases hg
    rw [hg] at ht he
    rw [if_pos hd] at hg
    subst hd
    cases ht
    cases he
    unfold encodeGroupedDenseRecords at hg
    cases hl : groupsLoop restartInterval (chunks restartInterval words) 0 [] [] with
    | none =>
      rw [hl] at hg
      cases hg
    | some result =>
      obtain ⟨records', restarts'⟩ := result
      rw [hl] at hg
      simp only at hg
      split at hg
      next hshorter =>
        cases hg
        obtain ⟨h1, h2⟩ := groupsLoop_spec words.length hl
        obtain ⟨-, hfree, -⟩ := h.dense rfl
        have hpn := (payloadTable_of_free (fun word hm => (hfree word hm).2) none 0).2
        refine Or.inr ⟨rfl, by simpa [chunks] using h1, by simpa [chunks] using h2, rfl, rfl, ?_, ?_, hshorter⟩
        · simp [hpn]
        · simp
      next => cases hg
  | none =>
    left
    rw [hg] at ht he
    cases he
    cases hd : dense with
    | true =>
      rw [hd] at ht
      simp only [fillTables, if_true] at ht
      cases ht
      rw [hd] at h
      obtain ⟨hw, hfree, hsmall⟩ := h.dense rfl
      subst hw
      obtain ⟨hdt, hdn⟩ := durationTable_of_free (fun word hm => (hfree word hm).1) none 0
      obtain ⟨hpt, hpn⟩ := payloadTable_of_free (fun word hm => (hfree word hm).2) none 0
      obtain ⟨h1, h2, h3, h4, h5⟩ := @RecordTables.denseLoop_filled restartInterval words 0
        ⟨[], [], if 0 < payloadCountOf words then encodeU64 (payloadCountOf words) else [], [],
          (words.head?.map Word.time).getD 0, 0, 0, 0, 0⟩ hfirst hsmall rfl
      exact ⟨by simpa using h1, by simpa using h2, by simpa [hdt] using h3, by simpa [hdn] using h4,
        by simpa [hpt] using h5, by simp⟩
    | false =>
      rw [hd] at ht
      simp only [fillTables, Bool.false_eq_true, if_false] at ht
      have hfilled := RecordTables.loop_filled hwidth words hfirst ht
      exact ⟨by simpa using hfilled.records, by simpa using hfilled.restarts,
        by simpa [lastException] using hfilled.durations, by simpa using hfilled.durationCount,
        by simpa [lastException] using hfilled.payloads, by simp⟩

theorem encodeParts_partsOf (h : BlockInput words restartInterval width dense)
    (he : encodeParts words restartInterval width timestampBytes dense = .ok parts) :
    PartsOf words width parts := by
  rcases encodeParts_tables h he with hl | ⟨rfl, hg⟩
  · exact hl.partsOf h
  · exact hg.partsOf h

/-- What a reader may rely on in the bytes of a block. -/
structure BlockOf (checksum : BlockChecksum) (words : List Word) (metadata : EncodedBlockMetadata)
    (bytes : Bytes) (parsed : ParsedWordBlock) : Prop where
  parse : parseWordBlock checksum bytes = .ok parsed
  header : parsed.header = metadata.header
  restarts : parsed.restarts = metadata.restarts
  wordCount : parsed.header.wordCount.toNat = words.length
  first : parsed.header.firstTimestampNs = (words.head?.map Word.timestampNs).getD 0
  last : parsed.header.lastTimestampNs = (words.getLast?.map Word.timestampNs).getD 0
  within : RestartsWithin words.length (parsed.header.recordPayloadLen.toNat) 0 0 0 parsed.restarts
  head : ∃ timestampNs, parsed.restarts.head? = some ⟨timestampNs, 0, 0⟩
  decodes : ∀ (k : Nat) (restart : RestartEntry) (skip : Bool), parsed.restarts[k]? = some restart →
    skip = true ∨ k = 0 → restart.recordIndex.toNat < words.length ∧
      Decodes bytes parsed restart.recordIndex.toNat (words.drop restart.recordIndex.toNat)
        (RecordDecoder.new k restart skip)
  apply : ∀ firstRecordIndex count, applyDurations bytes parsed firstRecordIndex
    (((words.drop firstRecordIndex).take count).map Word.bare) =
      .ok ((words.drop firstRecordIndex).take count)

variable {bytes : Bytes}

theorem readRestarts_flatMap (restarts : List RestartEntry) {offset : Nat}
    (h : HasAt bytes offset (restarts.flatMap RestartEntry.appendTo)) :
    readRestarts bytes restarts.length offset = .ok restarts := by
  induction restarts generalizing offset with
  | nil => rfl
  | cons restart rest ih =>
    rw [List.flatMap_cons] at h
    obtain ⟨hr, hrest⟩ := HasAt.append.mp h
    rw [RestartEntry.appendTo_length] at hrest
    simp only [List.length_cons, readRestarts, RestartEntry.readFrom_appendTo hr, ih hrest, bind,
      Except.bind, pure, Except.pure]

theorem modifyFrom_setPayload_free {sources : List Word} (h : ∀ word ∈ sources, word.payload = none)
    (firstRecordIndex index : Nat) (words : List Word) :
    modifyFrom firstRecordIndex Word.setPayload index sources words = words := by
  induction sources generalizing index with
  | nil => rfl
  | cons source rest ih =>
    have hs := h source (by simp)
    rw [modifyFrom, modifyRecord_of_id words firstRecordIndex index (by simp [Word.setPayload, hs])]
    exact ih (fun w hm => h w (by simp [hm])) (index + 1)

theorem applyDurations_tables {parsed : ParsedWordBlock} {zeros : Nat} (hz : zeros ≤ 7)
    (hcount : parsed.header.wordCount.toNat = words.length) (hlen : words.length < 2 ^ 32) (hb : bytes.length < 2 ^ 64)
    (hdc : parsed.header.durationCount.toNat = durationCountOf words)
    (hflag : parsed.header.flags &&& blockFlagHasPayloads ≠ 0 ↔ 0 < payloadCountOf words)
    (hat : HasAt bytes parsed.durationOffset (durationTable none 0 words ++
      ((if 0 < payloadCountOf words then encodeU64 (payloadCountOf words) else []) ++ payloadTable none 0 words) ++
      List.replicate zeros 0))
    (hend : parsed.blockLen = bytes.length)
    (htotal : parsed.durationOffset + (durationTable none 0 words ++
      ((if 0 < payloadCountOf words then encodeU64 (payloadCountOf words) else []) ++ payloadTable none 0 words) ++
      List.replicate zeros 0).length = bytes.length)
    (firstRecordIndex count : Nat) :
    applyDurations bytes parsed firstRecordIndex
      (((words.drop firstRecordIndex).take count).map Word.bare) =
        .ok ((words.drop firstRecordIndex).take count) := by
  obtain ⟨htables, hpad⟩ := HasAt.append.mp hat
  obtain ⟨hdurations, hpayloads⟩ := HasAt.append.mp htables
  have hd := @durationsLoop_durationTable bytes words.length firstRecordIndex words none 0
    parsed.durationOffset (((words.drop firstRecordIndex).take count).map Word.bare) (by simp) (by omega)
    (by omega) hdurations
  have hp := modifyFrom_bare words firstRecordIndex count
  generalize modifyFrom firstRecordIndex Word.setDuration 0 words
    (((words.drop firstRecordIndex).take count).map Word.bare) = timed at hd hp
  simp only [Option.isNone_none, Option.getD_none] at hd
  have hgr := hpad.getRange
  simp only [List.length_append, List.length_replicate] at hgr htotal
  rw [Nat.add_assoc, htotal] at hgr
  have hzero : ¬(7 < (List.replicate zeros (0 : UInt8)).length ∨
      (List.replicate zeros (0 : UInt8)).any (· ≠ 0)) := by
    simp
    omega
  by_cases hpc : 0 < payloadCountOf words
  · have hf : parsed.header.flags &&& blockFlagHasPayloads ≠ 0 := hflag.mpr hpc
    rw [if_pos hpc] at hpayloads hgr
    obtain ⟨hnum, hentries⟩ := HasAt.append.mp hpayloads
    have hle : payloadCountOf words ≤ words.length := List.countP_le_length
    have hn := decodeU64_encode (by omega) hnum
    have hl := @payloadsLoop_payloadTable bytes words.length firstRecordIndex words none 0 _ timed (by simp)
      (by omega) (by omega) hb hentries
    simp only [Option.isNone_none, Option.getD_none, hp] at hl
    rw [← Nat.add_assoc, ← Nat.add_assoc] at hgr
    simp only [applyDurations, hcount, hdc, hd, bind, Except.bind, hf, ne_eq, not_false_eq_true, if_true,
      hn, hl, hend, hgr, hzero, if_false]
  · have hf : parsed.header.flags &&& blockFlagHasPayloads = 0 := not_not.mp (fun hne => hpc (hflag.mp hne))
    have hfree : ∀ word ∈ words, word.payload = none := by
      have hnone : payloadCountOf words = 0 := by omega
      rw [payloadCountOf, List.countP_eq_zero] at hnone
      intro word hm
      simpa using hnone word hm
    have hpt := (payloadTable_of_free hfree none 0).1
    have hsame := modifyFrom_setPayload_free hfree firstRecordIndex 0 timed
    rw [hsame] at hp
    rw [if_neg hpc, hpt] at hgr
    simp only [List.length_nil, Nat.add_zero] at hgr
    simp only [applyDurations, hcount, hdc, hd, bind, Except.bind, hf, ne_eq, not_true_eq_false, if_false,
      hend, hgr, hzero, hp]

theorem u8_toNat_width {width : Nat} (h : width = 1 ∨ width = 2 ∨ width = 4 ∨ width = 8) :
    UInt8.ofNat width ∈ [1, 2, 4, 8] ∧ (UInt8.ofNat width).toNat = width := by
  rcases h with rfl | rfl | rfl | rfl <;> decide

variable {checksum : BlockChecksum} {metadata : EncodedBlockMetadata} {sequence : UInt64}

theorem LaidOut.blockOf (h : LaidOut checksum sequence words width parts metadata.header bytes)
    (hrestarts : metadata.restarts = parts.restarts) (hi : BlockInput words restartInterval width dense)
    (hp : PartsOf words width parts) : ∃ parsed, BlockOf checksum words metadata bytes parsed := by
  obtain ⟨zeros, hz, hseal⟩ := h.padding
  have hbody := hseal.body
  rw [tableBytes, List.append_assoc _ parts.durations, List.append_assoc _ (parts.durations ++ _)] at hbody
  obtain ⟨htables, hside⟩ := HasAt.append.mp hbody
  obtain ⟨hrecords, hrestartBytes⟩ := HasAt.append.mp htables
  rw [List.length_append, flatMap_appendTo_length, ← Nat.add_assoc, ← h.durationOffset] at hside
  have hoff := h.durationOffset
  have hlen := hseal.length
  simp only [tableBytes, List.length_append, flatMap_appendTo_length, List.length_replicate] at hlen
  have hrecordLt := metadata.header.recordPayloadLen.toNat_lt
  have hrl := h.recordLen
  have hsize : parts.records.length ≤ u32Max := by
    unfold u32Max
    omega
  have hcount : metadata.header.wordCount.toNat = words.length := by
    rw [h.wordCount]
    exact u32_toNat_ofNat hi.length
  obtain ⟨hwidthMem, hwidth⟩ := u8_toNat_width hi.widths
  have hwords : metadata.header.wordCount ≠ 0 := by
    intro hzero
    rw [hzero] at hcount
    exact hi.nonempty (List.length_eq_zero_iff.mp hcount.symm)
  obtain ⟨timestampNs, hhead⟩ := hp.head
  have hwithin := hp.within hsize
  have hvalid : validateRestartOrder parts.restarts metadata.header.wordCount
      metadata.header.recordPayloadLen = .ok () := by
    rw [← hcount, ← hrl] at hwithin
    exact hwithin.validate hhead rfl rfl
  have hread := readRestarts_flatMap parts.restarts hrestartBytes
  have hbl : ¬(metadata.header.blockLen.toNat ≠ bytes.length ∨
      metadata.header.blockLen.toNat < blockHeaderSize) := by
    rw [h.blockLen]
    omega
  have hoffsets : ¬(metadata.header.restartTableOffset.toNat ≠
        blockHeaderSize + metadata.header.recordPayloadLen.toNat ∨
      metadata.header.durationTableOffset.toNat ≠ metadata.header.restartTableOffset.toNat +
        metadata.header.restartCount.toNat * restartEntrySize ∨
      metadata.header.blockLen.toNat < metadata.header.durationTableOffset.toNat) := by
    rw [h.restartOffset, hrl, h.durationOffset, h.restartCount, h.blockLen]
    omega
  refine ⟨⟨metadata.header, parts.restarts, blockHeaderSize + parts.records.length,
    metadata.header.durationTableOffset.toNat, bytes.length, width⟩, ?_, rfl, hrestarts.symm, hcount,
    h.first, h.last, ?_, ⟨timestampNs, hhead⟩, ?_, ?_⟩
  · have hbits := hp.supported
    rw [← h.flags] at hbits
    simp only [parseWordBlock, hseal.fromBytes, bind, Except.bind, hbl, if_false, hseal.sum, ne_eq,
      not_true_eq_false, hwords, h.valueBytes, hwidthMem, hwidth, hbits, hoffsets, pure, Except.pure]
    rw [h.restartCount, h.restartOffset, hread]
    simp only [hvalid, hrl, h.blockLen]
  · simp only [hrl]
    exact hwithin
  · intro k restart skip hk hskip
    exact hp.decodes bytes _ hrecords rfl rfl h.flags rfl hcount hsize k restart skip hk hskip
  · have hblockLt := metadata.header.blockLen.toNat_lt
    have hblock := h.blockLen
    have htotal : metadata.header.durationTableOffset.toNat +
        (parts.durations ++ parts.payloads ++ List.replicate zeros 0).length = bytes.length := by
      simp only [List.length_append, List.length_replicate]
      omega
    rw [hp.durations, hp.payloads] at hside htotal
    refine applyDurations_tables hz hcount ?_ (by omega) ?_ ?_ hside rfl htotal
    · have := hi.length
      unfold u32Max at this
      omega
    · exact h.durationCount.trans hp.durationCount
    · rw [h.flags]
      exact hp.hasPayloads

theorem WordBlockBuilder.encode_blockOf {builder : WordBlockBuilder} (hb : builder.Sized)
    (hne : builder.words ≠ []) (ho : Ordered builder.words)
    (h : builder.encode checksum sequence = .ok (metadata, bytes)) :
    ∃ parsed, BlockOf checksum builder.words metadata bytes parsed := by
  obtain ⟨parts, hparts, hlayout⟩ := except_bind_ok h
  have hi := hb.blockInput hne ho
  obtain ⟨hrestarts, hlaid⟩ := layoutBlock_ok hlayout
  exact hlaid.blockOf hrestarts hi (encodeParts_partsOf hi hparts)

theorem BlockOf.decodeWordBlock {parsed : ParsedWordBlock} (h : BlockOf checksum words metadata bytes parsed) :
    decodeWordBlock checksum bytes = .ok ⟨metadata.header, metadata.restarts, words⟩ := by
  obtain ⟨timestampNs, hhead⟩ := h.head
  have hfirst : parsed.restarts[0]? = some ⟨timestampNs, 0, 0⟩ := by
    rw [← List.head?_eq_getElem?]
    exact hhead
  obtain ⟨hlt, hdecodes⟩ := h.decodes 0 _ false hfirst (Or.inr rfl)
  simp only [UInt32.toNat_zero, List.drop_zero] at hlt hdecodes
  obtain ⟨decoder, hr, ⟨hcursor, hrestart, hcomplete⟩, hlast⟩ := decodeRecords_of_decodes hdecodes
  obtain ⟨last, hl⟩ : ∃ last, words.getLast? = some last :=
    ⟨_, List.getLast?_eq_some_getLast (List.ne_nil_of_length_pos (by omega))⟩
  have htime : decoder.timestamp = parsed.header.lastTimestampNs.toNat := by
    rw [hlast last hl, h.last, hl]
    rfl
  have happly := h.apply 0 words.length
  simp only [List.drop_zero, List.take_length] at happly
  rw [← h.header, ← h.restarts]
  simp only [LogicConduit.decodeWordBlock, h.parse, bind, Except.bind, restartAt, hfirst, h.wordCount, hr,
    hcursor, hrestart, hcomplete, htime, ne_eq, not_true_eq_false, or_self, if_false, happly, pure,
    Except.pure]

/-- The codec round trip: a valid configuration gives a builder, and whatever list of ordered words it
accepts in full comes back from the bytes it encodes, with the header and the restart table. -/
theorem decodeWordBlock_encode (checksum : BlockChecksum) (config : BlockCodecConfig)
    (hr : 0 < config.restartInterval) (hw : 0 < config.maxWords) (hm : config.maxWords ≤ u32Max)
    (hp : 0 < config.maxPayloadBytes) :
    ∃ builder, WordBlockBuilder.new config = .ok builder ∧
      ∀ (sequence : UInt64) (words : List Word) (filled : WordBlockBuilder)
        (metadata : EncodedBlockMetadata) (bytes : Bytes), words ≠ [] → Ordered words →
        builder.extendOrdered words = (words.length, filled) →
        filled.encode checksum sequence = .ok (metadata, bytes) →
        decodeWordBlock checksum bytes = .ok ⟨metadata.header, metadata.restarts, words⟩ := by
  have hnew : WordBlockBuilder.new config = .ok { BlockSizes.zero with config, words := [] } := by
    simp only [WordBlockBuilder.new, hr.ne', hw.ne', Nat.not_lt.mpr hm, hp.ne', if_false]
  refine ⟨_, hnew, ?_⟩
  intro sequence words filled metadata bytes hne ho haccept hencode
  obtain ⟨hsized, hempty, -⟩ := WordBlockBuilder.new_sized hnew
  obtain ⟨hfilled, hwords, -, -, -⟩ := WordBlockBuilder.extendOrdered_spec hsized haccept
  rw [hempty, List.nil_append, List.take_length] at hwords
  rw [← hwords] at hne ho ⊢
  obtain ⟨parsed, hblock⟩ := WordBlockBuilder.encode_blockOf hfilled hne ho hencode
  exact hblock.decodeWordBlock

/-- A numeric word, a word with a duration and a byte payload, and a word with a text. -/
def mixedWords : List Word :=
  [Word.new 7 100, ⟨70000, some (.bytes [1, 2, 3]), 100, 25⟩, ⟨0, some (.text "ok"), 4000, 0⟩]

theorem decodeWordBlock_encode_mixedWords :
    ∃ builder filled metadata bytes, WordBlockBuilder.new .default = .ok builder ∧
      builder.extendOrdered mixedWords = (3, filled) ∧
      filled.encode .crc32c 5 = .ok (metadata, bytes) ∧
      decodeWordBlock .crc32c bytes = .ok ⟨metadata.header, metadata.restarts, mixedWords⟩ := by
  obtain ⟨builder, hnew, hdecode⟩ := decodeWordBlock_encode .crc32c .default (by decide) (by decide)
    (by decide) (by decide)
  have hbuilder : builder = { BlockSizes.zero with config := .default, words := [] } :=
    Except.ok.inj (hnew.symm.trans rfl)
  have haccept : builder.extendOrdered mixedWords = (3, (builder.extendOrdered mixedWords).2) := by
    rw [hbuilder]
    decide +kernel
  have hok : ((builder.extendOrdered mixedWords).2.encode .crc32c 5).toOption.isSome = true := by
    rw [hbuilder]
    decide +kernel
  cases hencode : (builder.extendOrdered mixedWords).2.encode .crc32c 5 with
  | error e =>
    rw [hencode] at hok
    cases hok
  | ok result =>
    exact ⟨builder, _, result.1, result.2, hnew, haccept, hencode,
      hdecode 5 mixedWords _ _ _ (by decide) (by decide) haccept hencode⟩

end LogicConduit
