import LogicConduit.WordBatching
import LogicConduit.WordRoundTrip

namespace LogicConduit

open Vlq

theorem deltaBytes_of_time (previous : Nat) (word : Word) (rest : List Word) :
    (encodeU64 (word.time - previous)).length + deltaBytes word.time rest = deltaBytes previous (word :: rest) := by
  have hlt := word.timestampNs.toNat_lt
  rw [encodeU64_length (show word.time - previous < 2 ^ 64 by unfold Word.time; omega), deltaBytes]

theorem recordsOf_length (width previous : Nat) (words : List Word) :
    (recordsOf width previous words).length = deltaBytes previous words + words.length * width := by
  induction words generalizing previous with
  | nil => simp [recordsOf, deltaBytes]
  | cons word rest ih =>
    have hdelta := deltaBytes_of_time previous word rest
    rw [recordsOf, List.length_append, ih, recordBytes, List.length_append, leBytes_length, List.length_cons,
      Nat.add_one_mul]
    omega

theorem recordsOf_length_eq (width : Nat) (words : List Word) :
    (recordsOf width ((words.head?.map Word.time).getD 0) words).length =
      timestampBytesOf words + words.length * width := by
  rw [recordsOf_length]
  cases words with
  | nil => rfl
  | cons word rest => simp [deltaBytes, timestampBytesOf]

theorem succ_ceil {interval : Nat} (h : 0 < interval) (n : Nat) :
    (n + 1 + interval - 1) / interval = (n + interval - 1) / interval + if n % interval = 0 then 1 else 0 := by
  have hsucc : (n + interval - 1 + 1) / interval = _ := Nat.succ_div
  rw [show n + interval - 1 + 1 = n + interval by omega] at hsucc
  have hdvd : interval ∣ n + interval ↔ n % interval = 0 := by
    rw [Nat.dvd_iff_mod_eq_zero, Nat.add_mod_right]
  rw [show n + 1 + interval - 1 = n + interval by omega, hsucc]
  simp only [hdvd]

theorem restartsOf_length {interval : Nat} (h : 0 < interval) (width index offset previous : Nat) (words : List Word) :
    (restartsOf width interval index offset previous words).length + (index + interval - 1) / interval =
      (index + words.length + interval - 1) / interval := by
  induction words generalizing index offset previous with
  | nil => simp [restartsOf]
  | cons word rest ih =>
    have hrest := ih (index + 1) (offset + (recordBytes width previous word).length) word.time
    rw [succ_ceil h, show index + 1 + rest.length = index + (word :: rest).length by simp; omega] at hrest
    rw [restartsOf, List.length_append, ← hrest]
    split
    · rw [List.length_singleton]
      omega
    · rw [List.length_nil]
      omega

theorem chunksLoop_length {α : Type} {size : Nat} (hsize : 0 < size) (fuel : Nat) {xs : List α}
    (h : xs.length ≤ fuel) : (chunksLoop size fuel xs).length = (xs.length + size - 1) / size := by
  have hzero : (size - 1) / size = 0 := Nat.div_eq_of_lt (by omega)
  induction fuel generalizing xs with
  | zero =>
    obtain rfl : xs = [] := List.length_eq_zero_iff.mp (by omega)
    simp [chunksLoop, hzero]
  | succ fuel ih =>
    cases xs with
    | nil => simp [chunksLoop, hzero]
    | cons x xs =>
      have hrest := @ih ((x :: xs).drop size) (by simp only [List.length_drop, List.length_cons] at h ⊢; omega)
      rw [chunksLoop, List.length_cons, hrest, List.length_drop]
      generalize hlen : (x :: xs).length = len
      have hpos : 0 < len := by rw [← hlen]; simp
      rcases Nat.lt_or_ge size len with hlong | hshort
      · rw [show len - size + size - 1 = len - 1 by omega, show len + size - 1 = len - 1 + size by omega,
          Nat.add_div_right _ hsize]
      · rw [show len - size + size - 1 = size - 1 by omega, hzero, show len + size - 1 = len - 1 + size by omega,
          Nat.add_div_right _ hsize, Nat.div_eq_of_lt (by omega)]

theorem groupRestarts_length (groups : List (List Word)) (index offset : Nat) :
    (groupRestarts index offset groups).length = groups.length := by
  induction groups generalizing index offset with
  | nil => rfl
  | cons group groups ih => rw [groupRestarts, List.length_cons, ih, List.length_cons]

theorem first_eq_next (word : Word) : BlockSizes.zero.first word = BlockSizes.zero.next 0 word.time word := by
  unfold BlockSizes.first BlockSizes.next BlockSizes.zero
  by_cases hd : word.durationNs = 0 <;> cases hp : word.payload <;> simp [hd]

theorem sizesOf_eq (words : List Word) :
    sizesOf words = sizesFrom words 0 ((words.head?.map Word.time).getD 0) .zero := by
  cases words with
  | nil => rfl
  | cons word rest => rw [sizesOf, first_eq_next]; rfl

theorem next_duration (sizes : BlockSizes) (index previous : Nat) (word : Word) :
    let next := sizes.next index previous word
    if word.durationNs = 0 then next.durationBytes = sizes.durationBytes ∧
      lastException next.durationCount next.lastDurationIndex = lastException sizes.durationCount sizes.lastDurationIndex
    else next.durationBytes = sizes.durationBytes + encodedLen (exceptionDelta
        (lastException sizes.durationCount sizes.lastDurationIndex) index) + encodedLen word.duration ∧
      lastException next.durationCount next.lastDurationIndex = some index := by
  rw [exceptionDelta_lastException]
  by_cases hd : word.durationNs = 0 <;> cases hp : word.payload <;> simp [BlockSizes.next, hd, hp, lastException]

theorem next_payload (sizes : BlockSizes) (index previous : Nat) (word : Word) :
    let next := sizes.next index previous word
    match word.payload with
    | none => next.payloadEntryBytes = sizes.payloadEntryBytes ∧
      lastException next.payloadCount next.lastPayloadIndex = lastException sizes.payloadCount sizes.lastPayloadIndex
    | some payload => next.payloadEntryBytes = sizes.payloadEntryBytes + encodedLen (exceptionDelta
        (lastException sizes.payloadCount sizes.lastPayloadIndex) index) + 1 + encodedLen (payloadLen payload) +
        payloadLen payload ∧
      lastException next.payloadCount next.lastPayloadIndex = some index := by
  rw [exceptionDelta_lastException]
  by_cases hd : word.durationNs = 0 <;> cases hp : word.payload <;> simp [BlockSizes.next, hd, hp, lastException]

theorem encodePayload_length (payload : WordPayload) :
    (RecordTables.encodePayload payload).length = 1 + (encodeU64 (payloadLen payload)).length + payloadLen payload := by
  cases payload with
  | bytes value =>
    rw [payloadLen, RecordTables.encodePayload, List.length_cons, List.length_append]
    omega
  | text value =>
    rw [payloadLen, RecordTables.encodePayload, List.length_cons, List.length_append,
      @Array.length_toList _ value.toByteArray.data, ByteArray.size_data]
    omega

theorem sizesFrom_durationBytes (words : List Word) {index : Nat} (previous : Nat) (sizes : BlockSizes)
    (h : index + words.length ≤ 2 ^ 64) :
    (sizesFrom words index previous sizes).durationBytes = sizes.durationBytes +
      (durationTable (lastException sizes.durationCount sizes.lastDurationIndex) index words).length := by
  induction words generalizing index previous sizes with
  | nil => rfl
  | cons word rest ih =>
    rw [List.length_cons] at h
    have hdelta := exceptionDelta_le (lastException sizes.durationCount sizes.lastDurationIndex) index
    have hindex := encodeU64_length (show _ < 2 ^ 64 from Nat.lt_of_le_of_lt hdelta (by omega))
    have hduration := encodeU64_length word.duration_lt
    have hnext := next_duration sizes index previous word
    rw [sizesFrom, ih _ _ (by omega), durationTable]
    dsimp only at hnext
    by_cases hd : word.durationNs = 0
    · rw [if_pos hd] at hnext
      rw [if_neg (not_not.mpr hd), hnext.1, hnext.2]
    · rw [if_neg hd] at hnext
      rw [if_pos hd, hnext.1, hnext.2, List.length_append, List.length_append, hindex, hduration]
      omega

theorem sizesFrom_payloadEntryBytes (words : List Word) {index : Nat} (previous : Nat) (sizes : BlockSizes)
    (h : index + words.length ≤ 2 ^ 64)
    (hsmall : ∀ word ∈ words, ∀ payload ∈ word.payload, payloadLen payload < 2 ^ 64) :
    (sizesFrom words index previous sizes).payloadEntryBytes = sizes.payloadEntryBytes +
      (payloadTable (lastException sizes.payloadCount sizes.lastPayloadIndex) index words).length := by
  induction words generalizing index previous sizes with
  | nil => rfl
  | cons word rest ih =>
    rw [List.length_cons] at h
    have hdelta := exceptionDelta_le (lastException sizes.payloadCount sizes.lastPayloadIndex) index
    have hindex := encodeU64_length (show _ < 2 ^ 64 from Nat.lt_of_le_of_lt hdelta (by omega))
    have hnext := next_payload sizes index previous word
    rw [sizesFrom, ih _ _ (by omega) fun other hm => hsmall other (List.mem_cons_of_mem _ hm), payloadTable]
    dsimp only at hnext
    cases hp : word.payload with
    | none =>
      rw [hp] at hnext
      rw [hnext.1, hnext.2]
    | some payload =>
      rw [hp] at hnext
      have hlen := encodeU64_length (hsmall word List.mem_cons_self payload hp)
      rw [hnext.1, hnext.2, List.length_append, List.length_append, hindex, encodePayload_length, hlen]
      omega

variable {words : List Word}

theorem durationBytes_eq (h : words.length ≤ 2 ^ 64) :
    (sizesOf words).durationBytes = (durationTable none 0 words).length := by
  have hbytes := @sizesFrom_durationBytes words 0 ((words.head?.map Word.time).getD 0) .zero (by omega)
  rw [← sizesOf_eq] at hbytes
  simpa [BlockSizes.zero, lastException] using hbytes

theorem payloadEntryBytes_eq (h : words.length ≤ 2 ^ 64)
    (hsmall : ∀ word ∈ words, ∀ payload ∈ word.payload, payloadLen payload < 2 ^ 64) :
    (sizesOf words).payloadEntryBytes = (payloadTable none 0 words).length := by
  have hbytes := @sizesFrom_payloadEntryBytes words 0 ((words.head?.map Word.time).getD 0) .zero (by omega) hsmall
  rw [← sizesOf_eq] at hbytes
  simpa [BlockSizes.zero, lastException] using hbytes

theorem payloadLen_le_table {word : Word} {payload : WordPayload} (hm : word ∈ words) (hp : word.payload = some payload)
    (previous : Option Nat) (index : Nat) :
    payloadLen payload ≤ (payloadTable previous index words).length := by
  induction words generalizing previous index with
  | nil => exact absurd hm List.not_mem_nil
  | cons other rest ih =>
    rw [payloadTable]
    rcases List.mem_cons.mp hm with rfl | hm
    · rw [hp]
      dsimp only
      rw [List.length_append, List.length_append, encodePayload_length]
      omega
    · cases other.payload with
      | none => exact ih hm previous (index + 1)
      | some first =>
        have hrest := ih hm (some index) (index + 1)
        rw [List.length_append]
        omega

namespace WordBlockBuilder

def tables (builder : WordBlockBuilder) : CodecResult BlockParts :=
  encodeParts builder.words builder.config.restartInterval (valueWidth builder.maxValue) builder.timestampBytes
    builder.denseByteWords

variable {builder : WordBlockBuilder}

variable {parts : BlockParts}

theorem Exact.legacy_length (h : builder.Exact)
    (hl : LegacyTables builder.words builder.config.restartInterval (valueWidth builder.maxValue) parts)
    (hfits : (tableBytes parts).length < 2 ^ 64) :
    (tableBytes parts).length = builder.blockBytes builder.config builder.words.length := by
  obtain ⟨hr, hs, hd, -, hp, -⟩ := hl
  have hof := h.sized.fits.of
  have hlen : builder.words.length < 2 ^ 64 := by
    have hwords := h.sized.fits.length.trans h.sized.maxWords_le
    unfold u32Max at hwords
    omega
  have hrestarts := restartsOf_length h.sized.restartInterval (valueWidth builder.maxValue) 0 0
    ((builder.words.head?.map Word.time).getD 0) builder.words
  rw [← hs, Nat.zero_add, Nat.zero_add, Nat.div_eq_of_lt (by have := h.sized.restartInterval; omega),
    Nat.add_zero] at hrestarts
  have hsmall : ∀ word ∈ builder.words, ∀ payload ∈ word.payload, payloadLen payload < 2 ^ 64 := by
    intro word hm payload hpayload
    have htable := payloadLen_le_table hm hpayload none 0
    simp only [tableBytes, List.length_append, hp] at hfits
    omega
  have hdurationBytes := durationBytes_eq hlen.le
  have hentryBytes := payloadEntryBytes_eq hlen.le hsmall
  rw [← h.sizes] at hdurationBytes hentryBytes
  have hcount : payloadCountOf builder.words = builder.payloadCount := hof.payloadCount.symm
  have hpayloads : parts.payloads.length =
      if 0 < builder.payloadCount then encodedLen builder.payloadCount + builder.payloadEntryBytes else 0 := by
    have hle : payloadCountOf builder.words ≤ builder.words.length := List.countP_le_length
    rw [hp, List.length_append, hcount]
    split
    · rw [encodeU64_length (show builder.payloadCount < 2 ^ 64 by rw [← hcount]; omega), hentryBytes]
    next hzero =>
      have hfree : ∀ word ∈ builder.words, word.payload = none := by
        intro word hm
        have hnone := List.countP_eq_zero.mp (hcount.trans (Nat.eq_zero_of_not_pos hzero)) word hm
        simpa using hnone
      rw [(payloadTable_of_free hfree none 0).1]
      rfl
  simp only [tableBytes, List.length_append, flatMap_appendTo_length]
  rw [hr, recordsOf_length_eq, ← hof.timestampBytes, hrestarts, hd, ← hdurationBytes, hpayloads]
  rfl

theorem Exact.grouped_length (h : builder.Exact) (hdense : builder.denseByteWords = true)
    (hg : GroupedTables builder.words builder.config.restartInterval builder.timestampBytes parts) :
    (tableBytes parts).length < builder.blockBytes builder.config builder.words.length := by
  obtain ⟨-, hs, hd, -, hp, -, hshorter⟩ := hg
  simp only [denseByteWords, decide_eq_true_eq] at hdense
  obtain ⟨hdurations, hpayloads, hvalue, -⟩ := hdense
  have hrestarts := chunksLoop_length h.sized.restartInterval builder.words.length (le_refl builder.words.length)
  rw [← chunks] at hrestarts
  have hwidth : valueWidth builder.maxValue = 1 := by simp [valueWidth, hvalue]
  simp only [tableBytes, List.length_append, flatMap_appendTo_length, BlockSizes.blockBytes]
  rw [hd, hp, hs, groupRestarts_length, hrestarts, hpayloads, hwidth, List.length_nil, if_neg (Nat.lt_irrefl 0)]
  omega

theorem Exact.empty_length (h : builder.Exact) (hnil : builder.words = []) (hparts : builder.tables = .ok parts) :
    parts.flags = 0 ∧ (tableBytes parts).length = builder.blockBytes builder.config builder.words.length := by
  have hbuilder := h.eq_builderOf
  rw [hnil] at hbuilder
  have hzero : (builder.config.restartInterval - 1) / builder.config.restartInterval = 0 :=
    Nat.div_eq_of_lt (by have := h.sized.restartInterval; omega)
  have htables : (builderOf builder.config []).tables = .ok ⟨0, [], [], [], 0, []⟩ := by
    simp [tables, encodeParts, encodeGroupedDenseRecords, chunks, chunksLoop, groupsLoop, fillTables,
      RecordTables.denseLoop, builderOf, denseByteWords, payloadCountOf, sizesOf, BlockSizes.zero]
  obtain rfl : ⟨0, [], [], [], 0, []⟩ = parts := Except.ok.inj (htables.symm.trans (hbuilder ▸ hparts))
  refine ⟨rfl, ?_⟩
  rw [hnil, h.sizes, hnil]
  simp [tableBytes, sizesOf, BlockSizes.blockBytes, BlockSizes.zero, hzero]

variable {config : BlockCodecConfig}

theorem Reached.config_eq (h : Reached config builder) : builder.config = config := by
  induction h with
  | new h => exact (new_sized h).2.2
  | extend prior ordered ih => rw [prior.exact.extendOrdered_eq]; exact ih
  | clear prior ih => exact ih

theorem Reached.ordered (h : Reached config builder) : Ordered builder.words := by
  induction h with
  | new h => rw [(new_sized h).2.1]; exact List.Pairwise.nil
  | extend prior ordered ih =>
    rw [prior.exact.extendOrdered_eq]
    exact ordered.sublist ((List.take_sublist _ _).append_left _)
  | clear prior ih => exact List.Pairwise.nil

theorem absorbed_fits (words : List Word) {block : List Word}
    (h : 2 ≤ block.length → (sizesOf block).blockBytes config block.length ≤ config.maxPayloadBytes) :
    let filled := block ++ words.take (absorbed config block words)
    2 ≤ filled.length → (sizesOf filled).blockBytes config filled.length ≤ config.maxPayloadBytes := by
  induction words generalizing block with
  | nil => simpa [absorbed] using h
  | cons word rest ih =>
    rw [absorbed]
    split
    next haccepts =>
      have hrest := @ih (block ++ [word]) (by
        intro hlen
        rw [List.length_append, List.length_singleton] at hlen ⊢
        cases hlast : block.getLast? with
        | none =>
          obtain rfl : block = [] := List.getLast?_eq_none_iff.mp hlast
          simp at hlen
        | some last =>
          rw [accepts, hlast, decide_eq_true_eq] at haccepts
          exact haccepts.2.2)
      rwa [List.append_assoc, List.singleton_append] at hrest
    next => simpa using h

theorem Reached.within (h : Reached config builder) :
    2 ≤ builder.words.length → builder.blockBytes config builder.words.length ≤ config.maxPayloadBytes := by
  induction h with
  | new h => rw [(new_sized h).2.1]; simp
  | @extend builder prior words ordered ih =>
    have hfits := @absorbed_fits builder.config words builder.words
    rw [← prior.exact.sizes, prior.config_eq] at hfits
    rw [prior.exact.extendOrdered_eq, prior.config_eq]
    exact hfits ih
  | clear prior ih => exact fun hlen => absurd hlen (Nat.not_succ_le_zero 1)

end WordBlockBuilder

open WordBlockBuilder

/-- The prediction is exact but for the grouped layout, which only saves bytes, so a block of two words
or more stays within its byte limit. -/
theorem block_size_is_predicted {config : BlockCodecConfig} {builder : WordBlockBuilder}
    (h : Reached config builder) :
    (∀ parts, builder.tables = .ok parts → blockHeaderSize + (tableBytes parts).length < 2 ^ 64 →
      let unpaddedLen := blockHeaderSize + (tableBytes parts).length
      let predicted := builder.blockBytes config builder.words.length
      (parts.flags &&& blockFlagGroupedTimestamps = 0 → unpaddedLen - blockHeaderSize = predicted) ∧
        (parts.flags &&& blockFlagGroupedTimestamps ≠ 0 → unpaddedLen - blockHeaderSize < predicted)) ∧
      ∀ checksum sequence metadata bytes, builder.encode checksum sequence = .ok (metadata, bytes) →
        2 ≤ builder.words.length → metadata.header.blockLen.toNat = bytes.length ∧
          bytes.length ≤ blockHeaderSize + config.maxPayloadBytes + 7 := by
  have hexact := h.exact
  have hsize : ∀ parts, builder.tables = .ok parts → (tableBytes parts).length < 2 ^ 64 →
      (parts.flags &&& blockFlagGroupedTimestamps = 0 →
        (tableBytes parts).length = builder.blockBytes config builder.words.length) ∧
      (parts.flags &&& blockFlagGroupedTimestamps ≠ 0 →
        (tableBytes parts).length < builder.blockBytes config builder.words.length) := by
    intro parts hparts hfits
    rw [← h.config_eq]
    by_cases hne : builder.words = []
    · obtain ⟨hflags, hlength⟩ := hexact.empty_length hne hparts
      rw [hflags]
      exact ⟨fun _ => hlength, fun hgrouped => absurd rfl hgrouped⟩
    · have hi := hexact.sized.blockInput hne h.ordered
      rcases encodeParts_tables hi hparts with hl | ⟨hdense, hg⟩
      · have hflag := (flags_spec (0 < parts.durationCount) (0 < payloadCountOf builder.words) False).2.2
        rw [← hl.flags] at hflag
        exact ⟨fun _ => hexact.legacy_length hl hfits, fun hgrouped => absurd hgrouped hflag.mp⟩
      · have hflag := (flags_spec (0 < parts.durationCount) (0 < payloadCountOf builder.words) True).2.2
        rw [← hg.flags] at hflag
        exact ⟨fun hlegacy => absurd hlegacy (hflag.mpr trivial), fun _ => hexact.grouped_length hdense hg⟩
  refine ⟨fun parts hparts hfits => ?_, fun checksum sequence metadata bytes hencode hlen => ?_⟩
  · dsimp only
    rw [Nat.add_sub_cancel_left]
    exact hsize parts hparts (by omega)
  · obtain ⟨parts, hparts, hlayout⟩ := except_bind_ok hencode
    obtain ⟨-, hlaid⟩ := layoutBlock_ok hlayout
    obtain ⟨zeros, hzeros, hseal⟩ := hlaid.padding
    have hlength := hseal.length
    have hblock := hlaid.blockLen
    have hlt := metadata.header.blockLen.toNat_lt
    rw [List.length_append, List.length_replicate] at hlength
    obtain ⟨hlegacy, hgrouped⟩ := hsize parts hparts (by omega)
    have hwithin := h.within hlen
    have hle : (tableBytes parts).length ≤ builder.blockBytes config builder.words.length := by
      by_cases hflag : parts.flags &&& blockFlagGroupedTimestamps = 0
      · exact (hlegacy hflag).le
      · exact (hgrouped hflag).le
    exact ⟨hblock, by omega⟩

/-- Two words, one of which lasts and carries a payload. -/
theorem block_size_is_predicted_mixed :
    let config : BlockCodecConfig := ⟨4, 2, 4096, 1000, 1000⟩
    let builder := ((builderOf config []).extendOrdered [⟨300, some (.bytes [7, 8]), 0, 9⟩, .new 2 200]).2
    ∃ parts, builder.tables = .ok parts ∧
      blockHeaderSize + (tableBytes parts).length - blockHeaderSize = builder.blockBytes config builder.words.length := by
  refine ⟨_, rfl, ((block_size_is_predicted (.extend (.new rfl) ?_)).1 _ rfl ?_).1 ?_⟩ <;> decide

end LogicConduit
