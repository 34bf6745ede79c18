import LogicConduit.WordPalette
import LogicConduit.WordRecordDecode

namespace LogicConduit

open Vlq

variable {state : DeltaPalette}

/-- What the palette collects from the deltas seen so far. -/
structure DeltaPalette.Of (state : DeltaPalette) (deltas : List Nat) : Prop where
  length : state.palette.length ≤ 16
  mem : ∀ delta ∈ state.palette, delta ∈ deltas
  available : state.paletteAvailable = true → ∀ delta ∈ deltas, delta ∈ state.palette
  full : state.paletteAvailable = false → state.palette.length = 16

theorem DeltaPalette.Of.push {deltas : List Nat} (h : state.Of deltas)
    (delta : Nat) : (state.push delta).Of (deltas ++ [delta]) := by
  obtain ⟨h1, h2, h3, h4⟩ := h
  unfold DeltaPalette.push
  by_cases hm : delta ∈ state.palette
  · simp only [hm, if_true]
    refine ⟨h1, ?_, ?_, h4⟩
    · intro d hd
      exact List.mem_append_left _ (h2 d hd)
    · intro ha d hd
      rcases List.mem_append.mp hd with hd | hd
      · exact h3 ha d hd
      · rw [List.mem_singleton.mp hd]
        exact hm
  · simp only [hm, if_false]
    by_cases hf : state.palette.length = 16
    · simp only [hf, if_true]
      refine ⟨h1, ?_, by simp, fun _ => hf⟩
      intro d hd
      exact List.mem_append_left _ (h2 d hd)
    · simp only [hf, if_false]
      refine ⟨by simp; omega, ?_, ?_, ?_⟩
      · intro d hd
        rcases List.mem_append.mp hd with hd | hd
        · exact List.mem_append_left _ (h2 d hd)
        · exact List.mem_append_right _ hd
      · intro ha d hd
        rcases List.mem_append.mp hd with hd | hd
        · exact List.mem_append_left _ (h3 ha d hd)
        · exact List.mem_append_right _ hd
      · intro ha
        exact absurd (h4 ha) hf

theorem foldl_push_of (deltas : List Nat) {seen : List Nat}
    (h : state.Of seen) : (deltas.foldl DeltaPalette.push state).Of (seen ++ deltas) := by
  induction deltas generalizing state seen with
  | nil => simpa using h
  | cons delta rest ih => simpa using ih (h.push delta)

theorem deltaPalette_of (deltas : List Nat) : (deltaPalette deltas).Of deltas := by
  have hempty : (⟨[], 0, true⟩ : DeltaPalette).Of [] := ⟨by simp, by simp, by simp, by simp⟩
  simpa [deltaPalette] using foldl_push_of deltas hempty

theorem paletteIndexBits_le (n : Nat) : paletteIndexBits n ≤ 4 := by
  unfold paletteIndexBits
  repeat' split
  all_goals omega

theorem paletteIndexBits_spec {n : Nat} (h2 : 2 ≤ n) (h16 : n ≤ 16) :
    0 < paletteIndexBits n ∧ n ≤ 2 ^ paletteIndexBits n := by
  unfold paletteIndexBits
  repeat' split
  all_goals constructor <;> omega

theorem groupDeltas_cons (word : Word) (rest : List Word) :
    groupDeltas (word :: rest) = deltasFrom word.time rest := by
  induction rest generalizing word with
  | nil => rfl
  | cons next rest ih =>
    have h := ih next
    simp only [groupDeltas, List.tail_cons, List.zipWith_cons_cons, deltasFrom] at h ⊢
    rw [← h]

theorem rawRecords_cons (word : Word) (rest : List Word) :
    rawRecords (word :: rest) = UInt8.ofNat word.value.toNat :: recordsOf 1 word.time rest := by
  induction rest generalizing word with
  | nil => rfl
  | cons next rest ih =>
    rw [rawRecords, ih next, recordsOf, recordBytes, leBytes_one]
    simp

theorem deltasFrom_length (previous : Nat) (words : List Word) :
    (deltasFrom previous words).length = words.length := by
  induction words generalizing previous with
  | nil => rfl
  | cons word rest ih => simp [deltasFrom, ih]

theorem deltasFrom_lt {previous : Nat} {words : List Word} {delta : Nat}
    (h : delta ∈ deltasFrom previous words) : delta < 2 ^ 64 := by
  induction words generalizing previous with
  | nil => simp [deltasFrom] at h
  | cons word rest ih =>
    rcases List.mem_cons.mp h with he | h
    · have := word.time_lt
      omega
    · exact ih h

def packedDeltas (palette deltas : List Nat) : Bytes :=
  packIndices (paletteIndexBits palette.length) (deltas.map palette.idxOf) 0
    (List.replicate ((deltas.length * paletteIndexBits palette.length + 7) / 8) 0)

theorem encodeGroup_cases (word : Word) (rest : List Word) :
    (∃ delta, delta < 2 ^ 64 ∧ (∀ d ∈ deltasFrom word.time rest, d = delta) ∧
      encodeGroup (word :: rest) = 1 :: (encodeU64 delta ++ groupValues (word :: rest))) ∨
    (∃ palette : List Nat, 2 ≤ palette.length ∧ palette.length ≤ 16 ∧ (∀ d ∈ palette, d < 2 ^ 64) ∧
      (∀ d ∈ deltasFrom word.time rest, d ∈ palette) ∧
      encodeGroup (word :: rest) = 2 :: UInt8.ofNat palette.length ::
        (palette.flatMap encodeU64 ++ packedDeltas palette (deltasFrom word.time rest) ++
          groupValues (word :: rest))) ∨
    encodeGroup (word :: rest) =
      0 :: UInt8.ofNat word.value.toNat :: recordsOf 1 word.time rest := by
  have hof := deltaPalette_of (deltasFrom word.time rest)
  have hlt : ∀ d ∈ (deltaPalette (deltasFrom word.time rest)).palette, d < 2 ^ 64 :=
    fun d hd => deltasFrom_lt (hof.mem d hd)
  have hlen : (word :: rest).length - 1 = (deltasFrom word.time rest).length := by
    rw [deltasFrom_length]
    rfl
  unfold encodeGroup
  simp only [groupDeltas_cons, hlen]
  generalize deltaPalette (deltasFrom word.time rest) = state at hof hlt ⊢
  obtain ⟨palette, rawTimestampLen, paletteAvailable⟩ := state
  match palette with
  | [delta] =>
    refine Or.inl ⟨delta, hlt delta (by simp), ?_, rfl⟩
    intro d hd
    have hav : paletteAvailable = true := by
      by_contra hn
      have := hof.full (by simpa using hn)
      simp at this
    exact List.mem_singleton.mp (hof.available hav d hd)
  | [] =>
    refine Or.inr (Or.inr ?_)
    simp [rawRecords_cons]
  | d0 :: d1 :: ds =>
    refine Or.inr ?_
    simp only
    split
    next hfits =>
      exact Or.inl ⟨d0 :: d1 :: ds, by simp, hof.length, hlt, hof.available hfits.1, rfl⟩
    next =>
      exact Or.inr (by rw [rawRecords_cons])

variable {palette deltas : List Nat}

theorem paletteIndices_lt (h2 : 2 ≤ palette.length) (h16 : palette.length ≤ 16) (hm : ∀ d ∈ deltas, d ∈ palette) :
    ∀ value ∈ deltas.map palette.idxOf, value < 2 ^ paletteIndexBits palette.length := by
  intro value hv
  obtain ⟨d, hd, he⟩ := List.mem_map.mp hv
  have hlt := List.idxOf_lt_length_of_mem (hm d hd)
  have hfit := (paletteIndexBits_spec h2 h16).2
  omega

variable {bytes : Bytes}

theorem packedDeltas_read {offset : Nat} (h2 : 2 ≤ palette.length) (h16 : palette.length ≤ 16)
    (hm : ∀ d ∈ deltas, d ∈ palette) (h : HasAt bytes offset (packedDeltas palette deltas)) {m d : Nat}
    (hd : deltas[m]? = some d) :
    palette[readPackedIndex bytes offset m (paletteIndexBits palette.length)]? = some d := by
  have hpos := (paletteIndexBits_spec h2 h16).1
  have hle := paletteIndexBits_le palette.length
  have hvalues := paletteIndices_lt h2 h16 hm
  have hread := @readPackedIndex_packIndices bytes offset _ _ (deltas.map palette.idxOf) (by omega) hpos
    hvalues (by simp only [List.length_map]; omega) h m (palette.idxOf d) (by simp [hd])
  rw [hread]
  have hmem := hm d (List.mem_of_getElem? hd)
  rw [List.getElem?_eq_getElem (List.idxOf_lt_length_of_mem hmem), List.getElem_idxOf]

theorem packedDeltas_length (h2 : 2 ≤ palette.length) (h16 : palette.length ≤ 16) (hm : ∀ d ∈ deltas, d ∈ palette) :
    (packedDeltas palette deltas).length =
      (deltas.length * paletteIndexBits palette.length + 7) / 8 := by
  have hpos := (paletteIndexBits_spec h2 h16).1
  have hle := paletteIndexBits_le palette.length
  have hvalues := paletteIndices_lt h2 h16 hm
  have h := (@bitAt_packIndices _ (by omega) hpos (deltas.map palette.idxOf) hvalues 0
    (List.replicate ((deltas.length * paletteIndexBits palette.length + 7) / 8) 0)
    (by simp only [List.length_map, List.length_replicate, Nat.zero_add]; omega)
    (fun i _ => bitAt_replicate_zero _ i)).1
  rw [packedDeltas, h, List.length_replicate]

def groupRestarts : Nat → Nat → List (List Word) → List RestartEntry
  | _, _, [] => []
  | index, offset, group :: groups =>
    ⟨(group.head?.map Word.timestampNs).getD 0, UInt32.ofNat offset, UInt32.ofNat index⟩ ::
      groupRestarts (index + group.length) (offset + (encodeGroup group).length) groups

def groupBody (decoder : RecordDecoder) (rest : List Word) : Bytes :=
  match decoder.groupTimestamps with
  | .raw => recordsOf 1 decoder.timestamp rest
  | _ => groupValues rest

def HoldsDeltas (bytes : Bytes) (decoder : RecordDecoder) (rest : List Word) : Prop :=
  match decoder.groupTimestamps with
  | .raw => True
  | .constant delta => ∀ d ∈ deltasFrom decoder.timestamp rest, d = delta
  | .palette deltas bits packedOffset deltaCount nextDelta =>
    deltaCount = nextDelta + rest.length ∧
      ∀ m d, (deltasFrom decoder.timestamp rest)[m]? = some d →
        deltas[readPackedIndex bytes packedOffset (nextDelta + m) bits]? = some d

/-- The decoder stands before the record of index `index`, with `rest` left of the current group. -/
structure GroupedAt (bytes : Bytes) (parsed : ParsedWordBlock) (index : Nat) (rest : List Word)
    (groups : List (List Word)) (decoder : RecordDecoder) : Prop where
  body : HasAt bytes decoder.cursor (groupBody decoder rest ++ groups.flatMap encodeGroup)
  recordEnd : decoder.cursor + (groupBody decoder rest).length + (groups.flatMap encodeGroup).length =
    parsed.recordEnd
  header : blockHeaderSize ≤ decoder.cursor
  deltas : HoldsDeltas bytes decoder rest
  restarts : parsed.restarts.drop decoder.nextRestartIndex = groupRestarts (index + rest.length)
    (decoder.cursor - blockHeaderSize + (groupBody decoder rest).length) groups
  nextRestart : decoder.nextRestartIndex ≤ parsed.restarts.length
  wordCount : parsed.header.wordCount.toNat = index + rest.length + groups.flatten.length
  nonempty : ∀ group ∈ groups, group ≠ []

variable {groups : List (List Word)} {restart : RestartEntry}

theorem groupRestarts_head {index offset : Nat} (h : (groupRestarts index offset groups).head? = some restart) :
    restart.recordIndex = UInt32.ofNat index := by
  cases groups with
  | nil => simp [groupRestarts] at h
  | cons group groups =>
    simp only [groupRestarts, List.head?_cons, Option.some.injEq] at h
    rw [← h]

variable {parsed : ParsedWordBlock} {index : Nat} {rest : List Word} {decoder : RecordDecoder}

theorem GroupedAt.bound (h : GroupedAt bytes parsed index rest groups decoder) : index + rest.length ≤ u32Max := by
  have hw := h.wordCount
  have hlt := parsed.header.wordCount.toNat_lt
  unfold u32Max
  omega

variable {word : Word}

theorem GroupedAt.dueRestart_none (h : GroupedAt bytes parsed index (word :: rest) groups decoder) :
    decoder.dueRestart parsed index = none := by
  have hb := h.bound
  rw [RecordDecoder.dueRestart, ← List.head?_drop, h.restarts]
  apply Option.filter_eq_none_iff.mpr
  intro restart hm
  have hr := groupRestarts_head hm
  have hx : restart.recordIndex.toNat = index + (word :: rest).length := by
    rw [hr]
    exact u32_toNat_ofNat hb
  simp only [List.length_cons] at hx
  simp
  omega

theorem next_of_nextGrouped {decoder stamped : RecordDecoder}
    (hflag : parsed.header.flags &&& blockFlagGroupedTimestamps ≠ 0) (hvb : parsed.valueBytes = 1)
    (hv : word.value.toNat < 256) (h : decoder.nextGrouped bytes parsed index = .ok stamped)
    (ht : stamped.timestamp = word.time) (hb : HasAt bytes stamped.cursor [UInt8.ofNat word.value.toNat])
    (he : stamped.cursor + 1 ≤ parsed.recordEnd) :
    decoder.next bytes parsed index = .ok (word.bare, { stamped with cursor := stamped.cursor + 1 }) := by
  rw [← leBytes_one] at hb
  have hr := readValue_leBytes hb (by simpa using hv) he
  simp only [RecordDecoder.next, hflag, ne_eq, not_false_eq_true, if_true, h, bind, Except.bind, hvb, hr,
    ht, pure, Except.pure, ← word_bare_eq]

theorem groupValues_cons (word : Word) (rest : List Word) :
    groupValues (word :: rest) = UInt8.ofNat word.value.toNat :: groupValues rest := rfl

theorem GroupedAt.step {decoder decoder' : RecordDecoder}
    (h : GroupedAt bytes parsed index (word :: rest) groups decoder)
    (hbody : HasAt bytes decoder'.cursor (groupBody decoder' rest ++ groups.flatMap encodeGroup))
    (hlen : decoder'.cursor + (groupBody decoder' rest).length = decoder.cursor + (groupBody decoder (word :: rest)).length)
    (hc : decoder.cursor ≤ decoder'.cursor) (hd : HoldsDeltas bytes decoder' rest)
    (hn : decoder'.nextRestartIndex = decoder.nextRestartIndex) :
    GroupedAt bytes parsed (index + 1) rest groups decoder' := by
  obtain ⟨-, hend, hheader, -, hrestarts, hnext, hcount, hnonempty⟩ := h
  simp only [List.length_cons] at hcount hrestarts
  refine ⟨hbody, by omega, by omega, hd, ?_, by omega, by omega, hnonempty⟩
  rw [hn, hrestarts]
  congr 1
  · omega
  · omega

theorem GroupedAt.next_inside (h : GroupedAt bytes parsed index (word :: rest) groups decoder)
    (hflag : parsed.header.flags &&& blockFlagGroupedTimestamps ≠ 0) (hvb : parsed.valueBytes = 1)
    (hv : word.value.toNat < 256) (hp : decoder.timestamp ≤ word.time) :
    ∃ decoder' : RecordDecoder, decoder.next bytes parsed index = .ok (word.bare, decoder') ∧
      decoder'.timestamp = word.time ∧ GroupedAt bytes parsed (index + 1) rest groups decoder' := by
  have hdue := h.dueRestart_none
  have hbody := h.body
  have hend := h.recordEnd
  have hdeltas := h.deltas
  have hlt := word.time_lt
  obtain ⟨cursor, timestamp, nextRestartIndex, groupTimestamps, skip⟩ := decoder
  have hsum : timestamp + (word.time - timestamp) = word.time := Nat.add_sub_cancel' hp
  cases groupTimestamps with
  | raw =>
    simp only [groupBody, recordsOf, recordBytes, leBytes_one, List.append_assoc, List.length_append,
      List.length_singleton] at hbody hend
    obtain ⟨hdelta, hbody⟩ := HasAt.append.mp hbody
    obtain ⟨hvalue, hbody⟩ := HasAt.append.mp hbody
    have hd := decodeU64_take hdelta (lt_of_le_of_lt (Nat.sub_le _ _) hlt) (by omega : _ ≤ parsed.recordEnd)
    let stamped : RecordDecoder :=
      ⟨cursor + (encodeU64 (word.time - timestamp)).length, word.time, nextRestartIndex, .raw, skip⟩
    have hnext : RecordDecoder.nextGrouped bytes parsed ⟨cursor, timestamp, nextRestartIndex, .raw, skip⟩
        index = .ok stamped := by
      simp only [RecordDecoder.nextGrouped, hdue, RecordDecoder.groupDelta, hd, bind, Except.bind, pure,
        Except.pure, RecordDecoder.advance, hsum, hlt, if_true, stamped]
    have hread : stamped.cursor + 1 ≤ parsed.recordEnd := by
      show cursor + (encodeU64 (word.time - timestamp)).length + 1 ≤ parsed.recordEnd
      omega
    refine ⟨_, next_of_nextGrouped hflag hvb hv hnext rfl hvalue hread, rfl,
      h.step hbody ?_ ?_ trivial rfl⟩
    · simp only [groupBody, recordsOf, recordBytes, leBytes_one, List.length_append,
        List.length_singleton, stamped]
      omega
    · simp only [stamped]
      omega
  | constant delta =>
    simp only [groupBody, groupValues_cons, List.cons_append, List.length_cons] at hbody hend
    obtain ⟨hvalue, hbody⟩ := HasAt.cons.mp hbody
    have hd : word.time - timestamp = delta := hdeltas _ (by simp [deltasFrom])
    have hrest : ∀ d ∈ deltasFrom word.time rest, d = delta :=
      fun d hm => hdeltas d (by simp [deltasFrom, hm])
    rw [hd] at hsum
    let stamped : RecordDecoder := ⟨cursor, word.time, nextRestartIndex, .constant delta, skip⟩
    have hnext : RecordDecoder.nextGrouped bytes parsed
        ⟨cursor, timestamp, nextRestartIndex, .constant delta, skip⟩ index = .ok stamped := by
      simp only [RecordDecoder.nextGrouped, hdue, RecordDecoder.groupDelta, bind, Except.bind,
        RecordDecoder.advance, hsum, hlt, if_true, stamped]
    have hread : stamped.cursor + 1 ≤ parsed.recordEnd := by
      show cursor + 1 ≤ parsed.recordEnd
      omega
    refine ⟨_, next_of_nextGrouped hflag hvb hv hnext rfl hvalue hread, rfl,
      h.step hbody ?_ ?_ hrest rfl⟩
    · simp only [groupBody, groupValues_cons, List.length_cons, stamped]
      omega
    · simp only [stamped]
      omega
  | palette deltas bits packedOffset deltaCount nextDelta =>
    simp only [groupBody, groupValues_cons, List.cons_append, List.length_cons] at hbody hend
    obtain ⟨hvalue, hbody⟩ := HasAt.cons.mp hbody
    obtain ⟨hdc, hread⟩ := hdeltas
    simp only [List.length_cons] at hdc
    have hd := hread 0 (word.time - timestamp) (by simp [deltasFrom])
    rw [Nat.add_zero] at hd
    have hopen : ¬deltaCount ≤ nextDelta := by omega
    let stamped : RecordDecoder := ⟨cursor, word.time, nextRestartIndex,
      .palette deltas bits packedOffset deltaCount (nextDelta + 1), skip⟩
    have hnext : RecordDecoder.nextGrouped bytes parsed ⟨cursor, timestamp, nextRestartIndex,
        .palette deltas bits packedOffset deltaCount nextDelta, skip⟩ index = .ok stamped := by
      simp only [RecordDecoder.nextGrouped, hdue, RecordDecoder.groupDelta, hopen, if_false, hd, bind,
        Except.bind, RecordDecoder.advance, hsum, hlt, if_true, stamped]
    have hin : stamped.cursor + 1 ≤ parsed.recordEnd := by
      show cursor + 1 ≤ parsed.recordEnd
      omega
    refine ⟨_, next_of_nextGrouped hflag hvb hv hnext rfl hvalue hin, rfl,
      h.step hbody ?_ ?_ ⟨?_, ?_⟩ rfl⟩
    · simp only [groupBody, groupValues_cons, List.length_cons, stamped]
      omega
    · simp only [stamped]
      omega
    · omega
    · intro m d hm
      have := hread (m + 1) d (by simpa [deltasFrom] using hm)
      rwa [show nextDelta + (m + 1) = nextDelta + 1 + m by omega] at this

theorem groupBody_nil (decoder : RecordDecoder) : groupBody decoder [] = [] := by
  unfold groupBody
  split <;> rfl

theorem GroupedAt.complete (h : GroupedAt bytes parsed index [] groups decoder) :
    decoder.groupTimestamps.isComplete = true := by
  have hd := h.deltas
  unfold HoldsDeltas at hd
  cases hg : decoder.groupTimestamps with
  | raw => rfl
  | constant delta => rfl
  | palette deltas bits packedOffset deltaCount nextDelta =>
    rw [hg] at hd
    simp [GroupTimestampDecoder.isComplete, hd.1]

theorem GroupedAt.dueRestart_start (h : GroupedAt bytes parsed index [] ((word :: rest) :: groups) decoder) :
    decoder.dueRestart parsed index =
      some ⟨word.timestampNs, decoder.payloadOffset, UInt32.ofNat index⟩ := by
  have hx : (UInt32.ofNat index).toNat = index := u32_toNat_ofNat h.bound
  rw [RecordDecoder.dueRestart, ← List.head?_drop, h.restarts, groupBody_nil]
  simp [groupRestarts, hx, RecordDecoder.payloadOffset]

theorem GroupedAt.start {decoder decoder' : RecordDecoder}
    (h : GroupedAt bytes parsed index [] ((word :: rest) :: groups) decoder)
    (hbody : HasAt bytes decoder'.cursor (groupBody decoder' rest ++ groups.flatMap encodeGroup))
    (hlen : decoder'.cursor + (groupBody decoder' rest).length =
      decoder.cursor + (encodeGroup (word :: rest)).length)
    (hc : decoder.cursor ≤ decoder'.cursor) (hd : HoldsDeltas bytes decoder' rest)
    (hn : decoder'.nextRestartIndex = decoder.nextRestartIndex + 1) :
    GroupedAt bytes parsed (index + 1) rest groups decoder' := by
  obtain ⟨-, hend, hheader, -, hrestarts, hnext, hcount, hnonempty⟩ := h
  simp only [groupBody_nil, List.length_nil, List.flatMap_cons, List.length_append, Nat.add_zero]
    at hend hrestarts
  simp only [List.length_nil, List.flatten_cons, List.length_append, List.length_cons] at hcount
  have hlt : decoder.nextRestartIndex < parsed.restarts.length := by
    by_contra hge
    rw [List.drop_eq_nil_of_le (by omega)] at hrestarts
    cases hrestarts
  refine ⟨hbody, by omega, by omega, hd, ?_, by omega, by omega,
    fun group hm => hnonempty group (by simp [hm])⟩
  rw [hn, ← List.drop_drop, hrestarts, groupRestarts, List.drop_one, List.tail_cons]
  congr 1
  · simp only [List.length_cons]
    omega
  · omega

theorem decodeDeltas_flatMap {palette : List Nat} (hlt : ∀ d ∈ palette, d < 2 ^ 64) {cursor : Nat}
    (h : HasAt bytes cursor (palette.flatMap encodeU64))
    (he : cursor + (palette.flatMap encodeU64).length ≤ parsed.recordEnd) :
    RecordDecoder.decodeDeltas bytes parsed palette.length cursor =
      .ok (palette, cursor + (palette.flatMap encodeU64).length) := by
  induction palette generalizing cursor with
  | nil => rfl
  | cons delta rest ih =>
    simp only [List.flatMap_cons, List.length_append] at h he ⊢
    obtain ⟨hdelta, hrest⟩ := HasAt.append.mp h
    have hd := decodeU64_take hdelta (hlt delta (by simp)) (by omega : _ ≤ parsed.recordEnd)
    have hr := ih (fun d hm => hlt d (by simp [hm])) hrest (by omega)
    simp only [List.length_cons, RecordDecoder.decodeDeltas, hd, hr, bind, Except.bind, pure, Except.pure]
    congr 2
    omega

section

variable (h : GroupedAt bytes parsed index [] ((word :: rest) :: groups) decoder)
include h

theorem GroupedAt.groupEnd :
    (parsed.restarts[decoder.nextRestartIndex + 1]?.map (·.recordIndex.toNat)).getD
      parsed.header.wordCount.toNat = index + (rest.length + 1) := by
  have hcount := h.wordCount
  have hwc := parsed.header.wordCount.toNat_lt
  simp only [List.length_nil, List.flatten_cons, List.length_append, List.length_cons] at hcount
  rw [← List.head?_drop, ← List.drop_drop, h.restarts, groupRestarts, List.drop_one, List.tail_cons]
  cases groups with
  | nil =>
    simp only [List.flatten_nil, List.length_nil] at hcount
    simp [groupRestarts]
    omega
  | cons group groups =>
    have hx : (UInt32.ofNat (index + (rest.length + 1))).toNat = index + (rest.length + 1) :=
      u32_toNat_ofNat (by unfold u32Max; omega)
    simp only [groupRestarts, List.head?_cons, Option.map_some, Option.getD_some, List.length_nil,
      Nat.add_zero, List.length_cons]
    exact hx

theorem GroupedAt.nextGrouped_start {mode : UInt8} {tail : Bytes} {groupTimestamps : GroupTimestampDecoder}
    {cursor : Nat} (hbytes : HasAt bytes decoder.cursor (mode :: tail))
    (hmode : RecordDecoder.decodeGroupMode bytes parsed { decoder with timestamp := word.time, cursor := decoder.cursor + 1 } index mode =
      .ok (groupTimestamps, cursor)) :
    decoder.nextGrouped bytes parsed index = .ok { decoder with
      timestamp := word.time, groupTimestamps, cursor
      nextRestartIndex := decoder.nextRestartIndex + 1 } := by
  have hts : word.timestampNs.toNat = word.time := rfl
  simp only [RecordDecoder.nextGrouped, h.dueRestart_start, RecordDecoder.startGroup, h.complete,
    not_true_eq_false, if_false, ne_eq, hbytes.head, hts, hmode, bind, Except.bind, pure, Except.pure]

theorem GroupedAt.next_start
    (hflag : parsed.header.flags &&& blockFlagGroupedTimestamps ≠ 0) (hvb : parsed.valueBytes = 1)
    (hv : word.value.toNat < 256) :
    ∃ decoder' : RecordDecoder, decoder.next bytes parsed index = .ok (word.bare, decoder') ∧
      decoder'.timestamp = word.time ∧ GroupedAt bytes parsed (index + 1) rest groups decoder' := by
  have hbody := h.body
  have hend := h.recordEnd
  simp only [groupBody_nil, List.nil_append, List.flatMap_cons, List.length_nil, Nat.add_zero,
    List.length_append] at hbody hend
  obtain ⟨hgroup, hlater⟩ := HasAt.append.mp hbody
  rcases encodeGroup_cases word rest with ⟨delta, hdlt, hall, he⟩ |
      ⟨palette, h2, h16, hplt, hmem, he⟩ | he
  · -- a constant delta
    rw [he] at hgroup
    have hlen : (encodeGroup (word :: rest)).length =
        1 + (encodeU64 delta).length + (1 + (groupValues rest).length) := by
      rw [he, groupValues_cons]
      simp only [List.length_cons, List.length_append]
      omega
    obtain ⟨hdelta, hvalues⟩ := HasAt.append.mp (HasAt.cons.mp hgroup).2
    have hd := decodeU64_take hdelta hdlt (by omega : _ ≤ parsed.recordEnd)
    have hnext := h.nextGrouped_start hgroup (by
      simp only [RecordDecoder.decodeGroupMode, hd, bind, Except.bind, pure, Except.pure]
      rfl)
    obtain ⟨hvalue, hrest⟩ := HasAt.cons.mp hvalues
    have hin : decoder.cursor + 1 + (encodeU64 delta).length + 1 ≤ parsed.recordEnd := by omega
    have hplace : decoder.cursor + 1 + (encodeU64 delta).length + 1 + (groupValues rest).length =
        decoder.cursor + (encodeGroup (word :: rest)).length := by omega
    refine ⟨_, next_of_nextGrouped hflag hvb hv hnext rfl hvalue hin, rfl,
      h.start (HasAt.append.mpr ⟨hrest, ?_⟩) hplace ?_ hall rfl⟩
    · exact hplace ▸ hlater
    · simp only
      omega
  · -- a palette of deltas
    rw [he] at hgroup
    have hpl := packedDeltas_length h2 h16 hmem
    have hlen : (encodeGroup (word :: rest)).length =
        2 + (palette.flatMap encodeU64).length + (packedDeltas palette (deltasFrom word.time rest)).length +
          (1 + (groupValues rest).length) := by
      rw [he, groupValues_cons]
      simp only [List.length_cons, List.length_append]
      omega
    obtain ⟨hcount, htables⟩ := HasAt.cons.mp (HasAt.cons.mp hgroup).2
    obtain ⟨htables, hvalues⟩ := HasAt.append.mp htables
    obtain ⟨hpalette, hpacked⟩ := HasAt.append.mp htables
    have hn : (UInt8.ofNat palette.length).toNat = palette.length := by
      rw [UInt8.toNat_ofNat']
      omega
    have hds := decodeDeltas_flatMap hplt hpalette (by omega : _ ≤ parsed.recordEnd)
    have hcount' : ¬¬(2 ≤ palette.length ∧ palette.length ≤ 16) := not_not.mpr ⟨h2, h16⟩
    have hrl : (deltasFrom word.time rest).length = rest.length := deltasFrom_length _ _
    have hroom : ¬index + (rest.length + 1) < index + 1 := by omega
    have hdc : index + (rest.length + 1) - (index + 1) = rest.length := by omega
    have hfit : decoder.cursor + 1 + 1 + (palette.flatMap encodeU64).length +
        (rest.length * paletteIndexBits palette.length + 7) / 8 ≤ parsed.recordEnd := by
      rw [hrl] at hpl
      omega
    have hnext := h.nextGrouped_start hgroup (by
      simp only [RecordDecoder.decodeGroupMode, RecordDecoder.decodeTimestampPalette, hcount.head, hn,
        hcount', if_false, hds, bind, Except.bind, h.groupEnd, hroom, hdc, hfit, if_true]
      rfl)
    rw [List.length_append, hpl, hrl, ← Nat.add_assoc] at hvalues
    obtain ⟨hvalue, hrest⟩ := HasAt.cons.mp hvalues
    rw [hpl, hrl] at hlen
    have hin : decoder.cursor + 1 + 1 + (palette.flatMap encodeU64).length +
        (rest.length * paletteIndexBits palette.length + 7) / 8 + 1 ≤ parsed.recordEnd := by omega
    have hplace : decoder.cursor + 1 + 1 + (palette.flatMap encodeU64).length +
        (rest.length * paletteIndexBits palette.length + 7) / 8 + 1 + (groupValues rest).length =
        decoder.cursor + (encodeGroup (word :: rest)).length := by omega
    refine ⟨_, next_of_nextGrouped hflag hvb hv hnext rfl hvalue hin, rfl,
      h.start (HasAt.append.mpr ⟨hrest, ?_⟩) hplace ?_ ⟨(Nat.zero_add _).symm, ?_⟩ rfl⟩
    · exact hplace ▸ hlater
    · simp only
      omega
    · intro m d hm
      rw [Nat.zero_add]
      exact packedDeltas_read h2 h16 hmem hpacked hm
  · -- raw records
    rw [he] at hgroup
    have hlen : (encodeGroup (word :: rest)).length = 2 + (recordsOf 1 word.time rest).length := by
      rw [he]
      simp only [List.length_cons]
      omega
    have hmode : RecordDecoder.decodeGroupMode bytes parsed { decoder with
        timestamp := word.time, cursor := decoder.cursor + 1 } index 0 =
        .ok (.raw, decoder.cursor + 1) := rfl
    have hnext := h.nextGrouped_start hgroup hmode
    obtain ⟨hvalue, hrest⟩ := HasAt.cons.mp (HasAt.cons.mp hgroup).2
    have hin : decoder.cursor + 1 + 1 ≤ parsed.recordEnd := by omega
    have hplace : decoder.cursor + 1 + 1 + (recordsOf 1 word.time rest).length =
        decoder.cursor + (encodeGroup (word :: rest)).length := by omega
    refine ⟨_, next_of_nextGrouped hflag hvb hv hnext rfl hvalue hin, rfl,
      h.start (HasAt.append.mpr ⟨hrest, ?_⟩) hplace ?_ trivial rfl⟩
    · exact hplace ▸ hlater
    · simp only
      omega

end

theorem GroupedAt.decodes (hflag : parsed.header.flags &&& blockFlagGroupedTimestamps ≠ 0) (hvb : parsed.valueBytes = 1)
    (groups : List (List Word)) (h : GroupedAt bytes parsed index rest groups decoder)
    (hs : Ordered (rest ++ groups.flatten)) (hp : ∀ word ∈ rest, decoder.timestamp ≤ word.time)
    (hv : ∀ word ∈ rest ++ groups.flatten, word.value.toNat < 256) :
    Decodes bytes parsed index (rest ++ groups.flatten) decoder := by
  induction groups generalizing index rest decoder with
  | nil =>
    simp only [List.flatten_nil, List.append_nil] at hs hv ⊢
    induction rest generalizing index decoder with
    | nil =>
      have hend := h.recordEnd
      have hrest := h.restarts
      have hnext := h.nextRestart
      simp only [groupBody_nil, List.flatMap_nil, List.length_nil, Nat.add_zero] at hend
      rw [groupRestarts, List.drop_eq_nil_iff] at hrest
      exact ⟨hend, by omega, h.complete⟩
    | cons word rest ih =>
      obtain ⟨hw, hs⟩ := List.pairwise_cons.mp hs
      obtain ⟨next, hn, ht, hat⟩ := h.next_inside hflag hvb (hv word (by simp)) (hp word (by simp))
      exact ⟨next, hn, ht, ih hat (fun w hm => ht ▸ hw w hm) hs (fun w hm => hv w (by simp [hm]))⟩
  | cons group groups ihg =>
    induction rest generalizing index decoder with
    | nil =>
      simp only [List.nil_append, List.flatten_cons] at hs hv ⊢
      cases group with
      | nil => exact absurd rfl (h.nonempty [] (by simp))
      | cons word rest =>
        obtain ⟨hw, hs⟩ := List.pairwise_cons.mp hs
        obtain ⟨next, hn, ht, hat⟩ := h.next_start hflag hvb (hv word (by simp))
        exact ⟨next, hn, ht, ihg hat hs (fun w hm => ht ▸ hw w (List.mem_append_left _ hm))
          (fun w hm => hv w (by simpa using Or.inr (List.mem_append.mp hm)))⟩
    | cons word rest ih =>
      obtain ⟨hw, hs⟩ := List.pairwise_cons.mp hs
      obtain ⟨next, hn, ht, hat⟩ := h.next_inside hflag hvb (hv word (by simp)) (hp word (by simp))
      exact ⟨next, hn, ht, ih hat hs (fun w hm => ht ▸ hw w (List.mem_append_left _ hm))
        (fun w hm => hv w (List.mem_cons_of_mem _ hm))⟩

/-- Each restart entry cuts the groups in two, and the table goes on behind the cut. -/
theorem groupRestarts_getElem? (groups : List (List Word)) {index offset k : Nat}
    (h : (groupRestarts index offset groups)[k]? = some restart) :
    ∃ (before : List (List Word)) (group : List Word) (after : List (List Word)),
      groups = before ++ group :: after ∧
      restart = ⟨(group.head?.map Word.timestampNs).getD 0,
        UInt32.ofNat (offset + (before.flatMap encodeGroup).length),
        UInt32.ofNat (index + before.flatten.length)⟩ ∧
      (groupRestarts index offset groups).drop k = groupRestarts (index + before.flatten.length)
        (offset + (before.flatMap encodeGroup).length) (group :: after) := by
  induction groups generalizing index offset k with
  | nil => simp [groupRestarts] at h
  | cons group groups ih =>
    cases k with
    | zero => exact ⟨[], group, groups, rfl, by simpa [groupRestarts] using h.symm, rfl⟩
    | succ k =>
      rw [groupRestarts, List.getElem?_cons_succ] at h
      obtain ⟨before, g, after, hg, hr, hd⟩ := ih h
      have hidx : index + (group :: before).flatten.length = index + group.length + before.flatten.length := by
        simp only [List.flatten_cons, List.length_append]
        omega
      have hoff : offset + ((group :: before).flatMap encodeGroup).length =
          offset + (encodeGroup group).length + (before.flatMap encodeGroup).length := by
        simp only [List.flatMap_cons, List.length_append]
        omega
      refine ⟨group :: before, g, after, by simp [hg], ?_, ?_⟩
      · rw [hidx, hoff]
        exact hr
      · rw [hidx, hoff, groupRestarts, List.drop_succ_cons]
        exact hd

theorem grouped_decodes_restart {k : Nat} (skip : Bool)
    (hrecords : HasAt bytes blockHeaderSize (groups.flatMap encodeGroup))
    (hend : parsed.recordEnd = blockHeaderSize + (groups.flatMap encodeGroup).length)
    (hrestarts : parsed.restarts = groupRestarts 0 0 groups)
    (hflag : parsed.header.flags &&& blockFlagGroupedTimestamps ≠ 0) (hvb : parsed.valueBytes = 1)
    (hcount : parsed.header.wordCount.toNat = groups.flatten.length) (hne : ∀ group ∈ groups, group ≠ [])
    (hs : Ordered groups.flatten) (ho : (groups.flatMap encodeGroup).length ≤ u32Max)
    (hv : ∀ word ∈ groups.flatten, word.value.toNat < 256) (hk : parsed.restarts[k]? = some restart) :
    restart.recordIndex.toNat < groups.flatten.length ∧
      Decodes bytes parsed restart.recordIndex.toNat (groups.flatten.drop restart.recordIndex.toNat)
        (RecordDecoder.new k restart skip) := by
  rw [hrestarts] at hk
  obtain ⟨before, group, after, hg, he, hd⟩ := groupRestarts_getElem? groups hk
  simp only [Nat.zero_add] at he hd
  have hwc := parsed.header.wordCount.toNat_lt
  have hflat : groups.flatten = before.flatten ++ (group :: after).flatten := by
    rw [hg, List.flatten_append]
  have hmap : groups.flatMap encodeGroup =
      before.flatMap encodeGroup ++ (group :: after).flatMap encodeGroup := by
    rw [hg, List.flatMap_append]
  have hlen : groups.flatten.length = before.flatten.length + (group :: after).flatten.length := by
    rw [hflat, List.length_append]
  have hsize : (groups.flatMap encodeGroup).length =
      (before.flatMap encodeGroup).length + ((group :: after).flatMap encodeGroup).length := by
    rw [hmap, List.length_append]
  have hgroup : 0 < group.length := List.length_pos_iff.mpr (hne group (by simp [hg]))
  have hx : restart.recordIndex.toNat = before.flatten.length := by
    rw [he]
    exact u32_toNat_ofNat (by unfold u32Max; omega)
  have hoff : restart.payloadOffset.toNat = (before.flatMap encodeGroup).length := by
    rw [he]
    exact u32_toNat_ofNat (by omega)
  have hdrop : groups.flatten.drop before.flatten.length = [] ++ (group :: after).flatten := by
    rw [hflat, List.drop_left' rfl]
    rfl
  have hat : GroupedAt bytes parsed before.flatten.length [] (group :: after)
      (RecordDecoder.new k restart skip) := by
    refine ⟨?_, ?_, ?_, trivial, ?_, ?_, ?_, ?_⟩
    · simp only [groupBody_nil, List.nil_append, RecordDecoder.new, hoff]
      rw [hmap] at hrecords
      exact (HasAt.append.mp hrecords).2
    · simp only [groupBody_nil, List.length_nil, RecordDecoder.new, hoff]
      omega
    · simp [RecordDecoder.new]
    · simp only [groupBody_nil, List.length_nil, RecordDecoder.new, hoff, hrestarts, Nat.add_zero,
        Nat.add_sub_cancel_left]
      exact hd
    · rw [hrestarts]
      exact (List.getElem?_eq_some_iff.mp hk).1.le
    · simp only [List.length_nil]
      omega
    · intro g hm
      exact hne g (by rw [hg]; exact List.mem_append_right _ hm)
  refine ⟨?_, ?_⟩
  · simp only [List.flatten_cons, List.length_append] at hlen
    omega
  · rw [hx, hdrop]
    refine GroupedAt.decodes hflag hvb (group :: after) hat ?_ (by simp) ?_
    · rw [← hdrop]
      exact hs.sublist (List.drop_sublist _ _)
    · intro word hm
      rw [← hdrop] at hm
      exact hv word (List.mem_of_mem_drop hm)

theorem encodeGroup_length_pos {group : List Word} (h : group ≠ []) : 0 < (encodeGroup group).length := by
  obtain ⟨word, rest, rfl⟩ := List.exists_cons_of_ne_nil h
  rcases encodeGroup_cases word rest with ⟨_, _, _, he⟩ | ⟨_, _, _, _, _, he⟩ | he
  · simp [he]
  · simp [he]
  · simp [he]

theorem groupRestarts_within (groups : List (List Word)) {index offset : Nat}
    (hi : index + groups.flatten.length ≤ u32Max)
    (ho : offset + (groups.flatMap encodeGroup).length ≤ u32Max) (hs : Ordered groups.flatten)
    (hne : ∀ group ∈ groups, group ≠ []) {time : Nat} (ht : ∀ word ∈ groups.flatten, time ≤ word.time) :
    RestartsWithin (index + groups.flatten.length) (offset + (groups.flatMap encodeGroup).length)
      index offset time (groupRestarts index offset groups) := by
  induction groups generalizing index offset time with
  | nil => trivial
  | cons group groups ih =>
    have hgroup := hne group (by simp)
    have hsize := encodeGroup_length_pos hgroup
    obtain ⟨word, rest, hwr⟩ := List.exists_cons_of_ne_nil hgroup
    have hlen : group.length = rest.length + 1 := by simp [hwr]
    simp only [List.flatten_cons, List.length_append, List.flatMap_cons] at hi ho ⊢
    have h1 : (UInt32.ofNat index).toNat = index := u32_toNat_ofNat (by omega)
    have h2 : (UInt32.ofNat offset).toNat = offset := u32_toNat_ofNat (by omega)
    have htime : ((group.head?.map Word.timestampNs).getD 0).toNat = word.time := by
      rw [hwr]
      rfl
    obtain ⟨-, hrest, hcross⟩ := List.pairwise_append.mp hs
    have hw : ∀ w ∈ groups.flatten, word.time ≤ w.time := hcross word (by simp [hwr])
    have hih := @ih (index + group.length) (offset + (encodeGroup group).length) (by omega) (by omega) hrest
      (fun g hm => hne g (by simp [hm])) word.time hw
    rw [Nat.add_assoc, Nat.add_assoc] at hih
    refine ⟨h1.ge, ?_, h2.ge, ?_, ?_, ?_⟩
    · rw [h1]
      omega
    · rw [h2]
      omega
    · rw [htime]
      exact ht word (by simp [hwr])
    · simp only [h1, h2, htime]
      exact hih.mono (by omega) (by omega) le_rfl

theorem chunksLoop_spec {α : Type} {size : Nat} (hsize : 0 < size) (fuel : Nat) {xs : List α}
    (h : xs.length ≤ fuel) :
    (chunksLoop size fuel xs).flatten = xs ∧ ∀ chunk ∈ chunksLoop size fuel xs, chunk ≠ [] := by
  induction fuel generalizing xs with
  | zero =>
    have hnil : xs = [] := List.length_eq_zero_iff.mp (by omega)
    simp [hnil, chunksLoop]
  | succ fuel ih =>
    cases xs with
    | nil => simp [chunksLoop]
    | cons x xs =>
      have hd : ((x :: xs).drop size).length ≤ fuel := by
        simp only [List.length_drop, List.length_cons] at h ⊢
        omega
      obtain ⟨h1, h2⟩ := ih hd
      refine ⟨?_, ?_⟩
      · rw [chunksLoop, List.flatten_cons, h1, List.take_append_drop]
      · intro chunk hm
        rcases List.mem_cons.mp hm with he | hm
        · rw [he]
          simp
          omega
        · exact h2 chunk hm

theorem chunksLoop_nil {α : Type} (size fuel : Nat) : chunksLoop size fuel ([] : List α) = [] := by
  cases fuel <;> rfl

/-- All chunks but the last are full, so their starts are the multiples of the chunk size. -/
theorem groupsLoop_spec {restartInterval : Nat} (fuel : Nat) {words : List Word} {groupIndex : Nat}
    {records records' : Bytes} {restarts restarts' : List RestartEntry}
    (h : groupsLoop restartInterval (chunksLoop restartInterval fuel words) groupIndex records restarts =
      some (records', restarts')) :
    records' = records ++ (chunksLoop restartInterval fuel words).flatMap encodeGroup ∧
      restarts' = restarts ++ groupRestarts (groupIndex * restartInterval) records.length
        (chunksLoop restartInterval fuel words) := by
  induction fuel generalizing words groupIndex records restarts with
  | zero =>
    cases h
    simp [chunksLoop, groupRestarts]
  | succ fuel ih =>
    cases words with
    | nil =>
      cases h
      simp [chunksLoop, groupRestarts]
    | cons word rest =>
      rw [chunksLoop, groupsLoop] at h
      split at h
      next =>
        obtain ⟨h1, h2⟩ := ih h
        refine ⟨?_, ?_⟩
        · rw [h1, chunksLoop]
          simp
        · rw [h2, chunksLoop, groupRestarts, List.append_assoc, List.singleton_append,
            List.length_append]
          by_cases hfull : restartInterval ≤ (word :: rest).length
          · have hstart : (groupIndex + 1) * restartInterval = groupIndex * restartInterval +
                ((word :: rest).take restartInterval).length := by
              rw [List.length_take, Nat.min_eq_left hfull, Nat.add_mul, Nat.one_mul]
            rw [hstart]
          · rw [List.drop_eq_nil_of_le (by omega), chunksLoop_nil]
            rfl
      next => cases h

end LogicConduit
