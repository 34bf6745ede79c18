import LogicConduit.IndexQueries

namespace LogicConduit

open Checked

variable {data : Bytes}

section Words

theorem readLeWord_returns {wordIndex : Nat} (hdata : wordIndex * 8 ≤ data.length) (hsmall : wordIndex * 8 + 8 < 2 ^ 64) :
    (readLeWord data wordIndex).Returns fun _ => True := by
  unfold readLeWord
  refine (mul_returns (by omega)).next ?_
  refine (add_returns hsmall).next ?_
  apply returns_ite
  · intro _
    trivial
  · intro _
    refine (slice_returns (by omega) (by omega)).next ?_
    trivial

theorem maskBelow_returns {count : Nat} (h : count ≤ 64) :
    (maskBelow count).Returns (· = if count = 64 then BitVec.allOnes 64 else (1#64 <<< count) - 1) := by
  unfold maskBelow
  split
  next => exact rfl
  next hne =>
    refine (shiftOne_returns (by omega)).next ?_
    exact rfl

theorem checkedRangeMask_returns {lo hi : Nat} (hlo : lo < 64) (hhi : hi ≤ 64) :
    (checkedRangeMask lo hi).Returns (· = rangeMask lo hi) := by
  unfold checkedRangeMask
  refine (maskBelow_returns hhi).next ?_
  refine (shiftOne_returns hlo).next ?_
  exact rfl

theorem bit_masked {word : BitWord} {lo hi i : Nat} (hlo : lo < 64) (hhi : hi ≤ 64)
    (h : bit (word &&& rangeMask lo hi) i = true) : lo ≤ i ∧ i < hi := by
  rw [bit_and, bit_rangeMask hlo hhi, Bool.and_eq_true, Bool.and_eq_true, decide_eq_true_eq, decide_eq_true_eq] at h
  exact h.2

theorem mem_wordBits {word : BitWord} {i : Nat} (h : i ∈ wordBits word) : bit word i = true := by
  rw [wordBits_eq, List.mem_filter] at h
  exact h.2

theorem bitRangeAny_returns (words : Bitmap) (firstBit lastBit : Nat) :
    (bitRangeAny words firstBit lastBit).Returns fun _ => True := by
  have hloop : ∀ remaining wordIndex, (bitRangeLoop words firstBit lastBit remaining wordIndex).Returns fun _ => True := by
    intro remaining
    induction remaining with
    | zero =>
      intro wordIndex
      trivial
    | succ remaining ih =>
      intro wordIndex
      rw [bitRangeLoop]
      cases words[wordIndex]? with
      | none => trivial
      | some word =>
        have hcount : (if wordIndex = lastBit / 64 then lastBit % 64 + 1 else 64) ≤ 64 := by
          split <;> omega
        refine (maskBelow_returns hcount).bind ?_
        intro mask _
        exact returns_ite (fun _ => trivial) fun _ => ih _
  unfold bitRangeAny
  exact returns_ite (fun _ => trivial) fun _ => hloop _ _

end Words

section Groups

variable {levels : LevelsView} {start stop : Nat}

def GroupWithin (start stop group : Nat) : Prop :=
  start / samplesPerL1Bit ≤ group ∧ group ≤ (stop - 1) / samplesPerL1Bit ∧ group < 64 * l1Words

theorem l2Loop_returns {l3FirstL2 : Nat} {offsets : List Nat}
    (h : ∀ offset ∈ offsets, start / samplesPerL2Bit ≤ l3FirstL2 + offset ∧
      l3FirstL2 + offset ≤ (stop - 1) / samplesPerL2Bit) :
    (l2Loop levels start stop l3FirstL2 offsets).Returns fun found =>
      ∀ group, found = some (some group) → GroupWithin start stop group := by
  induction offsets with
  | nil =>
    intro group hgroup
    cases hgroup
  | cons offset offsets ih =>
    obtain ⟨hfirst, hlast⟩ := h offset List.mem_cons_self
    have hlo : start / samplesPerL1Bit ≤ (l3FirstL2 + offset) * 64 + 63 := by
      unfold samplesPerL1Bit samplesPerL2Bit at *
      omega
    have hhi : (l3FirstL2 + offset) * 64 ≤ (stop - 1) / samplesPerL1Bit := by
      unfold samplesPerL1Bit samplesPerL2Bit at *
      omega
    rw [l2Loop]
    cases hword : levels.l1Toggle[l3FirstL2 + offset]? with
    | none =>
      intro group hgroup
      cases hgroup
    | some word =>
      have hindex := (List.getElem?_eq_some_iff.mp hword).1
      rw [levels.l1Toggle_length] at hindex
      refine (sub_returns (by omega)).next ?_
      refine (sub_returns (by omega)).next ?_
      refine (checkedRangeMask_returns (by omega) (by omega)).next ?_
      generalize hbit : nonzeroTrailingBit _ = found
      cases found with
      | none => exact ih fun other hother => h other (List.mem_cons_of_mem offset hother)
      | some l1Offset =>
        rintro group hgroup
        obtain rfl : (l3FirstL2 + offset) * 64 + l1Offset = group := Option.some.inj (Option.some.inj hgroup)
        have hin := bit_masked (by omega) (by omega) (nonzeroTrailingBit_eq_some hbit).2.1
        exact ⟨by omega, by omega, by omega⟩

theorem l3Loop_returns (remaining : Nat) {l3 : Nat} (hfirst : start / samplesPerL3Bit ≤ l3)
    (hlast : l3 + remaining ≤ (stop - 1) / samplesPerL3Bit + 1) :
    (l3Loop levels start stop remaining l3).Returns fun found =>
      ∀ group, found = some group → GroupWithin start stop group := by
  induction remaining generalizing l3 with
  | zero =>
    intro group hgroup
    cases hgroup
  | succ remaining ih =>
    have hlo : start / samplesPerL2Bit ≤ l3 * 64 + 63 := by
      unfold samplesPerL2Bit samplesPerL3Bit at *
      omega
    have hhi : l3 * 64 ≤ (stop - 1) / samplesPerL2Bit := by
      unfold samplesPerL2Bit samplesPerL3Bit at *
      omega
    rw [l3Loop]
    refine returns_ite (fun _ => ?_) fun _ => ih (by omega) (by omega)
    cases levels.l2Toggle[l3]? with
    | none =>
      intro group hgroup
      cases hgroup
    | some word =>
      refine (sub_returns (by omega)).next ?_
      refine (sub_returns (by omega)).next ?_
      refine (checkedRangeMask_returns (by omega) (by omega)).next ?_
      refine (l2Loop_returns ?_).bind ?_
      · intro offset hoffset
        have hin := bit_masked (by omega) (by omega) (mem_wordBits hoffset)
        exact ⟨by omega, by omega⟩
      · intro found hfound
        cases found with
        | none => exact ih (by omega) (by omega)
        | some group =>
          intro other hother
          exact hfound other (congrArg some hother)

theorem nextIndexedL1Group_returns (levels : LevelsView) (start stop : Nat) :
    (nextIndexedL1Group levels start stop).Returns fun found =>
      ∀ group, found = some group → GroupWithin start stop group := by
  unfold nextIndexedL1Group
  refine returns_ite (fun _ => ?_) fun hlt => ?_
  · intro group hgroup
    cases hgroup
  · refine (sub_returns (by omega)).next ?_
    by_cases hsome : start / samplesPerL3Bit ≤ min ((stop - 1) / samplesPerL3Bit) 63
    · exact l3Loop_returns _ (Nat.le_refl _) (by omega)
    · simp only [show min ((stop - 1) / samplesPerL3Bit) 63 + 1 - start / samplesPerL3Bit = 0 by omega]
      intro group hgroup
      cases hgroup

end Groups

section Transitions

variable {sampler : IndexSampler} {channel : Nat}

def IndexSampler.BlocksReach (sampler : IndexSampler) (channel : Nat) : Prop :=
  ∀ block data, block * sampler.header.samplesPerBlock < sampler.header.totalSamples →
    sampler.cachedPackedBlock channel block = .ok data →
    (min sampler.header.samplesPerBlock (sampler.header.totalSamples - block * sampler.header.samplesPerBlock) - 1) /
      64 * 8 ≤ data.length

/-- What the queries of a channel rely on. -/
def IndexSampler.Readable (sampler : IndexSampler) (channel : Nat) : Prop :=
  0 < sampler.header.samplesPerBlock ∧ sampler.BlocksReach channel

theorem loadRootSummary_returns (block : Nat) : (sampler.loadRootSummary channel block).Returns fun _ => True := by
  unfold IndexSampler.loadRootSummary
  split <;> trivial

theorem leafView_returns (data : Bytes) : (leafView data).Returns fun _ => True := by
  unfold leafView
  refine returns_ite (fun _ => trivial) fun _ => ?_
  refine returns_ite (fun _ => ?_) fun _ => trivial
  split <;> trivial

theorem loadLeaf_returns {block : Nat} (h : block * sampler.header.samplesPerBlock < 2 ^ 64) :
    (sampler.loadLeaf channel block).Returns fun _ => True := by
  unfold IndexSampler.loadLeaf
  split
  next => trivial
  next entry _ =>
    refine returns_ite (fun _ => trivial) fun _ => ?_
    refine (ofExcept_returns _).bind fun region _ => ?_
    refine returns_ite (fun _ => trivial) fun _ => returns_ite (fun _ => trivial) fun _ => ?_
    refine (leafView_returns _).bind fun leaf _ => ?_
    refine (mul_returns h).next ?_
    exact returns_ite (fun _ => trivial) fun _ => trivial

theorem previousLast_returns (block : Nat) : (sampler.previousLast channel block).Returns fun _ => True := by
  unfold IndexSampler.previousLast
  refine returns_ite (fun _ => trivial) fun hne => ?_
  refine (sub_returns (Nat.pos_of_ne_zero hne)).bind fun _ _ => ?_
  exact (loadRootSummary_returns _).bind fun _ _ => trivial

theorem enteringLevel_returns (block wordStart : Nat) (data : Bytes) (word : BitWord) :
    (sampler.enteringLevel channel block wordStart data word).Returns fun _ => True := by
  unfold IndexSampler.enteringLevel
  exact returns_ite (fun _ => trivial) fun _ => (previousLast_returns block).bind fun _ _ => trivial

theorem IndexSampler.BlocksReach.readLeWord (h : sampler.BlocksReach channel) {block localSample : Nat}
    (hdata : sampler.cachedPackedBlock channel block = .ok data) (hlocal : localSample < sampler.header.samplesPerBlock)
    (hsample : block * sampler.header.samplesPerBlock + localSample < sampler.header.totalSamples) :
    (readLeWord data (localSample / 64)).Returns fun _ => True := by
  have hlong := h block data (by omega) hdata
  have hsmall := sampler.header.totalSamples_lt
  exact readLeWord_returns (by omega) (by omega)

theorem nextRawTransition_returns (h : sampler.BlocksReach channel) {block localStart localEnd : Nat}
    (hblock : block * sampler.header.samplesPerBlock + localEnd ≤ sampler.header.totalSamples)
    (hlocal : localEnd ≤ sampler.header.samplesPerBlock) (hword : localEnd ≤ localStart / 64 * 64 + 64) :
    (sampler.nextRawTransition channel block localStart localEnd).Returns fun _ => True := by
  have htotal := sampler.header.totalSamples_lt
  unfold IndexSampler.nextRawTransition
  refine returns_ite (fun _ => trivial) fun hlt => ?_
  refine (mul_returns (by omega)).next ?_
  refine (ofExcept_returns _).bind fun data hdata => ?_
  refine (h.readLeWord hdata (show localStart < _ by omega) (by omega)).bind fun word _ => ?_
  refine (enteringLevel_returns _ _ _ _).bind fun entering _ => ?_
  refine (sub_returns (by omega)).next ?_
  refine (sub_returns (by omega)).next ?_
  refine (checkedRangeMask_returns (by omega) (by omega)).next ?_
  dsimp only
  generalize hbit : nonzeroTrailingBit _ = found
  cases found with
  | none => trivial
  | some bitIndex =>
    have hin := bit_masked (by omega) (by omega) (nonzeroTrailingBit_eq_some hbit).2.1
    exact (add_returns (by omega)).bind fun _ _ => trivial

theorem block_span {samplesPerBlock search limit : Nat} (hpos : 0 < samplesPerBlock) (hlt : search < limit)
    (hlimit : limit < 2 ^ 64) :
    search / samplesPerBlock * samplesPerBlock ≤ search ∧
      search < min (saturatingAdd (search / samplesPerBlock * samplesPerBlock) samplesPerBlock) limit ∧
      min (saturatingAdd (search / samplesPerBlock * samplesPerBlock) samplesPerBlock) limit -
        search / samplesPerBlock * samplesPerBlock ≤ samplesPerBlock := by
  have hle := Nat.div_mul_le_self search samplesPerBlock
  have hnext : search < search / samplesPerBlock * samplesPerBlock + samplesPerBlock := Nat.lt_div_mul_add hpos
  unfold saturatingAdd u64Max
  omega

theorem nextGroup_returns (leaf : LeafView) (start stop : Nat) : (leaf.nextGroup start stop).Returns fun found =>
    ∀ group, found = some group → GroupWithin start stop group := by
  unfold LeafView.nextGroup
  split
  next =>
    intro group hgroup
    cases hgroup
  next levels _ => exact nextIndexedL1Group_returns levels start stop

theorem GroupWithin.scan {start stop group : Nat} (h : GroupWithin start stop group) (hlt : start < stop) :
    group * samplesPerL1Bit + samplesPerL1Bit < 2 ^ 64 ∧
      max start (group * samplesPerL1Bit) < min stop (group * samplesPerL1Bit + samplesPerL1Bit) ∧
      min stop (group * samplesPerL1Bit + samplesPerL1Bit) ≤ max start (group * samplesPerL1Bit) / 64 * 64 + 64 := by
  obtain ⟨hlo, hhi, hsmall⟩ := h
  unfold samplesPerL1Bit l1Words at *
  omega

theorem transitionLoop_returns (h : sampler.BlocksReach channel) (hpos : 0 < sampler.header.samplesPerBlock) {limit : Nat}
    (hlimit : limit ≤ sampler.header.totalSamples) (fuel : Nat) {search : Nat} (hsearch : search ≤ limit)
    (hfuel : limit < search + fuel) : (sampler.transitionLoop channel limit fuel search).Returns fun _ => True := by
  have htotal := sampler.header.totalSamples_lt
  induction fuel generalizing search with
  | zero => omega
  | succ fuel ih =>
    rw [IndexSampler.transitionLoop]
    refine returns_ite (fun _ => trivial) fun hlt => ?_
    obtain ⟨hstart, hprogress, hspan⟩ := block_span hpos (not_le.mp hlt) (show limit < 2 ^ 64 by omega)
    refine (div_returns hpos).next ?_
    refine (mul_returns (by omega)).next ?_
    generalize hblockStart : search / sampler.header.samplesPerBlock * sampler.header.samplesPerBlock = blockStart at *
    generalize hblockLimit : min (saturatingAdd blockStart sampler.header.samplesPerBlock) limit = blockLimit at *
    have hbound : blockLimit ≤ limit := by omega
    refine (sub_returns (by omega)).next ?_
    refine (loadRootSummary_returns _).bind fun root _ => ?_
    refine returns_ite (fun _ => ih (by omega) (by omega)) fun _ => ?_
    refine (sub_returns hstart).next ?_
    refine (loadLeaf_returns (by omega)).bind fun leaf _ => ?_
    refine (nextGroup_returns leaf _ _).bind fun found hfound => ?_
    cases found with
    | none => exact ih (by omega) (by omega)
    | some group =>
      obtain ⟨hsmall, hscan, hword⟩ := (hfound group rfl).scan (by omega)
      refine (mul_returns (by omega)).next ?_
      refine (add_returns hsmall).next ?_
      refine (nextRawTransition_returns h (by omega) (by omega) hword).bind fun transition _ => ?_
      cases transition with
      | some transition => trivial
      | none =>
        refine (add_returns (by omega)).next ?_
        exact ih (by omega) (by omega)

theorem nextTransition_returns (h : channel < sampler.header.totalProbes → sampler.Readable channel)
    (position limit : Nat) : (sampler.nextTransition channel position limit).Returns fun _ => True := by
  unfold IndexSampler.nextTransition
  refine returns_ite (fun _ => trivial) fun hchannel => ?_
  obtain ⟨hpos, hreach⟩ := h (not_le.mp hchannel)
  dsimp only
  refine returns_ite (fun _ => trivial) fun _ => returns_ite (fun _ => trivial) fun hlt => ?_
  exact transitionLoop_returns hreach hpos (Nat.min_le_right _ _) _ (by omega) (by omega)

theorem appendBits_returns {blockStart wordStart : Nat} (word : BitWord) (maxTransitions : Nat) {bits : List Nat}
    (h : ∀ bitIndex ∈ bits, blockStart + (wordStart + bitIndex) < 2 ^ 64) (output : List LevelTransition) :
    (IndexSampler.appendBits blockStart wordStart word maxTransitions bits output).Returns fun _ => True := by
  induction bits generalizing output with
  | nil => trivial
  | cons bitIndex bits ih =>
    rw [IndexSampler.appendBits]
    refine returns_ite (fun _ => ?_) fun _ => trivial
    refine (add_returns (h bitIndex List.mem_cons_self)).next ?_
    exact ih (fun other hother => h other (List.mem_cons_of_mem bitIndex hother)) _

theorem appendRawTransitions_returns {blockStart localStart localEnd : Nat}
    (hread : (readLeWord data (localStart / 64)).Returns fun _ => True) (hblock : blockStart + localEnd ≤ 2 ^ 64)
    (hword : localEnd ≤ localStart / 64 * 64 + 64) (previousBlockLast : Option Bool) (maxTransitions : Nat)
    (output : List LevelTransition) :
    (IndexSampler.appendRawTransitions data blockStart localStart localEnd previousBlockLast maxTransitions output).Returns
      fun _ => True := by
  unfold IndexSampler.appendRawTransitions
  refine returns_ite (fun _ => trivial) fun hlt => ?_
  refine hread.bind fun word _ => ?_
  dsimp only
  refine (sub_returns (by omega)).next ?_
  refine (sub_returns (by omega)).next ?_
  refine (checkedRangeMask_returns (by omega) (by omega)).next ?_
  refine appendBits_returns word maxTransitions (fun bitIndex hbit => ?_) output
  have hin := bit_masked (by omega) (by omega) (mem_wordBits hbit)
  omega

theorem groupLoop_returns {levels : LevelsView} {blockStart localLimit : Nat}
    (hread : ∀ localSample < localLimit, (readLeWord data (localSample / 64)).Returns fun _ => True)
    (hblock : blockStart + localLimit ≤ 2 ^ 64) (previousBlockLast : Option Bool) (maxTransitions : Nat) (fuel : Nat)
    {localSearch : Nat} (hsearch : localSearch ≤ localLimit) (hfuel : localLimit < localSearch + fuel)
    (output : List LevelTransition) :
    (IndexSampler.groupLoop data levels blockStart localLimit previousBlockLast maxTransitions fuel localSearch output).Returns
      fun result => localSearch ≤ result.1 ∧ result.1 ≤ localLimit ∧
        (localSearch < localLimit → output.length < maxTransitions → localSearch < result.1 ∨
          nextIndexedL1Group levels result.1 localLimit = .done none) := by
  induction fuel generalizing localSearch output with
  | zero => omega
  | succ fuel ih =>
    rw [IndexSampler.groupLoop]
    refine returns_ite (fun hend => ?_) fun hlt => ?_
    · exact ⟨Nat.le_refl _, hsearch, by omega⟩
    · refine (nextIndexedL1Group_returns levels localSearch localLimit).eq_done.bind ?_
      rintro found ⟨hfound, hsame⟩
      cases found with
      | none => exact ⟨Nat.le_refl _, hsearch, fun _ _ => .inr hsame⟩
      | some l1Group =>
        obtain ⟨hsmall, hscan, hword⟩ := (hfound l1Group rfl).scan (by omega)
        refine (mul_returns (by omega)).next ?_
        refine (add_returns hsmall).next ?_
        refine (appendRawTransitions_returns (hread _ (by omega)) (by omega) hword _ _ _).bind fun output _ => ?_
        refine (ih (by omega) (by omega) output).mono ?_
        rintro result ⟨hle, hend, -⟩
        exact ⟨by omega, hend, fun _ _ => .inl (by omega)⟩

theorem transitionsLoop_returns (h : sampler.BlocksReach channel) (hpos : 0 < sampler.header.samplesPerBlock)
    {limit : Nat} (hlimit : limit ≤ sampler.header.totalSamples) (maxTransitions : Nat) (fuel : Nat) {search : Nat}
    (hsearch : search ≤ limit) (hfuel : limit < search + fuel) (output : List LevelTransition) :
    (sampler.transitionsLoop channel limit maxTransitions fuel search output).Returns fun _ => True := by
  have htotal := sampler.header.totalSamples_lt
  induction fuel generalizing search output with
  | zero => omega
  | succ fuel ih =>
    rw [IndexSampler.transitionsLoop]
    refine returns_ite (fun _ => trivial) fun hlt => ?_
    obtain ⟨hstart, hprogress, hspan⟩ := block_span hpos (show search < limit by omega) (show limit < 2 ^ 64 by omega)
    refine (div_returns hpos).next ?_
    refine (mul_returns (by omega)).next ?_
    generalize hblockStart : search / sampler.header.samplesPerBlock * sampler.header.samplesPerBlock = blockStart at *
    generalize hblockLimit : min (saturatingAdd blockStart sampler.header.samplesPerBlock) limit = blockLimit at *
    have hbound : blockLimit ≤ limit := by omega
    refine (sub_returns (by omega)).next ?_
    refine (loadRootSummary_returns _).bind fun root _ => ?_
    refine returns_ite (fun _ => ih (by omega) (by omega) _) fun _ => ?_
    refine (ofExcept_returns _).bind fun data hdata => ?_
    refine (loadLeaf_returns (by omega)).bind fun leaf _ => ?_
    cases leaf.levels with
    | none => exact ih (by omega) (by omega) _
    | some levels =>
      refine (previousLast_returns _).bind fun previousBlockLast _ => ?_
      refine (sub_returns hstart).next ?_
      have hread : ∀ localSample < blockLimit - blockStart,
          (readLeWord data (localSample / 64)).Returns fun _ => True := by
        intro localSample hlocal
        exact h.readLeWord hdata (by omega) (by omega)
      refine (groupLoop_returns hread (by omega) previousBlockLast maxTransitions _ (by omega) (by omega) output).bind ?_
      rintro ⟨localSearch, output'⟩ ⟨hle, hend, hnext⟩
      refine (add_returns (by omega)).next ?_
      refine (nextIndexedL1Group_returns levels localSearch _).eq_done.bind ?_
      rintro left ⟨-, hleft⟩
      cases left with
      | none => exact ih (show blockLimit ≤ limit by omega) (show limit < blockLimit + fuel by omega) _
      | some group =>
        have hlater : search - blockStart < localSearch := by
          refine (hnext (by omega) (by omega)).resolve_right fun hnone => ?_
          cases hleft.symm.trans hnone
        exact ih (show blockStart + localSearch ≤ limit by omega)
          (show limit < blockStart + localSearch + fuel by omega) _

section

variable (h : channel < sampler.header.totalProbes → sampler.Readable channel)
include h

theorem nextTransitions_returns (position limit maxTransitions : Nat) :
    (sampler.nextTransitions channel position limit maxTransitions).Returns fun _ => True := by
  unfold IndexSampler.nextTransitions
  refine returns_ite (fun _ => trivial) fun hchannel => returns_ite (fun _ => trivial) fun _ => ?_
  obtain ⟨hpos, hreach⟩ := h (not_le.mp hchannel)
  dsimp only
  refine returns_ite (fun _ => trivial) fun _ => returns_ite (fun _ => trivial) fun hlt => ?_
  exact transitionsLoop_returns hreach hpos (Nat.min_le_right _ _) maxTransitions _ (by omega) (by omega) []

theorem valueAt_returns (position : Nat) :
    (sampler.valueAt channel position).Returns fun _ => True := by
  unfold IndexSampler.valueAt
  refine returns_ite (fun _ => trivial) fun hchannel => returns_ite (fun _ => trivial) fun _ => ?_
  obtain ⟨hpos, -⟩ := h (not_le.mp hchannel)
  refine (div_returns hpos).next ?_
  refine (ofExcept_returns _).bind fun data _ => ?_
  refine (rem_returns hpos).next ?_
  trivial

end

end Transitions

end LogicConduit
