import LogicConduit.IndexQuerySafety

namespace LogicConduit

open Checked

variable {startSample endSample : Nat}

section Exact

variable {sampler : IndexSampler} {channel : Nat}

theorem pushToggles_returns {blockStart wordIndex : Nat} (word : BitWord) {bits : List Nat}
    (h : ∀ bitIndex ∈ bits, blockStart + (wordIndex * 64 + bitIndex) < 2 ^ 64) (transitions : List LevelTransition) :
    (IndexSampler.pushToggles blockStart wordIndex word bits transitions).Returns fun _ => True := by
  induction bits generalizing transitions with
  | nil => trivial
  | cons bitIndex bits ih =>
    rw [IndexSampler.pushToggles]
    refine (add_returns (h bitIndex List.mem_cons_self)).next ?_
    exact ih (fun other hother => h other (List.mem_cons_of_mem bitIndex hother)) _

theorem wordLoop_returns {data : Bytes} {blockStart loLocal hiLocal : Nat} (hpos : 0 < hiLocal)
    (hread : ∀ wordIndex ≤ (hiLocal - 1) / 64, (readLeWord data wordIndex).Returns fun _ => True)
    (hblock : blockStart + hiLocal ≤ 2 ^ 64) (remaining : Nat) {wordIndex : Nat}
    (hlast : wordIndex + remaining ≤ (hiLocal - 1) / 64 + 1) (current : Bool) (transitions : List LevelTransition) :
    (IndexSampler.wordLoop data blockStart loLocal hiLocal remaining wordIndex current transitions).Returns
      fun _ => True := by
  induction remaining generalizing wordIndex current transitions with
  | zero => trivial
  | succ remaining ih =>
    rw [IndexSampler.wordLoop]
    refine (hread wordIndex (by omega)).bind fun word _ => ?_
    dsimp only
    have hlo : (if wordIndex = loLocal / 64 then loLocal % 64 else 0) < 64 := by
      split <;> omega
    have hhi : (if wordIndex = (hiLocal - 1) / 64 then Checked.sub hiLocal (wordIndex * 64) else .done 64 :
        Query Nat).Returns fun hi => 0 < hi ∧ hi ≤ 64 ∧ wordIndex * 64 + hi ≤ hiLocal := by
      refine returns_ite (fun hword => (sub_returns (by omega)).mono ?_) fun hword => ?_
      · rintro _ rfl
        omega
      · show 0 < 64 ∧ 64 ≤ 64 ∧ wordIndex * 64 + 64 ≤ hiLocal
        omega
    refine hhi.bind ?_
    rintro hi ⟨hfirst, hword, hend⟩
    refine (checkedRangeMask_returns hlo hword).next ?_
    refine (pushToggles_returns word (fun bitIndex hbit => ?_) transitions).bind fun transitions _ => ?_
    · have hin := bit_masked hlo hword (mem_wordBits hbit)
      omega
    · refine (sub_returns hfirst).next ?_
      exact ih (by omega) _ _

theorem block_before {samplesPerBlock endSample block : Nat} (hpos : 0 < samplesPerBlock)
    (hblock : block ≤ (endSample - 1) / samplesPerBlock) : block * samplesPerBlock ≤ endSample - 1 :=
  (Nat.le_div_iff_mul_le hpos).mp hblock

theorem blockLoop_returns (h : sampler.BlocksReach channel) (hpos : 0 < sampler.header.samplesPerBlock)
    (hstart : startSample < endSample) (hend : endSample ≤ sampler.header.totalSamples) (remaining : Nat) {block : Nat}
    (hlast : block + remaining ≤ (endSample - 1) / sampler.header.samplesPerBlock + 1) (current : Bool)
    (transitions : List LevelTransition) :
    (sampler.blockLoop channel startSample endSample remaining block current transitions).Returns fun _ => True := by
  have htotal := sampler.header.totalSamples_lt
  induction remaining generalizing block current transitions with
  | zero => trivial
  | succ remaining ih =>
    have hbefore := block_before hpos (show block ≤ (endSample - 1) / sampler.header.samplesPerBlock by omega)
    rw [IndexSampler.blockLoop]
    refine (ofExcept_returns _).bind fun data hdata => ?_
    refine (mul_returns (by omega)).next ?_
    dsimp only
    have hblockEnd : min (saturatingAdd (block * sampler.header.samplesPerBlock) sampler.header.samplesPerBlock)
        endSample ≤ block * sampler.header.samplesPerBlock + sampler.header.samplesPerBlock := by
      unfold saturatingAdd
      omega
    generalize hblockEnd' : min (saturatingAdd (block * sampler.header.samplesPerBlock) sampler.header.samplesPerBlock)
      endSample = blockEnd at *
    refine (add_returns (by omega)).next ?_
    refine returns_ite (fun _ => ih (by omega) _ _) fun hscan => ?_
    refine (sub_returns (by omega)).next ?_
    refine (sub_returns (by omega)).next ?_
    refine (sub_returns (by omega)).next ?_
    have hread : ∀ wordIndex ≤ (blockEnd - block * sampler.header.samplesPerBlock - 1) / 64,
        (readLeWord data wordIndex).Returns fun _ => True := by
      intro wordIndex hword
      have hfirst : (readLeWord data (wordIndex * 64 / 64)).Returns fun _ => True :=
        h.readLeWord hdata (by omega) (by omega)
      rwa [Nat.mul_div_cancel wordIndex (by decide)] at hfirst
    refine (wordLoop_returns (by omega) hread (by omega) _ (by omega) _ _).bind fun result _ => ?_
    exact ih (by omega) _ _

theorem exactSampledChannel_returns (h : channel < sampler.header.totalProbes → sampler.Readable channel)
    (hstart : startSample < endSample) (hend : endSample ≤ sampler.header.totalSamples) :
    (sampler.exactSampledChannel channel startSample endSample).Returns fun _ => True := by
  unfold IndexSampler.exactSampledChannel
  refine returns_ite (fun _ => trivial) fun hchannel => ?_
  obtain ⟨hpos, hreach⟩ := h (not_le.mp hchannel)
  refine (div_returns hpos).next ?_
  refine (sub_returns (by omega)).next ?_
  refine (div_returns hpos).next ?_
  refine (ofExcept_returns _).bind fun data _ => ?_
  refine (rem_returns hpos).next ?_
  have hblocks : startSample / sampler.header.samplesPerBlock ≤ (endSample - 1) / sampler.header.samplesPerBlock :=
    Nat.div_le_div_right (by omega)
  exact (blockLoop_returns hreach hpos hstart hend _ (by omega) _ _).bind fun _ _ => trivial

end Exact

section Indexed

variable {sampler : IndexSampler} {channel : Nat}

theorem bitmapBit_returns {map : Bitmap} {group : Nat} (h : group / 64 < map.length) :
    (IndexSampler.bitmapBit map group).Returns fun _ => True :=
  (index_returns h).bind fun _ _ => trivial

theorem groupRangeSummary_returns {toggle last : Bitmap} {firstGroup lastGroup : Nat} (first : Bool)
    (hfirst : firstGroup < 64 * last.length) (hlast : lastGroup < 64 * last.length) :
    (IndexSampler.groupRangeSummary toggle last first firstGroup lastGroup).Returns fun _ => True := by
  have hbefore : (IndexSampler.levelBefore last first firstGroup).Returns fun _ => True :=
    returns_ite (fun _ => trivial) fun _ => bitmapBit_returns (by omega)
  refine hbefore.bind fun _ _ => ?_
  refine (bitmapBit_returns (by omega)).bind fun _ _ => ?_
  exact (bitRangeAny_returns toggle firstGroup lastGroup).bind fun _ _ => trivial

theorem blockLocalDisplaySummary_returns {block localStart localEnd : Nat}
    (hblock : block * sampler.header.samplesPerBlock < 2 ^ 64) (hlocal : localStart < localEnd) (groupSamples : Nat) :
    (sampler.blockLocalDisplaySummary channel block localStart localEnd groupSamples).Returns fun _ => True := by
  unfold IndexSampler.blockLocalDisplaySummary
  refine (mul_returns hblock).next ?_
  dsimp only
  refine returns_ite (fun _ => (loadRootSummary_returns _).bind fun _ _ => trivial) fun _ => ?_
  refine returns_ite (fun _ => ?_) fun _ => ?_
  · refine (loadRootSummary_returns _).bind fun entry _ => ?_
    refine returns_ite (fun _ => trivial) fun _ => ?_
    refine (sub_returns (by omega)).next ?_
    exact groupRangeSummary_returns _ (show _ < 64 * 1 by omega) (show _ < 64 * 1 by omega)
  · refine (loadLeaf_returns hblock).bind fun leaf _ => ?_
    cases leaf.levels with
    | none => trivial
    | some levels =>
      have hl1 : levels.l1Last.length = 4096 := levels.l1Last_length
      have hl2 : levels.l2Last.length = 64 := levels.l2Last_length
      refine (sub_returns (by omega)).next ?_
      exact returns_ite (fun _ => groupRangeSummary_returns _ (by omega) (by omega)) fun _ =>
        groupRangeSummary_returns _ (by omega) (by omega)

section

variable (hpos : 0 < sampler.header.samplesPerBlock)
include hpos

theorem indexedInitialValue_returns {sample : Nat} (hsample : sample < 2 ^ 64) (groupSamples : Nat) :
    (sampler.indexedInitialValue channel sample groupSamples).Returns fun _ => True := by
  have hblock := Nat.div_mul_le_self sample sampler.header.samplesPerBlock
  have hoffset := Nat.mod_lt sample hpos
  have hsmall := sampler.header.samplesPerBlock_lt
  unfold IndexSampler.indexedInitialValue
  refine (div_returns hpos).next ?_
  refine (rem_returns hpos).next ?_
  refine (add_returns (by omega)).next ?_
  exact (blockLocalDisplaySummary_returns (by omega) (by omega) groupSamples).bind fun _ _ => trivial

theorem displayLoop_returns (hend : endSample ≤ 2 ^ 64) (groupSamples remaining : Nat) {block : Nat}
    (hlast : block + remaining ≤ (endSample - 1) / sampler.header.samplesPerBlock + 1) (first : Option Bool)
    (toggle last : Bool) :
    (sampler.displayLoop channel startSample endSample groupSamples remaining block first toggle last).Returns
      fun _ => True := by
  induction remaining generalizing block first toggle last with
  | zero => trivial
  | succ remaining ih =>
    have hbefore := block_before hpos (show block ≤ (endSample - 1) / sampler.header.samplesPerBlock by omega)
    rw [IndexSampler.displayLoop]
    refine (mul_returns (by omega)).next ?_
    dsimp only
    refine returns_ite (fun _ => ih (by omega) _ _ _) fun hlocal => ?_
    refine (blockLocalDisplaySummary_returns (by omega) (not_le.mp hlocal) groupSamples).bind fun _ _ => ?_
    exact ih (by omega) _ _ _

theorem indexedDisplayRangeSummary_returns
    (hstart : startSample < endSample) (hend : endSample ≤ 2 ^ 64) (groupSamples : Nat) (fallbackFirst : Bool) :
    (sampler.indexedDisplayRangeSummary channel startSample endSample groupSamples fallbackFirst).Returns
      fun _ => True := by
  have hblocks : startSample / sampler.header.samplesPerBlock ≤ (endSample - 1) / sampler.header.samplesPerBlock :=
    Nat.div_le_div_right (by omega)
  unfold IndexSampler.indexedDisplayRangeSummary
  refine (div_returns hpos).next ?_
  refine (div_returns hpos).next ?_
  exact (displayLoop_returns hpos hend groupSamples _ (by omega) _ _ _).bind fun _ _ => trivial

end

variable {grid : WaveformSummaryGrid} {point : Nat}

theorem checkedPixelStart_returns (hgrid : grid.startSample ≤ grid.gridEndSample)
    (hsmall : grid.gridEndSample < 2 ^ 64) (hpoint : point ≤ grid.points) :
    (IndexSampler.checkedPixelStart grid point).Returns fun _ => True := by
  have hle : saturatingMul (grid.gridEndSample - grid.startSample) point / grid.points ≤
      grid.gridEndSample - grid.startSample := by
    refine Nat.div_le_of_le_mul ?_
    calc saturatingMul (grid.gridEndSample - grid.startSample) point
        ≤ (grid.gridEndSample - grid.startSample) * point := Nat.min_le_left _ _
      _ ≤ (grid.gridEndSample - grid.startSample) * grid.points := Nat.mul_le_mul_left _ hpoint
      _ = grid.points * (grid.gridEndSample - grid.startSample) := Nat.mul_comm _ _
  exact (add_returns (by omega)).mono fun _ _ => trivial

theorem pixelLoop_returns {summarize : Nat → Nat → Bool → Query WaveformSummary}
    (hgrid : grid.startSample ≤ grid.gridEndSample) (hsmall : grid.gridEndSample < 2 ^ 64)
    (hpoints : grid.points < 2 ^ 64)
    (hsummarize : ∀ visibleStart visibleEnd previousValue, visibleStart < visibleEnd →
      visibleEnd ≤ grid.availableEndSample → (summarize visibleStart visibleEnd previousValue).Returns fun _ => True)
    (remaining : Nat) (hpoint : point + remaining ≤ grid.points) (state : PixelState) :
    (IndexSampler.pixelLoop grid summarize remaining point state).Returns fun _ => True := by
  induction remaining generalizing point state with
  | zero => trivial
  | succ remaining ih =>
    rw [IndexSampler.pixelLoop]
    refine (checkedPixelStart_returns hgrid hsmall (by omega)).bind fun visibleStart _ => ?_
    refine returns_ite (fun _ => trivial) fun _ => ?_
    refine (add_returns (by omega)).next ?_
    have hstop : (IndexSampler.checkedPixelEnd grid (point + 1)).Returns fun _ => True :=
      returns_ite (fun _ => trivial) fun _ => checkedPixelStart_returns hgrid hsmall (by omega)
    refine hstop.bind fun gridStop _ => ?_
    dsimp only
    refine returns_ite (fun _ => ih (by omega) _) fun hvisible => ?_
    refine (hsummarize _ _ _ (by omega) (Nat.min_le_right _ _)).bind fun summary _ => ?_
    exact ih (by omega) _

theorem sampleIndexedChannel_returns (h : channel < sampler.header.totalProbes → sampler.Readable channel)
    (hstart : startSample < endSample) (hend : endSample < 2 ^ 64) {targetPoints : Nat}
    (htarget : targetPoints < 2 ^ 64) (groupSamples : Nat) :
    (sampler.sampleIndexedChannel channel startSample endSample targetPoints groupSamples).Returns fun _ => True := by
  unfold IndexSampler.sampleIndexedChannel
  refine returns_ite (fun _ => trivial) fun hchannel => ?_
  obtain ⟨hpos, -⟩ := h (not_le.mp hchannel)
  refine (indexedInitialValue_returns hpos (by omega) groupSamples).bind fun initial _ => ?_
  dsimp only
  refine (pixelLoop_returns (Nat.le_of_lt hstart) hend ?_ ?_ _ (Nat.le_of_eq (Nat.zero_add _)) _).bind fun _ _ => trivial
  · exact max_lt htarget (by decide)
  · intro visibleStart visibleEnd previousValue hvisible hlast
    exact indexedDisplayRangeSummary_returns hpos hvisible (Nat.le_trans hlast (Nat.le_of_lt hend)) groupSamples _

end Indexed

theorem eachChannel_returns {sample : Nat → Query SampledChannel}
    (h : ∀ channel, (sample channel).Returns fun _ => True) (channels : List Nat) :
    (IndexSampler.eachChannel sample channels).Returns fun _ => True := by
  induction channels with
  | nil => trivial
  | cons channel channels ih => exact (h channel).bind fun _ _ => ih.bind fun _ _ => trivial

section Windows

variable {sampler : IndexSampler}

theorem sampledWindow_returns (htotal : 0 < sampler.header.totalSamples)
    (h : ∀ channel < sampler.header.totalProbes, sampler.Readable channel) (channels : List Nat)
    (startSample endSample : Nat) {targetPoints : Nat} (htarget : targetPoints < 2 ^ 64) :
    (sampler.sampledWindow channels startSample endSample targetPoints).Returns fun _ => True := by
  have hsmall := sampler.header.totalSamples_lt
  unfold IndexSampler.sampledWindow
  dsimp only
  refine (add_returns (by omega)).next ?_
  refine (clamp_returns (by omega)).bind ?_
  rintro windowEnd ⟨hwindow, hend⟩
  refine (sub_returns (by omega)).next ?_
  refine returns_ite (fun _ => ?_) fun _ => ?_
  · have hsampled : ∀ channel, (sampler.exactSampledChannel channel (min startSample (sampler.header.totalSamples - 1))
        windowEnd).Returns fun _ => True :=
      fun channel => exactSampledChannel_returns (h channel) hwindow hend
    exact (eachChannel_returns hsampled channels).bind fun _ _ => trivial
  · obtain ⟨groupSamples, -, hselected⟩ := selectWaveformSummaryResolution_mem
      (windowEnd - min startSample (sampler.header.totalSamples - 1)) (max targetPoints 1)
      (List.cons_ne_nil samplesPerL1Bit [samplesPerL2Bit, samplesPerL3Bit, sampler.header.samplesPerBlock])
    rw [hselected]
    have hsampled : ∀ channel, (sampler.sampleIndexedChannel channel
        (min startSample (sampler.header.totalSamples - 1)) windowEnd (max targetPoints 1) groupSamples).Returns
        fun _ => True :=
      fun channel => sampleIndexedChannel_returns (h channel) hwindow (by omega) (max_lt htarget (by decide)) _
    exact (eachChannel_returns hsampled channels).bind fun _ _ => trivial

/-- No query aborts, whatever its arguments. -/
structure IndexSampler.Answers (sampler : IndexSampler) : Prop where
  valueAt : ∀ channel < 2 ^ 64, ∀ position < 2 ^ 64, (sampler.valueAt channel position).Returns fun _ => True
  nextTransition : ∀ channel < 2 ^ 64, ∀ position < 2 ^ 64, ∀ limit < 2 ^ 64,
    (sampler.nextTransition channel position limit).Returns fun _ => True
  nextTransitions : ∀ channel < 2 ^ 64, ∀ position < 2 ^ 64, ∀ limit < 2 ^ 64, ∀ maxTransitions < 2 ^ 64,
    (sampler.nextTransitions channel position limit maxTransitions).Returns fun _ => True
  sampledWindow : ∀ channels : List Nat, (∀ channel ∈ channels, channel < 2 ^ 64) → ∀ startSample < 2 ^ 64,
    ∀ endSample < 2 ^ 64, ∀ targetPoints < 2 ^ 64,
      (sampler.sampledWindow channels startSample endSample targetPoints).Returns fun _ => True

theorem sampledWindow_no_samples (h : sampler.header.totalSamples = 0) (channels : List Nat)
    (startSample endSample targetPoints : Nat) :
    sampler.sampledWindow channels startSample endSample targetPoints = .aborted .invalidClamp := by
  unfold IndexSampler.sampledWindow
  dsimp only
  rw [h, Nat.zero_sub, Nat.min_zero]
  rfl

theorem valueAt_no_blocks (h : sampler.header.samplesPerBlock = 0) (htotal : 0 < sampler.header.totalSamples)
    {channel : Nat} (hchannel : channel < sampler.header.totalProbes) :
    sampler.valueAt channel 0 = .aborted .divideByZero := by
  unfold IndexSampler.valueAt
  rw [if_neg (not_le.mpr hchannel), if_neg (not_le.mpr htotal), h]
  rfl

theorem readLeWord_short {data : Bytes} {wordIndex : Nat} (hdata : data.length < wordIndex * 8)
    (hsmall : wordIndex * 8 + 8 < 2 ^ 64) : readLeWord data wordIndex = .aborted .outOfRange := by
  unfold readLeWord
  rw [mul_of_lt (by omega), done_bind, add_of_lt hsmall, done_bind, if_neg (by omega)]
  dsimp only
  rw [slice, if_neg (by omega)]
  rfl

section ShortBlock

variable {channel block samples wordIndex : Nat} {data : Bytes} (hpos : 0 < sampler.header.samplesPerBlock)
  (hchannel : channel < sampler.header.totalProbes) (hdata : sampler.cachedPackedBlock channel block = .ok data)
  (hblock : samples ≤ sampler.header.samplesPerBlock)
  (htotal : block * sampler.header.samplesPerBlock + samples ≤ sampler.header.totalSamples)
  (hword : (samples - 1) / 64 = wordIndex) (hshort : data.length < wordIndex * 8)
include hpos hchannel hdata hblock htotal hword hshort

theorem exactSampledChannel_short_block :
    sampler.exactSampledChannel channel (block * sampler.header.samplesPerBlock + wordIndex * 64 - 1)
      (block * sampler.header.samplesPerBlock + samples) = .aborted .outOfRange := by
  have hsmall := sampler.header.totalSamples_lt
  have hnext : (block + 1) * sampler.header.samplesPerBlock =
      block * sampler.header.samplesPerBlock + sampler.header.samplesPerBlock := Nat.succ_mul _ _
  have hfirst : (block * sampler.header.samplesPerBlock + wordIndex * 64 - 1) / sampler.header.samplesPerBlock = block :=
    Nat.div_eq_of_lt_le (by omega) (by omega)
  have hlast : (block * sampler.header.samplesPerBlock + samples - 1) / sampler.header.samplesPerBlock = block :=
    Nat.div_eq_of_lt_le (by omega) (by omega)
  unfold IndexSampler.exactSampledChannel
  rw [if_neg (not_le.mpr hchannel), div_of_pos hpos, done_bind, sub_of_le (by omega), done_bind, div_of_pos hpos,
    done_bind, hfirst, hlast, hdata, ofExcept_ok, done_bind, rem_of_pos hpos, done_bind, Nat.add_sub_cancel_left]
  dsimp only
  have hend : min (saturatingAdd (block * sampler.header.samplesPerBlock) sampler.header.samplesPerBlock)
      (block * sampler.header.samplesPerBlock + samples) = block * sampler.header.samplesPerBlock + samples := by
    unfold saturatingAdd u64Max
    omega
  have hscan : max (block * sampler.header.samplesPerBlock)
      (block * sampler.header.samplesPerBlock + wordIndex * 64 - 1 + 1) =
        block * sampler.header.samplesPerBlock + wordIndex * 64 := by omega
  rw [IndexSampler.blockLoop, hdata, ofExcept_ok, done_bind, mul_of_lt (by omega), done_bind]
  dsimp only
  rw [add_of_lt (by omega), done_bind, hend, hscan, if_neg (by omega), sub_of_le (by omega), done_bind,
    sub_of_le (by omega), done_bind, sub_of_le (by omega), done_bind, Nat.add_sub_cancel_left, Nat.add_sub_cancel_left,
    hword, Nat.mul_div_cancel wordIndex (by decide), Nat.add_sub_cancel_left, IndexSampler.wordLoop,
    readLeWord_short hshort (by omega)]
  rfl

theorem sampledWindow_short_block :
    sampler.sampledWindow [channel] (block * sampler.header.samplesPerBlock + wordIndex * 64 - 1)
      (block * sampler.header.samplesPerBlock + samples) 1 = .aborted .outOfRange := by
  have hsmall := sampler.header.totalSamples_lt
  have hexact := exactSampledChannel_short_block hpos hchannel hdata hblock htotal hword hshort
  have hlimit : exactWindowSampleLimit (max 1 1) = 4096 := by decide
  generalize hstart : block * sampler.header.samplesPerBlock + wordIndex * 64 - 1 = startSample at hexact
  unfold IndexSampler.sampledWindow
  dsimp only
  rw [Nat.min_eq_left (by omega : startSample ≤ sampler.header.totalSamples - 1), add_of_lt (by omega), done_bind,
    clamp_of_mem (by omega) htotal, done_bind, sub_of_le (by omega), done_bind, if_pos (by omega),
    IndexSampler.eachChannel, hexact]
  rfl

end ShortBlock

def emptyCaptureSampler : IndexSampler where
  header := ⟨1, 0, 64, ["D0"], Nat.le_self_pow (by decide) 2, Nat.two_pow_pos 64, by decide⟩
  directory := [[]]
  loadSegment _ := .error (.parseError "waveform index segment is missing")
  cachedPackedBlock _ block := .error (.outOfBounds block)

theorem empty_capture_window_aborts :
    emptyCaptureSampler.sampledWindow [0] 0 1 1 = .aborted .invalidClamp ∧ ¬emptyCaptureSampler.Answers := by
  refine ⟨rfl, fun h => ?_⟩
  have hwindow := h.sampledWindow [0] (by simp) 0 (by decide) 1 (by decide) 1 (by decide)
  rw [sampledWindow_no_samples rfl] at hwindow
  exact hwindow

/-- The queries answer exactly when there are samples and the blocks of each channel can be read. -/
theorem index_queries_answer_iff (sampler : IndexSampler) : sampler.Answers ↔
    0 < sampler.header.totalSamples ∧ ∀ channel < sampler.header.totalProbes, sampler.Readable channel := by
  constructor
  · intro h
    have htotal : 0 < sampler.header.totalSamples := by
      refine Nat.pos_of_ne_zero fun hzero => ?_
      have hwindow := h.sampledWindow [] (by simp) 0 (by decide) 0 (by decide) 1 (by decide)
      rw [sampledWindow_no_samples hzero] at hwindow
      exact hwindow
    refine ⟨htotal, fun channel hchannel => ?_⟩
    have hsmall := sampler.header.totalSamples_lt
    have hprobes := sampler.header.totalProbes_lt
    have hpos : 0 < sampler.header.samplesPerBlock := by
      refine Nat.pos_of_ne_zero fun hzero => ?_
      have hvalue := h.valueAt channel (by omega) 0 (by decide)
      rw [valueAt_no_blocks hzero htotal hchannel] at hvalue
      exact hvalue
    refine ⟨hpos, fun block data hblock hdata => not_lt.mp fun hshort => ?_⟩
    generalize hsamples : min sampler.header.samplesPerBlock
      (sampler.header.totalSamples - block * sampler.header.samplesPerBlock) = samples at hshort
    have hwindow := h.sampledWindow [channel] (by simp; omega)
      (block * sampler.header.samplesPerBlock + (samples - 1) / 64 * 64 - 1) (by omega)
      (block * sampler.header.samplesPerBlock + samples) (by omega) 1 (by decide)
    rw [sampledWindow_short_block hpos hchannel hdata (by omega) (by omega) rfl hshort] at hwindow
    exact hwindow
  · rintro ⟨htotal, hreadable⟩
    exact {
      valueAt := fun channel _ position _ => valueAt_returns (hreadable channel) position
      nextTransition := fun channel _ position _ limit _ => nextTransition_returns (hreadable channel) position limit
      nextTransitions := fun channel _ position _ limit _ maxTransitions _ =>
        nextTransitions_returns (hreadable channel) position limit maxTransitions
      sampledWindow := fun channels _ startSample _ endSample _ targetPoints htarget =>
        sampledWindow_returns htotal hreadable channels startSample endSample htarget }

end Windows

end LogicConduit
