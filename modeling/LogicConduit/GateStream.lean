import LogicConduit.GateQueryEdges
import LogicConduit.GateTimes

namespace LogicConduit

theorem tagged_map {α β : Type} (f : α → β) (lists : List (List α)) :
    (tagged lists).map (fun a => (a.1, f a.2)) = tagged (lists.map fun l => l.map f) := by
  rw [tagged, tagged, List.zipIdx_map, List.flatMap_map, List.map_flatMap]
  refine List.flatMap_congr fun c _ => ?_
  rw [List.map_map, Prod.map_fst, List.map_map]
  rfl

theorem lt_countP_range {keep : Nat → Bool} {n : Nat} (down : ∀ p q, p ≤ q → q < n → keep q = true → keep p = true)
    {p : Nat} (hp : p < n) : keep p = true ↔ p < (List.range n).countP keep := by
  induction n generalizing p with
  | zero => omega
  | succ n ih =>
    have hle : (List.range n).countP keep ≤ n := by simpa using List.countP_le_length (p := keep) (l := List.range n)
    have hih : ∀ {p}, p < n → (keep p = true ↔ p < (List.range n).countP keep) :=
      fun hp => ih (fun p q hpq hq => down p q hpq (by omega)) hp
    rw [List.range_succ, List.countP_append, List.countP_singleton]
    by_cases hn : keep n = true
    · rw [if_pos hn]
      have hall : n ≤ (List.range n).countP keep := by
        rcases Nat.eq_zero_or_pos n with hz | hpos
        · omega
        · have := (hih (show n - 1 < n by omega)).mp (down (n - 1) n (by omega) (by omega) hn)
          omega
      exact ⟨fun _ => by omega, fun _ => down p n (by omega) (by omega) hn⟩
    · rw [if_neg hn, Nat.add_zero]
      rcases Nat.lt_or_ge p n with hlt | hge
      · exact hih hlt
      · rw [show p = n by omega]
        exact ⟨fun h => absurd h hn, fun h => by omega⟩

theorem eq_of_times {l m : List Sample} (sl : l.Pairwise fun a b => a.startTimeNs ≤ b.startTimeNs)
    (sm : m.Pairwise fun a b => a.startTimeNs ≤ b.startTimeNs)
    (same : ∀ t, l.filter (fun sample => sample.startTimeNs = t) = m.filter fun sample => sample.startTimeNs = t) :
    l = m := by
  have hkeyed : ∀ (l : List Sample) (x : Nat), (l.map fun sample => (sample.startTimeNs.toNat, sample)).filter
      (fun a => a.1 = x) =
        (l.filter fun sample => sample.startTimeNs.toNat = x).map fun sample => (sample.startTimeNs.toNat, sample) :=
    fun l x => List.filter_map
  have hpairs : (l.map fun sample => (sample.startTimeNs.toNat, sample)) =
      m.map fun sample => (sample.startTimeNs.toNat, sample) := by
    refine sorted_eq_of_filter ?_ ?_ fun x => ?_
    · exact List.pairwise_map.mpr (sl.imp UInt64.le_iff_toNat_le.mp)
    · exact List.pairwise_map.mpr (sm.imp UInt64.le_iff_toNat_le.mp)
    · rw [hkeyed, hkeyed]
      by_cases hx : x < 2 ^ 64
      · have hat : ∀ sample : Sample, decide (sample.startTimeNs.toNat = x) = decide (sample.startTimeNs = UInt64.ofNat x) := by
          intro sample
          have hnat : (UInt64.ofNat x).toNat = x := UInt64.toNat_ofNat_of_lt hx
          rw [decide_eq_decide, ← UInt64.toNat_inj, hnat]
        rw [funext hat, same (UInt64.ofNat x)]
      · have hnone : ∀ l : List Sample, l.filter (fun sample => sample.startTimeNs.toNat = x) = [] := by
          intro l
          refine List.filter_eq_nil_iff.mpr fun sample _ => ?_
          have := sample.startTimeNs.toNat_lt
          simp only [decide_eq_true_eq]
          omega
        rw [hnone, hnone]
  have hsnd := congrArg (List.map Prod.snd) hpairs
  rwa [List.map_map, List.map_map, List.map_id'' (by intro; rfl), List.map_id'' (by intro; rfl)] at hsnd

theorem level_at_last {level : Nat → Bool} {total q : Nat} (hq : q < total) :
    ((((0 :: edgesAfter level total 0).filter fun p => p ≤ q).map level).getLast?) = some (level q) := by
  have hsorted : (0 :: edgesAfter level total 0).Pairwise (· < ·) :=
    List.pairwise_cons.mpr ⟨fun _ hp => (mem_edgesAfter.mp hp).2.1, edgesAfter_sorted⟩
  rw [List.getLast?_map]
  cases hlast : ((0 :: edgesAfter level total 0).filter fun p => p ≤ q).getLast? with
  | none =>
    rw [List.getLast?_eq_none_iff, List.filter_cons_of_pos (by simp)] at hlast
    cases hlast
  | some p =>
    obtain ⟨before, hbefore⟩ := List.getLast?_eq_some_iff.mp hlast
    have hp := List.mem_filter.mp (List.mem_of_getLast? hlast)
    have hpq : p ≤ q := by simpa using hp.2
    refine congrArg some (level_eq_of_quiet hpq fun e hpe heq => ?_).symm
    by_contra hedge
    have hmem : e ∈ (0 :: edgesAfter level total 0).filter fun p => p ≤ q :=
      List.mem_filter.mpr ⟨List.mem_cons_of_mem _ (mem_edgesAfter.mpr ⟨by omega, by omega, by simpa using hedge⟩),
        by simpa using heq⟩
    have hsplit := hsorted.filter fun p => decide (p ≤ q)
    rw [hbefore] at hmem hsplit
    rcases List.mem_append.mp hmem with hin | hin
    · have := (List.pairwise_append.mp hsplit).2.2 e hin p List.mem_cons_self
      omega
    · rw [List.mem_singleton] at hin
      omega

namespace Recording

variable (r : Recording) (op : GateOp)

def edgesWhere (keep : Nat → Bool) : List (Nat × Bool) :=
  tagged (r.channels.map fun channel => ((edgesAfter channel.level r.total 0).filter keep).map channel.level)

def lastBefore (t : UInt64) : Nat := (List.range r.total).countP (fun p => r.stamp p < t) - 1

/-- At each time behind the start, the edges of that time change the output as often when they are applied one
at a time, input by input, as the samples of that time do, and no sample at the time of the start changes it. -/
def ChangesTogether : Prop :=
  (∀ t, 0 < t → LogicGate.changes op (r.levelsAt (r.lastBefore t)) (r.edgesWhere fun p => r.stamp p = t) =
    ((edgesAfter (r.output op) r.total 0).filter fun p => r.stamp p = t).length) ∧
  ∀ p ∈ edgesAfter (r.output op) r.total 0, 0 < r.stamp p

variable {r op} {t : UInt64} {p : Nat} {calls : Nat}

theorem stamp_lt_iff (ht : 0 < t) (hp : p < r.total) : r.stamp p < t ↔ p ≤ r.lastBefore t := by
  have hstamps : ∀ {p}, p < r.total → (r.stamp p < t ↔ p < (List.range r.total).countP fun p => r.stamp p < t) := by
    intro p hp
    rw [← lt_countP_range (fun p q hpq hq h => ?_) hp, decide_eq_true_eq]
    rw [decide_eq_true_eq] at h ⊢
    exact UInt64.lt_of_le_of_lt (stamp_mono hpq hq) h
  have hstart := (hstamps r.positive).mp (by rw [stamp_zero]; exact ht)
  rw [hstamps hp, lastBefore]
  omega

theorem lastBefore_lt (r : Recording) (t : UInt64) : r.lastBefore t < r.total := by
  have hle : (List.range r.total).countP (fun p => r.stamp p < t) ≤ r.total := by
    simpa using List.countP_le_length (p := fun p => decide (r.stamp p < t)) (l := List.range r.total)
  have hpos : 0 < r.total := r.positive
  rw [lastBefore]
  omega

theorem applied_before (hc : r.sampleCount ≤ calls) (ht : 0 < t) :
    applied (List.replicate r.channels.length false)
      ((mergeHeads calls (r.channels.map r.samples)).filter fun edge => edge.2.startTimeNs < t) =
        r.levelsAt (r.lastBefore t) := by
  refine List.ext_getElem? fun i => ?_
  rw [levelsAt, List.getElem?_map]
  rcases Nat.lt_or_ge i r.channels.length with hi | hi
  · have hchannel := List.getElem?_eq_getElem hi
    rw [applied_getElem? _ _ i (by rwa [List.length_replicate]), hchannel]
    have hvalues : (((mergeHeads calls (r.channels.map r.samples)).filter fun edge => edge.2.startTimeNs < t).filter
        fun edge => edge.1 = i).map (·.2.value) =
          ((0 :: edgesAfter r.channels[i].level r.total 0).filter fun p => p ≤ r.lastBefore t).map r.channels[i].level := by
      have hinput := @mergeHeads_input (r.channels.map r.samples) _ hc i
      rw [List.getElem?_map, hchannel] at hinput
      have hall : ((r.samples r.channels[i]).filter fun sample => sample.startTimeNs < t).map Sample.value =
          ((0 :: edgesAfter r.channels[i].level r.total 0).filter fun p => p ≤ r.lastBefore t).map r.channels[i].level := by
        rw [samples, List.filter_map, List.map_map]
        refine congrArg _ (List.filter_congr fun p hp => ?_)
        exact decide_eq_decide.mpr (stamp_lt_iff ht (positions_lt hp))
      rw [← hall, show r.samples r.channels[i] = _ from hinput.symm, List.filter_map, List.map_map, List.filter_comm]
      rfl
    rw [hvalues, level_at_last (r.lastBefore_lt t)]
    rfl
  · rw [List.getElem?_eq_none (by rwa [applied_length, List.length_replicate]), List.getElem?_eq_none hi]
    rfl

theorem mergeHeads_edgesWhere (hc : r.sampleCount ≤ calls) (ht : 0 < t) :
    ((mergeHeads calls (r.channels.map r.samples)).filter fun edge => edge.2.startTimeNs = t).map
      (fun edge => (edge.1, edge.2.value)) = r.edgesWhere fun p => r.stamp p = t := by
  rw [mergeHeads_at r.samples_ordered hc, tagged_map, edgesWhere, List.map_map, List.map_map]
  congr 1
  refine List.map_congr_left fun channel _ => ?_
  show ((r.samples channel).filter fun sample => sample.startTimeNs = t).map Sample.value = _
  have hzero : ¬r.stamp 0 = t := by
    rw [stamp_zero]
    exact UInt64.ne_of_lt ht
  rw [samples, List.filter_map, List.map_map]
  show List.map channel.level (List.filter (fun p => decide (r.stamp p = t)) _) = _
  rw [List.filter_cons_of_neg (by simpa using hzero)]

theorem output_values (ht : 0 < t) :
    ((edgesAfter (r.output op) r.total 0).filter fun p => r.stamp p = t).map (r.output op) =
      alternate (!r.output op (r.lastBefore t)) ((edgesAfter (r.output op) r.total 0).filter fun p => r.stamp p = t).length := by
  have hupTo : ∀ {p}, p < r.total → (r.stamp p ≤ t ↔ p < (List.range r.total).countP fun p => r.stamp p ≤ t) := by
    intro p hp
    rw [← lt_countP_range (fun p q hpq hq h => ?_) hp, decide_eq_true_eq]
    rw [decide_eq_true_eq] at h ⊢
    exact UInt64.le_trans (stamp_mono hpq hq) h
  have hle : (List.range r.total).countP (fun p => r.stamp p ≤ t) ≤ r.total := by
    simpa using List.countP_le_length (p := fun p => decide (r.stamp p ≤ t)) (l := List.range r.total)
  have hlist : (edgesAfter (r.output op) r.total 0).filter (fun p => r.stamp p = t) =
      edgesAfter (r.output op) ((List.range r.total).countP fun p => r.stamp p ≤ t) (r.lastBefore t) := by
    refine (edgesAfter_sorted.filter _).eq_of_mem_iff edgesAfter_sorted fun p => ?_
    rw [List.mem_filter, mem_edgesAfter, mem_edgesAfter, decide_eq_true_eq]
    constructor
    · rintro ⟨⟨hpt, -, hedge⟩, hstamp⟩
      refine ⟨(hupTo hpt).mp (UInt64.le_of_eq hstamp), ?_, hedge⟩
      by_contra hbefore
      exact UInt64.ne_of_lt ((stamp_lt_iff ht hpt).mpr (by omega)) hstamp
    · rintro ⟨hp, hbefore, hedge⟩
      have hpt : p < r.total := by omega
      refine ⟨⟨hpt, by omega, hedge⟩, ?_⟩
      rcases UInt64.lt_or_eq_of_le ((hupTo hpt).mpr hp) with hlt | heq
      · have := (stamp_lt_iff ht hpt).mp hlt
        omega
      · exact heq
  rw [hlist]
  exact edgesAfter_values _ _ _

def DistinctTimes (r : Recording) : Prop := 0 < r.timestampStep.toNat ∧ (r.total - 1) * r.timestampStep.toNat < 2 ^ 64

theorem DistinctTimes.stamp_eq (h : r.DistinctTimes) (hp : p < r.total) :
    (r.stamp p).toNat = p * r.timestampStep.toNat := by
  have hle := Nat.mul_le_mul_right r.timestampStep.toNat (show p ≤ r.total - 1 by omega)
  have hmax := h.2
  rw [stamp_toNat hp, Nat.min_eq_left]
  unfold u64Max
  omega

theorem DistinctTimes.stamp_lt (h : r.DistinctTimes) {q : Nat} (hpq : p < q) (hq : q < r.total) : r.stamp p < r.stamp q := by
  rw [UInt64.lt_iff_toNat_lt, h.stamp_eq hq, h.stamp_eq (hpq.trans hq)]
  exact Nat.mul_lt_mul_of_pos_right hpq h.1

theorem DistinctTimes.stamp_inj (h : r.DistinctTimes) {q : Nat} (hp : p < r.total) (hq : q < r.total) :
    r.stamp q = r.stamp p ↔ q = p := by
  constructor
  · intro heq
    rcases Nat.lt_trichotomy q p with hlt | hsame | hgt
    · exact absurd heq (UInt64.ne_of_lt (h.stamp_lt hlt hp))
    · exact hsame
    · exact absurd heq.symm (UInt64.ne_of_lt (h.stamp_lt hgt hq))
  · intro heq
    rw [heq]

theorem filter_edge (level : Nat → Bool) {total : Nat} (hp : 0 < p) (hpt : p < total) :
    (edgesAfter level total 0).filter (fun q => q = p) = if isEdge level p then [p] else [] := by
  have hsorted : (if isEdge level p then [p] else []).Pairwise (· < ·) := by
    split
    · exact List.pairwise_singleton _ _
    · exact List.Pairwise.nil
  refine (edgesAfter_sorted.filter _).eq_of_mem_iff hsorted fun q => ?_
  rw [List.mem_filter, mem_edgesAfter, decide_eq_true_eq]
  split
  · next hedge =>
    rw [List.mem_singleton]
    exact ⟨fun h => h.2, fun h => by subst h; exact ⟨⟨hpt, hp, hedge⟩, rfl⟩⟩
  · next hquiet =>
    exact ⟨fun h => absurd (h.2 ▸ h.1.2.2) hquiet, fun h => absurd h List.not_mem_nil⟩

theorem applied_edgesWhere (hp : 0 < p) (hpt : p < r.total) :
    applied (r.levelsAt (p - 1)) ((r.edgesWhere fun q => q = p).map fun edge => (edge.1, ⟨edge.2, 0⟩)) = r.levelsAt p := by
  refine List.ext_getElem? fun i => ?_
  have hlength : ∀ q, (r.levelsAt q).length = r.channels.length := fun q => List.length_map _
  rcases Nat.lt_or_ge i r.channels.length with hi | hi
  · have hvalues : (((r.edgesWhere fun q => q = p).map fun edge => (edge.1, (⟨edge.2, 0⟩ : Sample))).filter
        fun edge => edge.1 = i).map (·.2.value) = if isEdge r.channels[i].level p then [r.channels[i].level p] else [] := by
      have hfilter := tagged_filter (r.channels.map fun channel =>
        ((edgesAfter channel.level r.total 0).filter fun q => q = p).map channel.level) i
      rw [List.getElem?_map, List.getElem?_eq_getElem hi] at hfilter
      have hedge := filter_edge r.channels[i].level hp hpt
      rw [List.filter_map, List.map_map]
      show List.map Prod.snd ((r.edgesWhere fun q => q = p).filter fun edge => edge.1 = i) = _
      rw [edgesWhere, hfilter]
      show List.map Prod.snd (List.map _ (List.map _ (List.filter _ _))) = _
      rw [hedge]
      split
      · rfl
      · rfl
    have hat : (r.levelsAt p)[i]? = some (r.channels[i].level p) := by
      rw [levelsAt, List.getElem?_map, List.getElem?_eq_getElem hi]
      rfl
    rw [applied_getElem? _ _ i (by rwa [hlength]), hvalues, hat]
    refine congrArg some ?_
    split
    · rfl
    · next hquiet =>
      have hsame : r.channels[i].level p = r.channels[i].level (p - 1) := by
        simpa [isEdge, hp] using hquiet
      simp [levelsAt, hsame]
  · rw [List.getElem?_eq_none (by rwa [applied_length, hlength]), List.getElem?_eq_none (by rwa [hlength])]

/-- Where each sample has a time of its own, the edges of one sample may change the output once at most. -/
theorem changesTogether_iff (h : r.DistinctTimes) : r.ChangesTogether op ↔
    ∀ p, 0 < p → p < r.total → LogicGate.changes op (r.levelsAt (p - 1)) (r.edgesWhere fun q => q = p) ≤ 1 := by
  have hpositive : ∀ {p}, 0 < p → p < r.total → 0 < r.stamp p := fun hp hpt => stamp_zero ▸ h.stamp_lt hp hpt
  have hlast : ∀ {p}, 0 < p → p < r.total → r.lastBefore (r.stamp p) = p - 1 := by
    intro p hp hpt
    have hbefore := (stamp_lt_iff (hpositive hp hpt) (show p - 1 < r.total by omega)).mp (h.stamp_lt (by omega) hpt)
    have hat := mt (stamp_lt_iff (hpositive hp hpt) hpt).mpr (UInt64.lt_irrefl _)
    omega
  have hedges : ∀ {p}, p < r.total → r.edgesWhere (fun q => r.stamp q = r.stamp p) = r.edgesWhere fun q => q = p := by
    intro p hpt
    rw [edgesWhere, edgesWhere]
    refine congrArg _ (List.map_congr_left fun channel _ => congrArg _ (List.filter_congr fun q hq => ?_))
    exact decide_eq_decide.mpr (h.stamp_inj hpt (mem_edgesAfter.mp hq).1)
  have hcount : ∀ {p}, 0 < p → p < r.total →
      ((edgesAfter (r.output op) r.total 0).filter fun q => r.stamp q = r.stamp p).length =
        if isEdge (r.output op) p then 1 else 0 := by
    intro p hp hpt
    have hfilter : (edgesAfter (r.output op) r.total 0).filter (fun q => r.stamp q = r.stamp p) =
        (edgesAfter (r.output op) r.total 0).filter fun q => q = p :=
      List.filter_congr fun q hq => decide_eq_decide.mpr (h.stamp_inj hpt (mem_edgesAfter.mp hq).1)
    rw [hfilter, filter_edge _ hp hpt]
    split
    · rfl
    · rfl
  have hparity : ∀ {p}, 0 < p → p < r.total →
      LogicGate.changes op (r.levelsAt (p - 1)) (r.edgesWhere fun q => q = p) % 2 =
        if isEdge (r.output op) p then 1 else 0 := by
    intro p hp hpt
    have hlen := @LogicGate.emitted_length op (r.levelsAt (p - 1))
      ((r.edgesWhere fun q => q = p).map fun edge => (edge.1, ⟨edge.2, 0⟩))
    rw [List.map_map, show ((fun edge : Nat × Sample => (edge.1, edge.2.value)) ∘ fun edge : Nat × Bool =>
      (edge.1, (⟨edge.2, 0⟩ : Sample))) = id from rfl, List.map_id] at hlen
    rw [← hlen, LogicGate.emitted_parity, applied_edgesWhere hp hpt]
    show (if r.output op p == r.output op (p - 1) then 0 else 1) = _
    simp only [isEdge, hp, decide_true, Bool.true_and, bne]
    cases r.output op p == r.output op (p - 1)
    · rfl
    · rfl
  constructor
  · intro htogether p hp hpt
    have hat := htogether.1 (r.stamp p) (hpositive hp hpt)
    rw [hlast hp hpt, hedges hpt, hcount hp hpt] at hat
    rw [hat]
    split
    · exact Nat.le_refl _
    · exact Nat.zero_le _
  · intro honce
    refine ⟨fun t ht => ?_, fun p hp => ?_⟩
    · by_cases hstamp : ∃ p, p < r.total ∧ r.stamp p = t
      · obtain ⟨p, hpt, rfl⟩ := hstamp
        have hp : 0 < p := by
          rcases Nat.eq_zero_or_pos p with rfl | hp
          · rw [stamp_zero] at ht
            exact absurd ht (UInt64.lt_irrefl _)
          · exact hp
        have hle := honce p hp hpt
        have heven := hparity hp hpt
        rw [hlast hp hpt, hedges hpt, hcount hp hpt]
        omega
      · have hnone : ∀ level : Nat → Bool, (edgesAfter level r.total 0).filter (fun p => r.stamp p = t) = [] :=
          fun level => List.filter_eq_nil_iff.mpr fun p hp hpt =>
            hstamp ⟨p, (mem_edgesAfter.mp hp).1, of_decide_eq_true hpt⟩
        have hempty : r.edgesWhere (fun p => r.stamp p = t) = [] := by
          rw [List.eq_nil_iff_forall_not_mem]
          rintro ⟨i, value⟩ hmem
          obtain ⟨l, hl, hvalue⟩ := mem_tagged.mp hmem
          rw [List.getElem?_map] at hl
          obtain ⟨channel, -, rfl⟩ := Option.map_eq_some_iff.mp hl
          rw [hnone] at hvalue
          cases hvalue
        rw [hempty, hnone]
        rfl
    · obtain ⟨hpt, hpos, -⟩ := mem_edgesAfter.mp hp
      exact hpositive hpos hpt

def streamed (r : Recording) (transition : CaptureTransition) : Sample :=
  ⟨transition.value, saturatingMulU64 transition.sample r.timestampStep⟩

def afterStart (sent : List (ChannelMessage Sample)) : List Sample :=
  (streamItems sent).filter fun sample => 0 < sample.startTimeNs

theorem afterStart_samples (l : List Sample) : afterStart (l.map .sample) = l.filter fun sample => 0 < sample.startTimeNs := by
  have hitems : streamItems (l.map .sample) = l := by
    induction l with
    | nil => rfl
    | cons sample l ih => exact congrArg (sample :: ·) ih
  rw [afterStart, hitems]

theorem edges_ordered (level : Nat → Bool) :
    ((edgesAfter level r.total 0).map fun p => (⟨level p, r.stamp p⟩ : Sample)).Pairwise
      fun a b => a.startTimeNs ≤ b.startTimeNs := by
  rw [List.pairwise_map]
  exact edgesAfter_sorted.imp_of_mem fun _ hq hpq => stamp_mono hpq.le (mem_edgesAfter.mp hq).1

theorem eq_of_values {l m : List Sample} (hl : ∀ sample ∈ l, sample.startTimeNs = t) (hm : ∀ sample ∈ m, sample.startTimeNs = t)
    (h : l.map Sample.value = m.map Sample.value) : l = m := by
  have hstamped : ∀ {l : List Sample}, (∀ sample ∈ l, sample.startTimeNs = t) →
      (l.map Sample.value).map (fun value => (⟨value, t⟩ : Sample)) = l := by
    intro l hl
    rw [List.map_map]
    refine (List.map_congr_left fun sample hs => ?_).trans (List.map_id l)
    show Sample.mk sample.value t = sample
    rw [← hl sample hs]
  rw [← hstamped hl, ← hstamped hm, h]

/-- The samples that a gate emits behind the start are the edges of its output exactly if the edges of the
inputs change it together. -/
theorem emitted_eq_edges (hc : r.sampleCount ≤ calls) :
    ((LogicGate.emitted op (List.replicate r.channels.length false) (mergeHeads calls (r.channels.map r.samples))).filter
      fun sample => 0 < sample.startTimeNs) =
        ((edgesAfter (r.output op) r.total 0).map fun p => (⟨r.output op p, r.stamp p⟩ : Sample)) ↔
      r.ChangesTogether op := by
  have hsorted := (mergeHeads_sorted r.samples_ordered hc).imp fun hab => NoLater.time_le hab
  have hpos : ∀ t : UInt64, ¬t = 0 → 0 < t := fun t ht =>
    (UInt64.lt_or_eq_of_le (UInt64.le_iff_toNat_le.mpr (Nat.zero_le _))).resolve_right fun h => ht h.symm
  have hat : ∀ t, 0 < t → ((LogicGate.emitted op (List.replicate r.channels.length false)
      (mergeHeads calls (r.channels.map r.samples))).filter fun sample => 0 < sample.startTimeNs).filter
        (fun sample => sample.startTimeNs = t) = LogicGate.emitted op (r.levelsAt (r.lastBefore t))
          ((mergeHeads calls (r.channels.map r.samples)).filter fun edge => edge.2.startTimeNs = t) := by
    intro t ht
    rw [List.filter_filter, ← applied_before hc ht, ← LogicGate.emitted_at hsorted]
    refine List.filter_congr fun sample _ => ?_
    by_cases hs : sample.startTimeNs = t
    · simp [hs, ht]
    · simp [hs]
  have hlength : ∀ t, 0 < t → (LogicGate.emitted op (r.levelsAt (r.lastBefore t))
      ((mergeHeads calls (r.channels.map r.samples)).filter fun edge => edge.2.startTimeNs = t)).length =
        LogicGate.changes op (r.levelsAt (r.lastBefore t)) (r.edgesWhere fun p => r.stamp p = t) := by
    intro t ht
    rw [LogicGate.emitted_length, mergeHeads_edgesWhere hc ht]
  have hedges : ∀ t, ((edgesAfter (r.output op) r.total 0).map fun p => (⟨r.output op p, r.stamp p⟩ : Sample)).filter
      (fun sample => sample.startTimeNs = t) =
        ((edgesAfter (r.output op) r.total 0).filter fun p => r.stamp p = t).map fun p => ⟨r.output op p, r.stamp p⟩ :=
    fun t => List.filter_map
  constructor
  · intro heq
    refine ⟨fun t ht => ?_, fun p hp => ?_⟩
    · have hsame := congrArg (fun l : List Sample => (l.filter fun sample => sample.startTimeNs = t).length) heq
      rw [hat t ht, hlength t ht, hedges t, List.length_map] at hsame
      exact hsame
    · have hmem : (⟨r.output op p, r.stamp p⟩ : Sample) ∈ (edgesAfter (r.output op) r.total 0).map
          fun p => (⟨r.output op p, r.stamp p⟩ : Sample) := List.mem_map_of_mem (f := fun p => (⟨r.output op p, r.stamp p⟩ : Sample)) hp
      rw [← heq] at hmem
      simpa using (List.mem_filter.mp hmem).2
  · intro htogether
    refine eq_of_times ((LogicGate.emitted_sorted hsorted).filter _) (edges_ordered _) fun t => ?_
    by_cases ht : t = 0
    · have hnone : (edgesAfter (r.output op) r.total 0).filter (fun p => r.stamp p = t) = [] := by
        refine List.filter_eq_nil_iff.mpr fun p hp hstamp => ?_
        exact UInt64.ne_of_lt (htogether.2 p hp) ((of_decide_eq_true hstamp).trans ht).symm
      rw [hedges t, hnone, List.filter_filter]
      refine List.filter_eq_nil_iff.mpr fun sample _ hs => ?_
      rw [ht, Bool.and_eq_true, decide_eq_true_eq, decide_eq_true_eq] at hs
      rw [hs.1] at hs
      exact UInt64.lt_irrefl 0 hs.2
    · have hpositive := hpos t ht
      have htimes : ∀ sample ∈ ((edgesAfter (r.output op) r.total 0).filter fun p => r.stamp p = t).map
          (fun p => (⟨r.output op p, r.stamp p⟩ : Sample)), sample.startTimeNs = t := by
        intro sample hs
        obtain ⟨p, hp, rfl⟩ := List.mem_map.mp hs
        exact of_decide_eq_true (List.mem_filter.mp hp).2
      have htimes' : ∀ sample ∈ LogicGate.emitted op (r.levelsAt (r.lastBefore t))
          ((mergeHeads calls (r.channels.map r.samples)).filter fun edge => edge.2.startTimeNs = t),
            sample.startTimeNs = t := by
        intro sample hs
        obtain ⟨edge, hedge, htime⟩ := LogicGate.emitted_time hs
        exact htime ▸ of_decide_eq_true (List.mem_filter.mp hedge).2
      rw [hat t hpositive, hedges t]
      refine eq_of_values htimes' htimes ?_
      rw [LogicGate.emitted_values, hlength t hpositive, htogether.1 t hpositive, List.map_map]
      exact (output_values hpositive).symm

/-- A gate over captures of one rate and length, streamed or asked for their edges in any mix: it shuts down,
the iteration of its query ends, and the samples it sends behind the start are the transitions of the query
exactly if the edges of each time change the output together. Where each sample has a time of its own, that is
to say that no simultaneous edges change the output more than once as they are applied input by input. -/
theorem gate_stream_matches_query (r : Recording) (op : GateOp) (inputs : List GateInput) (some : r.channels ≠ [])
    (feeds : List.Forall₂ r.Feeds r.channels inputs) :
    ∃ query sent edges, LogicGateEdgeQuery.new op (r.channels.map r.query) = .some query ∧
      (∀ calls, r.sampleCount < calls → (LogicGate.new op r.channels.length).run calls inputs = .some sent) ∧
      (∀ rounds, r.total < rounds → query.transitions rounds 0 = .ok edges) ∧
      (afterStart sent = edges.map r.streamed ↔ r.ChangesTogether op) ∧
      (r.DistinctTimes → (r.ChangesTogether op ↔ ∀ p, 0 < p → p < r.total →
        LogicGate.changes op (r.levelsAt (p - 1)) (r.edgesWhere fun q => q = p) ≤ 1)) := by
  refine ⟨r.gateQuery op, (⟨op.combine (List.replicate r.channels.length false), 0⟩ ::
    LogicGate.emitted op (List.replicate r.channels.length false)
      (mergeHeads r.sampleCount (r.channels.map r.samples))).map .sample,
    (edgesAfter (r.output op) r.total 0).map fun p => ⟨UInt64.ofNat p, r.output op p⟩,
    r.new_gateQuery op some, fun calls hcalls => ?_, fun rounds hrounds => ?_, ?_, changesTogether_iff⟩
  · obtain ⟨count, rfl⟩ : ∃ count, calls = count + 1 := ⟨calls - 1, by omega⟩
    have hmerge : mergeHeads r.sampleCount (r.channels.map r.samples) = mergeHeads count (r.channels.map r.samples) :=
      mergeHeads_enough (Nat.le_refl _) (Nat.le_of_lt_succ hcalls)
    rw [hmerge]
    exact run_gate op feeds (Nat.le_of_lt_succ hcalls)
  · exact transitions_gateQuery rounds (by simpa using hrounds)
  · rw [afterStart_samples, List.filter_cons_of_neg (by simp), List.map_map]
    exact emitted_eq_edges (Nat.le_refl _)

/-- The first channel rises at the sample at which the second one falls. -/
def crossing : Recording where
  totalSamples := 3
  timestampStep := 1
  channels := [⟨fun p => decide (1 ≤ p), false⟩, ⟨fun p => decide (p < 1), false⟩]
  positive := by decide

theorem crossing_feeds : List.Forall₂ crossing.Feeds crossing.channels
    [.query (crossing.query ⟨fun p => decide (1 ≤ p), false⟩),
      .streamed (.new [.sample ⟨true, 0⟩, .sample ⟨false, 1⟩])] :=
  .cons .query (.cons (.streamed (by decide)) .nil)

/-- An AND of two channels that cross emits a pulse of no length, of which its query knows nothing. -/
theorem crossing_edges_glitch :
    (LogicGate.new .and 2).run 9 [.query (crossing.query ⟨fun p => decide (1 ≤ p), false⟩),
      .streamed (.new [.sample ⟨true, 0⟩, .sample ⟨false, 1⟩])] =
        some [.sample ⟨false, 0⟩, .sample ⟨true, 1⟩, .sample ⟨false, 1⟩] ∧
    (crossing.gateQuery .and).transitions 9 0 = .ok [] ∧
    ¬∀ (r : Recording) (op : GateOp) (inputs : List GateInput) (sent : List (ChannelMessage Sample))
      (edges : List CaptureTransition), r.channels ≠ [] → List.Forall₂ r.Feeds r.channels inputs →
      (LogicGate.new op r.channels.length).run 9 inputs = some sent → (r.gateQuery op).transitions 9 0 = .ok edges →
      afterStart sent = edges.map r.streamed := by
  have hsent : (LogicGate.new .and 2).run 9 [.query (crossing.query ⟨fun p => decide (1 ≤ p), false⟩),
      .streamed (.new [.sample ⟨true, 0⟩, .sample ⟨false, 1⟩])] =
        some [.sample ⟨false, 0⟩, .sample ⟨true, 1⟩, .sample ⟨false, 1⟩] := by decide
  have hedges : (crossing.gateQuery .and).transitions 9 0 = .ok [] := by decide
  refine ⟨hsent, hedges, fun h => ?_⟩
  have hequal := h crossing .and _ _ _ (by decide) crossing_feeds hsent hedges
  exact absurd hequal (by decide)

/-- An OR of the same channels stays high. -/
theorem gate_stream_matches_query_crossing :
    ∃ query sent edges, LogicGateEdgeQuery.new .or (crossing.channels.map crossing.query) = .some query ∧
      (∀ calls, crossing.sampleCount < calls → (LogicGate.new .or 2).run calls
        [.query (crossing.query ⟨fun p => decide (1 ≤ p), false⟩),
          .streamed (.new [.sample ⟨true, 0⟩, .sample ⟨false, 1⟩])] = .some sent) ∧
      (∀ rounds, crossing.total < rounds → query.transitions rounds 0 = .ok edges) ∧
      afterStart sent = edges.map crossing.streamed := by
  obtain ⟨query, sent, edges, hquery, hrun, hedges, hmatch, honce⟩ :=
    gate_stream_matches_query crossing .or _ (by decide) crossing_feeds
  refine ⟨query, sent, edges, hquery, hrun, hedges, hmatch.mpr ((honce ⟨by decide, by decide⟩).mpr ?_)⟩
  intro p hp hpt
  have htotal : crossing.total = 3 := by decide
  have hcases : p = 1 ∨ p = 2 := by omega
  rcases hcases with rfl | rfl
  · decide
  · decide

end Recording

end LogicConduit
