import LogicConduit.GateRuns

namespace LogicConduit

/-- Lists one behind the other, each element with the index of its list. -/
def tagged {α : Type} (lists : List (List α)) : List (Nat × α) :=
  lists.zipIdx.flatMap fun c => c.1.map fun a => (c.2, a)

section Tagged

variable {α : Type}

theorem mem_tagged {lists : List (List α)} {i : Nat} {a : α} : (i, a) ∈ tagged lists ↔ ∃ l, lists[i]? = some l ∧ a ∈ l := by
  simp only [tagged, List.mem_flatMap, List.mem_map, Prod.mk.injEq, Prod.exists]
  constructor
  · rintro ⟨l, j, hmem, b, hb, rfl, rfl⟩
    exact ⟨l, List.mk_mem_zipIdx_iff_getElem?.mp hmem, hb⟩
  · rintro ⟨l, hl, ha⟩
    exact ⟨l, i, List.mk_mem_zipIdx_iff_getElem?.mpr hl, a, ha, rfl, rfl⟩

theorem tagged_sorted (lists : List (List α)) : (tagged lists).Pairwise fun a b => a.1 ≤ b.1 := by
  have hidx : lists.zipIdx.Pairwise fun a b => a.2 < b.2 := by
    rw [← List.pairwise_map (f := Prod.snd) (R := (· < ·)), List.zipIdx_map_snd]
    exact List.pairwise_lt_range'
  refine List.pairwise_flatMap.mpr ⟨fun c _ => ?_, hidx.imp fun hlt => ?_⟩
  · exact List.pairwise_map.mpr (List.pairwise_of_forall fun _ _ => Nat.le_refl _)
  · intro x hx y hy
    obtain ⟨_, -, rfl⟩ := List.mem_map.mp hx
    obtain ⟨_, -, rfl⟩ := List.mem_map.mp hy
    exact hlt.le

theorem filter_tagged_zipIdx (lists : List (List α)) (k i : Nat) :
    ((lists.zipIdx k).flatMap fun c => c.1.map fun a => (c.2, a)).filter (fun a => a.1 = i) =
      (if k ≤ i then lists[i - k]?.getD [] else []).map fun a => (i, a) := by
  induction lists generalizing k with
  | nil => simp
  | cons l lists ih =>
    rw [List.zipIdx_cons, List.flatMap_cons, List.filter_append, ih (k + 1)]
    rcases Nat.lt_trichotomy k i with hlt | heq | hgt
    · have hnone : (l.map fun a => (k, a)).filter (fun a => a.1 = i) = [] := by
        simp [List.filter_map, hlt.ne]
      have hstep : k + 1 ≤ i := hlt
      rw [hnone, if_pos hstep, if_pos hlt.le, show i - k = i - (k + 1) + 1 by omega, List.getElem?_cons_succ]
      rfl
    · subst heq
      rw [List.filter_eq_self.mpr (by simp), if_neg (by omega), if_pos (Nat.le_refl _), Nat.sub_self]
      exact List.append_nil _
    · have hnone : (l.map fun a => (k, a)).filter (fun a => a.1 = i) = [] := by
        simp [List.filter_map, hgt.ne']
      rw [hnone, if_neg (by omega), if_neg (by omega)]
      rfl

theorem tagged_filter (lists : List (List α)) (i : Nat) :
    (tagged lists).filter (fun a => a.1 = i) = (lists[i]?.getD []).map fun a => (i, a) := by
  rw [tagged, filter_tagged_zipIdx, if_pos (Nat.zero_le _), Nat.sub_zero]

end Tagged

theorem filter_fst_eq {α : Type} (l : List (Nat × α)) (i : Nat) :
    l.filter (fun a => a.1 = i) = ((l.filter fun a => a.1 = i).map Prod.snd).map fun a => (i, a) := by
  rw [List.map_map]
  refine (List.map_id _).symm.trans (List.map_congr_left fun a ha => ?_)
  have hi : a.1 = i := by simpa using (List.mem_filter.mp ha).2
  exact Prod.ext hi rfl

section Times

variable {pending : List (List Sample)} {count : Nat} {t : UInt64}

theorem mergeHeads_at (ho : TimeOrdered pending) (hc : (pending.map List.length).sum ≤ count) (t : UInt64) :
    (mergeHeads count pending).filter (fun edge => edge.2.startTimeNs = t) =
      tagged (pending.map fun l => l.filter fun sample => sample.startTimeNs = t) := by
  refine sorted_eq_of_filter ?_ (tagged_sorted _) fun i => ?_
  · refine ((mergeHeads_sorted ho hc).filter _).imp_of_mem fun {a b} ha hb hab => ?_
    have hat : a.2.startTimeNs = t := by simpa using (List.mem_filter.mp ha).2
    have hbt : b.2.startTimeNs = t := by simpa using (List.mem_filter.mp hb).2
    rcases hab with hlt | ⟨-, hle⟩
    · rw [hat, hbt] at hlt
      exact absurd hlt (UInt64.lt_irrefl t)
    · exact hle
  · rw [List.filter_comm, filter_fst_eq, tagged_filter, List.filter_map, mergeHeads_input hc, List.getElem?_map]
    cases pending[i]? with
    | none => rfl
    | some l => rfl

/-- The level at an index after some edges is what the last of its edges set. -/
def applied (levels : List Bool) (edges : List (Nat × Sample)) : List Bool :=
  edges.foldl (fun levels edge => levels.set edge.1 edge.2.value) levels

theorem applied_length (levels : List Bool) (edges : List (Nat × Sample)) :
    (applied levels edges).length = levels.length := by
  induction edges generalizing levels with
  | nil => rfl
  | cons edge edges ih =>
    show (applied (levels.set edge.1 edge.2.value) edges).length = _
    rw [ih, List.length_set]

theorem applied_getElem? (levels : List Bool) (edges : List (Nat × Sample)) (i : Nat) (hi : i < levels.length) :
    (applied levels edges)[i]? = some ((((edges.filter fun edge => edge.1 = i).map (·.2.value)).getLast?).getD levels[i]) := by
  induction edges generalizing levels with
  | nil => exact List.getElem?_eq_getElem hi
  | cons edge edges ih =>
    have hset : i < (levels.set edge.1 edge.2.value).length := by rwa [List.length_set]
    show (applied (levels.set edge.1 edge.2.value) edges)[i]? = _
    rw [ih _ hset]
    by_cases he : edge.1 = i
    · rw [List.filter_cons_of_pos (by simpa using he), List.map_cons, List.getLast?_cons]
      simp [he]
    · rw [List.filter_cons_of_neg (by simpa using he), List.getElem_set_ne he]

end Times

/-- The levels that follow one another at the changes of an output. -/
def alternate : Bool → Nat → List Bool
  | _, 0 => []
  | value, count + 1 => value :: alternate (!value) count

namespace LogicGate

variable {op : GateOp} {levels : List Bool} {edges : List (Nat × Sample)} {t : UInt64}

theorem emitted_append (op : GateOp) (levels : List Bool) (edges later : List (Nat × Sample)) :
    emitted op levels (edges ++ later) = emitted op levels edges ++ emitted op (applied levels edges) later := by
  induction edges generalizing levels with
  | nil => rfl
  | cons edge edges ih =>
    rw [List.cons_append, emitted, emitted, ih, List.append_assoc]
    rfl

theorem emitted_time {sample : Sample} (h : sample ∈ emitted op levels edges) :
    ∃ edge ∈ edges, edge.2.startTimeNs = sample.startTimeNs := by
  induction edges generalizing levels with
  | nil => cases h
  | cons edge edges ih =>
    rw [emitted] at h
    rcases List.mem_append.mp h with h | h
    · split at h
      · cases h
      · rw [List.mem_singleton] at h
        exact ⟨edge, List.mem_cons_self, h ▸ rfl⟩
    · obtain ⟨found, hfound, htime⟩ := ih h
      exact ⟨found, List.mem_cons_of_mem _ hfound, htime⟩

section

variable (sorted : edges.Pairwise fun a b => a.2.startTimeNs ≤ b.2.startTimeNs)
include sorted

theorem emitted_sorted :
    (emitted op levels edges).Pairwise fun a b => a.startTimeNs ≤ b.startTimeNs := by
  induction edges generalizing levels with
  | nil => exact List.Pairwise.nil
  | cons edge edges ih =>
    obtain ⟨hfirst, hrest⟩ := List.pairwise_cons.mp sorted
    rw [emitted]
    refine List.pairwise_append.mpr ⟨?_, ih hrest, fun a ha b hb => ?_⟩
    · split
      · exact List.Pairwise.nil
      · exact List.pairwise_singleton _ _
    · obtain ⟨later, hlater, htime⟩ := emitted_time hb
      split at ha
      · cases ha
      · rw [List.mem_singleton] at ha
        rw [ha, ← htime]
        exact hfirst later hlater

theorem split_at_time (t : UInt64) :
    edges = (edges.filter fun edge => edge.2.startTimeNs < t) ++ ((edges.filter fun edge => edge.2.startTimeNs = t) ++
      edges.filter fun edge => t < edge.2.startTimeNs) := by
  induction edges with
  | nil => rfl
  | cons edge edges ih =>
    obtain ⟨hfirst, hrest⟩ := List.pairwise_cons.mp sorted
    have hih := ih hrest
    rcases Nat.lt_trichotomy edge.2.startTimeNs.toNat t.toNat with hlt | heq | hgt
    · have hlt' := UInt64.lt_iff_toNat_lt.mpr hlt
      rw [List.filter_cons_of_pos (by simpa using hlt'), List.filter_cons_of_neg (by simpa using UInt64.ne_of_lt hlt'),
        List.filter_cons_of_neg (by simpa using UInt64.lt_asymm hlt'), List.cons_append, ← hih]
    · have heq' := UInt64.toNat_inj.mp heq
      have hbefore : edges.filter (fun edge => edge.2.startTimeNs < t) = [] := by
        refine List.filter_eq_nil_iff.mpr fun later hlater => ?_
        simpa [heq'] using hfirst later hlater
      rw [hbefore, List.nil_append] at hih
      rw [List.filter_cons_of_neg (by simp [heq']), List.filter_cons_of_pos (by simpa using heq'),
        List.filter_cons_of_neg (by simp [heq']), hbefore, List.nil_append, List.cons_append, ← hih]
    · have hgt' := UInt64.lt_iff_toNat_lt.mpr hgt
      have hlater : ∀ later ∈ edges, t < later.2.startTimeNs :=
        fun later hlater => UInt64.lt_of_lt_of_le hgt' (hfirst later hlater)
      have hbefore : edges.filter (fun edge => edge.2.startTimeNs < t) = [] :=
        List.filter_eq_nil_iff.mpr fun later hl => by simpa using UInt64.lt_asymm (hlater later hl)
      have hat : edges.filter (fun edge => edge.2.startTimeNs = t) = [] :=
        List.filter_eq_nil_iff.mpr fun later hl => by simpa using (UInt64.ne_of_lt (hlater later hl)).symm
      rw [hbefore, hat, List.nil_append, List.nil_append] at hih
      rw [List.filter_cons_of_neg (by simpa using UInt64.lt_asymm hgt'),
        List.filter_cons_of_neg (by simpa using (UInt64.ne_of_lt hgt').symm), List.filter_cons_of_pos (by simpa using hgt'),
        hbefore, hat, List.nil_append, List.nil_append, ← hih]

theorem emitted_at (t : UInt64) :
    (emitted op levels edges).filter (fun sample => sample.startTimeNs = t) =
      emitted op (applied levels (edges.filter fun edge => edge.2.startTimeNs < t))
        (edges.filter fun edge => edge.2.startTimeNs = t) := by
  have hother : ∀ (levels : List Bool) (keep : Nat × Sample → Bool), (∀ edge, keep edge = true → edge.2.startTimeNs ≠ t) →
      (emitted op levels (edges.filter keep)).filter (fun sample => sample.startTimeNs = t) = [] := by
    intro levels keep hkeep
    refine List.filter_eq_nil_iff.mpr fun sample hs => ?_
    obtain ⟨edge, hedge, htime⟩ := emitted_time hs
    simpa [← htime] using hkeep edge (List.mem_filter.mp hedge).2
  have hsame : ∀ levels : List Bool, (emitted op levels (edges.filter fun edge => edge.2.startTimeNs = t)).filter
      (fun sample => sample.startTimeNs = t) = emitted op levels (edges.filter fun edge => edge.2.startTimeNs = t) := by
    intro levels
    refine List.filter_eq_self.mpr fun sample hs => ?_
    obtain ⟨edge, hedge, htime⟩ := emitted_time hs
    simpa [← htime] using (List.mem_filter.mp hedge).2
  conv_lhs => rw [split_at_time sorted t]
  rw [emitted_append, emitted_append, List.filter_append, List.filter_append, hother _ _ (fun edge h => ?_), hsame,
    hother _ _ (fun edge h => ?_), List.nil_append, List.append_nil]
  · exact (UInt64.ne_of_lt (by simpa using h)).symm
  · exact UInt64.ne_of_lt (by simpa using h)

end

def changes (op : GateOp) : List Bool → List (Nat × Bool) → Nat
  | _, [] => 0
  | levels, (index, value) :: rest =>
    (if op.combine (levels.set index value) == op.combine levels then 0 else 1) +
      changes op (levels.set index value) rest

theorem emitted_length : (emitted op levels edges).length = changes op levels (edges.map fun edge => (edge.1, edge.2.value)) := by
  induction edges generalizing levels with
  | nil => rfl
  | cons edge edges ih =>
    rw [emitted, List.length_append, ih, List.map_cons, changes]
    split
    · rfl
    · rfl

theorem emitted_values :
    (emitted op levels edges).map Sample.value = alternate (!op.combine levels) (emitted op levels edges).length := by
  induction edges generalizing levels with
  | nil => rfl
  | cons edge edges ih =>
    rw [emitted]
    split
    · next h =>
      rw [List.nil_append, ih, beq_iff_eq.mp h]
    · next h =>
      have hne : op.combine (levels.set edge.1 edge.2.value) = !op.combine levels := by
        cases hout : op.combine levels
        · simpa [hout] using h
        · simpa [hout] using h
      rw [List.map_append, List.length_append, ih, hne, Nat.add_comm]
      rfl

theorem parity_step {first next last : Bool} {count : Nat} (sample : Sample)
    (h : count % 2 = if last == next then 0 else 1) :
    ((if next == first then [] else [sample]).length + count) % 2 = if last == first then 0 else 1 := by
  cases first <;> cases next <;> cases last <;> simp at h ⊢ <;> omega

/-- An even number of changes leaves the output as it was. -/
theorem emitted_parity : (emitted op levels edges).length % 2 =
    if op.combine (applied levels edges) == op.combine levels then 0 else 1 := by
  induction edges generalizing levels with
  | nil =>
    rw [applied, List.foldl_nil, if_pos (beq_self_eq_true _)]
    rfl
  | cons edge edges ih =>
    rw [emitted, List.length_append]
    exact parity_step _ ih

end LogicGate

theorem edgesAfter_values (level : Nat → Bool) (total c : Nat) :
    (edgesAfter level total c).map level = alternate (!level c) (edgesAfter level total c).length := by
  generalize hl : edgesAfter level total c = l
  induction l generalizing c with
  | nil => rfl
  | cons p rest ih =>
    obtain ⟨-, hcp, hedge, hquiet, hrest⟩ := edgesAfter_cons hl
    have hprev : level (p - 1) = level c := level_eq_of_quiet (by omega) fun e he hep => hquiet e he (by omega)
    have hp : level p = !level c := by
      rw [← hprev]
      simp only [isEdge, Bool.and_eq_true, bne_iff_ne] at hedge
      cases hv : level (p - 1)
      · simpa [hv] using hedge.2
      · simpa [hv] using hedge.2
    rw [List.map_cons, List.length_cons, alternate, ih p hrest.symm, hp]

end LogicConduit
