import LogicConduit.PresenceQuery
import LogicConduit.ScaledPartition

namespace LogicConduit

open ScaledPartition

/-- The annotation and the window `[startNs, endNs]` share a nanosecond. -/
def Annotation.meets (a : Annotation) (startNs endNs : Nat) : Prop :=
  max a.startNs startNs ≤ min a.endNs endNs

instance (a : Annotation) (startNs endNs : Nat) : Decidable (a.meets startNs endNs) :=
  inferInstanceAs (Decidable (_ ≤ _))

theorem countP_add_eq {α : Type} {p q p' q' : α → Bool} (xs : List α)
    (h : ∀ x ∈ xs, (p x).toNat + (q x).toNat = (p' x).toNat + (q' x).toNat) :
    xs.countP p + xs.countP q = xs.countP p' + xs.countP q' := by
  induction xs with
  | nil => rfl
  | cons x xs ih =>
    have hrest := ih fun y hy => h y (List.mem_cons_of_mem x hy)
    have hx := h x List.mem_cons_self
    simp only [List.countP_cons]
    cases hp : p x <;> cases hq : q x <;> cases hp' : p' x <;> cases hq' : q' x <;>
      simp [hp, hq, hp', hq'] at hx ⊢ <;> omega

section Buckets

variable {annotations : List Annotation} {startNs endNs span count : Nat} {a : Annotation} {xs : List Nat}

def firstBucket (startNs span count : Nat) (a : Annotation) : Nat :=
  min ((max a.startNs startNs - startNs) * count / span) (count - 1)

def lastBucket (startNs endNs span count : Nat) (a : Annotation) : Nat :=
  min ((min a.endNs endNs - startNs) * count / span) (count - 1)

theorem countOverlap_eq (counts : List Nat × List Nat) (a : Annotation) :
    countOverlap startNs endNs span count counts a =
      if a.meets startNs endNs then
        (counts.1.modify (firstBucket startNs span count a) (saturatingAdd · 1),
          counts.2.modify (lastBucket startNs endNs span count a + 1) (saturatingAdd · 1))
      else counts := by
  by_cases h : a.meets startNs endNs
  · rw [if_pos h]
    exact if_neg (Nat.not_lt.mpr h)
  · rw [if_neg h]
    exact if_pos (Nat.lt_of_not_le h)

theorem firstBucket_le_lastBucket (h : a.meets startNs endNs) :
    firstBucket startNs span count a ≤ lastBucket startNs endNs span count a := by
  unfold Annotation.meets at h
  exact min_le_min_right _ (scaled_mono (by omega))

/-- The number of annotations of the window with the given property. -/
def inWindow (startNs endNs : Nat) (annotations : List Annotation) (p : Annotation → Prop) [DecidablePred p] : Nat :=
  annotations.countP fun a => a.meets startNs endNs ∧ p a

theorem inWindow_le (p : Annotation → Prop) [DecidablePred p] :
    inWindow startNs endNs annotations p ≤ annotations.length := List.countP_le_length

theorem inWindow_congr {p q : Annotation → Prop} [DecidablePred p] [DecidablePred q]
    (h : ∀ a ∈ annotations, a.meets startNs endNs → (p a ↔ q a)) :
    inWindow startNs endNs annotations p = inWindow startNs endNs annotations q := by
  refine List.countP_congr fun a ha => ?_
  simp only [decide_eq_true_eq]
  exact and_congr_right (h a ha)

/-- An identity between four counts of annotations follows from the same one for each annotation. -/
theorem inWindow_add_eq {p q p' q' : Annotation → Prop} [DecidablePred p] [DecidablePred q] [DecidablePred p']
    [DecidablePred q']
    (h : ∀ a ∈ annotations, a.meets startNs endNs →
      (decide (p a)).toNat + (decide (q a)).toNat = (decide (p' a)).toNat + (decide (q' a)).toNat) :
    inWindow startNs endNs annotations p + inWindow startNs endNs annotations q =
      inWindow startNs endNs annotations p' + inWindow startNs endNs annotations q' := by
  refine countP_add_eq annotations fun a ha => ?_
  by_cases hm : a.meets startNs endNs
  · simp only [hm, true_and]
    exact h a ha hm
  · simp [hm]

theorem inWindow_cons_of_meets (h : a.meets startNs endNs) (p : Annotation → Prop) [DecidablePred p] :
    inWindow startNs endNs (a :: annotations) p =
      inWindow startNs endNs annotations p + (decide (p a)).toNat := by
  rw [inWindow, inWindow, List.countP_cons]
  by_cases hp : p a <;> simp [h, hp]

theorem inWindow_cons_of_not_meets (h : ¬a.meets startNs endNs)
    (p : Annotation → Prop) [DecidablePred p] :
    inWindow startNs endNs (a :: annotations) p = inWindow startNs endNs annotations p := by
  rw [inWindow, inWindow, List.countP_cons]
  simp [h]

theorem getD_bump {bound i : Nat} (hb : bound < u64Max) (hi : i < xs.length)
    (hle : xs.getD i 0 ≤ bound) (k : Nat) :
    (xs.modify k (saturatingAdd · 1)).getD i 0 = xs.getD i 0 + (decide (k = i)).toNat := by
  rw [List.getD_eq_getElem?_getD, List.getElem?_eq_getElem hi, Option.getD_some] at hle
  rw [List.getD_eq_getElem?_getD, List.getD_eq_getElem?_getD, List.getElem?_modify, List.getElem?_eq_getElem hi]
  by_cases hk : k = i
  · simp only [hk, if_true, Option.map_eq_map, Option.map_some, Option.getD_some, decide_true, Bool.toNat_true, saturatingAdd]
    omega
  · simp [hk]

theorem getD_bump_le {bound : Nat} (hb : bound < u64Max) (hle : ∀ i, xs.getD i 0 ≤ bound) (k i : Nat) :
    (xs.modify k (saturatingAdd · 1)).getD i 0 ≤ bound + 1 := by
  rcases Nat.lt_or_ge i xs.length with hi | hi
  · rw [getD_bump hb hi (hle i) k]
    have := Bool.toNat_le (decide (k = i))
    have := hle i
    omega
  · rw [List.getD_eq_getElem?_getD, List.getElem?_eq_none (by rwa [List.length_modify])]
    exact Nat.zero_le _

theorem foldl_countOverlap (counts : List Nat × List Nat) (bound : Nat)
    (hs : ∀ i, counts.1.getD i 0 ≤ bound) (he : ∀ i, counts.2.getD i 0 ≤ bound)
    (hb : bound + annotations.length ≤ u64Max) :
    let counted := annotations.foldl (countOverlap startNs endNs span count) counts
    counted.1.length = counts.1.length ∧ counted.2.length = counts.2.length ∧
      (∀ i < counts.1.length, counted.1.getD i 0 = counts.1.getD i 0 +
        inWindow startNs endNs annotations fun a => firstBucket startNs span count a = i) ∧
      ∀ i < counts.2.length, counted.2.getD i 0 = counts.2.getD i 0 +
        inWindow startNs endNs annotations fun a => lastBucket startNs endNs span count a + 1 = i := by
  induction annotations generalizing counts bound with
  | nil => exact ⟨rfl, rfl, fun _ _ => rfl, fun _ _ => rfl⟩
  | cons a rest ih =>
    rw [List.length_cons] at hb
    rw [List.foldl_cons, countOverlap_eq]
    by_cases hm : a.meets startNs endNs
    · rw [if_pos hm]
      obtain ⟨hl1, hl2, h1, h2⟩ := ih (counts.1.modify _ (saturatingAdd · 1), counts.2.modify _ (saturatingAdd · 1))
        (bound + 1) (getD_bump_le (by omega) hs _) (getD_bump_le (by omega) he _) (by omega)
      simp only [List.length_modify] at hl1 hl2 h1 h2
      refine ⟨hl1, hl2, fun i hi => ?_, fun i hi => ?_⟩
      · rw [h1 i hi, getD_bump (by omega) hi (hs i), inWindow_cons_of_meets hm]
        omega
      · rw [h2 i hi, getD_bump (by omega) hi (he i), inWindow_cons_of_meets hm]
        omega
    · rw [if_neg hm]
      obtain ⟨hl1, hl2, h1, h2⟩ := ih counts bound hs he (by omega)
      refine ⟨hl1, hl2, fun i hi => ?_, fun i hi => ?_⟩
      · rw [h1 i hi, inWindow_cons_of_not_meets hm]
      · rw [h2 i hi, inWindow_cons_of_not_meets hm]

def heldIn (annotations : List Annotation) (startNs endNs span count i : Nat) : Nat :=
  inWindow startNs endNs annotations fun a =>
    firstBucket startNs span count a ≤ i ∧ i ≤ lastBucket startNs endNs span count a

def heldBefore (annotations : List Annotation) (startNs endNs span count i : Nat) : Nat :=
  inWindow startNs endNs annotations fun a =>
    firstBucket startNs span count a < i ∧ i ≤ lastBucket startNs endNs span count a + 1

theorem heldBefore_zero : heldBefore annotations startNs endNs span count 0 = 0 := by
  unfold heldBefore inWindow
  simp

theorem heldBefore_succ (i : Nat) :
    heldBefore annotations startNs endNs span count (i + 1) = heldIn annotations startNs endNs span count i :=
  inWindow_congr fun _ _ _ => and_congr Nat.lt_succ_iff Nat.succ_le_succ_iff

theorem heldIn_step (i : Nat) :
    heldIn annotations startNs endNs span count i +
        inWindow startNs endNs annotations (fun a => lastBucket startNs endNs span count a + 1 = i) =
      heldBefore annotations startNs endNs span count i +
        inWindow startNs endNs annotations (fun a => firstBucket startNs span count a = i) := by
  refine inWindow_add_eq fun a _ hm => ?_
  have hle := @firstBucket_le_lastBucket _ _ span count _ hm
  generalize firstBucket startNs span count a = first at hle ⊢
  generalize lastBucket startNs endNs span count a = last at hle ⊢
  simp only [Bool.toNat, Bool.cond_decide]
  split_ifs <;> omega

theorem ends_le_heldBefore (i : Nat) :
    inWindow startNs endNs annotations (fun a => lastBucket startNs endNs span count a + 1 = i) ≤
      heldBefore annotations startNs endNs span count i := by
  refine List.countP_mono_left fun a _ h => ?_
  rw [decide_eq_true_eq] at h ⊢
  have hle := @firstBucket_le_lastBucket _ _ span count _ h.1
  exact ⟨h.1, by omega, by omega⟩

def bucketAt (annotations : List Annotation) (startNs endNs span count i : Nat) : WordPresenceBucket where
  startNs := startNs + boundary span count i
  endNs := startNs + boundary span count (i + 1) - 1
  wordCount := heldIn annotations startNs endNs span count i

theorem runningBuckets_eq {starts ends : List Nat} (hn : 0 < count) (hcount : count ≤ span)
    (hspan : startNs + span = endNs + 1) (hend : endNs < u64Max) (hlen : annotations.length ≤ u64Max)
    (hstarts : ∀ i < count, starts.getD i 0 = inWindow startNs endNs annotations fun a => firstBucket startNs span count a = i)
    (hends : ∀ i < count, ends.getD i 0 =
      inWindow startNs endNs annotations fun a => lastBucket startNs endNs span count a + 1 = i)
    (left index : Nat) (rest : List Nat) (hrest : starts.drop index = rest) (hleft : index + left = count)
    (hrl : rest.length = left) :
    runningBuckets startNs endNs span count ends rest index (heldBefore annotations startNs endNs span count index) =
      ((List.range' index left).filter fun i => heldIn annotations startNs endNs span count i ≠ 0).map
        (bucketAt annotations startNs endNs span count) := by
  induction left generalizing index rest with
  | zero =>
    rw [List.length_eq_zero_iff.mp hrl]
    rfl
  | succ left ih =>
    obtain ⟨starting, later, rfl⟩ := List.exists_cons_of_length_eq_add_one hrl
    have hlt : index < count := by omega
    have hstarting : starting = inWindow startNs endNs annotations fun a => firstBucket startNs span count a = index := by
      rw [← hstarts index hlt, List.getD_eq_getElem?_getD, ← List.head?_drop, hrest]
      rfl
    have hlater : starts.drop (index + 1) = later := by
      rw [← List.drop_drop, hrest]
      rfl
    -- one turn takes the annotations that ended away and adds those that start
    have hheld : saturatingAdd (heldBefore annotations startNs endNs span count index - ends.getD index 0) starting =
        heldIn annotations startNs endNs span count index := by
      have hstep := @heldIn_step annotations startNs endNs span count index
      have hle := @ends_le_heldBefore annotations startNs endNs span count index
      have hbound : heldIn annotations startNs endNs span count index ≤ annotations.length := inWindow_le _
      rw [hends index hlt, hstarting, saturatingAdd]
      omega
    have hbucket : (⟨saturatingAdd startNs (span * index / count),
        min (max (saturatingAdd startNs (span * (index + 1) / count))
          (saturatingAdd (saturatingAdd startNs (span * index / count)) 1) - 1) endNs,
        heldIn annotations startNs endNs span count index⟩ : WordPresenceBucket) =
          bucketAt annotations startNs endNs span count index := by
      have hstep := boundary_lt_succ hn hcount index
      have hlast := @boundary_le_span span count _ hn (show index + 1 ≤ count by omega)
      have hstart : saturatingAdd startNs (span * index / count) = startNs + boundary span count index :=
        saturatingAdd_eq (by rw [boundary] at hstep; omega)
      have hstop : saturatingAdd startNs (span * (index + 1) / count) = startNs + boundary span count (index + 1) :=
        saturatingAdd_eq (by rw [boundary] at hlast; omega)
      rw [hstart, hstop, saturatingAdd_eq (show startNs + boundary span count index + 1 ≤ u64Max by omega), bucketAt]
      congr 1
      omega
    rw [runningBuckets]
    simp only [hheld]
    rw [← heldBefore_succ, ih (index + 1) later hlater (by omega) (by simpa using hrl), heldBefore_succ, hbucket,
      List.range'_succ, List.filter_cons]
    by_cases hzero : heldIn annotations startNs endNs span count index = 0
    · simp [hzero]
    · simp [hzero]

/-- The annotations of the window that end on the first nanosecond of bucket `i`, counted only where
the exact boundary of the bucket lies inside that nanosecond. -/
def endsOnRounded (annotations : List Annotation) (startNs endNs span count i : Nat) : Nat :=
  if span * i % count = 0 then 0
  else inWindow startNs endNs annotations fun a => min a.endNs endNs = startNs + boundary span count i

/-- The annotations of the window that start on the first nanosecond of bucket `i`, counted only where
the exact boundary of the bucket lies inside that nanosecond. -/
def startsOnRounded (annotations : List Annotation) (startNs endNs span count i : Nat) : Nat :=
  if span * i % count = 0 then 0
  else inWindow startNs endNs annotations fun a => max a.startNs startNs = startNs + boundary span count i

def metIn (annotations : List Annotation) (startNs span count i : Nat) : Nat :=
  annotations.countP fun a => a.meets (startNs + boundary span count i) (startNs + boundary span count (i + 1) - 1)

theorem metIn_eq (hn : 0 < count) (hcount : count ≤ span) (hspan : startNs + span = endNs + 1) {i : Nat} (hi : i < count) :
    metIn annotations startNs span count i = inWindow startNs endNs annotations fun a =>
      max a.startNs startNs < startNs + boundary span count (i + 1) ∧ startNs + boundary span count i ≤ min a.endNs endNs := by
  have hstep := boundary_lt_succ hn hcount i
  have hlast := @boundary_le_span span count _ hn (show i + 1 ≤ count by omega)
  refine List.countP_congr fun a _ => ?_
  rw [decide_eq_true_iff, decide_eq_true_iff]
  unfold Annotation.meets
  omega

/-- A wrongly assigned start is counted one bucket early, a wrongly assigned end is missed in its own
bucket; nothing else goes wrong. -/
theorem heldIn_balance (hn : 0 < count) (hcount : count ≤ span) (hspan : startNs + span = endNs + 1) {i : Nat}
    (hi : i < count) :
    heldIn annotations startNs endNs span count i + endsOnRounded annotations startNs endNs span count i =
      metIn annotations startNs span count i + startsOnRounded annotations startNs endNs span count (i + 1) := by
  have hstep := boundary_lt_succ hn hcount i
  have hends : endsOnRounded annotations startNs endNs span count i = inWindow startNs endNs annotations fun a =>
      span * i % count ≠ 0 ∧ min a.endNs endNs = startNs + boundary span count i := by
    unfold endsOnRounded
    split
    next hzero => exact (List.countP_eq_zero.mpr fun a _ => by simp [hzero]).symm
    next hzero => exact inWindow_congr fun a _ _ => (and_iff_right hzero).symm
  have hstarts : startsOnRounded annotations startNs endNs span count (i + 1) = inWindow startNs endNs annotations fun a =>
      span * (i + 1) % count ≠ 0 ∧ max a.startNs startNs = startNs + boundary span count (i + 1) := by
    unfold startsOnRounded
    split
    next hzero => exact (List.countP_eq_zero.mpr fun a _ => by simp [hzero]).symm
    next hzero => exact inWindow_congr fun a _ _ => (and_iff_right hzero).symm
  rw [hends, hstarts, metIn_eq hn hcount hspan hi, heldIn]
  refine inWindow_add_eq fun a _ hm => ?_
  unfold Annotation.meets at hm
  have hs : 0 < span := by omega
  have hfirst := @scaled_lt span count (max a.startNs startNs - startNs) hn (by omega)
  have hlast := @scaled_lt span count (min a.endNs endNs - startNs) hn (by omega)
  have hafter := le_scaled_iff (i := i + 1) (x := max a.startNs startNs - startNs) hs hn
  have hreach := le_scaled_iff (i := i) (x := min a.endNs endNs - startNs) hs hn
  have hfirstBucket : firstBucket startNs span count a = (max a.startNs startNs - startNs) * count / span := by
    unfold firstBucket
    omega
  have hlastBucket : lastBucket startNs endNs span count a = (min a.endNs endNs - startNs) * count / span := by
    unfold lastBucket
    omega
  rw [hfirstBucket, hlastBucket]
  generalize (max a.startNs startNs - startNs) * count / span = first at hafter ⊢
  generalize (min a.endNs endNs - startNs) * count / span = last at hreach ⊢
  simp only [Bool.toNat, Bool.cond_decide]
  split_ifs <;> omega

end Buckets

/-- Every bucket of the overview counts the annotations that meet it, and every bucket of the scaled
partition that an annotation meets is there. -/
def CountsExactly (annotations : List Annotation) (startNs endNs targetBuckets : Nat) : Prop :=
  let span := windowSpan startNs endNs
  let count := bucketCount targetBuckets span
  (∀ bucket ∈ annotationPresenceBuckets annotations startNs endNs targetBuckets,
    bucket.wordCount = annotations.countP fun a => a.meets bucket.startNs bucket.endNs) ∧
  ∀ i < count, (∃ a ∈ annotations, a.meets (startNs + span * i / count) (startNs + span * (i + 1) / count - 1)) →
    ∃ bucket ∈ annotationPresenceBuckets annotations startNs endNs targetBuckets,
      bucket.startNs = startNs + span * i / count ∧ bucket.endNs = startNs + span * (i + 1) / count - 1

/-- For every bucket, as many annotations end on its first nanosecond as start on the first one of the
next bucket, where these boundaries are rounded. -/
def RoundingCancels (annotations : List Annotation) (startNs endNs targetBuckets : Nat) : Prop :=
  let span := windowSpan startNs endNs
  let count := bucketCount targetBuckets span
  ∀ i < count, endsOnRounded annotations startNs endNs span count i =
    startsOnRounded annotations startNs endNs span count (i + 1)

section Window

variable {annotations : List Annotation} {startNs endNs targetBuckets : Nat}

theorem getD_replicate_zero (n i : Nat) : (List.replicate n 0).getD i 0 ≤ 0 := by
  rw [List.getD_eq_getElem?_getD, List.getElem?_replicate]
  split <;> simp

/-- The overview holds the buckets whose count is not zero, in order. -/
theorem annotationPresenceBuckets_eq (h : startNs ≤ endNs) (hend : endNs < u64Max) (ht : 0 < targetBuckets)
    (hlen : annotations.length ≤ u64Max) :
    let span := windowSpan startNs endNs
    let count := bucketCount targetBuckets span
    annotationPresenceBuckets annotations startNs endNs targetBuckets =
      ((List.range count).filter fun i => heldIn annotations startNs endNs span count i ≠ 0).map
        (bucketAt annotations startNs endNs span count) := by
  intro span count
  have hspan : saturatingAdd (endNs - startNs) 1 = span := saturatingAdd_eq (by omega)
  have hpos : 0 < span := Nat.succ_pos _
  have hwindow : startNs + span = endNs + 1 := by
    show startNs + (endNs - startNs + 1) = endNs + 1
    omega
  unfold annotationPresenceBuckets
  by_cases hnil : annotations = []
  · rw [if_pos (Or.inl hnil), hnil]
    simp [heldIn, inWindow]
  · rw [if_neg (by rintro (hnil' | hzero | hbad) <;> [exact hnil hnil'; omega; omega]), hspan]
    obtain ⟨hl1, -, h1, h2⟩ := @foldl_countOverlap annotations startNs endNs span count
      (List.replicate count 0, List.replicate (count + 1) 0) 0
      (getD_replicate_zero count) (getD_replicate_zero (count + 1)) (by omega)
    rw [List.length_replicate] at hl1 h1 h2
    generalize hcounted : annotations.foldl (countOverlap startNs endNs span count)
      (List.replicate count 0, List.replicate (count + 1) 0) = counted at hl1 h1 h2
    have hstarts : ∀ i < count, counted.1.getD i 0 =
        inWindow startNs endNs annotations fun a => firstBucket startNs span count a = i := by
      intro i hi
      rw [h1 i hi, Nat.le_zero.mp (getD_replicate_zero count i), Nat.zero_add]
    have hends : ∀ i < count, counted.2.getD i 0 =
        inWindow startNs endNs annotations fun a => lastBucket startNs endNs span count a + 1 = i := by
      intro i hi
      rw [h2 i (by omega), Nat.le_zero.mp (getD_replicate_zero (count + 1) i), Nat.zero_add]
    have hrun := @runningBuckets_eq annotations _ _ _ _ _ _ (bucketCount_pos targetBuckets span) (bucketCount_le hpos)
      hwindow hend hlen hstarts hends count 0 counted.1 rfl (Nat.zero_add _) hl1
    rw [heldBefore_zero] at hrun
    rw [List.range_eq_range']
    dsimp only
    rw [hcounted]
    exact hrun

/-- The refined overview is right exactly when the rounded boundaries cancel out. -/
theorem annotation_presence_buckets_exact (h : startNs ≤ endNs) (hend : endNs < u64Max) (ht : 0 < targetBuckets)
    (hlen : annotations.length ≤ u64Max) :
    CountsExactly annotations startNs endNs targetBuckets ↔ RoundingCancels annotations startNs endNs targetBuckets := by
  have hs : startNs + windowSpan startNs endNs = endNs + 1 := by
    unfold windowSpan
    omega
  have hbuckets := @annotationPresenceBuckets_eq annotations _ _ _ h hend ht hlen
  have hpos := bucketCount_pos targetBuckets (windowSpan startNs endNs)
  have hle := @bucketCount_le targetBuckets _ (show 0 < windowSpan startNs endNs by omega)
  unfold CountsExactly RoundingCancels
  simp only [] at hbuckets ⊢
  rw [hbuckets]
  generalize windowSpan startNs endNs = span at hs hpos hle ⊢
  generalize bucketCount targetBuckets span = count at hpos hle ⊢
  have hmet : ∀ i, (annotations.countP fun a => a.meets (startNs + span * i / count) (startNs + span * (i + 1) / count - 1)) =
      metIn annotations startNs span count i := fun _ => rfl
  constructor
  · rintro ⟨hcounts, hpresent⟩ i hi
    have hbalance := @heldIn_balance annotations _ _ _ _ hpos hle hs _ hi
    suffices heldIn annotations startNs endNs span count i = metIn annotations startNs span count i by omega
    by_cases hheld : heldIn annotations startNs endNs span count i = 0
    · rw [hheld]
      by_contra hsome
      obtain ⟨a, ha, hmeets⟩ := List.countP_pos_iff.mp (Nat.pos_of_ne_zero fun hzero => hsome hzero.symm)
      obtain ⟨bucket, hbucket, hstart, -⟩ := hpresent i hi ⟨a, ha, of_decide_eq_true hmeets⟩
      obtain ⟨j, hj, rfl⟩ := List.mem_map.mp hbucket
      obtain ⟨-, hkept⟩ := List.mem_filter.mp hj
      have hboundary : boundary span count j = boundary span count i := by
        have : startNs + boundary span count j = startNs + boundary span count i := hstart
        omega
      rcases Nat.lt_trichotomy j i with hlt | rfl | hgt
      · have := boundary_lt hpos hle hlt
        omega
      · simp [hheld] at hkept
      · have := boundary_lt hpos hle hgt
        omega
    · exact hcounts _ (List.mem_map.mpr ⟨i, List.mem_filter.mpr ⟨List.mem_range.mpr hi, by simpa using hheld⟩, rfl⟩)
  · intro hcancel
    have hsame : ∀ i < count, heldIn annotations startNs endNs span count i = metIn annotations startNs span count i := by
      intro i hi
      have := @heldIn_balance annotations _ _ _ _ hpos hle hs _ hi
      have := hcancel i hi
      omega
    refine ⟨fun bucket hbucket => ?_, fun i hi hmeets => ?_⟩
    · obtain ⟨i, hi, rfl⟩ := List.mem_map.mp hbucket
      exact hsame i (List.mem_range.mp (List.mem_filter.mp hi).1)
    · obtain ⟨a, ha, hmeets⟩ := hmeets
      have hpositive : 0 < metIn annotations startNs span count i :=
        List.countP_pos_iff.mpr ⟨a, ha, decide_eq_true hmeets⟩
      refine ⟨_, List.mem_map.mpr ⟨i, List.mem_filter.mpr ⟨List.mem_range.mpr hi, ?_⟩, rfl⟩, rfl, rfl⟩
      rw [decide_eq_true_eq, hsame i hi]
      omega

theorem roundingCancels_of_dvd (h : bucketCount targetBuckets (windowSpan startNs endNs) ∣ windowSpan startNs endNs) :
    RoundingCancels annotations startNs endNs targetBuckets := by
  intro i _
  have hmod : ∀ j, windowSpan startNs endNs * j % bucketCount targetBuckets (windowSpan startNs endNs) = 0 :=
    fun j => Nat.mod_eq_zero_of_dvd (h.mul_right j)
  simp only [endsOnRounded, startsOnRounded, hmod, if_true]

end Window

theorem annotation_presence_buckets_exact_thirds : CountsExactly [⟨2, 6, 0, none⟩, ⟨3, 3, 1, none⟩] 0 8 3 :=
  (annotation_presence_buckets_exact (by decide) (by decide) (by decide) (by decide)).mpr
    (roundingCancels_of_dvd (by decide))

/-- Ten nanoseconds in three buckets: the word on nanosecond 3 is shown in the bucket from 0 to 2. -/
theorem annotation_presence_rounds_down : ¬CountsExactly [⟨3, 3, 0x11, none⟩] 0 9 3 := by
  rintro ⟨hcounts, -⟩
  exact absurd (hcounts ⟨0, 2, 1⟩ (by decide)) (by decide)

end LogicConduit
