import LogicConduit.WordQuery

namespace LogicConduit

/-- The end of a word: its own, or the one inferred from its neighbours in the list. -/
def wordEndNs (words : List Word) (index : Nat) : Nat :=
  match words[index]? with
  | none => 0
  | some word =>
    if word.durationNs ≠ 0 then saturatingAdd word.time word.duration
    else match words[index + 1]? with
      | none => word.time
      | some next =>
        instantaneousWordEndNs (if index = 0 then none else words[index - 1]?.map Word.time) word.time next.time

theorem instantaneousWordEndNs_between {previous : Option Nat} {startNs nextNs : Nat} (h : startNs ≤ nextNs)
    (hmax : nextNs ≤ u64Max) :
    startNs ≤ instantaneousWordEndNs previous startNs nextNs ∧ instantaneousWordEndNs previous startNs nextNs ≤ nextNs := by
  unfold instantaneousWordEndNs instantaneousWordEndNsWithLimit
  dsimp only
  generalize min (((previous.map (startNs - ·)).filter (0 < ·)).getD maxAnnotationNs) maxAnnotationNs = limit
  rw [saturatingAdd_eq (by omega)]
  omega

variable {word : Word}

theorem wordEndNs_cases {words : List Word} (ho : Ordered words) {i : Nat} (hi : words[i]? = some word) :
    word.durationNs ≠ 0 ∧ wordEndNs words i = saturatingAdd word.time word.duration ∨ wordEndNs words i = word.time ∨
      ∃ next, words[i + 1]? = some next ∧ word.time ≤ wordEndNs words i ∧ wordEndNs words i ≤ next.time := by
  unfold wordEndNs
  rw [hi]
  by_cases hd : word.durationNs = 0
  · cases hnext : words[i + 1]? with
    | none => exact Or.inr (Or.inl (by simp [hd]))
    | some next =>
      have hle := ho.getElem?_le hi hnext (Nat.le_succ i)
      refine Or.inr (Or.inr ⟨next, rfl, ?_⟩)
      simp only [hd, ne_eq, not_true, if_false]
      exact instantaneousWordEndNs_between hle (Nat.le_of_lt_succ next.time_lt)
  · exact Or.inl ⟨hd, by simp [hd]⟩

theorem Ordered.lt_countBefore {words : List Word} (ho : Ordered words) {timestampNs i : Nat} {word : Word}
    (hi : words[i]? = some word) : i < countBefore timestampNs words ↔ word.time < timestampNs := by
  have hpart := @PartitionPoint.partitioned_lt _ _ Word.time ho timestampNs
  rw [countBefore, hpart.countP_eq]
  exact (hpart.test_iff hi).symm.trans decide_eq_true_iff

def endBefore (timestampNs : Nat) (words : List Word) : Option Nat :=
  if countBefore timestampNs words = 0 then none else some (wordEndNs words (countBefore timestampNs words - 1))

def endOf (previous : Option Word) (word : Word) (next : Option Word) : Nat :=
  if word.durationNs ≠ 0 then saturatingAdd word.time word.duration
  else match next with
    | none => word.time
    | some next => instantaneousWordEndNs (previous.map Word.time) word.time next.time

theorem wordEndNs_eq {words : List Word} {i : Nat} (hi : words[i]? = some word) :
    wordEndNs words i = endOf (if i = 0 then none else words[i - 1]?) word words[i + 1]? := by
  unfold wordEndNs endOf
  rw [hi]
  dsimp only
  split
  · rfl
  · cases words[i + 1]? with
    | none => rfl
    | some next =>
      dsimp only
      rw [apply_ite (Option.map Word.time), Option.map_none]

variable {timestampNs : Nat}

theorem endBefore_append {before after : List Word} (hbefore : ∀ word ∈ before, word.time < timestampNs)
    (hafter : ∀ word ∈ after, timestampNs ≤ word.time) : endBefore timestampNs (before ++ after) =
      before.getLast?.map fun word => endOf before.dropLast.getLast? word after.head? := by
  have hcount : countBefore timestampNs (before ++ after) = before.length := by
    rw [countBefore, List.countP_append, List.countP_eq_length.mpr fun word hm => decide_eq_true (hbefore word hm),
      List.countP_eq_zero.mpr fun word hm => ?_, Nat.add_zero]
    have hle := hafter word hm
    rw [decide_eq_true_eq]
    omega
  rw [endBefore, hcount]
  rcases before.eq_nil_or_concat' with rfl | ⟨others, word, rfl⟩
  · rfl
  · have hword : (others ++ [word] ++ after)[others.length]? = some word := by simp
    have hlength : (others ++ [word]).length - 1 = others.length := by simp
    have hprevious : (if others.length = 0 then none else (others ++ [word] ++ after)[others.length - 1]?) =
        others.getLast? := by
      rw [List.getLast?_eq_getElem?]
      split
      next hnil => rw [List.length_eq_zero_iff.mp hnil]; rfl
      next hne => rw [List.append_assoc, List.getElem?_append_left (by omega)]
    have hnext : (others ++ [word] ++ after)[others.length + 1]? = after.head? := by
      rw [List.getElem?_append_right (by simp), List.head?_eq_getElem?]
      simp
    rw [if_neg (by simp), hlength, wordEndNs_eq hword, hprevious, hnext, List.getLast?_concat, List.dropLast_concat]
    rfl

section Destutter

variable {α : Type} [DecidableEq α]

theorem mem_destutter_ne {x : α} (xs : List α) : x ∈ xs.destutter (· ≠ ·) ↔ x ∈ xs := by
  have haux (xs : List α) (first : α) : x ∈ xs.destutter' (· ≠ ·) first ↔ x = first ∨ x ∈ xs := by
    induction xs generalizing first with
    | nil => rw [List.destutter'_nil, List.mem_singleton, or_iff_left List.not_mem_nil]
    | cons y rest ih =>
      by_cases hne : first = y
      · subst hne
        rw [List.destutter'_cons_neg _ (not_not.mpr rfl), ih, List.mem_cons, ← or_assoc, or_self]
      · rw [List.destutter'_cons_pos _ hne, List.mem_cons, ih, List.mem_cons]
  cases xs with
  | nil => rfl
  | cons first rest => rw [List.destutter_cons', haux, List.mem_cons]

theorem destutter'_append (xs ys : List α) (first : α) (h : ∀ y ∈ ys.head?, ((first :: xs).getLast?) ≠ some y) :
    (xs ++ ys).destutter' (· ≠ ·) first = xs.destutter' (· ≠ ·) first ++ ys.destutter (· ≠ ·) := by
  induction xs generalizing first with
  | nil =>
    cases ys with
    | nil => rfl
    | cons y rest =>
      have hne : first ≠ y := fun hsame => h y rfl (by rw [hsame]; rfl)
      rw [List.nil_append, List.destutter'_cons_pos _ hne, List.destutter'_nil, List.destutter_cons',
        List.singleton_append]
  | cons x rest ih =>
    have hrest : ∀ y ∈ ys.head?, ((x :: rest).getLast?) ≠ some y := by
      intro y hy
      have hy := h y hy
      rwa [List.getLast?_cons_cons] at hy
    rw [List.cons_append]
    by_cases hne : first = x
    · subst hne
      rw [List.destutter'_cons_neg _ (not_not.mpr rfl), List.destutter'_cons_neg _ (not_not.mpr rfl), ih _ hrest]
    · rw [List.destutter'_cons_pos _ hne, List.destutter'_cons_pos _ hne, ih _ hrest, List.cons_append]

theorem destutter_append (xs ys : List α) (h : ∀ y ∈ ys.head?, xs.getLast? ≠ some y) :
    (xs ++ ys).destutter (· ≠ ·) = xs.destutter (· ≠ ·) ++ ys.destutter (· ≠ ·) := by
  cases xs with
  | nil => rfl
  | cons x rest => rw [List.cons_append, List.destutter_cons', destutter'_append _ _ _ h, List.destutter_cons']

theorem head?_destutter (xs : List α) : (xs.destutter (· ≠ ·)).head? = xs.head? := by
  have haux (xs : List α) (first : α) : (xs.destutter' (· ≠ ·) first).head? = some first := by
    induction xs generalizing first with
    | nil => rfl
    | cons x rest ih =>
      by_cases hne : first = x
      · subst hne
        rw [List.destutter'_cons_neg _ (not_not.mpr rfl), ih]
      · rw [List.destutter'_cons_pos _ hne, List.head?_cons]
  cases xs with
  | nil => rfl
  | cons x rest => rw [List.destutter_cons', haux, List.head?_cons]

theorem getLast?_destutter (xs : List α) : (xs.destutter (· ≠ ·)).getLast? = xs.getLast? := by
  have haux (xs : List α) (first : α) : (xs.destutter' (· ≠ ·) first).getLast? = (first :: xs).getLast? := by
    induction xs generalizing first with
    | nil => rfl
    | cons x rest ih =>
      rw [List.getLast?_cons_cons, ← ih]
      by_cases hne : first = x
      · subst hne
        rw [List.destutter'_cons_neg _ (not_not.mpr rfl)]
      · obtain ⟨y, others, hsome⟩ := List.exists_cons_of_ne_nil (@List.destutter'_ne_nil _ rest (· ≠ ·) _ x)
        rw [List.destutter'_cons_pos _ hne, hsome, List.getLast?_cons_cons]
  cases xs with
  | nil => rfl
  | cons x rest => rw [List.destutter_cons', haux]

theorem destutter'_concat_same {xs : List α} {first x : α} (h : (first :: xs).getLast? = some x) :
    (xs ++ [x]).destutter' (· ≠ ·) first = xs.destutter' (· ≠ ·) first := by
  induction xs generalizing first with
  | nil =>
    obtain rfl := Option.some.inj h
    rw [List.nil_append, List.destutter'_cons_neg _ (not_not.mpr rfl)]
  | cons y rest ih =>
    rw [List.getLast?_cons_cons] at h
    rw [List.cons_append]
    by_cases hne : first = y
    · subst hne
      rw [List.destutter'_cons_neg _ (not_not.mpr rfl), List.destutter'_cons_neg _ (not_not.mpr rfl), ih h]
    · rw [List.destutter'_cons_pos _ hne, List.destutter'_cons_pos _ hne, ih h]

/-- Before the last element stands the last one that differs from it. -/
theorem destutter_concat (xs : List α) (x : α) :
    ∃ others, (xs ++ [x]).destutter (· ≠ ·) = others ++ [x] ∧ others.getLast? = (xs.filter (· ≠ x)).getLast? := by
  induction xs using List.reverseRecOn with
  | nil => exact ⟨[], rfl, rfl⟩
  | append_singleton xs y ih =>
    by_cases hne : y = x
    · subst hne
      obtain ⟨others, hdestutter, hlast⟩ := ih
      refine ⟨others, ?_, ?_⟩
      · rw [← hdestutter]
        cases xs with
        | nil => exact destutter'_concat_same rfl
        | cons first rest =>
          exact @destutter'_concat_same _ _ (rest ++ [y]) first y (by rw [← List.cons_append, List.getLast?_concat])
      · rw [hlast, List.filter_append]
        simp
    · refine ⟨(xs ++ [y]).destutter (· ≠ ·), ?_, ?_⟩
      · rw [destutter_append (xs ++ [y]) [x]]
        · rfl
        · intro z hz hlast
          rw [List.getLast?_concat] at hlast
          exact hne ((Option.some.inj hlast).trans (Option.some.inj hz).symm)
      · rw [getLast?_destutter, List.filter_append]
        simp [hne]

end Destutter

/-- With identical neighbours taken once, the last word before a time follows the last one that differs from
it. -/
theorem endBefore_destutter_eq {before after : List Word} (hbefore : ∀ word ∈ before, word.time < timestampNs)
    (hafter : ∀ word ∈ after, timestampNs ≤ word.time) :
    endBefore timestampNs ((before ++ after).destutter (· ≠ ·)) =
      before.getLast?.map fun word => endOf (before.filter (· ≠ word)).getLast? word after.head? := by
  have hcut : ∀ word ∈ after.head?, before.getLast? ≠ some word := by
    intro word hm hlast
    have hlt := hbefore word (List.mem_of_getLast? hlast)
    have hle := hafter word (List.mem_of_head? hm)
    omega
  rw [destutter_append _ _ hcut,
    endBefore_append (fun word hm => hbefore word ((mem_destutter_ne before).mp hm))
      (fun word hm => hafter word ((mem_destutter_ne after).mp hm)), head?_destutter]
  rcases before.eq_nil_or_concat' with rfl | ⟨others, word, rfl⟩
  · rfl
  · obtain ⟨kept, hdestutter, hlast⟩ := destutter_concat others word
    rw [hdestutter, List.getLast?_concat, List.dropLast_concat, List.getLast?_concat, hlast, Option.map_some,
      Option.map_some, List.filter_append]
    simp

theorem sorted_split {indices : List Nat} {k : Nat} (hsorted : indices.Pairwise (· < ·)) (hk : k ∈ indices) :
    ∃ pre post, indices = pre ++ k :: post ∧ pre.Pairwise (· < ·) ∧ post.Pairwise (· < ·) ∧
      (∀ j, j ∈ pre ↔ j < k ∧ j ∈ indices) ∧ ∀ j, j ∈ post ↔ k < j ∧ j ∈ indices := by
  obtain ⟨pre, post, rfl⟩ := List.append_of_mem hk
  obtain ⟨hpre, hpost, hcross⟩ := List.pairwise_append.mp hsorted
  obtain ⟨hpostLt, hpost⟩ := List.pairwise_cons.mp hpost
  have hpreLt : ∀ j ∈ pre, j < k := fun j hj => hcross j hj k List.mem_cons_self
  refine ⟨pre, post, rfl, hpre, hpost, fun j => ?_, fun j => ?_⟩
  · rw [List.mem_append, List.mem_cons]
    refine ⟨fun hj => ⟨hpreLt j hj, Or.inl hj⟩, ?_⟩
    rintro ⟨hlt, hj | rfl | hj⟩
    · exact hj
    · exact absurd hlt (Nat.lt_irrefl j)
    · exact absurd hlt (Nat.lt_asymm (hpostLt j hj))
  · rw [List.mem_append, List.mem_cons]
    refine ⟨fun hj => ⟨hpostLt j hj, Or.inr (Or.inr hj)⟩, ?_⟩
    rintro ⟨hlt, hj | rfl | hj⟩
    · exact absurd hlt (Nat.lt_asymm (hpreLt j hj))
    · exact absurd hlt (Nat.lt_irrefl j)
    · exact hj

theorem head?_flatMap {α : Type} {f : Nat → List α} {indices : List Nat} {k : Nat} (hsorted : indices.Pairwise (· < ·))
    (hk : k ∈ indices) (hearlier : ∀ j ∈ indices, j < k → f j = []) (hne : f k ≠ []) :
    (indices.flatMap f).head? = (f k).head? := by
  obtain ⟨earlier, later, rfl⟩ := List.append_of_mem hk
  have hnil : earlier.flatMap f = [] := by
    refine List.flatMap_eq_nil_iff.mpr fun j hj => ?_
    exact hearlier j (List.mem_append_left _ hj) ((List.pairwise_append.mp hsorted).2.2 j hj k List.mem_cons_self)
  rw [List.flatMap_append, hnil, List.nil_append, List.flatMap_cons, List.head?_append_of_ne_nil _ hne]

structure CutAt (timestampNs : Nat) (words before after : List Word) (previous word next : Option Word) : Prop where
  words : words = before ++ after
  before_lt : ∀ word ∈ before, word.time < timestampNs
  le_after : ∀ word ∈ after, timestampNs ≤ word.time
  last : before.getLast? = word
  previous : before.dropLast.getLast? = previous
  next : after.head? = next

section Reading

variable {timestampNs : Nat} {words : List Word} {read : Nat → List Word} {pre post : List Nat} {k i first stop : Nat}
  {word : Word}

/-- Where the block of the last word before a time is read around it, the cut shows the neighbours in the
block, or those in the blocks beside it. -/
theorem cutAt_read (ho : Ordered words) (hi : words[i]? = some word) (hcount : countBefore timestampNs words = i + 1)
    (hread : read k = (words.take stop).drop first) (hfirst : first ≤ i) (hstop : i < stop)
    (hpre : ∀ j ∈ pre, ∀ word ∈ read j, word.time < timestampNs)
    (hpost : ∀ j ∈ post, ∀ word ∈ read j, timestampNs ≤ word.time) :
    CutAt timestampNs ((pre ++ k :: post).flatMap read) (pre.flatMap read ++ (words.take (i + 1)).drop first)
      ((words.take stop).drop (i + 1) ++ post.flatMap read)
      (if first < i then words[i - 1]? else (pre.flatMap read).getLast?) (some word)
      (if i + 1 < min stop words.length then words[i + 1]? else (post.flatMap read).head?) := by
  have hlength := (List.getElem?_eq_some_iff.mp hi).1
  obtain ⟨hbefore, hafter⟩ := ho.before timestampNs
  rw [hcount] at hbefore hafter
  have hsnoc : words.take (i + 1) = words.take i ++ [word] := by rw [List.take_add_one, hi]; rfl
  have htake : (words.take i).length = i := List.length_take_of_le hlength.le
  have hinner : (words.take (i + 1)).drop first = (words.take i).drop first ++ [word] := by
    rw [hsnoc, List.drop_append_of_le_length (by omega)]
  refine ⟨?_, ?_, ?_, ?_, ?_, ?_⟩
  · rw [List.flatMap_append, List.flatMap_cons, hread, ← span, ← span_append (show first ≤ i + 1 by omega)
      (show i + 1 ≤ stop by omega) hlength,
      span, span, List.append_assoc, List.append_assoc]
  · intro other hm
    rcases List.mem_append.mp hm with hm | hm
    · obtain ⟨j, hj, hm⟩ := List.mem_flatMap.mp hm
      exact hpre j hj other hm
    · exact hbefore other (List.mem_of_mem_drop hm)
  · intro other hm
    rcases List.mem_append.mp hm with hm | hm
    · refine hafter other ?_
      rw [List.drop_take] at hm
      exact List.mem_of_mem_take hm
    · obtain ⟨j, hj, hm⟩ := List.mem_flatMap.mp hm
      exact hpost j hj other hm
  · rw [hinner, ← List.append_assoc, List.getLast?_concat]
  · rw [hinner, ← List.append_assoc, List.dropLast_concat]
    split
    next hlt =>
      rw [List.getLast?_append_of_ne_nil _ (List.ne_nil_of_length_pos (by rw [List.length_drop]; omega)),
        List.getLast?_eq_getElem?, List.length_drop, htake, List.getElem?_drop,
        show first + (i - first - 1) = i - 1 by omega, List.getElem?_take_of_lt (by omega)]
    next hge => rw [List.drop_eq_nil_iff.mpr (by omega), List.append_nil]
  · split
    next hlt =>
      have hlt' := lt_min_iff.mp hlt
      rw [List.head?_append_of_ne_nil _ (List.ne_nil_of_length_pos (by
        rw [List.length_drop, List.length_take]
        omega)), List.head?_drop, List.getElem?_take_of_lt hlt'.1]
    next hge => rw [List.drop_eq_nil_iff.mpr (by rw [List.length_take]; omega), List.nil_append]

end Reading

/-- The last word before a time is word `i` of block `k`. -/
structure LastBefore (store : Store) (dispatched : List WordBlockBuilder) (timestampNs k i : Nat) (word : Word) :
    Prop where
  lt : k < store.state.directory.length
  word : (wordsOfBlock dispatched k)[i]? = some word
  count : countBefore timestampNs (wordsOfBlock dispatched k) = i + 1
  later : ∀ j, k < j → j < store.state.directory.length → ∀ word ∈ wordsOfBlock dispatched j, timestampNs ≤ word.time

def wordBefore (dispatched : List WordBlockBuilder) (k i : Nat) : Option Word :=
  if 0 < i then (wordsOfBlock dispatched k)[i - 1]? else if k = 0 then none else (wordsOfBlock dispatched (k - 1)).getLast?

/-- The first word of the block behind block `k`. -/
def firstBehind (dispatched : List WordBlockBuilder) (store : Store) (k : Nat) : Option Word :=
  if k + 1 < store.state.directory.length then (wordsOfBlock dispatched (k + 1)).head? else none

def wordAfter (dispatched : List WordBlockBuilder) (store : Store) (k i : Nat) : Option Word :=
  if i + 1 < (wordsOfBlock dispatched k).length then (wordsOfBlock dispatched k)[i + 1]?
  else firstBehind dispatched store k

section Stored

variable {checksum : BlockChecksum} {store : Store} {dispatched : List WordBlockBuilder} {indices : List Nat}
  {read : Nat → List Word} {timestampNs k i : Nat}

section

variable (h : Stored checksum store dispatched)
include h

theorem Stored.block {k : Nat} (hlt : k < store.state.directory.length) :
    ∃ builder, dispatched[k]? = some builder ∧ Closed builder ∧ wordsOfBlock dispatched k = builder.words := by
  obtain ⟨builder, hb, hclosed, -⟩ := h.entry_times (List.getElem?_eq_getElem hlt)
  exact ⟨builder, hb, hclosed, wordsOfBlock_of hb⟩

theorem Stored.block_ne_nil {k : Nat} (hlt : k < store.state.directory.length) : wordsOfBlock dispatched k ≠ [] := by
  obtain ⟨block, -, hclosed, hblock⟩ := h.block hlt
  exact hblock ▸ hclosed.nonempty

/-- Behind a block a reading goes on with the first word of the next one. -/
theorem Stored.head?_behind {post : List Nat} (hsorted : post.Pairwise (· < ·))
    (hpost : ∀ j ∈ post, k < j ∧ j < store.state.directory.length)
    (hnext : k + 1 < store.state.directory.length →
      k + 1 ∈ post ∧ (read (k + 1)).head? = (wordsOfBlock dispatched (k + 1)).head?) :
    (post.flatMap read).head? = firstBehind dispatched store k := by
  unfold firstBehind
  split
  next hlt =>
    obtain ⟨hchosen, hhead⟩ := hnext hlt
    rw [head?_flatMap hsorted hchosen, hhead]
    · intro j hj hlt
      have := (hpost j hj).1
      omega
    · intro hnil
      rw [hnil] at hhead
      exact h.block_ne_nil hlt (List.head?_eq_none_iff.mp hhead.symm)
  next hge =>
    have hnil : post = [] := List.eq_nil_iff_forall_not_mem.mpr fun j hj => by
      have := hpost j hj
      omega
    rw [hnil]
    rfl

theorem Stored.last_word (hk : k < store.state.directory.length)
    (hcount : countBefore timestampNs (wordsOfBlock dispatched k) = i + 1) :
    ∃ word, (wordsOfBlock dispatched k)[i]? = some word ∧ word.time < timestampNs := by
  obtain ⟨builder, -, hclosed, hwords⟩ := h.block hk
  have ho : Ordered (wordsOfBlock dispatched k) := hwords ▸ hclosed.ordered
  have hle := countBefore_le timestampNs (wordsOfBlock dispatched k)
  have hi := List.getElem?_eq_getElem (show i < (wordsOfBlock dispatched k).length by omega)
  exact ⟨_, hi, (ho.lt_countBefore hi).mp (by omega)⟩

end

theorem LastBefore.lt_time {word : Word} (hlast : LastBefore store dispatched timestampNs k i word)
    (h : Stored checksum store dispatched) : word.time < timestampNs := by
  obtain ⟨other, hother, hbefore⟩ := h.last_word hlast.lt hlast.count
  obtain rfl := Option.some.inj (hlast.word.symm.trans hother)
  exact hbefore

/-- The words of the blocks before that of the last word before a time. -/
theorem LastBefore.earlier {word : Word} (hlast : LastBefore store dispatched timestampNs k i word)
    (h : Stored checksum store dispatched) {m : Nat} (hm : m < k) :
    ∀ other ∈ wordsOfBlock dispatched m, other.time < timestampNs := by
  obtain ⟨block, hblock, -, hblockWords⟩ := h.block (hm.trans hlast.lt)
  obtain ⟨builder, hb, -, hwords⟩ := h.block hlast.lt
  have hi := hlast.word
  rw [hwords] at hi
  rw [hblockWords]
  intro other hother
  exact (h.ordered.blocks hblock hb hm other hother word (List.mem_of_getElem? hi)).trans_lt (hlast.lt_time h)

/-- The end of the last word before a time, from its neighbours among all words. -/
theorem LastBefore.wordsEnd {word : Word} (hlast : LastBefore store dispatched timestampNs k i word)
    (h : Stored checksum store dispatched) : endBefore timestampNs (store.finishedWords dispatched) =
      some (endOf (wordBefore dispatched k i) word (wordAfter dispatched store k i)) := by
  obtain ⟨pre, post, hsplit, hpreSorted, hpostSorted, hpre, hpost⟩ :=
    sorted_split List.pairwise_lt_range (List.mem_range.mpr hlast.lt)
  obtain ⟨builder, -, hclosed, hwords⟩ := h.block hlast.lt
  have hlength := (List.getElem?_eq_some_iff.mp hlast.word).1
  have hcut := @cutAt_read timestampNs (wordsOfBlock dispatched k) (wordsOfBlock dispatched) pre post k i 0
    (wordsOfBlock dispatched k).length word (hwords ▸ hclosed.ordered) hlast.word hlast.count
    (by rw [List.take_length, List.drop_zero]) (Nat.zero_le i) hlength
    (fun j hj => hlast.earlier h ((hpre j).mp hj).1)
    (fun j hj => hlast.later j ((hpost j).mp hj).1 (List.mem_range.mp ((hpost j).mp hj).2))
  have hprevious : (if 0 < i then (wordsOfBlock dispatched k)[i - 1]?
      else (pre.flatMap (wordsOfBlock dispatched)).getLast?) = wordBefore dispatched k i := by
    unfold wordBefore
    refine if_congr Iff.rfl rfl ?_
    split
    next hzero =>
      have hnil : pre = [] := List.eq_nil_iff_forall_not_mem.mpr fun j hj => by
        have := ((hpre j).mp hj).1
        omega
      rw [hnil]
      rfl
    next hzero =>
      have hlt := hlast.lt
      rw [getLast?_flatMap hpreSorted ((hpre (k - 1)).mpr ⟨by omega, List.mem_range.mpr (by omega)⟩)]
      · intro j hj hbehind
        have := ((hpre j).mp hj).1
        omega
      · exact h.block_ne_nil (by omega)
  have hnext : (post.flatMap (wordsOfBlock dispatched)).head? = firstBehind dispatched store k :=
    h.head?_behind hpostSorted (fun j hj => ⟨((hpost j).mp hj).1, List.mem_range.mp ((hpost j).mp hj).2⟩)
      fun hlt => ⟨(hpost (k + 1)).mpr ⟨Nat.lt_succ_self k, List.mem_range.mpr hlt⟩, rfl⟩
  rw [hprevious, hnext, min_self] at hcut
  rw [Store.finishedWords, flatMap_take, hsplit, hcut.words, endBefore_append hcut.before_lt hcut.le_after, hcut.last,
    hcut.previous, hcut.next]
  rfl

end Stored

section Chosen

variable {checksum : BlockChecksum} {store : Store} {dispatched : List WordBlockBuilder} {lower upper timestampNs k i : Nat}
  {entry : BlockDirectoryEntry}

section

variable (h : Stored checksum store dispatched)
include h

theorem Stored.covered_of_mem (hk : k < store.state.directory.length)
    (hm : word ∈ wordsOfBlock dispatched k) (hlower : lower ≤ word.time) (hupper : word.time ≤ upper) :
    Covered store.state.presence k lower upper := by
  obtain ⟨builder, hb, -, hwords⟩ := h.block hk
  obtain ⟨record, hrecord, hblock, hstart, hend⟩ := h.word_covered hb hk (hwords ▸ hm)
  have hsat := saturatingAdd_le word.time word.duration (Nat.le_of_lt_succ word.time_lt)
  exact ⟨record, hrecord, hblock, by omega, by omega⟩

theorem Stored.block_first (hk : store.state.directory[k]? = some entry) :
    ∃ word, (wordsOfBlock dispatched k).head? = some word ∧ entry.firstTimestampNs.toNat = word.time := by
  obtain ⟨builder, hb, -, hfirst, -⟩ := h.entry_times hk
  rw [wordsOfBlock_of hb]
  exact hfirst

theorem Stored.block_last (hk : store.state.directory[k]? = some entry) :
    ∃ word, (wordsOfBlock dispatched k).getLast? = some word ∧ entry.lastTimestampNs.toNat = word.time := by
  obtain ⟨builder, hb, -, -, hlast⟩ := h.entry_times hk
  rw [wordsOfBlock_of hb]
  exact hlast

end

variable (h : Stored checksum store dispatched) (hrange : lower ≤ upper)
include h hrange

/-- The block of the last word before a time in the window is chosen when the index finds it or it ends
before the window. -/
theorem chosen_around (hk : store.state.directory[k]? = some entry) (hlowerTime : lower ≤ timestampNs)
    (hlater : ∀ j, k < j → j < store.state.directory.length → ∀ word ∈ wordsOfBlock dispatched j, timestampNs ≤ word.time)
    (hfound : Covered store.state.presence k lower upper ∨ entry.lastTimestampNs.toNat < lower) :
    k ∈ selectBlockIndices store.state.directory store.state.presence lower upper ∧
      (entry.lastTimestampNs.toNat < lower → k + 1 = blocksBefore store.state.directory lower) := by
  have hends : entry.lastTimestampNs.toNat < lower → k + 1 = blocksBefore store.state.directory lower := by
    intro hend
    have hlt := (h.lt_blocksBefore hk).mpr hend
    have hle := blocksBefore_le store.state.directory lower
    by_contra hne
    have hnext := List.getElem?_eq_getElem (show k + 1 < store.state.directory.length by omega)
    obtain ⟨last, hlast, htime⟩ := h.block_last hnext
    have hbefore := (@Stored.lt_blocksBefore _ _ _ lower h _ _ hnext).mp (by omega)
    have hafter := hlater (k + 1) (Nat.lt_succ_self k) (by omega) last (List.mem_of_getLast? hlast)
    omega
  refine ⟨(h.mem_select hrange k).mpr ?_, hends⟩
  rcases hfound with hcovered | hend
  · exact Or.inl hcovered
  · exact Or.inr (Or.inr (Or.inl (hends hend)))

theorem chosen_before (hk : store.state.directory[k + 1]? = some entry) (hlowerTime : lower ≤ timestampNs)
    (hupperTime : timestampNs ≤ upper) (hbefore : ∃ word ∈ wordsOfBlock dispatched (k + 1), word.time < timestampNs)
    (hlater : ∀ j, k + 1 < j → j < store.state.directory.length → ∀ word ∈ wordsOfBlock dispatched j, timestampNs ≤ word.time) :
    k ∈ selectBlockIndices store.state.directory store.state.presence lower upper := by
  have hlength := (List.getElem?_eq_some_iff.mp hk).1
  have hprevious := List.getElem?_eq_getElem (show k < store.state.directory.length by omega)
  obtain ⟨last, hlast, htime⟩ := h.block_last hprevious
  obtain ⟨first, hfirst, hfirstTime⟩ := h.block_first hk
  obtain ⟨word, hword, hlt⟩ := hbefore
  have hordered := h.entries_ordered hprevious hk (Nat.lt_succ_self k)
  have hfirstLe : first.time ≤ word.time := by
    obtain ⟨builder, -, hclosed, hwords⟩ := h.block hlength
    rw [hwords] at hfirst hword
    obtain ⟨i, hi⟩ := List.mem_iff_getElem?.mp hword
    rw [List.head?_eq_getElem?] at hfirst
    exact hclosed.ordered.getElem?_le hfirst hi (Nat.zero_le i)
  refine (h.mem_select hrange k).mpr ?_
  rcases Nat.lt_or_ge last.time lower with hout | hin
  · by_cases hend : entry.lastTimestampNs.toNat < lower
    · have hlast := (chosen_around h hrange hk hlowerTime hlater (Or.inr hend)).2 hend
      exact Or.inr (Or.inl (by omega))
    · have hlt := (h.lt_blocksBefore hprevious).mpr (show _ < lower by omega)
      have hge := (h.lt_blocksBefore hk).not.mpr hend
      exact Or.inr (Or.inr (Or.inl (by omega)))
  · exact Or.inl (h.covered_of_mem (by omega) (List.mem_of_getLast? hlast) hin (by omega))

theorem chosen_after (hk : k + 1 < store.state.directory.length) (hlowerTime : lower ≤ timestampNs)
    (hupperTime : timestampNs ≤ upper) (hbefore : ∃ word ∈ wordsOfBlock dispatched k, word.time < timestampNs)
    (hlater : ∀ word ∈ wordsOfBlock dispatched (k + 1), timestampNs ≤ word.time) :
    k + 1 ∈ selectBlockIndices store.state.directory store.state.presence lower upper := by
  have hnext := List.getElem?_eq_getElem hk
  have hentry := List.getElem?_eq_getElem (show k < store.state.directory.length by omega)
  obtain ⟨first, hfirst, htime⟩ := h.block_first hnext
  obtain ⟨other, hother, hotherTime⟩ := h.block_first hentry
  obtain ⟨word, hword, hlt⟩ := hbefore
  have hstart := hlater first (List.mem_of_head? hfirst)
  refine (h.mem_select hrange (k + 1)).mpr ?_
  rcases Nat.lt_or_ge upper first.time with hout | hin
  · have hotherLe : other.time ≤ word.time := by
      obtain ⟨builder, -, hclosed, hwords⟩ := h.block (show k < store.state.directory.length by omega)
      rw [hwords] at hother hword
      obtain ⟨i, hi⟩ := List.mem_iff_getElem?.mp hword
      rw [List.head?_eq_getElem?] at hother
      exact hclosed.ordered.getElem?_le hother hi (Nat.zero_le i)
    have hupTo := (@Stored.lt_blocksUpTo _ _ _ upper h _ _ hentry).mpr (by omega)
    have hnot := (@Stored.lt_blocksUpTo _ _ _ upper h _ _ hnext).not.mpr (by omega)
    exact Or.inr (Or.inr (Or.inr ⟨by omega, hk⟩))
  · exact Or.inl (h.covered_of_mem hk (List.mem_of_head? hfirst) (hlowerTime.trans hstart) hin)

end Chosen

end LogicConduit
