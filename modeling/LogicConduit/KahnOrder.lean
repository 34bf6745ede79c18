import Mathlib.Order.WellFoundedSet

namespace LogicConduit.Kahn

variable {α : Type*} [DecidableEq α]

/-- No vertex reaches itself along the edges. -/
def Acyclic (edges : List (α × α)) : Prop :=
  ∀ v, ¬ Relation.TransGen (fun a b => (a, b) ∈ edges) v v

def targets (edges : List (α × α)) (v : α) : List α :=
  (edges.filter (fun e => e.1 = v)).map Prod.snd

def indegree (edges : List (α × α)) (v : α) : Nat :=
  (edges.map Prod.snd).count v

/-- One edge into `v` is taken away; `v` is pushed when it was the last one. -/
def relax (p : List α × (α → Nat)) (v : α) : List α × (α → Nat) :=
  (if p.2 v - 1 = 0 then v :: p.1 else p.1, Function.update p.2 v (p.2 v - 1))

/-- Kahn's loop with a stack, top first; `order` holds the vertices popped so far. -/
def loop (edges : List (α × α)) : Nat → List α → (α → Nat) → List α → List α
  | 0, _, _, order => order
  | _ + 1, [], _, order => order
  | fuel + 1, v :: stack, degree, order =>
    let next := (targets edges v).foldl relax (stack, degree)
    loop edges fuel next.1 next.2 (order ++ [v])

theorem foldl_relax {ts stack : List α} {degree : α → Nat} (enough : ∀ v, ts.count v ≤ degree v) :
    ∃ pushed, ts.foldl relax (stack, degree) =
        (pushed ++ stack, fun v => degree v - ts.count v) ∧ pushed.Nodup ∧
      ∀ v, v ∈ pushed ↔ v ∈ ts ∧ degree v = ts.count v := by
  induction ts generalizing stack degree with
  | nil => exact ⟨[], by simp⟩
  | cons t ts ih =>
    have positive : ts.count t + 1 ≤ degree t := by simpa using enough t
    have rest : ∀ v, ts.count v ≤ Function.update degree t (degree t - 1) v := by
      intro v
      by_cases same : v = t
      · subst same
        simp only [Function.update_self]
        omega
      · have := enough v
        rw [List.count_cons_of_ne (fun h => same h.symm)] at this
        simpa [Function.update_of_ne same] using this
    obtain ⟨pushed, run, nodup, mem⟩ :=
      @ih (if degree t - 1 = 0 then t :: stack else stack) _ rest
    have degrees : (fun v => Function.update degree t (degree t - 1) v - ts.count v) =
        fun v => degree v - (t :: ts).count v := by
      funext v
      by_cases same : v = t
      · subst same
        simp only [Function.update_self, List.count_cons_self]
        omega
      · simp [Function.update_of_ne same, List.count_cons_of_ne (fun h => same h.symm)]
    have memOther : ∀ v, v ≠ t →
        (v ∈ pushed ↔ v ∈ t :: ts ∧ degree v = (t :: ts).count v) := by
      intro v other
      rw [mem v, Function.update_of_ne other, List.count_cons_of_ne (fun h => other h.symm)]
      simp [other]
    by_cases last : degree t - 1 = 0
    · have gone : t ∉ pushed := by
        intro inside
        have := List.count_pos_iff.mpr ((mem t).mp inside).1
        omega
      refine ⟨pushed ++ [t], ?_, ?_, ?_⟩
      · simp only [List.foldl_cons, relax]
        rw [run, degrees, if_pos last]
        simp
      · exact List.nodup_append.mpr ⟨nodup, List.nodup_singleton t, by
          intro a ha b hb
          rw [List.mem_singleton] at hb
          rintro rfl
          exact gone (hb ▸ ha)⟩
      · intro v
        by_cases same : v = t
        · subst same
          simp only [List.mem_append, or_true, List.mem_cons, true_or,
            List.count_cons_self, true_and, true_iff]
          omega
        · rw [List.mem_append, List.mem_singleton, memOther v same]
          simp [same]
    · refine ⟨pushed, ?_, nodup, ?_⟩
      · simp only [List.foldl_cons, relax]
        rw [run, degrees, if_neg last]
      · intro v
        by_cases same : v = t
        · subst same
          rw [mem v, Function.update_self]
          simp only [List.mem_cons, true_or, List.count_cons_self, true_and]
          constructor
          · intro h
            omega
          · intro h
            refine ⟨List.count_pos_iff.mp ?_, ?_⟩ <;> omega
        · exact memOther v same

/-- The number of edges into `v` whose source has not been popped. -/
def openInto (edges : List (α × α)) (order : List α) (v : α) : Nat :=
  ((edges.filter (fun e => e.1 ∉ order)).map Prod.snd).count v

variable {edges : List (α × α)} {nodes stack order : List α}

theorem openInto_nil (edges : List (α × α)) (v : α) : openInto edges [] v = indegree edges v := by
  simp [openInto, indegree]

theorem openInto_snoc {w : α} (fresh : w ∉ order) (v : α) :
    openInto edges order v = openInto edges (order ++ [w]) v + (targets edges w).count v := by
  induction edges with
  | nil => rfl
  | cons e edges ih =>
    unfold openInto targets at ih ⊢
    simp only [List.filter_cons, List.mem_append, List.mem_singleton, not_or, decide_not,
      Bool.decide_and, Bool.and_eq_true, Bool.not_eq_true', decide_eq_false_iff_not,
      decide_eq_true_eq] at ih ⊢
    by_cases here : e.1 = w
    · simp only [here, fresh, not_false_eq_true, not_true_eq_false, and_false, if_true, if_false,
        List.map_cons, List.count_cons]
      omega
    · by_cases done : e.1 ∈ order
      · simpa only [here, done, not_true_eq_false, false_and, if_false] using ih
      · simp only [here, done, not_false_eq_true, and_self, if_true, if_false,
          List.map_cons, List.count_cons]
        omega

theorem openInto_eq_zero {v : α} : openInto edges order v = 0 ↔ ∀ u, (u, v) ∈ edges → u ∈ order := by
  unfold openInto
  rw [List.count_eq_zero, List.mem_map]
  constructor
  · intro none u inside
    by_contra missing
    exact none ⟨(u, v), List.mem_filter.mpr ⟨inside, by simpa using missing⟩, rfl⟩
  · rintro all ⟨⟨u, w⟩, inside, rfl⟩
    obtain ⟨inside, missing⟩ := List.mem_filter.mp inside
    exact (by simpa using missing : u ∉ order) (all u inside)

theorem mem_targets {u v : α} : v ∈ targets edges u ↔ (u, v) ∈ edges := by
  unfold targets
  rw [List.mem_map]
  constructor
  · rintro ⟨⟨a, b⟩, inside, rfl⟩
    obtain ⟨inside, same⟩ := List.mem_filter.mp inside
    have : a = u := by simpa using same
    exact this ▸ inside
  · intro inside
    exact ⟨(u, v), List.mem_filter.mpr ⟨inside, by simp⟩, rfl⟩

/-- Every vertex of the list stands after all its predecessors. -/
def Topological (edges : List (α × α)) (order : List α) : Prop :=
  ∀ before v after, order = before ++ v :: after → ∀ u, (u, v) ∈ edges → u ∈ before

/-- What holds each time the loop looks at its stack. -/
structure Visiting (nodes : List α) (edges : List (α × α)) (stack : List α) (degree : α → Nat)
    (order : List α) : Prop where
  nodup : (stack ++ order).Nodup
  inside : ∀ v ∈ stack ++ order, v ∈ nodes
  degrees : ∀ v, degree v = openInto edges order v
  ready : ∀ v ∈ nodes, degree v = 0 ↔ v ∈ stack ++ order
  topological : Topological edges order

omit [DecidableEq α] in
theorem topological_snoc {v : α}
    (topo : Topological edges order) (sources : ∀ u, (u, v) ∈ edges → u ∈ order) :
    Topological edges (order ++ [v]) := by
  intro before w after split u edge
  rcases List.eq_nil_or_concat after with rfl | ⟨front, last, rfl⟩
  · obtain ⟨rfl, same⟩ := List.append_inj' split rfl
    cases same
    exact sources u edge
  · rw [List.concat_eq_append, ← List.cons_append, ← List.append_assoc] at split
    obtain ⟨same, -⟩ := List.append_inj' split rfl
    exact topo before w front same u edge

theorem Visiting.start (nodup : stack.Nodup) (mem : ∀ v, v ∈ stack ↔ v ∈ nodes ∧ indegree edges v = 0) :
    Visiting nodes edges stack (indegree edges) [] where
  nodup := by simpa using nodup
  inside := by
    intro v hv
    exact ((mem v).mp (by simpa using hv)).1
  degrees := fun v => (openInto_nil edges v).symm
  ready := by
    intro v hv
    rw [List.append_nil, mem v]
    exact ⟨fun h => ⟨hv, h⟩, fun h => h.2⟩
  topological := by
    intro before v after split
    simp at split

theorem Visiting.step {degree : α → Nat} {v : α} (closed : ∀ e ∈ edges, e.2 ∈ nodes)
    (h : Visiting nodes edges (v :: stack) degree order) :
    Visiting nodes edges ((targets edges v).foldl relax (stack, degree)).1
      ((targets edges v).foldl relax (stack, degree)).2 (order ++ [v]) := by
  have nodup := h.nodup
  rw [List.cons_append, List.nodup_cons, List.mem_append, not_or] at nodup
  obtain ⟨⟨offStack, fresh⟩, nodup⟩ := nodup
  have counts : ∀ w, degree w = openInto edges (order ++ [v]) w + (targets edges v).count w := by
    intro w
    rw [h.degrees w, openInto_snoc fresh w]
  obtain ⟨pushed, run, pushedNodup, mem⟩ := @foldl_relax _ _ (targets edges v) stack degree
    (fun w => by have := counts w; omega)
  rw [run]
  have vInside : v ∈ nodes := h.inside v (by simp)
  have vReady : degree v = 0 := (h.ready v vInside).mpr (by simp)
  -- a pushed vertex still had an open edge, so it was neither waiting nor popped
  have pushedNew : ∀ w ∈ pushed, w ∉ stack ++ order ∧ w ≠ v ∧ w ∈ nodes := by
    intro w hw
    obtain ⟨target, last⟩ := (mem w).mp hw
    have positive : 0 < (targets edges v).count w := List.count_pos_iff.mpr target
    have wInside : w ∈ nodes := closed (v, w) (mem_targets.mp target)
    refine ⟨?_, ?_, wInside⟩
    · intro old
      have := (h.ready w wInside).mpr (List.mem_cons_of_mem v old)
      omega
    · rintro rfl
      omega
  refine ⟨?_, ?_, ?_, ?_, ?_⟩
  · have perm : (pushed ++ stack ++ (order ++ [v])).Perm (v :: (pushed ++ (stack ++ order))) := by
      rw [← List.append_assoc, List.append_assoc pushed]
      exact List.perm_append_singleton v _
    rw [perm.nodup_iff, List.nodup_cons, List.mem_append, not_or]
    refine ⟨⟨fun hv => (pushedNew v hv).2.1 rfl, ?_⟩, ?_⟩
    · rw [List.mem_append, not_or]
      exact ⟨offStack, fresh⟩
    · exact List.nodup_append.mpr ⟨pushedNodup, nodup, fun a ha b hb same =>
        (pushedNew a ha).1 (same ▸ hb)⟩
  · intro w hw
    simp only [List.mem_append, List.mem_singleton] at hw
    rcases hw with (hw | hw) | hw | rfl
    · exact (pushedNew w hw).2.2
    · exact h.inside w (by simp [hw])
    · exact h.inside w (by simp [hw])
    · exact vInside
  · intro w
    have := counts w
    show degree w - (targets edges v).count w = openInto edges (order ++ [v]) w
    omega
  · intro w hw
    show degree w - (targets edges v).count w = 0 ↔ w ∈ pushed ++ stack ++ (order ++ [v])
    have := counts w
    have old := h.ready w hw
    simp only [List.mem_append, List.mem_cons, List.not_mem_nil, or_false] at old ⊢
    rw [mem w]
    constructor
    · intro gone
      by_cases zero : degree w = 0
      · rcases old.mp zero with (rfl | hw) | hw <;> simp_all
      · have : w ∈ targets edges v := List.count_pos_iff.mp (by omega)
        exact .inl (.inl ⟨this, by omega⟩)
    · rintro ((⟨_, last⟩ | onStack) | popped | rfl)
      · omega
      · have := old.mpr (.inl (.inr onStack))
        omega
      · have := old.mpr (.inr popped)
        omega
      · omega
  · exact topological_snoc h.topological
      (openInto_eq_zero.mp ((h.degrees v).symm.trans vReady))

theorem loop_visits
    (closed : ∀ e ∈ edges, e.2 ∈ nodes) {fuel : Nat} {stack order : List α} {degree : α → Nat}
    (h : Visiting nodes edges stack degree order) (enough : nodes.length ≤ fuel + order.length) :
    ∃ final, Visiting nodes edges [] final (loop edges fuel stack degree order) := by
  induction fuel generalizing stack order degree with
  | zero =>
    have short : (stack ++ order).length ≤ nodes.length :=
      (h.nodup.subperm h.inside).length_le
    have : stack = [] := by
      rw [List.length_append] at short
      exact List.length_eq_zero_iff.mp (by omega)
    subst this
    exact ⟨degree, h⟩
  | succ fuel ih =>
    cases stack with
    | nil => exact ⟨degree, h⟩
    | cons v stack =>
      exact ih (h.step closed) (by simp only [List.length_append, List.length_singleton]; omega)

omit [DecidableEq α] in
theorem acyclic_of_rank (rank : α → Nat)
    (climbs : ∀ e ∈ edges, rank e.1 < rank e.2) : Acyclic edges := by
  have rising : ∀ {a b}, Relation.TransGen (fun a b => (a, b) ∈ edges) a b → rank a < rank b := by
    intro a b path
    induction path with
    | single edge => exact climbs _ edge
    | tail _ edge ih => exact ih.trans (climbs _ edge)
  intro v loopBack
  exact Nat.lt_irrefl _ (rising loopBack)

theorem Topological.idxOf_lt
    (topo : Topological edges order) (nodup : order.Nodup) {u v : α} (edge : (u, v) ∈ edges)
    (inside : v ∈ order) : order.idxOf u < order.idxOf v := by
  obtain ⟨before, after, split⟩ := List.append_of_mem inside
  have early := topo before v after split u edge
  rw [split] at nodup
  have vLate : v ∉ before := fun hv =>
    (List.nodup_append.mp nodup).2.2 v hv v (List.mem_cons_self) rfl
  rw [split, List.idxOf_append_of_mem early, List.idxOf_append_of_notMem vLate]
  have := List.idxOf_lt_length_of_mem early
  omega

theorem Topological.acyclic (topo : Topological edges order) (nodup : order.Nodup)
    (closed : ∀ e ∈ edges, e.2 ∈ nodes) (all : ∀ v ∈ nodes, v ∈ order) : Acyclic edges :=
  acyclic_of_rank order.idxOf fun e inside =>
    topo.idxOf_lt nodup inside (all e.2 (closed e inside))

omit [DecidableEq α] in
theorem Acyclic.exists_source (acyclic : Acyclic edges) {s : Set α}
    (finite : s.Finite) (nonempty : s.Nonempty) : ∃ v ∈ s, ∀ u ∈ s, (u, v) ∉ edges := by
  have strict : IsStrictOrder α (Relation.TransGen (fun a b => (a, b) ∈ edges)) :=
    { irrefl := acyclic, trans := fun _ _ _ => Relation.TransGen.trans }
  obtain ⟨v, inside, least⟩ := (finite.wellFoundedOn
    (r := Relation.TransGen (fun a b => (a, b) ∈ edges))).has_min Set.univ
    (by obtain ⟨x, hx⟩ := nonempty; exact ⟨⟨x, hx⟩, trivial⟩)
  exact ⟨v, v.2, fun u hu edge => least ⟨u, hu⟩ trivial (.single edge)⟩

/-- Kahn's loop, started on the vertices without predecessors, pops every vertex exactly
when the graph has no cycle. -/
theorem loop_complete_iff (closed : ∀ e ∈ edges, e.1 ∈ nodes ∧ e.2 ∈ nodes) (nodup : stack.Nodup)
    (mem : ∀ v, v ∈ stack ↔ v ∈ nodes ∧ indegree edges v = 0) {fuel : Nat}
    (enough : nodes.length ≤ fuel) :
    (∀ v ∈ nodes, v ∈ loop edges fuel stack (indegree edges) []) ↔ Acyclic edges := by
  have targetsInside : ∀ e ∈ edges, e.2 ∈ nodes := fun e he => (closed e he).2
  obtain ⟨final, h⟩ := loop_visits targetsInside (Visiting.start nodup mem) (by simpa using enough)
  constructor
  · intro all
    exact h.topological.acyclic (by simpa using h.nodup) targetsInside all
  · intro acyclic
    by_contra missing
    push Not at missing
    obtain ⟨x, xInside, xMissing⟩ := missing
    -- among the vertices never popped, a source would have been ready
    obtain ⟨v, ⟨vInside, vMissing⟩, source⟩ := acyclic.exists_source
      (s := {v | v ∈ nodes ∧ v ∉ loop edges fuel stack (indegree edges) []})
      (nodes.finite_toSet.subset fun v hv => hv.1) ⟨x, xInside, xMissing⟩
    have ready : final v = 0 := by
      rw [h.degrees v, openInto_eq_zero]
      intro u edge
      by_contra uMissing
      exact source u ⟨(closed (u, v) edge).1, uMissing⟩ edge
    exact vMissing (by simpa using (h.ready v vInside).mp ready)

end LogicConduit.Kahn
