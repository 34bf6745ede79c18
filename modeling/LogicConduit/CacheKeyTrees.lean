import LogicConduit.CacheKeys

namespace LogicConduit

open ProcessingGraph

theorem hashField_length (bytes : Bytes) : (hashField bytes).length = 8 + bytes.length := by
  simp [hashField]

theorem hashField_append_inj {x y tail tail' : Bytes} (hx : x.length < 2 ^ 64) (hy : y.length < 2 ^ 64)
    (same : hashField x ++ tail = hashField y ++ tail') : x = y ∧ tail = tail' := by
  simp only [hashField, List.append_assoc] at same
  obtain ⟨lengths, rest⟩ := List.append_inj same (by simp)
  have equal : x.length = y.length := by
    rw [← @ofLeBytes_leBytes 8 x.length hx, ← @ofLeBytes_leBytes 8 y.length hy, lengths]
  exact List.append_inj rest equal

/-- Codes of one element after the other, up to what no element starts with. An element is read for itself only
before what can follow it: another one or the end. -/
theorem flatMap_append_inj {α β : Type*} {code : α → Bytes} {f : α → β} {xs ys : List α} {close close' : Bytes}
    {follows : Bytes → Prop} (hclose : follows close) (hclose' : follows close')
    (hfx : ∀ x ∈ xs, ∀ tail, follows (code x ++ tail)) (hfy : ∀ y ∈ ys, ∀ tail, follows (code y ++ tail))
    (hx : ∀ x ∈ xs, ∀ tail, code x ++ tail ≠ close') (hy : ∀ y ∈ ys, ∀ tail, close ≠ code y ++ tail)
    (inj : ∀ x ∈ xs, ∀ y ∈ ys, ∀ tail tail', follows tail → follows tail' → code x ++ tail = code y ++ tail' →
      f x = f y ∧ tail = tail')
    (same : xs.flatMap code ++ close = ys.flatMap code ++ close') : xs.map f = ys.map f ∧ close = close' := by
  induction xs generalizing ys with
  | nil =>
    cases ys with
    | nil => exact ⟨rfl, same⟩
    | cons y ys =>
      rw [List.flatMap_cons, List.append_assoc] at same
      exact absurd same (hy y List.mem_cons_self _)
  | cons x xs ih =>
    cases ys with
    | nil =>
      rw [List.flatMap_cons, List.append_assoc] at same
      exact absurd same (hx x List.mem_cons_self _)
    | cons y ys =>
      simp only [List.flatMap_cons, List.append_assoc] at same
      have hrest {zs : List α} {end' : Bytes} (hend : follows end') (hz : ∀ z ∈ zs, ∀ tail, follows (code z ++ tail)) :
          follows (zs.flatMap code ++ end') := by
        cases zs with
        | nil => exact hend
        | cons z zs =>
          rw [List.flatMap_cons, List.append_assoc]
          exact hz z List.mem_cons_self _
      have hfx' : ∀ z ∈ xs, ∀ tail, follows (code z ++ tail) := fun z hm => hfx z (List.mem_cons_of_mem _ hm)
      have hfy' : ∀ z ∈ ys, ∀ tail, follows (code z ++ tail) := fun z hm => hfy z (List.mem_cons_of_mem _ hm)
      obtain ⟨first, rest⟩ := inj x List.mem_cons_self y List.mem_cons_self _ _ (hrest hclose hfx') (hrest hclose' hfy')
        same
      obtain ⟨later, ends⟩ := ih hfx' hfy' (fun x hm => hx x (List.mem_cons_of_mem _ hm))
        (fun y hm => hy y (List.mem_cons_of_mem _ hm))
        (fun x hm y hm' => inj x (List.mem_cons_of_mem _ hm) y (List.mem_cons_of_mem _ hm')) rest
      exact ⟨by rw [List.map_cons, List.map_cons, first, later], ends⟩

theorem flatMap_hashField_inj {fs gs : List Bytes} (hf : ∀ f ∈ fs, f.length < 2 ^ 64)
    (hg : ∀ g ∈ gs, g.length < 2 ^ 64) (same : fs.flatMap hashField = gs.flatMap hashField) :
    fs = gs := by
  have filled : ∀ field tail, hashField field ++ tail ≠ [] := fun field tail none => by
    have := congrArg List.length none
    rw [List.length_append, hashField_length, List.length_nil] at this
    omega
  have := @flatMap_append_inj _ _ hashField id fs gs [] [] (fun _ => True) trivial trivial (fun _ _ _ => trivial)
    (fun _ _ _ => trivial) (fun x _ => filled x) (fun y _ tail none => filled y tail none.symm)
    (fun x hm y hm' _ _ _ _ => hashField_append_inj (hf x hm) (hg y hm'))
    (by rw [List.append_nil, List.append_nil, same])
  simpa using this.1

section Unfolding

variable (plan : LoweredPlan)

theorem unfold_stable {d d' : Nat} {id : NodeId} (deep : plan.rank id ≤ d) (more : d ≤ d') :
    plan.unfold d id = plan.unfold d' id := by
  induction d generalizing d' id with
  | zero =>
    cases d' with
    | zero => rfl
    | succ d' =>
      have none : plan.incoming id = [] := by
        rw [List.eq_nil_iff_forall_not_mem]
        intro e inside
        obtain ⟨inside, target⟩ := mem_incoming.mp inside
        have := plan.rank_lt inside
        rw [target] at this
        omega
      simp only [ProcessingGraph.unfold, sortedIncoming, none]
      rfl
  | succ d ih =>
    obtain ⟨d', rfl⟩ : ∃ k, d' = k + 1 := ⟨d' - 1, by omega⟩
    simp only [ProcessingGraph.unfold]
    congr 1
    refine List.map_congr_left fun e inside => ?_
    obtain ⟨inside, target⟩ := mem_incoming.mp ((sortBy_perm _ _).mem_iff.mp inside)
    have := plan.rank_lt inside
    rw [target] at this
    rw [@ih d' e.source.1 (by omega) (by omega)]

theorem upstreamTree_eq {id : NodeId} (inside : id ∈ plan.ids) :
    plan.upstreamTree id = .node (plan.compiledNode id).builder
      (canonicalJsonBytes (plan.compiledNode id).state)
      (plan.compiledNode id).captureCacheIdentity
      ((plan.sortedIncoming id).map fun e => (e.label, plan.upstreamTree e.source.1)) := by
  have bound := plan.rank_lt_length inside
  obtain ⟨n, length⟩ : ∃ n, plan.nodes.length = n + 1 := ⟨plan.nodes.length - 1, by omega⟩
  unfold ProcessingGraph.upstreamTree
  rw [length, ProcessingGraph.unfold]
  congr 1
  refine List.map_congr_left fun e member => ?_
  obtain ⟨member, target⟩ := mem_incoming.mp ((sortBy_perm _ _).mem_iff.mp member)
  have := plan.rank_lt member
  rw [target] at this
  rw [unfold_stable plan (show plan.rank e.source.1 ≤ n by omega) (Nat.le_succ n)]

theorem mem_sortedIncoming {plan : LoweredPlan} {id : NodeId} {e : ProcessingEdge} :
    e ∈ plan.sortedIncoming id ↔ e ∈ plan.edges ∧ e.target.1 = id := by
  rw [sortedIncoming, (sortBy_perm _ _).mem_iff, mem_incoming]

end Unfolding

section Memo

variable {hash : Bytes → Bytes} {plan : LoweredPlan}

def KeyMemo.Holds (hash : Bytes → Bytes) (plan : ProcessingGraph) (memo : KeyMemo) : Prop :=
  ∀ id key, memo id = some key → (plan.upstreamTree id).key hash = some key

def Answers (hash : Bytes → Bytes) (plan : ProcessingGraph) (key : Option Bytes)
    (answer : Option (Bytes × KeyMemo)) : Prop :=
  match key with
  | none => answer = none
  | some key => ∃ memo, answer = some (key, memo) ∧ memo.Holds hash plan

theorem foldlM_answers {call : NodeId → KeyMemo → Option (Bytes × KeyMemo)}
    {edges : List ProcessingEdge}
    (each : ∀ e ∈ edges, ∀ memo : KeyMemo, memo.Holds hash plan.toProcessingGraph →
      Answers hash plan.toProcessingGraph ((plan.upstreamTree e.source.1).key hash)
        (call e.source.1 memo))
    (acc : List Bytes) {memo : KeyMemo} (holds : memo.Holds hash plan.toProcessingGraph) :
    match UpstreamTree.inputFields hash
        (edges.map fun e => (e.label, plan.upstreamTree e.source.1)) with
    | none => edges.foldlM (fun (acc : List Bytes × KeyMemo) e =>
        (call e.source.1 acc.2).map fun upstream =>
          (acc.1 ++ (labelFields e.label ++ [upstream.1]), upstream.2)) (acc, memo) = none
    | some fields => ∃ memo' : KeyMemo, edges.foldlM (fun (acc : List Bytes × KeyMemo) e =>
        (call e.source.1 acc.2).map fun upstream =>
          (acc.1 ++ (labelFields e.label ++ [upstream.1]), upstream.2)) (acc, memo) =
            some (acc ++ fields, memo') ∧ memo'.Holds hash plan.toProcessingGraph := by
  induction edges generalizing acc memo with
  | nil => exact ⟨memo, by simp [pure], holds⟩
  | cons e edges ih =>
    have here := each e List.mem_cons_self memo holds
    simp only [List.map_cons, UpstreamTree.inputFields, List.foldlM_cons]
    unfold Answers UpstreamTree.key at here
    cases bytes : (plan.upstreamTree e.source.1).hashed hash with
    | none =>
      rw [bytes] at here
      simp only [Option.map_none] at here
      rw [here]
      rfl
    | some bytes' =>
      rw [bytes] at here
      obtain ⟨memo', answer, holds'⟩ := here
      have rest := @ih (fun e' inside => each e' (List.mem_cons_of_mem _ inside))
        (acc ++ (labelFields e.label ++ [hash bytes'])) memo' holds'
      rw [answer]
      simp only [Option.map_some, Option.bind_eq_bind, Option.bind_some]
      cases fields : UpstreamTree.inputFields hash
          (edges.map fun e => (e.label, plan.upstreamTree e.source.1)) with
      | none =>
        rw [fields] at rest
        exact rest
      | some fields' =>
        rw [fields] at rest
        obtain ⟨memo'', run, holds''⟩ := rest
        refine ⟨memo'', ?_, holds''⟩
        rw [run]
        simp [List.append_assoc]

theorem persistentUpstreamKey_answers {fuel : Nat} {id : NodeId} {memo : KeyMemo}
    (inside : id ∈ plan.ids) (enough : plan.rank id < fuel)
    (holds : memo.Holds hash plan.toProcessingGraph) :
    Answers hash plan.toProcessingGraph ((plan.upstreamTree id).key hash)
      (persistentUpstreamKey hash plan.toProcessingGraph fuel id memo) := by
  induction fuel generalizing id memo with
  | zero => omega
  | succ fuel ih =>
    unfold persistentUpstreamKey
    cases known : memo id with
    | some key =>
      rw [holds id key known]
      exact ⟨memo, rfl, holds⟩
    | none =>
      have tree := upstreamTree_eq plan inside
      dsimp only
      cases identity : identityFields (plan.compiledNode id).captureCacheIdentity with
      | none =>
        have none : (plan.upstreamTree id).key hash = none := by
          rw [tree, UpstreamTree.key, UpstreamTree.hashed, identity]
          rfl
        rw [none]
        rfl
      | some identity' =>
        dsimp only
        have each : ∀ e ∈ plan.sortedIncoming id, ∀ memo : KeyMemo,
            memo.Holds hash plan.toProcessingGraph →
            Answers hash plan.toProcessingGraph ((plan.upstreamTree e.source.1).key hash)
              (persistentUpstreamKey hash plan.toProcessingGraph fuel e.source.1 memo) := by
          intro e member memo held
          obtain ⟨member, target⟩ := mem_sortedIncoming.mp member
          have := plan.rank_lt member
          rw [target] at this
          exact ih (plan.closed e member).1 (by omega) held
        have folded := foldlM_answers each [] holds
        have key : (plan.upstreamTree id).key hash = (UpstreamTree.inputFields hash
            ((plan.sortedIncoming id).map fun e => (e.label, plan.upstreamTree e.source.1))).map
              fun fields => hash ((nodeFields (plan.compiledNode id).builder
                (canonicalJsonBytes (plan.compiledNode id).state) identity' fields).flatMap
                  hashField) := by
          rw [tree, UpstreamTree.key, UpstreamTree.hashed, identity, Option.map_map]
          rfl
        rw [key]
        cases fields : UpstreamTree.inputFields hash
            ((plan.sortedIncoming id).map fun e => (e.label, plan.upstreamTree e.source.1)) with
        | none =>
          rw [fields] at folded
          rw [folded]
          rfl
        | some fields' =>
          rw [fields] at folded
          obtain ⟨memo', run, held⟩ := folded
          rw [run]
          refine ⟨_, rfl, ?_⟩
          intro other found lookup
          by_cases same : other = id
          · subst same
            rw [Function.update_self] at lookup
            cases lookup
            rw [key, fields]
            rfl
          · rw [Function.update_of_ne same] at lookup
            exact held other found lookup

end Memo

end LogicConduit
