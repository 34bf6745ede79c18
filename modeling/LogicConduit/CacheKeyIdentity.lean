import LogicConduit.CacheKeyTrees

namespace LogicConduit

open ProcessingGraph

theorem utf8Bytes_inj {s t : String} (same : utf8Bytes s = utf8Bytes t) : s = t :=
  Option.some.inj (by rw [← fromUtf8_utf8Bytes s, same, fromUtf8_utf8Bytes])

theorem labelFields_inj {l m : EdgeLabel} (same : labelFields l = labelFields m) : l = m := by
  simp only [labelFields, List.cons.injEq, and_true] at same
  obtain ⟨ports, outputs, kinds⟩ := same
  have inner : (ofLex l).2 = (ofLex m).2 :=
    ofLex.injective (Prod.ext (utf8Bytes_inj outputs) (utf8Bytes_inj kinds))
  exact ofLex.injective (Prod.ext (utf8Bytes_inj ports) inner)

theorem labelFields_length (l : EdgeLabel) : (labelFields l).length = 3 := rfl

theorem identityFields_inj {a b : CaptureCacheIdentity} {fields : List Bytes}
    (left : identityFields a = some fields) (right : identityFields b = some fields) : a = b := by
  have same : identityFields a = identityFields b := left.trans right.symm
  cases a <;> cases b <;> simp [identityFields] at same left right ⊢
  exact same

theorem identityFields_length {a : CaptureCacheIdentity} {fields : List Bytes}
    (h : identityFields a = some fields) : fields.length ≤ 1 := by
  cases a with
  | notCapture =>
    cases h
    exact Nat.zero_le 1
  | dynamic => cases h
  | stable identity =>
    cases h
    exact Nat.le_refl 1

mutual
/-- Every text of the tree fits in memory, and what is hashed for its subtrees is in `S`. -/
def UpstreamTree.Sound (hash : Bytes → Bytes) (S : Set Bytes) : UpstreamTree → Prop
  | .node builder state identity inputs =>
    (utf8Bytes builder).length < 2 ^ 64 ∧ state.length < 2 ^ 64 ∧
      (∀ fields, identityFields identity = some fields → ∀ f ∈ fields, f.length < 2 ^ 64) ∧
      SoundInputs hash S inputs

def UpstreamTree.SoundInputs (hash : Bytes → Bytes) (S : Set Bytes) :
    List (EdgeLabel × UpstreamTree) → Prop
  | [] => True
  | (label, tree) :: inputs =>
    (∀ f ∈ labelFields label, f.length < 2 ^ 64) ∧
      (∀ bytes, tree.hashed hash = some bytes → bytes ∈ S) ∧
      tree.Sound hash S ∧ SoundInputs hash S inputs
end

section Injective

variable {hash : Bytes → Bytes} {S : Set Bytes}

variable {fields : List Bytes} {inputs : List (EdgeLabel × UpstreamTree)}

theorem inputFields_cons {label : EdgeLabel} {tree : UpstreamTree}
    (h : UpstreamTree.inputFields hash ((label, tree) :: inputs) = some fields) :
    ∃ bytes rest, tree.hashed hash = some bytes ∧
      UpstreamTree.inputFields hash inputs = some rest ∧
      fields = labelFields label ++ [hash bytes] ++ rest := by
  rw [UpstreamTree.inputFields] at h
  split at h
  next bytes rest here later =>
    cases h
    exact ⟨bytes, rest, here, later, rfl⟩
  · cases h

theorem inputFields_length (h : UpstreamTree.inputFields hash inputs = some fields) :
    fields.length = 4 * inputs.length := by
  induction inputs generalizing fields with
  | nil =>
    rw [UpstreamTree.inputFields] at h
    cases h
    rfl
  | cons input inputs ih =>
    obtain ⟨bytes, rest, -, later, rfl⟩ := inputFields_cons h
    simp only [List.length_append, labelFields_length, List.length_cons, List.length_nil, ih later]
    omega

theorem inputFields_short (digest : ∀ bytes, (hash bytes).length = 32)
    (sound : UpstreamTree.SoundInputs hash S inputs)
    (h : UpstreamTree.inputFields hash inputs = some fields) : ∀ f ∈ fields, f.length < 2 ^ 64 := by
  induction inputs generalizing fields with
  | nil =>
    rw [UpstreamTree.inputFields] at h
    cases h
    simp
  | cons input inputs ih =>
    rw [UpstreamTree.SoundInputs] at sound
    obtain ⟨bytes, rest, -, later, rfl⟩ := inputFields_cons h
    intro f inside
    simp only [List.mem_append, List.mem_singleton] at inside
    rcases inside with (inside | rfl) | inside
    · exact sound.1 f inside
    · rw [digest]
      decide
    · exact ih sound.2.2.2 later f inside

theorem hashed_node {builder : String} {state : Bytes} {identity : CaptureCacheIdentity}
    {bytes : Bytes} (h : (UpstreamTree.node builder state identity inputs).hashed hash = some bytes) :
    ∃ own fields, identityFields identity = some own ∧
      UpstreamTree.inputFields hash inputs = some fields ∧
      bytes = (nodeFields builder state own fields).flatMap hashField := by
  rw [UpstreamTree.hashed] at h
  split at h
  · cases h
  next own known =>
    obtain ⟨fields, filled, rfl⟩ := Option.map_eq_some_iff.mp h
    exact ⟨own, fields, known, filled, rfl⟩

mutual
/-- Trees that hash the same bytes are the same, as long as the hash has no collision on what is
hashed below them. -/
theorem hashed_inj (digest : ∀ bytes, (hash bytes).length = 32) (inj : Set.InjOn hash S) :
    ∀ (t u : UpstreamTree) (bytes : Bytes), t.Sound hash S → u.Sound hash S →
      t.hashed hash = some bytes → u.hashed hash = some bytes → t = u
  | .node builder state identity inputs, .node builder' state' identity' inputs', bytes, ht, hu,
      left, right => by
    rw [UpstreamTree.Sound] at ht hu
    obtain ⟨own, fields, known, filled, rfl⟩ := hashed_node left
    obtain ⟨own', fields', known', filled', same⟩ := hashed_node right
    have short : ∀ f ∈ nodeFields builder state own fields, f.length < 2 ^ 64 := by
      intro f inside
      simp only [nodeFields, List.mem_append, List.mem_cons, List.not_mem_nil, or_false] at inside
      rcases inside with ((rfl | rfl | rfl) | inside) | inside
      · decide
      · exact ht.1
      · exact ht.2.1
      · exact ht.2.2.1 own known f inside
      · exact inputFields_short digest ht.2.2.2 filled f inside
    have short' : ∀ f ∈ nodeFields builder' state' own' fields', f.length < 2 ^ 64 := by
      intro f inside
      simp only [nodeFields, List.mem_append, List.mem_cons, List.not_mem_nil, or_false] at inside
      rcases inside with ((rfl | rfl | rfl) | inside) | inside
      · decide
      · exact hu.1
      · exact hu.2.1
      · exact hu.2.2.1 own' known' f inside
      · exact inputFields_short digest hu.2.2.2 filled' f inside
    have parts := flatMap_hashField_inj short short' same
    simp only [nodeFields, List.cons_append, List.nil_append, List.cons.injEq, true_and] at parts
    obtain ⟨builders, states, rest⟩ := parts
    -- the inputs come in fours, so one field more or less is the identity
    have counts : own.length = own'.length := by
      have total := congrArg List.length rest
      have few := identityFields_length known
      have few' := identityFields_length known'
      rw [List.length_append, List.length_append, inputFields_length filled,
        inputFields_length filled'] at total
      omega
    obtain ⟨rfl, rfl⟩ := List.append_inj rest counts
    rw [utf8Bytes_inj builders, states, identityFields_inj known known',
      inputFields_inj digest inj inputs inputs' fields ht.2.2.2 hu.2.2.2 filled filled']

theorem inputFields_inj (digest : ∀ bytes, (hash bytes).length = 32) (inj : Set.InjOn hash S) :
    ∀ (l m : List (EdgeLabel × UpstreamTree)) (fields : List Bytes),
      UpstreamTree.SoundInputs hash S l → UpstreamTree.SoundInputs hash S m →
      UpstreamTree.inputFields hash l = some fields →
      UpstreamTree.inputFields hash m = some fields → l = m
  | [], m, fields, _, _, left, right => by
    have lengths := (inputFields_length left).symm.trans (inputFields_length right)
    cases m with
    | nil => rfl
    | cons _ m => simp at lengths
  | (label, tree) :: l, [], fields, _, _, left, right => by
    have lengths := (inputFields_length left).symm.trans (inputFields_length right)
    simp at lengths
  | (label, tree) :: l, (label', tree') :: m, fields, hl, hm, left, right => by
    rw [UpstreamTree.SoundInputs] at hl hm
    obtain ⟨bytes, rest, here, later, rfl⟩ := inputFields_cons left
    obtain ⟨bytes', rest', here', later', same⟩ := inputFields_cons right
    obtain ⟨heads, rfl⟩ := List.append_inj same (by simp [labelFields_length])
    obtain ⟨labels, keys⟩ := List.append_inj heads (by simp [labelFields_length])
    have equal : bytes = bytes' :=
      inj (hl.2.1 bytes here) (hm.2.1 bytes' here') (List.cons.inj keys).1
    subst equal
    rw [labelFields_inj labels, hashed_inj digest inj tree tree' bytes hl.2.2.1 hm.2.2.1 here here',
      inputFields_inj digest inj l m rest hl.2.2.2 hm.2.2.2 later later']
end

end Injective

/-- The node `j` is upstream of `i`, or is `i` itself. -/
def ProcessingGraph.Upstream (plan : ProcessingGraph) : NodeId → NodeId → Prop :=
  Relation.ReflTransGen fun a b => ∃ e ∈ plan.edges, e.target.1 = a ∧ e.source.1 = b

/-- The texts, states and identities of a plan fit in a 64-bit address space. -/
structure Addressable (plan : ProcessingGraph) : Prop where
  builder : ∀ node ∈ plan.nodes, (utf8Bytes node.builder).length < 2 ^ 64
  state : ∀ node ∈ plan.nodes, (canonicalJsonBytes node.state).length < 2 ^ 64
  identity : ∀ node ∈ plan.nodes, ∀ fields, identityFields node.captureCacheIdentity = some fields →
    ∀ f ∈ fields, f.length < 2 ^ 64
  label : ∀ e ∈ plan.edges, ∀ f ∈ labelFields e.label, f.length < 2 ^ 64

section Plans

variable {hash : Bytes → Bytes} {plan : LoweredPlan} {S : Set Bytes} {id : NodeId}

theorem soundInputs_map {edges : List ProcessingEdge} {tree : ProcessingEdge → UpstreamTree}
    (each : ∀ e ∈ edges, (∀ f ∈ labelFields e.label, f.length < 2 ^ 64) ∧
      (∀ bytes, (tree e).hashed hash = some bytes → bytes ∈ S) ∧ (tree e).Sound hash S) :
    UpstreamTree.SoundInputs hash S (edges.map fun e => (e.label, tree e)) := by
  induction edges with
  | nil => simp [UpstreamTree.SoundInputs]
  | cons e edges ih =>
    obtain ⟨labels, inside, sound⟩ := each e List.mem_cons_self
    rw [List.map_cons, UpstreamTree.SoundInputs]
    exact ⟨labels, inside, sound, ih fun e' h => each e' (List.mem_cons_of_mem _ h)⟩

theorem upstreamTree_sound (fits : Addressable plan.toProcessingGraph) (inside : id ∈ plan.ids)
    (hashed : ∀ j, plan.Upstream id j → ∀ bytes, (plan.upstreamTree j).hashed hash = some bytes →
      bytes ∈ S) : (plan.upstreamTree id).Sound hash S := by
  induction rank : plan.rank id using Nat.strong_induction_on generalizing id with
  | _ r ih =>
    obtain ⟨member, -⟩ := plan.compiledNode_mem inside
    rw [upstreamTree_eq plan inside, UpstreamTree.Sound]
    refine ⟨fits.builder _ member, fits.state _ member, fits.identity _ member, ?_⟩
    refine soundInputs_map fun e he => ?_
    obtain ⟨he, target⟩ := mem_sortedIncoming.mp he
    have above : plan.Upstream id e.source.1 := .single ⟨e, he, target, rfl⟩
    have below := plan.rank_lt he
    rw [target, rank] at below
    exact ⟨fits.label e he, hashed _ above,
      ih _ below (plan.closed e he).1 (fun j up => hashed j (above.trans up)) rfl⟩

theorem inputFields_none_iff {inputs : List (EdgeLabel × UpstreamTree)} :
    UpstreamTree.inputFields hash inputs = none ↔ ∃ input ∈ inputs, input.2.hashed hash = none := by
  induction inputs with
  | nil => simp [UpstreamTree.inputFields]
  | cons input inputs ih =>
    rw [UpstreamTree.inputFields]
    cases here : input.2.hashed hash with
    | none => simp [here]
    | some bytes =>
      cases later : UpstreamTree.inputFields hash inputs with
      | none =>
        obtain ⟨other, inside, none⟩ := ih.mp later
        simp only [true_iff]
        exact ⟨other, List.mem_cons_of_mem _ inside, none⟩
      | some fields =>
        simp only [reduceCtorEq, List.mem_cons, exists_eq_or_imp, here, false_or, false_iff]
        exact fun found => by simp [ih.mpr found] at later

theorem identityFields_none_iff {identity : CaptureCacheIdentity} :
    identityFields identity = none ↔ identity = .dynamic := by
  cases identity <;> simp [identityFields]

theorem upstreamTree_none_iff (inside : id ∈ plan.ids) :
    (plan.upstreamTree id).hashed hash = none ↔
      ∃ j, plan.Upstream id j ∧ (plan.compiledNode j).captureCacheIdentity = .dynamic := by
  induction rank : plan.rank id using Nat.strong_induction_on generalizing id with
  | _ r ih =>
    have step : ∀ e ∈ plan.edges, e.target.1 = id →
        ((plan.upstreamTree e.source.1).hashed hash = none ↔ ∃ j, plan.Upstream e.source.1 j ∧
          (plan.compiledNode j).captureCacheIdentity = .dynamic) := by
      intro e he target
      have below := plan.rank_lt he
      rw [target, rank] at below
      exact ih _ below (plan.closed e he).1 rfl
    rw [upstreamTree_eq plan inside, UpstreamTree.hashed]
    cases own : identityFields (plan.compiledNode id).captureCacheIdentity with
    | none =>
      simp only [true_iff]
      exact ⟨id, .refl, identityFields_none_iff.mp own⟩
    | some fields =>
      simp only [Option.map_eq_none_iff]
      rw [inputFields_none_iff]
      constructor
      · rintro ⟨input, member, none⟩
        obtain ⟨e, he, rfl⟩ := List.mem_map.mp member
        obtain ⟨he, target⟩ := mem_sortedIncoming.mp he
        obtain ⟨j, up, dynamic⟩ := (step e he target).mp none
        exact ⟨j, .head ⟨e, he, target, rfl⟩ up, dynamic⟩
      · rintro ⟨j, up, dynamic⟩
        rcases Relation.ReflTransGen.cases_head up with rfl | ⟨k, ⟨e, he, target, rfl⟩, rest⟩
        · rw [identityFields_none_iff.mpr dynamic] at own
          cases own
        · exact ⟨_, List.mem_map.mpr ⟨e, mem_sortedIncoming.mpr ⟨he, target⟩, rfl⟩,
            (step e he target).mpr ⟨j, rest, dynamic⟩⟩

theorem persistentLaneKey_eq {collector : NodeId} {member : Nat} {edge : ProcessingEdge}
    (inside : edge ∈ plan.edges) :
    persistentLaneKey hash plan.toProcessingGraph collector member edge =
      ((plan.upstreamTree edge.source.1).key hash).map fun upstream =>
        hash ((laneFields (canonicalJsonBytes (plan.compiledNode collector).state) member
          edge.source.2 edge.kind.name upstream).flatMap hashField) := by
  have source := (plan.closed edge inside).1
  have answer := @persistentUpstreamKey_answers hash plan (plan.nodes.length + 1) edge.source.1
    (fun _ => none) source (by have := plan.rank_lt_length source; omega)
    (fun _ _ found => by cases found)
  unfold persistentLaneKey
  unfold Answers at answer
  cases key : (plan.upstreamTree edge.source.1).key hash with
  | none =>
    rw [key] at answer
    rw [answer]
    rfl
  | some upstream =>
    rw [key] at answer
    obtain ⟨memo, run, -⟩ := answer
    rw [run]
    rfl

end Plans

end LogicConduit
