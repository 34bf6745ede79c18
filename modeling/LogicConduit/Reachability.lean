import Mathlib.Data.List.Basic
import Mathlib.Logic.Relation

namespace LogicConduit.Reachability

variable {α : Type*} [DecidableEq α]

abbrev Path (edges : List (α × α)) : α → α → Prop := Relation.ReflTransGen fun a b => (a, b) ∈ edges

def sources (edges : List (α × α)) (v : α) : List α := (edges.filter fun e => e.2 = v).map Prod.fst

/-- The vertices met from a stack, top first; each is entered once, and those that lead to it are pushed. -/
def gather (edges : List (α × α)) : Nat → List α → List α → List α
  | 0, _, seen => seen
  | _ + 1, [], seen => seen
  | fuel + 1, v :: stack, seen =>
    if v ∈ seen then gather edges fuel stack seen
    else gather edges fuel (((sources edges v).filter (· ∉ v :: seen)).reverse ++ stack) (v :: seen)

/-- The edges whose target has not been entered. -/
def unseen (edges : List (α × α)) (seen : List α) : Nat := (edges.filter fun e => e.2 ∉ seen).length

variable {edges : List (α × α)} {fuel : Nat} {stack seen : List α} {v w : α}

theorem mem_sources : w ∈ sources edges v ↔ (w, v) ∈ edges := by
  rw [sources, List.mem_map]
  constructor
  · rintro ⟨⟨a, b⟩, inside, rfl⟩
    obtain ⟨inside, target⟩ := List.mem_filter.mp inside
    have same : b = v := by simpa using target
    exact same ▸ inside
  · intro inside
    exact ⟨(w, v), List.mem_filter.mpr ⟨inside, by simp⟩, rfl⟩

/-- Entering a vertex takes the edges into it off the count. -/
theorem unseen_cons (fresh : v ∉ seen) :
    unseen edges (v :: seen) + (sources edges v).length = unseen edges seen := by
  induction edges with
  | nil => rfl
  | cons e edges ih =>
    simp only [unseen, sources, List.length_map] at ih ⊢
    by_cases here : e.2 = v
    · have out : e.2 ∉ seen := here ▸ fresh
      rw [List.filter_cons_of_neg (by simp [here]), List.filter_cons_of_pos (by simpa using here),
        List.filter_cons_of_pos (by simpa using out)]
      simp only [List.length_cons]
      omega
    · by_cases out : e.2 ∈ seen
      · rw [List.filter_cons_of_neg (by simp [out]), List.filter_cons_of_neg (by simpa using here),
          List.filter_cons_of_neg (by simpa using out)]
        exact ih
      · rw [List.filter_cons_of_pos (by simp [out, here]), List.filter_cons_of_neg (by simpa using here),
          List.filter_cons_of_pos (by simpa using out)]
        simp only [List.length_cons]
        omega

theorem gather_sound (h : v ∈ gather edges fuel stack seen) : v ∈ seen ∨ ∃ s ∈ stack, Path edges v s := by
  induction fuel generalizing stack seen with
  | zero => exact Or.inl h
  | succ fuel ih =>
    cases stack with
    | nil => exact Or.inl h
    | cons u stack =>
      rw [gather] at h
      split at h
      · rcases ih h with old | ⟨s, member, path⟩
        · exact Or.inl old
        · exact Or.inr ⟨s, List.mem_cons_of_mem _ member, path⟩
      · rcases ih h with old | ⟨s, member, path⟩
        · rcases List.mem_cons.mp old with rfl | old
          · exact Or.inr ⟨v, List.mem_cons_self, .refl⟩
          · exact Or.inl old
        · rcases List.mem_append.mp member with pushed | member
          · have edge := mem_sources.mp (List.mem_filter.mp (List.mem_reverse.mp pushed)).1
            exact Or.inr ⟨u, List.mem_cons_self, path.tail edge⟩
          · exact Or.inr ⟨s, List.mem_cons_of_mem _ member, path⟩

theorem gather_closed (enough : stack.length + unseen edges seen ≤ fuel)
    (inv : ∀ e ∈ edges, e.2 ∈ seen → e.1 ∈ seen ∨ e.1 ∈ stack) :
    (∀ v ∈ seen, v ∈ gather edges fuel stack seen) ∧ (∀ v ∈ stack, v ∈ gather edges fuel stack seen) ∧
      ∀ e ∈ edges, e.2 ∈ gather edges fuel stack seen → e.1 ∈ gather edges fuel stack seen := by
  induction fuel generalizing stack seen with
  | zero =>
    have empty : stack = [] := List.eq_nil_of_length_eq_zero (by omega)
    subst empty
    exact ⟨fun _ h => h, fun _ h => absurd h List.not_mem_nil, fun e he h => (inv e he h).resolve_right List.not_mem_nil⟩
  | succ fuel ih =>
    cases stack with
    | nil =>
      exact ⟨fun _ h => h, fun _ h => absurd h List.not_mem_nil, fun e he h => (inv e he h).resolve_right List.not_mem_nil⟩
    | cons u stack =>
      rw [List.length_cons] at enough
      rw [gather]
      split
      · next old =>
        obtain ⟨keep, reach, closed⟩ := @ih stack seen (by omega) fun e he h => by
          rcases inv e he h with inside | pushed
          · exact Or.inl inside
          · rcases List.mem_cons.mp pushed with same | pushed
            · exact Or.inl (same ▸ old)
            · exact Or.inr pushed
        refine ⟨keep, fun v member => ?_, closed⟩
        rcases List.mem_cons.mp member with rfl | member
        · exact keep v old
        · exact reach v member
      · next fresh =>
        have count : unseen edges (u :: seen) + (sources edges u).length = unseen edges seen := unseen_cons fresh
        have pushes := List.length_filter_le (fun w => decide (w ∉ u :: seen)) (sources edges u)
        obtain ⟨keep, reach, closed⟩ := @ih (((sources edges u).filter (· ∉ u :: seen)).reverse ++ stack) (u :: seen)
          (by rw [List.length_append, List.length_reverse]; omega) fun e he h => by
            by_cases inside : e.1 ∈ u :: seen
            · exact Or.inl inside
            · right
              rcases List.mem_cons.mp h with same | h
              · refine List.mem_append_left _ (List.mem_reverse.mpr (List.mem_filter.mpr ⟨mem_sources.mpr ?_, by simpa using inside⟩))
                rw [← same]
                exact he
              · rcases inv e he h with old | pushed
                · exact absurd (List.mem_cons_of_mem _ old) inside
                · rcases List.mem_cons.mp pushed with same | pushed
                  · exact absurd (same ▸ List.mem_cons_self) inside
                  · exact List.mem_append_right _ pushed
        refine ⟨fun v member => keep v (List.mem_cons_of_mem _ member), fun v member => ?_, closed⟩
        rcases List.mem_cons.mp member with rfl | member
        · exact keep v List.mem_cons_self
        · exact reach v (List.mem_append_right _ member)

theorem mem_gather_iff (enough : stack.length + edges.length ≤ fuel) :
    v ∈ gather edges fuel stack [] ↔ ∃ s ∈ stack, Path edges v s := by
  have all : unseen edges [] = edges.length := by simp [unseen]
  obtain ⟨-, reach, closed⟩ := @gather_closed _ _ edges fuel stack [] (by rw [all]; exact enough)
    (fun e _ h => absurd h List.not_mem_nil)
  constructor
  · intro h
    exact (gather_sound h).resolve_left List.not_mem_nil
  · rintro ⟨s, member, path⟩
    induction path using Relation.ReflTransGen.head_induction_on with
    | refl => exact reach s member
    | head edge _ ih => exact closed _ edge ih

theorem gather_nodup (h : seen.Nodup) : (gather edges fuel stack seen).Nodup := by
  induction fuel generalizing stack seen with
  | zero => exact h
  | succ fuel ih =>
    cases stack with
    | nil => exact h
    | cons u stack =>
      rw [gather]
      split
      · exact ih h
      · next fresh => exact ih (List.nodup_cons.mpr ⟨fresh, h⟩)

end LogicConduit.Reachability
