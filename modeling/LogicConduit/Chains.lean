import Mathlib.Data.List.Basic
import Mathlib.Logic.Relation

namespace LogicConduit.Chains

variable {α : Type*} {next : α → Option α} {a b t u : α} {count : Nat} {after : List α}

def Step (next : α → Option α) (a b : α) : Prop := next a = some b

def EndsIn (next : α → Option α) (a t : α) : Prop := Relation.ReflTransGen (Step next) a t ∧ next t = none

/-- The end of the chain, when fewer than the given number of steps lead to it. -/
def follow (next : α → Option α) : Nat → α → Option α
  | 0, _ => none
  | count + 1, a =>
    match next a with
    | none => some a
    | some b => follow next count b

theorem EndsIn.head (step : next a = some b) (h : EndsIn next b t) : EndsIn next a t :=
  ⟨.head step h.1, h.2⟩

theorem endsIn_of_none (last : next a = none) : EndsIn next a t ↔ t = a := by
  constructor
  · rintro ⟨chain, -⟩
    rcases chain.cases_head with rfl | ⟨b, step, -⟩
    · rfl
    · rw [Step, last] at step
      cases step
  · rintro rfl
    exact ⟨.refl, last⟩

theorem endsIn_of_some (step : next a = some b) : EndsIn next a t ↔ EndsIn next b t := by
  constructor
  · rintro ⟨chain, last⟩
    rcases chain.cases_head with rfl | ⟨c, step', rest⟩
    · rw [step] at last
      cases last
    · rw [Step, step, Option.some.injEq] at step'
      exact ⟨step' ▸ rest, last⟩
  · exact EndsIn.head step

theorem EndsIn.unique (h : EndsIn next a t) (h' : EndsIn next a u) : t = u := by
  obtain ⟨chain, last⟩ := h
  induction chain using Relation.ReflTransGen.head_induction_on with
  | refl => exact ((endsIn_of_none last).mp h').symm
  | head step _ ih => exact ih ((endsIn_of_some step).mp h')

theorem EndsIn.no_return (h : EndsIn next a t) : ¬ Relation.TransGen (Step next) a a := by
  obtain ⟨chain, last⟩ := h
  induction chain using Relation.ReflTransGen.head_induction_on with
  | refl =>
    intro cycle
    obtain ⟨b, step, -⟩ := Relation.TransGen.head'_iff.mp cycle
    rw [Step, last] at step
    cases step
  | @head a b step chain ih =>
    intro cycle
    obtain ⟨c, step', rest⟩ := Relation.TransGen.head'_iff.mp cycle
    have same : b = c := Option.some.inj (step.symm.trans step')
    exact ih (Relation.TransGen.tail' (same ▸ rest) step)

theorem follow_sound (h : follow next count a = some t) : EndsIn next a t := by
  induction count generalizing a with
  | zero => cases h
  | succ count ih =>
    rw [follow] at h
    cases step : next a with
    | none =>
      rw [step, Option.some.injEq] at h
      exact (endsIn_of_none step).mpr h.symm
    | some b =>
      rw [step] at h
      exact (ih h).head step

theorem follow_complete [DecidableEq α]
    (inside : ∀ b c, Relation.ReflTransGen (Step next) a b → next b = some c → c ∈ after)
    (enough : after.length < count) (h : EndsIn next a t) : follow next count a = some t := by
  induction count generalizing a after with
  | zero => omega
  | succ count ih =>
    rw [follow]
    cases step : next a with
    | none => exact congrArg some ((endsIn_of_none step).mp h).symm
    | some b =>
      have rest := (endsIn_of_some step).mp h
      have member := inside a b .refl step
      have shorter := List.length_erase_of_mem member
      have positive := List.length_pos_of_mem member
      refine @ih b (after.erase b) (fun c d reach step' => ?_) (by omega) rest
      have fresh : d ≠ b := by
        rintro rfl
        exact rest.no_return (Relation.TransGen.tail' reach step')
      exact (List.mem_erase_of_ne fresh).mpr (inside c d (.head step reach) step')

theorem follow_eq_some_iff [DecidableEq α]
    (inside : ∀ b c, next b = some c → c ∈ after) (enough : after.length < count) :
    follow next count a = some t ↔ EndsIn next a t :=
  ⟨follow_sound, follow_complete (fun b c _ => inside b c) enough⟩

end LogicConduit.Chains
