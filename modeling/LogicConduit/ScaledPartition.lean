import Mathlib.Tactic.Ring

namespace ScaledPartition

def boundary (span n i : Nat) : Nat := span * i / n

variable {span n i j x : Nat} {quotient rest : Nat}

theorem boundary_last (span : Nat) (hn : 0 < n) : boundary span n n = span := Nat.mul_div_cancel _ hn

theorem boundary_mono (h : i ≤ j) : boundary span n i ≤ boundary span n j :=
  Nat.div_le_div_right (Nat.mul_le_mul_left span h)

theorem boundary_lt_succ (hn : 0 < n) (h : n ≤ span) (i : Nat) : boundary span n i < boundary span n (i + 1) := by
  have hstep : span * i / n + 1 = (span * i + n) / n := (Nat.add_div_right _ hn).symm
  have hle : (span * i + n) / n ≤ span * (i + 1) / n := Nat.div_le_div_right (by rw [Nat.mul_succ]; omega)
  unfold boundary
  omega

theorem boundary_lt (hn : 0 < n) (h : n ≤ span) (hij : i < j) : boundary span n i < boundary span n j :=
  (boundary_lt_succ hn h i).trans_le (boundary_mono hij)

theorem boundary_le_span (hn : 0 < n) (h : i ≤ n) : boundary span n i ≤ span :=
  (boundary_mono h).trans_eq (boundary_last span hn)

theorem boundary_eq (h : quotient * n + rest = span * i) (hr : rest < n) :
    quotient = boundary span n i := by
  rw [boundary, ← h, Nat.mul_comm, Nat.mul_add_div (by omega), Nat.div_eq_of_lt hr, Nat.add_zero]

/-- One boundary from the one before: the quotients add up, and the remainders carry one over when
together they reach `n`. -/
theorem boundary_step (h : quotient * n + rest = span * i) (hr : rest < n) :
    (n - span % n ≤ rest → (quotient + span / n + 1) * n + (rest - (n - span % n)) = span * (i + 1)) ∧
    (rest < n - span % n → (quotient + span / n) * n + (rest + span % n) = span * (i + 1)) := by
  have hspan : span / n * n + span % n = span := Nat.div_add_mod' span n
  have hrem : span % n < n := Nat.mod_lt _ (by omega)
  rw [Nat.add_mul, Nat.add_mul, Nat.one_mul, Nat.mul_succ]
  constructor <;> intro <;> omega

/-- Scaling a position down to a cell number reaches cell `i` behind the first position of the cell, and
on that position only where the multiple needed no rounding. -/
theorem le_scaled_iff (hs : 0 < span) (hn : 0 < n) :
    i ≤ x * n / span ↔ boundary span n i < x ∨ boundary span n i = x ∧ span * i % n = 0 := by
  have hmod : n * boundary span n i + span * i % n = span * i := Nat.div_add_mod _ _
  have hlt : span * i % n < n := Nat.mod_lt _ hn
  rw [Nat.le_div_iff_mul_le hs, Nat.mul_comm i span, Nat.mul_comm x n]
  rcases Nat.lt_trichotomy (boundary span n i) x with hbefore | hsame | hafter
  · have hle : n * (boundary span n i + 1) ≤ n * x := Nat.mul_le_mul_left n hbefore
    rw [Nat.mul_succ] at hle
    constructor
    · exact fun _ => Or.inl hbefore
    · omega
  · rw [hsame] at hmod ⊢
    constructor
    · exact fun h => Or.inr ⟨rfl, by omega⟩
    · rintro (h | ⟨-, h⟩) <;> omega
  · have hle : n * (x + 1) ≤ n * boundary span n i := Nat.mul_le_mul_left n hafter
    rw [Nat.mul_succ] at hle
    constructor
    · omega
    · rintro (h | ⟨h, -⟩) <;> omega

theorem scaled_lt (hn : 0 < n) (h : x < span) : x * n / span < n := by
  rw [Nat.div_lt_iff_lt_mul (by omega), Nat.mul_comm]
  exact Nat.mul_lt_mul_of_pos_left h hn

theorem scaled_mono {y : Nat} (h : x ≤ y) : x * n / span ≤ y * n / span :=
  Nat.div_le_div_right (Nat.mul_le_mul_right n h)

end ScaledPartition
