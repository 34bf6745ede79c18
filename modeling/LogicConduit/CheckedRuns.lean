import Mathlib.Algebra.Group.Nat.Defs
import Mathlib.Data.List.Forall2

namespace LogicConduit

theorem except_bind_ok {ε α β : Type} {x : Except ε α} {f : α → Except ε β} {result : β}
    (h : x >>= f = .ok result) : ∃ a, x = .ok a ∧ f a = .ok result := by
  cases x with
  | error e => cases h
  | ok a => exact ⟨a, rfl, h⟩

theorem mapM_ok {ε α β : Type} {f : α → Except ε β} {g : α → β} {l : List α} (h : ∀ a ∈ l, f a = .ok (g a)) :
    l.mapM f = .ok (l.map g) := by
  induction l with
  | nil => rfl
  | cons a l ih =>
    rw [List.mapM_cons, h a List.mem_cons_self, ih fun b hb => h b (List.mem_cons_of_mem a hb)]
    rfl

theorem forall₂_of_mapM_ok {ε α β : Type} {f : α → Except ε β} {l : List α} {m : List β} (h : l.mapM f = .ok m) :
    List.Forall₂ (fun a b => f a = .ok b) l m := by
  induction l generalizing m with
  | nil =>
    cases h
    exact .nil
  | cons a l ih =>
    rw [List.mapM_cons] at h
    cases ha : f a with
    | error e =>
      rw [ha] at h
      cases h
    | ok b =>
      cases hl : l.mapM f with
      | error e =>
        rw [ha, hl] at h
        cases h
      | ok bs =>
        rw [ha, hl] at h
        cases h
        exact .cons ha (ih hl)

theorem exists_left_of_forall₂ {α β : Type} {R : α → β → Prop} {l : List α} {m : List β} (h : List.Forall₂ R l m) {b : β}
    (hb : b ∈ m) : ∃ a ∈ l, R a b := by
  induction h with
  | nil => cases hb
  | cons hr _ ih =>
    rcases List.mem_cons.mp hb with rfl | hb
    · exact ⟨_, List.mem_cons_self, hr⟩
    · obtain ⟨a, ha, hab⟩ := ih hb
      exact ⟨a, List.mem_cons_of_mem _ ha, hab⟩

inductive Abort
  | overflow
  | divideByZero
  | outOfRange
  | invalidClamp
  | expectation
  /-- A loop has more rounds than it was given. -/
  | unfinished
  deriving DecidableEq

inductive Checked (ε : Type) (α : Type)
  | done (value : α)
  | failed (error : ε)
  | aborted (cause : Abort)
  deriving DecidableEq

namespace Checked

variable {ε α β : Type}

def andThen (run : Checked ε α) (next : α → Checked ε β) : Checked ε β :=
  match run with
  | done value => next value
  | failed error => failed error
  | aborted cause => aborted cause

instance : Monad (Checked ε) where
  pure := done
  bind := andThen

@[simp] theorem pure_eq (value : α) : (pure value : Checked ε α) = done value := rfl

@[simp] theorem done_bind (value : α) (next : α → Checked ε β) : (done value >>= next) = next value := rfl

def ofExcept : Except ε α → Checked ε α
  | .ok value => done value
  | .error error => failed error

@[simp] theorem ofExcept_ok (value : α) : (ofExcept (.ok value) : Checked ε α) = done value := rfl

theorem ofExcept_bind {result : Except ε α} {next : α → Checked ε β} {next' : α → Except ε β}
    (h : ∀ value, result = .ok value → next value = ofExcept (next' value)) :
    (ofExcept result >>= next) = ofExcept (result >>= next') := by
  cases result with
  | error error => rfl
  | ok value => exact h value rfl

theorem ofExcept_ite {condition : Prop} [Decidable condition] {whenTrue whenFalse : Checked ε α}
    {whenTrue' whenFalse' : Except ε α} (htrue : condition → whenTrue = ofExcept whenTrue')
    (hfalse : ¬condition → whenFalse = ofExcept whenFalse') :
    (if condition then whenTrue else whenFalse) = ofExcept (if condition then whenTrue' else whenFalse') := by
  split
  next h => exact htrue h
  next h => exact hfalse h

def ofOption (cause : Abort) : Option α → Checked ε α
  | some value => done value
  | none => aborted cause

def add (a b : Nat) : Checked ε Nat := if a + b < 2 ^ 64 then done (a + b) else aborted .overflow

def sub (a b : Nat) : Checked ε Nat := if b ≤ a then done (a - b) else aborted .overflow

def mul (a b : Nat) : Checked ε Nat := if a * b < 2 ^ 64 then done (a * b) else aborted .overflow

def div (a b : Nat) : Checked ε Nat := if b = 0 then aborted .divideByZero else done (a / b)

def rem (a b : Nat) : Checked ε Nat := if b = 0 then aborted .divideByZero else done (a % b)

def clamp (value low high : Nat) : Checked ε Nat :=
  if low ≤ high then done (max low (min value high)) else aborted .invalidClamp

/-- `value << count` of `width` bits, which drops what does not fit. -/
def shiftLeft (width value count : Nat) : Checked ε Nat :=
  if count < width then done ((value <<< count) % 2 ^ width) else aborted .overflow

def shiftOne (count : Nat) : Checked ε (BitVec 64) :=
  if count < 64 then done (1#64 <<< count) else aborted .overflow

def index (xs : List α) (i : Nat) : Checked ε α := ofOption .outOfRange xs[i]?

def slice (xs : List α) (start stop : Nat) : Checked ε (List α) :=
  if start ≤ stop ∧ stop ≤ xs.length then done ((xs.take stop).drop start) else aborted .outOfRange

def Returns (run : Checked ε α) (post : α → Prop) : Prop :=
  match run with
  | done value => post value
  | failed _ => True
  | aborted _ => False

variable {run : Checked ε α} {post : α → Prop}

theorem Returns.bind {next : α → Checked ε β} {post' : β → Prop} (h : run.Returns post)
    (hnext : ∀ value, post value → (next value).Returns post') : (run >>= next).Returns post' := by
  cases run with
  | done value => exact hnext value h
  | failed error => trivial
  | aborted cause => exact h.elim

theorem Returns.next {value : α} {next : α → Checked ε β} {post' : β → Prop} (h : run.Returns (· = value))
    (hnext : (next value).Returns post') : (run >>= next).Returns post' := by
  refine h.bind ?_
  rintro _ rfl
  exact hnext

theorem Returns.mono {post' : α → Prop} (h : run.Returns post) (hpost : ∀ value, post value → post' value) :
    run.Returns post' := by
  cases run with
  | done value => exact hpost value h
  | failed error => trivial
  | aborted cause => exact h.elim

theorem Returns.eq_done (h : run.Returns post) : run.Returns fun value => post value ∧ run = done value := by
  cases run with
  | done value => exact ⟨h, rfl⟩
  | failed error => trivial
  | aborted cause => exact h.elim

theorem returns_ite {condition : Prop} [Decidable condition] {whenTrue whenFalse : Checked ε α}
    (htrue : condition → whenTrue.Returns post) (hfalse : ¬condition → whenFalse.Returns post) :
    (if condition then whenTrue else whenFalse).Returns post := by
  split
  next h => exact htrue h
  next h => exact hfalse h

theorem ofExcept_returns (result : Except ε α) : (ofExcept result).Returns fun value => result = .ok value := by
  cases result with
  | error error => trivial
  | ok value => exact rfl

section Operations

variable {a b : Nat} {xs : List α}

theorem add_of_lt (h : a + b < 2 ^ 64) : (add a b : Checked ε Nat) = done (a + b) := if_pos h

theorem sub_of_le (h : b ≤ a) : (sub a b : Checked ε Nat) = done (a - b) := if_pos h

theorem mul_of_lt (h : a * b < 2 ^ 64) : (mul a b : Checked ε Nat) = done (a * b) := if_pos h

theorem div_of_pos (h : 0 < b) : (div a b : Checked ε Nat) = done (a / b) := if_neg (Nat.ne_of_gt h)

theorem rem_of_pos (h : 0 < b) : (rem a b : Checked ε Nat) = done (a % b) := if_neg (Nat.ne_of_gt h)

theorem shiftLeft_of_lt {width : Nat} (h : b < width) (hvalue : a < 2 ^ (width - b)) :
    (shiftLeft width a b : Checked ε Nat) = done (a <<< b) := by
  have hfit : a <<< b < 2 ^ width := by
    rw [Nat.shiftLeft_eq]
    calc a * 2 ^ b < 2 ^ (width - b) * 2 ^ b := Nat.mul_lt_mul_of_pos_right hvalue (Nat.two_pow_pos b)
      _ = 2 ^ width := by rw [← Nat.pow_add, Nat.sub_add_cancel (Nat.le_of_lt h)]
  rw [shiftLeft, if_pos h, Nat.mod_eq_of_lt hfit]

theorem index_of_lt (default : α) (h : a < xs.length) :
    (index xs a : Checked ε α) = done (xs.getD a default) := by
  rw [index, List.getD_eq_getElem?_getD, List.getElem?_eq_getElem h]
  rfl

theorem slice_of_le (hle : a ≤ b) (h : b ≤ xs.length) :
    (slice xs a b : Checked ε (List α)) = done ((xs.take b).drop a) := if_pos ⟨hle, h⟩

theorem clamp_of_mem {value : Nat} (hlow : a ≤ value) (hhigh : value ≤ b) :
    (clamp value a b : Checked ε Nat) = done value := by
  rw [clamp, if_pos (Nat.le_trans hlow hhigh), Nat.min_eq_left hhigh, Nat.max_eq_right hlow]

theorem add_returns (h : a + b < 2 ^ 64) : (add a b : Checked ε Nat).Returns (· = a + b) := by
  rw [add_of_lt h]
  exact rfl

theorem sub_returns (h : b ≤ a) : (sub a b : Checked ε Nat).Returns (· = a - b) := by
  rw [sub_of_le h]
  exact rfl

theorem mul_returns (h : a * b < 2 ^ 64) : (mul a b : Checked ε Nat).Returns (· = a * b) := by
  rw [mul_of_lt h]
  exact rfl

theorem div_returns (h : 0 < b) : (div a b : Checked ε Nat).Returns (· = a / b) := by
  rw [div_of_pos h]
  exact rfl

theorem rem_returns (h : 0 < b) : (rem a b : Checked ε Nat).Returns (· = a % b) := by
  rw [rem_of_pos h]
  exact rfl

theorem clamp_returns {value : Nat} (h : a ≤ b) :
    (clamp value a b : Checked ε Nat).Returns fun result => a ≤ result ∧ result ≤ b := by
  rw [clamp, if_pos h]
  show a ≤ max a (min value b) ∧ max a (min value b) ≤ b
  omega

theorem shiftOne_returns (h : a < 64) : (shiftOne a : Checked ε (BitVec 64)).Returns (· = 1#64 <<< a) := by
  rw [shiftOne, if_pos h]
  exact rfl

theorem index_returns (h : a < xs.length) : (index xs a : Checked ε α).Returns (· ∈ xs) := by
  rw [index, List.getElem?_eq_getElem h]
  exact List.getElem_mem h

theorem slice_returns (hle : a ≤ b) (h : b ≤ xs.length) :
    (slice xs a b : Checked ε (List α)).Returns (· = (xs.take b).drop a) := by
  rw [slice_of_le hle h]
  exact rfl

end Operations

end Checked

end LogicConduit
