import Mathlib.Data.List.Basic

namespace LogicConduit

def Prog (σ ε α : Type) : Type := σ → Except ε α × σ

namespace Prog

variable {σ ε α β : Type} {f : α → Prog σ ε β} {result : Except ε α × σ}

protected def pure (a : α) : Prog σ ε α := fun s => (.ok a, s)

protected def bind (m : Prog σ ε α) (f : α → Prog σ ε β) : Prog σ ε β := fun s =>
  match m s with
  | (.ok a, s) => f a s
  | (.error e, s) => (.error e, s)

instance : Monad (Prog σ ε) where
  pure := Prog.pure
  bind := Prog.bind

def fail (e : ε) : Prog σ ε α := fun s => (.error e, s)

def get : Prog σ ε σ := fun s => (.ok s, s)

def modify (f : σ → σ) : Prog σ ε Unit := fun s => (.ok (), f s)

/-- Runs `handler` on a failure of `m`, which stays a failure. -/
def onError (m : Prog σ ε α) (handler : ε → σ → σ) : Prog σ ε α := fun s =>
  match m s with
  | (.ok a, s) => (.ok a, s)
  | (.error e, s) => (.error e, handler e s)

/-- `while cond { body }`, given up with `stuck` after `fuel` rounds. -/
def whileLoop (stuck : ε) (cond : σ → Bool) (body : Prog σ ε Unit) : Nat → Prog σ ε Unit
  | 0 => fail stuck
  | fuel + 1 => fun s =>
    if cond s then Prog.bind body (fun _ => whileLoop stuck cond body fuel) s else (.ok (), s)

theorem bind_of_ok {m : Prog σ ε α} {s s' : σ} {a : α} (h : m s = (.ok a, s')) :
    (m >>= f) s = f a s' := by
  show Prog.bind m f s = f a s'
  rw [Prog.bind, h]

theorem bind_of_error {m : Prog σ ε α} {s s' : σ} {e : ε} (h : m s = (.error e, s')) :
    (m >>= f) s = (.error e, s') := by
  show Prog.bind m f s = (.error e, s')
  rw [Prog.bind, h]

def Outcome (post : α → σ → Prop) (failed : ε → σ → Prop) : Except ε α × σ → Prop
  | (.ok a, s) => post a s
  | (.error e, s) => failed e s

/-- Started where `pre` holds, the program succeeds with `post` or fails with `failed`. -/
def Triple (pre : σ → Prop) (m : Prog σ ε α) (post : α → σ → Prop) (failed : ε → σ → Prop) : Prop :=
  ∀ s, pre s → Outcome post failed (m s)

theorem Outcome.ok {post : α → σ → Prop} {failed : ε → σ → Prop} {a : α}
    {s : σ} (h : Outcome post failed result) (hr : result = (.ok a, s)) : post a s := by
  rw [hr] at h
  exact h

theorem Outcome.weaken {post post' : α → σ → Prop} {failed failed' : ε → σ → Prop}
    (h : Outcome post failed result) (hq : ∀ a s, post a s → post' a s)
    (he : ∀ e s, failed e s → failed' e s) : Outcome post' failed' result := by
  obtain ⟨_ | _, s⟩ := result
  · exact he _ _ h
  · exact hq _ _ h

theorem Outcome.mono {post post' : α → σ → Prop} {failed : ε → σ → Prop}
    (h : Outcome post failed result) (hq : ∀ a s, post a s → post' a s) : Outcome post' failed result :=
  h.weaken hq (fun _ _ hf => hf)

section Rules

variable {pre : σ → Prop} {m : Prog σ ε α} {post : α → σ → Prop} {failed : ε → σ → Prop} {mid : α → σ → Prop}

theorem triple_pure {a : α} (h : ∀ s, pre s → post a s) : Triple pre (pure a : Prog σ ε α) post failed :=
  fun s hp => h s hp

theorem triple_fail {e : ε} (h : ∀ s, pre s → failed e s) : Triple pre (fail e : Prog σ ε α) post failed :=
  fun s hp => h s hp

theorem triple_modify {f : σ → σ} {post : Unit → σ → Prop} (h : ∀ s, pre s → post () (f s)) :
    Triple pre (modify f : Prog σ ε Unit) post failed :=
  fun s hp => h s hp

/-- Reading the state tells the rest of the program where it started. -/
theorem triple_get_bind {f : σ → Prog σ ε β} {post : β → σ → Prop}
    (h : ∀ s, pre s → Outcome post failed (f s s)) : Triple pre (get >>= f) post failed :=
  fun s hp => h s hp

theorem Outcome.bind {post : β → σ → Prop} {s : σ}
    (hm : Outcome mid failed (m s)) (hf : ∀ a, Triple (mid a) (f a) post failed) :
    Outcome post failed ((m >>= f) s) := by
  cases hs : m s with
  | mk result s' =>
    rw [hs] at hm
    cases result with
    | ok a =>
      rw [bind_of_ok hs]
      exact hf a s' hm
    | error e =>
      rw [bind_of_error hs]
      exact hm

theorem Triple.bind {post : β → σ → Prop}
    (hm : Triple pre m mid failed) (hf : ∀ a, Triple (mid a) (f a) post failed) :
    Triple pre (m >>= f) post failed :=
  fun s hp => (hm s hp).bind hf

section

variable (h : Triple pre m post failed)
include h

variable {pre' : σ → Prop} {failed' : ε → σ → Prop}

theorem Triple.weaken {post' : α → σ → Prop} (hp : ∀ s, pre' s → pre s) (hq : ∀ a s, post a s → post' a s)
    (he : ∀ e s, failed e s → failed' e s) : Triple pre' m post' failed' :=
  fun s hs => (h s (hp s hs)).weaken hq he

theorem Triple.mono_pre (hp : ∀ s, pre' s → pre s) : Triple pre' m post failed :=
  fun s hs => h s (hp s hs)

theorem Triple.onError {handler : ε → σ → σ} (he : ∀ e s, failed e s → failed' e (handler e s)) :
    Triple pre (m.onError handler) post failed' := by
  intro s hp
  have ho := h s hp
  unfold Prog.onError
  cases hs : m s with
  | mk result s' =>
    rw [hs] at ho
    cases result with
    | ok a => exact ho
    | error e => exact he e s' ho

end

/-- A loop whose rounds keep `inv` and bring `measure` down ends within more rounds than `measure`
says, with its condition false. -/
theorem triple_while {stuck : ε} {cond : σ → Bool} {body : Prog σ ε Unit} {inv : σ → Prop}
    {measure : σ → Nat}
    (hbody : ∀ n, Triple (fun s => inv s ∧ cond s = true ∧ measure s = n) body
      (fun _ s => inv s ∧ measure s < n) failed) (fuel : Nat) :
    Triple (fun s => inv s ∧ measure s < fuel) (whileLoop stuck cond body fuel)
      (fun _ s => inv s ∧ cond s = false) failed := by
  induction fuel with
  | zero => exact fun s hs => absurd hs.2 (Nat.not_lt_zero _)
  | succ fuel ih =>
    rintro s ⟨hi, hm⟩
    unfold whileLoop
    by_cases hc : cond s = true
    · rw [if_pos hc]
      have hb := hbody (measure s) s ⟨hi, hc, rfl⟩
      refine Outcome.bind hb fun _ => ?_
      exact ih.weaken (fun s' hs' => ⟨hs'.1, by omega⟩) (fun _ _ h => h) (fun _ _ h => h)
    · rw [if_neg hc]
      exact ⟨hi, by simpa using hc⟩

end Rules

/-- Where the program ends, whether or not it succeeds, is related to where it started. -/
def Moves (step : σ → σ → Prop) (m : Prog σ ε α) : Prop := ∀ s, step s (m s).2

section Frame

variable {step : σ → σ → Prop} [IsPreorder σ step] {m : Prog σ ε α}

theorem moves_pure (a : α) : Moves step (pure a : Prog σ ε α) := fun s => refl_of step s

theorem moves_fail (e : ε) : Moves step (fail e : Prog σ ε α) := fun s => refl_of step s

theorem moves_get : Moves step (get : Prog σ ε σ) := fun s => refl_of step s

theorem Moves.bind {next : α → Prog σ ε β} (hm : Moves step m) (hn : ∀ a, Moves step (next a)) :
    Moves step (m >>= next) := by
  intro s
  have hs := hm s
  cases hr : m s with
  | mk result s' =>
    rw [hr] at hs
    cases result with
    | ok a =>
      rw [bind_of_ok hr]
      exact trans_of step hs (hn a s')
    | error e =>
      rw [bind_of_error hr]
      exact hs

theorem moves_while {stuck : ε} {cond : σ → Bool} {body : Prog σ ε Unit} (hb : Moves step body) (fuel : Nat) :
    Moves step (whileLoop stuck cond body fuel) := by
  induction fuel with
  | zero => exact moves_fail stuck
  | succ fuel ih =>
    intro s
    unfold whileLoop
    by_cases hc : cond s = true
    · rw [if_pos hc]
      exact Moves.bind hb (fun _ => ih) s
    · rw [if_neg hc]
      exact refl_of step s

theorem Moves.onError {handler : ε → σ → σ} (hm : Moves step m) (he : ∀ e s, step s (handler e s)) :
    Moves step (m.onError handler) := by
  intro s
  have hs := hm s
  unfold Prog.onError
  cases hr : m s with
  | mk result s' =>
    rw [hr] at hs
    cases result with
    | ok a => exact hs
    | error e => exact trans_of step hs (he e s')

omit [IsPreorder σ step] in
theorem moves_modify {g : σ → σ} (h : ∀ s, step s (g s)) : Moves step (modify g : Prog σ ε Unit) := h

omit [IsPreorder σ step] in
theorem moves_ite {c : Prop} [Decidable c] {other : Prog σ ε α} (hm : Moves step m) (ho : Moves step other) :
    Moves step (if c then m else other) := by
  by_cases h : c
  · rw [if_pos h]
    exact hm
  · rw [if_neg h]
    exact ho

theorem Triple.frame {pre : σ → Prop} {post : α → σ → Prop} {failed : ε → σ → Prop}
    (h : Triple pre m post failed) (hk : Moves step m) (start : σ) :
    Triple (fun s => pre s ∧ step start s) m (fun a s => post a s ∧ step start s) failed := by
  intro s hs
  have ho := h s hs.1
  have hf := hk s
  cases hr : m s with
  | mk result s' =>
    rw [hr] at ho hf
    cases result with
    | ok a => exact ⟨ho, trans_of step hs.2 hf⟩
    | error e => exact ho

end Frame

end Prog

end LogicConduit
