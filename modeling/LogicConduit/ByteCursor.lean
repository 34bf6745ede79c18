import LogicConduit.ByteRegion
import LogicConduit.CheckedRuns

namespace LogicConduit

structure ByteCursor where
  bytes : Bytes
  cursor : Nat

abbrev CursorM (ε α : Type) := StateT ByteCursor (Except ε) α

namespace ByteCursor

def between (before rest : Bytes) : ByteCursor := ⟨before ++ rest, before.length⟩

end ByteCursor

namespace CursorM

open ByteCursor

variable {ε α β : Type}

def take (limit : Nat) (overflow truncated : ε) (length : Nat) : CursorM ε Bytes := fun r =>
  if limit ≤ r.cursor + length then .error overflow
  else
    match getRange r.bytes r.cursor (r.cursor + length) with
    | none => .error truncated
    | some value => .ok (value, { r with cursor := r.cursor + length })

def finish (trailing : ε) : CursorM ε Unit := fun r =>
  if r.cursor = r.bytes.length then .ok ((), r) else .error trailing

def times (p : CursorM ε α) : Nat → CursorM ε (List α)
  | 0 => pure []
  | count + 1 => do
    let a ← p
    let rest ← times p count
    pure (a :: rest)

def whole (p : CursorM ε α) (trailing : ε) (bytes : Bytes) : Except ε α :=
  StateT.run' (do
    let a ← p
    finish trailing
    pure a) ⟨bytes, 0⟩

/-- The step takes these bytes to this result, whatever stands around them. -/
def Reads (limit : Nat) (p : CursorM ε α) (bytes : Bytes) (result : Except ε α) : Prop :=
  ∀ before rest : Bytes, before.length + (bytes ++ rest).length < limit →
    p (between before (bytes ++ rest)) = result.map fun a => (a, between (before ++ bytes) rest)

/-- The step can answer so. -/
def Yields (p : CursorM ε α) (a : α) : Prop := ∃ before tail next, p (between before tail) = .ok (a, next)

/-- The step never ends in `fault`. -/
def Safe (fault : ε) (p : CursorM ε α) : Prop := ∀ before rest, p (between before rest) ≠ .error fault

/-- A safe step only reads on, and answers by what it reads alone. -/
structure Local (fault : ε) (p : CursorM ε α) : Prop where
  safe : Safe fault p
  reads : ∀ before tail a next, p (between before tail) = .ok (a, next) → ∃ bytes rest,
    tail = bytes ++ rest ∧ next = between (before ++ bytes) rest ∧
    ∀ rest', p (between before (bytes ++ rest')) = .ok (a, between (before ++ bytes) rest')

/-- The step answers only by reading bytes that stand so to its answer. -/
def Parses (p : CursorM ε α) (written : α → Bytes → Prop) : Prop :=
  ∀ before tail a next, p (between before tail) = .ok (a, next) → ∃ bytes rest,
    tail = bytes ++ rest ∧ next = between (before ++ bytes) rest ∧ written a bytes

section Reads

variable {limit : Nat} {p : CursorM ε α} {q : α → CursorM ε β} {bytes bytes' : Bytes}

theorem Reads.pure (a : α) : Reads limit (Pure.pure a : CursorM ε α) [] (.ok a) := by
  intro before rest _
  rw [List.append_nil]
  rfl

theorem Reads.bind {first : Except ε α} {second : α → Except ε β} (here : Reads limit p bytes first)
    (there : ∀ a, first = .ok a → Reads limit (q a) bytes' (second a)) :
    Reads limit (p >>= q) (bytes ++ bytes') (first.bind second) := by
  intro before rest room
  rw [List.append_assoc] at room ⊢
  have step := here before (bytes' ++ rest) room
  cases first with
  | error e =>
    show (p _ >>= fun x => q x.1 x.2) = _
    rw [step]
    rfl
  | ok a =>
    show (p _ >>= fun x => q x.1 x.2) = _
    rw [step]
    have next := there a rfl (before ++ bytes) rest (by simp only [List.length_append] at room ⊢; omega)
    rw [← List.append_assoc]
    exact next

theorem Reads.bind_ok {a : α} {second : Except ε β} (here : Reads limit p bytes (.ok a))
    (there : Reads limit (q a) bytes' second) : Reads limit (p >>= q) (bytes ++ bytes') second := by
  refine @Reads.bind _ _ _ _ _ _ _ _ (.ok a) (fun _ => second) here fun b same => ?_
  cases same
  exact there

theorem Reads.nil_bind {a : α} {second : Except ε β} (here : Reads limit p [] (.ok a))
    (there : Reads limit (q a) bytes second) : Reads limit (p >>= q) bytes second :=
  here.bind_ok there

theorem Reads.bind_nil {a : α} {second : Except ε β} (here : Reads limit p bytes (.ok a))
    (there : Reads limit (q a) [] second) : Reads limit (p >>= q) bytes second := by
  rw [← List.append_nil bytes]
  exact here.bind_ok there

theorem Reads.congr {result : Except ε α} (here : Reads limit p bytes result) (same : bytes = bytes') :
    Reads limit p bytes' result := by
  rw [← same]
  exact here

theorem Reads.times {γ : Type} (encode : γ → Bytes) (result : γ → Except ε α) (values : List γ)
    (each : ∀ x ∈ values, Reads limit p (encode x) (result x)) :
    Reads limit (times p values.length) (values.flatMap encode) (values.mapM result) := by
  induction values with
  | nil => exact Reads.pure []
  | cons x values ih =>
    rw [List.mapM_cons, List.flatMap_cons]
    refine (each x List.mem_cons_self).bind fun a _ => ?_
    have rest := ih fun y inside => each y (List.mem_cons_of_mem x inside)
    rw [← List.append_nil (values.flatMap encode)]
    exact rest.bind fun _ _ => Reads.pure _

theorem Reads.bind_error {error : ε} (here : Reads limit p bytes (.error error)) :
    Reads limit (p >>= q) bytes (.error error) := by
  have both := @Reads.bind _ _ _ _ _ q bytes [] (.error error) (fun _ => .error error) here nofun
  rwa [List.append_nil] at both

theorem Reads.append_error {error : ε} (here : Reads limit p bytes (.error error)) (behind : Bytes) :
    Reads limit p (bytes ++ behind) (.error error) := by
  intro before rest room
  rw [List.append_assoc] at room ⊢
  exact here before (behind ++ rest) room

/-- A list is read up to the first element that is refused. -/
theorem Reads.times_error {γ : Type} (encode : γ → Bytes) {error : ε} (values : List γ)
    (each : ∀ x ∈ values, ∃ a, Reads limit p (encode x) (.ok a)) (here : Reads limit p bytes (.error error))
    {count : Nat} (more : values.length < count) :
    Reads limit (CursorM.times p count) (values.flatMap encode ++ bytes) (.error error) := by
  induction values generalizing count with
  | nil =>
    obtain ⟨count, rfl⟩ := Nat.exists_eq_succ_of_ne_zero (show count ≠ 0 by omega)
    exact here.bind_error
  | cons x values ih =>
    rw [List.length_cons] at more
    obtain ⟨count, rfl⟩ := Nat.exists_eq_succ_of_ne_zero (show count ≠ 0 by omega)
    obtain ⟨a, first⟩ := each x List.mem_cons_self
    rw [List.flatMap_cons, List.append_assoc]
    exact first.bind_ok (ih (fun y inside => each y (List.mem_cons_of_mem x inside)) (by omega)).bind_error

theorem Reads.take {overflow truncated : ε} {value : Bytes} :
    Reads limit (take limit overflow truncated value.length) value (.ok value) := by
  intro before rest room
  rw [List.length_append] at room
  unfold CursorM.take
  have inside : before.length + value.length ≤ (before ++ (value ++ rest)).length := by simp
  have slice : getRange (before ++ (value ++ rest)) before.length (before.length + value.length) = some value := by
    rw [getRange, if_pos ⟨by omega, inside⟩, List.drop_left, Nat.add_sub_cancel_left, List.take_left]
  show (if limit ≤ before.length + value.length then _ else _) = _
  rw [if_neg (by omega)]
  simp only [between, slice]
  show Except.ok _ = Except.ok _
  simp

theorem whole_eq (p : CursorM ε α) (trailing : ε) (bytes : Bytes) :
    whole p trailing bytes =
      (p (between [] bytes)).bind fun x => if x.2.cursor = x.2.bytes.length then .ok x.1 else .error trailing := by
  show Except.map Prod.fst (p (between [] bytes) >>= fun x => (do
    finish trailing
    Pure.pure x.1 : CursorM ε α) x.2) = _
  cases p (between [] bytes) with
  | error e => rfl
  | ok x =>
    show Except.map Prod.fst (finish trailing x.2 >>= fun y => Except.ok (x.1, y.2)) =
      if x.2.cursor = x.2.bytes.length then .ok x.1 else .error trailing
    unfold finish
    split <;> rfl

theorem Reads.whole {result : Except ε α} {trailing : ε} (reads : Reads limit p bytes result)
    (room : bytes.length < limit) : whole p trailing bytes = result := by
  have step := reads [] [] (by simpa using room)
  rw [List.append_nil, List.nil_append] at step
  rw [whole_eq, step]
  cases result with
  | error e => rfl
  | ok a => exact if_pos (by simp [between])

end Reads

section Local

variable {fault : ε} {p : CursorM ε α} {q : α → CursorM ε β}

theorem Local.pure (a : α) : Local fault (Pure.pure a : CursorM ε α) := by
  refine ⟨nofun, fun before tail b next run => ?_⟩
  cases run
  exact ⟨[], tail, rfl, by rw [List.append_nil], fun rest => by rw [List.append_nil]; rfl⟩

theorem Local.throw {error : ε} (other : error ≠ fault) : Local fault (throw error : CursorM ε α) :=
  ⟨fun _ _ same => other (Except.error.inj same), nofun⟩

theorem Local.bind_safe (here : Local fault p) (there : ∀ a, Yields p a → Safe fault (q a)) : Safe fault (p >>= q) := by
  intro before tail failed
  have failed : (p (between before tail) >>= fun x => q x.1 x.2) = .error fault := failed
  cases step : p (between before tail) with
  | error e =>
    rw [step] at failed
    cases failed
    exact here.safe before tail step
  | ok x =>
    obtain ⟨a, middle⟩ := x
    obtain ⟨bytes, rest, rfl, rfl, -⟩ := here.reads before tail a middle step
    rw [step] at failed
    exact there a ⟨before, _, _, step⟩ (before ++ bytes) rest failed

theorem Local.bind (here : Local fault p) (there : ∀ a, Yields p a → Local fault (q a)) : Local fault (p >>= q) := by
  refine ⟨here.bind_safe fun a answer => (there a answer).safe, fun before tail b next run => ?_⟩
  have run : (p (between before tail) >>= fun x => q x.1 x.2) = .ok (b, next) := run
  cases step : p (between before tail) with
  | error e =>
    rw [step] at run
    cases run
  | ok x =>
    obtain ⟨a, middle⟩ := x
    rw [step] at run
    obtain ⟨bytes, rest, rfl, rfl, again⟩ := here.reads before tail a middle step
    obtain ⟨bytes', rest', rfl, rfl, again'⟩ :=
      (there a ⟨before, _, _, step⟩).reads (before ++ bytes) rest b next run
    refine ⟨bytes ++ bytes', rest', (List.append_assoc ..).symm, by rw [List.append_assoc], fun other => ?_⟩
    show (p _ >>= fun x => q x.1 x.2) = _
    rw [List.append_assoc, again (bytes' ++ other), ← List.append_assoc]
    exact again' other

theorem Local.times (each : Local fault p) (count : Nat) : Local fault (times p count) := by
  induction count with
  | zero => exact Local.pure []
  | succ count ih => exact each.bind fun _ _ => ih.bind fun _ _ => Local.pure _

theorem take_ok {limit length : Nat} {overflow truncated : ε} {before tail value : Bytes} {next : ByteCursor}
    (run : CursorM.take limit overflow truncated length (between before tail) = .ok (value, next)) :
    before.length + length < limit ∧ value.length = length ∧
      ∃ rest, tail = value ++ rest ∧ next = between (before ++ value) rest := by
  unfold CursorM.take at run
  split at run
  · cases run
  next fits =>
    split at run
    · cases run
    next slice =>
      cases run
      have slice : getRange (before ++ tail) before.length (before.length + length) = some value := slice
      have fits : ¬ limit ≤ before.length + length := fits
      unfold getRange at slice
      split at slice
      next bounds =>
        rw [List.drop_left, Nat.add_sub_cancel_left] at slice
        have long : length ≤ tail.length := by
          have := bounds.2
          rw [List.length_append] at this
          omega
        cases slice
        have count : (tail.take length).length = length := List.length_take_of_le long
        refine ⟨by omega, count, tail.drop length, (List.take_append_drop length tail).symm, ?_⟩
        simp [between, count]
      · cases slice

theorem Local.take {limit : Nat} {overflow truncated : ε} (wide : overflow ≠ fault) (short : truncated ≠ fault)
    (length : Nat) : Local fault (take limit overflow truncated length) := by
  refine ⟨fun before tail failed => ?_, fun before tail a next run => ?_⟩
  · unfold CursorM.take at failed
    split at failed
    · exact wide (Except.error.inj failed)
    · split at failed
      · exact short (Except.error.inj failed)
      · cases failed
  · obtain ⟨fits, count, rest, rfl, rfl⟩ := take_ok run
    refine ⟨a, rest, rfl, rfl, fun rest' => ?_⟩
    subst count
    unfold CursorM.take
    have within : getRange (before ++ (a ++ rest')) before.length (before.length + a.length) = some a := by
      rw [getRange, if_pos ⟨by omega, by simp⟩, List.drop_left, Nat.add_sub_cancel_left, List.take_left]
    show (if limit ≤ before.length + a.length then _ else _) = _
    rw [if_neg (by omega)]
    simp only [between, within]
    show Except.ok _ = Except.ok _
    simp

theorem Yields.take_length {limit length : Nat} {overflow truncated : ε} {value : Bytes}
    (answer : Yields (CursorM.take limit overflow truncated length) value) : value.length = length := by
  obtain ⟨before, tail, next, run⟩ := answer
  exact (take_ok run).2.1

variable {trailing : ε} {bytes : Bytes}

theorem Safe.whole (step : Safe fault p) (other : trailing ≠ fault) :
    CursorM.whole p trailing bytes ≠ .error fault := by
  rw [whole_eq]
  intro failed
  cases run : p (between [] bytes) with
  | error e =>
    rw [run] at failed
    cases failed
    exact step [] bytes run
  | ok x =>
    rw [run] at failed
    have failed : (if x.2.cursor = x.2.bytes.length then Except.ok x.1 else .error trailing) =
        .error fault := failed
    split at failed
    · cases failed
    · exact other (Except.error.inj failed)

theorem Local.whole_append {a : α} (step : Local fault p) (accepted : whole p trailing bytes = .ok a)
    {extra : Bytes} (more : extra ≠ []) : whole p trailing (bytes ++ extra) = .error trailing := by
  rw [whole_eq] at accepted ⊢
  cases run : p (between [] bytes) with
  | error e =>
    rw [run] at accepted
    cases accepted
  | ok x =>
    obtain ⟨b, next⟩ := x
    rw [run] at accepted
    obtain ⟨read, rest, rfl, rfl, again⟩ := step.reads [] bytes b next run
    have accepted : (if (between ([] ++ read) rest).cursor = (between ([] ++ read) rest).bytes.length then
        Except.ok b else .error trailing) = .ok a := accepted
    split at accepted
    next ended =>
      have none : rest = [] := by simpa [between] using ended
      rw [none, List.append_nil, again extra]
      exact if_neg (by simp [between, more])
    · cases accepted

theorem Local.whole_prefix {a b : α} (step : Local fault p) (accepted : whole p trailing bytes = .ok a)
    {cut : Bytes} (front : cut <+: bytes) (proper : cut ≠ bytes) : whole p trailing cut ≠ .ok b := by
  intro early
  obtain ⟨extra, rfl⟩ := front
  have more : extra ≠ [] := by
    rintro rfl
    exact proper (List.append_nil cut).symm
  rw [step.whole_append early more] at accepted
  cases accepted

end Local

section Parses

variable {fault : ε} {p : CursorM ε α} {q : α → CursorM ε β} {written : α → Bytes → Prop}

theorem Parses.pure {a : α} (same : written a []) : Parses (Pure.pure a : CursorM ε α) written := by
  intro before tail b next run
  cases run
  exact ⟨[], tail, rfl, by rw [List.append_nil], same⟩

theorem Parses.throw {error : ε} : Parses (throw error : CursorM ε α) written := nofun

theorem Parses.take {limit length : Nat} {overflow truncated : ε} :
    Parses (take limit overflow truncated length) fun value bytes => bytes = value ∧ value.length = length := by
  intro before tail value next run
  obtain ⟨-, count, rest, rfl, rfl⟩ := take_ok run
  exact ⟨value, rest, rfl, rfl, rfl, count⟩

theorem Parses.bind {written' : β → Bytes → Prop} (here : Parses p written)
    (there : ∀ a first, written a first → Parses (q a) fun b second => written' b (first ++ second)) :
    Parses (p >>= q) written' := by
  intro before tail b next run
  have run : (p (between before tail) >>= fun x => q x.1 x.2) = .ok (b, next) := run
  cases step : p (between before tail) with
  | error e =>
    rw [step] at run
    cases run
  | ok x =>
    rw [step] at run
    have later : q x.1 x.2 = .ok (b, next) := run
    obtain ⟨bytes, rest, rfl, middle, first⟩ := here before tail x.1 x.2 step
    rw [middle] at later
    obtain ⟨bytes', rest', rfl, rfl, second⟩ := there x.1 bytes first (before ++ bytes) rest b next later
    exact ⟨bytes ++ bytes', rest', (List.append_assoc ..).symm, by rw [List.append_assoc], second⟩

variable {before tail : Bytes}

/-- What ends in a fault behind a safe step, ends so behind its answer. -/
theorem Parses.bind_fault (here : Parses p written) (safe : Safe fault p)
    (failed : (p >>= q) (between before tail) = .error fault) :
    ∃ a bytes rest, tail = bytes ++ rest ∧ written a bytes ∧ q a (between (before ++ bytes) rest) = .error fault := by
  have failed : (p (between before tail) >>= fun x => q x.1 x.2) = .error fault := failed
  cases step : p (between before tail) with
  | error e =>
    rw [step] at failed
    cases failed
    exact absurd step (safe before tail)
  | ok x =>
    rw [step] at failed
    have later : q x.1 x.2 = .error fault := failed
    obtain ⟨bytes, rest, rfl, middle, same⟩ := here before tail x.1 x.2 step
    rw [middle] at later
    exact ⟨x.1, bytes, rest, rfl, same, later⟩

theorem Parses.times_fault {γ : Type} {encode : γ → Bytes} {accepted : γ → Prop} {count : Nat}
    (each : Parses p fun _ bytes => ∃ x, bytes = encode x ∧ accepted x)
    (failed : times p count (between before tail) = .error fault) :
    ∃ (values : List γ) (rest before' : Bytes), tail = values.flatMap encode ++ rest ∧ values.length < count ∧
      (∀ x ∈ values, accepted x) ∧ p (between before' rest) = .error fault := by
  induction count generalizing before tail with
  | zero => cases failed
  | succ count ih =>
    have failed : (p (between before tail) >>= fun x => (times p count >>= fun rest => Pure.pure (x.1 :: rest)) x.2) =
      .error fault := failed
    cases step : p (between before tail) with
    | error e =>
      rw [step] at failed
      cases failed
      exact ⟨[], tail, before, rfl, Nat.succ_pos count, nofun, step⟩
    | ok x =>
      rw [step] at failed
      have failed : (times p count x.2 >>= fun y => Except.ok (x.1 :: y.1, y.2)) = .error fault := failed
      have later : times p count x.2 = .error fault := by
        cases again : times p count x.2 with
        | error e =>
          rw [again] at failed
          cases failed
          rfl
        | ok y =>
          rw [again] at failed
          cases failed
      obtain ⟨_, rest, rfl, middle, value, rfl, good⟩ := each before tail x.1 x.2 step
      rw [middle] at later
      obtain ⟨values, rest', before', rfl, more, all, last⟩ := ih later
      refine ⟨value :: values, rest', before', by rw [List.flatMap_cons, List.append_assoc], by simpa using more,
        fun y inside => ?_, last⟩
      rcases List.mem_cons.mp inside with rfl | inside
      · exact good
      · exact all y inside

theorem whole_fault {trailing : ε} {bytes : Bytes} (other : trailing ≠ fault) :
    whole p trailing bytes = .error fault ↔ p (between [] bytes) = .error fault := by
  rw [whole_eq]
  cases run : p (between [] bytes) with
  | error e =>
    exact ⟨fun failed => congrArg Except.error (Except.error.inj failed),
      fun failed => congrArg Except.error (Except.error.inj failed)⟩
  | ok x =>
    refine iff_of_false (fun failed => ?_) nofun
    have failed : (if x.2.cursor = x.2.bytes.length then Except.ok x.1 else .error trailing) = .error fault := failed
    split at failed
    · cases failed
    · exact other (Except.error.inj failed)

end Parses

end CursorM

end LogicConduit
