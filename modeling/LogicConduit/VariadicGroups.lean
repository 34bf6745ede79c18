import LogicConduit.GraphDocument

namespace LogicConduit.Document

def Socket.bare (socket : Socket) : Socket := { socket with resolvedType := none }

def Outside (defIndex : Nat) (sockets : List Socket) : Prop := ∀ s ∈ sockets, s.defIndex ≠ defIndex

def Members (defIndex : Nat) (base : String) (max : Nat) (members : List Socket) : Prop :=
  ∀ m ∈ members, m.defIndex = defIndex ∧ m.variadic = some ⟨base, max, false⟩

/-- Members carry their numbers, from `first + 1` on. -/
def Numbered (base : String) (first : Nat) (members : List Socket) : Prop :=
  ∀ j m, members[j]? = some m → m.name = memberName base (first + j + 1)

/-- A placeholder stands after the members exactly while the group is below its maximum. -/
structure Run (defIndex : Nat) (base : String) (max : Nat) (members tail : List Socket) : Prop where
  positive : 1 ≤ max
  uniform : Members defIndex base max members
  numbered : Numbered base 0 members
  last : (members.length < max ∧ ∃ p : Socket, tail = [p] ∧ p.defIndex = defIndex ∧
    p.variadic = some ⟨base, max, true⟩) ∨ (members.length = max ∧ tail = [])

inductive Segment : List Socket → Prop
  | plain {s : Socket} : s.variadic = none → Segment [s]
  | group {defIndex : Nat} {base : String} {max : Nat} {members tail : List Socket} :
    Run defIndex base max members tail → Segment (members ++ tail)

/-- A group shares its definition with nothing else. -/
def Apart (a b : List Socket) : Prop :=
  ∀ s ∈ a, ∀ t ∈ b, s.variadic ≠ none ∨ t.variadic ≠ none → s.defIndex ≠ t.defIndex

def Grouped (inputs : List Socket) : Prop :=
  ∃ segments : List (List Socket), inputs = segments.flatten ∧ (∀ s ∈ segments, Segment s) ∧
    segments.Pairwise Apart

def HasGroup (inputs : List Socket) (defIndex : Nat) (base : String) (max : Nat) : Prop :=
  ∃ s ∈ inputs, s.defIndex = defIndex ∧ ∃ placeholder, s.variadic = some ⟨base, max, placeholder⟩

def SameGroups (l l' : List Socket) : Prop := ∀ d base max, HasGroup l' d base max ↔ HasGroup l d base max

structure Regrouped (l l' : List Socket) : Prop where
  grouped : Grouped l'
  same : SameGroups l l'

variable {s : Socket}

section Scans

variable {d : Nat} {base : String} {max : Nat} {a b members : List Socket} {n : Nat}

@[simp] theorem isMemberOf_iff :
    isMemberOf d s = true ↔ s.defIndex = d ∧ s.isVariadicMember = true := by
  simp [isMemberOf]

@[simp] theorem isPlaceholderOf_iff :
    isPlaceholderOf d s = true ↔ s.defIndex = d ∧ s.isVariadicPlaceholder = true := by
  simp [isPlaceholderOf]

theorem Outside.append (ha : Outside d a) (hb : Outside d b) : Outside d (a ++ b) := by
  intro s inside
  rcases List.mem_append.mp inside with inside | inside
  · exact ha s inside
  · exact hb s inside

theorem Members.isMember {m : Socket} (h : Members d base max members) (inside : m ∈ members) :
    isMemberOf d m = true := by
  rw [isMemberOf_iff, Socket.isVariadicMember, (h m inside).2]
  exact ⟨(h m inside).1, rfl⟩

theorem Members.append (ha : Members d base max a) (hb : Members d base max b) :
    Members d base max (a ++ b) := by
  intro m inside
  rcases List.mem_append.mp inside with inside | inside
  · exact ha m inside
  · exact hb m inside

theorem Members.sublist (h : Members d base max b) (sub : a.Sublist b) : Members d base max a :=
  fun m inside => h m (sub.subset inside)

theorem countP_outside (p : Socket → Bool) (h : Outside d a)
    (only : ∀ s, p s = true → s.defIndex = d) : a.countP p = 0 := by
  rw [List.countP_eq_zero]
  exact fun s inside hit => h s inside (only s hit)

theorem Members.countP (h : Members d base max members) :
    members.countP (isMemberOf d) = members.length :=
  List.countP_eq_length.mpr fun _ inside => h.isMember inside

theorem lastIdx_append {α : Type*} (p : α → Bool) (l m : List α) :
    lastIdx p (l ++ m) = ((lastIdx p m).map (l.length + ·)).or (lastIdx p l) := by
  induction l with
  | nil => cases h : lastIdx p m <;> simp [lastIdx, h]
  | cons a l ih =>
    simp only [List.cons_append, lastIdx, ih, List.length_cons]
    cases lastIdx p m with
    | none => simp
    | some index => simp; omega

theorem lastIdx_map {α β : Type*} (p : β → Bool) (f : α → β) (l : List α) :
    lastIdx p (l.map f) = lastIdx (fun a => p (f a)) l := by
  induction l with
  | nil => rfl
  | cons a l ih => rw [List.map_cons, lastIdx, lastIdx, ih]

theorem lastIdx_none {α : Type*} {p : α → Bool} {l : List α} (h : ∀ x ∈ l, p x = false) :
    lastIdx p l = none := by
  induction l with
  | nil => rfl
  | cons a l ih =>
    simp [lastIdx, ih fun x inside => h x (List.mem_cons_of_mem _ inside), h a List.mem_cons_self]

theorem lastIdx_all {α : Type*} {p : α → Bool} {l : List α} (h : ∀ x ∈ l, p x = true)
    (some' : l ≠ []) : lastIdx p l = some (l.length - 1) := by
  induction l with
  | nil => exact absurd rfl some'
  | cons a l ih =>
    cases l with
    | nil => simp [lastIdx, h a]
    | cons b l =>
      rw [lastIdx, ih (fun x inside => h x (List.mem_cons_of_mem _ inside)) (by simp)]
      simp

theorem renumberMembers_outside (h : Outside d a) :
    renumberMembers d base n (a ++ b) = a ++ renumberMembers d base n b := by
  induction a with
  | nil => rfl
  | cons s a ih =>
    have other : isMemberOf d s = false := by
      rw [Bool.eq_false_iff, ne_eq, isMemberOf_iff]
      exact fun hit => h s List.mem_cons_self hit.1
    rw [List.cons_append, renumberMembers, other,
      ih fun t inside => h t (List.mem_cons_of_mem _ inside)]
    rfl

theorem renumberMembers_self (h : ∀ s ∈ a, isMemberOf d s = false) :
    renumberMembers d base n a = a := by
  induction a with
  | nil => rfl
  | cons s a ih =>
    rw [renumberMembers, h s List.mem_cons_self, ih fun t inside => h t (List.mem_cons_of_mem _ inside)]
    rfl

theorem renumberMembers_members (h : Members d base max members)
    (hb : ∀ s ∈ b, isMemberOf d s = false) :
    ∃ named, renumberMembers d base n (members ++ b) = named ++ b ∧ Members d base max named ∧
      Numbered base n named ∧ named.length = members.length := by
  induction members generalizing n with
  | nil => exact ⟨[], renumberMembers_self hb, by simp [Members], by simp [Numbered], rfl⟩
  | cons m members ih =>
    obtain ⟨named, run, members', numbered, length⟩ :=
      @ih (n + 1) fun s inside => h s (List.mem_cons_of_mem _ inside)
    refine ⟨{ m with name := memberName base (n + 1) } :: named, ?_, ?_, ?_, by simp [length]⟩
    · rw [List.cons_append, renumberMembers, if_pos (h.isMember List.mem_cons_self), run]
      rfl
    · intro s inside
      rcases List.mem_cons.mp inside with rfl | inside
      · exact h m List.mem_cons_self
      · exact members' s inside
    · intro j s found
      cases j with
      | zero =>
        cases found
        rfl
      | succ j =>
        rw [numbered j s found]
        congr 1
        omega

theorem renumberMembers_bare :
    (renumberMembers d base n a).map Socket.bare = renumberMembers d base n (a.map Socket.bare) := by
  induction a generalizing n with
  | nil => rfl
  | cons s a ih =>
    have same : isMemberOf d s.bare = isMemberOf d s := rfl
    rw [List.map_cons, renumberMembers, renumberMembers, same]
    split
    · rw [List.map_cons, ih]
      rfl
    · rw [List.map_cons, ih]

end Scans

section Locate

variable {d : Nat} {base : String} {max : Nat} {members tail inputs : List Socket}

theorem Run.mem (run : Run d base max members tail) (inside : s ∈ members ++ tail) :
    s.defIndex = d ∧ s.variadic ≠ none := by
  rcases List.mem_append.mp inside with inside | inside
  · rw [(run.uniform s inside).2]
    exact ⟨(run.uniform s inside).1, by simp⟩
  · rcases run.last with ⟨-, p, rfl, index, info⟩ | ⟨-, rfl⟩
    · cases List.mem_singleton.mp inside
      rw [info]
      exact ⟨index, by simp⟩
    · cases inside

theorem Run.hasGroup (run : Run d base max members tail) {e : Nat} {base' : String} {max' : Nat} :
    HasGroup (members ++ tail) e base' max' ↔ e = d ∧ base' = base ∧ max' = max := by
  constructor
  · rintro ⟨s, inside, rfl, free, own⟩
    rcases List.mem_append.mp inside with inside | inside
    · obtain ⟨index, info⟩ := run.uniform s inside
      cases own.symm.trans info
      exact ⟨index, rfl, rfl⟩
    · rcases run.last with ⟨-, p, rfl, index, info⟩ | ⟨-, rfl⟩
      · cases List.mem_singleton.mp inside
        cases own.symm.trans info
        exact ⟨index, rfl, rfl⟩
      · cases inside
  · rintro ⟨rfl, rfl, rfl⟩
    rcases run.last with ⟨-, p, rfl, index, info⟩ | ⟨full, -⟩
    · exact ⟨p, by simp, index, true, info⟩
    · have inside := List.getElem_mem (l := members) (full ▸ run.positive)
      obtain ⟨index, info⟩ := run.uniform _ inside
      exact ⟨_, List.mem_append_left _ inside, index, false, info⟩

theorem SameGroups.run {before after members' tail' : List Socket} (run : Run d base max members tail)
    (run' : Run d base max members' tail') :
    SameGroups (before ++ (members ++ tail) ++ after) (before ++ (members' ++ tail') ++ after) := by
  intro e base' max'
  have split (a b : List Socket) : HasGroup (a ++ b) e base' max' ↔ HasGroup a e base' max' ∨ HasGroup b e base' max' := by
    simp only [HasGroup, List.mem_append, or_and_right, exists_or]
  rw [split, split before, run'.hasGroup, split _ after, split before, run.hasGroup]

/-- Where a group stands in its node, and that another run may take its place. -/
structure Located (inputs before members tail after : List Socket) (d : Nat) (base : String)
    (max : Nat) : Prop where
  split : inputs = before ++ (members ++ tail) ++ after
  run : Run d base max members tail
  left : Outside d before
  right : Outside d after
  rebuild : ∀ members' tail', Run d base max members' tail' →
    Regrouped inputs (before ++ (members' ++ tail') ++ after)

variable {segments : List (List Socket)}

theorem flatten_split {i : Nat} (found : segments.flatten[i]? = some s) :
    ∃ before segment after j, segments = before ++ segment :: after ∧
      i = before.flatten.length + j ∧ segment[j]? = some s := by
  induction segments generalizing i with
  | nil => simp at found
  | cons segment segments ih =>
    rw [List.flatten_cons, List.getElem?_append] at found
    split at found
    · exact ⟨[], segment, segments, i, rfl, by simp, found⟩
    next later =>
      obtain ⟨before, other, after, j, rfl, place, here⟩ := ih found
      refine ⟨segment :: before, other, after, j, rfl, ?_, here⟩
      rw [List.flatten_cons, List.length_append]
      omega

variable {a b : List Socket}

theorem Apart.outside (apart : Apart a b) (inside : s ∈ b) (variadic : s.variadic ≠ none) :
    Outside s.defIndex a :=
  fun t here => apart t here s inside (.inr variadic)

theorem Apart.symm (apart : Apart a b) : Apart b a :=
  fun s hs t ht either => (apart t ht s hs either.symm).symm

theorem Outside.apart (outside : Outside d a) (all : ∀ s ∈ b, s.defIndex = d) : Apart a b :=
  fun s hs t ht _ same => outside s hs (same.trans (all t ht))

theorem outside_flatten (h : ∀ s ∈ segments, Outside d s) : Outside d segments.flatten := by
  intro s inside
  obtain ⟨segment, member, here⟩ := List.mem_flatten.mp inside
  exact h segment member s here

theorem Grouped.locate (grouped : Grouped inputs) {i : Nat} {info : VariadicInfo}
    (found : inputs[i]? = some s) (variadic : s.variadic = some info) :
    ∃ before members tail after,
      Located inputs before members tail after s.defIndex info.base info.max ∧
      (info.placeholder = true → i = before.length + members.length ∧ tail = [s]) ∧
      (info.placeholder = false → ∃ j, i = before.length + j ∧ members[j]? = some s) := by
  obtain ⟨segments, rfl, each, apart⟩ := grouped
  obtain ⟨before, segment, after, j, rfl, place, here⟩ := flatten_split found
  have inside : s ∈ segment := List.mem_of_getElem? here
  have present : s.variadic ≠ none := by simp [variadic]
  obtain ⟨pairwise, others, cross⟩ := List.pairwise_append.mp apart
  obtain ⟨beyond, later⟩ := List.pairwise_cons.mp others
  have left : ∀ x ∈ before, Outside s.defIndex x := fun x hx =>
    (cross x hx segment List.mem_cons_self).outside inside present
  have right : ∀ x ∈ after, Outside s.defIndex x := fun x hx =>
    (beyond x hx).symm.outside inside present
  cases each segment (List.mem_append_right _ List.mem_cons_self) with
  | plain none =>
    cases List.mem_singleton.mp inside
    exact absurd none present
  | @group d base max members tail run =>
    obtain ⟨index, -⟩ := run.mem inside
    have all : (before ++ (members ++ tail) :: after).flatten =
        before.flatten ++ (members ++ tail) ++ after.flatten := by simp
    have rebuild : ∀ members' tail', Run d base max members' tail' →
        Regrouped (before ++ (members ++ tail) :: after).flatten
          (before.flatten ++ (members' ++ tail') ++ after.flatten) := by
      intro members' tail' run'
      refine ⟨⟨before ++ (members' ++ tail') :: after, by simp, ?_, ?_⟩, all ▸ .run run run'⟩
      · intro x hx
        rcases List.mem_append.mp hx with hx | hx
        · exact each x (List.mem_append_left _ hx)
        · rcases List.mem_cons.mp hx with rfl | hx
          · exact .group run'
          · exact each x (List.mem_append_right _ (List.mem_cons_of_mem _ hx))
      · have same : ∀ t ∈ members' ++ tail', t.defIndex = s.defIndex :=
          fun t ht => (run'.mem ht).1.trans index.symm
        refine List.pairwise_append.mpr ⟨pairwise, List.pairwise_cons.mpr ⟨?_, later⟩, ?_⟩
        · exact fun x hx => ((right x hx).apart same).symm
        · intro x hx y hy
          rcases List.mem_cons.mp hy with rfl | hy
          · exact (left x hx).apart same
          · exact cross x hx y (List.mem_cons_of_mem _ hy)
    have settled : base = info.base ∧ max = info.max ∧
        (info.placeholder = true → j = members.length ∧ tail = [s]) ∧
        (info.placeholder = false → members[j]? = some s) := by
      rw [List.getElem?_append] at here
      split at here
      next =>
        have own := (run.uniform s (List.mem_of_getElem? here)).2
        rw [variadic] at own
        cases own
        exact ⟨rfl, rfl, by simp, fun _ => here⟩
      next beyond =>
        rcases run.last with ⟨-, p, rfl, -, own⟩ | ⟨-, rfl⟩
        · obtain ⟨bound, same⟩ := List.getElem?_eq_some_iff.mp here
          have zero : j - members.length = 0 := by
            rw [List.length_singleton] at bound
            omega
          simp only [zero, List.getElem_cons_zero] at same
          subst same
          rw [variadic] at own
          cases own
          exact ⟨rfl, rfl, fun _ => ⟨by omega, rfl⟩, by simp⟩
        · simp at here
    obtain ⟨rfl, rfl, last, member⟩ := settled
    refine ⟨before.flatten, members, tail, after.flatten,
      ⟨all, by rw [index]; exact run, outside_flatten left, outside_flatten right,
        by rw [index]; exact rebuild⟩, ?_, fun h => ⟨j, place, member h⟩⟩
    intro h
    obtain ⟨rfl, only⟩ := last h
    exact ⟨place, only⟩

end Locate

section Places

variable {α : Type*} (a b : List α) (x : α)

theorem modify_at (f : α → α) : (a ++ x :: b).modify a.length f = a ++ f x :: b := by
  induction a with
  | nil => rfl
  | cons y a ih => simp [ih]

theorem insertIdx_at : (a ++ b).insertIdx a.length x = a ++ x :: b := by
  induction a with
  | nil => rfl
  | cons y a ih => simp [ih]

theorem eraseIdx_at : (a ++ x :: b).eraseIdx a.length = a ++ b := by
  induction a with
  | nil => rfl
  | cons y a ih => simp [ih]

variable {a x}

theorem split_at {l : List α} {i : Nat} (found : l[i]? = some x) :
    ∃ before after, l = before ++ x :: after ∧ before.length = i := by
  obtain ⟨bound, rfl⟩ := List.getElem?_eq_some_iff.mp found
  refine ⟨l.take i, l.drop (i + 1), ?_, ?_⟩
  · rw [List.getElem_cons_drop, List.take_append_drop]
  · rw [List.length_take]
    omega

end Places

section Edits

variable {d : Nat} {base : String} {max i : Nat} {members tail before after l : List Socket}
  {s : Socket} {info : VariadicInfo}

theorem Run.tail_isMember (run : Run d base max members tail) : ∀ s ∈ tail, isMemberOf d s = false := by
  rcases run.last with ⟨-, p, rfl, -, own⟩ | ⟨-, rfl⟩
  · intro s inside
    cases List.mem_singleton.mp inside
    simp [isMemberOf, Socket.isVariadicMember, own]
  · simp

theorem Outside.isMember (outside : Outside d l) : ∀ s ∈ l, isMemberOf d s = false := by
  intro s inside
  rw [Bool.eq_false_iff, ne_eq, isMemberOf_iff]
  exact fun hit => outside s inside hit.1

theorem countP_run (left : Outside d before) (right : Outside d after)
    (uniform : Members d base max members) (others : ∀ s ∈ tail, isMemberOf d s = false) :
    (before ++ (members ++ tail) ++ after).countP (isMemberOf d) = members.length := by
  have none : tail.countP (isMemberOf d) = 0 := by
    rw [List.countP_eq_zero]
    exact fun s inside => by simp [others s inside]
  have only : ∀ s, isMemberOf d s = true → s.defIndex = d := fun s h => (isMemberOf_iff.mp h).1
  rw [List.countP_append, List.countP_append, List.countP_append, none, uniform.countP,
    countP_outside _ left only, countP_outside _ right only]
  omega

theorem renumberMembers_run (left : Outside d before) (right : Outside d after)
    (uniform : Members d base max members) (others : ∀ s ∈ tail, isMemberOf d s = false) :
    ∃ named, renumberMembers d base 0 (before ++ (members ++ tail) ++ after) =
        before ++ (named ++ tail) ++ after ∧ Members d base max named ∧ Numbered base 0 named ∧
      named.length = members.length := by
  obtain ⟨named, run, uniform', numbered, length⟩ := @renumberMembers_members d base max
    (tail ++ after) members 0 uniform (by
      intro s inside
      rcases List.mem_append.mp inside with inside | inside
      · exact others s inside
      · exact right.isMember s inside)
  refine ⟨named, ?_, uniform', numbered, length⟩
  rw [List.append_assoc, List.append_assoc, renumberMembers_outside left, run]
  simp

theorem Numbered.snoc (numbered : Numbered base 0 members)
    (here : s.name = memberName base (members.length + 1)) : Numbered base 0 (members ++ [s]) := by
  intro j m found
  rw [List.getElem?_append] at found
  split at found
  · exact numbered j m found
  next beyond =>
    obtain ⟨bound, rfl⟩ := List.getElem?_eq_some_iff.mp found
    rw [List.length_singleton] at bound
    have last : j = members.length := by omega
    simp [last, here]

theorem Grouped.grow (grouped : Grouped l) (found : l[i]? = some s)
    (variadic : s.variadic = some info) (free : info.placeholder = true) (p : Socket)
    (index : p.defIndex = s.defIndex) (own : p.variadic = some info) (number : Nat)
    (counted : number = l.countP (isMemberOf s.defIndex) + 1) :
    let grown := l.modify i fun s => { s with
      variadic := some { info with placeholder := false }, name := memberName info.base number }
    if number < info.max then Regrouped l (grown.insertIdx (i + 1) p) else Regrouped l grown := by
  obtain ⟨before, members, tail, after, located, last, -⟩ := grouped.locate found variadic
  obtain ⟨place, rfl⟩ := last free
  have count := countP_run located.left located.right located.run.uniform located.run.tail_isMember
  rw [← located.split] at count
  rw [count] at counted
  have room : members.length < info.max := by
    rcases located.run.last with ⟨room, -⟩ | ⟨-, none⟩
    · exact room
    · cases none
  set member : Socket := { s with
    variadic := some { info with placeholder := false }, name := memberName info.base number }
    with is
  have grown : (l.modify i fun s => { s with
      variadic := some { info with placeholder := false }, name := memberName info.base number }) =
      before ++ (members ++ [member]) ++ after := by
    have at' : i = (before ++ members).length := by simp [place]
    rw [located.split, at', ← List.append_assoc, List.append_assoc _ [s], List.singleton_append,
      modify_at]
    simp [is]
  have uniform : Members s.defIndex info.base info.max (members ++ [member]) := by
    refine located.run.uniform.append ?_
    intro m inside
    cases List.mem_singleton.mp inside
    exact ⟨rfl, rfl⟩
  have numbered : Numbered info.base 0 (members ++ [member]) :=
    located.run.numbered.snoc (by rw [← counted])
  dsimp only
  rw [grown]
  split
  next more =>
    have at' : i + 1 = (before ++ (members ++ [member])).length := by simp [place]; omega
    rw [at', insertIdx_at]
    have rebuilt := located.rebuild (members ++ [member]) [p] ⟨located.run.positive, uniform, numbered,
      .inl ⟨by rw [List.length_append, List.length_singleton]; omega, p, rfl, index, by
        rw [own, ← free]⟩⟩
    simpa using rebuilt
  next full =>
    have rebuilt := located.rebuild (members ++ [member]) [] ⟨located.run.positive, uniform, numbered,
      .inr ⟨by rw [List.length_append, List.length_singleton]; omega, rfl⟩⟩
    simpa using rebuilt

theorem lastIdx_run {p : Socket → Bool} (only : ∀ s, p s = true → s.defIndex = d)
    (left : Outside d before) (right : Outside d after) (hit : ∀ s ∈ tail, p s = true)
    (some' : tail ≠ []) :
    lastIdx p (before ++ (members ++ tail) ++ after) =
      some (before.length + members.length + tail.length - 1) := by
  have positive := List.length_pos_iff.mpr some'
  have misses : ∀ l, Outside d l → ∀ s ∈ l, p s = false := by
    intro l outside s inside
    rw [Bool.eq_false_iff]
    exact fun h => outside s inside (only s h)
  rw [lastIdx_append, lastIdx_none (misses after right), lastIdx_append, lastIdx_append,
    lastIdx_all hit some', lastIdx_none (misses before left)]
  simp only [Option.map_none, Option.none_or, Option.map_some, Option.some_or]
  congr 1
  omega

/-- A member inserted before another shifts the group; when the group is full then, its placeholder
goes. -/
theorem Grouped.insertMember (grouped : Grouped l) (found : l[i]? = some s)
    (variadic : s.variadic = some info) (taken : info.placeholder = false)
    (room : l.countP (isMemberOf s.defIndex) < info.max) {m : Socket}
    (index : m.defIndex = s.defIndex) (own : m.variadic = s.variadic) :
    ∃ last p, i < last ∧ (l.insertIdx i m)[last]? = some p ∧ isPlaceholderOf s.defIndex p = true ∧
      lastIdx (isPlaceholderOf s.defIndex) (l.insertIdx i m) = some last ∧
      if info.max ≤ (l.insertIdx i m).countP (isMemberOf s.defIndex) then
        Regrouped l ((renumberMembers s.defIndex info.base 0 (l.insertIdx i m)).eraseIdx last)
      else Regrouped l (renumberMembers s.defIndex info.base 0 (l.insertIdx i m)) := by
  obtain ⟨before, members, tail, after, located, -, inner⟩ := grouped.locate found variadic
  obtain ⟨j, place, here⟩ := inner taken
  have count := countP_run located.left located.right located.run.uniform located.run.tail_isMember
  rw [← located.split] at count
  rw [count] at room
  obtain ⟨p, rfl, pIndex, pOwn⟩ : ∃ p : Socket, tail = [p] ∧ p.defIndex = s.defIndex ∧
      p.variadic = some ⟨info.base, info.max, true⟩ := by
    rcases located.run.last with ⟨-, found⟩ | ⟨full, -⟩
    · exact found
    · omega
  obtain ⟨m₁, m₂, rfl, length⟩ := split_at here
  have inserted : l.insertIdx i m = before ++ ((m₁ ++ m :: s :: m₂) ++ [p]) ++ after := by
    have at' : i = (before ++ m₁).length := by simp [place, length]
    have spread : l = (before ++ m₁) ++ (s :: m₂ ++ [p] ++ after) := by simp [located.split]
    rw [at', spread, insertIdx_at]
    simp
  have uniform : Members s.defIndex info.base info.max (m₁ ++ m :: s :: m₂) := by
    have self : Members s.defIndex info.base info.max [m] := by
      intro x inside
      cases List.mem_singleton.mp inside
      rw [own, variadic, ← taken]
      exact ⟨index, rfl⟩
    have parts := located.run.uniform
    exact (parts.sublist (List.sublist_append_left m₁ _)).append
      (self.append (parts.sublist (List.sublist_append_right m₁ _)))
  have others := located.run.tail_isMember
  have placeholder : isPlaceholderOf s.defIndex p = true := by
    simp [isPlaceholderOf, Socket.isVariadicPlaceholder, pIndex, pOwn]
  have final := @lastIdx_run s.defIndex (m₁ ++ m :: s :: m₂) [p] before after
    (isPlaceholderOf s.defIndex) (fun x h => (isPlaceholderOf_iff.mp h).1) located.left located.right
    (by simpa using placeholder) (by simp)
  have number := countP_run located.left located.right uniform others
  obtain ⟨named, scan, uniform', numbered, size⟩ :=
    renumberMembers_run located.left located.right uniform others
  rw [inserted, number, final, scan]
  set k := (m₁ ++ m :: s :: m₂).length with hk
  have grown : k = (m₁ ++ s :: m₂).length + 1 := by simp [hk]; omega
  refine ⟨before.length + k + [p].length - 1, p, ?_, ?_, placeholder, rfl, ?_⟩
  · rw [place, ← length, hk]
    simp
  · rw [List.append_assoc, List.append_assoc, List.getElem?_append_right (by simp),
      List.getElem?_append_right (by rw [← hk]; simp)]
    simp [← hk]
  split
  next full =>
    have at' : before.length + k + [p].length - 1 = (before ++ named).length := by
      simp [← size]
    rw [at', ← List.append_assoc, List.append_assoc _ [p], List.singleton_append, eraseIdx_at]
    have rebuilt := located.rebuild named [] ⟨located.run.positive, uniform', numbered,
      .inr ⟨by omega, rfl⟩⟩
    simpa using rebuilt
  next more =>
    exact located.rebuild named [p] ⟨located.run.positive, uniform', numbered,
      .inl ⟨by omega, p, rfl, pIndex, pOwn⟩⟩

/-- A member taken out closes the group, and a group that was full gets its placeholder back. -/
theorem Grouped.collapse (grouped : Grouped l) (found : l[i]? = some s)
    (variadic : s.variadic = some info) (taken : info.placeholder = false) {p : Socket}
    (index : p.defIndex = s.defIndex) (own : p.variadic = some { info with placeholder := true }) :
    let rest := l.eraseIdx i
    let renamed := renumberMembers s.defIndex info.base 0 rest
    let groupEnd := (lastIdx (fun s' => s'.defIndex == s.defIndex) rest).elim i (· + 1)
    if ¬ rest.any (isPlaceholderOf s.defIndex) ∧ rest.countP (isMemberOf s.defIndex) < info.max then
      groupEnd ≤ rest.length ∧ Regrouped l (renamed.insertIdx groupEnd p)
    else Regrouped l renamed ∧ renamed ≠ [] := by
  obtain ⟨before, members, tail, after, located, -, inner⟩ := grouped.locate found variadic
  obtain ⟨j, place, here⟩ := inner taken
  obtain ⟨m₁, m₂, rfl, length⟩ := split_at here
  have erased : l.eraseIdx i = before ++ ((m₁ ++ m₂) ++ tail) ++ after := by
    have at' : i = (before ++ m₁).length := by simp [place, length]
    have spread : l = (before ++ m₁) ++ s :: (m₂ ++ tail ++ after) := by simp [located.split]
    rw [at', spread, eraseIdx_at]
    simp
  have uniform : Members s.defIndex info.base info.max (m₁ ++ m₂) :=
    located.run.uniform.sublist (List.Sublist.append_left (List.sublist_cons_self s m₂) m₁)
  have others := located.run.tail_isMember
  have number := countP_run located.left located.right uniform others
  obtain ⟨named, scan, uniform', numbered, size⟩ :=
    renumberMembers_run located.left located.right uniform others
  have fewer : (m₁ ++ s :: m₂).length = (m₁ ++ m₂).length + 1 := by simp; omega
  dsimp only
  rw [erased, number, scan]
  have misses : ∀ x, Outside s.defIndex x → x.any (isPlaceholderOf s.defIndex) = false := by
    intro x outside
    rw [List.any_eq_false]
    exact fun t inside hit => outside t inside (isPlaceholderOf_iff.mp hit).1
  have present : (before ++ ((m₁ ++ m₂) ++ tail) ++ after).any (isPlaceholderOf s.defIndex) =
      tail.any (isPlaceholderOf s.defIndex) := by
    have inner : (m₁ ++ m₂).any (isPlaceholderOf s.defIndex) = false := by
      rw [List.any_eq_false]
      intro t inside
      simp [isPlaceholderOf, Socket.isVariadicPlaceholder, (uniform t inside).2]
    rw [List.any_append, List.any_append, List.any_append, inner, misses _ located.left,
      misses _ located.right]
    simp
  rw [present]
  rcases located.run.last with ⟨room, q, rfl, qIndex, qOwn⟩ | ⟨full, rfl⟩
  · have kept : isPlaceholderOf s.defIndex q = true := by
      simp [isPlaceholderOf, Socket.isVariadicPlaceholder, qIndex, qOwn]
    rw [if_neg (by simp [kept])]
    refine ⟨?_, by simp⟩
    exact located.rebuild named [q] ⟨located.run.positive, uniform', numbered,
      .inl ⟨by omega, q, rfl, qIndex, qOwn⟩⟩
  · rw [if_pos ⟨by simp, by omega⟩]
    -- the end of the group is where its last member was, or where the group was
    have end' : (lastIdx (fun s' => s'.defIndex == s.defIndex)
        (before ++ ((m₁ ++ m₂) ++ []) ++ after)).elim i (· + 1) = (before ++ named).length := by
      rw [List.append_nil, List.length_append, size]
      by_cases empty : m₁ ++ m₂ = []
      · have none : lastIdx (fun s' : Socket => s'.defIndex == s.defIndex)
            (before ++ (m₁ ++ m₂) ++ after) = none := by
          refine lastIdx_none fun t inside => ?_
          rw [empty, List.append_nil] at inside
          simpa using (located.left.append located.right) t inside
        obtain ⟨rfl, rfl⟩ := List.append_eq_nil_iff.mp empty
        rw [none]
        simp only [Option.elim_none, List.length_nil, List.append_nil]
        simp only [List.length_nil] at length
        omega
      · have hit : ∀ t ∈ m₁ ++ m₂, (t.defIndex == s.defIndex) = true := fun t inside => by
          simp [(uniform t inside).1]
        have := @lastIdx_run s.defIndex [] (m₁ ++ m₂) before after
          (fun t => t.defIndex == s.defIndex) (fun t h => by simpa using h) located.left located.right
          hit empty
        rw [List.nil_append] at this
        have positive := List.length_pos_iff.mpr empty
        rw [this]
        simp only [Option.elim_some, List.length_nil]
        omega
    rw [end']
    refine ⟨by simp [size], ?_⟩
    rw [List.append_nil, insertIdx_at]
    have rebuilt := located.rebuild named [p] ⟨located.run.positive, uniform', numbered,
      .inl ⟨by omega, p, rfl, index, own⟩⟩
    simpa using rebuilt

end Edits

end LogicConduit.Document
