import LogicConduit.GateMerge
import LogicConduit.GateQuery
import LogicConduit.ReceiverStream

namespace LogicConduit

/-- What a query hands out behind its cursor until it has no edge left. -/
inductive EdgeQuery.Delivers (edges : EdgeQuery) : Option UInt64 → List Sample → Prop
  | ended {cursor : Option UInt64} (none : LogicGate.queryHead edges cursor = .ok none) : Delivers edges cursor []
  | sample {cursor : Option UInt64} {position : UInt64} {value : Bool} {rest : List Sample}
      (head : LogicGate.queryHead edges cursor = .ok (some (position, value)))
      (later : Delivers edges (some position) rest) :
      Delivers edges cursor (⟨value, saturatingMulU64 position edges.timestampStep⟩ :: rest)

/-- What an input still has to hand out. -/
def GateInput.Ahead (cursor : Option UInt64) (rest : List Sample) : GateInput → Prop
  | missing => False
  | streamed inbox => inbox.Settled ∧ inbox.undelivered = rest
  | query edges => edges.Delivers cursor rest

variable {inputs : List GateInput}

variable {calls : Nat}

namespace LogicGate

def Pends (gate : LogicGate) (inputs : List GateInput) (i : Nat) (l : List Sample) : Prop :=
  ∃ input cursor head eos rest, inputs[i]? = some input ∧ gate.queryCursors[i]? = some cursor ∧
    gate.heads[i]? = some head ∧ gate.eos[i]? = some eos ∧ GateInput.Ahead cursor rest input ∧
    l = head.toList ++ rest ∧ (eos = true → rest = [])

/-- Each input of the gate carries the edges of its stream that have not been applied. -/
structure Holds (gate : LogicGate) (inputs : List GateInput) (pending : List (List Sample)) : Prop where
  levels : gate.levels.length = pending.length
  heads : gate.heads.length = pending.length
  pends : ∀ (i : Nat) (l : List Sample), pending[i]? = some l → gate.Pends inputs i l

structure SameAt (j : Nat) (gate gate' : LogicGate) (inputs inputs' : List GateInput) : Prop where
  input : inputs'[j]? = inputs[j]?
  cursor : gate'.queryCursors[j]? = gate.queryCursors[j]?
  head : gate'.heads[j]? = gate.heads[j]?
  eos : gate'.eos[j]? = gate.eos[j]?

theorem SameAt.refl (j : Nat) (gate : LogicGate) (inputs : List GateInput) : SameAt j gate gate inputs inputs :=
  ⟨rfl, rfl, rfl, rfl⟩

theorem SameAt.pends {j : Nat} {gate gate' : LogicGate} {inputs inputs' : List GateInput} {l : List Sample}
    (h : SameAt j gate gate' inputs inputs') (hp : gate.Pends inputs j l) : gate'.Pends inputs' j l := by
  obtain ⟨input, cursor, head, eos, rest, hi, hc, hh, he, hrest⟩ := hp
  exact ⟨input, cursor, head, eos, rest, h.input.trans hi, h.cursor.trans hc, h.head.trans hh, h.eos.trans he, hrest⟩

variable (gate : LogicGate) (inputs : List GateInput)

theorem fillInput_frame (index : Nat) : ∃ cursors heads eos,
    (gate.fillInput inputs index).2.1 = { gate with queryCursors := cursors, heads := heads, eos := eos } ∧
      heads.length = gate.heads.length := by
  unfold fillInput
  split
  · exact ⟨_, _, _, rfl, rfl⟩
  · split
    · split
      · exact ⟨_, _, _, rfl, rfl⟩
      · exact ⟨_, _, _, rfl, List.length_set⟩
      · exact ⟨_, _, _, rfl, rfl⟩
    · split
      · exact ⟨_, _, _, rfl, List.length_set⟩
      · exact ⟨_, _, _, rfl, rfl⟩
    · exact ⟨_, _, _, rfl, rfl⟩

theorem fillInput_others {index j : Nat} (h : j ≠ index) :
    SameAt j gate (gate.fillInput inputs index).2.1 inputs (gate.fillInput inputs index).2.2 := by
  have hset : ∀ {α : Type} (l : List α) (a : α), (l.set index a)[j]? = l[j]? :=
    fun l a => List.getElem?_set_ne h.symm
  unfold fillInput
  split
  · exact SameAt.refl j gate inputs
  · split
    · split
      · exact SameAt.refl j gate inputs
      · exact ⟨rfl, hset _ _, hset _ _, rfl⟩
      · exact ⟨rfl, rfl, rfl, hset _ _⟩
    · split
      · exact ⟨hset _ _, rfl, hset _ _, rfl⟩
      · exact ⟨hset _ _, rfl, rfl, hset _ _⟩
    · exact SameAt.refl j gate inputs

variable {gate inputs} {i : Nat} {l : List Sample}

theorem fillInput_pends (h : gate.Pends inputs i l) :
    (gate.fillInput inputs i).1 = .ok () ∧ (gate.fillInput inputs i).2.1.Pends (gate.fillInput inputs i).2.2 i l ∧
      (gate.fillInput inputs i).2.1.heads[i]? = some l.head? := by
  have hpends := h
  obtain ⟨input, cursor, head, eos, rest, hi, hc, hh, he, hahead, hl, heos⟩ := h
  have hset : ∀ {α : Type} {list : List α} {old : α} (new : α), list[i]? = some old → (list.set i new)[i]? = some new :=
    fun new hold => List.getElem?_set_self (List.getElem?_eq_some_iff.mp hold).1
  unfold fillInput
  rw [hh, he, hc, hi]
  cases head with
  | some pending =>
    rw [if_pos (by simp)]
    refine ⟨rfl, hpends, ?_⟩
    rw [hh, hl]
    rfl
  | none =>
    cases eos with
    | true =>
      rw [if_pos (by simp)]
      refine ⟨rfl, hpends, ?_⟩
      rw [hh, hl, heos rfl]
      rfl
    | false =>
      rw [if_neg (by simp)]
      have hrest : l = rest := hl
      subst hrest
      cases input with
      | missing => exact hahead.elim
      | query edges =>
        dsimp only
        rw [Option.join_some]
        cases hahead with
        | ended none =>
          rw [none]
          exact ⟨rfl, ⟨_, _, _, _, [], hi, hc, hh, hset true he, .ended none, rfl, fun _ => rfl⟩, hh⟩
        | sample head later =>
          rw [head]
          exact ⟨rfl, ⟨_, _, _, _, _, hi, hset _ hc, hset _ hh, he, later, rfl, by simp⟩, hset _ hh⟩
      | streamed inbox =>
        obtain ⟨hsettled, hstream⟩ := hahead
        have hserved := run_served .recv awaited hsettled (fun item hcall => by cases hcall)
        rw [ReceiverCall.run] at hserved
        dsimp only
        rcases hrecv : inbox.recv with ⟨result, next⟩
        rw [hrecv] at hserved
        cases result with
        | ok sample =>
          obtain ⟨hnext, hall, -⟩ := hserved
          refine ⟨rfl, ⟨_, _, _, _, _, hset _ hi, hc, hset _ hh, he, ⟨hnext, rfl⟩, ?_, by simp⟩, ?_⟩
          · rw [← hstream, hall]
            rfl
          · rw [← hstream, hall]
            exact hset _ hh
        | error error =>
          cases error
          obtain ⟨hnext, hempty, hended⟩ := hserved
          refine ⟨rfl, ⟨_, _, _, _, [], hset _ hi, hc, hh, hset _ he, ⟨hnext, hended⟩, ?_, fun _ => rfl⟩, ?_⟩
          · rw [← hstream, hempty]
            rfl
          · rw [← hstream, hempty]
            exact hh

/-- Every field that fetching an edge leaves alone. -/
structure SameGate (gate gate' : LogicGate) : Prop where
  op : gate'.op = gate.op
  levels : gate'.levels = gate.levels
  started : gate'.started = gate.started
  lastOut : gate'.lastOut = gate.lastOut
  lastEmitTs : gate'.lastEmitTs = gate.lastEmitTs

theorem SameGate.trans {first second third : LogicGate} (h : SameGate first second) (h' : SameGate second third) :
    SameGate first third :=
  ⟨h'.op.trans h.op, h'.levels.trans h.levels, h'.started.trans h.started, h'.lastOut.trans h.lastOut,
    h'.lastEmitTs.trans h.lastEmitTs⟩

variable {pending : List (List Sample)}

theorem fillInput_holds (h : gate.Holds inputs pending) (hi : i < pending.length) :
    (gate.fillInput inputs i).1 = .ok () ∧ (gate.fillInput inputs i).2.1.Holds (gate.fillInput inputs i).2.2 pending ∧
      SameGate gate (gate.fillInput inputs i).2.1 ∧
      ∀ j, j = i ∨ gate.heads[j]? = pending[j]?.map List.head? →
        (gate.fillInput inputs i).2.1.heads[j]? = pending[j]?.map List.head? := by
  obtain ⟨cursors, heads, eos, hframe, hheads⟩ := gate.fillInput_frame inputs i
  have hl : pending[i]? = some pending[i] := List.getElem?_eq_getElem hi
  obtain ⟨hok, hpends, hhead⟩ := fillInput_pends (h.pends i _ hl)
  refine ⟨hok, ⟨?_, ?_, fun j l hlj => ?_⟩, ?_, fun j hj => ?_⟩
  · rw [hframe]
    exact h.levels
  · rw [hframe]
    exact hheads.trans h.heads
  · by_cases hji : j = i
    · subst hji
      rw [hl] at hlj
      cases hlj
      exact hpends
    · exact (gate.fillInput_others inputs hji).pends (h.pends j l hlj)
  · rw [hframe]
    exact ⟨rfl, rfl, rfl, rfl, rfl⟩
  · by_cases hji : j = i
    · subst hji
      rw [hhead, hl]
      rfl
    · rw [(gate.fillInput_others inputs hji).head]
      exact hj.resolve_left hji

theorem fillInputs_holds (indices : List Nat) (h : gate.Holds inputs pending) (hi : ∀ i ∈ indices, i < pending.length) :
    ∃ gate' inputs', gate.fillInputs inputs indices = (.ok (), gate', inputs') ∧ gate'.Holds inputs' pending ∧
      SameGate gate gate' ∧ ∀ j, j ∈ indices ∨ gate.heads[j]? = pending[j]?.map List.head? →
        gate'.heads[j]? = pending[j]?.map List.head? := by
  induction indices generalizing gate inputs with
  | nil => exact ⟨gate, inputs, rfl, h, ⟨rfl, rfl, rfl, rfl, rfl⟩, fun j hj => hj.resolve_left (by simp)⟩
  | cons index rest ih =>
    obtain ⟨hok, hholds, hsame, hheads⟩ := fillInput_holds h (hi index List.mem_cons_self)
    rw [fillInputs]
    generalize gate.fillInput inputs index = filled at hok hholds hsame hheads
    obtain ⟨result, next, inputs'⟩ := filled
    dsimp only at hok hholds hsame hheads
    subst hok
    obtain ⟨gate', inputs'', hfill, hholds', hsame', hheads'⟩ := ih hholds fun j hj => hi j (List.mem_cons_of_mem _ hj)
    refine ⟨gate', inputs'', hfill, hholds', hsame.trans hsame', fun j hj => ?_⟩
    rcases hj with hj | hj
    · rcases List.mem_cons.mp hj with rfl | hj
      · exact hheads' j (Or.inr (hheads j (Or.inl rfl)))
      · exact hheads' j (Or.inl hj)
    · exact hheads' j (Or.inr (hheads j (Or.inr hj)))

section

variable (h : gate.Holds inputs pending)
include h

theorem missingInput_holds : gate.missingInput inputs = none := by
  rw [missingInput, List.find?_eq_none]
  intro i hi
  have hlt : i < pending.length := h.levels ▸ List.mem_range.mp hi
  obtain ⟨input, cursor, head, eos, rest, hinput, -, -, -, hahead, -⟩ := h.pends i _ (List.getElem?_eq_getElem hlt)
  rw [hinput]
  cases input with
  | missing => exact hahead.elim
  | streamed inbox => simp
  | query edges => simp

theorem heads_filled
    (hheads : ∀ j ∈ List.range gate.levels.length, gate.heads[j]? = pending[j]?.map List.head?) :
    gate.heads = pending.map List.head? := by
  refine List.ext_getElem? fun j => ?_
  rw [List.getElem?_map]
  rcases Nat.lt_or_ge j pending.length with hlt | hge
  · exact hheads j (List.mem_range.mpr (h.levels ▸ hlt))
  · rw [List.getElem?_eq_none (h.heads ▸ hge), List.getElem?_eq_none hge]
    rfl

theorem holds_applied {edge : Nat × Sample} {rest : List Sample}
    (hheads : gate.heads = pending.map List.head?) (hedge : pending[edge.1]? = some (edge.2 :: rest))
    {gate' : LogicGate} (hcursors : gate'.queryCursors = gate.queryCursors) (heos : gate'.eos = gate.eos)
    (hhead : gate'.heads = gate.heads.set edge.1 none) (hlevels : gate'.levels.length = gate.levels.length) :
    gate'.Holds inputs (pending.modify edge.1 List.tail) := by
  refine ⟨?_, ?_, fun j l hl => ?_⟩
  · rw [List.length_modify]
    exact hlevels.trans h.levels
  · rw [hhead, List.length_set, List.length_modify]
    exact h.heads
  · rw [List.getElem?_modify] at hl
    obtain ⟨old, hold, hcut⟩ := Option.map_eq_some_iff.mp hl
    obtain ⟨input, cursor, head, eos, behind, hi, hc, hh, he, hahead, hparts, hended⟩ := h.pends j old hold
    by_cases hje : edge.1 = j
    · subst hje
      rw [hedge] at hold
      cases hold
      rw [if_pos rfl] at hcut
      rw [hheads, List.getElem?_map, hedge] at hh
      cases hh
      have hlt : edge.1 < gate.heads.length := by
        rw [hheads, List.length_map]
        exact (List.getElem?_eq_some_iff.mp hedge).1
      refine ⟨input, cursor, none, eos, behind, hi, hcursors ▸ hc, ?_, heos ▸ he, hahead, ?_, hended⟩
      · rw [hhead]
        exact List.getElem?_set_self hlt
      · exact hcut.symm.trans (List.cons.inj hparts).2
    · rw [if_neg hje] at hcut
      subst hcut
      refine ⟨input, cursor, head, eos, behind, hi, hcursors ▸ hc, ?_, heos ▸ he, hahead, hparts, hended⟩
      rw [hhead, List.getElem?_set_ne hje]
      exact hh

end

def emitted (op : GateOp) : List Bool → List (Nat × Sample) → List Sample
  | _, [] => []
  | levels, (index, sample) :: rest =>
    (if op.combine (levels.set index sample.value) == op.combine levels then []
      else [⟨op.combine (levels.set index sample.value), sample.startTimeNs⟩]) ++
      emitted op (levels.set index sample.value) rest

/-- The calls of `work` until the node shuts down, and all that they sent. -/
def run : Nat → LogicGate → List GateInput → Option (List (ChannelMessage Sample))
  | 0, _, _ => none
  | calls + 1, gate, inputs =>
    let call := gate.work inputs true
    match call.result with
    | .ok _ => (run calls call.node call.inputs).map (call.sent ++ ·)
    | .error .shutdown => some call.sent
    | .error _ => none

theorem maxU64_eq_left {a b : UInt64} (h : b ≤ a) : max a b = a := by
  show (if a ≤ b then b else a) = a
  split
  · next hab => exact UInt64.le_antisymm h hab
  · rfl

structure Running (gate : LogicGate) (inputs : List GateInput) (pending : List (List Sample)) : Prop where
  holds : gate.Holds inputs pending
  started : gate.started = true
  lastOut : gate.lastOut = gate.op.combine gate.levels
  lastEmitTs : ∀ l ∈ pending, ∀ sample ∈ l, gate.lastEmitTs ≤ sample.startTimeNs
  ordered : TimeOrdered pending

theorem work_running (h : gate.Running inputs pending) :
    match earliest Sample.startTimeNs (pendingHeads (pending.map List.head?)) with
    | none => (gate.work inputs true).result = .error .shutdown ∧ (gate.work inputs true).sent = []
    | some edge => (∃ count, (gate.work inputs true).result = .ok count) ∧
        (gate.work inputs true).sent = (emitted gate.op gate.levels [edge]).map .sample ∧
        (gate.work inputs true).node.op = gate.op ∧
        (gate.work inputs true).node.levels = gate.levels.set edge.1 edge.2.value ∧
        (gate.work inputs true).node.Running (gate.work inputs true).inputs (pending.modify edge.1 List.tail) := by
  have hstart : gate.start = (gate, []) := if_pos h.started
  have hindices : ∀ i ∈ List.range gate.levels.length, i < pending.length :=
    fun i hi => h.holds.levels ▸ List.mem_range.mp hi
  obtain ⟨filled, inputs', hfill, hholds, hsame, hheads⟩ := fillInputs_holds (List.range gate.levels.length) h.holds hindices
  have hfilled : filled.heads = pending.map List.head? :=
    heads_filled hholds fun j hj => hheads j (Or.inl (hsame.levels ▸ hj))
  have hwork : gate.work inputs true = filled.applyEdge inputs' [] := by
    rw [work, if_neg (by simp), hstart]
    dsimp only
    rw [missingInput_holds h.holds, hfill]
  rw [hwork, applyEdge, hfilled]
  cases hedge : earliest Sample.startTimeNs (pendingHeads (pending.map List.head?)) with
  | none => exact ⟨rfl, rfl⟩
  | some edge =>
    obtain ⟨index, sample⟩ := edge
    obtain ⟨rest, hrest, -⟩ := earliest_heads hedge
    have hlater : ∀ l ∈ pending.modify index List.tail, ∀ s ∈ l, sample.startTimeNs ≤ s.startTimeNs := by
      intro l hl s hs
      obtain ⟨j, hj⟩ := List.mem_iff_getElem?.mp hl
      exact (earliest_noLater h.ordered hedge hj hs).time_le
    have hnow : gate.lastEmitTs ≤ sample.startTimeNs :=
      h.lastEmitTs _ (List.mem_of_getElem? hrest) sample List.mem_cons_self
    have hlast : filled.lastOut = gate.op.combine gate.levels := hsame.lastOut.trans h.lastOut
    dsimp only
    rw [hsame.op, hsame.levels, hlast, hsame.lastEmitTs]
    by_cases hquiet : gate.op.combine (gate.levels.set index sample.value) = gate.op.combine gate.levels
    · rw [if_pos (by simpa using hquiet)]
      refine ⟨⟨0, rfl⟩, ?_, rfl, rfl, ?_, ?_, hquiet ▸ rfl, fun l hl s hs => ?_, h.ordered.tail index⟩
      · rw [emitted, if_pos (by simpa using hquiet)]
        rfl
      · exact holds_applied hholds hfilled hrest rfl rfl (congrArg (·.set index none) hfilled.symm)
          (by simp [hsame.levels])
      · exact hsame.started.trans h.started
      · exact UInt64.le_trans hnow (hlater l hl s hs)
    · rw [if_neg (by simpa using hquiet)]
      have hts : max sample.startTimeNs gate.lastEmitTs = sample.startTimeNs := maxU64_eq_left hnow
      refine ⟨⟨1, rfl⟩, ?_, rfl, rfl, ?_, ?_, rfl, fun l hl s hs => ?_, h.ordered.tail index⟩
      · rw [emitted, if_neg (by simpa using hquiet), hts]
        rfl
      · exact holds_applied hholds hfilled hrest rfl rfl (congrArg (·.set index none) hfilled.symm)
          (by simp [hsame.levels])
      · exact hsame.started.trans h.started
      · rw [hts]
        exact hlater l hl s hs

theorem run_running (h : gate.Running inputs pending) (hc : (pending.map List.length).sum ≤ calls) :
    gate.run (calls + 1) inputs = some ((emitted gate.op gate.levels (mergeHeads calls pending)).map .sample) := by
  induction calls generalizing gate inputs pending with
  | zero =>
    have hstep := work_running h
    cases hedge : earliest Sample.startTimeNs (pendingHeads (pending.map List.head?)) with
    | none =>
      rw [hedge] at hstep
      obtain ⟨hresult, hsent⟩ := hstep
      rw [run, hresult, hsent]
      rfl
    | some edge =>
      obtain ⟨rest, hrest, -⟩ := earliest_heads hedge
      have hsum := sum_length_tail hrest
      omega
  | succ calls ih =>
    have hstep := work_running h
    cases hedge : earliest Sample.startTimeNs (pendingHeads (pending.map List.head?)) with
    | none =>
      rw [hedge] at hstep
      obtain ⟨hresult, hsent⟩ := hstep
      rw [run, hresult, hsent, mergeHeads, hedge]
      rfl
    | some edge =>
      rw [hedge] at hstep
      obtain ⟨⟨count, hresult⟩, hsent, hop, hlevels, hnext⟩ := hstep
      obtain ⟨rest, hrest, -⟩ := earliest_heads hedge
      have hsum := sum_length_tail hrest
      rw [run, hresult, hsent, mergeHeads, hedge]
      dsimp only
      rw [ih hnext (by omega), hop, hlevels]
      simp [emitted]

theorem applyEdge_sent (gate : LogicGate) (inputs : List GateInput) (sent : List (ChannelMessage Sample)) :
    gate.applyEdge inputs sent = { gate.applyEdge inputs [] with sent := sent ++ (gate.applyEdge inputs []).sent } := by
  rw [applyEdge, applyEdge]
  split
  · exact congrArg (WorkCall.mk _ _ _) (List.append_nil sent).symm
  · dsimp only
    split
    · exact congrArg (WorkCall.mk _ _ _) (List.append_nil sent).symm
    · rfl

theorem work_unstarted (h : gate.started = false) : gate.work inputs true =
    { gate.start.1.work inputs true with sent := gate.start.2 ++ (gate.start.1.work inputs true).sent } := by
  have hstarted : gate.start.1.start = (gate.start.1, []) := by
    rw [start, if_pos]
    rw [start, h]
    rfl
  rw [work, work, if_neg (by simp), if_neg (by simp), hstarted]
  dsimp only
  split
  · exact congrArg (WorkCall.mk _ _ _) (List.append_nil _).symm
  · split
    · exact congrArg (WorkCall.mk _ _ _) (List.append_nil _).symm
    · exact applyEdge_sent _ _ _

theorem run_unstarted (h : gate.started = false) :
    gate.run (calls + 1) inputs = (gate.start.1.run (calls + 1) inputs).map (gate.start.2 ++ ·) := by
  rw [run, run, work_unstarted h]
  dsimp only
  cases (gate.start.1.work inputs true).result with
  | ok count =>
    rw [Option.map_map]
    exact congrArg (Option.map · _) (funext fun sent => List.append_assoc _ _ _)
  | error error =>
    cases error with
    | shutdown => rfl
    | nodeError text => rfl
    | panicked text => rfl

variable {streams : List (List Sample)}

theorem running_start (op : GateOp) (h : List.Forall₂ (GateInput.Ahead none) streams inputs)
    (ordered : TimeOrdered streams) : (new op streams.length).start.1.Running inputs streams := by
  have hzero : ∀ t : UInt64, 0 ≤ t := fun t => UInt64.le_iff_toNat_le.mpr (Nat.zero_le _)
  refine ⟨⟨?_, ?_, fun i l hl => ?_⟩, rfl, rfl, fun l _ sample _ => hzero _, ordered⟩
  · exact List.length_replicate
  · exact List.length_replicate
  · have hi : i < streams.length := (List.getElem?_eq_some_iff.mp hl).1
    have hin : i < inputs.length := h.length_eq ▸ hi
    have hahead := (List.forall₂_iff_get.mp h).2 i hi hin
    rw [List.get_eq_getElem, List.get_eq_getElem, (List.getElem?_eq_some_iff.mp hl).2] at hahead
    refine ⟨inputs[i], none, none, false, l, List.getElem?_eq_getElem hin, ?_, ?_, ?_, hahead, rfl, by simp⟩
    · exact List.getElem?_replicate_of_lt hi
    · exact List.getElem?_replicate_of_lt hi
    · exact List.getElem?_replicate_of_lt hi

theorem run_streams (op : GateOp) (h : List.Forall₂ (GateInput.Ahead none) streams inputs)
    (ordered : TimeOrdered streams) (hc : (streams.map List.length).sum ≤ calls) :
    (new op streams.length).run (calls + 1) inputs =
      some ((⟨op.combine (List.replicate streams.length false), 0⟩ ::
        emitted op (List.replicate streams.length false) (mergeHeads calls streams)).map .sample) := by
  rw [run_unstarted rfl, run_running (running_start op h ordered) hc]
  rfl

end LogicGate

namespace Recording

variable (r : Recording)

def stamp (p : Nat) : UInt64 := saturatingMulU64 (UInt64.ofNat p) r.timestampStep

def sampleAt (channel : CaptureChannel) (p : Nat) : Sample := ⟨channel.level p, r.stamp p⟩

/-- What a channel delivers: its level at the start, then its edges. -/
def samples (channel : CaptureChannel) : List Sample :=
  (0 :: edgesAfter channel.level r.total 0).map (r.sampleAt channel)

variable {r} {channel : CaptureChannel}

/-- An input that carries a channel, asked for its edges or fed the stream of them. -/
inductive Feeds (r : Recording) (channel : CaptureChannel) : GateInput → Prop
  | query : r.Feeds channel (.query (r.query channel))
  | streamed {messages : List (ChannelMessage Sample)} (items : streamItems messages = r.samples channel) :
    r.Feeds channel (.streamed (.new messages))

theorem query_delivers (channel : CaptureChannel) (position : UInt64) :
    (r.query channel).Delivers (some position)
      ((edgesAfter channel.level r.total position.toNat).map (r.sampleAt channel)) := by
  generalize hl : edgesAfter channel.level r.total position.toNat = positions
  induction positions generalizing position with
  | nil => exact .ended ((r.query_nextEdge channel position).trans (by rw [hl]; rfl))
  | cons p rest ih =>
    obtain ⟨hpt, -, -, -, hrest⟩ := edgesAfter_cons hl
    refine .sample ((r.query_nextEdge channel position).trans (by rw [hl]; rfl)) (ih (.ofNat p) ?_)
    rw [r.ofNat_toNat hpt, hrest]

theorem Feeds.ahead {input : GateInput} (h : r.Feeds channel input) :
    input.Ahead none (r.samples channel) := by
  cases h with
  | query => exact .sample rfl (query_delivers channel 0)
  | streamed items => exact ⟨settled_of_eq rfl, items⟩

theorem stamp_toNat {p : Nat} (hp : p < r.total) : (r.stamp p).toNat = min (p * r.timestampStep.toNat) u64Max := by
  have hpos := r.ofNat_toNat hp
  unfold stamp saturatingMulU64
  rw [hpos]
  split
  · next hlt =>
    rw [UInt64.toNat_mul, hpos, Nat.mod_eq_of_lt hlt]
    exact (Nat.min_eq_left (by unfold u64Max; omega)).symm
  · next hge =>
    rw [Nat.min_eq_right (by unfold u64Max; omega)]
    rfl

theorem stamp_mono {p q : Nat} (hpq : p ≤ q) (hq : q < r.total) : r.stamp p ≤ r.stamp q := by
  rw [UInt64.le_iff_toNat_le, stamp_toNat hq, stamp_toNat (Nat.lt_of_le_of_lt hpq hq)]
  have hmul := Nat.mul_le_mul_right r.timestampStep.toNat hpq
  omega

theorem stamp_zero : r.stamp 0 = 0 := by
  have hzero := @stamp_toNat r 0 r.positive
  rw [Nat.zero_mul, Nat.zero_min] at hzero
  exact UInt64.toNat_inj.mp hzero

theorem positions_sorted (channel : CaptureChannel) :
    (0 :: edgesAfter channel.level r.total 0).Pairwise (· < ·) :=
  List.pairwise_cons.mpr ⟨fun _ hp => (mem_edgesAfter.mp hp).2.1, edgesAfter_sorted⟩

theorem positions_lt {p : Nat} (hp : p ∈ 0 :: edgesAfter channel.level r.total 0) : p < r.total := by
  rcases List.mem_cons.mp hp with rfl | hp
  · exact r.positive
  · exact (mem_edgesAfter.mp hp).1

theorem samples_ordered (r : Recording) : TimeOrdered (r.channels.map r.samples) := by
  intro l hl
  obtain ⟨channel, -, rfl⟩ := List.mem_map.mp hl
  rw [samples, List.pairwise_map]
  refine (r.positions_sorted channel).imp_of_mem fun _ hq hpq => ?_
  exact stamp_mono hpq.le (positions_lt hq)

/-- The number of edges and initial levels that the channels deliver. -/
def sampleCount (r : Recording) : Nat := ((r.channels.map r.samples).map List.length).sum

/-- A gate over captures sends its output at the start and what the merged edges make of it, and shuts down. -/
theorem run_gate (op : GateOp) (h : List.Forall₂ r.Feeds r.channels inputs) (hc : r.sampleCount ≤ calls) :
    (LogicGate.new op r.channels.length).run (calls + 1) inputs =
      some ((⟨op.combine (List.replicate r.channels.length false), 0⟩ ::
        LogicGate.emitted op (List.replicate r.channels.length false)
          (mergeHeads calls (r.channels.map r.samples))).map .sample) := by
  have hahead : List.Forall₂ (GateInput.Ahead none) (r.channels.map r.samples) inputs :=
    List.forall₂_map_left_iff.mpr (h.imp fun _ _ hfeeds => hfeeds.ahead)
  have hrun := LogicGate.run_streams op hahead r.samples_ordered hc
  rwa [List.length_map] at hrun

end Recording

end LogicConduit
