import LogicConduit.GateTimes

namespace LogicConduit

inductive GateInput.Carries (stream : List Sample) : GateInput → Prop
  | query {edges : EdgeQuery} (delivers : edges.Delivers none stream) : Carries stream (.query edges)
  | streamed {messages : List (ChannelMessage Sample)} (items : streamItems messages = stream) :
    Carries stream (.streamed (.new messages))

def streamLevel (stream : List Sample) (t : UInt64) : Bool :=
  (((stream.filter (·.startTimeNs ≤ t)).map Sample.value).getLast?).getD false

theorem GateInput.Carries.ahead {stream : List Sample} {input : GateInput} (h : input.Carries stream) :
    input.Ahead none stream := by
  cases h with
  | query delivers => exact delivers
  | streamed items => exact ⟨settled_of_eq rfl, items⟩

namespace LogicGate

variable {op : GateOp} {levels : List Bool} {edges : List (Nat × Sample)} {first : Sample}

theorem emitted_chain (hfirst : first.value = op.combine levels) :
    (first :: emitted op levels edges).IsChain fun a b => a.value ≠ b.value := by
  induction edges generalizing levels first with
  | nil => exact List.IsChain.singleton _
  | cons edge edges ih =>
    rw [emitted]
    split
    · next hsame => exact ih (hfirst.trans (beq_iff_eq.mp hsame).symm)
    · next hchange =>
      refine List.IsChain.cons_cons ?_ (ih rfl)
      rw [hfirst]
      exact fun heq => hchange (beq_iff_eq.mpr heq.symm)

theorem emitted_last (hfirst : first.value = op.combine levels) :
    ((first :: emitted op levels edges).map Sample.value).getLast? = some (op.combine (applied levels edges)) := by
  induction edges generalizing levels first with
  | nil => exact congrArg some hfirst
  | cons edge edges ih =>
    rw [emitted]
    split
    · next hsame => exact ih (hfirst.trans (beq_iff_eq.mp hsame).symm)
    · rw [List.singleton_append, List.map_cons, List.map_cons, List.getLast?_cons_cons, ← List.map_cons]
      exact ih rfl

theorem emitted_upTo (sorted : edges.Pairwise fun a b => a.2.startTimeNs ≤ b.2.startTimeNs) (t : UInt64) :
    (emitted op levels edges).filter (fun sample => sample.startTimeNs ≤ t) =
      emitted op levels (edges.filter fun edge => edge.2.startTimeNs ≤ t) := by
  induction edges generalizing levels with
  | nil => rfl
  | cons edge edges ih =>
    obtain ⟨hfirst, hrest⟩ := List.pairwise_cons.mp sorted
    by_cases hle : edge.2.startTimeNs ≤ t
    · rw [List.filter_cons_of_pos (by simpa using hle), emitted, emitted, List.filter_append, ih hrest]
      split
      · rfl
      · rw [List.filter_cons_of_pos (by simpa using hle)]
        rfl
    · have hlater : ∀ later ∈ edge :: edges, ¬later.2.startTimeNs ≤ t := by
        intro later hmem hbefore
        rcases List.mem_cons.mp hmem with rfl | hmem
        · exact hle hbefore
        · exact hle (UInt64.le_trans (hfirst later hmem) hbefore)
      have hnone : (edge :: edges).filter (fun edge => edge.2.startTimeNs ≤ t) = [] :=
        List.filter_eq_nil_iff.mpr fun later hmem => by simpa using hlater later hmem
      rw [hnone]
      refine List.filter_eq_nil_iff.mpr fun sample hs => ?_
      obtain ⟨later, hmem, htime⟩ := emitted_time hs
      simpa [← htime] using hlater later hmem

end LogicGate

section Levels

variable {op : GateOp} {streams : List (List Sample)} {inputs : List GateInput} {count : Nat}

theorem applied_streams (hc : (streams.map List.length).sum ≤ count) (t : UInt64) :
    applied (List.replicate streams.length false)
        ((mergeHeads count streams).filter fun edge => edge.2.startTimeNs ≤ t) =
      streams.map fun stream => streamLevel stream t := by
  refine List.ext_getElem (by rw [applied_length, List.length_replicate, List.length_map]) fun i hi hi' => ?_
  rw [List.length_map] at hi'
  have hlevel := applied_getElem? (List.replicate streams.length false)
    ((mergeHeads count streams).filter fun edge => edge.2.startTimeNs ≤ t) i (by rwa [List.length_replicate])
  rw [List.getElem?_eq_getElem hi, List.filter_comm, List.getElem_replicate] at hlevel
  have hstream := mergeHeads_input hc i
  rw [List.getElem?_eq_getElem hi', Option.getD_some] at hstream
  rw [Option.some.inj hlevel, List.getElem_map, streamLevel, ← hstream, List.filter_map, List.map_map]
  rfl

/-- The output is in the order of time, each of its samples is a change, and at every time its last sample is the
operation of the levels that the streams have then. -/
theorem gate_follows_levels (op : GateOp) (h : List.Forall₂ GateInput.Carries streams inputs)
    (ordered : TimeOrdered streams) :
    ∃ output : List Sample,
      (∀ calls, (streams.map List.length).sum < calls →
        (LogicGate.new op streams.length).run calls inputs = some (output.map .sample)) ∧
      (output.Pairwise fun a b => a.startTimeNs ≤ b.startTimeNs) ∧
      (output.IsChain fun a b => a.value ≠ b.value) ∧
      ∀ t, ((output.filter (·.startTimeNs ≤ t)).map Sample.value).getLast? =
        some (op.combine (streams.map fun stream => streamLevel stream t)) := by
  set count := (streams.map List.length).sum
  set low := List.replicate streams.length false
  have hsorted : (mergeHeads count streams).Pairwise fun a b => a.2.startTimeNs ≤ b.2.startTimeNs :=
    (mergeHeads_sorted ordered le_rfl).imp NoLater.time_le
  refine ⟨⟨op.combine low, 0⟩ :: LogicGate.emitted op low (mergeHeads count streams), fun calls hcalls => ?_, ?_, ?_,
    fun t => ?_⟩
  · obtain ⟨fewer, rfl⟩ : ∃ fewer, calls = fewer + 1 := ⟨calls - 1, by omega⟩
    have henough : count ≤ fewer := by omega
    rw [LogicGate.run_streams op (h.imp fun _ _ hcarries => hcarries.ahead) ordered henough,
      mergeHeads_enough henough (Nat.le_refl count)]
  · exact List.pairwise_cons.mpr ⟨fun _ _ => UInt64.le_iff_toNat_le.mpr (Nat.zero_le _), LogicGate.emitted_sorted hsorted⟩
  · exact LogicGate.emitted_chain rfl
  · rw [List.filter_cons_of_pos (by simp), LogicGate.emitted_upTo hsorted, LogicGate.emitted_last rfl,
      applied_streams le_rfl]

/-- A channel that is high from its sample 100 up to its sample 400. -/
def pulseQuery : EdgeQuery where
  timestampStep := 1
  totalSamples := 1000
  valueAt position := .ok (100 ≤ position && position < 400)
  nextEdge position _ :=
    .ok (if position < 100 then some (100, true) else if position < 400 then some (400, false) else none)

/-- The conjunction of the channel with a stream that is high from 200 up to 300. -/
theorem gate_follows_pulse : ∃ output : List Sample,
    (∀ calls, 5 < calls → (LogicGate.new .and 2).run calls
      [.query pulseQuery, .streamed (.new [.sample ⟨true, 200⟩, .sample ⟨false, 300⟩])] =
        some (output.map .sample)) ∧
    (output.Pairwise fun a b => a.startTimeNs ≤ b.startTimeNs) ∧
    (output.IsChain fun a b => a.value ≠ b.value) ∧
    ∀ t, ((output.filter (·.startTimeNs ≤ t)).map Sample.value).getLast? =
      some (GateOp.and.combine ([[⟨false, 0⟩, ⟨true, 100⟩, ⟨false, 400⟩], [⟨true, 200⟩, ⟨false, 300⟩]].map fun stream =>
        streamLevel stream t)) := by
  have hstart : LogicGate.queryHead pulseQuery none = .ok (some (0, false)) := rfl
  have hrise : LogicGate.queryHead pulseQuery (some 0) = .ok (some (100, true)) := rfl
  have hfall : LogicGate.queryHead pulseQuery (some 100) = .ok (some (400, false)) := rfl
  have hended : LogicGate.queryHead pulseQuery (some 400) = .ok none := rfl
  have hquery : pulseQuery.Delivers none [⟨false, 0⟩, ⟨true, 100⟩, ⟨false, 400⟩] :=
    .sample hstart (.sample hrise (.sample hfall (.ended hended)))
  have hordered : TimeOrdered [[⟨false, 0⟩, ⟨true, 100⟩, ⟨false, 400⟩], [⟨true, 200⟩, ⟨false, 300⟩]] := by
    unfold TimeOrdered
    decide
  have hfed : (GateInput.streamed (.new [.sample ⟨true, 200⟩, .sample ⟨false, 300⟩])).Carries
      [⟨true, 200⟩, ⟨false, 300⟩] := .streamed rfl
  exact gate_follows_levels .and (.cons (.query hquery) (.cons hfed .nil)) hordered

end Levels

end LogicConduit
