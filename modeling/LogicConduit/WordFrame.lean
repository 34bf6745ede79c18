import LogicConduit.WordWriter

namespace LogicConduit

open Prog

/-- The writer is the one it was, its history has only grown, and its last timestamp is the one it was
or that of one of the words. -/
structure Follows (words : List Word) (m next : Machine) : Prop where
  persistence : next.writer.persistence = m.writer.persistence
  storeIdentity : next.store.storeIdentity = m.store.storeIdentity
  history : m.history <+: next.history
  lastTimestampNs : next.writer.lastTimestampNs = m.writer.lastTimestampNs ∨
    ∃ word ∈ words, next.writer.lastTimestampNs = some word.time

instance (words : List Word) : IsPreorder Machine (Follows words) where
  refl _ := ⟨rfl, rfl, List.prefix_rfl, Or.inl rfl⟩
  trans _ _ _ h h' := by
    refine ⟨h'.persistence.trans h.persistence, h'.storeIdentity.trans h.storeIdentity,
      h.history.trans h'.history, ?_⟩
    rcases h'.lastTimestampNs with hlast | hword
    · rw [hlast]
      exact h.lastTimestampNs
    · exact Or.inr hword

theorem Follows.of_writer {words : List Word} {m next : Machine}
    (hp : next.writer.persistence = m.writer.persistence)
    (hl : next.writer.lastTimestampNs = m.writer.lastTimestampNs) (hs : next.store = m.store)
    (hh : next.history = m.history) : Follows words m next :=
  ⟨hp, congrArg Store.storeIdentity hs, hh ▸ List.prefix_rfl, Or.inl hl⟩

def WriterOp.words : WriterOp → List Word
  | .append word => [word]
  | .appendBatch words => words
  | .appendBatches batches => batches.flatten
  | _ => []

section Frame

variable {checksum : BlockChecksum} {words : List Word} {batch : List Word}

theorem ask_moves : Moves (Follows words) ask := fun _ => .of_writer rfl rfl rfl rfl

theorem request_moves : Moves (Follows words) request := by
  refine ask_moves.bind fun choice => ?_
  cases choice.refused with
  | none => exact moves_pure ()
  | some error => exact moves_fail _

theorem touch_moves {f : Store → Store} (h : ∀ store, (f store).storeIdentity = store.storeIdentity) :
    Moves (Follows words) (touch f) := by
  refine moves_modify fun m => ⟨rfl, h m.store, ?_, Or.inl rfl⟩
  exact List.prefix_append _ _

theorem setState_moves (f : LiveState → LiveState) : Moves (Follows words) (setState f) :=
  touch_moves fun _ => rfl

theorem setWriter_moves {f : Writer → Writer} (hp : ∀ writer, (f writer).persistence = writer.persistence)
    (hl : ∀ writer, (f writer).lastTimestampNs = writer.lastTimestampNs) :
    Moves (Follows words) (setWriter f) := by
  exact moves_modify fun m => .of_writer (hp m.writer) (hl m.writer) rfl rfl

theorem publishActiveSegment_moves : Moves (Follows words) publishActiveSegment := by
  refine moves_get.bind fun m => ?_
  cases m.writer.activeSegment with
  | none => exact moves_pure ()
  | some segment =>
    refine Moves.bind (setWriter_moves (fun _ => rfl) fun _ => rfl) fun _ => ?_
    refine request_moves.bind fun _ => request_moves.bind fun _ => ?_
    exact Moves.bind (touch_moves fun _ => rfl) fun _ => touch_moves fun _ => rfl

theorem prepareActiveSegment_moves (blockLen : Nat) : Moves (Follows words) (prepareActiveSegment blockLen) := by
  have hrotate : Moves (Follows words) (rotateSegment blockLen) :=
    moves_get.bind fun _ => moves_ite publishActiveSegment_moves (moves_pure ())
  refine hrotate.bind fun _ => moves_get.bind fun _ => moves_ite ?_ (moves_pure ())
  exact request_moves.bind fun _ => setWriter_moves (fun _ => rfl) fun _ => rfl

theorem stageBlock_moves (sequence : Nat) (encoded : Bytes) :
    Moves (Follows words) (stageBlock sequence encoded) := by
  intro m
  unfold stageBlock
  cases m.writer.activeSegment with
  | none => exact .of_writer rfl rfl rfl rfl
  | some segment =>
    simp only []
    split <;> exact .of_writer rfl rfl rfl rfl

theorem commitEntry_moves (entry : BlockDirectoryEntry) (summaries : List WordSummaryRecord)
    (block : PreparedBlock) : Moves (Follows words) (commitEntry entry summaries block) := by
  have hstate : Moves (Follows words) (commitState entry summaries) := by
    intro m
    unfold commitState
    split
    · exact .of_writer rfl rfl rfl rfl
    · exact setState_moves _ m
  exact Moves.bind (touch_moves fun _ => rfl) fun _ => hstate.bind fun _ => setWriter_moves (fun _ => rfl) fun _ => rfl

theorem commitPreparedBlock_moves (block : PreparedBlock) :
    Moves (Follows words) (commitPreparedBlock block) := by
  unfold commitPreparedBlock
  cases block.result with
  | error e => exact moves_fail _
  | ok encoded =>
    refine (prepareActiveSegment_moves _).bind fun _ => request_moves.bind fun _ => ?_
    refine (stageBlock_moves _ _).bind fun place => moves_get.bind fun _ => ?_
    exact commitEntry_moves _ _ _

theorem commitOrderedBlocks_moves : Moves (Follows words) commitOrderedBlocks := by
  refine moves_get.bind fun m => ?_
  have htake : Moves (Follows words) takePrepared := by
    intro m
    unfold takePrepared
    split <;> exact .of_writer rfl rfl rfl rfl
  generalize m.writer.preparedBlocks.length = fuel
  induction fuel with
  | zero => exact moves_pure ()
  | succ fuel ih =>
    refine htake.bind fun taken => ?_
    cases taken with
    | none => exact moves_pure ()
    | some block => exact (commitPreparedBlock_moves block).bind fun _ => ih

theorem acceptCompletedBlock_moves (sequence : Nat) (block : Option PreparedBlock) :
    Moves (Follows words) (acceptCompletedBlock sequence block) := by
  intro m
  unfold acceptCompletedBlock
  split
  · exact .of_writer rfl rfl rfl rfl
  · cases block with
    | none => exact .of_writer rfl rfl rfl rfl
    | some block =>
      simp only []
      split <;> exact .of_writer rfl rfl rfl rfl

theorem takeCompletion_moves (panics : Bool) (position : Nat) :
    Moves (Follows words) (takeCompletion checksum panics position) := by
  intro m
  unfold takeCompletion
  split <;> exact .of_writer rfl rfl rfl rfl

theorem drainCompletedBlocks_moves : Moves (Follows words) (drainCompletedBlocks checksum) := by
  refine moves_get.bind fun m => Moves.bind ?_ fun _ => commitOrderedBlocks_moves
  have hrecv : Moves (Follows words) (tryRecv checksum) := by
    refine ask_moves.bind fun choice => ?_
    cases choice.completed with
    | none => exact moves_pure none
    | some position => exact takeCompletion_moves _ _
  generalize m.writer.jobs.length = fuel
  induction fuel with
  | zero => exact moves_pure ()
  | succ fuel ih =>
    refine hrecv.bind fun received => ?_
    cases received with
    | none => exact moves_pure ()
    | some completion => exact (acceptCompletedBlock_moves _ _).bind fun _ => ih

theorem receiveAndCommit_moves : Moves (Follows words) (receiveAndCommit checksum) := by
  have hrecv : Moves (Follows words) (recv checksum) :=
    ask_moves.bind fun _ => moves_get.bind fun _ => takeCompletion_moves _ _
  refine Moves.bind (hrecv.bind fun received => ?_) fun _ => commitOrderedBlocks_moves
  cases received with
  | none => exact moves_fail _
  | some completion => exact acceptCompletedBlock_moves _ _

theorem flushDispatchedBlocks_moves : Moves (Follows words) (flushDispatchedBlocks checksum) := by
  refine moves_get.bind fun _ => moves_while ?_ _
  exact moves_get.bind fun _ => moves_ite commitOrderedBlocks_moves receiveAndCommit_moves

theorem dispatchCurrentBlock_moves : Moves (Follows words) (dispatchCurrentBlock checksum) := by
  have hsubmit : Moves (Follows words) submitBlock := by
    intro m
    unfold submitBlock
    simp only []
    split
    · exact .of_writer rfl rfl rfl rfl
    · split <;> exact .of_writer rfl rfl rfl rfl
  refine moves_get.bind fun _ => moves_ite (moves_pure ()) ?_
  refine drainCompletedBlocks_moves.bind fun _ => ?_
  exact (moves_get.bind fun _ => moves_while receiveAndCommit_moves _).bind fun _ => hsubmit

theorem checkOrder_moves (hb : ∀ word ∈ batch, word ∈ words) :
    Moves (Follows words) (checkOrder batch) := by
  induction batch with
  | nil => exact moves_pure ()
  | cons word rest ih =>
    intro m
    show Follows words m (if _ then _ else _ : Except Halt Unit × Machine).2
    split
    · exact .of_writer rfl rfl rfl rfl
    · have hnext : Follows words m { m with writer := { m.writer with lastTimestampNs := some word.time } } :=
        ⟨rfl, rfl, List.prefix_rfl, Or.inr ⟨word, hb word List.mem_cons_self, rfl⟩⟩
      exact trans_of (Follows words) hnext (ih (fun other hm => hb other (List.mem_cons_of_mem _ hm)) _)

theorem appendWords_moves (fuel : Nat) (batch : List Word) :
    Moves (Follows words) (appendWords checksum fuel batch) := by
  induction fuel generalizing batch with
  | zero =>
    cases batch with
    | nil => exact moves_pure ()
    | cons word rest => exact moves_fail _
  | succ fuel ih =>
    cases batch with
    | nil => exact moves_pure ()
    | cons word rest =>
      refine Moves.bind (fun _ => .of_writer rfl rfl rfl rfl) fun accepted => Moves.bind ?_ fun _ => ih _
      exact moves_get.bind fun _ => moves_ite dispatchCurrentBlock_moves (moves_pure ())

theorem appendBatchInner_moves (hb : ∀ word ∈ batch, word ∈ words) :
    Moves (Follows words) (appendBatchInner checksum batch) := by
  refine drainCompletedBlocks_moves.bind fun _ => (checkOrder_moves hb).bind fun _ => ?_
  exact (appendWords_moves _ _).bind fun _ => drainCompletedBlocks_moves

theorem publishHotTailInner_moves : Moves (Follows words) publishHotTailInner :=
  moves_get.bind fun _ => (setState_moves _).bind fun _ => setWriter_moves (fun _ => rfl) fun _ => rfl

theorem publishAppendedPrefix_moves : Moves (Follows words) (publishAppendedPrefix checksum) := by
  refine drainCompletedBlocks_moves.bind fun _ => ask_moves.bind fun _ => moves_get.bind fun _ => ?_
  exact moves_ite publishHotTailInner_moves (moves_pure ())

theorem publishBytes_moves (key : ArtifactKey) (bytes : Bytes) : Moves (Follows words) (publishBytes key bytes) := by
  refine request_moves.bind fun _ => request_moves.bind fun _ => request_moves.bind fun _ => ?_
  exact request_moves.bind fun _ => request_moves.bind fun _ => touch_moves fun _ => rfl

theorem persistStore_moves : Moves (Follows words) (persistStore checksum) := by
  refine moves_get.bind fun m => ?_
  cases m.writer.persistence with
  | none => exact moves_pure ()
  | some key =>
    refine Moves.bind ?_ fun _ => touch_moves fun _ => rfl
    refine moves_get.bind fun m => ?_
    simp only []
    split
    · exact moves_fail _
    · exact (publishBytes_moves _ _).bind fun _ => ask_moves.bind fun _ => publishBytes_moves _ _

theorem ensureLive_moves : Moves (Follows words) ensureLive := by
  intro m
  unfold ensureLive
  split <;> exact .of_writer rfl rfl rfl rfl

theorem failMachine_follows (halt : Halt) (m : Machine) : Follows words m (failMachine halt m) := by
  cases halt with
  | error e =>
    refine ⟨rfl, ?_, List.prefix_append _ _, Or.inl rfl⟩
    show (m.store.markFailed e.display).storeIdentity = _
    unfold Store.markFailed
    split <;> rfl
  | blocked => exact .of_writer rfl rfl rfl rfl
  | panicked => exact .of_writer rfl rfl rfl rfl

theorem WriterOp.run_moves (op : WriterOp) : Moves (Follows op.words) (op.run checksum) := by
  have hbatch : ∀ batch, Moves (Follows batch) (LogicConduit.appendBatch checksum batch) := fun batch =>
    ensureLive_moves.bind fun _ => Moves.bind (fun _ => .of_writer rfl rfl rfl rfl) fun _ => Moves.onError
      ((appendBatchInner_moves fun _ hm => hm).bind fun _ => publishAppendedPrefix_moves) failMachine_follows
  cases op with
  | append word => exact hbatch [word]
  | appendBatch words => exact hbatch words
  | appendBatches batches =>
    have hall : ∀ some : List (List Word), (∀ batch ∈ some, batch ∈ batches) →
        Moves (Follows batches.flatten) (some.forM (appendBatchInner checksum)) := by
      intro some hsome
      induction some with
      | nil => exact moves_pure ()
      | cons batch rest ih =>
        refine Moves.bind (appendBatchInner_moves fun word hm => ?_) fun _ =>
          ih (fun other hm => hsome other (List.mem_cons_of_mem _ hm))
        exact List.mem_flatten.mpr ⟨batch, hsome batch List.mem_cons_self, hm⟩
    exact ensureLive_moves.bind fun _ => Moves.bind (fun _ => .of_writer rfl rfl rfl rfl) fun _ => Moves.onError
      ((hall batches fun _ hm => hm).bind fun _ => publishAppendedPrefix_moves) failMachine_follows
  | publishHotTail =>
    exact ensureLive_moves.bind fun _ => flushDispatchedBlocks_moves.bind fun _ => publishHotTailInner_moves
  | finish =>
    refine ensureLive_moves.bind fun _ => Moves.onError ?_ failMachine_follows
    refine dispatchCurrentBlock_moves.bind fun _ => flushDispatchedBlocks_moves.bind fun _ => ?_
    refine publishActiveSegment_moves.bind fun _ => persistStore_moves.bind fun _ => ?_
    exact (setState_moves _).bind fun _ => setWriter_moves (fun _ => rfl) fun _ => rfl
  | cancel =>
    have hdiscard : Moves (Follows []) discardActiveSegment := by
      refine moves_get.bind fun m => ?_
      cases m.writer.activeSegment with
      | none => exact moves_pure ()
      | some segment => exact Moves.bind (setWriter_moves (fun _ => rfl) fun _ => rfl) fun _ => touch_moves fun _ => rfl
    refine ensureLive_moves.bind fun _ => Moves.bind (setWriter_moves (fun _ => rfl) fun _ => rfl) fun _ => ?_
    exact hdiscard.bind fun _ => (setState_moves _).bind fun _ => setWriter_moves (fun _ => rfl) fun _ => rfl

end Frame

end LogicConduit
