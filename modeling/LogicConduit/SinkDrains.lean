import LogicConduit.FilenameSinks

namespace LogicConduit

/-- Some words from the front of what is left, or the end of the stream. -/
def DrainsFront (data : Inbox Word) (result : Except WorkError (List Word) × Inbox Word) : Prop :=
  result.2.Settled ∧
    match result.1 with
    | .ok batch => batch ≠ [] ∧ data.undelivered = batch ++ result.2.undelivered
    | .error _ => data.undelivered = []

section Data

variable {data : Inbox Word}

theorem attempt_takes {call : ReceiverCall Word} {result : Except TryRecvError (List Word) × Inbox Word}
    (h : CallServed data call (answerOf TryRecvError.answer .items result)) :
    result.2.Settled ∧ data.undelivered = (result.1.toOption.getD []) ++ result.2.undelivered := by
  obtain ⟨result, next⟩ := result
  cases result with
  | ok batch => exact ⟨h.1, h.2.1⟩
  | error error =>
    cases error with
    | empty => exact ⟨h.1, h.2.2.symm⟩
    | disconnected => exact ⟨h.1, h.2.1.trans h.2.2.symm⟩

theorem moreBatches_takes (arrived : Nat → Arrivals) (calls : Nat) (batch : List Word) (h : data.Settled) :
    (BinaryFileWriter.moreBatches arrived calls batch data).2.Settled ∧
      ∃ more, (BinaryFileWriter.moreBatches arrived calls batch data).1 = batch ++ more ∧
        data.undelivered = more ++ (BinaryFileWriter.moreBatches arrived calls batch data).2.undelivered := by
  induction calls generalizing batch data with
  | zero => exact ⟨h, [], (List.append_nil batch).symm, rfl⟩
  | succ calls ih =>
    rw [BinaryFileWriter.moreBatches]
    split
    · obtain ⟨hsettled, htaken⟩ :=
        attempt_takes (run_served .tryRecvBatch (arrived calls) h fun item hcall => by cases hcall)
      rcases htry : data.tryRecvBatch (arrived calls) with ⟨result, next⟩
      rw [htry] at hsettled htaken
      cases result with
      | ok first =>
        obtain ⟨hlast, more, hbatch, hrest⟩ := ih (batch ++ first) hsettled
        refine ⟨hlast, first ++ more, ?_, ?_⟩
        · rw [hbatch, List.append_assoc]
        · rw [htaken, hrest, List.append_assoc]
          rfl
      | error error => exact ⟨hsettled, [], (List.append_nil batch).symm, htaken⟩
    · exact ⟨h, [], (List.append_nil batch).symm, rfl⟩

theorem binary_drained (arrived : Nat → Arrivals) (h : data.Settled) : DrainsFront data (BinaryFileWriter.drain arrived data) := by
  have hserved := run_served .recvBatch awaited h (fun item hcall => by cases hcall)
  rw [ReceiverCall.run] at hserved
  rw [BinaryFileWriter.drain]
  rcases hrecv : data.recvBatch with ⟨result, next⟩
  rw [hrecv] at hserved
  cases result with
  | error error =>
    cases error
    exact ⟨hserved.1, hserved.2.1⟩
  | ok first =>
    have hnext : next.Settled := hserved.1
    obtain ⟨hsettled, more, hbatch, hrest⟩ := moreBatches_takes arrived drainBatchSize first hnext
    refine ⟨hsettled, ?_, ?_⟩
    · rw [hbatch]
      exact List.append_ne_nil_of_left_ne_nil hserved.2.2 more
    · dsimp only
      rw [hbatch, List.append_assoc, ← hrest]
      exact hserved.2.1

theorem csv_drained (arrived : Arrivals) (h : data.Settled) : DrainsFront data (CsvWordWriter.drain arrived data) := by
  have hserved := run_served .recv awaited h (fun item hcall => by cases hcall)
  rw [ReceiverCall.run] at hserved
  rw [CsvWordWriter.drain]
  rcases hrecv : data.recv with ⟨result, next⟩
  rw [hrecv] at hserved
  cases result with
  | error error =>
    cases error
    exact ⟨hserved.1, hserved.2.1⟩
  | ok first =>
    have hfirst : data.undelivered = first :: next.undelivered := hserved.2.1
    have hnext : next.Settled := hserved.1
    obtain ⟨hsettled, htaken⟩ := attempt_takes (tryRecvMany_served arrived (drainBatchSize - 1) hnext)
    dsimp only
    rcases hmany : next.tryRecvMany arrived (drainBatchSize - 1) with ⟨result, last⟩
    rw [hmany] at hsettled htaken
    cases result with
    | ok more =>
      refine ⟨hsettled, List.cons_ne_nil first more, ?_⟩
      rw [hfirst, htaken]
      rfl
    | error error =>
      refine ⟨hsettled, List.cons_ne_nil first [], ?_⟩
      rw [hfirst, htaken]
      rfl

end Data

def dueBy (time : Nat) (names : List TextSample) : List TextSample := names.takeWhile fun change => change.time ≤ time

def dueAfter (time : Nat) (names : List TextSample) : List TextSample := names.dropWhile fun change => change.time ≤ time

section Due

variable {time : Nat} {change : TextSample} (names : List TextSample)

theorem dueBy_cons_of_le (h : change.time ≤ time) : dueBy time (change :: names) = change :: dueBy time names := by
  simp [dueBy, h]

theorem dueBy_cons_of_lt (h : time < change.time) : dueBy time (change :: names) = [] := by
  simp [dueBy, h]

theorem dueAfter_cons_of_le (h : change.time ≤ time) : dueAfter time (change :: names) = dueAfter time names := by
  simp [dueAfter, h]

theorem dueAfter_cons_of_lt (h : time < change.time) : dueAfter time (change :: names) = change :: names := by
  simp [dueAfter, h]

end Due

theorem pullNames_takes {names : Inbox TextSample} {batchEndNs rounds : Nat} (pending : List TextSample)
    (hrounds : names.available.length < rounds) :
    ∃ next, pullNames batchEndNs rounds pending names = (.ok (), pending ++ dueBy batchEndNs names.available, next) ∧
      next.available = dueAfter batchEndNs names.available := by
  induction rounds generalizing pending names with
  | zero => exact absurd hrounds (Nat.not_lt_zero _)
  | succ rounds ih =>
    rw [pullNames]
    cases hnames : names.available with
    | nil =>
      obtain ⟨next, hpeek, hnext⟩ := peek_ended hnames
      refine ⟨next, ?_, hnext⟩
      rw [hpeek]
      exact congrArg (fun taken => (_, taken, _)) (List.append_nil pending).symm
    | cons change rest =>
      obtain ⟨peeked, hpeek, havailable, -⟩ := peek_item hnames
      rw [hpeek]
      dsimp only
      split
      next hdue =>
        obtain ⟨next, hrecv, hnext, -⟩ := recv_item havailable
        have hlength : next.available.length < rounds := by
          rw [hnames, List.length_cons] at hrounds
          rw [hnext]
          omega
        obtain ⟨last, hpull, hlast⟩ := ih (pending ++ [change]) hlength
        refine ⟨last, ?_, ?_⟩
        · rw [hrecv]
          dsimp only
          rw [hpull, hnext, dueBy_cons_of_le rest hdue, List.append_assoc]
          rfl
        · rw [hlast, hnext, dueAfter_cons_of_le rest hdue]
      next hdue =>
        refine ⟨peeked, ?_, ?_⟩
        · rw [dueBy_cons_of_lt rest (Nat.lt_of_not_le hdue), List.append_nil]
        · rw [havailable, dueAfter_cons_of_lt rest (Nat.lt_of_not_le hdue)]

end LogicConduit
