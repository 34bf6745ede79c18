import LogicConduit.SinkRollover

namespace LogicConduit

variable {format : SinkFormat} {book : Rollover}

/-- The words taken one by one, each with the changes before it. -/
def Rollover.play (format : SinkFormat) (words : List Word) (state : List TextSample × Rollover) :
    List TextSample × Rollover :=
  words.foldl (Rollover.step format) state

/-- A name is in force, or will be before the next word. -/
def Ready (names : List TextSample) (book : Rollover) (words : List Word) : Prop :=
  book.name = none → ∀ word ∈ words.head?, ∃ change ∈ names.head?, change.time ≤ word.time

theorem ready_of_named (names : List TextSample) (words : List Word) (h : book.name ≠ none) : Ready names book words :=
  fun hnone => absurd hnone h

theorem turns_named (changes : List TextSample) (h : book.name ≠ none ∨ changes ≠ []) :
    (changes.foldl (Rollover.turn format) book).name ≠ none := by
  induction changes generalizing book with
  | nil => exact h.resolve_right fun hne => hne rfl
  | cons change changes ih => exact ih (Or.inl (Option.some_ne_none _))

theorem step_named {names : List TextSample} {word : Word} {words : List Word} (h : Ready names book (word :: words)) :
    (Rollover.step format (names, book) word).2.name ≠ none := by
  refine turns_named (dueBy word.time names) ?_
  by_cases hname : book.name = none
  · obtain ⟨change, hchange, hdue⟩ := h hname word rfl
    right
    cases names with
    | nil => cases hchange
    | cons first rest =>
      cases hchange
      rw [dueBy_cons_of_le rest hdue]
      exact List.cons_ne_nil _ _
  · exact Or.inl hname

theorem play_named {names : List TextSample} (words : List Word) (h : book.name ≠ none) :
    (Rollover.play format words (names, book)).2.name ≠ none := by
  induction words generalizing names book with
  | nil => exact h
  | cons word words ih => exact ih (turns_named (dueBy word.time names) (Or.inl h))

theorem dueBy_append {time : Nat} {names rest : List TextSample} (h : ∀ change ∈ rest.head?, time < change.time) :
    dueBy time (names ++ rest) = dueBy time names ∧ dueAfter time (names ++ rest) = dueAfter time names ++ rest := by
  induction names with
  | nil =>
    cases rest with
    | nil => exact ⟨rfl, rfl⟩
    | cons change rest =>
      have hlate := h change rfl
      exact ⟨dueBy_cons_of_lt rest hlate, dueAfter_cons_of_lt rest hlate⟩
  | cons name names ih =>
    by_cases hdue : name.time ≤ time
    · rw [List.cons_append, dueBy_cons_of_le _ hdue, dueAfter_cons_of_le _ hdue, dueBy_cons_of_le _ hdue,
        dueAfter_cons_of_le _ hdue]
      exact ⟨congrArg _ ih.1, ih.2⟩
    · have hlate := Nat.lt_of_not_le hdue
      rw [List.cons_append, dueBy_cons_of_lt _ hlate, dueAfter_cons_of_lt _ hlate, dueBy_cons_of_lt _ hlate,
        dueAfter_cons_of_lt _ hlate]
      exact ⟨rfl, rfl⟩

theorem play_append {rest : List TextSample} (words : List Word) (names : List TextSample) (book : Rollover)
    (h : ∀ word ∈ words, ∀ change ∈ rest.head?, word.time < change.time) :
    Rollover.play format words (names ++ rest, book) =
      ((Rollover.play format words (names, book)).1 ++ rest, (Rollover.play format words (names, book)).2) := by
  induction words generalizing names book with
  | nil => rfl
  | cons word words ih =>
    obtain ⟨hby, hafter⟩ := @dueBy_append word.time names rest (h word List.mem_cons_self)
    have hstep : Rollover.step format (names ++ rest, book) word =
        ((Rollover.step format (names, book) word).1 ++ rest, (Rollover.step format (names, book) word).2) := by
      rw [Rollover.step, hby, hafter]
      rfl
    rw [Rollover.play, List.foldl_cons, hstep]
    exact ih _ _ fun other hother => h other (List.mem_cons_of_mem word hother)

theorem stageWords_rolling {sink : FileSink} (words : List Word) (h : Rolling format book sink)
    (hready : Ready sink.pendingNames book words) :
    ∃ staged, sink.stageWords format words = .ok staged ∧
      Rolling format (Rollover.play format words (sink.pendingNames, book)).2 staged ∧
      staged.pendingNames = (Rollover.play format words (sink.pendingNames, book)).1 := by
  induction words generalizing sink book with
  | nil => exact ⟨sink, rfl, h, rfl⟩
  | cons word words ih =>
    have hnamed := @step_named format _ _ _ _ hready
    obtain ⟨next, hstage, hrolling, hpending⟩ := stageWord_rolling word h hnamed
    obtain ⟨staged, hstages, hlast, hnames⟩ := ih hrolling (ready_of_named _ words hnamed)
    refine ⟨staged, ?_, ?_, ?_⟩
    · rw [FileSink.stageWords, hstage]
      exact hstages
    · rw [hpending] at hlast
      exact hlast
    · rw [hpending] at hnames
      exact hnames

/-- A node between two calls: the book is kept up to the words taken, and the names behind them are pending or
still to come. -/
structure Stands (format : SinkFormat) (names : List TextSample) (book : Rollover) (words : List Word)
    (node : SinkNode) : Prop where
  rolling : Rolling format book node.sink
  flushed : node.sink.encodedBatch = []
  settled : node.data.Settled
  remaining : node.data.undelivered = words
  coming : ∃ inbox, node.names = some inbox ∧ names = node.sink.pendingNames ++ inbox.available
  ready : Ready names book words

def PutAway (format : SinkFormat) (book : Rollover) (node : SinkNode) : Prop :=
  node.sink.storage = (book.finish format).storage ∧ node.sink.filesClosed = (book.finish format).closed

section Work

variable {names : List TextSample} {words : List Word} {node : SinkNode} {batch rest : List Word}

theorem awaitName_stands (h : Stands format names book words node) :
    (∃ waiting, node.awaitName = (.ok (), waiting) ∧ Stands format names book words waiting) ∨
      words = [] ∧ ∃ waiting, node.awaitName = (.error .shutdown, waiting) ∧ PutAway format book waiting := by
  obtain ⟨inbox, hinbox, hnames⟩ := h.coming
  rw [SinkNode.awaitName, hinbox]
  dsimp only
  split
  next hwait =>
    have hname : book.name = none := h.rolling.named.symm.trans hwait.1
    cases havailable : inbox.available with
    | nil =>
      obtain ⟨next, hrecv, -⟩ := recv_ended havailable
      have hnone : words = [] := by
        cases words with
        | nil => rfl
        | cons word words =>
          obtain ⟨change, hchange, -⟩ := h.ready hname word rfl
          rw [hnames, hwait.2, havailable] at hchange
          cases hchange
      have hclosed := closeCurrent_puts h.rolling h.flushed
      obtain ⟨written, -, -, ⟨hfile, -, -⟩ | ⟨name, hsome, -⟩⟩ := h.rolling.written
      · refine Or.inr ⟨hnone, { node with names := some next }, ?_, ?_⟩
        · rw [hrecv]
        · rw [FileSink.closeCurrent, hfile] at hclosed
          exact ⟨hclosed.1, hclosed.2.1⟩
      · rw [hname] at hsome
        cases hsome
    | cons initial rest =>
      obtain ⟨next, hrecv, hnext, -⟩ := recv_item havailable
      refine Or.inl ⟨{ node with sink := { node.sink with pendingNames := [initial] }, names := some next }, ?_,
        h.rolling.withPending [initial], h.flushed, h.settled, h.remaining, ⟨next, rfl, ?_⟩, h.ready⟩
      · rw [hrecv]
      · rw [hnames, hwait.2, havailable, hnext]
        rfl
  next => exact Or.inl ⟨node, rfl, h⟩

theorem establishWatermark_pulls (batchEndNs : Nat)
    (h : ∃ inbox, node.names = some inbox ∧ names = node.sink.pendingNames ++ inbox.available) :
    ∃ pending next, node.establishWatermark batchEndNs =
        (.ok (), { node with sink := { node.sink with pendingNames := pending }, names := some next }) ∧
      names = pending ++ next.available ∧ ∀ change ∈ next.available.head?, batchEndNs < change.time := by
  obtain ⟨inbox, hinbox, hnames⟩ := h
  obtain ⟨next, hpull, hnext⟩ :=
    @pullNames_takes inbox batchEndNs (inbox.available.length + 1) node.sink.pendingNames (Nat.lt_succ_self _)
  refine ⟨node.sink.pendingNames ++ dueBy batchEndNs inbox.available, next, ?_, ?_, ?_⟩
  · rw [SinkNode.establishWatermark, hinbox]
    dsimp only
    rw [hpull]
  · rw [hnames, hnext, List.append_assoc]
    exact congrArg _ (List.takeWhile_append_dropWhile).symm
  · intro change hchange
    have hlate := List.head?_dropWhile_not (fun change : TextSample => change.time ≤ batchEndNs) inbox.available
    rw [hnext, dueAfter, Option.mem_def] at hchange
    rw [hchange] at hlate
    simpa using hlate

theorem le_last (h : Ordered (batch ++ rest)) :
    ∀ word ∈ batch, word.time ≤ batch.getLast?.elim 0 Word.time := by
  intro word hword
  obtain ⟨front, last, rfl⟩ := List.eq_nil_or_concat' batch |>.resolve_left (List.ne_nil_of_mem hword)
  rw [List.getLast?_append, List.getLast?_singleton]
  show word.time ≤ last.time
  rcases List.mem_append.mp hword with hfront | hlast
  · have hpairs := (List.pairwise_append.mp h).1
    exact (List.pairwise_append.mp hpairs).2.2 word hfront last List.mem_cons_self
  · rw [List.mem_singleton.mp hlast]

theorem writeBatch_stands {pending : List TextSample} {inbox : Inbox TextSample}
    (hrolling : Rolling format book node.sink) (hpending : node.sink.pendingNames = pending)
    (hsettled : node.data.Settled) (hrest : node.data.undelivered = rest) (hinbox : node.names = some inbox)
    (hbatch : batch ≠ []) (hready : Ready (pending ++ inbox.available) book batch)
    (hlate : ∀ word ∈ batch, ∀ change ∈ inbox.available.head?, word.time < change.time) :
    ∃ next, node.writeBatch format batch = (.ok batch.length, next) ∧
      Stands format (Rollover.play format batch (pending ++ inbox.available, book)).1
        (Rollover.play format batch (pending ++ inbox.available, book)).2 rest next := by
  have hfirst : Ready node.sink.pendingNames book batch := by
    intro hname word hword
    obtain ⟨change, hchange, hdue⟩ := hready hname word hword
    rw [hpending]
    cases pending with
    | nil => exact absurd (hlate word (List.mem_of_mem_head? hword) change hchange) (Nat.not_lt.mpr hdue)
    | cons first pending => exact ⟨change, hchange, hdue⟩
  obtain ⟨staged, hstage, hstaged, hnames⟩ := stageWords_rolling batch hrolling hfirst
  obtain ⟨flushed, hflush, hlast, hempty, hkept⟩ := flush_rolling hstaged
  rw [hpending] at hnames hlast
  rw [play_append batch pending book hlate]
  refine ⟨{ node with sink := flushed }, ?_, hlast, hempty, hsettled, hrest, ⟨inbox, hinbox, ?_⟩, ?_⟩
  · rw [SinkNode.writeBatch, hstage]
    dsimp only [Except.bind]
    rw [hflush]
  · dsimp only
    rw [hkept, hnames]
  · refine ready_of_named _ _ ?_
    cases batch with
    | nil => exact absurd rfl hbatch
    | cons word batch =>
      rw [hpending] at hfirst
      exact play_named batch (step_named hfirst)

theorem work_stands {drain : Inbox Word → Except WorkError (List Word) × Inbox Word}
    (hdrain : ∀ data, data.Settled → DrainsFront data (drain data)) (hordered : Ordered words)
    (h : Stands format names book words node) :
    (words = [] ∧ ∃ next, node.work format drain = (.error .shutdown, next) ∧ PutAway format book next) ∨
      ∃ batch rest next, batch ≠ [] ∧ words = batch ++ rest ∧ node.work format drain = (.ok batch.length, next) ∧
        Stands format (Rollover.play format batch (names, book)).1 (Rollover.play format batch (names, book)).2 rest next := by
  rw [SinkNode.work]
  obtain ⟨waiting, hwait, hwaiting⟩ | ⟨hnone, waiting, hwait, hput⟩ := awaitName_stands h
  · rw [hwait]
    dsimp only
    have hdrained := hdrain waiting.data hwaiting.settled
    rcases hresult : drain waiting.data with ⟨result, data⟩
    rw [hresult] at hdrained
    cases result with
    | error error =>
      cases error
      obtain ⟨hstorage, hclosed, -⟩ := closeCurrent_puts hwaiting.rolling hwaiting.flushed
      exact Or.inl ⟨hwaiting.remaining.symm.trans hdrained.2, _, rfl, hstorage, hclosed⟩
    | ok batch =>
      obtain ⟨hsettled, hbatch, htaken⟩ := hdrained
      rw [hwaiting.remaining] at htaken
      subst htaken
      obtain ⟨pending, inbox, hmark, rfl, hlate⟩ := @establishWatermark_pulls names { waiting with data }
        (batch.getLast?.elim 0 Word.time) hwaiting.coming
      have hready : Ready (pending ++ inbox.available) book batch := by
        intro hname word hword
        refine hwaiting.ready hname word ?_
        rw [List.head?_append, hword]
        rfl
      obtain ⟨next, hwrite, hnext⟩ := @writeBatch_stands format book { waiting with
          sink := { waiting.sink with pendingNames := pending }, data, names := some inbox }
        batch data.undelivered pending inbox (hwaiting.rolling.withPending pending) rfl hsettled rfl rfl hbatch hready
        fun word hword change hchange => Nat.lt_of_le_of_lt (le_last hordered word hword) (hlate change hchange)
      refine Or.inr ⟨batch, data.undelivered, next, hbatch, rfl, ?_, hnext⟩
      dsimp only
      rw [hmark]
      exact hwrite
  · rw [hwait]
    exact Or.inl ⟨hnone, waiting, rfl, hput⟩

end Work

/-- A run to shutdown puts away what the book, played to the end, does; and more calls than there are words reach
it. -/
theorem run_stands {σ : Type} {drain : σ → Inbox Word → Except WorkError (List Word) × Inbox Word}
    (hdrain : ∀ schedule data, data.Settled → DrainsFront data (drain schedule data)) (schedules : List σ)
    {names : List TextSample} {words : List Word} {node : SinkNode} (hordered : Ordered words)
    (h : Stands format names book words node) :
    (∀ error last, SinkNode.run (fun schedule => SinkNode.work format (drain schedule)) schedules node = (some error, last) →
        error = .shutdown ∧ PutAway format (Rollover.play format words (names, book)).2 last) ∧
      (words.length < schedules.length →
        (SinkNode.run (fun schedule => SinkNode.work format (drain schedule)) schedules node).1 ≠ none) := by
  induction schedules generalizing names book words node with
  | nil =>
    refine ⟨?_, fun hlength => absurd hlength (Nat.not_lt_zero _)⟩
    intro error last hrun
    cases hrun
  | cons schedule schedules ih =>
    rw [SinkNode.run]
    rcases work_stands (hdrain schedule) hordered h with ⟨rfl, next, hwork, hput⟩ | ⟨batch, rest, next, hbatch, rfl, hwork, hnext⟩
    · rw [hwork]
      refine ⟨?_, fun _ => Option.some_ne_none _⟩
      rintro error last ⟨⟩
      exact ⟨rfl, hput⟩
    · rw [hwork]
      obtain ⟨hends, hreaches⟩ := ih (List.pairwise_append.mp hordered).2.1 hnext
      refine ⟨?_, fun hlength => hreaches ?_⟩
      · rw [Rollover.play, List.foldl_append]
        exact hends
      · have hpos := List.length_pos_iff.mpr hbatch
        rw [List.length_append, List.length_cons] at hlength
        omega

/-- A sink before its first call, on what its producers will send. -/
def SinkNode.new (filename : Option String) (storage : Files) (data : List (ChannelMessage Word))
    (names : List (ChannelMessage TextSample)) : SinkNode :=
  ⟨FileSink.new filename storage, Inbox.new data, some (Inbox.new names)⟩

def Rollover.new (filename : Option String) (storage : Files) : Rollover := ⟨⟨storage, 0⟩, filename, []⟩

theorem new_stands {filename : Option String} {storage : Files} {data : List (ChannelMessage Word)}
    {names : List (ChannelMessage TextSample)}
    (h : Ready (streamItems names) (Rollover.new filename storage) (streamItems data)) :
    Stands format (streamItems names) (Rollover.new filename storage) (streamItems data)
      (SinkNode.new filename storage data names) where
  rolling := ⟨rfl, fun _ => rfl, rfl, fun hwords => absurd rfl hwords, fun hwords => absurd rfl hwords, rfl,
    [], rfl, rfl, Or.inl ⟨rfl, rfl, rfl⟩⟩
  flushed := rfl
  settled := settled_of_eq rfl
  remaining := rfl
  coming := ⟨Inbox.new names, rfl, rfl⟩
  ready := h

end LogicConduit
