import LogicConduit.SinkDrains

namespace LogicConduit

def SinkFormat.encodeFrom (format : SinkFormat) : Nat → List Word → Bytes
  | _, [] => []
  | row, word :: words => format.encode row word ++ format.encodeFrom (row + 1) words

def SinkFormat.encodeAll (format : SinkFormat) : List Word → Bytes := format.encodeFrom 1

theorem encodeFrom_append (format : SinkFormat) (row : Nat) (first second : List Word) :
    format.encodeFrom row (first ++ second) = format.encodeFrom row first ++ format.encodeFrom (row + first.length) second := by
  induction first generalizing row with
  | nil => rfl
  | cons word first ih =>
    have hrow : row + (word :: first).length = row + 1 + first.length := by
      rw [List.length_cons]
      omega
    rw [List.cons_append, SinkFormat.encodeFrom, ih, SinkFormat.encodeFrom, List.append_assoc, hrow]

theorem encodeAll_snoc (format : SinkFormat) (words : List Word) (word : Word) :
    format.encodeAll (words ++ [word]) = format.encodeAll words ++ format.encode (words.length + 1) word := by
  rw [SinkFormat.encodeAll, encodeFrom_append, Nat.add_comm 1]
  exact congrArg _ (List.append_nil _)

def firstTimestampNs (words : List Word) : UInt64 := (words.head?.map Word.timestampNs).getD 0

def lastTimestampNs (words : List Word) : UInt64 := (words.getLast?.map Word.timestampNs).getD 0

theorem lastTimestampNs_snoc (words : List Word) (word : Word) : lastTimestampNs (words ++ [word]) = word.timestampNs := by
  rw [lastTimestampNs, List.getLast?_append, List.getLast?_singleton]
  rfl

/-- The files put away, and how many. -/
structure Shelf where
  storage : Files
  closed : Nat

section Shelf

variable (format : SinkFormat)

def SinkFormat.indexed (closed : ClosedFile) (storage : Files) : Files :=
  match format.indexRow with
  | some row => appendIndexRow row closed storage
  | none => storage

def Shelf.file (shelf : Shelf) (name : String) (words : List Word) : ClosedFile :=
  ⟨shelf.closed + 1, components name, (format.encodeAll words).length, firstTimestampNs words, lastTimestampNs words⟩

/-- The words in force for a name put away. Where they make no bytes there is no file. -/
def Shelf.put (shelf : Shelf) (name : String) (words : List Word) : Shelf :=
  if format.encodeAll words = [] then shelf
  else
    ⟨format.indexed (shelf.file format name words)
      (shelf.storage.set (components name) (format.headerBytes ++ format.encodeAll words)), shelf.closed + 1⟩

theorem put_nil (shelf : Shelf) (name : String) : shelf.put format name [] = shelf := if_pos rfl

end Shelf

/-- The name in force and its words so far, over what has been put away. -/
structure Rollover where
  shelf : Shelf
  name : Option String
  words : List Word

namespace Rollover

variable (format : SinkFormat)

def finish (book : Rollover) : Shelf := book.shelf.put format (book.name.getD "") book.words

def turn (book : Rollover) (change : TextSample) : Rollover := ⟨book.finish format, some change.value, []⟩

def take (book : Rollover) (word : Word) : Rollover := { book with words := book.words ++ [word] }

/-- A word, with the changes not applied before it. -/
def step (state : List TextSample × Rollover) (word : Word) : List TextSample × Rollover :=
  (dueAfter word.time state.1, ((dueBy word.time state.1).foldl (turn format) state.2).take word)

end Rollover

/-- The sink stands where the book does: what is written and what is encoded make up the words in force. -/
structure Rolling (format : SinkFormat) (book : Rollover) (sink : FileSink) : Prop where
  named : sink.currentName = book.name
  unnamed : book.name = none → book.words = []
  counted : sink.wordsInFile = book.words.length
  started : book.words ≠ [] → sink.fileStartNs = firstTimestampNs book.words
  ended : book.words ≠ [] → sink.fileEndNs = lastTimestampNs book.words
  closed : sink.filesClosed = book.shelf.closed
  written : ∃ written, format.encodeAll book.words = written ++ sink.encodedBatch ∧ sink.bytesInFile = written.length ∧
    ((sink.currentFile = none ∧ written = [] ∧ sink.storage = book.shelf.storage) ∨
      ∃ name, book.name = some name ∧ sink.currentFile = some (components name) ∧ written ≠ [] ∧
        sink.storage = book.shelf.storage.set (components name) (format.headerBytes ++ written))

section Steps

variable {format : SinkFormat} {book : Rollover} {sink : FileSink}

theorem ensureFileOpen_named {name : String} (h : sink.currentFile = none) (hname : sink.currentName = some name) :
    sink.ensureFileOpen format = .ok (components name, { sink with
      currentFile := some (components name)
      storage := sink.storage.set (components name) format.headerBytes }) := by
  rw [FileSink.ensureFileOpen, h, hname]
  dsimp only
  rw [Files.create_write]

theorem flush_rolling (h : Rolling format book sink) :
    ∃ flushed, sink.flushEncodedBatch format = .ok flushed ∧ Rolling format book flushed ∧
      flushed.encodedBatch = [] ∧ flushed.pendingNames = sink.pendingNames := by
  rw [FileSink.flushEncodedBatch]
  split
  next hempty => exact ⟨sink, rfl, h, hempty, rfl⟩
  next hbatch =>
    obtain ⟨written, hall, hbytes, hfile⟩ := h.written
    have hnotnil : written ++ sink.encodedBatch ≠ [] := List.append_ne_nil_of_right_ne_nil written hbatch
    have hlength : sink.bytesInFile + sink.encodedBatch.length = (written ++ sink.encodedBatch).length := by
      rw [hbytes, List.length_append]
    have hfinal : format.encodeAll book.words = (written ++ sink.encodedBatch) ++ [] := by
      rw [hall, List.append_nil]
    rcases hfile with ⟨hnone, rfl, hstorage⟩ | ⟨name, hname, hopen, -, hstorage⟩
    · cases hname : book.name with
      | none =>
        rw [h.unnamed hname] at hall
        exact absurd hall.symm hnotnil
      | some name =>
        rw [ensureFileOpen_named hnone (h.named.trans hname)]
        refine ⟨_, rfl, ⟨h.named, h.unnamed, h.counted, h.started, h.ended, h.closed, [] ++ sink.encodedBatch, hfinal,
          hlength, Or.inr ⟨name, hname, rfl, hnotnil, ?_⟩⟩, rfl, rfl⟩
        dsimp only
        rw [Files.set_write, hstorage]
        rfl
    · rw [FileSink.ensureFileOpen, hopen]
      refine ⟨_, rfl, ⟨h.named, h.unnamed, h.counted, h.started, h.ended, h.closed, written ++ sink.encodedBatch, hfinal,
        hlength, Or.inr ⟨name, hname, hopen, hnotnil, ?_⟩⟩, rfl, rfl⟩
      dsimp only
      rw [hstorage, Files.set_write, List.append_assoc]

theorem closeCurrent_puts (h : Rolling format book sink) (hbatch : sink.encodedBatch = []) :
    (sink.closeCurrent format).storage = (book.finish format).storage ∧
      (sink.closeCurrent format).filesClosed = (book.finish format).closed ∧
      (sink.closeCurrent format).currentFile = none ∧ (sink.closeCurrent format).encodedBatch = [] ∧
      (sink.closeCurrent format).pendingNames = sink.pendingNames := by
  obtain ⟨written, hall, hbytes, hfile⟩ := h.written
  rw [hbatch, List.append_nil] at hall
  rw [FileSink.closeCurrent, Rollover.finish, Shelf.put]
  rcases hfile with ⟨hnone, rfl, hstorage⟩ | ⟨name, hname, hopen, hnotnil, hstorage⟩
  · rw [hnone, if_pos hall]
    exact ⟨hstorage, h.closed, hnone, hbatch, rfl⟩
  · have hwords : book.words ≠ [] := by
      intro hnil
      rw [hnil] at hall
      exact hnotnil hall.symm
    rw [hopen, if_neg (hall.symm ▸ hnotnil)]
    refine ⟨?_, congrArg (· + 1) h.closed, rfl, hbatch, rfl⟩
    dsimp only
    rw [FileSink.writeIndexEntry, SinkFormat.indexed, Shelf.file, h.named, hname, hstorage, h.closed, hbytes,
      h.started hwords, h.ended hwords, hall]
    rfl

theorem applyNameChange_rolling (change : TextSample) (h : Rolling format book sink) (hbatch : sink.encodedBatch = []) :
    Rolling format (book.turn format change) (sink.applyNameChange format change) := by
  obtain ⟨hstorage, hclosed, hfile, hnext, -⟩ := closeCurrent_puts h hbatch
  exact ⟨rfl, fun hname => absurd hname (Option.some_ne_none _), rfl, fun hwords => absurd rfl hwords, fun hwords => absurd rfl hwords,
    hclosed, [], hnext.symm, rfl, Or.inl ⟨hfile, rfl, hstorage⟩⟩

/-- Nothing but the names that are pending changes with them. -/
theorem Rolling.withPending (h : Rolling format book sink) (pending : List TextSample) :
    Rolling format book { sink with pendingNames := pending } :=
  ⟨h.named, h.unnamed, h.counted, h.started, h.ended, h.closed, h.written⟩

theorem applyDue_rolling (time : Nat) (pending : List TextSample) (h : Rolling format book sink)
    (hpending : sink.pendingNames = pending) :
    ∃ due, sink.applyDue format time pending = .ok due ∧
      Rolling format ((dueBy time pending).foldl (Rollover.turn format) book) due ∧
      due.pendingNames = dueAfter time pending := by
  induction pending generalizing book sink with
  | nil => exact ⟨sink, rfl, h, hpending⟩
  | cons change rest ih =>
    rw [FileSink.applyDue]
    split
    next hdue =>
      obtain ⟨flushed, hflush, hrolling, hbatch, -⟩ := flush_rolling h
      have hturned := applyNameChange_rolling change (hrolling.withPending rest) hbatch
      have hkept := (closeCurrent_puts (hrolling.withPending rest) hbatch).2.2.2.2
      obtain ⟨due, happly, hlast, hrest⟩ := ih hturned hkept
      refine ⟨due, ?_, ?_, ?_⟩
      · rw [hflush]
        exact happly
      · rw [dueBy_cons_of_le rest hdue]
        exact hlast
      · rw [dueAfter_cons_of_le rest hdue]
        exact hrest
    next hdue =>
      have hlate := Nat.lt_of_not_le hdue
      refine ⟨sink, rfl, ?_, ?_⟩
      · rw [dueBy_cons_of_lt rest hlate]
        exact h
      · rw [dueAfter_cons_of_lt rest hlate]
        exact hpending

theorem stageWord_rolling (word : Word) (h : Rolling format book sink)
    (hname : (Rollover.step format (sink.pendingNames, book) word).2.name ≠ none) :
    ∃ staged, sink.stageWord format word = .ok staged ∧
      Rolling format (Rollover.step format (sink.pendingNames, book) word).2 staged ∧
      staged.pendingNames = (Rollover.step format (sink.pendingNames, book) word).1 := by
  obtain ⟨due, happly, hrolling, hpending⟩ := applyDue_rolling word.time sink.pendingNames h rfl
  rw [FileSink.stageWord, happly]
  refine ⟨_, rfl, ?_, hpending⟩
  obtain ⟨written, hall, hbytes, hfile⟩ := hrolling.written
  refine ⟨hrolling.named, fun hnone => absurd hnone hname, ?_, fun _ => ?_, fun _ => ?_, hrolling.closed,
    written, ?_, hbytes, hfile⟩
  · show due.wordsInFile + 1 = _
    rw [hrolling.counted, Rollover.step, Rollover.take, List.length_append]
    rfl
  · show (if due.wordsInFile = 0 then word.timestampNs else due.fileStartNs) = firstTimestampNs (_ ++ [word])
    cases hwords : ((dueBy word.time sink.pendingNames).foldl (Rollover.turn format) book).words with
    | nil =>
      have hcounted : due.wordsInFile = 0 := hrolling.counted.trans (congrArg List.length hwords)
      rw [if_pos hcounted]
      rfl
    | cons first words =>
      have hcounted : due.wordsInFile ≠ 0 := by
        rw [hrolling.counted, hwords]
        exact Nat.succ_ne_zero _
      have hstarted := hrolling.started (hwords ▸ List.cons_ne_nil first words)
      rw [if_neg hcounted, hstarted, hwords]
      rfl
  · exact (lastTimestampNs_snoc _ word).symm
  · show format.encodeAll (_ ++ [word]) = _
    rw [encodeAll_snoc, hall, List.append_assoc, hrolling.counted]

end Steps

end LogicConduit
