import LogicConduit.SinkWindows

namespace LogicConduit

variable {format : SinkFormat}

/-- Streams in the order of their times, with a name from the first word on. -/
structure LevelNamed (words : List Word) (names : List TextSample) : Prop where
  wordsOrdered : Ordered words
  namesOrdered : NamesOrdered names
  first : ∀ word ∈ words.head?, ∃ change ∈ names.head?, change.time ≤ word.time

def OffIndex (indexed : Bool) (names : List TextSample) : Prop :=
  indexed = true → ∀ change ∈ names, ∀ other ∈ names, components change.value ≠ indexPath (components other.value)

variable {window : String × List Word}

theorem windows_name {names : List TextSample} {words : List Word} (h : window ∈ windows names words) :
    ∃ change ∈ names, change.value = window.1 := by
  induction names with
  | nil => cases h
  | cons change rest ih =>
    rcases List.mem_cons.mp h with rfl | h
    · exact ⟨change, List.mem_cons_self, rfl⟩
    · obtain ⟨other, hother, hname⟩ := ih h
      exact ⟨other, List.mem_cons_of_mem change hother, hname⟩

theorem windows_names (names : List TextSample) (words : List Word) :
    (windows names words).map (fun window => components window.1) = names.map fun change => components change.value := by
  induction names with
  | nil => rfl
  | cons change rest ih => rw [windows, List.map_cons, List.map_cons, ih]

/-- A run that ends has put every window away, and more calls than there are words end it. -/
def Puts (format : SinkFormat) (storage : Files) (words : List Word) (names : List TextSample) (calls : Nat)
    (run : Option SinkError × SinkNode) : Prop :=
  (words.length < calls → run.1 ≠ none) ∧
    ∀ error last, run = (some error, last) → error = .shutdown ∧
      last.sink.storage = (Shelf.putAll format ⟨storage, 0⟩ (windows names words)).storage

section Puts

variable {filename : Option String} {storage : Files} {data : List (ChannelMessage Word)}
  {names : List (ChannelMessage TextSample)}

theorem run_puts {σ : Type} {drain : σ → Inbox Word → Except WorkError (List Word) × Inbox Word}
    (hdrain : ∀ schedule data, data.Settled → DrainsFront data (drain schedule data)) (schedules : List σ)
    (h : LevelNamed (streamItems data) (streamItems names)) :
    Puts format storage (streamItems data) (streamItems names) schedules.length
      (SinkNode.run (fun schedule => SinkNode.work format (drain schedule)) schedules
        (SinkNode.new filename storage data names)) := by
  obtain ⟨hends, hreaches⟩ := run_stands hdrain schedules h.wordsOrdered
    (@new_stands format filename storage data names fun _ => h.first)
  refine ⟨hreaches, fun error last hrun => ?_⟩
  obtain ⟨rfl, hstorage, -⟩ := hends error last hrun
  rw [play_new filename storage h.wordsOrdered h.namesOrdered h.first] at hstorage
  exact ⟨rfl, hstorage⟩

theorem binary_puts (width : WriteWidth) (indexCsv : Bool) (micros : MicrosText) (schedules : List (Nat → Arrivals))
    (h : LevelNamed (streamItems data) (streamItems names)) :
    Puts (BinaryFileWriter.format width indexCsv micros) storage (streamItems data) (streamItems names) schedules.length
      (SinkNode.run (BinaryFileWriter.work width indexCsv micros) schedules (SinkNode.new filename storage data names)) :=
  run_puts (fun arrived _ hsettled => binary_drained arrived hsettled) schedules h

theorem csv_puts (header : Option String) (valueFormat : CsvValueFormat) (schedules : List Arrivals)
    (h : LevelNamed (streamItems data) (streamItems names)) :
    Puts (CsvWordWriter.format header valueFormat) storage (streamItems data) (streamItems names) schedules.length
      (SinkNode.run (CsvWordWriter.work header valueFormat) schedules (SinkNode.new filename storage data names)) :=
  run_puts (fun arrived _ hsettled => csv_drained arrived hsettled) schedules h

theorem binary_indexed {width : WriteWidth} {indexCsv : Bool} {micros : MicrosText}
    (h : (BinaryFileWriter.format width indexCsv micros).indexRow.isSome = true) : indexCsv = true := by
  cases indexCsv with
  | true => rfl
  | false => cases h

end Puts

theorem putAll_plain {path : OutputPath} (shelf : Shelf) (all : List (String × List Word))
    (hindex : format.indexRow.isSome = true → ∀ window ∈ all, path ≠ indexPath (components window.1)) :
    (shelf.putAll format all).storage path =
      ((windowsAt format path all).getLast?.map fun window => format.headerBytes ++ format.encodeAll window.2).or
        (shelf.storage path) := by
  induction all using List.reverseRecOn with
  | nil => rfl
  | append_singleton front last ih =>
    have hlastindex : format.indexRow.isSome = true → path ≠ indexPath (components last.1) := fun hrow =>
      hindex hrow last (List.mem_append_right front List.mem_cons_self)
    have hfront := ih fun hrow window hwindow => hindex hrow window (List.mem_append_left [last] hwindow)
    rw [putAll_snoc, windowsAt, List.filter_append]
    by_cases hlast : writesTo format path last = true
    · obtain ⟨hpath, hbytes⟩ := writesTo_iff.mp hlast
      rw [List.filter_cons_of_pos hlast, List.filter_nil, List.getLast?_append, List.getLast?_singleton, Shelf.put,
        if_neg hbytes]
      dsimp only
      rw [indexed_other _ _ hlastindex, hpath, Files.set_self]
      rfl
    · rw [List.filter_cons_of_neg hlast, List.filter_nil, List.append_nil]
      refine Eq.trans ?_ hfront
      by_cases hpath : components last.1 = path
      · have hbytes : format.encodeAll last.2 = [] :=
          not_not.mp fun hbytes => hlast (writesTo_iff.mpr ⟨hpath, hbytes⟩)
        rw [Shelf.put, if_pos hbytes]
      · exact put_other hpath hlastindex

variable {all : List (String × List Word)}

/-- A window is the only one of its file where the names name distinct files. -/
theorem windowsAt_distinct (h : (all.map fun window => components window.1).Nodup) (hw : window ∈ all) :
    windowsAt format (components window.1) all = if format.encodeAll window.2 = [] then [] else [window] := by
  induction all with
  | nil => cases hw
  | cons first rest ih =>
    rw [List.map_cons, List.nodup_cons] at h
    obtain ⟨hfirst, hrest⟩ := h
    rw [windowsAt]
    rcases List.mem_cons.mp hw with rfl | hw
    · have hnone : rest.filter (writesTo format (components window.1)) = [] := by
        refine List.filter_eq_nil_iff.mpr fun other hother hwrites => ?_
        exact hfirst (List.mem_map.mpr ⟨other, hother, (writesTo_iff.mp hwrites).1⟩)
      by_cases hbytes : format.encodeAll window.2 = []
      · rw [List.filter_cons_of_neg fun hwrites => (writesTo_iff.mp hwrites).2 hbytes, hnone, if_pos hbytes]
      · rw [List.filter_cons_of_pos (writesTo_iff.mpr ⟨rfl, hbytes⟩), hnone, if_neg hbytes]
    · have hapart : ¬writesTo format (components window.1) first = true := fun hwrites =>
        hfirst (List.mem_map.mpr ⟨window, hw, (writesTo_iff.mp hwrites).1.symm⟩)
      rw [List.filter_cons_of_neg hapart]
      exact ih hrest hw

def closedFiles (format : SinkFormat) : Nat → List (String × List Word) → List ClosedFile
  | _, [] => []
  | closed, (name, words) :: rest =>
    if format.encodeAll words = [] then closedFiles format closed rest
    else
      ⟨closed + 1, components name, (format.encodeAll words).length, firstTimestampNs words, lastTimestampNs words⟩ ::
        closedFiles format (closed + 1) rest

def indexedAt (path : OutputPath) (file : ClosedFile) : Bool := indexPath file.path = path

def indexRows (format : SinkFormat) (path : OutputPath) (closed : List ClosedFile) : List Bytes :=
  match format.indexRow with
  | some row => (closed.filter (indexedAt path)).map row
  | none => []

def withRows (initial : Option Bytes) (rows : List Bytes) : Option Bytes :=
  if rows = [] then initial else some (initial.getD (utf8Bytes indexHeader) ++ rows.flatten)

theorem withRows_cons (initial : Option Bytes) (row : Bytes) (rows : List Bytes) :
    withRows (some (initial.getD (utf8Bytes indexHeader) ++ row)) rows = withRows initial (row :: rows) := by
  rw [withRows, withRows, if_neg (List.cons_ne_nil row rows), List.flatten_cons]
  split
  next hrows => rw [hrows, List.flatten_nil, List.append_nil]
  next => rw [Option.getD_some, List.append_assoc]

theorem putAll_index {path : OutputPath} (shelf : Shelf) (all : List (String × List Word))
    (h : ∀ window ∈ all, components window.1 ≠ path) :
    (shelf.putAll format all).storage path =
      withRows (shelf.storage path) (indexRows format path (closedFiles format shelf.closed all)) := by
  induction all generalizing shelf with
  | nil =>
    rw [closedFiles, indexRows]
    cases format.indexRow <;> rfl
  | cons window rest ih =>
    have hrest := ih (shelf.put format window.1 window.2) fun other hother => h other (List.mem_cons_of_mem window hother)
    rw [Shelf.putAll, List.foldl_cons]
    refine hrest.trans ?_
    rw [closedFiles, Shelf.put]
    split
    · rfl
    · dsimp only
      rw [SinkFormat.indexed, indexRows, indexRows]
      have hset := Files.set_other shelf.storage (format.headerBytes ++ format.encodeAll window.2)
        (Ne.symm (h window List.mem_cons_self))
      cases format.indexRow with
      | none => exact congrArg (withRows · []) hset
      | some row =>
        dsimp only
        rw [appendIndexRow_at, hset]
        let file := shelf.file format window.1 window.2
        split
        next hpath =>
          have hfile : indexedAt path file = true := decide_eq_true hpath.symm
          rw [withRows_cons]
          show withRows _ (row file :: _) = withRows _ ((List.filter (indexedAt path) (file :: _)).map row)
          rw [List.filter_cons_of_pos hfile]
          rfl
        next hpath =>
          have hfile : ¬indexedAt path file = true := fun hindexed => hpath (of_decide_eq_true hindexed).symm
          show _ = withRows _ ((List.filter (indexedAt path) (file :: _)).map row)
          rw [List.filter_cons_of_neg hfile]

/-- The files at the end of a run: each window with bytes in the file of its name and nothing else there, no file
made for one without, and every other file as it was but for the rows of an index. -/
structure FilesRight (format : SinkFormat) (initial : Files) (all : List (String × List Word)) (final : Files) : Prop where
  written : ∀ window ∈ all, format.encodeAll window.2 ≠ [] →
    final (components window.1) = some (format.headerBytes ++ format.encodeAll window.2)
  absent : ∀ window ∈ all, format.encodeAll window.2 = [] → final (components window.1) = initial (components window.1)
  others : ∀ path, (∀ window ∈ all, components window.1 ≠ path) →
    final path = withRows (initial path) (indexRows format path (closedFiles format 0 all))

theorem putAll_right {names : List TextSample} (storage : Files) (words : List Word)
    (hdistinct : (names.map fun change => components change.value).Nodup)
    (hindex : OffIndex format.indexRow.isSome names) :
    FilesRight format storage (windows names words)
      (Shelf.putAll format ⟨storage, 0⟩ (windows names words)).storage := by
  have hplain : ∀ window ∈ windows names words,
      (Shelf.putAll format ⟨storage, 0⟩ (windows names words)).storage (components window.1) =
        ((if format.encodeAll window.2 = [] then [] else [window]).getLast?.map fun window =>
          format.headerBytes ++ format.encodeAll window.2).or (storage (components window.1)) := by
    intro window hwindow
    rw [← windowsAt_distinct ((windows_names names words).symm ▸ hdistinct) hwindow]
    refine putAll_plain _ _ fun hrow other hother => ?_
    obtain ⟨change, hchange, hname⟩ := windows_name hwindow
    obtain ⟨second, hsecond, hother⟩ := windows_name hother
    rw [← hname, ← hother]
    exact hindex hrow change hchange second hsecond
  refine ⟨fun window hwindow hbytes => ?_, fun window hwindow hbytes => ?_, fun path hpath => putAll_index _ _ hpath⟩
  · rw [hplain window hwindow, if_neg hbytes]
    rfl
  · rw [hplain window hwindow, if_pos hbytes]
    rfl

def outputOf (format : SinkFormat) (path : OutputPath) (all : List (String × List Word)) : Bytes :=
  (all.filter fun window => components window.1 = path).flatMap fun window => format.encodeAll window.2

/-- Every file written to begins, behind its header, with the bytes of all words in force for it, in order. -/
def NothingLost (format : SinkFormat) (all : List (String × List Word)) (final : Files) : Prop :=
  ∀ path, outputOf format path all ≠ [] →
    ∃ content, final path = some (format.headerBytes ++ content) ∧ outputOf format path all <+: content

/-- No two windows with bytes are of one file. -/
def WrittenOnce (format : SinkFormat) (all : List (String × List Word)) : Prop :=
  all.Pairwise fun a b => format.encodeAll a.2 ≠ [] → format.encodeAll b.2 ≠ [] → components a.1 ≠ components b.1

theorem outputOf_windowsAt (path : OutputPath) (all : List (String × List Word)) :
    outputOf format path all = (windowsAt format path all).flatMap fun window => format.encodeAll window.2 := by
  induction all with
  | nil => rfl
  | cons window rest ih =>
    rw [outputOf, windowsAt, List.filter_cons, List.filter_cons]
    by_cases hpath : components window.1 = path
    · rw [if_pos (decide_eq_true hpath)]
      by_cases hbytes : format.encodeAll window.2 = []
      · rw [if_neg fun hwrites => (writesTo_iff.mp hwrites).2 hbytes, List.flatMap_cons, hbytes]
        exact ih
      · rw [if_pos (writesTo_iff.mpr ⟨hpath, hbytes⟩), List.flatMap_cons, List.flatMap_cons]
        exact congrArg _ ih
    · rw [if_neg fun hof => hpath (of_decide_eq_true hof), if_neg fun hwrites => hpath (writesTo_iff.mp hwrites).1]
      exact ih

theorem writtenOnce_iff : WrittenOnce format all ↔ ∀ path, (windowsAt format path all).length ≤ 1 := by
  induction all with
  | nil => exact ⟨fun _ _ => Nat.zero_le 1, fun _ => List.Pairwise.nil⟩
  | cons window rest ih =>
    rw [WrittenOnce, List.pairwise_cons]
    constructor
    · rintro ⟨hwindow, hrest⟩ path
      have hle := ih.mp hrest path
      rw [windowsAt, List.filter_cons]
      split
      next hwrites =>
        obtain ⟨hpath, hbytes⟩ := writesTo_iff.mp hwrites
        have hnone : rest.filter (writesTo format path) = [] := by
          refine List.filter_eq_nil_iff.mpr fun other hother hsecond => ?_
          obtain ⟨hsame, hnotnil⟩ := writesTo_iff.mp hsecond
          exact hwindow other hother hbytes hnotnil (hpath.trans hsame.symm)
        rw [hnone]
        exact Nat.le_refl 1
      next => exact hle
    · intro hle
      refine ⟨fun other hother hbytes hnotnil hsame => ?_, ih.mpr fun path => ?_⟩
      · -- both windows are then at the file of the first
        have hfirst : writesTo format (components window.1) window = true := writesTo_iff.mpr ⟨rfl, hbytes⟩
        have hsecond : other ∈ windowsAt format (components window.1) rest :=
          List.mem_filter.mpr ⟨hother, writesTo_iff.mpr ⟨hsame.symm, hnotnil⟩⟩
        have hpos := List.length_pos_of_mem hsecond
        have hboth := hle (components window.1)
        rw [windowsAt, List.filter_cons_of_pos hfirst, List.length_cons] at hboth
        rw [windowsAt] at hpos
        omega
      · refine Nat.le_trans ?_ (hle path)
        exact (List.Sublist.filter _ (List.sublist_cons_self window rest)).length_le

theorem nothingLost_of_once (shelf : Shelf) (h : WrittenOnce format all) :
    NothingLost format all (shelf.putAll format all).storage := by
  intro path houtput
  have hle := writtenOnce_iff.mp h path
  rw [outputOf_windowsAt] at houtput ⊢
  cases hat : windowsAt format path all with
  | nil =>
    rw [hat] at houtput
    exact absurd rfl houtput
  | cons window others =>
    rw [hat, List.length_cons] at hle
    have hnone : others = [] := List.length_eq_zero_iff.mp (by omega)
    subst hnone
    obtain ⟨added, hcontent⟩ := @putAll_last format all path window shelf (congrArg List.getLast? hat)
    refine ⟨format.encodeAll window.2 ++ added, hcontent.trans (congrArg some (List.append_assoc _ _ added)), ?_⟩
    rw [List.flatMap_singleton]
    exact List.prefix_append _ added

/-- The last window of a file takes all of it, so bytes of a window before are lost. -/
theorem once_of_nothingLost (shelf : Shelf)
    (hindex : format.indexRow.isSome = true → ∀ window ∈ all, ∀ other ∈ all, components window.1 ≠ indexPath (components other.1))
    (h : NothingLost format all (shelf.putAll format all).storage) : WrittenOnce format all := by
  refine writtenOnce_iff.mpr fun path => ?_
  rcases List.eq_nil_or_concat' (windowsAt format path all) with hat | ⟨front, last, hat⟩
  · rw [hat]
    exact Nat.zero_le 1
  · have hlast : last ∈ windowsAt format path all := hat ▸ List.mem_append_right front List.mem_cons_self
    obtain ⟨hmem, hwrites⟩ := List.mem_filter.mp hlast
    obtain ⟨hpath, hbytes⟩ := writesTo_iff.mp hwrites
    have houtput : outputOf format path all =
        front.flatMap (fun window => format.encodeAll window.2) ++ format.encodeAll last.2 := by
      rw [outputOf_windowsAt, hat, List.flatMap_append, List.flatMap_singleton]
    obtain ⟨content, hcontent, hprefix⟩ := h path (houtput ▸ List.append_ne_nil_of_right_ne_nil _ hbytes)
    have hplain := @putAll_plain format path shelf all fun hrow other hother =>
      hpath ▸ hindex hrow last hmem other hother
    rw [hat, List.getLast?_append, List.getLast?_singleton, hcontent] at hplain
    have hsame : content = format.encodeAll last.2 := List.append_cancel_left (Option.some.inj hplain)
    have hlength := hprefix.length_le
    rw [houtput, hsame, List.length_append] at hlength
    have hfront : front = [] := by
      cases front with
      | nil => rfl
      | cons window front =>
        have hfirst : window ∈ windowsAt format path all := hat ▸ List.mem_cons_self
        have hnotnil := List.length_pos_iff.mpr (writesTo_iff.mp (List.mem_filter.mp hfirst).2).2
        rw [List.flatMap_cons, List.length_append] at hlength
        omega
    rw [hat, hfront]
    exact Nat.le_refl 1

/-- A run to shutdown, which more calls than there are words reach, and the files it leaves. -/
structure RunRight (format : SinkFormat) (storage : Files) (words : List Word) (names : List TextSample) (calls : Nat)
    (run : Option SinkError × SinkNode) : Prop where
  ends : words.length < calls → run.1 ≠ none
  right : ∀ error last, run = (some error, last) →
    error = .shutdown ∧ FilesRight format storage (windows names words) last.sink.storage

section Runs

variable {filename : Option String} {storage : Files} {data : List (ChannelMessage Word)}
  {names : List (ChannelMessage TextSample)} (width : WriteWidth) (indexCsv : Bool) (micros : MicrosText)
  (header : Option String) (valueFormat : CsvValueFormat)

theorem runRight_of_puts {words : List Word} {names : List TextSample} {calls : Nat} {run : Option SinkError × SinkNode}
    (h : Puts format storage words names calls run)
    (hdistinct : (names.map fun change => components change.value).Nodup)
    (hindex : OffIndex format.indexRow.isSome names) : RunRight format storage words names calls run := by
  refine ⟨h.1, fun error last hrun => ?_⟩
  obtain ⟨hshutdown, hstorage⟩ := h.2 error last hrun
  exact ⟨hshutdown, hstorage ▸ putAll_right storage words hdistinct hindex⟩

/-- Names of distinct files, none of them an index: each window's words reach its own file. -/
theorem words_reach_their_files (h : LevelNamed (streamItems data) (streamItems names))
    (hdistinct : ((streamItems names).map fun change => components change.value).Nodup)
    (hindex : OffIndex indexCsv (streamItems names)) (binarySchedules : List (Nat → Arrivals))
    (csvSchedules : List Arrivals) :
    RunRight (BinaryFileWriter.format width indexCsv micros) storage (streamItems data) (streamItems names)
        binarySchedules.length (SinkNode.run (BinaryFileWriter.work width indexCsv micros) binarySchedules
          (SinkNode.new filename storage data names)) ∧
      RunRight (CsvWordWriter.format header valueFormat) storage (streamItems data) (streamItems names)
        csvSchedules.length (SinkNode.run (CsvWordWriter.work header valueFormat) csvSchedules
          (SinkNode.new filename storage data names)) := by
  constructor
  · exact runRight_of_puts (binary_puts width indexCsv micros binarySchedules h) hdistinct fun hrow =>
      hindex (binary_indexed hrow)
  · exact runRight_of_puts (csv_puts header valueFormat csvSchedules h) hdistinct fun hrow => by cases hrow

def exactMicros : MicrosText :=
  let text n := decimalText (n / 1000) ++ "." ++ String.ofList ((decimal (n % 1000)).leftpad 3 '0') ++ "000"
  ⟨fun t => text t.toNat, fun first last => text (last.toNat - first.toNat)⟩

theorem words_reach_their_files_rolled :
    RunRight (BinaryFileWriter.format .u16Le true exactMicros) (fun _ => none) [Word.new 1 0, Word.new 2 10]
      [⟨"a", 0⟩, ⟨"b", 10⟩] 3
      (SinkNode.run (BinaryFileWriter.work .u16Le true exactMicros) [fun _ _ => true, fun _ _ => false, fun _ _ => true]
        (SinkNode.new none (fun _ => none) [.batch [Word.new 1 0, Word.new 2 10]]
          [.sample ⟨"a", 0⟩, .sample ⟨"b", 10⟩])) :=
  (@words_reach_their_files none (fun _ => none) [.batch [Word.new 1 0, Word.new 2 10]]
    [.sample ⟨"a", 0⟩, .sample ⟨"b", 10⟩] .u16Le true exactMicros none .decimal
    ⟨by decide, by decide, by simp [streamItems, TextSample.time]⟩ (by decide)
    (by simp only [OffIndex, streamItems]; decide) [fun _ _ => true, fun _ _ => false, fun _ _ => true] []).1

/-- Two spellings of one path, and a name that names the index: the texts are distinct, but a file has not just the
words of its window. -/
theorem distinct_texts_of_one_file :
    (LevelNamed [Word.new 1 0, Word.new 2 10] [⟨"d/a", 0⟩, ⟨"d//a", 10⟩] ∧ "d/a" ≠ "d//a" ∧
      ∃ last, SinkNode.run (BinaryFileWriter.work .u8 false exactMicros) [fun _ _ => true, fun _ _ => true]
          (SinkNode.new none (fun _ => none) [.batch [Word.new 1 0, Word.new 2 10]]
            [.sample ⟨"d/a", 0⟩, .sample ⟨"d//a", 10⟩]) = (some .shutdown, last) ∧
        ¬FilesRight (BinaryFileWriter.format .u8 false exactMicros) (fun _ => none)
          (windows [⟨"d/a", 0⟩, ⟨"d//a", 10⟩] [Word.new 1 0, Word.new 2 10]) last.sink.storage) ∧
    LevelNamed [Word.new 1 0] [⟨"captures.csv", 0⟩] ∧
      ∃ last, SinkNode.run (BinaryFileWriter.work .u8 true exactMicros) [fun _ _ => true, fun _ _ => true]
          (SinkNode.new none (fun _ => none) [.sample (Word.new 1 0)] [.sample ⟨"captures.csv", 0⟩]) =
            (some .shutdown, last) ∧
        ¬FilesRight (BinaryFileWriter.format .u8 true exactMicros) (fun _ => none)
          (windows [⟨"captures.csv", 0⟩] [Word.new 1 0]) last.sink.storage := by
  refine ⟨⟨⟨by decide, by decide, by simp [TextSample.time]⟩, by decide, _, Prod.ext (by decide) rfl, fun h => ?_⟩,
    ⟨by decide, by decide, by simp [TextSample.time]⟩, _, Prod.ext (by decide) rfl, fun h => ?_⟩
  · have hfirst := h.written ("d/a", [Word.new 1 0]) (by decide) (by decide)
    revert hfirst
    decide
  · have hfirst := h.written ("captures.csv", [Word.new 1 0]) (by decide) (by decide)
    revert hfirst
    decide

/-- A file keeps what was in force for it when no two windows with bytes are of one file, and only then. -/
theorem sinks_keep_what_is_written_once (h : LevelNamed (streamItems data) (streamItems names))
    (binarySchedules : List (Nat → Arrivals)) (csvSchedules : List Arrivals) :
    (∀ last, SinkNode.run (BinaryFileWriter.work width indexCsv micros) binarySchedules
          (SinkNode.new filename storage data names) = (some .shutdown, last) →
        (WrittenOnce (BinaryFileWriter.format width indexCsv micros) (windows (streamItems names) (streamItems data)) →
          NothingLost (BinaryFileWriter.format width indexCsv micros) (windows (streamItems names) (streamItems data))
            last.sink.storage) ∧
        (OffIndex indexCsv (streamItems names) →
          NothingLost (BinaryFileWriter.format width indexCsv micros) (windows (streamItems names) (streamItems data))
            last.sink.storage →
          WrittenOnce (BinaryFileWriter.format width indexCsv micros)
            (windows (streamItems names) (streamItems data)))) ∧
      ∀ last, SinkNode.run (CsvWordWriter.work header valueFormat) csvSchedules
          (SinkNode.new filename storage data names) = (some .shutdown, last) →
        (NothingLost (CsvWordWriter.format header valueFormat) (windows (streamItems names) (streamItems data))
            last.sink.storage ↔
          WrittenOnce (CsvWordWriter.format header valueFormat) (windows (streamItems names) (streamItems data))) := by
  constructor
  · intro last hrun
    obtain ⟨-, hstorage⟩ := (binary_puts width indexCsv micros binarySchedules h).2 .shutdown last hrun
    rw [hstorage]
    refine ⟨nothingLost_of_once _, fun hindex => once_of_nothingLost _ fun hrow window hwindow other hother => ?_⟩
    obtain ⟨change, hchange, hname⟩ := windows_name hwindow
    obtain ⟨second, hsecond, hother⟩ := windows_name hother
    rw [← hname, ← hother]
    exact hindex (binary_indexed hrow) change hchange second hsecond
  · intro last hrun
    obtain ⟨-, hstorage⟩ := (csv_puts header valueFormat csvSchedules h).2 .shutdown last hrun
    rw [hstorage]
    exact ⟨once_of_nothingLost _ fun hrow => Bool.noConfusion hrow, nothingLost_of_once _⟩

theorem sinks_keep_what_is_written_once_rolled :
    (SinkNode.run (CsvWordWriter.work none .decimal) [fun _ => true, fun _ => true]
          (SinkNode.new none (fun _ => none) [.sample (Word.new 1 0), .sample (Word.new 2 10)]
            [.batch [⟨"a", 0⟩, ⟨"a", 10⟩]])).1 = some .shutdown ∧
      (NothingLost (CsvWordWriter.format none .decimal)
          (windows [⟨"a", 0⟩, ⟨"a", 10⟩] [Word.new 1 0, Word.new 2 10])
          (SinkNode.run (CsvWordWriter.work none .decimal) [fun _ => true, fun _ => true]
            (SinkNode.new none (fun _ => none) [.sample (Word.new 1 0), .sample (Word.new 2 10)]
              [.batch [⟨"a", 0⟩, ⟨"a", 10⟩]])).2.sink.storage ↔
        WrittenOnce (CsvWordWriter.format none .decimal)
          (windows [⟨"a", 0⟩, ⟨"a", 10⟩] [Word.new 1 0, Word.new 2 10])) :=
  ⟨by decide, (@sinks_keep_what_is_written_once none (fun _ => none) [.sample (Word.new 1 0), .sample (Word.new 2 10)]
    [.batch [⟨"a", 0⟩, ⟨"a", 10⟩]] .u8 false exactMicros none .decimal
    ⟨by decide, by decide, by simp [streamItems, TextSample.time]⟩ [] [fun _ => true, fun _ => true]).2 _
      (Prod.ext (by decide) rfl)⟩

/-- The name in force sent once more: what was written under it is gone. -/
theorem repeated_name_loses_words :
    LevelNamed [Word.new 1 0, Word.new 2 10] [⟨"a", 0⟩, ⟨"a", 10⟩] ∧
      ∃ last, SinkNode.run (BinaryFileWriter.work .u8 false exactMicros) [fun _ _ => true, fun _ _ => true]
          (SinkNode.new none (fun _ => none) [.batch [Word.new 1 0, Word.new 2 10]]
            [.sample ⟨"a", 0⟩, .sample ⟨"a", 10⟩]) = (some .shutdown, last) ∧
        last.sink.storage (components "a") = some [2] ∧
        ¬NothingLost (BinaryFileWriter.format .u8 false exactMicros)
          (windows [⟨"a", 0⟩, ⟨"a", 10⟩] [Word.new 1 0, Word.new 2 10]) last.sink.storage := by
  refine ⟨⟨by decide, by decide, by simp [TextSample.time]⟩, _, Prod.ext (by decide) rfl, by decide, fun h => ?_⟩
  obtain ⟨content, hcontent, hprefix⟩ := h (components "a") (by decide)
  have hlength := hprefix.length_le
  have hlast : content = [2] := by
    refine Option.some.inj (hcontent.symm.trans ?_)
    decide
  rw [hlast] at hlength
  exact absurd hlength (by decide)

end Runs

end LogicConduit
