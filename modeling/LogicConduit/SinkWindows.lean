import LogicConduit.SinkRuns

namespace LogicConduit

def beforeNext (names : List TextSample) (word : Word) : Bool := names.head?.all fun next => word.time < next.time

def inForce (change : TextSample) (rest : List TextSample) (word : Word) : Bool :=
  change.time ≤ word.time && beforeNext rest word

def windows : List TextSample → List Word → List (String × List Word)
  | [], _ => []
  | change :: rest, words =>
    (change.value, words.filter (inForce change rest)) :: windows rest words

def NamesOrdered (names : List TextSample) : Prop := names.Pairwise fun a b => a.time ≤ b.time

instance (names : List TextSample) : Decidable (NamesOrdered names) := by
  unfold NamesOrdered
  infer_instance

variable {format : SinkFormat}

def Shelf.putAll (format : SinkFormat) (shelf : Shelf) (windows : List (String × List Word)) : Shelf :=
  windows.foldl (fun shelf window => shelf.put format window.1 window.2) shelf

theorem putAll_snoc (shelf : Shelf) (front : List (String × List Word)) (window : String × List Word) :
    shelf.putAll format (front ++ [window]) = (shelf.putAll format front).put format window.1 window.2 := by
  rw [Shelf.putAll, List.foldl_append]
  rfl

theorem windows_nil (names : List TextSample) (shelf : Shelf) : shelf.putAll format (windows names []) = shelf := by
  induction names with
  | nil => rfl
  | cons change rest ih =>
    rw [windows, Shelf.putAll, List.foldl_cons, List.filter_nil, put_nil]
    exact ih

theorem windows_cons_of_lt {names : List TextSample} {word : Word} (words : List Word)
    (h : ∀ change ∈ names, word.time < change.time) : windows names (word :: words) = windows names words := by
  induction names with
  | nil => rfl
  | cons change rest ih =>
    have hlate : ¬inForce change rest word = true := by
      rw [inForce, Bool.and_eq_true, decide_eq_true_eq]
      exact fun hdue => absurd (h change List.mem_cons_self) (Nat.not_lt.mpr hdue.1)
    rw [windows, windows, List.filter_cons_of_neg hlate, ih fun other hother => h other (List.mem_cons_of_mem change hother)]

def Rollover.extend (book : Rollover) (words : List Word) : Rollover := { book with words := book.words ++ words }

variable {words : List Word} {names : List TextSample}

theorem play_windows (book : Rollover) (hwords : Ordered words) (hnames : NamesOrdered names) :
    (Rollover.play format words (names, book)).2.finish format =
      ((book.extend (words.filter (beforeNext names))).finish format).putAll format (windows names words) := by
  induction words generalizing names book with
  | nil =>
    rw [windows_nil, List.filter_nil, Rollover.extend, List.append_nil]
    rfl
  | cons word words ih =>
    obtain ⟨hlater, hrest⟩ := List.pairwise_cons.mp hwords
    induction names generalizing book with
    | nil =>
      have hall : ∀ list : List Word, list.filter (beforeNext []) = list := fun list =>
        List.filter_eq_self.mpr fun _ _ => rfl
      have htaken := @ih [] (book.take word) hrest List.Pairwise.nil
      rw [hall] at htaken ⊢
      refine htaken.trans ?_
      rw [Rollover.extend, Rollover.take, List.append_assoc]
      rfl
    | cons change rest ihnames =>
      obtain ⟨hafter, hrestnames⟩ := List.pairwise_cons.mp hnames
      by_cases hdue : change.time ≤ word.time
      · -- the change is applied before the word, so the name before it gets no more words
        have hturned := ihnames (book.turn format change) hrestnames
        have hall : ∀ other ∈ word :: words, change.time ≤ other.time := by
          intro other hother
          rcases List.mem_cons.mp hother with rfl | hother
          · exact hdue
          · exact Nat.le_trans hdue (hlater other hother)
        have hnone : (word :: words).filter (beforeNext (change :: rest)) = [] := by
          refine List.filter_eq_nil_iff.mpr fun other hother hbefore => ?_
          exact absurd (of_decide_eq_true hbefore) (Nat.not_lt.mpr (hall other hother))
        have hforce : (word :: words).filter (inForce change rest) = (word :: words).filter (beforeNext rest) := by
          refine List.filter_congr fun other hother => ?_
          rw [inForce, decide_eq_true (hall other hother), Bool.true_and]
        have hstep : Rollover.step format (change :: rest, book) word =
            Rollover.step format (rest, book.turn format change) word := by
          rw [Rollover.step, Rollover.step, dueBy_cons_of_le rest hdue, dueAfter_cons_of_le rest hdue]
          rfl
        rw [Rollover.play, List.foldl_cons] at hturned ⊢
        have hclosed : book.extend [] = book := by rw [Rollover.extend, List.append_nil]
        rw [hstep, hturned, hnone, windows, hforce, hclosed]
        rfl
      · have hlate := Nat.lt_of_not_le hdue
        have hstep : Rollover.step format (change :: rest, book) word = (change :: rest, book.take word) := by
          rw [Rollover.step, dueBy_cons_of_lt rest hlate, dueAfter_cons_of_lt rest hlate]
          rfl
        have hwindows := @windows_cons_of_lt (change :: rest) word words fun other hother => by
          rcases List.mem_cons.mp hother with rfl | hother
          · exact hlate
          · exact Nat.lt_of_lt_of_le hlate (hafter other hother)
        have hbefore : beforeNext (change :: rest) word = true := decide_eq_true hlate
        rw [Rollover.play, List.foldl_cons, hstep, hwindows, List.filter_cons_of_pos hbefore]
        refine (ih (book.take word) hrest hnames).trans ?_
        rw [Rollover.extend, Rollover.extend, Rollover.take, List.append_assoc]
        rfl

theorem play_new (filename : Option String) (storage : Files) (hwords : Ordered words)
    (hnames : NamesOrdered names) (hfirst : ∀ word ∈ words.head?, ∃ change ∈ names.head?, change.time ≤ word.time) :
    (Rollover.play format words (names, Rollover.new filename storage)).2.finish format =
      Shelf.putAll format ⟨storage, 0⟩ (windows names words) := by
  have hnone : words.filter (beforeNext names) = [] := by
    cases words with
    | nil => rfl
    | cons word words =>
      obtain ⟨change, hchange, hdue⟩ := hfirst word rfl
      refine List.filter_eq_nil_iff.mpr fun other hother hbefore => ?_
      have hle : word.time ≤ other.time := by
        rcases List.mem_cons.mp hother with rfl | hother
        · exact Nat.le_refl _
        · exact (List.pairwise_cons.mp hwords).1 other hother
      rw [beforeNext, hchange] at hbefore
      exact absurd (of_decide_eq_true hbefore) (Nat.not_lt.mpr (Nat.le_trans hdue hle))
  rw [play_windows _ hwords hnames, hnone]
  exact congrArg (Shelf.putAll format · _) (put_nil format ⟨storage, 0⟩ (filename.getD ""))

/-- Whether the name of a window names the file and its words make bytes. -/
def writesTo (format : SinkFormat) (path : OutputPath) (window : String × List Word) : Bool :=
  components window.1 = path ∧ format.encodeAll window.2 ≠ []

def windowsAt (format : SinkFormat) (path : OutputPath) (all : List (String × List Word)) : List (String × List Word) :=
  all.filter (writesTo format path)

variable {path : OutputPath} {window : String × List Word} {content : Bytes} {shelf : Shelf} {name : String}

theorem writesTo_iff :
    writesTo format path window = true ↔ components window.1 = path ∧ format.encodeAll window.2 ≠ [] := decide_eq_true_iff

theorem appendIndexRow_at (row : ClosedFile → Bytes) (closed : ClosedFile) (storage : Files) (path : OutputPath) :
    appendIndexRow row closed storage path =
      if path = indexPath closed.path then some ((storage path).getD (utf8Bytes indexHeader) ++ row closed)
      else storage path := by
  rw [appendIndexRow]
  by_cases hpath : path = indexPath closed.path
  · rw [if_pos hpath]
    subst hpath
    cases hold : storage (indexPath closed.path) with
    | none => simp [Files.write, Files.create]
    | some content => simp [Files.write, hold]
  · rw [if_neg hpath, Files.write_other _ _ hpath]
    split
    · rfl
    · rw [Files.create_write, Files.set_other _ _ hpath]

theorem indexed_keeps (closed : ClosedFile) {storage : Files} (h : storage path = some content) :
    ∃ added, format.indexed closed storage path = some (content ++ added) := by
  rw [SinkFormat.indexed]
  cases format.indexRow with
  | some row =>
    dsimp only
    rw [appendIndexRow_at]
    split
    · refine ⟨row closed, ?_⟩
      rw [h]
      rfl
    · exact ⟨[], h.trans (congrArg some (List.append_nil content).symm)⟩
  | none => exact ⟨[], h.trans (congrArg some (List.append_nil content).symm)⟩

theorem indexed_other (closed : ClosedFile) (storage : Files)
    (h : format.indexRow.isSome = true → path ≠ indexPath closed.path) :
    format.indexed closed storage path = storage path := by
  rw [SinkFormat.indexed]
  cases hrow : format.indexRow with
  | some row =>
    dsimp only
    rw [appendIndexRow_at, if_neg (h (Option.isSome_iff_exists.mpr ⟨row, hrow⟩))]
  | none => rfl

theorem put_other (h : components name ≠ path)
    (hindex : format.indexRow.isSome = true → path ≠ indexPath (components name)) :
    (shelf.put format name words).storage path = shelf.storage path := by
  rw [Shelf.put]
  split
  · rfl
  · dsimp only
    rw [indexed_other _ _ hindex, Files.set_other _ _ (Ne.symm h)]

theorem put_keeps
    (h : components name ≠ path ∨ format.encodeAll words = []) (hcontent : shelf.storage path = some content) :
    ∃ added, (shelf.put format name words).storage path = some (content ++ added) := by
  rw [Shelf.put]
  split
  · exact ⟨[], hcontent.trans (congrArg some (List.append_nil content).symm)⟩
  next hbytes =>
    refine indexed_keeps _ ?_
    rw [Files.set_other _ _ (Ne.symm (h.resolve_right hbytes)), hcontent]

theorem putAll_last {all : List (String × List Word)} {path : OutputPath} {window : String × List Word} (shelf : Shelf)
    (h : (windowsAt format path all).getLast? = some window) :
    ∃ added, (shelf.putAll format all).storage path =
      some (format.headerBytes ++ format.encodeAll window.2 ++ added) := by
  induction all using List.reverseRecOn generalizing window with
  | nil => cases h
  | append_singleton front last ih =>
    rw [putAll_snoc]
    rw [windowsAt, List.filter_append] at h
    by_cases hlast : writesTo format path last = true
    · rw [List.filter_cons_of_pos hlast, List.filter_nil, List.getLast?_append, List.getLast?_singleton] at h
      cases h
      obtain ⟨hpath, hbytes⟩ := writesTo_iff.mp hlast
      rw [Shelf.put, if_neg hbytes]
      refine indexed_keeps _ ?_
      rw [hpath, Files.set_self]
    · rw [List.filter_cons_of_neg hlast, List.filter_nil, List.append_nil] at h
      obtain ⟨added, hcontent⟩ := ih h
      have hapart : components last.1 ≠ path ∨ format.encodeAll last.2 = [] := by
        by_cases hpath : components last.1 = path
        · exact Or.inr (not_not.mp fun hbytes => hlast (writesTo_iff.mpr ⟨hpath, hbytes⟩))
        · exact Or.inl hpath
      obtain ⟨more, hmore⟩ := put_keeps hapart hcontent
      exact ⟨added ++ more, hmore.trans (congrArg some (List.append_assoc _ added more))⟩

end LogicConduit
