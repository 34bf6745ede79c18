import LogicConduit.PartitionPoint
import LogicConduit.WordPrediction

namespace LogicConduit

open PartitionPoint

/-- The records kept so far, each with its index. -/
structure RangeScan where
  previousPredecessor : Option (Nat × Word)
  predecessor : Option (Nat × Word)
  selected : List (Nat × Word)
  decodedRecords : Nat
  complete : Bool

namespace RangeScan

def start : RangeScan := ⟨none, none, [], 0, true⟩

def selectPredecessors (maxContextWords : Nat) (scan : RangeScan) : RangeScan :=
  let selected := scan.selected ++ scan.previousPredecessor.toList
  { scan with
    previousPredecessor := none
    predecessor := none
    selected := if selected.length < maxContextWords then selected ++ scan.predecessor.toList else selected }

/-- The first record selected comes with its predecessors. -/
def opened (maxContextWords : Nat) (scan : RangeScan) : RangeScan :=
  if scan.selected = [] then scan.selectPredecessors maxContextWords else scan

/-- One record of the loop, and whether the loop goes on. -/
def visit (startNs endNs maxContextWords recordIndex : Nat) (word : Word) (scan : RangeScan) : RangeScan × Bool :=
  let scan := { scan with decodedRecords := scan.decodedRecords + 1 }
  if word.time < startNs then
    ({ scan with previousPredecessor := scan.predecessor, predecessor := some (recordIndex, word) }, true)
  else
    let scan := scan.opened maxContextWords
    if maxContextWords ≤ scan.selected.length then ({ scan with complete := false }, false)
    else ({ scan with selected := scan.selected ++ [(recordIndex, word)] }, word.time ≤ endNs)

end RangeScan

def rangeLoop (bytes : Bytes) (parsed : ParsedWordBlock) (startNs endNs maxContextWords : Nat) :
    Nat → Nat → RecordDecoder → RangeScan → CodecResult RangeScan
  | 0, _, _, scan => .ok scan
  | count + 1, recordIndex, decoder, scan => do
    let (word, decoder) ← decoder.next bytes parsed recordIndex
    let (scan, goesOn) := scan.visit startNs endNs maxContextWords recordIndex word
    if goesOn then rangeLoop bytes parsed startNs endNs maxContextWords count (recordIndex + 1) decoder scan
    else .ok scan

def decodeWordBlockRange (checksum : BlockChecksum) (bytes : Bytes) (startNs endNs maxContextWords : Nat) :
    CodecResult DecodedWordRange := do
  if endNs < startNs then invalid "range start is after range end"
  else if maxContextWords = 0 then
    .error (.invalidConfiguration "max_context_words must be greater than zero")
  else do
    let parsed ← parseWordBlock checksum bytes
    let restartIndex := partitionPoint (fun restart => restart.timestampNs.toNat < startNs) parsed.restarts - 1
    let restart ← restartAt parsed restartIndex
    let scan ← rangeLoop bytes parsed startNs endNs maxContextWords
      (parsed.header.wordCount.toNat - restart.recordIndex.toNat) restart.recordIndex.toNat
      (RecordDecoder.new restartIndex restart true) .start
    let scan := scan.opened maxContextWords
    let firstRecordIndex := (scan.selected.head?.map Prod.fst).getD 0
    let words ← applyDurations bytes parsed firstRecordIndex (scan.selected.map Prod.snd)
    return { header := parsed.header, words, complete := scan.complete, decodedRecords := scan.decodedRecords }

def indexed : Nat → List Word → List (Nat × Word)
  | _, [] => []
  | index, word :: rest => (index, word) :: indexed (index + 1) rest

theorem indexed_append (words others : List Word) (index : Nat) :
    indexed index (words ++ others) = indexed index words ++ indexed (index + words.length) others := by
  induction words generalizing index with
  | nil => rfl
  | cons word rest ih =>
    rw [List.cons_append, indexed, ih, indexed, List.length_cons, List.cons_append, Nat.add_assoc, Nat.add_comm 1]

@[simp] theorem indexed_length (index : Nat) (words : List Word) : (indexed index words).length = words.length := by
  induction words generalizing index with
  | nil => rfl
  | cons word rest ih => rw [indexed, List.length_cons, ih, List.length_cons]

theorem map_indexed (index : Nat) (words : List Word) : (indexed index words).map Prod.snd = words := by
  induction words generalizing index with
  | nil => rfl
  | cons word rest ih => rw [indexed, List.map_cons, ih]

variable {words : List Word}

theorem head?_indexed (index : Nat) (h : words ≠ []) :
    (indexed index words).head?.map Prod.fst = some index := by
  cases words with
  | nil => exact absurd rfl h
  | cons word rest => rfl

theorem take_indexed (index count : Nat) (words : List Word) :
    (indexed index words).take count = indexed index (words.take count) := by
  induction words generalizing index count with
  | nil => simp [indexed]
  | cons word rest ih =>
    cases count with
    | zero => rfl
    | succ count => rw [indexed, List.take_succ_cons, ih, List.take_succ_cons, indexed]

theorem drop_indexed (index count : Nat) (words : List Word) :
    (indexed index words).drop count = indexed (index + count) (words.drop count) := by
  induction words generalizing index count with
  | nil => simp [indexed]
  | cons word rest ih =>
    cases count with
    | zero => rfl
    | succ count => rw [indexed, List.drop_succ_cons, ih, List.drop_succ_cons, Nat.add_assoc, Nat.add_comm 1]

def scanWords (startNs endNs maxContextWords : Nat) : List Word → Nat → RangeScan → RangeScan
  | [], _, scan => scan
  | word :: rest, index, scan =>
    let (scan, goesOn) := scan.visit startNs endNs maxContextWords index word
    if goesOn then scanWords startNs endNs maxContextWords rest (index + 1) scan else scan

section Scan

variable {startNs endNs maxContextWords : Nat}

theorem rangeLoop_of_decodes {bytes : Bytes} {parsed : ParsedWordBlock} {index : Nat} {words : List Word}
    {decoder : RecordDecoder} (h : Decodes bytes parsed index words decoder) (scan : RangeScan) :
    rangeLoop bytes parsed startNs endNs maxContextWords words.length index decoder scan =
      .ok (scanWords startNs endNs maxContextWords (words.map Word.bare) index scan) := by
  induction words generalizing index decoder scan with
  | nil => rfl
  | cons word rest ih =>
    obtain ⟨next, hnext, -, hrest⟩ := h
    rw [List.length_cons, rangeLoop, hnext, List.map_cons, scanWords]
    simp only [bind, Except.bind]
    split
    · exact ih hrest _
    · rfl

def beforeRange (index : Nat) (words : List Word) : RangeScan where
  previousPredecessor := (indexed index words).dropLast.getLast?
  predecessor := (indexed index words).getLast?
  selected := []
  decodedRecords := words.length
  complete := true

theorem scanWords_before (words : List Word) (later : List Word) (index : Nat) (h : ∀ word ∈ words, word.time < startNs) :
    scanWords startNs endNs maxContextWords (words ++ later) index .start =
      scanWords startNs endNs maxContextWords later (index + words.length) (beforeRange index words) := by
  induction words using List.reverseRecOn generalizing later with
  | nil => rfl
  | append_singleton words word ih =>
    rw [List.append_assoc, ih _ fun other hm => h other (List.mem_append_left _ hm), List.singleton_append, scanWords,
      RangeScan.visit]
    simp only [h word (by simp), if_true]
    rw [List.length_append, List.length_singleton, ← Nat.add_assoc]
    congr 1
    simp [beforeRange, indexed_append, indexed]

def reach (endNs : Nat) (words : List Word) : Nat := min (words.countP (·.time ≤ endNs) + 1) words.length

theorem reach_cons {word : Word} {rest : List Word} (ho : Ordered (word :: rest)) :
    reach endNs (word :: rest) = if word.time ≤ endNs then reach endNs rest + 1 else 1 := by
  unfold reach
  split
  next hle =>
    rw [List.countP_cons_of_pos (by simpa using hle), List.length_cons]
    omega
  next hgt =>
    have hzero : (word :: rest).countP (·.time ≤ endNs) = 0 := by
      rw [List.countP_eq_zero]
      intro other hm
      have hle : word.time ≤ other.time := by
        rcases List.mem_cons.mp hm with rfl | hm
        · exact le_rfl
        · exact (List.pairwise_cons.mp ho).1 other hm
      simp only [decide_eq_true_eq]
      omega
    rw [hzero, List.length_cons]
    omega

theorem reach_pos (h : words ≠ []) : 0 < reach endNs words := by
  have hlen := List.length_pos_iff.mpr h
  unfold reach
  omega

theorem opened_of_none {scan : RangeScan} (hprevious : scan.previousPredecessor = none)
    (hpredecessor : scan.predecessor = none) : scan.opened maxContextWords = scan := by
  obtain ⟨previous, predecessor, selected, decoded, complete⟩ := scan
  dsimp only at hprevious hpredecessor
  subst hprevious hpredecessor
  simp [RangeScan.opened, RangeScan.selectPredecessors]

/-- From the start of the range on, the scan takes records up to the first one behind it, as far as the
limit allows. -/
theorem scanWords_after (words : List Word) {scan : RangeScan} (index : Nat) (ho : Ordered words)
    (h : ∀ word ∈ words, startNs ≤ word.time) (hprevious : scan.previousPredecessor = none)
    (hpredecessor : scan.predecessor = none) :
    let result := scanWords startNs endNs maxContextWords words index scan
    result.selected = scan.selected ++
        (indexed index words).take (min (reach endNs words) (maxContextWords - scan.selected.length)) ∧
      result.complete = (scan.complete && decide (reach endNs words ≤ maxContextWords - scan.selected.length)) ∧
      result.previousPredecessor = none ∧ result.predecessor = none := by
  induction words generalizing scan index with
  | nil => simp [scanWords, reach, indexed, hprevious, hpredecessor]
  | cons word rest ih =>
    have hnone := @opened_of_none maxContextWords { scan with decodedRecords := scan.decodedRecords + 1 }
      hprevious hpredecessor
    have hpos : 0 < reach endNs (word :: rest) := reach_pos (List.cons_ne_nil _ _)
    simp only [scanWords, RangeScan.visit, hnone, Nat.not_lt.mpr (h word List.mem_cons_self), if_false]
    by_cases hfull : maxContextWords ≤ scan.selected.length
    · simp only [hfull, if_true, Bool.false_eq_true, if_false, Nat.sub_eq_zero_of_le hfull, Nat.min_zero,
        List.take_zero, List.append_nil, hprevious, hpredecessor, and_self, and_true, true_and]
      simp
      omega
    · simp only [hfull, if_false]
      by_cases hle : word.time ≤ endNs
      · have hrest := @ih { scan with
          selected := scan.selected ++ [(index, word)]
          decodedRecords := scan.decodedRecords + 1 } (index + 1) (List.pairwise_cons.mp ho).2
          (fun other hm => h other (List.mem_cons_of_mem _ hm)) hprevious hpredecessor
        obtain ⟨hselected, hcomplete, hnones⟩ := hrest
        rw [List.length_append, List.length_singleton] at hselected hcomplete
        have htaken : min (reach endNs rest + 1) (maxContextWords - scan.selected.length) =
            min (reach endNs rest) (maxContextWords - (scan.selected.length + 1)) + 1 := by omega
        have henough : reach endNs rest + 1 ≤ maxContextWords - scan.selected.length ↔
            reach endNs rest ≤ maxContextWords - (scan.selected.length + 1) := by omega
        simp only [hle, decide_true, if_true]
        refine ⟨?_, ?_, hnones⟩
        · rw [hselected, reach_cons ho, if_pos hle, htaken, indexed, List.take_succ_cons, List.append_assoc]
          rfl
        · rw [hcomplete, reach_cons ho, if_pos hle]
          simp only [henough]
      · have htaken : min 1 (maxContextWords - scan.selected.length) = 1 := by omega
        have henough : 1 ≤ maxContextWords - scan.selected.length := by omega
        simp only [hle, decide_false, Bool.false_eq_true, if_false, hprevious, hpredecessor, and_self, and_true]
        rw [reach_cons ho, if_neg hle, htaken, indexed]
        simp [henough]

theorem lastTwo_take {α : Type} (records : List α) {limit : Nat} (h : 0 < limit) :
    (if records.dropLast.getLast?.toList.length < limit then
      records.dropLast.getLast?.toList ++ records.getLast?.toList else records.dropLast.getLast?.toList) =
      (records.drop (records.length - 2)).take limit := by
  obtain ⟨limit, rfl⟩ : ∃ more, limit = more + 1 := ⟨limit - 1, by omega⟩
  rcases records.eq_nil_or_concat' with rfl | ⟨others, last, rfl⟩
  · simp
  · rcases others.eq_nil_or_concat' with rfl | ⟨earlier, second, rfl⟩
    · simp
    · have hdrop : (earlier ++ [second] ++ [last]).length - 2 = earlier.length := by simp
      rw [hdrop, List.append_assoc earlier, List.drop_left' rfl]
      cases limit <;> simp

theorem opened_before (hmax : 0 < maxContextWords) (index : Nat) (words : List Word) :
    (beforeRange index words).opened maxContextWords =
      ⟨none, none, ((indexed index words).drop (words.length - 2)).take maxContextWords, words.length, true⟩ := by
  have hlast := lastTwo_take (indexed index words) hmax
  rw [indexed_length] at hlast
  simp only [RangeScan.opened, beforeRange, if_true, RangeScan.selectPredecessors, List.nil_append, ← hlast]
  rfl

theorem visit_opened {scan : RangeScan} (h : scan.selected = []) (index : Nat) {word : Word}
    (hword : startNs ≤ word.time) :
    scan.visit startNs endNs maxContextWords index word =
      (scan.opened maxContextWords).visit startNs endNs maxContextWords index word := by
  have hopened : scan.opened maxContextWords = scan.selectPredecessors maxContextWords := if_pos h
  have hagain := @opened_of_none maxContextWords
    { scan.selectPredecessors maxContextWords with
      decodedRecords := (scan.selectPredecessors maxContextWords).decodedRecords + 1 } rfl rfl
  have hfirst : ({ scan with decodedRecords := scan.decodedRecords + 1 } : RangeScan).opened maxContextWords =
      { scan.selectPredecessors maxContextWords with
        decodedRecords := (scan.selectPredecessors maxContextWords).decodedRecords + 1 } := if_pos h
  unfold RangeScan.visit
  rw [hopened]
  dsimp only
  rw [if_neg (Nat.not_lt.mpr hword), if_neg (Nat.not_lt.mpr hword), hfirst, hagain]

/-- The whole scan: at most two of the records before the range, then those up to the first one behind it. -/
theorem scanWords_range (hmax : 0 < maxContextWords) (before : List Word) {later : List Word} (index : Nat)
    (ho : Ordered later) (hbefore : ∀ word ∈ before, word.time < startNs)
    (hlater : ∀ word ∈ later, startNs ≤ word.time) :
    let needed := min 2 before.length + reach endNs later
    let result := (scanWords startNs endNs maxContextWords (before ++ later) index .start).opened maxContextWords
    result.selected = indexed (index + (before.length - 2))
        ((before.drop (before.length - 2) ++ later).take (min needed maxContextWords)) ∧
      (result.complete = true ↔ later = [] ∨ needed ≤ maxContextWords) := by
  have hopened := opened_before hmax index before
  have hlast : (before.drop (before.length - 2)).length = min 2 before.length := by
    rw [List.length_drop]
    omega
  dsimp only
  rw [scanWords_before before later index hbefore]
  cases later with
  | nil =>
    rw [scanWords, hopened, drop_indexed, take_indexed]
    refine ⟨?_, by simp⟩
    rw [List.append_nil, reach, List.length_nil, Nat.min_zero, Nat.add_zero, ← hlast, Nat.min_comm, ← List.take_take,
      List.take_length]
  | cons word rest =>
    have hscan : scanWords startNs endNs maxContextWords (word :: rest) (index + before.length) (beforeRange index before) =
        scanWords startNs endNs maxContextWords (word :: rest) (index + before.length)
          ((beforeRange index before).opened maxContextWords) := by
      rw [scanWords, visit_opened rfl _ (hlater word List.mem_cons_self), ← scanWords]
    rw [hscan, hopened]
    obtain ⟨hselected, hcomplete, hprevious, hpredecessor⟩ := @scanWords_after startNs endNs maxContextWords
      (word :: rest) ⟨none, none, ((indexed index before).drop (before.length - 2)).take maxContextWords,
        before.length, true⟩ (index + before.length) ho hlater rfl rfl
    rw [opened_of_none hprevious hpredecessor, hselected, hcomplete, drop_indexed, take_indexed, take_indexed,
      indexed_length, List.length_take, hlast, ← hlast]
    have hpos : 0 < reach endNs (word :: rest) := reach_pos (List.cons_ne_nil _ _)
    generalize reach endNs (word :: rest) = reached at hpos ⊢
    have hat : index + (before.length - 2) + (before.drop (before.length - 2)).length = index + before.length := by
      omega
    generalize before.drop (before.length - 2) = tail at hat ⊢
    refine ⟨?_, by simp; omega⟩
    rcases Nat.lt_or_ge maxContextWords tail.length with hshort | hlong
    · rw [show min reached (maxContextWords - min maxContextWords tail.length) = 0 by omega,
        show min (tail.length + reached) maxContextWords = maxContextWords by omega, List.take_zero, indexed,
        List.append_nil, List.take_append_of_le_length hshort.le]
    · have hroom : min (tail.length + reached) maxContextWords - tail.length =
          min reached (maxContextWords - min maxContextWords tail.length) := by omega
      have hall : tail.take (min (tail.length + reached) maxContextWords) = tail := List.take_of_length_le (by omega)
      rw [List.take_of_length_le hlong, List.take_append, hall, indexed_append, hat, hroom]

end Scan

def RestartEntry.place (restart : RestartEntry) : UInt64 × Nat := (restart.timestampNs, restart.recordIndex.toNat)

def RestartsEvery (interval : Nat) (words : List Word) (restarts : List RestartEntry) : Prop :=
  ∀ k, restarts[k]?.map RestartEntry.place = words[k * interval]?.map fun word => (word.timestampNs, k * interval)

theorem ceil_mul_of_dvd {interval index : Nat} (h : 0 < interval) (hdvd : index % interval = 0) :
    (index + interval - 1) / interval * interval = index := by
  obtain ⟨count, rfl⟩ := Nat.dvd_of_mod_eq_zero hdvd
  rw [show interval * count + interval - 1 = interval - 1 + interval * count by omega, Nat.add_mul_div_left _ _ h,
    Nat.div_eq_of_lt (by omega), Nat.zero_add, Nat.mul_comm]

theorem lt_ceil_mul {interval index : Nat} (h : 0 < interval) (hdvd : index % interval ≠ 0) :
    index < (index + interval - 1) / interval * interval := by
  have hdiv := Nat.div_add_mod (index + interval - 1) interval
  have hmod := Nat.mod_lt (index + interval - 1) h
  rw [Nat.mul_comm] at hdiv
  rcases Nat.lt_or_ge index ((index + interval - 1) / interval * interval) with hlt | hge
  · exact hlt
  · have hsame : (index + interval - 1) / interval * interval = index := by omega
    rw [← hsame, Nat.mul_mod_left] at hdvd
    exact absurd rfl hdvd

variable {interval : Nat}

theorem restartsOf_places (h : 0 < interval) (width : Nat) (words : List Word) (index offset previous : Nat)
    (hbound : index + words.length ≤ u32Max) (k : Nat) :
    (restartsOf width interval index offset previous words)[k]?.map RestartEntry.place =
      words[((index + interval - 1) / interval + k) * interval - index]?.map fun word =>
        (word.timestampNs, ((index + interval - 1) / interval + k) * interval) := by
  induction words generalizing index offset previous k with
  | nil => simp [restartsOf]
  | cons word rest ih =>
    rw [List.length_cons] at hbound
    have hrest (k : Nat) := ih (index + 1) (offset + (recordBytes width previous word).length) word.time (by omega) k
    have hceil := succ_ceil h index
    -- from the second record on the entries are those of the rest
    have hlater {place : Nat} (hplace : index < place) :
        (word :: rest)[place - index]? = rest[place - (index + 1)]? := by
      rw [show place - index = place - (index + 1) + 1 by omega, List.getElem?_cons_succ]
    rw [restartsOf]
    by_cases hdvd : index % interval = 0
    · have hat := ceil_mul_of_dvd h hdvd
      rw [if_pos hdvd] at hceil ⊢
      cases k with
      | zero =>
        simp only [Nat.add_zero, hat, Nat.sub_self]
        simp [RestartEntry.place, u32_toNat_ofNat (show index ≤ u32Max by omega)]
      | succ k =>
        have hnext : (index + interval - 1) / interval + (k + 1) = (index + 1 + interval - 1) / interval + k := by omega
        have hplace : index < ((index + 1 + interval - 1) / interval + k) * interval := by
          rw [hceil, Nat.add_mul, Nat.add_mul, hat]
          omega
        rw [List.singleton_append, List.getElem?_cons_succ, hrest, hnext, hlater hplace]
    · have hat := lt_ceil_mul h hdvd
      rw [if_neg hdvd] at hceil ⊢
      have hplace : index < ((index + interval - 1) / interval + k) * interval := by
        rw [Nat.add_mul]
        omega
      rw [List.nil_append, hrest, hceil, Nat.add_zero, hlater hplace]

theorem groupRestarts_places (h : 0 < interval) (fuel : Nat) (hfuel : words.length ≤ fuel) (group offset : Nat)
    (hbound : group * interval + words.length ≤ u32Max) (k : Nat) :
    (groupRestarts (group * interval) offset (chunksLoop interval fuel words))[k]?.map RestartEntry.place =
      words[k * interval]?.map fun word => (word.timestampNs, (group + k) * interval) := by
  induction fuel generalizing words group offset k with
  | zero =>
    obtain rfl : words = [] := List.length_eq_zero_iff.mp (by omega)
    simp [chunksLoop, groupRestarts]
  | succ fuel ih =>
    cases words with
    | nil => simp [chunksLoop, groupRestarts]
    | cons word rest =>
      rw [chunksLoop, groupRestarts]
      cases k with
      | zero =>
        have hsmall : (UInt32.ofNat (group * interval)).toNat = group * interval := u32_toNat_ofNat (by omega)
        simp only [List.getElem?_cons_zero, Option.map_some, RestartEntry.place, hsmall, Nat.zero_mul, Nat.add_zero]
        simp [List.head?_take, h.ne']
      | succ k =>
        have hdrop : (word :: rest)[(k + 1) * interval]? = ((word :: rest).drop interval)[k * interval]? := by
          rw [List.getElem?_drop, Nat.add_one_mul, Nat.add_comm]
        rw [List.getElem?_cons_succ, hdrop]
        rcases Nat.lt_or_ge interval (word :: rest).length with hlong | hshort
        · have hfull : ((word :: rest).take interval).length = interval := by
            rw [List.length_take]
            omega
          have hrest := @ih ((word :: rest).drop interval) (by rw [List.length_drop]; omega) (group + 1)
            (offset + (encodeGroup ((word :: rest).take interval)).length)
            (by rw [List.length_drop, Nat.add_one_mul]; omega) k
          rw [hfull, ← Nat.add_one_mul, hrest, show group + 1 + k = group + (k + 1) by omega]
        · rw [List.drop_eq_nil_iff.mpr hshort]
          cases fuel <;> simp [chunksLoop, groupRestarts]

theorem WordBlockBuilder.encode_restarts {checksum : BlockChecksum} {builder : WordBlockBuilder}
    {sequence : UInt64} {metadata : EncodedBlockMetadata} {bytes : Bytes} (hb : builder.Sized)
    (hne : builder.words ≠ []) (ho : Ordered builder.words)
    (h : builder.encode checksum sequence = .ok (metadata, bytes)) :
    RestartsEvery builder.config.restartInterval builder.words metadata.restarts := by
  obtain ⟨parts, hparts, hlayout⟩ := except_bind_ok h
  have hi := hb.blockInput hne ho
  have hlen := hi.length
  have hzero : (builder.config.restartInterval - 1) / builder.config.restartInterval = 0 :=
    Nat.div_eq_of_lt (by have := hb.restartInterval; omega)
  rw [(layoutBlock_ok hlayout).1]
  intro k
  rcases encodeParts_tables hi hparts with hl | ⟨-, hg⟩
  · have hplaces := restartsOf_places hb.restartInterval (valueWidth builder.maxValue) builder.words 0 0
      ((builder.words.head?.map Word.time).getD 0) (by omega) k
    rwa [← hl.restarts, Nat.zero_add, hzero, Nat.zero_add, Nat.sub_zero] at hplaces
  · have hplaces := groupRestarts_places hb.restartInterval builder.words.length le_rfl 0 0 (by omega) k
    rwa [← chunks, Nat.zero_mul, ← hg.restarts, Nat.zero_add] at hplaces

def countBefore (startNs : Nat) (words : List Word) : Nat := words.countP (·.time < startNs)

def restartBefore (interval startNs : Nat) (words : List Word) : Nat :=
  (countBefore startNs words - 1) / interval * interval

theorem countBefore_le (startNs : Nat) (words : List Word) : countBefore startNs words ≤ words.length :=
  List.countP_le_length

theorem Ordered.before (ho : Ordered words) (startNs : Nat) :
    (∀ word ∈ words.take (countBefore startNs words), word.time < startNs) ∧
      ∀ word ∈ words.drop (countBefore startNs words), startNs ≤ word.time := by
  have hpart := @partitioned_lt _ _ Word.time ho startNs
  unfold countBefore
  rw [hpart.countP_eq, ← hpart.filter_eq, ← hpart.filter_not_eq]
  exact ⟨fun word hm => by simpa using (List.mem_filter.mp hm).2, fun word hm => by
    simpa using (List.mem_filter.mp hm).2⟩

theorem lt_ceil_iff (h : 0 < interval) (i n : Nat) :
    i < (n + interval - 1) / interval ↔ i * interval < n := by
  rw [← Nat.succ_le_iff, Nat.le_div_iff_mul_le h, Nat.succ_mul]
  omega

theorem restartBefore_lt {interval startNs : Nat} (hne : words ≠ []) :
    restartBefore interval startNs words < words.length := by
  have hle := Nat.div_mul_le_self (countBefore startNs words - 1) interval
  have hcount := countBefore_le startNs words
  have hpos := List.length_pos_iff.mpr hne
  unfold restartBefore
  omega

theorem RestartsEvery.find {interval startNs : Nat} {restarts : List RestartEntry}
    (h : RestartsEvery interval words restarts) (hi : 0 < interval) (ho : Ordered words) (hne : words ≠ []) :
    ∃ restart, restarts[partitionPoint (fun restart => decide (restart.timestampNs.toNat < startNs)) restarts - 1]? =
      some restart ∧ restart.recordIndex.toNat = restartBefore interval startNs words := by
  obtain ⟨hbefore, hafter⟩ := ho.before startNs
  have hle := countBefore_le startNs words
  generalize hcount : countBefore startNs words = count at hbefore hafter hle
  have hentry (k : Nat) {restart : RestartEntry} (hk : restarts[k]? = some restart) :
      ∃ word, words[k * interval]? = some word ∧ restart.timestampNs = word.timestampNs := by
    have hplace := h k
    rw [hk, Option.map_some] at hplace
    obtain ⟨word, hword, hsame⟩ := Option.map_eq_some_iff.mp hplace.symm
    exact ⟨word, hword, (congrArg Prod.fst hsame).symm⟩
  have hpoint : partitionPoint (fun restart => decide (restart.timestampNs.toNat < startNs)) restarts =
      (count + interval - 1) / interval := by
    refine partitionPoint_eq ?_ (fun k restart hk hrestart => ?_) fun restart hrestart => ?_
    · by_contra hgt
      have hlt := (lt_ceil_iff hi restarts.length count).mp (Nat.lt_of_not_le hgt)
      have hplace := h restarts.length
      rw [List.getElem?_eq_none le_rfl, List.getElem?_eq_getElem (show _ < words.length by omega)] at hplace
      cases hplace
    · obtain ⟨word, hword, hsame⟩ := hentry k hrestart
      have hlt := (lt_ceil_iff hi k count).mp hk
      have hmem := List.mem_of_getElem? ((List.getElem?_take_of_lt hlt).trans hword)
      rw [hsame, decide_eq_true_eq]
      exact hbefore word hmem
    · obtain ⟨word, hword, hsame⟩ := hentry _ hrestart
      have hge : ¬(count + interval - 1) / interval * interval < count := fun hlt =>
        Nat.lt_irrefl _ ((lt_ceil_iff hi _ count).mpr hlt)
      obtain ⟨more, hmore⟩ := Nat.exists_eq_add_of_le (Nat.le_of_not_lt hge)
      rw [hmore, ← List.getElem?_drop] at hword
      rw [hsame, decide_eq_false_iff_not, Nat.not_lt]
      exact hafter word (List.mem_of_getElem? hword)
  have hindex : (count + interval - 1) / interval - 1 = (count - 1) / interval := by
    rcases Nat.eq_zero_or_pos count with rfl | hpos
    · rw [Nat.zero_add, Nat.div_eq_of_lt (by omega), Nat.zero_sub, Nat.zero_div]
    · rw [show count + interval - 1 = count - 1 + interval by omega, Nat.add_div_right _ hi]
      rfl
  have hlt : restartBefore interval startNs words < words.length := restartBefore_lt hne
  have hplace := h ((count - 1) / interval)
  rw [hpoint, hindex]
  unfold restartBefore at hlt ⊢
  rw [hcount] at hlt ⊢
  rw [List.getElem?_eq_getElem hlt] at hplace
  obtain ⟨restart, hrestart, hsame⟩ := Option.map_eq_some_iff.mp hplace
  exact ⟨restart, hrestart, congrArg Prod.snd hsame⟩

def rangeFirst (interval startNs : Nat) (words : List Word) : Nat :=
  max (restartBefore interval startNs words) (countBefore startNs words - 2)

def rangeStop (endNs : Nat) (words : List Word) : Nat := min (words.countP (·.time ≤ endNs) + 1) words.length

theorem rangeFirst_lt {interval startNs : Nat} {words : List Word} (hne : words ≠ []) :
    rangeFirst interval startNs words < words.length := by
  have hlt : restartBefore interval startNs words < words.length := restartBefore_lt hne
  have hcount := countBefore_le startNs words
  have hpos := List.length_pos_iff.mpr hne
  unfold rangeFirst
  omega

theorem restartBefore_le (interval startNs : Nat) (words : List Word) :
    restartBefore interval startNs words ≤ countBefore startNs words :=
  (Nat.div_mul_le_self _ _).trans (Nat.sub_le _ _)

variable {startNs endNs : Nat}

theorem countBefore_le_countP (h : startNs ≤ endNs) (words : List Word) :
    countBefore startNs words ≤ words.countP (·.time ≤ endNs) :=
  List.countP_mono_left fun word _ hlt => by
    rw [decide_eq_true_eq] at hlt ⊢
    omega

theorem countBefore_le_rangeStop (h : startNs ≤ endNs) (words : List Word) :
    countBefore startNs words ≤ rangeStop endNs words := by
  have hmono := countBefore_le_countP h words
  have hcount := countBefore_le startNs words
  unfold rangeStop
  omega

theorem rangeFirst_lt_rangeStop {interval startNs endNs : Nat} (h : startNs ≤ endNs) {words : List Word}
    (hne : words ≠ []) : rangeFirst interval startNs words < rangeStop endNs words := by
  have hmono := countBefore_le_countP h words
  have hrestart := restartBefore_le interval startNs words
  have hlt := @rangeFirst_lt interval startNs words hne
  unfold rangeFirst rangeStop at *
  omega

theorem countP_before (ho : Ordered words) (h : startNs ≤ endNs) :
    words.countP (·.time ≤ endNs) =
      countBefore startNs words + (words.drop (countBefore startNs words)).countP (·.time ≤ endNs) := by
  obtain ⟨hbefore, -⟩ := ho.before startNs
  have hle := countBefore_le startNs words
  have hall : (words.take (countBefore startNs words)).countP (·.time ≤ endNs) = countBefore startNs words := by
    rw [List.countP_eq_length.mpr fun word hm => by have := hbefore word hm; simp; omega, List.length_take]
    omega
  conv_lhs => rw [← List.take_append_drop (countBefore startNs words) words, List.countP_append, hall]

theorem reach_drop (ho : Ordered words) (h : startNs ≤ endNs) :
    countBefore startNs words + reach endNs ((words.drop (countBefore startNs words)).map Word.bare) =
      rangeStop endNs words := by
  have hle := countBefore_le startNs words
  have hmap : ((words.drop (countBefore startNs words)).map Word.bare).countP (·.time ≤ endNs) =
      (words.drop (countBefore startNs words)).countP (·.time ≤ endNs) := List.countP_map
  unfold reach rangeStop
  rw [hmap, countP_before ho h, List.length_map, List.length_drop]
  omega

theorem scanWords_block (ho : Ordered words) {startNs endNs maxContextWords place : Nat} (hrange : startNs ≤ endNs)
    (hmax : 0 < maxContextWords) (hplace : place ≤ countBefore startNs words) :
    let first := max place (countBefore startNs words - 2)
    let needed := rangeStop endNs words - first
    let result := (scanWords startNs endNs maxContextWords ((words.drop place).map Word.bare) place .start).opened
      maxContextWords
    result.selected = indexed first (((words.drop first).take (min needed maxContextWords)).map Word.bare) ∧
      (result.complete = true ↔ countBefore startNs words = words.length ∨ needed ≤ maxContextWords) := by
  obtain ⟨hbefore, hafter⟩ := ho.before startNs
  have hle := countBefore_le startNs words
  have hstop := countBefore_le_rangeStop hrange words
  have hreach := reach_drop ho hrange
  generalize countBefore startNs words = count at hbefore hafter hle hstop hreach hplace ⊢
  have hsplit : words.drop place = (words.take count).drop place ++ words.drop count := by
    conv_lhs => rw [← List.take_append_drop count words]
    rw [List.drop_append_of_le_length (by rw [List.length_take]; omega)]
  have hlen : (((words.take count).drop place).map Word.bare).length = count - place := by
    rw [List.length_map, List.length_drop, List.length_take]
    omega
  have hordered : Ordered ((words.drop count).map Word.bare) :=
    List.pairwise_map.mpr (ho.sublist (List.drop_sublist count words))
  have hfirst : place + (count - place - 2) = max place (count - 2) := by omega
  have hneeded : min 2 (count - place) + reach endNs ((words.drop count).map Word.bare) =
      rangeStop endNs words - max place (count - 2) := by omega
  have hlast : (((words.take count).drop place).map Word.bare).drop (count - place - 2) ++
      (words.drop count).map Word.bare = (words.drop (max place (count - 2))).map Word.bare := by
    rw [← hfirst, ← List.drop_drop, hsplit, List.drop_append_of_le_length (by
      rw [List.length_map] at hlen
      omega)]
    simp only [List.map_append, List.map_drop]
  obtain ⟨hselected, hcomplete⟩ := @scanWords_range startNs endNs maxContextWords hmax
    (((words.take count).drop place).map Word.bare) ((words.drop count).map Word.bare) place hordered
    (fun word hm => by
      obtain ⟨source, hsource, rfl⟩ := List.mem_map.mp hm
      exact hbefore source (List.mem_of_mem_drop hsource))
    (fun word hm => by
      obtain ⟨source, hsource, rfl⟩ := List.mem_map.mp hm
      exact hafter source hsource)
  rw [← List.map_append, ← hsplit, hlen, hfirst, hneeded, hlast, ← List.map_take] at hselected
  rw [← List.map_append, ← hsplit, hlen, hneeded, List.map_eq_nil_iff, List.drop_eq_nil_iff] at hcomplete
  exact ⟨hselected, hcomplete.trans (or_congr_left (by omega))⟩

theorem BlockOf.decodeRange {checksum : BlockChecksum} {words : List Word} {metadata : EncodedBlockMetadata}
    {bytes : Bytes} {parsed : ParsedWordBlock} (h : BlockOf checksum words metadata bytes parsed) {interval : Nat}
    (hr : RestartsEvery interval words metadata.restarts) (hi : 0 < interval) (ho : Ordered words) (hne : words ≠ [])
    {startNs endNs maxContextWords : Nat} (hrange : startNs ≤ endNs) (hmax : 0 < maxContextWords) :
    ∃ range, decodeWordBlockRange checksum bytes startNs endNs maxContextWords = .ok range ∧
      let first := rangeFirst interval startNs words
      let needed := rangeStop endNs words - first
      range.header = metadata.header ∧ range.words = (words.drop first).take (min needed maxContextWords) ∧
        (range.complete = true ↔ countBefore startNs words = words.length ∨ needed ≤ maxContextWords) := by
  obtain ⟨restart, hk, hindex⟩ := hr.find hi ho hne
  rw [← h.restarts] at hk
  obtain ⟨-, hdecodes⟩ := h.decodes _ restart true hk (Or.inl rfl)
  rw [hindex] at hdecodes
  have hfirst := @rangeFirst_lt interval startNs words hne
  have hrestart := restartBefore_le interval startNs words
  have hstop := @rangeFirst_lt_rangeStop interval startNs endNs hrange words hne
  have hloop := @rangeLoop_of_decodes startNs endNs maxContextWords _ _ _ _ _ hdecodes .start
  obtain ⟨hselected, hcomplete⟩ := scanWords_block ho hrange hmax hrestart
  rw [← rangeFirst] at hselected hcomplete
  dsimp only at hselected hcomplete ⊢
  generalize hneeded : rangeStop endNs words - rangeFirst interval startNs words = needed at hselected hcomplete ⊢
  generalize hscan : scanWords startNs endNs maxContextWords
    ((words.drop (restartBefore interval startNs words)).map Word.bare) (restartBefore interval startNs words) .start =
    scan at hloop hselected hcomplete
  have happly := h.apply (rangeFirst interval startNs words) (min needed maxContextWords)
  have hnonempty : (((words.drop (rangeFirst interval startNs words)).take (min needed maxContextWords)).map
      Word.bare) ≠ [] := by
    apply List.ne_nil_of_length_pos
    rw [List.length_map, List.length_take, List.length_drop]
    omega
  have hhead := head?_indexed (rangeFirst interval startNs words) hnonempty
  rw [← hselected] at hhead
  have hwords := congrArg (List.map Prod.snd) hselected
  rw [map_indexed] at hwords
  rw [List.length_drop] at hloop
  refine ⟨⟨parsed.header, _, (scan.opened maxContextWords).complete, (scan.opened maxContextWords).decodedRecords⟩, ?_,
    h.header, rfl, hcomplete⟩
  simp only [decodeWordBlockRange, Nat.not_lt.mpr hrange, hmax.ne', if_false, h.parse, bind, Except.bind, restartAt, hk,
    h.wordCount, hindex, hloop, hhead, Option.getD_some, hwords, happly, pure, Except.pure]

/-- The words a range promises: the last two before it, its own, and the first behind it. -/
def rangeContext (startNs endNs : Nat) (words : List Word) : List Word :=
  let before := words.filter (·.time < startNs)
  before.drop (before.length - 2) ++ words.filter (fun word => startNs ≤ word.time ∧ word.time ≤ endNs) ++
    (words.filter (endNs < ·.time)).take 1

theorem rangeContext_eq (ho : Ordered words) (h : startNs ≤ endNs) :
    rangeContext startNs endNs words = (words.take (rangeStop endNs words)).drop (countBefore startNs words - 2) := by
  have hstart := @partitioned_lt _ _ Word.time ho startNs
  have hend := @partitioned_le _ _ Word.time ho endNs
  have hcount := countP_before ho h
  have hle := countBefore_le startNs words
  have hfirst : words.filter (·.time < startNs) = words.take (countBefore startNs words) := by
    rw [countBefore, hstart.countP_eq, hstart.filter_eq]
  have hlast : words.filter (endNs < ·.time) = words.drop (words.countP (·.time ≤ endNs)) := by
    rw [hend.countP_eq, ← hend.filter_not_eq]
    exact List.filter_congr fun word _ => by simp only [← decide_not, Nat.not_le]
  have hmiddle : words.filter (fun word => startNs ≤ word.time ∧ word.time ≤ endNs) =
      (words.take (words.countP (·.time ≤ endNs))).drop (countBefore startNs words) := by
    have hinner := @partitioned_le _ _ Word.time (ho.sublist (List.drop_sublist (countBefore startNs words) words)) endNs
    have hafter : words.drop (countBefore startNs words) = words.filter (startNs ≤ ·.time) := by
      rw [countBefore, hstart.countP_eq, ← hstart.filter_not_eq]
      exact List.filter_congr fun word _ => by simp only [← decide_not, Nat.not_lt]
    rw [List.drop_take, hcount, Nat.add_sub_cancel_left, hinner.countP_eq, ← hinner.filter_eq, hafter, List.filter_filter]
    exact List.filter_congr fun word _ => by simp [Bool.and_comm]
  have hstop : words.take (rangeStop endNs words) = words.take (words.countP (·.time ≤ endNs) + 1) := by
    rw [rangeStop, List.take_eq_take_iff]
    omega
  have hmono := countBefore_le_countP h words
  have htotal : words.countP (·.time ≤ endNs) ≤ words.length := List.countP_le_length
  unfold rangeContext
  dsimp only
  rw [hfirst, hmiddle, hlast, hstop]
  generalize words.countP (·.time ≤ endNs) = last at hmono htotal ⊢
  generalize countBefore startNs words = count at hmono hle ⊢
  have hbefore : (words.take last).take count = words.take count := by
    rw [List.take_take, min_eq_left hmono]
  have hlen : (words.take count).length = count := List.length_take_of_le hle
  calc (words.take count).drop ((words.take count).length - 2) ++ (words.take last).drop count ++
        (words.drop last).take 1
      = ((words.take count).drop (count - 2) ++ (words.take last).drop count) ++ (words.drop last).take 1 := by
        rw [hlen]
    _ = (words.take last).drop (count - 2) ++ (words.drop last).take 1 := by
        rw [← hbefore, ← List.drop_append_of_le_length (by rw [hbefore, hlen]; omega), List.take_append_drop]
    _ = (words.take (last + 1)).drop (count - 2) := by
        rw [List.take_add, List.drop_append_of_le_length (by rw [List.length_take]; omega)]

/-- The range decode of a block agrees with the whole: it is a slice and, unless it says that it was cut
short, the promised context. -/
def RangeAgrees (checksum : BlockChecksum) (bytes : Bytes) (startNs endNs maxContextWords : Nat) : Prop :=
  ∃ block range, decodeWordBlock checksum bytes = .ok block ∧
    decodeWordBlockRange checksum bytes startNs endNs maxContextWords = .ok range ∧
    (∃ first count, range.words = (block.words.drop first).take count) ∧
    (range.complete = true → range.words = rangeContext startNs endNs block.words)

/-- The second word before the range is not cut off: the last one does not start a restart interval, and
the limit has room for both. -/
def KeepsContext (interval startNs endNs maxContextWords : Nat) (words : List Word) : Prop :=
  let before := countBefore startNs words
  let splits := (before - 1) % interval = 0
  0 < maxContextWords ∧
    (2 ≤ before → if before = words.length then ¬splits ∧ 2 ≤ maxContextWords
      else splits → maxContextWords < 1 + (rangeStop endNs words - before))

theorem rangeFirst_eq (interval startNs : Nat) (words : List Word) :
    rangeFirst interval startNs words =
      if 2 ≤ countBefore startNs words ∧ (countBefore startNs words - 1) % interval = 0 then countBefore startNs words - 1
      else countBefore startNs words - 2 := by
  have hdiv := Nat.div_add_mod (countBefore startNs words - 1) interval
  rw [Nat.mul_comm] at hdiv
  unfold rangeFirst restartBefore
  split <;> omega

theorem slice_eq_context {first stop begin limit : Nat} (hfirst : first < stop) (hbegin : begin ≤ first)
    (hstop : stop ≤ words.length) :
    (words.drop first).take (min (stop - first) limit) = (words.take stop).drop begin ↔
      first = begin ∧ stop - first ≤ limit := by
  constructor
  · intro hsame
    have hlen := congrArg List.length hsame
    simp only [List.length_take, List.length_drop] at hlen
    omega
  · rintro ⟨rfl, hle⟩
    rw [min_eq_left hle, List.drop_take]

theorem context_kept_iff {before reached total first limit : Nat} {splits : Prop} [Decidable splits]
    (hbefore : before ≤ reached) (hreached : reached ≤ total) (htotal : 0 < total) (hlimit : 0 < limit)
    (hfirst : first = if 2 ≤ before ∧ splits then before - 1 else before - 2) :
    (before = total ∨ min (reached + 1) total - first ≤ limit →
        first = before - 2 ∧ min (reached + 1) total - first ≤ limit) ↔
      0 < limit ∧ (2 ≤ before → if before = total then ¬splits ∧ 2 ≤ limit
        else splits → limit < 1 + (min (reached + 1) total - before)) := by
  subst hfirst
  rw [and_iff_right hlimit]
  by_cases htwo : 2 ≤ before
  · by_cases hend : before = total
    · subst hend
      by_cases hsplits : splits
      · simp only [htwo, hsplits, and_self, if_true, true_or, true_implies, not_true_eq_false, false_and, iff_false]
        omega
      · simp only [htwo, hsplits, and_false, if_false, if_true, true_or, true_implies, not_false_eq_true, true_and]
        omega
    · by_cases hsplits : splits
      · simp only [htwo, hsplits, hend, and_self, if_true, if_false, false_or, true_implies]
        omega
      · simp only [htwo, hsplits, hend, and_false, if_false, false_or, true_and, false_implies, imp_self]
  · simp only [htwo, false_and, if_false, false_implies, iff_true, true_and]
    omega

open WordBlockBuilder in
/-- A range decode agrees with the decode of the whole block exactly when the second predecessor is
not cut off. -/
theorem decode_range_keeps_context {checksum : BlockChecksum} {config : BlockCodecConfig} {builder : WordBlockBuilder}
    (hreached : Reached config builder) {sequence : UInt64} {metadata : EncodedBlockMetadata} {bytes : Bytes}
    (hne : builder.words ≠ []) (hencode : builder.encode checksum sequence = .ok (metadata, bytes))
    {startNs endNs maxContextWords : Nat} (hrange : startNs ≤ endNs) :
    RangeAgrees checksum bytes startNs endNs maxContextWords ↔
      KeepsContext config.restartInterval startNs endNs maxContextWords builder.words := by
  have hsized := hreached.exact.sized
  have ho := hreached.ordered
  obtain ⟨parsed, hblock⟩ := encode_blockOf hsized hne ho hencode
  have hrestarts := encode_restarts hsized hne ho hencode
  have hinterval := hsized.restartInterval
  rw [hreached.config_eq] at hrestarts hinterval
  have hdecode := hblock.decodeWordBlock
  rcases Nat.eq_zero_or_pos maxContextWords with rfl | hmax
  · refine ⟨fun ⟨_, range, _, hrefused, _⟩ => ?_, fun hkeeps => absurd hkeeps.1 (Nat.lt_irrefl 0)⟩
    simp only [decodeWordBlockRange, Nat.not_lt.mpr hrange, if_false, if_true] at hrefused
    cases hrefused
  · obtain ⟨range, hok, -, hwords, hcomplete⟩ := hblock.decodeRange hrestarts hinterval ho hne hrange hmax
    have hagrees : RangeAgrees checksum bytes startNs endNs maxContextWords ↔
        (range.complete = true → range.words = rangeContext startNs endNs builder.words) := by
      constructor
      · rintro ⟨block, other, hblockOk, hother, -, hcontext⟩
        obtain rfl := Except.ok.inj (hdecode.symm.trans hblockOk)
        obtain rfl := Except.ok.inj (hok.symm.trans hother)
        exact hcontext
      · intro hcontext
        exact ⟨_, range, hdecode, hok, ⟨_, _, hwords⟩, hcontext⟩
    have hmono := countBefore_le_countP hrange builder.words
    have htotal : builder.words.countP (·.time ≤ endNs) ≤ builder.words.length := List.countP_le_length
    have hlt := @rangeFirst_lt_rangeStop config.restartInterval startNs endNs hrange builder.words hne
    have hbegin : countBefore startNs builder.words - 2 ≤ rangeFirst config.restartInterval startNs builder.words :=
      le_max_right _ _
    rw [hagrees, hwords, hcomplete, rangeContext_eq ho hrange, slice_eq_context hlt hbegin (min_le_right _ _)]
    exact context_kept_iff hmono htotal (List.length_pos_iff.mpr hne) hmax
      (rangeFirst_eq config.restartInterval startNs builder.words)

def pairedWords : List Word := [.new 1 0, .new 2 10, .new 3 20, .new 4 30]

def pairedBlock : WordBlockBuilder :=
  ((WordBlockBuilder.builderOf ⟨8, 2, 4096, 1000, 1000⟩ []).extendOrdered pairedWords).2

theorem pairedBlock_reached : WordBlockBuilder.Reached ⟨8, 2, 4096, 1000, 1000⟩ pairedBlock :=
  .extend (.new rfl) (by decide)

theorem pairedBlock_encodes :
    ∃ metadata bytes, pairedBlock.encode .crc32c 0 = .ok (metadata, bytes) := by
  have hok : (pairedBlock.encode .crc32c 0).toOption.isSome = true := by decide +kernel
  cases hencode : pairedBlock.encode .crc32c 0 with
  | error e =>
    rw [hencode] at hok
    cases hok
  | ok result => exact ⟨result.1, result.2, rfl⟩

/-- The word at 20 starts the last restart interval before 30, so the one at 10 is lost. -/
theorem decode_range_drops_predecessor :
    ∃ metadata bytes, pairedBlock.encode .crc32c 0 = .ok (metadata, bytes) ∧
      ¬RangeAgrees .crc32c bytes 30 30 8 := by
  obtain ⟨metadata, bytes, hencode⟩ := pairedBlock_encodes
  refine ⟨metadata, bytes, hencode, ?_⟩
  rintro ⟨block, range, hdecode, hrange, -, hcontext⟩
  have hsized := pairedBlock_reached.exact.sized
  obtain ⟨parsed, hblock⟩ := WordBlockBuilder.encode_blockOf hsized (by decide) pairedBlock_reached.ordered hencode
  have hrestarts := WordBlockBuilder.encode_restarts hsized (by decide) pairedBlock_reached.ordered hencode
  obtain ⟨other, hok, -, hwords, hcomplete⟩ := @BlockOf.decodeRange _ _ _ _ _ hblock _ hrestarts (by decide)
    pairedBlock_reached.ordered (by decide) 30 30 8 (by decide) (by decide)
  obtain rfl := Except.ok.inj (hdecode.symm.trans hblock.decodeWordBlock)
  obtain rfl := Except.ok.inj (hrange.symm.trans hok)
  have hsame := hcontext (hcomplete.mpr (by decide))
  rw [hwords] at hsame
  dsimp only at hsame
  exact absurd hsame (by decide)

theorem decode_range_keeps_context_paired :
    ∃ metadata bytes, pairedBlock.encode .crc32c 0 = .ok (metadata, bytes) ∧ RangeAgrees .crc32c bytes 15 15 8 := by
  obtain ⟨metadata, bytes, hencode⟩ := pairedBlock_encodes
  exact ⟨metadata, bytes, hencode, (decode_range_keeps_context pairedBlock_reached (by decide) hencode (by decide)).mpr (by
    unfold KeepsContext
    decide)⟩

end LogicConduit
