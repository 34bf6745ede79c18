import Mathlib.Data.List.Sort
import LogicConduit.WordBuilder

namespace LogicConduit

def fanOut : Nat := 64
def maxPresenceRunsPerBlock : Nat := 256
def maxPresenceCadenceNs : Nat := 1000000

/-- A run of words of one block, or a group of such runs. -/
structure WordSummaryRecord where
  startNs : Nat
  endNs : Nat
  wordCount : Nat
  firstBlock : Nat
  blockCount : Nat
  deriving DecidableEq

/-- Presence end of a word without a duration of its own: up to its successor, or one period after
the last word of the block. -/
def durationFreePresenceWordEndNs (words : List Word) (index : Nat) : Nat :=
  let previous := if index = 0 then none else words[index - 1]?.map Word.time
  match words[index]?, words[index + 1]? with
  | some word, some next =>
    instantaneousWordEndNsWithLimit previous word.time next.time maxPresenceCadenceNs
  | some word, none =>
    let inferredPeriod :=
      min (((previous.map (word.time - ·)).filter (0 < ·)).getD 0) maxPresenceCadenceNs
    saturatingAdd word.time inferredPeriod
  | none, _ => 0

def presenceWordEndNs (words : List Word) (index : Nat) : Nat :=
  match words[index]? with
  | some word =>
    if word.durationNs ≠ 0 then saturatingAdd word.time word.duration
    else durationFreePresenceWordEndNs words index
  | none => 0

/-- A gap between two presence runs, before the word at `wordIndex`. -/
structure PresenceGap where
  gapNs : Nat
  runIndex : Nat
  wordIndex : Nat
  deriving DecidableEq

namespace PresenceGap

/-- The order of the tuples `(gap, run, word)` of the source. -/
def lt (a b : PresenceGap) : Bool :=
  a.gapNs < b.gapNs ∨
    a.gapNs = b.gapNs ∧ (a.runIndex < b.runIndex ∨ a.runIndex = b.runIndex ∧ a.wordIndex < b.wordIndex)

def smallest (first : PresenceGap) (gaps : List PresenceGap) : PresenceGap :=
  gaps.foldl (fun least gap => if gap.lt least then gap else least) first

end PresenceGap

def keptGapCount : Nat := maxPresenceRunsPerBlock - 1

def pushLargestGap (largest : List PresenceGap) (gap : PresenceGap) : List PresenceGap :=
  if largest.length < keptGapCount then gap :: largest
  else match largest with
    | [] => []
    | first :: rest =>
      let least := PresenceGap.smallest first rest
      if least.lt gap then gap :: (first :: rest).erase least else first :: rest

def durationFreeGaps (words : List Word) :
    List Word → Nat → Nat → List PresenceGap → List PresenceGap
  | [], _, _, largest => largest
  | word :: rest, wordIndex, runIndex, largest =>
    let previousEndNs := durationFreePresenceWordEndNs words (wordIndex - 1)
    if word.time ≤ previousEndNs then durationFreeGaps words rest (wordIndex + 1) runIndex largest
    else
      durationFreeGaps words rest (wordIndex + 1) (runIndex + 1)
        (pushLargestGap largest ⟨word.time - previousEndNs, runIndex, wordIndex⟩)

def durationFreeRuns (block : Nat) (words : List Word) : Nat → List Nat → List WordSummaryRecord
  | _, [] => []
  | startIndex, endIndex :: rest =>
    { startNs := (words[startIndex]?.map Word.time).getD 0
      endNs := durationFreePresenceWordEndNs words (endIndex - 1)
      wordCount := endIndex - startIndex
      firstBlock := block
      blockCount := 1 } :: durationFreeRuns block words endIndex rest

def durationFreeWordPresenceSummaries (block : Nat) (words : List Word) : List WordSummaryRecord :=
  if words = [] then []
  else
    let largestGaps := durationFreeGaps words words.tail 1 0 []
    let boundaries := (largestGaps.map (·.wordIndex)).insertionSort (· ≤ ·)
    durationFreeRuns block words 0 (boundaries ++ [words.length])

def generalGaps (words : List Word) :
    List Word → Nat → Nat → Nat → List PresenceGap → List PresenceGap
  | [], _, _, _, gaps => gaps
  | word :: rest, wordIndex, currentEndNs, runIndex, gaps =>
    let endNs := presenceWordEndNs words wordIndex
    if word.time ≤ currentEndNs then
      generalGaps words rest (wordIndex + 1) (max currentEndNs endNs) runIndex gaps
    else
      generalGaps words rest (wordIndex + 1) endNs (runIndex + 1)
        (gaps ++ [⟨word.time - currentEndNs, runIndex, wordIndex⟩])

/-- `select_nth_unstable_by` and `truncate`: the largest gaps, later runs before earlier ones. -/
def retainLargestGaps (gaps : List PresenceGap) : List PresenceGap :=
  if keptGapCount < gaps.length then
    (gaps.insertionSort (fun a b => b.gapNs < a.gapNs ∨ b.gapNs = a.gapNs ∧ b.runIndex ≤ a.runIndex)).take
      keptGapCount
  else gaps

/-- The summary loop of `general_word_presence_summaries`; the last record of `summaries` is open. -/
def generalRuns (block : Nat) (words : List Word) :
    List Word → Nat → List Nat → List WordSummaryRecord → List WordSummaryRecord
  | [], _, _, summaries => summaries
  | word :: rest, wordIndex, boundaries, summaries =>
    let startsRetainedRun := boundaries.head? = some wordIndex
    let boundaries := if startsRetainedRun then boundaries.tail else boundaries
    let endNs := presenceWordEndNs words wordIndex
    match summaries.getLast? with
    | some current =>
      if startsRetainedRun then
        generalRuns block words rest (wordIndex + 1) boundaries
          (summaries ++ [⟨word.time, endNs, 1, block, 1⟩])
      else
        generalRuns block words rest (wordIndex + 1) boundaries
          (summaries.dropLast ++ [{ current with
            endNs := max current.endNs endNs
            wordCount := saturatingAdd current.wordCount 1 }])
    | none =>
      generalRuns block words rest (wordIndex + 1) boundaries
        (summaries ++ [⟨word.time, endNs, 1, block, 1⟩])

def generalWordPresenceSummaries (block : Nat) (words : List Word) : List WordSummaryRecord :=
  if words = [] then []
  else
    let gaps := generalGaps words words.tail 1 (presenceWordEndNs words 0) 0 []
    let boundaries := ((retainLargestGaps gaps).map (·.wordIndex)).insertionSort (· ≤ ·)
    generalRuns block words words 0 boundaries []

def wordPresenceSummaries (block : Nat) (words : List Word) (durationFree : Bool) :
    List WordSummaryRecord :=
  if durationFree then durationFreeWordPresenceSummaries block words
  else generalWordPresenceSummaries block words

/-- A 64-way append-only mipmap whose leaves summarize occupied word runs. -/
structure WordPresenceIndex where
  levels : List (List WordSummaryRecord)
  extentEndNs : Option Nat
  prefixMaxEndNs : List Nat
  prefixWordCounts : List Nat
  deriving DecidableEq

def combine (records : List WordSummaryRecord) : WordSummaryRecord where
  startNs := (records.head?.map (·.startNs)).getD 0
  endNs := (records.map (·.endNs)).foldr max 0
  wordCount := (records.map (·.wordCount)).sum
  firstBlock := (records.head?.map (·.firstBlock)).getD 0
  blockCount := min (records.map (·.blockCount)).sum u32Max

def pushLevel : List (List WordSummaryRecord) → WordSummaryRecord → List (List WordSummaryRecord)
  | [], record => [[record]]
  | level :: above, record =>
    let level := level ++ [record]
    if level.length % fanOut = 0 then
      level :: pushLevel above (combine (level.drop (level.length - fanOut)))
    else level :: above

namespace WordPresenceIndex

def new : WordPresenceIndex := ⟨[[]], none, [], [0]⟩

def leaves (index : WordPresenceIndex) : List WordSummaryRecord := index.levels.head?.getD []

def push (index : WordPresenceIndex) (record : WordSummaryRecord) : WordPresenceIndex where
  levels := pushLevel index.levels record
  extentEndNs := some ((index.extentEndNs.map (max · record.endNs)).getD record.endNs)
  prefixMaxEndNs := index.prefixMaxEndNs ++
    [(index.prefixMaxEndNs.getLast?.map (max · record.endNs)).getD record.endNs]
  prefixWordCounts := index.prefixWordCounts ++
    [saturatingAdd (index.prefixWordCounts.getLast?.getD 0) record.wordCount]

def ofLeaves (records : List WordSummaryRecord) : WordPresenceIndex := records.foldl push new

theorem leaves_push (index : WordPresenceIndex) (record : WordSummaryRecord) :
    (index.push record).leaves = index.leaves ++ [record] := by
  unfold leaves push
  cases index.levels with
  | nil => rfl
  | cons level above =>
    simp only [pushLevel]
    split <;> rfl

theorem leaves_foldl_push (index : WordPresenceIndex) (records : List WordSummaryRecord) :
    (records.foldl push index).leaves = index.leaves ++ records := by
  induction records generalizing index with
  | nil => simp
  | cons record rest ih => rw [List.foldl_cons, ih, leaves_push, List.append_assoc, List.singleton_append]

theorem leaves_ofLeaves (records : List WordSummaryRecord) : (ofLeaves records).leaves = records :=
  leaves_foldl_push new records

theorem foldl_push_ofLeaves (records more : List WordSummaryRecord) :
    more.foldl push (ofLeaves records) = ofLeaves (records ++ more) := by
  rw [ofLeaves, ofLeaves, List.foldl_append]

end WordPresenceIndex

end LogicConduit
