import LogicConduit.PartitionPoint
import LogicConduit.WordPresence

namespace LogicConduit

open PartitionPoint

/-- A bucket of an overview; both ends are inclusive. -/
structure WordPresenceBucket where
  startNs : Nat
  endNs : Nat
  wordCount : Nat
  deriving DecidableEq

/-- The number of buckets of a window: at most one for each nanosecond. -/
def bucketCount (targetBuckets span : Nat) : Nat := max (min targetBuckets span) 1

def windowSpan (startNs endNs : Nat) : Nat := endNs - startNs + 1

theorem bucketCount_pos (targetBuckets span : Nat) : 0 < bucketCount targetBuckets span := by
  unfold bucketCount
  omega

theorem bucketCount_le {targetBuckets span : Nat} (h : 0 < span) : bucketCount targetBuckets span ≤ span := by
  unfold bucketCount
  omega

/-- The share of a record's words that falls into a bucket, rounded up. -/
def estimatePartial (record : WordSummaryRecord) (bucketStart bucketEndExclusive : Nat) : Nat :=
  let recordEndExclusive := saturatingAdd record.endNs 1
  let overlapStart := max record.startNs bucketStart
  let overlapEnd := min recordEndExclusive bucketEndExclusive
  if overlapEnd ≤ overlapStart then 0
  else
    let recordSpan := max (recordEndExclusive - record.startNs) 1
    let weightedCount := record.wordCount * (overlapEnd - overlapStart)
    -- the product falls back to 128 bits where 64 do not hold it
    let share := (weightedCount + recordSpan - 1) / recordSpan
    let share := if weightedCount < 2 ^ 64 then share else share % 2 ^ 64
    min share record.wordCount

/-- The first loop of `count_bucket`: the leaves in front that reach over an end of the bucket. -/
def leadingPartials (bucketStart bucketEndExclusive : Nat) :
    List WordSummaryRecord → Nat → Nat → Nat × Nat
  | [], fullStart, count => (fullStart, count)
  | leaf :: rest, fullStart, count =>
    if leaf.startNs < bucketStart ∨ bucketEndExclusive ≤ leaf.endNs then
      leadingPartials bucketStart bucketEndExclusive rest (fullStart + 1)
        (saturatingAdd count (estimatePartial leaf bucketStart bucketEndExclusive))
    else (fullStart, count)

/-- The second loop of `count_bucket`: the leaves at the back that end behind the bucket. -/
def trailingPartials (leaves : List WordSummaryRecord) (bucketStart bucketEndExclusive fullStart : Nat) :
    Nat → Nat → Nat × Nat
  | 0, count => (0, count)
  | fullEnd + 1, count =>
    match leaves[fullEnd]? with
    | some leaf =>
      if fullStart < fullEnd + 1 ∧ bucketEndExclusive ≤ leaf.endNs then
        trailingPartials leaves bucketStart bucketEndExclusive fullStart fullEnd
          (saturatingAdd count (estimatePartial leaf bucketStart bucketEndExclusive))
      else (fullEnd + 1, count)
    | none => (fullEnd + 1, count)

def walkBack (leaves : List WordSummaryRecord) (bucketStart : Nat) : Nat → Nat
  | 0 => 0
  | first + 1 =>
    if leaves[first]?.any (fun leaf => bucketStart ≤ leaf.endNs) then walkBack leaves bucketStart first
    else first + 1

def WordSummaryRecord.startsBefore (timestampNs : Nat) (record : WordSummaryRecord) : Bool :=
  record.startNs < timestampNs

namespace WordPresenceIndex

variable (index : WordPresenceIndex)

/-- The number of leaves that start before `timestampNs`, searched by groups first. -/
def partitionStart (timestampNs : Nat) : Nat :=
  let before := WordSummaryRecord.startsBefore timestampNs
  match index.levels[1]?.filter (¬·.isEmpty) with
  | none => partitionPoint before index.leaves
  | some groups =>
    let group := partitionPoint before groups
    if group = 0 then 0
    else
      let start := (group - 1) * fanOut
      let stop := if group < groups.length then group * fanOut else index.leaves.length
      start + partitionPoint before ((index.leaves.take stop).drop start)

def countBucket (first stop bucketStart bucketEndExclusive : Nat) : Nat :=
  if stop ≤ first then 0
  else
    let (fullStart, count) :=
      leadingPartials bucketStart bucketEndExclusive ((index.leaves.take stop).drop first) first 0
    let (fullEnd, count) :=
      trailingPartials index.leaves bucketStart bucketEndExclusive fullStart stop count
    saturatingAdd count
      (index.prefixWordCounts.getD fullEnd 0 - index.prefixWordCounts.getD fullStart 0)

def bucketWordCount (bucketStart bucketEndExclusive : Nat) : Nat :=
  let firstByStart := index.partitionStart bucketStart
  let first := walkBack index.leaves bucketStart (firstByStart - 1)
  let stop := index.partitionStart bucketEndExclusive
  index.countBucket (min first stop) stop bucketStart bucketEndExclusive

/-- The bucket loop of `presence_window_all`: the offset of a bucket grows by the width and, when the
remainders collected so far fill one more nanosecond, by that. -/
def presenceBuckets (startNs endNs count width remainder : Nat) :
    Nat → Nat → Nat → Nat → List WordPresenceBucket
  | 0, _, _, _ => []
  | left + 1, bucketIndex, bucketOffset, accumulator =>
    let bucketStart := saturatingAdd startNs bucketOffset
    let carries := count - remainder ≤ accumulator
    let next := saturatingAdd bucketOffset width
    let next := if carries then saturatingAdd next 1 else next
    let accumulator := if carries then accumulator - (count - remainder) else accumulator + remainder
    let stop := if bucketIndex + 1 = count then saturatingAdd endNs 1 else saturatingAdd startNs next
    let stop := max stop (saturatingAdd bucketStart 1)
    ⟨bucketStart, stop - 1, index.bucketWordCount bucketStart stop⟩ ::
      presenceBuckets startNs endNs count width remainder left (bucketIndex + 1) next accumulator

def presenceWindowAll (startNs endNs targetBuckets : Nat) : List WordPresenceBucket :=
  if targetBuckets = 0 ∨ endNs < startNs then []
  else
    let span := saturatingAdd (endNs - startNs) 1
    let count := bucketCount targetBuckets span
    index.presenceBuckets startNs endNs count (span / count) (span % count) count 0 0 0

end WordPresenceIndex

/-- One turn of the annotation loop: a start in the first bucket of the annotation and an end behind
its last one. -/
def countOverlap (startNs endNs span count : Nat) (counts : List Nat × List Nat)
    (a : Annotation) : List Nat × List Nat :=
  let overlapStart := max a.startNs startNs
  let overlapEnd := min a.endNs endNs
  if overlapEnd < overlapStart then counts
  else
    let first := min ((overlapStart - startNs) * count / span) (count - 1)
    let last := min ((overlapEnd - startNs) * count / span) (count - 1)
    (counts.1.modify first (saturatingAdd · 1), counts.2.modify (last + 1) (saturatingAdd · 1))

def runningBuckets (startNs endNs span count : Nat) (ends : List Nat) :
    List Nat → Nat → Nat → List WordPresenceBucket
  | [], _, _ => []
  | starting :: rest, index, runningCount =>
    let runningCount := saturatingAdd (runningCount - ends.getD index 0) starting
    let later := runningBuckets startNs endNs span count ends rest (index + 1) runningCount
    if runningCount = 0 then later
    else
      let bucketStart := saturatingAdd startNs (span * index / count)
      let bucketEndExclusive := saturatingAdd startNs (span * (index + 1) / count)
      ⟨bucketStart, min (max bucketEndExclusive (saturatingAdd bucketStart 1) - 1) endNs, runningCount⟩ :: later

def annotationPresenceBuckets (annotations : List Annotation) (startNs endNs targetBuckets : Nat) :
    List WordPresenceBucket :=
  if annotations = [] ∨ targetBuckets = 0 ∨ endNs < startNs then []
  else
    let span := saturatingAdd (endNs - startNs) 1
    let count := bucketCount targetBuckets span
    let (starts, ends) := annotations.foldl (countOverlap startNs endNs span count)
      (List.replicate count 0, List.replicate (count + 1) 0)
    runningBuckets startNs endNs span count ends starts 0 0

end LogicConduit
