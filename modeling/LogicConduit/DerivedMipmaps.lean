import LogicConduit.PartitionPoint
import LogicConduit.WordEvents

namespace LogicConduit

open PartitionPoint

structure MipmapRecord where
  startNs : Nat
  endNs : Nat
  count : Nat
  levelHint : Option (Bool × Bool)
  deriving DecidableEq

/-- `combine` is called with at least one record. -/
structure LaneFold (τ : Type) where
  leaf : τ → MipmapRecord
  combine : List MipmapRecord → MipmapRecord

/-- A record from the first one on. The counts are added with 32 bits. -/
def combineRecords (endNs : List MipmapRecord → Nat) (levelHint : List MipmapRecord → Option (Bool × Bool))
    (records : List MipmapRecord) : MipmapRecord :=
  ⟨(records.head?.map MipmapRecord.startNs).getD 0, endNs records,
    (records.map MipmapRecord.count).sum % 2 ^ 32, levelHint records⟩

def lastEnd (records : List MipmapRecord) : Nat := (records.getLast?.map MipmapRecord.endNs).getD 0

def latestEndNs (records : List MipmapRecord) : Nat := (records.map MipmapRecord.endNs).foldr max 0

def levelSpan (records : List MipmapRecord) : Option (Bool × Bool) :=
  match records.head?.bind MipmapRecord.levelHint, records.getLast?.bind MipmapRecord.levelHint with
  | some (first, _), some (_, last) => some (first, last)
  | _, _ => none

/-- `NumberFold` and `TextFold`, whose entries start at a time. -/
def numberFold {α : Type} : LaneFold (Nat × α) :=
  ⟨fun entry => ⟨entry.1, entry.1, 1, none⟩, combineRecords lastEnd fun _ => none⟩

def markerFold : LaneFold Nat := ⟨fun entry => ⟨entry, entry, 1, none⟩, combineRecords lastEnd fun _ => none⟩

def digitalFold : LaneFold (Nat × Bool) :=
  ⟨fun entry => ⟨entry.1, entry.1, 1, some (entry.2, entry.2)⟩, combineRecords lastEnd levelSpan⟩

def annotationFold : LaneFold Annotation :=
  ⟨fun entry => ⟨entry.startNs, entry.endNs, 1, none⟩, combineRecords latestEndNs fun _ => none⟩

def summaryRecordFold : LaneFold MipmapRecord := ⟨id, combineRecords latestEndNs levelSpan⟩

def laneFanOut : Nat := 64
def chunkSize : Nat := 4096

structure AppendOnlyMipmap where
  tiers : List (List MipmapRecord)
  len : Nat

/-- `push_record`, on the tiers from one on. A tier of one record is not full. -/
def pushRecord (combine : List MipmapRecord → MipmapRecord) :
    List (List MipmapRecord) → MipmapRecord → List (List MipmapRecord)
  | [], record => [[record]]
  | tier :: tiers, record =>
    if (tier ++ [record]).length % laneFanOut = 0 then
      (tier ++ [record]) ::
        pushRecord combine tiers (combine ((tier ++ [record]).drop ((tier ++ [record]).length - laneFanOut)))
    else (tier ++ [record]) :: tiers

def windowRange (tier : List MipmapRecord) (startNs endNs : Nat) : Nat × Nat :=
  let first := partitionPoint (fun record => record.endNs < startNs) tier
  (first, first + partitionPoint (fun record => record.startNs ≤ endNs) (tier.drop first))

def padded (tier : List MipmapRecord) (range : Nat × Nat) : List MipmapRecord :=
  (tier.take (min (range.2 + 1) tier.length)).drop (range.1 - 1)

/-- What `target_points` allows; the product saturates. -/
def recordBudget (targetPoints : Nat) : Nat := min (max targetPoints 1 * 4) (2 ^ 64 - 1)

namespace AppendOnlyMipmap

variable {τ : Type} (mipmap : AppendOnlyMipmap)

def new : AppendOnlyMipmap := ⟨[[]], 0⟩

def push (fold : LaneFold τ) (mipmap : AppendOnlyMipmap) (entry : τ) : AppendOnlyMipmap :=
  ⟨pushRecord fold.combine mipmap.tiers (fold.leaf entry), mipmap.len + 1⟩

def extend (fold : LaneFold τ) (mipmap : AppendOnlyMipmap) (entries : List τ) : AppendOnlyMipmap :=
  entries.foldl (push fold) mipmap

def tier (index : Nat) : List MipmapRecord := mipmap.tiers.getD index []

def uncoveredTail (combine : List MipmapRecord → MipmapRecord) (tierIndex startNs endNs : Nat) : List MipmapRecord :=
  let covered := (mipmap.tier tierIndex).length * laneFanOut ^ tierIndex
  if tierIndex = 0 ∨ mipmap.len ≤ covered then []
  else
    let raw := (mipmap.tier 0).drop covered
    let (first, last) := windowRange raw startNs endNs
    if first < last then [combine ((raw.take last).drop first)] else []

def sampledWindow (combine : List MipmapRecord → MipmapRecord) (startNs endNs targetPoints : Nat) :
    List MipmapRecord :=
  let fits (tierIndex : Nat) : Bool :=
    let (first, last) := windowRange (mipmap.tier tierIndex) startNs endNs
    last - first ≤ recordBudget targetPoints ∨ tierIndex = 0
  match (List.range mipmap.tiers.length).reverse.find? fits with
  | none => []
  | some tierIndex =>
    padded (mipmap.tier tierIndex) (windowRange (mipmap.tier tierIndex) startNs endNs) ++
      mipmap.uncoveredTail combine tierIndex startNs endNs

end AppendOnlyMipmap

structure ChunkedMipmap where
  completed : AppendOnlyMipmap
  active : List MipmapRecord
  len : Nat

namespace ChunkedMipmap

variable {τ : Type} (fold : LaneFold τ) (mipmap : ChunkedMipmap)

def new : ChunkedMipmap := ⟨.new, [], 0⟩

def push (mipmap : ChunkedMipmap) (entry : τ) : ChunkedMipmap :=
  let active := mipmap.active ++ [fold.leaf entry]
  if active.length = chunkSize then ⟨mipmap.completed.push summaryRecordFold (fold.combine active), [], mipmap.len + 1⟩
  else { mipmap with active, len := mipmap.len + 1 }

def extend (mipmap : ChunkedMipmap) (entries : List τ) : ChunkedMipmap := entries.foldl (push fold) mipmap

def sampledWindow (startNs endNs targetPoints : Nat) : List MipmapRecord :=
  let result := mipmap.completed.sampledWindow summaryRecordFold.combine startNs endNs targetPoints
  if mipmap.active = [] then result
  else
    let active := padded mipmap.active (windowRange mipmap.active startNs endNs)
    if result.length + active.length ≤ recordBudget targetPoints then result ++ active
    else result ++ [fold.combine active]

end ChunkedMipmap

theorem le_of_sorted {times : List Nat} (hsorted : times.Pairwise (· ≤ ·)) {i j x y : Nat} (hij : i ≤ j)
    (hx : times[i]? = some x) (hy : times[j]? = some y) : x ≤ y := by
  obtain ⟨hi, rfl⟩ := List.getElem?_eq_some_iff.mp hx
  obtain ⟨hj, rfl⟩ := List.getElem?_eq_some_iff.mp hy
  rcases Nat.lt_or_eq_of_le hij with hlt | rfl
  · exact List.pairwise_iff_getElem.mp hsorted i j hi hj hlt
  · exact Nat.le_refl _

/-- The record of the entries of a range, given the times of all entries. -/
structure RecordOf (times : List Nat) (range : Nat × Nat) (record : MipmapRecord) : Prop where
  nonempty : range.1 < range.2
  start : times[range.1]? = some record.startNs
  stop : times[range.2 - 1]? = some record.endNs
  count : record.count = (range.2 - range.1) % 2 ^ 32

/-- No entry of a range has its time in the window. -/
def Unseen (times : List Nat) (startNs endNs a b : Nat) : Prop :=
  ∀ i time, a ≤ i → i < b → times[i]? = some time → startNs ≤ time → endNs < time

/-- Records of ranges one behind the other, with no time of the window between them. -/
inductive Shows (times : List Nat) (startNs endNs : Nat) : Nat → Nat → List MipmapRecord → Prop
  | nil {a b : Nat} : a ≤ b → Unseen times startNs endNs a b → Shows times startNs endNs a b []
  | cons {a b : Nat} {range : Nat × Nat} {record : MipmapRecord} {rest : List MipmapRecord} :
    a ≤ range.1 → Unseen times startNs endNs a range.1 → RecordOf times range record →
      Shows times startNs endNs range.2 b rest → Shows times startNs endNs a b (record :: rest)

def RunFrom (times : List Nat) (base size : Nat) (records : List MipmapRecord) : Prop :=
  ∀ i record, records[i]? = some record → RecordOf times (base + i * size, base + (i + 1) * size) record

/-- How a fold makes one record of several. -/
structure Spans (combine : List MipmapRecord → MipmapRecord) : Prop where
  start : ∀ records first, records.head? = some first → (combine records).startNs = first.startNs
  stop : ∀ records last, records.getLast? = some last → records.Pairwise (fun a b => a.endNs ≤ b.endNs) →
    (combine records).endNs = last.endNs
  count : ∀ records, (combine records).count = (records.map MipmapRecord.count).sum % 2 ^ 32

structure LaneFold.Points {τ : Type} (fold : LaneFold τ) (time : τ → Nat) (entries : List τ) : Prop where
  leaf : ∀ entry ∈ entries, (fold.leaf entry).startNs = time entry ∧ (fold.leaf entry).endNs = time entry ∧
    (fold.leaf entry).count = 1
  combine : Spans fold.combine

section Ranges

variable {times : List Nat} {startNs endNs a b c base size : Nat} {records more : List MipmapRecord}
  {fold : List MipmapRecord → MipmapRecord}

theorem Unseen.refl : Unseen times startNs endNs a a := fun _ _ hle hlt => absurd hle (Nat.not_le_of_lt hlt)

theorem Unseen.trans (h : Unseen times startNs endNs a b) (h' : Unseen times startNs endNs b c) :
    Unseen times startNs endNs a c := by
  intro i time hle hlt
  rcases Nat.lt_or_ge i b with hb | hb
  · exact h i time hle hb
  · exact h' i time hb hlt

theorem Shows.widen (hle : a ≤ b) (hgap : Unseen times startNs endNs a b)
    (h : Shows times startNs endNs b c records) : Shows times startNs endNs a c records := by
  cases h with
  | nil hbc hrest => exact .nil (hle.trans hbc) (hgap.trans hrest)
  | cons hfirst hrest hrecord hmore => exact .cons (hle.trans hfirst) (hgap.trans hrest) hrecord hmore

theorem Shows.append (h : Shows times startNs endNs a b records) (h' : Shows times startNs endNs b c more) :
    Shows times startNs endNs a c (records ++ more) := by
  induction h with
  | nil hle hgap => exact h'.widen hle hgap
  | cons hle hgap hrecord _ ih => exact .cons hle hgap hrecord (ih h')

theorem RecordOf.shows (h : RecordOf times (a, b) (fold records)) : Shows times startNs endNs a b [fold records] :=
  .cons (Nat.le_refl a) .refl h (.nil (Nat.le_refl b) .refl)

namespace RunFrom

theorem nil : RunFrom times base size [] := fun _ _ hget => by cases hget

theorem drop (h : RunFrom times base size records) (k : Nat) :
    RunFrom times (base + k * size) size (records.drop k) := by
  intro i record hget
  rw [List.getElem?_drop] at hget
  have hrecord := h _ record hget
  rwa [show base + k * size + i * size = base + (k + i) * size by ring,
    show base + k * size + (i + 1) * size = base + (k + i + 1) * size by ring]

theorem take (h : RunFrom times base size records) (k : Nat) : RunFrom times base size (records.take k) := by
  intro i record hget
  rw [List.getElem?_take] at hget
  split at hget
  · exact h i record hget
  · cases hget

theorem concat {record : MipmapRecord} (h : RunFrom times base size records)
    (hrecord : RecordOf times (base + records.length * size, base + (records.length + 1) * size) record) :
    RunFrom times base size (records ++ [record]) := by
  intro i other hget
  rcases Nat.lt_or_ge i records.length with hi | hi
  · rw [List.getElem?_append_left hi] at hget
    exact h i other hget
  · rw [List.getElem?_append_right hi, List.getElem?_singleton] at hget
    split at hget
    next hzero =>
      cases hget
      rwa [show i = records.length by omega]
    · cases hget

theorem shows (h : RunFrom times base size records) :
    Shows times startNs endNs base (base + records.length * size) records := by
  induction records generalizing base with
  | nil =>
    rw [List.length_nil, Nat.zero_mul]
    exact .nil (Nat.le_refl _) .refl
  | cons record records ih =>
    have hfirst := h 0 record rfl
    have hrest := ih (h.drop 1)
    rw [Nat.zero_mul, Nat.add_zero] at hfirst
    rw [show base + 1 * size + records.length * size = base + (record :: records).length * size by
      rw [List.length_cons]; ring] at hrest
    rw [Nat.zero_add] at hfirst
    exact .cons (Nat.le_refl _) .refl hfirst hrest

variable (hsorted : times.Pairwise (· ≤ ·))
include hsorted

theorem combine (h : RunFrom times base size records) (hspans : Spans fold) (hne : records ≠ []) :
    RecordOf times (base, base + records.length * size) (fold records) := by
  obtain ⟨first, rest, rfl⟩ := List.exists_cons_of_ne_nil hne
  generalize hall : first :: rest = records at h hne
  obtain ⟨last, hlast⟩ : ∃ last, records.getLast? = some last := ⟨_, List.getLast?_eq_some_getLast hne⟩
  have hpos := List.length_pos_iff.mpr hne
  have hfirst := h 0 first (by rw [← hall]; rfl)
  have hend := h (records.length - 1) last (by rwa [← List.getLast?_eq_getElem?])
  have hsize : 0 < size := by
    have hlt := hfirst.nonempty
    simp only [Nat.zero_mul, Nat.add_zero, Nat.zero_add, Nat.one_mul] at hlt
    omega
  have hends : records.Pairwise fun a b => a.endNs ≤ b.endNs := by
    rw [List.pairwise_iff_getElem]
    intro i j hi hj hij
    refine le_of_sorted hsorted ?_ (h i _ (List.getElem?_eq_getElem hi)).stop (h j _ (List.getElem?_eq_getElem hj)).stop
    have hle : (i + 1) * size ≤ (j + 1) * size := Nat.mul_le_mul_right size (by omega)
    show base + (i + 1) * size - 1 ≤ base + (j + 1) * size - 1
    omega
  refine ⟨?_, ?_, ?_, ?_⟩
  · have := Nat.mul_pos hpos hsize
    show base < base + records.length * size
    omega
  · rw [hspans.start records first (by rw [← hall]; rfl)]
    simpa using hfirst.start
  · rw [hspans.stop records last hlast hends]
    have hstop := hend.stop
    rwa [show records.length - 1 + 1 = records.length by omega] at hstop
  · have hcounts : records.map MipmapRecord.count = List.replicate records.length (size % 2 ^ 32) := by
      rw [List.eq_replicate_iff]
      refine ⟨List.length_map _, fun count hcount => ?_⟩
      obtain ⟨record, hmem, rfl⟩ := List.mem_map.mp hcount
      obtain ⟨i, hi⟩ := List.getElem?_of_mem hmem
      rw [(h i record hi).count, Nat.succ_mul]
      congr 1
      show base + (i * size + size) - (base + i * size) = size
      omega
    rw [hspans.count, hcounts, List.sum_replicate_nat, Nat.mul_mod, Nat.mod_mod, ← Nat.mul_mod]
    congr 1
    show records.length * size = base + records.length * size - base
    omega

theorem unseen_before (h : RunFrom times base size records) :
    Unseen times startNs endNs base (base + (windowRange records startNs endNs).1 * size) := by
  intro i time hle hlt hget hstart
  generalize hfirst : (windowRange records startNs endNs).1 = first at hlt
  have hlen : first ≤ records.length := hfirst ▸ partitionPoint_le_length _ _
  obtain _ | before := first
  · omega
  · have hrecord := List.getElem?_eq_getElem (show before < records.length by omega)
    have hpoint : partitionPoint (fun record : MipmapRecord => record.endNs < startNs) records = before + 1 := hfirst
    have hbefore := test_of_lt hrecord (by rw [hpoint]; exact Nat.lt_succ_self before)
    have hend := le_of_sorted hsorted (by show i ≤ base + (before + 1) * size - 1; omega) hget (h _ _ hrecord).stop
    simp only [decide_eq_true_eq] at hbefore
    omega

theorem unseen_after (h : RunFrom times base size records) :
    Unseen times startNs endNs (base + (windowRange records startNs endNs).2 * size)
      (base + records.length * size) := by
  intro i time hle hlt hget _
  have hbehind : (windowRange records startNs endNs).2 < records.length := by
    by_contra hge
    have := Nat.mul_le_mul_right size (Nat.le_of_not_lt hge)
    omega
  have hrecord := List.getElem?_eq_getElem hbehind
  have hlate := fails_at (List.getElem?_drop.trans hrecord)
  have hstart := le_of_sorted hsorted hle (h _ _ hrecord).start hget
  simp only [decide_eq_false_iff_not] at hlate
  omega

end RunFrom

theorem windowRange_le (records : List MipmapRecord) (startNs endNs : Nat) :
    (windowRange records startNs endNs).1 ≤ (windowRange records startNs endNs).2 ∧
      (windowRange records startNs endNs).2 ≤ records.length := by
  rw [windowRange]
  dsimp only
  generalize hfirst : partitionPoint (fun record : MipmapRecord => decide (record.endNs < startNs)) records = first
  have hle := partitionPoint_le_length (fun record : MipmapRecord => decide (record.endNs < startNs)) records
  have hlast := partitionPoint_le_length (fun record : MipmapRecord => decide (record.startNs ≤ endNs))
    (records.drop first)
  rw [List.length_drop] at hlast
  omega

theorem length_slice {low high : Nat} (hlen : high ≤ records.length) :
    ((records.take high).drop low).length = high - low := by
  rw [List.length_drop, List.length_take, Nat.min_eq_left hlen]

variable {low high : Nat}

theorem slice_stop (hle : low ≤ high) :
    base + low * size + (high - low) * size = base + high * size := by
  rw [Nat.add_assoc, ← Nat.add_mul, Nat.add_sub_cancel' hle]

theorem RunFrom.slice_shows (h : RunFrom times base size records) (hle : low ≤ high) (hlen : high ≤ records.length) :
    Shows times startNs endNs (base + low * size) (base + high * size) ((records.take high).drop low) := by
  rw [← slice_stop hle, ← length_slice hlen]
  exact ((h.take high).drop low).shows

theorem RunFrom.slice_record (hsorted : times.Pairwise (· ≤ ·)) (h : RunFrom times base size records)
    (hspans : Spans fold) (hlt : low < high) (hlen : high ≤ records.length) :
    RecordOf times (base + low * size, base + high * size) (fold ((records.take high).drop low)) := by
  have hlength := @length_slice records low high hlen
  rw [← slice_stop (Nat.le_of_lt hlt), ← hlength]
  exact ((h.take high).drop low).combine hsorted hspans (List.length_pos_iff.mp (by omega))

section Window

variable (hsorted : times.Pairwise (· ≤ ·))
include hsorted

theorem RunFrom.shows_around (h : RunFrom times base size records) {shown : List MipmapRecord}
    (hlow : low ≤ (windowRange records startNs endNs).1) (hhigh : (windowRange records startNs endNs).2 ≤ high)
    (hlen : high ≤ records.length) (hshown : Shows times startNs endNs (base + low * size) (base + high * size) shown) :
    Shows times startNs endNs base (base + records.length * size) shown := by
  have hbefore : base + low * size ≤ base + (windowRange records startNs endNs).1 * size :=
    Nat.add_le_add_left (Nat.mul_le_mul_right size hlow) base
  have hafter : base + (windowRange records startNs endNs).2 * size ≤ base + high * size :=
    Nat.add_le_add_left (Nat.mul_le_mul_right size hhigh) base
  have hend : Shows times startNs endNs (base + high * size) (base + records.length * size) [] :=
    .nil (Nat.add_le_add_left (Nat.mul_le_mul_right size hlen) base)
      fun i time hi hlt => h.unseen_after hsorted i time (hafter.trans hi) hlt
  rw [← List.append_nil shown]
  exact (hshown.append hend).widen (Nat.le_add_right _ _)
    fun i time hi hlt => h.unseen_before hsorted i time hi (Nat.lt_of_lt_of_le hlt hbefore)

theorem RunFrom.shows_padded (h : RunFrom times base size records) :
    Shows times startNs endNs base (base + records.length * size)
      (padded records (windowRange records startNs endNs)) := by
  obtain ⟨hle, hlen⟩ := windowRange_le records startNs endNs
  refine h.shows_around hsorted (Nat.sub_le _ 1) (Nat.le_min.mpr ⟨Nat.le_succ _, hlen⟩) (Nat.min_le_right _ _) ?_
  exact h.slice_shows (by omega) (Nat.min_le_right _ _)

theorem RunFrom.shows_combined (h : RunFrom times base size records) (hspans : Spans fold) (hne : records ≠ []) :
    Shows times startNs endNs base (base + records.length * size)
      [fold (padded records (windowRange records startNs endNs))] := by
  obtain ⟨hle, hlen⟩ := windowRange_le records startNs endNs
  have hpos := List.length_pos_iff.mpr hne
  refine h.shows_around hsorted (Nat.sub_le _ 1) (Nat.le_min.mpr ⟨Nat.le_succ _, hlen⟩) (Nat.min_le_right _ _) ?_
  exact (h.slice_record hsorted hspans (by omega) (Nat.min_le_right _ _)).shows

theorem RunFrom.shows_inside (h : RunFrom times base size records) (hspans : Spans fold) :
    Shows times startNs endNs base (base + records.length * size)
      (if (windowRange records startNs endNs).1 < (windowRange records startNs endNs).2 then
        [fold ((records.take (windowRange records startNs endNs).2).drop (windowRange records startNs endNs).1)]
      else []) := by
  obtain ⟨hle, hlen⟩ := windowRange_le records startNs endNs
  refine h.shows_around hsorted (Nat.le_refl _) (Nat.le_refl _) hlen ?_
  split
  next hlt => exact (h.slice_record hsorted hspans hlt hlen).shows
  next hge =>
    rw [Nat.le_antisymm hle (Nat.le_of_not_lt hge)]
    exact .nil (Nat.le_refl _) .refl

end Window

end Ranges

def Tiered (times : List Nat) (total : Nat) : Nat → List (List MipmapRecord) → Prop
  | size, [] => total < size
  | size, tier :: tiers =>
    tier.length = total / size ∧ RunFrom times 0 size tier ∧ Tiered times total (size * laneFanOut) tiers

section Tiers

variable {times : List Nat} {total after size : Nat} {tiers : List (List MipmapRecord)}
  {fold : List MipmapRecord → MipmapRecord} {record : MipmapRecord}

theorem Tiered.unchanged (hsize : 0 < size) (hsame : total / size = after / size) (h : Tiered times total size tiers) :
    Tiered times after size tiers := by
  induction tiers generalizing size with
  | nil => exact (Nat.div_eq_zero_iff_lt hsize).mp (hsame ▸ Nat.div_eq_of_lt h)
  | cons tier tiers ih =>
    obtain ⟨hlength, hrun, hrest⟩ := h
    refine ⟨hlength.trans hsame, hrun, ih (Nat.mul_pos hsize (by decide)) ?_ hrest⟩
    rw [← Nat.div_div_eq_div_mul, ← Nat.div_div_eq_div_mul, hsame]

variable (hsorted : times.Pairwise (· ≤ ·))
include hsorted

omit hsorted in
theorem RunFrom.push {tier : List MipmapRecord} (h : RunFrom times 0 size tier)
    (hrecord : RecordOf times (tier.length * size, after) record) (hfill : (tier.length + 1) * size = after) :
    RunFrom times 0 size (tier ++ [record]) := by
  apply h.concat
  rwa [Nat.zero_add, Nat.zero_add, hfill]

theorem pushRecord_tiered (hspans : Spans fold) (hsize : 0 < size) (hfill : (total / size + 1) * size = after)
    (hrecord : RecordOf times (total / size * size, after) record) (h : Tiered times total size tiers) :
    Tiered times after size (pushRecord fold tiers record) := by
  have hfan : laneFanOut = 64 := rfl
  induction tiers generalizing size record with
  | nil =>
    have hzero : total / size = 0 := Nat.div_eq_of_lt h
    rw [hzero] at hfill hrecord
    have hcount : after / size = 1 := by rw [← hfill, Nat.zero_add, Nat.one_mul, Nat.div_self hsize]
    have hrun : RunFrom times 0 size ([] ++ [record]) := RunFrom.nil.push hrecord hfill
    refine ⟨hcount.symm, hrun, ?_⟩
    show after < size * laneFanOut
    rw [hfan]
    omega
  | cons tier tiers ih =>
    obtain ⟨hlength, hrun, hrest⟩ := h
    have hcount : after / size = total / size + 1 := by rw [← hfill, Nat.mul_div_cancel _ hsize]
    have hpushed : (tier ++ [record]).length = total / size + 1 := by
      rw [List.length_append, List.length_singleton, hlength]
    have hall : RunFrom times 0 size (tier ++ [record]) := hrun.push (hlength ▸ hrecord) (hlength ▸ hfill)
    rw [pushRecord, hpushed]
    split
    next hfull =>
      have hcoarse : total / (size * laneFanOut) * laneFanOut + laneFanOut = total / size + 1 := by
        rw [← Nat.div_div_eq_div_mul, hfan]
        rw [hfan] at hfull
        omega
      have hnext : (total / (size * laneFanOut) + 1) * (size * laneFanOut) = after := by
        rw [← Nat.mul_assoc, Nat.mul_right_comm, Nat.succ_mul, hcoarse, hfill]
      have hdrop : total / size + 1 - laneFanOut = total / (size * laneFanOut) * laneFanOut := by omega
      have hcarried := (hall.drop (total / size + 1 - laneFanOut)).combine hsorted hspans (by
        rw [ne_eq, List.drop_eq_nil_iff]
        omega)
      rw [List.length_drop, hpushed, slice_stop (Nat.sub_le _ _), hfill, hdrop, Nat.zero_add, Nat.zero_add,
        Nat.mul_assoc, Nat.mul_comm laneFanOut] at hcarried
      exact ⟨hpushed.trans hcount.symm, hall, hdrop ▸ ih (Nat.mul_pos hsize (by decide)) hnext hcarried hrest⟩
    next hpart =>
      refine ⟨hpushed.trans hcount.symm, hall, hrest.unchanged (Nat.mul_pos hsize (by decide)) ?_⟩
      rw [← Nat.div_div_eq_div_mul, ← Nat.div_div_eq_div_mul, hcount]
      rw [hfan] at hpart ⊢
      omega

omit hsorted in
theorem Tiered.tier (h : Tiered times total size tiers) {k : Nat} (hk : k < tiers.length) :
    (tiers.getD k []).length = total / (size * laneFanOut ^ k) ∧ RunFrom times 0 (size * laneFanOut ^ k) (tiers.getD k []) := by
  induction tiers generalizing size k with
  | nil => exact absurd hk (Nat.not_lt_zero k)
  | cons tier tiers ih =>
    obtain ⟨hlength, hrun, hrest⟩ := h
    cases k with
    | zero => simpa using ⟨hlength, hrun⟩
    | succ k =>
      have hnext := ih hrest (Nat.lt_of_succ_lt_succ hk)
      rwa [Nat.mul_assoc, ← Nat.pow_succ'] at hnext

/-- A mipmap over records of `unit` entries each. -/
structure AppendOnlyMipmap.Holds (times : List Nat) (unit total : Nat) (mipmap : AppendOnlyMipmap) : Prop where
  tiered : Tiered times total unit mipmap.tiers
  tiers : mipmap.tiers ≠ []
  len : mipmap.len * unit = total

variable {startNs endNs unit : Nat} {mipmap : AppendOnlyMipmap}

omit hsorted in
theorem AppendOnlyMipmap.new_holds (hunit : 0 < unit) : new.Holds times unit 0 :=
  ⟨⟨(Nat.zero_div unit).symm, .nil, Nat.mul_pos hunit (by decide)⟩, List.cons_ne_nil _ _, Nat.zero_mul unit⟩

theorem AppendOnlyMipmap.Holds.push {τ : Type} {lane : LaneFold τ} (hspans : Spans lane.combine) (hunit : 0 < unit)
    {entry : τ} (h : Holds times unit total mipmap) (hrecord : RecordOf times (total, total + unit) (lane.leaf entry)) :
    Holds times unit (total + unit) (mipmap.push lane entry) := by
  have hplace : total / unit * unit = total := by rw [← h.len, Nat.mul_div_cancel _ hunit]
  refine ⟨pushRecord_tiered hsorted hspans hunit ?_ (hplace.symm ▸ hrecord) h.tiered, ?_, ?_⟩
  · rw [Nat.succ_mul, hplace]
  · show pushRecord _ mipmap.tiers _ ≠ []
    unfold pushRecord
    split
    · exact List.cons_ne_nil _ _
    · split <;> exact List.cons_ne_nil _ _
  · show (mipmap.len + 1) * unit = total + unit
    rw [Nat.succ_mul, h.len]

theorem AppendOnlyMipmap.Holds.shows (h : Holds times unit total mipmap) (hspans : Spans fold) (hunit : 0 < unit)
    (targetPoints : Nat) :
    Shows times startNs endNs 0 total (mipmap.sampledWindow fold startNs endNs targetPoints) := by
  have hpos : 0 < mipmap.tiers.length := List.length_pos_iff.mpr h.tiers
  have hlen : total / unit = mipmap.len := by rw [← h.len, Nat.mul_div_cancel _ hunit]
  unfold sampledWindow
  dsimp only
  split
  next hnone =>
    have hzero := List.find?_eq_none.mp hnone 0 (by simpa using hpos)
    simp at hzero
  next k hfound =>
    have hk : k < mipmap.tiers.length := by simpa using List.mem_of_find?_eq_some hfound
    obtain ⟨hlength, hrun⟩ : (mipmap.tier k).length = total / (unit * laneFanOut ^ k) ∧
      RunFrom times 0 (unit * laneFanOut ^ k) (mipmap.tier k) := h.tiered.tier hk
    refine Shows.append (hrun.shows_padded hsorted) ?_
    have hcovered : (mipmap.tier k).length * laneFanOut ^ k * unit ≤ total := by
      rw [hlength, Nat.mul_assoc, Nat.mul_comm _ unit]
      exact Nat.div_mul_le_self total _
    rw [Nat.zero_add, Nat.mul_comm unit, ← Nat.mul_assoc, uncoveredTail]
    split
    next hall =>
      have hle : mipmap.len ≤ (mipmap.tier k).length * laneFanOut ^ k := by
        rcases hall with rfl | hle
        · rw [hlength, Nat.pow_zero, Nat.mul_one, Nat.mul_one, hlen]
        · exact hle
      rw [Nat.le_antisymm hcovered (h.len ▸ Nat.mul_le_mul_right unit hle)]
      exact .nil (Nat.le_refl _) .refl
    next htail =>
      obtain ⟨hall, hrun⟩ : (mipmap.tier 0).length = total / (unit * 1) ∧
        RunFrom times 0 (unit * 1) (mipmap.tier 0) := h.tiered.tier hpos
      rw [Nat.mul_one] at hall hrun
      have hinside : Shows times startNs endNs _ _ _ :=
        (hrun.drop ((mipmap.tier k).length * laneFanOut ^ k)).shows_inside hsorted hspans
      rw [List.length_drop, hall, hlen, slice_stop (by omega), h.len] at hinside
      simp only [Nat.zero_add] at hinside
      exact hinside

end Tiers

def coveredBy (ranges : List (Nat × Nat)) (i : Nat) : Nat := ranges.countP fun range => range.1 ≤ i ∧ i < range.2

/-- Records of ranges of entries: no entry is in two of them, and each one in the window is in one. -/
structure Summarises (times : List Nat) (startNs endNs : Nat) (records : List MipmapRecord)
    (ranges : List (Nat × Nat)) : Prop where
  stands : List.Forall₂ (RecordOf times) ranges records
  apart : ∀ i, coveredBy ranges i ≤ 1
  once : ∀ i time, times[i]? = some time → startNs ≤ time → time ≤ endNs → coveredBy ranges i = 1
  ordered : records.Pairwise fun a b => a.endNs ≤ b.startNs

section Windows

variable {times : List Nat} {startNs endNs a b : Nat} {records : List MipmapRecord}

theorem Shows.starts (h : Shows times startNs endNs a b records) {record : MipmapRecord} (hmem : record ∈ records) :
    ∃ i, a ≤ i ∧ times[i]? = some record.startNs := by
  induction h with
  | nil => cases hmem
  | cons hle _ hrecord _ ih =>
    rcases List.mem_cons.mp hmem with rfl | hmem
    · exact ⟨_, hle, hrecord.start⟩
    · obtain ⟨i, hi, hstart⟩ := ih hmem
      exact ⟨i, Nat.le_trans (Nat.le_trans hle (Nat.le_of_lt hrecord.nonempty)) hi, hstart⟩

theorem coveredBy_cons (range : Nat × Nat) (ranges : List (Nat × Nat)) (i : Nat) :
    coveredBy (range :: ranges) i = coveredBy ranges i + if range.1 ≤ i ∧ i < range.2 then 1 else 0 := by
  simp [coveredBy, List.countP_cons]

theorem Shows.ranges (hsorted : times.Pairwise (· ≤ ·))
    (h : Shows times startNs endNs a b records) (hend : b = times.length) :
    ∃ ranges, List.Forall₂ (RecordOf times) ranges records ∧
      (∀ i, coveredBy ranges i ≤ 1 ∧ (i < a → coveredBy ranges i = 0)) ∧
      (∀ i time, a ≤ i → times[i]? = some time → startNs ≤ time → time ≤ endNs → coveredBy ranges i = 1) ∧
      records.Pairwise fun a b => a.endNs ≤ b.startNs := by
  induction h with
  | nil hle hgap =>
    refine ⟨[], .nil, fun _ => ⟨Nat.zero_le 1, fun _ => rfl⟩, fun i time hi hget hstart hstop => ?_, .nil⟩
    have hlt := (List.getElem?_eq_some_iff.mp hget).1
    exact absurd (hgap i time hi (hend ▸ hlt) hget hstart) (Nat.not_lt_of_le hstop)
  | @cons a b range record rest hle hgap hrecord hmore ih =>
    obtain ⟨ranges, hranges, hapart, honce, hordered⟩ := ih hend
    have hrange := hrecord.nonempty
    refine ⟨range :: ranges, .cons hrecord hranges, fun i => ?_, fun i time hi hget hstart hstop => ?_, ?_⟩
    · obtain ⟨hone, hnone⟩ := hapart i
      rw [coveredBy_cons]
      by_cases hinside : i < range.2
      · rw [hnone hinside]
        split <;> omega
      · rw [if_neg (by omega)]
        exact ⟨hone, by omega⟩
    · rw [coveredBy_cons]
      by_cases hinside : i < range.2
      · have hfirst : range.1 ≤ i := by
          by_contra hbefore
          exact absurd (hgap i time hi (by omega) hget hstart) (Nat.not_lt_of_le hstop)
        rw [(hapart i).2 hinside, if_pos ⟨hfirst, hinside⟩]
      · rw [honce i time (by omega) hget hstart hstop, if_neg (by omega)]
    · refine .cons (fun other hother => ?_) hordered
      obtain ⟨i, hi, hfirst⟩ := hmore.starts hother
      exact le_of_sorted hsorted (by omega) hrecord.stop hfirst

theorem Shows.summarises (hsorted : times.Pairwise (· ≤ ·))
    (h : Shows times startNs endNs 0 times.length records) : ∃ ranges, Summarises times startNs endNs records ranges := by
  obtain ⟨ranges, hranges, hapart, honce, hordered⟩ := h.ranges hsorted rfl
  exact ⟨ranges, hranges, fun i => (hapart i).1, fun i time => honce i time (Nat.zero_le i), hordered⟩

end Windows

section Entries

variable {τ : Type} {fold : LaneFold τ} {time : τ → Nat} {entries : List τ}

theorem LaneFold.Points.recordOf (h : fold.Points time entries) {before rest : List τ} {entry : τ}
    (hsplit : entries = before ++ entry :: rest) :
    RecordOf (entries.map time) (before.length, before.length + 1) (fold.leaf entry) := by
  obtain ⟨hstart, hstop, hcount⟩ := h.leaf entry (by simp [hsplit])
  have hget : (entries.map time)[before.length]? = some (time entry) := by simp [hsplit]
  refine ⟨Nat.lt_succ_self _, hstart ▸ hget, hstop ▸ hget, ?_⟩
  rw [hcount, Nat.add_sub_cancel_left]
  rfl

variable {times : List Nat} {total startNs endNs : Nat} {mipmap : ChunkedMipmap}

theorem spans_lastEnd (levelHint : List MipmapRecord → Option (Bool × Bool)) :
    Spans (combineRecords lastEnd levelHint) where
  start _ first hfirst := by simp [combineRecords, hfirst]
  stop _ last hlast _ := by simp [combineRecords, lastEnd, hlast]
  count _ := rfl

theorem latestEndNs_sorted {records : List MipmapRecord} {last : MipmapRecord} (hlast : records.getLast? = some last)
    (hends : records.Pairwise fun a b => a.endNs ≤ b.endNs) : latestEndNs records = last.endNs := by
  induction records with
  | nil => cases hlast
  | cons record rest ih =>
    obtain ⟨hhead, hrest⟩ := List.pairwise_cons.mp hends
    rw [latestEndNs, List.map_cons, List.foldr_cons]
    cases rest with
    | nil =>
      cases hlast
      exact Nat.max_zero _
    | cons next rest =>
      rw [List.getLast?_cons_cons] at hlast
      have htail := ih hlast hrest
      rw [latestEndNs] at htail
      rw [htail]
      exact Nat.max_eq_right (hhead last (List.mem_of_getLast? hlast))

theorem spans_latestEndNs (levelHint : List MipmapRecord → Option (Bool × Bool)) :
    Spans (combineRecords latestEndNs levelHint) where
  start _ first hfirst := by simp [combineRecords, hfirst]
  stop _ _ hlast hends := latestEndNs_sorted hlast hends
  count _ := rfl

theorem numberFold_points {α : Type} (entries : List (Nat × α)) : numberFold.Points Prod.fst entries :=
  ⟨fun _ _ => ⟨rfl, rfl, rfl⟩, spans_lastEnd _⟩

theorem markerFold_points (entries : List Nat) : markerFold.Points id entries :=
  ⟨fun _ _ => ⟨rfl, rfl, rfl⟩, spans_lastEnd _⟩

theorem digitalFold_points (entries : List (Nat × Bool)) : digitalFold.Points Prod.fst entries :=
  ⟨fun _ _ => ⟨rfl, rfl, rfl⟩, spans_lastEnd _⟩

theorem annotationFold_points {entries : List Annotation} (h : ∀ entry ∈ entries, entry.endNs = entry.startNs) :
    annotationFold.Points Annotation.startNs entries :=
  ⟨fun entry hentry => ⟨rfl, h entry hentry, rfl⟩, spans_latestEndNs _⟩

structure ChunkedMipmap.Holds (times : List Nat) (total chunks : Nat) (mipmap : ChunkedMipmap) : Prop where
  completed : mipmap.completed.Holds times chunkSize chunks
  active : RunFrom times chunks 1 mipmap.active
  total : chunks + mipmap.active.length = total

variable (hsorted : times.Pairwise (· ≤ ·))
include hsorted

theorem ChunkedMipmap.Holds.push {chunks : Nat} (h : Holds times total chunks mipmap) (hspans : Spans fold.combine)
    {entry : τ} (hrecord : RecordOf times (total, total + 1) (fold.leaf entry)) :
    ∃ chunks, Holds times (total + 1) chunks (mipmap.push fold entry) := by
  have hactive : RunFrom times chunks 1 (mipmap.active ++ [fold.leaf entry]) := by
    apply h.active.concat
    rwa [Nat.mul_one, Nat.mul_one, ← Nat.add_assoc, h.total]
  have htotal := h.total
  unfold ChunkedMipmap.push
  dsimp only
  split
  next hfull =>
    have hsummary := hactive.combine hsorted hspans (List.append_ne_nil_of_right_ne_nil _ (List.cons_ne_nil _ _))
    rw [hfull, Nat.mul_one] at hsummary
    refine ⟨chunks + chunkSize, h.completed.push hsorted (spans_latestEndNs _) (by decide) hsummary, .nil, ?_⟩
    rw [List.length_append, List.length_singleton] at hfull
    show chunks + chunkSize + 0 = total + 1
    omega
  · refine ⟨chunks, h.completed, hactive, ?_⟩
    show chunks + (mipmap.active ++ [fold.leaf entry]).length = total + 1
    rw [List.length_append, List.length_singleton]
    omega

theorem ChunkedMipmap.Holds.shows {chunks : Nat} (h : Holds times total chunks mipmap) (hspans : Spans fold.combine)
    (targetPoints : Nat) :
    Shows times startNs endNs 0 total (mipmap.sampledWindow fold startNs endNs targetPoints) := by
  have hcompleted : Shows times startNs endNs 0 chunks _ :=
    h.completed.shows hsorted (spans_latestEndNs levelSpan) (by decide) targetPoints
  have htotal := h.total
  unfold ChunkedMipmap.sampledWindow
  dsimp only
  split
  next hnone =>
    rw [hnone] at htotal
    exact htotal ▸ hcompleted
  next hsome =>
    rw [← Nat.mul_one mipmap.active.length] at htotal
    subst htotal
    split
    · exact hcompleted.append (h.active.shows_padded hsorted)
    · exact hcompleted.append (h.active.shows_combined hsorted hspans hsome)

end Entries

section Lanes

variable {τ : Type} {fold : LaneFold τ} {time : τ → Nat} {entries : List τ}

theorem foldl_pushes {σ : Type} {push : σ → τ → σ} {holds : Nat → σ → Prop}
    (hpush : ∀ before entry rest state, entries = before ++ entry :: rest → holds before.length state →
      holds (before.length + 1) (push state entry)) {start : σ} (hstart : holds 0 start) :
    holds entries.length (entries.foldl push start) := by
  have hall : ∀ rest before state, entries = before ++ rest → holds before.length state →
      holds entries.length (rest.foldl push state) := by
    intro rest
    induction rest with
    | nil =>
      intro before state hsplit hstate
      rw [List.append_nil] at hsplit
      exact hsplit ▸ hstate
    | cons entry rest ih =>
      intro before state hsplit hstate
      have hnext := hpush before entry rest state hsplit hstate
      rw [← @List.length_singleton τ entry, ← List.length_append] at hnext
      exact ih (before ++ [entry]) _ (by rw [hsplit, List.append_assoc]; rfl) hnext
  exact hall entries [] start rfl hstart

theorem derived_mipmaps_lose_nothing (hpoints : fold.Points time entries)
    (hsorted : (entries.map time).Pairwise (· ≤ ·)) (startNs endNs targetPoints : Nat) :
    (∃ ranges, Summarises (entries.map time) startNs endNs
      ((AppendOnlyMipmap.new.extend fold entries).sampledWindow fold.combine startNs endNs targetPoints) ranges) ∧
    ∃ ranges, Summarises (entries.map time) startNs endNs
      ((ChunkedMipmap.new.extend fold entries).sampledWindow fold startNs endNs targetPoints) ranges := by
  have happend : (AppendOnlyMipmap.new.extend fold entries).Holds (entries.map time) 1 entries.length :=
    @foldl_pushes τ entries _ _ (fun total mipmap => AppendOnlyMipmap.Holds (entries.map time) 1 total mipmap)
      (fun before entry rest mipmap hsplit h =>
        h.push hsorted hpoints.combine Nat.one_pos (hpoints.recordOf hsplit))
      _ (AppendOnlyMipmap.new_holds Nat.one_pos)
  have hchunked : ∃ chunks, (ChunkedMipmap.new.extend fold entries).Holds (entries.map time) entries.length chunks :=
    @foldl_pushes τ entries _ _
      (fun total mipmap => ∃ chunks, ChunkedMipmap.Holds (entries.map time) total chunks mipmap)
      (fun before entry rest mipmap hsplit ⟨_, h⟩ => h.push hsorted hpoints.combine (hpoints.recordOf hsplit))
      _ ⟨0, AppendOnlyMipmap.new_holds (by decide), .nil, rfl⟩
  obtain ⟨chunks, hchunked⟩ := hchunked
  have hlength : (entries.map time).length = entries.length := List.length_map _
  exact ⟨(hlength ▸ happend.shows hsorted hpoints.combine Nat.one_pos targetPoints).summarises hsorted,
    (hlength ▸ hchunked.shows hsorted hpoints.combine targetPoints).summarises hsorted⟩

/-- Two full groups of markers and two markers behind them. -/
theorem derived_mipmaps_lose_nothing_markers :
    ((AppendOnlyMipmap.new.extend markerFold (List.range 130)).sampledWindow markerFold.combine 4 129 1).map
      MipmapRecord.count = [64, 64, 2] ∧
    (∃ ranges, Summarises (List.range 130) 4 129
      ((AppendOnlyMipmap.new.extend markerFold (List.range 130)).sampledWindow markerFold.combine 4 129 1) ranges) ∧
    ∃ ranges, Summarises (List.range 130) 4 129
      ((ChunkedMipmap.new.extend markerFold (List.range 130)).sampledWindow markerFold 4 129 1) ranges :=
  ⟨by decide +kernel, derived_mipmaps_lose_nothing (markerFold_points (List.range 130))
    (by rw [List.map_id]; exact List.pairwise_le_range) 4 129 1⟩

end Lanes

end LogicConduit
