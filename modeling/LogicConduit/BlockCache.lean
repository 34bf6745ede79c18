import Mathlib.Data.List.AList
import Mathlib.Data.List.MinMax
import LogicConduit.WordDecode

namespace LogicConduit

structure BlockCacheKey where
  storeId : UInt64
  sequence : UInt64
  deriving DecidableEq

structure BlockCacheEntry where
  block : DecodedWordBlock
  memoryBytes : Nat
  lastAccess : UInt64
  deriving DecidableEq

/-- The decoded blocks that fit the budget. The order of the entries stands for that of the hash map. -/
structure DecodedBlockCache where
  entries : AList fun _ : BlockCacheKey => BlockCacheEntry
  memoryBytes : Nat
  budgetBytes : Nat
  accessClock : UInt64
  hits : Nat
  misses : Nat

/-- The sizes of the types on the target and the capacities its vectors have. -/
structure DecodedSizes where
  block : Nat
  word : Nat
  restart : Nat
  wordCapacity : Nat → Nat
  restartCapacity : Nat → Nat

def decodedBlockBytes (sizes : DecodedSizes) (block : DecodedWordBlock) : Nat :=
  sizes.block + sizes.wordCapacity block.words.length * sizes.word +
    sizes.restartCapacity block.restarts.length * sizes.restart

namespace DecodedBlockCache

def new (budgetBytes : Nat) : DecodedBlockCache := ⟨∅, 0, budgetBytes, 0, 0, 0⟩

def get (cache : DecodedBlockCache) (key : BlockCacheKey) : Option DecodedWordBlock × DecodedBlockCache :=
  let accessClock := cache.accessClock + 1
  match cache.entries.lookup key with
  | none => (none, { cache with accessClock, misses := cache.misses + 1 })
  | some entry =>
    (some entry.block, { cache with
      accessClock
      hits := cache.hits + 1
      entries := cache.entries.insert key { entry with lastAccess := accessClock } })

def remove (cache : DecodedBlockCache) (key : BlockCacheKey) : DecodedBlockCache :=
  match cache.entries.lookup key with
  | none => cache
  | some removed =>
    { cache with entries := cache.entries.erase key, memoryBytes := cache.memoryBytes - removed.memoryBytes }

def oldest (cache : DecodedBlockCache) : Option BlockCacheKey :=
  (cache.entries.entries.argmin fun entry => entry.2.lastAccess.toNat).map Sigma.fst

/-- The loop of `evict_to_budget`; every turn removes an entry. -/
def evict : Nat → DecodedBlockCache → DecodedBlockCache
  | 0, cache => cache
  | turns + 1, cache =>
    if cache.budgetBytes < cache.memoryBytes then
      match cache.oldest with
      | none => cache
      | some key => evict turns (cache.remove key)
    else cache

def evictToBudget (cache : DecodedBlockCache) : DecodedBlockCache := evict cache.entries.entries.length cache

def insert (sizes : DecodedSizes) (cache : DecodedBlockCache) (key : BlockCacheKey) (block : DecodedWordBlock) :
    DecodedBlockCache :=
  let memoryBytes := decodedBlockBytes sizes block
  if cache.budgetBytes < memoryBytes then cache
  else
    let accessClock := cache.accessClock + 1
    let kept := cache.remove key
    evictToBudget { kept with
      accessClock
      memoryBytes := kept.memoryBytes + memoryBytes
      entries := kept.entries.insert key ⟨block, memoryBytes, accessClock⟩ }

def blockAt (cache : DecodedBlockCache) (key : BlockCacheKey) : Option DecodedWordBlock :=
  (cache.entries.lookup key).map (·.block)

/-- What the cache counts is what it holds, and stays within the budget. -/
structure Budgeted (cache : DecodedBlockCache) : Prop where
  counted : cache.memoryBytes = (cache.entries.entries.map (·.2.memoryBytes)).sum
  within : cache.memoryBytes ≤ cache.budgetBytes

variable {cache : DecodedBlockCache} {key other : BlockCacheKey} {block found : DecodedWordBlock}

theorem get_fst : (cache.get key).1 = cache.blockAt key := by
  unfold get blockAt
  cases cache.entries.lookup key <;> rfl

@[simp]
theorem get_blockAt : (cache.get key).2.blockAt other = cache.blockAt other := by
  unfold get blockAt
  cases hentry : cache.entries.lookup key with
  | none => rfl
  | some entry =>
    by_cases hsame : other = key
    · subst hsame
      simp [hentry]
    · simp [AList.lookup_insert_ne hsame]

theorem remove_blockAt (h : (cache.remove key).blockAt other = some found) :
    other ≠ key ∧ cache.blockAt other = some found := by
  unfold remove blockAt at h
  cases hentry : cache.entries.lookup key with
  | none =>
    rw [hentry] at h
    refine ⟨fun hsame => ?_, h⟩
    rw [hsame, hentry] at h
    cases h
  | some removed =>
    simp only [hentry] at h
    by_cases hsame : other = key
    · rw [hsame, AList.lookup_erase] at h
      cases h
    · rw [AList.lookup_erase_ne hsame] at h
      exact ⟨hsame, h⟩

theorem evict_blockAt {turns : Nat} (h : (cache.evict turns).blockAt other = some found) :
    cache.blockAt other = some found := by
  induction turns generalizing cache with
  | zero => exact h
  | succ turns ih =>
    rw [evict] at h
    split at h
    · split at h
      · exact h
      · exact (remove_blockAt (ih h)).2
    · exact h

/-- A block found after an insertion is the one inserted, or was there before. -/
theorem insert_blockAt {sizes : DecodedSizes} (h : (cache.insert sizes key block).blockAt other = some found) :
    other = key ∧ found = block ∨ cache.blockAt other = some found := by
  unfold insert at h
  dsimp only at h
  split at h
  · exact Or.inr h
  · have hkept := evict_blockAt h
    unfold blockAt at hkept
    by_cases hsame : other = key
    · rw [hsame, AList.lookup_insert] at hkept
      exact Or.inl ⟨hsame, (Option.some.inj hkept).symm⟩
    · rw [AList.lookup_insert_ne hsame] at hkept
      exact Or.inr (remove_blockAt hkept).2

section Budget

theorem entries_sum {entry : BlockCacheEntry} (h : cache.entries.lookup key = some entry) :
    (cache.entries.entries.map (·.2.memoryBytes)).sum =
        entry.memoryBytes + ((cache.entries.erase key).entries.map (·.2.memoryBytes)).sum ∧
      cache.entries.entries.length = (cache.entries.erase key).entries.length + 1 := by
  have hmem : key ∈ cache.entries.entries.keys := AList.lookup_isSome.mp (by rw [h]; rfl)
  obtain ⟨found, before, after, hnot, hsplit, herase⟩ := List.exists_of_kerase hmem
  have hentry : found = entry := by
    have hlookup := (List.mem_dlookup_iff cache.entries.nodupKeys).mpr (show Sigma.mk key found ∈ _ by
      rw [hsplit]
      exact List.mem_append_right _ List.mem_cons_self)
    exact Option.some.inj (hlookup.symm.trans h)
  have herased : (cache.entries.erase key).entries = before ++ after := herase
  rw [herased, hsplit, hentry]
  simp only [List.map_append, List.map_cons, List.sum_append, List.sum_cons, List.length_append, List.length_cons]
  omega

theorem remove_counted (h : cache.memoryBytes = (cache.entries.entries.map (·.2.memoryBytes)).sum) :
    (cache.remove key).memoryBytes = ((cache.remove key).entries.entries.map (·.2.memoryBytes)).sum := by
  unfold remove
  cases hentry : cache.entries.lookup key with
  | none => exact h
  | some removed =>
    obtain ⟨hsum, -⟩ := entries_sum hentry
    dsimp only
    omega

theorem oldest_mem (h : cache.oldest = some key) :
    (cache.remove key).entries.entries.length + 1 = cache.entries.entries.length := by
  obtain ⟨⟨_, entry⟩, hmin, rfl⟩ := Option.map_eq_some_iff.mp h
  have hlookup : cache.entries.lookup _ = some entry :=
    (List.mem_dlookup_iff cache.entries.nodupKeys).mpr (List.argmin_mem hmin)
  unfold remove
  simp only [hlookup]
  exact (entries_sum hlookup).2.symm

theorem evict_budgeted {turns : Nat} (hturns : cache.entries.entries.length ≤ turns)
    (h : cache.memoryBytes = (cache.entries.entries.map (·.2.memoryBytes)).sum) : (cache.evict turns).Budgeted := by
  induction turns generalizing cache with
  | zero =>
    rw [List.length_eq_zero_iff.mp (Nat.le_zero.mp hturns)] at h
    exact ⟨by rw [evict, h, List.length_eq_zero_iff.mp (Nat.le_zero.mp hturns)], by rw [evict, h]; exact Nat.zero_le _⟩
  | succ turns ih =>
    rw [evict]
    split
    next hover =>
      cases holdest : cache.oldest with
      | none =>
        have hnil : cache.entries.entries = [] := List.argmin_eq_none.mp (Option.map_eq_none_iff.mp holdest)
        rw [hnil] at h
        rw [h] at hover
        exact absurd hover (Nat.not_lt_zero _)
      | some key =>
        have hshorter := oldest_mem holdest
        exact ih (by omega) (remove_counted h)
    next hfits => exact ⟨h, Nat.not_lt.mp hfits⟩

theorem get_budgeted (h : cache.Budgeted) : (cache.get key).2.Budgeted := by
  unfold get
  cases hentry : cache.entries.lookup key with
  | none => exact ⟨h.counted, h.within⟩
  | some entry =>
    refine ⟨?_, h.within⟩
    have hsum := (entries_sum hentry).1
    dsimp only
    rw [h.counted, hsum, AList.entries_insert, List.map_cons, List.sum_cons]
    rfl

/-- An insertion evicts until the cache is within its budget again. -/
theorem insert_budgeted {sizes : DecodedSizes} (h : cache.Budgeted) : (cache.insert sizes key block).Budgeted := by
  unfold insert
  dsimp only
  split
  · exact h
  · refine evict_budgeted le_rfl ?_
    have hkept := @remove_counted _ key h.counted
    have hnone : (cache.remove key).entries.lookup key = none := by
      by_contra hsome
      obtain ⟨entry, hentry⟩ := Option.ne_none_iff_exists'.mp hsome
      exact (@remove_blockAt cache key key entry.block (by rw [blockAt, hentry]; rfl)).1 rfl
    rw [AList.entries_insert_of_notMem (AList.lookup_eq_none.mp hnone), List.map_cons, List.sum_cons, ← hkept,
      Nat.add_comm]

end Budget

end DecodedBlockCache

end LogicConduit
