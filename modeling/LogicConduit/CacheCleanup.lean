import Mathlib.Data.List.Dedup
import LogicConduit.StableSort
import LogicConduit.WordIndexFile

namespace LogicConduit

def hexValue (c : Char) : Option Nat :=
  if '0' ≤ c ∧ c ≤ '9' then some (c.toNat - 48)
  else if 'a' ≤ c ∧ c ≤ 'f' then some (c.toNat - 97 + 10)
  else if 'A' ≤ c ∧ c ≤ 'F' then some (c.toNat - 65 + 10)
  else none

def parseHexPairs : List Char → Option Bytes
  | [] => some []
  | [_] => none
  | high :: low :: rest =>
    match hexValue high, hexValue low with
    | some h, some l => (parseHexPairs rest).map (UInt8.ofNat (16 * h + l) :: ·)
    | _, _ => none

def CacheKey.ofBytes (bytes : Bytes) : Option CacheKey :=
  if h : bytes.length = 32 then some ⟨bytes, h⟩ else none

def parseHexKey (value : List Char) : Option CacheKey :=
  if value.length ≠ 64 then none else (parseHexPairs value).bind CacheKey.ofBytes

/-- `strip_prefix`. -/
def stripStart (start text : String) : Option (List Char) :=
  if start.toList <+: text.toList then some (text.toList.drop start.toList.length) else none

theorem hexValue_hexDigit {value : Nat} (h : value < 16) : hexValue (hexDigit value) = some value := by
  have hall : ∀ value < 16, hexValue (hexDigit value) = some value := by decide
  exact hall value h

theorem parseHexPairs_hexKey (bytes : Bytes) :
    parseHexPairs (bytes.flatMap fun byte => hexString 2 byte.toNat) = some bytes := by
  induction bytes with
  | nil => rfl
  | cons byte bytes ih =>
    have hbyte := byte.toNat_lt
    have hdigits : hexString 2 byte.toNat = [hexDigit (byte.toNat / 16), hexDigit (byte.toNat % 16)] := by
      simp only [hexString, Nat.pow_one, Nat.pow_zero, Nat.div_one]
      rw [Nat.mod_eq_of_lt (show byte.toNat / 16 < 16 by omega)]
    have hhigh := hexValue_hexDigit (show byte.toNat / 16 < 16 by omega)
    have hlow := hexValue_hexDigit (show byte.toNat % 16 < 16 by omega)
    have hsum : 16 * (byte.toNat / 16) + byte.toNat % 16 = byte.toNat := by omega
    rw [List.flatMap_cons, hdigits]
    simp only [List.cons_append, List.nil_append, parseHexPairs, hhigh, hlow, ih, hsum, Option.map_some,
      UInt8.ofNat_toNat]

theorem hexKey_length (bytes : Bytes) : (hexKey bytes).toList.length = 2 * bytes.length := by
  rw [hexKey, String.toList_ofList, List.length_flatMap]
  simp [hexString, Nat.mul_comm]

theorem parseHexKey_hexKey (key : CacheKey) : parseHexKey (hexKey key.bytes).toList = some key := by
  have hlength := hexKey_length key.bytes
  rw [key.length] at hlength
  rw [parseHexKey, if_neg (by omega), hexKey, String.toList_ofList, parseHexPairs_hexKey]
  exact dif_pos key.length

theorem stripStart_append (start rest : String) : stripStart start (start ++ rest) = some rest.toList := by
  rw [stripStart, String.toList_append, if_pos (List.prefix_append _ _), List.drop_left]

def CacheKey.Owns (key : CacheKey) (artifact : ArtifactKey) : Prop :=
  artifact = key.manifest ∨ artifact = key.index ∨ artifact.nameSpace = blockNamespace key.bytes ∨
    artifact.nameSpace = segmentNamespace key.bytes

instance (key : CacheKey) (artifact : ArtifactKey) : Decidable (key.Owns artifact) :=
  inferInstanceAs (Decidable (_ ∨ _))

def namespaceKey (nameSpace : String) : Option CacheKey :=
  ((stripStart blockNamespacePrefix nameSpace).or (stripStart segmentNamespacePrefix nameSpace)).bind parseHexKey

def artifactOwner (artifact : ArtifactKey) : Option CacheKey :=
  if artifact.nameSpace = manifestNamespace ∨ artifact.nameSpace = indexNamespace then
    CacheKey.ofBytes artifact.identity
  else namespaceKey artifact.nameSpace

theorem ofBytes_bytes (key : CacheKey) : CacheKey.ofBytes key.bytes = some key := dif_pos key.length

variable {key : CacheKey}

theorem ofBytes_eq_some {bytes : Bytes} (h : CacheKey.ofBytes bytes = some key) :
    key.bytes = bytes := by
  rw [CacheKey.ofBytes] at h
  split at h
  · cases h
    rfl
  · cases h

theorem not_prefix_append {start other : String} (rest : String) (hle : start.toList.length ≤ other.toList.length)
    (h : ¬start.toList <+: other.toList) : ¬start.toList <+: (other ++ rest).toList := by
  intro hlonger
  rw [String.toList_append] at hlonger
  exact h (List.prefix_of_prefix_length_le hlonger (List.prefix_append _ _) hle)

theorem namespaceKey_block (key : CacheKey) : namespaceKey (blockNamespace key.bytes) = some key := by
  rw [namespaceKey, blockNamespace, stripStart_append]
  exact parseHexKey_hexKey key

theorem namespaceKey_segment (key : CacheKey) : namespaceKey (segmentNamespace key.bytes) = some key := by
  have hother : stripStart blockNamespacePrefix (segmentNamespace key.bytes) = none :=
    if_neg (not_prefix_append (hexKey key.bytes) (by decide) (by decide))
  rw [namespaceKey, hother, segmentNamespace, stripStart_append]
  exact parseHexKey_hexKey key

theorem append_ne {start other : String} (rest : String) (h : ¬start.toList <+: other.toList) :
    start ++ rest ≠ other := by
  intro heq
  apply h
  rw [← heq, String.toList_append]
  exact List.prefix_append _ _

theorem removeCacheArtifacts_eq (key : CacheKey) (repository : Repository) (artifact : ArtifactKey) :
    removeCacheArtifacts key repository artifact = if key.Owns artifact then none else repository artifact := by
  simp only [removeCacheArtifacts, Repository.remove, decide_eq_true_eq]
  exact if_congr Iff.rfl rfl rfl

variable {artifact : ArtifactKey}

theorem CacheKey.Owns.owner (h : key.Owns artifact) : artifactOwner artifact = some key := by
  rcases h with rfl | rfl | hblock | hsegment
  · exact (if_pos (Or.inl rfl)).trans (ofBytes_bytes key)
  · exact (if_pos (Or.inr rfl)).trans (ofBytes_bytes key)
  · have hmanifest : blockNamespace key.bytes ≠ manifestNamespace := append_ne _ (by decide)
    have hindex : blockNamespace key.bytes ≠ indexNamespace := append_ne _ (by decide)
    rw [artifactOwner, hblock, if_neg (by simp [hmanifest, hindex]), namespaceKey_block]
  · have hmanifest : segmentNamespace key.bytes ≠ manifestNamespace := append_ne _ (by decide)
    have hindex : segmentNamespace key.bytes ≠ indexNamespace := append_ne _ (by decide)
    rw [artifactOwner, hsegment, if_neg (by simp [hmanifest, hindex]), namespaceKey_segment]

theorem CacheKey.Owns.unique {key other : CacheKey} (h : key.Owns artifact) (hother : other.Owns artifact) :
    key = other :=
  Option.some.inj (h.owner.symm.trans hother.owner)

structure ListedRepository where
  contents : Repository
  keys : List ArtifactKey
  nodup : keys.Nodup
  listed : ∀ key, key ∈ keys ↔ contents key ≠ none

structure PersistentCacheEntrySnapshot where
  totalBytes : Nat
  dataBytes : Nat
  indexBytes : Nat
  wordCount : Nat
  blockCount : Nat
  firstTimestampNs : Option UInt64
  lastTimestampNs : Option UInt64
  deriving DecidableEq

structure PersistentCacheStats where
  entries : Nat
  totalBytes : Nat
  removedEntries : Nat
  removedBytes : Nat
  deriving DecidableEq

/-- A generation that can be opened: the time of its last access, its key and its size. -/
structure CacheEntry where
  accessedUnixNs : Nat
  cacheKey : CacheKey
  bytes : Nat
  deriving DecidableEq

def readManifest (checksum : BlockChecksum) (key : CacheKey) (repository : Repository) :
    StoreResult (Option Manifest) :=
  match repository key.manifest with
  | none => .ok none
  | some bytes => (decodeManifest checksum bytes).map some

def inspectIndex (checksum : BlockChecksum) (key : CacheKey) (manifest : Manifest) (indexBytes : Bytes) :
    StoreResult PersistentCacheEntrySnapshot := do
  if indexBytes.length ≠ manifest.indexLen then persistentError "persistent index length mismatch"
  let index ← decodeIndex checksum indexBytes key.bytes
  validatePersistentGeneration key manifest index
  return {
    totalBytes := saturatingAdd (saturatingAdd index.committedDataLen indexBytes.length) manifestSize
    dataBytes := index.committedDataLen
    indexBytes := indexBytes.length
    wordCount := index.committedWordCount
    blockCount := index.directory.length
    firstTimestampNs := index.firstTimestampNs
    lastTimestampNs := index.lastTimestampNs }

def inspectCacheEntry (checksum : BlockChecksum) (key : CacheKey) (repository : Repository) :
    StoreResult (Option PersistentCacheEntrySnapshot) :=
  match readManifest checksum key repository with
  | .error error => .error error
  | .ok none => .ok none
  | .ok (some manifest) =>
    match repository key.index with
    | none =>
      let nameSpace := indexNamespace
      persistentError s!"required artifact in '{nameSpace}' is missing"
    | some indexBytes => (inspectIndex checksum key manifest indexBytes).map some

namespace ListedRepository

variable (repository : ListedRepository)

def lengthOf (artifact : ArtifactKey) : Nat := ((repository.contents artifact).map List.length).getD 0

/-- `remove_cache_artifacts`: what is left, and the bytes that are gone. -/
def removeKey (key : CacheKey) : ListedRepository × Nat :=
  ({ contents := removeCacheArtifacts key repository.contents
     keys := repository.keys.filter fun artifact => ¬key.Owns artifact
     nodup := repository.nodup.filter _
     listed := by
       intro artifact
       rw [List.mem_filter, repository.listed, removeCacheArtifacts_eq]
       by_cases howns : key.Owns artifact
       · simp [howns]
       · simp [howns] },
    ((repository.keys.filter fun artifact => key.Owns artifact).map repository.lengthOf).foldl saturatingAdd 0)

def entries (nameSpace : String) : List ArtifactKey :=
  repository.keys.filter fun artifact => artifact.nameSpace = nameSpace

def keysIn (nameSpace : String) : List CacheKey :=
  (repository.entries nameSpace).filterMap fun artifact => CacheKey.ofBytes artifact.identity

def allCacheKeys : List CacheKey :=
  (repository.keysIn manifestNamespace ++ repository.keysIn indexNamespace ++
    (repository.keys.map ArtifactKey.nameSpace).filterMap namespaceKey).dedup

end ListedRepository

/-- `cleanup_cache` between two removals; `evicted` lists what the last pass removes, in its order. -/
structure CacheCleanup where
  repository : ListedRepository
  stats : PersistentCacheStats
  entries : List CacheEntry
  evicted : List CacheEntry

namespace CacheCleanup

def start (repository : ListedRepository) : CacheCleanup := ⟨repository, ⟨0, 0, 0, 0⟩, [], []⟩

def discard (cleanup : CacheCleanup) (key : CacheKey) : CacheCleanup :=
  { cleanup with
    repository := (cleanup.repository.removeKey key).1
    stats := { cleanup.stats with
      removedEntries := cleanup.stats.removedEntries + 1
      removedBytes := saturatingAdd cleanup.stats.removedBytes (cleanup.repository.removeKey key).2 } }

def keep (cleanup : CacheCleanup) (entry : CacheEntry) : CacheCleanup :=
  { cleanup with
    stats := { cleanup.stats with
      entries := cleanup.stats.entries + 1
      totalBytes := saturatingAdd cleanup.stats.totalBytes entry.bytes }
    entries := cleanup.entries ++ [entry] }

/-- The first pass: generations that cannot be opened are removed. -/
def inspectLoop (checksum : BlockChecksum) : List CacheKey → CacheCleanup → StoreResult CacheCleanup
  | [], cleanup => .ok cleanup
  | key :: keys, cleanup =>
    match inspectCacheEntry checksum key cleanup.repository.contents with
    | .ok (some snapshot) =>
      match readManifest checksum key cleanup.repository.contents with
      | .error error => .error error
      | .ok none => persistentError "listed manifest disappeared"
      | .ok (some manifest) =>
        inspectLoop checksum keys (cleanup.keep ⟨manifest.accessedUnixNs, key, snapshot.totalBytes⟩)
    | .ok none => inspectLoop checksum keys cleanup
    | .error _ => inspectLoop checksum keys (cleanup.discard key)

/-- The second pass: artifacts whose key has no manifest are removed. -/
def unpublishedLoop (published : List CacheKey) : List CacheKey → CacheCleanup → CacheCleanup
  | [], cleanup => cleanup
  | key :: keys, cleanup =>
    if key ∈ published then unpublishedLoop published keys cleanup
    else if 0 < (cleanup.repository.removeKey key).2 then unpublishedLoop published keys (cleanup.discard key)
    else unpublishedLoop published keys { cleanup with repository := (cleanup.repository.removeKey key).1 }

def evict (cleanup : CacheCleanup) (entry : CacheEntry) : CacheCleanup :=
  { cleanup with
    repository := (cleanup.repository.removeKey entry.cacheKey).1
    stats :=
      { entries := cleanup.stats.entries - 1
        totalBytes := cleanup.stats.totalBytes - entry.bytes
        removedEntries := cleanup.stats.removedEntries + 1
        removedBytes := saturatingAdd cleanup.stats.removedBytes entry.bytes }
    evicted := cleanup.evicted ++ [entry] }

/-- The third pass, over the entries in the order of their last access. -/
def evictLoop (maxTotalBytes : Nat) (pinnedKeys : List CacheKey) : List CacheEntry → CacheCleanup → CacheCleanup
  | [], cleanup => cleanup
  | entry :: entries, cleanup =>
    if cleanup.stats.totalBytes ≤ maxTotalBytes then cleanup
    else if entry.cacheKey ∈ pinnedKeys then evictLoop maxTotalBytes pinnedKeys entries cleanup
    else evictLoop maxTotalBytes pinnedKeys entries (cleanup.evict entry)

end CacheCleanup

def cleanupCache (checksum : BlockChecksum) (repository : ListedRepository) (maxTotalBytes : Nat)
    (pinnedKeys : List CacheKey) : StoreResult CacheCleanup := do
  let published := repository.keysIn manifestNamespace
  let inspected ← CacheCleanup.inspectLoop checksum published (.start repository)
  let cleaned := CacheCleanup.unpublishedLoop published inspected.repository.allCacheKeys inspected
  if cleaned.stats.totalBytes ≤ maxTotalBytes then return cleaned
  else return CacheCleanup.evictLoop maxTotalBytes pinnedKeys (sortBy CacheEntry.accessedUnixNs cleaned.entries) cleaned

structure Drops (gone : CacheKey → Prop) (before after : Repository) : Prop where
  removed : ∀ key artifact, gone key → key.Owns artifact → after artifact = none
  others : ∀ artifact, (∀ key, gone key → ¬key.Owns artifact) → after artifact = before artifact

namespace Drops

variable {gone more : CacheKey → Prop} {before middle after : Repository}

theorem refl (before : Repository) : Drops (fun _ => False) before before :=
  ⟨fun _ _ h => h.elim, fun _ _ => rfl⟩

theorem trans (first : Drops gone before middle) (second : Drops more middle after) :
    Drops (fun key => gone key ∨ more key) before after where
  removed := by
    rintro key artifact (hgone | hmore) howns
    · by_cases hagain : ∃ other, more other ∧ other.Owns artifact
      · obtain ⟨other, hother, hagain⟩ := hagain
        exact second.removed other artifact hother hagain
      · rw [second.others artifact fun other hother hagain' => hagain ⟨other, hother, hagain'⟩]
        exact first.removed key artifact hgone howns
    · exact second.removed key artifact hmore howns
  others := by
    intro artifact h
    rw [second.others artifact fun key hkey => h key (Or.inr hkey),
      first.others artifact fun key hkey => h key (Or.inl hkey)]

theorem congr (h : Drops gone before after) (hsame : ∀ key, gone key ↔ more key) : Drops more before after :=
  ⟨fun key artifact hkey => h.removed key artifact ((hsame key).mpr hkey),
    fun artifact hother => h.others artifact fun key hkey => hother key ((hsame key).mp hkey)⟩

theorem removeKey (repository : ListedRepository) (key : CacheKey) :
    Drops (fun other => other = key) repository.contents (repository.removeKey key).1.contents where
  removed := by
    rintro other artifact rfl howns
    exact (removeCacheArtifacts_eq other repository.contents artifact).trans (if_pos howns)
  others := by
    intro artifact h
    exact (removeCacheArtifacts_eq key repository.contents artifact).trans (if_neg (h key rfl))

theorem kept (h : Drops gone before after) (hkey : ¬gone key) (howns : key.Owns artifact) :
    after artifact = before artifact := by
  apply h.others
  intro other hother hagain
  rw [howns.unique hagain] at hkey
  exact hkey hother

theorem widen (h : Drops gone before after) (hgone : ∀ key, gone key → more key)
    (hmore : ∀ key artifact, more key → ¬gone key → key.Owns artifact → before artifact = none) :
    Drops more before after where
  removed := by
    intro key artifact hkey howns
    by_cases hremoved : gone key
    · exact h.removed key artifact hremoved howns
    · exact (h.kept hremoved howns).trans (hmore key artifact hkey hremoved howns)
  others := fun artifact hother => h.others artifact fun key hkey => hother key (hgone key hkey)

end Drops

theorem owns_manifest (key : CacheKey) : key.Owns key.manifest := Or.inl rfl

theorem owns_index (key : CacheKey) : key.Owns key.index := Or.inr (Or.inl rfl)

variable {entry : CacheEntry}

section Inspection

variable {checksum : BlockChecksum} {key : CacheKey} {base repository : Repository}

theorem inspectCacheEntry_congr (hmanifest : repository key.manifest = base key.manifest)
    (hindex : repository key.index = base key.index) :
    inspectCacheEntry checksum key repository = inspectCacheEntry checksum key base ∧
      readManifest checksum key repository = readManifest checksum key base := by
  simp only [inspectCacheEntry, readManifest, hmanifest, hindex, and_self]

def entryOf (checksum : BlockChecksum) (base : Repository) (key : CacheKey) : Option CacheEntry :=
  match inspectCacheEntry checksum key base, readManifest checksum key base with
  | .ok (some snapshot), .ok (some manifest) => some ⟨manifest.accessedUnixNs, key, snapshot.totalBytes⟩
  | _, _ => none

def Fails (checksum : BlockChecksum) (base : Repository) (key : CacheKey) : Prop :=
  ∃ error, inspectCacheEntry checksum key base = .error error

variable {snapshot : PersistentCacheEntrySnapshot}

theorem readManifest_of_inspect (h : inspectCacheEntry checksum key base = .ok (some snapshot)) :
    ∃ manifest, readManifest checksum key base = .ok (some manifest) := by
  unfold inspectCacheEntry at h
  split at h
  · cases h
  · cases h
  next manifest hread => exact ⟨manifest, hread⟩

theorem inspect_none_iff : inspectCacheEntry checksum key base = .ok none ↔ base key.manifest = none := by
  constructor
  · intro h
    unfold inspectCacheEntry at h
    split at h
    · cases h
    next hread =>
      unfold readManifest at hread
      split at hread
      next hmissing => exact hmissing
      next bytes _ =>
        cases hdecode : decodeManifest checksum bytes with
        | error error =>
          rw [hdecode] at hread
          cases hread
        | ok manifest =>
          rw [hdecode] at hread
          cases hread
    next manifest hread =>
      split at h
      · cases h
      next indexBytes _ =>
        cases hindex : inspectIndex checksum key manifest indexBytes with
        | error error =>
          rw [hindex] at h
          cases h
        | ok snapshot =>
          rw [hindex] at h
          cases h
  · intro h
    simp only [inspectCacheEntry, readManifest, h]

theorem manifest_of_fails (h : Fails checksum base key) : base key.manifest ≠ none := by
  intro hmissing
  obtain ⟨error, herror⟩ := h
  rw [inspect_none_iff.mpr hmissing] at herror
  cases herror

theorem entryOf_eq_some (h : entryOf checksum base key = some entry) :
    entry.cacheKey = key ∧ ∃ snapshot, inspectCacheEntry checksum key base = .ok (some snapshot) := by
  unfold entryOf at h
  split at h
  next snapshot _ hinspect _ =>
    cases h
    exact ⟨rfl, snapshot, hinspect⟩
  · cases h

theorem entryOf_of_inspect (h : inspectCacheEntry checksum key base = .ok (some snapshot)) :
    ∃ manifest, readManifest checksum key base = .ok (some manifest) ∧
      entryOf checksum base key = some ⟨manifest.accessedUnixNs, key, snapshot.totalBytes⟩ := by
  obtain ⟨manifest, hmanifest⟩ := readManifest_of_inspect h
  refine ⟨manifest, hmanifest, ?_⟩
  rw [entryOf, h, hmanifest]

end Inspection

def saturatedTotal (entries : List CacheEntry) (total : Nat) : Nat :=
  entries.foldl (fun total entry => saturatingAdd total entry.bytes) total

namespace CacheCleanup

variable {checksum : BlockChecksum} {base : Repository}

theorem inspectLoop_spec {keys : List CacheKey} {cleanup : CacheCleanup} (hnodup : keys.Nodup)
    (hbase : ∀ key ∈ keys, cleanup.repository.contents key.manifest = base key.manifest ∧
      cleanup.repository.contents key.index = base key.index) :
    ∃ after, inspectLoop checksum keys cleanup = .ok after ∧
      Drops (fun key => key ∈ keys ∧ Fails checksum base key) cleanup.repository.contents after.repository.contents ∧
      after.entries = cleanup.entries ++ keys.filterMap (entryOf checksum base) ∧
      after.stats.totalBytes = saturatedTotal (keys.filterMap (entryOf checksum base)) cleanup.stats.totalBytes ∧
      after.evicted = cleanup.evicted := by
  induction keys generalizing cleanup with
  | nil =>
    refine ⟨cleanup, rfl, (Drops.refl _).congr ?_, (List.append_nil _).symm, rfl, rfl⟩
    simp
  | cons key keys ih =>
    obtain ⟨hfresh, hrest⟩ := List.nodup_cons.mp hnodup
    obtain ⟨hmanifest, hindex⟩ := hbase key List.mem_cons_self
    obtain ⟨hinspect, hread⟩ := @inspectCacheEntry_congr checksum _ _ _ hmanifest hindex
    have hlater : ∀ other ∈ keys, cleanup.repository.contents other.manifest = base other.manifest ∧
        cleanup.repository.contents other.index = base other.index :=
      fun other hother => hbase other (List.mem_cons_of_mem key hother)
    rw [inspectLoop, hinspect, hread]
    cases hresult : inspectCacheEntry checksum key base with
    | error error =>
      have hnone : entryOf checksum base key = none := by rw [entryOf, hresult]
      have hdrop := Drops.removeKey cleanup.repository key
      have hkept : ∀ other ∈ keys, (cleanup.discard key).repository.contents other.manifest = base other.manifest ∧
          (cleanup.discard key).repository.contents other.index = base other.index := by
        intro other hother
        have hne : ¬other = key := fun heq => hfresh (heq ▸ hother)
        exact ⟨(hdrop.kept hne (owns_manifest other)).trans (hlater other hother).1,
          (hdrop.kept hne (owns_index other)).trans (hlater other hother).2⟩
      obtain ⟨after, hloop, hafter, hentries, htotal, hevicted⟩ := ih hrest hkept
      refine ⟨after, hloop, (hdrop.trans hafter).congr ?_, ?_, ?_, hevicted⟩
      · intro other
        constructor
        · rintro (rfl | ⟨hother, hfails⟩)
          · exact ⟨List.mem_cons_self, error, hresult⟩
          · exact ⟨List.mem_cons_of_mem _ hother, hfails⟩
        · rintro ⟨hother, hfails⟩
          rcases List.mem_cons.mp hother with heq | hother
          · exact Or.inl heq
          · exact Or.inr ⟨hother, hfails⟩
      · rw [hentries, List.filterMap_cons_none hnone]
        rfl
      · rw [htotal, List.filterMap_cons_none hnone]
        rfl
    | ok result =>
      have hsound : ¬Fails checksum base key := by
        rintro ⟨error, herror⟩
        rw [hresult] at herror
        cases herror
      have hsame : ∀ other, (other ∈ keys ∧ Fails checksum base other) ↔
          (other ∈ key :: keys ∧ Fails checksum base other) := by
        intro other
        rw [List.mem_cons]
        refine and_congr_left fun hfails => ⟨Or.inr, ?_⟩
        rintro (rfl | hother)
        · exact absurd hfails hsound
        · exact hother
      cases result with
      | none =>
        have hnone : entryOf checksum base key = none := by rw [entryOf, hresult]
        obtain ⟨after, hloop, hafter, hentries, htotal, hevicted⟩ := ih hrest hlater
        refine ⟨after, hloop, hafter.congr hsame, ?_, ?_, hevicted⟩
        · rw [hentries, List.filterMap_cons_none hnone]
        · rw [htotal, List.filterMap_cons_none hnone]
      | some snapshot =>
        obtain ⟨manifest, hmanifest, hentry⟩ := entryOf_of_inspect hresult
        rw [hmanifest]
        obtain ⟨after, hloop, hafter, hentries, htotal, hevicted⟩ :=
          @ih (cleanup.keep ⟨manifest.accessedUnixNs, key, snapshot.totalBytes⟩) hrest hlater
        refine ⟨after, hloop, hafter.congr hsame, ?_, ?_, hevicted⟩
        · rw [hentries, List.filterMap_cons_some hentry]
          exact List.append_assoc _ _ _
        · rw [htotal, List.filterMap_cons_some hentry]
          rfl

theorem unpublishedLoop_spec {published keys : List CacheKey} {cleanup : CacheCleanup} :
    Drops (fun key => key ∈ keys ∧ key ∉ published) cleanup.repository.contents
        (unpublishedLoop published keys cleanup).repository.contents ∧
      (unpublishedLoop published keys cleanup).entries = cleanup.entries ∧
      (unpublishedLoop published keys cleanup).stats.totalBytes = cleanup.stats.totalBytes ∧
      (unpublishedLoop published keys cleanup).evicted = cleanup.evicted := by
  induction keys generalizing cleanup with
  | nil =>
    refine ⟨(Drops.refl _).congr ?_, rfl, rfl, rfl⟩
    simp
  | cons key keys ih =>
    have hgone : key ∉ published → ∀ other, (other = key ∨ other ∈ keys ∧ other ∉ published) ↔
        (other ∈ key :: keys ∧ other ∉ published) := by
      intro hkey other
      rw [List.mem_cons]
      constructor
      · rintro (rfl | ⟨hother, hnew⟩)
        · exact ⟨Or.inl rfl, hkey⟩
        · exact ⟨Or.inr hother, hnew⟩
      · rintro ⟨rfl | hother, hnew⟩
        · exact Or.inl rfl
        · exact Or.inr ⟨hother, hnew⟩
    have hdrop := Drops.removeKey cleanup.repository key
    rw [unpublishedLoop]
    split
    next hpublished =>
      obtain ⟨hafter, hsame⟩ := @ih cleanup
      refine ⟨hafter.congr ?_, hsame⟩
      intro other
      rw [List.mem_cons]
      refine and_congr_left fun hnew => ⟨Or.inr, ?_⟩
      rintro (rfl | hother)
      · exact absurd hpublished hnew
      · exact hother
    next hpublished =>
      split
      · obtain ⟨hafter, hsame⟩ := @ih (cleanup.discard key)
        exact ⟨(hdrop.trans hafter).congr (hgone hpublished), hsame⟩
      · obtain ⟨hafter, hsame⟩ := @ih { cleanup with repository := (cleanup.repository.removeKey key).1 }
        exact ⟨(hdrop.trans hafter).congr (hgone hpublished), hsame⟩

theorem evictLoop_spec {maxTotalBytes : Nat} {pinnedKeys : List CacheKey} {entries : List CacheEntry}
    {cleanup : CacheCleanup} :
    ∃ evicted, (evictLoop maxTotalBytes pinnedKeys entries cleanup).evicted = cleanup.evicted ++ evicted ∧
      evicted <+: entries.filter (fun entry => entry.cacheKey ∉ pinnedKeys) ∧
      (∀ before entry after, evicted = before ++ entry :: after →
        maxTotalBytes < cleanup.stats.totalBytes - (before.map CacheEntry.bytes).sum) ∧
      ((evictLoop maxTotalBytes pinnedKeys entries cleanup).stats.totalBytes ≤ maxTotalBytes ∨
        evicted = entries.filter (fun entry => entry.cacheKey ∉ pinnedKeys)) ∧
      Drops (fun key => ∃ entry ∈ evicted, entry.cacheKey = key) cleanup.repository.contents
        (evictLoop maxTotalBytes pinnedKeys entries cleanup).repository.contents := by
  induction entries generalizing cleanup with
  | nil =>
    refine ⟨[], (List.append_nil _).symm, List.nil_prefix, ?_, Or.inr rfl, (Drops.refl _).congr ?_⟩
    · intro before entry after h
      exact absurd h.symm (List.append_ne_nil_of_right_ne_nil _ (List.cons_ne_nil _ _))
    · simp
  | cons entry entries ih =>
    rw [evictLoop]
    split
    next hwithin =>
      refine ⟨[], (List.append_nil _).symm, List.nil_prefix, ?_, Or.inl hwithin, (Drops.refl _).congr ?_⟩
      · intro before other after h
        exact absurd h.symm (List.append_ne_nil_of_right_ne_nil _ (List.cons_ne_nil _ _))
      · simp
    next hexceeds =>
      split
      next hpinned =>
        rw [List.filter_cons_of_neg (by simpa using hpinned)]
        exact ih
      next hunpinned =>
        rw [List.filter_cons_of_pos (by simpa using hunpinned)]
        obtain ⟨evicted, hevicted, hfirsts, htotal, hdone, hdrop⟩ := @ih (cleanup.evict entry)
        refine ⟨entry :: evicted, ?_, (List.prefix_cons_inj entry).mpr hfirsts, ?_, ?_, ?_⟩
        · rw [hevicted]
          exact List.append_assoc _ _ _
        · intro before other after h
          cases before with
          | nil => exact not_le.mp hexceeds
          | cons first before =>
            obtain ⟨rfl, hafter⟩ := List.cons.inj h
            have hrest := htotal before other after hafter
            rw [List.map_cons, List.sum_cons, ← Nat.sub_sub]
            exact hrest
        · exact hdone.imp_right fun hall => congrArg (entry :: ·) hall
        · refine ((Drops.removeKey cleanup.repository entry.cacheKey).trans hdrop).congr ?_
          intro key
          rw [List.exists_mem_cons_iff]
          exact or_congr_left eq_comm

theorem evictLoop_within {maxTotalBytes : Nat} {cleanup : CacheCleanup} (pinnedKeys : List CacheKey)
    (entries : List CacheEntry) (h : cleanup.stats.totalBytes ≤ maxTotalBytes) :
    evictLoop maxTotalBytes pinnedKeys entries cleanup = cleanup := by
  cases entries with
  | nil => rfl
  | cons entry entries => exact if_pos h

end CacheCleanup

theorem saturatedTotal_le (entries : List CacheEntry) (total : Nat) :
    saturatedTotal entries total ≤ total + (entries.map CacheEntry.bytes).sum := by
  induction entries generalizing total with
  | nil => exact Nat.le_refl _
  | cons entry entries ih =>
    have hstep : saturatingAdd total entry.bytes ≤ total + entry.bytes := min_le_left _ _
    have hrest := ih (saturatingAdd total entry.bytes)
    rw [List.map_cons, List.sum_cons]
    calc saturatedTotal (entry :: entries) total
        ≤ saturatingAdd total entry.bytes + (entries.map CacheEntry.bytes).sum := hrest
      _ ≤ total + (entry.bytes + (entries.map CacheEntry.bytes).sum) := by omega

namespace ListedRepository

variable (repository : ListedRepository)

theorem mem_keysIn {nameSpace : String} :
    key ∈ repository.keysIn nameSpace ↔ repository.contents ⟨nameSpace, key.bytes⟩ ≠ none := by
  rw [← repository.listed, keysIn, List.mem_filterMap]
  constructor
  · rintro ⟨artifact, hartifact, hkey⟩
    obtain ⟨hlisted, hspace⟩ := List.mem_filter.mp hartifact
    have hmatch : artifact = ⟨nameSpace, key.bytes⟩ :=
      congrArg₂ ArtifactKey.mk (of_decide_eq_true hspace) (ofBytes_eq_some hkey).symm
    exact hmatch ▸ hlisted
  · intro h
    exact ⟨_, List.mem_filter.mpr ⟨h, decide_eq_true rfl⟩, ofBytes_bytes key⟩

theorem nodup_keysIn (nameSpace : String) : (repository.keysIn nameSpace).Nodup := by
  have hnodup : (repository.entries nameSpace).Nodup := repository.nodup.filter _
  refine List.pairwise_filterMap.mpr (hnodup.imp_of_mem ?_)
  intro a b ha hb hne key hkey other hother heq
  have hspace : a.nameSpace = b.nameSpace :=
    (of_decide_eq_true (List.mem_filter.mp ha).2).trans (of_decide_eq_true (List.mem_filter.mp hb).2).symm
  have hidentity : a.identity = b.identity :=
    (ofBytes_eq_some hkey).symm.trans ((congrArg _ heq).trans (ofBytes_eq_some hother))
  exact hne (congrArg₂ ArtifactKey.mk hspace hidentity)

theorem mem_allCacheKeys (howns : key.Owns artifact) (hartifact : repository.contents artifact ≠ none) :
    key ∈ repository.allCacheKeys := by
  rw [allCacheKeys, List.mem_dedup, List.mem_append, List.mem_append, mem_keysIn, mem_keysIn, List.mem_filterMap]
  have hlisted := List.mem_map_of_mem (f := ArtifactKey.nameSpace) ((repository.listed artifact).mpr hartifact)
  rcases howns with rfl | rfl | hblock | hsegment
  · exact Or.inl (Or.inl hartifact)
  · exact Or.inl (Or.inr hartifact)
  · exact Or.inr ⟨_, hlisted, hblock ▸ namespaceKey_block key⟩
  · exact Or.inr ⟨_, hlisted, hsegment ▸ namespaceKey_segment key⟩

def generations (checksum : BlockChecksum) : List CacheEntry :=
  (repository.keysIn manifestNamespace).filterMap (entryOf checksum repository.contents)

theorem mem_generations {checksum : BlockChecksum} :
    entry ∈ repository.generations checksum ↔ entryOf checksum repository.contents entry.cacheKey = some entry := by
  rw [generations, List.mem_filterMap]
  constructor
  · rintro ⟨key, -, hentry⟩
    rw [(entryOf_eq_some hentry).1]
    exact hentry
  · intro h
    refine ⟨entry.cacheKey, repository.mem_keysIn.mpr ?_, h⟩
    intro hmissing
    obtain ⟨-, snapshot, hinspect⟩ := entryOf_eq_some h
    rw [inspect_none_iff.mpr hmissing] at hinspect
    cases hinspect

theorem manifest_of_generation {checksum : BlockChecksum} (h : entry ∈ repository.generations checksum) :
    repository.contents entry.cacheKey.manifest ≠ none := by
  obtain ⟨key, hkey, hentry⟩ := List.mem_filterMap.mp h
  rw [(entryOf_eq_some hentry).1]
  exact repository.mem_keysIn.mp hkey

end ListedRepository

section Cleanup

variable {checksum : BlockChecksum} {repository : ListedRepository} {maxTotalBytes : Nat} {pinnedKeys : List CacheKey}

/-- The unpinned generations in the order in which the last pass meets them. -/
def evictionOrder (pinnedKeys : List CacheKey) (entries : List CacheEntry) : List CacheEntry :=
  (sortBy CacheEntry.accessedUnixNs entries).filter fun entry => entry.cacheKey ∉ pinnedKeys

def Removed (checksum : BlockChecksum) (before : Repository) (evicted : List CacheEntry) (key : CacheKey) : Prop :=
  (Fails checksum before key ∨ before key.manifest = none) ∨ ∃ entry ∈ evicted, entry.cacheKey = key

theorem cleanupCache_spec :
    ∃ cleaned, cleanupCache checksum repository maxTotalBytes pinnedKeys = .ok cleaned ∧
      cleaned.evicted <+: evictionOrder pinnedKeys (repository.generations checksum) ∧
      (∀ before entry after, cleaned.evicted = before ++ entry :: after →
        maxTotalBytes < saturatedTotal (repository.generations checksum) 0 - (before.map CacheEntry.bytes).sum) ∧
      (cleaned.stats.totalBytes ≤ maxTotalBytes ∨
        cleaned.evicted = evictionOrder pinnedKeys (repository.generations checksum)) ∧
      Drops (Removed checksum repository.contents cleaned.evicted) repository.contents cleaned.repository.contents := by
  have hnodup := repository.nodup_keysIn manifestNamespace
  obtain ⟨inspected, hinspect, hfailed, hentries, htotal, hnone⟩ :=
    @CacheCleanup.inspectLoop_spec checksum repository.contents _ (.start repository) hnodup fun _ _ => ⟨rfl, rfl⟩
  obtain ⟨hunpublished, hentries', htotal', hnone'⟩ := @CacheCleanup.unpublishedLoop_spec
    (repository.keysIn manifestNamespace) inspected.repository.allCacheKeys inspected
  generalize hpublished : CacheCleanup.unpublishedLoop (repository.keysIn manifestNamespace)
    inspected.repository.allCacheKeys inspected = published at hunpublished hentries' htotal' hnone'
  have hgenerations : published.entries = repository.generations checksum := hentries'.trans hentries
  have hstart : published.stats.totalBytes = saturatedTotal (repository.generations checksum) 0 := htotal'.trans htotal
  obtain ⟨evicted, hevicted, hfirsts, hexceeds, hdone, hdrop⟩ := @CacheCleanup.evictLoop_spec maxTotalBytes pinnedKeys
    (sortBy CacheEntry.accessedUnixNs published.entries) published
  have hsame : (CacheCleanup.evictLoop maxTotalBytes pinnedKeys (sortBy CacheEntry.accessedUnixNs published.entries)
      published).evicted = evicted := hevicted.trans (congrArg (· ++ evicted) (hnone'.trans hnone))
  rw [hgenerations] at hfirsts hdone
  rw [hstart] at hexceeds
  have hmissing : ∀ key artifact, key ∉ repository.keysIn manifestNamespace →
      ¬(key ∈ inspected.repository.allCacheKeys ∧ key ∉ repository.keysIn manifestNamespace) →
      key.Owns artifact → inspected.repository.contents artifact = none := by
    intro key artifact hkey hunlisted howns
    by_contra hartifact
    exact hunlisted ⟨inspected.repository.mem_allCacheKeys howns hartifact, hkey⟩
  have hall := (hfailed.trans (hunpublished.widen (fun key hkey => hkey.2) hmissing)).trans hdrop
  refine ⟨_, ?_, ?_, ?_, ?_, hall.congr ?_⟩
  · simp only [cleanupCache]
    rw [hinspect]
    simp only [bind, Except.bind, hpublished]
    split
    next hwithin => rw [CacheCleanup.evictLoop_within _ _ hwithin]; rfl
    next => rfl
  · rw [hsame]
    exact hfirsts
  · rw [hsame]
    exact hexceeds
  · rw [hsame, hgenerations]
    exact hdone
  · intro key
    rw [hsame, Removed, repository.mem_keysIn.not, not_not]
    refine or_congr_left (or_congr_left ⟨And.right, fun hfails => ⟨repository.mem_keysIn.mpr ?_, hfails⟩⟩)
    exact manifest_of_fails hfails

/-- The last pass removes generations that are not pinned, the least recently used first, each one only while those
that are left exceed the budget. -/
structure EvictsInOrder (maxTotalBytes : Nat) (pinnedKeys : List CacheKey) (generations evicted : List CacheEntry) :
    Prop where
  unpinned : ∀ entry ∈ evicted, entry ∈ generations ∧ entry.cacheKey ∉ pinnedKeys
  ordered : evicted.Pairwise fun a b => a.accessedUnixNs ≤ b.accessedUnixNs
  oldest : ∀ entry ∈ evicted, ∀ other ∈ generations, other.cacheKey ∉ pinnedKeys → other ∉ evicted →
    entry.accessedUnixNs ≤ other.accessedUnixNs
  exceeds : ∀ before entry after, evicted = before ++ entry :: after →
    maxTotalBytes < ((generations.diff before).map CacheEntry.bytes).sum

theorem mem_evictionOrder {entries : List CacheEntry} :
    entry ∈ evictionOrder pinnedKeys entries ↔ entry ∈ entries ∧ entry.cacheKey ∉ pinnedKeys := by
  rw [evictionOrder, List.mem_filter, (sortBy_perm _ _).mem_iff, decide_eq_true_eq]

theorem evictsInOrder_of_prefix {entries evicted : List CacheEntry}
    (hfirsts : evicted <+: evictionOrder pinnedKeys entries)
    (hexceeds : ∀ before entry after, evicted = before ++ entry :: after →
      maxTotalBytes < saturatedTotal entries 0 - (before.map CacheEntry.bytes).sum) :
    EvictsInOrder maxTotalBytes pinnedKeys entries evicted := by
  obtain ⟨rest, hrest⟩ := hfirsts
  have hsorted : (evicted ++ rest).Pairwise fun a b => a.accessedUnixNs ≤ b.accessedUnixNs :=
    hrest ▸ (sortBy_sorted CacheEntry.accessedUnixNs entries).filter _
  obtain ⟨hordered, -, holdest⟩ := List.pairwise_append.mp hsorted
  refine ⟨?_, hordered, ?_, ?_⟩
  · intro entry hentry
    exact mem_evictionOrder.mp (hrest ▸ List.mem_append_left rest hentry)
  · intro entry hentry other hother hunpinned hkept
    have hmem : other ∈ evicted ++ rest := hrest ▸ mem_evictionOrder.mpr ⟨hother, hunpinned⟩
    exact holdest entry hentry other ((List.mem_append.mp hmem).resolve_left hkept)
  · intro before entry after h
    have hsub : before.Subperm entries := by
      apply List.Subperm.trans _ (sortBy_perm CacheEntry.accessedUnixNs entries).subperm
      apply List.Sublist.subperm
      calc before.Sublist evicted := h ▸ List.sublist_append_left before _
        _ |>.Sublist (evicted ++ rest) := List.sublist_append_left evicted rest
        _ |>.Sublist (sortBy CacheEntry.accessedUnixNs entries) := hrest ▸ List.filter_sublist
    have hperm : (before ++ entries.diff before).Perm entries :=
      List.subperm_append_diff_self_of_count_le fun x _ => hsub.count_le x
    have hsum := (hperm.map CacheEntry.bytes).sum_nat
    rw [List.map_append, List.sum_append] at hsum
    have htotal := saturatedTotal_le entries 0
    have hlarge := hexceeds before entry after h
    omega

theorem removed_iff_evicted {evicted : List CacheEntry}
    (hevicted : ∀ entry ∈ evicted, entry ∈ repository.generations checksum)
    (hentry : entry ∈ repository.generations checksum) :
    Removed checksum repository.contents evicted entry.cacheKey ↔ entry ∈ evicted := by
  constructor
  · rintro ((⟨error, herror⟩ | hmissing) | ⟨other, hother, hkey⟩)
    · obtain ⟨-, snapshot, hinspect⟩ := entryOf_eq_some (repository.mem_generations.mp hentry)
      rw [hinspect] at herror
      cases herror
    · exact absurd hmissing (repository.manifest_of_generation hentry)
    · have hfound := repository.mem_generations.mp (hevicted other hother)
      rw [hkey, repository.mem_generations.mp hentry] at hfound
      exact Option.some.inj hfound ▸ hother
  · intro h
    exact Or.inr ⟨entry, h, rfl⟩

/-- A cleanup spares the pinned keys exactly where none of them has a manifest that cannot be opened, or artifacts and
no manifest: the first two passes do not look at the pins. It always evicts in order, and what can be opened and is not
evicted keeps all of its artifacts; in the end the rest is within the budget or every generation is pinned. -/
theorem cleanup_respects_pins_and_budget (checksum : BlockChecksum) (repository : ListedRepository)
    (maxTotalBytes : Nat) (pinnedKeys : List CacheKey) :
    ∃ cleaned, cleanupCache checksum repository maxTotalBytes pinnedKeys = .ok cleaned ∧
      ((∀ key ∈ pinnedKeys, ∀ artifact, key.Owns artifact →
          cleaned.repository.contents artifact = repository.contents artifact) ↔
        ∀ key ∈ pinnedKeys, ¬Fails checksum repository.contents key ∧
          (repository.contents key.manifest = none →
            ∀ artifact, key.Owns artifact → repository.contents artifact = none)) ∧
      EvictsInOrder maxTotalBytes pinnedKeys (repository.generations checksum) cleaned.evicted ∧
      (∀ entry ∈ repository.generations checksum, entry ∉ cleaned.evicted → ∀ artifact, entry.cacheKey.Owns artifact →
        cleaned.repository.contents artifact = repository.contents artifact) ∧
      (cleaned.stats.totalBytes ≤ maxTotalBytes ∨
        ∀ entry ∈ cleaned.repository.generations checksum, entry.cacheKey ∈ pinnedKeys) := by
  obtain ⟨cleaned, hcleaned, hfirsts, hexceeds, hdone, hdrop⟩ :=
    @cleanupCache_spec checksum repository maxTotalBytes pinnedKeys
  have hevicts := evictsInOrder_of_prefix hfirsts hexceeds
  have hgenerations : ∀ entry ∈ cleaned.evicted, entry ∈ repository.generations checksum :=
    fun entry hentry => (hevicts.unpinned entry hentry).1
  refine ⟨cleaned, hcleaned, ⟨?_, ?_⟩, hevicts, ?_, ?_⟩
  · intro hspared key hkey
    constructor
    · intro hfails
      apply manifest_of_fails hfails
      rw [← hspared key hkey _ (owns_manifest key)]
      exact hdrop.removed key _ (Or.inl (Or.inl hfails)) (owns_manifest key)
    · intro hmissing artifact howns
      rw [← hspared key hkey artifact howns]
      exact hdrop.removed key artifact (Or.inl (Or.inr hmissing)) howns
  · intro hpins key hkey artifact howns
    obtain ⟨hsound, hempty⟩ := hpins key hkey
    by_cases hmissing : repository.contents key.manifest = none
    · rw [hempty hmissing artifact howns]
      exact hdrop.removed key artifact (Or.inl (Or.inr hmissing)) howns
    · refine hdrop.kept ?_ howns
      rintro ((hfails | hmissing') | ⟨entry, hentry, rfl⟩)
      · exact hsound hfails
      · exact hmissing hmissing'
      · exact (hevicts.unpinned entry hentry).2 hkey
  · intro entry hentry hkept artifact howns
    exact hdrop.kept (fun hgone => hkept ((removed_iff_evicted hgenerations hentry).mp hgone)) howns
  · refine hdone.imp_right fun hall entry hentry => ?_
    by_contra hunpinned
    have hkept : ¬Removed checksum repository.contents cleaned.evicted entry.cacheKey := by
      intro hgone
      exact cleaned.repository.manifest_of_generation hentry (hdrop.removed _ _ hgone (owns_manifest entry.cacheKey))
    have hbefore : entry ∈ repository.generations checksum := by
      rw [ListedRepository.mem_generations] at hentry ⊢
      obtain ⟨hinspect, hread⟩ := @inspectCacheEntry_congr checksum entry.cacheKey repository.contents
        cleaned.repository.contents (hdrop.kept hkept (owns_manifest entry.cacheKey))
        (hdrop.kept hkept (owns_index entry.cacheKey))
      rw [entryOf, hinspect, hread] at hentry
      exact hentry
    have hevicted : entry ∈ cleaned.evicted := hall ▸ mem_evictionOrder.mpr ⟨hbefore, hunpinned⟩
    exact hkept ((removed_iff_evicted hgenerations hbefore).mpr hevicted)

end Cleanup

/-- A writer has stored a first segment and no manifest yet. -/
def unpublishedKey : CacheKey := ⟨List.replicate 32 7, by decide⟩

def unpublishedSegment : ArtifactKey := segmentKey unpublishedKey.bytes 0

def unpublishedRepository : ListedRepository where
  contents artifact := if artifact = unpublishedSegment then some [1, 2, 3] else none
  keys := [unpublishedSegment]
  nodup := List.nodup_singleton _
  listed := by
    intro artifact
    rw [List.mem_singleton]
    split
    next h => simp [h]
    next h => simp [h]

theorem cleanup_removes_pinned_artifacts :
    ∃ cleaned, cleanupCache .crc32c unpublishedRepository 1000 [unpublishedKey] = .ok cleaned ∧
      unpublishedKey.Owns unpublishedSegment ∧
      unpublishedRepository.contents unpublishedSegment = some [1, 2, 3] ∧
      cleaned.repository.contents unpublishedSegment = none := by
  obtain ⟨cleaned, hcleaned, -, -, -, hdrop⟩ :=
    @cleanupCache_spec .crc32c unpublishedRepository 1000 [unpublishedKey]
  have howns : unpublishedKey.Owns unpublishedSegment := Or.inr (Or.inr (Or.inr rfl))
  have hne : unpublishedKey.manifest ≠ unpublishedSegment := by
    intro h
    exact append_ne (hexKey unpublishedKey.bytes) (by decide) (congrArg ArtifactKey.nameSpace h).symm
  have hmanifest : unpublishedRepository.contents unpublishedKey.manifest = none := by
    simp only [unpublishedRepository, if_neg hne]
  have hsegment : unpublishedRepository.contents unpublishedSegment = some [1, 2, 3] := by
    simp only [unpublishedRepository, if_true]
  exact ⟨cleaned, hcleaned, howns, hsegment, hdrop.removed _ _ (Or.inl (Or.inr hmanifest)) howns⟩

end LogicConduit
