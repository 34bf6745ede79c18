import LogicConduit.WordAppend
import LogicConduit.WordFrame

namespace LogicConduit

open Prog

/-- What a failed call leaves: its error still has to be recorded as the status of the store. -/
def Halted (checksum : BlockChecksum) (intact : Prop) : Halt → Machine → Prop
  | .error _, m => Recorded checksum intact m.history ∧ Stored checksum m.store m.dispatched ∧
    m.store.state.status = .live
  | .blocked, m => ¬intact ∧ Recorded checksum intact m.history
  | .panicked, m => Recorded checksum intact m.history

/-- Nothing is left to commit: an intact store holds all words appended in its blocks. -/
structure Flushed (checksum : BlockChecksum) (intact : Prop) (m : Machine) : Prop where
  stored : Stored checksum m.store m.dispatched
  recent : ∀ builder ∈ m.dispatched, ∀ word ∈ builder.words,
    ∃ t, m.writer.lastTimestampNs = some t ∧ word.time ≤ t
  live : m.store.state.status = .live
  recorded : Recorded checksum intact m.history
  complete : intact → m.store.state.hotTail = [] ∧ m.store.state.directory.length = m.dispatched.length ∧
    m.appended = m.dispatched.flatMap (·.words)
  current : intact → ∀ o ∈ m.history, o.shown → o.visible <+: m.appended

def Published (checksum : BlockChecksum) (key : CacheKey) (store : Store) : Prop :=
  ∃ indexBytes manifest, encodeIndex checksum key.bytes store.state.directory store.state.presence.leaves
      store.state.committedWordCount store.state.committedDataLen store.state.committedFirstTimestampNs
      store.state.committedLastTimestampNs = .ok indexBytes ∧
    store.repository key.index = some indexBytes ∧
    store.repository key.manifest = some (encodeManifest checksum manifest) ∧
    manifest.cacheKey = key.bytes ∧ manifest.dataLen = store.state.committedDataLen ∧
    manifest.wordCount = store.state.committedWordCount

section Finish

variable {checksum : BlockChecksum} {intact : Prop} {m : Machine}

theorem Failed.halted {calm : Prop} (halt : Halt) (m : Machine) (h : Failed checksum intact calm halt m) :
    Halted checksum intact halt m := by
  cases halt with
  | error e =>
    obtain ⟨-, hrecorded, intake, hat⟩ := h
    exact ⟨hrecorded, hat.stored, hat.live⟩
  | blocked => exact h
  | panicked => exact h

section

variable (h : Flushed checksum intact m)
include h

theorem Flushed.visible (hi : intact) : m.observe.visible = m.appended := by
  obtain ⟨htail, hlen, happended⟩ := h.complete hi
  show (m.dispatched.take m.store.state.directory.length).flatMap (·.words) ++ m.store.state.hotTail = _
  rw [htail, hlen, List.take_length, List.append_nil, happended]

theorem Flushed.shift : Flushed checksum intact m.shift :=
  ⟨h.stored, h.recent, h.live, h.recorded, h.complete, h.current⟩

theorem Flushed.halted (error : StoreError) : Halted checksum intact (.error error) m :=
  ⟨h.recorded, h.stored, h.live⟩

theorem Flushed.touch {f : Store → Store}
    (hstate : (f m.store).state = m.store.state) (hs : Stored checksum (f m.store) m.dispatched) :
    Flushed checksum intact (m.touch f) := by
  have hvisible : intact → (m.touch f).observe.visible = m.appended := by
    intro hi
    rw [← h.visible hi]
    show (m.dispatched.take (f m.store).state.directory.length).flatMap _ ++ (f m.store).state.hotTail = _
    rw [hstate]
    rfl
  have hle : intact → (m.touch f).observe.visible <+: m.appended := by
    intro hi
    simp only [hvisible hi, List.prefix_rfl]
  refine ⟨hs, h.recent, ?_, h.recorded.touch hs (fun hi _ => hle hi) ?_, ?_, ?_⟩
  · show (f m.store).state.status = .live
    rw [hstate]
    exact h.live
  · intro hi _ earlier hm he
    have hcurrent := h.current hi earlier hm he
    rw [← hvisible hi] at hcurrent
    exact hcurrent
  · intro hi
    show (f m.store).state.hotTail = [] ∧ (f m.store).state.directory.length = _ ∧ _
    rw [hstate]
    exact h.complete hi
  · intro hi o hm hshown
    rcases List.mem_append.mp hm with hm | hm
    · exact h.current hi o hm hshown
    · rw [List.mem_singleton.mp hm]
      exact hle hi

end

variable {P : Machine → Prop} {store : Store} {bytes : Bytes} {builder : WordBlockBuilder}

theorem request_flushed (hshift : ∀ m, P m → P m.shift) (hp : ∀ m, P m → Flushed checksum intact m) :
    Triple P request (fun _ => P) (Halted checksum intact) := by
  intro m hm
  unfold request
  rw [Prog.bind_of_ok (show ask m = (.ok (m.choices 0), m.shift) from rfl)]
  cases (m.choices 0).refused with
  | none => exact hshift m hm
  | some error => exact (hp m hm).shift.halted (.repository error)

theorem publishSegment_flushed {segment : ActiveSegment} :
    Triple (fun m => Flushed checksum intact m ∧ SegmentOpen m.store segment) (publishSegment segment)
      (fun _ => Flushed checksum intact) (Halted checksum intact) := by
  have hask : Triple (fun m => Flushed checksum intact m ∧ SegmentOpen m.store segment) request
      (fun _ m => Flushed checksum intact m ∧ SegmentOpen m.store segment) (Halted checksum intact) :=
    request_flushed (fun m hm => ⟨hm.1.shift, hm.2⟩) (fun m hm => hm.1)
  have hclose : Triple (fun m => Flushed checksum intact m ∧ SegmentOpen m.store segment)
      (setWriter fun writer => { writer with activeSegment := none })
      (fun _ m => Flushed checksum intact m ∧ SegmentOpen m.store segment) (Halted checksum intact) :=
    triple_modify fun m hm => ⟨⟨hm.1.stored, hm.1.recent, hm.1.live, hm.1.recorded, hm.1.complete, hm.1.current⟩, hm.2⟩
  refine hclose.bind fun _ => hask.bind fun _ => hask.bind fun _ => ?_
  rintro m ⟨hm, hopen⟩
  have hpublished := hm.touch (f := Store.withSegment segment) rfl (hm.stored.withSegment hopen)
  exact hpublished.touch (f := Store.removePending segment.blockSequences) rfl (hm.stored.removePending hopen)

theorem publishActiveSegment_flushed :
    Triple (fun m => Flushed checksum intact m ∧
        SegmentLinked m.store m.writer.nextSegmentSequence m.writer.activeSegment) publishActiveSegment
      (fun _ => Flushed checksum intact) (Halted checksum intact) := by
  refine triple_get_bind ?_
  rintro m ⟨hm, hlinked⟩
  cases ha : m.writer.activeSegment with
  | none => exact hm
  | some segment =>
    rw [ha] at hlinked
    exact publishSegment_flushed m ⟨hm, hlinked.2⟩

def Store.withArtifact (key : ArtifactKey) (bytes : Bytes) (store : Store) : Store :=
  { store with repository := store.repository.publish key bytes }

theorem Store.withArtifact_same (store : Store) (key : ArtifactKey) (bytes : Bytes) :
    (store.withArtifact key bytes).repository key = some bytes :=
  Repository.publish_same _ _ _

theorem Store.withArtifact_other {key other : ArtifactKey} (h : other ≠ key) :
    (store.withArtifact key bytes).repository other = store.repository other :=
  Repository.publish_other h

theorem Stored.withArtifact {dispatched : List WordBlockBuilder}
    (h : Stored checksum store dispatched) {key : ArtifactKey} (bytes : Bytes)
    (hk : ∀ sequence, segmentKey store.storeIdentity sequence ≠ key) :
    Stored checksum (store.withArtifact key bytes) dispatched := by
  refine h.of_readable rfl ?_
  rintro k entry other hentry (hp | ⟨hp, artifact, ha, hat⟩)
  · exact Or.inl hp
  · exact Or.inr ⟨hp, artifact, (Repository.publish_other (hk _)).trans ha, hat⟩

theorem segmentNamespace_ne {identity : Bytes} {other : String}
    (h : segmentNamespacePrefix.toList <+: other.toList → False) : segmentNamespace identity ≠ other := by
  intro heq
  refine h ?_
  rw [← heq, segmentNamespace, String.toList_append]
  exact List.prefix_append _ _

theorem segmentKey_ne_index (identity : Bytes) (sequence : Nat) (key : CacheKey) :
    segmentKey identity sequence ≠ key.index := by
  intro heq
  exact segmentNamespace_ne (by decide) (ArtifactKey.mk.inj heq).1

theorem segmentKey_ne_manifest (identity : Bytes) (sequence : Nat) (key : CacheKey) :
    segmentKey identity sequence ≠ key.manifest := by
  intro heq
  exact segmentNamespace_ne (by decide) (ArtifactKey.mk.inj heq).1

theorem index_ne_manifest (key : CacheKey) : key.index ≠ key.manifest := by
  intro heq
  exact absurd (ArtifactKey.mk.inj heq).1 (by decide)

theorem resize_writeAt (bytes : Bytes) : resizeStaged (writeAt [] 0 bytes) bytes.length = bytes := by
  rw [writeAt_zero, resizeStaged_length]

theorem publishBytes_flushed {key : ArtifactKey}
    (hshift : ∀ m, P m → P m.shift) (hp : ∀ m, P m → Flushed checksum intact m)
    (hk : ∀ identity sequence, segmentKey identity sequence ≠ key) :
    Triple P (publishBytes key bytes)
      (fun _ m => Flushed checksum intact m ∧ ∃ earlier, P earlier ∧
        m.store = earlier.store.withArtifact key bytes)
      (Halted checksum intact) := by
  have hask : Triple P request (fun _ => P) (Halted checksum intact) := request_flushed hshift hp
  refine hask.bind fun _ => hask.bind fun _ => hask.bind fun _ => hask.bind fun _ => hask.bind fun _ => ?_
  intro m hm
  rw [resize_writeAt]
  exact ⟨(hp m hm).touch (f := Store.withArtifact key bytes) rfl
    ((hp m hm).stored.withArtifact bytes (hk _)), m, hm, rfl⟩

theorem publishGeneration_flushed {key : CacheKey} :
    Triple (Flushed checksum intact) (publishGeneration checksum key)
      (fun _ m => Flushed checksum intact m ∧ Published checksum key m.store) (Halted checksum intact) := by
  refine triple_get_bind ?_
  intro m hm
  cases hindex : encodeIndex checksum key.bytes m.store.state.directory m.store.state.presence.leaves
    m.store.state.committedWordCount m.store.state.committedDataLen m.store.state.committedFirstTimestampNs
    m.store.state.committedLastTimestampNs with
  | error e => exact hm.halted e
  | ok indexBytes =>
    have hpublish : Triple (fun m' => Flushed checksum intact m' ∧ m'.store.state = m.store.state)
        (publishBytes key.index indexBytes) _ (Halted checksum intact) :=
      publishBytes_flushed (fun m' hm' => ⟨hm'.1.shift, hm'.2⟩) (fun m' hm' => hm'.1)
        (fun identity sequence => segmentKey_ne_index identity sequence key)
    refine Outcome.bind (hpublish m ⟨hm, rfl⟩) fun _ => ?_
    intro m₁ h₁
    obtain ⟨hm₁, earlier, ⟨-, hstate⟩, hstore⟩ := h₁
    have hindexed : m₁.store.state = m.store.state ∧ m₁.store.repository key.index = some indexBytes := by
      rw [hstore]
      exact ⟨hstate, Repository.publish_same _ _ _⟩
    rw [Prog.bind_of_ok (show ask m₁ = (.ok (m₁.choices 0), m₁.shift) from rfl)]
    have hmanifest : Triple (fun m' => Flushed checksum intact m' ∧ m'.store.state = m.store.state ∧
          m'.store.repository key.index = some indexBytes)
        (publishBytes key.manifest (encodeManifest checksum ⟨key.bytes, m.store.state.committedDataLen,
          indexBytes.length, m.store.state.committedWordCount, m.writer.createdUnixNs, (m₁.choices 0).now⟩))
        _ (Halted checksum intact) :=
      publishBytes_flushed (fun m' hm' => ⟨hm'.1.shift, hm'.2⟩) (fun m' hm' => hm'.1)
        (fun identity sequence => segmentKey_ne_manifest identity sequence key)
    refine (hmanifest m₁.shift ⟨hm₁.shift, hindexed⟩).mono fun _ m₂ h => ?_
    obtain ⟨hm₂, last, ⟨-, hs, hi⟩, hstore₂⟩ := h
    have hstate₂ : m₂.store.state = m.store.state := by
      rw [hstore₂]
      exact hs
    refine ⟨hm₂, indexBytes, ⟨key.bytes, m.store.state.committedDataLen, indexBytes.length,
      m.store.state.committedWordCount, m.writer.createdUnixNs, (m₁.choices 0).now⟩, ?_, ?_, ?_, rfl, ?_, ?_⟩
    · rw [hstate₂]
      exact hindex
    · rw [hstore₂, Store.withArtifact_other (index_ne_manifest key)]
      exact hi
    · rw [hstore₂, Store.withArtifact_same]
    · rw [hstate₂]
    · rw [hstate₂]

theorem persistStore_flushed (persistence : Option CacheKey) :
    Triple (fun m => Flushed checksum intact m ∧ m.writer.persistence = persistence) (persistStore checksum)
      (fun _ m => Flushed checksum intact m ∧ ∀ key, persistence = some key → Published checksum key m.store)
      (Halted checksum intact) := by
  refine triple_get_bind ?_
  intro m hm
  obtain ⟨hm, hkey⟩ := hm
  rw [hkey]
  cases persistence with
  | none =>
    refine ⟨hm, ?_⟩
    intro key hnone
    cases hnone
  | some key =>
    refine Outcome.bind (publishGeneration_flushed m hm) fun _ => ?_
    intro m₁ hm₁
    obtain ⟨hm₁, hpublished⟩ := hm₁
    refine ⟨hm₁.touch (f := fun store => { store with removeOnDrop := false, persistentCache := true }) rfl ?_, ?_⟩
    · exact hm₁.stored.of_readable rfl fun _ _ _ _ hr => hr
    · intro other hother
      cases hother
      exact hpublished

/-- What a successful finish leaves. -/
structure Finished (checksum : BlockChecksum) (intact : Prop) (persistence : Option CacheKey) (m : Machine) :
    Prop where
  stored : Stored checksum m.store m.dispatched
  recent : ∀ builder ∈ m.dispatched, ∀ word ∈ builder.words,
    ∃ t, m.writer.lastTimestampNs = some t ∧ word.time ≤ t
  status : m.store.state.status = .finished
  recorded : Recorded checksum intact m.history
  complete : intact → m.store.state.hotTail = [] ∧ m.observe.visible = m.appended
  current : intact → ∀ o ∈ m.history, o.shown → o.visible <+: m.observe.visible
  published : ∀ key, persistence = some key → Published checksum key m.store

theorem Flushed.finish {persistence : Option CacheKey} (h : Flushed checksum intact m)
    (hp : ∀ key, persistence = some key → Published checksum key m.store) :
    Finished checksum intact persistence (m.touch fun store => { store with
      state := { store.state with status := .finished, generation := store.state.generation + 1 } }) := by
  have hstored : Stored checksum { m.store with state := { m.store.state with
      status := .finished, generation := m.store.state.generation + 1 } } m.dispatched :=
    h.stored.of_readable rfl fun _ _ _ _ hr => hr
  have hcurrent : intact → ∀ o ∈ m.history, o.shown → o.visible <+: m.observe.visible := by
    intro hi o hm hshown
    rw [h.visible hi]
    exact h.current hi o hm hshown
  refine ⟨hstored, h.recent, rfl, h.recorded.touch hstored ?_ ?_, ?_, ?_, hp⟩
  · intro hi _
    exact (h.visible hi) ▸ List.prefix_rfl
  · intro hi _ earlier hm hshown
    exact hcurrent hi earlier hm hshown
  · intro hi
    exact ⟨(h.complete hi).1, h.visible hi⟩
  · intro hi o hm hshown
    rcases List.mem_append.mp hm with hm | hm
    · exact hcurrent hi o hm hshown
    · rw [List.mem_singleton.mp hm]
      exact List.prefix_rfl

theorem At.flushed (h : At checksum intact False 0 ⟨builder, [], []⟩ m)
    (hb : builder.words = []) (ho : m.writer.outstandingBlocks = 0) : Flushed checksum intact m := by
  refine ⟨h.stored, ?_, h.live, h.recorded, ?_, ?_⟩
  · intro block hm word hw
    exact h.linked.recent word (List.mem_append_left _ (List.mem_flatMap.mpr ⟨block, hm, hw⟩))
  · intro hi
    have ht := h.tracked hi
    have htail := ht.tail
    rw [h.front_eq hi ho, hb] at htail
    refine ⟨List.prefix_nil.mp htail, h.linked.committed.trans (h.all_committed hi ho).symm, ?_⟩
    rw [ht.appended]
    simp [Intake.words, hb]
  · intro hi o hm hshown
    have ht := h.tracked hi
    exact (ht.current o hm hshown).trans (visible_le_appended ht h.linked)

theorem finishInner_triple (words : List Word) (start : Machine) :
    Triple (fun m => At checksum intact False 0 ⟨builder, [], []⟩ m ∧ Follows words start m) (finishInner checksum)
      (fun _ => Finished checksum intact start.writer.persistence) (Halted checksum intact) := by
  have hdispatch : Triple (fun m => At checksum intact False 0 ⟨builder, [], []⟩ m ∧ Follows words start m)
      (dispatchCurrentBlock checksum) (fun _ m => (∃ next, next.words = [] ∧
        At checksum intact False 0 ⟨next, [], []⟩ m) ∧ Follows words start m) (Halted checksum intact) :=
    (dispatchCurrentBlock_triple.frame dispatchCurrentBlock_moves start).weaken (fun _ h => h)
      (fun _ _ h => h) Failed.halted
  have hflush : Triple (fun m => (∃ next, next.words = [] ∧ At checksum intact False 0 ⟨next, [], []⟩ m) ∧
        Follows words start m) (flushDispatchedBlocks checksum)
      (fun _ m => (Flushed checksum intact m ∧
        SegmentLinked m.store m.writer.nextSegmentSequence m.writer.activeSegment) ∧ Follows words start m)
      (Halted checksum intact) := by
    intro m h
    obtain ⟨⟨next, hnil, hm⟩, hfollows⟩ := h
    refine (flushDispatchedBlocks_triple.frame flushDispatchedBlocks_moves start m ⟨hm, hfollows⟩).weaken ?_
      Failed.halted
    intro _ m' h
    obtain ⟨⟨hm', ho⟩, hfollows'⟩ := h
    exact ⟨⟨hm'.flushed hnil ho, hm'.linked.segment⟩, hfollows'⟩
  refine hdispatch.bind fun _ => hflush.bind fun _ => ?_
  refine (publishActiveSegment_flushed.frame publishActiveSegment_moves start).bind fun _ => ?_
  refine Triple.bind ((persistStore_flushed start.writer.persistence).mono_pre ?_) fun _ => ?_
  · intro m h
    exact ⟨h.1, h.2.persistence⟩
  · intro m h
    have hfinished := h.1.finish h.2
    exact ⟨hfinished.stored, hfinished.recent, hfinished.status, hfinished.recorded, hfinished.complete, hfinished.current,
      hfinished.published⟩

end Finish

end LogicConduit
