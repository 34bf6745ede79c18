import LogicConduit.WordDirectory
import LogicConduit.WordWriter

namespace LogicConduit

open Prog

/-- The blocks dispatched and not yet committed. -/
def Writer.outstandingSequences (writer : Writer) : List Nat :=
  writer.jobs.map (·.sequence) ++ writer.preparedBlocks.map (·.1)

def Machine.shift (m : Machine) : Machine := { m with choices := fun n => m.choices (n + 1) }

/-- No encoder panics and the repository refuses nothing. -/
def Choice.Quiet (choice : Choice) : Prop := choice.panics = false ∧ choice.refused = none

namespace Observation

/-- The words a reader finds: those of the committed blocks, then the hot tail. -/
def visible (o : Observation) : List Word :=
  (o.dispatched.take o.store.state.directory.length).flatMap (·.words) ++ o.store.state.hotTail

def shown (o : Observation) : Prop := o.store.state.status = .live ∨ o.store.state.status = .finished

end Observation

/-- The segment being written continues the directory, holds its own blocks, and keeps them
pending. -/
structure SegmentOpen (store : Store) (segment : ActiveSegment) : Prop where
  staged : segment.staged.length = segment.length
  small : segment.length ≤ 2 ^ 32
  place : Continues store.state.directory segment.sequence segment.length
  entries : ∀ (k : Nat) (entry : BlockDirectoryEntry), store.state.directory[k]? = some entry →
    (entry.segmentSequence = segment.sequence ↔ k ∈ segment.blockSequences)
  pending : ∀ (k : Nat) (entry : BlockDirectoryEntry), store.state.directory[k]? = some entry →
    k ∈ segment.blockSequences →
    ∃ bytes, store.pendingBlocks k = some bytes ∧ HasAt segment.staged entry.segmentOffset bytes

def SegmentLinked (store : Store) (nextSegmentSequence : Nat) : Option ActiveSegment → Prop
  | none => nextSegmentSequence = segmentCount store.state.directory
  | some segment => nextSegmentSequence = segment.sequence + 1 ∧ SegmentOpen store segment

/-- The words of a call that are not yet in a dispatched block: in the builder, of the current batch,
and of later batches. -/
structure Intake where
  builder : WordBlockBuilder
  arriving : List Word
  later : List Word

def Intake.words (intake : Intake) : List Word :=
  intake.builder.words ++ intake.arriving ++ intake.later

theorem Intake.builder_le (intake : Intake) : intake.builder.words <+: intake.words := by
  rw [Intake.words, List.append_assoc]
  exact List.prefix_append _ _

/-- The words checked for their order: those of the dispatched blocks, of the builder and of the
current batch. -/
def Intake.taken (intake : Intake) (dispatched : List WordBlockBuilder) : List Word :=
  dispatched.flatMap (·.words) ++ (intake.builder.words ++ intake.arriving)

structure Linked (checksum : BlockChecksum) (intake : Intake) (writer : Writer) (store : Store)
    (dispatched : List WordBlockBuilder) : Prop where
  count : dispatched.length = writer.nextDispatchSequence
  builder : writer.builder = intake.builder
  sized : intake.builder.Sized
  ordered : Ordered (intake.taken dispatched)
  recent : ∀ word ∈ intake.taken dispatched, ∃ t, writer.lastTimestampNs = some t ∧ word.time ≤ t
  available : ∀ builder ∈ writer.availableBuilders, builder.Sized ∧ builder.words = []
  jobs : ∀ job ∈ writer.jobs, dispatched[job.sequence]? = some job.builder
  prepared : ∀ p ∈ writer.preparedBlocks, ∃ builder, dispatched[p.1]? = some builder ∧
    p.2 = prepareEncodedBlock checksum p.1 builder
  inFlight : writer.inFlightBlocks = writer.jobs.length
  distinct : writer.outstandingSequences.Nodup
  committed : store.state.directory.length = writer.nextSequence
  dataOffset : writer.nextDataOffset = dataEnd store.state.directory
  segment : SegmentLinked store writer.nextSegmentSequence writer.activeSegment
  room : 0 < writer.maxOutstandingBlocks

/-- What readers have found so far is a growing prefix of the words appended. -/
structure Seen (history : List Observation) : Prop where
  appended : ∀ o ∈ history, o.shown → o.visible <+: o.appended
  grows : history.Pairwise (fun a b => a.shown → b.shown → a.visible <+: b.visible)

/-- What holds of every instant of a call; `intact` says that no block has been lost. -/
structure Recorded (checksum : BlockChecksum) (intact : Prop) (history : List Observation) : Prop where
  stored : ∀ o ∈ history, Stored checksum o.store o.dispatched
  seen : intact → Seen history

def Machine.front (m : Machine) : List Word :=
  ((m.dispatched[m.writer.nextSequence]?).map (·.words)).getD m.writer.builder.words

/-- No word is lost: the outstanding blocks are all there, and the words appended are those of the
dispatched blocks and of the intake. A block taken from the prepared ones and not
yet committed is the one `held`. -/
structure Tracked (held : Nat) (intake : Intake) (m : Machine) : Prop where
  accounted : ∀ k, m.writer.nextSequence + held ≤ k → k < m.writer.nextDispatchSequence →
    k ∈ m.writer.outstandingSequences
  appended : m.appended = m.dispatched.flatMap (·.words) ++ intake.words
  tail : m.store.state.hotTail <+: m.front
  current : ∀ o ∈ m.history, o.shown → o.visible <+: m.observe.visible

/-- The invariant. `intact` and `calm` are assumptions on the run so far and on the rest of the call:
no block has been lost, and no outstanding block can fail to be committed. -/
structure At (checksum : BlockChecksum) (intact calm : Prop) (held : Nat) (intake : Intake)
    (m : Machine) : Prop where
  stored : Stored checksum m.store m.dispatched
  live : m.store.state.status = .live
  linked : Linked checksum intake m.writer m.store m.dispatched
  fresh : ∀ k ∈ m.writer.outstandingSequences, m.writer.nextSequence + held ≤ k
  recorded : Recorded checksum intact m.history
  tracked : intact → Tracked held intake m
  quiet : calm → ∀ n, (m.choices n).Quiet
  encodes : calm → ∀ (k : Nat) builder, m.writer.nextSequence ≤ k → m.dispatched[k]? = some builder →
    ∃ result, builder.encode checksum (UInt64.ofNat k) = .ok result

/-- What a call leaves that does not succeed. An error costs at most a block, and a calm call has
none; an intact writer never waits for a completion that cannot come. -/
def Failed (checksum : BlockChecksum) (intact calm : Prop) : Halt → Machine → Prop
  | .error _, m => ¬calm ∧ Recorded checksum intact m.history ∧ ∃ intake, At checksum False False 0 intake m
  | .blocked, m => ¬intact ∧ Recorded checksum intact m.history
  | .panicked, m => Recorded checksum intact m.history

section Invariant

variable {checksum : BlockChecksum} {intact calm : Prop} {held : Nat} {intake : Intake} {m : Machine}

section

variable (h : At checksum intact calm held intake m)
include h

/-- What is left of the invariant when a block may be lost. -/
theorem At.damaged : At checksum False False 0 intake m :=
  ⟨h.stored, h.live, h.linked, fun k hk => by have := h.fresh k hk; omega, ⟨h.recorded.stored, False.elim⟩,
    False.elim, False.elim, False.elim⟩

theorem At.failed (hc : ¬calm) (error : StoreError) : Failed checksum intact calm (.error error) m :=
  ⟨hc, h.recorded, intake, h.damaged⟩

theorem At.shift : At checksum intact calm held intake m.shift :=
  ⟨h.stored, h.live, h.linked, h.fresh, h.recorded,
    fun hi => ⟨(h.tracked hi).accounted, (h.tracked hi).appended, (h.tracked hi).tail, (h.tracked hi).current⟩,
    fun hc n => h.quiet hc (n + 1), h.encodes⟩

end

theorem request_triple {P : Machine → Prop} (hshift : ∀ m, P m → P m.shift)
    (hat : ∀ m, P m → At checksum intact calm held intake m) :
    Triple P request (fun _ => P) (Failed checksum intact calm) := by
  intro m hp
  unfold request
  rw [Prog.bind_of_ok (show ask m = (.ok (m.choices 0), m.shift) from rfl)]
  cases hr : (m.choices 0).refused with
  | none => exact hshift m hp
  | some error =>
    refine (hat m hp).shift.failed ?_ (.repository error)
    intro hc
    have := ((hat m hp).quiet hc 0).2
    rw [hr] at this
    cases this

theorem Recorded.touch {history : List Observation} (h : Recorded checksum intact history) {o : Observation}
    (hs : Stored checksum o.store o.dispatched) (ha : intact → o.shown → o.visible <+: o.appended)
    (hg : intact → o.shown → ∀ earlier ∈ history, earlier.shown → earlier.visible <+: o.visible) :
    Recorded checksum intact (history ++ [o]) := by
  refine ⟨?_, fun hi => ⟨?_, ?_⟩⟩
  · intro other hm
    rcases List.mem_append.mp hm with hm | hm
    · exact h.stored other hm
    · rw [List.mem_singleton.mp hm]
      exact hs
  · intro other hm hshown
    rcases List.mem_append.mp hm with hm | hm
    · exact (h.seen hi).appended other hm hshown
    · rw [List.mem_singleton.mp hm] at hshown ⊢
      exact ha hi hshown
  · rw [List.pairwise_append]
    refine ⟨(h.seen hi).grows, List.pairwise_singleton _ _, ?_⟩
    intro earlier hm last hl hearlier hlast
    rw [List.mem_singleton.mp hl] at hlast ⊢
    exact hg hi hlast earlier hm hearlier

theorem visible_le_appended (ht : Tracked held intake m)
    (hlinked : Linked checksum intake m.writer m.store m.dispatched) : m.observe.visible <+: m.appended := by
  rw [ht.appended]
  show (m.dispatched.take m.store.state.directory.length).flatMap (·.words) ++ m.store.state.hotTail <+: _
  have htail := ht.tail
  rw [hlinked.committed]
  unfold Machine.front at htail
  cases hn : m.dispatched[m.writer.nextSequence]? with
  | none =>
    rw [hn] at htail
    rw [List.take_of_length_le (List.getElem?_eq_none_iff.mp hn)]
    exact (List.prefix_append_right_inj _).mpr (htail.trans (hlinked.builder ▸ intake.builder_le))
  | some block =>
    rw [hn] at htail
    obtain ⟨hlt, rfl⟩ := List.getElem?_eq_some_iff.mp hn
    conv_rhs => rw [← List.take_append_drop m.writer.nextSequence m.dispatched, List.flatMap_append,
      List.append_assoc]
    refine (List.prefix_append_right_inj _).mpr ?_
    rw [List.drop_eq_getElem_cons hlt, List.flatMap_cons, List.append_assoc]
    exact htail.trans (List.prefix_append _ _)

theorem At.touch_blocks {f : Store → Store} (h : At checksum intact calm held intake m)
    (hstate : (f m.store).state = m.store.state) (hs : Stored checksum (f m.store) m.dispatched)
    (hlinked : Linked checksum intake m.writer (f m.store) m.dispatched) :
    At checksum intact calm held intake (m.touch f) := by
  have hvisible : (m.touch f).observe.visible = m.observe.visible := by
    show (m.dispatched.take (f m.store).state.directory.length).flatMap _ ++ (f m.store).state.hotTail = _
    rw [hstate]
    rfl
  have hlive : (f m.store).state.status = .live := by
    rw [hstate]
    exact h.live
  refine ⟨hs, hlive, hlinked, h.fresh, h.recorded.touch hs ?_ ?_, ?_, h.quiet, h.encodes⟩
  · intro hi hshown
    have := visible_le_appended (h.tracked hi) h.linked
    rwa [← hvisible] at this
  · intro hi hshown earlier hm hearlier
    have := (h.tracked hi).current earlier hm hearlier
    rwa [← hvisible] at this
  · intro hi
    have ht := h.tracked hi
    refine ⟨ht.accounted, ht.appended, ?_, ?_⟩
    · show (f m.store).state.hotTail <+: m.front
      rw [hstate]
      exact ht.tail
    · intro o hm hshown
      rw [hvisible]
      rcases List.mem_append.mp hm with hm | hm
      · exact ht.current o hm hshown
      · rw [List.mem_singleton.mp hm]
        exact hvisible ▸ List.prefix_rfl

end Invariant

section Segments

variable {checksum : BlockChecksum} {store : Store} {dispatched : List WordBlockBuilder}
  {segment : ActiveSegment}

theorem SegmentOpen.sequence_lt (h : SegmentOpen store segment) (hs : Stored checksum store dispatched) :
    segment.sequence < 2 ^ 64 := by
  have hcount := hs.layout.segmentCount_le
  have hlength := hs.length_le
  have hlt := hs.count
  rcases h.place with ⟨hp, -⟩ | ⟨hp, -⟩ <;> omega

theorem Stored.withSegment (hs : Stored checksum store dispatched) (h : SegmentOpen store segment) :
    Stored checksum (store.withSegment segment) dispatched := by
  refine hs.of_readable rfl ?_
  rintro k entry bytes hk (hp | ⟨hp, artifact, ha, hat⟩)
  · exact Or.inl hp
  · refine Or.inr ⟨hp, artifact, ?_, hat⟩
    have hother : entry.segmentSequence ≠ segment.sequence := by
      intro hsame
      obtain ⟨bytes, hpending, -⟩ := h.pending k entry hk ((h.entries k entry hk).mp hsame)
      rw [hp] at hpending
      cases hpending
    rw [← ha]
    refine Repository.publish_other fun hkey => hother ?_
    exact segmentKey_inj (hs.segment_lt (List.mem_of_getElem? hk)) (h.sequence_lt hs) hkey

theorem Stored.removePending (hs : Stored checksum store dispatched) (h : SegmentOpen store segment) :
    Stored checksum ((store.withSegment segment).removePending segment.blockSequences) dispatched := by
  refine (hs.withSegment h).of_readable rfl ?_
  intro k entry bytes hk hreadable
  by_cases hm : k ∈ segment.blockSequences
  · obtain ⟨pending, hpending, hat⟩ := h.pending k entry hk hm
    have hbytes : pending = bytes := by
      rcases hreadable with hp | ⟨hp, -⟩
      · exact Option.some.inj (hpending.symm.trans hp)
      · exact absurd (hpending.symm.trans hp) (by simp)
    refine Or.inr ⟨if_pos hm, segment.staged, ?_, hbytes ▸ hat⟩
    rw [(h.entries k entry hk).mpr hm, ← resizeStaged_length segment.staged, h.staged]
    exact Repository.publish_same _ _ _
  · rcases hreadable with hp | ⟨hp, hrest⟩
    · exact Or.inl ((if_neg hm).trans hp)
    · exact Or.inr ⟨(if_neg hm).trans hp, hrest⟩

end Segments

end LogicConduit
