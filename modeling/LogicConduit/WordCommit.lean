import LogicConduit.WordInvariant

namespace LogicConduit

open Prog

/-- A block is in hand: it has been taken from the prepared ones and is to be committed. -/
structure Holding (checksum : BlockChecksum) (intact calm : Prop) (intake : Intake)
    (jobs : List EncodeJob) (prepared : List (Nat × PreparedBlock)) (k : Nat) (builder : WordBlockBuilder)
    (m : Machine) : Prop where
  inv : At checksum intact calm 1 intake m
  jobs : m.writer.jobs = jobs
  prepared : m.writer.preparedBlocks = prepared
  next : m.writer.nextSequence = k
  block : m.dispatched[k]? = some builder

section Commit

variable {checksum : BlockChecksum} {intact calm : Prop} {intake : Intake} {jobs : List EncodeJob}
  {prepared : List (Nat × PreparedBlock)} {k : Nat} {builder : WordBlockBuilder} {m : Machine}
  {segment : ActiveSegment}

theorem Holding.shift (h : Holding checksum intact calm intake jobs prepared k builder m) :
    Holding checksum intact calm intake jobs prepared k builder m.shift :=
  ⟨h.inv.shift, h.jobs, h.prepared, h.next, h.block⟩

variable {dispatched : List WordBlockBuilder}

variable {writer : Writer} {active : Option ActiveSegment} {next : Nat}

theorem Linked.setSegment {store other : Store} (h : Linked checksum intake writer store dispatched)
    (hd : other.state.directory = store.state.directory) (hs : SegmentLinked other next active) :
    Linked checksum intake { writer with activeSegment := active, nextSegmentSequence := next } other
      dispatched :=
  ⟨h.count, h.builder, h.sized, h.ordered, h.recent, h.available, h.jobs, h.prepared, h.inFlight, h.distinct,
    hd ▸ h.committed, hd ▸ h.dataOffset, hs, h.room⟩

theorem At.setSegment {held : Nat} (h : At checksum intact calm held intake m)
    (hs : SegmentLinked m.store next active) :
    At checksum intact calm held intake
      { m with writer := { m.writer with activeSegment := active, nextSegmentSequence := next } } :=
  ⟨h.stored, h.live, h.linked.setSegment rfl hs, h.fresh, h.recorded,
    fun hi => ⟨(h.tracked hi).accounted, (h.tracked hi).appended, (h.tracked hi).tail, (h.tracked hi).current⟩, h.quiet, h.encodes⟩

variable {store : Store}

theorem SegmentOpen.close (h : SegmentOpen store segment) (hpos : 0 < segment.length) :
    segment.sequence + 1 = segmentCount store.state.directory := by
  rcases h.place with ⟨-, hz⟩ | ⟨hs, -⟩
  · omega
  · exact hs

theorem At.publish_segment {held : Nat} (h : At checksum intact calm held intake m)
    (hnone : m.writer.activeSegment = none) (hs : SegmentOpen m.store segment) :
    At checksum intact calm held intake
      ((m.touch (Store.withSegment segment)).touch (Store.removePending segment.blockSequences)) := by
  have hseg := h.linked.segment
  rw [hnone] at hseg
  have hlinked : ∀ other : Store, other.state = m.store.state →
      Linked checksum intake m.writer other m.dispatched := by
    intro other hstate
    refine ⟨h.linked.count, h.linked.builder, h.linked.sized, h.linked.ordered, h.linked.recent,
      h.linked.available, h.linked.jobs, h.linked.prepared, h.linked.inFlight, h.linked.distinct, ?_, ?_, ?_,
      h.linked.room⟩
    · rw [hstate]
      exact h.linked.committed
    · rw [hstate]
      exact h.linked.dataOffset
    · rw [hnone]
      show _ = segmentCount other.state.directory
      rw [hstate]
      exact hseg
  have hpublished := h.touch_blocks (f := Store.withSegment segment) rfl (h.stored.withSegment hs) (hlinked _ rfl)
  exact hpublished.touch_blocks (f := Store.removePending segment.blockSequences) rfl
    (h.stored.removePending hs) (hlinked _ rfl)

theorem publishSegment_holding :
    Triple (fun m => Holding checksum intact calm intake jobs prepared k builder m ∧
        m.writer.activeSegment = some segment ∧ 0 < segment.length) (publishSegment segment)
      (fun _ m => Holding checksum intact calm intake jobs prepared k builder m ∧
        m.writer.activeSegment = none) (Failed checksum intact calm) := by
  have hask : Triple (fun m => (Holding checksum intact calm intake jobs prepared k builder m ∧
        m.writer.activeSegment = none) ∧ SegmentOpen m.store segment) request
      (fun _ m => (Holding checksum intact calm intake jobs prepared k builder m ∧
        m.writer.activeSegment = none) ∧ SegmentOpen m.store segment) (Failed checksum intact calm) :=
    request_triple (fun m hm => ⟨⟨hm.1.1.shift, hm.1.2⟩, hm.2⟩) (fun m hm => hm.1.1.inv)
  refine Triple.bind (triple_modify ?_) fun _ => hask.bind fun _ => hask.bind fun _ => ?_
  · rintro m ⟨hm, hsome, hpos⟩
    have hseg := hm.inv.linked.segment
    rw [hsome] at hseg
    obtain ⟨hnext, hopen⟩ := hseg
    refine ⟨⟨⟨hm.inv.setSegment ?_, hm.jobs, hm.prepared, hm.next, hm.block⟩, rfl⟩, hopen⟩
    exact hnext.trans (hopen.close hpos)
  · rintro m ⟨⟨hm, hnone⟩, hopen⟩
    exact ⟨⟨hm.inv.publish_segment hnone hopen, hm.jobs, hm.prepared, hm.next, hm.block⟩, hnone⟩

theorem rotateSegment_holding (blockLen : Nat) :
    Triple (Holding checksum intact calm intake jobs prepared k builder) (rotateSegment blockLen)
      (fun _ m => Holding checksum intact calm intake jobs prepared k builder m ∧
        m.writer.rotates blockLen = false) (Failed checksum intact calm) := by
  refine triple_get_bind fun m hm => ?_
  by_cases hr : m.writer.rotates blockLen = true
  · rw [if_pos hr]
    unfold Writer.rotates at hr
    cases hactive : m.writer.activeSegment with
    | none => simp [hactive] at hr
    | some segment =>
      have hpos : 0 < segment.length := by
        rw [hactive] at hr
        simp only [Option.any_some, decide_eq_true_eq] at hr
        exact hr.1
      have hpublish := publishSegment_holding m ⟨hm, hactive, hpos⟩
      have heq : publishActiveSegment m = publishSegment segment m := by
        unfold publishActiveSegment
        rw [Prog.bind_of_ok (show Prog.get m = (.ok m, m) from rfl), hactive]
      rw [heq]
      refine hpublish.mono (fun _ s hs => ⟨hs.1, ?_⟩)
      simp [Writer.rotates, hs.2]
  · rw [if_neg hr]
    exact ⟨hm, by simpa using hr⟩

theorem openSegment_holding :
    Triple (fun m => Holding checksum intact calm intake jobs prepared k builder m ∧
        m.writer.activeSegment = none) openSegment
      (fun _ m => Holding checksum intact calm intake jobs prepared k builder m ∧
        ∃ segment, m.writer.activeSegment = some segment ∧ segment.length = 0) (Failed checksum intact calm) := by
  have hask : Triple (fun m => Holding checksum intact calm intake jobs prepared k builder m ∧
        m.writer.activeSegment = none) request
      (fun _ m => Holding checksum intact calm intake jobs prepared k builder m ∧
        m.writer.activeSegment = none) (Failed checksum intact calm) :=
    request_triple (fun m hm => ⟨hm.1.shift, hm.2⟩) (fun m hm => hm.1.inv)
  refine hask.bind fun _ => triple_modify ?_
  rintro m ⟨hm, hnone⟩
  have hseg := hm.inv.linked.segment
  rw [hnone] at hseg
  have hnext : m.writer.nextSegmentSequence = segmentCount m.store.state.directory := hseg
  have hlayout := hm.inv.stored.layout
  have hcount := hlayout.segmentCount_le
  have hroom : saturatingAdd m.writer.nextSegmentSequence 1 = m.writer.nextSegmentSequence + 1 := by
    have hlt := (List.getElem?_eq_some_iff.mp hm.block).1
    have hbound := hm.inv.stored.count
    have hlen := hm.inv.linked.committed
    have hk := hm.next
    unfold saturatingAdd u64Max
    omega
  refine ⟨⟨hm.inv.setSegment ⟨hroom, ?_⟩, hm.jobs, hm.prepared, hm.next, hm.block⟩, _, rfl, rfl⟩
  refine ⟨rfl, Nat.zero_le _, Or.inl ⟨hnext, rfl⟩, ?_, ?_⟩
  · intro i entry hi
    have := hlayout.segment_lt (List.mem_of_getElem? hi)
    constructor
    · intro hsame
      have hsame : entry.segmentSequence = m.writer.nextSegmentSequence := hsame
      omega
    · intro hmem
      cases hmem
  · intro i entry hi hmem
    cases hmem

theorem prepareActiveSegment_holding (blockLen : Nat) :
    Triple (Holding checksum intact calm intake jobs prepared k builder) (prepareActiveSegment blockLen)
      (fun _ m => Holding checksum intact calm intake jobs prepared k builder m ∧
        m.writer.rotates blockLen = false ∧ ∃ segment, m.writer.activeSegment = some segment)
      (Failed checksum intact calm) := by
  refine (rotateSegment_holding blockLen).bind fun _ => triple_get_bind fun m hm => ?_
  by_cases hn : m.writer.activeSegment.isNone = true
  · rw [if_pos hn]
    have hopen := openSegment_holding m ⟨hm.1, Option.isNone_iff_eq_none.mp hn⟩
    refine hopen.mono ?_
    rintro _ s ⟨hs, segment, hactive, hzero⟩
    refine ⟨hs, ?_, segment, hactive⟩
    simp [Writer.rotates, hactive, hzero]
  · rw [if_neg hn]
    refine ⟨hm.1, hm.2, ?_⟩
    cases hactive : m.writer.activeSegment with
    | none => simp [hactive] at hn
    | some segment => exact ⟨segment, rfl⟩

theorem Stored.addPending (h : Stored checksum store dispatched) {sequence : Nat}
    (hl : store.state.directory.length = sequence) (bytes : Bytes) :
    Stored checksum (store.addPending sequence bytes) dispatched := by
  refine h.of_readable rfl ?_
  intro i entry other hi hreadable
  have hne : i ≠ sequence := by
    have := (List.getElem?_eq_some_iff.mp hi).1
    omega
  rcases hreadable with hp | ⟨hp, hrest⟩
  · exact Or.inl ((if_neg hne).trans hp)
  · exact Or.inr ⟨(if_neg hne).trans hp, hrest⟩

def Store.committed (store : Store) (sequence : Nat) (bytes : Bytes) (entry : BlockDirectoryEntry)
    (summaries : List WordSummaryRecord) : Store :=
  { store.addPending sequence bytes with state := store.state.commit entry summaries }

variable {metadata : EncodedBlockMetadata} {summaries : List WordSummaryRecord} {bytes : Bytes}

theorem Stored.commit (h : Stored checksum store dispatched) (hl : store.state.directory.length = k)
    (hb : dispatched[k]? = some builder)
    (henc : builder.encode checksum (UInt64.ofNat k) = .ok (metadata, bytes)) {sequence offset : Nat}
    (hp : Continues store.state.directory sequence offset)
    (hsum : summaries = wordPresenceSummaries k builder.words builder.isDurationFree)
    (hw : store.state.committedWordCount + metadata.header.wordCount.toNat < 2 ^ 64)
    (hd : dataEnd store.state.directory + metadata.header.blockLen.toNat < 2 ^ 64) :
    Stored checksum (store.committed k bytes (.ofHeader metadata.header (dataEnd store.state.directory)
      sequence offset) summaries) dispatched := by
  refine ⟨h.blocks, h.ordered, h.count, .snoc h.layout rfl hp, ?_, ?_, hw, ?_, hd, ?_, ?_, ?_⟩
  · intro i entry hi
    rcases getElem?_snoc hi with hi | ⟨rfl, rfl⟩
    · obtain ⟨other, otherMetadata, otherBytes, ho, hplaced⟩ := (h.addPending hl bytes).placed i entry hi
      exact ⟨other, otherMetadata, otherBytes, ho, hplaced.encode, hplaced.header, hplaced.readable⟩
    · rw [hl]
      exact ⟨builder, metadata, bytes, hb, henc, rfl, Or.inl (if_pos rfl)⟩
  · show _ + _ = ((store.state.directory ++ [_]).map _).sum
    rw [List.map_append, List.sum_append, ← h.wordCount]
    simp
  · exact (dataEnd_append _ _).symm
  · show summaries.foldl WordPresenceIndex.push store.state.presence =
      .ofLeaves (presenceLeaves (dispatched.take (store.state.directory ++ [_]).length))
    rw [h.presence, WordPresenceIndex.foldl_push_ofLeaves, List.length_append, List.length_singleton,
      List.take_add_one, hl, hb, Option.toList_some, presenceLeaves_append, hsum]
    have hk := (List.getElem?_eq_some_iff.mp hb).1
    rw [List.length_take, Nat.min_eq_left hk.le]
  · show some (store.state.committedFirstTimestampNs.getD _) = ((store.state.directory ++ [_]).head?).map _
    rw [h.first]
    cases store.state.directory with
    | nil => rfl
    | cons first rest => rfl
  · show some _ = ((store.state.directory ++ [_]).getLast?).map _
    simp [BlockDirectoryEntry.ofHeader]

def ActiveSegment.add (segment : ActiveSegment) (sequence : Nat) (bytes : Bytes) : ActiveSegment :=
  { segment with
    staged := writeAt segment.staged segment.length bytes
    length := segment.length + bytes.length
    blockSequences := segment.blockSequences ++ [sequence] }

theorem SegmentOpen.commit (h : SegmentOpen store segment) (hl : store.state.directory.length = k)
    {header : WordBlockHeader} (hlen : header.blockLen.toNat = bytes.length)
    (hfits : segment.length + bytes.length ≤ 2 ^ 32) (dataOffset : Nat) (summaries : List WordSummaryRecord) :
    SegmentOpen (store.committed k bytes (.ofHeader header dataOffset segment.sequence segment.length) summaries)
      (segment.add k bytes) := by
  have hstaged : writeAt segment.staged segment.length bytes = segment.staged ++ bytes := by
    rw [← h.staged]
    exact writeAt_length _ _
  refine ⟨?_, hfits, Or.inr ⟨?_, ?_⟩, ?_, ?_⟩
  · show (writeAt segment.staged segment.length bytes).length = segment.length + bytes.length
    rw [hstaged, List.length_append, h.staged]
  · exact (segmentCount_append store.state.directory
      (.ofHeader header dataOffset segment.sequence segment.length)).symm
  · refine Eq.trans ?_ (segmentEnd_append store.state.directory
      (.ofHeader header dataOffset segment.sequence segment.length)).symm
    show segment.length + bytes.length = segment.length + header.blockLen.toNat
    rw [hlen]
  · intro i entry hi
    show _ ↔ i ∈ segment.blockSequences ++ [k]
    rw [List.mem_append, List.mem_singleton]
    rcases getElem?_snoc hi with hi | ⟨rfl, rfl⟩
    · have := (List.getElem?_eq_some_iff.mp hi).1
      have hne : i ≠ k := by omega
      rw [← h.entries i entry hi]
      exact ⟨Or.inl, fun hor => hor.resolve_right hne⟩
    · exact ⟨fun _ => Or.inr hl, fun _ => rfl⟩
  · intro i entry hi hmem
    show ∃ other, (if i = k then some bytes else store.pendingBlocks i) = some other ∧
      HasAt (writeAt segment.staged segment.length bytes) entry.segmentOffset other
    rw [hstaged]
    rcases getElem?_snoc hi with hi | ⟨rfl, rfl⟩
    · have := (List.getElem?_eq_some_iff.mp hi).1
      have hne : i ≠ k := by omega
      rcases List.mem_append.mp hmem with hmem | hmem
      · obtain ⟨other, hother, hat⟩ := h.pending i entry hi hmem
        exact ⟨other, (if_neg hne).trans hother, hat.of_append_left⟩
      · exact absurd (List.mem_singleton.mp hmem) hne
    · refine ⟨bytes, if_pos hl, ?_⟩
      show HasAt _ segment.length bytes
      rw [← h.staged]
      exact hasAt_append_right _ _

theorem Writer.rotates_small (ha : writer.activeSegment = some segment) {blockLen : Nat}
    (hr : writer.rotates blockLen = false) (hb : blockLen < 2 ^ 32) : segment.length + blockLen ≤ 2 ^ 32 := by
  simp only [Writer.rotates, ha, Option.any_some, decide_eq_false_iff_not] at hr
  unfold saturatingAdd u64Max targetSegmentBytes at hr
  omega

def Machine.commit (m : Machine) (segment : ActiveSegment) (header : WordBlockHeader)
    (summaries : List WordSummaryRecord) (block : PreparedBlock) : Machine :=
  let entry := BlockDirectoryEntry.ofHeader header m.writer.nextDataOffset segment.sequence segment.length
  let m := { m with writer := { m.writer with
    activeSegment := some (segment.add m.writer.nextSequence block.encoded) } }
  let m := m.touch (Store.addPending m.writer.nextSequence block.encoded)
  let m := m.touch fun store => { store with state := store.state.commit entry summaries }
  { m with writer := { m.writer with
    nextSequence := m.writer.nextSequence + 1
    nextDataOffset := m.writer.nextDataOffset + header.blockLen.toNat
    availableBuilders := block.builder :: m.writer.availableBuilders } }

theorem front_of_block (hb : m.dispatched[m.writer.nextSequence]? = some builder) :
    m.front = builder.words := by
  simp [Machine.front, hb]

theorem visible_commit (ht : Tracked 1 intake m) (hb : m.dispatched[m.writer.nextSequence]? = some builder)
    (hl : m.store.state.directory.length = m.writer.nextSequence) :
    m.observe.visible <+: (m.dispatched.take (m.writer.nextSequence + 1)).flatMap (·.words) := by
  have htail := ht.tail
  rw [front_of_block hb] at htail
  obtain ⟨hlt, rfl⟩ := List.getElem?_eq_some_iff.mp hb
  show (m.dispatched.take m.store.state.directory.length).flatMap (·.words) ++ m.store.state.hotTail <+: _
  rw [List.take_succ_eq_append_getElem hlt, List.flatMap_append, hl]
  refine (List.prefix_append_right_inj _).mpr ?_
  simpa using htail

theorem take_flatMap_le (dispatched : List WordBlockBuilder) (k : Nat) :
    (dispatched.take k).flatMap (·.words) <+: dispatched.flatMap (·.words) := by
  conv_rhs => rw [← List.take_append_drop k dispatched, List.flatMap_append]
  exact List.prefix_append _ _

theorem At.record_pending {held : Nat} (h : At checksum intact calm held intake m) (bytes : Bytes) :
    Recorded checksum intact
      (m.history ++ [{ m.observe with store := m.store.addPending m.writer.nextSequence bytes }]) :=
  h.recorded.touch (h.stored.addPending h.linked.committed bytes)
    (fun hi _ => visible_le_appended (h.tracked hi) h.linked)
    (fun hi _ earlier hm he => (h.tracked hi).current earlier hm he)

variable {block : PreparedBlock}

theorem Holding.commit (h : Holding checksum intact calm intake jobs prepared k builder m)
    (ha : m.writer.activeSegment = some segment)
    (henc : builder.encode checksum (UInt64.ofNat k) = .ok (metadata, block.encoded))
    (hclear : block.builder = builder.clear) (hr : m.writer.rotates block.encoded.length = false)
    (hsum : summaries = wordPresenceSummaries k builder.words builder.isDurationFree)
    (hw : m.store.state.committedWordCount + metadata.header.wordCount.toNat < 2 ^ 64)
    (hd : m.writer.nextDataOffset + metadata.header.blockLen.toNat < 2 ^ 64) :
    At checksum intact calm 0 intake (m.commit segment metadata.header summaries block) := by
  obtain ⟨hinv, -, -, rfl, hb⟩ := h
  have hlen := (WordBlockBuilder.encode_header henc).2.1
  have hl := hinv.linked.committed
  have hseg := hinv.linked.segment
  rw [ha] at hseg
  obtain ⟨hnextSegment, hopen⟩ := hseg
  have hfits := Writer.rotates_small ha hr (hlen ▸ metadata.header.blockLen.toNat_lt)
  have hoffset := hinv.linked.dataOffset
  have hcommit := hinv.stored.commit hl hb henc hopen.place hsum hw (hoffset ▸ hd)
  rw [← hoffset] at hcommit
  have hsegment := hopen.commit hl hlen hfits m.writer.nextDataOffset summaries
  -- What readers find at the three instants: before, with the bytes pending, and after the commit.
  have hvisible : (m.commit segment metadata.header summaries block).observe.visible =
      (m.dispatched.take (m.writer.nextSequence + 1)).flatMap (·.words) := by
    show (m.dispatched.take (m.store.state.directory ++ [_]).length).flatMap _ ++ [] = _
    rw [List.length_append, List.length_singleton, hl, List.append_nil]
  have hgrow : intact → m.observe.visible <+:
      (m.commit segment metadata.header summaries block).observe.visible := by
    intro hi
    rw [hvisible]
    exact visible_commit (hinv.tracked hi) hb hl
  have hle : intact → (m.commit segment metadata.header summaries block).observe.visible <+: m.appended := by
    intro hi
    rw [hvisible, (hinv.tracked hi).appended]
    exact (take_flatMap_le _ _).trans (List.prefix_append _ _)
  have hfirst := hinv.record_pending block.encoded
  refine ⟨hcommit, hinv.live, ?_, ?_, ?_, ?_, hinv.quiet, ?_⟩
  · refine ⟨hinv.linked.count, hinv.linked.builder, hinv.linked.sized, hinv.linked.ordered, hinv.linked.recent,
      ?_, hinv.linked.jobs, hinv.linked.prepared, hinv.linked.inFlight, hinv.linked.distinct, ?_, ?_,
      ⟨hnextSegment, hsegment⟩, hinv.linked.room⟩
    · intro other hm
      rcases List.mem_cons.mp hm with rfl | hm
      · rw [hclear]
        exact ⟨WordBlockBuilder.clear_sized (hinv.stored.blocks builder (List.mem_of_getElem? hb)).sized, rfl⟩
      · exact hinv.linked.available other hm
    · show (m.store.state.directory ++ [_]).length = _
      rw [List.length_append, hl]
      rfl
    · exact (dataEnd_append m.store.state.directory
        (.ofHeader metadata.header m.writer.nextDataOffset segment.sequence segment.length)).symm
  · exact fun i hi => hinv.fresh i hi
  · refine hfirst.touch hcommit (fun hi _ => hle hi) ?_
    intro hi _ earlier hm he
    rcases List.mem_append.mp hm with hm | hm
    · exact ((hinv.tracked hi).current earlier hm he).trans (hgrow hi)
    · rw [List.mem_singleton.mp hm]
      exact hgrow hi
  · intro hi
    have ht := hinv.tracked hi
    refine ⟨?_, ht.appended, List.nil_prefix, ?_⟩
    · intro i hge hlt
      exact ht.accounted i hge hlt
    · intro o hm hshown
      rcases List.mem_append.mp hm with hm | hm
      · rcases List.mem_append.mp hm with hm | hm
        · exact (ht.current o hm hshown).trans (hgrow hi)
        · rw [List.mem_singleton.mp hm]
          exact hgrow hi
      · rw [List.mem_singleton.mp hm]
        exact List.prefix_rfl
  · intro hc i other hge hi
    exact hinv.encodes hc i other (Nat.le_of_succ_le hge) hi

theorem commitEntry_eq (entry : BlockDirectoryEntry) (summaries : List WordSummaryRecord)
    (block : PreparedBlock) (m : Machine) :
    commitEntry entry summaries block m =
      if 2 ^ 64 ≤ m.store.state.committedWordCount + entry.wordCount.toNat ∨
          2 ^ 64 ≤ entry.dataOffset + entry.blockLen.toNat then
        (.error .panicked, m.touch (Store.addPending entry.sequence.toNat block.encoded))
      else
        let m := (m.touch (Store.addPending entry.sequence.toNat block.encoded)).touch fun store =>
          { store with state := store.state.commit entry summaries }
        (.ok (), { m with writer := { m.writer with
          nextSequence := m.writer.nextSequence + 1
          nextDataOffset := m.writer.nextDataOffset + entry.blockLen.toNat
          availableBuilders := block.builder :: m.writer.availableBuilders } }) := by
  unfold commitEntry
  rw [Prog.bind_of_ok (show touch _ _ = (.ok (), _) from rfl)]
  split
  next ho => exact Prog.bind_of_error (if_pos ho)
  next ho => exact Prog.bind_of_ok (if_neg ho)

section

variable (henc : builder.encode checksum (UInt64.ofNat k) = .ok (metadata, block.encoded))
include henc

theorem stage_and_commit (hclear : block.builder = builder.clear)
    (hsum : summaries = wordPresenceSummaries k builder.words builder.isDurationFree)
    (h : Holding checksum intact calm intake jobs prepared k builder m)
    (hr : m.writer.rotates block.encoded.length = false) (ha : m.writer.activeSegment = some segment) :
    Outcome (fun _ m' => At checksum intact calm 0 intake m' ∧ m'.writer.jobs = jobs ∧
        m'.writer.preparedBlocks = prepared) (Failed checksum intact calm)
      ((stageBlock metadata.header.sequence.toNat block.encoded >>= fun place => do
        commitEntry (.ofHeader metadata.header (← Prog.get).writer.nextDataOffset place.1 place.2)
          summaries block) m) := by
  obtain ⟨hsequence, hlen, -⟩ := WordBlockBuilder.encode_header henc
  have hk : metadata.header.sequence.toNat = m.writer.nextSequence := by
    have hlt := (List.getElem?_eq_some_iff.mp h.block).1
    have hcount := h.inv.stored.count
    rw [hsequence, UInt64.toNat_ofNat_of_lt' (show k < 2 ^ 64 by omega), h.next]
  have hfits := Writer.rotates_small ha hr (hlen ▸ metadata.header.blockLen.toNat_lt)
  have hstage : stageBlock metadata.header.sequence.toNat block.encoded m =
      (.ok (segment.sequence, segment.length), { m with writer := { m.writer with
        activeSegment := some (segment.add m.writer.nextSequence block.encoded) } }) := by
    unfold stageBlock
    rw [ha, hk]
    simp only [ActiveSegment.add]
    rw [if_neg (by omega)]
  rw [Prog.bind_of_ok hstage]
  show Outcome _ _ (commitEntry (.ofHeader metadata.header m.writer.nextDataOffset segment.sequence
    segment.length) summaries block _)
  rw [commitEntry_eq]
  have hentry : (BlockDirectoryEntry.ofHeader metadata.header m.writer.nextDataOffset segment.sequence
      segment.length).sequence.toNat = m.writer.nextSequence := hk
  rw [hentry]
  split
  next ho =>
    exact h.inv.record_pending block.encoded
  next ho =>
    rw [not_or, Nat.not_le, Nat.not_le] at ho
    exact ⟨h.commit ha henc hclear hr hsum ho.1 ho.2, h.jobs, h.prepared⟩

theorem commitEncoded_holding (hclear : block.builder = builder.clear)
    (hsum : summaries = wordPresenceSummaries k builder.words builder.isDurationFree) :
    Triple (Holding checksum intact calm intake jobs prepared k builder)
      (commitEncoded metadata summaries block)
      (fun _ m => At checksum intact calm 0 intake m ∧ m.writer.jobs = jobs ∧
        m.writer.preparedBlocks = prepared) (Failed checksum intact calm) := by
  have hask : Triple (fun m => Holding checksum intact calm intake jobs prepared k builder m ∧
        m.writer.rotates block.encoded.length = false ∧ ∃ segment, m.writer.activeSegment = some segment)
      request
      (fun _ m => Holding checksum intact calm intake jobs prepared k builder m ∧
        m.writer.rotates block.encoded.length = false ∧ ∃ segment, m.writer.activeSegment = some segment)
      (Failed checksum intact calm) :=
    request_triple (fun m hm => ⟨hm.1.shift, hm.2⟩) (fun m hm => hm.1.inv)
  refine (prepareActiveSegment_holding _).bind fun _ => hask.bind fun _ => ?_
  rintro m ⟨hm, hr, segment, ha⟩
  exact stage_and_commit henc hclear hsum hm hr ha

end

theorem commitPreparedBlock_holding :
    Triple (Holding checksum intact calm intake jobs prepared k builder)
      (commitPreparedBlock (prepareEncodedBlock checksum k builder))
      (fun _ m => At checksum intact calm 0 intake m ∧ m.writer.jobs = jobs ∧
        m.writer.preparedBlocks = prepared) (Failed checksum intact calm) := by
  unfold commitPreparedBlock prepareEncodedBlock
  cases henc : builder.encode checksum (UInt64.ofNat k) with
  | error e =>
    refine triple_fail fun m hm => hm.inv.failed ?_ _
    intro hc
    obtain ⟨result, hr⟩ := hm.inv.encodes hc k builder hm.next.le hm.block
    rw [henc] at hr
    cases hr
  | ok result =>
    obtain ⟨metadata, bytes⟩ := result
    exact commitEncoded_holding henc rfl rfl

def Writer.ready (writer : Writer) : Bool := writer.preparedBlocks.any (·.1 = writer.nextSequence)

theorem Writer.find_ready (writer : Writer) :
    writer.preparedBlocks.find? (·.1 = writer.nextSequence) = none ∧ writer.ready = false ∨
      ∃ block, (writer.nextSequence, block) ∈ writer.preparedBlocks ∧ writer.ready = true ∧
        writer.preparedBlocks.find? (·.1 = writer.nextSequence) = some (writer.nextSequence, block) := by
  cases hf : writer.preparedBlocks.find? (·.1 = writer.nextSequence) with
  | none =>
    left
    refine ⟨rfl, ?_⟩
    rw [List.find?_eq_none] at hf
    rw [Writer.ready, List.any_eq_false]
    exact hf
  | some p =>
    right
    obtain ⟨sequence, block⟩ := p
    have hp := List.find?_some hf
    simp only [decide_eq_true_eq] at hp
    have hm := List.mem_of_find?_eq_some hf
    rw [hp] at hm
    refine ⟨block, hm, ?_, by rw [hp]⟩
    rw [Writer.ready, List.any_eq_true]
    exact ⟨_, hm, by simp⟩

theorem At.take_prepared (h : At checksum intact calm 0 intake m)
    (hm : (m.writer.nextSequence, block) ∈ m.writer.preparedBlocks) :
    ∃ builder, block = prepareEncodedBlock checksum m.writer.nextSequence builder ∧
      Holding checksum intact calm intake m.writer.jobs
        (m.writer.preparedBlocks.filter (·.1 ≠ m.writer.nextSequence)) m.writer.nextSequence builder
        { m with writer := { m.writer with
          preparedBlocks := m.writer.preparedBlocks.filter (·.1 ≠ m.writer.nextSequence) } } := by
  obtain ⟨builder, hb, hblock⟩ := h.linked.prepared _ hm
  have hsub : ((m.writer.preparedBlocks.filter (·.1 ≠ m.writer.nextSequence)).map (·.1)).Sublist
      (m.writer.preparedBlocks.map (·.1)) := List.filter_sublist.map _
  have hmem : ∀ i, i ∈ m.writer.jobs.map (·.sequence) ++
      (m.writer.preparedBlocks.filter (·.1 ≠ m.writer.nextSequence)).map (·.1) →
        i ∈ m.writer.outstandingSequences :=
    fun i hi => (List.Sublist.append_left hsub _).subset hi
  have hdistinct := h.linked.distinct
  have hnext : m.writer.nextSequence ∈ m.writer.preparedBlocks.map (·.1) := List.mem_map.mpr ⟨_, hm, rfl⟩
  refine ⟨builder, hblock, ⟨⟨h.stored, h.live, ⟨h.linked.count, h.linked.builder, h.linked.sized, h.linked.ordered,
    h.linked.recent, h.linked.available, h.linked.jobs,
    fun p hp => h.linked.prepared p (List.mem_of_mem_filter hp), h.linked.inFlight,
    hdistinct.sublist (List.Sublist.append_left hsub _), h.linked.committed, h.linked.dataOffset,
    h.linked.segment, h.linked.room⟩, ?_, h.recorded, ?_, h.quiet, h.encodes⟩, rfl, rfl, rfl, hb⟩⟩
  · intro i hi
    have hge := h.fresh i (hmem i hi)
    have hne : i ≠ m.writer.nextSequence := by
      rcases List.mem_append.mp hi with hj | hp
      · rintro rfl
        exact (List.nodup_append.mp hdistinct).2.2 _ hj _ hnext rfl
      · obtain ⟨p, hfilter, rfl⟩ := List.mem_map.mp hp
        simpa using (List.mem_filter.mp hfilter).2
    show m.writer.nextSequence + 1 ≤ i
    omega
  · intro hi
    have ht := h.tracked hi
    refine ⟨?_, ht.appended, ht.tail, ht.current⟩
    intro i hge hlt
    have hge : m.writer.nextSequence + 1 ≤ i := hge
    rcases List.mem_append.mp (ht.accounted i (by omega) hlt) with hj | hp
    · exact List.mem_append_left _ hj
    · obtain ⟨p, hprepared, rfl⟩ := List.mem_map.mp hp
      refine List.mem_append_right _ (List.mem_map.mpr ⟨p, List.mem_filter.mpr ⟨hprepared, ?_⟩, rfl⟩)
      have hne : p.1 ≠ m.writer.nextSequence := by omega
      simpa using hne

theorem filter_backlog (hm : (writer.nextSequence, block) ∈ writer.preparedBlocks) :
    (writer.preparedBlocks.filter (·.1 ≠ writer.nextSequence)).length < writer.preparedBlocks.length := by
  refine List.length_filter_lt_length_iff_exists.mpr ⟨_, hm, ?_⟩
  simp

theorem commitLoop_triple (fuel n : Nat) (ready : Prop) :
    Triple (fun m => At checksum intact calm 0 intake m ∧ m.writer.preparedBlocks.length ≤ fuel ∧
        m.writer.backlog = n ∧ (ready → m.writer.ready = true)) (commitLoop fuel)
      (fun _ m => At checksum intact calm 0 intake m ∧ m.writer.ready = false ∧ m.writer.backlog ≤ n ∧
        (ready → m.writer.backlog < n)) (Failed checksum intact calm) := by
  induction fuel generalizing n ready with
  | zero =>
    rintro m ⟨hm, hlen, hn, hready⟩
    have hnil : m.writer.preparedBlocks = [] := List.length_eq_zero_iff.mp (Nat.le_zero.mp hlen)
    have hnot : m.writer.ready = false := by simp [Writer.ready, hnil]
    exact ⟨hm, hnot, hn.le, fun hr => absurd (hready hr) (by simp [hnot])⟩
  | succ fuel ih =>
    rintro m ⟨hm, hlen, rfl, hready⟩
    show Outcome _ _ ((takePrepared >>= _) m)
    rcases m.writer.find_ready with ⟨hf, hnot⟩ | ⟨block, hmem, hyes, hf⟩
    · have htake : takePrepared m = (.ok none, m) := by
        unfold takePrepared
        rw [hf]
      rw [Prog.bind_of_ok htake]
      exact ⟨hm, hnot, le_rfl, fun hr => absurd (hready hr) (by simp [hnot])⟩
    · have htake : takePrepared m = (.ok (some block), { m with writer := { m.writer with
          preparedBlocks := m.writer.preparedBlocks.filter (·.1 ≠ m.writer.nextSequence) } }) := by
        unfold takePrepared
        rw [hf]
      rw [Prog.bind_of_ok htake]
      obtain ⟨builder, rfl, hholding⟩ := hm.take_prepared hmem
      have hshrink := filter_backlog hmem
      refine Outcome.bind (commitPreparedBlock_holding _ hholding) fun _ => ?_
      refine (ih (2 * m.writer.jobs.length +
        (m.writer.preparedBlocks.filter (·.1 ≠ m.writer.nextSequence)).length) False).weaken ?_ ?_
        (fun _ _ hf => hf)
      · rintro m' ⟨hm', hjobs, hprepared⟩
        refine ⟨hm', ?_, ?_, False.elim⟩
        · rw [hprepared]
          omega
        · rw [Writer.backlog, hjobs, hprepared]
      · rintro _ m' ⟨hm', hnot, hle, -⟩
        unfold Writer.backlog at hle ⊢
        exact ⟨hm', hnot, by omega, fun _ => by omega⟩

theorem commitOrderedBlocks_triple (n : Nat) (ready : Prop) :
    Triple (fun m => At checksum intact calm 0 intake m ∧ m.writer.backlog = n ∧
        (ready → m.writer.ready = true)) commitOrderedBlocks
      (fun _ m => At checksum intact calm 0 intake m ∧ m.writer.ready = false ∧ m.writer.backlog ≤ n ∧
        (ready → m.writer.backlog < n)) (Failed checksum intact calm) :=
  triple_get_bind fun m hm => commitLoop_triple _ n ready m ⟨hm.1, le_rfl, hm.2⟩

end Commit

end LogicConduit
