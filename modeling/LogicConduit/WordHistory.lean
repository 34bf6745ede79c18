import LogicConduit.WordRuns

namespace LogicConduit

open Prog

/-- The blocks a directory describes are all there: each entry reads as the bytes encoded for its
block, from the pending blocks or from its segment, and the blocks follow one another without gaps in
the data and in their segments. -/
structure BlocksReadable (checksum : BlockChecksum) (store : Store) (dispatched : List WordBlockBuilder) :
    Prop where
  bytes : ∀ (k : Nat) (entry : BlockDirectoryEntry), store.state.directory[k]? = some entry →
    ∃ builder metadata bytes, dispatched[k]? = some builder ∧
      builder.encode checksum (UInt64.ofNat k) = .ok (metadata, bytes) ∧
      entry = .ofHeader metadata.header entry.dataOffset entry.segmentSequence entry.segmentOffset ∧
      entry.sequence = UInt64.ofNat k ∧ entry.blockLen.toNat = bytes.length ∧
      store.readEntryBytes entry = .ok bytes ∧ Readable store k entry bytes
  dataOffset : ∀ (k : Nat) (entry : BlockDirectoryEntry), store.state.directory[k]? = some entry →
    entry.dataOffset = Layout.blockBytes (store.state.directory.take k)
  segmentOffset : ∀ (k : Nat) (entry : BlockDirectoryEntry), store.state.directory[k]? = some entry →
    entry.segmentOffset =
      Layout.blockBytes (Layout.inSegment entry.segmentSequence (store.state.directory.take k))
  segmentOrder : ∀ (k : Nat) (entry : BlockDirectoryEntry), store.state.directory[k]? = some entry →
    ∀ earlier ∈ store.state.directory.take k, earlier.segmentSequence ≤ entry.segmentSequence

variable {dispatched : List WordBlockBuilder}

theorem Stored.blocksReadable {checksum : BlockChecksum} {store : Store} (h : Stored checksum store dispatched) :
    BlocksReadable checksum store dispatched := by
  refine ⟨?_, ?_, ?_, ?_⟩
  · intro k entry hk
    obtain ⟨builder, metadata, bytes, hb, hp⟩ := h.placed k entry hk
    exact ⟨builder, metadata, bytes, hb, hp.encode, hp.header, hp.sequence, hp.blockLen,
      hp.readEntryBytes (h.index_lt hk) (h.segmentEnd_lt (List.mem_of_getElem? hk)), hp.readable⟩
  · intro k entry hk
    exact (h.layout.offsets hk).1
  · intro k entry hk
    exact (h.layout.offsets hk).2.1
  · intro k entry hk
    exact (h.layout.offsets hk).2.2

section Runs

variable {checksum : BlockChecksum} {intact : Prop} {config : LiveStoreConfig} {repository : Repository}
  {storeId : UInt64} {choice : Choice} {machine : Machine}

variable {m : Machine} {o : Observation} {step : Step}

theorem Resting.active_pending (h : Resting checksum intact m) (hlive : m.store.state.status = .live)
    {segment : ActiveSegment} (ha : m.writer.activeSegment = some segment) {k : Nat} {entry : BlockDirectoryEntry}
    (hk : m.store.state.directory[k]? = some entry) (hs : entry.segmentSequence = segment.sequence) :
    ∃ bytes, m.store.pendingBlocks k = some bytes := by
  obtain ⟨builder, hat⟩ := h.live hlive
  have hlinked := hat.linked.segment
  rw [ha] at hlinked
  obtain ⟨-, hopen⟩ := hlinked
  obtain ⟨bytes, hp, -⟩ := hopen.pending k entry hk ((hopen.entries k entry hk).mp hs)
  exact ⟨bytes, hp⟩

/-- A store between two instants of a cancellation: the blocks of the segment being written are no longer
pending, and nothing else has changed. -/
structure Discarded (segment : ActiveSegment) (before after : Store) : Prop where
  state : after.state = before.state
  repository : after.repository = before.repository
  gone : ∀ (k : Nat) (entry : BlockDirectoryEntry), before.state.directory[k]? = some entry →
    entry.segmentSequence = segment.sequence → after.pendingBlocks k = none
  kept : ∀ (k : Nat) (entry : BlockDirectoryEntry), before.state.directory[k]? = some entry →
    entry.segmentSequence ≠ segment.sequence → after.readEntryBytes entry = before.readEntryBytes entry

theorem Resting.discarded (h : Resting checksum intact m) (hlive : m.store.state.status = .live)
    {segment : ActiveSegment} (ha : m.writer.activeSegment = some segment) :
    Discarded segment m.store (m.store.removePending segment.blockSequences) := by
  obtain ⟨builder, hat⟩ := h.live hlive
  have hlinked := hat.linked.segment
  rw [ha] at hlinked
  obtain ⟨-, hopen⟩ := hlinked
  have hstored := h.stored (show m.store.state.status ≠ .cancelled by rw [hlive]; simp)
  refine ⟨rfl, rfl, fun k entry hk hs => if_pos ((hopen.entries k entry hk).mp hs), fun k entry hk hs => ?_⟩
  obtain ⟨_, _, _, -, hp⟩ := hstored.placed k entry hk
  have hsequence : entry.sequence.toNat = k := by rw [hp.sequence, UInt64.toNat_ofNat_of_lt' (hstored.index_lt hk)]
  have hkept : k ∉ segment.blockSequences := fun hm => hs ((hopen.entries k entry hk).mpr hm)
  simp only [Store.readEntryBytes, Store.removePending, hsequence, if_neg hkept]

theorem discardActiveSegment_bind {m : Machine} {active : Option ActiveSegment} {program : Unit → WriterM Unit}
    (ha : m.writer.activeSegment = active) : (discardActiveSegment >>= program) m =
      program () (active.elim m fun segment => Machine.touch (Store.removePending segment.blockSequences)
        { m with writer := { m.writer with activeSegment := none } }) := by
  subst ha
  have hget : (Prog.get : WriterM Machine) m = (.ok m, m) := rfl
  refine Prog.bind_of_ok ?_
  rw [discardActiveSegment, Prog.bind_of_ok hget]
  cases m.writer.activeSegment <;> rfl

/-- The instants of a cancellation: the store as it finds it, with the pending blocks of its segment
discarded, and cancelled. -/
theorem Step.Of.cancel_history (hof : step.Of checksum m) (hop : step.call.op = .cancel)
    (hlive : m.store.state.status = .live) :
    step.after.history = m.observe :: (m.writer.activeSegment.map fun segment =>
      { m.observe with store := m.store.removePending segment.blockSequences }).toList ++ [step.after.observe] := by
  have hrun := hof.run
  rw [hof.before, hop] at hrun
  have hrun : cancel (m.start step.call.choices) = (step.result, step.after) := hrun
  have hstart : (m.start step.call.choices).store.state.status = .live := hlive
  have hset (f : Writer → Writer) (program : Unit → WriterM Unit) (m : Machine) :
      (setWriter f >>= program) m = program () { m with writer := f m.writer } := rfl
  rw [cancel, ensureLive_bind hstart, hset, @discardActiveSegment_bind _ m.writer.activeSegment] at hrun
  · rw [← (Prod.mk.inj hrun).2]
    cases m.writer.activeSegment <;> rfl
  · rfl

/-- Committed blocks stay readable at every instant of every call that is not a cancellation, whatever
fails during it. A cancellation finds them readable, makes the pending blocks of the segment being written
unreadable while its store is still live, and leaves the store cancelled. Between two calls the blocks of
that segment are the pending ones. -/
theorem committed_blocks_stay_readable (checksum : BlockChecksum) (config : LiveStoreConfig)
    (repository : Repository) (storeId : UInt64) (choice : Choice) (machine : Machine)
    (h : createWriter config repository storeId choice = .ok machine) (calls : List Call) (step : Step)
    (hstep : step ∈ runCalls checksum calls machine) :
    (step.call.op ≠ .cancel → ∀ o ∈ step.after.history, o.store.state.status ≠ .cancelled →
      BlocksReadable checksum o.store o.dispatched) ∧
    (step.before.store.state.status ≠ .cancelled →
      BlocksReadable checksum step.before.store step.before.dispatched) ∧
    (step.before.store.state.status = .live → ∀ segment, step.before.writer.activeSegment = some segment →
      ∀ (k : Nat) (entry : BlockDirectoryEntry), step.before.store.state.directory[k]? = some entry →
        entry.segmentSequence = segment.sequence → ∃ bytes, step.before.store.pendingBlocks k = some bytes) ∧
    (step.call.op = .cancel → step.before.store.state.status = .live →
      step.after.store.state.status = .cancelled ∧
      (∀ o ∈ step.after.history, o.store.state.status ≠ .cancelled → BlocksReadable checksum o.store o.dispatched ∨
        ∃ segment, step.before.writer.activeSegment = some segment ∧ Discarded segment step.before.store o.store) ∧
      ∀ segment, step.before.writer.activeSegment = some segment →
        ∃ o ∈ step.after.history, Discarded segment step.before.store o.store) ∧
    (step.before.store.state.status ≠ .live → step.after.store = step.before.store) := by
  obtain ⟨m, hm, hof⟩ := runCalls_resting False h calls False.elim step hstep
  have hstore : step.before.store = m.store := by
    rw [hof.before]
    rfl
  have hdispatched : step.before.dispatched = m.dispatched := by
    rw [hof.before]
    rfl
  have hwriter : step.before.writer = m.writer := by
    rw [hof.before]
    rfl
  rw [hstore, hdispatched, hwriter]
  refine ⟨?_, ?_, ?_, ?_, ?_⟩
  · intro hop o ho hstatus
    exact (hof.stored_at hm hop ho hstatus).blocksReadable
  · intro hc
    exact (hm.stored hc).blocksReadable
  · intro hlive segment ha k entry hk hs
    exact hm.active_pending hlive ha hk hs
  · intro hop hlive
    have hcancelled := (hof.cancelled hop hlive).2
    have hhistory := hof.cancel_history hop hlive
    refine ⟨hcancelled, ?_, ?_⟩
    · intro o ho hstatus
      rw [hhistory, List.cons_append, List.mem_cons, List.mem_append, List.mem_singleton] at ho
      rcases ho with rfl | ho | rfl
      · exact Or.inl (hm.stored hstatus).blocksReadable
      · cases ha : m.writer.activeSegment with
        | none =>
          rw [ha] at ho
          cases ho
        | some segment =>
          rw [ha, Option.map_some, Option.toList_some, List.mem_singleton] at ho
          rw [ho]
          exact Or.inr ⟨segment, rfl, hm.discarded hlive ha⟩
      · exact absurd hcancelled hstatus
    · intro segment ha
      refine ⟨{ m.observe with store := m.store.removePending segment.blockSequences }, ?_, hm.discarded hlive ha⟩
      rw [hhistory, ha]
      simp
  · intro hlive
    rw [(hof.notLive hlive).2]
    rfl

def oneWordBlocks : LiveStoreConfig where
  cacheKeyPrefix := []
  block := { BlockCodecConfig.default with maxWords := 1 }
  hotTailPublishWords := 1
  persistence := none
  availableParallelism := 1

/-- Encoders that complete at once, and a repository that refuses nothing. -/
def promptly : Nat → Choice := fun _ => ⟨some 0, false, none, none, false, 0⟩

/-- A committed block in neither place, in a store that is still live. -/
def Observation.missesBlock (o : Observation) : Bool :=
  o.store.state.status = .live && o.store.state.directory.any fun entry =>
    o.store.pendingBlocks entry.sequence.toNat = none &&
      o.store.repository (segmentKey o.store.storeIdentity entry.segmentSequence) = none

/-- A cancellation discards the blocks of its active segment before the store is cancelled. -/
theorem cancel_discards_live_block :
    ∃ machine step o entry, createWriter oneWordBlocks Repository.empty 0 (promptly 0) = .ok machine ∧
      step ∈ runCalls .crc32c [⟨.append (Word.new 1 10), promptly⟩, ⟨.cancel, promptly⟩] machine ∧
      o ∈ step.after.history ∧ o.store.state.status = .live ∧ entry ∈ o.store.state.directory ∧
      o.store.pendingBlocks entry.sequence.toNat = none ∧
      o.store.repository (segmentKey o.store.storeIdentity entry.segmentSequence) = none ∧
      ∃ e, o.store.readEntryBytes entry = .error e := by
  obtain ⟨machine, hcreate⟩ : ∃ machine,
      createWriter oneWordBlocks Repository.empty 0 (promptly 0) = .ok machine := ⟨_, rfl⟩
  have hrun : (createWriter oneWordBlocks Repository.empty 0 (promptly 0)).toOption.any (fun machine =>
      (runCalls .crc32c [⟨.append (Word.new 1 10), promptly⟩, ⟨.cancel, promptly⟩] machine).any fun step =>
        step.after.history.any Observation.missesBlock) = true := by decide +kernel
  rw [hcreate] at hrun
  obtain ⟨step, hstep, hpoints⟩ := List.any_eq_true.mp hrun
  obtain ⟨o, ho, hmisses⟩ := List.any_eq_true.mp hpoints
  rw [Observation.missesBlock, Bool.and_eq_true, decide_eq_true_eq] at hmisses
  obtain ⟨hlive, hentries⟩ := hmisses
  obtain ⟨entry, hentry, hgone⟩ := List.any_eq_true.mp hentries
  rw [Bool.and_eq_true, decide_eq_true_eq, decide_eq_true_eq] at hgone
  obtain ⟨hpending, hsegment⟩ := hgone
  refine ⟨machine, step, o, entry, hcreate, hstep, ho, hlive, hentry, hpending, hsegment, ?_⟩
  simp [Store.readEntryBytes, hpending, hsegment]

/-- Two encoders for blocks of two words. -/
def twoEncoders : LiveStoreConfig where
  cacheKeyPrefix := []
  block := { BlockCodecConfig.default with maxWords := 2 }
  hotTailPublishWords := 1
  persistence := none
  availableParallelism := 8

/-- Of two blocks in flight the later one completes first. -/
def laterFirst : Nat → Choice := fun _ => ⟨some 1, false, none, none, false, 0⟩

def fiveWords : List Word := [.new 1 10, .new 2 20, .new 3 30, .new 4 40, .new 5 50]

/-- Three blocks, of which the second is encoded before the first. -/
theorem committed_blocks_stay_readable_append :
    ∃ machine step o, createWriter twoEncoders Repository.empty 0 (laterFirst 0) = .ok machine ∧
      step ∈ runCalls .crc32c [⟨.appendBatch fiveWords, laterFirst⟩, ⟨.finish, laterFirst⟩] machine ∧
      o ∈ step.after.history ∧
      o.store.state.directory.length = 3 ∧ BlocksReadable .crc32c o.store o.dispatched := by
  obtain ⟨machine, hcreate⟩ : ∃ machine,
      createWriter twoEncoders Repository.empty 0 (laterFirst 0) = .ok machine := ⟨_, rfl⟩
  have hrun : (createWriter twoEncoders Repository.empty 0 (laterFirst 0)).toOption.any (fun machine =>
      (runCalls .crc32c [⟨.appendBatch fiveWords, laterFirst⟩, ⟨.finish, laterFirst⟩] machine).any fun step =>
        step.call.op ≠ .cancel && step.after.history.any fun o =>
          o.store.state.directory.length = 3 && o.store.state.status ≠ .cancelled) = true := by decide +kernel
  rw [hcreate] at hrun
  obtain ⟨step, hstep, hpoints⟩ := List.any_eq_true.mp hrun
  rw [Bool.and_eq_true, decide_eq_true_eq] at hpoints
  obtain ⟨o, ho, hcommitted⟩ := List.any_eq_true.mp hpoints.2
  rw [Bool.and_eq_true, decide_eq_true_eq, decide_eq_true_eq] at hcommitted
  have hreadable := committed_blocks_stay_readable .crc32c twoEncoders Repository.empty 0 (laterFirst 0) machine
    hcreate _ step hstep
  exact ⟨machine, step, o, hcreate, hstep, ho, hcommitted.1, hreadable.1 hpoints.1 o ho hcommitted.2⟩

/-- The instants of a run at which the shared store changed, in order. -/
def runPoints (steps : List Step) : List Observation := steps.flatMap (·.after.history)

/-- The words a reader finds: those of the committed blocks, read and decoded, then the hot tail. -/
def Observation.words (checksum : BlockChecksum) (o : Observation) : StoreResult (List Word) := do
  let committed ← o.store.committedWords checksum
  return committed ++ o.store.state.hotTail

theorem Stored.words (h : Stored checksum o.store o.dispatched) : o.words checksum = .ok o.visible := by
  rw [Observation.words, h.committedWords]
  rfl

theorem Step.Of.starts (hof : step.Of checksum m) : ∃ rest, step.after.history = m.observe :: rest := by
  obtain ⟨rest, hrest⟩ := hof.follows.history
  exact ⟨rest, hrest.symm⟩

theorem Step.Of.shown_of (hof : step.Of checksum m) (ho : o ∈ step.after.history)
    (hs : o.shown) : m.observe.shown := by
  by_cases hlive : m.store.state.status = .live
  · exact Or.inl hlive
  · rw [(hof.notLive hlive).2] at ho
    rw [List.mem_singleton.mp ho] at hs
    exact hs

/-- What readers find over a run that loses no block. -/
theorem runPoints_seen (calls : List Call) (m : Machine) (h : Resting checksum True m)
    (hc : m.store.state.status ≠ .cancelled)
    (hsteps : ∀ step ∈ runCalls checksum calls m, step.Clean checksum ∧ step.call.op ≠ .cancel) :
    Seen (runPoints (runCalls checksum calls m)) ∧ ∀ o ∈ runPoints (runCalls checksum calls m), o.shown →
      m.observe.shown ∧ m.observe.visible <+: o.visible := by
  induction calls generalizing m with
  | nil =>
    refine ⟨⟨?_, List.Pairwise.nil⟩, ?_⟩
    · intro o ho
      cases ho
    · intro o ho
      cases ho
  | cons call rest ih =>
    obtain ⟨first, hof, -, hrun⟩ := runCalls_cons checksum call rest m
    rw [hrun] at hsteps ⊢
    obtain ⟨hclean, hop⟩ := hsteps first List.mem_cons_self
    have hseen := (hof.recorded h hc hop (fun _ => hclean)).seen trivial
    obtain ⟨others, hstarts⟩ := hof.starts
    -- The instants of the first call: its history starts with what the call found.
    have hfound : ∀ o ∈ first.after.history, o.shown → m.observe.shown ∧ m.observe.visible <+: o.visible := by
      intro o ho hs
      have hshown := hof.shown_of ho hs
      refine ⟨hshown, ?_⟩
      have hgrows := hseen.grows
      rw [hstarts] at ho hgrows
      rcases List.mem_cons.mp ho with rfl | ho
      · exact List.prefix_rfl
      · exact (List.pairwise_cons.mp hgrows).1 o ho hshown hs
    have hpoints : ∀ steps, runPoints (first :: steps) = first.after.history ++ runPoints steps := fun _ => rfl
    rw [hpoints]
    cases hr : Halt.returned first.result with
    | false =>
      rw [if_neg (by simp), runPoints, List.flatMap_nil, List.append_nil]
      exact ⟨hseen, hfound⟩
    | true =>
      rw [hr] at hsteps
      have hleft := hof.left h hc hop (fun _ => hclean) hr
      obtain ⟨hlater, hbound⟩ := ih first.after hleft.resting hleft.kept
        (fun step hm => hsteps step (List.mem_cons_of_mem _ hm))
      rw [if_pos rfl]
      refine ⟨⟨?_, ?_⟩, ?_⟩
      · intro o ho hs
        rcases List.mem_append.mp ho with ho | ho
        · exact hseen.appended o ho hs
        · exact hlater.appended o ho hs
      · refine List.pairwise_append.mpr ⟨hseen.grows, hlater.grows, ?_⟩
        intro a ha b hb hsa hsb
        obtain ⟨hafter, hle⟩ := hbound b hb hsb
        exact (hleft.current trivial a ha hsa hafter).trans hle
      · intro o ho hs
        rcases List.mem_append.mp ho with ho | ho
        · exact hfound o ho hs
        · obtain ⟨hafter, hle⟩ := hbound o ho hs
          have hshown : m.observe.shown := by
            by_cases hlive : m.store.state.status = .live
            · exact Or.inl hlive
            · rw [(hof.notLive hlive).2] at hafter
              exact hafter
          have hmem : m.observe ∈ first.after.history := by
            rw [hstarts]
            exact List.mem_cons_self
          exact ⟨hshown, (hleft.current trivial m.observe hmem hshown hafter).trans hle⟩

/-- What the directory of a store says of its blocks: they are numbered in order, and their words are
counted. -/
structure DirectoryCounts (store : Store) : Prop where
  sequences : ∀ (k : Nat) (entry : BlockDirectoryEntry), store.state.directory[k]? = some entry →
    entry.sequence.toNat = k
  wordCount : store.state.committedWordCount = (store.state.directory.map (·.wordCount.toNat)).sum

theorem Stored.directoryCounts {store : Store} (h : Stored checksum store dispatched) : DirectoryCounts store := by
  refine ⟨?_, h.wordCount⟩
  intro k entry hk
  obtain ⟨builder, metadata, bytes, -, hp⟩ := h.placed k entry hk
  rw [hp.sequence, UInt64.toNat_ofNat_of_lt' (h.index_lt hk)]

/-- In a run that publishes no hot tail while a block can be lost, the committed blocks and the hot tail
are at every instant a prefix of the words appended, one that never shrinks; a successful finish leaves
all of them in the committed blocks. -/
theorem visible_prefix_grows (checksum : BlockChecksum) (config : LiveStoreConfig) (repository : Repository)
    (storeId : UInt64) (choice : Choice) (machine : Machine)
    (h : createWriter config repository storeId choice = .ok machine) (calls : List Call)
    (hops : ∀ call ∈ calls, call.op ≠ .cancel)
    (hclean : ∀ step ∈ runCalls checksum calls machine, step.Clean checksum) :
    (∀ o ∈ runPoints (runCalls checksum calls machine), o.shown →
      (∃ words, o.words checksum = .ok words ∧ words <+: o.appended) ∧ DirectoryCounts o.store) ∧
    (runPoints (runCalls checksum calls machine)).Pairwise (fun a b => a.shown → b.shown →
      ∃ words more, a.words checksum = .ok words ∧ b.words checksum = .ok more ∧ words <+: more) ∧
    ∀ step ∈ runCalls checksum calls machine, step.call.op = .finish → step.result = .ok () →
      step.after.store.state.status = .finished ∧
        step.after.store.committedWords checksum = .ok step.after.appended ∧
        step.after.store.state.hotTail = [] := by
  obtain ⟨hrest, hopen⟩ : Resting checksum True machine ∧ machine.store.state.status ≠ .cancelled :=
    createWriter_resting h
  have hsteps : ∀ step ∈ runCalls checksum calls machine, step.Clean checksum ∧ step.call.op ≠ .cancel :=
    fun step hm => ⟨hclean step hm, hops _ (runCalls_call_mem calls machine step hm)⟩
  have hfound : ∀ step ∈ runCalls checksum calls machine, ∃ m, (Resting checksum True m ∧
      m.store.state.status ≠ .cancelled) ∧ step.Of checksum m := by
    refine runCalls_invariant ?_ calls machine ⟨hrest, hopen⟩ hsteps
    intro m step hm hof hstep hr
    have hleft := hof.left hm.1 hm.2 hstep.2 (fun _ => hstep.1) hr
    exact ⟨hleft.resting, hleft.kept⟩
  have hstored : ∀ o ∈ runPoints (runCalls checksum calls machine), Stored checksum o.store o.dispatched := by
    intro o ho
    obtain ⟨step, hm, ho⟩ := List.mem_flatMap.mp ho
    obtain ⟨m, ⟨hr, hc⟩, hof⟩ := hfound step hm
    exact (hof.recorded hr hc (hsteps step hm).2 (fun _ => (hsteps step hm).1)).stored o ho
  obtain ⟨hseen, -⟩ := runPoints_seen calls machine hrest hopen hsteps
  refine ⟨?_, ?_, ?_⟩
  · intro o ho hs
    exact ⟨⟨o.visible, (hstored o ho).words, hseen.appended o ho hs⟩, (hstored o ho).directoryCounts⟩
  · refine hseen.grows.imp_of_mem ?_
    intro a b ha hb hab hsa hsb
    exact ⟨a.visible, b.visible, (hstored a ha).words, (hstored b hb).words, hab hsa hsb⟩
  · intro step hm hop hok
    obtain ⟨m, ⟨hr, -⟩, hof⟩ := hfound step hm
    have hfinished := hof.finished hr hop hok
    obtain ⟨htail, hvisible⟩ := hfinished.complete trivial
    refine ⟨hfinished.status, ?_, htail⟩
    rw [hfinished.stored.committedWords, ← hvisible]
    show _ = Except.ok (_ ++ step.after.store.state.hotTail)
    rw [htail, List.append_nil]
    rfl

/-- Encoders that have not completed yet. -/
def slowly : Nat → Choice := fun _ => ⟨none, false, none, none, false, 0⟩

/-- Encoders that complete at once, and a repository without room. -/
def refusing : Nat → Choice := fun _ => ⟨some 0, false, some .quotaExceeded, none, false, 0⟩

/-- A word is appended, its block is lost in a call to publish the hot tail, and the store finishes. -/
def lossyCalls : List Call :=
  [⟨.append (Word.new 1 10), slowly⟩, ⟨.publishHotTail, refusing⟩, ⟨.finish, promptly⟩]

theorem finish_after_lost_block :
    ∃ machine step, createWriter oneWordBlocks Repository.empty 0 (promptly 0) = .ok machine ∧
      step ∈ runCalls .crc32c lossyCalls machine ∧ step.call.op = .finish ∧ step.result = .ok () ∧
      step.after.store.state.status = .finished ∧ step.after.appended = [Word.new 1 10] ∧
      step.after.store.committedWords .crc32c = .ok [] := by
  obtain ⟨machine, hcreate⟩ : ∃ machine,
      createWriter oneWordBlocks Repository.empty 0 (promptly 0) = .ok machine := ⟨_, rfl⟩
  have hrun : (createWriter oneWordBlocks Repository.empty 0 (promptly 0)).toOption.any (fun machine =>
      (runCalls .crc32c lossyCalls machine).any fun step =>
        step.call.op = .finish && step.result.isOk && step.after.store.state.status = .finished &&
          step.after.appended = [Word.new 1 10] && step.after.store.state.directory = []) = true := by
    decide +kernel
  rw [hcreate] at hrun
  obtain ⟨step, hstep, hlost⟩ := List.any_eq_true.mp hrun
  simp only [Bool.and_eq_true, decide_eq_true_eq] at hlost
  obtain ⟨⟨⟨⟨hop, hok⟩, hstatus⟩, happended⟩, hempty⟩ := hlost
  have hresult : step.result = .ok () := by
    cases hr : step.result with
    | ok a => rfl
    | error halt =>
      rw [hr] at hok
      cases hok
  refine ⟨machine, step, hcreate, hstep, hop, hresult, hstatus, happended, ?_⟩
  rw [Store.committedWords, hempty]
  rfl

/-- Five words of which the second block is encoded first, two more, a hot tail, and the end. -/
def tailCalls : List Call :=
  [⟨.appendBatch fiveWords, laterFirst⟩, ⟨.append (Word.new 6 60), promptly⟩, ⟨.append (Word.new 7 70), promptly⟩,
    ⟨.publishHotTail, promptly⟩, ⟨.finish, promptly⟩]

theorem clean_of_idle {steps : List Step} (h : steps.all (fun step =>
    step.call.op ≠ .publishHotTail || step.before.writer.outstandingBlocks = 0) = true) :
    ∀ step ∈ steps, step.Clean checksum := by
  intro step hm hop _
  have hidle := List.all_eq_true.mp h step hm
  simp only [hop, ne_eq, not_true, decide_false, Bool.false_or, decide_eq_true_eq] at hidle
  exact Or.inl hidle

theorem visible_prefix_grows_tail :
    ∃ machine step, createWriter twoEncoders Repository.empty 0 (promptly 0) = .ok machine ∧
      step ∈ runCalls .crc32c tailCalls machine ∧ step.call.op = .finish ∧
      step.after.store.state.directory.length = 4 ∧
      step.after.store.committedWords .crc32c = .ok (fiveWords ++ [.new 6 60, .new 7 70]) := by
  obtain ⟨machine, hcreate⟩ : ∃ machine, createWriter twoEncoders Repository.empty 0 (promptly 0) = .ok machine :=
    ⟨_, rfl⟩
  have hrun : (createWriter twoEncoders Repository.empty 0 (promptly 0)).toOption.any (fun machine =>
        (runCalls .crc32c tailCalls machine).all (fun step =>
          step.call.op ≠ .publishHotTail || step.before.writer.outstandingBlocks = 0) &&
        (runCalls .crc32c tailCalls machine).any fun step => step.call.op = .finish && step.result.isOk &&
          step.after.store.state.directory.length = 4 &&
          step.after.appended = fiveWords ++ [.new 6 60, .new 7 70]) = true := by
    decide +kernel
  rw [hcreate] at hrun
  obtain ⟨hidle, hfinish⟩ := (Bool.and_eq_true _ _).mp hrun
  obtain ⟨step, hstep, hdone⟩ := List.any_eq_true.mp hfinish
  simp only [Bool.and_eq_true, decide_eq_true_eq] at hdone
  obtain ⟨⟨⟨hop, hok⟩, hblocks⟩, happended⟩ := hdone
  have hresult : step.result = .ok () := by
    cases hr : step.result with
    | ok a => rfl
    | error halt =>
      rw [hr] at hok
      cases hok
  have hgrows := visible_prefix_grows .crc32c _ Repository.empty 0 (promptly 0) machine hcreate tailCalls
    (by decide) (clean_of_idle hidle)
  have hwords := (hgrows.2.2 step hstep hop hresult).2.1
  rw [happended] at hwords
  exact ⟨machine, step, hcreate, hstep, hop, hblocks, hwords⟩

theorem runCalls_notLive (calls : List Call) (m : Machine) (hlive : m.store.state.status ≠ .live) :
    ∀ step ∈ runCalls checksum calls m, step.result = .error (.error (.notLive m.store.state.status)) := by
  intro step hm
  have hsame : ∃ earlier, earlier.store.state.status = m.store.state.status ∧ step.Of checksum earlier := by
    refine runCalls_invariant (P := fun earlier => earlier.store.state.status = m.store.state.status)
      (Q := fun _ => True) ?_ calls m rfl (fun _ _ => trivial) step hm
    intro earlier next hstatus hof _ _
    rw [(hof.notLive (hstatus ▸ hlive)).2]
    exact hstatus
  obtain ⟨earlier, hstatus, hof⟩ := hsame
  rw [(hof.notLive (hstatus ▸ hlive)).1, hstatus]

/-- A call returns an error that is not the refusal of a store that is not live. -/
def Step.Errs (step : Step) : Prop :=
  ∃ e, step.result = .error (.error e) ∧ ∀ status, e ≠ .notLive status

theorem Step.Of.failed (hof : step.Of checksum m) (h : Resting checksum False m)
    (hclean : step.Clean checksum) (herrs : step.Errs) :
    ∃ message, step.after.store.state.status = .failed message := by
  obtain ⟨e, hresult, hother⟩ := herrs
  by_cases hlive : m.store.state.status = .live
  · by_cases hop : step.call.op = .cancel
    · rw [(hof.cancelled hop hlive).1] at hresult
      cases hresult
    · have hout := hof.outcome h hlive hop False.elim
      rw [hresult] at hout
      exact hout.2 hclean
  · rw [(hof.notLive hlive).1] at hresult
    cases hresult
    exact absurd rfl (hother _)

/-- In a run that publishes no hot tail while a block can be lost, every error of a call leaves the
store failed, and every later call is refused. -/
theorem writer_errors_are_terminal (checksum : BlockChecksum) (config : LiveStoreConfig)
    (repository : Repository) (storeId : UInt64) (choice : Choice) (machine : Machine)
    (h : createWriter config repository storeId choice = .ok machine) (calls : List Call)
    (hclean : ∀ step ∈ runCalls checksum calls machine, step.Clean checksum) :
    (∀ step ∈ runCalls checksum calls machine, step.Errs →
      ∃ message, step.after.store.state.status = .failed message) ∧
    (runCalls checksum calls machine).Pairwise (fun step later => step.Errs →
      later.result = .error (.error (.notLive step.after.store.state.status))) := by
  have hrest : Resting checksum False machine := (createWriter_resting h).1
  clear h
  induction calls generalizing machine with
  | nil =>
    refine ⟨?_, List.Pairwise.nil⟩
    intro step hm
    cases hm
  | cons call rest ih =>
    obtain ⟨first, hof, -, hrun⟩ := runCalls_cons checksum call rest machine
    rw [hrun] at hclean ⊢
    have hfirst := hclean first List.mem_cons_self
    cases hr : Halt.returned first.result with
    | false =>
      rw [if_neg (by simp)]
      refine ⟨?_, List.pairwise_singleton _ _⟩
      intro step hm herrs
      rw [List.mem_singleton.mp hm] at herrs ⊢
      exact hof.failed hrest hfirst herrs
    | true =>
      rw [hr, if_pos rfl] at hclean
      rw [if_pos rfl]
      obtain ⟨hfailed, hlater⟩ := ih first.after (fun step hm => hclean step (List.mem_cons_of_mem _ hm))
        (hof.resting hrest False.elim hr)
      refine ⟨?_, List.pairwise_cons.mpr ⟨?_, hlater⟩⟩
      · intro step hm herrs
        rcases List.mem_cons.mp hm with heq | hm
        · rw [heq] at herrs ⊢
          exact hof.failed hrest hfirst herrs
        · exact hfailed step hm herrs
      · intro later hm herrs
        obtain ⟨message, hstatus⟩ := hof.failed hrest hfirst herrs
        refine runCalls_notLive rest first.after ?_ later hm
        rw [hstatus]
        simp

theorem publishHotTail_error_stays_live :
    ∃ machine step, createWriter oneWordBlocks Repository.empty 0 (promptly 0) = .ok machine ∧
      step ∈ runCalls .crc32c lossyCalls machine ∧ step.call.op = .publishHotTail ∧
      step.result = .error (.error (.repository .quotaExceeded)) ∧ step.after.store.state.status = .live := by
  obtain ⟨machine, hcreate⟩ : ∃ machine,
      createWriter oneWordBlocks Repository.empty 0 (promptly 0) = .ok machine := ⟨_, rfl⟩
  have hrun : (createWriter oneWordBlocks Repository.empty 0 (promptly 0)).toOption.any (fun machine =>
      (runCalls .crc32c lossyCalls machine).any fun step => step.call.op = .publishHotTail ∧
        step.result = .error (.error (.repository .quotaExceeded)) ∧
        step.after.store.state.status = .live) = true := by decide +kernel
  rw [hcreate] at hrun
  obtain ⟨step, hstep, hlive⟩ := List.any_eq_true.mp hrun
  exact ⟨machine, step, hcreate, hstep, of_decide_eq_true hlive⟩

theorem writer_errors_are_terminal_refusal :
    ∃ machine step, createWriter oneWordBlocks Repository.empty 0 (promptly 0) = .ok machine ∧
      step ∈ runCalls .crc32c [⟨.append (Word.new 1 10), refusing⟩, ⟨.finish, promptly⟩] machine ∧ step.Errs ∧
      ∃ message, step.after.store.state.status = .failed message := by
  obtain ⟨machine, hcreate⟩ : ∃ machine,
      createWriter oneWordBlocks Repository.empty 0 (promptly 0) = .ok machine := ⟨_, rfl⟩
  have hrun : (createWriter oneWordBlocks Repository.empty 0 (promptly 0)).toOption.any (fun machine =>
      (runCalls .crc32c [⟨.append (Word.new 1 10), refusing⟩, ⟨.finish, promptly⟩] machine).all (fun step =>
        step.call.op ≠ .publishHotTail || step.before.writer.outstandingBlocks = 0) &&
      (runCalls .crc32c [⟨.append (Word.new 1 10), refusing⟩, ⟨.finish, promptly⟩] machine).any fun step =>
        step.result = .error (.error (.repository .quotaExceeded))) = true := by decide +kernel
  rw [hcreate] at hrun
  obtain ⟨hidle, herror⟩ := (Bool.and_eq_true _ _).mp hrun
  obtain ⟨step, hstep, hresult⟩ := List.any_eq_true.mp herror
  have herrs : step.Errs := by
    refine ⟨_, of_decide_eq_true hresult, ?_⟩
    intro status heq
    cases heq
  have hterminal := writer_errors_are_terminal .crc32c oneWordBlocks Repository.empty 0 (promptly 0) machine
    hcreate _ (clean_of_idle hidle)
  exact ⟨machine, step, hcreate, hstep, herrs, hterminal.1 step hstep herrs⟩

end Runs

end LogicConduit
