import Mathlib.Data.List.Forall2
import Mathlib.Data.List.Induction
import LogicConduit.Replication

namespace LogicConduit

open ReplicatingArtifactRepository ArtifactReplicationReceiver ReplicationRun

theorem resizeStaged_length_eq (staged : Bytes) (length : Nat) : (resizeStaged staged length).length = length := by
  simp only [resizeStaged, List.length_append, List.length_take, List.length_replicate]
  omega

theorem writeAt_length_eq (staged source : Bytes) (offset : Nat) :
    (writeAt staged offset source).length = max staged.length (offset + source.length) := by
  unfold writeAt
  split
  · next hgrows =>
    rw [putRange_length (by rw [resizeStaged_length_eq]), resizeStaged_length_eq]
    omega
  · next hfits =>
    rw [putRange_length (by omega)]
    omega

/-- The tracked length is the length of the wrapped writer, and is a `u64`. -/
def ReplicatingWriteArtifact.Tracks (writer : ReplicatingWriteArtifact) : Prop :=
  writer.length = writer.inner.length ∧ writer.length < 2 ^ 64

theorem ReplicatingWriteArtifact.Tracks.perform {writer : ReplicatingWriteArtifact} (h : writer.Tracks)
    (op : WriteOp) : (writer.perform op).Tracks ∧ (writer.perform op).key = writer.key := by
  cases op with
  | writeAt offset source =>
    by_cases hover : 2 ^ 64 ≤ offset.toNat + source.length
    · have hrefused : writer.perform (.writeAt offset source) = writer := by
        simp only [ReplicatingWriteArtifact.perform, ReplicatingWriteArtifact.writeAt, stagedWriteAt, if_pos hover]
      rw [hrefused]
      exact ⟨h, rfl⟩
    · have hdone : writer.perform (.writeAt offset source) =
          { writer with
            inner := LogicConduit.writeAt writer.inner offset.toNat source
            length := max writer.length (offset.toNat + source.length) } := by
        simp only [ReplicatingWriteArtifact.perform, ReplicatingWriteArtifact.writeAt, stagedWriteAt, if_neg hover]
      rw [hdone]
      refine ⟨⟨?_, ?_⟩, rfl⟩
      · simp only [writeAt_length_eq, h.1]
      · have hlt := h.2
        simp only
        omega
  | truncate len => exact ⟨⟨(resizeStaged_length_eq _ _).symm, len.toNat_lt⟩, rfl⟩
  | flush => exact ⟨h, rfl⟩

theorem written_tracks (key : ArtifactKey) (ops : List WriteOp) :
    (written key ops).Tracks ∧ (written key ops).key = key := by
  have hrun : ∀ (ops : List WriteOp) (writer : ReplicatingWriteArtifact), writer.Tracks → writer.key = key →
      (ops.foldl ReplicatingWriteArtifact.perform writer).Tracks ∧
        (ops.foldl ReplicatingWriteArtifact.perform writer).key = key := by
    intro ops
    induction ops with
    | nil => exact fun writer h hkey => ⟨h, hkey⟩
    | cons op rest ih =>
      intro writer h hkey
      exact ih _ (h.perform op).1 ((h.perform op).2.trans hkey)
  exact hrun ops _ ⟨rfl, Nat.two_pow_pos 64⟩ rfl

theorem readExactAt_eq {reader : Bytes} {offset wanted : Nat} (h : offset + wanted ≤ reader.length) :
    readExactAt reader offset wanted = .ok ((reader.drop offset).take wanted) := by
  have hlen : ((reader.drop offset).take wanted).length = wanted := by
    rw [List.length_take, List.length_drop]
    omega
  have hread : readArtifactAt reader offset wanted = .ok ((reader.drop offset).take wanted) := by
    rw [readArtifactAt, if_neg (by omega)]
  unfold readExactAt
  cases wanted with
  | zero => simp [readExactLoop]
  | succ rounds =>
    rw [readExactLoop, if_pos (by simp)]
    simp only [List.length_nil, Nat.add_zero, Nat.sub_zero, hread]
    cases hdata : (reader.drop offset).take (rounds + 1) with
    | nil =>
      rw [hdata] at hlen
      cases hlen
    | cons first data =>
      rw [hdata] at hlen
      simp only [List.nil_append]
      cases rounds with
      | zero => rfl
      | succ rounds => rw [readExactLoop, if_neg (by omega)]

/-- A publication of which the first `offset` bytes have gone out. -/
structure Transfer where
  key : ArtifactKey
  bytes : Bytes
  offset : Nat

/-- The key can be sent and the length is a `u64`. -/
def Transfer.Valid (transfer : Transfer) : Prop :=
  transfer.key.nameSpace ≠ "" ∧ transfer.bytes.length < 2 ^ 64

def Transfer.chunk (transfer : Transfer) (count : Nat) (complete : Bool) : ArtifactReplicationEvent :=
  .publishedChunk transfer.key.nameSpace transfer.key.identity transfer.offset transfer.bytes.length
    ((transfer.bytes.drop transfer.offset).take count) complete

def Transfer.advance (transfer : Transfer) (count : Nat) : Transfer :=
  { transfer with offset := transfer.offset + count }

/-- Between two mutations there is no transfer; inside one there is something sent and something left. -/
inductive Transfer.At : Option Transfer → Transfer → Prop
  | first {transfer : Transfer} (h : transfer.offset = 0) : Transfer.At none transfer
  | next {transfer : Transfer} (hsent : 0 < transfer.offset) (hleft : transfer.offset < transfer.bytes.length) :
    Transfer.At (some transfer) transfer

inductive Carries : Option Transfer → List ArtifactReplicationEvent → Option Transfer → List Mutation → Prop
  | done (progress : Option Transfer) : Carries progress [] progress []
  | removed {key : ArtifactKey} {events : List ArtifactReplicationEvent} {last : Option Transfer}
      {mutations : List Mutation} (hkey : key.nameSpace ≠ "") (h : Carries none events last mutations) :
      Carries none (.removed key.nameSpace key.identity :: events) last (.removed key :: mutations)
  | part {progress last : Option Transfer} {transfer : Transfer} {count : Nat}
      {events : List ArtifactReplicationEvent} {mutations : List Mutation} (hvalid : transfer.Valid)
      (hat : Transfer.At progress transfer) (hcount : 0 < count)
      (hleft : transfer.offset + count < transfer.bytes.length)
      (h : Carries (some (transfer.advance count)) events last mutations) :
      Carries progress (transfer.chunk count false :: events) last mutations
  | finish {progress last : Option Transfer} {transfer : Transfer} {events : List ArtifactReplicationEvent}
      {mutations : List Mutation} (hvalid : transfer.Valid) (hat : Transfer.At progress transfer)
      (h : Carries none events last mutations) :
      Carries progress (transfer.chunk (transfer.bytes.length - transfer.offset) true :: events) last
        (.published transfer.key transfer.bytes :: mutations)

theorem Carries.append {first between last : Option Transfer} {events more : List ArtifactReplicationEvent}
    {mutations others : List Mutation} (h : Carries first events between mutations)
    (h' : Carries between more last others) : Carries first (events ++ more) last (mutations ++ others) := by
  induction h with
  | done progress => exact h'
  | removed hkey _ ih => exact .removed hkey (ih h')
  | part hvalid hat hcount hleft _ ih => exact .part hvalid hat hcount hleft (ih h')
  | finish hvalid hat _ ih => exact .finish hvalid hat (ih h')

/-- An entry of the journal of which nothing has been sent. -/
inductive Entry : PendingMutation → Mutation → Prop
  | removed {key : ArtifactKey} (hkey : key.nameSpace ≠ "") : Entry (.removed key) (.removed key)
  | published {key : ArtifactKey} {bytes : Bytes} (hkey : key.nameSpace ≠ "") (hlen : bytes.length < 2 ^ 64) :
    Entry (.published ⟨key, bytes, bytes.length, 0⟩) (.published key bytes)

/-- The journal holds the mutations, of which the first may have been sent in part. -/
inductive Journals : Option Transfer → List PendingMutation → List Mutation → Prop
  | fresh {pending : List PendingMutation} {mutations : List Mutation} (h : List.Forall₂ Entry pending mutations) :
    Journals none pending mutations
  | started {transfer : Transfer} {pending : List PendingMutation} {mutations : List Mutation}
      (hvalid : transfer.Valid) (hat : Transfer.At (some transfer) transfer)
      (h : List.Forall₂ Entry pending mutations) :
      Journals (some transfer)
        (.published ⟨transfer.key, transfer.bytes, transfer.bytes.length, transfer.offset⟩ :: pending)
        (.published transfer.key transfer.bytes :: mutations)

variable {progress : Option Transfer} {mutations : List Mutation}

variable {pending : List PendingMutation}

theorem Journals.pending_nil (h : Journals progress pending []) : pending = [] := by
  cases h with
  | fresh hentries => exact List.forall₂_nil_right_iff.mp hentries

theorem Journals.push {entry : PendingMutation} {mutation : Mutation} (h : Journals progress pending mutations)
    (hentry : Entry entry mutation) :
    Journals progress (pending ++ [entry]) (mutations ++ [mutation]) := by
  cases h with
  | fresh h => exact .fresh (List.rel_append h (.cons hentry .nil))
  | started hvalid hat h => exact .started hvalid hat (List.rel_append h (.cons hentry .nil))

/-- What the front of a journal is: nothing, a removal, or a publication at some point of its transfer. -/
theorem Journals.front (h : Journals progress pending mutations) :
    (progress = none ∧ pending = [] ∧ mutations = []) ∨
    (∃ key rest later, progress = none ∧ pending = .removed key :: rest ∧ mutations = .removed key :: later ∧
      key.nameSpace ≠ "" ∧ List.Forall₂ Entry rest later) ∨
    ∃ transfer rest later, transfer.Valid ∧ Transfer.At progress transfer ∧
      pending = .published ⟨transfer.key, transfer.bytes, transfer.bytes.length, transfer.offset⟩ :: rest ∧
      mutations = .published transfer.key transfer.bytes :: later ∧ List.Forall₂ Entry rest later := by
  cases h with
  | fresh h =>
    cases h with
    | nil => exact Or.inl ⟨rfl, rfl, rfl⟩
    | cons hentry hrest =>
      cases hentry with
      | removed hkey => exact Or.inr (Or.inl ⟨_, _, _, rfl, rfl, rfl, hkey, hrest⟩)
      | published hkey hlen =>
        exact Or.inr (Or.inr ⟨⟨_, _, 0⟩, _, _, ⟨hkey, hlen⟩, .first rfl, rfl, rfl, hrest⟩)
  | started hvalid hat h => exact Or.inr (Or.inr ⟨_, _, _, hvalid, hat, rfl, rfl, h⟩)

variable {transfer : Transfer}

theorem Transfer.At.offset_le (h : Transfer.At progress transfer) : transfer.offset ≤ transfer.bytes.length := by
  cases h with
  | first h => omega
  | next hsent hleft => omega

/-- What a drain makes of the journal. -/
structure Drained (maxPayloadBytes room payloadBytes : Nat) (events : List ArtifactReplicationEvent)
    (progress : Option Transfer) (mutations : List Mutation)
    (outcome : List PendingMutation × Except RepositoryError (List ArtifactReplicationEvent)) : Prop where
  carries : ∃ sent last before after, outcome.2 = .ok (events ++ sent) ∧ mutations = before ++ after ∧
    Carries progress sent last before ∧ Journals last outcome.1 after ∧ sent.length ≤ room ∧
    payloadBytes + (sent.map (·.payload.length)).sum ≤ maxPayloadBytes ∧
    (sent = [] → room = 0 ∨ events ≠ [] ∨ mutations = [])

theorem drainLoop_drained {maxPayloadBytes : Nat} (hmax : 0 < maxPayloadBytes) (room : Nat) :
    ∀ (events : List ArtifactReplicationEvent) (payloadBytes : Nat) (pending : List PendingMutation)
      {progress : Option Transfer} {mutations : List Mutation}, Journals progress pending mutations →
      payloadBytes ≤ maxPayloadBytes → (events = [] → payloadBytes = 0) →
      Drained maxPayloadBytes room payloadBytes events progress mutations
        (drainLoop maxPayloadBytes room events payloadBytes pending) := by
  induction room with
  | zero =>
    intro events payloadBytes pending progress mutations h hle _
    refine ⟨⟨[], progress, [], mutations, ?_, rfl, .done _, ?_, Nat.le_refl _, by simpa using hle, fun _ => Or.inl rfl⟩⟩
    · simp [drainLoop]
    · simpa [drainLoop] using h
  | succ room ih =>
    intro events payloadBytes pending progress mutations h hle hfirst
    rcases h.front with ⟨rfl, rfl, rfl⟩ | ⟨key, rest, later, rfl, rfl, rfl, hkey, hrest⟩ |
      ⟨transfer, rest, later, hvalid, hat, rfl, rfl, hrest⟩
    · refine ⟨⟨[], none, [], [], ?_, rfl, .done _, ?_, Nat.zero_le _, by simpa using hle, fun _ => Or.inr (Or.inr rfl)⟩⟩
      · simp [drainLoop]
      · simpa [drainLoop] using h
    · rw [drainLoop]
      obtain ⟨sent, last, before, after, hok, rfl, hcarries, hjournals, hroom, hpayload, -⟩ :=
        (ih (events ++ [.removed key.nameSpace key.identity]) payloadBytes rest (.fresh hrest) hle (by simp)).carries
      refine ⟨⟨.removed key.nameSpace key.identity :: sent, last, .removed key :: before, after, ?_, rfl,
        .removed hkey hcarries, hjournals, Nat.succ_le_succ hroom, ?_, fun hnil => absurd hnil (List.cons_ne_nil _ _)⟩⟩
      · rw [hok, List.append_assoc]
        rfl
      · simpa [ArtifactReplicationEvent.payload] using hpayload
    · rw [drainLoop]
      by_cases hstop : maxPayloadBytes - payloadBytes = 0 ∧ events ≠ []
      · rw [if_pos hstop]
        exact ⟨⟨[], progress, [], _, by simp, rfl, .done _, h, Nat.zero_le _, by simpa using hle,
          fun _ => Or.inr (Or.inl hstop.2)⟩⟩
      · rw [if_neg hstop]
        have hbudget : 0 < maxPayloadBytes - payloadBytes := by
          by_contra hzero
          have hempty : events = [] := by
            by_contra hne
            exact hstop ⟨by omega, hne⟩
          have := hfirst hempty
          omega
        have hoffset := hat.offset_le
        have hlen := hvalid.2
        generalize hcount : min (transfer.bytes.length - transfer.offset) (max (maxPayloadBytes - payloadBytes) 1) =
          count
        have hread : readExactAt transfer.bytes transfer.offset count =
            .ok ((transfer.bytes.drop transfer.offset).take count) := readExactAt_eq (by omega)
        have hsaturate : saturatingAdd64 transfer.offset count = transfer.offset + count := by
          unfold saturatingAdd64
          omega
        have hpart : ∀ last, (transfer.chunk count last).payload.length = count := by
          intro last
          show ((transfer.bytes.drop transfer.offset).take count).length = count
          rw [List.length_take, List.length_drop]
          omega
        simp only [hread, hsaturate]
        by_cases hcomplete : transfer.offset + count = transfer.bytes.length
        · simp only [hcomplete, beq_self_eq_true, if_true]
          have hall : count = transfer.bytes.length - transfer.offset := by omega
          obtain ⟨sent, last, before, after, hok, rfl, hcarries, hjournals, hroom, hpayload, -⟩ :=
            (ih (events ++ [transfer.chunk count true]) (payloadBytes + count) rest (.fresh hrest) (by omega)
              (by simp)).carries
          refine ⟨⟨transfer.chunk count true :: sent, last, .published transfer.key transfer.bytes :: before, after,
            ?_, rfl, ?_, hjournals, Nat.succ_le_succ hroom, ?_, fun hnil => absurd hnil (List.cons_ne_nil _ _)⟩⟩
          · exact hok.trans (by rw [List.append_assoc]; rfl)
          · rw [hall]
            exact .finish hvalid hat hcarries
          · rw [List.map_cons, List.sum_cons, hpart]
            omega
        · have hbeq : (transfer.offset + count == transfer.bytes.length) = false := by simpa using hcomplete
          simp only [hbeq, Bool.false_eq_true, if_false]
          have hleft : transfer.offset + count < transfer.bytes.length := by omega
          have hpos : 0 < count := by omega
          have hjournal : Journals (some (transfer.advance count))
              (.published ⟨transfer.key, transfer.bytes, transfer.bytes.length, transfer.offset + count⟩ :: rest)
              (.published transfer.key transfer.bytes :: later) :=
            .started hvalid (.next (Nat.add_pos_right _ hpos) hleft) hrest
          obtain ⟨sent, last, before, after, hok, hsplit, hcarries, hjournals, hroom, hpayload, -⟩ :=
            (ih (events ++ [transfer.chunk count false]) (payloadBytes + count) _ hjournal (by omega)
              (by simp)).carries
          refine ⟨⟨transfer.chunk count false :: sent, last, before, after, ?_, hsplit,
            .part hvalid hat hpos hleft hcarries, hjournals, Nat.succ_le_succ hroom, ?_,
            fun hnil => absurd hnil (List.cons_ne_nil _ _)⟩⟩
          · exact hok.trans (by rw [List.append_assoc]; rfl)
          · rw [List.map_cons, List.sum_cons, hpart]
            omega

/-- The receiver is at a point of a transfer: it holds what was sent of it, and nothing else. -/
inductive Receives : Option Transfer → List (ArtifactKey × PendingReceive) → Prop
  | idle : Receives none []
  | started {transfer : Transfer} (hat : Transfer.At (some transfer) transfer) :
    Receives (some transfer) [(transfer.key,
      ⟨transfer.bytes.take transfer.offset, transfer.offset, transfer.bytes.length⟩)]

variable {pending : List (ArtifactKey × PendingReceive)} {complete : Bool} {count : Nat}

theorem Receives.none_pending (h : Receives none pending) : pending = [] := by
  cases h
  rfl

theorem artifactKey_eq {key : ArtifactKey} (h : key.nameSpace ≠ "") :
    artifactKey key.nameSpace key.identity = .ok key := by
  rw [artifactKey, if_neg h]

theorem lookup_single (key : ArtifactKey) (receive : PendingReceive) :
    List.lookup key [(key, receive)] = some receive :=
  List.lookup_cons_self

theorem without_single (key : ArtifactKey) (receive : PendingReceive) :
    without [(key, receive)] key = [] := by
  simp [without]

theorem insert_single (key : ArtifactKey) (receive next : PendingReceive) :
    ArtifactReplicationReceiver.insert [(key, receive)] key next = [(key, next)] := by
  rw [ArtifactReplicationReceiver.insert, without_single]

theorem stagedWriteAt_chunk (hvalid : transfer.Valid)
    (hle : transfer.offset + count ≤ transfer.bytes.length) :
    stagedWriteAt (transfer.bytes.take transfer.offset) transfer.offset
        ((transfer.bytes.drop transfer.offset).take count) =
      .ok (transfer.bytes.take (transfer.offset + count)) := by
  have hlen := hvalid.2
  have hdata : ((transfer.bytes.drop transfer.offset).take count).length = count := by
    rw [List.length_take, List.length_drop]
    omega
  have htaken : (transfer.bytes.take transfer.offset).length = transfer.offset := by
    rw [List.length_take]
    omega
  rw [stagedWriteAt, hdata, if_neg (by omega)]
  have hwrite := writeAt_length (transfer.bytes.take transfer.offset)
    ((transfer.bytes.drop transfer.offset).take count)
  rw [htaken] at hwrite
  rw [hwrite, List.take_add]

theorem applyChunk_eq (hvalid : transfer.Valid) (hle : transfer.offset + count ≤ transfer.bytes.length)
    (hcomplete : complete = true → transfer.offset + count = transfer.bytes.length) (repository : Repository) :
    applyChunk
        ⟨repository, [(transfer.key,
          ⟨transfer.bytes.take transfer.offset, transfer.offset, transfer.bytes.length⟩)]⟩
        transfer.key transfer.offset transfer.bytes.length ((transfer.bytes.drop transfer.offset).take count) complete =
      (if complete then ⟨repository.publish transfer.key transfer.bytes, []⟩
        else ⟨repository, [(transfer.key,
          ⟨transfer.bytes.take (transfer.offset + count), transfer.offset + count, transfer.bytes.length⟩)]⟩,
        .ok ()) := by
  have hlen := hvalid.2
  have hdata : ((transfer.bytes.drop transfer.offset).take count).length = count := by
    rw [List.length_take, List.length_drop]
    omega
  have hsaturate : saturatingAdd64 transfer.offset count = transfer.offset + count := by
    unfold saturatingAdd64
    omega
  unfold applyChunk
  simp only [lookup_single, ne_eq, not_true_eq_false, or_self, if_false, stagedWriteAt_chunk hvalid hle, hdata,
    hsaturate, insert_single, without_single]
  cases complete with
  | false => rfl
  | true =>
    have hend := hcomplete rfl
    simp only [hend, not_true_eq_false, if_true, if_false, List.take_length, resizeStaged_length]

theorem apply_chunk (hreceives : Receives progress pending) (hvalid : transfer.Valid)
    (hat : Transfer.At progress transfer) (hle : transfer.offset + count ≤ transfer.bytes.length)
    (hcomplete : complete = true → transfer.offset + count = transfer.bytes.length) (repository : Repository) :
    ArtifactReplicationReceiver.apply ⟨repository, pending⟩ (transfer.chunk count complete) =
      (if complete then ⟨repository.publish transfer.key transfer.bytes, []⟩
        else ⟨repository, [(transfer.key,
          ⟨transfer.bytes.take (transfer.offset + count), transfer.offset + count, transfer.bytes.length⟩)]⟩,
        .ok ()) := by
  rw [← applyChunk_eq hvalid hle hcomplete repository]
  simp only [ArtifactReplicationReceiver.apply, Transfer.chunk, artifactKey_eq hvalid.1]
  cases hat with
  | first hzero =>
    cases hreceives
    simp only [hzero, if_true, List.take_zero]
    rfl
  | next hsent hleft =>
    cases hreceives
    rw [if_neg (by omega)]

theorem Carries.apply {progress last : Option Transfer} {event : ArtifactReplicationEvent}
    {events : List ArtifactReplicationEvent} {mutations : List Mutation}
    (h : Carries progress (event :: events) last mutations) {receiver : ArtifactReplicationReceiver}
    (hreceives : Receives progress receiver.pending) :
    (receiver.apply event).2 = .ok () ∧ ∃ next, Receives next (receiver.apply event).1.pending ∧
      ((finishes event = false ∧ (receiver.apply event).1.repository = receiver.repository ∧
          Carries next events last mutations) ∨
        ∃ mutation later, finishes event = true ∧ mutations = mutation :: later ∧
          (receiver.apply event).1.repository = receiver.repository.mutate mutation ∧
          Carries next events last later) := by
  obtain ⟨repository, pending⟩ := receiver
  cases h with
  | @removed key _ _ later hkey h =>
    cases hreceives
    have hremoved : ArtifactReplicationReceiver.apply ⟨repository, []⟩ (.removed key.nameSpace key.identity) =
        (⟨repository.remove (· = key), []⟩, .ok ()) := by
      simp only [ArtifactReplicationReceiver.apply, artifactKey_eq hkey]
      rfl
    rw [hremoved]
    exact ⟨rfl, none, .idle, Or.inr ⟨_, later, rfl, rfl, rfl, h⟩⟩
  | @part _ _ transfer count _ _ hvalid hat hcount hleft h =>
    rw [apply_chunk hreceives hvalid hat (Nat.le_of_lt hleft) (fun hc => by cases hc) repository]
    refine ⟨rfl, some (transfer.advance count), ?_, Or.inl ⟨rfl, rfl, h⟩⟩
    exact .started (.next (Nat.add_pos_right _ hcount) hleft)
  | @finish _ _ transfer _ later hvalid hat h =>
    have hoffset := hat.offset_le
    have hall : transfer.offset + (transfer.bytes.length - transfer.offset) = transfer.bytes.length := by omega
    rw [apply_chunk hreceives hvalid hat (Nat.le_of_eq hall) (fun _ => hall) repository]
    exact ⟨rfl, none, .idle, Or.inr ⟨_, later, rfl, rfl, rfl, h⟩⟩

/-- The mutations of the source are those applied, those on the wire and those in the journal, in this order. -/
structure ReplicationRun.Sound (source destination : Repository) (run : ReplicationRun) : Prop where
  inner : run.source.inner = source.replay run.mutations
  flow : ∃ (done carried journaled : List Mutation) (received sent : Option Transfer),
    run.mutations = done ++ carried ++ journaled ∧ done.length = run.finished ∧
    run.receiver.repository = destination.replay done ∧ Receives received run.receiver.pending ∧
    Carries received run.wire sent carried ∧ Journals sent run.source.pending journaled

theorem Repository.replay_append (repository : Repository) (mutations more : List Mutation) :
    repository.replay (mutations ++ more) = (repository.replay mutations).replay more :=
  List.foldl_append

theorem drain_drained {maxEvents maxPayloadBytes : Nat} (hevents : 0 < maxEvents) (hpayload : 0 < maxPayloadBytes)
    {repository : ReplicatingArtifactRepository} (h : Journals progress repository.pending mutations) :
    ∃ sent last before after, (repository.drain maxEvents maxPayloadBytes).2 = .ok sent ∧
      mutations = before ++ after ∧ Carries progress sent last before ∧
      Journals last (repository.drain maxEvents maxPayloadBytes).1.pending after ∧
      (repository.drain maxEvents maxPayloadBytes).1.inner = repository.inner ∧ sent.length ≤ maxEvents ∧
      (sent.map (·.payload.length)).sum ≤ maxPayloadBytes ∧ (sent = [] → repository.pending = []) := by
  have hlimits : ¬(maxEvents = 0 ∨ maxPayloadBytes = 0) := by omega
  obtain ⟨sent, last, before, after, hok, hsplit, hcarries, hjournals, hroom, hbytes, hprogress⟩ :=
    (drainLoop_drained hpayload maxEvents [] 0 repository.pending h (Nat.zero_le _) fun _ => rfl).carries
  unfold ReplicatingArtifactRepository.drain
  rw [if_neg hlimits]
  refine ⟨sent, last, before, after, hok, hsplit, hcarries, hjournals, rfl, hroom, by simpa using hbytes, fun hnil => ?_⟩
  rcases hprogress hnil with hzero | hne | hnone
  · exact absurd hzero hevents.ne'
  · exact absurd rfl hne
  · exact (hnone ▸ h).pending_nil

section Runs

variable {source destination : Repository} {run : ReplicationRun}

section

variable (h : run.Sound source destination)
include h

theorem ReplicationRun.Sound.mutate {mutation : Mutation}
    {entry : PendingMutation} (hentry : Entry entry mutation) :
    ReplicationRun.Sound source destination { run with
      source := ⟨run.source.inner.mutate mutation, run.source.pending ++ [entry]⟩
      mutations := run.mutations ++ [mutation] } := by
  obtain ⟨done, carried, journaled, received, sent, hsplit, hcount, hdest, hreceives, hcarries, hjournals⟩ := h.flow
  refine ⟨?_, done, carried, journaled ++ [mutation], received, sent, ?_, hcount, hdest, hreceives, hcarries,
    hjournals.push hentry⟩
  · rw [Repository.replay_append, ← h.inner]
    rfl
  · simp only [hsplit, List.append_assoc]

theorem ReplicationRun.Sound.publish (key : NamedKey) (ops : List WriteOp) :
    (run.step (.publish key ops)).Sound source destination ∧
      (run.source.publish (written key ops)).2 = .ok () := by
  obtain ⟨⟨hlength, hlt⟩, hkey⟩ := written_tracks key ops
  have hpublished : run.source.publish (written key ops) =
      (⟨run.source.inner.publish key (written key ops).inner, run.source.pending ++
        [.published ⟨key, (written key ops).inner, (written key ops).inner.length, 0⟩]⟩, .ok ()) := by
    simp only [ReplicatingArtifactRepository.publish, hkey, Repository.publish_same, hlength]
  have hentry : Entry (.published ⟨key, (written key ops).inner, (written key ops).inner.length, 0⟩)
      (.published key (written key ops).inner) := .published key.property (hlength ▸ hlt)
  refine ⟨?_, by rw [hpublished]⟩
  have hsound := h.mutate hentry
  simp only [ReplicationRun.step, hpublished]
  exact hsound

theorem ReplicationRun.Sound.drain (maxEvents maxPayloadBytes : Nat) :
    (run.step (.drain maxEvents maxPayloadBytes)).Sound source destination := by
  by_cases hlimits : maxEvents = 0 ∨ maxPayloadBytes = 0
  · have hsame : run.step (.drain maxEvents maxPayloadBytes) = run := by
      simp only [ReplicationRun.step, ReplicatingArtifactRepository.drain, if_pos hlimits]
    rw [hsame]
    exact h
  · obtain ⟨done, carried, journaled, received, sent, hsplit, hcount, hdest, hreceives, hcarries, hjournals⟩ := h.flow
    obtain ⟨events, last, before, after, hok, rfl, hmore, hrest, hinner, _⟩ :=
      drain_drained (Nat.pos_of_ne_zero fun hz => hlimits (Or.inl hz))
        (Nat.pos_of_ne_zero fun hz => hlimits (Or.inr hz)) hjournals
    have hstep : run.step (.drain maxEvents maxPayloadBytes) =
        { run with source := (run.source.drain maxEvents maxPayloadBytes).1, wire := run.wire ++ events } := by
      simp only [ReplicationRun.step]
      split
      · next hdrain =>
        rw [hdrain] at hok ⊢
        cases hok
        rfl
      · next hdrain =>
        rw [hdrain] at hok
        cases hok
    rw [hstep]
    refine ⟨hinner.trans h.inner, done, carried ++ before, after, received, last, ?_, hcount, hdest, hreceives,
      hcarries.append hmore, hrest⟩
    simp only [hsplit, List.append_assoc]

theorem ReplicationRun.Sound.apply : (run.step .apply).Sound source destination := by
  obtain ⟨done, carried, journaled, received, sent, hsplit, hcount, hdest, hreceives, hcarries, hjournals⟩ := h.flow
  cases hwire : run.wire with
  | nil =>
    have hsame : run.step .apply = run := by simp only [ReplicationRun.step, hwire]
    rw [hsame]
    exact h
  | cons event rest =>
    rw [hwire] at hcarries
    obtain ⟨_, next, hnext, hpart | ⟨mutation, later, hfinish, rfl, hrepository, hlater⟩⟩ := hcarries.apply hreceives
    · obtain ⟨hopen, hrepository, hsame⟩ := hpart
      have hstep : run.step .apply = { run with wire := rest, receiver := (run.receiver.apply event).1 } := by
        simp only [ReplicationRun.step, hwire, hopen, Bool.false_eq_true, if_false]
      rw [hstep]
      exact ⟨h.inner, done, carried, journaled, next, sent, hsplit, hcount, hrepository.trans hdest, hnext, hsame,
        hjournals⟩
    · have hstep : run.step .apply =
          { run with wire := rest, receiver := (run.receiver.apply event).1, finished := run.finished + 1 } := by
        simp only [ReplicationRun.step, hwire, hfinish, if_true]
      rw [hstep]
      refine ⟨h.inner, done ++ [mutation], later, journaled, next, sent, ?_, ?_, ?_, hnext, hlater, hjournals⟩
      · simp only [hsplit, List.append_assoc, List.cons_append, List.nil_append]
      · rw [List.length_append, hcount]
        rfl
      · rw [Repository.replay_append, ← hdest]
        exact hrepository

theorem ReplicationRun.Sound.step (step : ReplicationStep) :
    (run.step step).Sound source destination := by
  cases step with
  | publish key ops => exact (h.publish key ops).1
  | remove key => exact h.mutate (.removed key.property)
  | drain maxEvents maxPayloadBytes => exact h.drain maxEvents maxPayloadBytes
  | apply => exact h.apply

theorem ReplicationRun.Sound.steps (steps : List ReplicationStep) :
    (run.steps steps).Sound source destination := by
  induction steps generalizing run with
  | nil => exact h
  | cons step rest ih => exact ih (h.step step)

end

theorem ReplicationRun.Sound.start (source destination : Repository) :
    (ReplicationRun.start source destination).Sound source destination :=
  ⟨rfl, [], [], [], none, none, rfl, rfl, rfl, .idle, .done none, .fresh .nil⟩

theorem ReplicationRun.step_finished (run : ReplicationRun) (step : ReplicationStep) :
    run.finished ≤ (run.step step).finished := by
  cases step with
  | publish key ops => exact Nat.le_refl _
  | remove key => exact Nat.le_refl _
  | drain maxEvents maxPayloadBytes =>
    simp only [ReplicationRun.step]
    split
    · exact Nat.le_refl _
    · exact Nat.le_refl _
  | apply =>
    simp only [ReplicationRun.step]
    split
    · exact Nat.le_refl _
    · dsimp only
      split
      · exact Nat.le_succ _
      · exact Nat.le_refl _

theorem ReplicationRun.steps_finished (run : ReplicationRun) (steps : List ReplicationStep) :
    run.finished ≤ (run.steps steps).finished := by
  induction steps generalizing run with
  | nil => exact Nat.le_refl _
  | cons step rest ih => exact (run.step_finished step).trans (ih _)

/-- Mutations decide the contents of the keys they touch, whatever was there, and leave the other keys alone. -/
theorem Repository.replay_key (mutations : List Mutation) (source destination : Repository) (key : ArtifactKey) :
    (key ∈ mutations.map Mutation.key → destination.replay mutations key = source.replay mutations key) ∧
      (key ∉ mutations.map Mutation.key → destination.replay mutations key = destination key) := by
  -- the mutations from the end on: the last one that touches the key decides
  induction mutations using List.reverseRecOn with
  | nil => exact ⟨fun hmem => absurd hmem List.not_mem_nil, fun _ => rfl⟩
  | append_singleton mutations last ih =>
    have hlast : ∀ repository : Repository, repository.replay (mutations ++ [last]) key =
        (repository.replay mutations).mutate last key := fun repository => by
      rw [Repository.replay_append]
      rfl
    have hother : key ≠ last.key → ∀ repository : Repository, repository.mutate last key = repository key := by
      intro hne repository
      cases last with
      | published other bytes => exact Repository.publish_other hne
      | removed other =>
        have hne : key ≠ other := hne
        exact if_neg (by simpa using hne)
    have hsame : key = last.key → ∀ repository other : Repository,
        repository.mutate last key = other.mutate last key := by
      intro heq repository other
      cases last with
      | published found bytes =>
        have hfound : key = found := heq
        simp only [Repository.mutate, hfound, Repository.publish_same]
      | removed found =>
        have hfound : key = found := heq
        simp only [Repository.mutate, Repository.remove, hfound, decide_true, if_true]
    rw [hlast destination, hlast source, List.map_append, List.mem_append]
    by_cases hkey : key = last.key
    · exact ⟨fun _ => hsame hkey _ _, fun hnone => absurd (Or.inr (by simpa using hkey)) hnone⟩
    · rw [hother hkey, hother hkey]
      refine ⟨fun hmem => ih.1 (hmem.resolve_right (by simpa using hkey)), fun hnone => ?_⟩
      exact ih.2 fun hmem => hnone (Or.inl hmem)

end Runs

/-- What the two sides of a replication can rely on, at any point of a run that began with the given contents. -/
structure ReplicationRun.Mirrors (source destination : Repository) (run : ReplicationRun) : Prop where
  inner : run.source.inner = source.replay run.mutations
  finished_le : run.finished ≤ run.mutations.length
  /-- The keys touched by the finished mutations are as the source had them behind these; the others are as they
  were. -/
  mirrored : ∀ key,
    (key ∈ (run.mutations.take run.finished).map Mutation.key →
      run.receiver.repository key = source.replay (run.mutations.take run.finished) key) ∧
    (key ∉ (run.mutations.take run.finished).map Mutation.key → run.receiver.repository key = destination key)
  advances : ∀ more, run.finished ≤ (run.steps more).finished
  applies : ∀ event rest, run.wire = event :: rest → (run.receiver.apply event).2 = .ok ()
  publishes : ∀ (key : NamedKey) ops, (run.source.publish (written key ops)).2 = .ok ()
  drains : ∀ maxEvents maxPayloadBytes, 0 < maxEvents → 0 < maxPayloadBytes → ∃ events,
    (run.source.drain maxEvents maxPayloadBytes).2 = .ok events ∧ events.length ≤ maxEvents ∧
    (events.map (·.payload.length)).sum ≤ maxPayloadBytes ∧ (events = [] → run.source.pending = [])
  complete : run.source.pending = [] → run.wire = [] →
    run.finished = run.mutations.length ∧ run.receiver.isIdle = true

/-- Replication mirrors the source, for every sequence of publications and removals, with drains and applications
of the drained events at any points. -/
theorem replication_mirrors_source (source destination : Repository) (steps : List ReplicationStep) :
    ((ReplicationRun.start source destination).steps steps).Mirrors source destination := by
  have h := (ReplicationRun.Sound.start source destination).steps steps
  obtain ⟨done, carried, journaled, received, sent, hsplit, hcount, hdest, hreceives, hcarries, hjournals⟩ := h.flow
  have htake : ((ReplicationRun.start source destination).steps steps).mutations.take
      ((ReplicationRun.start source destination).steps steps).finished = done := by
    rw [hsplit, ← hcount, List.append_assoc, List.take_left]
  refine ⟨h.inner, ?_, ?_, ReplicationRun.steps_finished _, ?_, fun key ops => (h.publish key ops).2, ?_, ?_⟩
  · rw [hsplit, ← hcount, List.append_assoc, List.length_append]
    exact Nat.le_add_right _ _
  · intro key
    rw [htake, hdest]
    exact Repository.replay_key done source destination key
  · intro event rest hwire
    rw [hwire] at hcarries
    exact (hcarries.apply hreceives).1
  · intro maxEvents maxPayloadBytes hevents hpayload
    obtain ⟨events, _, _, _, hok, _, _, _, _, hresult⟩ := drain_drained hevents hpayload hjournals
    exact ⟨events, hok, hresult⟩
  · intro hpending hwire
    rw [hpending] at hjournals
    rw [hwire] at hcarries
    cases hjournals with
    | fresh hnone =>
      cases hnone
      cases hcarries
      refine ⟨by simp [hsplit, ← hcount], ?_⟩
      rw [ArtifactReplicationReceiver.isIdle, hreceives.none_pending]
      rfl

/-- A publication in two chunks, replaced and removed behind them. -/
example : (((ReplicationRun.start .empty .empty).steps
    [.publish ⟨⟨"cache", [1]⟩, by decide⟩ [.writeAt 1 [7, 8], .truncate 4], .drain 1 3,
      .publish ⟨⟨"cache", [1]⟩, by decide⟩ [], .remove ⟨⟨"cache", [1]⟩, by decide⟩, .apply, .drain 8 3, .apply,
      .apply]).receiver.repository ⟨"cache", [1]⟩) = some [] := by
  decide

end LogicConduit
