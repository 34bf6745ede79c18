import LogicConduit.Replication

namespace LogicConduit

/-- `ReadArtifact::read_at` of readers with the given states. -/
structure ArtifactReads (ρ : Type) where
  readAt : ρ → Nat → Nat → Except RepositoryError Bytes × ρ
  bounded : ∀ reader offset count data, (readAt reader offset count).1 = .ok data → data.length ≤ count

/-- A publication of the journal, of which `offset` bytes have gone out. -/
structure QueuedPublication (ρ : Type) where
  key : ArtifactKey
  reader : ρ
  length : Nat
  offset : Nat
  offset_le : offset ≤ length
  length_lt : length < 2 ^ 64

namespace QueuedPublication

variable {ρ : Type} (publication : QueuedPublication ρ)

/-- How many bytes the next chunk has when the call may still send so many. -/
def chunkCount (remainingBudget : Nat) : Nat := min (publication.length - publication.offset) (max remainingBudget 1)

def nextOffset (remainingBudget : Nat) : Nat :=
  saturatingAdd64 publication.offset (publication.chunkCount remainingBudget)

theorem nextOffset_eq (budget : Nat) :
    publication.nextOffset budget = publication.offset + publication.chunkCount budget := by
  have hle := publication.offset_le
  have hlt := publication.length_lt
  unfold nextOffset saturatingAdd64 chunkCount
  omega

theorem nextOffset_le (budget : Nat) : publication.nextOffset budget ≤ publication.length := by
  have hle := publication.offset_le
  rw [nextOffset_eq, chunkCount]
  omega

def advance (reader : ρ) (remainingBudget : Nat) : QueuedPublication ρ :=
  { publication with
    reader := reader
    offset := publication.nextOffset remainingBudget
    offset_le := publication.nextOffset_le remainingBudget }

end QueuedPublication

inductive QueuedMutation (ρ : Type)
  | published (publication : QueuedPublication ρ)
  | removed (key : ArtifactKey)

/-- What a journal entry still has to hand on. -/
inductive Owed
  | published (key : ArtifactKey) (length offset : Nat)
  | removed (key : ArtifactKey)
  deriving DecidableEq

def QueuedMutation.owed {ρ : Type} : QueuedMutation ρ → Owed
  | .published publication => .published publication.key publication.length publication.offset
  | .removed key => .removed key

namespace ArtifactReads

variable {ρ : Type} (reads : ArtifactReads ρ)

/-- The loop of `read_exact_at` with what it has copied so far. A round copies at least one byte. -/
def readExactLoop (offset wanted : Nat) : Nat → Bytes → ρ → Except RepositoryError Bytes × ρ
  | 0, copied, reader => (.ok copied, reader)
  | rounds + 1, copied, reader =>
    if copied.length < wanted then
      match reads.readAt reader (offset + copied.length) (wanted - copied.length) with
      | (.error error, reader) => (.error error, reader)
      | (.ok [], reader) => (.error (.corrupt "published artifact ended during replication"), reader)
      | (.ok (first :: data), reader) => readExactLoop offset wanted rounds (copied ++ first :: data) reader
    else (.ok copied, reader)

def readExactAt (reader : ρ) (offset wanted : Nat) : Except RepositoryError Bytes × ρ :=
  reads.readExactLoop offset wanted wanted [] reader

def drainLoop (maxPayloadBytes : Nat) : Nat → List ArtifactReplicationEvent → Nat → List (QueuedMutation ρ) →
    List (QueuedMutation ρ) × Except RepositoryError (List ArtifactReplicationEvent)
  | 0, events, _, pending => (pending, .ok events)
  | _ + 1, events, _, [] => ([], .ok events)
  | room + 1, events, payloadBytes, .removed key :: rest =>
    drainLoop maxPayloadBytes room (events ++ [.removed key.nameSpace key.identity]) payloadBytes rest
  | room + 1, events, payloadBytes, .published publication :: rest =>
    let remainingBudget := maxPayloadBytes - payloadBytes
    if remainingBudget = 0 ∧ events ≠ [] then (.published publication :: rest, .ok events)
    else
      let count := publication.chunkCount remainingBudget
      match reads.readExactAt publication.reader publication.offset count with
      | (.error error, reader) => (.published { publication with reader := reader } :: rest, .error error)
      | (.ok data, reader) =>
        let complete := publication.nextOffset remainingBudget == publication.length
        drainLoop maxPayloadBytes room
          (events ++ [.publishedChunk publication.key.nameSpace publication.key.identity publication.offset
            publication.length data complete])
          (payloadBytes + count)
          (if complete then rest else .published (publication.advance reader remainingBudget) :: rest)

def drain (maxEvents maxPayloadBytes : Nat) (pending : List (QueuedMutation ρ)) :
    List (QueuedMutation ρ) × Except RepositoryError (List ArtifactReplicationEvent) :=
  if maxEvents = 0 ∨ maxPayloadBytes = 0 then
    (pending, .error (.unsupported "artifact replication limits must be non-zero"))
  else reads.drainLoop maxPayloadBytes maxEvents [] 0 pending

def drains : List (Nat × Nat) → List (QueuedMutation ρ) →
    Option (List (QueuedMutation ρ) × List ArtifactReplicationEvent)
  | [], pending => some (pending, [])
  | (maxEvents, maxPayloadBytes) :: calls, pending =>
    match reads.drain maxEvents maxPayloadBytes pending with
    | (_, .error _) => none
    | (pending, .ok events) => (drains calls pending).map fun rest => (rest.1, events ++ rest.2)

/-- The journal starts with a publication whose next chunk cannot be read. -/
def FirstReadFails (maxPayloadBytes : Nat) : List (QueuedMutation ρ) → Prop
  | .published publication :: _ => ∃ error reader,
    reads.readExactAt publication.reader publication.offset (publication.chunkCount maxPayloadBytes) =
      (.error error, reader)
  | _ => False

end ArtifactReads

/-- The events hand on what is owed, in order and without a gap, up to what is still owed behind them. -/
inductive HandsOn : List ArtifactReplicationEvent → List Owed → List Owed → Prop
  | none (owed : List Owed) : HandsOn [] owed owed
  | removed {key : ArtifactKey} {events : List ArtifactReplicationEvent} {owed left : List Owed}
      (h : HandsOn events owed left) :
      HandsOn (.removed key.nameSpace key.identity :: events) (.removed key :: owed) left
  | part {key : ArtifactKey} {length offset : Nat} {data : Bytes} {events : List ArtifactReplicationEvent}
      {owed left : List Owed} (hdata : data ≠ []) (hleft : offset + data.length < length)
      (h : HandsOn events (.published key length (offset + data.length) :: owed) left) :
      HandsOn (.publishedChunk key.nameSpace key.identity offset length data false :: events)
        (.published key length offset :: owed) left
  | finish {key : ArtifactKey} {length offset : Nat} {data : Bytes} {events : List ArtifactReplicationEvent}
      {owed left : List Owed} (hlength : offset + data.length = length) (h : HandsOn events owed left) :
      HandsOn (.publishedChunk key.nameSpace key.identity offset length data true :: events)
        (.published key length offset :: owed) left

theorem HandsOn.trans {events more : List ArtifactReplicationEvent} {owed between left : List Owed}
    (h : HandsOn events owed between) (h' : HandsOn more between left) : HandsOn (events ++ more) owed left := by
  induction h with
  | none => exact h'
  | removed _ ih => exact .removed (ih h')
  | part hdata hleft _ ih => exact .part hdata hleft (ih h')
  | finish hlength _ ih => exact .finish hlength (ih h')

def Owed.weight : Owed → Nat
  | .published _ length offset => length - offset + 1
  | .removed _ => 1

variable {events : List ArtifactReplicationEvent}

theorem HandsOn.weight {owed left : List Owed} (h : HandsOn events owed left) :
    (left.map Owed.weight).sum + events.length ≤ (owed.map Owed.weight).sum := by
  induction h with
  | none => exact Nat.le_refl _
  | removed _ ih =>
    simp only [List.length_cons, List.map_cons, List.sum_cons, Owed.weight]
    omega
  | part hdata hleft _ ih =>
    have hpos := List.length_pos_iff.mpr hdata
    simp only [List.length_cons, List.map_cons, List.sum_cons, Owed.weight] at ih ⊢
    omega
  | finish _ _ ih =>
    simp only [List.length_cons, List.map_cons, List.sum_cons, Owed.weight]
    omega

namespace ArtifactReads

section Draining

variable {ρ : Type} {reads : ArtifactReads ρ}

theorem readExactLoop_length {offset wanted : Nat} (rounds : Nat) {copied data : Bytes} {reader next : ρ}
    (hcopied : copied.length ≤ wanted) (hrounds : wanted ≤ copied.length + rounds)
    (h : reads.readExactLoop offset wanted rounds copied reader = (.ok data, next)) : data.length = wanted := by
  induction rounds generalizing copied reader with
  | zero =>
    cases h
    omega
  | succ rounds ih =>
    rw [readExactLoop] at h
    split at h
    next hless =>
      split at h
      · cases h
      · cases h
      next first more reader' hread =>
        have hbound := reads.bounded reader (offset + copied.length) (wanted - copied.length) (first :: more)
          (congrArg Prod.fst hread)
        have hlength : (copied ++ first :: more).length = copied.length + (more.length + 1) := List.length_append
        rw [List.length_cons] at hbound
        exact ih (by omega) (by omega) h
    next hfull =>
      cases h
      omega

/-- What a drain makes of the journal, and what it hands on of it: all events of the call, or none behind an error. -/
theorem drainLoop_delivers {maxPayloadBytes : Nat} (room : Nat) :
    ∀ (events : List ArtifactReplicationEvent) (payloadBytes : Nat) (pending : List (QueuedMutation ρ)),
      ∃ sent, HandsOn sent (pending.map QueuedMutation.owed)
          ((reads.drainLoop maxPayloadBytes room events payloadBytes pending).1.map QueuedMutation.owed) ∧
        ((reads.drainLoop maxPayloadBytes room events payloadBytes pending).2 = .ok (events ++ sent) ∨
          (∃ error, (reads.drainLoop maxPayloadBytes room events payloadBytes pending).2 = .error error) ∧
            (sent = [] → reads.FirstReadFails (maxPayloadBytes - payloadBytes) pending)) := by
  induction room with
  | zero => exact fun events _ pending => ⟨[], .none _, .inl (by simp [drainLoop])⟩
  | succ room ih =>
    intro events payloadBytes pending
    cases pending with
    | nil => exact ⟨[], .none _, .inl (by simp [drainLoop])⟩
    | cons mutation rest =>
      cases mutation with
      | removed key =>
        obtain ⟨sent, hsent, hresult⟩ := ih (events ++ [.removed key.nameSpace key.identity]) payloadBytes rest
        rw [List.append_assoc] at hresult
        exact ⟨_, .removed hsent, hresult.imp_right fun h => ⟨h.1, fun hnil => absurd hnil (List.cons_ne_nil _ _)⟩⟩
      | published publication =>
        rw [drainLoop]
        dsimp only
        split
        · exact ⟨[], .none _, .inl (by simp)⟩
        · split
          next error reader hread => exact ⟨[], .none _, .inr ⟨⟨error, rfl⟩, fun _ => ⟨error, reader, hread⟩⟩⟩
          next data reader hread =>
            have hlength : data.length = publication.chunkCount (maxPayloadBytes - payloadBytes) :=
              readExactLoop_length _ (Nat.zero_le _) (by simp) hread
            have hnext := publication.nextOffset_eq (maxPayloadBytes - payloadBytes)
            obtain ⟨sent, hsent, hresult⟩ := ih _ _ _
            rw [List.append_assoc] at hresult
            refine ⟨_, ?_, hresult.imp_right fun h => ⟨h.1, fun hnil => absurd hnil (List.cons_ne_nil _ _)⟩⟩
            cases hcomplete : publication.nextOffset (maxPayloadBytes - payloadBytes) == publication.length with
            | true =>
              rw [hcomplete, if_pos rfl] at hsent
              exact .finish (by rw [hlength, ← hnext, beq_iff_eq.mp hcomplete]) hsent
            | false =>
              rw [hcomplete, if_neg Bool.false_ne_true] at hsent
              have hne : publication.nextOffset (maxPayloadBytes - payloadBytes) ≠ publication.length := by
                simpa using hcomplete
              have hle := publication.nextOffset_le (maxPayloadBytes - payloadBytes)
              have hpos : 0 < publication.chunkCount (maxPayloadBytes - payloadBytes) := by
                unfold QueuedPublication.chunkCount at hnext ⊢
                omega
              refine .part (List.length_pos_iff.mp (hlength ▸ hpos)) (by omega) ?_
              rw [hlength, ← hnext]
              exact hsent

theorem drains_deliver {calls : List (Nat × Nat)} {pending left : List (QueuedMutation ρ)}
    (h : reads.drains calls pending = some (left, events)) :
    HandsOn events (pending.map QueuedMutation.owed) (left.map QueuedMutation.owed) := by
  induction calls generalizing pending events with
  | nil =>
    cases h
    exact .none _
  | cons call calls ih =>
    rw [drains] at h
    split at h
    · cases h
    next between first hdrain =>
      obtain ⟨⟨last, rest⟩, hrest, heq⟩ := Option.map_eq_some_iff.mp h
      cases heq
      rw [drain] at hdrain
      split at hdrain
      · cases hdrain
      · obtain ⟨sent, hsent, hresult⟩ := @drainLoop_delivers ρ reads call.2 call.1 [] 0 pending
        rw [hdrain] at hsent hresult
        rcases hresult with hok | ⟨⟨error, herror⟩, -⟩
        · cases hok
          exact hsent.trans (ih hrest)
        · cases herror

end Draining

/-- After a call that left one journal of another, the later calls still hand on all that was owed. -/
def LosesNothing {ρ : Type} (reads : ArtifactReads ρ) (pending left : List (QueuedMutation ρ)) : Prop :=
  left.map QueuedMutation.owed = pending.map QueuedMutation.owed ∧
    ∀ calls final events, reads.drains calls left = some (final, events) →
      HandsOn events (pending.map QueuedMutation.owed) (final.map QueuedMutation.owed)

/-- A drain that fails loses nothing exactly when it fails before it has made an event. -/
theorem failed_drain_loses_nothing_iff {ρ : Type} {reads : ArtifactReads ρ} {maxEvents maxPayloadBytes : Nat}
    {pending left : List (QueuedMutation ρ)} {error : RepositoryError}
    (h : reads.drain maxEvents maxPayloadBytes pending = (left, .error error)) :
    reads.LosesNothing pending left ↔
      (maxEvents = 0 ∨ maxPayloadBytes = 0) ∨ reads.FirstReadFails maxPayloadBytes pending := by
  have hkept : reads.LosesNothing pending left ↔ left.map QueuedMutation.owed = pending.map QueuedMutation.owed := by
    refine ⟨And.left, fun hsame => ⟨hsame, fun calls final events hdrains => ?_⟩⟩
    rw [← hsame]
    exact drains_deliver hdrains
  rw [hkept]
  rw [drain] at h
  split at h
  next hlimits =>
    cases h
    exact iff_of_true rfl (.inl hlimits)
  next hlimits =>
    constructor
    · intro hsame
      obtain ⟨sent, hsent, hresult⟩ := @drainLoop_delivers ρ reads maxPayloadBytes maxEvents [] 0 pending
      rw [h] at hsent hresult
      rcases hresult with hok | ⟨-, hfirst⟩
      · cases hok
      · have hweight := hsent.weight
        rw [hsame] at hweight
        exact .inr (hfirst (List.eq_nil_of_length_eq_zero (by omega)))
    · rintro (hzero | hfirst)
      · exact absurd hzero hlimits
      · obtain ⟨room, rfl⟩ := Nat.exists_eq_succ_of_ne_zero fun hzero => hlimits (.inl hzero)
        unfold FirstReadFails at hfirst
        split at hfirst
        next publication rest =>
          obtain ⟨cause, reader, hread⟩ := hfirst
          rw [drainLoop] at h
          simp only [Nat.sub_zero, ne_eq, not_true_eq_false, and_false, if_false, hread] at h
          cases h
          rfl
        · exact hfirst.elim

def readsOnceRefused : ArtifactReads Bool where
  readAt refused _ count := if refused then (.error (.io "interrupted"), false) else (.ok (List.replicate count 0), false)
  bounded refused offset count data h := by
    cases refused with
    | true => cases h
    | false =>
      cases h
      exact (List.length_replicate).le

def refusedPublication : QueuedMutation Bool :=
  .published ⟨⟨"cache", [1]⟩, true, 1, 0, Nat.zero_le 1, by decide⟩

theorem failed_drain_loses_nothing_first :
    ∃ left, readsOnceRefused.LosesNothing [refusedPublication, .removed ⟨"cache", [2]⟩] left :=
  ⟨_, (@failed_drain_loses_nothing_iff Bool readsOnceRefused 2 1 _ _ _ rfl).mpr
    (.inr ⟨_, _, rfl⟩)⟩

/-- The removal in front of a publication that cannot be read is never handed on. -/
theorem failed_drain_loses_removal :
    ∃ left error, readsOnceRefused.drain 2 1 [.removed ⟨"cache", [2]⟩, refusedPublication] = (left, .error error) ∧
      ¬ readsOnceRefused.LosesNothing [.removed ⟨"cache", [2]⟩, refusedPublication] left := by
  refine ⟨_, _, rfl, fun h => ?_⟩
  have hsame := h.1
  revert hsame
  decide

def ofBytes : ArtifactReads Bytes where
  readAt reader offset count := (readArtifactAt reader offset count, reader)
  bounded reader offset count data h := by
    dsimp only [readArtifactAt] at h
    split at h
    · cases h
    · cases h
      exact List.length_take_le _ _

def stored : QueuedMutation Bytes → PendingMutation
  | .published publication =>
    .published ⟨publication.key, publication.reader, publication.length, publication.offset⟩
  | .removed key => .removed key

theorem readExactLoop_ofBytes (reader : Bytes) (offset wanted rounds : Nat) (copied : Bytes) :
    ofBytes.readExactLoop offset wanted rounds copied reader =
      (LogicConduit.readExactLoop reader offset wanted rounds copied, reader) := by
  induction rounds generalizing copied with
  | zero => rfl
  | succ rounds ih =>
    rw [readExactLoop, LogicConduit.readExactLoop]
    split
    · rw [show ofBytes.readAt reader (offset + copied.length) (wanted - copied.length) =
        (readArtifactAt reader (offset + copied.length) (wanted - copied.length), reader) from rfl]
      rcases readArtifactAt reader (offset + copied.length) (wanted - copied.length) with error | data
      · rfl
      · cases data with
        | nil => rfl
        | cons first data => exact ih _
    · rfl

theorem readExactAt_ofBytes (reader : Bytes) (offset wanted : Nat) :
    ofBytes.readExactAt reader offset wanted = (LogicConduit.readExactAt reader offset wanted, reader) :=
  readExactLoop_ofBytes reader offset wanted wanted []

/-- The drains of a repository whose readers cannot fail are the ones that are replicated. -/
theorem drain_ofBytes (inner : Repository) (maxEvents maxPayloadBytes : Nat) (pending : List (QueuedMutation Bytes)) :
    (ReplicatingArtifactRepository.mk inner (pending.map stored)).drain maxEvents maxPayloadBytes =
      (⟨inner, (ofBytes.drain maxEvents maxPayloadBytes pending).1.map stored⟩,
        (ofBytes.drain maxEvents maxPayloadBytes pending).2) := by
  have hloop : ∀ (room : Nat) (events : List ArtifactReplicationEvent) (payloadBytes : Nat)
      (pending : List (QueuedMutation Bytes)),
      ReplicatingArtifactRepository.drainLoop maxPayloadBytes room events payloadBytes (pending.map stored) =
        ((ofBytes.drainLoop maxPayloadBytes room events payloadBytes pending).1.map stored,
          (ofBytes.drainLoop maxPayloadBytes room events payloadBytes pending).2) := by
    intro room
    induction room with
    | zero => exact fun events payloadBytes pending => rfl
    | succ room ih =>
      intro events payloadBytes pending
      rcases pending with _ | ⟨publication | key, rest⟩
      · rfl
      · rw [List.map_cons, stored, ReplicatingArtifactRepository.drainLoop, drainLoop]
        dsimp only
        rw [readExactAt_ofBytes]
        split
        · rfl
        · rw [QueuedPublication.chunkCount]
          rcases LogicConduit.readExactAt publication.reader publication.offset
            (min (publication.length - publication.offset) (max (maxPayloadBytes - payloadBytes) 1)) with error | data
          · rfl
          · dsimp only
            rw [← ih, apply_ite (List.map stored)]
            rfl
      · exact ih _ _ rest
  rw [ReplicatingArtifactRepository.drain, drain]
  split
  · rfl
  · rw [hloop]

end ArtifactReads

end LogicConduit
