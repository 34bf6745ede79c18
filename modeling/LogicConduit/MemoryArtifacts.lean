import Mathlib.Algebra.BigOperators.Group.List.Lemmas
import LogicConduit.ReplicationRuns

namespace LogicConduit

section Chunks

variable (limit size : Nat)

structure MemoryArtifact where
  chunks : List Bytes
  len : Nat

namespace MemoryArtifact

def resizeChunks (chunks : List Bytes) (len : Nat) : List Bytes :=
  let count := (len + (size - 1)) / size
  (chunks.take count ++ List.replicate (count - chunks.length) []).mapIdx fun index chunk =>
    resizeStaged chunk (min (len - index * size) size)

/-- Why an artifact cannot have this length. -/
def refusal (len : Nat) : Option RepositoryError :=
  if limit < len then some .quotaExceeded
  else if 2 ^ 64 ≤ len + (size - 1) then some (.rangeOverflow 0 len)
  else none

def resize (artifact : MemoryArtifact) (len : Nat) : Except RepositoryError MemoryArtifact :=
  match refusal limit size len with
  | some error => .error error
  | none => .ok ⟨resizeChunks size artifact.chunks len, len⟩

/-- The loop of `write_at`: a round copies at least one byte, and there is none where a slice would panic. -/
def copyInLoop : Nat → Nat → Bytes → List Bytes → Option (List Bytes)
  | 0, _, _, chunks => some chunks
  | rounds + 1, position, source, chunks =>
    if source = [] then some chunks
    else
      let count := min source.length (size - position % size)
      match chunks[position / size]? with
      | none => none
      | some chunk =>
        if chunk.length < position % size + count then none
        else copyInLoop rounds (position + count) (source.drop count)
          (chunks.set (position / size) (putRange chunk (position % size) (source.take count)))

def writeAt (artifact : MemoryArtifact) (offset : Nat) (source : Bytes) : Option (Except RepositoryError MemoryArtifact) :=
  if 2 ^ 64 ≤ offset + source.length then some (.error (.rangeOverflow offset source.length))
  else
    match if artifact.len < offset + source.length then artifact.resize limit size (offset + source.length)
      else .ok artifact with
    | .error error => some (.error error)
    | .ok grown => (copyInLoop size source.length offset source grown.chunks).map fun chunks => .ok { grown with chunks }

/-- The loop of `read_at`: a round that copies nothing ends it. -/
def copyOutLoop (chunks : List Bytes) : Nat → Nat → Nat → Except RepositoryError Bytes
  | 0, _, _ => .ok []
  | rounds + 1, position, wanted =>
    if wanted = 0 then .ok []
    else match chunks[position / size]? with
      | none => .error (.corrupt "memory artifact has a missing chunk")
      | some chunk =>
        let count := min wanted (chunk.length - position % size)
        if count = 0 then .error (.corrupt "memory artifact chunk is truncated")
        else (copyOutLoop chunks rounds (position + count) (wanted - count)).map
          ((chunk.drop (position % size)).take count ++ ·)

def readAt (artifact : MemoryArtifact) (offset count : Nat) : Except RepositoryError Bytes :=
  if artifact.len < offset then .error (.outOfBounds offset offset artifact.len)
  else
    let available := min (artifact.len - offset) count
    copyOutLoop size artifact.chunks available offset available

/-- `region`: the bytes where they lie, unless they cross from one chunk into the next. -/
def region (artifact : MemoryArtifact) (offset count : Nat) : Except RepositoryError (Option Bytes) :=
  if artifact.len < offset + count then .error (.outOfBounds offset (offset + count) artifact.len)
  else if count = 0 then .ok (some [])
  else if offset / size ≠ (offset + count - 1) / size then .ok none
  else match artifact.chunks[offset / size]? with
    | none => .error (.corrupt "memory artifact has a missing chunk")
    | some chunk => match getRange chunk (offset % size) (offset % size + count) with
      | none => .error (.outOfBounds (offset % size) (offset % size + count) chunk.length)
      | some bytes => .ok (some bytes)

/-- The loop of `read_artifact_region`. -/
def fillLoop (artifact : MemoryArtifact) (offset stop : Nat) : Nat → Nat → Except RepositoryError Bytes
  | 0, _ => .ok []
  | rounds + 1, position =>
    if stop ≤ position then .ok []
    else match artifact.readAt size position (stop - position) with
      | .error error => .error error
      | .ok [] => .error (.outOfBounds offset stop artifact.len)
      | .ok bytes => (fillLoop artifact offset stop rounds (position + bytes.length)).map (bytes ++ ·)

def readRegion (artifact : MemoryArtifact) (offset count : Nat) : Except RepositoryError Bytes :=
  if 2 ^ 64 ≤ offset + count then .error (.rangeOverflow offset count)
  else match artifact.region size offset count with
    | .error error => .error error
    | .ok (some bytes) => .ok bytes
    | .ok none => artifact.fillLoop size offset (offset + count) count offset

end MemoryArtifact

/-- A refused call leaves what it was made on. -/
def answered {α : Type} (before : α) : Except RepositoryError α → α × Option RepositoryError
  | .error error => (before, some error)
  | .ok after => (after, none)

def WriteOp.inChunks (artifact : MemoryArtifact) : WriteOp → Option (MemoryArtifact × Option RepositoryError)
  | .writeAt offset source => (artifact.writeAt limit size offset.toNat source).map (answered artifact)
  | .truncate len => some (answered artifact (artifact.resize limit size len.toNat))
  | .flush => some (artifact, none)

/-- What the call does to a flat byte string under the same limits. -/
def WriteOp.inBytes (bytes : Bytes) : WriteOp → Option (Bytes × Option RepositoryError)
  | .writeAt offset source =>
    match stagedWriteAt bytes offset.toNat source with
    | .error error => some (bytes, some error)
    | .ok written =>
      if bytes.length < written.length then
        match MemoryArtifact.refusal limit size written.length with
        | some error => some (bytes, some error)
        | none => some (written, none)
      else some (written, none)
  | .truncate len =>
    match MemoryArtifact.refusal limit size len.toNat with
    | some error => some (bytes, some error)
    | none => some (resizeStaged bytes len.toNat, none)
  | .flush => some (bytes, none)

end Chunks

/-- Calls one after the other, with their answers; there is no end where one of them panics. -/
def playCalls {σ κ ω : Type} (step : σ → κ → Option (σ × ω)) : List κ → σ → Option (σ × List ω)
  | [], state => some (state, [])
  | call :: calls, state => (step state call).bind fun (next, answer) =>
    (playCalls step calls next).map fun (last, answers) => (last, answer :: answers)

theorem playCalls_agree {σ τ κ ω : Type} {step : σ → κ → Option (σ × ω)} {step' : τ → κ → Option (τ × ω)}
    {R : σ → τ → Prop} (hstep : ∀ {state other}, R state other → ∀ call, ∃ next next' answer,
      step state call = some (next, answer) ∧ step' other call = some (next', answer) ∧ R next next')
    (calls : List κ) {state : σ} {other : τ} (h : R state other) :
    ∃ last last' answers, playCalls step calls state = some (last, answers) ∧
      playCalls step' calls other = some (last', answers) ∧ R last last' := by
  induction calls generalizing state other with
  | nil => exact ⟨state, other, [], rfl, rfl, h⟩
  | cons call calls ih =>
    obtain ⟨next, next', answer, hcall, hcall', hnext⟩ := hstep h call
    obtain ⟨last, last', answers, hrun, hrun', hlast⟩ := ih hnext
    refine ⟨last, last', answer :: answers, ?_, ?_, hlast⟩
    · rw [playCalls, hcall, Option.bind_some]
      dsimp only
      rw [hrun]
      rfl
    · rw [playCalls, hcall', Option.bind_some]
      dsimp only
      rw [hrun']
      rfl

/-- The chunks of a byte string: all of one size, but for a shorter last one. -/
def Cut (size : Nat) (bytes : Bytes) (chunks : List Bytes) : Prop :=
  ∀ i, chunks[i]? = if i * size < bytes.length then some ((bytes.drop (i * size)).take size) else none

variable {limit size : Nat} {bytes source : Bytes} {chunks : List Bytes} {artifact : MemoryArtifact}

theorem getElem?_resizeStaged (staged : Bytes) (len i : Nat) :
    (resizeStaged staged len)[i]? = if i < len then some (staged.getD i 0) else none := by
  rw [resizeStaged, List.getElem?_append, List.getElem?_take, List.getElem?_replicate, List.length_take]
  grind

theorem getElem?_putRange {a : Nat} (h : a + source.length ≤ bytes.length) (i : Nat) :
    (putRange bytes a source)[i]? = if i < a then bytes[i]? else if i < a + source.length then source[i - a]?
      else bytes[i]? := by
  rw [putRange, List.append_assoc, List.getElem?_append, List.getElem?_append, List.getElem?_take, List.getElem?_drop]
  grind

theorem Cut.getD (h : Cut size bytes chunks) (i : Nat) :
    chunks.getD i [] = (bytes.drop (i * size)).take size := by
  rw [List.getD_eq_getElem?_getD, h i]
  split
  · rfl
  · next hover => rw [List.drop_eq_nil_of_le (Nat.not_lt.mp hover), List.take_nil, Option.getD_none]

open MemoryArtifact

theorem Cut.resize (hpos : 0 < size) (h : Cut size bytes chunks) (len : Nat) :
    Cut size (resizeStaged bytes len) (resizeChunks size chunks len) := by
  intro i
  have hcount : i < (len + (size - 1)) / size ↔ i * size < len := by
    rw [Nat.lt_div_iff_mul_lt hpos, Nat.add_sub_cancel]
  have hlength : (resizeStaged bytes len).length = len := by simp [resizeStaged]; omega
  have hchunk : (chunks.take ((len + (size - 1)) / size) ++
      List.replicate ((len + (size - 1)) / size - chunks.length) [])[i]? =
        if i * size < len then some (chunks.getD i []) else none := by
    rw [List.getElem?_append, List.getElem?_take, List.getElem?_replicate, List.length_take]
    grind
  rw [hlength, resizeChunks, List.getElem?_mapIdx, hchunk]
  split
  · rw [Option.map_some, h.getD, Option.some.injEq]
    apply List.ext_getElem?
    intro j
    rw [List.getElem?_take, List.getElem?_drop, getElem?_resizeStaged, getElem?_resizeStaged]
    grind
  · rfl

theorem putRange_append {a : Nat} {piece : Bytes} (h : a + (source ++ piece).length ≤ bytes.length) :
    putRange (putRange bytes a source) (a + source.length) piece = putRange bytes a (source ++ piece) := by
  rw [List.length_append] at h
  have hleft : (putRange bytes a source).length = bytes.length := putRange_length (by omega)
  apply List.ext_getElem?
  intro i
  rw [getElem?_putRange (by omega), getElem?_putRange (by omega), getElem?_putRange (by rwa [List.length_append]),
    List.length_append, List.getElem?_append]
  grind

theorem Cut.put (h : Cut size bytes chunks) {position : Nat} {piece chunk : Bytes}
    (hin : position % size + piece.length ≤ size) (hfits : position + piece.length ≤ bytes.length)
    (hchunk : chunks[position / size]? = some chunk) :
    Cut size (putRange bytes position piece)
      (chunks.set (position / size) (putRange chunk (position % size) piece)) := by
  intro i
  have hsplit := Nat.div_add_mod' position size
  rw [putRange_length hfits, List.getElem?_set]
  split
  · next hsame =>
    subst hsame
    obtain ⟨hlt, -⟩ := List.getElem?_eq_some_iff.mp hchunk
    rw [h] at hchunk
    split at hchunk
    · next hstart =>
      cases hchunk
      rw [if_pos hlt, if_pos hstart, Option.some.injEq]
      apply List.ext_getElem?
      intro j
      have hroom : position % size + piece.length ≤ ((bytes.drop (position / size * size)).take size).length := by
        rw [List.length_take, List.length_drop]
        omega
      rw [getElem?_putRange hroom, List.getElem?_take, List.getElem?_take, List.getElem?_drop, List.getElem?_drop,
        getElem?_putRange hfits]
      grind
    · cases hchunk
  · next hother =>
    rw [h i]
    split
    · rw [Option.some.injEq]
      apply List.ext_getElem?
      intro j
      rw [List.getElem?_take, List.getElem?_take, List.getElem?_drop, List.getElem?_drop, getElem?_putRange hfits]
      -- the piece stays inside its own chunk
      rcases Nat.lt_or_gt_of_ne hother with hlt | hlt
      · have hle := Nat.mul_le_mul_right size hlt
        grind
      · have hle := Nat.mul_le_mul_right size hlt
        grind
    · rfl

theorem Cut.copyIn (hpos : 0 < size) (h : Cut size bytes chunks) {position rounds : Nat}
    (hfits : position + source.length ≤ bytes.length) (hrounds : source.length ≤ rounds) :
    ∃ copied, copyInLoop size rounds position source chunks = some copied ∧
      Cut size (putRange bytes position source) copied := by
  induction rounds generalizing bytes chunks position source with
  | zero =>
    rw [List.eq_nil_of_length_eq_zero (Nat.le_zero.mp hrounds)]
    exact ⟨chunks, rfl, by simpa [putRange] using h⟩
  | succ rounds ih =>
    rw [copyInLoop]
    split
    · next hnil =>
      rw [hnil]
      exact ⟨chunks, rfl, by simpa [putRange] using h⟩
    · next hne =>
      have hlength := List.length_pos_iff.mpr hne
      have hsplit := Nat.div_add_mod' position size
      have hmod := Nat.mod_lt position hpos
      have hchunk := h (position / size)
      rw [if_pos (by omega)] at hchunk
      dsimp only
      generalize hcount : min source.length (size - position % size) = count
      have htake : (source.take count).length = count := List.length_take_of_le (by omega)
      rw [hchunk]
      dsimp only
      rw [if_neg (by rw [List.length_take, List.length_drop]; omega)]
      have hput := h.put (by rw [htake]; omega) (by rw [htake]; omega) hchunk
      obtain ⟨copied, hloop, hcut⟩ := @ih _ (source.drop count) _ hput (position + count)
        (by rw [putRange_length (by rw [htake]; omega), List.length_drop]; omega) (by rw [List.length_drop]; omega)
      refine ⟨copied, hloop, ?_⟩
      have happend : position + (source.take count ++ source.drop count).length ≤ bytes.length := by
        rwa [List.take_append_drop]
      have hwhole := putRange_append happend
      rw [htake, List.take_append_drop] at hwhole
      rwa [← hwhole]

theorem Cut.copyOut (hpos : 0 < size) (h : Cut size bytes chunks) {position wanted rounds : Nat}
    (hfits : position + wanted ≤ bytes.length) (hrounds : wanted ≤ rounds) :
    copyOutLoop size chunks rounds position wanted = .ok ((bytes.drop position).take wanted) := by
  induction rounds generalizing position wanted with
  | zero =>
    rw [Nat.le_zero.mp hrounds, List.take_zero]
    rfl
  | succ rounds ih =>
    rw [copyOutLoop]
    split
    · next hzero =>
      rw [hzero, List.take_zero]
    · next hwanted =>
      have hsplit := Nat.div_add_mod' position size
      have hmod := Nat.mod_lt position hpos
      have hchunk := h (position / size)
      rw [if_pos (by omega)] at hchunk
      rw [hchunk]
      dsimp only
      generalize hcount : min wanted (((bytes.drop (position / size * size)).take size).length - position % size) = count
      rw [List.length_take, List.length_drop] at hcount
      rw [if_neg (by omega), ih (by omega) (by omega), List.drop_take, List.take_take, List.drop_drop, hsplit,
        Nat.min_eq_left (by omega), ← List.drop_drop, ← Nat.add_sub_cancel' (show count ≤ wanted by omega), List.take_add,
        Nat.add_sub_cancel_left]
      rfl

/-- The artifact holds these bytes. -/
structure Chunked (size : Nat) (artifact : MemoryArtifact) (bytes : Bytes) : Prop where
  len : artifact.len = bytes.length
  cut : Cut size bytes artifact.chunks

theorem chunked_empty (size : Nat) : Chunked size ⟨[], 0⟩ [] := ⟨rfl, fun _ => (if_neg (Nat.not_lt_zero _)).symm⟩

section Chunked

variable (hpos : 0 < size) (h : Chunked size artifact bytes)
include hpos h

theorem Chunked.resize {len : Nat} (hfree : refusal limit size len = none) :
    ∃ resized, artifact.resize limit size len = .ok resized ∧ Chunked size resized (resizeStaged bytes len) := by
  rw [MemoryArtifact.resize, hfree]
  exact ⟨_, rfl, (resizeStaged_length_eq bytes len).symm, h.cut.resize hpos len⟩

theorem Chunked.copyIn {offset : Nat} (hfits : offset + source.length ≤ bytes.length) :
    ∃ chunks, copyInLoop size source.length offset source artifact.chunks = some chunks ∧
      Chunked size { artifact with chunks } (putRange bytes offset source) := by
  obtain ⟨chunks, hcopied, hcut⟩ := h.cut.copyIn hpos hfits (Nat.le_refl _)
  exact ⟨chunks, hcopied, h.len.trans (putRange_length hfits).symm, hcut⟩

theorem Chunked.inChunks (op : WriteOp) :
    ∃ changed bytes' answer, op.inChunks limit size artifact = some (changed, answer) ∧
      op.inBytes limit size bytes = some (bytes', answer) ∧ Chunked size changed bytes' := by
  cases op with
  | flush => exact ⟨artifact, bytes, none, rfl, rfl, h⟩
  | truncate len =>
    rw [WriteOp.inChunks, WriteOp.inBytes]
    cases hfree : refusal limit size len.toNat with
    | some error => exact ⟨artifact, bytes, some error, by rw [MemoryArtifact.resize, hfree]; rfl, rfl, h⟩
    | none =>
      obtain ⟨resized, hresized, hchunked⟩ := h.resize hpos hfree
      exact ⟨resized, _, none, by rw [hresized]; rfl, rfl, hchunked⟩
  | writeAt offset source =>
    have hlength := writeAt_length_eq bytes source offset.toNat
    rw [WriteOp.inChunks, WriteOp.inBytes, MemoryArtifact.writeAt, stagedWriteAt, h.len]
    by_cases hover : 2 ^ 64 ≤ offset.toNat + source.length
    · rw [if_pos hover, if_pos hover]
      exact ⟨artifact, bytes, _, rfl, rfl, h⟩
    · rw [if_neg hover, if_neg hover]
      dsimp only
      rw [hlength]
      by_cases hgrows : bytes.length < offset.toNat + source.length
      · rw [Nat.max_eq_right hgrows.le, if_pos hgrows, if_pos hgrows]
        cases hfree : refusal limit size (offset.toNat + source.length) with
        | some error => exact ⟨artifact, bytes, some error, by rw [MemoryArtifact.resize, hfree]; rfl, rfl, h⟩
        | none =>
          obtain ⟨resized, hresized, hchunked⟩ := h.resize hpos hfree
          obtain ⟨chunks, hcopied, hput⟩ := hchunked.copyIn hpos (resizeStaged_length_eq _ _).ge
          rw [hresized]
          dsimp only
          rw [hcopied]
          refine ⟨_, _, none, rfl, rfl, ?_⟩
          rwa [LogicConduit.writeAt, if_pos hgrows]
      · obtain ⟨chunks, hcopied, hput⟩ := h.copyIn hpos (Nat.not_lt.mp hgrows)
        rw [if_neg hgrows, Nat.max_eq_left (Nat.not_lt.mp hgrows), if_neg (Nat.lt_irrefl _)]
        dsimp only
        rw [hcopied]
        refine ⟨_, _, none, rfl, rfl, ?_⟩
        rwa [LogicConduit.writeAt, if_neg hgrows]

theorem Chunked.readAt (offset count : Nat) :
    artifact.readAt size offset count = readArtifactAt bytes offset count := by
  rw [MemoryArtifact.readAt, readArtifactAt, h.len]
  split
  · rfl
  · dsimp only
    rw [h.cut.copyOut hpos (by omega) (Nat.le_refl _), Except.ok.injEq, List.take_eq_take_iff, List.length_drop]
    omega

theorem Chunked.fill {offset count : Nat} (hcount : 0 < count) (hfits : offset + count ≤ bytes.length) :
    artifact.fillLoop size offset (offset + count) count offset = .ok ((bytes.drop offset).take count) := by
  obtain ⟨rounds, rfl⟩ := Nat.exists_eq_add_one_of_ne_zero hcount.ne'
  have hlength : ((bytes.drop offset).take (rounds + 1)).length = rounds + 1 := by
    rw [List.length_take, List.length_drop]
    omega
  rw [fillLoop, if_neg (by omega), h.readAt hpos, readArtifactAt, if_neg (by omega), Nat.add_sub_cancel_left]
  cases hread : (bytes.drop offset).take (rounds + 1) with
  | nil =>
    rw [hread] at hlength
    cases hlength
  | cons first rest =>
    rw [hread] at hlength
    have hdone : artifact.fillLoop size offset (offset + (rounds + 1)) rounds (offset + (first :: rest).length) = .ok [] := by
      cases rounds with
      | zero => rfl
      | succ rounds => rw [fillLoop, if_pos (by omega)]
    dsimp only
    rw [hdone]
    simp [Except.map]

theorem Chunked.readRegion (offset count : Nat) :
    artifact.readRegion size offset count = readArtifactRegion bytes offset count := by
  rw [MemoryArtifact.readRegion, readArtifactRegion, region, h.len]
  split
  · rfl
  by_cases hout : bytes.length < offset + count
  · rw [if_pos hout, getRange, if_neg (by omega)]
  have hflat : getRange bytes offset (offset + count) = some ((bytes.drop offset).take count) := by
    rw [getRange, if_pos (by omega), Nat.add_sub_cancel_left]
  rw [if_neg hout, hflat]
  by_cases hzero : count = 0
  · rw [if_pos hzero, hzero, List.take_zero]
  rw [if_neg hzero]
  have hcount := Nat.pos_of_ne_zero hzero
  by_cases hcross : offset / size = (offset + count - 1) / size
  · have hsplit := Nat.div_add_mod' offset size
    have hlast := Nat.div_add_mod' (offset + count - 1) size
    have hmod := Nat.mod_lt (offset + count - 1) hpos
    rw [← hcross] at hlast
    have hchunk := h.cut (offset / size)
    rw [if_pos (by omega)] at hchunk
    rw [if_neg (not_not.mpr hcross), hchunk]
    dsimp only
    rw [getRange, if_pos ⟨Nat.le_add_right _ _, by rw [List.length_take, List.length_drop]; omega⟩, List.drop_take,
      List.take_take, List.drop_drop, hsplit, Nat.add_sub_cancel_left, Nat.min_eq_left (by omega)]
  · rw [if_pos hcross]
    exact h.fill hpos hcount (Nat.not_lt.mp hout)

end Chunked

theorem chunked_run (hpos : 0 < size) (ops : List WriteOp) :
    ∃ artifact bytes answers, playCalls (WriteOp.inChunks limit size) ops ⟨[], 0⟩ = some (artifact, answers) ∧
      playCalls (WriteOp.inBytes limit size) ops [] = some (bytes, answers) ∧ Chunked size artifact bytes :=
  playCalls_agree (fun h => h.inChunks hpos) ops (chunked_empty size)

/-- The published artifacts and the bytes that they take of the budget. -/
structure BudgetedMap (α : Type) where
  artifacts : ArtifactKey → Option α
  usedBytes : Nat

namespace BudgetedMap

variable {α : Type} (length : α → Nat) (limit : Nat)

def storedLength (stored : Option α) : Nat := stored.elim 0 length

def empty : BudgetedMap α := ⟨fun _ => none, 0⟩

def remove (repository : BudgetedMap α) (key : ArtifactKey) : BudgetedMap α :=
  ⟨Function.update repository.artifacts key none,
    repository.usedBytes - storedLength length (repository.artifacts key)⟩

def publish (repository : BudgetedMap α) (key : ArtifactKey) (artifact : α) : BudgetedMap α × Option RepositoryError :=
  let nextUsed := repository.usedBytes - storedLength length (repository.artifacts key) + length artifact
  if 2 ^ 64 ≤ nextUsed ∨ limit < nextUsed then (repository, some .quotaExceeded)
  else (⟨Function.update repository.artifacts key (some artifact), nextUsed⟩, none)

/-- The used bytes are those of the published artifacts, and within the budget. -/
def Accounts (repository : BudgetedMap α) : Prop :=
  repository.usedBytes ≤ limit ∧ ∃ keys : List ArtifactKey, keys.Nodup ∧
    (∀ key ∉ keys, repository.artifacts key = none) ∧
    repository.usedBytes = (keys.map fun key => storedLength length (repository.artifacts key)).sum

variable {length limit} {repository : BudgetedMap α}

section

variable (h : repository.Accounts length limit)
include h

theorem Accounts.replace (key : ArtifactKey) (stored : Option α)
    (hroom : repository.usedBytes - storedLength length (repository.artifacts key) + storedLength length stored ≤ limit) :
    Accounts length limit ⟨Function.update repository.artifacts key stored,
      repository.usedBytes - storedLength length (repository.artifacts key) + storedLength length stored⟩ := by
  obtain ⟨-, keys, hnodup, hout, hsum⟩ := h
  have hold : storedLength length (repository.artifacts key) +
      ((keys.erase key).map fun key => storedLength length (repository.artifacts key)).sum = repository.usedBytes := by
    by_cases hmem : key ∈ keys
    · rw [hsum]
      exact List.sum_map_erase (fun key => storedLength length (repository.artifacts key)) hmem
    · rw [hout key hmem, List.erase_of_not_mem hmem, hsum]
      exact Nat.zero_add _
  refine ⟨hroom, key :: keys.erase key, List.nodup_cons.mpr ⟨hnodup.not_mem_erase, hnodup.erase key⟩, ?_, ?_⟩
  · intro other hother
    rw [List.mem_cons, not_or] at hother
    dsimp only
    rw [Function.update_of_ne hother.1]
    exact hout other fun hmem => hother.2 ((List.mem_erase_of_ne hother.1).mpr hmem)
  · have hkept : (keys.erase key).map (fun other => storedLength length (Function.update repository.artifacts key stored other)) =
        (keys.erase key).map fun other => storedLength length (repository.artifacts other) := by
      apply List.map_congr_left
      intro other hmem
      rw [Function.update_of_ne]
      rintro rfl
      exact hnodup.not_mem_erase hmem
    dsimp only
    rw [List.map_cons, List.sum_cons, hkept, Function.update_self]
    omega

theorem Accounts.publish (key : ArtifactKey) (artifact : α) :
    (repository.publish length limit key artifact).1.Accounts length limit := by
  rw [BudgetedMap.publish]
  split
  · exact h
  · next hroom =>
    rw [not_or, Nat.not_lt] at hroom
    exact h.replace key (some artifact) hroom.2

theorem Accounts.remove (key : ArtifactKey) : (repository.remove length key).Accounts length limit :=
  h.replace key none ((Nat.sub_le _ _).trans h.1)

end

end BudgetedMap

/-- A writer is seen by nobody else before it is published, so that its calls and its publication are one step. -/
inductive RepositoryCall
  | write (key : ArtifactKey) (ops : List WriteOp)
  | remove (key : ArtifactKey)

section Calls

variable (limit size : Nat)

def RepositoryCall.inChunks (repository : BudgetedMap MemoryArtifact) : RepositoryCall →
    Option (BudgetedMap MemoryArtifact × List (Option RepositoryError))
  | .write key ops => (playCalls (WriteOp.inChunks limit size) ops ⟨[], 0⟩).map fun (written, answers) =>
    let (next, answer) := repository.publish MemoryArtifact.len limit key written
    (next, answers ++ [answer])
  | .remove key => some (repository.remove MemoryArtifact.len key, [])

def RepositoryCall.inBytes (repository : BudgetedMap Bytes) : RepositoryCall →
    Option (BudgetedMap Bytes × List (Option RepositoryError))
  | .write key ops => (playCalls (WriteOp.inBytes limit size) ops []).map fun (written, answers) =>
    let (next, answer) := repository.publish List.length limit key written
    (next, answers ++ [answer])
  | .remove key => some (repository.remove List.length key, [])

end Calls

/-- The chunks of every key stand for its bytes, and the used bytes are accounted for. -/
structure InChunks (limit size : Nat) (repository : BudgetedMap MemoryArtifact) (map : BudgetedMap Bytes) : Prop where
  usedBytes : repository.usedBytes = map.usedBytes
  artifacts : ∀ key, Option.Rel (Chunked size) (repository.artifacts key) (map.artifacts key)
  accounts : repository.Accounts MemoryArtifact.len limit

section InChunks

variable {repository : BudgetedMap MemoryArtifact} {map : BudgetedMap Bytes} (h : InChunks limit size repository map)
include h

theorem InChunks.storedLength (key : ArtifactKey) :
    BudgetedMap.storedLength MemoryArtifact.len (repository.artifacts key) =
      BudgetedMap.storedLength List.length (map.artifacts key) := by
  have hchunked := h.artifacts key
  generalize repository.artifacts key = stored at hchunked ⊢
  generalize map.artifacts key = bytes at hchunked ⊢
  cases hchunked with
  | none => rfl
  | some hchunked => exact hchunked.len

theorem InChunks.put (key : ArtifactKey) {stored : Option MemoryArtifact} {bytes : Option Bytes}
    (hchunked : Option.Rel (Chunked size) stored bytes) (other : ArtifactKey) :
    Option.Rel (Chunked size) (Function.update repository.artifacts key stored other)
      (Function.update map.artifacts key bytes other) := by
  by_cases hother : other = key
  · rwa [hother, Function.update_self, Function.update_self]
  · rw [Function.update_of_ne hother, Function.update_of_ne hother]
    exact h.artifacts other

theorem InChunks.step (hpos : 0 < size) (call : RepositoryCall) :
    ∃ next next' answer, call.inChunks limit size repository = some (next, answer) ∧
      call.inBytes limit size map = some (next', answer) ∧ InChunks limit size next next' := by
  cases call with
  | write key ops =>
    obtain ⟨written, bytes, answers, hrun, hrun', hchunked⟩ := chunked_run hpos ops
    have haccounts := h.accounts.publish key written
    rw [RepositoryCall.inChunks, RepositoryCall.inBytes, hrun, hrun', Option.map_some, Option.map_some]
    unfold BudgetedMap.publish at haccounts ⊢
    dsimp only at haccounts ⊢
    rw [← h.usedBytes, ← h.storedLength key, ← hchunked.len]
    split at haccounts
    · next hfull =>
      simp only [if_pos hfull]
      exact ⟨_, _, _, rfl, rfl, h⟩
    · next hfull =>
      simp only [if_neg hfull]
      exact ⟨_, _, _, rfl, rfl, rfl, h.put key (.some hchunked), haccounts⟩
  | remove key =>
    refine ⟨_, _, [], rfl, rfl, ?_, h.put key .none, h.accounts.remove key⟩
    rw [BudgetedMap.remove, BudgetedMap.remove, h.usedBytes, h.storedLength key]

end InChunks

/-- A repository of chunks is a map of byte strings under a budget: it answers as one, and accounts for what it has. -/
theorem memory_repository_refines_map (hpos : 0 < size) (limit : Nat) (calls : List RepositoryCall) :
    ∃ repository map answers,
      playCalls (RepositoryCall.inChunks limit size) calls .empty = some (repository, answers) ∧
      playCalls (RepositoryCall.inBytes limit size) calls .empty = some (map, answers) ∧
      repository.Accounts MemoryArtifact.len limit ∧
      ∀ key offset count,
        (repository.artifacts key).map (·.readAt size offset count) = (map.artifacts key).map (readArtifactAt · offset count) ∧
        (repository.artifacts key).map (·.readRegion size offset count) =
          (map.artifacts key).map (readArtifactRegion · offset count) := by
  have hempty : InChunks limit size .empty .empty :=
    ⟨rfl, fun _ => .none, Nat.zero_le _, [], List.nodup_nil, fun _ _ => rfl, rfl⟩
  obtain ⟨repository, map, answers, hrun, hrun', hlast⟩ := playCalls_agree (fun h => h.step hpos) calls hempty
  refine ⟨repository, map, answers, hrun, hrun', hlast.accounts, fun key offset count => ?_⟩
  have hchunked := hlast.artifacts key
  generalize repository.artifacts key = stored at hchunked ⊢
  generalize map.artifacts key = bytes at hchunked ⊢
  cases hchunked with
  | none => exact ⟨rfl, rfl⟩
  | some hchunked => exact ⟨congrArg some (hchunked.readAt hpos _ _), congrArg some (hchunked.readRegion hpos _ _)⟩

def quotaCalls : List RepositoryCall :=
  [.write ⟨"cache", [1]⟩ [.writeAt 2 [7, 8, 9], .writeAt 5 [1, 2], .truncate 3], .remove ⟨"cache", [2]⟩,
    .write ⟨"cache", [2]⟩ [.truncate 4]]

theorem memory_repository_refines_map_quota :
    ∃ repository map answers,
      playCalls (RepositoryCall.inChunks 6 4) quotaCalls .empty = some (repository, answers) ∧
      playCalls (RepositoryCall.inBytes 6 4) quotaCalls .empty = some (map, answers) ∧
      repository.Accounts MemoryArtifact.len 6 ∧
      ∀ key offset count,
        (repository.artifacts key).map (·.readAt 4 offset count) = (map.artifacts key).map (readArtifactAt · offset count) ∧
        (repository.artifacts key).map (·.readRegion 4 offset count) =
          (map.artifacts key).map (readArtifactRegion · offset count) :=
  memory_repository_refines_map (by decide) 6 _

end LogicConduit
