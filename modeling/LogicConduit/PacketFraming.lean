import LogicConduit.BroadcastLedger
import LogicConduit.ReceiverStream
import LogicConduit.TransformNodes

namespace LogicConduit

namespace PacketFramer

section Builder

variable (framer : PacketFramer)

def withFixedWordCount (count : Option Nat) : PacketFramer := { framer with fixedWordCount := count.filter (0 < ·) }

def withDelimiter (value : Option UInt64) (included : Bool) : PacketFramer :=
  { framer with delimiter := value.map fun value => (value, included) }

def withMaximumGapNs (maximumGapNs : Option UInt64) : PacketFramer :=
  { framer with maximumGapNs := maximumGapNs.filter (0 < ·) }

def withMaximumWords (maximumWords : Nat) : PacketFramer := { framer with maximumWords := max maximumWords 1 }

def withBoundaryInput (enabled : Bool) : PacketFramer := { framer with boundaryEnabled := enabled }

def withGateInput (polarity : Option GatePolarity) : PacketFramer := { framer with gatePolarity := polarity }

end Builder

/-- A framer that the builder calls can make. -/
inductive Configured : PacketFramer → Prop
  | new : Configured .new
  | fixedWordCount {framer : PacketFramer} (h : Configured framer) (count : Option Nat) :
    Configured (framer.withFixedWordCount count)
  | delimiter {framer : PacketFramer} (h : Configured framer) (value : Option UInt64) (included : Bool) :
    Configured (framer.withDelimiter value included)
  | maximumGapNs {framer : PacketFramer} (h : Configured framer) (gap : Option UInt64) :
    Configured (framer.withMaximumGapNs gap)
  | maximumWords {framer : PacketFramer} (h : Configured framer) (words : Nat) :
    Configured (framer.withMaximumWords words)
  | boundaryInput {framer : PacketFramer} (h : Configured framer) (enabled : Bool) :
    Configured (framer.withBoundaryInput enabled)
  | gateInput {framer : PacketFramer} (h : Configured framer) (polarity : Option GatePolarity) :
    Configured (framer.withGateInput polarity)

/-- The calls of `work` until the node shuts down, and all that they sent. -/
def run : Nat → PacketFramer → PacketFramerInputs → Option (List (ChannelMessage ProtocolPacket))
  | 0, _, _ => none
  | calls + 1, framer, inputs =>
    let call := framer.work inputs true
    match call.result with
    | .ok _ => (run calls call.node call.inputs).map (call.sent ++ ·)
    | .error .shutdown => some call.sent
    | .error _ => none

end PacketFramer

def packetOf (words : List Word) : Option ProtocolPacket :=
  words.head?.bind fun first => words.getLast?.map fun last =>
    ⟨0, 0, first.timestampNs, last.endNs, packetFrameProtocolId, .list (words.map wordValue)⟩

/-- What the framer gathers its packets by: its settings, the level of the gate and the words gathered so far. -/
structure Framing where
  fixedWordCount : Option Nat
  delimiter : Option (UInt64 × Bool)
  maximumGapNs : Option UInt64
  maximumWords : Nat
  gatePolarity : Option GatePolarity
  gateLevel : Bool
  words : List Word

def PacketFramer.framing (framer : PacketFramer) : Framing :=
  ⟨framer.fixedWordCount, framer.delimiter, framer.maximumGapNs, framer.maximumWords, framer.gatePolarity,
    framer.gateLevel, framer.words⟩

namespace Framing

/-- Whether a level of the gate lets words through. -/
def activeAt (framing : Framing) (level : Bool) : Bool :=
  match framing.gatePolarity with
  | none => true
  | some .activeHigh => level
  | some .activeLow => !level

def closed (framing : Framing) : List (List Word) := if framing.words = [] then [] else [framing.words]

def withWords (framing : Framing) (words : List Word) : Framing := { framing with words }

def GapBetween (framing : Framing) (previous word : Word) : Prop :=
  ∃ gap ∈ framing.maximumGapNs, gap.toNat < word.timestampNs.toNat - previous.endNs.toNat

instance (framing : Framing) (previous word : Word) : Decidable (framing.GapBetween previous word) := by
  unfold GapBetween
  infer_instance

def gapBefore (framing : Framing) (word : Word) : Bool := framing.words.getLast?.any (framing.GapBetween · word)

def isDelimiter (framing : Framing) (word : Word) : Bool := framing.delimiter.any (·.1 == word.value)

def isExcluded (framing : Framing) (word : Word) : Bool := framing.isDelimiter word && !framing.delimiter.any (·.2)

def Full (framing : Framing) (words : List Word) : Prop :=
  (∃ count ∈ framing.fixedWordCount, count ≤ words.length) ∨ framing.maximumWords ≤ words.length

instance (framing : Framing) (words : List Word) : Decidable (framing.Full words) := by
  unfold Full
  infer_instance

def gather (framing : Framing) (words : List Word) (word : Word) : List (List Word) × List Word :=
  if framing.isExcluded word then ((framing.withWords words).closed, [])
  else if framing.isDelimiter word ∨ framing.Full (words ++ [word]) then ([words ++ [word]], [])
  else ([], words ++ [word])

def addWord (framing : Framing) (word : Word) : List (List Word) × List Word :=
  if framing.activeAt framing.gateLevel = false then ([], framing.words)
  else if framing.gapBefore word then (framing.closed ++ (framing.gather [] word).1, (framing.gather [] word).2)
  else framing.gather framing.words word

def addEvent (framing : Framing) : PacketFramer.FramerEvent → List (List Word) × Framing
  | .gate level =>
    let changed := { framing with gateLevel := level.value }
    if framing.activeAt framing.gateLevel && !framing.activeAt level.value then (framing.closed, changed.withWords [])
    else ([], changed)
  | .boundary => (framing.closed, framing.withWords [])
  | .word word => ((framing.addWord word).1, framing.withWords (framing.addWord word).2)

/-- The packets of the events, with the words left over as the last one. -/
def frames (framing : Framing) : List PacketFramer.FramerEvent → List (List Word)
  | [] => framing.closed
  | event :: events => (framing.addEvent event).1 ++ (framing.addEvent event).2.frames events

end Framing

namespace PacketFramer

variable {framer : PacketFramer}

theorem closePacket_eq (framer : PacketFramer) :
    framer.closePacket = (framer.framing.closed.filterMap packetOf, { framer with words := [] }) := by
  unfold closePacket Framing.closed framing
  cases hwords : framer.words with
  | nil => rfl
  | cons first rest =>
    have hlast : (first :: rest).getLast? = some ((first :: rest).getLast (List.cons_ne_nil _ _)) :=
      List.getLast?_eq_some_getLast _
    have hpacket : packetOf (first :: rest) = some ⟨0, 0, first.timestampNs,
        ((first :: rest).getLast (List.cons_ne_nil _ _)).endNs, packetFrameProtocolId,
        .list ((first :: rest).map wordValue)⟩ := by
      rw [packetOf, hlast]
      rfl
    rw [hlast, if_neg (List.cons_ne_nil _ _), List.filterMap_cons_some hpacket]
    rfl

theorem gateActive_eq (framer : PacketFramer) : 
    framer.gateActive = framer.framing.activeAt framer.framing.gateLevel := rfl

theorem gapExceeded_eq (framer : PacketFramer) (word : Word) :
    framer.gapExceeded word = framer.framing.gapBefore word := by
  unfold gapExceeded Framing.gapBefore Framing.GapBetween framing
  cases framer.maximumGapNs with
  | none => cases framer.words.getLast? <;> simp
  | some gap => cases framer.words.getLast? <;> simp

def gatherWord (framer : PacketFramer) (word : Word) : List ProtocolPacket × PacketFramer :=
  let delimiter := framer.delimiter.any (·.1 == word.value)
  let includeDelimiter := framer.delimiter.any (·.2)
  if delimiter && !includeDelimiter then framer.closePacket
  else
    let framer := { framer with words := framer.words ++ [word] }
    let fixedComplete := framer.fixedWordCount.any (· ≤ framer.words.length)
    if delimiter || fixedComplete || decide (framer.maximumWords ≤ framer.words.length) then framer.closePacket
    else ([], framer)

theorem gatherWord_eq (framer : PacketFramer) (word : Word) :
    framer.gatherWord word = ((framer.framing.gather framer.words word).1.filterMap packetOf,
      { framer with words := (framer.framing.gather framer.words word).2 }) := by
  have hfull : framer.framing.Full (framer.words ++ [word]) ↔
      (framer.fixedWordCount.any (decide <| · ≤ (framer.words ++ [word]).length) ||
        decide (framer.maximumWords ≤ (framer.words ++ [word]).length)) = true := by
    unfold Framing.Full framing
    cases framer.fixedWordCount with
    | none => simp
    | some count => simp
  unfold gatherWord Framing.gather
  by_cases hexcluded : framer.framing.isExcluded word = true
  · rw [if_pos hexcluded]
    exact (if_pos hexcluded).trans (closePacket_eq framer)
  · rw [if_neg hexcluded]
    refine (if_neg hexcluded).trans ?_
    by_cases hclose : framer.framing.isDelimiter word = true ∨ framer.framing.Full (framer.words ++ [word])
    · rw [if_pos hclose]
      rw [hfull] at hclose
      refine (if_pos ?_).trans ((closePacket_eq _).trans ?_)
      · rw [Bool.or_assoc, Bool.or_eq_true]
        exact hclose
      · rw [Framing.closed, if_neg]
        · rfl
        · exact List.append_ne_nil_of_right_ne_nil _ (List.cons_ne_nil _ _)
    · rw [if_neg hclose]
      rw [hfull] at hclose
      refine if_neg ?_
      rw [Bool.or_assoc, Bool.or_eq_true]
      exact hclose

theorem processWord_gathers (framer : PacketFramer) (word : Word) :
    framer.processWord word =
      if !framer.gateActive then ([], framer)
      else if framer.gapExceeded word then
        (framer.closePacket.1 ++ (framer.closePacket.2.gatherWord word).1, (framer.closePacket.2.gatherWord word).2)
      else framer.gatherWord word := by
  unfold processWord
  split
  · rfl
  · cases framer.gapExceeded word with
    | false =>
      simp only [Bool.false_eq_true, if_false, List.nil_append]
      rfl
    | true =>
      simp only [if_true]
      unfold gatherWord
      dsimp only
      split_ifs
      · rfl
      · rfl
      · rw [List.append_nil]

theorem processWord_eq (framer : PacketFramer) (word : Word) :
    framer.processWord word = ((framer.framing.addWord word).1.filterMap packetOf,
      { framer with words := (framer.framing.addWord word).2 }) := by
  rw [processWord_gathers, gateActive_eq, gapExceeded_eq, Framing.addWord]
  cases framer.framing.activeAt framer.framing.gateLevel with
  | false => rfl
  | true =>
    cases framer.framing.gapBefore word with
    | false => exact gatherWord_eq framer word
    | true =>
      show (framer.closePacket.1 ++ (framer.closePacket.2.gatherWord word).1,
        (framer.closePacket.2.gatherWord word).2) = _
      rw [closePacket_eq, gatherWord_eq, ← List.filterMap_append]
      rfl

inductive Merged : List Sample → List TimestampEvent → List Word → List FramerEvent → Prop
  | done : Merged [] [] [] []
  | gate {level : Sample} {gates : List Sample} {boundaries : List TimestampEvent} {words : List Word}
      {events : List FramerEvent} (boundary : ∀ event ∈ boundaries.head?, level.startTimeNs ≤ event.timestampNs)
      (word : ∀ word ∈ words.head?, level.startTimeNs ≤ word.timestampNs)
      (rest : Merged gates boundaries words events) :
    Merged (level :: gates) boundaries words (.gate level :: events)
  | boundary {event : TimestampEvent} {gates : List Sample} {boundaries : List TimestampEvent} {words : List Word}
      {events : List FramerEvent} (gate : ∀ level ∈ gates.head?, event.timestampNs < level.startTimeNs)
      (word : ∀ word ∈ words.head?, event.timestampNs ≤ word.timestampNs)
      (rest : Merged gates boundaries words events) :
    Merged gates (event :: boundaries) words (.boundary :: events)
  | word {word : Word} {gates : List Sample} {boundaries : List TimestampEvent} {words : List Word}
      {events : List FramerEvent} (gate : ∀ level ∈ gates.head?, word.timestampNs < level.startTimeNs)
      (boundary : ∀ event ∈ boundaries.head?, word.timestampNs < event.timestampNs)
      (rest : Merged gates boundaries words events) :
    Merged gates boundaries (word :: words) (.word word :: events)

section NextEvent

variable {gates : List Sample} {boundaries : List TimestampEvent} {words : List Word}

/-- The next event is the first of the lists that goes first, when the heads are theirs. -/
theorem nextEvent_cases (hgate : framer.gateHead = gates.head?) (hboundary : framer.boundaryHead = boundaries.head?)
    (hword : framer.wordHead = words.head?) :
    (framer.nextEvent = none ∧ gates = [] ∧ boundaries = [] ∧ words = []) ∨
      (∃ level rest, framer.nextEvent = some (.gate level) ∧ gates = level :: rest ∧
        (∀ event ∈ boundaries.head?, level.startTimeNs ≤ event.timestampNs) ∧
        ∀ word ∈ words.head?, level.startTimeNs ≤ word.timestampNs) ∨
      (∃ event rest, framer.nextEvent = some .boundary ∧ boundaries = event :: rest ∧
        (∀ level ∈ gates.head?, event.timestampNs < level.startTimeNs) ∧
        ∀ word ∈ words.head?, event.timestampNs ≤ word.timestampNs) ∨
      ∃ word rest, framer.nextEvent = some (.word word) ∧ words = word :: rest ∧
        (∀ level ∈ gates.head?, word.timestampNs < level.startTimeNs) ∧
        ∀ event ∈ boundaries.head?, word.timestampNs < event.timestampNs := by
  unfold nextEvent
  rw [hgate, hboundary, hword]
  cases gates with
  | nil =>
    cases boundaries with
    | nil => cases words <;> simp [earliest, List.zipIdx]
    | cons event boundaries =>
      cases words with
      | nil => simp [earliest, List.zipIdx]
      | cons word words =>
        by_cases hlt : word.timestampNs < event.timestampNs
        · simp [earliest, List.zipIdx, hlt]
        · simp [earliest, List.zipIdx, hlt, UInt64.not_lt.mp hlt]
  | cons level gates =>
    cases boundaries with
    | nil =>
      cases words with
      | nil => simp [earliest, List.zipIdx]
      | cons word words =>
        by_cases hlt : word.timestampNs < level.startTimeNs
        · simp [earliest, List.zipIdx, hlt]
        · simp [earliest, List.zipIdx, hlt, UInt64.not_lt.mp hlt]
    | cons event boundaries =>
      -- the item in front of the rest is compared with the earliest of the rest
      cases words with
      | nil =>
        by_cases hlt : event.timestampNs < level.startTimeNs
        · simp [earliest, List.zipIdx, hlt]
        · simp [earliest, List.zipIdx, hlt, UInt64.not_lt.mp hlt]
      | cons word words =>
        by_cases hword : word.timestampNs < event.timestampNs
        · by_cases hlt : word.timestampNs < level.startTimeNs
          · simp [earliest, List.zipIdx, hword, hlt]
          · have hle := UInt64.not_lt.mp hlt
            simp [earliest, List.zipIdx, hword, hlt, hle, UInt64.le_trans hle (UInt64.le_of_lt hword)]
        · have hboundary := UInt64.not_lt.mp hword
          by_cases hlt : event.timestampNs < level.startTimeNs
          · simp [earliest, List.zipIdx, hword, hlt, hboundary]
          · have hle := UInt64.not_lt.mp hlt
            simp [earliest, List.zipIdx, hword, hlt, hle, UInt64.le_trans hle hboundary]

end NextEvent

end PacketFramer

section Pending

variable {α : Type} {enabled eos : Bool} {first : α} {head : Option α} {input : StreamInput α} {rest : List α}

/-- The items that an input still has to deliver, the one taken from it first. -/
def InputPending (head : Option α) (eos : Bool) (input : StreamInput α) (rest : List α) : Prop :=
  ∃ inbox, input = some inbox ∧ inbox.Settled ∧ rest = head.toList ++ inbox.undelivered ∧ (eos = true → rest = [])

/-- Filling a head takes the next item, and notes the end of the input behind its last one. -/
theorem fillHead_pending (missing : String) (h : InputPending head eos input rest) :
    ∃ eos' input', fillHead missing head eos input = .ok (rest.head?, eos', input') ∧
      InputPending rest.head? eos' input' rest ∧ (rest = [] → eos' = true) := by
  obtain ⟨inbox, rfl, hsettled, hrest, heos⟩ := h
  cases head with
  | some item =>
    refine ⟨eos, some inbox, ?_, ⟨inbox, rfl, hsettled, ?_, heos⟩, ?_⟩
    · rw [hrest]
      rfl
    · rw [hrest]
      rfl
    · rintro rfl
      cases hrest
  | none =>
    cases eos with
    | true =>
      have hnil : rest = [] := heos rfl
      subst hnil
      exact ⟨true, some inbox, rfl, ⟨inbox, rfl, hsettled, hrest, heos⟩, fun _ => rfl⟩
    | false =>
      have hserved := run_served .recv awaited hsettled (fun item hcall => by cases hcall)
      rw [Option.toList_none, List.nil_append] at hrest
      subst hrest
      rw [ReceiverCall.run] at hserved
      unfold fillHead
      rcases hrecv : inbox.recv with ⟨result, next⟩
      rw [hrecv] at hserved
      cases result with
      | ok item =>
        obtain ⟨hnext, hall, -⟩ := hserved
        rw [hall]
        refine ⟨false, some next, ?_, ⟨next, rfl, hnext, rfl, by simp⟩, by simp⟩
        dsimp only
        rw [hrecv]
        rfl
      | error error =>
        cases error
        obtain ⟨hnext, hempty, hended⟩ := hserved
        rw [hempty]
        refine ⟨true, some next, ?_, ⟨next, rfl, hnext, ?_, fun _ => rfl⟩, fun _ => rfl⟩
        · dsimp only
          rw [hrecv]
          rfl
        · exact hended.symm

/-- An input that may be switched off, and then has no items. -/
def Feeds (enabled : Bool) (head : Option α) (eos : Bool) (input : StreamInput α) (rest : List α) : Prop :=
  if enabled then InputPending head eos input rest else head = none ∧ rest = []

theorem feeds_fill (missing : String) (h : Feeds enabled head eos input rest) :
    ∃ eos' input', (if enabled then fillHead missing head eos input else .ok (head, eos, input)) =
        .ok (rest.head?, eos', input') ∧
      Feeds enabled rest.head? eos' input' rest ∧ (enabled = true → rest = [] → eos' = true) := by
  cases enabled with
  | true =>
    obtain ⟨eos', input', hfill, hpending, hlast⟩ := fillHead_pending missing h
    exact ⟨eos', input', hfill, hpending, fun _ => hlast⟩
  | false =>
    obtain ⟨rfl, rfl⟩ := h
    exact ⟨eos, input, rfl, ⟨rfl, rfl⟩, by simp⟩

theorem Feeds.taken
    (h : Feeds enabled (some first) eos input (first :: rest)) : Feeds enabled none eos input rest := by
  cases enabled with
  | true =>
    obtain ⟨inbox, rfl, hsettled, hrest, heos⟩ := h
    refine ⟨inbox, rfl, hsettled, ?_, fun he => ?_⟩
    · exact (List.cons.inj hrest).2
    · cases heos he
  | false =>
    obtain ⟨hnone, -⟩ := h
    cases hnone

theorem Feeds.ended
    (h : Feeds enabled head eos input rest) (heos : (!enabled || eos) = true) : rest = [] := by
  cases enabled with
  | true =>
    obtain ⟨inbox, -, -, -, hended⟩ := h
    exact hended heos
  | false => exact h.2

end Pending

namespace PacketFramer

/-- What the inputs of a framer still have to deliver. -/
structure Waiting (framer : PacketFramer) (inputs : PacketFramerInputs) (gates : List Sample)
    (boundaries : List TimestampEvent) (words : List Word) : Prop where
  gate : Feeds framer.gatePolarity.isSome framer.gateHead framer.gateEos inputs.gate gates
  boundary : Feeds framer.boundaryEnabled framer.boundaryHead framer.boundaryEos inputs.boundary boundaries
  word : Feeds true framer.wordHead framer.wordEos inputs.words words
  unfinished : framer.finished = false

/-- The heads are filled, and the ends of the inputs noted. -/
structure Filled (framer : PacketFramer) (gates : List Sample) (boundaries : List TimestampEvent)
    (words : List Word) : Prop where
  gateHead : framer.gateHead = gates.head?
  boundaryHead : framer.boundaryHead = boundaries.head?
  wordHead : framer.wordHead = words.head?
  gateEos : framer.gatePolarity.isSome = true → gates = [] → framer.gateEos = true
  boundaryEos : framer.boundaryEnabled = true → boundaries = [] → framer.boundaryEos = true
  wordEos : words = [] → framer.wordEos = true

section Waiting

variable {framer : PacketFramer} {inputs : PacketFramerInputs} {gates : List Sample} {boundaries : List TimestampEvent} {words : List Word}

theorem fillHeads_filled (h : framer.Waiting inputs gates boundaries words) :
    ∃ filled inputs', framer.fillHeads inputs = (.ok (), filled, inputs') ∧
      filled.Waiting inputs' gates boundaries words ∧ filled.Filled gates boundaries words ∧
      filled.framing = framer.framing := by
  obtain ⟨wordEos, wordInput, hword, hwordFeeds, hwordLast⟩ := feeds_fill "Missing words input" h.word
  obtain ⟨boundaryEos, boundaryInput, hboundary, hboundaryFeeds, hboundaryLast⟩ :=
    feeds_fill "Missing boundary input" h.boundary
  obtain ⟨gateEos, gateInput, hgate, hgateFeeds, hgateLast⟩ := feeds_fill "Missing gate input" h.gate
  refine ⟨{ framer with
    gateHead := gates.head?, gateEos, boundaryHead := boundaries.head?, boundaryEos, wordHead := words.head?, wordEos },
    ⟨wordInput, boundaryInput, gateInput⟩, ?_, ⟨hgateFeeds, hboundaryFeeds, hwordFeeds, h.unfinished⟩,
    ⟨rfl, rfl, rfl, hgateLast, hboundaryLast, hwordLast rfl⟩, rfl⟩
  rw [if_pos rfl] at hword
  unfold fillHeads
  rw [hword]
  dsimp only
  rw [hboundary]
  dsimp only
  rw [hgate]

theorem allInputsFinished_of_empty (h : framer.Filled [] [] []) : framer.allInputsFinished = true := by
  have hboundary : (!framer.boundaryEnabled || framer.boundaryEos) = true := by
    cases henabled : framer.boundaryEnabled with
    | false => rfl
    | true => exact h.boundaryEos henabled rfl
  have hgate : (framer.gatePolarity.isNone || framer.gateEos) = true := by
    cases hpolarity : framer.gatePolarity with
    | none => rfl
    | some polarity => exact h.gateEos (by rw [hpolarity]; rfl) rfl
  unfold allInputsFinished
  rw [h.wordEos rfl, hboundary, hgate, h.wordHead, h.boundaryHead, h.gateHead]
  rfl

theorem Waiting.empty (h : framer.Waiting inputs gates boundaries words) (hf : framer.allInputsFinished = true) :
    gates = [] ∧ boundaries = [] ∧ words = [] := by
  simp only [allInputsFinished, Bool.and_eq_true] at hf
  obtain ⟨⟨⟨⟨⟨hword, hboundary⟩, hgate⟩, -⟩, -⟩, -⟩ := hf
  refine ⟨h.gate.ended ?_, h.boundary.ended hboundary, h.word.ended hword⟩
  cases hpolarity : framer.gatePolarity with
  | none => rfl
  | some polarity =>
    rw [hpolarity] at hgate
    exact hgate

theorem processNextEvent_waiting (h : framer.Waiting inputs gates boundaries words)
    (hf : framer.Filled gates boundaries words) :
    (framer.processNextEvent = ([], framer) ∧ gates = [] ∧ boundaries = [] ∧ words = []) ∨
      ∃ event framer' gates' boundaries' words', framer.processNextEvent =
          ((framer.framing.addEvent event).1.filterMap packetOf, framer') ∧
        framer'.framing = (framer.framing.addEvent event).2 ∧ framer'.Waiting inputs gates' boundaries' words' ∧
        gates'.length + boundaries'.length + words'.length + 1 = gates.length + boundaries.length + words.length ∧
        ∀ events, Merged gates' boundaries' words' events → Merged gates boundaries words (event :: events) := by
  unfold processNextEvent
  rcases nextEvent_cases hf.gateHead hf.boundaryHead hf.wordHead with
    ⟨hnext, hempty⟩ | ⟨level, rest, hnext, rfl, hboundary, hword⟩ | ⟨event, rest, hnext, rfl, hgate, hword⟩ |
      ⟨word, rest, hnext, rfl, hgate, hboundary⟩
  · rw [hnext]
    exact .inl ⟨rfl, hempty⟩
  · rw [hnext]
    have hfeeds := h.gate
    rw [hf.gateHead] at hfeeds
    by_cases hcloses : (framer.framing.activeAt framer.framing.gateLevel && !framer.framing.activeAt level.value) = true
    · have hevent : framer.framing.addEvent (.gate level) = (framer.framing.closed,
          Framing.withWords { framer.framing with gateLevel := level.value } []) := if_pos hcloses
      refine .inr ⟨.gate level, { framer with gateLevel := level.value, gateHead := none, words := [] }, rest,
        boundaries, words, ?_, ?_, ⟨hfeeds.taken, h.boundary, h.word, h.unfinished⟩, ?_,
        fun events => Merged.gate hboundary hword⟩
      · rw [hevent]
        refine (if_pos hcloses).trans ?_
        rw [closePacket_eq]
        rfl
      · rw [hevent]
        rfl
      · simp only [List.length_cons]
        omega
    · have hevent : framer.framing.addEvent (.gate level) = ([], { framer.framing with gateLevel := level.value }) :=
        if_neg hcloses
      refine .inr ⟨.gate level, { framer with gateLevel := level.value, gateHead := none }, rest, boundaries, words,
        ?_, ?_, ⟨hfeeds.taken, h.boundary, h.word, h.unfinished⟩, ?_, fun events => Merged.gate hboundary hword⟩
      · rw [hevent]
        exact if_neg hcloses
      · rw [hevent]
        rfl
      · simp only [List.length_cons]
        omega
  · rw [hnext]
    have hfeeds := h.boundary
    rw [hf.boundaryHead] at hfeeds
    dsimp only
    rw [closePacket_eq]
    refine .inr ⟨.boundary, _, gates, rest, words, rfl, rfl, ⟨h.gate, hfeeds.taken, h.word, h.unfinished⟩, ?_,
      fun events => Merged.boundary hgate hword⟩
    simp only [List.length_cons]
    omega
  · rw [hnext]
    have hfeeds := h.word
    rw [hf.wordHead] at hfeeds
    dsimp only
    rw [processWord_eq]
    refine .inr ⟨.word word, _, gates, boundaries, rest, rfl, rfl, ⟨h.gate, h.boundary, hfeeds.taken, h.unfinished⟩, ?_,
      fun events => Merged.word hgate hboundary⟩
    simp only [List.length_cons]
    omega

variable {inputs' : PacketFramerInputs} {packets : List ProtocolPacket}

variable {node : PacketFramer}

section

variable (hwork : framer.work inputs true = ⟨if packets.isEmpty && node.finished then .error .shutdown else .ok packets.length,
  node, inputs', if packets.isEmpty then [] else [.batch packets]⟩)
include hwork

theorem run_last {calls : Nat} (hnode : node.finished = true) (hcalls : 2 ≤ calls) :
    ∃ sent, run calls framer inputs = some sent ∧ streamItems sent = packets := by
  obtain ⟨calls, rfl⟩ := Nat.exists_eq_add_of_le' hcalls
  rw [run, hwork, hnode]
  cases packets with
  | nil => exact ⟨[], rfl, rfl⟩
  | cons first rest =>
    refine ⟨[.batch (first :: rest)], ?_, List.append_nil _⟩
    have hdone : run (calls + 1) node inputs' = some [] := by
      rw [run, work, if_pos hnode]
    simp [hdone]

theorem run_next {calls : Nat} {later : List (ChannelMessage ProtocolPacket)}
    (hnode : node.finished = false) (hlater : run calls node inputs' = some later) :
    ∃ sent, run (calls + 1) framer inputs = some sent ∧ streamItems sent = packets ++ streamItems later := by
  rw [run, hwork, hnode]
  cases packets with
  | nil => exact ⟨later, by simp [hlater], rfl⟩
  | cons first rest => exact ⟨.batch (first :: rest) :: later, by simp [hlater], rfl⟩

end

theorem work_of_filled (h : framer.finished = false) (hfill : framer.fillHeads inputs = (.ok (), node, inputs')) :
    framer.work inputs true = node.advance inputs' := by
  rw [work, h, hfill]
  rfl

theorem advance_last {next : PacketFramer} (hnext : framer.processNextEvent = (packets, next))
    (hfinished : next.allInputsFinished = true) :
    framer.advance inputs =
      let sent := packets ++ next.framing.closed.filterMap packetOf
      let node := { next with words := [], finished := true }
      ⟨if sent.isEmpty && node.finished then .error .shutdown else .ok sent.length, node, inputs,
        if sent.isEmpty then [] else [.batch sent]⟩ := by
  unfold advance
  rw [hnext]
  dsimp only
  rw [if_pos hfinished, closePacket_eq]

theorem advance_next {next : PacketFramer} (hnext : framer.processNextEvent = (packets, next))
    (hfinished : next.allInputsFinished = false) :
    framer.advance inputs = ⟨if packets.isEmpty && next.finished then .error .shutdown else .ok packets.length, next,
      inputs, if packets.isEmpty then [] else [.batch packets]⟩ := by
  unfold advance
  rw [hnext]
  dsimp only
  rw [hfinished]
  rfl

theorem run_frames {n : Nat} (h : framer.Waiting inputs gates boundaries words)
    (hn : gates.length + boundaries.length + words.length = n) :
    ∃ events, Merged gates boundaries words events ∧ ∀ calls, n + 2 ≤ calls → ∃ sent,
      run calls framer inputs = some sent ∧ streamItems sent = (framer.framing.frames events).filterMap packetOf := by
  induction n using Nat.strong_induction_on generalizing framer inputs gates boundaries words with
  | _ n ih =>
    obtain ⟨filled, inputs', hfill, hwaiting, hfilled, hframing⟩ := fillHeads_filled h
    have hwork := work_of_filled h.unfinished hfill
    rw [← hframing]
    rcases processNextEvent_waiting hwaiting hfilled with
      ⟨hnext, rfl, rfl, rfl⟩ | ⟨event, next, gates', boundaries', words', hnext, hstep, hwaiting', hcount, hmerged⟩
    · have hlast := hwork.trans (advance_last hnext (allInputsFinished_of_empty hfilled))
      exact ⟨[], .done, fun calls hcalls => run_last hlast rfl (by omega)⟩
    · cases hfinished : next.allInputsFinished with
      | true =>
        obtain ⟨rfl, rfl, rfl⟩ := hwaiting'.empty hfinished
        refine ⟨[event], hmerged [] .done, fun calls hcalls => ?_⟩
        rw [Framing.frames, Framing.frames, ← hstep, List.filterMap_append]
        exact run_last (hwork.trans (advance_last hnext hfinished)) rfl (by omega)
      | false =>
        obtain ⟨events, hrest, hruns⟩ := ih _ (by omega) hwaiting' rfl
        refine ⟨event :: events, hmerged events hrest, fun calls hcalls => ?_⟩
        obtain ⟨calls, rfl⟩ := Nat.exists_eq_add_of_le' (show 1 ≤ calls by omega)
        obtain ⟨later, hlater, hitems⟩ := hruns calls (by omega)
        obtain ⟨sent, hsent, hall⟩ := run_next (hwork.trans (advance_next hnext hfinished)) hwaiting'.unfinished hlater
        refine ⟨sent, hsent, ?_⟩
        rw [hall, hitems, hstep, Framing.frames, List.filterMap_append]

end Waiting

/-- What the inputs of a framer deliver from the first call on. An input that the framer does not read counts as
empty. -/
structure Reads (framer : PacketFramer) (inputs : PacketFramerInputs) (gates : List Sample)
    (boundaries : List TimestampEvent) (words : List Word) : Prop where
  words : ∃ messages, inputs.words = some (.new messages) ∧ streamItems messages = words
  boundaries : if framer.boundaryEnabled then
    ∃ messages, inputs.boundary = some (.new messages) ∧ streamItems messages = boundaries else boundaries = []
  gates : if framer.gatePolarity.isSome then
    ∃ messages, inputs.gate = some (.new messages) ∧ streamItems messages = gates else gates = []

theorem Configured.settings {framer : PacketFramer} (h : Configured framer) :
    ∃ fixedWordCount delimiter maximumGapNs maximumWords boundaryEnabled gatePolarity, framer = { PacketFramer.new with
        fixedWordCount, delimiter, maximumGapNs, maximumWords, boundaryEnabled, gatePolarity } ∧
      (∀ count ∈ fixedWordCount, 0 < count) ∧ 0 < maximumWords := by
  induction h with
  | new => exact ⟨_, _, _, _, _, _, rfl, by simp, by simp⟩
  | fixedWordCount h count ih =>
    obtain ⟨_, _, _, _, _, _, rfl, hcount, hmaximum⟩ := ih
    refine ⟨_, _, _, _, _, _, rfl, fun given hgiven => ?_, hmaximum⟩
    exact of_decide_eq_true (Option.filter_eq_some_iff.mp hgiven).2
  | delimiter h value included ih =>
    obtain ⟨_, _, _, _, _, _, rfl, hcount, hmaximum⟩ := ih
    exact ⟨_, _, _, _, _, _, rfl, hcount, hmaximum⟩
  | maximumGapNs h gap ih =>
    obtain ⟨_, _, _, _, _, _, rfl, hcount, hmaximum⟩ := ih
    exact ⟨_, _, _, _, _, _, rfl, hcount, hmaximum⟩
  | maximumWords h words ih =>
    obtain ⟨_, _, _, _, _, _, rfl, hcount, hmaximum⟩ := ih
    exact ⟨_, _, _, _, _, _, rfl, hcount, Nat.lt_of_lt_of_le Nat.zero_lt_one (Nat.le_max_right words 1)⟩
  | boundaryInput h enabled ih =>
    obtain ⟨_, _, _, _, _, _, rfl, hcount, hmaximum⟩ := ih
    exact ⟨_, _, _, _, _, _, rfl, hcount, hmaximum⟩
  | gateInput h polarity ih =>
    obtain ⟨_, _, _, _, _, _, rfl, hcount, hmaximum⟩ := ih
    exact ⟨_, _, _, _, _, _, rfl, hcount, hmaximum⟩

theorem inputPending_new {α : Type} {input : StreamInput α} {rest : List α}
    (h : ∃ messages, input = some (.new messages) ∧ streamItems messages = rest) : InputPending none false input rest := by
  obtain ⟨messages, rfl, rfl⟩ := h
  exact ⟨_, rfl, settled_of_eq rfl, rfl, fun heos => by cases heos⟩

theorem feeds_new {α : Type} {enabled : Bool} {input : StreamInput α} {rest : List α}
    (h : if enabled then ∃ messages, input = some (.new messages) ∧ streamItems messages = rest else rest = []) :
    Feeds enabled none false input rest := by
  cases enabled with
  | true => exact inputPending_new h
  | false => exact ⟨rfl, h⟩

theorem Configured.waiting {framer : PacketFramer} {inputs : PacketFramerInputs} {gates : List Sample}
    {boundaries : List TimestampEvent} {words : List Word} (h : Configured framer)
    (reads : framer.Reads inputs gates boundaries words) : framer.Waiting inputs gates boundaries words := by
  obtain ⟨_, _, _, _, _, _, rfl, -, -⟩ := h.settings
  exact ⟨feeds_new reads.gates, feeds_new reads.boundaries, inputPending_new reads.words, rfl⟩

end PacketFramer

end LogicConduit
