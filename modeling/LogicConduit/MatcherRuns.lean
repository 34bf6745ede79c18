import LogicConduit.MatcherConfig
import LogicConduit.NodeSends
import LogicConduit.PacketFraming

namespace LogicConduit

inductive MatcherAction
  | schedule (config : NodeConfig) (boundaryNs : UInt64)
  | work
  deriving DecidableEq

/-- A rearm that was applied, or a word that was judged, with the settings in force and whether it was emitted as a
match. -/
inductive MatcherEntry
  | rearmed
  | judged (word : Word) (settings : MatcherSettings) (emitted : Bool)
  deriving DecidableEq

/-- A matcher on its inputs, what it has accepted of its scheduler, what it has done, the last of it first, and what
it has sent on its first two outputs. -/
structure MatcherRun where
  matcher : WordMatcher
  inputs : WordMatcherInputs
  accepted : List (UInt64 × NodeConfig)
  past : List MatcherEntry
  events : List TimestampEvent
  pulses : List Sample

namespace WordMatcher

/-- What a call does: it applies a rearm, judges a word or nothing. -/
def entries (matcher : WordMatcher) (inputs : WordMatcherInputs) (outputs : WordMatcherOutputs) : List MatcherEntry :=
  match matcher.fillHeads inputs with
  | (.error _, _, _) => []
  | (.ok (), filled, _) =>
    if filled.wordHead.isNone && filled.wordEos then []
    else if filled.rearmPrecedesWord then [.rearmed]
    else
      match filled.wordHead with
      | none => []
      | some word =>
        [.judged word (filled.applyScheduledSettings word.timestampNs).settings
          ((matcher.work inputs outputs).result.toOption == some 1)]

end WordMatcher

namespace MatcherRun

def step (outputs : WordMatcherOutputs) (run : MatcherRun) : MatcherAction → MatcherRun
  | .schedule config boundaryNs =>
    match run.matcher.scheduleConfig config boundaryNs with
    | (.applied, matcher) => { run with matcher, accepted := run.accepted ++ [(boundaryNs, config)] }
    | (.needsRestart, matcher) => { run with matcher }
  | .work =>
    let call := run.matcher.work run.inputs outputs
    { run with
      matcher := call.node
      inputs := call.inputs
      past := run.matcher.entries run.inputs outputs ++ run.past
      events := run.events ++ streamItems call.sent.event
      pulses := run.pulses ++ streamItems call.sent.pulse }

def after (outputs : WordMatcherOutputs) (run : MatcherRun) (actions : List MatcherAction) : MatcherRun :=
  actions.foldl (step outputs) run

def new (matcher : WordMatcher) (words : List (ChannelMessage Word)) (rearms : List (ChannelMessage TimestampEvent)) :
    MatcherRun :=
  ⟨matcher, ⟨some (Inbox.new words), some (Inbox.new rearms)⟩, [], [], [], []⟩

/-- A configuration is accepted behind those accepted before it, and before a word of its boundary or later has been
judged. -/
def InTime (run : MatcherRun) : MatcherAction → Prop
  | .schedule config boundaryNs => (run.matcher.scheduleConfig config boundaryNs).1 = .applied →
      (∀ earlier ∈ run.accepted, earlier.1 ≤ boundaryNs) ∧
        ∀ word settings emitted, .judged word settings emitted ∈ run.past → word.timestampNs < boundaryNs
  | .work => True

def AllInTime (outputs : WordMatcherOutputs) : MatcherRun → List MatcherAction → Prop
  | _, [] => True
  | run, action :: actions => run.InTime action ∧ AllInTime outputs (run.step outputs action) actions

end MatcherRun

/-- The settings of a time: those that the matcher was built with, changed by every configuration up to the time. -/
def settingsAt (initial : MatcherSettings) (accepted : List (UInt64 × NodeConfig)) (timestampNs : UInt64) :
    MatcherSettings :=
  (accepted.filter fun change => change.1 ≤ timestampNs).foldl (fun settings change => settings.reconfigured change.2)
    initial

def MatcherSettings.asMatcher (settings : MatcherSettings) : WordMatcher := { WordMatcher.new 0 0 with settings }

def MatcherSettings.accepts (settings : MatcherSettings) (word : Word) : Bool :=
  settings.asMatcher.predicateMatches word.value

def MatcherSettings.timeOf (settings : MatcherSettings) (word : Word) : UInt64 := settings.asMatcher.matchTime word

def judgedWords : List MatcherEntry → List Word
  | [] => []
  | .rearmed :: past => judgedWords past
  | .judged word _ _ :: past => word :: judgedWords past

def matchesOf : List MatcherEntry → List (UInt64 × UInt64)
  | [] => []
  | .rearmed :: past | .judged _ _ false :: past => matchesOf past
  | .judged word settings true :: past => (settings.timeOf word, settings.holdoffNs) :: matchesOf past

def allowedFrom (past : List MatcherEntry) : UInt64 :=
  (matchesOf past).head?.elim 0 fun last => saturatingAddU64 last.1 last.2

def rearmedSince : List MatcherEntry → Bool
  | [] | .rearmed :: _ => true
  | .judged _ _ true :: _ => false
  | .judged _ _ false :: past => rearmedSince past

/-- Whether a word is an eligible match: its value is accepted, the hold-off of the last match is past, and a
manual matcher is armed. -/
def eligibleAfter (manualRearm : Bool) (past : List MatcherEntry) (word : Word) (settings : MatcherSettings) : Bool :=
  settings.accepts word &&
    (decide (allowedFrom past ≤ settings.timeOf word) && (!manualRearm || rearmedSince past))

def eligibleCount (manualRearm : Bool) : List MatcherEntry → Nat
  | [] | .rearmed :: _ | .judged _ _ true :: _ => 0
  | .judged word settings false :: past =>
    eligibleCount manualRearm past + if eligibleAfter manualRearm past word settings then 1 else 0

def sinceReset : List MatcherEntry → List MatcherEntry
  | [] | .rearmed :: _ | .judged _ _ true :: _ => []
  | .judged word settings false :: past => .judged word settings false :: sinceReset past

def emittedAfter (manualRearm : Bool) (past : List MatcherEntry) (word : Word) (settings : MatcherSettings) : Bool :=
  eligibleAfter manualRearm past word settings &&
    decide (settings.matchCount.toNat ≤ eligibleCount manualRearm past + 1)

namespace WordMatcher

variable (matcher : WordMatcher) (inputs : WordMatcherInputs) (outputs : WordMatcherOutputs)

def settingsFor (timestampNs : UInt64) : MatcherSettings :=
  (matcher.scheduled.takeWhile (·.1 ≤ timestampNs)).foldl
    (fun settings change => { change.2 settings with matchCount := max (change.2 settings).matchCount 1 }) matcher.settings

theorem applyScheduledSettings_eq (timestampNs : UInt64) :
    matcher.applyScheduledSettings timestampNs = { matcher with
      settings := matcher.settingsFor timestampNs
      scheduled := matcher.scheduled.dropWhile (·.1 ≤ timestampNs) } := by
  have hfold : ∀ (due : List (UInt64 × (MatcherSettings → MatcherSettings))) (matcher : WordMatcher),
      due.foldl (fun matcher change => matcher.applySettings (change.2 matcher.settings)) matcher =
        { matcher with settings := due.foldl (fun settings change =>
            { change.2 settings with matchCount := max (change.2 settings).matchCount 1 }) matcher.settings } := by
    intro due
    induction due with
    | nil => exact fun _ => rfl
    | cons change due ih => exact fun matcher => ih (matcher.applySettings (change.2 matcher.settings))
  have hdrop : matcher.scheduled.drop (matcher.scheduled.takeWhile (·.1 ≤ timestampNs)).length =
      matcher.scheduled.dropWhile (·.1 ≤ timestampNs) := by
    conv_lhs =>
      arg 2
      rw [← List.takeWhile_append_dropWhile (p := (·.1 ≤ timestampNs)) (l := matcher.scheduled)]
    exact List.drop_left
  rw [applyScheduledSettings]
  rw [hfold, hdrop]
  rfl

def fires (word : Word) : Bool :=
  matcher.predicateMatches word.value && matcher.eligible (matcher.matchTime word) && matcher.completes

theorem matchWord_cases (initial : List (ChannelMessage Sample)) (word : Word) :
    (matcher.fires word = true ∧
        matcher.matchWord inputs outputs initial word = matcher.fire inputs outputs initial word (matcher.matchTime word)) ∨
      (matcher.fires word = false ∧ matcher.matchWord inputs outputs initial word = ⟨.ok 0, { matcher with
          eligibleMatches := if matcher.predicateMatches word.value && matcher.eligible (matcher.matchTime word) then
            saturatingAddU64 matcher.eligibleMatches 1 else matcher.eligibleMatches }, inputs, [], initial, []⟩) := by
  cases hmatch : matcher.predicateMatches word.value with
  | false => simp [matchWord, fires, hmatch]
  | true =>
    cases heligible : matcher.eligible (matcher.matchTime word) with
    | false => simp [matchWord, fires, hmatch, heligible]
    | true =>
      cases hcompletes : matcher.completes with
      | false => simp [matchWord, fires, hmatch, heligible, hcompletes]
      | true => simp [matchWord, fires, hmatch, heligible, hcompletes]

theorem matchWord_emits (initial : List (ChannelMessage Sample)) (word : Word) :
    ((matcher.matchWord inputs outputs initial word).result.toOption == some 1) = matcher.fires word := by
  rcases matcher.matchWord_cases inputs outputs initial word with ⟨hfires, hcall⟩ | ⟨hfires, hcall⟩
  · rw [hcall, hfires]
    rfl
  · rw [hcall, hfires]
    rfl

def firstLevel : List (ChannelMessage Sample) :=
  if matcher.started then [] else if outputs.pulse then [.sample ⟨false, 0⟩] else []

theorem start_firstLevel : (matcher.start outputs).2 = matcher.firstLevel outputs := by
  rw [start, firstLevel]
  split <;> rfl

variable {matcher inputs} {words : List Word} {rearms : List TimestampEvent}

structure Waits (matcher : WordMatcher) (inputs : WordMatcherInputs) (words : List Word) (rearms : List TimestampEvent) :
    Prop where
  word : InputPending matcher.wordHead matcher.wordEos inputs.words words
  rearm : Feeds matcher.manualRearm matcher.rearmHead matcher.rearmEos inputs.rearm rearms

theorem fillHeads_waits (h : matcher.Waits inputs words rearms) :
    ∃ wordEos rearmEos inputs', matcher.fillHeads inputs = (.ok (), { matcher with
        wordHead := words.head?, wordEos, rearmHead := rearms.head?, rearmEos }, inputs') ∧
      InputPending words.head? wordEos inputs'.words words ∧
      Feeds matcher.manualRearm rearms.head? rearmEos inputs'.rearm rearms ∧ (words = [] → wordEos = true) := by
  obtain ⟨wordEos, wordInput, hword, hwords, hlast⟩ := fillHead_pending "Missing words input" h.word
  obtain ⟨rearmEos, rearmInput, hrearm, hrearms, -⟩ := feeds_fill "Missing rearm input" h.rearm
  refine ⟨wordEos, rearmEos, ⟨wordInput, rearmInput⟩, ?_, hwords, hrearms, hlast⟩
  rw [fillHeads, hword]
  dsimp only
  split
  next hmanual =>
    rw [if_pos hmanual] at hrearm
    rw [hrearm]
  next hmanual =>
    rw [if_neg hmanual] at hrearm
    obtain ⟨hhead, heos⟩ := Prod.mk.inj (Except.ok.inj hrearm)
    obtain ⟨heos, hinput⟩ := Prod.mk.inj heos
    rw [← hhead, ← heos, ← hinput]

def judging (matcher : WordMatcher) (word : Word) : WordMatcher := { matcher with
  settings := matcher.settingsFor word.timestampNs
  scheduled := matcher.scheduled.dropWhile (·.1 ≤ word.timestampNs)
  started := true
  wordHead := none }

/-- What one call does: nothing at the end of the words, or it applies a rearm, or it judges a word. -/
theorem work_cases (h : matcher.Waits inputs words rearms) :
    (words = [] ∧ matcher.entries inputs outputs = [] ∧ ∃ wordEos rearmEos rearmHead,
      (matcher.work inputs outputs).node = { matcher with wordHead := none, wordEos, rearmHead, rearmEos } ∧
      (matcher.work inputs outputs).sent = ⟨[], [], []⟩ ∧
      (matcher.work inputs outputs).node.Waits (matcher.work inputs outputs).inputs [] rearms) ∨
    (∃ first rest, rearms = first :: rest ∧ matcher.manualRearm = true ∧ matcher.entries inputs outputs = [.rearmed] ∧
      ∃ wordHead wordEos rearmEos, (matcher.work inputs outputs).node = { matcher with
          wordHead, wordEos, rearmHead := none, rearmEos, armed := true, eligibleMatches := 0 } ∧
      (matcher.work inputs outputs).sent = ⟨[], [], []⟩ ∧
      (matcher.work inputs outputs).node.Waits (matcher.work inputs outputs).inputs words rest) ∨
    ∃ word rest current inputs', words = word :: rest ∧
      (∃ wordEos rearmHead rearmEos, current = { matcher.judging word with wordEos, rearmHead, rearmEos }) ∧
      matcher.entries inputs outputs = [.judged word current.settings (current.fires word)] ∧
      matcher.work inputs outputs = current.matchWord inputs' outputs (matcher.firstLevel outputs) word ∧
      current.Waits inputs' rest rearms := by
  obtain ⟨wordEos, rearmEos, inputs', hfill, hwords, hrearms, hlast⟩ := fillHeads_waits h
  obtain ⟨filled, hfilled⟩ : ∃ filled : WordMatcher, filled = { matcher with
    wordHead := words.head?, wordEos, rearmHead := rearms.head?, rearmEos } := ⟨_, rfl⟩
  rw [← hfilled] at hfill
  cases words with
  | nil =>
    obtain rfl := hlast rfl
    rw [entries, work, hfill, hfilled]
    exact Or.inl ⟨rfl, rfl, true, rearmEos, rearms.head?, rfl, rfl, hwords, hrearms⟩
  | cons word rest =>
    have hhead : filled.wordHead = some word := by
      rw [hfilled]
      rfl
    right
    cases hprecedes : filled.rearmPrecedesWord with
    | true =>
      left
      have hboth := hprecedes
      rw [rearmPrecedesWord, hfilled] at hboth
      obtain ⟨hmanual, hany⟩ := Bool.and_eq_true_iff.mp hboth
      cases rearms with
      | nil => cases hany
      | cons first others =>
        have hwork : matcher.work inputs outputs =
            ⟨.ok 0, { filled with rearmHead := none, armed := true, eligibleMatches := 0 }, inputs', [], [], []⟩ := by
          rw [work, hfill]
          dsimp only
          rw [advance, hhead, hprecedes]
          rfl
        refine ⟨first, others, rfl, hmanual, ?_, some word, wordEos, rearmEos, ?_, ?_, ?_⟩
        · rw [entries, hfill]
          dsimp only
          rw [hhead, hprecedes]
          rfl
        · rw [hwork, hfilled]
          rfl
        · rw [hwork]
        · rw [hwork, hfilled]
          exact ⟨hwords, hrearms.taken⟩
    | false =>
      right
      have hwork : matcher.work inputs outputs = (filled.applyScheduledSettings word.timestampNs).begun.matchWord inputs'
          outputs (filled.start outputs).2 word := by
        rw [work, hfill]
        exact filled.advance_word inputs' outputs hhead hprecedes
      have hcurrent : (filled.applyScheduledSettings word.timestampNs).begun =
          { matcher.judging word with wordEos, rearmHead := rearms.head?, rearmEos } := by
        rw [applyScheduledSettings_eq, hfilled]
        rfl
      rw [hcurrent] at hwork
      refine ⟨word, rest, _, inputs', rfl, ⟨wordEos, rearms.head?, rearmEos, rfl⟩, ?_, ?_, ?_, hrearms⟩
      · rw [entries, hfill]
        dsimp only
        rw [hhead, hprecedes, hwork, matchWord_emits]
        show [MatcherEntry.judged word (filled.applyScheduledSettings word.timestampNs).settings _] = _
        rw [applyScheduledSettings_eq, hfilled]
        rfl
      · rw [hwork, start_firstLevel, hfilled]
        rfl
      · exact @Feeds.taken Word true wordEos word inputs'.words rest hwords

end WordMatcher

end LogicConduit
