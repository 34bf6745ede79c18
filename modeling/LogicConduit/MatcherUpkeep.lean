import Mathlib.Data.List.Chain
import LogicConduit.MatcherJudgement

namespace LogicConduit

def queued (change : UInt64 × NodeConfig) : UInt64 × (MatcherSettings → MatcherSettings) :=
  (change.1, fun settings => settings.reconfigured change.2)

def reconfigureAll (settings : MatcherSettings) (changes : List (UInt64 × NodeConfig)) : MatcherSettings :=
  changes.foldl (fun settings change => settings.reconfigured change.2) settings

theorem reconfigureAll_matchCount (changes : List (UInt64 × NodeConfig)) {settings : MatcherSettings}
    (h : 0 < settings.matchCount) : 0 < (reconfigureAll settings changes).matchCount := by
  induction changes generalizing settings with
  | nil => exact h
  | cons change changes ih => exact ih (MatcherSettings.reconfigured_matchCount change.2 h)

theorem max_one {count : UInt64} (h : 0 < count) : max count 1 = count := by
  show (if count ≤ 1 then 1 else count) = count
  split
  next hle =>
    refine UInt64.le_antisymm ?_ hle
    rw [UInt64.le_iff_toNat_le]
    exact UInt64.lt_iff_toNat_lt.mp h
  next => rfl

theorem settingsFor_queued {matcher : WordMatcher} {waiting : List (UInt64 × NodeConfig)} (timestampNs : UInt64)
    (hqueue : matcher.scheduled = waiting.map queued) (hcount : 0 < matcher.settings.matchCount) :
    matcher.settingsFor timestampNs =
      reconfigureAll matcher.settings (waiting.takeWhile fun change => change.1 ≤ timestampNs) := by
  have hfold : ∀ (due : List (UInt64 × NodeConfig)) (settings : MatcherSettings), 0 < settings.matchCount →
      (due.map queued).foldl (fun settings change =>
        { change.2 settings with matchCount := max (change.2 settings).matchCount 1 }) settings =
          reconfigureAll settings due := by
    intro due
    induction due with
    | nil => exact fun _ _ => rfl
    | cons change due ih =>
      intro settings hsettings
      have hnext := MatcherSettings.reconfigured_matchCount change.2 hsettings
      rw [List.map_cons, List.foldl_cons]
      dsimp only [queued]
      rw [max_one hnext]
      exact ih (settings.reconfigured change.2) hnext
  rw [WordMatcher.settingsFor, hqueue, List.takeWhile_map]
  exact hfold _ _ hcount

def BoundariesOrdered (accepted : List (UInt64 × NodeConfig)) : Prop := accepted.Pairwise fun a b => a.1 ≤ b.1

theorem filter_due {accepted : List (UInt64 × NodeConfig)} (timestampNs : UInt64) (h : BoundariesOrdered accepted) :
    accepted.filter (fun change => change.1 ≤ timestampNs) = accepted.takeWhile fun change => change.1 ≤ timestampNs := by
  induction accepted with
  | nil => rfl
  | cons change accepted ih =>
    obtain ⟨hchange, haccepted⟩ := List.pairwise_cons.mp h
    by_cases hdue : change.1 ≤ timestampNs
    · rw [List.filter_cons_of_pos (by simpa using hdue), List.takeWhile_cons_of_pos (by simpa using hdue), ih haccepted]
    · rw [List.filter_cons_of_neg (by simpa using hdue), List.takeWhile_cons_of_neg (by simpa using hdue)]
      refine List.filter_eq_nil_iff.mpr fun other hother hle => hdue ?_
      exact UInt64.le_trans (hchange other hother) (of_decide_eq_true hle)

/-- The configurations accepted are those applied and those that wait; none was applied before a word of its
boundary or later was judged. -/
structure InForce (initial : MatcherSettings) (matcher : WordMatcher) (accepted : List (UInt64 × NodeConfig))
    (past : List MatcherEntry) : Prop where
  positive : 0 < initial.matchCount
  sorted : BoundariesOrdered accepted
  queue : ∃ applied waiting, accepted = applied ++ waiting ∧ matcher.settings = reconfigureAll initial applied ∧
    matcher.scheduled = waiting.map queued ∧ ∀ change ∈ applied, ∃ word ∈ judgedWords past, change.1 ≤ word.timestampNs
  judged : ∀ word settings emitted, .judged word settings emitted ∈ past →
    settings = settingsAt initial accepted word.timestampNs

namespace InForce

variable {initial : MatcherSettings} {matcher : WordMatcher} {accepted : List (UInt64 × NodeConfig)}
  {past : List MatcherEntry}

section

variable (h : InForce initial matcher accepted past)
include h

theorem accept {config : NodeConfig} {boundaryNs : UInt64}
    (hlast : ∀ earlier ∈ accepted, earlier.1 ≤ boundaryNs)
    (hbefore : ∀ word settings emitted, .judged word settings emitted ∈ past → word.timestampNs < boundaryNs)
    {next : WordMatcher} (hsettings : next.settings = matcher.settings)
    (hscheduled : next.scheduled = matcher.scheduled ++ [queued (boundaryNs, config)]) :
    InForce initial next (accepted ++ [(boundaryNs, config)]) past := by
  obtain ⟨applied, waiting, haccepted, happlied, hwaiting, hreached⟩ := h.queue
  refine ⟨h.positive, ?_, ⟨applied, waiting ++ [(boundaryNs, config)], ?_, hsettings.trans happlied, ?_, hreached⟩, ?_⟩
  · refine List.pairwise_append.mpr ⟨h.sorted, List.pairwise_singleton _ _, fun earlier hearlier last hlast' => ?_⟩
    rw [List.mem_singleton.mp hlast']
    exact hlast earlier hearlier
  · rw [haccepted, List.append_assoc]
  · rw [hscheduled, hwaiting, List.map_append]
    rfl
  · intro word settings emitted hword
    have hlate : ¬boundaryNs ≤ word.timestampNs := UInt64.not_le.mpr (hbefore word settings emitted hword)
    rw [h.judged word settings emitted hword, settingsAt, settingsAt, List.filter_append,
      List.filter_cons_of_neg (by simpa using hlate), List.filter_nil, List.append_nil]

theorem keep {next : WordMatcher}
    (hsettings : next.settings = matcher.settings) (hscheduled : next.scheduled = matcher.scheduled) :
    InForce initial next accepted past := by
  obtain ⟨applied, waiting, haccepted, happlied, hwaiting, hreached⟩ := h.queue
  exact ⟨h.positive, h.sorted, ⟨applied, waiting, haccepted, hsettings.trans happlied, hscheduled.trans hwaiting, hreached⟩,
    h.judged⟩

theorem rearm : InForce initial matcher accepted (.rearmed :: past) := by
  refine ⟨h.positive, h.sorted, h.queue, fun word settings emitted hword => ?_⟩
  rcases List.mem_cons.mp hword with hfirst | hrest
  · cases hfirst
  · exact h.judged word settings emitted hrest

theorem judge {word : Word} (emitted : Bool)
    (hlast : ∀ earlier ∈ judgedWords past, earlier.timestampNs ≤ word.timestampNs) :
    matcher.settingsFor word.timestampNs = settingsAt initial accepted word.timestampNs ∧
      InForce initial (matcher.judging word) accepted
        (.judged word (matcher.settingsFor word.timestampNs) emitted :: past) := by
  obtain ⟨applied, waiting, haccepted, happlied, hwaiting, hreached⟩ := h.queue
  have hcount : 0 < matcher.settings.matchCount := by
    rw [happlied]
    exact reconfigureAll_matchCount applied h.positive
  have hdue := settingsFor_queued word.timestampNs hwaiting hcount
  have hsettings : matcher.settingsFor word.timestampNs = settingsAt initial accepted word.timestampNs := by
    have hall : applied.filter (fun change => change.1 ≤ word.timestampNs) = applied := by
      refine List.filter_eq_self.mpr fun change hchange => ?_
      obtain ⟨earlier, hearlier, hle⟩ := hreached change hchange
      exact decide_eq_true (UInt64.le_trans hle (hlast earlier hearlier))
    have hsorted : BoundariesOrdered waiting := (List.pairwise_append.mp (haccepted ▸ h.sorted)).2.1
    rw [hdue, happlied, settingsAt, haccepted, List.filter_append, hall, filter_due _ hsorted, List.foldl_append]
    rfl
  refine ⟨hsettings, h.positive, h.sorted, ⟨applied ++ waiting.takeWhile fun change => change.1 ≤ word.timestampNs,
    waiting.dropWhile fun change => change.1 ≤ word.timestampNs, ?_, ?_, ?_, ?_⟩, ?_⟩
  · rw [haccepted, List.append_assoc, List.takeWhile_append_dropWhile]
  · show matcher.settingsFor word.timestampNs = _
    rw [hdue, happlied, reconfigureAll, reconfigureAll, reconfigureAll, List.foldl_append]
  · show matcher.scheduled.dropWhile (·.1 ≤ word.timestampNs) = _
    rw [hwaiting, List.dropWhile_map]
    rfl
  · intro change hchange
    rcases List.mem_append.mp hchange with hchange | hchange
    · obtain ⟨earlier, hearlier, hle⟩ := hreached change hchange
      exact ⟨earlier, List.mem_cons_of_mem word hearlier, hle⟩
    · have hdue := List.mem_takeWhile_imp (p := fun change : UInt64 × NodeConfig => change.1 ≤ word.timestampNs) hchange
      exact ⟨word, List.mem_cons_self, of_decide_eq_true hdue⟩
  · intro other settings emitted hother
    rcases List.mem_cons.mp hother with hfirst | hrest
    · cases hfirst
      exact hsettings
    · exact h.judged other settings emitted hrest

end

end InForce

def LevelLane (lane : List Sample) : Prop :=
  lane.IsChain fun first second => first.startTimeNs ≤ second.startTimeNs ∧ first.value ≠ second.value

/-- What has been sent on the pulse output: nothing before the first word, and then levels up to the end of the last
pulse. -/
structure Pulsing (connected : Bool) (matcher : WordMatcher) (pulses : List Sample) : Prop where
  silent : connected = false → pulses = []
  fresh : matcher.started = false → pulses = [] ∧ matcher.lastPulseEnd = 0
  lane : LevelLane pulses
  last : connected = true → matcher.started = true → pulses.getLast? = some ⟨false, matcher.lastPulseEnd⟩

theorem LevelLane.pulse {lane : List Sample} {endNs ts width : UInt64} (h : LevelLane lane)
    (hlast : lane.getLast? = some ⟨false, endNs⟩) (hafter : endNs ≤ ts) (hfits : ts.toNat + width.toNat < 2 ^ 64) :
    LevelLane (lane ++ [⟨true, ts⟩, ⟨false, ts + width⟩]) := by
  have hrise : ts ≤ ts + width := by
    rw [UInt64.le_iff_toNat_le, UInt64.toNat_add, Nat.mod_eq_of_lt hfits]
    exact Nat.le_add_right _ _
  refine List.isChain_append.mpr ⟨h, List.isChain_pair.mpr ⟨hrise, Bool.noConfusion⟩, ?_⟩
  intro last hmem first hfirst
  rw [hlast] at hmem
  cases hmem
  cases hfirst
  exact ⟨hafter, Bool.noConfusion⟩

namespace Pulsing

variable {matcher : WordMatcher} {pulses : List Sample} {outputs : WordMatcherOutputs}

theorem started (h : Pulsing outputs.pulse matcher pulses) :
    LevelLane (pulses ++ streamItems (matcher.firstLevel outputs)) ∧
      (outputs.pulse = true →
        (pulses ++ streamItems (matcher.firstLevel outputs)).getLast? = some ⟨false, matcher.lastPulseEnd⟩) ∧
      (outputs.pulse = false → pulses ++ streamItems (matcher.firstLevel outputs) = []) := by
  rw [WordMatcher.firstLevel]
  cases hstarted : matcher.started with
  | true =>
    rw [if_pos rfl, streamItems, List.append_nil]
    exact ⟨h.lane, fun hconnected => h.last hconnected hstarted, h.silent⟩
  | false =>
    obtain ⟨rfl, hend⟩ := h.fresh hstarted
    rw [if_neg (by simp), hend]
    cases outputs.pulse with
    | true => exact ⟨List.isChain_singleton _, fun _ => rfl, fun hfalse => Bool.noConfusion hfalse⟩
    | false => exact ⟨List.isChain_nil, fun hfalse => Bool.noConfusion hfalse, fun _ => rfl⟩

theorem firstLevel_append (rest : List (ChannelMessage Sample)) :
    streamItems (matcher.firstLevel outputs ++ rest) = streamItems (matcher.firstLevel outputs) ++ streamItems rest := by
  rw [WordMatcher.firstLevel]
  split
  · rfl
  · split
    · rfl
    · rfl

theorem judge (h : Pulsing outputs.pulse matcher pulses) {current : WordMatcher} (inputs : WordMatcherInputs) (word : Word)
    (hend : current.lastPulseEnd = matcher.lastPulseEnd) (hstarted : current.started = true)
    (hfits : current.fires word = true → (current.matchTime word).toNat + current.pulseNs.toNat < 2 ^ 64) :
    Pulsing outputs.pulse (current.matchWord inputs outputs (matcher.firstLevel outputs) word).node
      (pulses ++ streamItems (current.matchWord inputs outputs (matcher.firstLevel outputs) word).sent.pulse) := by
  obtain ⟨hlane, hlast, hsilent⟩ := h.started
  rcases current.matchWord_cases inputs outputs (matcher.firstLevel outputs) word with ⟨hfires, hcall⟩ | ⟨-, hcall⟩
  · rw [hcall, WordMatcher.fire]
    dsimp only
    rw [firstLevel_append, ← List.append_assoc]
    cases hpulse : outputs.pulse && current.pulses (current.matchTime word) with
    | true =>
      obtain ⟨hconnected, hafter⟩ := Bool.and_eq_true_iff.mp hpulse
      have hle : matcher.lastPulseEnd ≤ current.matchTime word := hend ▸ of_decide_eq_true hafter
      refine ⟨fun hfalse => ?_, fun hfresh => ?_, hlane.pulse (hlast hconnected) hle (hfits hfires), fun _ _ => ?_⟩
      · rw [hconnected] at hfalse
        cases hfalse
      · rw [hstarted] at hfresh
        cases hfresh
      · exact List.getLast?_append
    | false =>
      rw [if_neg Bool.false_ne_true]
      show Pulsing outputs.pulse _ (_ ++ [])
      rw [List.append_nil]
      refine ⟨hsilent, fun hfresh => ?_, hlane, fun hconnected _ => ?_⟩
      · rw [hstarted] at hfresh
        cases hfresh
      · exact (hlast hconnected).trans (hend ▸ rfl)
  · rw [hcall]
    refine ⟨hsilent, fun hfresh => ?_, hlane, fun hconnected _ => ?_⟩
    · rw [hstarted] at hfresh
      cases hfresh
    · exact (hlast hconnected).trans (hend ▸ rfl)

end Pulsing

end LogicConduit
