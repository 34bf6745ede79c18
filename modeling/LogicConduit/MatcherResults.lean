import LogicConduit.MatcherUpkeep

namespace LogicConduit

/-- A run on a stream of words, of which `words` are left, and `rearms` of its rearms. -/
structure MatcherStands (initial : MatcherSettings) (manualRearm : Bool) (pulseNs : UInt64) (outputs : WordMatcherOutputs)
    (all : List Word) (run : MatcherRun) (words : List Word) (rearms : List TimestampEvent) : Prop where
  waits : run.matcher.Waits run.inputs words rearms
  width : run.matcher.pulseNs = pulseNs
  order : (judgedWords run.past).reverse ++ words = all
  matching : Matching manualRearm run.matcher run.past
  inForce : InForce initial run.matcher run.accepted run.past
  events : run.events =
    if outputs.event then (matchesOf run.past).reverse.map (fun hit => TimestampEvent.mk hit.1) else []
  pulsing : (∀ hit ∈ matchesOf run.past, hit.1.toNat + pulseNs.toNat < 2 ^ 64) →
    Pulsing outputs.pulse run.matcher run.pulses

namespace MatcherStands

variable {initial : MatcherSettings} {manualRearm : Bool} {pulseNs : UInt64} {outputs : WordMatcherOutputs}
  {all : List Word} {run : MatcherRun} {words : List Word} {rearms : List TimestampEvent}

theorem scheduleConfig_cases (matcher : WordMatcher) (config : NodeConfig) (boundaryNs : UInt64) :
    matcher.scheduleConfig config boundaryNs = (.needsRestart, matcher) ∨
      matcher.scheduleConfig config boundaryNs =
        (.applied, { matcher with scheduled := matcher.scheduled ++ [queued (boundaryNs, config)] }) := by
  unfold WordMatcher.scheduleConfig
  split
  · exact Or.inl rfl
  · split
    · exact Or.inl rfl
    · exact Or.inr rfl

theorem schedule (h : MatcherStands initial manualRearm pulseNs outputs all run words rearms) {config : NodeConfig}
    {boundaryNs : UInt64} (htime : run.InTime (.schedule config boundaryNs)) :
    MatcherStands initial manualRearm pulseNs outputs all (run.step outputs (.schedule config boundaryNs)) words rearms := by
  rw [MatcherRun.step]
  rcases scheduleConfig_cases run.matcher config boundaryNs with hturned | happlied
  · rw [hturned]
    exact h
  · obtain ⟨hlast, hbefore⟩ := htime (congrArg Prod.fst happlied)
    rw [happlied]
    exact ⟨⟨h.waits.word, h.waits.rearm⟩, h.width, h.order,
      ⟨h.matching.manual, h.matching.next, h.matching.armed, h.matching.count, h.matching.room, h.matching.sound⟩,
      h.inForce.accept hlast hbefore rfl rfl, h.events,
      fun hfits => ⟨(h.pulsing hfits).silent, (h.pulsing hfits).fresh, (h.pulsing hfits).lane, (h.pulsing hfits).last⟩⟩

theorem sent_event (matcher : WordMatcher) (inputs : WordMatcherInputs) (initial : List (ChannelMessage Sample))
    (word : Word) : streamItems (matcher.matchWord inputs outputs initial word).sent.event =
      if matcher.fires word && outputs.event then [⟨matcher.matchTime word⟩] else [] := by
  rcases matcher.matchWord_cases inputs outputs initial word with ⟨hfires, hcall⟩ | ⟨hfires, hcall⟩
  · rw [hcall, hfires, Bool.true_and]
    show streamItems (if outputs.event then _ else _) = _
    split
    · rfl
    · rfl
  · rw [hcall, hfires]
    rfl

theorem matchWord_keeps (matcher : WordMatcher) (inputs : WordMatcherInputs) (initial : List (ChannelMessage Sample))
    (word : Word) :
    (matcher.matchWord inputs outputs initial word).inputs = inputs ∧
      (matcher.matchWord inputs outputs initial word).node.pulseNs = matcher.pulseNs ∧
      (matcher.matchWord inputs outputs initial word).node.settings = matcher.settings ∧
      (matcher.matchWord inputs outputs initial word).node.scheduled = matcher.scheduled ∧
      ∀ words rearms, matcher.Waits inputs words rearms →
        (matcher.matchWord inputs outputs initial word).node.Waits inputs words rearms := by
  rcases matcher.matchWord_cases inputs outputs initial word with ⟨-, hcall⟩ | ⟨-, hcall⟩
  · rw [hcall]
    exact ⟨rfl, rfl, rfl, rfl, fun _ _ hwaits => ⟨hwaits.word, hwaits.rearm⟩⟩
  · rw [hcall]
    exact ⟨rfl, rfl, rfl, rfl, fun _ _ hwaits => ⟨hwaits.word, hwaits.rearm⟩⟩

theorem matchesOf_judged (word : Word) (settings : MatcherSettings) (emitted : Bool) (past : List MatcherEntry) :
    matchesOf (.judged word settings emitted :: past) =
      (if emitted then [(settings.timeOf word, settings.holdoffNs)] else []) ++ matchesOf past := by
  cases emitted <;> rfl

section

variable (h : MatcherStands initial manualRearm pulseNs outputs all run words rearms)
include h

theorem events_judged (word : Word) (settings : MatcherSettings) (emitted : Bool) :
    run.events ++ (if emitted && outputs.event then [⟨settings.timeOf word⟩] else []) =
      if outputs.event then
        (matchesOf (.judged word settings emitted :: run.past)).reverse.map (fun hit => TimestampEvent.mk hit.1)
      else [] := by
  rw [h.events, matchesOf_judged, List.reverse_append, List.map_append]
  cases outputs.event <;> cases emitted <;> rfl

/-- One call. It judges the next word, or applies a rearm before it, and with no words left it does nothing. -/
theorem work (hordered : Ordered all) :
    ∃ words' rearms', MatcherStands initial manualRearm pulseNs outputs all (run.step outputs .work) words' rearms' ∧
      words'.length ≤ words.length ∧
        (words' = [] ∨ words'.length + rearms'.length + 1 = words.length + rearms.length) := by
  rw [MatcherRun.step]
  rcases WordMatcher.work_cases outputs h.waits with ⟨rfl, hentries, wordEos, rearmEos, rearmHead, hnode, hsent, hwaits⟩ |
    ⟨first, rest, rfl, hmanual, hentries, wordHead, wordEos, rearmEos, hnode, hsent, hwaits⟩ |
    ⟨word, rest, current, inputs', rfl, ⟨wordEos, rearmHead, rearmEos, hcurrent⟩, hentries, hcall, hwaits⟩
  · refine ⟨[], rearms, ?_, Nat.le_refl 0, Or.inl rfl⟩
    rw [hnode] at hwaits
    rw [hentries, hsent, hnode]
    exact ⟨hwaits, h.width, h.order,
      ⟨h.matching.manual, h.matching.next, h.matching.armed, h.matching.count, h.matching.room, h.matching.sound⟩,
      h.inForce.keep rfl rfl, (List.append_nil _).trans h.events, fun hfits =>
        (List.append_nil run.pulses).symm ▸
          ⟨(h.pulsing hfits).silent, (h.pulsing hfits).fresh, (h.pulsing hfits).lane, (h.pulsing hfits).last⟩⟩
  · refine ⟨words, rest, ?_, Nat.le_refl _, Or.inr ?_⟩
    · rw [hnode] at hwaits
      rw [hentries, hsent, hnode]
      exact ⟨hwaits, h.width, h.order, h.matching.rearm rfl rfl rfl rfl, h.inForce.rearm.keep rfl rfl,
        (List.append_nil _).trans h.events, fun hfits => (List.append_nil run.pulses).symm ▸
          ⟨(h.pulsing hfits).silent, (h.pulsing hfits).fresh, (h.pulsing hfits).lane, (h.pulsing hfits).last⟩⟩
    · rw [List.length_cons]
      omega
  · refine ⟨rest, rearms, ?_, Nat.le_succ _, Or.inr ?_⟩
    · have hlast : ∀ earlier ∈ judgedWords run.past, earlier.timestampNs ≤ word.timestampNs := by
        intro earlier hearlier
        have hpairs := h.order ▸ hordered
        exact (List.pairwise_append.mp hpairs).2.2 earlier (List.mem_reverse.mpr hearlier) word List.mem_cons_self
      have hmatching : Matching manualRearm current run.past := by
        rw [hcurrent]
        exact ⟨h.matching.manual, h.matching.next, h.matching.armed, h.matching.count, h.matching.room, h.matching.sound⟩
      obtain ⟨hinputs, hwidth, hsettings, hscheduled, hkept⟩ :=
        @matchWord_keeps outputs current inputs' (run.matcher.firstLevel outputs) word
      have hforce : current.settings = run.matcher.settingsFor word.timestampNs := by
        rw [hcurrent]
        rfl
      have hqueue : current.scheduled = (run.matcher.judging word).scheduled := by rw [hcurrent]
      have hpulse : current.pulseNs = pulseNs := by
        rw [hcurrent]
        exact h.width
      rw [hentries, hcall, hinputs, sent_event]
      refine ⟨hkept rest rearms hwaits, hwidth.trans hpulse, ?_, hmatching.judge inputs' outputs _ word, ?_,
        h.events_judged word current.settings (current.fires word), fun hfits => ?_⟩
      · show (word :: judgedWords run.past).reverse ++ rest = all
        rw [List.reverse_cons, List.append_assoc]
        exact h.order
      · rw [hforce]
        exact (h.inForce.judge (current.fires word) hlast).2.keep (hsettings.trans hforce) (hscheduled.trans hqueue)
      · have hmatches := matchesOf_judged word current.settings (current.fires word) run.past
        have hbefore := h.pulsing fun hit hhit => hfits hit (hmatches ▸ List.mem_append_right _ hhit)
        refine hbefore.judge inputs' word ?_ ?_ fun hfires => ?_
        · rw [hcurrent]
          rfl
        · rw [hcurrent]
          rfl
        · rw [hpulse]
          refine hfits (current.settings.timeOf word, current.settings.holdoffNs) ?_
          show _ ∈ matchesOf (.judged word current.settings (current.fires word) :: run.past)
          rw [hmatches, hfires]
          exact List.mem_cons_self
    · rw [List.length_cons]
      omega

theorem after (hordered : Ordered all)
    (actions : List MatcherAction) (htime : run.AllInTime outputs actions) :
    ∃ words' rearms', MatcherStands initial manualRearm pulseNs outputs all (run.after outputs actions) words' rearms' ∧
      words'.length ≤ words.length ∧
        (words' = [] ∨ words'.length + rearms'.length + actions.count .work ≤ words.length + rearms.length) := by
  induction actions generalizing run words rearms with
  | nil => exact ⟨words, rearms, h, Nat.le_refl _, Or.inr (Nat.le_refl _)⟩
  | cons action actions ih =>
    obtain ⟨hnow, hlater⟩ := htime
    cases action with
    | schedule config boundaryNs =>
      have hcount : (MatcherAction.schedule config boundaryNs :: actions).count .work = actions.count .work :=
        List.count_cons_of_ne MatcherAction.noConfusion
      obtain ⟨words', rearms', hstands, hle, hleft⟩ := ih (h.schedule hnow) hlater
      exact ⟨words', rearms', hstands, hle, hcount ▸ hleft⟩
    | work =>
      obtain ⟨words', rearms', hstep, hstepped, htaken⟩ := h.work hordered
      obtain ⟨last, lastRearms, hstands, hle, hleft⟩ := ih hstep hlater
      refine ⟨last, lastRearms, hstands, Nat.le_trans hle hstepped, ?_⟩
      rw [List.count_cons_self]
      rcases htaken with rfl | htaken
      · exact Or.inl (List.length_eq_zero_iff.mp (Nat.le_zero.mp hle))
      · rcases hleft with hnil | hleft
        · exact Or.inl hnil
        · exact Or.inr (by omega)

end

end MatcherStands

section Runs

variable (settings : MatcherSettings) (manualRearm : Bool) (pulseNs : UInt64) (outputs : WordMatcherOutputs)

theorem new_matcherStands (words : List (ChannelMessage Word)) (rearms : List (ChannelMessage TimestampEvent)) :
    MatcherStands (WordMatcher.built settings manualRearm pulseNs).settings manualRearm
      (WordMatcher.built settings manualRearm pulseNs).pulseNs outputs (streamItems words)
      (MatcherRun.new (WordMatcher.built settings manualRearm pulseNs) words rearms) (streamItems words)
      (if manualRearm then streamItems rearms else []) where
  waits := by
    refine ⟨⟨Inbox.new words, rfl, settled_of_eq rfl, rfl, Bool.noConfusion⟩, ?_⟩
    cases manualRearm with
    | true => exact ⟨Inbox.new rearms, rfl, settled_of_eq rfl, rfl, Bool.noConfusion⟩
    | false => exact ⟨rfl, rfl⟩
  width := rfl
  order := rfl
  matching := ⟨rfl, rfl, fun _ => rfl, rfl, by show 0 + 1 < 2 ^ 64; omega, trivial⟩
  inForce := by
    refine ⟨?_, List.Pairwise.nil, ⟨[], [], rfl, rfl, rfl, fun change hchange => ?_⟩, fun _ _ _ hword => ?_⟩
    · show (0 : UInt64) < if settings.matchCount ≤ 1 then 1 else settings.matchCount
      split
      · decide
      next hlt => exact UInt64.lt_of_le_of_lt UInt64.zero_le (UInt64.not_le.mp hlt)
    · cases hchange
    · cases hword
  events := by
    cases outputs.event <;> rfl
  pulsing _ := ⟨fun _ => rfl, fun _ => ⟨rfl, rfl⟩, List.isChain_nil, fun _ hstarted => Bool.noConfusion hstarted⟩

/-- What holds of a run on `words` and `rearms` with so many calls of `work`. -/
structure MatcherRight (initial : MatcherSettings) (words : List Word) (rearms : List TimestampEvent) (calls : Nat)
    (run : MatcherRun) : Prop where
  /-- The words are judged in order, -/
  order : (judgedWords run.past).reverse <+: words
  /-- all of them by enough calls, -/
  all : words.length + rearms.length < calls → (judgedWords run.past).reverse = words
  /-- each under the settings of its time. -/
  inForce : ∀ word settings emitted, .judged word settings emitted ∈ run.past →
    settings = settingsAt initial run.accepted word.timestampNs
  /-- A word is emitted as a match when it is eligible and the number of matches asked for is reached with it, -/
  emitted : ∀ later word settings emitted earlier, run.past = later ++ .judged word settings emitted :: earlier →
    emitted = emittedAfter manualRearm earlier word settings
  /-- which it is exactly, unless more were asked for before. -/
  counted : ∀ later word settings earlier, run.past = later ++ .judged word settings true :: earlier →
    (∀ other settings', .judged other settings' false ∈ sinceReset earlier → settings'.matchCount ≤ settings.matchCount) →
    eligibleCount manualRearm earlier + 1 = settings.matchCount.toNat
  spaced : (matchesOf run.past).Pairwise fun later earlier =>
    min (earlier.1.toNat + earlier.2.toNat) u64Max ≤ later.1.toNat
  events : run.events = if outputs.event then (matchesOf run.past).reverse.map (fun hit => ⟨hit.1⟩) else []
  lane : (∀ hit ∈ matchesOf run.past, hit.1.toNat + pulseNs.toNat < 2 ^ 64) → LevelLane run.pulses

/-- The matcher on any streams, with configurations accepted in time among its calls. -/
theorem matcher_follows_its_past (words : List (ChannelMessage Word)) (rearms : List (ChannelMessage TimestampEvent))
    (actions : List MatcherAction) (hordered : Ordered (streamItems words))
    (htime : (MatcherRun.new (WordMatcher.built settings manualRearm pulseNs) words rearms).AllInTime outputs actions) :
    MatcherRight manualRearm (max pulseNs 1) outputs (WordMatcher.built settings manualRearm pulseNs).settings
      (streamItems words) (streamItems rearms) (actions.count .work)
      ((MatcherRun.new (WordMatcher.built settings manualRearm pulseNs) words rearms).after outputs actions) := by
  obtain ⟨words', rearms', hstands, -, hleft⟩ :=
    (new_matcherStands settings manualRearm pulseNs outputs words rearms).after hordered actions htime
  have hinForce := hstands.inForce.judged
  refine ⟨⟨words', hstands.order⟩, fun hcalls => ?_, hinForce, fun later word settings' emitted earlier hpast => ?_,
    fun later word settings' earlier hpast hcounts => ?_, matchesOf_spaced hstands.matching.sound, hstands.events,
    fun hfits => (hstands.pulsing hfits).lane⟩
  · rcases hleft with rfl | hleft
    · exact (List.append_nil _).symm.trans hstands.order
    · have hrearms : (if manualRearm then streamItems rearms else []).length ≤ (streamItems rearms).length := by
        split
        · exact Nat.le_refl _
        · exact Nat.zero_le _
      omega
  · have hsound := hpast ▸ hstands.matching.sound
    exact hsound.split.1
  · have hsound := hpast ▸ hstands.matching.sound
    have hmem : MatcherEntry.judged word settings' true ∈
        ((MatcherRun.new (WordMatcher.built settings manualRearm pulseNs) words rearms).after outputs actions).past :=
      hpast ▸ List.mem_append_right later List.mem_cons_self
    refine hsound.counted ?_ hcounts
    rw [hinForce word settings' true hmem]
    exact reconfigureAll_matchCount _ hstands.inForce.positive

/-- The count asked for is lowered at 20 ns. -/
theorem matcher_follows_its_past_lowered :
    MatcherRight false 1000 ⟨true, true, true⟩ ⟨1, 255, .eq, .end, .compare, 0, 255, [], 5, 0⟩
      [Word.new 1 0, Word.new 1 10, Word.new 1 20] [] 5
      ((MatcherRun.new (WordMatcher.built ⟨1, 255, .eq, .end, .compare, 0, 255, [], 5, 0⟩ false 1000)
        [.batch [Word.new 1 0, Word.new 1 10, Word.new 1 20]] []).after ⟨true, true, true⟩
          [.schedule [("match_count", .u64 1)] 20, .work, .work, .work, .work, .work]) :=
  matcher_follows_its_past ⟨1, 255, .eq, .end, .compare, 0, 255, [], 5, 0⟩ false 1000 ⟨true, true, true⟩
    [.batch [Word.new 1 0, Word.new 1 10, Word.new 1 20]] []
    [.schedule [("match_count", .u64 1)] 20, .work, .work, .work, .work, .work] (by decide)
    ⟨fun _ => ⟨fun _ hnone => (List.not_mem_nil hnone).elim, fun _ _ _ hnone => (List.not_mem_nil hnone).elim⟩,
      trivial, trivial, trivial, trivial, trivial, trivial⟩

/-- A match that is the third since the last when one is asked for, and a match nearer to the one before than the
hold-off, which ends beyond 64 bits. -/
theorem matches_off_count_and_holdoff :
    ((MatcherRun.new (WordMatcher.built ⟨1, 255, .eq, .end, .compare, 0, 255, [], 5, 0⟩ false 1000)
          [.batch [Word.new 1 0, Word.new 1 10, Word.new 1 20]] []).AllInTime ⟨true, true, true⟩
            [.schedule [("match_count", .u64 1)] 20, .work, .work, .work] ∧
      ∃ word settings earlier, ((MatcherRun.new
          (WordMatcher.built ⟨1, 255, .eq, .end, .compare, 0, 255, [], 5, 0⟩ false 1000)
          [.batch [Word.new 1 0, Word.new 1 10, Word.new 1 20]] []).after ⟨true, true, true⟩
            [.schedule [("match_count", .u64 1)] 20, .work, .work, .work]).past = .judged word settings true :: earlier ∧
        settings.matchCount = 1 ∧ eligibleCount false earlier + 1 = 3) ∧
    ((MatcherRun.new (WordMatcher.built ⟨1, 255, .eq, .end, .compare, 0, 255, [], 1, UInt64.ofNat u64Max⟩ false 1000)
      [.batch [Word.new 1 5, Word.new 1 (UInt64.ofNat u64Max)]] []).after ⟨true, true, true⟩ [.work, .work]).events =
        [⟨5⟩, ⟨UInt64.ofNat u64Max⟩] := by
  refine ⟨⟨?_, Word.new 1 20, ⟨1, 255, .eq, .end, .compare, 0, 255, [], 1, 0⟩,
    [.judged (Word.new 1 10) ⟨1, 255, .eq, .end, .compare, 0, 255, [], 5, 0⟩ false,
      .judged (Word.new 1 0) ⟨1, 255, .eq, .end, .compare, 0, 255, [], 5, 0⟩ false], ?_, rfl, ?_⟩, ?_⟩
  · exact ⟨fun _ => ⟨fun _ hnone => (List.not_mem_nil hnone).elim, fun _ _ _ hnone => (List.not_mem_nil hnone).elim⟩,
      trivial, trivial, trivial, trivial⟩
  · decide
  · decide
  · decide

end Runs

end LogicConduit
