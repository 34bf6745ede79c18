import LogicConduit.MatcherRuns

namespace LogicConduit

theorem saturatingAddU64_toNat (a b : UInt64) : (saturatingAddU64 a b).toNat = min (a.toNat + b.toNat) u64Max := by
  have ha := a.toNat_lt
  have hb := b.toNat_lt
  rw [saturatingAddU64, u64Max]
  split
  next hlt =>
    rw [UInt64.lt_iff_toNat_lt, UInt64.toNat_add] at hlt
    rw [UInt64.toNat_ofNat']
    omega
  next hle =>
    rw [UInt64.lt_iff_toNat_lt, UInt64.toNat_add] at hle
    rw [UInt64.toNat_add]
    omega

theorem decide_lt_eq (a b : UInt64) : decide (a < b) = !decide (b ≤ a) := by
  rw [Bool.eq_iff_iff]
  simp [UInt64.not_le]

def SoundPast (manualRearm : Bool) : List MatcherEntry → Prop
  | [] => True
  | .rearmed :: past => SoundPast manualRearm past
  | .judged word settings emitted :: past =>
    emitted = emittedAfter manualRearm past word settings ∧ SoundPast manualRearm past

variable {manualRearm : Bool}

variable {later earlier : List MatcherEntry} {word : Word} {settings : MatcherSettings}

theorem SoundPast.split {emitted : Bool}
    (h : SoundPast manualRearm (later ++ .judged word settings emitted :: earlier)) :
    emitted = emittedAfter manualRearm earlier word settings ∧ SoundPast manualRearm earlier := by
  induction later with
  | nil => exact h
  | cons entry later ih =>
    cases entry with
    | rearmed => exact ih h
    | judged => exact ih h.2

theorem SoundPast.count_lt {past : List MatcherEntry} (h : SoundPast manualRearm past) {matchCount : UInt64}
    (hpos : 0 < matchCount)
    (hcounts : ∀ word settings, .judged word settings false ∈ sinceReset past → settings.matchCount ≤ matchCount) :
    eligibleCount manualRearm past < matchCount.toNat := by
  induction past with
  | nil => exact UInt64.lt_iff_toNat_lt.mp hpos
  | cons entry past ih =>
    cases entry with
    | rearmed => exact UInt64.lt_iff_toNat_lt.mp hpos
    | judged word settings emitted =>
      cases emitted with
      | true => exact UInt64.lt_iff_toNat_lt.mp hpos
      | false =>
        have hpast := ih h.2 fun other settings' hother => hcounts other settings' (List.mem_cons_of_mem _ hother)
        have hle := UInt64.le_iff_toNat_le.mp (hcounts word settings List.mem_cons_self)
        have hsound := h.1
        rw [eligibleCount]
        cases heligible : eligibleAfter manualRearm past word settings with
        | false => exact hpast
        | true =>
          rw [emittedAfter, heligible, Bool.true_and] at hsound
          have hshort := Nat.lt_of_not_le (of_decide_eq_false hsound.symm)
          exact Nat.lt_of_lt_of_le hshort hle

theorem SoundPast.counted
    (h : SoundPast manualRearm (later ++ .judged word settings true :: earlier)) (hpos : 0 < settings.matchCount)
    (hcounts : ∀ other settings', .judged other settings' false ∈ sinceReset earlier → settings'.matchCount ≤ settings.matchCount) :
    eligibleCount manualRearm earlier + 1 = settings.matchCount.toNat := by
  obtain ⟨hsound, hearlier⟩ := h.split
  have hemitted := hsound.symm
  rw [emittedAfter, Bool.and_eq_true, decide_eq_true_eq] at hemitted
  have hlt := hearlier.count_lt hpos hcounts
  omega

structure Matching (manualRearm : Bool) (matcher : WordMatcher) (past : List MatcherEntry) : Prop where
  manual : matcher.manualRearm = manualRearm
  next : matcher.nextAllowedNs = allowedFrom past
  armed : manualRearm = true → matcher.armed = rearmedSince past
  count : matcher.eligibleMatches.toNat = eligibleCount manualRearm past
  room : eligibleCount manualRearm past + 1 < 2 ^ 64
  sound : SoundPast manualRearm past

namespace Matching

variable {manualRearm : Bool} {matcher : WordMatcher} {past : List MatcherEntry}

section

variable (h : Matching manualRearm matcher past)
include h

theorem eligible (word : Word) :
    (matcher.predicateMatches word.value && matcher.eligible (matcher.matchTime word)) =
      eligibleAfter manualRearm past word matcher.settings := by
  have htime : decide (matcher.matchTime word < matcher.nextAllowedNs) =
      !decide (allowedFrom past ≤ matcher.settings.timeOf word) := by
    rw [h.next, decide_lt_eq]
    rfl
  rw [eligibleAfter, WordMatcher.eligible, htime, h.manual]
  refine congrArg _ ?_
  cases manualRearm with
  | false => simp
  | true => rw [h.armed rfl]; simp

theorem fires (word : Word) :
    matcher.fires word = emittedAfter manualRearm past word matcher.settings := by
  have hroom := h.room
  have hsum : (saturatingAddU64 matcher.eligibleMatches 1).toNat = eligibleCount manualRearm past + 1 := by
    rw [saturatingAddU64_toNat, h.count, u64Max]
    have hone : (1 : UInt64).toNat = 1 := rfl
    omega
  rw [WordMatcher.fires, h.eligible, emittedAfter, WordMatcher.completes, decide_lt_eq, Bool.not_not, ← hsum]
  exact congrArg _ (decide_eq_decide.mpr UInt64.le_iff_toNat_le)

theorem rearm {next : WordMatcher} (hmanual : next.manualRearm = matcher.manualRearm)
    (hnext : next.nextAllowedNs = matcher.nextAllowedNs) (harmed : next.armed = true) (hcount : next.eligibleMatches = 0) :
    Matching manualRearm next (.rearmed :: past) where
  manual := hmanual.trans h.manual
  next := hnext.trans h.next
  armed _ := harmed
  count := congrArg UInt64.toNat hcount
  room := by
    show 0 + 1 < 2 ^ 64
    omega
  sound := h.sound

theorem judge (inputs : WordMatcherInputs) (outputs : WordMatcherOutputs)
    (initial : List (ChannelMessage Sample)) (word : Word) :
    Matching manualRearm (matcher.matchWord inputs outputs initial word).node
      (.judged word matcher.settings (matcher.fires word) :: past) := by
  rcases matcher.matchWord_cases inputs outputs initial word with ⟨hfires, hcall⟩ | ⟨hfires, hcall⟩
  · have hsound := h.fires word
    rw [hcall]
    rw [hfires] at hsound ⊢
    refine ⟨h.manual, rfl, fun hmanual => ?_, rfl, ?_, hsound, h.sound⟩
    · show (if matcher.manualRearm then false else matcher.armed) = false
      rw [h.manual, if_pos hmanual]
    · show 0 + 1 < 2 ^ 64
      omega
  · have hsound := h.fires word
    rw [hcall]
    rw [hfires] at hsound ⊢
    rw [h.eligible word]
    have hroom := h.room
    cases heligible : eligibleAfter manualRearm past word matcher.settings with
    | false =>
      have hcount : eligibleCount manualRearm (.judged word matcher.settings false :: past) =
          eligibleCount manualRearm past := by
        rw [eligibleCount, heligible]
        rfl
      exact ⟨h.manual, h.next, h.armed, h.count.trans hcount.symm, hcount ▸ hroom, hsound, h.sound⟩
    | true =>
      have hcount : eligibleCount manualRearm (.judged word matcher.settings false :: past) =
          eligibleCount manualRearm past + 1 := by
        rw [eligibleCount, heligible]
        rfl
      -- one match short of a count that fits in 64 bits
      have hshort : eligibleCount manualRearm past + 1 < matcher.settings.matchCount.toNat := by
        rw [emittedAfter, heligible, Bool.true_and] at hsound
        exact Nat.lt_of_not_le (of_decide_eq_false hsound.symm)
      have hlt := matcher.settings.matchCount.toNat_lt
      refine ⟨h.manual, h.next, h.armed, ?_, ?_, hsound, h.sound⟩
      · show (saturatingAddU64 matcher.eligibleMatches 1).toNat = _
        rw [saturatingAddU64_toNat, h.count, hcount, u64Max]
        have hone : (1 : UInt64).toNat = 1 := rfl
        omega
      · rw [hcount]
        omega

end

end Matching

theorem matchesOf_spaced {past : List MatcherEntry} (h : SoundPast manualRearm past) :
    (matchesOf past).Pairwise fun later earlier => min (earlier.1.toNat + earlier.2.toNat) u64Max ≤ later.1.toNat := by
  induction past with
  | nil => exact List.Pairwise.nil
  | cons entry past ih =>
    cases entry with
    | rearmed => exact ih h
    | judged word settings emitted =>
      cases emitted with
      | false => exact ih h.2
      | true =>
        have hpast := ih h.2
        have hemitted : emittedAfter manualRearm past word settings = true := h.1.symm
        rw [emittedAfter, Bool.and_eq_true, eligibleAfter, Bool.and_eq_true, Bool.and_eq_true, decide_eq_true_eq,
          UInt64.le_iff_toNat_le, allowedFrom] at hemitted
        have hallowed := hemitted.1.2.1
        refine List.Pairwise.cons (fun earlier hearlier => ?_) hpast
        show _ ≤ (settings.timeOf word).toNat
        cases hmatches : matchesOf past with
        | nil =>
          rw [hmatches] at hearlier
          cases hearlier
        | cons last rest =>
          rw [hmatches] at hallowed hpast hearlier
          have hlast : min (last.1.toNat + last.2.toNat) u64Max ≤ (settings.timeOf word).toNat := by
            rw [← saturatingAddU64_toNat]
            exact hallowed
          rcases List.mem_cons.mp hearlier with rfl | hearlier
          · exact hlast
          · have hbefore := (List.pairwise_cons.mp hpast).1 earlier hearlier
            have hlt := last.1.toNat_lt
            rw [u64Max] at hbefore hlast ⊢
            omega

end LogicConduit
