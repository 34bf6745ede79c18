import LogicConduit.WordBuilder
import Mathlib.Data.List.Chain

namespace LogicConduit

open Vlq

def deltaBytes (previous : Nat) : List Word → Nat
  | [] => 0
  | word :: rest => encodedLen (word.time - previous) + deltaBytes word.time rest

def timestampBytesOf : List Word → Nat
  | [] => 0
  | word :: rest => encodedLen 0 + deltaBytes word.time rest

def maxValueOf (words : List Word) : Nat :=
  (words.map (·.value.toNat)).foldr max 0

theorem deltaBytes_append (previous : Nat) (words : List Word) (word : Word) :
    deltaBytes previous (words ++ [word]) = deltaBytes previous words +
      encodedLen (word.time - ((words.getLast?.map Word.time).getD previous)) := by
  induction words generalizing previous with
  | nil => simp [deltaBytes]
  | cons w ws ih =>
    simp only [List.cons_append, deltaBytes, ih w.time]
    cases ws with
    | nil => simp [deltaBytes]
    | cons v vs =>
      obtain ⟨last, hl⟩ : ∃ last, (v :: vs).getLast? = some last := ⟨_, List.getLast?_eq_some_getLast (by simp)⟩
      simp [List.getLast?_cons_cons, hl]
      omega

variable {words : List Word}

variable {previous : Nat}

theorem timestampBytesOf_append (word : Word) (h : words.getLast?.map Word.time = some previous) :
    timestampBytesOf (words ++ [word]) =
      timestampBytesOf words + encodedLen (word.time - previous) := by
  cases words with
  | nil => simp at h
  | cons w ws =>
    simp only [List.cons_append, timestampBytesOf, deltaBytes_append]
    cases ws with
    | nil =>
      have he : w.time = previous := by simpa using h
      simp [deltaBytes, he]
    | cons v vs =>
      rw [List.getLast?_cons_cons] at h
      rw [h]
      simp; omega

theorem maxValueOf_append (words : List Word) (word : Word) :
    maxValueOf (words ++ [word]) = max (maxValueOf words) word.value.toNat := by
  induction words with
  | nil => simp [maxValueOf]
  | cons w ws ih =>
    simp only [maxValueOf, List.cons_append, List.map_cons, List.foldr_cons] at ih ⊢
    rw [ih]
    omega

theorem le_maxValueOf {word : Word} (h : word ∈ words) : word.value.toNat ≤ maxValueOf words := by
  induction words with
  | nil => simp at h
  | cons w ws ih =>
    simp only [maxValueOf, List.map_cons, List.foldr_cons] at ih ⊢
    rcases List.mem_cons.mp h with rfl | h
    · omega
    · have := ih h
      omega

structure BlockSizes.Of (sizes : BlockSizes) (words : List Word) : Prop where
  timestampBytes : sizes.timestampBytes = timestampBytesOf words
  durationCount : sizes.durationCount = words.countP (fun word => word.durationNs ≠ 0)
  payloadCount : sizes.payloadCount = words.countP (fun word => word.payload.isSome)
  maxValue : sizes.maxValue = maxValueOf words

theorem BlockSizes.Of.zero : BlockSizes.zero.Of [] :=
  ⟨rfl, rfl, rfl, rfl⟩

variable {sizes : BlockSizes}

theorem BlockSizes.Of.next (h : sizes.Of words) (index : Nat) (hp : words.getLast?.map Word.time = some previous)
    (word : Word) : (sizes.next index previous word).Of (words ++ [word]) := by
  have ht := timestampBytesOf_append word hp
  have hm := maxValueOf_append words word
  obtain ⟨h1, h2, h3, h4⟩ := h
  unfold BlockSizes.next
  by_cases hd : word.durationNs = 0 <;> cases hpay : word.payload <;>
    constructor <;> simp [hd, hpay, h1, h2, h3, h4, ht, hm]

theorem BlockSizes.Of.first (word : Word) : (BlockSizes.zero.first word).Of [word] := by
  unfold BlockSizes.first
  by_cases hd : word.durationNs = 0 <;> cases hpay : word.payload <;>
    constructor <;> simp [hd, hpay, BlockSizes.zero, timestampBytesOf, deltaBytes, maxValueOf]

/-- A block under construction: its sizes are those of its words, and the words respect the
limits that close a block. -/
structure BlockSizes.Fits (config : BlockCodecConfig) (sizes : BlockSizes) (words : List Word) :
    Prop where
  of : sizes.Of words
  empty : words = [] → sizes = BlockSizes.zero
  length : words.length ≤ config.maxWords
  gaps : words.IsChain (fun a b => b.time - a.time ≤ config.maxInterWordGapNs)

variable {config : BlockCodecConfig}

theorem BlockSizes.Fits.next (h : BlockSizes.Fits config sizes words) (index : Nat) {word : Word}
    (hp : words.getLast?.map Word.time = some previous) (hl : words.length < config.maxWords)
    (hg : word.time - previous ≤ config.maxInterWordGapNs) :
    BlockSizes.Fits config (sizes.next index previous word) (words ++ [word]) := by
  refine ⟨h.of.next index hp word, by simp, by simp; omega, ?_⟩
  apply List.isChain_append.mpr
  refine ⟨h.gaps, List.isChain_singleton _, ?_⟩
  intro x hx y hy
  have hx' : words.getLast? = some x := hx
  have hy' : word = y := by simpa using hy
  have he : x.time = previous := by simpa [hx'] using hp
  rw [← hy', he]
  exact hg

theorem BlockSizes.Fits.first (hmax : 0 < config.maxWords) (word : Word) :
    BlockSizes.Fits config (BlockSizes.zero.first word) [word] :=
  ⟨BlockSizes.Of.first word, by simp, by simp; omega, List.isChain_singleton _⟩

namespace WordBlockBuilder

/-- A builder between two calls: a valid configuration and a block under construction. -/
structure Sized (builder : WordBlockBuilder) : Prop where
  restartInterval : 0 < builder.config.restartInterval
  maxWords_pos : 0 < builder.config.maxWords
  maxWords_le : builder.config.maxWords ≤ u32Max
  fits : BlockSizes.Fits builder.config builder.toBlockSizes builder.words

theorem fits_zero (config : BlockCodecConfig) : BlockSizes.Fits config BlockSizes.zero [] :=
  ⟨BlockSizes.Of.zero, fun _ => rfl, by simp, List.isChain_nil⟩

theorem new_sized {builder : WordBlockBuilder} (h : new config = .ok builder) :
    builder.Sized ∧ builder.words = [] ∧ builder.config = config := by
  unfold new at h
  split at h
  · cases h
  split at h
  · cases h
  split at h
  · cases h
  split at h
  · cases h
  next h1 h2 h3 h4 =>
    cases h
    exact ⟨⟨Nat.pos_of_ne_zero h1, Nat.pos_of_ne_zero h2, Nat.le_of_not_lt h3, fits_zero config⟩,
      rfl, rfl⟩

theorem clear_sized {builder : WordBlockBuilder} (h : builder.Sized) : builder.clear.Sized :=
  ⟨h.restartInterval, h.maxWords_pos, h.maxWords_le, fits_zero builder.config⟩

/-- What a sizing loop returns from `start` accepted words on: the block grown by the words it
accepts, of which the first is always one when the block is empty. -/
structure Extended (config : BlockCodecConfig) (prior words : List Word) (start : Nat)
    (result : Nat × BlockSizes) : Prop where
  start_le : start ≤ result.1
  le_length : result.1 ≤ start + words.length
  fits : BlockSizes.Fits config result.2 (prior ++ words.take (result.1 - start))
  progress : prior = [] → words ≠ [] → start < result.1

theorem Extended.stop {prior words : List Word} {start : Nat} (h : BlockSizes.Fits config sizes prior)
    (hp : prior = [] → words = []) : Extended config prior words start (start, sizes) :=
  ⟨le_rfl, by simp, by simpa using h, fun hn hw => absurd (hp hn) hw⟩

theorem Extended.grow {prior rest : List Word} {word : Word} {start : Nat} {result : Nat × BlockSizes}
    (h : Extended config (prior ++ [word]) rest (start + 1) result) :
    Extended config prior (word :: rest) start result := by
  obtain ⟨hc, hle, hs, _⟩ := h
  have htake : (word :: rest).take (result.1 - start) = word :: rest.take (result.1 - (start + 1)) := by
    rw [show result.1 - start = result.1 - (start + 1) + 1 by omega, List.take_succ_cons]
  refine ⟨by omega, by simp only [List.length_cons]; omega, ?_, fun _ _ => by omega⟩
  rw [htake]
  simpa using hs

theorem extendLoop_extended (hmax : 0 < config.maxWords) (originalLen firstTimestamp : Nat) (words : List Word)
    (accepted : Nat) {prior : List Word} (hs : BlockSizes.Fits config sizes prior)
    (hlen : prior.length = originalLen + accepted) :
    Extended config prior words accepted
      (extendLoop config originalLen firstTimestamp words accepted sizes
        (prior.getLast?.map Word.time)) := by
  induction words generalizing accepted sizes prior with
  | nil =>
    cases hp : prior.getLast?.map Word.time <;> exact .stop hs (fun _ => rfl)
  | cons word rest ih =>
    cases hp : prior.getLast?.map Word.time with
    | none =>
      have hnil : prior = [] := by simpa using hp
      subst hnil
      rw [hs.empty rfl]
      have hrest := @ih (BlockSizes.zero.first word) (accepted + 1) [word] (.first hmax word)
        (by simp at hlen ⊢; omega)
      exact .grow (by simpa [extendLoop] using hrest)
    | some previous =>
      have hne : prior ≠ [] := by
        rintro rfl
        simp at hp
      simp only [extendLoop]
      split
      · exact .stop hs (fun h => absurd h hne)
      next hopen =>
        split
        · exact .stop hs (fun h => absurd h hne)
        · have hgap : word.time - previous ≤ config.maxInterWordGapNs := by
            simp only [closesBefore, decide_eq_true_eq] at hopen
            omega
          have hnext := hs.next (originalLen + accepted) hp (by omega) hgap
          have hrest := ih (accepted + 1) hnext (by simp; omega)
          exact .grow (by simpa using hrest)

theorem durationFree_next {sizes : BlockSizes} {index previous : Nat} {word : Word}
    (hd : word.durationNs = 0) (hn : word.payload = none) :
    { sizes with
      timestampBytes := sizes.timestampBytes +
        (if word.time - previous ≤ 0x7f then 1 else encodedLen (word.time - previous))
      maxValue := max sizes.maxValue word.value.toNat } = sizes.next index previous word := by
  have hlen : (if word.time - previous ≤ 0x7f then 1 else encodedLen (word.time - previous)) =
      encodedLen (word.time - previous) := by
    split
    · next h => exact (encodedLen_of_lt (by omega)).symm
    · rfl
  rw [hlen]
  simp [BlockSizes.next, hd, hn]

theorem durationFreeLoop_extended (firstTimestamp : Nat) (words : List Word) (accepted : Nat) {prior : List Word}
    (hs : BlockSizes.Fits config sizes prior) (hlen : prior.length + words.length ≤ config.maxWords)
    (hfree : ∀ word ∈ words, word.durationNs = 0 ∧ word.payload = none) :
    Extended config prior words accepted
      (durationFreeLoop config firstTimestamp words accepted sizes
        (prior.getLast?.map Word.time)) := by
  induction words generalizing accepted sizes prior with
  | nil =>
    cases hp : prior.getLast?.map Word.time <;> exact .stop hs (fun _ => rfl)
  | cons word rest ih =>
    obtain ⟨hd, hn⟩ := hfree word (by simp)
    simp only [List.length_cons] at hlen
    have hrest : ∀ w ∈ rest, w.durationNs = 0 ∧ w.payload = none := fun w hw => hfree w (by simp [hw])
    cases hp : prior.getLast?.map Word.time with
    | none =>
      have hnil : prior = [] := by simpa using hp
      subst hnil
      rw [hs.empty rfl]
      have hfirst : { BlockSizes.zero with
          timestampBytes := BlockSizes.zero.timestampBytes + encodedLen 0
          maxValue := max BlockSizes.zero.maxValue word.value.toNat } = BlockSizes.zero.first word := by
        simp [BlockSizes.first, BlockSizes.zero, hd, hn]
      simp only [durationFreeLoop, hfirst]
      have hnext : BlockSizes.Fits config (BlockSizes.zero.first word) [word] := .first (by omega) word
      have hih := ih (accepted + 1) hnext (by simp at hlen ⊢; omega) hrest
      exact .grow (by simpa using hih)
    | some previous =>
      have hne : prior ≠ [] := by
        rintro rfl
        simp at hp
      simp only [durationFreeLoop]
      split
      · exact .stop hs (fun h => absurd h hne)
      next hopen =>
        have hgap : word.time - previous ≤ config.maxInterWordGapNs := by
          simp only [closesBefore, decide_eq_true_eq] at hopen
          omega
        rw [@durationFree_next sizes prior.length previous word hd hn]
        have hnext := hs.next prior.length hp (by omega) hgap
        have hih := ih (accepted + 1) hnext (by simp; omega) hrest
        exact .grow (by simpa using hih)

theorem extendOrdered_spec {builder builder' : WordBlockBuilder} {accepted : Nat} (hb : builder.Sized)
    (h : builder.extendOrdered words = (accepted, builder')) :
    builder'.Sized ∧ builder'.words = builder.words ++ words.take accepted ∧
      builder'.config = builder.config ∧ accepted ≤ words.length ∧
      (builder.words = [] → words ≠ [] → 0 < accepted) := by
  have close : ∀ {candidates : List Word} {result : Nat × BlockSizes},
      Extended builder.config builder.words candidates 0 result → candidates <+: words →
      (builder.words = [] → words ≠ [] → candidates ≠ []) →
      (result.1, ({ result.2 with
          config := builder.config
          words := builder.words ++ words.take result.1 } : WordBlockBuilder)) = (accepted, builder') →
      builder'.Sized ∧ builder'.words = builder.words ++ words.take accepted ∧
        builder'.config = builder.config ∧ accepted ≤ words.length ∧
        (builder.words = [] → words ≠ [] → 0 < accepted) := by
    intro candidates result hx hpre hne heq
    obtain ⟨rfl, rfl⟩ := Prod.mk.inj heq
    have hle := hx.le_length
    have hpl := hpre.length_le
    have htake : candidates.take result.1 = words.take result.1 := by
      obtain ⟨rest, rfl⟩ := hpre
      rw [List.take_append_of_le_length (by omega)]
    have hfits := hx.fits
    rw [Nat.sub_zero, htake] at hfits
    exact ⟨⟨hb.restartInterval, hb.maxWords_pos, hb.maxWords_le, hfits⟩, rfl, rfl, by omega,
      fun hn hw => hx.progress hn (hne hn hw)⟩
  unfold extendOrdered at h
  simp only at h
  split at h
  next hfree =>
    refine close ?_ (List.take_prefix (builder.config.maxWords - builder.words.length) words) ?_ h
    · refine durationFreeLoop_extended _ _ 0 hb.fits ?_ ?_
      · have := hb.fits.length
        simp only [List.length_take]
        omega
      · intro word hw
        have := List.all_eq_true.mp hfree.2.2.2 word hw
        simpa [Word.isNumeric] using this
    · intro hn hw
      have := hb.maxWords_pos
      simp [hn, hw]
      omega
  next =>
    exact close (extendLoop_extended hb.maxWords_pos _ _ words 0 hb.fits (by simp)) (List.prefix_refl _)
      (fun _ hw => hw) h

end WordBlockBuilder

end LogicConduit
