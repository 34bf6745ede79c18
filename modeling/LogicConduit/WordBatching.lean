import LogicConduit.WordEncode

namespace LogicConduit

open Vlq

def sizesFrom : List Word → Nat → Nat → BlockSizes → BlockSizes
  | [], _, _, sizes => sizes
  | word :: rest, index, previous, sizes =>
    sizesFrom rest (index + 1) word.time (sizes.next index previous word)

def sizesOf : List Word → BlockSizes
  | [] => .zero
  | word :: rest => sizesFrom rest 1 word.time (BlockSizes.zero.first word)

theorem sizesFrom_append (words : List Word) (word : Word) (index previous : Nat) (sizes : BlockSizes) :
    sizesFrom (words ++ [word]) index previous sizes =
      (sizesFrom words index previous sizes).next (index + words.length)
        ((words.getLast?.map Word.time).getD previous) word := by
  induction words generalizing index previous sizes with
  | nil => rfl
  | cons first rest ih =>
    rw [List.cons_append, sizesFrom, ih, sizesFrom, List.length_cons]
    have hindex : index + 1 + rest.length = index + (rest.length + 1) := by omega
    cases rest with
    | nil => rw [hindex]; rfl
    | cons second rest =>
      obtain ⟨last, hlast⟩ : ∃ last, (second :: rest).getLast? = some last := ⟨_, List.getLast?_eq_some_getLast (by simp)⟩
      rw [hindex, List.getLast?_cons_cons, hlast]
      rfl

variable {words : List Word}

theorem sizesOf_append {previous : Nat} (h : words.getLast?.map Word.time = some previous) (word : Word) :
    sizesOf (words ++ [word]) = (sizesOf words).next words.length previous word := by
  cases words with
  | nil => simp at h
  | cons first rest =>
    rw [List.cons_append, sizesOf, sizesFrom_append, sizesOf, List.length_cons, Nat.add_comm 1]
    cases rest with
    | nil =>
      obtain rfl : first.time = previous := by simpa using h
      rfl
    | cons second rest =>
      rw [List.getLast?_cons_cons] at h
      rw [h]
      rfl

theorem sizesOf_of (words : List Word) : (sizesOf words).Of words := by
  induction words using List.reverseRecOn with
  | nil => exact BlockSizes.Of.zero
  | append_singleton words word ih =>
    cases hlast : words.getLast?.map Word.time with
    | none =>
      obtain rfl : words = [] := by simpa using hlast
      exact BlockSizes.Of.first word
    | some previous =>
      rw [sizesOf_append hlast]
      exact ih.next _ hlast word

namespace WordBlockBuilder

def accepts (config : BlockCodecConfig) (block : List Word) (word : Word) : Bool :=
  match block.getLast? with
  | none => true
  | some last =>
    block.length < config.maxWords ∧
      ¬closesBefore config (((block ++ [word]).head?.map Word.time).getD 0) last.time word ∧
      (sizesOf (block ++ [word])).blockBytes config (block.length + 1) ≤ config.maxPayloadBytes

def absorbed (config : BlockCodecConfig) : List Word → List Word → Nat
  | _, [] => 0
  | block, word :: rest => if accepts config block word then absorbed config (block ++ [word]) rest + 1 else 0

def builderOf (config : BlockCodecConfig) (words : List Word) : WordBlockBuilder :=
  { sizesOf words with config, words }

/-- The two paths of `extend_ordered`. -/
def extendGeneral (builder : WordBlockBuilder) (words : List Word) : Nat × WordBlockBuilder :=
  let firstTimestamp := ((builder.words ++ words).head?.map Word.time).getD 0
  let (accepted, sizes) :=
    extendLoop builder.config builder.words.length firstTimestamp words 0 builder.toBlockSizes
      (builder.words.getLast?.map Word.time)
  (accepted, { sizes with config := builder.config, words := builder.words ++ words.take accepted })

def extendDurationFree (builder : WordBlockBuilder) (words : List Word) : Nat × WordBlockBuilder :=
  let candidates := words.take (builder.config.maxWords - builder.words.length)
  let firstTimestamp := ((builder.words ++ words).head?.map Word.time).getD 0
  let (accepted, sizes) :=
    durationFreeLoop builder.config firstTimestamp candidates 0 builder.toBlockSizes
      (builder.words.getLast?.map Word.time)
  (accepted, { sizes with config := builder.config, words := builder.words ++ words.take accepted })

/-- When `extend_ordered` takes the duration-free path. -/
def TakesFastPath (builder : WordBlockBuilder) (words : List Word) : Prop :=
  builder.durationCount = 0 ∧ builder.payloadCount = 0 ∧ durationFreePayloadFitsAtMaxWords builder.config ∧
    (words.take (builder.config.maxWords - builder.words.length)).all fun word => word.durationNs = 0 ∧ word.isNumeric

instance (builder : WordBlockBuilder) (words : List Word) : Decidable (builder.TakesFastPath words) :=
  inferInstanceAs (Decidable (_ ∧ _))

theorem extendOrdered_eq_paths (builder : WordBlockBuilder) (words : List Word) :
    builder.extendOrdered words =
      if builder.TakesFastPath words then builder.extendDurationFree words else builder.extendGeneral words := rfl

variable {block : List Word}

section Loops

variable {config : BlockCodecConfig}

theorem extendLoop_eq (words : List Word) {prior : List Word} {originalLen accepted firstTimestamp : Nat}
    (hlen : prior.length = originalLen + accepted)
    (hfirst : firstTimestamp = ((prior ++ words).head?.map Word.time).getD 0) :
    extendLoop config originalLen firstTimestamp words accepted (sizesOf prior) (prior.getLast?.map Word.time) =
      (accepted + absorbed config prior words, sizesOf (prior ++ words.take (absorbed config prior words))) := by
  induction words generalizing prior accepted with
  | nil =>
    cases prior.getLast?.map Word.time <;> simp [extendLoop, absorbed]
  | cons word rest ih =>
    have hnext : extendLoop config originalLen firstTimestamp rest (accepted + 1) (sizesOf (prior ++ [word])) (some word.time) =
        (accepted + (absorbed config (prior ++ [word]) rest + 1),
          sizesOf (prior ++ (word :: rest).take (absorbed config (prior ++ [word]) rest + 1))) := by
      have h := @ih (prior ++ [word]) (accepted + 1) (by simp; omega) (by simpa using hfirst)
      rw [List.getLast?_concat, Option.map_some] at h
      rw [h, List.take_succ_cons]
      simp [Nat.add_assoc, Nat.add_comm]
    cases hlast : prior.getLast? with
    | none =>
      obtain rfl : prior = [] := by simpa using hlast
      rw [Option.map_none, extendLoop, absorbed, accepts, hlast]
      exact hnext
    | some last =>
      have hsizes := sizesOf_append (show prior.getLast?.map Word.time = some last.time by rw [hlast]; rfl) word
      have hhead : ((prior ++ [word]).head?.map Word.time).getD 0 = firstTimestamp := by
        obtain ⟨first, others, rfl⟩ : ∃ first others, prior = first :: others :=
          List.exists_cons_of_ne_nil (by rintro rfl; simp at hlast)
        exact hfirst.symm
      rw [Option.map_some, extendLoop, ← hlen, ← hsizes, absorbed, accepts, hlast, hhead]
      have hstop : (accepted, sizesOf prior) = (accepted + 0, sizesOf (prior ++ (word :: rest).take 0)) := by simp
      by_cases hclose : config.maxWords ≤ prior.length ∨ closesBefore config firstTimestamp last.time word
      · rw [if_pos hclose, if_neg (by rw [decide_eq_true_eq]; rintro ⟨hroom, hopen, -⟩; exact hclose.elim (by omega) hopen)]
        exact hstop
      · rw [if_neg hclose]
        rw [not_or, Nat.not_le] at hclose
        dsimp only
        by_cases hfull : config.maxPayloadBytes < (sizesOf (prior ++ [word])).blockBytes config (prior.length + 1)
        · rw [if_pos hfull, if_neg (by rw [decide_eq_true_eq]; rintro ⟨-, -, hfits⟩; omega)]
          exact hstop
        · rw [if_neg hfull, if_pos (decide_eq_true ⟨hclose.1, hclose.2, by omega⟩)]
          exact hnext

def Plain (words : List Word) : Prop := ∀ word ∈ words, word.durationNs = 0 ∧ word.payload = none

theorem encodedLen_le_ten {value : Nat} (h : value < 2 ^ 64) : encodedLen value ≤ 10 := by
  unfold encodedLen
  split
  · decide
  next hne =>
    have hlog : value.log2 < 64 := (Nat.log2_lt hne).mpr h
    omega

theorem deltaBytes_le (previous : Nat) (words : List Word) : deltaBytes previous words ≤ 10 * words.length := by
  induction words generalizing previous with
  | nil => exact le_rfl
  | cons word rest ih =>
    have hrest := ih word.time
    have hdelta : encodedLen (word.time - previous) ≤ 10 :=
      encodedLen_le_ten ((Nat.sub_le _ _).trans_lt word.time_lt)
    rw [deltaBytes, List.length_cons]
    omega

theorem timestampBytesOf_le (words : List Word) : timestampBytesOf words ≤ 10 * words.length := by
  cases words with
  | nil => exact le_rfl
  | cons word rest =>
    have hrest := deltaBytes_le word.time rest
    have hzero : encodedLen 0 = 1 := encodedLen_of_lt (by decide)
    rw [timestampBytesOf, List.length_cons]
    omega

theorem valueWidth_le (maxValue : Nat) : valueWidth maxValue ≤ 8 := by
  unfold valueWidth
  split_ifs <;> omega

theorem durationBytes_plain (h : Plain words) : (sizesOf words).durationBytes = 0 := by
  induction words using List.reverseRecOn with
  | nil => rfl
  | append_singleton words word ih =>
    have hword := h word (by simp)
    have hprior := ih fun other hm => h other (by simp [hm])
    cases hlast : words.getLast?.map Word.time with
    | none =>
      obtain rfl : words = [] := by simpa using hlast
      simp [sizesOf, sizesFrom, BlockSizes.first, BlockSizes.zero, hword]
    | some previous =>
      rw [sizesOf_append hlast]
      simp [BlockSizes.next, hword, hprior]

theorem blockBytes_plain (h : Plain words) (hfits : durationFreePayloadFitsAtMaxWords config)
    (hlen : words.length ≤ config.maxWords) :
    (sizesOf words).blockBytes config words.length ≤ config.maxPayloadBytes := by
  have hof := sizesOf_of words
  have hcount : (sizesOf words).payloadCount = 0 := by
    rw [hof.payloadCount, List.countP_eq_zero]
    intro word hm
    simp [(h word hm).2]
  have htime := hof.timestampBytes ▸ timestampBytesOf_le words
  have hvalue := Nat.mul_le_mul_left words.length (valueWidth_le (sizesOf words).maxValue)
  have hrestarts : (words.length + config.restartInterval - 1) / config.restartInterval ≤
      (config.maxWords + config.restartInterval - 1) / config.restartInterval :=
    Nat.div_le_div_right (by omega)
  have hbytes := Nat.mul_le_mul_right restartEntrySize hrestarts
  simp only [durationFreePayloadFitsAtMaxWords, decide_eq_true_eq] at hfits
  unfold BlockSizes.blockBytes
  simp only [hcount, durationBytes_plain h, Nat.lt_irrefl, if_false]
  omega

theorem durationFreeLoop_eq (hfits : durationFreePayloadFitsAtMaxWords config) (words : List Word) {prior : List Word}
    {originalLen accepted firstTimestamp : Nat} (hprior : Plain prior) (hwords : Plain words)
    (hlen : prior.length + words.length ≤ config.maxWords) (hcount : prior.length = originalLen + accepted) :
    durationFreeLoop config firstTimestamp words accepted (sizesOf prior) (prior.getLast?.map Word.time) =
      extendLoop config originalLen firstTimestamp words accepted (sizesOf prior) (prior.getLast?.map Word.time) := by
  induction words generalizing prior accepted with
  | nil =>
    cases prior.getLast?.map Word.time <;> rfl
  | cons word rest ih =>
    obtain ⟨hduration, hpayload⟩ := hwords word (by simp)
    rw [List.length_cons] at hlen
    have hplain : Plain (prior ++ [word]) := by
      intro other hm
      rcases List.mem_append.mp hm with hm | hm
      · exact hprior other hm
      · exact List.mem_singleton.mp hm ▸ ⟨hduration, hpayload⟩
    have hnext := @ih (prior ++ [word]) (accepted + 1) hplain (fun other hm => hwords other (by simp [hm]))
      (by simp; omega) (by simp; omega)
    rw [List.getLast?_concat, Option.map_some] at hnext
    cases hlast : prior.getLast? with
    | none =>
      obtain rfl : prior = [] := by simpa using hlast
      have hsizes : { sizesOf [] with
          timestampBytes := (sizesOf []).timestampBytes + encodedLen 0
          maxValue := max (sizesOf []).maxValue word.value.toNat } = sizesOf [word] := by
        simp [sizesOf, sizesFrom, BlockSizes.first, BlockSizes.zero, hduration, hpayload]
      rw [Option.map_none, durationFreeLoop, hsizes, extendLoop]
      exact hnext
    | some last =>
      have hroom : (sizesOf (prior ++ [word])).blockBytes config (prior.length + 1) ≤ config.maxPayloadBytes := by
        have h := blockBytes_plain hplain hfits (by simp; omega)
        rwa [List.length_append, List.length_singleton] at h
      have hsizes := sizesOf_append (show prior.getLast?.map Word.time = some last.time by rw [hlast]; rfl) word
      rw [Option.map_some, durationFreeLoop, extendLoop, ← hcount, ← hsizes]
      by_cases hclose : closesBefore config firstTimestamp last.time word
      · rw [if_pos hclose, if_pos (Or.inr hclose)]
      · rw [if_neg hclose, if_neg (by rintro (hfull | hgap) <;> [omega; exact hclose hgap])]
        dsimp only
        rw [if_neg (Nat.not_lt_of_le hroom), @durationFree_next _ prior.length _ _ hduration hpayload, ← hsizes]
        exact hnext

theorem absorbed_le_length (block words : List Word) : absorbed config block words ≤ words.length := by
  induction words generalizing block with
  | nil => exact le_rfl
  | cons word rest ih =>
    rw [absorbed, List.length_cons]
    split
    · exact Nat.succ_le_succ (ih _)
    · exact Nat.zero_le _

theorem absorbed_le_room (hmax : 0 < config.maxWords) (words : List Word) {block : List Word}
    (hlen : block.length ≤ config.maxWords) : absorbed config block words ≤ config.maxWords - block.length := by
  induction words generalizing block with
  | nil => exact Nat.zero_le _
  | cons word rest ih =>
    rw [absorbed]
    split
    next haccepts =>
      have hroom : block.length < config.maxWords := by
        cases hlast : block.getLast? with
        | none =>
          obtain rfl : block = [] := by simpa using hlast
          exact hmax
        | some last =>
          rw [accepts, hlast, decide_eq_true_eq] at haccepts
          exact haccepts.1
      have hrest := @ih (block ++ [word]) (by simp; omega)
      rw [List.length_append, List.length_singleton] at hrest
      omega
    next => exact Nat.zero_le _

theorem absorbed_take (words : List Word) {k : Nat} (h : absorbed config block words ≤ k) :
    absorbed config block (words.take k) = absorbed config block words := by
  induction words generalizing block k with
  | nil => rw [List.take_nil]
  | cons word rest ih =>
    rw [absorbed] at h ⊢
    cases k with
    | zero =>
      rw [Nat.le_zero.mp h]
      rfl
    | succ k =>
      rw [List.take_succ_cons, absorbed]
      split
      next haccepts =>
        rw [if_pos haccepts] at h
        rw [ih (Nat.le_of_succ_le_succ h)]
      next => rfl

end Loops

structure Exact (builder : WordBlockBuilder) : Prop where
  sized : builder.Sized
  sizes : builder.toBlockSizes = sizesOf builder.words

variable {builder : WordBlockBuilder}

theorem Exact.eq_builderOf (h : builder.Exact) : builder = builderOf builder.config builder.words := by
  obtain ⟨sizes, config, words⟩ := builder
  obtain rfl : sizes = sizesOf words := h.sizes
  rfl

theorem Exact.extendGeneral_eq (h : builder.Exact) (words : List Word) :
    builder.extendGeneral words = (absorbed builder.config builder.words words,
      builderOf builder.config (builder.words ++ words.take (absorbed builder.config builder.words words))) := by
  unfold extendGeneral
  rw [h.sizes]
  dsimp only
  rw [@extendLoop_eq _ words _ _ 0 _ rfl rfl, Nat.zero_add]
  rfl

theorem Exact.plain (h : builder.Exact) (hd : builder.durationCount = 0) (hp : builder.payloadCount = 0) :
    Plain builder.words := by
  intro word hm
  have hdurations := h.sized.fits.of.durationCount.symm.trans hd
  have hpayloads := h.sized.fits.of.payloadCount.symm.trans hp
  rw [List.countP_eq_zero] at hdurations hpayloads
  exact ⟨by simpa using hdurations word hm, by simpa using hpayloads word hm⟩

theorem Exact.extendDurationFree_eq (h : builder.Exact) (hfast : builder.TakesFastPath words) :
    builder.extendDurationFree words = (absorbed builder.config builder.words words,
      builderOf builder.config (builder.words ++ words.take (absorbed builder.config builder.words words))) := by
  obtain ⟨hd, hp, hfits, hall⟩ := hfast
  have hlen := h.sized.fits.length
  have hroom := @absorbed_le_room builder.config h.sized.maxWords_pos words _ hlen
  have hwords : Plain (words.take (builder.config.maxWords - builder.words.length)) := by
    intro word hm
    simpa [Word.isNumeric] using List.all_eq_true.mp hall word hm
  have hhead : ((builder.words ++ words).head?.map Word.time).getD 0 = ((builder.words ++
      words.take (builder.config.maxWords - builder.words.length)).head?.map Word.time).getD 0 := by
    cases hprior : builder.words with
    | nil =>
      rw [hprior] at hlen
      have hpos := h.sized.maxWords_pos
      rw [List.nil_append, List.nil_append, List.head?_take, if_neg (by simp; omega)]
    | cons first rest => rfl
  have hloop := (durationFreeLoop_eq hfits _ (h.plain hd hp) hwords (by rw [List.length_take]; omega)
    (Nat.add_zero _).symm).trans (extendLoop_eq _ (Nat.add_zero _).symm hhead)
  rw [absorbed_take words hroom, Nat.zero_add, List.take_take, min_eq_left hroom] at hloop
  unfold extendDurationFree
  rw [h.sizes]
  dsimp only
  rw [hloop]
  rfl

theorem Exact.extendOrdered_eq (h : builder.Exact) (words : List Word) :
    builder.extendOrdered words = (absorbed builder.config builder.words words,
      builderOf builder.config (builder.words ++ words.take (absorbed builder.config builder.words words))) := by
  rw [extendOrdered_eq_paths]
  split
  next hfast => exact h.extendDurationFree_eq hfast
  next => exact h.extendGeneral_eq words

theorem Exact.extend (h : builder.Exact) (words : List Word) :
    (builder.extendOrdered words).2.Exact := by
  obtain ⟨hsized, -⟩ := extendOrdered_spec h.sized (show builder.extendOrdered words = (_, _) from rfl)
  refine ⟨hsized, ?_⟩
  rw [h.extendOrdered_eq]
  rfl

theorem Exact.clear (h : builder.Exact) : builder.clear.Exact :=
  ⟨clear_sized h.sized, rfl⟩

theorem new_exact {config : BlockCodecConfig} (h : new config = .ok builder) :
    builder.Exact ∧ builder = builderOf config [] := by
  obtain ⟨hsized, hwords, hconfig⟩ := new_sized h
  have hexact : builder.Exact := ⟨hsized, by rw [hsized.fits.empty hwords, hwords]; rfl⟩
  refine ⟨hexact, ?_⟩
  have heq := hexact.eq_builderOf
  rwa [hwords, hconfig] at heq

/-- The states of a builder: what `extend_ordered` makes of a new one, with ordered words and a `clear`
behind every block. -/
inductive Reached (config : BlockCodecConfig) : WordBlockBuilder → Prop
  | new {builder : WordBlockBuilder} (h : WordBlockBuilder.new config = .ok builder) : Reached config builder
  | extend {builder : WordBlockBuilder} (prior : Reached config builder) {words : List Word}
      (ordered : Ordered (builder.words ++ words)) : Reached config (builder.extendOrdered words).2
  | clear {builder : WordBlockBuilder} (prior : Reached config builder) : Reached config builder.clear

theorem Reached.exact {config : BlockCodecConfig} (h : Reached config builder) : builder.Exact := by
  induction h with
  | new h => exact (new_exact h).1
  | extend prior ordered ih => exact ih.extend _
  | clear prior ih => exact ih.clear

/-- The loop of `append_batch_inner`: a block closes when words remain or its word limit is reached, and
an empty builder takes its place. -/
def appendLoop : Nat → WordBlockBuilder → List Word → List WordBlockBuilder × WordBlockBuilder
  | _, builder, [] => ([], builder)
  | 0, builder, _ :: _ => ([], builder)
  | fuel + 1, builder, word :: rest =>
    let (accepted, filled) := builder.extendOrdered (word :: rest)
    let remaining := (word :: rest).drop accepted
    if (remaining ≠ [] ∨ filled.isAtWordLimit) ∧ filled.words ≠ [] then
      let (blocks, last) := appendLoop fuel filled.clear remaining
      (filled :: blocks, last)
    else appendLoop fuel filled remaining

/-- Every second round at the latest takes a word, so the loop ends before its fuel. -/
def appendBatch (builder : WordBlockBuilder) (words : List Word) : List WordBlockBuilder × WordBlockBuilder :=
  appendLoop (2 * words.length + 2) builder words

def appendBatches : WordBlockBuilder → List (List Word) → List WordBlockBuilder × WordBlockBuilder
  | builder, [] => ([], builder)
  | builder, batch :: rest =>
    let (blocks, builder) := builder.appendBatch batch
    let (more, builder) := builder.appendBatches rest
    (blocks ++ more, builder)

def feedWord (config : BlockCodecConfig) (state : List (List Word) × List Word) (word : Word) :
    List (List Word) × List Word :=
  let state := if accepts config state.2 word then (state.1, state.2 ++ [word]) else (state.1 ++ [state.2], [word])
  if config.maxWords ≤ state.2.length then (state.1 ++ [state.2], []) else state

section Feed

variable {config : BlockCodecConfig} {word : Word}

theorem feedWord_done (done : List (List Word)) (state : List (List Word) × List Word) (word : Word) :
    feedWord config (done ++ state.1, state.2) word =
      (done ++ (feedWord config state word).1, (feedWord config state word).2) := by
  unfold feedWord
  split <;> dsimp only <;> split <;> simp

theorem foldl_feedWord_done (done : List (List Word)) (state : List (List Word) × List Word) (words : List Word) :
    words.foldl (feedWord config) (done ++ state.1, state.2) =
      (done ++ (words.foldl (feedWord config) state).1, (words.foldl (feedWord config) state).2) := by
  induction words generalizing state with
  | nil => rfl
  | cons word rest ih => rw [List.foldl_cons, List.foldl_cons, feedWord_done, ih]

theorem accepts_nil (word : Word) : accepts config [] word = true := rfl

theorem feedWord_refused (h : ¬accepts config block word) :
    feedWord config ([], block) word = feedWord config ([block], []) word := by
  unfold feedWord
  rw [if_neg h, if_pos (accepts_nil word)]
  rfl

theorem absorbed_stop (words : List Word) {block rest : List Word}
    (h : words.drop (absorbed config block words) = word :: rest) :
    ¬accepts config (block ++ words.take (absorbed config block words)) word := by
  induction words generalizing block with
  | nil => simp at h
  | cons first others ih =>
    rw [absorbed] at h ⊢
    split at h
    next haccepts =>
      rw [if_pos haccepts, List.take_succ_cons, ← List.singleton_append (l := List.take _ _), ← List.append_assoc]
      exact ih h
    next hrefuses =>
      obtain ⟨rfl, -⟩ := List.cons.inj h
      rwa [if_neg hrefuses, List.take_zero, List.append_nil]

theorem foldl_feedWord_absorbed (hmax : 0 < config.maxWords) (words : List Word) (hlen : block.length < config.maxWords) :
    (words.take (absorbed config block words)).foldl (feedWord config) ([], block) =
      if config.maxWords ≤ (block ++ words.take (absorbed config block words)).length
      then ([block ++ words.take (absorbed config block words)], [])
      else ([], block ++ words.take (absorbed config block words)) := by
  induction words generalizing block with
  | nil =>
    rw [List.take_nil, List.append_nil, if_neg (by omega)]
    rfl
  | cons word rest ih =>
    rw [absorbed]
    split
    next haccepts =>
      rw [List.take_succ_cons, List.foldl_cons, feedWord, if_pos haccepts]
      dsimp only
      split
      next hfull =>
        have hroom := @absorbed_le_room _ hmax rest (block ++ [word]) (by simp; omega)
        have hzero : absorbed config (block ++ [word]) rest = 0 := by omega
        rw [hzero, List.take_zero, if_pos hfull]
        rfl
      next hopen =>
        have hrest := @ih (block ++ [word]) (by omega)
        rw [hrest, List.append_assoc, List.singleton_append]
    next hrefuses =>
      rw [List.take_zero, List.append_nil, if_neg (by omega)]
      rfl

theorem foldl_feedWord_closed (block words : List Word) :
    words.foldl (feedWord config) ([block], []) =
      (block :: (words.foldl (feedWord config) ([], [])).1, (words.foldl (feedWord config) ([], [])).2) :=
  foldl_feedWord_done [block] ([], []) words

theorem foldl_feedWord_refused {block rest : List Word} (h : ¬accepts config block word) :
    (word :: rest).foldl (feedWord config) ([], block) = (word :: rest).foldl (feedWord config) ([block], []) := by
  rw [List.foldl_cons, List.foldl_cons, feedWord_refused h]

theorem appendLoop_eq (fuel : Nat) (words : List Word) (h : (builderOf config block).Exact)
    (hlen : block.length < config.maxWords) (hfuel : 2 * words.length + (if block = [] then 0 else 1) < fuel) :
    appendLoop fuel (builderOf config block) words =
      ((words.foldl (feedWord config) ([], block)).1.map (builderOf config),
        builderOf config (words.foldl (feedWord config) ([], block)).2) := by
  induction fuel generalizing words block with
  | zero => omega
  | succ fuel ih =>
    cases hwords : words with
    | nil => rfl
    | cons word rest =>
      rw [← hwords]
      have hpos : 0 < words.length := by simp [hwords]
      have hmax : 0 < config.maxWords := by omega
      have hextend := h.extendOrdered_eq words
      have hnext := h.extend words
      rw [hextend] at hnext
      have hsplit : words.foldl (feedWord config) ([], block) = (words.drop (absorbed config block words)).foldl
          (feedWord config) ((words.take (absorbed config block words)).foldl (feedWord config) ([], block)) := by
        rw [← List.foldl_append, List.take_append_drop]
      have hsome : block = [] → 0 < absorbed config block words := by
        rintro rfl
        rw [hwords, absorbed, if_pos (accepts_nil word)]
        omega
      have hle := @absorbed_le_length config block words
      have hfed := foldl_feedWord_absorbed hmax words hlen
      have hstop : ∀ {next later}, words.drop (absorbed config block words) = next :: later →
          ¬accepts config (block ++ words.take (absorbed config block words)) next := absorbed_stop words
      have hlength : (block ++ words.take (absorbed config block words)).length = block.length + absorbed config block words := by
        rw [List.length_append, List.length_take, min_eq_left hle]
      have hdrop : (words.drop (absorbed config block words)).length = words.length - absorbed config block words :=
        List.length_drop
      have hcleared : (builderOf config []).Exact := h.clear
      have hround : appendLoop (fuel + 1) (builderOf config block) words =
          if (words.drop (absorbed config block words) ≠ [] ∨
              (builderOf config (block ++ words.take (absorbed config block words))).isAtWordLimit) ∧
              block ++ words.take (absorbed config block words) ≠ [] then
            (builderOf config (block ++ words.take (absorbed config block words)) ::
              (appendLoop fuel (builderOf config []) (words.drop (absorbed config block words))).1,
              (appendLoop fuel (builderOf config []) (words.drop (absorbed config block words))).2)
          else appendLoop fuel (builderOf config (block ++ words.take (absorbed config block words)))
            (words.drop (absorbed config block words)) := by
        rw [hwords, appendLoop, ← hwords, hextend]
        rfl
      have hfilled : block ++ words.take (absorbed config block words) ≠ [] := by
        intro hnil
        rw [hnil, List.length_nil] at hlength
        have := hsome (List.length_eq_zero_iff.mp (by omega))
        omega
      have hlater := ih (words.drop (absorbed config block words)) hcleared hmax (by
        rw [hdrop, if_pos rfl]
        by_cases hnil : block = []
        · have := hsome hnil
          omega
        · rw [if_neg hnil] at hfuel
          omega)
      rw [hround, hsplit, hfed]
      generalize hremaining : words.drop (absorbed config block words) = remaining at hstop hlater ⊢
      generalize block ++ words.take (absorbed config block words) = filled at hnext hstop hlength hfilled ⊢
      by_cases hfull : config.maxWords ≤ filled.length
      · -- the block is at its word limit
        rw [if_pos hfull, if_pos ⟨Or.inr (decide_eq_true hfull), hfilled⟩, hlater, foldl_feedWord_closed]
        rfl
      · rw [if_neg hfull]
        cases remaining with
        | nil =>
          rw [if_neg (by rintro ⟨hbad | hbad, -⟩ <;> [exact hbad rfl; exact hfull (of_decide_eq_true hbad)])]
          cases fuel <;> rfl
        | cons next later =>
          -- the next word closes the block
          rw [if_pos ⟨Or.inl (by simp), hfilled⟩, hlater, foldl_feedWord_refused (hstop rfl), foldl_feedWord_closed]
          rfl

theorem appendBatch_eq (words : List Word) (h : (builderOf config block).Exact) (hlen : block.length < config.maxWords) :
    (builderOf config block).appendBatch words =
      ((words.foldl (feedWord config) ([], block)).1.map (builderOf config),
        builderOf config (words.foldl (feedWord config) ([], block)).2) :=
  appendLoop_eq _ words h hlen (by split <;> omega)

theorem feedWord_lt (hmax : 0 < config.maxWords) (state : List (List Word) × List Word) (word : Word) :
    (feedWord config state word).2.length < config.maxWords := by
  unfold feedWord
  generalize (if accepts config state.2 word then (state.1, state.2 ++ [word])
    else (state.1 ++ [state.2], [word])) = next
  dsimp only
  split
  · exact hmax
  · omega

theorem foldl_feedWord_lt (hmax : 0 < config.maxWords) (words : List Word) {state : List (List Word) × List Word}
    (hlen : state.2.length < config.maxWords) : (words.foldl (feedWord config) state).2.length < config.maxWords := by
  induction words generalizing state with
  | nil => exact hlen
  | cons word rest ih => exact ih (feedWord_lt hmax state word)

theorem appendBatch_exact (h : builder.Exact) (words : List Word) :
    (builder.appendBatch words).2.Exact := by
  unfold appendBatch
  generalize 2 * words.length + 2 = fuel
  induction fuel generalizing builder words with
  | zero => cases words <;> exact h
  | succ fuel ih =>
    cases words with
    | nil => exact h
    | cons word rest =>
      rw [appendLoop]
      dsimp only
      split
      · exact ih (h.extend _).clear _
      · exact ih (h.extend _) _

theorem appendBatches_eq (batches : List (List Word)) (h : (builderOf config block).Exact)
    (hlen : block.length < config.maxWords) :
    (builderOf config block).appendBatches batches =
      ((batches.flatten.foldl (feedWord config) ([], block)).1.map (builderOf config),
        builderOf config (batches.flatten.foldl (feedWord config) ([], block)).2) := by
  induction batches generalizing block with
  | nil => rfl
  | cons batch rest ih =>
    have hbatch := appendBatch_eq batch h hlen
    have hnext := appendBatch_exact h batch
    rw [hbatch] at hnext
    have hrest := ih hnext (foldl_feedWord_lt (Nat.zero_lt_of_lt hlen) batch hlen)
    have hfolded := @foldl_feedWord_done config (batch.foldl (feedWord config) ([], block)).1
      ([], (batch.foldl (feedWord config) ([], block)).2) rest.flatten
    rw [List.append_nil] at hfolded
    rw [appendBatches, hbatch, List.flatten_cons, List.foldl_append, hfolded]
    dsimp only
    rw [hrest, List.map_append]

end Feed

def finishedBlocks (builder : WordBlockBuilder) (batches : List (List Word)) : List WordBlockBuilder :=
  let (blocks, last) := builder.appendBatches batches
  if last.words = [] then blocks else blocks ++ [last]

def encodedBlocks (checksum : BlockChecksum) (builder : WordBlockBuilder) (batches : List (List Word)) :
    List (CodecResult (EncodedBlockMetadata × Bytes)) :=
  (builder.finishedBlocks batches).zipIdx.map fun (block, sequence) => block.encode checksum (UInt64.ofNat sequence)

end WordBlockBuilder

open WordBlockBuilder

/-- Batches of the same words close the same blocks, with the same bytes, since at every builder reached
the fast path and the general one take the same words and leave the same sizes. -/
theorem blocks_independent_of_batching (checksum : BlockChecksum) {config : BlockCodecConfig}
    {builder : WordBlockBuilder} (hnew : WordBlockBuilder.new config = .ok builder) {batches others : List (List Word)}
    (hsame : batches.flatten = others.flatten) :
    builder.appendBatches batches = builder.appendBatches others ∧
      builder.encodedBlocks checksum batches = builder.encodedBlocks checksum others ∧
      ∀ {reached : WordBlockBuilder}, Reached config reached → ∀ words, reached.TakesFastPath words →
        reached.extendDurationFree words = reached.extendGeneral words := by
  obtain ⟨hexact, hbuilder⟩ := new_exact hnew
  have hlen : ([] : List Word).length < config.maxWords := by
    have hpos := hexact.sized.maxWords_pos
    rw [hbuilder] at hpos
    exact hpos
  have hblocks : builder.appendBatches batches = builder.appendBatches others := by
    rw [hbuilder] at hexact ⊢
    rw [appendBatches_eq batches hexact hlen, appendBatches_eq others hexact hlen, hsame]
  refine ⟨hblocks, ?_, fun h words hfast => ?_⟩
  · unfold encodedBlocks finishedBlocks
    rw [hblocks]
  · rw [h.exact.extendDurationFree_eq hfast, h.exact.extendGeneral_eq]

/-- Blocks of two words: three words in one batch and in three finish one block. -/
theorem blocks_independent_of_batching_three :
    let builder := builderOf ⟨2, 64, 4096, 1000, 1000⟩ []
    let batch : List (List Word) := [[.new 1 0, .new 2 5, .new 3 5]]
    let single : List (List Word) := [[.new 1 0], [.new 2 5], [.new 3 5]]
    (builder.appendBatches batch).1.map WordBlockBuilder.words = [[.new 1 0, .new 2 5]] ∧
      builder.appendBatches batch = builder.appendBatches single ∧
      builder.encodedBlocks .crc32c batch = builder.encodedBlocks .crc32c single := by
  obtain ⟨hblocks, hbytes, -⟩ := @blocks_independent_of_batching .crc32c ⟨2, 64, 4096, 1000, 1000⟩ _ rfl
    [[.new 1 0, .new 2 5, .new 3 5]] [[.new 1 0], [.new 2 5], [.new 3 5]] rfl
  exact ⟨by decide, hblocks, hbytes⟩

end LogicConduit
