import LogicConduit.GateLevels
import LogicConduit.PacketFraming
import Mathlib.Data.List.Chain

namespace LogicConduit

def levelFrom (level : Bool) (stream : List Sample) (t : UInt64) : Bool :=
  (((stream.filter (·.startTimeNs ≤ t)).map Sample.value).getLast?).getD level

variable {t : UInt64}

theorem levelFrom_cons {first : Sample} (h : first.startTimeNs ≤ t) (level : Bool) (stream : List Sample) :
    levelFrom level (first :: stream) t = levelFrom first.value stream t := by
  rw [levelFrom, List.filter_cons_of_pos (by simpa using h), List.map_cons, List.getLast?_cons]
  rfl

theorem levelFrom_before {stream : List Sample} (h : ∀ sample ∈ stream, t < sample.startTimeNs) (level : Bool) :
    levelFrom level stream t = level := by
  have hnone : stream.filter (fun sample => decide (sample.startTimeNs ≤ t)) = [] :=
    List.filter_eq_nil_iff.mpr fun sample hmem => by simpa using h sample hmem
  rw [levelFrom, hnone]
  rfl

/-- A time between two words, at which no packet goes on from the one to the other. -/
def Broken (breaks : List UInt64) (u v : Word) : Prop := ∃ t ∈ breaks, u.timestampNs < t ∧ t ≤ v.timestampNs

namespace Framing

def closures (framing : Framing) : Bool → List Sample → List UInt64
  | _, [] => []
  | level, sample :: gates =>
    (if framing.activeAt level && !framing.activeAt sample.value then [sample.startTimeNs] else []) ++
      framing.closures sample.value gates

def breaks (framing : Framing) (level : Bool) (gates : List Sample) (boundaries : List TimestampEvent) : List UInt64 :=
  boundaries.map TimestampEvent.timestampNs ++ framing.closures level gates

def letsThrough (framing : Framing) (gates : List Sample) (word : Word) : Bool :=
  framing.activeAt (streamLevel gates word.timestampNs)

def keeps (framing : Framing) (gates : List Sample) (word : Word) : Bool :=
  framing.letsThrough gates word && !framing.isExcluded word

structure IsPacket (framing : Framing) (breaks : List UInt64) (packet : List Word) : Prop where
  nonempty : packet ≠ []
  fixed : ∀ count ∈ framing.fixedWordCount, packet.length ≤ count
  maximum : packet.length ≤ framing.maximumWords
  delimiter : ∀ word ∈ packet.dropLast, framing.isDelimiter word = false
  unbroken : packet.Pairwise fun u v => ¬Broken breaks u v
  near : packet.IsChain fun u v => ¬framing.GapBetween u v

def Between (framing : Framing) (gates : List Sample) (breaks : List UInt64) (words packet : List Word) (u v : Word) :
    Prop :=
  framing.Full packet ∨ framing.isDelimiter u = true ∨
    (∃ delimiter, framing.isDelimiter delimiter = true ∧ framing.letsThrough gates delimiter = true ∧
      [u, delimiter, v].Sublist words) ∨ Broken breaks u v ∨ framing.GapBetween u v

/-- What ends the first of two packets lies between its last word and the first word of the other. -/
def Apart (framing : Framing) (gates : List Sample) (breaks : List UInt64) (words first second : List Word) : Prop :=
  ∀ u ∈ first.getLast?, ∀ v ∈ second.head?, framing.Between gates breaks words first u v

/-- Packets that hold the kept words in order, each for itself and apart from the next. -/
structure Partition (framing : Framing) (gates : List Sample) (breaks : List UInt64) (words : List Word)
    (packets : List (List Word)) : Prop where
  content : packets.flatten = words.filter (framing.keeps gates)
  each : ∀ packet ∈ packets, framing.IsPacket breaks packet
  apart : packets.IsChain (framing.Apart gates breaks words)

/-- Words that a packet may still go on from. -/
structure Open (framing : Framing) (breaks : List UInt64) (current : List Word) : Prop where
  room : ¬framing.Full current
  delimiter : ∀ word ∈ current, framing.isDelimiter word = false
  unbroken : current.Pairwise fun u v => ¬Broken breaks u v
  near : current.IsChain fun u v => ¬framing.GapBetween u v

structure Gathered (framing : Framing) (gates : List Sample) (breaks : List UInt64) (words : List Word)
    (packets : List (List Word)) (current done rest : List Word) : Prop where
  split : words = done ++ rest
  content : packets.flatten ++ current = done.filter (framing.keeps gates)
  each : ∀ packet ∈ packets, framing.IsPacket breaks packet
  apart : packets.IsChain (framing.Apart gates breaks words)

/-- Whatever word follows, it is not in the packet that ended with the word `u`. -/
def Severed (framing : Framing) (gates : List Sample) (breaks : List UInt64) (packet done rest : List Word) (u : Word) :
    Prop :=
  framing.Full packet ∨ framing.isDelimiter u = true ∨
    (∃ delimiter, framing.isDelimiter delimiter = true ∧ framing.letsThrough gates delimiter = true ∧
      [u, delimiter].Sublist done) ∨ ∃ t ∈ breaks, u.timestampNs < t ∧ ∀ word ∈ rest, t ≤ word.timestampNs

variable {framing : Framing} {gates : List Sample} {breaks : List UInt64} {words : List Word}
  {packets : List (List Word)} {current done rest packet : List Word} {u v word : Word}

theorem Severed.between (h : framing.Severed gates breaks packet done rest u) (hv : v ∈ rest) :
    framing.Between gates breaks (done ++ rest) packet u v := by
  rcases h with hfull | hdelimiter | ⟨delimiter, hd, hactive, hsub⟩ | ⟨t, ht, hafter, hbefore⟩
  · exact .inl hfull
  · exact .inr (.inl hdelimiter)
  · have hall : ([u, delimiter] ++ [v]).Sublist (done ++ rest) := hsub.append (List.singleton_sublist.mpr hv)
    exact .inr (.inr (.inl ⟨delimiter, hd, hactive, hall⟩))
  · exact .inr (.inr (.inr (.inl ⟨t, ht, hafter, hbefore v hv⟩)))

theorem Severed.next (h : framing.Severed gates breaks packet done (word :: rest) u) :
    framing.Severed gates breaks packet (done ++ [word]) rest u := by
  rcases h with hfull | hdelimiter | ⟨delimiter, hd, hactive, hsub⟩ | ⟨t, ht, hafter, hbefore⟩
  · exact .inl hfull
  · exact .inr (.inl hdelimiter)
  · exact .inr (.inr (.inl ⟨delimiter, hd, hactive, hsub.trans (List.sublist_append_left done [word])⟩))
  · exact .inr (.inr (.inr ⟨t, ht, hafter, fun later hmem => hbefore later (List.mem_cons_of_mem word hmem)⟩))

section

variable (h : framing.Open breaks current)
include h

theorem Open.lt_fixed {count : Nat} (hcount : count ∈ framing.fixedWordCount) :
    current.length < count :=
  Nat.lt_of_not_le fun hle => h.room (.inl ⟨count, hcount, hle⟩)

theorem Open.lt_maximum : current.length < framing.maximumWords :=
  Nat.lt_of_not_le fun hle => h.room (.inr hle)

theorem Open.isPacket (hne : current ≠ []) : framing.IsPacket breaks current where
  nonempty := hne
  fixed _ hcount := Nat.le_of_lt (h.lt_fixed hcount)
  maximum := Nat.le_of_lt h.lt_maximum
  delimiter word hmem := h.delimiter word (List.dropLast_subset current hmem)
  unbroken := h.unbroken
  near := h.near

/-- A word right behind the gathered ones may end the packet. -/
theorem Open.push (hunbroken : ∀ u ∈ current, ¬Broken breaks u word)
    (hnear : ∀ u ∈ current.getLast?, ¬framing.GapBetween u word) : framing.IsPacket breaks (current ++ [word]) where
  nonempty := List.append_ne_nil_of_right_ne_nil _ (List.cons_ne_nil _ _)
  fixed count hcount := by
    rw [List.length_append, List.length_singleton]
    exact h.lt_fixed hcount
  maximum := by
    rw [List.length_append, List.length_singleton]
    exact h.lt_maximum
  delimiter word hmem := by
    rw [List.dropLast_concat] at hmem
    exact h.delimiter word hmem
  unbroken := List.pairwise_append.mpr ⟨h.unbroken, List.pairwise_singleton _ _, fun u hu v hv => by
    rw [List.mem_singleton.mp hv]
    exact hunbroken u hu⟩
  near := List.isChain_append.mpr ⟨h.near, List.IsChain.singleton _, fun u hu v hv => by
    rw [← Option.some.inj hv]
    exact hnear u hu⟩

theorem Open.extend (hunbroken : ∀ u ∈ current, ¬Broken breaks u word)
    (hnear : ∀ u ∈ current.getLast?, ¬framing.GapBetween u word) (hroom : ¬framing.Full (current ++ [word]))
    (hdelimiter : framing.isDelimiter word = false) : framing.Open breaks (current ++ [word]) where
  room := hroom
  delimiter later hmem := by
    rcases List.mem_append.mp hmem with hmem | hmem
    · exact h.delimiter later hmem
    · rw [List.mem_singleton.mp hmem]
      exact hdelimiter
  unbroken := (h.push hunbroken hnear).unbroken
  near := (h.push hunbroken hnear).near

end

theorem open_nil (hcount : ∀ count ∈ framing.fixedWordCount, 0 < count) (hmaximum : 0 < framing.maximumWords) :
    framing.Open breaks [] where
  room hfull := by
    rcases hfull with ⟨count, hmem, hle⟩ | hle
    · exact Nat.not_lt_of_le hle (hcount count hmem)
    · exact Nat.not_lt_of_le hle hmaximum
  delimiter word hmem := by cases hmem
  unbroken := List.Pairwise.nil
  near := List.IsChain.nil

theorem Open.empty (h : framing.Open breaks current) : framing.Open breaks [] :=
  open_nil (fun _ hcount => Nat.zero_lt_of_lt (h.lt_fixed hcount)) (Nat.zero_lt_of_lt h.lt_maximum)

section

variable (h : framing.Gathered gates breaks words packets current done (word :: rest))
include h

theorem Gathered.skip (hkeeps : framing.keeps gates word = false) :
    framing.Gathered gates breaks words packets current (done ++ [word]) rest where
  split := by rw [h.split, List.append_assoc, List.singleton_append]
  content := by
    rw [h.content, List.filter_append, List.filter_cons_of_neg (by simp [hkeeps]), List.filter_nil, List.append_nil]
  each := h.each
  apart := h.apart

theorem Gathered.take (hkeeps : framing.keeps gates word = true) :
    framing.Gathered gates breaks words packets (current ++ [word]) (done ++ [word]) rest where
  split := by rw [h.split, List.append_assoc, List.singleton_append]
  content := by
    rw [← List.append_assoc, h.content, List.filter_append, List.filter_cons_of_pos hkeeps, List.filter_nil]
  each := h.each
  apart := h.apart

end

theorem Gathered.close (h : framing.Gathered gates breaks words packets current done rest)
    (hpacket : framing.IsPacket breaks current)
    (hapart : ∀ last ∈ packets.getLast?, framing.Apart gates breaks words last current) :
    framing.Gathered gates breaks words (packets ++ [current]) [] done rest where
  split := h.split
  content := by rw [List.flatten_concat, List.append_nil, h.content]
  each packet hmem := by
    rcases List.mem_append.mp hmem with hmem | hmem
    · exact h.each packet hmem
    · rw [List.mem_singleton.mp hmem]
      exact hpacket
  apart := List.isChain_append.mpr ⟨h.apart, List.IsChain.singleton _, fun last hlast packet hpacket => by
    rw [← Option.some.inj hpacket]
    exact hapart last hlast⟩

/-- How the last packet ended: apart from the words gathered since, or else from whatever follows. -/
def Joint (framing : Framing) (gates : List Sample) (breaks : List UInt64) (words : List Word)
    (packets : List (List Word)) (current done rest : List Word) : Prop :=
  ∀ last ∈ packets.getLast?, ∀ u ∈ last.getLast?,
    (current = [] → framing.Severed gates breaks last done rest u) ∧
      ∀ v ∈ current.head?, framing.Between gates breaks words last u v

theorem joint_closed (hsevered : ∀ u ∈ current.getLast?, framing.Severed gates breaks current done rest u) :
    framing.Joint gates breaks words (packets ++ [current]) [] done rest := by
  intro last hlast u hu
  rw [List.getLast?_concat] at hlast
  rw [← Option.some.inj hlast] at hu ⊢
  exact ⟨fun _ => hsevered u hu, fun v hv => by cases hv⟩

theorem Gathered.mem_done (h : framing.Gathered gates breaks words packets current done rest) (hp : packet ∈ packets)
    (hu : u ∈ packet) : u ∈ done := by
  have hmem : u ∈ done.filter (framing.keeps gates) := by
    rw [← h.content]
    exact List.mem_append_left _ (List.mem_flatten.mpr ⟨packet, hp, hu⟩)
  exact List.mem_of_mem_filter hmem

section Gather

variable (h : framing.Gathered gates breaks words packets current done (word :: rest))
  (hjoint : ∀ last ∈ packets.getLast?, ∀ u ∈ last.getLast?,
    (current = [] → framing.Severed gates breaks last done (word :: rest) u ∨ framing.GapBetween u word) ∧
      ∀ v ∈ current.head?, framing.Between gates breaks words last u v)

include h hjoint

theorem Gathered.apart_push :
    ∀ last ∈ packets.getLast?, framing.Apart gates breaks words last (current ++ [word]) := by
  intro last hlast u hu v hv
  cases current with
  | nil =>
    have hword : word = v := Option.some.inj hv
    rw [← hword, h.split]
    rcases (hjoint last hlast u hu).1 rfl with hsevered | hgap
    · exact hsevered.between List.mem_cons_self
    · exact .inr (.inr (.inr (.inr hgap)))
  | cons first later => exact (hjoint last hlast u hu).2 v hv

theorem Gathered.exclude (hopen : framing.Open breaks current) (hlets : framing.letsThrough gates word = true)
    (hexcluded : framing.isExcluded word = true) :
    framing.Gathered gates breaks words (packets ++ (framing.withWords current).closed) [] (done ++ [word]) rest ∧
      framing.Joint gates breaks words (packets ++ (framing.withWords current).closed) [] (done ++ [word]) rest := by
  have hkeeps : framing.keeps gates word = false := by rw [keeps, hexcluded, Bool.not_true, Bool.and_false]
  have hdelimiter : framing.isDelimiter word = true := (Bool.and_eq_true_iff.mp hexcluded).1
  have hafter (u : Word) (hu : u ∈ done) (packet : List Word) :
      framing.Severed gates breaks packet (done ++ [word]) rest u :=
    .inr (.inr (.inl ⟨word, hdelimiter, hlets, (List.singleton_sublist.mpr hu).append (List.Sublist.refl [word])⟩))
  by_cases hempty : current = []
  · subst hempty
    rw [show (framing.withWords []).closed = [] from rfl, List.append_nil]
    refine ⟨h.skip hkeeps, fun last hlast u hu => ⟨fun _ => ?_, fun v hv => by cases hv⟩⟩
    exact hafter u (h.mem_done (List.mem_of_getLast? hlast) (List.mem_of_getLast? hu)) last
  · have hclosed : (framing.withWords current).closed = [current] := if_neg hempty
    rw [hclosed]
    refine ⟨(h.skip hkeeps).close (hopen.isPacket hempty) fun last hlast u hu => (hjoint last hlast u hu).2,
      joint_closed fun u hu => hafter u ?_ current⟩
    have hmem : u ∈ done.filter (framing.keeps gates) := by
      rw [← h.content]
      exact List.mem_append_right _ (List.mem_of_getLast? hu)
    exact List.mem_of_mem_filter hmem

theorem Gathered.gather (hopen : framing.Open breaks current) (hlets : framing.letsThrough gates word = true)
    (hunbroken : ∀ u ∈ current, ¬Broken breaks u word) (hnear : ∀ u ∈ current.getLast?, ¬framing.GapBetween u word) :
    framing.Gathered gates breaks words (packets ++ (framing.gather current word).1) (framing.gather current word).2
        (done ++ [word]) rest ∧
      framing.Open breaks (framing.gather current word).2 ∧
      framing.Joint gates breaks words (packets ++ (framing.gather current word).1) (framing.gather current word).2
        (done ++ [word]) rest := by
  rw [Framing.gather]
  split
  · next hexcluded =>
    obtain ⟨hgathered, hafter⟩ := h.exclude hjoint hopen hlets hexcluded
    exact ⟨hgathered, hopen.empty, hafter⟩
  · next hexcluded =>
    have hkeeps : framing.keeps gates word = true := by
      rw [keeps, hlets, Bool.eq_false_iff.mpr hexcluded]
      rfl
    split
    · next hends =>
      refine ⟨(h.take hkeeps).close (hopen.push hunbroken hnear) (h.apart_push hjoint), hopen.empty,
        joint_closed fun u hu => ?_⟩
      rw [List.getLast?_concat] at hu
      rw [← Option.some.inj hu]
      exact hends.elim (fun hdelimiter => .inr (.inl hdelimiter)) .inl
    · next hgoes =>
      rw [not_or] at hgoes
      rw [List.append_nil]
      refine ⟨h.take hkeeps, hopen.extend hunbroken hnear hgoes.2 (Bool.eq_false_iff.mpr hgoes.1),
        fun last hlast u hu => ⟨fun hempty => ?_, fun v hv => h.apart_push hjoint last hlast u hu v hv⟩⟩
      exact absurd hempty (List.append_ne_nil_of_right_ne_nil _ (List.cons_ne_nil _ _))

end Gather

theorem Gathered.cut (h : framing.Gathered gates breaks words packets current done rest)
    (hopen : framing.Open breaks current) (hjoint : framing.Joint gates breaks words packets current done rest)
    (ht : t ∈ breaks) (hbehind : ∀ u ∈ current, u.timestampNs < t) (hrest : ∀ word ∈ rest, t ≤ word.timestampNs) :
    framing.Gathered gates breaks words (packets ++ (framing.withWords current).closed) [] done rest ∧
      framing.Joint gates breaks words (packets ++ (framing.withWords current).closed) [] done rest := by
  by_cases hempty : current = []
  · subst hempty
    rw [show (framing.withWords []).closed = [] from rfl, List.append_nil]
    exact ⟨h, hjoint⟩
  · have hclosed : (framing.withWords current).closed = [current] := if_neg hempty
    rw [hclosed]
    refine ⟨h.close (hopen.isPacket hempty) fun last hlast u hu => (hjoint last hlast u hu).2,
      joint_closed fun u hu => ?_⟩
    exact .inr (.inr (.inr ⟨t, ht, hbehind u (List.mem_of_getLast? hu), hrest⟩))

theorem mem_closures {level : Bool} (h : t ∈ framing.closures level gates) :
    ∃ sample ∈ gates, sample.startTimeNs = t := by
  induction gates generalizing level with
  | nil => cases h
  | cons sample gates ih =>
    rcases List.mem_append.mp h with h | h
    · split at h
      · exact ⟨sample, List.mem_cons_self, (List.mem_singleton.mp h).symm⟩
      · cases h
    · obtain ⟨later, hmem, ht⟩ := ih h
      exact ⟨later, List.mem_cons_of_mem sample hmem, ht⟩

/-- What the streams still hold lies behind the gathered words, and all else does not lie behind any word left. -/
structure Ahead (framing : Framing) (gates : List Sample) (breaks : List UInt64) (current rest : List Word)
    (level : Bool) (left : List Sample) (boundaries : List TimestampEvent) : Prop where
  levels : ∀ word ∈ rest, streamLevel gates word.timestampNs = levelFrom level left word.timestampNs
  known : ∀ t ∈ framing.breaks level left boundaries, t ∈ breaks
  passed : ∀ t ∈ breaks, t ∈ framing.breaks level left boundaries ∨ ∀ word ∈ current ++ rest, t ≤ word.timestampNs
  behind : ∀ t ∈ framing.breaks level left boundaries, ∀ u ∈ current, u.timestampNs < t

section Ahead

variable {level : Bool} {left : List Sample} {boundaries : List TimestampEvent} {sample : Sample}
  {event : TimestampEvent} {current' : List Word}

theorem Ahead.gate (h : framing.Ahead gates breaks current rest level (sample :: left) boundaries)
    (hrest : ∀ word ∈ rest, sample.startTimeNs ≤ word.timestampNs) (hsub : current' ⊆ current)
    (hcloses : (framing.activeAt level && !framing.activeAt sample.value) = true → current' = []) :
    framing.Ahead gates breaks current' rest sample.value left boundaries := by
  have hfewer : framing.breaks sample.value left boundaries ⊆ framing.breaks level (sample :: left) boundaries := by
    intro t ht
    rcases List.mem_append.mp ht with ht | ht
    · exact List.mem_append_left _ ht
    · exact List.mem_append_right _ (List.mem_append_right _ ht)
  refine ⟨fun word hmem => ?_, fun t ht => h.known t (hfewer ht), fun t ht => ?_,
    fun t ht u hu => h.behind t (hfewer ht) u (hsub hu)⟩
  · rw [h.levels word hmem, levelFrom_cons (hrest word hmem)]
  · rcases h.passed t ht with hleft | hpast
    · rcases List.mem_append.mp hleft with hleft | hleft
      · exact .inl (List.mem_append_left _ hleft)
      · rcases List.mem_append.mp hleft with hnow | hleft
        · split at hnow
          · next hcloses' =>
            refine .inr fun word hmem => ?_
            rw [hcloses hcloses', List.nil_append] at hmem
            rw [List.mem_singleton.mp hnow]
            exact hrest word hmem
          · cases hnow
        · exact .inl (List.mem_append_right _ hleft)
    · refine .inr fun word hmem => hpast word ?_
      exact List.append_subset.mpr ⟨fun _ hu => List.mem_append_left _ (hsub hu), List.subset_append_right _ _⟩ hmem

theorem Ahead.boundary (h : framing.Ahead gates breaks current rest level left (event :: boundaries))
    (hrest : ∀ word ∈ rest, event.timestampNs ≤ word.timestampNs) :
    framing.Ahead gates breaks [] rest level left boundaries := by
  refine ⟨h.levels, fun t ht => h.known t (List.mem_cons_of_mem _ ht), fun t ht => ?_, fun t _ u hu => by cases hu⟩
  rcases h.passed t ht with hleft | hpast
  · rcases List.mem_cons.mp hleft with rfl | hleft
    · exact .inr hrest
    · exact .inl hleft
  · exact .inr fun word hmem => hpast word (List.mem_append_right _ hmem)

theorem lt_breaks (hgate : ∀ sample ∈ left, word.timestampNs < sample.startTimeNs)
    (hboundary : ∀ event ∈ boundaries, word.timestampNs < event.timestampNs)
    (ht : t ∈ framing.breaks level left boundaries) : word.timestampNs < t := by
  rcases List.mem_append.mp ht with ht | ht
  · obtain ⟨event, hmem, rfl⟩ := List.mem_map.mp ht
    exact hboundary event hmem
  · obtain ⟨sample, hmem, rfl⟩ := mem_closures ht
    exact hgate sample hmem

section

variable (h : framing.Ahead gates breaks current (word :: rest) level left boundaries)
include h

section

variable (hgate : ∀ sample ∈ left, word.timestampNs < sample.startTimeNs)
include hgate

section

variable (hboundary : ∀ event ∈ boundaries, word.timestampNs < event.timestampNs)
include hboundary

theorem Ahead.pass
    (hsub : current' ⊆ current ++ [word]) : framing.Ahead gates breaks current' rest level left boundaries := by
  refine ⟨fun later hmem => h.levels later (List.mem_cons_of_mem word hmem), h.known, fun t ht => ?_,
    fun t ht u hu => ?_⟩
  · refine (h.passed t ht).imp_right fun hpast later hmem => hpast later ?_
    rw [List.append_cons]
    exact List.append_subset.mpr ⟨fun _ hu => List.mem_append_left _ (hsub hu), List.subset_append_right _ _⟩ hmem
  · rcases List.mem_append.mp (hsub hu) with hu | hu
    · exact h.behind t ht u hu
    · rw [List.mem_singleton.mp hu]
      exact lt_breaks hgate hboundary ht

theorem Ahead.unbroken (hu : u ∈ current) : ¬Broken breaks u word := by
  rintro ⟨t, ht, hafter, hbefore⟩
  rcases h.passed t ht with hleft | hpast
  · exact UInt64.not_lt.mpr hbefore (lt_breaks hgate hboundary hleft)
  · exact UInt64.not_lt.mpr (hpast u (List.mem_append_left _ hu)) hafter

end

theorem Ahead.letsThrough : framing.letsThrough gates word = framing.activeAt level := by
  rw [Framing.letsThrough, h.levels word List.mem_cons_self, levelFrom_before hgate]

end

end

end Ahead

/-- What the packets so far, the gathered words and the streams are to each other. -/
structure Reached (framing : Framing) (gates : List Sample) (breaks : List UInt64) (words : List Word)
    (packets : List (List Word)) (current done rest : List Word) (level : Bool) (left : List Sample)
    (boundaries : List TimestampEvent) : Prop where
  gathered : framing.Gathered gates breaks words packets current done rest
  isOpen : framing.Open breaks current
  joint : framing.Joint gates breaks words packets current done rest
  ahead : framing.Ahead gates breaks current rest level left boundaries

section Step

variable {level : Bool} {left : List Sample} {boundaries : List TimestampEvent} {sample : Sample}
  {event : TimestampEvent}

def holding (framing : Framing) (level : Bool) (current : List Word) : Framing :=
  { framing with gateLevel := level, words := current }

theorem Reached.gate (h : framing.Reached gates breaks words packets current done rest level (sample :: left) boundaries)
    (hrest : ∀ word ∈ rest, sample.startTimeNs ≤ word.timestampNs) :
    ∃ closed current', (framing.holding level current).addEvent (.gate sample) =
        (closed, framing.holding sample.value current') ∧
      framing.Reached gates breaks words (packets ++ closed) current' done rest sample.value left boundaries := by
  by_cases hcloses : (framing.activeAt level && !framing.activeAt sample.value) = true
  · have htime : sample.startTimeNs ∈ framing.breaks level (sample :: left) boundaries := by
      refine List.mem_append_right _ (List.mem_append_left _ ?_)
      rw [if_pos hcloses]
      exact List.mem_singleton_self _
    obtain ⟨hgathered, hjoint⟩ := h.gathered.cut h.isOpen h.joint (h.ahead.known _ htime) (h.ahead.behind _ htime) hrest
    exact ⟨_, [], if_pos hcloses, hgathered, h.isOpen.empty, hjoint,
      h.ahead.gate hrest (List.nil_subset _) fun _ => rfl⟩
  · refine ⟨[], current, if_neg hcloses, ?_⟩
    rw [List.append_nil]
    exact ⟨h.gathered, h.isOpen, h.joint, h.ahead.gate hrest (List.Subset.refl _) fun hcloses' => absurd hcloses' hcloses⟩

theorem Reached.boundary
    (h : framing.Reached gates breaks words packets current done rest level left (event :: boundaries))
    (hrest : ∀ word ∈ rest, event.timestampNs ≤ word.timestampNs) :
    framing.Reached gates breaks words (packets ++ (framing.withWords current).closed) [] done rest level left
      boundaries := by
  have htime : event.timestampNs ∈ framing.breaks level left (event :: boundaries) := List.mem_cons_self
  obtain ⟨hgathered, hjoint⟩ := h.gathered.cut h.isOpen h.joint (h.ahead.known _ htime) (h.ahead.behind _ htime) hrest
  exact ⟨hgathered, h.isOpen.empty, hjoint, h.ahead.boundary hrest⟩

theorem gather_subset (framing : Framing) (current : List Word) (word : Word) :
    (framing.gather current word).2 ⊆ current ++ [word] := by
  unfold gather
  split
  · exact List.nil_subset _
  · split
    · exact List.nil_subset _
    · exact List.Subset.refl _

theorem exists_gap {current : List Word} (h : (framing.holding level current).gapBefore v = true) :
    ∃ u ∈ current.getLast?, framing.GapBetween u v := by
  obtain ⟨u, hu, hgap⟩ := (Option.any_eq_true _ _).mp h
  exact ⟨u, hu, of_decide_eq_true hgap⟩

theorem gapBefore_of {current : List Word} (hu : u ∈ current.getLast?) (h : framing.GapBetween u v) :
    (framing.holding level current).gapBefore v = true :=
  (Option.any_eq_true _ _).mpr ⟨u, hu, decide_eq_true h⟩

theorem Reached.pass (h : framing.Reached gates breaks words packets current done (v :: rest) level left boundaries)
    (hgate : ∀ sample ∈ left, v.timestampNs < sample.startTimeNs)
    (hboundary : ∀ event ∈ boundaries, v.timestampNs < event.timestampNs) :
    framing.Reached gates breaks words (packets ++ ((framing.holding level current).addWord v).1)
      ((framing.holding level current).addWord v).2 (done ++ [v]) rest level left boundaries := by
  have hunbroken (u : Word) (hu : u ∈ current) : ¬Broken breaks u v := h.ahead.unbroken hgate hboundary hu
  have hlets := h.ahead.letsThrough hgate
  unfold addWord
  split
  · next hinactive =>
    rw [List.append_nil]
    have hkeeps : framing.keeps gates v = false := by
      rw [keeps, hlets, show framing.activeAt level = false from hinactive, Bool.false_and]
    refine ⟨h.gathered.skip hkeeps, h.isOpen, fun last hlast u hu => ⟨fun hempty => ?_, ?_⟩,
      h.ahead.pass hgate hboundary (List.subset_append_left _ _)⟩
    · exact ((h.joint last hlast u hu).1 hempty).next
    · exact (h.joint last hlast u hu).2
  · next hactive =>
    rw [show framing.activeAt level = true from Bool.eq_true_of_not_eq_false hactive] at hlets
    split
    · next hgap =>
      obtain ⟨u, hu, hbetween⟩ := exists_gap hgap
      have hne : current ≠ [] := List.ne_nil_of_mem (List.mem_of_getLast? hu)
      have hclosed : (framing.holding level current).closed = [current] := if_neg hne
      rw [hclosed, ← List.append_assoc]
      have hends := h.gathered.close (h.isOpen.isPacket hne) fun last hlast u hu => (h.joint last hlast u hu).2
      have hjoint : ∀ last ∈ (packets ++ [current]).getLast?, ∀ u ∈ last.getLast?,
          (([] : List Word) = [] → framing.Severed gates breaks last done (v :: rest) u ∨ framing.GapBetween u v) ∧
            ∀ w ∈ ([] : List Word).head?, framing.Between gates breaks words last u w := by
        intro last hlast u' hu'
        rw [List.getLast?_concat] at hlast
        rw [← Option.some.inj hlast, Option.mem_def, hu] at hu'
        rw [← Option.some.inj hu']
        exact ⟨fun _ => .inr hbetween, fun w hw => by cases hw⟩
      obtain ⟨hgathered, hopen, hafter⟩ := hends.gather hjoint h.isOpen.empty hlets (fun u hu => by cases hu)
        (fun u hu => by cases hu)
      refine ⟨hgathered, hopen, hafter, h.ahead.pass hgate hboundary fun w hw => ?_⟩
      exact List.mem_append_right _ (gather_subset framing [] v hw)
    · next hgap =>
      have hnear (u : Word) (hu : u ∈ current.getLast?) : ¬framing.GapBetween u v :=
        fun hbetween => hgap (gapBefore_of hu hbetween)
      have hjoint : ∀ last ∈ packets.getLast?, ∀ u ∈ last.getLast?,
          (current = [] → framing.Severed gates breaks last done (v :: rest) u ∨ framing.GapBetween u v) ∧
            ∀ w ∈ current.head?, framing.Between gates breaks words last u w :=
        fun last hlast u hu => (h.joint last hlast u hu).imp_left fun hsevered hempty => .inl (hsevered hempty)
      obtain ⟨hgathered, hopen, hafter⟩ := h.gathered.gather hjoint h.isOpen hlets hunbroken hnear
      exact ⟨hgathered, hopen, hafter, h.ahead.pass hgate hboundary (gather_subset framing current v)⟩

theorem of_head {α : Type} {time : α → UInt64} {items : List α} {p : UInt64 → Prop} (up : ∀ {a b}, p a → a ≤ b → p b)
    (sorted : items.Pairwise fun x y => time x ≤ time y) (h : ∀ x ∈ items.head?, p (time x)) :
    ∀ x ∈ items, p (time x) := by
  cases items with
  | nil => exact fun x hx => by cases hx
  | cons first later =>
    have hfirst := h first rfl
    intro x hx
    rcases List.mem_cons.mp hx with rfl | hx
    · exact hfirst
    · exact up hfirst ((List.pairwise_cons.mp sorted).1 x hx)

theorem Reached.partition (h : framing.Reached gates breaks words packets current done [] level [] []) :
    framing.Partition gates breaks words (packets ++ (framing.holding level current).closed) := by
  have hdone : words = done := h.gathered.split.trans (List.append_nil done)
  by_cases hempty : current = []
  · have hclosed : (framing.holding level current).closed = [] := if_pos hempty
    rw [hclosed, List.append_nil]
    refine ⟨?_, h.gathered.each, h.gathered.apart⟩
    rw [hdone, ← h.gathered.content, hempty, List.append_nil]
  · have hclosed : (framing.holding level current).closed = [current] := if_neg hempty
    have hends := h.gathered.close (h.isOpen.isPacket hempty) fun last hlast u hu => (h.joint last hlast u hu).2
    rw [hclosed]
    refine ⟨?_, hends.each, hends.apart⟩
    rw [hdone, ← hends.content, List.append_nil]

theorem Reached.frames {events : List PacketFramer.FramerEvent}
    (h : framing.Reached gates breaks words packets current done rest level left boundaries)
    (hmerged : PacketFramer.Merged left boundaries rest events)
    (hgates : left.Pairwise fun a b => a.startTimeNs ≤ b.startTimeNs)
    (hboundaries : boundaries.Pairwise fun a b => a.timestampNs ≤ b.timestampNs)
    (hwords : rest.Pairwise fun a b => a.timestampNs ≤ b.timestampNs) :
    framing.Partition gates breaks words (packets ++ (framing.holding level current).frames events) := by
  induction hmerged generalizing packets current done level with
  | done => exact h.partition
  | gate _ word _ ih =>
    obtain ⟨closed, current', hevent, hreached⟩ := h.gate (of_head UInt64.le_trans hwords word)
    rw [Framing.frames, hevent, ← List.append_assoc]
    exact ih hreached (List.pairwise_cons.mp hgates).2 hboundaries hwords
  | boundary _ word _ ih =>
    rw [Framing.frames, ← List.append_assoc]
    exact ih (h.boundary (of_head UInt64.le_trans hwords word)) hgates (List.pairwise_cons.mp hboundaries).2 hwords
  | word gate boundary _ ih =>
    have hreached := h.pass (of_head UInt64.lt_of_lt_of_le hgates gate) (of_head UInt64.lt_of_lt_of_le hboundaries boundary)
    rw [Framing.frames, ← List.append_assoc]
    exact ih hreached hgates hboundaries (List.pairwise_cons.mp hwords).2

end Step

end Framing

namespace PacketFramer

variable {framer : PacketFramer} {inputs : PacketFramerInputs} {gates : List Sample}
  {boundaries : List TimestampEvent} {words : List Word}

theorem Configured.reached (configured : framer.Configured) :
    framer.framing.Reached gates (framer.framing.breaks false gates boundaries) words [] [] [] words false gates
      boundaries := by
  obtain ⟨_, _, _, _, _, _, rfl, hcount, hmaximum⟩ := configured.settings
  refine ⟨⟨rfl, rfl, fun packet hmem => ?_, List.IsChain.nil⟩, Framing.open_nil hcount hmaximum, fun last hlast => ?_,
    ⟨fun word hmem => rfl, fun t ht => ht, fun t ht => .inl ht, fun t ht u hu => ?_⟩⟩
  · cases hmem
  · cases hlast
  · cases hu

theorem Configured.holding (configured : framer.Configured) : framer.framing.holding false [] = framer.framing := by
  obtain ⟨_, _, _, _, _, _, rfl, -, -⟩ := configured.settings
  rfl

end PacketFramer

theorem packetOf_ne_none {packet : List Word} (h : packet ≠ []) : packetOf packet ≠ none := by
  cases packet with
  | nil => exact absurd rfl h
  | cons first rest =>
    rw [packetOf, List.getLast?_cons]
    exact fun hnone => by cases hnone

/-- The packets sent partition the words that the gate lets through: in order, less the excluded delimiters, each
packet within its limits and unbroken, and each apart from the next. -/
theorem packets_partition_words {framer : PacketFramer} {inputs : PacketFramerInputs} {gates : List Sample}
    {boundaries : List TimestampEvent} {words : List Word} (configured : framer.Configured)
    (reads : framer.Reads inputs gates boundaries words)
    (hgates : gates.Pairwise fun a b => a.startTimeNs ≤ b.startTimeNs)
    (hboundaries : boundaries.Pairwise fun a b => a.timestampNs ≤ b.timestampNs)
    (hwords : words.Pairwise fun a b => a.timestampNs ≤ b.timestampNs) :
    ∃ packets, framer.framing.Partition gates (framer.framing.breaks false gates boundaries) words packets ∧
      ∀ calls, gates.length + boundaries.length + words.length + 2 ≤ calls → ∃ sent,
        framer.run calls inputs = some sent ∧ (streamItems sent).map some = packets.map packetOf := by
  obtain ⟨events, hmerged, hruns⟩ := PacketFramer.run_frames (configured.waiting reads) rfl
  have hpartition := configured.reached.frames hmerged hgates hboundaries hwords
  rw [List.nil_append, configured.holding] at hpartition
  refine ⟨_, hpartition, fun calls hcalls => ?_⟩
  obtain ⟨sent, hsent, hitems⟩ := hruns calls hcalls
  refine ⟨sent, hsent, ?_⟩
  rw [hitems, List.map_filterMap_some_eq_filter_map_isSome]
  refine List.filter_eq_self.mpr fun packet hmem => ?_
  obtain ⟨packet, hpacket, rfl⟩ := List.mem_map.mp hmem
  exact Option.isSome_iff_ne_none.mpr (packetOf_ne_none (hpartition.each packet hpacket).nonempty)

/-- Words 1, 2, a delimiter and 3 behind a boundary. -/
theorem delimited_words_partitioned :
    let framer := (PacketFramer.new.withDelimiter (some 255) false).withBoundaryInput true
    let words : List Word := [⟨1, none, 10, 0⟩, ⟨2, none, 20, 0⟩, ⟨255, none, 30, 0⟩, ⟨3, none, 40, 0⟩]
    let inputs : PacketFramerInputs := ⟨some (.new [.batch words]), some (.new [.sample ⟨20⟩]), none⟩
    ∃ packets, framer.framing.Partition [] [20] words packets ∧ ∀ calls, 7 ≤ calls → ∃ sent,
      framer.run calls inputs = some sent ∧ (streamItems sent).map some = packets.map packetOf := by
  intro framer words inputs
  have hreads : framer.Reads inputs [] [⟨20⟩] words := ⟨⟨_, rfl, rfl⟩, ⟨_, rfl, rfl⟩, rfl⟩
  exact packets_partition_words (.boundaryInput (.delimiter .new (some 255) false) true) hreads List.Pairwise.nil
    (List.pairwise_singleton _ _) (by decide)

end LogicConduit
