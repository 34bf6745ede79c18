import LogicConduit.AvailableItems
import LogicConduit.UartDecoder
import Mathlib.Algebra.Order.Floor.Semifield
import Mathlib.Data.Nat.Cast.Field
import Mathlib.Tactic.NormNum
import Mathlib.Tactic.Ring

namespace LogicConduit

def seekEdge (t : UInt64) : List Sample → Option (Bool × List Sample)
  | [] => none
  | [edge] => if edge.startTimeNs ≤ t then some (edge.value, [edge]) else none
  | edge :: next :: rest =>
    if edge.startTimeNs ≤ t ∧ t < next.startTimeNs then some (edge.value, edge :: next :: rest)
    else seekEdge t (next :: rest)

theorem seekEdge_some {t : UInt64} {edges left : List Sample} {value : Bool} (h : seekEdge t edges = some (value, left)) :
    left.IsSuffix edges ∧ ∃ edge ∈ edges, edge.startTimeNs ≤ t := by
  fun_induction seekEdge t edges with
  | case1 => cases h
  | case2 edge hle =>
    cases h
    exact ⟨List.suffix_refl _, edge, List.mem_cons_self, hle⟩
  | case3 => cases h
  | case4 edge next rest hcovers =>
    cases h
    exact ⟨List.suffix_refl _, edge, List.mem_cons_self, hcovers.1⟩
  | case5 edge next rest _ ih =>
    obtain ⟨hsuffix, first, hmem, hle⟩ := ih h
    exact ⟨hsuffix.trans (List.suffix_cons _ _), first, List.mem_cons_of_mem _ hmem, hle⟩

/-- What a channel is after a look for the level at a time: as it was from the edge found on, but the last edge may be
out of reach. -/
def Inbox.LeftAt (channel : Inbox Sample) (found : Option (Bool × List Sample)) : Prop :=
  channel.available = (found.map Prod.snd).getD [] ∨
    channel.available = [] ∧ ((found.map Prod.snd).getD []).length ≤ 1

def UartStopBits.halves : UartStopBits → Nat
  | .s0 => 0
  | .s0_5 => 1
  | .s1 => 2
  | .s1_5 => 3
  | .s2 => 4

section

variable (stopBits : UartStopBits)
include stopBits

theorem UartStopBits.bits_eq : stopBits.bits = stopBits.halves / 2 := by
  cases stopBits <;> norm_num [bits, halves]

theorem UartStopBits.min_bits_eq :
    min stopBits.bits 1 / 2 = ((min stopBits.halves 2 : Nat) : ℚ) / 4 := by
  cases stopBits <;> norm_num [bits, halves]

theorem UartStopBits.bits_pos_iff : stopBits.bits > 0 ↔ stopBits ≠ .s0 := by
  cases stopBits <;> simp [bits]

theorem UartStopBits.halves_le : stopBits.halves ≤ 4 := by
  cases stopBits <;> decide

end

namespace UartDecoder

theorem valueAtLoop_eq (t : UInt64) {rounds : Nat} {channel : Inbox Sample} (h : channel.available.length < rounds) :
    ∃ channel', valueAtLoop t rounds channel = (.ok ((seekEdge t channel.available).map Prod.fst), channel') ∧
      channel'.LeftAt (seekEdge t channel.available) := by
  generalize hedges : channel.available = edges at h ⊢
  obtain ⟨rounds, rfl⟩ := Nat.exists_eq_add_of_le' (Nat.lt_of_le_of_lt (Nat.zero_le _) h)
  fun_induction seekEdge t edges generalizing rounds channel with
  | case1 =>
    obtain ⟨taken, hrecv, hleft⟩ := recv_ended hedges
    rw [valueAtLoop, hrecv]
    exact ⟨taken, rfl, .inl hleft⟩
  | case2 edge hle =>
    obtain ⟨taken, hrecv, hnone, -⟩ := recv_item hedges
    obtain ⟨peeked, hpeek, hleft⟩ := peek_ended hnone
    rw [valueAtLoop, hrecv]
    dsimp only
    rw [hpeek]
    dsimp only
    rw [if_pos hle]
    refine ⟨_, rfl, ?_⟩
    cases heos : peeked.eos with
    | true => exact .inr ⟨available_ended heos, Nat.le_refl 1⟩
    | false => exact .inl ((putBack_available edge heos).trans (congrArg _ hleft))
  | case3 edge hgt =>
    obtain ⟨taken, hrecv, hnone, -⟩ := recv_item hedges
    obtain ⟨peeked, hpeek, hleft⟩ := peek_ended hnone
    rw [valueAtLoop, hrecv]
    dsimp only
    rw [hpeek]
    dsimp only
    rw [if_neg hgt]
    exact ⟨peeked, rfl, .inl hleft⟩
  | case4 edge next rest hcovers =>
    obtain ⟨taken, hrecv, hrest, -⟩ := recv_item hedges
    obtain ⟨peeked, hpeek, hleft, hopen⟩ := peek_item hrest
    rw [valueAtLoop, hrecv]
    dsimp only
    rw [hpeek]
    dsimp only
    rw [if_pos hcovers]
    exact ⟨_, rfl, .inl ((putBack_available edge hopen).trans (congrArg _ hleft))⟩
  | case5 edge next rest hpast ih =>
    obtain ⟨taken, hrecv, hrest, -⟩ := recv_item hedges
    obtain ⟨peeked, hpeek, hleft, -⟩ := peek_item hrest
    have hrounds : (next :: rest).length < rounds := Nat.lt_of_succ_lt_succ h
    obtain ⟨rounds, rfl⟩ := Nat.exists_eq_add_of_le' (Nat.lt_of_le_of_lt (Nat.zero_le _) hrounds)
    rw [valueAtLoop, hrecv]
    dsimp only
    rw [hpeek]
    dsimp only
    rw [if_neg hpast]
    exact ih hleft rounds hrounds

theorem valueAt_eq (channel : Inbox Sample) (t : UInt64) :
    ∃ channel', valueAt channel t = (.ok ((seekEdge t channel.available).map Prod.fst), channel') ∧
      channel'.LeftAt (seekEdge t channel.available) :=
  valueAtLoop_eq t (Nat.lt_succ_of_le (available_length_le channel))

section Phases

variable (decoder : UartDecoder)

def isStart (edge : Sample) : Bool := edge.value == decoder.invert && decide (decoder.resumeAfter ≤ edge.startTimeNs)

def huntEdges (edges : List Sample) : List Sample := edges.dropWhile fun edge => !decoder.isStart edge

variable {rx : Inbox Sample}

theorem huntLoop_eq {rounds : Nat} (h : rx.available.length < rounds) :
    ∃ rx', decoder.huntLoop rounds rx =
        (((decoder.huntEdges rx.available).head?.elim (.error .shutdown) fun edge => .ok edge.startTimeNs), rx') ∧
      rx'.available = decoder.huntEdges rx.available := by
  generalize hedges : rx.available = edges at h ⊢
  induction edges generalizing rounds rx with
  | nil =>
    obtain ⟨rounds, rfl⟩ := Nat.exists_eq_add_of_le' (Nat.lt_of_le_of_lt (Nat.zero_le _) h)
    obtain ⟨taken, hrecv, hleft⟩ := recv_ended hedges
    rw [huntLoop, hrecv]
    exact ⟨taken, rfl, hleft⟩
  | cons edge rest ih =>
    obtain ⟨rounds, rfl⟩ := Nat.exists_eq_add_of_le' (Nat.lt_of_le_of_lt (Nat.zero_le _) h)
    obtain ⟨taken, hrecv, hrest, hopen⟩ := recv_item hedges
    rw [huntLoop, hrecv]
    dsimp only
    by_cases hstart : edge.value = decoder.invert ∧ decoder.resumeAfter ≤ edge.startTimeNs
    · have hfound : (!decoder.isStart edge) = false := by simp [isStart, hstart]
      rw [if_pos hstart, huntEdges, List.dropWhile_cons, hfound]
      exact ⟨_, rfl, (putBack_available edge hopen).trans (congrArg _ hrest)⟩
    · have hskipped : decoder.isStart edge = false := Bool.eq_false_iff.mpr fun h =>
        hstart ⟨beq_iff_eq.mp (Bool.and_eq_true_iff.mp h).1, of_decide_eq_true (Bool.and_eq_true_iff.mp h).2⟩
      rw [if_neg hstart, huntEdges, List.dropWhile_cons, if_pos (by rw [hskipped]; rfl)]
      exact ih hrest (Nat.lt_of_succ_lt_succ h)

theorem sampleLevel_eq (rx : Inbox Sample) (t : UInt64) :
    ∃ rx', decoder.sampleLevel rx t =
        ((seekEdge t rx.available).elim (.error .shutdown) fun found => .ok (decoder.logical found.1), rx') ∧
      rx'.LeftAt (seekEdge t rx.available) := by
  obtain ⟨rx', hvalue, hleft⟩ := valueAt_eq rx t
  refine ⟨rx', ?_, hleft⟩
  rw [sampleLevel, hvalue]
  cases seekEdge t rx.available <;> rfl

theorem work_idle (outputs : UartOutputs) (h : decoder.huntEdges rx.available = []) :
    ∃ rx', decoder.work (some rx) outputs = decoder.failed .shutdown (some rx') := by
  have hrounds : rx.available.length < rx.undelivered.length + 1 := Nat.lt_succ_of_le (available_length_le rx)
  obtain ⟨rx', hhunt, -⟩ := decoder.huntLoop_eq hrounds
  rw [h] at hhunt
  refine ⟨rx', ?_⟩
  rw [work, hhunt]
  rfl

theorem work_hunted {edge : Sample} {rest : List Sample} (outputs : UartOutputs)
    (h : decoder.huntEdges rx.available = edge :: rest) :
    ∃ rx', rx'.available = edge :: rest ∧ decoder.work (some rx) outputs =
      match decoder.sampleFrame edge.startTimeNs rx' with
      | (.error error, rx) => { decoder with finished := true }.failed error (some rx)
      | (.ok (value, bits, frameError), rx) => decoder.emit rx outputs edge.startTimeNs value bits frameError := by
  have hrounds : rx.available.length < rx.undelivered.length + 1 := Nat.lt_succ_of_le (available_length_le rx)
  obtain ⟨rx', hhunt, hleft⟩ := decoder.huntLoop_eq hrounds
  rw [h] at hhunt hleft
  refine ⟨rx', hleft, ?_⟩
  rw [work, hhunt]
  rfl

theorem parityBits_le : decoder.parityBits ≤ 1 := by
  rw [parityBits]
  split <;> decide

def bitTime : Nat := 1000000000 / decoder.baud.toNat

variable {decoder}

variable (decoder) in
theorem bitTime_le : decoder.bitTime ≤ 1000000000 := Nat.div_le_self _ _

theorem bitTime_pos (hexact : decoder.baud.toNat ∣ 1000000000) : 0 < decoder.bitTime :=
  Nat.div_pos (Nat.le_of_dvd (by decide) hexact) (UInt64.lt_iff_toNat_lt.mp decoder.baud_pos)

theorem bitNs_eq (hexact : decoder.baud.toNat ∣ 1000000000) : decoder.bitNs = decoder.bitTime := by
  have hne : (decoder.baud.toNat : ℚ) ≠ 0 :=
    Nat.cast_ne_zero.mpr (Nat.ne_of_gt (UInt64.lt_iff_toNat_lt.mp decoder.baud_pos))
  rw [bitNs, bitTime, Nat.cast_div hexact hne]
  norm_num

theorem roundU64_quarters {n : Nat} (h : n + 2 < 2 ^ 64) : (roundU64 ((n : ℚ) / 4)).toNat = (n + 2) / 4 := by
  have hsum : ((n : ℚ) / 4 + 1 / 2) = ((n + 2 : ℕ) : ℚ) / (4 : ℕ) := by
    push_cast
    ring
  have hsmall : (n + 2) / 4 ≤ u64Max := by
    rw [u64Max]
    omega
  rw [roundU64, hsum, Nat.floor_div_eq_div, Nat.min_eq_left hsmall, UInt64.toNat_ofNat_of_lt']
  rw [UInt64.size]
  omega

theorem roundU64_bits (hexact : decoder.baud.toNat ∣ 1000000000) {x : ℚ} {q : Nat} (hx : x = q / 4)
    (hq : q ≤ 100) : (roundU64 (x * decoder.bitNs)).toNat = (q * decoder.bitTime + 2) / 4 := by
  have hproduct : x * decoder.bitNs = ((q * decoder.bitTime : ℕ) : ℚ) / 4 := by
    rw [hx, bitNs_eq hexact]
    push_cast
    ring
  have hle : q * decoder.bitTime ≤ 100 * 1000000000 := Nat.mul_le_mul hq decoder.bitTime_le
  rw [hproduct, roundU64_quarters (by omega)]

end Phases

end UartDecoder

end LogicConduit
