import Mathlib.Data.List.Basic
import Mathlib.Tactic.Ring

namespace LogicConduit

abbrev Bytes := List UInt8

def leBytes : Nat → Nat → Bytes
  | 0, _ => []
  | width + 1, n => UInt8.ofNat (n % 256) :: leBytes width (n / 256)

def ofLeBytes : Bytes → Nat
  | [] => 0
  | b :: bs => b.toNat + 256 * ofLeBytes bs

@[simp] theorem leBytes_length (width n : Nat) : (leBytes width n).length = width := by
  induction width generalizing n with
  | zero => rfl
  | succ width ih => simp [leBytes, ih]

theorem ofLeBytes_leBytes {width n : Nat} (h : n < 256 ^ width) : ofLeBytes (leBytes width n) = n := by
  induction width generalizing n with
  | zero => simp only [pow_zero] at h; simp [leBytes, ofLeBytes]; omega
  | succ width ih =>
    have hd : n / 256 < 256 ^ width := by
      rw [Nat.div_lt_iff_lt_mul (by decide)]
      rwa [pow_succ] at h
    have hb : (UInt8.ofNat (n % 256)).toNat = n % 256 := by
      rw [UInt8.toNat_ofNat']; omega
    simp only [leBytes, ofLeBytes, hb, ih hd]
    omega

theorem leBytes_one (n : Nat) : leBytes 1 n = [UInt8.ofNat n] := by
  have h : UInt8.ofNat (n % 256) = UInt8.ofNat n := by
    apply UInt8.toNat_inj.mp
    simp
  rw [leBytes, h]
  rfl

theorem take_leBytes {width m : Nat} (n : Nat) (h : width ≤ m) :
    (leBytes m n).take width = leBytes width n := by
  induction width generalizing m n with
  | zero => rfl
  | succ width ih =>
    obtain ⟨m, rfl⟩ : ∃ k, m = k + 1 := ⟨m - 1, by omega⟩
    rw [leBytes, leBytes, List.take_succ_cons, ih (m := m) (n / 256) (by omega)]

/-- `bs.get(a..b)`: the checked slice of the source. -/
def getRange (bs : Bytes) (a b : Nat) : Option Bytes :=
  if a ≤ b ∧ b ≤ bs.length then some ((bs.drop a).take (b - a)) else none

/-- `bs[a..a + x.len()].copy_from_slice(x)`, for a range inside `bs`. -/
def putRange (bs : Bytes) (a : Nat) (x : Bytes) : Bytes :=
  bs.take a ++ x ++ bs.drop (a + x.length)

def HasAt (bs : Bytes) (a : Nat) (x : Bytes) : Prop :=
  ∃ pre post, bs = pre ++ x ++ post ∧ pre.length = a

variable {a : Nat}

variable {bs x y : Bytes}

theorem HasAt.append : HasAt bs a (x ++ y) ↔ HasAt bs a x ∧ HasAt bs (a + x.length) y := by
  constructor
  · rintro ⟨pre, post, rfl, rfl⟩
    exact ⟨⟨pre, y ++ post, by simp, rfl⟩, ⟨pre ++ x, post, by simp, by simp⟩⟩
  · rintro ⟨⟨pre, post, rfl, rfl⟩, ⟨pre', post', heq, hlen⟩⟩
    have hpre : pre' = pre ++ x := by
      have h := congrArg (List.take (pre.length + x.length)) heq
      simp only [List.append_assoc] at h
      rw [← List.append_assoc, List.take_left' (by simp), List.take_left' hlen] at h
      exact h.symm
    subst hpre
    have hpost : post = y ++ post' := by simpa using heq
    subst hpost
    exact ⟨pre, post', by simp, rfl⟩

theorem HasAt.cons {bs x : Bytes} {b : UInt8} {a : Nat} :
    HasAt bs a (b :: x) ↔ HasAt bs a [b] ∧ HasAt bs (a + 1) x :=
  HasAt.append (x := [b])

variable {bs x : Bytes}

theorem HasAt.length_le (h : HasAt bs a x) : a + x.length ≤ bs.length := by
  obtain ⟨pre, post, rfl, rfl⟩ := h
  simp

theorem HasAt.drop (h : HasAt bs a x) : ∃ post, bs.drop a = x ++ post := by
  obtain ⟨pre, post, rfl, rfl⟩ := h
  exact ⟨post, by simp⟩

theorem HasAt.getElem? (h : HasAt bs a x) {i : Nat} (hi : i < x.length) : bs[a + i]? = x[i]? := by
  obtain ⟨pre, post, rfl, rfl⟩ := h
  rw [List.append_assoc, List.getElem?_append_right (by omega), Nat.add_sub_cancel_left,
    List.getElem?_append_left hi]

theorem HasAt.head {bs x : Bytes} {b : UInt8} {a : Nat} (h : HasAt bs a (b :: x)) :
    bs[a]? = some b := by
  simpa using h.getElem? (i := 0) (by simp)

theorem HasAt.getRange (h : HasAt bs a x) : getRange bs a (a + x.length) = some x := by
  have hb := h.length_le
  obtain ⟨post, hd⟩ := h.drop
  simp [LogicConduit.getRange, hb, hd]

theorem HasAt.take {bs x : Bytes} {a e : Nat} (h : HasAt bs a x) (he : a + x.length ≤ e) :
    HasAt (bs.take e) a x := by
  obtain ⟨pre, post, rfl, rfl⟩ := h
  refine ⟨pre, post.take (e - (pre ++ x).length), ?_, rfl⟩
  rw [List.take_append, List.take_of_length_le (by simpa using he)]

theorem HasAt.of_append_left {bs tail x : Bytes} (h : HasAt bs a x) : HasAt (bs ++ tail) a x := by
  obtain ⟨pre, post, rfl, rfl⟩ := h
  exact ⟨pre, post ++ tail, by simp, rfl⟩

theorem hasAt_append_right (pre x : Bytes) : HasAt (pre ++ x) pre.length x :=
  ⟨pre, [], by simp, rfl⟩

theorem HasAt.of_getRange {a b : Nat} (h : LogicConduit.getRange bs a b = some x) :
    HasAt bs a x ∧ b = a + x.length := by
  unfold LogicConduit.getRange at h
  split at h
  next hb =>
    have hx := Option.some.inj h
    have hlen : x.length = b - a := by simp [← hx]; omega
    refine ⟨⟨bs.take a, bs.drop b, ?_, by simp; omega⟩, by omega⟩
    have hd : (bs.drop a).drop (b - a) = bs.drop b := by rw [List.drop_drop]; congr 1; omega
    rw [← hx, List.append_assoc, ← hd, List.take_append_drop, List.take_append_drop]
  next => simp at h

theorem putRange_length {bs x : Bytes} {a : Nat} (h : a + x.length ≤ bs.length) :
    (putRange bs a x).length = bs.length := by
  simp [putRange]; omega

theorem take_putRange (h : a ≤ bs.length) : (putRange bs a x).take a = bs.take a := by
  rw [putRange, List.append_assoc, List.take_left' (by simp; omega)]

theorem drop_putRange {bs x : Bytes} {a : Nat} (h : a ≤ bs.length) :
    (putRange bs a x).drop (a + x.length) = bs.drop (a + x.length) := by
  rw [putRange, List.drop_left' (by simp; omega)]

variable {bs : Bytes}

theorem HasAt.putRange_same (x : Bytes) (h : a + x.length ≤ bs.length) :
    HasAt (putRange bs a x) a x :=
  ⟨bs.take a, bs.drop (a + x.length), rfl, by simp; omega⟩

theorem getElem?_putRange_outside {a i : Nat} (h : a + x.length ≤ bs.length)
    (hi : i < a ∨ a + x.length ≤ i) : (putRange bs a x)[i]? = bs[i]? := by
  have ht : (bs.take a).length = a := by simp; omega
  unfold putRange
  rcases hi with hi | hi
  · rw [List.append_assoc, List.getElem?_append_left (by omega), List.getElem?_take_of_lt hi]
  · rw [List.getElem?_append_right (by simp; omega), List.getElem?_drop]
    simp only [List.length_append, ht]
    congr 1
    omega

theorem hasAt_iff_getElem? :
    HasAt bs a x ↔ a + x.length ≤ bs.length ∧ ∀ i, i < x.length → bs[a + i]? = x[i]? := by
  constructor
  · exact fun h => ⟨h.length_le, fun i hi => h.getElem? hi⟩
  · rintro ⟨hl, hg⟩
    have hx : (bs.drop a).take x.length = x := by
      apply List.ext_getElem?
      intro i
      by_cases hi : i < x.length
      · rw [List.getElem?_take_of_lt hi, List.getElem?_drop, hg i hi]
      · rw [List.getElem?_eq_none (by simp; omega), List.getElem?_eq_none (by omega)]
    refine ⟨bs.take a, bs.drop (a + x.length), ?_, by simp; omega⟩
    rw [← List.drop_drop, List.append_assoc]
    conv_lhs => rw [← List.take_append_drop a bs, ← List.take_append_drop x.length (bs.drop a), hx]

theorem HasAt.putRange_disjoint {a o : Nat} (h : HasAt bs o y) (hb : a + x.length ≤ bs.length)
    (hd : o + y.length ≤ a ∨ a + x.length ≤ o) : HasAt (putRange bs a x) o y := by
  obtain ⟨hl, hg⟩ := hasAt_iff_getElem?.mp h
  refine hasAt_iff_getElem?.mpr ⟨by rwa [putRange_length hb], fun i hi => ?_⟩
  rw [getElem?_putRange_outside hb (by omega), hg i hi]

theorem HasAt.unique (hx : HasAt bs a x) (hy : HasAt bs a y) (hl : x.length = y.length) : x = y := by
  have h := hx.getRange.symm.trans (hl ▸ hy.getRange)
  exact Option.some.inj h

def putAll (bs : Bytes) (fields : List (Nat × Bytes)) : Bytes :=
  fields.foldl (fun bs field => putRange bs field.1 field.2) bs

def Apart (f g : Nat × Bytes) : Prop :=
  f.1 + f.2.length ≤ g.1 ∨ g.1 + g.2.length ≤ f.1

variable {fields : List (Nat × Bytes)}

theorem putAll_length (hb : ∀ f ∈ fields, f.1 + f.2.length ≤ bs.length) :
    (putAll bs fields).length = bs.length := by
  induction fields generalizing bs with
  | nil => rfl
  | cons f fs ih =>
    have hf := hb f (by simp)
    have hl := putRange_length hf
    have h := @ih (putRange bs f.1 f.2) (fun g hg => by rw [hl]; exact hb g (by simp [hg]))
    exact h.trans hl

theorem HasAt.putAll_frame {bs y : Bytes} {o : Nat} (h : HasAt bs o y)
    (hb : ∀ f ∈ fields, f.1 + f.2.length ≤ bs.length) (hd : ∀ f ∈ fields, Apart (o, y) f) :
    HasAt (putAll bs fields) o y := by
  induction fields generalizing bs with
  | nil => exact h
  | cons f fs ih =>
    have hf := hb f (by simp)
    have hl := putRange_length hf
    have hy := h.putRange_disjoint hf (hd f (by simp))
    exact ih hy (fun g hg => by rw [hl]; exact hb g (by simp [hg])) (fun g hg => hd g (by simp [hg]))

theorem HasAt.putAll_mem {f : Nat × Bytes} (hb : ∀ f ∈ fields, f.1 + f.2.length ≤ bs.length)
    (hp : fields.Pairwise Apart) (hm : f ∈ fields) : HasAt (putAll bs fields) f.1 f.2 := by
  induction fields generalizing bs with
  | nil => simp at hm
  | cons g gs ih =>
    obtain ⟨hg, hgs⟩ := List.pairwise_cons.mp hp
    have hgb := hb g (by simp)
    have hl := putRange_length hgb
    have hb' : ∀ f ∈ gs, f.1 + f.2.length ≤ (putRange bs g.1 g.2).length := fun f hf => by
      rw [hl]; exact hb f (by simp [hf])
    rcases List.mem_cons.mp hm with rfl | hm
    · exact (HasAt.putRange_same f.2 hgb).putAll_frame hb' hg
    · exact ih hb' hgs hm

def readLe (bs : Bytes) (a width : Nat) : Option Nat :=
  (getRange bs a (a + width)).map ofLeBytes

theorem HasAt.readLe {a width n : Nat} (h : HasAt bs a (leBytes width n)) (hn : n < 256 ^ width) :
    readLe bs a width = some n := by
  have hg := h.getRange
  rw [leBytes_length] at hg
  simp [LogicConduit.readLe, hg, ofLeBytes_leBytes hn]

end LogicConduit
