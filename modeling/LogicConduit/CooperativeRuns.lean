import LogicConduit.BroadcastLedger
import LogicConduit.CooperativeManager

namespace LogicConduit

namespace Link

variable {α : Type}

/-- What holds of a link whose producer has closed it or not. -/
structure Sound (link : Link α) (closed : Bool) : Prop where
  whole : link.received ++ link.buffer ++ streamItems link.queue = link.sent
  marked : .endOfStream ∈ link.queue → closed = true ∧ ∃ queue, .endOfStream ∉ queue ∧ link.queue = queue ++ [.endOfStream]
  filled : .batch [] ∉ link.queue
  eos : link.eos = true → link.ended = true
  ended : link.ended = true → closed = true ∧ link.buffer = [] ∧ link.queue = []

variable {link : Link α} {closed : Bool}

theorem Sound.new : (Link.new : Link α).Sound false :=
  ⟨rfl, fun h => absurd h List.not_mem_nil, List.not_mem_nil, nofun, nofun⟩

theorem Sound.received (h : link.Sound closed) (he : link.ended = true) : link.received = link.sent := by
  obtain ⟨-, hbuffer, hqueue⟩ := h.ended he
  rw [← h.whole, hbuffer, hqueue, List.append_nil]
  exact (List.append_nil _).symm

section

variable (h : link.Sound false)
include h

theorem Sound.not_ended : link.ended = false := by
  apply eq_false_of_ne_true
  intro he
  exact absurd (h.ended he).1 nofun

theorem Sound.not_marked : .endOfStream ∉ link.queue := by
  intro hin
  exact absurd (h.marked hin).1 nofun

theorem Sound.push {message : ChannelMessage α} (hm : message ≠ .endOfStream)
    (hb : message ≠ .batch []) : (link.push message).Sound false := by
  have hno := h.not_marked
  refine ⟨?_, ?_, ?_, h.eos, ?_⟩
  · show link.received ++ link.buffer ++ streamItems (link.queue ++ [message]) = link.sent ++ message.items
    rw [streamItems_append hno, ← h.whole, streamItems_cons hm, streamItems, List.append_nil, List.append_assoc,
      List.append_assoc, List.append_assoc]
  · intro hin
    rcases List.mem_append.mp hin with hin | hin
    · exact absurd hin hno
    · exact absurd (List.mem_singleton.mp hin).symm hm
  · intro hin
    rcases List.mem_append.mp hin with hin | hin
    · exact h.filled hin
    · exact hb (List.mem_singleton.mp hin).symm
  · intro he
    have hnot : link.ended = false := h.not_ended
    exact absurd (hnot.symm.trans he) Bool.false_ne_true

theorem Sound.close (capacity : Nat) : (link.close capacity).Sound true := by
  have hno := h.not_marked
  have hnot := h.not_ended
  unfold Link.close
  split
  · refine ⟨?_, fun _ => ⟨rfl, link.queue, hno, rfl⟩, ?_, h.eos, fun he => absurd (hnot.symm.trans he) Bool.false_ne_true⟩
    · show link.received ++ link.buffer ++ streamItems (link.queue ++ [.endOfStream]) = link.sent
      rw [streamItems_append hno, streamItems, List.append_nil, h.whole]
    · intro hin
      rcases List.mem_append.mp hin with hin | hin
      · exact h.filled hin
      · cases List.mem_singleton.mp hin
  · exact ⟨h.whole, fun hin => absurd hin hno, h.filled, h.eos, fun he => absurd (hnot.symm.trans he) Bool.false_ne_true⟩

end

variable {received : Option α} {next : Link α}

theorem Sound.recvQueue (h : link.Sound closed) (hbuffer : link.buffer = [])
    (hr : link.recvQueue closed link.queue = some (received, next)) : next.Sound closed := by
  have hwhole := h.whole
  rw [hbuffer, List.append_nil] at hwhole
  cases hq : link.queue with
  | nil =>
    rw [hq, Link.recvQueue] at hr
    split at hr
    · next hclosed =>
      cases hr
      rw [hq] at hwhole
      refine ⟨?_, fun hin => absurd hin List.not_mem_nil, List.not_mem_nil, fun _ => rfl, fun _ => ⟨hclosed, hbuffer, rfl⟩⟩
      show link.received ++ link.buffer ++ streamItems [] = link.sent
      rw [hbuffer, List.append_nil]
      exact hwhole
    · cases hr
  | cons message queue =>
    have hrest : .endOfStream ∈ queue → closed = true ∧ ∃ before, .endOfStream ∉ before ∧ queue = before ++ [.endOfStream] := by
      intro hin
      obtain ⟨hclosed, before, hno, heq⟩ := h.marked (by rw [hq]; exact List.mem_cons_of_mem _ hin)
      refine ⟨hclosed, ?_⟩
      rw [hq] at heq
      cases before with
      | nil =>
        have hnil := (List.cons.inj heq).2
        rw [hnil] at hin
        cases hin
      | cons first before =>
        exact ⟨before, fun hin => hno (List.mem_cons_of_mem _ hin), (List.cons.inj heq).2⟩
    have hfilled : .batch [] ∉ queue := by
      intro hin
      exact h.filled (by rw [hq]; exact List.mem_cons_of_mem _ hin)
    have hended : message ≠ .endOfStream → link.ended = false := by
      intro _
      apply eq_false_of_ne_true
      intro he
      rw [(h.ended he).2.2] at hq
      cases hq
    rw [hq] at hr hwhole
    cases message with
    | sample item =>
      cases hr
      have hnot := hended nofun
      refine ⟨?_, hrest, hfilled, h.eos, fun he => absurd (hnot.symm.trans he) Bool.false_ne_true⟩
      show link.received ++ [item] ++ link.buffer ++ streamItems queue = link.sent
      rw [hbuffer, List.append_nil, ← hwhole, List.append_assoc]
      rfl
    | batch items =>
      cases items with
      | nil =>
        exact absurd (by rw [hq]; exact List.mem_cons_self) h.filled
      | cons first items =>
        cases hr
        have hnot := hended nofun
        refine ⟨?_, hrest, hfilled, h.eos, fun he => absurd (hnot.symm.trans he) Bool.false_ne_true⟩
        show link.received ++ [first] ++ items ++ streamItems queue = link.sent
        rw [← hwhole, List.append_assoc, List.append_assoc]
        rfl
    | endOfStream =>
      cases hr
      obtain ⟨hclosed, before, hno, heq⟩ := h.marked (by rw [hq]; exact List.mem_cons_self)
      have hqueue : queue = [] := by
        rw [hq] at heq
        cases before with
        | nil => exact (List.cons.inj heq).2
        | cons first before =>
          exact absurd (List.mem_cons.mpr (Or.inl (List.cons.inj heq).1)) hno
      refine ⟨?_, hrest, hfilled, fun _ => rfl, fun _ => ⟨hclosed, hbuffer, hqueue⟩⟩
      show link.received ++ link.buffer ++ streamItems queue = link.sent
      rw [hbuffer, List.append_nil, hqueue, ← hwhole]
      rfl

theorem Sound.recv (h : link.Sound closed)
    (hr : link.recv closed = some (received, next)) : next.Sound closed := by
  unfold Link.recv at hr
  split at hr
  · cases hr
    exact h
  · split at hr
    · next item items hbuffer =>
      cases hr
      have hwhole := h.whole
      have hended : link.ended = false := by
        apply eq_false_of_ne_true
        intro he
        rw [(h.ended he).2.1] at hbuffer
        cases hbuffer
      refine ⟨?_, h.marked, h.filled, h.eos, fun he => absurd (hended.symm.trans he) nofun⟩
      show link.received ++ [item] ++ items ++ streamItems link.queue = link.sent
      rw [← hwhole, hbuffer, List.append_assoc, List.append_assoc, List.append_assoc]
      rfl
    · next hbuffer => exact h.recvQueue hbuffer hr

/-- A receive has to wait only on an empty channel that its producer has not closed. -/
theorem Sound.recv_waits (h : link.Sound closed) (hr : link.recv closed = none) :
    link.queue = [] ∧ closed = false := by
  unfold Link.recv at hr
  split at hr
  · cases hr
  · split at hr
    · cases hr
    · cases hq : link.queue with
      | nil =>
        rw [hq, Link.recvQueue] at hr
        split at hr
        · cases hr
        · next hopen => exact ⟨rfl, eq_false_of_ne_true hopen⟩
      | cons message queue =>
        rw [hq] at hr
        cases message with
        | sample item => cases hr
        | batch items =>
          cases items with
          | nil => exact absurd (by rw [hq]; exact List.mem_cons_self) h.filled
          | cons first items => cases hr
        | endOfStream => cases hr

end Link

namespace NodeGraph

variable {ι : Type} (graph : NodeGraph ι) {node : ι} {sub : InputSub ι}

theorem input_spec (h : graph.input node = some sub) : ∃ spec ∈ graph.inputs node, spec.source = some sub := by
  have hmem := List.mem_of_mem_head? (Option.mem_def.mpr h)
  obtain ⟨spec, hin, hsource⟩ := List.mem_filterMap.mp hmem
  exact ⟨spec, hin, hsource⟩

theorem eq_of_filterMap_single {β γ : Type} {f : β → Option γ} {items : List β}
    (h : (items.filterMap f).length ≤ 1) {a b : β} {x y : γ} (ha : a ∈ items) (hb : b ∈ items) (hx : f a = some x)
    (hy : f b = some y) : a = b := by
  induction items with
  | nil => cases ha
  | cons item items ih =>
    cases hf : f item with
    | none =>
      rw [List.filterMap_cons_none hf] at h
      have ha' := (List.mem_cons.mp ha).resolve_left (fun heq => by rw [← heq, hx] at hf; cases hf)
      have hb' := (List.mem_cons.mp hb).resolve_left (fun heq => by rw [← heq, hy] at hf; cases hf)
      exact ih h ha' hb'
    | some z =>
      rw [List.filterMap_cons_some hf, List.length_cons] at h
      have hnil : items.filterMap f = [] := List.eq_nil_of_length_eq_zero (by omega)
      have honly : ∀ other ∈ items, f other = none := List.filterMap_eq_nil_iff.mp hnil
      have hfirst : ∀ {c : β} {z : γ}, c ∈ item :: items → f c = some z → c = item := by
        intro c z hc hz
        rcases List.mem_cons.mp hc with heq | hin
        · exact heq
        · rw [honly c hin] at hz
          cases hz
      exact (hfirst ha hx).trans (hfirst hb hy).symm

theorem spec_input {spec : InputSpec ι} (hin : spec ∈ graph.inputs node) (hs : spec.source = some sub) :
    graph.input node = some sub := by
  have hmem : sub ∈ (graph.inputs node).filterMap InputSpec.source := List.mem_filterMap.mpr ⟨spec, hin, hs⟩
  have hone := graph.single node
  rw [input]
  cases hl : (graph.inputs node).filterMap InputSpec.source with
  | nil =>
    rw [hl] at hmem
    cases hmem
  | cons first rest =>
    rw [hl] at hmem hone
    have hrest : rest = [] := List.eq_nil_of_length_eq_zero (by simpa using hone)
    rw [hrest, List.mem_singleton] at hmem
    rw [hmem]
    rfl

theorem input_rank (h : graph.input node = some sub) : graph.rank sub.fromNode < graph.rank node := by
  obtain ⟨spec, hin, hs⟩ := graph.input_spec h
  exact graph.ranked node spec hin sub hs

theorem exists_rank_bound (nodes : List ι) : ∃ bound, ∀ node ∈ nodes, graph.rank node ≤ bound := by
  induction nodes with
  | nil => exact ⟨0, fun _ h => absurd h List.not_mem_nil⟩
  | cons first nodes ih =>
    obtain ⟨bound, hbound⟩ := ih
    refine ⟨max (graph.rank first) bound, ?_⟩
    intro node hin
    rcases List.mem_cons.mp hin with heq | hin
    · rw [heq]
      exact Nat.le_max_left _ _
    · exact Nat.le_trans (hbound node hin) (Nat.le_max_right _ _)

end NodeGraph

theorem capacity_pos {ι : Type} (sub : InputSub ι) : 0 < sub.capacity :=
  Nat.lt_of_lt_of_le Nat.zero_lt_one (Nat.le_max_right _ _)

namespace Manager

section Ready

variable {ι α σ : Type} {graph : NodeGraph ι} {m : Manager ι α σ} {node : ι} {spec : InputSpec ι}

theorem isReady_of_closed (h : m.producerClosed spec = true) : m.isReady node spec = true := by
  obtain ⟨source, readiness⟩ := spec
  unfold producerClosed at h
  unfold isReady
  cases source with
  | none => rfl
  | some sub =>
    cases readiness with
    | item =>
      dsimp only at h ⊢
      rw [h, Bool.or_true]
    | complete => exact h

theorem isReady_iff {sub : InputSub ι} (hs : spec.source = some sub) :
    m.isReady node spec = true ↔
      m.done sub.fromNode = true ∨ spec.readiness = .item ∧ (m.links node).queue ≠ [] := by
  obtain ⟨source, readiness⟩ := spec
  cases hs
  unfold isReady
  cases readiness with
  | item =>
    cases (m.links node).queue with
    | nil => simp
    | cons message queue => simp
  | complete => simp

/-- With one connected input the two ways of scheduling agree: all inputs have to be ready. -/
theorem inputsReady_iff : m.inputsReady graph node = true ↔ ∀ spec ∈ graph.inputs node, m.isReady node spec = true := by
  unfold inputsReady
  cases graph.scheduling node with
  | all => exact List.all_eq_true
  | any =>
    dsimp only
    rw [Bool.or_eq_true, List.all_eq_true, List.any_eq_true]
    constructor
    · rintro (hclosed | ⟨spec, hin, hready⟩) other hother
      · exact isReady_of_closed (hclosed other hother)
      · rw [Bool.and_eq_true, Bool.not_eq_true'] at hready
        -- The input that is ready and open is the connected one.
        cases hsource : other.source with
        | none =>
          apply isReady_of_closed
          rw [producerClosed, hsource]
        | some sub =>
          cases hs : spec.source with
          | none =>
            rw [producerClosed, hs] at hready
            exact absurd hready.2 nofun
          | some sub' =>
            have heq : other = spec := NodeGraph.eq_of_filterMap_single (graph.single node) hother hin hsource hs
            rw [heq]
            exact hready.1
    · intro hready
      by_cases hclosed : ∀ spec ∈ graph.inputs node, m.producerClosed spec = true
      · exact Or.inl hclosed
      · push Not at hclosed
        obtain ⟨spec, hin, hopen⟩ := hclosed
        refine Or.inr ⟨spec, hin, ?_⟩
        rw [hready spec hin, eq_false_of_ne_true hopen]
        rfl

end Ready

variable {ι α σ : Type} [DecidableEq ι] {graph : NodeGraph ι} (work : NodeWork ι α σ) {m m' : Manager ι α σ} {node : ι}

variable {consumer : ι} {message : ChannelMessage α}

/-- What holds of every link of a manager. -/
def Sound (graph : NodeGraph ι) (m : Manager ι α σ) : Prop :=
  ∀ consumer sub, graph.input consumer = some sub → (m.links consumer).Sound (m.done sub.fromNode)

theorem callable_iff : m.callable graph node = true ↔
    m.done node = false ∧ m.inputsReady graph node = true ∧ ∀ consumer ∈ graph.nodes, m.fullFrom graph node consumer = false := by
  rw [callable, Bool.and_eq_true, Bool.and_eq_true, Bool.not_eq_true', Bool.not_eq_true', wouldBlock, List.any_eq_false,
    and_assoc]
  simp only [Bool.not_eq_true]

theorem fullFrom_iff : m.fullFrom graph node consumer = true ↔
    ∃ sub, graph.input consumer = some sub ∧ sub.fromNode = node ∧ sub.capacity ≤ (m.links consumer).queue.length := by
  unfold fullFrom
  cases graph.input consumer with
  | none => simp
  | some sub => simp

theorem receive_ready (h : Sound graph m) (hc : m.callable graph node = true) :
    ∃ received link, m.receive graph work node = some (received, link) ∧
      ∀ sub, graph.input node = some sub → link.Sound (m.done sub.fromNode) := by
  obtain ⟨-, hready, -⟩ := callable_iff.mp hc
  unfold receive
  cases hr : work.receives node (m.state node) with
  | false => exact ⟨none, m.links node, rfl, fun sub hs => h node sub hs⟩
  | true =>
    rw [if_pos rfl]
    cases hin : graph.input node with
    | none => exact ⟨none, m.links node, rfl, nofun⟩
    | some sub =>
      have hlink := h node sub hin
      cases hrecv : (m.links node).recv (m.done sub.fromNode) with
      | some received =>
        obtain ⟨item, link⟩ := received
        refine ⟨some item, link, by simp [hrecv], ?_⟩
        intro sub' hs
        cases hs
        exact hlink.recv hrecv
      | none =>
        obtain ⟨hqueue, hopen⟩ := hlink.recv_waits hrecv
        obtain ⟨spec, hspec, hsource⟩ := graph.input_spec hin
        rcases (isReady_iff hsource).mp (inputsReady_iff.mp hready spec hspec) with hclosed | ⟨-, hne⟩
        · rw [hopen] at hclosed
          cases hclosed
        · exact absurd hqueue hne

theorem setNode_link_ne {other : ι} (h : other ≠ node) (state : σ) (link : Link α) :
    (m.setNode node state link).links other = m.links other := if_neg h

theorem setNode_link_self (state : σ) (link : Link α) : (m.setNode node state link).links node = link := if_pos rfl

theorem Sound.setNode (h : Sound graph m) (state : σ) {link : Link α}
    (hl : ∀ sub, graph.input node = some sub → link.Sound (m.done sub.fromNode)) :
    Sound graph (m.setNode node state link) := by
  intro consumer sub hin
  show ((m.setNode node state link).links consumer).Sound (m.done sub.fromNode)
  by_cases heq : consumer = node
  · subst heq
    rw [setNode_link_self]
    exact hl sub hin
  · rw [setNode_link_ne heq]
    exact h consumer sub hin

theorem message_sound {sending : Sending α} (h : sending.message = some message) :
    message ≠ .endOfStream ∧ message ≠ .batch [] := by
  cases sending with
  | send value =>
    cases h
    exact ⟨nofun, nofun⟩
  | sendBatch values =>
    cases values with
    | nil => cases h
    | cons first values =>
      cases h
      exact ⟨nofun, nofun⟩

theorem sendingTo_some {sends : Nat → Option (Sending α)}
    (h : sendingTo graph sends node consumer = some message) :
    ∃ sub sending, graph.input consumer = some sub ∧ sub.fromNode = node ∧ sends sub.fromPort = some sending ∧
      sending.message = some message := by
  unfold sendingTo at h
  split at h
  · cases h
  · next sub hin =>
    split at h
    · next hfrom =>
      obtain ⟨sending, hsend, hmessage⟩ := Option.bind_eq_some_iff.mp h
      exact ⟨sub, sending, hin, hfrom, hsend, hmessage⟩
    · cases h

section

variable (h : Sound graph m)
include h

theorem send_ready (hdone : m.done node = false)
    (hroom : ∀ consumer ∈ graph.nodes, m.fullFrom graph node consumer = false) (sends : Nat → Option (Sending α)) :
    ∃ sent, m.send graph sends node = .ok sent ∧ Sound graph sent ∧ sent.done = m.done := by
  have hfree : (graph.nodes.any fun consumer =>
      m.fullFrom graph node consumer && (sendingTo graph sends node consumer).isSome) = false := by
    rw [List.any_eq_false]
    intro consumer hin
    rw [hroom consumer hin]
    simp
  unfold send
  rw [hfree]
  refine ⟨_, rfl, ?_, rfl⟩
  intro consumer sub hin
  have hlink := h consumer sub hin
  dsimp only
  cases hs : sendingTo graph sends node consumer with
  | none => exact hlink
  | some message =>
    obtain ⟨sub', sending, hin', hfrom, -, hmessage⟩ := sendingTo_some hs
    have hsub : sub' = sub := Option.some.inj (hin'.symm.trans hin)
    rw [hsub] at hfrom
    obtain ⟨hm, hb⟩ := message_sound hmessage
    rw [hfrom, hdone] at hlink ⊢
    exact hlink.push hm hb

theorem Sound.finish (hdone : m.done node = false) : Sound graph (m.finish graph node) := by
  intro consumer sub hin
  have hlink := h consumer sub hin
  show ((m.finish graph node).links consumer).Sound (if sub.fromNode = node then true else m.done sub.fromNode)
  unfold Manager.finish
  dsimp only
  rw [hin]
  dsimp only
  by_cases hfrom : sub.fromNode = node
  · rw [if_pos hfrom, if_pos hfrom]
    rw [hfrom, hdone] at hlink
    exact hlink.close sub.capacity
  · rw [if_neg hfrom, if_neg hfrom]
    exact hlink

theorem call_ready (hc : m.callable graph node = true) :
    ∃ next outcome, m.call graph work node = .ok (next, outcome) ∧ Sound graph next := by
  obtain ⟨hdone, -, hroom⟩ := callable_iff.mp hc
  obtain ⟨received, link, hreceive, hlink⟩ := receive_ready work h hc
  have hset := h.setNode (work.react node (m.state node) received).next hlink
  have hroom' : ∀ consumer ∈ graph.nodes,
      (m.setNode node (work.react node (m.state node) received).next link).fullFrom graph node consumer = false := by
    intro consumer hin
    apply eq_false_of_ne_true
    intro hfull
    obtain ⟨sub, hinput, hfrom, hle⟩ := fullFrom_iff.mp hfull
    have hne : consumer ≠ node := by
      intro heq
      have hrank := graph.input_rank hinput
      rw [hfrom, heq] at hrank
      exact Nat.lt_irrefl _ hrank
    rw [setNode_link_ne hne] at hle
    have hold := fullFrom_iff.mpr ⟨sub, hinput, hfrom, hle⟩
    rw [hroom consumer hin] at hold
    cases hold
  obtain ⟨sent, hsend, hsound, hsame⟩ := send_ready hset hdone hroom' (work.react node (m.state node) received).sends
  unfold call
  rw [hreceive]
  dsimp only
  rw [hsend]
  refine ⟨_, _, rfl, ?_⟩
  split
  · apply hsound.finish
    rw [hsame]
    exact hdone
  · exact hsound

theorem visit_ready (node : ι) : ∃ next, m.visit graph work node = .ok next ∧ Sound graph next := by
  unfold visit
  split
  · next hc =>
    obtain ⟨next, outcome, hcall, hsound⟩ := call_ready work h hc
    exact ⟨next, by rw [hcall]; rfl, hsound⟩
  · exact ⟨m, rfl, h⟩

theorem visits_ready (nodes : List ι) :
    ∃ next, m.visits graph work nodes = .ok next ∧ Sound graph next := by
  induction nodes generalizing m with
  | nil => exact ⟨m, rfl, h⟩
  | cons node rest ih =>
    obtain ⟨next, hvisit, hnext⟩ := visit_ready work h node
    rw [visits, hvisit]
    exact ih hnext

end

theorem pass_visits (budget : Nat) (expires : Nat → Bool) (order : List ι) (made : PassEnd) :
    ∃ nodes, (m.pass graph work budget expires made order).map Prod.fst = m.visits graph work nodes := by
  induction order generalizing m made with
  | nil => exact ⟨[], rfl⟩
  | cons node rest ih =>
    rw [pass]
    split
    · next hc =>
      have hvisit : m.visit graph work node = (m.call graph work node).map Prod.fst := if_pos hc
      split
      · next blocked hcall =>
        refine ⟨[node], ?_⟩
        rw [visits, hvisit, hcall]
        rfl
      · next next outcome hcall =>
        rw [hcall] at hvisit
        dsimp only
        split
        · refine ⟨[node], ?_⟩
          rw [visits, hvisit]
          rfl
        · obtain ⟨nodes, hnodes⟩ := @ih next _
          refine ⟨node :: nodes, ?_⟩
          rw [visits, hvisit]
          exact hnodes
    · exact ih _

theorem visits_append (nodes rest : List ι) (h : m.visits graph work nodes = .ok m') :
    m.visits graph work (nodes ++ rest) = m'.visits graph work rest := by
  induction nodes generalizing m with
  | nil =>
    cases h
    rfl
  | cons node nodes ih =>
    rw [visits] at h
    rw [List.cons_append, visits]
    cases hv : m.visit graph work node with
    | error blocked =>
      rw [hv] at h
      cases h
    | ok next =>
      rw [hv] at h
      exact ih h

theorem pump_visits (h : Sound graph m) (budget : Nat) (expires : Nat → Bool) (orders : List (List ι)) (calls : Nat) :
    ∃ nodes, pump graph work budget expires orders calls m = m.visits graph work nodes := by
  induction orders generalizing m calls with
  | nil => exact ⟨[], rfl⟩
  | cons order orders ih =>
    rw [pump]
    split
    · exact ⟨[], rfl⟩
    · obtain ⟨nodes, hnodes⟩ := pass_visits work budget expires order ⟨calls, false, false⟩ (m := m)
      obtain ⟨next, hvisits, hnext⟩ := visits_ready work h nodes
      rw [hvisits] at hnodes
      cases hpass : m.pass graph work budget expires ⟨calls, false, false⟩ order with
      | error blocked =>
        rw [hpass] at hnodes
        cases hnodes
      | ok passed =>
        obtain ⟨after, ended⟩ := passed
        rw [hpass] at hnodes
        cases hnodes
        dsimp only
        split
        · exact ⟨nodes, hvisits.symm⟩
        · obtain ⟨rest, hrest⟩ := ih hnext ended.calls
          exact ⟨nodes ++ rest, by rw [hrest, visits_append work nodes rest hvisits]⟩

theorem pumps_visits (h : Sound graph m) (requests : List (PumpRequest ι)) :
    ∃ nodes, m.pumps graph work requests = m.visits graph work nodes := by
  induction requests generalizing m with
  | nil => exact ⟨[], rfl⟩
  | cons request rest ih =>
    obtain ⟨nodes, hnodes⟩ := pump_visits work h request.budget request.expires request.orders 0
    obtain ⟨next, hvisits, hnext⟩ := visits_ready work h nodes
    obtain ⟨more, hmore⟩ := ih hnext
    refine ⟨nodes ++ more, ?_⟩
    rw [pumps, hnodes, hvisits, visits_append work nodes more hvisits]
    exact hmore

/-- The condition under which a manager does not get stuck: no node is done before it met the end of its input,
and the channel into an input that waits for the whole stream does not fill up before the stream ends. -/
structure Heeds (graph : NodeGraph ι) (m : Manager ι α σ) : Prop where
  finished : ∀ node ∈ graph.nodes, m.done node = true → graph.input node ≠ none → (m.links node).ended = true
  complete : ∀ node ∈ graph.nodes, ∀ spec ∈ graph.inputs node, ∀ sub, spec.source = some sub →
    spec.readiness = .complete → m.done sub.fromNode = false → (m.links node).queue.length < sub.capacity

omit [DecidableEq ι] in
theorem Heeds.producer_done (hh : Heeds graph m) (h : Sound graph m) (hn : node ∈ graph.nodes) {sub : InputSub ι}
    (hin : graph.input node = some sub) (hd : m.done node = true) : m.done sub.fromNode = true := by
  have hended := hh.finished node hn hd (by rw [hin]; nofun)
  exact ((h node sub hin).ended hended).1

theorem callable_below (hh : Heeds graph m) (h : Sound graph m) {bound : Nat}
    (hbound : ∀ node ∈ graph.nodes, graph.rank node ≤ bound) (fuel : Nat) :
    ∀ node ∈ graph.nodes, bound - graph.rank node < fuel → m.done node = false → m.wouldBlock graph node = true →
      ∃ other ∈ graph.nodes, m.callable graph other = true := by
  induction fuel with
  | zero => exact fun _ _ hlt => absurd hlt (Nat.not_lt_zero _)
  | succ fuel ih =>
    intro node hn hfuel hd hblock
    obtain ⟨consumer, hin, hfull⟩ := List.any_eq_true.mp hblock
    obtain ⟨sub, hinput, hfrom, hle⟩ := fullFrom_iff.mp hfull
    have hopen : m.done sub.fromNode = false := by rw [hfrom, hd]
    have hdone : m.done consumer = false := by
      apply eq_false_of_ne_true
      intro hdc
      rw [hh.producer_done h hin hinput hdc] at hopen
      cases hopen
    have hready : m.inputsReady graph consumer = true := by
      rw [inputsReady_iff]
      intro spec hspec
      cases hs : spec.source with
      | none =>
        apply isReady_of_closed
        rw [producerClosed, hs]
      | some sub' =>
        have hsame : sub' = sub := Option.some.inj ((graph.spec_input hspec hs).symm.trans hinput)
        rw [hsame] at hs
        refine (isReady_iff hs).mpr (Or.inr ⟨?_, ?_⟩)
        · cases hr : spec.readiness with
          | item => rfl
          | complete => exact absurd (hh.complete consumer hin spec hspec sub hs hr hopen) (Nat.not_lt.mpr hle)
        · intro hnil
          rw [hnil] at hle
          exact absurd hle (Nat.not_le.mpr (capacity_pos sub))
    cases hb : m.wouldBlock graph consumer with
    | false =>
      refine ⟨consumer, hin, ?_⟩
      rw [callable, hdone, hready, hb]
      rfl
    | true =>
      have hrank := graph.input_rank hinput
      rw [hfrom] at hrank
      have hlow := hbound consumer hin
      exact ih consumer hin (by omega) hdone hb

/-- Following empty channels upstream, where none is full, ends at a node that can be called. -/
theorem callable_above (hfree : ∀ node ∈ graph.nodes, m.done node = false → m.wouldBlock graph node = false)
    (fuel : Nat) :
    ∀ node ∈ graph.nodes, graph.rank node < fuel → m.done node = false →
      ∃ other ∈ graph.nodes, m.callable graph other = true := by
  induction fuel with
  | zero => exact fun _ _ hlt => absurd hlt (Nat.not_lt_zero _)
  | succ fuel ih =>
    intro node hn hfuel hd
    cases hr : m.inputsReady graph node with
    | true =>
      refine ⟨node, hn, ?_⟩
      rw [callable, hd, hr, hfree node hn hd]
      rfl
    | false =>
      have hnot : ¬∀ spec ∈ graph.inputs node, m.isReady node spec = true := by
        intro hall
        rw [inputsReady_iff.mpr hall] at hr
        cases hr
      push Not at hnot
      obtain ⟨spec, hspec, hwait⟩ := hnot
      cases hs : spec.source with
      | none => exact absurd (isReady_of_closed (by rw [producerClosed, hs])) hwait
      | some sub =>
        have hopen : m.done sub.fromNode = false := by
          apply eq_false_of_ne_true
          intro hclosed
          exact hwait ((isReady_iff hs).mpr (Or.inl hclosed))
        have hrank := graph.ranked node spec hspec sub hs
        exact ih sub.fromNode (graph.present node hn spec hspec sub hs) (by omega) hopen

theorem exists_callable (hh : Heeds graph m) (h : Sound graph m) (hn : node ∈ graph.nodes) (hd : m.done node = false) :
    ∃ other ∈ graph.nodes, m.callable graph other = true := by
  by_cases hfree : ∀ node ∈ graph.nodes, m.done node = false → m.wouldBlock graph node = false
  · exact callable_above hfree (graph.rank node + 1) node hn (Nat.lt_succ_self _) hd
  · push Not at hfree
    obtain ⟨blocked, hin, hopen, hblock⟩ := hfree
    obtain ⟨bound, hbound⟩ := graph.exists_rank_bound graph.nodes
    exact callable_below hh h hbound (bound - graph.rank blocked + 1) blocked hin (Nat.lt_succ_self _) hopen
      (eq_true_of_ne_false hblock)

omit [DecidableEq ι] in
theorem Sound.new (graph : NodeGraph ι) (state : ι → σ) : Sound graph (new state : Manager ι α σ) :=
  fun _ _ _ => Link.Sound.new

end Manager

/-- No sequence of pumps makes the thread wait, and each is a sequence of visits. In a state that a sequence of
visits reaches with no node done before the end of its input, and no input that waits for a whole stream cut off
by its channel, some node can be called unless all are done, and then each got what its producer sent. -/
theorem cooperative_runs_keep_going {ι α σ : Type} [DecidableEq ι] (graph : NodeGraph ι) (work : NodeWork ι α σ)
    (state : ι → σ) (requests : List (Manager.PumpRequest ι)) (visited : List ι) :
    (∃ m nodes, (Manager.new state).pumps graph work requests = .ok m ∧
      (Manager.new state).visits graph work nodes = .ok m) ∧
    ∃ m, (Manager.new state).visits graph work visited = .ok m ∧ (m.Heeds graph →
      ((∃ node ∈ graph.nodes, m.done node = false) → ∃ node ∈ graph.nodes, m.callable graph node = true) ∧
      ((∀ node ∈ graph.nodes, m.done node = true) → ∀ node ∈ graph.nodes, graph.input node ≠ none →
        (m.links node).received = (m.links node).sent)) := by
  have hnew : Manager.Sound graph (Manager.new state : Manager ι α σ) := Manager.Sound.new graph state
  constructor
  · obtain ⟨nodes, hnodes⟩ := Manager.pumps_visits work hnew requests
    obtain ⟨m, hm, -⟩ := Manager.visits_ready work hnew nodes
    exact ⟨m, nodes, hnodes.trans hm, hm⟩
  · obtain ⟨m, hm, hsound⟩ := Manager.visits_ready work hnew visited
    refine ⟨m, hm, ?_⟩
    intro hheeds
    constructor
    · rintro ⟨node, hn, hd⟩
      exact Manager.exists_callable hheeds hsound hn hd
    · intro hall node hn hin
      obtain ⟨sub, hsub⟩ := Option.ne_none_iff_exists'.mp hin
      exact (hsound node sub hsub).received (hheeds.finished node hn (hall node hn) hin)

/-- A source, `false`, and a sink, `true`, with a channel for one envelope between them. -/
def sourceAndSink (readiness : StreamReadiness) : NodeGraph Bool where
  nodes := [false, true]
  inputs node := if node then [⟨some ⟨false, 0, 1⟩, readiness⟩] else []
  scheduling _ := .all
  rank node := if node then 1 else 0
  single node := by cases node <;> simp
  ranked node := by cases node <;> simp
  present node := by cases node <;> simp

/-- The source counts to `count`; the sink takes one item a call, and gives up after `patience` of them. -/
def countInto (count patience : Nat) : NodeWork Bool Nat Nat where
  receives node _ := node
  react node state received :=
    match node, received with
    | false, _ =>
      if state < count then ⟨state + 1, fun _ => some (.send state), .ok true false⟩
      else ⟨state, fun _ => none, .shutdown⟩
    | true, some (some _) => ⟨state + 1, fun _ => none, .ok true (decide (patience ≤ state + 1))⟩
    | true, _ => ⟨state, fun _ => none, .shutdown⟩

theorem cooperative_runs_keep_going_count :
    ∃ m, (Manager.new fun _ => 0).visits (sourceAndSink .item) (countInto 2 9)
        [true, false, false, true, false, true, false, true] = .ok m ∧
      m.Heeds (sourceAndSink .item) ∧ (∀ node ∈ (sourceAndSink .item).nodes, m.done node = true) ∧
      (m.links true).sent = [0, 1] ∧ (m.links true).received = (m.links true).sent := by
  obtain ⟨m, hm, hholds⟩ := (cooperative_runs_keep_going (sourceAndSink .item) (countInto 2 9) (fun _ => 0) []
    [true, false, false, true, false, true, false, true]).2
  have hdone : ∀ node ∈ (sourceAndSink .item).nodes, m.done node = true := by
    cases hm
    decide
  have hheeds : m.Heeds (sourceAndSink .item) := by
    cases hm
    refine ⟨?_, ?_⟩
    · decide
    · intro node hn spec hspec sub hs hr
      cases node with
      | false => cases hspec
      | true =>
        rw [List.mem_singleton.mp hspec] at hr
        cases hr
  have hsent : (m.links true).sent = [0, 1] := by
    cases hm
    decide
  exact ⟨m, hm, hheeds, hdone, hsent, (hholds hheeds).2 hdone true (by decide) (by decide)⟩

/-- A sink that is done keeps its channel, which fills up; and one that waits for the whole stream lets it fill
up. Either way no node can be called while the source is not done. -/
theorem cooperative_run_gets_stuck :
    (∃ m, (Manager.new fun _ => 0).visits (sourceAndSink .item) (countInto 3 1) [false, true, false] = .ok m ∧
      m.done false = false ∧ ∀ node ∈ (sourceAndSink .item).nodes, m.callable (sourceAndSink .item) node = false) ∧
    ∃ m, (Manager.new fun _ => 0).visits (sourceAndSink .complete) (countInto 3 9) [false] = .ok m ∧
      m.done false = false ∧
      ∀ node ∈ (sourceAndSink .complete).nodes, m.callable (sourceAndSink .complete) node = false :=
  ⟨⟨_, rfl, by decide, by decide⟩, _, rfl, by decide, by decide⟩

end LogicConduit
