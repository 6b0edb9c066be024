import Gokv.Cluster.World

/-! Elections without an operator.

All live nodes are followers, the stores stand still, and every vote request between
live nodes is answered. Then a node's configuration and counter never change
(`Calm.card`), so what a poll has learned from a peer stays true while it asks the
others (`Polling`), however many polls run at once. A poll that has asked everybody
has asked every live node, and promotes only the one that is furthest ahead:
`elected_is_best`. -/
namespace Gokv.Cluster
open Base Engine

/-- What an election compares: who a live node is, and how far its store has come. -/
abbrev Cards := String → Option (Config × UInt64)

def World.card (w : World) : Cards := fun a => (w.nodes a).map fun m => (m.node.cfg, m.store.seq)

/-- The node at `a` is ahead of every other live node, by its counter or, on a tie, by
its id. -/
def Best (cards : Cards) (a : String) : Prop :=
  ∀ c, cards a = some c → ∀ b d, cards b = some d → b ≠ a → d.2 < c.2 ∨ d.2 = c.2 ∧ c.1.id < d.1.id

/-- The node at `a` and the live peers it lists are more than half of its cluster. -/
def Majority (cards : Cards) (a : String) : Prop :=
  ∀ c, cards a = some c → c.1.clusterSize < 2 * (1 + (c.1.peersExceptSelf.filter fun b => (cards b).isSome).length)

/-- The live nodes list each other, under their addresses, and no two share an id. -/
structure Electorate (cards : Cards) : Prop where
  addr : ∀ a c, cards a = some c → c.1.addr = a ∧ a ≠ ""
  listed : ∀ a c b d, cards a = some c → cards b = some d → b ≠ a → b ∈ c.1.peers
  ids : ∀ a c b d, cards a = some c → cards b = some d → c.1.id = d.1.id → a = b

section Election
variable [Checksum]

/-- Nobody is promoted by hand, only dead peers do not answer, and no store moves. -/
def Member.Calm (nodes : String → Option Member) (now : Int) (m : Member) : Move → Prop
  | .promote => False
  | .unreachable => (m.asked nodes).isNone
  | mv => (m.move nodes now mv).1.store.seq = m.store.seq

instance decidableMemberCalm (nodes : String → Option Member) (now : Int) (m : Member) :
    (mv : Move) → Decidable (m.Calm nodes now mv)
  | .promote => .isFalse id
  | .unreachable => inferInstanceAs (Decidable (_ = true))
  | .startElection | .vote | .hear | .finish | .promoteTo _ | .follow | .take | .request | .serve | .emit _
  | .contact | .deliver | .fail | .write _ => inferInstanceAs (Decidable (_ = _))

def Calm (w : World) (i : Int × Turn) : Prop :=
  match i.2 with
  | .node a mv => ∀ m ∈ w.nodes a, m.Calm w.nodes i.1 mv
  | .announce _ | .lose _ => True

instance decidableCalm (w : World) : (i : Int × Turn) → Decidable (Calm w i)
  | (now, .node a mv) => inferInstanceAs (Decidable (∀ m ∈ w.nodes a, m.Calm w.nodes now mv))
  | (_, .announce _) | (_, .lose _) => .isTrue trivial

/-! ### What never changes -/

variable {w : World} {now : Int} {m : Member} {nodes : String → Option Member}

theorem Member.Calm.seq {mv : Move} (h : m.Calm nodes now mv) :
    (m.move nodes now mv).1.store.seq = m.store.seq := by
  cases mv with
  | promote => exact h.elim
  | unreachable => rfl
  | startElection | vote | hear | finish | promoteTo _ | follow | take | request | serve | emit _ | contact | deliver
  | fail | write _ => exact h

/-- **Configurations and counters stand still.** -/
theorem Calm.card {i : Int × Turn} (h : Calm w i) : (w.step i.1 i.2).1.card = w.card := by
  obtain ⟨now, t⟩ := i
  funext a
  have hsome := World.step_isSome w now t a
  cases hm : (w.step now t).1.nodes a with
  | none =>
    rw [hm, Option.isSome_none, eq_comm, Option.isSome_eq_false_iff, Option.isNone_iff_eq_none] at hsome
    rw [World.card, World.card, hm, hsome]
  | some m =>
    rcases World.step_nodes hm with hsame | ⟨m₀, hm₀, ⟨mv, rfl, rfl⟩ | ⟨i, x, -, -, -, rfl⟩⟩
    · rw [World.card, World.card, hm, hsame]
    · have hcalm : m₀.Calm w.nodes now mv := h m₀ hm₀
      rw [World.card, World.card, hm, hm₀, Option.map_some, Option.map_some, Member.move_cfg, hcalm.seq]
    · rw [World.card, World.card, hm, hm₀]
      exact congrArg (fun c => some (c, m₀.store.seq)) (step_cfg ..)

/-! ### Polls -/

/-- What a poll of the node at `a` knows: the peers it has asked, how many of them are
live, and whether one of these is ahead. -/
def Polling (cards : Cards) (c : Config × UInt64) (p : Poll) : Prop :=
  p.mySeq = c.2 ∧ ∃ asked, c.1.peersExceptSelf = asked ++ p.peers ∧
    p.responses = 1 + (asked.filter fun b => (cards b).isSome).length ∧
    (p.bestCandidate = true → ∀ b ∈ asked, ∀ d, cards b = some d → ¬ (d.2 > c.2 ∨ d.2 = c.2 ∧ d.1.id < c.1.id))

variable {cards : Cards} {c : Config × UInt64} {p : Poll}

omit [Checksum] in
theorem polling_start (cards : Cards) {n : Node} {q : UInt64} (hn : n.startElection q = some p) :
    Polling cards (n.cfg, q) p := by
  simp only [Node.startElection] at hn
  split at hn
  · cases hn
  · cases hn
    exact ⟨rfl, [], rfl, rfl, fun _ b hb => absurd hb List.not_mem_nil⟩

omit [Checksum] in
/-- A live peer's answer is counted and compared. -/
theorem Polling.heard (h : Polling cards c p) {b : String} {rest : List String} (hpeers : p.peers = b :: rest)
    {d : Config × UInt64} (hd : cards b = some d) {r : VoteReply} (hid : r.id = d.1.id) (hseq : r.seq = d.2) :
    Polling cards c (p.heard c.1.id r) := by
  obtain ⟨hmine, asked, hsplit, hcount, hbest⟩ := h
  refine ⟨hmine, asked ++ [b], ?_, ?_, fun hb x hx d' hd' => ?_⟩
  · simp only [Poll.heard, hpeers, List.tail_cons, hsplit, List.append_assoc, List.singleton_append]
  · simp only [Poll.heard, List.filter_append, List.length_append, hcount]
    simp [hd]
    omega
  · simp only [Poll.heard] at hb
    split at hb
    · cases hb
    case isFalse hrank =>
      rcases List.mem_append.mp hx with hx | hx
      · exact hbest hb x hx d' hd'
      · rw [List.mem_singleton.mp hx, hd] at hd'
        cases hd'
        simpa only [Poll.outranked, hid, hseq, hmine] using hrank

omit [Checksum] in
theorem Polling.unreachable (h : Polling cards c p) (hdead : p.peers.head?.bind cards = none) :
    Polling cards c p.unreachable := by
  obtain ⟨hmine, asked, hsplit, hcount, hbest⟩ := h
  cases hpeers : p.peers with
  | nil => exact ⟨hmine, asked, by simpa [Poll.unreachable, hpeers] using hsplit, hcount, hbest⟩
  | cons b rest =>
    have hd : cards b = none := by simpa [hpeers] using hdead
    refine ⟨hmine, asked ++ [b], ?_, ?_, fun hb x hx d' hd' => ?_⟩
    · simp only [Poll.unreachable, hpeers, List.tail_cons, hsplit, List.append_assoc, List.singleton_append]
    · show p.responses = _
      simp [hcount, List.filter_append, hd]
    · rcases List.mem_append.mp hx with hx | hx
      · exact hbest hb x hx d' hd'
      · rw [List.mem_singleton.mp hx, hd] at hd'
        cases hd'

omit [Checksum] in
/-- **A poll that promotes** has asked every live node and found none ahead. -/
theorem Polling.elects (h : Polling cards c p) (he : Electorate cards) {a : String} (hc : cards a = some c)
    (hdone : p.peers = []) {epoch : UInt64} (hout : p.outcome c.1.clusterSize = some epoch) :
    Best cards a ∧ Majority cards a := by
  obtain ⟨hmine, asked, hsplit, hcount, hbest⟩ := h
  rw [hdone, List.append_nil] at hsplit
  simp only [Poll.outcome] at hout
  split at hout
  · cases hout
  case isFalse hsize =>
    split at hout
    · cases hout
    case isFalse hb =>
      refine ⟨fun c' hc' b d hd hne => ?_, fun c' hc' => ?_⟩
      · cases Option.some.inj (hc.symm.trans hc')
        have hlisted : b ∈ c.1.peersExceptSelf := by
          rw [Config.peersExceptSelf, List.mem_filter, (he.addr a c hc).1]
          exact ⟨he.listed a c b d hc hd hne, by simp [hne, (he.addr b d hd).2]⟩
        have hnot := hbest (Bool.not_eq_false _ ▸ hb) b (hsplit ▸ hlisted) d hd
        have hne' : c.1.id ≠ d.1.id := fun hid => hne (he.ids a c b d hc hd hid).symm
        by_cases heq : d.2 = c.2
        · exact .inr ⟨heq, lt_of_le_of_ne (not_lt.mp fun hlt => hnot (.inr ⟨heq, hlt⟩)) hne'⟩
        · refine .inl (UInt64.lt_of_le_of_ne (UInt64.not_lt.mp fun hgt => hnot (.inl hgt)) heq)
      · cases Option.some.inj (hc.symm.trans hc')
        rw [hsplit]
        omega

/-! ### Members -/

/-- What the election needs of a member. -/
structure Standing (cards : Cards) (a : String) (m : Member) : Prop where
  card : cards a = some (m.node.cfg, m.store.seq)
  promotes : m.control.promotes = []
  leader : m.node.role = .leader → Best cards a ∧ Majority cards a
  poll : ∀ p, m.control.poll = some p → Polling cards (m.node.cfg, m.store.seq) p
  /-- A reply comes from the peer being asked. -/
  inbox : ∀ r, m.inbox = some r → ∃ p b d, m.control.poll = some p ∧ p.peers.head? = some b ∧ cards b = some d ∧
    r.id = d.1.id ∧ r.seq = d.2

variable {a : String} {m' : Member}

omit [Checksum] in
theorem Standing.same (h : Standing cards a m) (hc : m'.control = m.control) (hi : m'.inbox = m.inbox)
    (hq : m'.store.seq = m.store.seq) : Standing cards a m' := by
  have hn : m'.node = m.node := congrArg Control.node hc
  exact ⟨hn ▸ hq ▸ h.card, hc ▸ h.promotes, hn ▸ h.leader, hn ▸ hq ▸ hc ▸ h.poll, hi ▸ hc ▸ h.inbox⟩

omit [Checksum] in
/-- A member that has entered an event: the promotions, the poll and the inbox are left
to be looked at. -/
theorem Standing.entered (h : Standing cards a m) (now : Int) (e : Event) (hc : m'.control = m.control.step now e)
    (hstore : m'.store = m.store) (hpr : (m.control.step now e).promotes = m.control.promotes)
    (hlead : ∀ epoch, m.control.section e = some (.promoteTo epoch) → Best cards a ∧ Majority cards a)
    (hpoll : ∀ p, m.control.polled e = some p → Polling cards (m.node.cfg, m.store.seq) p)
    (hinbox : ∀ r, m'.inbox = some r → ∃ p b d, m.control.polled e = some p ∧ p.peers.head? = some b ∧
      cards b = some d ∧ r.id = d.1.id ∧ r.seq = d.2) : Standing cards a m' := by
  have hn : m'.node = (m.control.step now e).node := congrArg Control.node hc
  have hcard : (m'.node.cfg, m'.store.seq) = (m.node.cfg, m.store.seq) := by rw [hn, hstore, step_cfg]
  refine ⟨hcard ▸ h.card, ?_, fun hr => ?_, fun p hp => ?_, fun r hr => ?_⟩
  · rw [hc, hpr, h.promotes]
  · rw [hn] at hr
    obtain ⟨-, hstep⟩ | ⟨x, hx, hstep⟩ := step_node m.control now e
    · rw [hstep] at hr
      exact h.leader hr
    · rw [hstep] at hr
      rcases Node.enter_role hr with hr | ⟨epoch, rfl⟩
      · exact h.leader hr
      · exact hlead epoch hx
  · rw [hc] at hp
    rw [hcard]
    exact hpoll p hp
  · rw [hc]
    exact hinbox r hr

omit [Checksum] in
/-- An event that neither promotes nor touches the poll. -/
theorem Standing.enter (h : Standing cards a m) (now : Int) (e : Event) (hc : m'.control = m.control.step now e)
    (hstore : m'.store = m.store) (hi : m'.inbox = m.inbox)
    (hx : ∀ epoch, m.control.section e ≠ some (.promoteTo epoch)) (hpoll : m.control.polled e = m.control.poll)
    (hpr : (m.control.step now e).promotes = m.control.promotes) : Standing cards a m' :=
  h.entered now e hc hstore hpr (fun epoch he => absurd he (hx epoch)) (fun p hp => h.poll p (hpoll ▸ hp))
    fun r hr => hpoll ▸ h.inbox r (hi ▸ hr)

omit [Checksum] in
theorem Standing.announced (h : Standing cards a m) (x : Announcement) : Standing cards a (m.announced now x) :=
  h.enter now (.announce x.leaderAddr x.epoch) rfl rfl rfl nofun rfl rfl

theorem Standing.process (h : Standing cards a m) (s : Session) (f : Frame)
    (hq : (m.process now s f).1.store.seq = m.store.seq) : Standing cards a (m.process now s f).1 := by
  cases f with
  | fullSync | replData _ =>
    simp only [Member.process] at hq ⊢
    split at hq <;> exact h.same rfl rfl hq
  | heartbeat epoch addr => exact h.enter now (.heartbeat addr epoch) rfl rfl rfl (by rintro _ ⟨⟩) rfl rfl
  | redirect newLeader => exact h.enter now (.redirect s.addr newLeader) rfl rfl rfl (by rintro _ ⟨⟩) rfl rfl
  | live | error _ => exact h.same rfl rfl rfl

omit [Checksum] in
theorem Standing.startElection (h : Standing cards a m) :
    Standing cards a (m.enter now (.startElection m.store.seq)) := by
  cases hp : m.control.poll with
  | some p =>
    refine h.enter now (.startElection m.store.seq) rfl rfl rfl nofun ?_ rfl
    show (if m.control.poll = none then _ else m.control.poll) = m.control.poll
    exact if_neg (by rw [hp]; exact Option.some_ne_none p)
  | none =>
    refine h.entered now (.startElection m.store.seq) rfl rfl rfl nofun (fun p hp' => ?_) fun r hr => ?_
    · have hp' : (if m.control.poll = none then m.node.startElection m.store.seq else m.control.poll) = some p := hp'
      rw [if_pos hp] at hp'
      exact polling_start cards hp'
    · obtain ⟨p, b, d, hp', -⟩ := h.inbox r hr
      rw [hp] at hp'
      cases hp'

omit [Checksum] in
/-- The reply of the peer being asked. -/
theorem Standing.reply (h : Standing cards a m) {r : VoteReply} (hr : m.inbox = some r) :
    Standing cards a ({m with inbox := none}.enter now (.reply r)) := by
  obtain ⟨p, b, d, hp, hhead, hd, hid, hseq⟩ := h.inbox r hr
  obtain ⟨rest, hpeers⟩ := List.head?_eq_some_iff.mp hhead
  refine h.entered now (.reply r) rfl rfl rfl (fun epoch hx => ?_) (fun p' hp' => ?_) nofun
  · simp only [Control.section, hp, hpeers] at hx
    obtain ⟨seen, -, hseen⟩ := Option.map_eq_some_iff.mp hx
    cases hseen
  · unfold Control.polled at hp'
    simp only [hp, hpeers] at hp'
    split at hp'
    · cases hp'
    · cases hp'
      exact (h.poll p hp).heard hpeers hd hid hseq

omit [Checksum] in
theorem Standing.unreachable (h : Standing cards a m) (hcards : ∀ b, cards b = none ↔ nodes b = none)
    (hdead : (m.asked nodes).isNone) : Standing cards a ({m with inbox := none}.enter now .unreachable) := by
  refine h.entered now .unreachable rfl rfl rfl nofun (fun p' hp' => ?_) nofun
  obtain ⟨p, hp, rfl⟩ := Option.map_eq_some_iff.mp hp'
  refine (h.poll p hp).unreachable ?_
  simp only [Member.asked, hp, Option.bind_some, Option.isNone_iff_eq_none] at hdead
  cases hhead : p.peers.head? with
  | none => rfl
  | some b =>
    rw [hhead, Option.bind_some] at hdead
    exact (hcards b).mpr hdead

omit [Checksum] in
/-- The end of a poll. -/
theorem Standing.finish (h : Standing cards a m) (he : Electorate cards) : Standing cards a (m.enter now .finish) := by
  refine h.entered now .finish rfl rfl rfl (fun epoch hx => ?_) (fun p hp => ?_) fun r hr => ?_
  · simp only [Control.section] at hx
    split at hx
    case h_1 p hp =>
      split at hx
      case isTrue hdone =>
        obtain ⟨epoch, hout, -⟩ := Option.map_eq_some_iff.mp hx
        exact (h.poll p hp).elects he h.card hdone hout
      · cases hx
    · cases hx
  · exact h.poll p (Option.filter_eq_some_iff.mp hp).1
  · obtain ⟨p, b, d, hp, hhead, hrest⟩ := h.inbox r hr
    obtain ⟨rest, hpeers⟩ := List.head?_eq_some_iff.mp hhead
    exact ⟨p, b, d, Option.filter_eq_some_iff.mpr ⟨hp, by rw [hpeers]; rfl⟩, hhead, hrest⟩

/-- **Every move keeps a member in order.** -/
theorem Standing.move (h : Standing cards a m) (he : Electorate cards)
    (hcards : ∀ b, cards b = (nodes b).map fun m => (m.node.cfg, m.store.seq)) {mv : Move}
    (hcalm : m.Calm nodes now mv) : Standing cards a (m.move nodes now mv).1 := by
  have hq := hcalm.seq
  cases mv with
  | startElection =>
    simp only [Member.move]
    split
    · exact h.startElection
    · exact h
  | vote =>
    simp only [Member.move]
    split
    case h_1 peer hasked hnone =>
      refine ⟨h.card, h.promotes, h.leader, h.poll, fun r hr => ?_⟩
      cases hr
      obtain ⟨p, hp, hbind⟩ := Option.bind_eq_some_iff.mp hasked
      obtain ⟨b, hb, hpeer⟩ := Option.bind_eq_some_iff.mp hbind
      refine ⟨p, b, (peer.node.cfg, peer.store.seq), hp, hb, ?_, rfl, rfl⟩
      rw [hcards, hpeer]
      rfl
    · exact h
  | hear =>
    simp only [Member.move]
    split
    case h_1 r hr => exact h.reply hr
    · exact h
  | unreachable => exact h.unreachable (fun b => by rw [hcards, Option.map_eq_none_iff]) hcalm
  | finish => exact h.finish he
  | promote => exact hcalm.elim
  | promoteTo i =>
    have hnone : m.control.section (.promoteTo i) = none := by
      simp only [Control.section, h.promotes, List.getElem?_nil, Option.map_none]
    refine h.enter now (.promoteTo i) rfl rfl rfl (fun epoch hx => by cases hnone.symm.trans hx) rfl ?_
    simp only [Control.step, h.promotes, List.eraseIdx_nil]
  | take =>
    simp only [Member.move]
    split
    · split
      · exact h
      · exact h.enter now .resume rfl rfl rfl (by rintro _ ⟨⟩) rfl rfl
    · exact h
  | contact =>
    simp only [Member.move]
    split
    · exact h
    · exact h.enter now .contact rfl rfl rfl (by rintro _ ⟨⟩) rfl rfl
  | deliver =>
    simp only [Member.move] at hq ⊢
    split
    case h_1 s hs =>
      simp only [hs] at hq
      split
      case h_1 f rest hf =>
        simp only [hf] at hq
        exact h.process _ f hq
      · exact h
    · exact h
  | follow =>
    simp only [Member.move]
    split <;> exact h.same rfl rfl rfl
  | request | serve | emit _ =>
    simp only [Member.move]
    repeat' split
    all_goals exact h.same rfl rfl rfl
  | fail => exact h.same rfl rfl rfl
  | write op => exact h.same rfl rfl hq

/-! ### Runs -/

/-- Every member is in order. -/
def World.Ordered (cards : Cards) (w : World) : Prop :=
  w.card = cards ∧ ∀ a m, w.nodes a = some m → Standing cards a m

theorem World.Ordered.step (he : Electorate cards) (h : w.Ordered cards) {i : Int × Turn} (hcalm : Calm w i) :
    (w.step i.1 i.2).1.Ordered cards := by
  refine ⟨hcalm.card.trans h.1, fun a m hm => ?_⟩
  rcases World.step_nodes hm with hsame | ⟨m₀, hm₀, ⟨mv, ht, rfl⟩ | ⟨k, x, -, -, -, rfl⟩⟩
  · exact h.2 a m hsame
  · refine (h.2 a m₀ hm₀).move he (fun b => congrFun h.1.symm b) ?_
    rw [Calm, ht] at hcalm
    exact hcalm m₀ hm₀
  · exact (h.2 a m₀ hm₀).announced x

/-- All live nodes follow, and none is standing for election. -/
def World.Leaderless (w : World) : Prop :=
  ∀ a m, w.nodes a = some m → m.node.role = .follower ∧ m.control.poll = none ∧ m.control.promotes = [] ∧ m.inbox = none

/-- **Only the node that is furthest ahead can become leader**, in every run without an
operator in which the stores stand still and live nodes answer: whoever leads is ahead
of every other live node, so no other leads, and a majority of its cluster is live. -/
theorem elected_is_best (w : World) (is : List (Int × Turn)) (he : Electorate w.card) (hw : w.Leaderless)
    (hcalm : worldMachine.Meets Calm w is) (a : String) (m : Member)
    (ha : (worldMachine.run w is).1.nodes a = some m) (hlead : m.node.role = .leader) :
    Best w.card a ∧ Majority w.card a ∧
      ∀ b m', (worldMachine.run w is).1.nodes b = some m' → m'.node.role = .leader → b = a := by
  have hstart : w.Ordered w.card := ⟨rfl, fun b m₀ hb => by
    obtain ⟨hrole, hpoll, hpr, hin⟩ := hw b m₀ hb
    exact ⟨by rw [World.card, hb]; rfl, hpr, fun hl => (nomatch hrole.symm.trans hl),
      fun p hp => (nomatch hpoll.symm.trans hp), fun r hr => (nomatch hin.symm.trans hr)⟩⟩
  obtain ⟨-, hrun⟩ := hcalm.invariant (P := World.Ordered w.card) (fun _ _ hs hi => hs.step he hi) hstart
  have hs := hrun a m ha
  obtain ⟨hbest, hmajority⟩ := hs.leader hlead
  refine ⟨hbest, hmajority, fun b m' hb hlead' => ?_⟩
  by_contra hne
  have hs' := hrun b m' hb
  rcases hbest _ hs.card b _ hs'.card hne with hlt | ⟨heq, hid⟩
  · rcases (hs'.leader hlead').1 _ hs'.card a _ hs.card (Ne.symm hne) with hlt' | ⟨heq', -⟩
    · exact UInt64.lt_irrefl _ (UInt64.lt_trans hlt hlt')
    · exact UInt64.lt_irrefl _ (heq' ▸ hlt)
  · rcases (hs'.leader hlead').1 _ hs'.card a _ hs.card (Ne.symm hne) with hlt' | ⟨-, hid'⟩
    · exact UInt64.lt_irrefl _ (heq ▸ hlt')
    · exact lt_irrefl _ (hid.trans hid')

end Election

/-- Two live nodes of three; the third led and is gone. -/
def survivors : List Member :=
  [.start ⟨"a", "a:1", ["a:1", "b:1", "d:1"], false, "d:1", 0⟩ 0 (Store.init ⟨0, .never⟩),
    .start ⟨"b", "b:1", ["a:1", "b:1", "d:1"], false, "d:1", 0⟩ 0 (Store.init ⟨0, .never⟩)]

/-- Both stand, ask the other and then the dead peer; the one with the lower id is
promoted. -/
def bothStand : List (Int × Turn) :=
  [.node "a:1" .startElection, .node "b:1" .startElection, .node "a:1" .vote, .node "b:1" .vote, .node "a:1" .hear,
    .node "b:1" .hear, .node "b:1" .unreachable, .node "a:1" .unreachable, .node "b:1" .finish,
    .node "a:1" .finish].map fun t => (9000000000, t)

theorem elected_is_best_both :
    (∃ m, (worldMachine.run (World.start survivors) bothStand).1.nodes "a:1" = some m ∧ m.node.role = .leader) ∧
      Best (World.start survivors).card "a:1" ∧ Majority (World.start survivors).card "a:1" := by
  obtain ⟨m, hm, hlead⟩ : ∃ m, (worldMachine.run (World.start survivors) bothStand).1.nodes "a:1" = some m ∧
      m.node.role = .leader := by
    have hrole : ((worldMachine.run (World.start survivors) bothStand).1.nodes "a:1").map (fun m => m.node.role) =
        some .leader := by decide +kernel
    exact Option.map_eq_some_iff.mp hrole
  have hcard {a : String} {c : Config × UInt64} (h : (World.start survivors).card a = some c) :
      ∃ m ∈ survivors, m.node.cfg.addr = a ∧ m.node.cfg = c.1 := by
    obtain ⟨m, hm, rfl⟩ := Option.map_eq_some_iff.mp h
    obtain ⟨hmem, haddr⟩ := World.mem_start hm
    exact ⟨m, hmem, haddr, rfl⟩
  have he : Electorate (World.start survivors).card := by
    have haddr : ∀ m ∈ survivors, m.node.cfg.addr ≠ "" := by decide
    have hlisted : ∀ m ∈ survivors, ∀ m' ∈ survivors, m'.node.cfg.addr ∈ m.node.cfg.peers := by decide
    have hids : ∀ m ∈ survivors, ∀ m' ∈ survivors, m.node.cfg.id = m'.node.cfg.id →
      m.node.cfg.addr = m'.node.cfg.addr := by decide
    refine ⟨fun a c ha => ?_, fun a c b d ha hb _ => ?_, fun a c b d ha hb hid => ?_⟩
    · obtain ⟨m, hm, rfl, hc⟩ := hcard ha
      exact ⟨hc ▸ rfl, haddr m hm⟩
    · obtain ⟨m, hm, -, hc⟩ := hcard ha
      obtain ⟨m', hm', rfl, -⟩ := hcard hb
      exact hc ▸ hlisted m hm m' hm'
    · obtain ⟨m, hm, rfl, hc⟩ := hcard ha
      obtain ⟨m', hm', rfl, hd⟩ := hcard hb
      exact hids m hm m' hm' (by rw [hc, hd, hid])
  have hw : (World.start survivors).Leaderless := by
    have hidle : ∀ m ∈ survivors, m.node.role = .follower ∧ m.control.poll = none ∧ m.control.promotes = [] ∧
      m.inbox = none := by decide
    exact fun a m ha => hidle m (World.mem_start ha).1
  obtain ⟨hbest, hmajority, -⟩ := elected_is_best _ bothStand he hw (by decide +kernel) "a:1" m hm hlead
  exact ⟨⟨m, hm, hlead⟩, hbest, hmajority⟩

end Gokv.Cluster
