import Gokv.Cluster.State

/-! One node under every interleaving of what moves its control state.

A `Control` is the node, its running poll, and the `Promote` calls that have read
the epoch and not yet promoted. An event lets one of them go on, or delivers an
announcement, a heartbeat or a redirect; at most one critical section is entered
(`Control.section`), and nothing else writes the node (`step_node`).

Two properties fail only through sections that trust what was true when their caller
looked. `epoch_never_falls`: the epoch of a node falls, and an announcement accepted
during a poll is overruled, only by a promotion that strikes a follower whose epoch
has risen past what the promotion was computed from. `leader_advertises_itself`: a
leader's address is its own unless the end of a poll or a redirect struck after the
promotion. -/
namespace Gokv.Cluster
open Base

structure Control where
  node : Node
  poll : Option Poll
  /-- The epochs that `Promote` calls have read. -/
  promotes : List UInt64
  /-- The epochs of the announcements accepted since the poll began. -/
  accepted : List UInt64
  deriving DecidableEq, Repr

def Control.start (cfg : Config) (now : Int) : Control := ⟨new cfg now, none, [], []⟩

inductive Event where
  | startElection (seq : UInt64)
  /-- The peer being asked does not answer. -/
  | unreachable
  | reply (r : VoteReply)
  /-- Every peer was asked. -/
  | finish
  | announce (leaderAddr : String) (epoch : UInt64)
  | heartbeat (leaderAddr : String) (epoch : UInt64)
  /-- `Promote` reads the epoch, ... -/
  | promote
  /-- ... and the `i`-th such call promotes. -/
  | promoteTo (i : Nat)
  | redirect (addr newLeader : String)
  | contact
  /-- `replicateFrom` takes the flag of a demotion. -/
  | resume
  deriving DecidableEq, Repr

/-- The critical section an event enters. -/
def Control.section (c : Control) : Event → Option Section
  | .startElection _ | .unreachable | .promote => none
  | .reply r =>
    match c.poll with
    | some p =>
      match p.peers with
      | peer :: _ => (p.leaderSeen peer r).map fun seen => .adoptLeader seen.1 seen.2
      | [] => none
    | none => none
  | .finish =>
    match c.poll with
    | some p => if p.peers = [] then (p.outcome c.node.cfg.clusterSize).map .promoteTo else none
    | none => none
  | .announce leaderAddr epoch => some (.handleAnnounce leaderAddr epoch)
  | .heartbeat leaderAddr epoch => some (.adoptEpoch leaderAddr epoch)
  | .promoteTo i => c.promotes[i]?.map fun epoch => .promoteTo (epoch + 1)
  | .redirect addr newLeader => some (.redirect addr newLeader)
  | .contact => some .setLastContact
  | .resume => some .takeWasLeader

/-- What becomes of the poll. -/
def Control.polled (c : Control) : Event → Option Poll
  | .startElection seq => if c.poll = none then c.node.startElection seq else c.poll
  | .unreachable => c.poll.map .unreachable
  | .reply r =>
    match c.poll with
    | some p =>
      match p.peers with
      | peer :: _ => if (p.leaderSeen peer r).isSome then none else some (p.heard c.node.cfg.id r)
      | [] => some p
    | none => none
  | .finish => c.poll.filter (·.peers ≠ [])
  | _ => c.poll

def Control.entered (c : Control) (now : Int) (e : Event) : Node :=
  match c.section e with
  | some x => c.node.enter now x
  | none => c.node

def Control.step (c : Control) (now : Int) (e : Event) : Control :=
  { node := c.entered now e
    poll := c.polled e
    promotes :=
      match e with
      | .promote => c.promotes ++ [c.node.epoch]
      | .promoteTo i => c.promotes.eraseIdx i
      | _ => c.promotes
    accepted :=
      match e with
      | .startElection _ => if c.poll = none then [] else c.accepted
      | .announce _ epoch => if epoch ≤ c.node.epoch then c.accepted else epoch :: c.accepted
      | _ => c.accepted }

/-- The epoch a promotion makes the node leader at, and announces. -/
def Control.promoted (c : Control) (e : Event) : Option UInt64 :=
  match c.section e with
  | some (.promoteTo epoch) => if c.node.role = .leader ∧ c.node.epoch ≥ epoch then none else some epoch
  | _ => none

/-- One node, each event at its time; the answer is the epoch it was promoted to. -/
def controlMachine : Machine (Int × Event) Control (Option UInt64) :=
  ⟨fun c i => (c.step i.1 i.2, c.promoted i.2)⟩

theorem step_node (c : Control) (now : Int) (e : Event) :
    (c.section e = none ∧ (c.step now e).node = c.node) ∨
      ∃ x, c.section e = some x ∧ (c.step now e).node = c.node.enter now x := by
  cases hx : c.section e with
  | none => exact .inl ⟨rfl, by simp only [Control.step, Control.entered, hx]⟩
  | some x => exact .inr ⟨x, rfl, by simp only [Control.step, Control.entered, hx]⟩

/-! ### The epoch -/

/-- The epoch a promotion that an event brings is computed from: the highest its poll
has heard of, or the one `Promote` has read. -/
def Control.basis (c : Control) : Event → Option UInt64
  | .finish =>
    match c.poll with
    | some p => if p.peers = [] then (p.outcome c.node.cfg.clusterSize).map fun _ => p.myEpoch else none
    | none => none
  | .promoteTo i => c.promotes[i]?
  | _ => none

theorem basis_of_promoteTo {c : Control} {e : Event} {epoch : UInt64}
    (h : c.section e = some (.promoteTo epoch)) : ∃ b, c.basis e = some b ∧ epoch = b + 1 := by
  cases e with
  | finish =>
    simp only [Control.section] at h
    split at h
    case h_1 p hp =>
      split at h
      case isTrue hdone =>
        obtain ⟨out, hout, hep⟩ := Option.map_eq_some_iff.mp h
        cases hep
        refine ⟨p.myEpoch, by simp only [Control.basis, hp, if_pos hdone, hout, Option.map_some], ?_⟩
        simp only [Poll.outcome] at hout
        split at hout
        · cases hout
        · split at hout
          · cases hout
          · exact (Option.some.inj hout).symm
      · cases h
    · cases h
  | promoteTo i =>
    obtain ⟨b, hb, hep⟩ := Option.map_eq_some_iff.mp h
    cases hep
    exact ⟨b, hb, rfl⟩
  | reply r =>
    simp only [Control.section] at h
    split at h
    · split at h
      · obtain ⟨seen, -, hseen⟩ := Option.map_eq_some_iff.mp h
        cases hseen
      · cases h
    · cases h
  | startElection _ | unreachable | announce _ _ | heartbeat _ _ | promote | redirect _ _ | contact | resume => cases h

/-- A promotion that strikes a follower finds its epoch still at most the one the
promotion was computed from, which is not the last there is. -/
def Timely (c : Control) (i : Int × Event) : Prop :=
  match c.basis i.2 with
  | some b => c.node.role = .follower → c.node.epoch ≤ b ∧ b.toNat + 1 < 2 ^ 64
  | none => True

instance decidableTimely (c : Control) (i : Int × Event) : Decidable (Timely c i) :=
  match h : c.basis i.2 with
  | some b => decidable_of_iff (c.node.role = .follower → c.node.epoch ≤ b ∧ b.toNat + 1 < 2 ^ 64)
      (by rw [Timely, h])
  | none => isTrue (by rw [Timely, h]; trivial)

theorem Timely.raises {c : Control} {i : Int × Event} (h : Timely c i) {epoch : UInt64}
    (hx : c.section i.2 = some (.promoteTo epoch)) (hr : c.node.role = .follower) : c.node.epoch < epoch := by
  obtain ⟨b, hb, rfl⟩ := basis_of_promoteTo hx
  rw [Timely, hb] at h
  obtain ⟨hle, hmax⟩ := h hr
  rw [UInt64.lt_iff_toNat_lt, UInt64.toNat_add]
  have := UInt64.le_iff_toNat_le.mp hle
  simp only [UInt64.reduceToNat]
  omega

theorem Timely.epoch_le {c : Control} {i : Int × Event} (h : Timely c i) :
    c.node.epoch ≤ (c.step i.1 i.2).node.epoch := by
  obtain ⟨-, hn⟩ | ⟨x, hx, hn⟩ := step_node c i.1 i.2
  · rw [hn]
    exact UInt64.le_refl _
  · rw [hn]
    refine Node.enter_epoch fun epoch he => ?_
    subst he
    exact h.raises hx

/-- A promotion that takes effect leads at a higher epoch than the node had. -/
theorem Timely.lt_promoted {c : Control} {i : Int × Event} (h : Timely c i) {epoch : UInt64}
    (hp : c.promoted i.2 = some epoch) : c.node.epoch < epoch := by
  simp only [Control.promoted] at hp
  split at hp
  case h_1 e hx =>
    split at hp
    · cases hp
    case isFalse hno =>
      cases hp
      cases hr : c.node.role with
      | follower => exact h.raises hx hr
      | leader => exact UInt64.not_le.mp fun hge => hno ⟨hr, hge⟩
  · cases hp

/-- No accepted announcement is above the node's epoch. -/
def Heeded (c : Control) : Prop := ∀ E ∈ c.accepted, E ≤ c.node.epoch

theorem Heeded.step {c : Control} {i : Int × Event} (hc : Heeded c) (h : Timely c i) :
    Heeded (c.step i.1 i.2) := by
  have hkept : ∀ E ∈ c.accepted, E ≤ (c.step i.1 i.2).node.epoch := fun E hE =>
    UInt64.le_trans (hc E hE) h.epoch_le
  obtain ⟨now, e⟩ := i
  intro E hE
  cases e with
  | startElection seq =>
    simp only [Control.step] at hE
    split at hE
    · cases hE
    · exact hkept E hE
  | announce leaderAddr epoch =>
    simp only [Control.step] at hE
    split at hE
    · exact hkept E hE
    case isFalse hlt =>
      rcases List.mem_cons.mp hE with rfl | hE
      · simp only [Control.step, Control.entered, Control.section, Node.enter, Node.handleAnnounce, if_neg hlt]
        exact UInt64.le_refl _
      · exact hkept E hE
  | unreachable | reply _ | finish | heartbeat _ _ | promote | promoteTo _ | redirect _ _ | contact | resume =>
    exact hkept E hE

/-- **The epoch of a node never falls, and no promotion overrules an announcement
accepted since its poll began**, in every run whose promotions strike a follower only
while its epoch is at most what they were computed from. -/
theorem epoch_never_falls (cfg : Config) (now : Int) (is : List (Int × Event)) (i : Int × Event)
    (h : controlMachine.Meets Timely (Control.start cfg now) (is ++ [i])) :
    let c := (controlMachine.run (Control.start cfg now) is).1
    c.node.epoch ≤ (controlMachine.step c i).1.node.epoch ∧
      ∀ epoch, (controlMachine.step c i).2 = some epoch → ∀ E ∈ c.accepted, E < epoch := by
  intro c
  obtain ⟨hrun, hi, -⟩ := Machine.meets_append.mp h
  have hheeded : Heeded c :=
    hrun.invariant (P := Heeded) (fun s j hs hj => hs.step hj) fun E hE => nomatch hE
  exact ⟨hi.epoch_le, fun epoch hep E hE => UInt64.lt_of_le_of_lt (hheeded E hE) (hi.lt_promoted hep)⟩

/-- A follower among four nodes that list each other. -/
def oneOfFour : Config := ⟨"a", "a:1", ["a:1", "b:1", "c:1", "d:1"], false, "d:1", 0⟩

/-- A follower of `oneOfFour` hears from both live peers and then promotes itself. -/
def wonPoll : List (Int × Event) :=
  [(9, .startElection 4), (9, .reply ⟨"b", .follower, 1, 4, "d:1", false⟩),
    (9, .reply ⟨"c", .follower, 1, 4, "d:1", false⟩), (9, .unreachable)]

theorem epoch_never_falls_won :
    (controlMachine.run (Control.start oneOfFour 0) wonPoll).1.node.epoch ≤
      (controlMachine.step (controlMachine.run (Control.start oneOfFour 0) wonPoll).1 (9, .finish)).1.node.epoch :=
  (epoch_never_falls oneOfFour 0 wonPoll (9, .finish) (by decide +kernel)).1

/-- Before the poll ends, `c` is promoted twice and announces epoch 3, which the node
accepts; its own promotion then takes it back to epoch 2, as leader. -/
theorem promotion_overrules :
    ∃ c, c = (controlMachine.run (Control.start oneOfFour 0) (wonPoll ++ [(9, .announce "c:1" 3)])).1 ∧
      c.node.epoch = 3 ∧ c.node.role = .follower ∧ 3 ∈ c.accepted ∧
      (controlMachine.step c (9, .finish)).2 = some 2 ∧
      (controlMachine.step c (9, .finish)).1.node.epoch = 2 ∧
      (controlMachine.step c (9, .finish)).1.node.role = .leader :=
  ⟨_, rfl, by decide +kernel⟩

/-! ### The leader's address -/

/-- A leader takes itself for the leader, and says so in its heartbeats. -/
def Control.Advertises (c : Control) : Prop :=
  c.node.role = .leader → c.node.leaderAddr = c.node.cfg.addr ∧ c.node.writeHeartbeat.2 = c.node.cfg.addr

/-- The end of a poll and a redirect leave a leader alone, or name it. -/
def Unclaimed (c : Control) (i : Int × Event) : Prop :=
  c.node.role = .leader →
    match c.section i.2 with
    | some (.adoptLeader addr _) => addr = c.node.cfg.addr
    | some (.redirect addr newLeader) => newLeader = "" ∨ newLeader = addr ∨ newLeader = c.node.cfg.addr
    | _ => True

theorem advertises_start (cfg : Config) (now : Int) : (Control.start cfg now).Advertises := by
  intro hr
  simp only [Control.start, new] at hr ⊢
  split at hr
  case isTrue hlead =>
    rw [if_pos hlead]
    exact ⟨rfl, rfl⟩
  · cases hr

theorem Control.Advertises.step_iff {c : Control} {i : Int × Event} (hc : c.Advertises) :
    Unclaimed c i ↔ (c.step i.1 i.2).Advertises := by
  obtain ⟨now, e⟩ := i
  obtain ⟨hx, hn⟩ | ⟨x, hx, hn⟩ := step_node c now e
  · simp only [Unclaimed, Control.Advertises, hx, hn, implies_true, true_iff]
    exact hc
  · have hcfg : (c.step now e).node.cfg = c.node.cfg := by rw [hn, Node.enter_cfg]
    simp only [Unclaimed, Control.Advertises, hx, hcfg]
    rw [hn]
    cases x with
    | adoptLeader addr epoch =>
      simp only [Node.enter, Node.adoptLeader, Node.writeHeartbeat, and_self]
    | redirect addr newLeader =>
      simp only [Node.enter, Node.redirect, Node.writeHeartbeat, and_self]
      split
      case isTrue hnew => simp only [hnew.1, hnew.2, false_or]
      case isFalse hsame =>
        refine ⟨fun _ hr => (hc hr).1, fun _ _ => ?_⟩
        by_cases hempty : newLeader = ""
        · exact .inl hempty
        · exact .inr (.inl (not_not.mp fun hne => hsame ⟨hempty, hne⟩))
    | handleAnnounce leaderAddr epoch =>
      simp only [Node.enter, Node.handleAnnounce, implies_true, true_iff]
      split
      · exact hc
      · exact fun hr => by cases hr
    | promoteTo epoch =>
      simp only [Node.enter, Node.promoteTo, implies_true, true_iff]
      split
      · exact hc
      · exact fun _ => ⟨rfl, rfl⟩
    | adoptEpoch addr epoch =>
      simp only [Node.enter, Node.adoptEpoch, implies_true, true_iff]
      split
      case isTrue hf => exact fun hr => by cases hf.2.symm.trans hr
      · exact hc
    | setLastContact | takeWasLeader =>
      simp only [implies_true, true_iff]
      exact hc

/-- **A node that leads advertises its own address in every state it reaches** exactly
if no end of a poll and no redirect strikes it while it leads and names another. -/
theorem leader_advertises_itself (cfg : Config) (now : Int) (is : List (Int × Event)) :
    (∀ js, js <+: is → (controlMachine.run (Control.start cfg now) js).1.Advertises) ↔
      controlMachine.Meets Unclaimed (Control.start cfg now) is :=
  (Machine.meets_iff_always (fun _ _ hc => hc.step_iff) (advertises_start cfg now)).symm

/-- A `Promote` strikes during the poll of a follower; the next peer still sees the
old leader, and the poll's end gives its address to the new one. -/
theorem poll_claims_leader :
    ∃ c, c = (controlMachine.run (Control.start oneOfFour 0)
        [(9, .startElection 4), (9, .promote), (9, .promoteTo 0),
          (9, .reply ⟨"b", .follower, 1, 4, "d:1", true⟩)]).1 ∧
      c.node.role = .leader ∧ c.node.leaderAddr = "d:1" ∧ c.node.cfg.addr = "a:1" ∧
      c.node.writeHeartbeat = (2, "d:1") :=
  ⟨_, rfl, by decide +kernel⟩

end Gokv.Cluster
