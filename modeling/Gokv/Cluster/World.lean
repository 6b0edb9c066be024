import Gokv.Cluster.Control
import Gokv.Cluster.CatchUp

/-! The cluster as a step relation.

A `Member` is a node with its store and the one goroutine of `followLoop`: either an
election is being polled, one vote at a time, or `replicateFrom` holds a `Session`. A
session carries what its sender, `serveReplication` at the other node, has still to
send (`Feed`) and the frames in flight; it is left open whatever becomes of the roles.
Announcements are in flight from the promotion on, and are delivered or lost in any
order. A node that is not in the map does not answer.

One `Turn` lets one member make one move or delivers one announcement; its output is
what a replication frame made a store execute. -/
namespace Gokv.Cluster
open Base Engine

/-- Where the sender of a stream is, from the request for a position on. -/
inductive Feed where
  | requested (fromSeq : UInt64)
  | accepted (fromSeq : UInt64)
  | greeted (fromSeq : UInt64)
  | log
  | snapshot
  | live
  | closed
  deriving DecidableEq, Repr

/-- The frames `serveReplication` sends next, at a node `n`: the greeting; for position
zero the snapshot, else the log or, if it was compacted away, the snapshot; `live`; and
then writes and heartbeats. -/
def Feed.next (n : Node) : Feed → Frame → Option Feed
  | .accepted q, .heartbeat epoch addr => if (epoch, addr) = n.writeHeartbeat then some (.greeted q) else none
  | .greeted _, .fullSync => some .snapshot
  | .greeted q, .replData _ => if q = 0 then none else some .log
  | .greeted q, .live => if q = 0 then none else some .live
  | .log, .replData _ => some .log
  | .log, .live => some .live
  | .snapshot, .replData _ => some .snapshot
  | .snapshot, .live => some .live
  | .live, .replData _ => some .live
  | .live, .heartbeat epoch addr => if (epoch, addr) = n.writeHeartbeat then some .live else none
  | _, _ => none

/-- A sender sends these frames one after another. -/
def Feed.sends (n : Node) : Feed → List Frame → Option Feed
  | feed, [] => some feed
  | feed, f :: rest => (feed.next n f).bind fun feed => feed.sends n rest

theorem Feed.sends_data (n : Node) {feed : Feed} (hfeed : feed = .log ∨ feed = .snapshot) (raws : List Bytes) :
    feed.sends n (raws.map .replData ++ [.live]) = some .live := by
  induction raws with
  | nil => rcases hfeed with rfl | rfl <;> rfl
  | cons raw rest ih =>
    have hnext : feed.next n (.replData raw) = some feed := by rcases hfeed with rfl | rfl <;> rfl
    rw [List.map_cons, List.cons_append, Feed.sends, hnext]
    exact ih

/-- **What a leader that is left alone sends**, up to the end of the catch-up, is what a
feed sends. -/
theorem Feed.sends_serve [Checksum] (n : Node) (l : Store) (q : UInt64) :
    (Feed.accepted q).sends n (serve l n.writeHeartbeat q) = some .live := by
  have hgreet : (Feed.accepted q).next n (.heartbeat n.writeHeartbeat.1 n.writeHeartbeat.2) = some (.greeted q) :=
    if_pos rfl
  have hsnapshot : (Feed.greeted q).sends n (snapshotFrames l ++ [.live]) = some .live :=
    Feed.sends_data n (.inr rfl) l.snapshotRecords
  rw [serve, Feed.sends, hgreet]
  show (Feed.greeted q).sends n (catchUp l q ++ [.live]) = some .live
  unfold catchUp
  split
  · exact hsnapshot
  case isFalse hq =>
    split
    case h_1 raws hraws =>
      cases raws with
      | nil =>
        show ((Feed.greeted q).next n .live).bind _ = _
        rw [show (Feed.greeted q).next n .live = some .live from if_neg hq]
        rfl
      | cons raw rest =>
        show ((Feed.greeted q).next n (.replData raw)).bind _ = _
        rw [show (Feed.greeted q).next n (.replData raw) = some .log from if_neg hq]
        exact Feed.sends_data n (.inl rfl) rest
    · exact hsnapshot

/-- One call of `replicateFrom(addr)`. -/
structure Session where
  addr : String
  /-- The flag of a demotion was read and cleared, ... -/
  took : Bool
  /-- ... and it was set. -/
  full : Bool
  /-- The sender, once the request is sent. -/
  feed : Option Feed
  inFlight : List Frame
  /-- A `StatusFullSync` was processed. -/
  synced : Bool
  deriving DecidableEq, Repr

structure Member where
  control : Control
  store : Store
  session : Option Session
  /-- The reply of the peer being asked for its vote. -/
  inbox : Option VoteReply
  /-- The node was demoted and has not processed a `StatusFullSync` since. -/
  owed : Bool

structure Announcement where
  target : String
  leaderAddr : String
  epoch : UInt64
  deriving DecidableEq, Repr

structure World where
  nodes : String → Option Member
  announcements : List Announcement

inductive Move where
  | startElection
  /-- The peer being asked handles the vote request. -/
  | vote
  | hear
  | unreachable
  | finish
  | promote
  | promoteTo (i : Nat)
  /-- `followLoop` finds a leader to follow. -/
  | follow
  /-- `replicateFrom` is connected and takes the flag of a demotion. -/
  | take
  | request
  /-- The sender looks at its role. -/
  | serve
  | emit (f : Frame)
  | contact
  /-- The next frame is processed. -/
  | deliver
  /-- The connection fails, or was never made. -/
  | fail
  | write (op : Op)

inductive Turn where
  | node (addr : String) (m : Move)
  | announce (i : Nat)
  | lose (i : Nat)

/-- What a frame makes a store execute. -/
inductive Executed where
  | reset
  | applyRaw
  deriving DecidableEq, Repr

abbrev Member.node (m : Member) : Node := m.control.node

/-- The peer a running poll is asking. -/
def Member.asked (nodes : String → Option Member) (m : Member) : Option Member :=
  m.control.poll.bind fun p => p.peers.head?.bind nodes

/-- A node as `New` returns it, over its store. -/
def Member.start (cfg : Config) (now : Int) (store : Store) : Member := ⟨.start cfg now, store, none, none, false⟩

/-- The members under their addresses. -/
def World.start (members : List Member) : World := ⟨fun a => members.find? fun m => m.node.cfg.addr = a, []⟩

theorem World.mem_start {members : List Member} {a : String} {m : Member}
    (h : (World.start members).nodes a = some m) : m ∈ members ∧ m.node.cfg.addr = a := by
  have h : members.find? (fun m => m.node.cfg.addr = a) = some m := h
  exact ⟨List.mem_of_find?_eq_some h, by simpa using List.find?_some h⟩

section World
variable [Checksum]

def Member.enter (m : Member) (now : Int) (e : Event) : Member := {m with control := m.control.step now e}

/-- A frame at the follower. -/
def Member.process (m : Member) (now : Int) (s : Session) : Frame → Member × Option Executed
  | .live => ({m with session := some s}, none)
  | .heartbeat epoch addr => ({m with session := some s}.enter now (.heartbeat addr epoch), none)
  | .fullSync =>
    match receive m.store .fullSync with
    | (store, none) => ({m with store := store, session := some {s with synced := true}, owed := false}, some .reset)
    | (store, some _) => ({m with store := store, session := none}, some .reset)
  | .replData raw =>
    match receive m.store (.replData raw) with
    | (store, none) => ({m with store := store, session := some s}, some .applyRaw)
    | (store, some _) => ({m with store := store, session := none}, some .applyRaw)
  | .redirect newLeader => ({m with session := none}.enter now (.redirect s.addr newLeader), none)
  | .error _ => ({m with session := none}, none)

/-- The sender's first look at its role. -/
def Session.serve (s : Session) (n : Node) : Session :=
  match s.feed with
  | some (.requested q) =>
    if n.role = .leader then {s with feed := some (.accepted q)}
    else {s with feed := some .closed, inFlight := s.inFlight ++ [.redirect n.leaderAddr]}
  | _ => s

def Session.emit (s : Session) (n : Node) (f : Frame) : Session :=
  match s.feed with
  | some feed =>
    match feed.next n f with
    | some feed => {s with feed := some feed, inFlight := s.inFlight ++ [f]}
    | none => s
  | none => s

/-- What a move does to the member that makes it, among these nodes. -/
def Member.move (nodes : String → Option Member) (now : Int) (m : Member) : Move → Member × Option Executed
  | .startElection => (if m.session = none then m.enter now (.startElection m.store.seq) else m, none)
  | .vote =>
    match m.asked nodes, m.inbox with
    | some peer, none => ({m with inbox := some (peer.node.handleVote now peer.store.seq)}, none)
    | _, _ => (m, none)
  | .hear =>
    match m.inbox with
    | some r => ({m with inbox := none}.enter now (.reply r), none)
    | none => (m, none)
  | .unreachable => ({m with inbox := none}.enter now .unreachable, none)
  | .finish => (m.enter now .finish, none)
  | .promote => (m.enter now .promote, none)
  | .promoteTo i => (m.enter now (.promoteTo i), none)
  | .follow =>
    if m.node.role = .follower ∧ m.node.leaderAddr ≠ "" ∧ m.node.leaderAddr ≠ m.node.cfg.addr ∧
        m.control.poll = none ∧ m.session = none then
      ({m with session := some ⟨m.node.leaderAddr, false, false, none, [], false⟩}, none)
    else (m, none)
  | .take =>
    match m.session with
    | some s =>
      if s.took then (m, none)
      else ({m with session := some {s with took := true, full := m.node.wasLeader}}.enter now .resume, none)
    | none => (m, none)
  | .request =>
    match m.session with
    | some s =>
      if s.took ∧ s.feed = none then
        ({m with session := some {s with feed := some (.requested (position s.full m.store))}}, none)
      else (m, none)
    | none => (m, none)
  | .serve =>
    match m.session with
    | some s =>
      match nodes s.addr with
      | some sender => ({m with session := some (s.serve sender.node)}, none)
      | none => (m, none)
    | none => (m, none)
  | .emit f =>
    match m.session with
    | some s =>
      match nodes s.addr with
      | some sender => ({m with session := some (s.emit sender.node f)}, none)
      | none => (m, none)
    | none => (m, none)
  | .contact => (if m.session = none then m else m.enter now .contact, none)
  | .deliver =>
    match m.session with
    | some s =>
      match s.inFlight with
      | f :: rest => m.process now {s with inFlight := rest} f
      | [] => (m, none)
    | none => (m, none)
  | .fail => ({m with session := none}, none)
  | .write op => ({m with store := (m.store.apply op).1}, none)

/-- The event of the control state a move may be a promotion by. -/
def Move.promotion : Move → Option Event
  | .finish => some .finish
  | .promoteTo i => some (.promoteTo i)
  | _ => none

/-- The announcements a move sends. -/
def Member.announces (m : Member) (mv : Move) : List Announcement :=
  match mv.promotion.bind m.control.promoted with
  | some epoch => m.node.cfg.peersExceptSelf.map fun p => ⟨p, m.node.cfg.addr, epoch⟩
  | none => []

/-- `handleAnnounce`; a leader that gives way owes a resync. -/
def Member.announced (m : Member) (now : Int) (x : Announcement) : Member :=
  { m.enter now (.announce x.leaderAddr x.epoch) with
    owed := m.owed || (m.node.role = .leader && m.node.epoch < x.epoch) }

def World.set (w : World) (a : String) (m : Member) : World := {w with nodes := Function.update w.nodes a (some m)}

def World.step (w : World) (now : Int) : Turn → World × Option (String × Executed)
  | .node a mv =>
    match w.nodes a with
    | some m =>
      let next := m.move w.nodes now mv
      ({w.set a next.1 with announcements := w.announcements ++ m.announces mv}, next.2.map fun x => (a, x))
    | none => (w, none)
  | .announce i =>
    match w.announcements[i]? with
    | some x =>
      match w.nodes x.target with
      | some m => ({w.set x.target (m.announced now x) with announcements := w.announcements.eraseIdx i}, none)
      | none => (w, none)
    | none => (w, none)
  | .lose i => ({w with announcements := w.announcements.eraseIdx i}, none)

def worldMachine : Machine (Int × Turn) World (Option (String × Executed)) := ⟨fun w i => w.step i.1 i.2⟩

/-! ### One member at a time -/

/-- The event of the control state a move enters. -/
def Member.event (m : Member) : Move → Option Event
  | .startElection => if m.session = none then some (.startElection m.store.seq) else none
  | .hear => m.inbox.map .reply
  | .unreachable => some .unreachable
  | .finish => some .finish
  | .promote => some .promote
  | .promoteTo i => some (.promoteTo i)
  | .take =>
    match m.session with
    | some s => if s.took then none else some .resume
    | none => none
  | .contact => if m.session = none then none else some .contact
  | .deliver =>
    match m.session with
    | some s =>
      match s.inFlight with
      | .heartbeat epoch addr :: _ => some (.heartbeat addr epoch)
      | .redirect newLeader :: _ => some (.redirect s.addr newLeader)
      | _ => none
    | none => none
  | _ => none

/-- **All a move does to the control state** is to enter its event. -/
theorem Member.move_control (nodes : String → Option Member) (now : Int) (m : Member) (mv : Move) :
    (m.move nodes now mv).1.control = (m.event mv).elim m.control (m.control.step now) := by
  cases mv with
  | startElection | contact =>
    simp only [Member.move, Member.event]
    split <;> rfl
  | hear =>
    simp only [Member.move, Member.event]
    cases m.inbox <;> rfl
  | take =>
    simp only [Member.move, Member.event]
    cases m.session with
    | none => rfl
    | some s =>
      dsimp only
      split <;> rfl
  | deliver =>
    simp only [Member.move, Member.event]
    cases m.session with
    | none => rfl
    | some s =>
      obtain ⟨addr, took, full, feed, inFlight, synced⟩ := s
      cases inFlight with
      | nil => rfl
      | cons f rest =>
        cases f with
        | fullSync | replData _ =>
          simp only [Member.process]
          split <;> rfl
        | heartbeat _ _ | redirect _ | live | error _ => rfl
  | vote | follow | request | serve | emit _ =>
    simp only [Member.move, Member.event]
    repeat' split
    all_goals rfl
  | unreachable | finish | promote | promoteTo _ | fail | write _ => rfl

variable {w : World} {now : Int} {t : Turn} {a : String} {m : Member}

/-- **All a turn can do to a member**: it makes the move, an announcement reaches it, or
it is left as it is. -/
theorem World.step_nodes (ha : (w.step now t).1.nodes a = some m) :
    w.nodes a = some m ∨ ∃ m₀, w.nodes a = some m₀ ∧
      ((∃ mv, t = .node a mv ∧ m = (m₀.move w.nodes now mv).1) ∨
        ∃ i x, t = .announce i ∧ w.announcements[i]? = some x ∧ x.target = a ∧ m = m₀.announced now x) := by
  cases t with
  | node b mv =>
    simp only [World.step] at ha
    split at ha
    case h_1 m₀ hb =>
      have ha : Function.update w.nodes b (some (m₀.move w.nodes now mv).1) a = some m := ha
      by_cases hab : a = b
      · subst hab
        rw [Function.update_self] at ha
        exact .inr ⟨m₀, hb, .inl ⟨mv, rfl, (Option.some.inj ha).symm⟩⟩
      · rw [Function.update_of_ne hab] at ha
        exact .inl ha
    · exact .inl ha
  | announce i =>
    simp only [World.step] at ha
    split at ha
    case h_1 x hx =>
      split at ha
      case h_1 m₀ hb =>
        have ha : Function.update w.nodes x.target (some (m₀.announced now x)) a = some m := ha
        by_cases hab : a = x.target
        · subst hab
          rw [Function.update_self] at ha
          exact .inr ⟨m₀, hb, .inr ⟨i, x, rfl, hx, rfl, (Option.some.inj ha).symm⟩⟩
        · rw [Function.update_of_ne hab] at ha
          exact .inl ha
      · exact .inl ha
    · exact .inl ha
  | lose i => exact .inl ha

/-- No turn adds a member or takes one away. -/
theorem World.step_isSome (w : World) (now : Int) (t : Turn) (a : String) :
    ((w.step now t).1.nodes a).isSome = (w.nodes a).isSome := by
  have hupdate {b : String} {m₀ m' : Member} (hb : w.nodes b = some m₀) :
      (Function.update w.nodes b (some m') a).isSome = (w.nodes a).isSome := by
    by_cases hab : a = b
    · subst hab
      rw [Function.update_self, hb]
      rfl
    · rw [Function.update_of_ne hab]
  cases t with
  | node b mv =>
    simp only [World.step]
    split
    case h_1 m₀ hb => exact hupdate hb
    · rfl
  | announce i =>
    simp only [World.step]
    split
    case h_1 x hx =>
      split
      case h_1 m₀ hb => exact hupdate hb
      · rfl
    · rfl
  | lose i => rfl

/-- Only a frame makes a member's store execute anything. -/
theorem Member.move_executed {nodes : String → Option Member} {mv : Move} {x : Executed}
    (h : (m.move nodes now mv).2 = some x) :
    mv = .deliver ∧ ∃ s f rest, m.session = some s ∧ s.inFlight = f :: rest ∧
      (m.process now {s with inFlight := rest} f).2 = some x := by
  cases mv with
  | deliver =>
    simp only [Member.move] at h
    split at h
    case h_1 s hs =>
      split at h
      case h_1 f rest hf => exact ⟨rfl, s, f, rest, hs, hf, h⟩
      · cases h
    · cases h
  | vote | hear | follow | take | request | serve | emit _ =>
    simp only [Member.move] at h
    repeat' split at h
    all_goals cases h
  | startElection | unreachable | finish | promote | promoteTo _ | contact | fail | write _ => cases h

/-- What a turn makes a store execute, a frame of an open session made it execute. -/
theorem World.step_executed {x : Executed} (h : (w.step now t).2 = some (a, x)) :
    ∃ m s f rest, w.nodes a = some m ∧ m.session = some s ∧ s.inFlight = f :: rest ∧
      (m.process now {s with inFlight := rest} f).2 = some x := by
  cases t with
  | node b mv =>
    simp only [World.step] at h
    split at h
    case h_1 m hm =>
      obtain ⟨y, hy, heq⟩ := Option.map_eq_some_iff.mp h
      cases heq
      obtain ⟨-, s, f, rest, hs, hf, hx⟩ := Member.move_executed hy
      exact ⟨m, s, f, rest, hm, hs, hf, hx⟩
    · cases h
  | announce i =>
    simp only [World.step] at h
    repeat' split at h
    all_goals cases h
  | lose i => cases h

omit [Checksum] in
@[simp] theorem step_cfg (c : Control) (now : Int) (e : Event) : (c.step now e).node.cfg = c.node.cfg := by
  obtain ⟨-, hn⟩ | ⟨x, -, hn⟩ := step_node c now e
  · rw [hn]
  · rw [hn, Node.enter_cfg]

theorem Member.move_cfg (nodes : String → Option Member) (now : Int) (m : Member) (mv : Move) :
    (m.move nodes now mv).1.node.cfg = m.node.cfg := by
  rw [Member.node, Member.move_control]
  cases m.event mv with
  | none => rfl
  | some e => exact step_cfg ..

end World

end Gokv.Cluster
