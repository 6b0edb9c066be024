import Gokv.Base.Run

/-! A node's role, epoch and idea of the leader.

`n.mu` guards the role, the leader's address, the epoch, the time of the last
contact and the flag a demotion leaves behind. Seven pieces of code write them,
each in one critical section: a `Section` names one with its arguments, and
`Node.enter` is what it does. An election is a `Poll`: it copies the epoch, asks the
peers one after another without the lock, and only its end enters a section again.

Times are nanoseconds on one clock. -/
namespace Gokv.Cluster

inductive Role where
  | follower
  | leader
  deriving DecidableEq, Repr

structure Config where
  id : String
  addr : String
  peers : List String
  bootstrap : Bool
  leader : String
  electionTimeout : Int
  deriving DecidableEq, Repr

def Config.applyDefaults (c : Config) : Config :=
  let addr := if c.addr = "" then "127.0.0.1:7070" else c.addr
  { c with
    addr := addr
    id := if c.id = "" then addr else c.id
    electionTimeout := if c.electionTimeout ≤ 0 then 5000000000 else c.electionTimeout }

def Config.peersExceptSelf (c : Config) : List String :=
  c.peers.filter fun p => p ≠ c.addr ∧ p ≠ ""

def Config.clusterSize (c : Config) : Nat := c.peersExceptSelf.length + 1

structure Node where
  cfg : Config
  role : Role
  leaderAddr : String
  epoch : UInt64
  lastContact : Int
  /-- Set on demotion: the next attachment asks for everything. -/
  wasLeader : Bool
  deriving DecidableEq, Repr

/-- `New`: alone or told to bootstrap, a node starts as leader. -/
def new (cfg : Config) (now : Int) : Node :=
  let cfg := cfg.applyDefaults
  if cfg.bootstrap ∨ cfg.peers.length ≤ 1 then
    ⟨cfg, .leader, cfg.addr, 1, now, false⟩
  else
    ⟨cfg, .follower, cfg.leader, 1, now, false⟩

/-! ### Critical sections -/

/-- `handleAnnounce`: a higher epoch always wins. -/
def Node.handleAnnounce (n : Node) (now : Int) (leaderAddr : String) (epoch : UInt64) : Node :=
  if epoch ≤ n.epoch then n
  else { n with
    role := .follower
    leaderAddr := leaderAddr
    epoch := epoch
    lastContact := now
    wasLeader := n.wasLeader || n.role = .leader }

def Node.adoptLeader (n : Node) (now : Int) (addr : String) (epoch : UInt64) : Node :=
  { n with
    leaderAddr := addr
    epoch := if epoch > n.epoch then epoch else n.epoch
    lastContact := now }

def Node.promoteTo (n : Node) (now : Int) (epoch : UInt64) : Node :=
  if n.role = .leader ∧ n.epoch ≥ epoch then n
  else { n with role := .leader, leaderAddr := n.cfg.addr, epoch := epoch, lastContact := now }

def Node.adoptEpoch (n : Node) (addr : String) (epoch : UInt64) : Node :=
  if epoch ≥ n.epoch ∧ n.role = .follower then
    { n with epoch := epoch, leaderAddr := if addr ≠ "" then addr else n.leaderAddr }
  else n

/-- The `StatusRedirect` branch of `replicateFrom(addr)`. -/
def Node.redirect (n : Node) (addr newLeader : String) : Node :=
  if newLeader ≠ "" ∧ newLeader ≠ addr then { n with leaderAddr := newLeader } else n

def Node.setLastContact (n : Node) (now : Int) : Node := { n with lastContact := now }

/-- The start of `replicateFrom`: the flag is read and cleared at once. -/
def Node.takeWasLeader (n : Node) : Node := { n with wasLeader := false }

inductive Section where
  | handleAnnounce (leaderAddr : String) (epoch : UInt64)
  | adoptLeader (addr : String) (epoch : UInt64)
  | promoteTo (epoch : UInt64)
  | adoptEpoch (addr : String) (epoch : UInt64)
  | redirect (addr newLeader : String)
  | setLastContact
  | takeWasLeader
  deriving DecidableEq, Repr

def Node.enter (n : Node) (now : Int) : Section → Node
  | .handleAnnounce leaderAddr epoch => n.handleAnnounce now leaderAddr epoch
  | .adoptLeader addr epoch => n.adoptLeader now addr epoch
  | .promoteTo epoch => n.promoteTo now epoch
  | .adoptEpoch addr epoch => n.adoptEpoch addr epoch
  | .redirect addr newLeader => n.redirect addr newLeader
  | .setLastContact => n.setLastContact now
  | .takeWasLeader => n.takeWasLeader

/-- `writeHeartbeat`: the epoch and the address a leader advertises. -/
def Node.writeHeartbeat (n : Node) : UInt64 × String := (n.epoch, n.leaderAddr)

@[simp] theorem Node.enter_cfg (n : Node) (now : Int) (x : Section) : (n.enter now x).cfg = n.cfg := by
  cases x with
  | handleAnnounce leaderAddr epoch =>
    simp only [enter, handleAnnounce]
    split <;> rfl
  | promoteTo epoch =>
    simp only [enter, promoteTo]
    split <;> rfl
  | adoptEpoch addr epoch =>
    simp only [enter, adoptEpoch]
    split <;> rfl
  | redirect addr newLeader =>
    simp only [enter, redirect]
    split <;> rfl
  | adoptLeader _ _ | setLastContact | takeWasLeader => rfl

/-- Only a promotion makes a leader. -/
theorem Node.enter_role {n : Node} {now : Int} {x : Section} (h : (n.enter now x).role = .leader) :
    n.role = .leader ∨ ∃ epoch, x = .promoteTo epoch := by
  cases x with
  | promoteTo epoch => exact .inr ⟨epoch, rfl⟩
  | handleAnnounce leaderAddr epoch =>
    simp only [enter, handleAnnounce] at h
    split at h
    · exact .inl h
    · cases h
  | adoptEpoch addr epoch =>
    simp only [enter, adoptEpoch] at h
    split at h <;> exact .inl h
  | redirect addr newLeader =>
    simp only [enter, redirect] at h
    split at h <;> exact .inl h
  | adoptLeader _ _ | setLastContact | takeWasLeader => exact .inl h

/-- A section that may lower the epoch: a promotion that strikes a follower at or
above the epoch it promotes to. -/
theorem Node.enter_epoch {n : Node} {now : Int} {x : Section}
    (h : ∀ epoch, x = .promoteTo epoch → n.role = .follower → n.epoch < epoch) :
    n.epoch ≤ (n.enter now x).epoch := by
  cases x with
  | handleAnnounce leaderAddr epoch =>
    simp only [enter, handleAnnounce]
    split
    · exact UInt64.le_refl _
    case isFalse hlt => exact UInt64.le_of_lt (UInt64.not_le.mp hlt)
  | adoptLeader addr epoch =>
    simp only [enter, adoptLeader]
    split
    case isTrue hlt => exact UInt64.le_of_lt hlt
    · exact UInt64.le_refl _
  | promoteTo epoch =>
    simp only [enter, promoteTo]
    split
    · exact UInt64.le_refl _
    case isFalse hno =>
      cases hr : n.role with
      | follower => exact UInt64.le_of_lt (h epoch rfl hr)
      | leader => exact UInt64.le_of_lt (UInt64.not_le.mp fun hge => hno ⟨hr, hge⟩)
  | adoptEpoch addr epoch =>
    simp only [enter, adoptEpoch]
    split
    case isTrue hge => exact hge.1
    · exact UInt64.le_refl _
  | redirect addr newLeader =>
    simp only [enter, redirect]
    split <;> exact UInt64.le_refl _
  | setLastContact | takeWasLeader => exact UInt64.le_refl _

/-! ### Votes and polls -/

structure VoteReply where
  id : String
  role : Role
  epoch : UInt64
  seq : UInt64
  leaderAddr : String
  leaderAlive : Bool
  deriving DecidableEq, Repr

/-- `handleVote`, at a node whose store is at `seq`. -/
def Node.handleVote (n : Node) (now : Int) (seq : UInt64) : VoteReply :=
  { id := n.cfg.id
    role := n.role
    epoch := n.epoch
    seq := seq
    leaderAddr := n.leaderAddr
    leaderAlive := n.role = .leader || now - n.lastContact ≤ n.cfg.electionTimeout }

/-- The locals of a running `startElection`. -/
structure Poll where
  mySeq : UInt64
  myEpoch : UInt64
  /-- The peers still to be asked. -/
  peers : List String
  responses : Nat
  bestCandidate : Bool
  deriving DecidableEq, Repr

/-- The beginning of `startElection`. -/
def Node.startElection (n : Node) (seq : UInt64) : Option Poll :=
  if n.role = .leader then none
  else some ⟨seq, n.epoch, n.cfg.peersExceptSelf, 1, true⟩

/-- A reply that ends the poll: `peer` leads, or still sees a leader. -/
def Poll.leaderSeen (p : Poll) (peer : String) (r : VoteReply) : Option (String × UInt64) :=
  if r.role = .leader ∧ r.epoch ≥ p.myEpoch then some (peer, r.epoch)
  else if r.leaderAlive ∧ r.leaderAddr ≠ "" then some (r.leaderAddr, max r.epoch p.myEpoch)
  else none

/-- `r` comes from a node that is further ahead, or as far with a lower id. -/
def Poll.outranked (p : Poll) (id : String) (r : VoteReply) : Prop :=
  r.seq > p.mySeq ∨ r.seq = p.mySeq ∧ r.id < id

instance decidableOutranked (p : Poll) (id : String) (r : VoteReply) : Decidable (p.outranked id r) :=
  inferInstanceAs (Decidable (_ ∨ _ ∧ _))

/-- Any other reply is counted. -/
def Poll.heard (p : Poll) (id : String) (r : VoteReply) : Poll :=
  { p with
    peers := p.peers.tail
    responses := p.responses + 1
    bestCandidate := if p.outranked id r then false else p.bestCandidate
    myEpoch := if r.epoch > p.myEpoch then r.epoch else p.myEpoch }

def Poll.unreachable (p : Poll) : Poll := { p with peers := p.peers.tail }

/-- The end of `startElection`: the epoch it promotes to, unless the election is
abandoned or deferred. -/
def Poll.outcome (p : Poll) (clusterSize : Nat) : Option UInt64 :=
  if p.responses * 2 ≤ clusterSize then none
  else if p.bestCandidate = false then none
  else some (p.myEpoch + 1)

end Gokv.Cluster
