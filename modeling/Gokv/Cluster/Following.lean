import Gokv.Cluster.World

/-! Open streams against changes of role.

`replicateFrom` looks at the role once, before it connects, and reads the flag of a
demotion once, before it asks; its loop then processes whatever the stream brings.
Promotions and announcements strike on other goroutines and leave the stream open.

`frames_only_from_current_leader`: if no promotion and no announcement of an epoch
beyond the sender's strikes a node with an open session, then frames are processed
only by followers, and only from senders whose epoch is not behind.
`resyncs_before_data`: if an attempt that has taken the flag is not cut off before its
`StatusFullSync`, and no demotion strikes behind an attempt that has looked at the flag,
then a demoted node resyncs before it applies anything. -/
namespace Gokv.Cluster
open Base Engine

section Following
variable [Checksum]
variable {w : World} {now : Int} {m m' : Member} {nodes nodes' : String → Option Member} {mv : Move}

/-! ### Sender and follower -/

/-- No promotion strikes a node with an open session, nor one whose epoch has passed
what the promotion was computed from; a request goes to a sender that is not behind. -/
def Member.Guarded (nodes : String → Option Member) (now : Int) (m : Member) : Move → Prop
  | .finish => Timely m.control (now, .finish) ∧ ((m.control.promoted .finish).isSome → m.session = none)
  | .promoteTo i =>
    Timely m.control (now, .promoteTo i) ∧ ((m.control.promoted (.promoteTo i)).isSome → m.session = none)
  | .request => ∀ s ∈ m.session, ∀ b ∈ nodes s.addr, m.node.epoch ≤ b.node.epoch
  | _ => True

/-- And no announcement beyond the sender's epoch strikes a node with an open session. -/
def Guarded (w : World) (i : Int × Turn) : Prop :=
  match i.2 with
  | .node a mv => ∀ m ∈ w.nodes a, m.Guarded w.nodes i.1 mv
  | .announce k => ∀ x ∈ w.announcements[k]?, ∀ m ∈ w.nodes x.target, m.node.epoch < x.epoch →
      ∀ s ∈ m.session, ∀ b ∈ w.nodes s.addr, x.epoch ≤ b.node.epoch
  | .lose _ => True

instance decidableMemberGuarded (nodes : String → Option Member) (now : Int) (m : Member) :
    (mv : Move) → Decidable (m.Guarded nodes now mv)
  | .finish => inferInstanceAs (Decidable (Timely _ _ ∧ (_ → _)))
  | .promoteTo _ => inferInstanceAs (Decidable (Timely _ _ ∧ (_ → _)))
  | .request => inferInstanceAs (Decidable (∀ s ∈ m.session, ∀ b ∈ nodes s.addr, m.node.epoch ≤ b.node.epoch))
  | .startElection | .vote | .hear | .unreachable | .promote | .follow | .take | .serve | .emit _ | .contact | .deliver
  | .fail | .write _ => .isTrue trivial

instance decidableGuarded (w : World) : (i : Int × Turn) → Decidable (Guarded w i)
  | (now, .node a mv) => inferInstanceAs (Decidable (∀ m ∈ w.nodes a, m.Guarded w.nodes now mv))
  | (_, .announce k) => inferInstanceAs (Decidable (∀ x ∈ w.announcements[k]?, ∀ m ∈ w.nodes x.target,
      m.node.epoch < x.epoch → ∀ s ∈ m.session, ∀ b ∈ w.nodes s.addr, x.epoch ≤ b.node.epoch))
  | (_, .lose _) => .isTrue trivial

/-- A session belongs to a follower that is not behind its sender's back: its epoch and
the heartbeats in flight are at most the sender's epoch. -/
structure Followed (nodes : String → Option Member) (m : Member) (s : Session) : Prop where
  role : m.node.role = .follower
  poll : m.control.poll = none
  fresh : s.feed = none → s.inFlight = []
  epoch : s.feed ≠ none → ∀ b, nodes s.addr = some b → m.node.epoch ≤ b.node.epoch
  heartbeats : ∀ b, nodes s.addr = some b → ∀ e addr, .heartbeat e addr ∈ s.inFlight → e ≤ b.node.epoch

omit [Checksum] in
theorem Followed.mono {s : Session} (h : Followed nodes m s)
    (hmono : ∀ a b', nodes' a = some b' → ∃ b, nodes a = some b ∧ b.node.epoch ≤ b'.node.epoch) :
    Followed nodes' m s := by
  refine ⟨h.role, h.poll, h.fresh, fun hf b' hb' => ?_, fun b' hb' e addr he => ?_⟩
  · obtain ⟨b, hb, hle⟩ := hmono s.addr b' hb'
    exact UInt64.le_trans (h.epoch hf b hb) hle
  · obtain ⟨b, hb, hle⟩ := hmono s.addr b' hb'
    exact UInt64.le_trans (h.heartbeats b hb e addr he) hle

omit [Checksum] in
/-- A promotion is entered by its own move only. -/
theorem event_promotion {e : Event} (h : m.event mv = some e) (hb : m.control.basis e ≠ none) :
    mv.promotion = some e := by
  cases e with
  | finish | promoteTo _ =>
    cases mv with
    | finish | promoteTo _ => exact h
    | startElection | take | contact | deliver =>
      simp only [Member.event] at h
      repeat' split at h
      all_goals cases h
    | hear =>
      obtain ⟨r, -, hr⟩ := Option.map_eq_some_iff.mp h
      cases hr
    | vote | unreachable | promote | follow | request | serve | emit _ | fail | write _ => cases h
  | startElection _ | unreachable | reply _ | announce _ _ | heartbeat _ _ | promote | redirect _ _ | contact
  | resume =>
    exact absurd rfl hb

omit [Checksum] in
theorem timely_of_basis {c : Control} (now : Int) {e : Event} (h : c.basis e = none) : Timely c (now, e) := by
  rw [Timely, h]
  trivial

omit [Checksum] in
theorem promoted_of_basis {c : Control} {e : Event} (h : c.basis e = none) : c.promoted e = none := by
  unfold Control.promoted
  split
  case h_1 epoch hx =>
    obtain ⟨b, hb, -⟩ := basis_of_promoteTo hx
    rw [h] at hb
    cases hb
  · rfl

/-- **Epochs never fall** under the rule. -/
theorem Member.Guarded.epoch_le (h : m.Guarded nodes now mv) :
    m.node.epoch ≤ (m.move nodes now mv).1.node.epoch := by
  have henter {e : Event} (he : Timely m.control (now, e)) : m.node.epoch ≤ (m.control.step now e).node.epoch :=
    he.epoch_le
  rw [Member.node, Member.node, Member.move_control]
  cases hev : m.event mv with
  | none => exact UInt64.le_refl _
  | some e =>
    refine henter ?_
    by_cases hb : m.control.basis e = none
    · exact timely_of_basis now hb
    · have hpr := event_promotion hev hb
      cases mv with
      | finish =>
        cases hpr
        exact h.1
      | promoteTo i =>
        cases hpr
        exact h.1
      | startElection | vote | hear | unreachable | promote | follow | take | request | serve | emit _ | contact
      | deliver | fail | write _ => cases hpr

omit [Checksum] in
/-- With no poll running and no promotion, the events of an election leave a follower
as it is. -/
theorem step_idle {c : Control} (now : Int) {e : Event} (hpoll : c.poll = none) (hr : c.node.role = .follower)
    (hp : c.promoted e = none)
    (he : (∃ r, e = .reply r) ∨ e = .unreachable ∨ e = .finish ∨ e = .promote ∨ ∃ i, e = .promoteTo i) :
    (c.step now e).node = c.node ∧ (c.step now e).poll = none := by
  have hx : c.section e = none := by
    rcases he with ⟨r, rfl⟩ | rfl | rfl | rfl | ⟨i, rfl⟩
    · simp only [Control.section, hpoll]
    · rfl
    · simp only [Control.section, hpoll]
    · rfl
    · cases hx : c.section (.promoteTo i) with
      | none => rfl
      | some x =>
        obtain ⟨b, -, rfl⟩ := Option.map_eq_some_iff.mp hx
        simp only [Control.promoted, hx, hr, reduceCtorEq, false_and, if_false] at hp
  refine ⟨by simp only [Control.step, Control.entered, hx], ?_⟩
  show c.polled e = none
  unfold Control.polled
  rcases he with ⟨r, rfl⟩ | rfl | rfl | rfl | ⟨i, rfl⟩ <;> simp only [hpoll] <;> rfl

/-- Every session of a member is followed. -/
def Member.Followed (nodes : String → Option Member) (m : Member) : Prop :=
  ∀ s, m.session = some s → Cluster.Followed nodes m s

omit [Checksum] in
/-- A move that leaves role, epoch and sender. -/
theorem Followed.keep {s s' : Session} (h : Followed nodes m s) (hrole : m'.node.role = m.node.role)
    (hpoll : m'.control.poll = none) (hep : m'.node.epoch = m.node.epoch) (haddr : s'.addr = s.addr)
    (hfeed : s'.feed = s.feed) (hin : ∀ f ∈ s'.inFlight, f ∈ s.inFlight) : Followed nodes m' s' where
  role := hrole.trans h.role
  poll := hpoll
  fresh hf := List.eq_nil_iff_forall_not_mem.mpr fun f hmem => by
    have := hin f hmem
    rw [h.fresh (hfeed ▸ hf)] at this
    cases this
  epoch hf b hb := hep ▸ h.epoch (hfeed ▸ hf) b (haddr ▸ hb)
  heartbeats b hb e addr hmem := h.heartbeats b (haddr ▸ hb) e addr (hin _ hmem)

omit [Checksum] in
theorem Followed.serve {s : Session} (h : Followed nodes m s) (b : Member) :
    Followed nodes {m with session := some (s.serve b.node)} (s.serve b.node) := by
  unfold Session.serve
  split
  case h_1 q hq =>
    have hsome : s.feed ≠ none := by rw [hq]; exact Option.some_ne_none _
    split
    · exact ⟨h.role, h.poll, fun hf => (nomatch hf), fun _ => h.epoch hsome, h.heartbeats⟩
    · refine ⟨h.role, h.poll, fun hf => (nomatch hf), fun _ => h.epoch hsome, fun b' hb' e addr he => ?_⟩
      rcases List.mem_append.mp he with he | he
      · exact h.heartbeats b' hb' e addr he
      · cases List.mem_singleton.mp he
  · exact h.keep rfl h.poll rfl rfl rfl fun _ hf => hf

omit [Checksum] in
theorem Feed.next_heartbeat {feed feed' : Feed} {n : Node} {e : UInt64} {addr : String}
    (h : feed.next n (.heartbeat e addr) = some feed') : e = n.epoch := by
  have hsent {next : Feed} (h : (if (e, addr) = n.writeHeartbeat then some next else none) = some feed') :
      e = n.epoch := by
    split at h
    case isTrue heq => exact congrArg Prod.fst heq
    · cases h
  cases feed with
  | accepted _ | live => exact hsent h
  | requested _ | greeted _ | log | snapshot | closed => cases h

omit [Checksum] in
/-- What the sender sends is not ahead of it. -/
theorem Followed.emit {s : Session} {b : Member} (h : Followed nodes m s) (hb : nodes s.addr = some b) (f : Frame) :
    Followed nodes {m with session := some (s.emit b.node f)} (s.emit b.node f) := by
  unfold Session.emit
  split
  case h_1 feed hfeed =>
    have hsome : s.feed ≠ none := by rw [hfeed]; exact Option.some_ne_none _
    split
    case h_1 feed' hnext =>
      refine ⟨h.role, h.poll, fun hf => (nomatch hf), fun _ => h.epoch hsome, fun b' hb' e addr he => ?_⟩
      rcases List.mem_append.mp he with he | he
      · exact h.heartbeats b' hb' e addr he
      · cases List.mem_singleton.mp he
        cases Option.some.inj (hb.symm.trans hb')
        rw [Feed.next_heartbeat hnext]
        exact UInt64.le_refl _
    · exact h.keep rfl h.poll rfl rfl rfl fun _ hf => hf
  · exact h.keep rfl h.poll rfl rfl rfl fun _ hf => hf

theorem Followed.process {s : Session} {f : Frame} {rest : List Frame} (h : Followed nodes m s)
    (hf : s.inFlight = f :: rest) : (m.process now {s with inFlight := rest} f).1.Followed nodes := by
  have hrest : ∀ x ∈ rest, x ∈ s.inFlight := fun x hx => hf ▸ List.mem_cons_of_mem f hx
  cases f with
  | live =>
    intro s' hs'
    cases hs'
    exact h.keep rfl h.poll rfl rfl rfl hrest
  | heartbeat e addr =>
    intro s' hs'
    cases hs'
    have hsome : s.feed ≠ none := fun hnone => by
      have := h.fresh hnone
      rw [hf] at this
      cases this
    have hnode : (m.control.step now (.heartbeat addr e)).node = m.node.adoptEpoch addr e := rfl
    refine ⟨?_, h.poll, fun hnone => absurd hnone hsome, fun _ b hb => ?_, fun b hb e' addr' he => ?_⟩
    · show (m.control.step now (.heartbeat addr e)).node.role = .follower
      rw [hnode, Node.adoptEpoch]
      split <;> exact h.role
    · show (m.control.step now (.heartbeat addr e)).node.epoch ≤ b.node.epoch
      rw [hnode, Node.adoptEpoch]
      split
      · exact h.heartbeats b hb e addr (hf ▸ List.mem_cons_self ..)
      · exact h.epoch hsome b hb
    · exact h.heartbeats b hb e' addr' (hrest _ he)
  | fullSync | replData _ =>
    simp only [Member.process]
    split
    · intro s' hs'
      cases hs'
      exact h.keep rfl h.poll rfl rfl rfl hrest
    · exact fun _ hs' => by cases hs'
  | redirect newLeader => exact fun _ hs' => by cases hs'
  | error _ => exact fun _ hs' => by cases hs'

/-- **A move under the rule** keeps the sessions of its member followed. -/
theorem Member.Followed.move (h : m.Followed nodes) (hg : m.Guarded nodes now mv) :
    (m.move nodes now mv).1.Followed nodes := by
  -- An event of an election finds a member with a session idle.
  have hidle {e : Event} {m' : Member} (hc : m'.control = m.control.step now e) (hses : m'.session = m.session)
      (hp : m.session ≠ none → m.control.promoted e = none)
      (he : (∃ r, e = .reply r) ∨ e = .unreachable ∨ e = .finish ∨ e = .promote ∨ ∃ i, e = .promoteTo i) :
      m'.Followed nodes := by
    intro s hs
    rw [hses] at hs
    have hold := h s hs
    obtain ⟨hnode, hpoll⟩ := step_idle now hold.poll hold.role (hp (by rw [hs]; exact Option.some_ne_none s)) he
    have hn : m'.node = m.node := by rw [Member.node, hc, hnode]
    exact hold.keep (hn ▸ rfl) (hc ▸ hpoll) (hn ▸ rfl) rfl rfl fun _ hf => hf
  cases mv with
  | startElection =>
    simp only [Member.move]
    split
    case isTrue hnone => exact fun s hs => by cases hnone.symm.trans hs
    · exact h
  | vote =>
    simp only [Member.move]
    split
    · exact fun s hs => (h s hs).keep rfl (h s hs).poll rfl rfl rfl fun _ hf => hf
    · exact h
  | hear =>
    simp only [Member.move]
    split
    case h_1 r hr => exact hidle (e := .reply r) rfl rfl (fun _ => promoted_of_basis rfl) (.inl ⟨r, rfl⟩)
    · exact h
  | unreachable => exact hidle (e := .unreachable) rfl rfl (fun _ => rfl) (.inr (.inl rfl))
  | finish =>
    refine hidle (e := .finish) rfl rfl (fun hs => ?_) (.inr (.inr (.inl rfl)))
    exact Option.not_isSome_iff_eq_none.mp fun hp => hs (hg.2 hp)
  | promote => exact hidle (e := .promote) rfl rfl (fun _ => rfl) (.inr (.inr (.inr (.inl rfl))))
  | promoteTo i =>
    refine hidle (e := .promoteTo i) rfl rfl (fun hs => ?_) (.inr (.inr (.inr (.inr ⟨i, rfl⟩))))
    exact Option.not_isSome_iff_eq_none.mp fun hp => hs (hg.2 hp)
  | follow =>
    simp only [Member.move]
    split
    case isTrue hok =>
      intro s hs
      cases hs
      exact ⟨hok.1, hok.2.2.2.1, fun _ => rfl, fun hf => absurd rfl hf, fun b _ e addr he => by cases he⟩
    · exact h
  | take =>
    simp only [Member.move]
    split
    case h_1 s hs =>
      split
      · exact h
      · intro s' hs'
        cases hs'
        exact (h s hs).keep rfl (h s hs).poll rfl rfl rfl fun _ hf => hf
    · exact h
  | request =>
    simp only [Member.move]
    split
    case h_1 s hs =>
      split
      case isTrue hok =>
        intro s' hs'
        cases hs'
        have hold := h s hs
        have hnil := hold.fresh hok.2
        refine ⟨hold.role, hold.poll, fun hf => (by cases hf), fun _ b hb => hg s hs b hb, fun b _ e addr he => ?_⟩
        have he : Frame.heartbeat e addr ∈ s.inFlight := he
        rw [hnil] at he
        cases he
      · exact h
    · exact h
  | serve =>
    simp only [Member.move]
    split
    case h_1 s hs =>
      split
      case h_1 b hb =>
        intro s' hs'
        cases hs'
        exact (h s hs).serve b
      · exact h
    · exact h
  | emit f =>
    simp only [Member.move]
    split
    case h_1 s hs =>
      split
      case h_1 b hb =>
        intro s' hs'
        cases hs'
        exact (h s hs).emit hb f
      · exact h
    · exact h
  | contact =>
    simp only [Member.move]
    split
    · exact h
    · exact fun s hs => (h s hs).keep rfl (h s hs).poll rfl rfl rfl fun _ hf => hf
  | deliver =>
    simp only [Member.move]
    split
    case h_1 s hs =>
      split
      case h_1 f rest hf => exact (h s hs).process hf
      · exact h
    · exact h
  | fail => exact fun s hs => by cases hs
  | write op => exact fun s hs => (h s hs).keep rfl (h s hs).poll rfl rfl rfl fun _ hf => hf

/-- Every open session in the cluster is followed. -/
def World.Followed (w : World) : Prop := ∀ a m, w.nodes a = some m → m.Followed w.nodes

theorem World.Followed.step (h : w.Followed) {i : Int × Turn} (hg : Guarded w i) : (w.step i.1 i.2).1.Followed := by
  obtain ⟨now, t⟩ := i
  -- Whoever sends afterwards was there before, and not ahead.
  have hmono : ∀ a b', (w.step now t).1.nodes a = some b' → ∃ b, w.nodes a = some b ∧ b.node.epoch ≤ b'.node.epoch := by
    intro a b' hb'
    rcases World.step_nodes hb' with hsame | ⟨b, hb, ⟨mv, rfl, rfl⟩ | ⟨k, x, -, -, -, rfl⟩⟩
    · exact ⟨b', hsame, UInt64.le_refl _⟩
    · exact ⟨b, hb, (hg b hb).epoch_le⟩
    · exact ⟨b, hb, (timely_of_basis (c := b.control) now (e := .announce x.leaderAddr x.epoch) rfl).epoch_le⟩
  intro a m hm s hs
  suffices hfol : Gokv.Cluster.Followed w.nodes m s from hfol.mono hmono
  rcases World.step_nodes hm with hsame | ⟨m₀, hm₀, ⟨mv, rfl, rfl⟩ | ⟨k, x, rfl, hx, rfl, rfl⟩⟩
  · exact h a m hsame s hs
  · exact (h a m₀ hm₀).move (hg m₀ hm₀) s hs
  · have hold := h x.target m₀ hm₀ s hs
    have hnode : (m₀.announced now x).node = m₀.node.handleAnnounce now x.leaderAddr x.epoch := rfl
    refine ⟨?_, hold.poll, hold.fresh, fun hf b hb => ?_, hold.heartbeats⟩
    · rw [hnode, Node.handleAnnounce]
      split
      · exact hold.role
      · rfl
    · rw [hnode, Node.handleAnnounce]
      split
      · exact hold.epoch hf b hb
      case isFalse hlt => exact hg x hx m₀ hm₀ (UInt64.not_le.mp hlt) s hs b hb

/-- **Frames are processed by followers only, and only from senders that are not
behind**, in every run in which no promotion and no announcement beyond the sender's
epoch strikes a node with an open session. -/
theorem frames_only_from_current_leader (w : World) (is : List (Int × Turn)) (i : Int × Turn)
    (hw : ∀ a m, w.nodes a = some m → m.session = none) (hg : worldMachine.Meets Guarded w (is ++ [i])) :
    let w' := (worldMachine.run w is).1
    ∀ a x, (worldMachine.step w' i).2 = some (a, x) → ∃ m s, w'.nodes a = some m ∧ m.session = some s ∧
      m.node.role = .follower ∧ ∀ b, w'.nodes s.addr = some b → m.node.epoch ≤ b.node.epoch := by
  intro w' a x hx
  obtain ⟨hrun, -⟩ := Machine.meets_append.mp hg
  have hf : w'.Followed := hrun.invariant (P := World.Followed) (fun _ _ h hi => h.step hi)
    fun a m hm s hs => nomatch (hw a m hm).symm.trans hs
  obtain ⟨m, s, f, rest, hm, hs, hin, -⟩ := World.step_executed hx
  have hold := hf a m hm s hs
  refine ⟨m, s, hm, hs, hold.role, hold.epoch fun hnone => ?_⟩
  have := hold.fresh hnone
  rw [hin] at this
  cases this

/-! ### A demoted node -/

/-- The move ends the session of the member: the connection fails, the sender redirects
or reports an error, or the store refuses the frame. -/
def Member.Cut (m : Member) : Move → Prop
  | .fail => True
  | .deliver =>
    match m.session.bind fun s => s.inFlight.head? with
    | some (.redirect _) | some (.error _) => True
    | some f => (receive m.store f).2 ≠ none
    | none => False
  | _ => False

/-- An attempt that has taken the flag is not cut before it has processed a
`StatusFullSync`; a demotion strikes no attempt that has looked at the flag already. -/
def Obliged (w : World) (i : Int × Turn) : Prop :=
  match i.2 with
  | .node a mv => ∀ m ∈ w.nodes a, m.Cut mv → ∀ s ∈ m.session, s.full = true → s.synced = true
  | .announce k => ∀ x ∈ w.announcements[k]?, ∀ m ∈ w.nodes x.target, m.node.role = .leader → m.node.epoch < x.epoch →
      ∀ s ∈ m.session, s.took = false
  | .lose _ => True

instance decidableCut (m : Member) : (mv : Move) → Decidable (m.Cut mv)
  | .fail => .isTrue trivial
  | .deliver =>
    match h : m.session.bind fun s => s.inFlight.head? with
    | some (.redirect _) | some (.error _) => .isTrue (by rw [Member.Cut, h]; trivial)
    | some (.heartbeat e addr) =>
      decidable_of_iff ((receive m.store (.heartbeat e addr)).2 ≠ none) (by rw [Member.Cut, h])
    | some .fullSync => decidable_of_iff ((receive m.store .fullSync).2 ≠ none) (by rw [Member.Cut, h])
    | some (.replData raw) => decidable_of_iff ((receive m.store (.replData raw)).2 ≠ none) (by rw [Member.Cut, h])
    | some .live => decidable_of_iff ((receive m.store .live).2 ≠ none) (by rw [Member.Cut, h])
    | none => .isFalse (by rw [Member.Cut, h]; exact id)
  | .startElection | .vote | .hear | .unreachable | .finish | .promote | .promoteTo _ | .follow | .take | .request
  | .serve | .emit _ | .contact | .write _ => .isFalse id

instance decidableObliged (w : World) : (i : Int × Turn) → Decidable (Obliged w i)
  | (_, .node a mv) =>
    inferInstanceAs (Decidable (∀ m ∈ w.nodes a, m.Cut mv → ∀ s ∈ m.session, s.full = true → s.synced = true))
  | (_, .announce k) => inferInstanceAs (Decidable (∀ x ∈ w.announcements[k]?, ∀ m ∈ w.nodes x.target,
      m.node.role = .leader → m.node.epoch < x.epoch → ∀ s ∈ m.session, s.took = false))
  | (_, .lose _) => .isTrue trivial

/-- No data among the frames. -/
def Bare (frames : List Frame) : Prop := ∀ raw, .replData raw ∉ frames

/-- A resync comes before any data. -/
def Resyncs (frames : List Frame) : Prop := ∃ before after, frames = before ++ .fullSync :: after ∧ Bare before

/-- What a session is sent that asked for everything and has not resynced. -/
def Session.Blocked (s : Session) : Prop :=
  match s.feed with
  | none => s.inFlight = []
  | some (.requested q) | some (.accepted q) | some (.greeted q) => q = 0 ∧ Bare s.inFlight
  | some .closed => Bare s.inFlight
  | some .log => False
  | some .snapshot | some .live => Resyncs s.inFlight

/-- Where the obligation of a demoted node is: in the flag, or in a session that took it
and has not resynced. -/
structure Owing (m : Member) : Prop where
  idle : ∀ s, m.session = some s → s.took = false → s.feed = none ∧ s.inFlight = [] ∧ s.synced = false
  blocked : ∀ s, m.session = some s → s.full = true → s.synced = false → s.Blocked
  flag : m.owed = true → (∀ s, m.session = some s → s.took = false) → m.node.wasLeader = true
  session : m.owed = true → ∀ s, m.session = some s → s.took = true → s.full = true ∧ s.synced = false

omit [Checksum] in
/-- Only `replicateFrom` clears the flag. -/
theorem step_wasLeader {c : Control} {e : Event} (he : e ≠ .resume) (h : c.node.wasLeader = true) :
    (c.step now e).node.wasLeader = true := by
  obtain ⟨-, hn⟩ | ⟨x, hx, hn⟩ := step_node c now e
  · rw [hn]
    exact h
  · rw [hn]
    cases x with
    | handleAnnounce leaderAddr epoch =>
      simp only [Node.enter, Node.handleAnnounce]
      split
      · exact h
      · simp only [h, Bool.true_or]
    | promoteTo epoch =>
      simp only [Node.enter, Node.promoteTo]
      split <;> exact h
    | adoptEpoch addr epoch =>
      simp only [Node.enter, Node.adoptEpoch]
      split <;> exact h
    | redirect addr newLeader =>
      simp only [Node.enter, Node.redirect]
      split <;> exact h
    | adoptLeader _ _ | setLastContact => exact h
    | takeWasLeader =>
      cases e with
      | resume => exact absurd rfl he
      | reply r =>
        simp only [Control.section] at hx
        repeat' split at hx
        · obtain ⟨_, -, hseen⟩ := Option.map_eq_some_iff.mp hx
          cases hseen
        all_goals cases hx
      | finish =>
        simp only [Control.section] at hx
        repeat' split at hx
        · obtain ⟨_, -, hseen⟩ := Option.map_eq_some_iff.mp hx
          cases hseen
        all_goals cases hx
      | promoteTo i =>
        obtain ⟨_, -, hseen⟩ := Option.map_eq_some_iff.mp hx
        cases hseen
      | startElection _ | unreachable | promote => cases hx
      | announce _ _ | heartbeat _ _ | redirect _ _ | contact => cases hx

omit [Checksum] in
theorem Owing.keep (h : Owing m) (hs : m'.session = m.session) (ho : m'.owed = m.owed)
    (hw : m.node.wasLeader = true → m'.node.wasLeader = true) : Owing m' :=
  ⟨hs ▸ h.idle, hs ▸ h.blocked, fun hf ht => hw (h.flag (ho ▸ hf) (hs ▸ ht)), hs ▸ ho ▸ h.session⟩

omit [Checksum] in
theorem Owing.enter (h : Owing m) (now : Int) (e : Event) (hc : m'.control = m.control.step now e)
    (hs : m'.session = m.session)
    (ho : m'.owed = m.owed) (he : e ≠ .resume) : Owing m' :=
  h.keep hs ho fun hw => by
    rw [Member.node, hc]
    exact step_wasLeader he hw

omit [Checksum] in
theorem Bare.append {xs ys : List Frame} (hx : Bare xs) (hy : Bare ys) : Bare (xs ++ ys) := fun raw hr =>
  (List.mem_append.mp hr).elim (hx raw) (hy raw)

omit [Checksum] in
theorem Session.Blocked.serve {s : Session} (h : s.Blocked) (n : Node) : (s.serve n).Blocked := by
  unfold Session.serve
  split
  case h_1 q hq =>
    rw [Session.Blocked, hq] at h
    split
    · exact h
    · exact h.2.append fun raw hr => nomatch List.mem_singleton.mp hr
  · exact h

omit [Checksum] in
/-- A sender that was asked for everything sends the resync before any data. -/
theorem Session.Blocked.emit {s : Session} (h : s.Blocked) (n : Node) (f : Frame) : (s.emit n f).Blocked := by
  unfold Session.emit
  split
  case h_1 feed hfeed =>
    split
    case h_1 feed' hnext =>
      rw [Session.Blocked, hfeed] at h
      have hmore {frames : List Frame} (hr : Resyncs frames) : Resyncs (frames ++ [f]) := by
        obtain ⟨before, after, rfl, hb⟩ := hr
        exact ⟨before, after ++ [f], by simp, hb⟩
      cases feed with
      | requested q => cases f <;> cases hnext
      | accepted q =>
        cases f with
        | heartbeat e addr =>
          have hnext : (if (e, addr) = n.writeHeartbeat then some (Feed.greeted q) else none) = some feed' := hnext
          split at hnext
          · cases hnext
            exact ⟨h.1, h.2.append fun raw hr => nomatch List.mem_singleton.mp hr⟩
          · cases hnext
        | fullSync | replData _ | live | redirect _ | error _ => cases hnext
      | greeted q =>
        cases f with
        | fullSync =>
          cases hnext
          exact ⟨s.inFlight, [], rfl, h.2⟩
        | replData raw =>
          have hnext : (if q = 0 then none else some Feed.log) = some feed' := hnext
          rw [if_pos h.1] at hnext
          cases hnext
        | live =>
          have hnext : (if q = 0 then none else some Feed.live) = some feed' := hnext
          rw [if_pos h.1] at hnext
          cases hnext
        | heartbeat _ _ | redirect _ | error _ => cases hnext
      | log => exact h.elim
      | snapshot =>
        cases f with
        | replData _ | live =>
          cases hnext
          exact hmore h
        | heartbeat _ _ | fullSync | redirect _ | error _ => cases hnext
      | live =>
        cases f with
        | replData _ =>
          cases hnext
          exact hmore h
        | heartbeat e addr =>
          have hnext : (if (e, addr) = n.writeHeartbeat then some Feed.live else none) = some feed' := hnext
          split at hnext
          · cases hnext
            exact hmore h
          · cases hnext
        | live | fullSync | redirect _ | error _ => cases hnext
      | closed => cases f <;> cases hnext
    · exact h
  · exact h

omit [Checksum] in
/-- The first frame of a blocked session is not data, and the others stay blocked unless
it is the resync. -/
theorem Session.Blocked.next {s : Session} {f : Frame} {rest : List Frame} (h : s.Blocked)
    (hf : s.inFlight = f :: rest) :
    (∀ raw, f ≠ .replData raw) ∧ (f ≠ .fullSync → Session.Blocked {s with inFlight := rest}) := by
  have hbare (hb : Bare (f :: rest)) : (∀ raw, f ≠ .replData raw) ∧ Bare rest :=
    ⟨fun raw hraw => hb raw (hraw ▸ List.mem_cons_self ..), fun raw hr => hb raw (List.mem_cons_of_mem f hr)⟩
  have hresync (hr : Resyncs (f :: rest)) : (∀ raw, f ≠ .replData raw) ∧ (f ≠ .fullSync → Resyncs rest) := by
    obtain ⟨before, after, hsplit, hb⟩ := hr
    cases before with
    | nil =>
      cases hsplit
      exact ⟨fun _ => nofun, fun hne => absurd rfl hne⟩
    | cons x before =>
      cases hsplit
      exact ⟨fun raw hraw => hb raw (hraw ▸ List.mem_cons_self ..), fun _ => ⟨before, after, rfl, fun raw hr =>
        hb raw (List.mem_cons_of_mem _ hr)⟩⟩
  unfold Session.Blocked at h ⊢
  rw [hf] at h
  cases hfeed : s.feed with
  | none =>
    simp only [hfeed] at h
    cases h
  | some feed =>
    simp only [hfeed] at h
    cases feed with
    | requested q | accepted q | greeted q => exact ⟨(hbare h.2).1, fun _ => ⟨h.1, (hbare h.2).2⟩⟩
    | closed => exact ⟨(hbare h).1, fun _ => (hbare h).2⟩
    | log => exact h.elim
    | snapshot | live => exact hresync h

omit [Checksum] in
/-- A session that ends leaves no obligation behind. -/
theorem Owing.ended (h : Owing m) {s : Session} (hs : m.session = some s) (hcut : s.full = true → s.synced = true)
    (hnone : m'.session = none) (ho : m'.owed = m.owed) (hw : m.node.wasLeader = true → m'.node.wasLeader = true) :
    Owing m' := by
  have hno {s' : Session} (hs' : m'.session = some s') : False := nomatch hnone.symm.trans hs'
  refine ⟨fun s' hs' => (hno hs').elim, fun s' hs' => (hno hs').elim, fun hf _ => ?_, fun _ s' hs' => (hno hs').elim⟩
  rw [ho] at hf
  cases ht : s.took with
  | false =>
    refine hw (h.flag hf fun s' hs' => ?_)
    cases Option.some.inj (hs.symm.trans hs')
    exact ht
  | true =>
    obtain ⟨hfull, hsynced⟩ := h.session hf s hs ht
    rw [hcut hfull] at hsynced
    cases hsynced

omit [Checksum] in
/-- A session that goes on, with less in flight. -/
theorem Owing.goesOn (h : Owing m) {s s' : Session} (hs : m.session = some s) (hs' : m'.session = some s')
    (ho : m'.owed = m.owed) (hw : m.node.wasLeader = true → m'.node.wasLeader = true)
    (hsame : s'.took = s.took ∧ s'.full = s.full ∧ s'.synced = s.synced) (hidle : s.took = false → s'.feed = none ∧
      s'.inFlight = []) (hblocked : s.full = true → s.synced = false → s'.Blocked) : Owing m' := by
  obtain ⟨htook, hfull, hsynced⟩ := hsame
  have hone {t : Session} (ht : m'.session = some t) : t = s' := Option.some.inj (ht.symm.trans hs')
  refine ⟨fun t ht hno => ?_, fun t ht hf hy => ?_, fun hf hno => ?_, fun hf t ht hto => ?_⟩
  · cases hone ht
    obtain ⟨-, -, hy⟩ := h.idle s hs (htook ▸ hno)
    obtain ⟨hfeed, hin⟩ := hidle (htook ▸ hno)
    exact ⟨hfeed, hin, hsynced.trans hy⟩
  · cases hone ht
    exact hblocked (hfull ▸ hf) (hsynced ▸ hy)
  · refine hw (h.flag (ho ▸ hf) fun t ht => ?_)
    cases Option.some.inj (hs.symm.trans ht)
    exact htook ▸ hno s' hs'
  · cases hone ht
    rw [hfull, hsynced]
    exact h.session (ho ▸ hf) s hs (htook ▸ hto)

theorem Owing.process (h : Owing m) {s : Session} {f : Frame} {rest : List Frame} (hs : m.session = some s)
    (hf : s.inFlight = f :: rest) (hcut : m.Cut .deliver → s.full = true → s.synced = true) :
    Owing (m.process now {s with inFlight := rest} f).1 := by
  have hhead : (m.session.bind fun s => s.inFlight.head?) = some f := by rw [hs, Option.bind_some, hf]; rfl
  have htook : s.took = true := by
    cases ht : s.took with
    | true => rfl
    | false =>
      obtain ⟨-, hnil, -⟩ := h.idle s hs ht
      rw [hf] at hnil
      cases hnil
  have hnext (hfull : s.full = true) (hy : s.synced = false) := (h.blocked s hs hfull hy).next hf
  have hgoes {m' : Member} (hs' : m'.session = some {s with inFlight := rest}) (ho : m'.owed = m.owed)
      (hw : m.node.wasLeader = true → m'.node.wasLeader = true) (hne : f ≠ .fullSync) : Owing m' :=
    h.goesOn hs hs' ho hw ⟨rfl, rfl, rfl⟩ (fun ht => by cases htook.symm.trans ht) fun hfull hy =>
      (hnext hfull hy).2 hne
  have hwrefuse {e : Error} {store : Store} (hr : receive m.store f = (store, some e))
    (hne : ∀ addr, f ≠ .redirect addr)
      (hne' : ∀ msg, f ≠ .error msg) : m.Cut .deliver := by
    rw [Member.Cut, hhead]
    cases f with
    | redirect addr => exact absurd rfl (hne addr)
    | error msg => exact absurd rfl (hne' msg)
    | heartbeat _ _ | fullSync | replData _ | live =>
      show (receive m.store _).2 ≠ none
      rw [hr]
      exact Option.some_ne_none e
  cases f with
  | live => exact hgoes rfl rfl (fun hw => hw) (by rintro ⟨⟩)
  | heartbeat e addr =>
    exact hgoes rfl rfl (fun hw => step_wasLeader (e := .heartbeat addr e) (by rintro ⟨⟩) hw) (by rintro ⟨⟩)
  | fullSync =>
    simp only [Member.process]
    split
    · -- The resync is done.
      refine ⟨fun t ht hno => ?_, fun t ht _ hy => ?_, fun hf => (by cases hf), fun hf => (by cases hf)⟩
      · cases ht
        cases htook.symm.trans hno
      · cases ht
        cases hy
    case h_2 hr => exact h.ended hs (hcut (hwrefuse hr (by rintro _ ⟨⟩) (by rintro _ ⟨⟩))) rfl rfl fun hw => hw
  | replData raw =>
    simp only [Member.process]
    split
    · exact hgoes rfl rfl (fun hw => hw) (by rintro ⟨⟩)
    case h_2 hr => exact h.ended hs (hcut (hwrefuse hr (by rintro _ ⟨⟩) (by rintro _ ⟨⟩))) rfl rfl fun hw => hw
  | redirect newLeader =>
    have hc : m.Cut .deliver := by rw [Member.Cut, hhead]; trivial
    exact h.ended hs (hcut hc) rfl rfl fun hw => step_wasLeader (e := .redirect s.addr newLeader) (by rintro ⟨⟩) hw
  | error msg =>
    have hc : m.Cut .deliver := by rw [Member.Cut, hhead]; trivial
    exact h.ended hs (hcut hc) rfl rfl fun hw => hw

/-- **A move under the rule** keeps track of the obligation. -/
theorem Owing.move (h : Owing m) (hcut : m.Cut mv → ∀ s ∈ m.session, s.full = true → s.synced = true) :
    Owing (m.move nodes now mv).1 := by
  cases mv with
  | startElection =>
    simp only [Member.move]
    split
    · exact h.enter now (.startElection m.store.seq) rfl rfl rfl (by rintro ⟨⟩)
    · exact h
  | vote =>
    simp only [Member.move]
    split
    · exact h.keep rfl rfl fun hw => hw
    · exact h
  | hear =>
    simp only [Member.move]
    split
    case h_1 r hr => exact h.enter now (.reply r) rfl rfl rfl (by rintro ⟨⟩)
    · exact h
  | unreachable => exact h.enter now .unreachable rfl rfl rfl (by rintro ⟨⟩)
  | finish => exact h.enter now .finish rfl rfl rfl (by rintro ⟨⟩)
  | promote => exact h.enter now .promote rfl rfl rfl (by rintro ⟨⟩)
  | promoteTo i => exact h.enter now (.promoteTo i) rfl rfl rfl (by rintro ⟨⟩)
  | contact =>
    simp only [Member.move]
    split
    · exact h
    · exact h.enter now .contact rfl rfl rfl (by rintro ⟨⟩)
  | follow =>
    simp only [Member.move]
    split
    case isTrue hok =>
      refine ⟨fun t ht _ => ?_, fun t ht hf => ?_, fun hf _ => h.flag hf fun s hs => ?_, fun _ t ht hto => ?_⟩
      · cases ht
        exact ⟨rfl, rfl, rfl⟩
      · cases ht
        cases hf
      · cases hok.2.2.2.2.symm.trans hs
      · cases ht
        cases hto
    · exact h
  | take =>
    simp only [Member.move]
    split
    case h_1 s hs =>
      split
      · exact h
      case isFalse hno =>
        have hno : s.took = false := Bool.eq_false_iff.mpr hno
        obtain ⟨hfeed, hnil, hy⟩ := h.idle s hs hno
        refine ⟨fun t ht hto => ?_, fun t ht _ _ => ?_, fun _ hto => ?_, fun hf t ht _ => ?_⟩
        · cases ht
          cases hto
        · cases ht
          rw [Session.Blocked]
          simp only [hfeed]
          exact hnil
        · cases hto _ rfl
        · cases ht
          refine ⟨h.flag hf fun s' hs' => ?_, hy⟩
          cases Option.some.inj (hs.symm.trans hs')
          exact hno
    · exact h
  | request =>
    simp only [Member.move]
    split
    case h_1 s hs =>
      split
      case isTrue hok =>
        refine h.goesOn hs rfl rfl (fun hw => hw) ⟨rfl, rfl, rfl⟩ (fun ht => ?_) fun hfull hy => ?_
        · cases hok.1.symm.trans ht
        · have hb := h.blocked s hs hfull hy
          rw [Session.Blocked, hok.2] at hb
          refine ⟨by rw [position, if_pos hfull], fun raw hr => ?_⟩
          have hr : Frame.replData raw ∈ s.inFlight := hr
          rw [hb] at hr
          cases hr
      · exact h
    · exact h
  | serve =>
    simp only [Member.move]
    split
    case h_1 s hs =>
      split
      case h_1 b hb =>
        refine h.goesOn hs rfl rfl (fun hw => hw) ?_ (fun ht => ?_) fun hfull hy =>
          (h.blocked s hs hfull hy).serve b.node
        · unfold Session.serve
          repeat' split
          all_goals exact ⟨rfl, rfl, rfl⟩
        · obtain ⟨hfeed, hnil, -⟩ := h.idle s hs ht
          simp only [Session.serve, hfeed]
          exact ⟨trivial, hnil⟩
      · exact h
    · exact h
  | emit f =>
    simp only [Member.move]
    split
    case h_1 s hs =>
      split
      case h_1 b hb =>
        refine h.goesOn hs rfl rfl (fun hw => hw) ?_ (fun ht => ?_) fun hfull hy =>
          (h.blocked s hs hfull hy).emit b.node f
        · unfold Session.emit
          repeat' split
          all_goals exact ⟨rfl, rfl, rfl⟩
        · obtain ⟨hfeed, hnil, -⟩ := h.idle s hs ht
          simp only [Session.emit, hfeed]
          exact ⟨trivial, hnil⟩
      · exact h
    · exact h
  | deliver =>
    simp only [Member.move]
    split
    case h_1 s hs =>
      split
      case h_1 f rest hf => exact h.process hs hf fun hc => hcut hc s hs
      · exact h
    · exact h
  | fail =>
    cases hs : m.session with
    | none => exact h.keep hs.symm rfl fun hw => hw
    | some s => exact h.ended hs (hcut trivial s hs) rfl rfl fun hw => hw
  | write op => exact h.keep rfl rfl fun hw => hw

omit [Checksum] in
theorem Owing.announced (h : Owing m) (x : Announcement)
    (hrule : m.node.role = .leader → m.node.epoch < x.epoch → ∀ s ∈ m.session, s.took = false) :
    Owing (m.announced now x) := by
  have hkept : m.node.wasLeader = true → (m.announced now x).node.wasLeader = true :=
    fun hw => step_wasLeader (e := .announce x.leaderAddr x.epoch) (by rintro ⟨⟩) hw
  by_cases hdemoted : m.node.role = .leader ∧ m.node.epoch < x.epoch
  · have hnode : (m.announced now x).node.wasLeader = true := by
      show (m.node.handleAnnounce now x.leaderAddr x.epoch).wasLeader = true
      rw [Node.handleAnnounce, if_neg (UInt64.not_le.mpr hdemoted.2)]
      simp only [hdemoted.1, decide_true, Bool.or_true]
    refine ⟨h.idle, h.blocked, fun _ _ => hnode, fun _ s hs ht => ?_⟩
    cases (hrule hdemoted.1 hdemoted.2 s hs).symm.trans ht
  · refine h.keep rfl ?_ hkept
    show (m.owed || (decide (m.node.role = .leader) && decide (m.node.epoch < x.epoch))) = m.owed
    rw [← Bool.decide_and, decide_eq_false hdemoted, Bool.or_false]

/-- **A demoted node resyncs before it applies anything**, in every run in which an
attempt that has taken the flag is not cut off before its `StatusFullSync`, and no
demotion strikes an attempt that has looked at the flag already. -/
theorem resyncs_before_data (w : World) (is : List (Int × Turn)) (i : Int × Turn)
    (hw : ∀ a m, w.nodes a = some m → m.session = none ∧ m.owed = false)
    (hr : worldMachine.Meets Obliged w (is ++ [i])) :
    let w' := (worldMachine.run w is).1
    ∀ a, (worldMachine.step w' i).2 = some (a, .applyRaw) → ∃ m, w'.nodes a = some m ∧ m.owed = false := by
  intro w' a hx
  obtain ⟨hrun, -⟩ := Machine.meets_append.mp hr
  have howing : ∀ a m, w'.nodes a = some m → Owing m := by
    refine hrun.invariant (P := fun w => ∀ a m, w.nodes a = some m → Owing m)
      (fun w i h hi a m hm => ?_) fun a m hm => ?_
    · obtain ⟨now, t⟩ := i
      rcases World.step_nodes hm with hsame | ⟨m₀, hm₀, ⟨mv, rfl, rfl⟩ | ⟨k, x, rfl, hx, rfl, rfl⟩⟩
      · exact h a m hsame
      · exact (h a m₀ hm₀).move (hi m₀ hm₀)
      · exact (h x.target m₀ hm₀).announced x (hi x hx m₀ hm₀)
    · obtain ⟨hs, ho⟩ := hw a m hm
      have hno {s : Session} (hs' : m.session = some s) : False := nomatch hs.symm.trans hs'
      exact ⟨fun s hs' => (hno hs').elim, fun s hs' => (hno hs').elim, fun hf => (nomatch ho.symm.trans hf),
        fun hf => (nomatch ho.symm.trans hf)⟩
  obtain ⟨m, s, f, rest, hm, hs, hin, hexec⟩ := World.step_executed hx
  refine ⟨m, hm, ?_⟩
  have h := howing a m hm
  obtain ⟨raw, rfl⟩ : ∃ raw, f = .replData raw := by
    cases f with
    | replData raw => exact ⟨raw, rfl⟩
    | fullSync =>
      simp only [Member.process] at hexec
      split at hexec <;> cases hexec
    | live | heartbeat _ _ | redirect _ | error _ => cases hexec
  cases ho : m.owed with
  | false => rfl
  | true =>
    cases ht : s.took with
    | false =>
      obtain ⟨-, hnil, -⟩ := h.idle s hs ht
      rw [hin] at hnil
      cases hnil
    | true =>
      obtain ⟨hfull, hy⟩ := h.session ho s hs ht
      exact absurd rfl (((h.blocked s hs hfull hy).next hin).1 raw)

end Following

/-- A leader and a follower. -/
def pair : List Member :=
  [.start ⟨"a", "a:1", ["a:1", "b:1"], true, "", 0⟩ 0 (Store.init ⟨0, .never⟩),
    .start ⟨"b", "b:1", ["a:1", "b:1"], false, "a:1", 0⟩ 0 (Store.init ⟨0, .never⟩)]

def at9 (ts : List Turn) : List (Int × Turn) := ts.map fun t => (9, t)

/-- The follower attaches, resyncs, and has a record of the leader in flight. -/
def attachment : List (Int × Turn) :=
  at9 [.node "a:1" (.write (.put 0 [1] [7])), .node "b:1" .follow, .node "b:1" .take, .node "b:1" .request,
    .node "b:1" .serve, .node "b:1" (.emit (.heartbeat 1 "a:1")), .node "b:1" (.emit .fullSync),
    .node "b:1" (.emit (.replData (Record.encode ⟨0, 1, 0, [1], [7]⟩))), .node "b:1" .contact, .node "b:1" .deliver,
    .node "b:1" .contact, .node "b:1" .deliver]

theorem fresh_pair : ∀ a m, (World.start pair).nodes a = some m → m.session = none ∧ m.owed = false := by
  have hidle : ∀ m ∈ pair, m.session = none ∧ m.owed = false := by decide
  exact fun a m ha => hidle m (World.mem_start ha).1

/-- The record is applied by a follower, from a sender that is not behind. -/
theorem frames_only_from_current_leader_pair :
    ∃ m s, (worldMachine.run (World.start pair) attachment).1.nodes "b:1" = some m ∧ m.session = some s ∧
      m.node.role = .follower ∧ ∀ b, (worldMachine.run (World.start pair) attachment).1.nodes s.addr = some b →
        m.node.epoch ≤ b.node.epoch :=
  frames_only_from_current_leader (World.start pair) attachment (9, .node "b:1" .deliver)
    (fun a m ha => (fresh_pair a m ha).1) (by decide +kernel) "b:1" .applyRaw (by decide +kernel)

/-- The operator promotes the follower while the record is in flight; it is applied by
a leader. -/
theorem leader_applies_frame :
    ∃ w, w = (worldMachine.run (World.start pair)
        (attachment ++ at9 [.node "b:1" .promote, .node "b:1" (.promoteTo 0)])).1 ∧
      (w.nodes "b:1").map (fun m => m.node.role) = some .leader ∧
      (worldMachine.step w (9, .node "b:1" .deliver)).2 = some ("b:1", .applyRaw) :=
  ⟨_, rfl, by decide +kernel, by decide +kernel⟩

/-- The follower is promoted, and the old leader hears of it. -/
def demotion : List (Int × Turn) :=
  at9 [.node "a:1" (.write (.put 0 [1] [7])), .node "b:1" .promote, .node "b:1" (.promoteTo 0), .announce 0,
    .node "b:1" (.write (.put 0 [1] [8])), .node "b:1" (.write (.put 0 [2] [9])), .node "a:1" .follow,
    .node "a:1" .take]

/-- The old leader resyncs, and then applies the records of the new one. -/
theorem resyncs_before_data_pair :
    ∃ m, (worldMachine.run (World.start pair) (demotion ++ at9 [.node "a:1" .request, .node "a:1" .serve,
        .node "a:1" (.emit (.heartbeat 2 "b:1")), .node "a:1" (.emit .fullSync),
        .node "a:1" (.emit (.replData (Record.encode ⟨0, 1, 0, [1], [8]⟩))), .node "a:1" .deliver,
        .node "a:1" .deliver])).1.nodes "a:1" = some m ∧ m.owed = false :=
  resyncs_before_data (World.start pair) _ (9, .node "a:1" .deliver) fresh_pair (by decide +kernel) "a:1"
    (by decide +kernel)

/-- The connection fails after the flag was taken. The next attempt asks for the records
above the old leader's own position and applies them, next to a write that the new
leader never had. -/
theorem demoted_applies_data :
    ∃ w, w = (worldMachine.run (World.start pair) (demotion ++ at9 [.node "a:1" .fail, .node "a:1" .follow,
        .node "a:1" .take, .node "a:1" .request, .node "a:1" .serve, .node "a:1" (.emit (.heartbeat 2 "b:1")),
        .node "a:1" (.emit (.replData (Record.encode ⟨0, 2, 0, [2], [9]⟩))), .node "a:1" .deliver])).1 ∧
      (w.nodes "a:1").map (fun m => m.owed) = some true ∧
      (worldMachine.step w (9, .node "a:1" .deliver)).2 = some ("a:1", .applyRaw) :=
  ⟨_, rfl, by decide +kernel, by decide +kernel⟩

end Gokv.Cluster
