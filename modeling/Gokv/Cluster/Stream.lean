import Gokv.Base.Run

/-! The channel between the writers and one attached follower.

`fanout` never blocks: it puts a write's buffer into the channel of every registered
stream or, where the channel is full, closes the stream's `done`. The goroutine of
`serveReplication` sends what it takes from the channel, and its `select` takes any
case that is ready. A stream that has overflowed stays registered until the goroutine
returns; it may go on taking buffers, which makes room, and the next `fanout` then
queues a buffer behind the one that was dropped. `stream_in_order`: that is the only
way a buffer is sent after a gap. -/
namespace Gokv.Cluster
open Base

def streamBuffer : Nat := 4096

/-- How many more buffers one pass of the loop takes. -/
def drainRounds : Nat := 256

/-- Where `serveReplication` is. -/
inductive Phase where
  | catchUp
  | select
  | drain (i : Nat)
  | returned
  deriving DecidableEq, Repr

structure Stream (α : Type) where
  ch : List α
  done : Bool
  registered : Bool
  phase : Phase
  /-- The buffers put on the wire. -/
  wire : List α
  /-- The buffers of the writes since `addStream`. -/
  appended : List α
  /-- A buffer was dropped. -/
  overflowed : Bool
  deriving DecidableEq, Repr

namespace Stream
variable {α : Type}

/-- The stream `addStream` registers. -/
def attached : Stream α := ⟨[], false, true, .catchUp, [], [], false⟩

def fanout (s : Stream α) (raw : α) : Stream α :=
  let s := {s with appended := s.appended ++ [raw]}
  if !s.registered then s
  else if s.ch.length < streamBuffer then {s with ch := s.ch ++ [raw]}
  else {s with done := true, overflowed := true}

/-- The goroutine goes on to `next`, or returns where it could not write. -/
def goOn (s : Stream α) (ok : Bool) (next : Phase) : Stream α := {s with phase := if ok then next else .returned}

/-- A receive from the channel, and the write of what it received. -/
def take (s : Stream α) (ok : Bool) (next : Phase) : Stream α :=
  match s.ch with
  | [] => s
  | raw :: rest => goOn {s with ch := rest, wire := if ok then s.wire ++ [raw] else s.wire} ok next

end Stream

/-- The cases of the `select`. -/
inductive Case where
  | stop
  | done
  | ch
  | heartbeat
  deriving DecidableEq, Repr

inductive Act (α : Type) where
  | fanout (raw : α)
  /-- The connection's reader, or `closeAllStreams`, closes the stream. -/
  | close
  /-- The goroutine goes on; in the `select` it takes this case. -/
  | serve (c : Case) (ok : Bool)
  /-- `removeStream`, deferred to the return. -/
  | remove
  deriving DecidableEq, Repr

namespace Stream
variable {α : Type}

def serve (s : Stream α) (c : Case) (ok : Bool) : Stream α :=
  match s.phase with
  | .catchUp => s.goOn ok .select
  | .select =>
    match c with
    | .stop => s.goOn false .select
    | .done => if s.done then s.goOn false .select else s
    | .ch => s.take ok (.drain 0)
    | .heartbeat => s.goOn ok .select
  | .drain i => if i < drainRounds ∧ s.ch ≠ [] then s.take ok (.drain (i + 1)) else s.goOn ok .select
  | .returned => s

def step (s : Stream α) : Act α → Stream α
  | .fanout raw => s.fanout raw
  | .close => {s with done := true}
  | .serve c ok => s.serve c ok
  | .remove => if s.phase = .returned then {s with registered := false, done := true} else s

def machine : Machine (Act α) (Stream α) Unit := ⟨fun s a => (s.step a, ())⟩

/-- A stream that has overflowed is given no buffer any more: its channel is still full
at every `fanout` until it is removed. -/
def Full (s : Stream α) : Act α → Prop
  | .fanout _ => s.overflowed = true → s.registered = true → streamBuffer ≤ s.ch.length
  | _ => True

instance decidableFull (s : Stream α) : (a : Act α) → Decidable (Full s a)
  | .fanout _ => inferInstanceAs (Decidable (_ → _ → _))
  | .close | .serve _ _ | .remove => .isTrue trivial

/-- What was sent, and what is queued behind it, are the first buffers of the writes. -/
structure InOrder (s : Stream α) : Prop where
  wire : s.wire <+: s.appended
  queue : s.phase ≠ .returned → s.wire ++ s.ch <+: s.appended
  whole : s.phase ≠ .returned → s.overflowed = false → s.wire ++ s.ch = s.appended
  registered : s.registered = false → s.phase = .returned

variable {s : Stream α}

theorem inOrder_attached : InOrder (attached : Stream α) :=
  ⟨List.prefix_rfl, fun _ => List.prefix_rfl, fun _ _ => rfl, fun h => absurd h Bool.true_eq_false.mp⟩

theorem InOrder.fanout (h : InOrder s) {raw : α} (hfull : Full s (.fanout raw)) : InOrder (s.fanout raw) := by
  have hmore : s.appended <+: s.appended ++ [raw] := List.prefix_append ..
  unfold Stream.fanout
  cases hreg : s.registered with
  | false =>
    have hret := h.registered hreg
    exact ⟨h.wire.trans hmore, fun hne => absurd hret hne, fun hne => absurd hret hne, fun _ => hret⟩
  | true =>
    simp only [Bool.not_true, Bool.false_eq_true, if_false]
    split
    case isFalse =>
      exact ⟨h.wire.trans hmore, fun hne => (h.queue hne).trans hmore, fun _ ho => (nomatch ho),
        fun hno => (nomatch hno)⟩
    case isTrue hroom =>
      -- There is room, so nothing was dropped before.
      have hno : s.overflowed = false := by
        cases ho : s.overflowed with
        | false => rfl
        | true => exact absurd (hfull ho hreg) (not_le.mpr hroom)
      have hall (hne : s.phase ≠ .returned) : s.wire ++ (s.ch ++ [raw]) = s.appended ++ [raw] := by
        rw [← List.append_assoc, h.whole hne hno]
      exact ⟨h.wire.trans hmore, fun hne => (hall hne) ▸ List.prefix_rfl, fun hne _ => hall hne,
        fun hno => (nomatch hno)⟩

theorem InOrder.goOn (h : InOrder s) (hne : s.phase ≠ .returned) (ok : Bool) (next : Phase) :
    InOrder (s.goOn ok next) :=
  ⟨h.wire, fun _ => h.queue hne, fun _ => h.whole hne, fun hno => absurd (h.registered hno) hne⟩

theorem InOrder.take (h : InOrder s) (hne : s.phase ≠ .returned) (ok : Bool) (next : Phase) :
    InOrder (s.take ok next) := by
  unfold Stream.take
  cases hch : s.ch with
  | nil => exact h
  | cons raw rest =>
    have hqueue := h.queue hne
    rw [hch] at hqueue
    have hsplit : s.wire ++ raw :: rest = (s.wire ++ [raw]) ++ rest := by simp
    cases ok with
    | false =>
      exact ⟨h.wire, fun hret => absurd rfl hret, fun hret => absurd rfl hret, fun _ => rfl⟩
    | true =>
      refine ⟨?_, fun _ => hsplit ▸ hqueue, fun _ ho => ?_, fun hno => absurd (h.registered hno) hne⟩
      · exact (List.prefix_append _ rest).trans (hsplit ▸ hqueue)
      · have hwhole := h.whole hne ho
        rw [hch] at hwhole
        exact hsplit ▸ hwhole

theorem InOrder.serve (h : InOrder s) (c : Case) (ok : Bool) : InOrder (s.serve c ok) := by
  unfold Stream.serve
  split
  case h_1 hp => exact h.goOn (by rw [hp]; exact Phase.noConfusion) ok _
  case h_2 hp =>
    have hne : s.phase ≠ .returned := by rw [hp]; exact Phase.noConfusion
    cases c with
    | stop => exact h.goOn hne false _
    | done =>
      dsimp only
      split
      · exact h.goOn hne false _
      · exact h
    | ch => exact h.take hne ok _
    | heartbeat => exact h.goOn hne ok _
  case h_3 i hp =>
    have hne : s.phase ≠ .returned := by rw [hp]; exact Phase.noConfusion
    split
    · exact h.take hne ok _
    · exact h.goOn hne ok _
  case h_4 => exact h

theorem InOrder.step (h : InOrder s) {a : Act α} (hfull : Full s a) : InOrder (s.step a) := by
  cases a with
  | fanout raw => exact h.fanout hfull
  | close => exact ⟨h.wire, h.queue, h.whole, h.registered⟩
  | serve c ok => exact h.serve c ok
  | remove =>
    unfold Stream.step
    dsimp only
    split
    case isTrue hret =>
      exact ⟨h.wire, fun hne => absurd hret hne, fun hne => absurd hret hne, fun _ => hret⟩
    case isFalse => exact h

/-- **What is sent is the first of what was appended**, in every interleaving in which a
stream that has overflowed is given no further buffer. -/
theorem stream_in_order (acts : List (Act α)) (h : machine.Meets Full attached acts) :
    (machine.run attached acts).1.wire <+: (machine.run attached acts).1.appended :=
  (h.invariant (P := InOrder) (fun _ _ hs hf => hs.step hf) inOrder_attached).wire

/-! ### A gap -/

theorem run_fanouts (x : α) {n : Nat} (hreg : s.registered = true) (hroom : s.ch.length + n ≤ streamBuffer) :
    (machine.run s (List.replicate n (.fanout x))).1 =
      {s with ch := s.ch ++ List.replicate n x, appended := s.appended ++ List.replicate n x} := by
  induction n generalizing s with
  | zero => simp [Machine.run]
  | succ n ih =>
    have hstep : s.fanout x = {s with ch := s.ch ++ [x], appended := s.appended ++ [x]} := by
      simp only [Stream.fanout, hreg, Bool.not_true, Bool.false_eq_true, if_false]
      exact if_pos (by omega)
    rw [List.replicate_succ]
    show (machine.run (s.fanout x) (List.replicate n (.fanout x))).1 = _
    rw [hstep, ih (s := {s with ch := s.ch ++ [x], appended := s.appended ++ [x]}) hreg]
    · simp [List.replicate_succ]
    · show (s.ch ++ [x]).length + n ≤ streamBuffer
      rw [List.length_append, List.length_singleton]
      omega

/-- In its loop, that is after the catch-up and before the return. -/
def Looping (s : Stream α) : Prop := s.phase = .select ∨ ∃ i, s.phase = .drain i

/-- A goroutine that prefers the channel to every other case sends the next buffer, in
this pass of the loop or the following one. -/
theorem run_sends {raw : α} {rest : List α} (hp : s.Looping) (hch : s.ch = raw :: rest) :
    ∃ n next, (machine.run s (List.replicate n (.serve .ch true))).1 =
      {s with ch := rest, wire := s.wire ++ [raw], phase := next} ∧ (next = .select ∨ ∃ i, next = .drain i) := by
  have htake (p next : Phase) : Stream.take {s with phase := p} true next =
      {s with ch := rest, wire := s.wire ++ [raw], phase := next} := by
    simp only [Stream.take, hch, Stream.goOn, if_true]
  rcases hp with hp | ⟨i, hp⟩
  · refine ⟨1, .drain 0, ?_, .inr ⟨0, rfl⟩⟩
    show s.serve .ch true = _
    simp only [Stream.serve, hp]
    exact htake s.phase (.drain 0)
  · by_cases hi : i < drainRounds
    · refine ⟨1, .drain (i + 1), ?_, .inr ⟨i + 1, rfl⟩⟩
      show s.serve .ch true = _
      simp only [Stream.serve, hp, hch, hi, ne_eq, reduceCtorEq, not_false_eq_true, and_self, if_true]
      exact htake s.phase (.drain (i + 1))
    · refine ⟨2, .drain 0, ?_, .inr ⟨0, rfl⟩⟩
      show (s.serve .ch true).serve .ch true = _
      have hflush : s.serve .ch true = {s with phase := .select} := by
        simp only [Stream.serve, hp, hi, false_and, if_false, Stream.goOn, if_true]
      rw [hflush]
      exact htake .select (.drain 0)

theorem run_exhausts (hp : s.Looping) :
    ∃ n, (machine.run s (List.replicate n (.serve .ch true))).1.wire = s.wire ++ s.ch ∧
      (machine.run s (List.replicate n (.serve .ch true))).1.appended = s.appended := by
  generalize hch : s.ch = xs
  induction xs generalizing s with
  | nil => exact ⟨0, (List.append_nil _).symm, rfl⟩
  | cons raw rest ih =>
    obtain ⟨k, next, hk, hnext⟩ := run_sends hp hch
    obtain ⟨n, hwire, happ⟩ := ih (s := {s with ch := rest, wire := s.wire ++ [raw], phase := next}) hnext rfl
    refine ⟨k + n, ?_⟩
    rw [List.replicate_add, Machine.run_append, hk, hwire, happ]
    exact ⟨by simp, rfl⟩

end Stream

/-- Two writes around the end of the catch-up, both sent. -/
theorem stream_in_order_run : (Stream.machine.run Stream.attached [.fanout 1, .serve .stop true, .fanout 2,
      .serve .ch true, .serve .ch true]).1.wire = [1, 2] ∧
    (Stream.machine.run Stream.attached [.fanout 1, .serve .stop true, .fanout 2, .serve .ch true,
      .serve .ch true]).1.wire <+: [1, 2] :=
  ⟨by decide, Stream.stream_in_order _ (by decide)⟩

/-- The channel fills and a buffer is dropped; the goroutine, whose `done` is closed,
takes one from the channel all the same; the next write finds room, and is sent behind
the gap. -/
theorem overflow_gap : ∃ n s, s = (Stream.machine.run Stream.attached (.serve .stop true ::
      (List.replicate streamBuffer (.fanout 0) ++ ([.fanout 1, .serve .ch true, .fanout 2] ++
        List.replicate n (.serve .ch true))))).1 ∧
    s.appended = List.replicate streamBuffer 0 ++ [1, 2] ∧ s.wire = List.replicate streamBuffer 0 ++ [2] ∧
    ¬ s.wire <+: s.appended := by
  obtain ⟨k, hk⟩ : ∃ k, streamBuffer = k + 1 := ⟨4095, rfl⟩
  have hcons : List.replicate streamBuffer 0 = 0 :: List.replicate k 0 := by rw [hk, List.replicate_succ]
  have hlen : (0 :: List.replicate k 0).length = streamBuffer := by rw [List.length_cons, List.length_replicate, hk]
  have hfull : (Stream.machine.run (Stream.serve Stream.attached .stop true)
      (List.replicate streamBuffer (.fanout 0))).1 =
        ⟨0 :: List.replicate k 0, false, true, .select, [], 0 :: List.replicate k 0, false⟩ := by
    rw [Stream.run_fanouts 0 rfl (Nat.zero_add streamBuffer).le, hcons]
    simp only [Stream.serve, Stream.attached, Stream.goOn, if_true, List.nil_append]
  have hqueued : (Stream.machine.run
      ⟨0 :: List.replicate k 0, false, true, .select, [], 0 :: List.replicate k 0, false⟩
      [.fanout 1, .serve .ch true, .fanout 2]).1 =
        ⟨List.replicate k 0 ++ [2], true, true, .drain 0, [0], 0 :: List.replicate k 0 ++ [1] ++ [2], true⟩ := by
    have hroom : (List.replicate k 0).length < streamBuffer := by
      rw [List.length_replicate, hk]
      exact Nat.lt_succ_self k
    have hdrop : ¬ (0 :: List.replicate k 0).length < streamBuffer := hlen.symm ▸ lt_irrefl streamBuffer
    simp only [Machine.run, Stream.machine, Stream.step, Stream.fanout, Stream.serve, Stream.take, Stream.goOn,
      Bool.not_true, Bool.false_eq_true, hdrop, hroom, if_true, if_false, List.nil_append]
  obtain ⟨n, hwire, happ⟩ := Stream.run_exhausts (s := ⟨List.replicate k 0 ++ [2], true, true, .drain 0, [0],
    0 :: List.replicate k 0 ++ [1] ++ [2], true⟩) (.inr ⟨0, rfl⟩)
  have hrun : (Stream.machine.run Stream.attached (.serve .stop true ::
      (List.replicate streamBuffer (.fanout 0) ++ ([.fanout 1, .serve .ch true, .fanout 2] ++
        List.replicate n (.serve .ch true))))).1 = (Stream.machine.run ⟨List.replicate k 0 ++ [2], true, true, .drain 0,
          [0], 0 :: List.replicate k 0 ++ [1] ++ [2], true⟩ (List.replicate n (.serve .ch true))).1 := by
    have hfirst (rest : List (Act Nat)) : (Stream.machine.run Stream.attached (.serve .stop true :: rest)).1 =
      (Stream.machine.run (Stream.serve Stream.attached .stop true) rest).1 := rfl
    rw [hfirst, Machine.run_append, hfull, Machine.run_append, hqueued]
  have hwire' : (Stream.machine.run _ _).1.wire = List.replicate streamBuffer 0 ++ [2] :=
    hwire.trans (by rw [hcons]; rfl)
  have happ' : (Stream.machine.run _ _).1.appended = List.replicate streamBuffer 0 ++ [1, 2] :=
    happ.trans (by rw [hcons, List.append_assoc]; rfl)
  refine ⟨n, _, hrun.symm, happ', hwire', ?_⟩
  rw [hwire', happ', List.prefix_append_right_inj]
  decide

end Gokv.Cluster
