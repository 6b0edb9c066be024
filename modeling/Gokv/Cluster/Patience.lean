import Gokv.Cluster.World

/-! How long a follower waits for the next frame.

`replicateFrom` has a tight deadline for the greeting and for a live stream, and a generous one for
the catch-up in between, when the leader reads its log. What tells it that the catch-up is over is
`live` or any heartbeat; but the greeting is a heartbeat too. `waits_idle`: on a stream that begins
with the greeting no read is given the generous deadline, the one for a frame that has not come yet
included. `patience_iff` says when this is not noticed. -/
namespace Gokv.Cluster
open Base Engine

/-! ### The deadlines -/

/-- A second, in the nanoseconds of a duration. -/
def second : Int64 := 1000000000

/-- `HeartbeatInterval` with its default. -/
def heartbeatInterval (configured : Int64) : Int64 := if configured ≤ 0 then second else configured

def idle (configured : Int64) : Int64 := max (3 * heartbeatInterval configured) second

def catchUpIdle : Int64 := 60 * second

/-- The two flags of `replicateFrom`. -/
structure Patience where
  caughtUp : Bool
  greeted : Bool

namespace Patience

def start : Patience := ⟨false, false⟩

def deadline (configured : Int64) (p : Patience) : Int64 :=
  if p.greeted && !p.caughtUp then catchUpIdle else idle configured

def after (p : Patience) : Frame → Patience
  | .live | .heartbeat _ _ => ⟨true, true⟩
  | _ => {p with greeted := true}

end Patience

/-- A frame after which `replicateFrom` returns, whatever the store makes of it. -/
def Frame.ends : Frame → Bool
  | .redirect _ | .error _ => true
  | _ => false

section Waits
variable [Checksum]

/-- The deadlines `replicateFrom` sets when these frames are sent and nothing behind them: one for
every frame it takes, and one for the read it is left in, unless it has returned. -/
def waits (configured : Int64) : Patience → Store → List Frame → List Int64
  | p, _, [] => [p.deadline configured]
  | p, s, f :: rest =>
    p.deadline configured ::
      if f.ends then []
      else
        match receive s f with
        | (_, some _) => []
        | (s, none) => waits configured (p.after f) s rest

/-! ### The stream -/

/-- The stages of `serveReplication`. -/
inductive Serving where
  | greeting
  | catchUp
  | live
  deriving DecidableEq, Repr

def Serving.next : Serving → Frame → Option Serving
  | .greeting, .heartbeat _ _ => some .catchUp
  | .catchUp, .fullSync | .catchUp, .replData _ => some .catchUp
  | .catchUp, .live => some .live
  | .live, .replData _ | .live, .heartbeat _ _ => some .live
  | _, _ => none

/-- The frames are a beginning of what a sender at this stage may send. -/
def Serving.Sends : Serving → List Frame → Prop
  | _, [] => True
  | stage, f :: rest =>
    match stage.next f with
    | some stage => stage.Sends rest
    | none => False

/-- The stage of a feed that has accepted its follower. -/
def Feed.stage : Feed → Option Serving
  | .accepted _ => some .greeting
  | .greeted _ | .log | .snapshot => some .catchUp
  | .live => some .live
  | _ => none

omit [Checksum] in
theorem Feed.stage_next {n : Node} {feed feed' : Feed} {f : Frame} {stage : Serving} (hstage : feed.stage = some stage)
    (h : feed.next n f = some feed') : ∃ stage', stage.next f = some stage' ∧ feed'.stage = some stage' := by
  cases feed with
  | requested _ | closed => cases hstage
  | accepted q =>
    cases hstage
    cases f with
    | heartbeat epoch addr =>
      obtain ⟨-, heq⟩ := Option.ite_none_right_eq_some.mp h
      cases heq
      exact ⟨.catchUp, rfl, rfl⟩
    | fullSync | replData _ | live | redirect _ | error _ => cases h
  | greeted q =>
    cases hstage
    cases f with
    | fullSync =>
      cases h
      exact ⟨.catchUp, rfl, rfl⟩
    | replData raw =>
      obtain ⟨-, heq⟩ := Option.ite_none_left_eq_some.mp h
      cases heq
      exact ⟨.catchUp, rfl, rfl⟩
    | live =>
      obtain ⟨-, heq⟩ := Option.ite_none_left_eq_some.mp h
      cases heq
      exact ⟨.live, rfl, rfl⟩
    | heartbeat _ _ | redirect _ | error _ => cases h
  | log | snapshot =>
    cases hstage
    cases f with
    | replData raw =>
      cases h
      exact ⟨.catchUp, rfl, rfl⟩
    | live =>
      cases h
      exact ⟨.live, rfl, rfl⟩
    | fullSync | heartbeat _ _ | redirect _ | error _ => cases h
  | live =>
    cases hstage
    cases f with
    | replData raw =>
      cases h
      exact ⟨.live, rfl, rfl⟩
    | heartbeat epoch addr =>
      obtain ⟨-, heq⟩ := Option.ite_none_right_eq_some.mp h
      cases heq
      exact ⟨.live, rfl, rfl⟩
    | fullSync | live | redirect _ | error _ => cases h

omit [Checksum] in
/-- **What a node sends to a follower** goes through the stages. -/
theorem Feed.sends_stage {n : Node} {feed feed' : Feed} {frames : List Frame} {stage : Serving}
    (hstage : feed.stage = some stage) (h : feed.sends n frames = some feed') : stage.Sends frames := by
  induction frames generalizing feed stage with
  | nil => trivial
  | cons f rest ih =>
    rw [Feed.sends] at h
    obtain ⟨feed₁, hnext, hrest⟩ := Option.bind_eq_some_iff.mp h
    obtain ⟨stage₁, hs, hfeed⟩ := Feed.stage_next hstage hnext
    rw [Serving.Sends, hs]
    exact ih hfeed hrest

/-! ### What the follower does -/

/-- The deadline the read of a frame is meant to have: a tight one for the first frame, a generous one up to
and including `live`, a tight one from there on. -/
def meant (configured : Int64) (frames : List Frame) (i : Nat) : Int64 :=
  if i = 0 ∨ .live ∈ frames.take i then idle configured else catchUpIdle

/-- Every deadline is the one that was meant. -/
def Patient (configured : Int64) (s : Store) (frames : List Frame) : Prop :=
  ∀ i d, (waits configured .start s frames)[i]? = some d → d = meant configured frames i

omit [Checksum] in
theorem Patience.deadline_caughtUp {configured : Int64} {p : Patience} (hp : p.caughtUp = true) :
    p.deadline configured = idle configured := by
  rw [Patience.deadline, hp, Bool.not_true, Bool.and_false]
  exact if_neg Bool.false_ne_true

theorem waits_caughtUp {configured : Int64} {p : Patience} (hp : p.caughtUp = true) (s : Store)
    (frames : List Frame) : ∀ d ∈ waits configured p s frames, d = idle configured := by
  induction frames generalizing p s with
  | nil =>
    intro d hd
    rw [List.mem_singleton.mp hd, Patience.deadline_caughtUp hp]
  | cons f rest ih =>
    intro d hd
    rw [waits] at hd
    rcases List.mem_cons.mp hd with rfl | hd
    · exact Patience.deadline_caughtUp hp
    · split_ifs at hd
      · exact absurd hd List.not_mem_nil
      · have hafter : (p.after f).caughtUp = true := by cases f <;> first | rfl | exact hp
        rcases hr : receive s f with ⟨s', _ | e⟩ <;> rw [hr] at hd
        · exact ih hafter s' d hd
        · exact absurd hd List.not_mem_nil

theorem waits_greeting (configured : Int64) (s : Store) (epoch : UInt64) (addr : String) (rest : List Frame) :
    waits configured .start s (.heartbeat epoch addr :: rest) =
      idle configured :: waits configured ⟨true, true⟩ s rest := rfl

omit [Checksum] in
theorem Serving.Sends.greeting {frames : List Frame} (h : Serving.greeting.Sends frames) :
    frames = [] ∨ ∃ epoch addr rest, frames = .heartbeat epoch addr :: rest := by
  cases frames with
  | nil => exact .inl rfl
  | cons f rest =>
    cases f with
    | heartbeat epoch addr => exact .inr ⟨epoch, addr, rest, rfl⟩
    | fullSync | replData _ | live | redirect _ | error _ => exact h.elim

/-- **No frame of a leader is waited for with the generous deadline**, sent or not. -/
theorem waits_idle (configured : Int64) (s : Store) {frames : List Frame} (h : Serving.greeting.Sends frames) :
    ∀ d ∈ waits configured .start s frames, d = idle configured := by
  rcases h.greeting with rfl | ⟨epoch, addr, rest, rfl⟩
  · exact fun d hd => List.mem_singleton.mp hd
  · rw [waits_greeting, List.forall_mem_cons]
    exact ⟨rfl, waits_caughtUp rfl s rest⟩

omit [Checksum] in
/-- Three is a unit among the 64-bit integers, so only one interval makes the deadlines equal. -/
theorem idle_eq_iff (configured : Int64) : idle configured = catchUpIdle ↔ configured = 20 * second := by
  constructor
  · intro h
    have hthree : 3 * heartbeatInterval configured = 60 * second := by
      have hmax : idle configured = if 3 * heartbeatInterval configured ≤ second then second
          else 3 * heartbeatInterval configured := rfl
      rw [hmax] at h
      split_ifs at h with hle
      · exact absurd h (by decide)
      · exact h
    have hinterval : heartbeatInterval configured = 20 * second := by grind [second]
    rw [heartbeatInterval] at hinterval
    split_ifs at hinterval with hdefault
    · exact absurd hinterval (by decide)
    · exact hinterval
  · rintro rfl
    decide

/-- **When the deadlines are as they are meant to be**: if not even the greeting comes, or the tight
deadline is as long as the generous one. -/
theorem patience_iff (configured : Int64) (s : Store) {frames : List Frame} (h : Serving.greeting.Sends frames) :
    Patient configured s frames ↔ frames = [] ∨ configured = 20 * second := by
  have hall := waits_idle configured s h
  rw [← idle_eq_iff]
  constructor
  · intro hpatient
    rcases h.greeting with rfl | ⟨epoch, addr, rest, rfl⟩
    · exact .inl rfl
    · -- the read behind the greeting has its deadline, whether a frame comes or not
      right
      cases rest with
      | nil => exact hpatient 1 _ rfl
      | cons f rest => exact hpatient 1 _ rfl
  · intro hcond i d hd
    rw [hall d (List.mem_of_getElem? hd), meant]
    rcases hcond with rfl | heq
    · cases i with
      | zero => rw [if_pos (.inl rfl)]
      | succ i => cases hd
    · rw [← heq, ite_self]

end Waits

/-- A whole stream under an interval of twenty seconds: the greeting, a resync with a record, `live`,
another record, and silence. -/
theorem patience_iff_twenty :
    let frames : List Frame := [.heartbeat 1 "a", .fullSync, .replData (Record.encode ⟨0, 1, 0, [1], [7]⟩), .live,
      .replData (Record.encode ⟨0, 2, 0, [2], [8]⟩)]
    waits (20 * second) .start (Store.init ⟨0, .never⟩) frames = List.replicate 6 (60 * second) ∧
      Patient (20 * second) (Store.init ⟨0, .never⟩) frames :=
  ⟨by decide +kernel, (patience_iff (20 * second) (Store.init ⟨0, .never⟩)
    (show Serving.greeting.Sends [.heartbeat 1 "a", .fullSync, .replData (Record.encode ⟨0, 1, 0, [1], [7]⟩), .live,
      .replData (Record.encode ⟨0, 2, 0, [2], [8]⟩)] from trivial)).mpr (.inr rfl)⟩

/-- With the default interval the first record of the catch-up is owed within three seconds. -/
theorem impatient : Serving.greeting.Sends [.heartbeat 1 "a", .replData [], .live] ∧
    waits 0 .start (Store.init ⟨0, .never⟩) [.heartbeat 1 "a", .replData [], .live] = List.replicate 4 (3 * second) ∧
    meant 0 [.heartbeat 1 "a", .replData [], .live] 1 = 60 * second ∧
    ¬ Patient 0 (Store.init ⟨0, .never⟩) [.heartbeat 1 "a", .replData [], .live] := by
  have hwaits : waits 0 .start (Store.init ⟨0, .never⟩) [.heartbeat 1 "a", .replData [], .live] =
      List.replicate 4 (3 * second) := by decide +kernel
  refine ⟨trivial, hwaits, by decide, fun hpatient => ?_⟩
  have hmeant := hpatient 1 (3 * second) (by rw [hwaits]; rfl)
  exact absurd hmeant (by decide)

end Gokv.Cluster
