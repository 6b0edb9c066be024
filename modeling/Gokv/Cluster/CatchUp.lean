import Gokv.Cluster.State
import Gokv.Engine.Source
import Gokv.Engine.Replica
import Gokv.Engine.Crash

/-! A follower attaches to a leader that is left alone.

The follower names a position, its own counter, and the leader sends a heartbeat, the
catch-up, and the end of it: the records its log holds above the position or, for
position zero and for positions below its watermark, everything (`catchUp`).

The leader learns nothing of the follower but the position. What the follower shows
afterwards is the newest record the leader's log has above the position, and where
there is none what it showed before (`attach`). So the two agree afterwards exactly if
that is the leader's value for every key: `attach_agrees` for any two stores, and
`resume_after_cut` for the position that a snapshot, cut anywhere by the connection or
by a crash, leaves behind. -/
namespace Gokv.Cluster
open Base Engine

/-- A frame of a replication stream. -/
inductive Frame where
  | heartbeat (epoch : UInt64) (leaderAddr : String)
  | fullSync
  | replData (raw : Bytes)
  | live
  | redirect (leader : String)
  | error (msg : String)
  deriving DecidableEq, Repr

section CatchUp
variable [Checksum]

def snapshotFrames (l : Store) : List Frame := .fullSync :: l.snapshotRecords.map .replData

/-- `catchUp`; the one error of `RecordsSince` calls for the snapshot. -/
def catchUp (l : Store) (fromSeq : UInt64) : List Frame :=
  if fromSeq = 0 then snapshotFrames l
  else
    match l.recordsSince fromSeq with
    | .ok raws => raws.map .replData
    | .error _ => snapshotFrames l

/-- What a leader sends a follower that attaches at `fromSeq`, as long as nothing is
written. -/
def serve (l : Store) (heartbeat : UInt64 × String) (fromSeq : UInt64) : List Frame :=
  .heartbeat heartbeat.1 heartbeat.2 :: (catchUp l fromSeq ++ [.live])

/-- What a frame does to the store of the follower. -/
def receive (f : Store) : Frame → Store × Option Error
  | .fullSync => f.reset
  | .replData raw =>
    match f.applyRaw raw with
    | (f, .error e) => (f, some e)
    | (f, .ok _) => (f, none)
  | _ => (f, none)

def receiveAll (f : Store) : List Frame → Store × Option Error
  | [] => (f, none)
  | frame :: rest =>
    match receive f frame with
    | (f, some e) => (f, some e)
    | (f, none) => receiveAll f rest

/-- The position `replicateFrom` asks for. -/
def position (wasLeader : Bool) (f : Store) : UInt64 := if wasLeader then 0 else f.seq

/-- A store in order whose counter has passed every entry of its index. -/
structure Ready (s : Store) : Prop where
  wf : Wf .every s []
  entries : ∀ (k : Bytes) (e : Entry), s.keys[k]? = some e → e.seq ≤ s.seq

/-- What the log of a store shows above a position. -/
def above (l : Store) (q : UInt64) : Bytes → Option (Nat × Option Bytes) :=
  Newest.offerAll (fun _ => none) ((l.since q).map Record.version)

/-- For every key the newest record the leader's log has above the follower's position
carries the leader's value or, if there is none, the two agree already. -/
def Covered (l f : Store) : Prop :=
  ∀ k, match above l f.seq k with
    | some x => x.2 = l.liveMap k
    | none => f.liveMap k = l.liveMap k

theorem liveMap_unlisted {s : Store} {k : Bytes} (hk : k ∉ s.keys.keys) : s.liveMap k = none :=
  Store.liveMap_none (Std.ExtTreeMap.getElem?_eq_none fun hm => hk (Std.ExtTreeMap.mem_keys.mpr hm))

/-- The log has one record above the position, and where it says nothing the two agree. -/
theorem covered_single {l f : Store} {x : Bytes × Nat × Option Bytes}
    (hsince : (l.since f.seq).map Record.version = [x]) (hx : x.2.2 = l.liveMap x.1)
    (hrest : ∀ k ∈ l.keys.keys ++ f.keys.keys, k ≠ x.1 → f.liveMap k = l.liveMap k) : Covered l f := by
  intro k
  rw [above, hsince]
  by_cases hk : k = x.1
  · rw [hk, show Newest.offerAll (fun _ => none) [x] x.1 = some x.2 by simp [Newest.offerAll, Newest.offer]]
    exact hx
  · rw [Newest.offerAll_other fun y hy => by rw [List.mem_singleton.mp hy]; exact Ne.symm hk]
    by_cases hmem : k ∈ l.keys.keys ++ f.keys.keys
    · exact hrest k hmem hk
    · rw [List.mem_append, not_or] at hmem
      show f.liveMap k = l.liveMap k
      rw [liveMap_unlisted hmem.1, liveMap_unlisted hmem.2]

/-- A store with a history of its own is ready. -/
theorem Ready.of_quiet {s : Store} (h : Quiet s) : Ready s :=
  ⟨h.inv.toWf.every, fun _ _ he => h.bounded.entry h.inv.toWf he⟩

theorem Ready.run {opts : Options} {ops : List Op} (h : storeMachine.Meets Fits (Store.init opts) ops) :
    Ready (storeMachine.run (Store.init opts) ops).1 :=
  .of_quiet ((storeRefinesMap.run (quiet_init opts) h).1).1

/-! ### Frames of records -/

theorem receiveAll_append (f : Store) (xs ys : List Frame) :
    receiveAll f (xs ++ ys) =
      match receiveAll f xs with
      | (f, some e) => (f, some e)
      | (f, none) => receiveAll f ys := by
  induction xs generalizing f with
  | nil => rfl
  | cons x rest ih =>
    rw [List.cons_append, receiveAll, receiveAll]
    cases hx : receive f x with
    | mk f₁ err =>
      cases err with
      | some e => rfl
      | none => exact ih f₁

theorem receiveAll_data (f : Store) (raws : List Bytes) :
    receiveAll f (raws.map .replData) = f.applyAll raws := by
  induction raws generalizing f with
  | nil => rfl
  | cons raw rest ih =>
    rw [List.map_cons, receiveAll, receive, Store.applyAll]
    cases hx : f.applyRaw raw with
    | mk f₁ out =>
      cases out with
      | error e => rfl
      | ok top => exact ih f₁

/-! ### A follower stays in order -/

/-- A frame whose data, if it carries any, is whole records within the limits. -/
def Frame.Benign : Frame → Prop
  | .replData raw => ∃ recs, raw = encodeAll recs ∧ (∀ r ∈ recs, r.Sized) ∧ Addressable recs
  | _ => True

theorem Ready.received {f f' : Store} {recs : List Record} (h : Ready f) (hr : Received f f' recs) : Ready f' where
  wf := hr.wf
  entries k e he := by
    have hself : Newest.Sound {x | f.view x.1 = some x.2} f.view := fun _ _ hx => hx
    have hview : f'.view k = some (e.seq.toNat, valueAt f'.dir e) := by
      rw [Store.view, Index.versions, he, Option.map_some]
    rw [hr.view] at hview
    obtain ⟨hq, hall, -⟩ := topSeq_spec f.seq recs
    rw [hr.seq]
    rcases hself.offerAll (recs.map Record.version) k _ hview with hold | hnew
    · obtain ⟨e₀, he₀, heq⟩ := Option.map_eq_some_iff.mp hold
      have hseq : e₀.seq = e.seq := UInt64.toNat_inj.mp (congrArg Prod.fst heq)
      exact hseq ▸ UInt64.le_trans (h.entries k e₀ he₀) hq
    · obtain ⟨r, hmem, heq⟩ := List.mem_map.mp hnew
      have hseq : r.seq = e.seq := UInt64.toNat_inj.mp (congrArg (·.2.1) heq)
      exact hseq ▸ hall r hmem

theorem Ready.cleared {f f' : Store} (h : Cleared f f') : Ready f' where
  wf := h.wf
  entries k e he := by
    have := congrFun h.view k
    rw [Store.view, Index.versions, he] at this
    cases this

/-- **A follower stays in order, whatever it is sent**, as long as it has file ids. -/
theorem Ready.receiveAll {f : Store} (h : Ready f) {frames : List Frame} (hb : ∀ x ∈ frames, x.Benign)
    (hid : f.nextID + frames.length < 2 ^ 32) :
    ∃ f', receiveAll f frames = (f', none) ∧ Ready f' ∧ f'.nextID ≤ f.nextID + frames.length := by
  induction frames generalizing f with
  | nil => exact ⟨f, rfl, h, Nat.le_refl _⟩
  | cons x rest ih =>
    rw [List.length_cons] at hid
    obtain ⟨f₁, hx, hready, hnext⟩ :
        ∃ f₁, receive f x = (f₁, none) ∧ Ready f₁ ∧ f₁.nextID ≤ f.nextID + 1 := by
      cases x with
      | fullSync =>
        obtain ⟨f₁, hreset, hclear⟩ := h.wf.reset (by omega)
        exact ⟨f₁, hreset, .cleared hclear, hclear.nextID.le⟩
      | replData raw =>
        obtain ⟨recs, rfl, hs, ha⟩ := hb _ (List.mem_cons_self ..)
        obtain ⟨f₁, top, hraw, hr, hnext⟩ := h.wf.applyRaw hs ha (by omega)
        exact ⟨f₁, by rw [receive, hraw], h.received hr, hnext⟩
      | heartbeat _ _ | live | redirect _ | error _ => exact ⟨f, rfl, h, Nat.le_succ _⟩
    obtain ⟨f₂, hrest, hready', hnext'⟩ := ih hready (fun y hy => hb y (List.mem_cons_of_mem _ hy)) (by omega)
    refine ⟨f₂, ?_, hready', ?_⟩
    · rw [Cluster.receiveAll, hx]
      exact hrest
    · rw [List.length_cons]
      omega

section Leader
variable {ρ : Reading} {pend : Pending} {l f : Store} {heartbeat : UInt64 × String}

theorem catchUp_full (hl : Wf ρ l pend) {q : UInt64} (hq : q = 0 ∨ q < l.mergeSeq) :
    catchUp l q = .fullSync :: (l.snapshot.map Record.encode).map .replData := by
  rw [catchUp]
  split
  · rw [snapshotFrames, snapshotRecords_eq hl.files]
  case isFalse hne =>
    rw [recordsSince_eq, if_pos (hq.resolve_left hne)]
    simp only [snapshotFrames, snapshotRecords_eq hl.files]

theorem catchUp_log {q : UInt64} (hq : ¬ (q = 0 ∨ q < l.mergeSeq)) :
    catchUp l q = ((l.since q).map Record.encode).map .replData := by
  rw [catchUp, if_neg fun h => hq (.inl h), recordsSince_eq, if_neg fun h => hq (.inr h)]

theorem benign_single {r : Record} (h : r.Sized) : Frame.Benign (.replData r.encode) :=
  ⟨[r], (List.append_nil _).symm, fun r' hr' => by rwa [List.mem_singleton.mp hr'], addressable_single r⟩

/-- A leader sends whole records. -/
theorem benign_serve (hl : Wf ρ l pend) (heartbeat : UInt64 × String) (q : UInt64) :
    ∀ x ∈ serve l heartbeat q, x.Benign := by
  have hdata {recs : List Record} (hs : ∀ r ∈ recs, r.Sized) :
      ∀ x ∈ (recs.map Record.encode).map Frame.replData, x.Benign := by
    intro x hx
    obtain ⟨raw, hraw, rfl⟩ := List.mem_map.mp hx
    obtain ⟨r, hr, rfl⟩ := List.mem_map.mp hraw
    exact benign_single (hs r hr)
  have hcatch : ∀ x ∈ catchUp l q, x.Benign := by
    by_cases hq : q = 0 ∨ q < l.mergeSeq
    · rw [catchUp_full hl hq]
      intro x hx
      rcases List.mem_cons.mp hx with rfl | hx
      · trivial
      · exact hdata (sized_snapshot hl.readable.leads) x hx
    · rw [catchUp_log hq]
      refine hdata fun r hr => ?_
      obtain ⟨⟨id, hold⟩, -⟩ := hl.mem_since.mp hr
      exact hold.sized
  intro x hx
  rcases List.mem_cons.mp hx with rfl | hx
  · trivial
  · rcases List.mem_append.mp hx with hx | hx
    · exact hcatch x hx
    · rw [List.mem_singleton.mp hx]
      trivial

/-! ### What the follower shows afterwards -/

theorem receiveAll_serve (f l : Store) (heartbeat : UInt64 × String) (q : UInt64) {f' : Store}
    (h : receiveAll f (catchUp l q) = (f', none)) : receiveAll f (serve l heartbeat q) = (f', none) := by
  have hlive : receiveAll f' [.live] = (f', none) := rfl
  show receiveAll f (catchUp l q ++ [.live]) = _
  rw [receiveAll_append, h]
  exact hlive

/-- **A snapshot** makes the follower show what the leader shows. -/
theorem attach_full (hl : Wf ρ l pend) (hf : Ready f) {q : UInt64} (hq : q = 0 ∨ q < l.mergeSeq)
    (hid : f.nextID + (serve l heartbeat q).length < 2 ^ 32) :
    ∃ f', receiveAll f (serve l heartbeat q) = (f', none) ∧ f'.liveMap = l.liveMap := by
  have hlen : (serve l heartbeat q).length = l.snapshot.length + 3 := by
    simp [serve, catchUp_full hl hq]
  obtain ⟨f₁, hreset, hclear⟩ := hf.wf.reset (by omega)
  obtain ⟨f₂, hall, hr⟩ := hclear.wf.applySingly (sized_snapshot hl.readable.leads) (by rw [hclear.nextID]; omega)
  refine ⟨f₂, receiveAll_serve f l heartbeat q ?_, ?_⟩
  · rw [catchUp_full hl hq, receiveAll]
    simp only [receive, hreset, receiveAll_data, hall]
  · rw [Store.liveMap, hr.view, hclear.view]
    have hindex := Newest.indexes_offerAll (l.snapshot.map Record.version)
    exact hindex.live_eq (hl.readable.shown_eq ▸ snapshot_shows hl.readable.leads)

/-- **A replay of the log** makes the follower show the newest record above its
position and, where there is none, what it showed before. -/
theorem attach_log (hl : Wf ρ l pend) (hf : Ready f) (hq : ¬ (f.seq = 0 ∨ f.seq < l.mergeSeq))
    (hid : f.nextID + (serve l heartbeat f.seq).length < 2 ^ 32) :
    ∃ f', receiveAll f (serve l heartbeat f.seq) = (f', none) ∧
      ∀ k, f'.liveMap k = ((above l f.seq k).or (f.view k)).bind Prod.snd := by
  have hlen : (serve l heartbeat f.seq).length = (l.since f.seq).length + 2 := by
    simp [serve, catchUp_log hq]
  have hsized : ∀ r ∈ l.since f.seq, r.Sized := fun r hr => by
    obtain ⟨⟨id, hold⟩, -⟩ := hl.mem_since.mp hr
    exact hold.sized
  obtain ⟨f', hall, hr⟩ := hf.wf.applySingly hsized (by omega)
  refine ⟨f', receiveAll_serve f l heartbeat f.seq ?_, fun k => ?_⟩
  · rw [catchUp_log hq, receiveAll_data, hall]
  · rw [Store.liveMap, Newest.live, hr.above hf.entries fun r hmem => (hl.mem_since.mp hmem).2, above]

theorem covered_iff {f' : Store}
    (h : ∀ k, f'.liveMap k = ((above l f.seq k).or (f.view k)).bind Prod.snd) :
    f'.liveMap = l.liveMap ↔ Covered l f := by
  have hk : ∀ k, f'.liveMap k = l.liveMap k ↔
      (match above l f.seq k with
        | some x => x.2 = l.liveMap k
        | none => f.liveMap k = l.liveMap k) := by
    intro k
    rw [h k]
    cases above l f.seq k with
    | some x => rfl
    | none => rfl
  exact ⟨fun heq k => (hk k).mp (congrFun heq k), fun hc => funext fun k => (hk k).mpr (hc k)⟩

/-- Whether the position of a follower brings it the leader's state. -/
theorem attach_position (hl : Wf ρ l pend) (hf : Ready f)
    (hid : f.nextID + (serve l heartbeat f.seq).length < 2 ^ 32) :
    ∃ f', receiveAll f (serve l heartbeat f.seq) = (f', none) ∧
      (f'.liveMap = l.liveMap ↔ f.seq = 0 ∨ f.seq < l.mergeSeq ∨ Covered l f) := by
  rw [← or_assoc]
  by_cases hq : f.seq = 0 ∨ f.seq < l.mergeSeq
  · obtain ⟨f', hrun, hlive⟩ := attach_full hl hf hq hid
    exact ⟨f', hrun, iff_of_true hlive (.inl hq)⟩
  · obtain ⟨f', hrun, hview⟩ := attach_log hl hf hq hid
    exact ⟨f', hrun, (covered_iff hview).trans (or_iff_right hq).symm⟩

end Leader

/-- **A follower that has drained the stream of an idle leader shows what the leader
shows** exactly if it was sent everything, or the leader's log covers every difference
above its position. -/
theorem attach_agrees (l f : Store) (heartbeat : UInt64 × String) (wasLeader : Bool) (hl : Wf .every l [])
    (hf : Ready f) (hid : f.nextID + (serve l heartbeat (position wasLeader f)).length < 2 ^ 32) :
    ∃ f', receiveAll f (serve l heartbeat (position wasLeader f)) = (f', none) ∧
      (f'.liveMap = l.liveMap ↔
        wasLeader = true ∨ f.seq = 0 ∨ f.seq < l.mergeSeq ∨ Covered l f) := by
  cases wasLeader with
  | true =>
    obtain ⟨f', hrun, hlive⟩ := attach_full hl hf (.inl rfl) hid
    exact ⟨f', hrun, iff_of_true hlive (.inl rfl)⟩
  | false =>
    obtain ⟨f', hrun, hiff⟩ := attach_position hl hf hid
    exact ⟨f', hrun, hiff.trans (or_iff_right Bool.false_ne_true).symm⟩

/-! ### Cuts -/

/-- How a resync ends before its end: the connection is lost after some frames, or the
follower crashes and is started again. A crash keeps a beginning of the active file;
one inside `Reset` finds some files removed, perhaps one whose hint is still there,
and the manifest rewritten or not. -/
inductive Interruption where
  | connection (frames : Nat)
  | crash (frames kept : Nat) (removed : List Nat) (orphan : Option Nat) (rewritten : Bool) (opts : Options)

/-- The directory a crash leaves. -/
def crashDir (f : Store) (kept : Nat) (removed : List Nat) (orphan : Option Nat) (rewritten : Bool) : Dir :=
  {orphan.elim ((f.crashed kept).removeFiles removed) ((f.crashed kept).removeFiles removed).removeData with
    manifest := if rewritten then some (manifestText 0) else f.dir.manifest}

/-- The follower as it next dials the leader. -/
def interrupted (l f : Store) (heartbeat : UInt64 × String) (wasLeader : Bool) :
    Interruption → Except Error Store
  | .connection frames => .ok (receiveAll f ((serve l heartbeat (position wasLeader f)).take frames)).1
  | .crash frames kept removed orphan rewritten opts =>
    openStore opts (crashDir (receiveAll f ((serve l heartbeat (position wasLeader f)).take frames)).1
      kept removed orphan rewritten)

section Cut
variable {f : Store} {kept : Nat} {removed : List Nat} {orphan : Option Nat} {rewritten : Bool}

omit [Checksum] in
/-- A crash removes files and shortens the active one. -/
theorem crashDir_bytes {id : Nat} {b : Bytes} (h : (crashDir f kept removed orphan rewritten).bytes id = some b) :
    ∃ b₀, f.dir.bytes id = some b₀ ∧ b.length ≤ b₀.length ∧ (id ≠ f.active.id → b = b₀) := by
  have hremoved : ((f.crashed kept).removeFiles removed).bytes id = some b := by
    cases orphan with
    | none => exact h
    | some i =>
      have h : (((f.crashed kept).removeFiles removed).removeData i).bytes id = some b := h
      rw [Dir.bytes_removeData] at h
      by_cases hi : id = i
      · rw [hi, Function.update_self] at h
        cases h
      · rwa [Function.update_of_ne hi] at h
  have hcut : f.cutBytes kept id = some b := by
    rw [((f.crashed kept).removeFiles_spec removed).1 id, bytes_crashed] at hremoved
    split at hremoved
    · cases hremoved
    · exact hremoved
  by_cases hi : id = f.active.id
  · rw [Store.cutBytes, hi, Function.update_self] at hcut
    obtain ⟨b₀, hb₀, rfl⟩ := Option.map_eq_some_iff.mp hcut
    exact ⟨b₀, hi ▸ hb₀, List.length_take_le' .., fun hne => absurd hi hne⟩
  · rw [Store.cutBytes, Function.update_of_ne hi] at hcut
    exact ⟨b, hcut, Nat.le_refl _, fun _ => rfl⟩

omit [Checksum] in
theorem crashDir_hints {id : Nat} {c : Bytes} (h : (crashDir f kept removed orphan rewritten).hints[id]? = some c) :
    f.dir.hints[id]? = some c := by
  have hkept : ((f.crashed kept).removeFiles removed).hints[id]? = some c := by
    cases orphan with
    | none => exact h
    | some i => exact h
  exact (Dir.hint_removeFiles hkept).2

/-- `Open` finds its way in whatever a crash of a follower leaves. -/
theorem Ready.crashed (h : Ready f) (hid : f.nextID + 1 < 2 ^ 32) (kept : Nat) (removed : List Nat)
    (orphan : Option Nat) (rewritten : Bool) (opts : Options) :
    ∃ f', openStore opts (crashDir f kept removed orphan rewritten) = .ok f' ∧ Ready f' := by
  have hdir : DirOk .every (crashDir f kept removed orphan rewritten) := by
    refine ⟨fun id b hb => ?_, fun _ _ _ => trivial, fun id c b hc hb => ⟨?_, trivial⟩⟩
    · obtain ⟨b₀, hb₀, hle, -⟩ := crashDir_bytes hb
      exact Nat.lt_of_le_of_lt hle (h.wf.dir.sizes id b₀ hb₀)
    · have hc := crashDir_hints hc
      obtain ⟨b₀, hb₀, -, hsame⟩ := crashDir_bytes hb
      have hne : id ≠ f.active.id := fun hi => h.wf.noHint (.inl (hi ▸
        Std.ExtTreeMap.mem_iff_isSome_getElem?.mpr (by rw [hc]; rfl)))
      rw [hsame hne]
      exact (h.wf.dir.hints id c b₀ hc hb₀).1
  obtain ⟨f', hopen, hre⟩ := openStore_ok opts hdir fun id hmem => by
    obtain ⟨b, hb⟩ := Dir.mem_data.mp hmem
    obtain ⟨b₀, hb₀, -⟩ := crashDir_bytes hb
    have := h.wf.fresh id b₀ hb₀
    omega
  refine ⟨f', hopen, hre.wf, fun k e he => ?_⟩
  obtain ⟨r, hr, b, hb, hmem⟩ := hre.located k e he
  rw [← hr.seq]
  exact hre.seq_le e.fileID b r hb (Reading.take_subset hmem)

theorem Ready.interrupted {l : Store} {heartbeat : UInt64 × String} {wasLeader : Bool} {cut : Interruption}
    {f₁ : Store} (hl : Wf .every l []) (hf : Ready f)
    (hid : f.nextID + (serve l heartbeat (position wasLeader f)).length + 1 < 2 ^ 32)
    (hcut : interrupted l f heartbeat wasLeader cut = .ok f₁) : Ready f₁ := by
  have hprefix (frames : Nat) : ∃ f', Cluster.receiveAll f
      ((serve l heartbeat (position wasLeader f)).take frames) = (f', none) ∧ Ready f' ∧
        f'.nextID + 1 < 2 ^ 32 := by
    have hle := List.length_take_le' frames (serve l heartbeat (position wasLeader f))
    have hbenign : ∀ x ∈ (serve l heartbeat (position wasLeader f)).take frames, x.Benign := fun x hx =>
      benign_serve hl heartbeat (position wasLeader f) x (List.mem_of_mem_take hx)
    obtain ⟨f', hrun, hready, hnext⟩ := hf.receiveAll hbenign (by omega)
    exact ⟨f', hrun, hready, by omega⟩
  cases cut with
  | connection frames =>
    obtain ⟨f', hrun, hready, -⟩ := hprefix frames
    rw [Cluster.interrupted, hrun] at hcut
    cases hcut
    exact hready
  | crash frames kept removed orphan rewritten opts =>
    obtain ⟨f', hrun, hready, hnext⟩ := hprefix frames
    rw [Cluster.interrupted, hrun] at hcut
    obtain ⟨f₂, hopen, hready'⟩ := hready.crashed hnext kept removed orphan rewritten opts
    rw [hopen] at hcut
    cases hcut
    exact hready'

end Cut

/-- **A follower whose resync was cut, and that then drains the stream of the same idle
leader, shows what the leader shows** exactly if the position the cut has left is zero
or below the watermark, or the leader's log covers every difference above it. -/
theorem resume_after_cut (l f f₁ : Store) (heartbeat : UInt64 × String) (wasLeader : Bool) (cut : Interruption)
    (hl : Wf .every l []) (hf : Ready f)
    (hid : f.nextID + (serve l heartbeat (position wasLeader f)).length + 1 < 2 ^ 32)
    (hcut : interrupted l f heartbeat wasLeader cut = .ok f₁)
    (hid₁ : f₁.nextID + (serve l heartbeat (position false f₁)).length < 2 ^ 32) :
    ∃ f', receiveAll f₁ (serve l heartbeat (position false f₁)) = (f', none) ∧
      (f'.liveMap = l.liveMap ↔ f₁.seq = 0 ∨ f₁.seq < l.mergeSeq ∨ Covered l f₁) :=
  attach_position hl (hf.interrupted hl hid hcut) hid₁

end CatchUp

/-- A store after a history of its own. -/
def wrote (ops : List Op) : Store := (storeMachine.run (Store.init ⟨0, .never⟩) ops).1

/-- A leader that was demoted gives up what it wrote alone. -/
theorem attach_agrees_run :
    ∃ f', receiveAll (wrote [.put 0 [1] [9], .put 0 [3] [9]])
        (serve (wrote [.put 0 [1] [7], .delete 0 [1], .put 0 [2] [8]]) (2, "l:1") 0) = (f', none) ∧
      f'.liveMap = (wrote [.put 0 [1] [7], .delete 0 [1], .put 0 [2] [8]]).liveMap := by
  obtain ⟨f', hrun, hiff⟩ := attach_agrees (wrote [.put 0 [1] [7], .delete 0 [1], .put 0 [2] [8]])
    (wrote [.put 0 [1] [9], .put 0 [3] [9]]) (2, "l:1") true (Ready.run (by decide +kernel)).wf
    (Ready.run (by decide +kernel)) (by decide +kernel)
  exact ⟨f', hrun, hiff.mpr (.inl rfl)⟩

/-- A follower ahead of its leader keeps what the leader never had. -/
theorem attach_ahead :
    ∃ l f, l = wrote [.put 0 [1] [7]] ∧
      f = wrote [.put 0 [1] [7], .put 0 [2] [8]] ∧
      (receiveAll f (serve l (2, "l:1") (position false f))).2 = none ∧
      (receiveAll f (serve l (2, "l:1") (position false f))).1.get [2] = .ok [8] ∧
      l.get [2] = .error .keyNotFound :=
  ⟨_, _, rfl, rfl, by decide +kernel⟩

/-- Two keys, written in their order. -/
def inOrder : Store := wrote [.put 0 [1] [7], .put 0 [2] [8]]

/-- A follower whose resync from it was cut behind the first of the two records. -/
def halfway : Store := (receiveAll (wrote []) ((serve inOrder (1, "l:1") (position false (wrote []))).take 3)).1

/-- A resync is cut inside the snapshot, and the log has the rest. -/
theorem resume_after_cut_run : halfway.get [2] = .error .keyNotFound ∧
    ∃ f', receiveAll halfway (serve inOrder (1, "l:1") (position false halfway)) = (f', none) ∧
      f'.liveMap = inOrder.liveMap := by
  obtain ⟨f', hrun, hiff⟩ := resume_after_cut inOrder (wrote []) halfway (1, "l:1") false (.connection 3)
    (Ready.run (by decide +kernel)).wf (Ready.run (by decide +kernel)) (by decide +kernel) rfl (by decide +kernel)
  have hlacks : halfway.get [2] = .error .keyNotFound := by decide +kernel
  have hsince : (inOrder.since halfway.seq).map Record.version = [([2], 2, some [8])] := by decide +kernel
  have hnewest : some [8] = inOrder.liveMap [2] := by decide +kernel
  have hrest : ∀ k ∈ inOrder.keys.keys ++ halfway.keys.keys, k ≠ [2] → halfway.liveMap k = inOrder.liveMap k := by
    decide +kernel
  -- The two stores are not to be evaluated any further.
  generalize inOrder = l, halfway = f at *
  exact ⟨hlacks, f', hrun, hiff.mpr (.inr (.inr (covered_single hsince hnewest hrest)))⟩

/-- The snapshot is cut behind its first key, whose record is the newest: the leader has
nothing to send above it, and the other key never arrives. -/
theorem cut_snapshot :
    ∃ l f f₁, l = wrote [.put 0 [2] [7], .put 0 [1] [8]] ∧
      f = wrote [] ∧
      interrupted l f (1, "l:1") false (.connection 3) = .ok f₁ ∧ f₁.seq = 2 ∧
      (receiveAll f₁ (serve l (1, "l:1") (position false f₁))).2 = none ∧
      (receiveAll f₁ (serve l (1, "l:1") (position false f₁))).1.get [2] = .error .keyNotFound ∧
      l.get [2] = .ok [7] :=
  ⟨_, _, _, rfl, rfl, rfl, by decide +kernel⟩

end Gokv.Cluster
