import Gokv.Engine.Writer
import Gokv.Engine.Shipping
import Gokv.Cluster.CatchUp
import Gokv.Cluster.Stream

/-! A follower on a leader that goes on writing.

`serveReplication` registers a channel, works off the backlog (the log record by record, or the
snapshot chunk by chunk) and then forwards what the channel holds. Meanwhile writers log, index
and publish, so a record may come by the log, by the channel or by both, and the log may be read
while its end is being written. The follower takes the frames off the connection one by one, may
be cut off after any of them, and dials again from its own counter.

`follower_prefix`: as long as no full resync was called for, the follower shows the leader's
state as of its own counter after every frame, whatever the interleaving and however often it is
cut off. What carries it is that everything sent is `Closed`: with each record above the
position comes all of the list from the position up to it. -/
namespace Gokv.Cluster
open Base Engine

/-- How far `serveReplication` has got with the backlog. -/
inductive Backlog where
  | start
  /-- `RecordsSince` has passed its check of the watermark. -/
  | checked
  /-- The files still to be read; so many records of the first one have been. -/
  | scanning (ids : List Nat) (n : Nat)
  | shipping (courier : Courier)
  | live
  deriving DecidableEq

structure Relay where
  desk : Desk
  /-- The position the follower has announced. -/
  fromSeq : UInt64
  backlog : Backlog
  ch : List Bytes
  /-- A buffer found the channel full. -/
  dropped : Bool
  /-- The frames the follower has not read yet. -/
  wire : List Frame
  follower : Store
  /-- A frame could not be applied. -/
  broken : Bool
  /-- A full resync has been called for. -/
  resynced : Bool
  /-- One was, and the follower has not caught up since. -/
  rebuilding : Bool

inductive Signal where
  | write (a : Stroke)
  /-- `fanout`, at the end of a write. -/
  | publish
  | compact
  /-- The backlog goes on; the end of the file may be a write of which only a part is there. -/
  | catchUp (torn : Bool)
  | forward
  | heartbeat (epoch : UInt64) (leaderAddr : String)
  /-- The follower reads a frame. -/
  | deliver
  /-- The connection is lost, and the follower dials again. -/
  | redial (epoch : UInt64) (leaderAddr : String)

section Step
variable [Checksum]

/-- The record of a file behind the first `n`. -/
def scanAt (d : Dir) (id n : Nat) : Option Scanned := d.data[id]?.bind fun f => (scanFile f.bytes).1[n]?

/-- The write that is only partly in the file. -/
def underWay (d : Desk) (id : Nat) : List Record :=
  match d.pen with
  | .logged recs _ => if id = d.store.active.id then recs else []
  | _ => []

/-- The next step of the backlog, and the frames it puts on the connection. -/
def Backlog.next (fromSeq : UInt64) (d : Desk) (torn : Bool) : Backlog → Backlog × List Frame
  | .start =>
    if fromSeq = 0 ∨ fromSeq < d.store.mergeSeq then (.shipping (.collect none), [.fullSync]) else (.checked, [])
  | .checked => (.scanning d.store.files.keys 0, [])
  | .scanning [] _ => (.live, [.live])
  | .scanning (id :: rest) n =>
    match scanAt d.store.dir id n with
    | none => (.scanning rest 0, [])
    | some x =>
      if torn ∧ x.record ∈ underWay d id then (.scanning rest 0, [])
      else (.scanning (id :: rest) (n + 1), if x.record.seq ≤ fromSeq then [] else [.replData x.raw])
  | .shipping .done => (.live, [.live])
  | .shipping c => (.shipping (c.next d.store).1, (c.next d.store).2.map .replData)
  | .live => (.live, [])

namespace Relay

/-- Everything written has been sent and received. -/
def CaughtUp (r : Relay) : Prop :=
  r.backlog = .live ∧ r.wire = [] ∧ r.ch = [] ∧ r.desk.pen.unsent = [] ∧ r.dropped = false

instance decidableCaughtUp (r : Relay) : Decidable r.CaughtUp :=
  inferInstanceAs (Decidable (r.backlog = .live ∧ r.wire = [] ∧ r.ch = [] ∧ r.desk.pen.unsent = [] ∧ r.dropped = false))

/-- A connection to the leader, as its first frame is on the way. -/
def dial (r : Relay) (wasLeader : Bool) (epoch : UInt64) (leaderAddr : String) : Relay :=
  {r with
    fromSeq := position wasLeader r.follower, backlog := .start, ch := [], dropped := false
    wire := [.heartbeat epoch leaderAddr], broken := false
    resynced := r.resynced || wasLeader, rebuilding := r.rebuilding || wasLeader}

def fanout (r : Relay) (raw : Bytes) : Relay :=
  if r.ch.length < streamBuffer then {r with ch := r.ch ++ [raw]} else {r with dropped := true}

def act (r : Relay) : Signal → Relay
  | .write a => {r with desk := r.desk.step a}
  | .publish =>
    match r.desk.pen with
    | .indexed recs => {r with desk := {r.desk with pen := .idle}}.fanout (encodeAll recs)
    | _ => r
  | .compact =>
    match r.desk.pen with
    | .idle => {r with desk := {r.desk with store := r.desk.store.compact.1}}
    | _ => r
  | .catchUp torn =>
    let (backlog, frames) := r.backlog.next r.fromSeq r.desk torn
    let full := frames.any (· == .fullSync)
    {r with
      backlog := backlog, wire := r.wire ++ frames
      resynced := r.resynced || full, rebuilding := r.rebuilding || full}
  | .forward =>
    match r.backlog, r.ch with
    | .live, raw :: rest => {r with ch := rest, wire := r.wire ++ [.replData raw]}
    | _, _ => r
  | .heartbeat epoch leaderAddr =>
    match r.backlog with
    | .live => {r with wire := r.wire ++ [.heartbeat epoch leaderAddr]}
    | _ => r
  | .deliver =>
    match r.wire with
    | [] => r
    | frame :: rest =>
      if r.broken then r
      else {r with wire := rest, follower := (receive r.follower frame).1,
                   broken := (receive r.follower frame).2.isSome}
  | .redial epoch leaderAddr => r.dial false epoch leaderAddr

def step (r : Relay) (a : Signal) : Relay :=
  {r.act a with rebuilding := (r.act a).rebuilding && !decide (r.act a).CaughtUp}

end Relay

def relayMachine : Machine Signal Relay Unit := ⟨fun r a => (r.step a, ())⟩

/-- The widths hold what is written and received. A channel that has overflowed is still full at
the next write, a merge runs before the backlog or after it, and a follower is not cut off
between a resync and the moment it has caught up, unless it is sent everything again. -/
def Regular (r : Relay) : Signal → Prop
  | .write a => a.Fits r.desk.store
  | .publish => r.dropped = true → streamBuffer ≤ r.ch.length
  | .compact => Fits r.desk.store .compact ∧ (r.backlog = .start ∨ r.backlog = .live)
  | .deliver => r.follower.nextID + 1 < 2 ^ 32
  | .redial _ _ => r.rebuilding = true → r.follower.seq = 0 ∨ r.follower.seq < r.desk.store.mergeSeq
  | _ => True

instance decidableRegular (r : Relay) : (a : Signal) → Decidable (Regular r a)
  | .write a => inferInstanceAs (Decidable (a.Fits r.desk.store))
  | .publish => inferInstanceAs (Decidable (r.dropped = true → streamBuffer ≤ r.ch.length))
  | .compact => inferInstanceAs (Decidable (Fits r.desk.store .compact ∧ (r.backlog = .start ∨ r.backlog = .live)))
  | .deliver => inferInstanceAs (Decidable (r.follower.nextID + 1 < 2 ^ 32))
  | .redial _ _ => inferInstanceAs (Decidable
      (r.rebuilding = true → r.follower.seq = 0 ∨ r.follower.seq < r.desk.store.mergeSeq))
  | .catchUp _ => isTrue trivial
  | .forward => isTrue trivial
  | .heartbeat _ _ => isTrue trivial

/-! ### Frames on the way -/

def Frame.data : Frame → Option Bytes
  | .replData raw => some raw
  | _ => none

/-- The frames carry these groups of records, in this order, and order no resync. -/
structure Carries (frames : List Frame) (gs : List (List Record)) : Prop where
  data : frames.filterMap Frame.data = gs.map encodeAll
  plain : .fullSync ∉ frames
  sized : ∀ g ∈ gs, (∀ x ∈ g, x.Sized) ∧ Addressable g

variable {frames more : List Frame} {frame : Frame} {gs hs : List (List Record)} {f : Store}

theorem Carries.nil : Carries [] [] := ⟨rfl, List.not_mem_nil, fun _ hg => absurd hg List.not_mem_nil⟩

theorem Carries.eq_nil (h : Carries [] gs) : gs = [] := List.map_eq_nil_iff.mp h.data.symm

theorem Carries.append (h : Carries frames gs) (h' : Carries more hs) : Carries (frames ++ more) (gs ++ hs) where
  data := by rw [List.filterMap_append, h.data, h'.data, List.map_append]
  plain hmem := (List.mem_append.mp hmem).elim h.plain h'.plain
  sized g hg := (List.mem_append.mp hg).elim (h.sized g) (h'.sized g)

theorem Carries.idle (hdata : frame.data = none) (hplain : frame ≠ .fullSync) : Carries [frame] [] where
  data := by rw [List.filterMap_cons_none hdata, List.filterMap_nil, List.map_nil]
  plain hmem := hplain (List.mem_singleton.mp hmem).symm
  sized _ hg := absurd hg List.not_mem_nil

theorem Carries.group {g : List Record} (hsized : ∀ x ∈ g, x.Sized) (ha : Addressable g) :
    Carries [.replData (encodeAll g)] [g] where
  data := rfl
  plain hmem := by cases List.mem_singleton.mp hmem
  sized g' hg := by
    rw [List.mem_singleton.mp hg]
    exact ⟨hsized, ha⟩

theorem Carries.record {x : Record} (hsized : x.Sized) : Carries [.replData x.encode] [[x]] := by
  have henc : x.encode = encodeAll [x] := (List.append_nil _).symm
  rw [henc]
  exact .group (fun y hy => by rwa [List.mem_singleton.mp hy]) (addressable_single x)

/-- The first frame brings the first group, or nothing. -/
theorem Carries.cons (h : Carries (frame :: frames) gs) :
    (frame.data = none ∧ frame ≠ .fullSync ∧ Carries frames gs) ∨
      ∃ g rest, frame = .replData (encodeAll g) ∧ gs = g :: rest ∧ Carries frames rest := by
  have hdata := h.data
  have hplain : .fullSync ∉ frames := fun hmem => h.plain (List.mem_cons_of_mem _ hmem)
  cases hd : frame.data with
  | none =>
    rw [List.filterMap_cons_none hd] at hdata
    exact .inl ⟨rfl, fun heq => h.plain (heq ▸ List.mem_cons_self ..), hdata, hplain, h.sized⟩
  | some raw =>
    rw [List.filterMap_cons_some hd] at hdata
    obtain ⟨g, rest, rfl, hraw, hrest⟩ := List.map_eq_cons_iff.mp hdata.symm
    have hframe : frame = .replData raw := by
      cases frame <;> cases hd
      rfl
    refine .inr ⟨g, rest, hraw ▸ hframe, rfl, hrest.symm, hplain, fun g' hg => h.sized g' (List.mem_cons_of_mem _ hg)⟩

/-- **The follower takes a frame** that orders no resync. -/
theorem Ready.deliver (hf : Ready f) (hid : f.nextID + 1 < 2 ^ 32) (h : Carries (frame :: frames) gs) :
    ∃ f' now later, receive f frame = (f', none) ∧ gs = now ++ later ∧ Received f f' now.flatten ∧
      Carries frames later := by
  rcases h.cons with ⟨hdata, hplain, hrest⟩ | ⟨g, rest, rfl, rfl, hrest⟩
  · refine ⟨f, [], gs, ?_, rfl, .refl hf.wf, hrest⟩
    cases frame with
    | heartbeat _ _ | live | redirect _ | error _ => rfl
    | fullSync => exact absurd rfl hplain
    | replData raw => cases hdata
  · obtain ⟨hsized, ha⟩ := h.sized g (List.mem_cons_self ..)
    obtain ⟨f', top, hraw, hr, -⟩ := hf.wf.applyRaw hsized ha hid
    refine ⟨f', [g], rest, ?_, rfl, ?_, hrest⟩
    · rw [receive, hraw]
    · rwa [List.flatten_singleton]

/-! ### The newest record of a key -/

variable {log recs xs g : List Record} {q : UInt64} {f₀ : Store} {n : Record} {k : Bytes}

/-- No record of the key is newer. -/
def IsNewest (log : List Record) (n : Record) : Prop := n ∈ log ∧ ∀ y ∈ log, y.key = n.key → y.seq ≤ n.seq

omit [Checksum] in
theorem newest_or_absent (log : List Record) (k : Bytes) :
    (∀ x ∈ log, x.key ≠ k) ∨ ∃ n, IsNewest log n ∧ n.key = k := by
  have hindex := Newest.indexes_offerAll (log.map Record.version)
  cases hx : Newest.offerAll (fun _ => none) (log.map Record.version) k with
  | none =>
    refine .inl fun x hmem hkey => ?_
    obtain ⟨y, hy, -⟩ := hindex.covers x.key (x.seq.toNat, x.payload) (List.mem_map_of_mem (f := Record.version) hmem)
    rw [hkey, hx] at hy
    cases hy
  | some v =>
    obtain ⟨n, hn, heq⟩ := List.mem_map.mp (hindex.sound k v hx)
    have hkey : n.key = k := congrArg Prod.fst heq
    have hseq : n.seq.toNat = v.1 := congrArg (·.2.1) heq
    refine .inr ⟨n, ⟨hn, fun y hy hyk => ?_⟩, hkey⟩
    obtain ⟨w, hw, hle⟩ := hindex.covers y.key (y.seq.toNat, y.payload) (List.mem_map_of_mem (f := Record.version) hy)
    rw [hyk, hkey, hx] at hw
    cases hw
    exact UInt64.le_iff_toNat_le.mpr (hseq ▸ hle)

omit [Checksum] in
theorem latest_absent (hlog : Ascending log) (hk : ∀ x ∈ log, x.key ≠ k) : latest log k = none := by
  refine hlog.shows.absent k fun v hv => ?_
  obtain ⟨x, hx, heq⟩ := List.mem_map.mp hv
  exact hk x hx (congrArg Prod.fst heq)

omit [Checksum] in
theorem IsNewest.le (hn : IsNewest log n) {v : Nat × Option Bytes} (hv : (n.key, v) ∈ log.map Record.version) :
    v.1 ≤ n.seq.toNat := by
  obtain ⟨x, hx, heq⟩ := List.mem_map.mp hv
  have hseq : x.seq.toNat = v.1 := congrArg (·.2.1) heq
  exact hseq ▸ UInt64.le_iff_toNat_le.mp (hn.2 x hx (congrArg Prod.fst heq))

omit [Checksum] in
theorem IsNewest.latest (hn : IsNewest log n) (hlog : Ascending log) : Engine.latest log n.key = n.payload :=
  hlog.shows.newest n.key (n.seq.toNat, n.payload) (List.mem_map_of_mem (f := Record.version) hn.1) fun _ hv => hn.le hv

/-- A replica that was sent the newest record of a key is right about the key. -/
theorem IsNewest.received (hn : IsNewest log n) (hlog : Ascending log) (hr : Received f₀ f xs)
    (hxs : ∀ x ∈ xs, x.version ∈ log.map Record.version) (hin : n.version ∈ xs.map Record.version)
    (hold : ∀ z, f₀.view n.key = some z → z.1 < n.seq.toNat ∨ z.2 = n.payload) :
    f.liveMap n.key = Engine.latest log n.key := by
  rw [hn.latest hlog, Store.liveMap, hr.view]
  refine Newest.live_offerAll_newest (y := (n.seq.toNat, n.payload)) hlog.agree (fun v hv => ?_) hin
    (fun _ hv => hn.le hv) hold
  obtain ⟨x, hx, rfl⟩ := List.mem_map.mp hv
  exact hxs x hx

/-- A key the replica was sent nothing of is as it was. -/
theorem liveMap_untouched (hr : Received f₀ f xs) (hk : ∀ x ∈ xs, x.key ≠ k) : f.liveMap k = f₀.liveMap k := by
  rw [Store.liveMap, Store.liveMap, Newest.live, Newest.live, hr.view, Newest.offerAll_other fun v hv => ?_]
  obtain ⟨x, hx, rfl⟩ := List.mem_map.mp hv
  exact hk x hx

/-! ### What may be sent -/

/-- Records of the list that a follower at `q` may be sent: with a newer one all of the list
between, with an older one all from it up to `q`. -/
structure Closed (log : List Record) (q : UInt64) (xs : List Record) : Prop where
  listed : ∀ x ∈ xs, x ∈ log
  down : ∀ x ∈ xs, q < x.seq → ∀ y ∈ log, q < y.seq → y.seq ≤ x.seq → y ∈ xs
  up : ∀ x ∈ xs, x.seq ≤ q → ∀ y ∈ log, x.seq < y.seq → y.seq ≤ q → y ∈ xs

/-- The follower is right about every key that has not been written above `q`. -/
def Spans (log : List Record) (q : UInt64) (f : Store) : Prop :=
  ∀ k, (∀ x ∈ log, x.key = k → x.seq ≤ q) → f.liveMap k = latest log k

omit [Checksum] in
theorem closed_nil : Closed log q [] :=
  ⟨fun _ h => absurd h List.not_mem_nil, fun _ h => absurd h List.not_mem_nil, fun _ h => absurd h List.not_mem_nil⟩

omit [Checksum] in
theorem Closed.append (h : Closed log q xs) (hlisted : ∀ x ∈ g, x ∈ log)
    (hdown : ∀ x ∈ g, q < x.seq → ∀ y ∈ log, q < y.seq → y.seq ≤ x.seq → y ∈ xs ∨ y ∈ g)
    (hup : ∀ x ∈ g, x.seq ≤ q → ∀ y ∈ log, x.seq < y.seq → y.seq ≤ q → y ∈ xs ∨ y ∈ g) :
    Closed log q (xs ++ g) where
  listed x hx := (List.mem_append.mp hx).elim (h.listed x) (hlisted x)
  down x hx hlt y hy hq hle := List.mem_append.mpr <| (List.mem_append.mp hx).elim
    (fun hx => .inl (h.down x hx hlt y hy hq hle)) fun hx => hdown x hx hlt y hy hq hle
  up x hx hle y hy hlt hq := List.mem_append.mpr <| (List.mem_append.mp hx).elim
    (fun hx => .inl (h.up x hx hle y hy hlt hq)) fun hx => hup x hx hle y hy hlt hq

omit [Checksum] in
/-- What is written later changes nothing. -/
theorem Closed.grow (h : Closed log q xs) (hnew : ∀ x ∈ log, ∀ y ∈ recs, x.seq < y.seq) (hq : ∀ y ∈ recs, q < y.seq) :
    Closed (log ++ recs) q xs where
  listed x hx := List.mem_append_left _ (h.listed x hx)
  down x hx hlt y hy hqy hle := by
    rcases List.mem_append.mp hy with hy | hy
    · exact h.down x hx hlt y hy hqy hle
    · exact absurd hle (UInt64.not_le.mpr (hnew x (h.listed x hx) y hy))
  up x hx hle y hy hlt hyq := by
    rcases List.mem_append.mp hy with hy | hy
    · exact h.up x hx hle y hy hlt hyq
    · exact absurd hyq (UInt64.not_le.mpr (hq y hy))

/-- Up to the number the follower has reached, it has got all above `q`. -/
theorem Closed.reached (h : Closed log q xs) (hr : Received f₀ f xs) (hbelow : f₀.seq ≤ q) {y : Record} (hy : y ∈ log)
    (hlt : q < y.seq) (hle : y.seq ≤ f.seq) : y ∈ xs := by
  obtain ⟨-, -, htop⟩ := topSeq_spec f₀.seq xs
  rw [← hr.seq] at htop
  rcases htop with heq | ⟨x, hx, heq⟩
  · exact absurd (UInt64.le_trans hle (heq ▸ hbelow)) (UInt64.not_le.mpr hlt)
  · exact h.down x hx (heq ▸ UInt64.lt_of_lt_of_le hlt hle) y hy hlt (heq ▸ hle)

/-- **A follower that stood at `q`** stands at the number it has reached. -/
theorem Closed.latest (h : Closed log q xs) (hlog : Ascending log) (hr : Received f₀ f xs) (hf : Ready f₀)
    (hq : f₀.seq = q)
    (hstood : f₀.liveMap = Engine.latest (upTo q log)) : f.liveMap = Engine.latest (upTo f.seq log) := by
  obtain ⟨hle, hall, -⟩ := topSeq_spec f₀.seq xs
  rw [← hr.seq] at hle hall
  have hmem {y : Record} (hy : y ∈ xs) : y.version ∈ xs.map Record.version := List.mem_map_of_mem hy
  refine hr.latest hlog hstood (hq ▸ hf.entries) (hq ▸ hle)
    (fun x hx => ⟨List.mem_map_of_mem (h.listed x hx), hall x hx⟩)
    (fun y hy hlt hyp => hmem (h.reached hr (UInt64.le_of_eq hq) hy hlt hyp)) fun x hx hxq y hy _ hlt hyq =>
      hmem (h.up x hx hxq y hy hlt hyq)

/-- A follower that was right about the keys not written above `q`, and has got all from there up
to `p`, is right about the keys not written above `p`. -/
theorem Closed.spans {p : UInt64} (h : Closed log q xs) (hlog : Ascending log) (hr : Received f₀ f xs) (hf : Ready f₀)
    (hbelow : f₀.seq ≤ q) (hspans : Spans log q f₀) (hreached : ∀ y ∈ log, q < y.seq → y.seq ≤ p → y ∈ xs) :
    Spans log p f := by
  intro k hk
  have hxs : ∀ x ∈ xs, x.version ∈ log.map Record.version := fun x hx => List.mem_map_of_mem (h.listed x hx)
  by_cases hsent : ∃ x ∈ xs, x.key = k
  · obtain ⟨x, hx, hxk⟩ := hsent
    rcases newest_or_absent log k with hnone | ⟨n, hn, rfl⟩
    · exact absurd hxk (hnone x (h.listed x hx))
    by_cases hq : q < n.seq
    · -- The newest record is above `q`, so it was sent, and is newer than what was there.
      have hin := hreached n hn.1 hq (hk n hn.1 rfl)
      refine hn.received hlog hr hxs (List.mem_map_of_mem hin) fun z hz => .inl ?_
      obtain ⟨e, he, rfl⟩ := Option.map_eq_some_iff.mp hz
      exact UInt64.lt_iff_toNat_lt.mp (UInt64.lt_of_le_of_lt (UInt64.le_trans (hf.entries _ e he) hbelow) hq)
    · -- An old record came, and with it the newest one, which says what was there before.
      have hq := UInt64.not_lt.mp hq
      have hin : n ∈ xs := by
        by_cases hlt : x.seq < n.seq
        · exact h.up x hx (UInt64.le_trans (UInt64.le_of_lt hlt) hq) n hn.1 hlt hq
        · have heq := UInt64.le_antisymm (hn.2 x (h.listed x hx) hxk) (UInt64.not_lt.mp hlt)
          exact eq_of_seq_eq hlog (h.listed x hx) hn.1 heq ▸ hx
      have hold : f₀.liveMap n.key = n.payload :=
        (hspans n.key fun y hy hyk => UInt64.le_trans (hn.2 y hy hyk) hq).trans (hn.latest hlog)
      refine hn.received hlog hr hxs (List.mem_map_of_mem hin) fun z hz => .inr ?_
      rwa [Store.liveMap, Newest.live, hz, Option.bind_some] at hold
  · have hnone : ∀ x ∈ xs, x.key ≠ k := fun x hx hxk => hsent ⟨x, hx, hxk⟩
    rw [liveMap_untouched hr hnone]
    refine hspans k fun y hy hyk => UInt64.not_lt.mp fun hlt => ?_
    exact hnone y (hreached y hy hlt (hk y hy hyk)) hyk

/-! ### What is still to be sent -/

/-- The groups due are the end of the list: those in the channel, those that found it full, and
the write under way. -/
structure Queued (d : Desk) (ch : List Bytes) (dropped : Bool) (due : List (List Record)) : Prop where
  tail : ∃ pre, d.log = pre ++ due.flatten
  sized : ∀ g ∈ due, (∀ x ∈ g, x.Sized) ∧ Addressable g
  parts : ∃ cs lost, due = cs ++ lost ++ d.pen.unsent ∧ ch = cs.map encodeAll ∧ (dropped = false → lost = [])

variable {d d' : Desk} {ch : List Bytes} {dropped : Bool} {due : List (List Record)}

/-- What is due from now on. -/
theorem queued_unsent (h : Led d) : Queued d [] false d.pen.unsent := by
  obtain ⟨pre, hlog, hsized⟩ := h.unsent
  exact ⟨⟨pre, hlog⟩, hsized, [], [], rfl, rfl, fun _ => rfl⟩

theorem Queued.still (h : Queued d ch dropped due) (hlog : d'.log = d.log) (hunsent : d'.pen.unsent = d.pen.unsent) :
    Queued d' ch dropped due := by
  obtain ⟨pre, hpre⟩ := h.tail
  obtain ⟨cs, lost, hdue, hch, hlost⟩ := h.parts
  exact ⟨⟨pre, hlog.trans hpre⟩, h.sized, cs, lost, hunsent ▸ hdue, hch, hlost⟩

theorem Queued.wrote (h : Queued d ch dropped due) (hled : Led d') (hidle : d.pen.unsent = [])
    (hunsent : d'.pen.unsent = [recs]) (hlog : d'.log = d.log ++ recs) : Queued d' ch dropped (due ++ [recs]) := by
  obtain ⟨pre, hpre⟩ := h.tail
  obtain ⟨cs, lost, hdue, hch, hlost⟩ := h.parts
  obtain ⟨-, -, hgroup⟩ := hled.unsent
  rw [hunsent] at hgroup
  refine ⟨⟨pre, ?_⟩, fun g hg => (List.mem_append.mp hg).elim (h.sized g) (hgroup g), cs, lost, ?_, hch, hlost⟩
  · rw [hlog, hpre, List.flatten_concat, List.append_assoc]
  · rw [hdue, hidle, List.append_nil, hunsent]

/-- `fanout` moves the write under way into the channel, or finds it full. -/
theorem Queued.publish {s : Store} {ks : List Bytes} (h : Queued ⟨s, log, .indexed recs, ks⟩ ch dropped due)
    (hfull : dropped = true → streamBuffer ≤ ch.length) :
    (ch.length < streamBuffer → Queued ⟨s, log, .idle, ks⟩ (ch ++ [encodeAll recs]) dropped due) ∧
      Queued ⟨s, log, .idle, ks⟩ ch true due := by
  obtain ⟨cs, lost, hdue, hch, hlost⟩ := h.parts
  have hdue : due = cs ++ lost ++ [recs] := hdue
  refine ⟨fun hroom => ⟨h.tail, h.sized, cs ++ [recs], [], ?_, ?_, fun _ => rfl⟩, h.tail, h.sized, cs,
    lost ++ [recs], ?_, hch, ?_⟩
  · cases dropped with
    | true => exact absurd (hfull rfl) (not_le.mpr hroom)
    | false => rw [hdue, hlost rfl, Pen.unsent, List.append_nil, List.append_nil, List.append_nil]
  · rw [hch, List.map_append]
    rfl
  · rw [hdue, Pen.unsent, List.append_nil, List.append_assoc]
  · intro hno
    cases hno

theorem Queued.forward {raw : Bytes} {rest : List Bytes} (h : Queued d (raw :: rest) dropped due) :
    ∃ g later, due = g :: later ∧ raw = encodeAll g ∧ Queued d rest dropped later := by
  obtain ⟨pre, hpre⟩ := h.tail
  obtain ⟨cs, lost, hdue, hch, hlost⟩ := h.parts
  obtain ⟨g, cs', rfl, hraw, hrest⟩ := List.map_eq_cons_iff.mp hch.symm
  rw [List.cons_append, List.cons_append] at hdue
  refine ⟨g, _, hdue, hraw.symm, ⟨pre ++ g, ?_⟩, fun g' hg => h.sized g' ?_, cs', lost, rfl, hrest.symm, hlost⟩
  · rw [hpre, hdue, List.flatten_cons, ← List.append_assoc]
  · rw [hdue]
    exact List.mem_cons_of_mem _ hg

/-! ### The walk over the files -/

/-- The records of the files that have not been read. -/
def unread (d : Dir) : List Nat → Nat → List Record
  | [], _ => []
  | id :: rest, n => (d.listed id).drop n ++ rest.flatMap d.listed

/-- The files still to be read have nothing as new, and nothing is written to them. -/
structure Outran (d : Desk) (q : UInt64) (ids : List Nat) (x : Record) : Prop where
  active : d.store.active.id ∉ ids
  older : ∀ i ∈ ids, ∀ y ∈ d.store.dir.listed i, q < y.seq → y.seq < x.seq

/-- Everything above the position is sent, or still to be read, or due and out of the way. -/
structure Walk (d : Desk) (q : UInt64) (sent due : List Record) (ids : List Nat) (n : Nat) : Prop where
  ascending : ids.Pairwise (· < ·)
  fresh : ∀ i ∈ ids, i < d.store.nextID
  head : ∀ i ∈ ids.head?, n ≤ (d.store.dir.listed i).length
  reach : ∀ x ∈ d.log, q < x.seq → x ∈ sent ∨ x ∈ unread d.store.dir ids n ∨ x ∈ due ∧ Outran d q ids x

variable {sent : List Record} {ids rest : List Nat} {id i j : Nat} {x y : Record} {m : Nat}

theorem unread_zero (d : Dir) (ids : List Nat) : unread d ids 0 = ids.flatMap d.listed := by
  cases ids with
  | nil => rfl
  | cons id rest => rw [unread, List.drop_zero, List.flatMap_cons]

/-- The walk begins at the files that are there. -/
theorem walk_start (h : Led d) (hq : d.store.mergeSeq ≤ q) : Walk d q [] due.flatten d.store.files.keys 0 := by
  obtain ⟨pend, hwf⟩ := h.wf
  refine ⟨keys_ascending _, fun i hi => ?_, fun _ _ => Nat.zero_le _, fun x hx hlt => .inr (.inl ?_)⟩
  · obtain ⟨b, hb⟩ := (Store.mem_files hwf.files).mp (Std.ExtTreeMap.mem_keys.mp hi)
    exact hwf.fresh i b hb
  · obtain ⟨i, hi⟩ := h.filed.kept x hx (UInt64.lt_of_le_of_lt hq hlt)
    obtain ⟨b, hb, -⟩ := id hi
    rw [unread_zero]
    exact List.mem_flatMap.mpr ⟨i, Std.ExtTreeMap.mem_keys.mpr ((Store.mem_files hwf.files).mpr ⟨b, hb⟩),
      mem_listed.mpr hi⟩

/-- A stroke that logs nothing. -/
theorem Walk.still (h : Walk d q sent due.flatten ids m) (hlog : d'.log = d.log)
    (hbytes : d'.store.dir.bytes = d.store.dir.bytes)
    (hactive : d'.store.active.id = d.store.active.id) (hnext : d'.store.nextID = d.store.nextID) :
    Walk d' q sent due.flatten ids m := by
  have hlisted : d'.store.dir.listed = d.store.dir.listed := by
    funext i
    rw [Dir.listed, hbytes, Dir.listed]
  have hunread : unread d'.store.dir ids m = unread d.store.dir ids m := by
    cases ids with
    | nil => rfl
    | cons id rest => rw [unread, hlisted, unread]
  refine ⟨h.ascending, fun i hi => hnext ▸ h.fresh i hi, fun i hi => hlisted ▸ h.head i hi, fun x hx hlt => ?_⟩
  rw [hunread]
  refine (h.reach x (hlog ▸ hx) hlt).imp_right (.imp_right fun hx => ⟨hx.1, ?_, fun i hi y hy => ?_⟩)
  · exact hactive ▸ hx.2.active
  · exact hx.2.older i hi y (hlisted ▸ hy)

/-- A write that is logged is found by the walk, unless the walk is past the active file. -/
theorem Walk.wrote (h : Walk d q sent due.flatten ids m) (hled : Led d) (hlog : d'.log = d.log ++ recs)
    (hnew : ∀ x ∈ recs, d.store.seq < x.seq)
    (hactive : d'.store.active.id = d.store.active.id ∧ d'.store.nextID = d.store.nextID ∨
      d'.store.active.id = d.store.nextID ∧ d'.store.nextID = d.store.nextID + 1)
    (hlisted : ∀ i, d'.store.dir.listed i = d.store.dir.listed i ++ if i = d'.store.active.id then recs else []) :
    Walk d' q sent (due ++ [recs]).flatten ids m := by
  have hkeep {i : Nat} {x : Record} (hx : x ∈ d.store.dir.listed i) : x ∈ d'.store.dir.listed i := by
    rw [hlisted]
    exact List.mem_append_left _ hx
  have hother {i : Nat} (hi : i ≠ d'.store.active.id) : d'.store.dir.listed i = d.store.dir.listed i := by
    rw [hlisted, if_neg hi, List.append_nil]
  have hunread {x : Record} (hx : x ∈ unread d.store.dir ids m) : x ∈ unread d'.store.dir ids m := by
    cases ids with
    | nil => exact hx
    | cons id rest =>
      rcases List.mem_append.mp hx with hx | hx
      · refine List.mem_append_left _ ?_
        rw [hlisted, List.drop_append]
        exact List.mem_append_left _ hx
      · obtain ⟨i, hi, hx⟩ := List.mem_flatMap.mp hx
        exact List.mem_append_right _ (List.mem_flatMap.mpr ⟨i, hi, hkeep hx⟩)
  have hdue {x : Record} (hx : x ∈ due.flatten) : x ∈ (due ++ [recs]).flatten := by
    rw [List.flatten_append]
    exact List.mem_append_left _ hx
  have hgone (hi : d.store.active.id ∉ ids) : d'.store.active.id ∉ ids := by
    rcases hactive with ⟨ha, -⟩ | ⟨ha, -⟩
    · rwa [ha]
    · rw [ha]
      exact fun hmem => (h.fresh _ hmem).false
  refine ⟨h.ascending, fun i hi => ?_, fun i hi => ?_, fun x hx hlt => ?_⟩
  · have := h.fresh i hi
    rcases hactive with ⟨-, hn⟩ | ⟨-, hn⟩ <;> omega
  · rw [hlisted, List.length_append]
    exact (h.head i hi).trans (Nat.le_add_right ..)
  rw [hlog] at hx
  rcases List.mem_append.mp hx with hx | hx
  · rcases h.reach x hx hlt with hs | hu | ⟨hd, ho⟩
    · exact .inl hs
    · exact .inr (.inl (hunread hu))
    · refine .inr (.inr ⟨hdue hd, hgone ho.active, fun i hi y hy => ?_⟩)
      rw [hother fun heq => hgone ho.active (heq ▸ hi)] at hy
      exact ho.older i hi y hy
  · by_cases hmem : d'.store.active.id ∈ ids
    · -- The file is still to be read to its end.
      refine .inr (.inl ?_)
      cases ids with
      | nil => cases hmem
      | cons id rest =>
        rcases List.mem_cons.mp hmem with rfl | hmem
        · refine List.mem_append_left _ ?_
          rw [hlisted, if_pos rfl, List.drop_append_of_le_length (h.head _ rfl)]
          exact List.mem_append_right _ hx
        · refine List.mem_append_right _ (List.mem_flatMap.mpr ⟨_, hmem, ?_⟩)
          rw [hlisted, if_pos rfl]
          exact List.mem_append_right _ hx
    · refine .inr (.inr ⟨?_, hmem, fun i hi y hy _ => ?_⟩)
      · rw [List.flatten_concat]
        exact List.mem_append_right _ hx
      · rw [hother fun heq => hmem (heq ▸ hi)] at hy
        exact UInt64.lt_of_le_of_lt (hled.filed.held (mem_listed.mp hy)) (hnew x hx)

theorem scanAt_eq (d : Dir) (id n : Nat) :
    (scanAt d id n = none ∧ (d.listed id).length ≤ n) ∨
      ∃ x, scanAt d id n = some x ∧ (d.listed id)[n]? = some x.record ∧ x.raw = x.record.encode := by
  rw [scanAt, Dir.listed, Dir.bytes]
  cases d.data[id]? with
  | none => exact .inl ⟨rfl, Nat.zero_le n⟩
  | some f =>
    rw [Option.bind_some, Option.map_some, Option.elim_some, records, List.getElem?_map, List.length_map]
    cases hx : (scanFile f.bytes).1[n]? with
    | none => exact .inl ⟨rfl, List.getElem?_eq_none_iff.mp hx⟩
    | some x =>
      have hmem := List.mem_of_getElem? hx
      rw [(scanFile_spec f.bytes).1] at hmem
      obtain ⟨_, _, _, _, hraw⟩ := mem_layout hmem
      exact .inr ⟨x, rfl, rfl, hraw⟩

omit [Checksum] in
theorem drop_of_getElem? {xs : List Record} {n : Nat} (hx : xs[n]? = some x) : xs.drop n = x :: xs.drop (n + 1) := by
  obtain ⟨hn, rfl⟩ := List.getElem?_eq_some_iff.mp hx
  exact List.drop_eq_getElem_cons hn

/-- Above the watermark a file is in order. -/
theorem listed_behind (h : Filed d.store d.log) (hx : (d.store.dir.listed id)[m]? = some x)
    (hy : y ∈ (d.store.dir.listed id).drop m) (hxm : d.store.mergeSeq < x.seq) (hym : d.store.mergeSeq < y.seq) :
    y = x ∨ x.seq < y.seq := by
  have hsorted : Ascending ((d.store.dir.listed id).filter (d.store.mergeSeq < ·.seq)) := by
    rw [Dir.listed]
    cases hb : d.store.dir.bytes id with
    | none => exact .nil
    | some b => exact h.sorted id b hb
  rw [drop_of_getElem? hx] at hy
  have hsub := ((List.drop_sublist m (d.store.dir.listed id)).filter (d.store.mergeSeq < ·.seq))
  rw [drop_of_getElem? hx, List.filter_cons, if_pos (decide_eq_true hxm)] at hsub
  rcases List.mem_cons.mp hy with rfl | hy
  · exact .inl rfl
  · exact .inr ((List.pairwise_cons.mp (hsorted.sublist hsub)).1 y (List.mem_filter.mpr ⟨hy, decide_eq_true hym⟩))

theorem Outran.tail (h : Outran d q (id :: rest) x) : Outran d q rest x :=
  ⟨fun hmem => h.active (List.mem_cons_of_mem _ hmem), fun i hi => h.older i (List.mem_cons_of_mem _ hi)⟩

/-- On to the next file. -/
theorem Walk.pass (h : Walk d q sent due.flatten (id :: rest) m)
    (hend : ∀ x ∈ (d.store.dir.listed id).drop m, x ∈ d.log → q < x.seq → x ∈ due.flatten ∧ Outran d q rest x) :
    Walk d q sent due.flatten rest 0 where
  ascending := (List.pairwise_cons.mp h.ascending).2
  fresh i hi := h.fresh i (List.mem_cons_of_mem _ hi)
  head _ _ := Nat.zero_le _
  reach x hx hlt := by
    rw [unread_zero]
    rcases h.reach x hx hlt with hs | hu | ⟨hd, ho⟩
    · exact .inl hs
    · rcases List.mem_append.mp hu with hu | hu
      · exact .inr (.inr (hend x hu hx hlt))
      · exact .inr (.inl hu)
    · exact .inr (.inr ⟨hd, ho.tail⟩)

/-- The walk leaves the active file at a write of which it has seen only a part. -/
theorem Walk.torn (h : Walk d q sent due.flatten (id :: rest) m) (hled : Led d) (hq : d.store.mergeSeq ≤ q)
    (hdue : ∀ x ∈ d.pen.unsent.flatten, x ∈ due.flatten) (hx : (d.store.dir.listed id)[m]? = some x)
    (hway : x ∈ underWay d id) : Walk d q sent due.flatten rest 0 := by
  obtain ⟨pre, hlog, -⟩ := hled.unsent
  have hasc := hled.filed.ascending
  obtain ⟨hid, hunsent⟩ : id = d.store.active.id ∧ x ∈ d.pen.unsent.flatten := by
    rw [underWay] at hway
    split at hway
    case h_1 recs entries hpen =>
      split at hway
      case isTrue hid => exact ⟨hid, by rwa [hpen, Pen.unsent, List.flatten_singleton]⟩
      case isFalse => cases hway
    case h_2 => cases hway
  refine h.pass fun y hy hyl hlt => ?_
  have hym := UInt64.lt_of_le_of_lt hq hlt
  have hyu : y ∈ d.pen.unsent.flatten := by
    by_contra hno
    rw [hlog] at hyl hasc
    have hlow := (List.pairwise_append.mp hasc).2.2 y ((List.mem_append.mp hyl).resolve_right hno) x hunsent
    rcases listed_behind hled.filed hx hy (UInt64.lt_trans hym hlow) hym with rfl | hgt
    · exact hno hunsent
    · exact absurd (UInt64.lt_trans hgt hlow) (UInt64.lt_irrefl _)
  have hbeyond : ∀ i ∈ rest, d.store.active.id < i := fun i hi => hid ▸ (List.pairwise_cons.mp h.ascending).1 i hi
  refine ⟨hdue y hyu, fun hmem => (hbeyond _ hmem).false, fun i hi z hz hzq => ?_⟩
  have := hled.filed.top i z (mem_listed.mp hz) (UInt64.lt_of_le_of_lt hq hzq)
  exact absurd (hbeyond i hi) (not_lt.mpr this)

/-- On to the next record. -/
theorem Walk.read {sent' : List Record} (h : Walk d q sent due.flatten (id :: rest) m)
    (hx : (d.store.dir.listed id)[m]? = some x) (hsub : ∀ y ∈ sent, y ∈ sent') (hsent : q < x.seq → x ∈ sent') :
    Walk d q sent' due.flatten (id :: rest) (m + 1) where
  ascending := h.ascending
  fresh := h.fresh
  head i hi := by
    cases hi
    obtain ⟨hlt, -⟩ := List.getElem?_eq_some_iff.mp hx
    exact hlt
  reach y hy hlt := by
    rcases h.reach y hy hlt with hs | hu | ho
    · exact .inl (hsub y hs)
    · rw [unread, drop_of_getElem? hx, List.cons_append] at hu
      rcases List.mem_cons.mp hu with rfl | hu
      · exact .inl (hsent hlt)
      · exact .inr (.inl hu)
    · exact .inr (.inr ho)

/-- What the walk reads is of the list, and all of the list that is older has been sent. -/
theorem Walk.oldest (h : Walk d q sent due.flatten (id :: rest) m) (hfiled : Filed d.store d.log)
    (hq : d.store.mergeSeq ≤ q)
    (hx : (d.store.dir.listed id)[m]? = some x) (hlt : q < x.seq) :
    x ∈ d.log ∧ ∀ y ∈ d.log, q < y.seq → y.seq ≤ x.seq → y ∈ sent ∨ y = x := by
  have hxm := UInt64.lt_of_le_of_lt hq hlt
  have hxl := List.mem_of_getElem? hx
  refine ⟨hfiled.fresh id x (mem_listed.mp hxl) hxm, fun y hy hyq hle => ?_⟩
  have hym := UInt64.lt_of_le_of_lt hq hyq
  rcases h.reach y hy hyq with hs | hu | ⟨-, ho⟩
  · exact .inl hs
  · rcases List.mem_append.mp hu with hu | hu
    · exact .inr ((listed_behind hfiled hx hu hxm hym).resolve_right (UInt64.not_lt.mpr hle))
    · obtain ⟨i, hi, hu⟩ := List.mem_flatMap.mp hu
      have hgt := hfiled.ordered id i x y (mem_listed.mp hxl) (mem_listed.mp hu) hxm hym
        ((List.pairwise_cons.mp h.ascending).1 i hi)
      exact absurd hle (UInt64.not_le.mpr hgt)
  · exact absurd hle (UInt64.not_le.mpr (ho.older id (List.mem_cons_self ..) x hxl hlt))

/-! ### A follower on the log -/

/-- How far what was sent reaches. -/
def Reach (d : Desk) (fromSeq q : UInt64) (sent : List (List Record)) (due : List Record) : Backlog → Prop
  | .start => q = fromSeq ∧ sent = []
  | .checked => q = fromSeq ∧ sent = [] ∧ d.store.mergeSeq ≤ q
  | .scanning ids n => q = fromSeq ∧ d.store.mergeSeq ≤ q ∧ Walk d q sent.flatten due ids n
  | .shipping _ => False
  | .live => ∀ x ∈ d.log, q < x.seq → x ∈ sent.flatten ∨ x ∈ due

/-- The follower was right at `q` and has been sent `got` since; `ws` is on the way, `due` is to
follow. -/
structure Trailing (r : Relay) (q : UInt64) (f₀ : Store) (got ws due : List (List Record)) : Prop where
  led : Led r.desk
  queued : Queued r.desk r.ch r.dropped due
  sound : r.broken = false
  base : Ready f₀
  below : f₀.seq ≤ q
  passed : q ≤ r.desk.store.seq
  spans : Spans r.desk.log q f₀
  stood : r.resynced = false → f₀.seq = q ∧ f₀.liveMap = latest (upTo q r.desk.log)
  received : Received f₀ r.follower got.flatten
  wire : Carries r.wire ws
  closed : ∀ pre, pre <+: got ++ ws → Closed r.desk.log q pre.flatten
  /-- Only the group that comes first may be older. -/
  later : ∀ x ∈ due.tail.flatten, q < x.seq
  reach : Reach r.desk r.fromSeq q (got ++ ws) due.flatten r.backlog

variable {r : Relay} {got ws : List (List Record)} {b : Bool}

theorem Trailing.flag (h : Trailing r q f₀ got ws due) (b : Bool) :
    Trailing {r with rebuilding := b} q f₀ got ws due := {h with}

theorem Trailing.ready (h : Trailing r q f₀ got ws due) : Ready r.follower := h.base.received h.received

theorem Trailing.got_closed (h : Trailing r q f₀ got ws due) : Closed r.desk.log q got.flatten :=
  h.closed got (List.prefix_append ..)

/-- The follower has not got ahead. -/
theorem Trailing.behind (h : Trailing r q f₀ got ws due) : r.follower.seq ≤ r.desk.store.seq := by
  obtain ⟨-, -, htop⟩ := topSeq_spec f₀.seq got.flatten
  rw [← h.received.seq] at htop
  rcases htop with heq | ⟨x, hx, heq⟩
  · exact heq ▸ UInt64.le_trans h.below h.passed
  · exact heq ▸ h.led.filed.passed x (h.got_closed.listed x hx)

theorem Trailing.stands (h : Trailing r q f₀ got ws due) (hno : r.resynced = false) :
    r.follower.liveMap = latest (upTo r.follower.seq r.desk.log) := by
  obtain ⟨hq, hstood⟩ := h.stood hno
  exact h.got_closed.latest h.led.filed.ascending h.received h.base hq hstood

/-- A position that has been passed spans what is written later. -/
theorem Spans.grow (h : Spans log q f) (hnew : ∀ x ∈ recs, q < x.seq) (hlog : Ascending (log ++ recs)) :
    Spans (log ++ recs) q f := by
  intro k hk
  have hold : ∀ x ∈ log, x.key = k → x.seq ≤ q := fun x hx => hk x (List.mem_append_left _ hx)
  calc f.liveMap k = latest log k := h k hold
    _ = latest (upTo q log) k := (Ascending.latest_upTo (List.pairwise_append.mp hlog).1 hold).symm
    _ = latest (upTo q (log ++ recs)) k := by rw [upTo_append hnew]
    _ = latest (log ++ recs) k := hlog.latest_upTo hk

theorem Reach.still {fromSeq : UInt64} {sent : List (List Record)} {backlog : Backlog}
    (h : Reach d fromSeq q sent due.flatten backlog) (hlog : d'.log = d.log)
    (hmerge : d'.store.mergeSeq = d.store.mergeSeq)
    (hbytes : d'.store.dir.bytes = d.store.dir.bytes) (hactive : d'.store.active.id = d.store.active.id)
    (hnext : d'.store.nextID = d.store.nextID) : Reach d' fromSeq q sent due.flatten backlog := by
  cases backlog with
  | start => exact h
  | checked => exact ⟨h.1, h.2.1, hmerge ▸ h.2.2⟩
  | scanning ids n => exact ⟨h.1, hmerge ▸ h.2.1, h.2.2.still hlog hbytes hactive hnext⟩
  | shipping c => exact h
  | live => exact fun x hx => h x (hlog ▸ hx)

theorem Reach.wrote {fromSeq : UInt64} {sent : List (List Record)} {backlog : Backlog}
    (h : Reach d fromSeq q sent due.flatten backlog) (hled : Led d) (hlog : d'.log = d.log ++ recs)
    (hnew : ∀ x ∈ recs, d.store.seq < x.seq) (hmerge : d'.store.mergeSeq = d.store.mergeSeq)
    (hactive : d'.store.active.id = d.store.active.id ∧ d'.store.nextID = d.store.nextID ∨
      d'.store.active.id = d.store.nextID ∧ d'.store.nextID = d.store.nextID + 1)
    (hlisted : ∀ i, d'.store.dir.listed i = d.store.dir.listed i ++ if i = d'.store.active.id then recs else []) :
    Reach d' fromSeq q sent (due ++ [recs]).flatten backlog := by
  cases backlog with
  | start => exact h
  | checked => exact ⟨h.1, h.2.1, hmerge ▸ h.2.2⟩
  | scanning ids n => exact ⟨h.1, hmerge ▸ h.2.1, h.2.2.wrote hled hlog hnew hactive hlisted⟩
  | shipping c => exact h
  | live =>
    intro x hx hlt
    rw [List.flatten_concat]
    rcases List.mem_append.mp (hlog ▸ hx) with hx | hx
    · exact (h x hx hlt).imp_right (List.mem_append_left _)
    · exact .inr (List.mem_append_right _ hx)

/-- **A stroke** of the leader. -/
theorem Trailing.write (h : Trailing r q f₀ got ws due) (hled : Led d) (hg : Grew r.desk d) :
    ∃ due', Trailing {r with desk := d} q f₀ got ws due' := by
  have hseq := UInt64.le_trans h.passed hg.seq
  have hupTo := hg.upTo h.passed
  have hstood : r.resynced = false → f₀.seq = q ∧ f₀.liveMap = latest (upTo q d.log) := by
    rw [hupTo]
    exact h.stood
  cases hg with
  | still hlog hunsent _ hmerge hbytes hactive hnext =>
    exact ⟨due, hled, h.queued.still hlog hunsent, h.sound, h.base, h.below, hseq, hlog ▸ h.spans, hstood,
      h.received, h.wire,
      hlog ▸ h.closed, h.later, h.reach.still hlog hmerge hbytes hactive hnext⟩
  | wrote recs hidle hunsent hlog hnew _ hmerge _ hactive hlisted =>
    have hq : ∀ x ∈ recs, q < x.seq := fun x hx => UInt64.lt_of_le_of_lt h.passed (hnew x hx)
    have hasc : Ascending (r.desk.log ++ recs) := hlog ▸ hled.filed.ascending
    refine ⟨due ++ [recs], hled, h.queued.wrote hled hidle hunsent hlog, h.sound, h.base, h.below, hseq, ?_,
      hstood, h.received,
      h.wire, fun pre hpre => ?_, fun x hx => ?_, ?_⟩
    · show Spans d.log q f₀
      rw [hlog]
      exact h.spans.grow hq hasc
    · show Closed d.log q pre.flatten
      rw [hlog]
      exact (h.closed pre hpre).grow (List.pairwise_append.mp hasc).2.2 hq
    · cases hdue : due with
      | nil =>
        rw [hdue] at hx
        cases hx
      | cons g rest =>
        rw [hdue, List.cons_append, List.tail_cons, List.flatten_concat] at hx
        rcases List.mem_append.mp hx with hx | hx
        · refine h.later x ?_
          rwa [hdue]
        · exact hq x hx
    · exact h.reach.wrote h.led hlog hnew hmerge hactive hlisted

/-- `fanout` changes the channel. -/
theorem act_publish (hled : Led r.desk) (h : Queued r.desk r.ch r.dropped due)
    (hfull : r.dropped = true → streamBuffer ≤ r.ch.length) :
    ∃ pen ch dropped, r.act .publish = {r with desk := {r.desk with pen := pen}, ch := ch, dropped := dropped} ∧
      Led {r.desk with pen := pen} ∧ Queued {r.desk with pen := pen} ch dropped due := by
  obtain ⟨⟨s, log, pen, ks⟩, fromSeq, backlog, ch, dropped, wire, follower, broken, resynced, rebuilding⟩ := r
  cases pen with
  | idle => exact ⟨_, _, _, rfl, hled, h⟩
  | logged recs entries => exact ⟨_, _, _, rfl, hled, h⟩
  | indexed recs =>
    obtain ⟨hroom, hlost⟩ := h.publish hfull
    by_cases hlt : ch.length < streamBuffer
    · refine ⟨.idle, ch ++ [encodeAll recs], dropped, ?_, hled.publish, hroom hlt⟩
      simp only [Relay.act, Relay.fanout, if_pos hlt]
    · refine ⟨.idle, ch, true, ?_, hled.publish, hlost⟩
      simp only [Relay.act, Relay.fanout, if_neg hlt]

/-- A merge changes the files. -/
theorem act_compact (hled : Led r.desk) (h : Queued r.desk r.ch r.dropped due) (hf : Fits r.desk.store .compact) :
    ∃ s, r.act .compact = {r with desk := {r.desk with store := s}} ∧ Led {r.desk with store := s} ∧
      Queued {r.desk with store := s} r.ch r.dropped due ∧ s.seq = r.desk.store.seq ∧
        r.desk.store.mergeSeq ≤ s.mergeSeq := by
  obtain ⟨⟨s, log, pen, ks⟩, fromSeq, backlog, ch, dropped, wire, follower, broken, resynced, rebuilding⟩ := r
  cases pen with
  | logged recs entries => exact ⟨s, rfl, hled, h, rfl, UInt64.le_refl _⟩
  | indexed recs => exact ⟨s, rfl, hled, h, rfl, UInt64.le_refl _⟩
  | idle =>
    obtain ⟨hled', hseq, hmerge⟩ := hled.compact hf
    exact ⟨s.compact.1, rfl, hled', h.still rfl rfl, hseq, hmerge⟩

theorem Trailing.publish (h : Trailing r q f₀ got ws due) (hfull : r.dropped = true → streamBuffer ≤ r.ch.length) :
    Trailing (r.act .publish) q f₀ got ws due := by
  obtain ⟨pen, ch, dropped, hact, hled, hqueued⟩ := act_publish h.led h.queued hfull
  rw [hact]
  exact {h with led := hled, queued := hqueued, reach := h.reach.still rfl rfl rfl rfl rfl}

theorem Trailing.compact (h : Trailing r q f₀ got ws due) (hf : Fits r.desk.store .compact)
    (hwhen : r.backlog = .start ∨ r.backlog = .live) : Trailing (r.act .compact) q f₀ got ws due := by
  obtain ⟨s, hact, hled, hqueued, hseq, -⟩ := act_compact h.led h.queued hf
  have hpassed : q ≤ s.seq := hseq ▸ h.passed
  have hreach : Reach {r.desk with store := s} r.fromSeq q (got ++ ws) due.flatten r.backlog := by
    have hreach := h.reach
    rcases hwhen with hb | hb <;> rw [hb] at hreach ⊢ <;> exact hreach
  rw [hact]
  exact {h with led := hled, queued := hqueued, passed := hpassed, reach := hreach}

/-- More groups on the way. -/
theorem Trailing.send (h : Trailing r q f₀ got ws due) {backlog : Backlog} {more : List (List Record)}
    (hwire : Carries frames more)
    (hclosed : ∀ pre, pre <+: got ++ ws ++ more → Closed r.desk.log q pre.flatten)
    (hreach : Reach r.desk r.fromSeq q (got ++ ws ++ more) due.flatten backlog) :
    Trailing {r with backlog := backlog, wire := r.wire ++ frames} q f₀ got (ws ++ more) due := by
  rw [List.append_assoc] at hreach
  exact {h with wire := h.wire.append hwire, closed := fun pre hpre => hclosed pre (List.append_assoc .. ▸ hpre),
                reach := hreach}

/-- The backlog goes on without sending. -/
theorem Trailing.pause (h : Trailing r q f₀ got ws due) {backlog : Backlog} (hwire : Carries frames [])
    (hreach : Reach r.desk r.fromSeq q (got ++ ws) due.flatten backlog) :
    Trailing {r with backlog := backlog, wire := r.wire ++ frames} q f₀ got ws due := by
  have hnil : got ++ ws ++ [] = got ++ ws := List.append_nil _
  have hsend : Trailing {r with backlog := backlog, wire := r.wire ++ frames} q f₀ got (ws ++ []) due :=
    h.send hwire (hnil.symm ▸ h.closed) (hnil.symm ▸ hreach)
  rwa [List.append_nil] at hsend

theorem act_catchUp {backlog : Backlog} {torn : Bool} (hnext : r.backlog.next r.fromSeq r.desk torn = (backlog, frames))
    (hplain : .fullSync ∉ frames) : r.act (.catchUp torn) = {r with backlog := backlog, wire := r.wire ++ frames} := by
  have hany : frames.any (· == .fullSync) = false :=
    List.any_eq_false.mpr fun frame hmem heq => hplain (eq_of_beq heq ▸ hmem)
  simp only [Relay.act, hnext, hany, Bool.or_false]

/-- The walk sends the record it has come to. -/
theorem Trailing.sendRecord (h : Trailing r q f₀ got ws due) (hq : r.desk.store.mergeSeq ≤ q) (hfrom : q = r.fromSeq)
    (hwalk : Walk r.desk q (got ++ ws).flatten due.flatten (id :: rest) m)
    (hx : (r.desk.store.dir.listed id)[m]? = some x)
    (hlt : q < x.seq) :
    Trailing {r with backlog := .scanning (id :: rest) (m + 1), wire := r.wire ++ [.replData x.encode]}
      q f₀ got (ws ++ [[x]]) due := by
  have hheld := mem_listed.mp (List.mem_of_getElem? hx)
  obtain ⟨hlisted, hold⟩ := hwalk.oldest h.led.filed hq hx hlt
  have hall : (got ++ ws ++ [[x]]).flatten = (got ++ ws).flatten ++ [x] := by
    rw [List.flatten_concat]
  refine h.send (.record hheld.sized) (fun pre hpre => ?_) ⟨hfrom, hq, ?_⟩
  · rcases List.prefix_concat_iff.mp hpre with rfl | hpre
    · rw [hall]
      refine (h.closed _ List.prefix_rfl).append (fun y hy => ?_) (fun y hy _ z hz hzq hzy => ?_) fun y hy hyq => ?_
      · rwa [List.mem_singleton.mp hy]
      · rw [List.mem_singleton.mp hy] at hzy
        exact (hold z hz hzq hzy).imp_right List.mem_singleton.mpr
      · rw [List.mem_singleton.mp hy] at hyq
        exact absurd hyq (UInt64.not_le.mpr hlt)
    · exact h.closed pre hpre
  · rw [hall]
    exact hwalk.read hx (fun y hy => List.mem_append_left _ hy) fun _ =>
      List.mem_append_right _ (List.mem_singleton_self _)

/-- The walk over the files goes on. -/
theorem Trailing.scan (h : Trailing r q f₀ got ws due) (torn : Bool) (hb : r.backlog = .scanning ids m) :
    ∃ ws', Trailing (r.act (.catchUp torn)) q f₀ got ws' due := by
  have hreach := h.reach
  have hlive : Carries [.live] [] := .idle rfl Frame.noConfusion
  rw [hb] at hreach
  obtain ⟨hfrom, hq, hwalk⟩ := hreach
  cases ids with
  | nil =>
    rw [act_catchUp (by rw [hb, Backlog.next]) hlive.plain]
    refine ⟨ws, h.pause hlive fun x hx hlt => ?_⟩
    exact (hwalk.reach x hx hlt).imp_right fun hx => (hx.resolve_left List.not_mem_nil).1
  | cons id rest =>
    rcases scanAt_eq r.desk.store.dir id m with ⟨hnone, hend⟩ | ⟨x, hsome, hx, hraw⟩
    · rw [act_catchUp (by rw [hb, Backlog.next, hnone]) List.not_mem_nil]
      refine ⟨ws, h.pause .nil ⟨hfrom, hq, hwalk.pass fun x hx => ?_⟩⟩
      rw [List.drop_eq_nil_of_le hend] at hx
      cases hx
    by_cases hway : torn ∧ x.record ∈ underWay r.desk id
    · have hnext : r.backlog.next r.fromSeq r.desk torn = (.scanning rest 0, []) := by
        rw [hb, Backlog.next, hsome]
        exact if_pos hway
      rw [act_catchUp hnext List.not_mem_nil]
      refine ⟨ws, h.pause .nil ⟨hfrom, hq, hwalk.torn h.led hq (fun y hy => ?_) hx hway.2⟩⟩
      obtain ⟨cs, lost, hdue, -⟩ := h.queued.parts
      rw [hdue, List.flatten_append]
      exact List.mem_append_right _ hy
    · have hnext : r.backlog.next r.fromSeq r.desk torn = (.scanning (id :: rest) (m + 1),
          if x.record.seq ≤ r.fromSeq then [] else [.replData x.raw]) := by
        rw [hb, Backlog.next, hsome]
        exact if_neg hway
      by_cases hle : x.record.seq ≤ r.fromSeq
      · rw [if_pos hle] at hnext
        rw [act_catchUp hnext List.not_mem_nil]
        refine ⟨ws, h.pause .nil ⟨hfrom, hq, hwalk.read hx (fun y hy => hy) fun hlt => ?_⟩⟩
        exact absurd (hfrom ▸ hle) (UInt64.not_le.mpr hlt)
      · have hlt : q < x.record.seq := hfrom ▸ UInt64.not_le.mp hle
        rw [if_neg hle, hraw] at hnext
        rw [act_catchUp hnext (Carries.record (mem_listed.mp (List.mem_of_getElem? hx)).sized).plain]
        exact ⟨_, h.sendRecord hq hfrom hwalk hx hlt⟩

/-- **A step of the backlog** on the log: it goes on, or calls for a resync at the start. -/
theorem Trailing.catchUp (h : Trailing r q f₀ got ws due) (torn : Bool) :
    (∃ ws', Trailing (r.act (.catchUp torn)) q f₀ got ws' due) ∨
      r.backlog = .start ∧ (r.fromSeq = 0 ∨ r.fromSeq < r.desk.store.mergeSeq) ∧ ws = [] := by
  have hreach := h.reach
  cases hb : r.backlog with
  | start =>
    rw [hb] at hreach
    by_cases hfull : r.fromSeq = 0 ∨ r.fromSeq < r.desk.store.mergeSeq
    · exact .inr ⟨rfl, hfull, (List.append_eq_nil_iff.mp hreach.2).2⟩
    · have hnext : r.backlog.next r.fromSeq r.desk torn = (.checked, []) := by rw [hb, Backlog.next, if_neg hfull]
      rw [act_catchUp hnext List.not_mem_nil]
      refine .inl ⟨ws, h.pause .nil ⟨hreach.1, hreach.2, ?_⟩⟩
      rw [hreach.1]
      exact UInt64.not_lt.mp fun hlt => hfull (.inr hlt)
  | checked =>
    rw [hb] at hreach
    rw [act_catchUp (by rw [hb, Backlog.next]) List.not_mem_nil]
    refine .inl ⟨ws, h.pause .nil ⟨hreach.1, hreach.2.2, ?_⟩⟩
    rw [hreach.2.1]
    exact walk_start h.led hreach.2.2
  | scanning ids n => exact .inl (h.scan torn hb)
  | shipping c =>
    rw [hb] at hreach
    exact hreach.elim
  | live =>
    rw [hb] at hreach
    rw [act_catchUp (by rw [hb, Backlog.next]) List.not_mem_nil]
    exact .inl ⟨ws, h.pause .nil hreach⟩

theorem Trailing.forward (h : Trailing r q f₀ got ws due) :
    ∃ ws' due', Trailing (r.act .forward) q f₀ got ws' due' := by
  rw [Relay.act]
  split
  case h_2 => exact ⟨ws, due, h⟩
  case h_1 raw rest hb hch =>
    have hreach := h.reach
    rw [hb] at hreach
    obtain ⟨g, later, hdue, rfl, hqueued⟩ := (hch ▸ h.queued).forward
    obtain ⟨pre, hpre⟩ := h.queued.tail
    obtain ⟨hsized, ha⟩ := h.queued.sized g (hdue ▸ List.mem_cons_self ..)
    have hlater := h.later
    rw [hdue, List.tail_cons] at hlater
    rw [hdue, List.flatten_cons] at hreach hpre
    have hasc := h.led.filed.ascending
    rw [hpre] at hasc
    obtain ⟨-, hasc, hbefore⟩ := List.pairwise_append.mp hasc
    have hafter := (List.pairwise_append.mp hasc).2.2
    have hall : (got ++ ws ++ [g]).flatten = (got ++ ws).flatten ++ g := by
      rw [List.flatten_concat]
    have hclosed : Closed r.desk.log q (got ++ ws ++ [g]).flatten := by
      rw [hall]
      refine (h.closed _ List.prefix_rfl).append (fun x hx => ?_)
        (fun x hx hlt y hy hyq hle => ?_) fun x hx hle y hy hlt hyq => ?_
      · rw [hpre]
        exact List.mem_append_right _ (List.mem_append_left _ hx)
      · refine (hreach y hy hyq).imp_right fun hy => (List.mem_append.mp hy).resolve_right fun hy => ?_
        exact absurd hle (UInt64.not_le.mpr (hafter x hx y hy))
      · rw [hpre] at hy
        rcases List.mem_append.mp hy with hy | hy
        · exact absurd (UInt64.lt_trans hlt (hbefore y hy x (List.mem_append_left _ hx))) (UInt64.lt_irrefl _)
        · refine .inr ((List.mem_append.mp hy).resolve_right fun hy => ?_)
          exact absurd hyq (UInt64.not_le.mpr (hlater y hy))
    refine ⟨ws ++ [g], later, h.led, hqueued, h.sound, h.base, h.below, h.passed, h.spans, h.stood, h.received,
      h.wire.append (.group hsized ha), fun pre hpre => ?_, fun x hx => hlater x ?_, ?_⟩
    · rw [← List.append_assoc] at hpre
      rcases List.prefix_concat_iff.mp hpre with rfl | hpre
      · exact hclosed
      · exact h.closed pre hpre
    · obtain ⟨l, hl, hx⟩ := List.mem_flatten.mp hx
      exact List.mem_flatten.mpr ⟨l, List.mem_of_mem_tail hl, hx⟩
    · show Reach r.desk r.fromSeq q (got ++ (ws ++ [g])) later.flatten r.backlog
      rw [hb, ← List.append_assoc]
      intro x hx hlt
      rw [hall]
      rcases hreach x hx hlt with hs | hd
      · exact .inl (List.mem_append_left _ hs)
      · exact (List.mem_append.mp hd).imp_left (List.mem_append_right _)

theorem Trailing.heartbeat (h : Trailing r q f₀ got ws due) (epoch : UInt64) (leaderAddr : String) :
    Trailing (r.act (.heartbeat epoch leaderAddr)) q f₀ got ws due := by
  rw [Relay.act]
  split
  case h_1 => exact h.pause (.idle rfl Frame.noConfusion) h.reach
  case h_2 => exact h

/-- **The follower takes a frame.** -/
theorem Trailing.deliver (h : Trailing r q f₀ got ws due) (hid : r.follower.nextID + 1 < 2 ^ 32) :
    ∃ got' ws', Trailing (r.act .deliver) q f₀ got' ws' due := by
  rw [Relay.act]
  split
  case h_1 => exact ⟨got, ws, h⟩
  case h_2 frame rest hwire =>
    have hcarries := h.wire
    rw [hwire] at hcarries
    obtain ⟨f', now, later, hreceive, rfl, hr, hrest⟩ := h.ready.deliver hid hcarries
    rw [h.sound, hreceive]
    refine ⟨got ++ now, later, h.led, h.queued, rfl, h.base, h.below, h.passed, h.spans, h.stood, ?_, hrest, ?_,
      h.later, ?_⟩
    · rw [List.flatten_append]
      exact h.received.trans hr
    · rw [List.append_assoc]
      exact h.closed
    · rw [List.append_assoc]
      exact h.reach

omit [Checksum] in
theorem unsent_tail (d : Desk) : d.pen.unsent.tail = [] := by
  cases d.pen <;> rfl

/-- **The follower dials again** from its own counter. -/
theorem Trailing.redial (h : Trailing r q f₀ got ws due) (epoch : UInt64) (leaderAddr : String) :
    Trailing (r.act (.redial epoch leaderAddr)) r.follower.seq r.follower [] [] r.desk.pen.unsent where
  led := h.led
  queued := queued_unsent h.led
  sound := rfl
  base := h.ready
  below := UInt64.le_refl _
  passed := h.behind
  spans := h.got_closed.spans h.led.filed.ascending h.received h.base h.below h.spans fun _ hy =>
    h.got_closed.reached h.received h.below hy
  stood hno := ⟨rfl, h.stands (Bool.or_eq_false_iff.mp hno).1⟩
  received := .refl h.ready.wf
  wire := .idle rfl Frame.noConfusion
  closed pre hpre := by
    rw [List.prefix_nil.mp hpre]
    exact closed_nil
  later x hx := by
    rw [unsent_tail] at hx
    cases hx
  reach := ⟨rfl, rfl⟩

/-- **A signal** that calls for no resync leaves the follower on the log. -/
theorem Trailing.act (h : Trailing r q f₀ got ws due) {a : Signal} (hrule : Regular r a)
    (hno : (r.act a).resynced = false) :
    ∃ q f₀ got ws due, Trailing (r.act a) q f₀ got ws due := by
  cases a with
  | write a =>
    obtain ⟨hled, hg⟩ := h.led.step hrule
    obtain ⟨due', h'⟩ := h.write hled hg
    exact ⟨_, _, _, _, _, h'⟩
  | publish => exact ⟨_, _, _, _, _, h.publish hrule⟩
  | compact => exact ⟨_, _, _, _, _, h.compact hrule.1 hrule.2⟩
  | catchUp torn =>
    rcases h.catchUp torn with ⟨ws', h'⟩ | ⟨hb, hfull, -⟩
    · exact ⟨_, _, _, _, _, h'⟩
    · simp only [Relay.act, hb, Backlog.next, if_pos hfull] at hno
      exact absurd hno (by simp)
  | forward =>
    obtain ⟨ws', due', h'⟩ := h.forward
    exact ⟨_, _, _, _, _, h'⟩
  | heartbeat epoch leaderAddr => exact ⟨_, _, _, _, _, h.heartbeat epoch leaderAddr⟩
  | deliver =>
    obtain ⟨got', ws', h'⟩ := h.deliver hrule
    exact ⟨_, _, _, _, _, h'⟩
  | redial epoch leaderAddr => exact ⟨_, _, _, _, _, h.redial epoch leaderAddr⟩

/-- Once called for, a resync is not forgotten. -/
theorem act_flags (r : Relay) (a : Signal) :
    (r.resynced = true → (r.act a).resynced = true) ∧ (r.rebuilding = true → (r.act a).rebuilding = true) := by
  cases a with
  | write _ => exact ⟨id, id⟩
  | publish =>
    rw [Relay.act]
    split
    · rw [Relay.fanout]
      split <;> exact ⟨id, id⟩
    · exact ⟨id, id⟩
  | compact =>
    rw [Relay.act]
    split <;> exact ⟨id, id⟩
  | catchUp torn => exact ⟨fun h => Bool.or_eq_true_iff.mpr (.inl h), fun h => Bool.or_eq_true_iff.mpr (.inl h)⟩
  | forward =>
    rw [Relay.act]
    split <;> exact ⟨id, id⟩
  | heartbeat _ _ =>
    rw [Relay.act]
    split <;> exact ⟨id, id⟩
  | deliver =>
    rw [Relay.act]
    split
    · exact ⟨id, id⟩
    · split <;> exact ⟨id, id⟩
  | redial _ _ => exact ⟨fun h => Bool.or_eq_true_iff.mpr (.inl h), fun h => Bool.or_eq_true_iff.mpr (.inl h)⟩

/-- A leader with a history of its own and a follower that has just dialled it. -/
def attached (c : Chronicle) (f : Store) (wasLeader : Bool) (epoch : UInt64) (leaderAddr : String) : Relay :=
  Relay.dial ⟨⟨c.store, c.log, .idle, []⟩, 0, .start, [], false, [], f, false, false, false⟩ wasLeader epoch leaderAddr

/-- A follower that stands at its counter trails. -/
theorem trailing_attached {c : Chronicle} (h : Chronicled c) (hf : Ready f) (hle : f.seq ≤ c.store.seq)
    (hstands : f.liveMap = latest (upTo f.seq c.log)) (epoch : UInt64) (leaderAddr : String) :
    Trailing (attached c f false epoch leaderAddr) f.seq f [] [] [] where
  led := .idle h
  queued := queued_unsent (.idle h)
  sound := rfl
  base := hf
  below := UInt64.le_refl _
  passed := hle
  spans k hk := (congrFun hstands k).trans (h.ascending.latest_upTo hk)
  stood _ := ⟨rfl, hstands⟩
  received := .refl hf.wf
  wire := .idle rfl Frame.noConfusion
  closed pre hpre := by
    rw [List.prefix_nil.mp hpre]
    exact closed_nil
  later x hx := by cases hx
  reach := ⟨rfl, rfl⟩

end Step

/-- The log is read while a write goes into it, and the reader sees only a part of that write. -/
def tornSignals : List Signal :=
  [.catchUp false, .catchUp false, .write (.log (.put 0 [3] [9])), .catchUp false, .catchUp false, .deliver, .deliver,
    .catchUp false, .catchUp true, .write .index, .catchUp false, .publish]

end Gokv.Cluster
