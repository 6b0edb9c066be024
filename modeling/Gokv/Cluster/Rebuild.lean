import Gokv.Cluster.Relay

/-! A follower that is sent everything, on a leader that goes on writing.

`SnapshotRecords` is no snapshot: it collects the index chunk by chunk and reads each record when
its turn comes, while writers go on. A key it has passed may be written again, one before it may
go. What makes up for that is the channel, which is registered first and forwarded last: whatever
changes behind the snapshot's back is due (`Shipment`).

`follower_caught_up`: once everything sent has been received, the follower shows what the leader
shows, by either path, however the steps interleave and however often the follower was cut off,
as long as it was not between a resync and its catching up. -/
namespace Gokv.Cluster
open Base Engine

section Rebuild
variable [Checksum] {d d' : Desk} {n : Record} {k : Bytes} {e : Entry} {s : Store} {pend : Pending}

/-! ### The index of a leader that is writing -/

theorem live_entry (h : Wf .every s pend) : (∃ e, (k, e) ∈ s.liveEntries) ↔ s.liveMap k ≠ none := by
  have hpayload {e : Entry} (he : s.keys[k]? = some e) : s.liveMap k = none ↔ e.tomb = true := by
    obtain ⟨x, hx, hlive⟩ := h.liveMap_some he
    rw [hlive, payload_eq_none, hx.tomb]
  constructor
  · rintro ⟨e, he⟩ hnone
    obtain ⟨he, hlive⟩ := lookup_eq_some.mp (mem_liveEntries.mp he)
    rw [(hpayload he).mp hnone] at hlive
    cases hlive
  · intro hsome
    cases he : s.keys[k]? with
    | none => exact absurd (Store.liveMap_none he) hsome
    | some e =>
      refine ⟨e, mem_liveEntries.mpr (lookup_eq_some.mpr ⟨he, ?_⟩)⟩
      cases ht : e.tomb with
      | false => rfl
      | true => exact absurd ((hpayload he).mpr ht) hsome

/-- A key of the index is at its newest record, the write under way apart. -/
theorem indexed_newest (h : Led d) (he : d.store.keys[k]? = some e) {y : Record} (hy : y ∈ d.log) (hk : y.key = k) :
    y.seq ≤ e.seq ∨ y ∈ d.pen.unsent.flatten := by
  obtain ⟨p, hp⟩ := h.showing
  obtain ⟨pre, hlog, -⟩ := h.unsent
  rcases List.mem_append.mp (hlog ▸ hy) with hpre | hway
  · exact .inl (hp.newest k e he y (mem_upTo.mpr ⟨hy, hp.shown pre hlog y hpre⟩) hk)
  · exact .inr hway

/-- The index shows the newest record of a key, unless it is being written. -/
theorem indexed_live (h : Led d) (hn : IsNewest d.log n) (hway : n ∉ d.pen.unsent.flatten) :
    d.store.liveMap n.key = n.payload := by
  obtain ⟨p, hp⟩ := h.showing
  obtain ⟨pre, hlog, -⟩ := h.unsent
  have hmem : n ∈ upTo p d.log :=
    mem_upTo.mpr ⟨hn.1, hp.shown pre hlog n ((List.mem_append.mp (hlog ▸ hn.1)).resolve_right hway)⟩
  have hnewest : IsNewest (upTo p d.log) n := ⟨hmem, fun y hy => hn.2 y (mem_upTo.mp hy).1⟩
  rw [hp.liveMap]
  exact hnewest.latest (Ascending.upTo h.filed.ascending)

/-! ### A snapshot beside the writers -/

/-- Of every key the newest record is due, or sent, or ahead of the call; where it is a tombstone,
nothing of the key has been sent or is in hand. -/
structure Shipment (d : Desk) (sent due : List Record) (c : Courier) : Prop where
  moving : ∀ key left refs cursor, c ≠ .resolve key left refs cursor
  held : ∀ x ∈ c.held, (∃ n, Located .every d.store.dir.bytes x.1 x.2 n) ∧
    ∀ y ∈ d.log, y.key = x.1 → y.seq ≤ x.2.seq ∨ y ∈ due
  newest : ∀ n, IsNewest d.log n → n ∈ due ∨ n.version ∈ sent.map Record.version ∨
    n.tombstone = false ∧ c.Ahead n.key ∨
    n.tombstone = true ∧ (∀ x ∈ sent, x.key ≠ n.key) ∧ ∀ x ∈ c.held, x.1 ≠ n.key

variable {sent due : List Record} {c : Courier} {recs : List Record}

theorem shipment_start (d : Desk) (due : List Record) : Shipment d [] due (.collect none) where
  moving _ _ _ _ h := by cases h
  held x hx := by cases hx
  newest n _ := by
    cases ht : n.tombstone with
    | false => exact .inr (.inr (.inl ⟨rfl, trivial⟩))
    | true =>
      exact .inr (.inr (.inr ⟨rfl, fun x hx => absurd hx List.not_mem_nil, fun x hx => absurd hx List.not_mem_nil⟩))

theorem Shipment.still (h : Shipment d sent due c) (hlog : d'.log = d.log)
    (hbytes : d'.store.dir.bytes = d.store.dir.bytes) :
    Shipment d' sent due c :=
  ⟨h.moving, hlog ▸ hbytes ▸ h.held, hlog ▸ h.newest⟩

theorem Shipment.wrote (h : Shipment d sent due c) (hlog : d'.log = d.log ++ recs)
    (hlocated : ∀ k e r, Located .every d.store.dir.bytes k e r → Located .every d'.store.dir.bytes k e r) :
    Shipment d' sent (due ++ recs) c where
  moving := h.moving
  held x hx := by
    obtain ⟨⟨n, hn⟩, hnew⟩ := h.held x hx
    refine ⟨⟨n, hlocated _ _ _ hn⟩, fun y hy hk => ?_⟩
    rcases List.mem_append.mp (hlog ▸ hy) with hy | hy
    · exact (hnew y hy hk).imp_right (List.mem_append_left _)
    · exact .inr (List.mem_append_right _ hy)
  newest n hn := by
    have hmem := hn.1
    rw [hlog] at hmem
    rcases List.mem_append.mp hmem with hmem | hmem
    · have hold : IsNewest d.log n := ⟨hmem, fun y hy => hn.2 y (hlog ▸ List.mem_append_left _ hy)⟩
      exact (h.newest n hold).imp_left (List.mem_append_left _)
    · exact .inl (List.mem_append_right _ hmem)

/-- On to the next record, with nothing lost on the way. -/
theorem Shipment.resume {raws : List Record} {cursor : Bytes} {refs : List (Bytes × Entry)} (h : Shipment d sent due c)
    (hheld : ∀ x ∈ refs, (∃ n, Located .every d.store.dir.bytes x.1 x.2 n) ∧
      ∀ y ∈ d.log, y.key = x.1 → y.seq ≤ x.2.seq ∨ y ∈ due)
    (hahead : ∀ n, IsNewest d.log n → n ∉ due → n.tombstone = false → c.Ahead n.key →
      n.version ∈ raws.map Record.version ∨ n.key ∈ refs.map Prod.fst ∨ compare cursor n.key = .lt)
    (hgone : ∀ n, IsNewest d.log n → n ∉ due → n.tombstone = true → (∀ x ∈ c.held, x.1 ≠ n.key) →
      (∀ x ∈ raws, x.key ≠ n.key) ∧ ∀ x ∈ refs, x.1 ≠ n.key) :
    Shipment d (sent ++ raws) due (.resume cursor refs) where
  moving key left refs' cursor' heq := by cases refs <;> cases heq
  held := by
    rw [Courier.held_resume]
    exact hheld
  newest n hn := by
    rw [Courier.held_resume, Courier.ahead_resume, List.map_append]
    by_cases hd : n ∈ due
    · exact .inl hd
    rcases (h.newest n hn).resolve_left hd with hs | ⟨ht, ha⟩ | ⟨ht, hs, hh⟩
    · exact .inr (.inl (List.mem_append_left _ hs))
    · rcases hahead n hn hd ht ha with hraw | ha
      · exact .inr (.inl (List.mem_append_right _ hraw))
      · exact .inr (.inr (.inl ⟨ht, ha⟩))
    · obtain ⟨hraws, hrefs⟩ := hgone n hn hd ht hh
      exact .inr (.inr (.inr ⟨ht, fun x hx => (List.mem_append.mp hx).elim (hs x) (hraws x), hrefs⟩))

/-- **The call collects a chunk.** -/
theorem Shipment.collect {cursor : Option Bytes} (h : Shipment d sent due (.collect cursor)) (hled : Led d)
    (hdue : ∀ x ∈ d.pen.unsent.flatten, x ∈ due) :
    Shipment d sent due ((Courier.collect cursor).next d.store).1 ∧ ((Courier.collect cursor).next d.store).2 = [] := by
  obtain ⟨pend, hwf⟩ := hled.wf
  have hlive {n : Record} (hn : IsNewest d.log n) (hd : n ∉ due) : d.store.liveMap n.key = n.payload :=
    indexed_live hled hn fun hway => hd (hdue n hway)
  have hentry {n : Record} (hn : IsNewest d.log n) (hd : n ∉ due) (ht : n.tombstone = false) :
      ∃ e, (n.key, e) ∈ d.store.liveEntries := by
    refine (live_entry hwf).mpr fun hnone => ?_
    rw [hlive hn hd, payload_eq_none, ht] at hnone
    cases hnone
  dsimp only [Courier.next]
  cases hlast : (Store.takeChunk 512 4096 (d.store.behind cursor)).getLast? with
  | none =>
    have hnil := takeChunk_nil (List.getLast?_eq_none_iff.mp hlast)
    refine ⟨⟨fun _ _ _ _ heq => (by cases heq), fun x hx => (by cases hx), fun n hn => ?_⟩, rfl⟩
    by_cases hd : n ∈ due
    · exact .inl hd
    rcases (h.newest n hn).resolve_left hd with hs | ⟨ht, ha⟩ | hgone
    · exact .inr (.inl hs)
    · obtain ⟨e, he⟩ := hentry hn hd ht
      have hmem := mem_behind (x := (n.key, e)) (lookup_eq_some.mp (mem_liveEntries.mp he)).1 ha
      rw [hnil] at hmem
      cases hmem
    · exact .inr (.inr (.inr hgone))
  | some last =>
    have hchunk {x : Bytes × Entry}
        (hx : x ∈ (Store.takeChunk 512 4096 (d.store.behind cursor)).filter fun x => !x.2.tomb) :
          x ∈ d.store.liveEntries := by
      obtain ⟨hx, hl⟩ := List.mem_filter.mp hx
      have hx := (behind_sublist d.store cursor).subset (List.IsPrefix.subset (takeChunk_isInit 512 4096 _) hx)
      exact List.mem_filter.mpr ⟨hx, hl⟩
    have hres : Shipment d (sent ++ []) due
        (.resume last.1 ((Store.takeChunk 512 4096 (d.store.behind cursor)).filter fun x => !x.2.tomb)) := by
      refine h.resume (fun x hx => ?_) (fun n hn hd ht ha => .inr ?_) fun n hn hd ht _ =>
        ⟨fun x hx => absurd hx List.not_mem_nil, fun x hx heq => ?_⟩
      · obtain ⟨he, -⟩ := lookup_eq_some.mp (mem_liveEntries.mp (hchunk hx))
        exact ⟨hwf.located x.1 x.2 he, fun y hy hk => (indexed_newest hled he hy hk).imp_right (hdue y)⟩
      · obtain ⟨e, he⟩ := hentry hn hd ht
        exact Courier.ahead_resume.mp (Courier.ahead_collect hlast he ha)
      · refine (live_entry hwf).mp ⟨x.2, hchunk hx⟩ ?_
        rw [heq, hlive hn hd, payload_eq_none, ht]
    rw [List.append_nil] at hres
    exact ⟨hres, rfl⟩

/-- **The call reads a record**, and finds it. -/
theorem Shipment.attempt {key cursor : Bytes} {e : Entry} {left : Nat} {refs : List (Bytes × Entry)}
    (h : Shipment d sent due (.attempt key e left refs cursor)) (hled : Led d) :
    ∃ x : Record, x.Sized ∧ x.version ∈ d.log.map Record.version ∧
      (Courier.attempt key e left refs cursor).next d.store = (.resume cursor refs, [x.encode]) ∧
      Shipment d (sent ++ [x]) due (.resume cursor refs) := by
  obtain ⟨pend, hwf⟩ := hled.wf
  obtain ⟨⟨n₀, hn₀⟩, hnew⟩ := h.held (key, e) (List.mem_cons_self ..)
  have hread : d.store.readRaw e = some n₀.lifted.encode := by
    rw [readRaw_eq hwf.files (key, e), Store.recordAt, hn₀.readRecord]
    rfl
  have horigin := hled.filed.origin _ _ hn₀.holds
  refine ⟨n₀.lifted, hn₀.holds.sized.lifted, ?_, ?_, ?_⟩
  · rwa [Record.lifted_version]
  · rw [Courier.next, hread]
  refine h.resume (fun x hx => h.held x (List.mem_cons_of_mem _ hx)) (fun n hn hd ht ha => ?_) fun n hn hd ht hh => ?_
  · rcases ha with hk | ha
    · -- The record read is as new as the newest one, so it is that one.
      obtain ⟨r₀, hr₀, heq⟩ := List.mem_map.mp horigin
      have hkey : r₀.key = n₀.key := congrArg Prod.fst heq
      have hseq : r₀.seq = n₀.seq := UInt64.toNat_inj.mp (congrArg (·.2.1) heq)
      have hle : r₀.seq ≤ n.seq := hn.2 r₀ hr₀ (by rw [hkey, hn₀.key, hk])
      have hge : n.seq ≤ r₀.seq := by
        rw [hseq, hn₀.seq]
        exact (hnew n hn.1 hk).resolve_right hd
      refine .inl (List.mem_singleton.mpr ?_)
      rw [Record.lifted_version, ← heq, eq_of_seq_eq hled.filed.ascending hr₀ hn.1 (UInt64.le_antisymm hle hge)]
    · exact .inr ha
  · refine ⟨fun x hx => ?_, fun x hx => hh x (List.mem_cons_of_mem _ hx)⟩
    rw [List.mem_singleton.mp hx, Record.lifted_key, hn₀.key]
    exact hh (key, e) (List.mem_cons_self ..)

/-- **A group is forwarded** after the call has returned. -/
theorem Shipment.forward {pre g later : List Record} (h : Shipment d sent (g ++ later) .done) (hled : Led d)
    (hlog : d.log = pre ++ (g ++ later)) : Shipment d (sent ++ g) later .done where
  moving := h.moving
  held x hx := by cases hx
  newest n hn := by
    have hasc := hled.filed.ascending
    rw [hlog] at hasc
    rw [List.map_append]
    rcases h.newest n hn with hd | hs | ⟨-, ha⟩ | ⟨ht, hs, -⟩
    · rcases List.mem_append.mp hd with hg | hl
      · exact .inr (.inl (List.mem_append_right _ (List.mem_map_of_mem hg)))
      · exact .inl hl
    · exact .inr (.inl (List.mem_append_left _ hs))
    · exact ha.elim
    · by_cases hg : ∃ x ∈ g, x.key = n.key
      · -- A record of the key that is due is newer than all that is not, so the newest is due.
        obtain ⟨x, hx, hk⟩ := hg
        have hmem := hn.1
        have hxl : x ∈ d.log := hlog ▸ List.mem_append_right _ (List.mem_append_left _ hx)
        rw [hlog] at hmem
        rcases List.mem_append.mp hmem with hp | hd
        · have hlt := (List.pairwise_append.mp hasc).2.2 n hp x (List.mem_append_left _ hx)
          exact absurd (hn.2 x hxl hk) (UInt64.not_le.mpr hlt)
        · rcases List.mem_append.mp hd with hd | hd
          · exact .inr (.inl (List.mem_append_right _ (List.mem_map_of_mem hd)))
          · exact .inl hd
      · refine .inr (.inr (.inr ⟨ht, fun x hx => ?_, fun x hx => by cases hx⟩))
        exact (List.mem_append.mp hx).elim (hs x) fun hx hk => hg ⟨x, hx, hk⟩

/-! ### A follower that is being rebuilt -/

/-- The call of `SnapshotRecords`; with the backlog done it has returned. -/
def Backlog.courier : Backlog → Option Courier
  | .shipping c => some c
  | .live => some .done
  | _ => none

/-- The resync is still on the way, or the follower has been emptied and sent `got` since. -/
def Emptied (wire : List Frame) (f : Store) (got ws : List (List Record)) : Prop :=
  (got = [] ∧ ∃ noise rest, wire = noise ++ .fullSync :: rest ∧ Carries noise [] ∧ Carries rest ws) ∨
    ∃ f₁, (f₁.view = fun _ => none) ∧ f₁.seq = 0 ∧ Received f₁ f got.flatten ∧ Carries wire ws

structure Rebuilding (r : Relay) (got ws due : List (List Record)) : Prop where
  led : Led r.desk
  queued : Queued r.desk r.ch r.dropped due
  sound : r.broken = false
  ready : Ready r.follower
  emptied : Emptied r.wire r.follower got ws
  origin : ∀ x ∈ (got ++ ws).flatten, x.version ∈ r.desk.log.map Record.version
  shipment : ∃ c, r.backlog.courier = some c ∧ Shipment r.desk (got ++ ws).flatten due.flatten c

/-- The follower has asked for a resync, or will be sent one. -/
structure Restarting (r : Relay) (due : List (List Record)) : Prop where
  led : Led r.desk
  queued : Queued r.desk r.ch r.dropped due
  sound : r.broken = false
  ready : Ready r.follower
  start : r.backlog = .start
  full : r.fromSeq = 0 ∨ r.fromSeq < r.desk.store.mergeSeq
  wire : Carries r.wire []

variable {r : Relay} {f f' : Store} {got ws dues more : List (List Record)} {wire frames : List Frame}
    {frame : Frame} {q : UInt64}

theorem Emptied.send (h : Emptied wire f got ws) (hmore : Carries frames more) :
    Emptied (wire ++ frames) f got (ws ++ more) := by
  rcases h with ⟨hgot, noise, rest, rfl, hnoise, hrest⟩ | ⟨f₁, hview, hseq, hr, hwire⟩
  · exact .inl ⟨hgot, noise, rest ++ frames, by rw [List.append_assoc, List.cons_append], hnoise, hrest.append hmore⟩
  · exact .inr ⟨f₁, hview, hseq, hr, hwire.append hmore⟩

/-- **The follower takes a frame**; the one that orders the resync empties it. -/
theorem Emptied.deliver (h : Emptied (frame :: wire) f got ws) (hf : Ready f) (hid : f.nextID + 1 < 2 ^ 32) :
    ∃ f' now later, receive f frame = (f', none) ∧ Ready f' ∧ ws = now ++ later ∧
      Emptied wire f' (got ++ now) later := by
  rcases h with ⟨rfl, noise, rest, heq, hnoise, hrest⟩ | ⟨f₁, hview, hseq, hr, hwire⟩
  · cases noise with
    | nil =>
      cases heq
      obtain ⟨f', hreset, hclear⟩ := hf.wf.reset hid
      exact ⟨f', [], ws, hreset, .cleared hclear, rfl, .inr ⟨f', hclear.view, hclear.seq, .refl hclear.wf, hrest⟩⟩
    | cons x noise =>
      cases heq
      obtain ⟨f', now, later, hreceive, hnil, hr, hnoise⟩ := hf.deliver hid hnoise
      obtain ⟨rfl, rfl⟩ := List.append_eq_nil_iff.mp hnil.symm
      exact ⟨f', [], ws, hreceive, hf.received hr, rfl, .inl ⟨rfl, noise, rest, rfl, hnoise, hrest⟩⟩
  · obtain ⟨f', now, later, hreceive, rfl, hr', hrest⟩ := hf.deliver hid hwire
    refine ⟨f', now, later, hreceive, hf.received hr', rfl, .inr ⟨f₁, hview, hseq, ?_, hrest⟩⟩
    rw [List.flatten_append]
    exact hr.trans hr'

/-! ### One signal -/

theorem due_unsent (h : Queued d ch dropped dues) : ∀ x ∈ d.pen.unsent.flatten, x ∈ dues.flatten := by
  obtain ⟨cs, lost, rfl, -⟩ := h.parts
  intro x hx
  rw [List.flatten_append]
  exact List.mem_append_right _ hx

theorem Rebuilding.send {backlog : Backlog} {c : Courier} (h : Rebuilding r got ws dues) (hwire : Carries frames more)
    (horigin : ∀ x ∈ more.flatten, x.version ∈ r.desk.log.map Record.version) (hc : backlog.courier = some c)
    (hship : Shipment r.desk ((got ++ ws).flatten ++ more.flatten) dues.flatten c) :
    Rebuilding {r with backlog := backlog, wire := r.wire ++ frames} got (ws ++ more) dues where
  led := h.led
  queued := h.queued
  sound := h.sound
  ready := h.ready
  emptied := h.emptied.send hwire
  origin x hx := by
    rw [← List.append_assoc, List.flatten_append] at hx
    exact (List.mem_append.mp hx).elim (h.origin x) (horigin x)
  shipment := by
    rw [← List.append_assoc, List.flatten_append]
    exact ⟨c, hc, hship⟩

theorem Rebuilding.pause {backlog : Backlog} {c : Courier} (h : Rebuilding r got ws dues) (hwire : Carries frames [])
    (hc : backlog.courier = some c) (hship : Shipment r.desk (got ++ ws).flatten dues.flatten c) :
    Rebuilding {r with backlog := backlog, wire := r.wire ++ frames} got ws dues := by
  have hsend := h.send hwire (fun x hx => absurd hx List.not_mem_nil) hc (by rwa [List.flatten_nil, List.append_nil])
  rwa [List.append_nil] at hsend

/-- **A step of the snapshot.** -/
theorem Rebuilding.catchUp (h : Rebuilding r got ws dues) (torn : Bool) :
    ∃ ws', Rebuilding (r.act (.catchUp torn)) got ws' dues := by
  obtain ⟨c, hc, hship⟩ := h.shipment
  have hlive : Carries [.live] [] := .idle rfl Frame.noConfusion
  cases hb : r.backlog with
  | start | checked | scanning _ _ =>
    rw [hb] at hc
    cases hc
  | live =>
    rw [hb] at hc
    cases hc
    rw [act_catchUp (by rw [hb, Backlog.next]) List.not_mem_nil]
    exact ⟨ws, h.pause .nil rfl hship⟩
  | shipping c' =>
    rw [hb] at hc
    cases hc
    cases c with
    | done =>
      rw [act_catchUp (by rw [hb, Backlog.next]) hlive.plain]
      exact ⟨ws, h.pause hlive rfl hship⟩
    | resolve key left refs cursor => exact absurd rfl (hship.moving key left refs cursor)
    | collect cursor =>
      obtain ⟨hnext, hnone⟩ := hship.collect h.led (due_unsent h.queued)
      have hstep : r.backlog.next r.fromSeq r.desk torn =
          (.shipping ((Courier.collect cursor).next r.desk.store).1, []) := by
        rw [hb, Backlog.next, hnone, List.map_nil]
        exact Courier.noConfusion
      rw [act_catchUp hstep List.not_mem_nil]
      exact ⟨ws, h.pause .nil rfl hnext⟩
    | attempt key e left refs cursor =>
      obtain ⟨x, hsized, horigin, hnext, hship⟩ := hship.attempt h.led
      have hstep : r.backlog.next r.fromSeq r.desk torn = (.shipping (.resume cursor refs), [.replData x.encode]) := by
        rw [hb, Backlog.next, hnext, List.map_singleton]
        exact Courier.noConfusion
      have hrecord := Carries.record hsized
      rw [act_catchUp hstep hrecord.plain]
      refine ⟨ws ++ [[x]], h.send hrecord (fun y hy => ?_) rfl ?_⟩
      · rw [List.flatten_singleton] at hy
        rwa [List.mem_singleton.mp hy]
      · rwa [List.flatten_singleton]

/-- **The resync is ordered.** -/
theorem rebuilding_start (hled : Led r.desk) (hqueued : Queued r.desk r.ch r.dropped dues) (hsound : r.broken = false)
    (hready : Ready r.follower) (hb : r.backlog = .start) (hfull : r.fromSeq = 0 ∨ r.fromSeq < r.desk.store.mergeSeq)
    (hwire : Carries r.wire []) (torn : Bool) :
    (r.act (.catchUp torn)).resynced = true ∧ (r.act (.catchUp torn)).rebuilding = true ∧
      Rebuilding (r.act (.catchUp torn)) [] [] dues := by
  have hact : r.act (.catchUp torn) = {r with
      backlog := .shipping (.collect none), wire := r.wire ++ [.fullSync], resynced := true, rebuilding := true} := by
    simp [Relay.act, hb, Backlog.next, hfull]
  rw [hact]
  exact ⟨rfl, rfl, hled, hqueued, hsound, hready, .inl ⟨rfl, r.wire, [], rfl, hwire, .nil⟩,
    fun x hx => absurd hx List.not_mem_nil,
    .collect none, rfl, shipment_start r.desk dues.flatten⟩

theorem Rebuilding.write (h : Rebuilding r got ws dues) (hled : Led d) (hg : Grew r.desk d) :
    ∃ dues', Rebuilding {r with desk := d} got ws dues' := by
  obtain ⟨c, hc, hship⟩ := h.shipment
  cases hg with
  | still hlog hunsent _ _ hbytes =>
    exact ⟨dues, hled, h.queued.still hlog hunsent, h.sound, h.ready, h.emptied, hlog ▸ h.origin, c, hc,
      hship.still hlog hbytes⟩
  | wrote recs hidle hunsent hlog _ _ _ hlocated =>
    refine ⟨dues ++ [recs], hled, h.queued.wrote hled hidle hunsent hlog, h.sound, h.ready, h.emptied,
      fun x hx => ?_, c, hc, ?_⟩
    · show x.version ∈ d.log.map Record.version
      rw [hlog, List.map_append]
      exact List.mem_append_left _ (h.origin x hx)
    · rw [List.flatten_concat]
      exact hship.wrote hlog hlocated

theorem Restarting.write (h : Restarting r dues) (hled : Led d) (hg : Grew r.desk d) :
    ∃ dues', Restarting {r with desk := d} dues' := by
  have hfull : r.fromSeq = 0 ∨ r.fromSeq < d.store.mergeSeq := hg.mergeSeq ▸ h.full
  cases hg with
  | still hlog hunsent => exact ⟨dues, {h with led := hled, queued := h.queued.still hlog hunsent, full := hfull}⟩
  | wrote recs hidle hunsent hlog =>
    exact ⟨dues ++ [recs], {h with led := hled, queued := h.queued.wrote hled hidle hunsent hlog, full := hfull}⟩

theorem Rebuilding.publish (h : Rebuilding r got ws dues) (hfull : r.dropped = true → streamBuffer ≤ r.ch.length) :
    Rebuilding (r.act .publish) got ws dues := by
  obtain ⟨pen, ch, dropped, hact, hled, hqueued⟩ := act_publish h.led h.queued hfull
  obtain ⟨c, hc, hship⟩ := h.shipment
  rw [hact]
  exact {h with led := hled, queued := hqueued, shipment := ⟨c, hc, hship.still rfl rfl⟩}

theorem Restarting.publish (h : Restarting r dues) (hfull : r.dropped = true → streamBuffer ≤ r.ch.length) :
    Restarting (r.act .publish) dues := by
  obtain ⟨pen, ch, dropped, hact, hled, hqueued⟩ := act_publish h.led h.queued hfull
  rw [hact]
  exact {h with led := hled, queued := hqueued}

theorem Rebuilding.compact (h : Rebuilding r got ws dues) (hf : Fits r.desk.store .compact)
    (hwhen : r.backlog = .start ∨ r.backlog = .live) : Rebuilding (r.act .compact) got ws dues := by
  obtain ⟨s, hact, hled, hqueued, -⟩ := act_compact h.led h.queued hf
  obtain ⟨c, hc, hship⟩ := h.shipment
  have hdone : c = .done := by
    rcases hwhen with hb | hb <;> rw [hb] at hc <;> cases hc
    rfl
  subst hdone
  rw [hact]
  exact {h with led := hled, queued := hqueued,
                shipment := ⟨.done, hc, hship.moving, fun x hx => (by cases hx), hship.newest⟩}

theorem Restarting.compact (h : Restarting r dues) (hf : Fits r.desk.store .compact) :
    Restarting (r.act .compact) dues := by
  obtain ⟨s, hact, hled, hqueued, -, hmerge⟩ := act_compact h.led h.queued hf
  rw [hact]
  exact {h with led := hled, queued := hqueued, full := h.full.imp_right fun hlt => UInt64.lt_of_lt_of_le hlt hmerge}

theorem Rebuilding.forward (h : Rebuilding r got ws dues) : ∃ ws' dues', Rebuilding (r.act .forward) got ws' dues' := by
  rw [Relay.act]
  split
  case h_2 => exact ⟨ws, dues, h⟩
  case h_1 raw rest hb hch =>
    obtain ⟨c, hc, hship⟩ := h.shipment
    obtain ⟨g, later, hdue, rfl, hqueued⟩ := (hch ▸ h.queued).forward
    obtain ⟨pre, hpre⟩ := h.queued.tail
    obtain ⟨hsized, ha⟩ := h.queued.sized g (hdue ▸ List.mem_cons_self ..)
    have hc := hc
    rw [hb] at hc
    cases hc
    rw [hdue, List.flatten_cons] at hship hpre
    refine ⟨ws ++ [g], later, h.led, hqueued, h.sound, h.ready, h.emptied.send (.group hsized ha),
      fun x hx => ?_, .done, ?_, ?_⟩
    · rw [← List.append_assoc, List.flatten_concat] at hx
      rcases List.mem_append.mp hx with hx | hx
      · exact h.origin x hx
      · refine List.mem_map_of_mem ?_
        rw [hpre]
        exact List.mem_append_right _ (List.mem_append_left _ hx)
    · show r.backlog.courier = some .done
      rw [hb]
      rfl
    · rw [← List.append_assoc, List.flatten_concat]
      exact hship.forward h.led hpre

theorem Rebuilding.heartbeat (h : Rebuilding r got ws dues) (epoch : UInt64) (leaderAddr : String) :
    Rebuilding (r.act (.heartbeat epoch leaderAddr)) got ws dues := by
  obtain ⟨c, hc, hship⟩ := h.shipment
  rw [Relay.act]
  split
  case h_1 => exact h.pause (.idle rfl Frame.noConfusion) hc hship
  case h_2 => exact h

theorem Rebuilding.deliver (h : Rebuilding r got ws dues) (hid : r.follower.nextID + 1 < 2 ^ 32) :
    ∃ got' ws', Rebuilding (r.act .deliver) got' ws' dues := by
  rw [Relay.act]
  split
  case h_1 => exact ⟨got, ws, h⟩
  case h_2 frame rest hwire =>
    have hemptied := h.emptied
    rw [hwire] at hemptied
    obtain ⟨f', now, later, hreceive, hready, rfl, hafter⟩ := hemptied.deliver h.ready hid
    rw [h.sound, hreceive]
    refine ⟨got ++ now, later, h.led, h.queued, rfl, hready, hafter, ?_, ?_⟩
    · rw [List.append_assoc]
      exact h.origin
    · rw [List.append_assoc]
      exact h.shipment

theorem Restarting.deliver (h : Restarting r dues) (hid : r.follower.nextID + 1 < 2 ^ 32) :
    Restarting (r.act .deliver) dues := by
  rw [Relay.act]
  split
  case h_1 => exact h
  case h_2 frame rest hwire =>
    have hcarries := h.wire
    rw [hwire] at hcarries
    obtain ⟨f', now, later, hreceive, hnil, hr, hrest⟩ := h.ready.deliver hid hcarries
    obtain ⟨-, rfl⟩ := List.append_eq_nil_iff.mp hnil.symm
    rw [h.sound, hreceive]
    exact {h with sound := rfl, ready := h.ready.received hr, wire := hrest}

theorem restarting_redial (hled : Led r.desk) (hready : Ready r.follower)
    (hfull : r.follower.seq = 0 ∨ r.follower.seq < r.desk.store.mergeSeq) (epoch : UInt64) (leaderAddr : String) :
    Restarting (r.act (.redial epoch leaderAddr)) r.desk.pen.unsent :=
  ⟨hled, queued_unsent hled, rfl, hready, rfl, hfull, .idle rfl Frame.noConfusion⟩

/-! ### Caught up -/

/-- Nothing is due. -/
theorem due_nil (h : Queued r.desk r.ch r.dropped dues) (hup : r.CaughtUp) : dues = [] := by
  obtain ⟨-, -, hch, hunsent, hdropped⟩ := hup
  obtain ⟨cs, lost, rfl, hcs, hlost⟩ := h.parts
  rw [hch] at hcs
  rw [List.map_eq_nil_iff.mp hcs.symm, hlost hdropped, hunsent]
  rfl

theorem liveMap_idle (h : Led d) (hunsent : d.pen.unsent = []) : d.store.liveMap = latest d.log := by
  cases h with
  | idle h => exact h.liveMap
  | logged => cases hunsent
  | indexed => cases hunsent

theorem Rebuilding.agrees (h : Rebuilding r got ws dues) (hup : r.CaughtUp) :
    r.follower.liveMap = latest r.desk.log := by
  obtain ⟨c, hc, hship⟩ := h.shipment
  have horigin := h.origin
  have hlog := h.led.filed.ascending
  rw [due_nil h.queued hup] at hship
  rw [hup.1] at hc
  cases hc
  rcases h.emptied with ⟨-, noise, rest, heq, -⟩ | ⟨f₁, hview, -, hr, hwire⟩
  · rw [hup.2.1] at heq
    exact absurd heq.symm (by simp)
  rw [hup.2.1] at hwire
  cases hwire.eq_nil
  rw [List.append_nil] at hship horigin
  have hnone (k : Bytes) : f₁.liveMap k = none := by rw [Store.liveMap, Newest.live, hview, Option.bind_none]
  funext k
  rcases newest_or_absent r.desk.log k with habsent | ⟨n, hn, rfl⟩
  · rw [latest_absent hlog habsent, liveMap_untouched hr fun x hx hk => ?_, hnone]
    obtain ⟨y, hy, heq⟩ := List.mem_map.mp (horigin x hx)
    exact habsent y hy ((congrArg Prod.fst heq).trans hk)
  · rcases hship.newest n hn with hd | hs | ⟨-, ha⟩ | ⟨ht, hs, -⟩
    · cases hd
    · refine hn.received hlog hr horigin hs fun z hz => ?_
      rw [hview] at hz
      cases hz
    · exact ha.elim
    · rw [hn.latest hlog, liveMap_untouched hr hs, hnone, payload_eq_none.mpr ht]

theorem Rebuilding.behind (h : Rebuilding r got ws dues) (hup : r.CaughtUp) : r.follower.seq ≤ r.desk.store.seq := by
  rcases h.emptied with ⟨-, noise, rest, heq, -⟩ | ⟨f₁, -, hzero, hr, -⟩
  · rw [hup.2.1] at heq
    exact absurd heq.symm (by simp)
  obtain ⟨-, -, htop⟩ := topSeq_spec f₁.seq got.flatten
  rw [← hr.seq] at htop
  rcases htop with heq | ⟨x, hx, heq⟩
  · rw [heq, hzero]
    exact UInt64.zero_le
  · obtain ⟨y, hy, hver⟩ := List.mem_map.mp (h.origin x (by
      rw [List.flatten_append]
      exact List.mem_append_left _ hx))
    have hseq : y.seq = x.seq := UInt64.toNat_inj.mp (congrArg (·.2.1) hver)
    rw [← heq, ← hseq]
    exact h.led.filed.passed y hy

/-- **A rebuilt follower that has caught up** is on the log again. -/
theorem Rebuilding.trailing (h : Rebuilding r got ws dues) (hup : r.CaughtUp) (hresynced : r.resynced = true) :
    Trailing r r.desk.store.seq r.follower [] [] [] where
  led := h.led
  queued := due_nil h.queued hup ▸ h.queued
  sound := h.sound
  base := h.ready
  below := h.behind hup
  passed := UInt64.le_refl _
  spans k _ := congrFun (h.agrees hup) k
  stood hno := by
    rw [hresynced] at hno
    cases hno
  received := .refl h.ready.wf
  wire := hup.2.1 ▸ .nil
  closed pre hpre := by
    rw [List.prefix_nil.mp hpre]
    exact closed_nil
  later x hx := by cases hx
  reach := by
    rw [hup.1]
    exact fun x hx hlt => absurd (h.led.filed.passed x hx) (UInt64.not_le.mpr hlt)

theorem Trailing.agrees {f₀ : Store} (h : Trailing r q f₀ got ws dues) (hup : r.CaughtUp) :
    r.follower.liveMap = latest r.desk.log := by
  have hreach := h.reach
  have hwire := h.wire
  rw [hup.1, due_nil h.queued hup] at hreach
  rw [hup.2.1] at hwire
  cases hwire.eq_nil
  rw [List.append_nil] at hreach
  have hspans : Spans r.desk.log r.desk.store.seq r.follower :=
    h.got_closed.spans h.led.filed.ascending h.received h.base h.below h.spans fun y hy hlt _ =>
      (hreach y hy hlt).resolve_right List.not_mem_nil
  exact funext fun k => hspans k fun x hx _ => h.led.filed.passed x hx

/-! ### Any number of signals -/

/-- What every signal keeps. -/
inductive Relayed (r : Relay) : Prop
  | trailing (q : UInt64) (f₀ : Store) (got ws due : List (List Record)) (h : Trailing r q f₀ got ws due)
  | restarting (due : List (List Record)) (hresynced : r.resynced = true) (hflag : r.rebuilding = true)
      (h : Restarting r due)
  | rebuilding (got ws due : List (List Record)) (hresynced : r.resynced = true) (hflag : r.rebuilding = true)
      (h : Rebuilding r got ws due)

theorem Relayed.act (h : Relayed r) {a : Signal} (hrule : Regular r a) : Relayed (r.act a) := by
  obtain ⟨hresynced, hflag⟩ := act_flags r a
  cases a with
  | write a =>
    cases h with
    | trailing q f₀ got ws due h =>
      obtain ⟨hled, hg⟩ := h.led.step hrule
      obtain ⟨due', h'⟩ := h.write hled hg
      exact .trailing _ _ _ _ _ h'
    | restarting due hr hf h =>
      obtain ⟨hled, hg⟩ := h.led.step hrule
      obtain ⟨due', h'⟩ := h.write hled hg
      exact .restarting _ hr hf h'
    | rebuilding got ws due hr hf h =>
      obtain ⟨hled, hg⟩ := h.led.step hrule
      obtain ⟨due', h'⟩ := h.write hled hg
      exact .rebuilding _ _ _ hr hf h'
  | publish =>
    cases h with
    | trailing q f₀ got ws due h => exact .trailing _ _ _ _ _ (h.publish hrule)
    | restarting due hr hf h => exact .restarting _ (hresynced hr) (hflag hf) (h.publish hrule)
    | rebuilding got ws due hr hf h => exact .rebuilding _ _ _ (hresynced hr) (hflag hf) (h.publish hrule)
  | compact =>
    cases h with
    | trailing q f₀ got ws due h => exact .trailing _ _ _ _ _ (h.compact hrule.1 hrule.2)
    | restarting due hr hf h => exact .restarting _ (hresynced hr) (hflag hf) (h.compact hrule.1)
    | rebuilding got ws due hr hf h => exact .rebuilding _ _ _ (hresynced hr) (hflag hf) (h.compact hrule.1 hrule.2)
  | catchUp torn =>
    cases h with
    | trailing q f₀ got ws due h =>
      rcases h.catchUp torn with ⟨ws', h'⟩ | ⟨hb, hfull, rfl⟩
      · exact .trailing _ _ _ _ _ h'
      · obtain ⟨hr, hf, h'⟩ := rebuilding_start h.led h.queued h.sound h.ready hb hfull h.wire torn
        exact .rebuilding _ _ _ hr hf h'
    | restarting due _ _ h =>
      obtain ⟨hr, hf, h'⟩ := rebuilding_start h.led h.queued h.sound h.ready h.start h.full h.wire torn
      exact .rebuilding _ _ _ hr hf h'
    | rebuilding got ws due hr hf h =>
      obtain ⟨ws', h'⟩ := h.catchUp torn
      exact .rebuilding _ _ _ (hresynced hr) (hflag hf) h'
  | forward =>
    cases h with
    | trailing q f₀ got ws due h =>
      obtain ⟨ws', due', h'⟩ := h.forward
      exact .trailing _ _ _ _ _ h'
    | restarting due hr hf h =>
      have hact : r.act .forward = r := by rw [Relay.act, h.start]
      rw [hact]
      exact .restarting due hr hf h
    | rebuilding got ws due hr hf h =>
      obtain ⟨ws', due', h'⟩ := h.forward
      exact .rebuilding _ _ _ (hresynced hr) (hflag hf) h'
  | heartbeat epoch leaderAddr =>
    cases h with
    | trailing q f₀ got ws due h => exact .trailing _ _ _ _ _ (h.heartbeat epoch leaderAddr)
    | restarting due hr hf h =>
      have hact : r.act (.heartbeat epoch leaderAddr) = r := by rw [Relay.act, h.start]
      rw [hact]
      exact .restarting due hr hf h
    | rebuilding got ws due hr hf h => exact .rebuilding _ _ _ (hresynced hr) (hflag hf) (h.heartbeat epoch leaderAddr)
  | deliver =>
    cases h with
    | trailing q f₀ got ws due h =>
      obtain ⟨got', ws', h'⟩ := h.deliver hrule
      exact .trailing _ _ _ _ _ h'
    | restarting due hr hf h => exact .restarting _ (hresynced hr) (hflag hf) (h.deliver hrule)
    | rebuilding got ws due hr hf h =>
      obtain ⟨got', ws', h'⟩ := h.deliver hrule
      exact .rebuilding _ _ _ (hresynced hr) (hflag hf) h'
  | redial epoch leaderAddr =>
    cases h with
    | trailing q f₀ got ws due h => exact .trailing _ _ _ _ _ (h.redial epoch leaderAddr)
    | restarting due hr hf h =>
      exact .restarting _ (hresynced hr) (hflag hf) (restarting_redial h.led h.ready (hrule hf) epoch leaderAddr)
    | rebuilding got ws due hr hf h =>
      exact .restarting _ (hresynced hr) (hflag hf) (restarting_redial h.led h.ready (hrule hf) epoch leaderAddr)

theorem Relayed.step (h : Relayed r) {a : Signal} (hrule : Regular r a) : Relayed (r.step a) := by
  have hact := h.act hrule
  rw [Relay.step]
  generalize r.act a = r' at hact
  by_cases hup : r'.CaughtUp
  · cases hact with
    | trailing q f₀ got ws due h => exact .trailing _ _ _ _ _ (h.flag _)
    | restarting due hr hf h =>
      have := hup.1
      rw [h.start] at this
      cases this
    | rebuilding got ws due hr hf h => exact .trailing _ _ _ _ _ ((h.trailing hup hr).flag _)
  · have hsame : {r' with rebuilding := r'.rebuilding && !decide r'.CaughtUp} = r' := by
      rw [decide_eq_false hup, Bool.not_false, Bool.and_true]
    rw [hsame]
    exact hact

/-- A demoted leader asks for a resync; any other follower is on the log. -/
theorem relayed_attached {c : Chronicle} (h : Chronicled c) (hf : Ready f) (wasLeader : Bool)
    (hstands : wasLeader = false → f.seq ≤ c.store.seq ∧ f.liveMap = latest (upTo f.seq c.log)) (epoch : UInt64)
    (leaderAddr : String) : Relayed (attached c f wasLeader epoch leaderAddr) := by
  cases wasLeader with
  | false => exact .trailing _ _ _ _ _ (trailing_attached h hf (hstands rfl).1 (hstands rfl).2 epoch leaderAddr)
  | true =>
    have hled : Led ⟨c.store, c.log, .idle, []⟩ := .idle h
    exact .restarting [] rfl rfl ⟨hled, queued_unsent hled, rfl, hf, rfl, .inl rfl, .idle rfl Frame.noConfusion⟩

end Rebuild

/-- Both keys change while the snapshot is on its way, one before it is read and one after. -/
def changingSignals : List Signal :=
  [.catchUp false, .catchUp false, .write (.log (.put 0 [1] [5])), .write .index, .publish, .catchUp false,
    .write (.check [2]), .write (.log (.delete 0 [2])), .catchUp false, .catchUp false, .catchUp false,
      .write .index, .publish,
    .forward, .forward, .deliver, .deliver, .deliver, .deliver, .deliver, .deliver, .deliver]

/-- A follower that is cut off inside its snapshot, behind the newest record, and dials again. -/
example :
    let r := (relayMachine.run (attached (chronicleMachine.run ⟨Store.init ⟨0, .never⟩, []⟩
      [.put 0 [2] [7], .put 0 [1] [8]]).1 (wrote []) false 1 "l:1")
      [.catchUp false, .catchUp false, .catchUp false, .deliver, .deliver, .deliver, .redial 1 "l:1",
        .catchUp false, .catchUp false, .catchUp false, .catchUp false, .catchUp false, .catchUp false,
          .deliver, .deliver]).1
    r.CaughtUp ∧ r.desk.store.get [2] = .ok [7] ∧ r.follower.get [2] = .error .keyNotFound := by
  decide +kernel

end Gokv.Cluster
