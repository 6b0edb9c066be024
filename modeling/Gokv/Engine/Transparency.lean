import Gokv.Base.Forgetful
import Gokv.Engine.Convergence
import Gokv.Engine.Lineage
import Gokv.Engine.Restart

/-! Compaction on a replica.

Two copies of a store are given the same frames, and one of them is compacted in between.
Compaction drops the index entries of deleted keys, so the compacted copy no longer knows
which numbers those deletions had: an older value that arrives once more is taken by it
and refused by the other (`compact_revives`). The copies otherwise agree, and
`compaction_transparent` says that this is all: they show the same map after every frame
exactly if no frame brings a value of a key that the uncompacted copy knows to be deleted
at that number or later, and of which the compacted one holds nothing as new. -/
namespace Gokv.Engine
open Base

/-- What happens to a replica. -/
inductive Delivery where
  | apply (raw : Bytes)
  | compact
  deriving DecidableEq, Repr

section Transparency
variable [Checksum]

def Store.deliver (s : Store) : Delivery → Store
  | .apply raw => (s.applyRaw raw).1
  | .compact => s.compact.1

def replicaMachine : Machine Delivery Store Unit := ⟨fun s a => (s.deliver a, ())⟩

/-- The same without the compactions. -/
def uncompacted (acts : List Delivery) : List Delivery := acts.filter (· ≠ .compact)

/-- Both copies side by side. -/
def copiesMachine : Machine Delivery (Store × Store) Unit :=
  ⟨fun p a => ((p.1.deliver a, if a = .compact then p.2 else p.2.deliver a), ())⟩

theorem copies_run (s t : Store) (acts : List Delivery) : (copiesMachine.run (s, t) acts).1 =
    ((replicaMachine.run s acts).1, (replicaMachine.run t (uncompacted acts)).1) := by
  induction acts generalizing s t with
  | nil => rfl
  | cons a rest ih =>
    cases a with
    | apply raw => exact ih (s.deliver (.apply raw)) (t.deliver (.apply raw))
    | compact => exact ih (s.deliver .compact) t

/-- Records within the width of the offsets, and ids left for the files. -/
def Delivery.Room (p : Store × Store) : Delivery → Prop
  | .apply raw => Addressable (delivered raw) ∧ p.1.nextID + 1 < 2 ^ 32 ∧ p.2.nextID + 1 < 2 ^ 32
  | .compact => p.1.nextID + p.1.keys.size + 2 < 2 ^ 32

/-- No record of the frame that is the newest of its key there brings back a key: a value
newer than all the compacted copy holds of the key, where the other copy holds a deletion
at least as new. -/
def Delivery.Keeps (p : Store × Store) : Delivery → Prop
  | .apply raw => ∀ r ∈ delivered raw, (∀ r' ∈ delivered raw, r'.key = r.key → r'.seq ≤ r.seq) →
      ¬ Newest.Revives p.1.view p.2.view r.key (r.seq.toNat, r.payload)
  | .compact => True

/-- The two copies after some deliveries. -/
structure Copies (hist : List Record) (p : Store × Store) : Prop where
  stocked : Stocked hist p.1
  other : Wf .every p.2 []
  trails : Newest.Trails p.1.view p.2.view

variable {s s' t : Store} {hist : List Record} {raw : Bytes}

/-- A call takes in what it carries; one that does not parse carries nothing. -/
theorem Wf.deliver (h : Wf .every s []) (ha : Addressable (delivered raw)) (hid : s.nextID + 1 < 2 ^ 32) :
    Received s (s.applyRaw raw).1 (delivered raw) := by
  rw [delivered] at ha ⊢
  cases hp : parseRaw raw.length raw with
  | error e =>
    rw [Store.applyRaw, hp]
    exact ⟨h, rfl, (topSeq_nil s.seq).symm, rfl, rfl, fun _ _ hr => .inl hr⟩
  | ok recs =>
    rw [hp] at ha
    obtain ⟨rfl, hs⟩ := parseRaw_ok hp
    obtain ⟨s', top, hs', hr, -⟩ := h.applyRaw hs ha hid
    rw [hs']
    exact hr

/-- **A compaction forgets deletions**, and nothing else. -/
theorem Compacted.view (h : Compacted .every s s') (hs : Wf .every s []) (k : Bytes) :
    s'.view k = s.view k ∨ s'.view k = none ∧ ∀ q v, s.view k ≠ some (q, some v) := by
  have hlive := congrFun h.liveMap k
  cases hk : s.liveMap k with
  | none =>
    refine .inr ⟨?_, fun q v hv => ?_⟩
    · cases he : s'.keys[k]? with
      | none => rw [Store.view, Index.versions, he]; rfl
      | some e =>
        obtain ⟨r, hr, hr'⟩ := h.inv.toWf.liveMap_some he
        have hput := h.values _ r hr.holds
        rw [hlive, hk] at hr'
        rw [payload_eq_none.mp hr'.symm] at hput
        cases hput
    · rw [Store.liveMap, Newest.live, hv] at hk
      cases hk
  | some v =>
    left
    cases he : s.keys[k]? with
    | none =>
      rw [Store.liveMap_none he] at hk
      cases hk
    | some e =>
      obtain ⟨r, hr, hr'⟩ := hs.liveMap_some he
      have hput : e.tomb = false := by
        rw [← hr.tomb, ← Bool.not_eq_true, ← payload_eq_none, ← hr', hk]
        exact Option.some_ne_none v
      obtain ⟨e', he', hseq, -⟩ := h.kept k e he hput
      obtain ⟨r', hloc', hlive'⟩ := h.inv.toWf.liveMap_some he'
      rw [Store.view, Store.view, Index.versions, Index.versions, he, he', Option.map_some, Option.map_some, hseq,
        hr.valueAt_eq, hloc'.valueAt_eq, ← hr', ← hlive', hlive]

variable (hdist : hist.Pairwise fun r r' => r.seq ≠ r'.seq)
include hdist

omit [Checksum] in
/-- The newest offer of a key is the version of its newest record. -/
theorem newest_version {recs : List Record} (hdrawn : ∀ r ∈ recs, Drawn hist r) {k : Bytes} {x : Nat × Option Bytes} :
    Newest.offerAll (fun _ => none) (recs.map Record.version) k = some x ↔
      ∃ r ∈ recs, (∀ r' ∈ recs, r'.key = r.key → r'.seq ≤ r.seq) ∧ r.version = (k, x) := by
  have hidx := Newest.indexes_offerAll (recs.map Record.version)
  have hcovers {r : Record} (hr : r ∈ recs) : ∃ y, Newest.offerAll (fun _ => none) (recs.map Record.version) r.key =
      some y ∧ r.seq.toNat ≤ y.1 := hidx.covers r.key (r.seq.toNat, r.payload) (List.mem_map.mpr ⟨r, hr, rfl⟩)
  constructor
  · intro hx
    obtain ⟨r, hr, hrx⟩ := List.mem_map.mp (hidx.sound k x hx)
    obtain ⟨rfl, rfl⟩ := Prod.mk.inj hrx
    refine ⟨r, hr, fun r' hr' hk => ?_, rfl⟩
    obtain ⟨y, hy, hle⟩ := hcovers hr'
    rw [hk, hx] at hy
    cases hy
    exact UInt64.le_iff_toNat_le.mpr hle
  · rintro ⟨r, hr, hmax, hrx⟩
    obtain ⟨rfl, rfl⟩ := Prod.mk.inj hrx
    obtain ⟨y, hy, hle⟩ := hcovers hr
    obtain ⟨r', hr', hry⟩ := List.mem_map.mp (hidx.sound r.key y hy)
    obtain ⟨hk, rfl⟩ := Prod.mk.inj hry
    have hseq : r'.seq = r.seq :=
      UInt64.le_antisymm (hmax r' hr' hk) (UInt64.le_iff_toNat_le.mpr hle)
    rw [hy, hseq, (hdrawn r' hr').agree hdist (hdrawn r hr) hseq]

theorem Copies.step {p : Store × Store} (h : Copies hist p) {a : Delivery} (hroom : a.Room p)
    (hdrawn : ∀ raw, a = .apply raw → ∀ r ∈ delivered raw, Drawn hist r) : Copies hist (copiesMachine.step p a).1 := by
  cases a with
  | apply raw =>
    obtain ⟨ha, hid, hid'⟩ := hroom
    have hr := h.stocked.inv.toWf.deliver ha hid
    have hr' := h.other.deliver ha hid'
    refine ⟨h.stocked.received hdist hr (hdrawn raw rfl), hr'.wf, ?_⟩
    show Newest.Trails (p.1.applyRaw raw).1.view (p.2.applyRaw raw).1.view
    rw [hr.view, hr'.view]
    exact h.trails.offerAll _
  | compact =>
    obtain ⟨s', hs', hc⟩ := h.stocked.inv.compact h.stocked.bounded h.stocked.marked hroom
    have hstep : (copiesMachine.step p .compact).1 = (s', p.2) := by
      show (p.1.compact.1, p.2) = _
      rw [hs']
    rw [hstep]
    refine ⟨?_, h.other, h.trails.forget fun k => hc.view h.stocked.inv.toWf k⟩
    have hdraws : Draws hist p.1 (.op .compact) := ⟨nofun, hroom, fun _ r hr => absurd hr List.not_mem_nil⟩
    have hop := h.stocked.op hdraws
    have : (p.1.apply .compact).1 = s' := congrArg Prod.fst hs'
    rwa [this] at hop

/-- **One delivery** leaves the copies alike exactly if it keeps what is deleted. -/
theorem Copies.alike_iff {p : Store × Store} (h : Copies hist p) {a : Delivery} (hroom : a.Room p)
    (hdrawn : ∀ raw, a = .apply raw → ∀ r ∈ delivered raw, Drawn hist r) (halike : p.1.liveMap = p.2.liveMap) :
    a.Keeps p ↔ (copiesMachine.step p a).1.1.liveMap = (copiesMachine.step p a).1.2.liveMap := by
  cases a with
  | apply raw =>
    obtain ⟨ha, hid, hid'⟩ := hroom
    have hr := h.stocked.inv.toWf.deliver ha hid
    have hr' := h.other.deliver ha hid'
    have hiff := h.trails.live_iff halike ((delivered raw).map Record.version)
    rw [← hr.view, ← hr'.view] at hiff
    refine Iff.trans ⟨fun hkeep k x hx => ?_, fun hkeep r hr hmax => ?_⟩ hiff.symm
    · obtain ⟨r, hr, hmax, hrx⟩ := (newest_version hdist (hdrawn raw rfl)).mp hx
      obtain ⟨rfl, rfl⟩ := Prod.mk.inj hrx
      exact hkeep r hr hmax
    · exact hkeep r.key _ ((newest_version hdist (hdrawn raw rfl)).mpr ⟨r, hr, hmax, rfl⟩)
  | compact =>
    obtain ⟨s', hs', hc⟩ := h.stocked.inv.compact h.stocked.bounded h.stocked.marked hroom
    refine iff_of_true trivial ?_
    show p.1.compact.1.liveMap = p.2.liveMap
    rw [hs', hc.liveMap, halike]

omit hdist

/-! ### Reopening -/

/-- No tombstone among the members of a batch. -/
def Puts (s : Store) : Prop := ∀ i r, Holds .every s.dir.bytes i r → r.batch = true → r.payload ≠ none

theorem Puts.step (h : Puts s) (hs : Stocked hist s) {a : Delivery} {p : Store × Store} (hp : p.1 = s)
    (hroom : a.Room p)
    (hputs : ∀ raw, a = .apply raw → ∀ r ∈ delivered raw, r.batch = true → r.payload ≠ none) : Puts (s.deliver a) := by
  subst hp
  cases a with
  | apply raw =>
    obtain ⟨ha, hid, -⟩ := hroom
    intro i r hr
    rcases (hs.inv.toWf.deliver ha hid).holds i r hr with hr | hr
    · exact h i r hr
    · exact hputs raw rfl r hr
  | compact =>
    obtain ⟨s', hs', hc⟩ := hs.inv.compact hs.bounded hs.marked hroom
    show Puts p.1.compact.1
    rw [hs']
    intro i r hr _ hnone
    have hput := hc.values i r hr
    rw [payload_eq_none.mp hnone] at hput
    cases hput

/-- **What is deleted stays deleted** across a close and a reopening. -/
theorem Stocked.reopen (h : Stocked hist s) (hputs : Puts s) (opts : Options) (hid : s.nextID + 1 < 2 ^ 32) :
    ∃ s', openStore opts s.close = .ok s' ∧ ∀ k, s.liveMap k = none → s'.liveMap k = none := by
  obtain ⟨hbytes, hhints, -⟩ := h.inv.toWf.close
  have hids : ∀ id, id ∈ s.close.data → id + 2 < 2 ^ 32 := fun id hmem => by
    obtain ⟨b, hb⟩ := Dir.mem_data.mp hmem
    rw [hbytes] at hb
    have := h.inv.fresh id b hb
    omega
  obtain ⟨s', hs', hopen⟩ := openStore_ok opts (h.inv.dir.same hbytes hhints) hids
  refine ⟨s', hs', fun k hk => ?_⟩
  cases he : s.keys[k]? with
  | none =>
    -- Nothing on disk belongs to the key.
    refine Store.liveMap_none ?_
    cases he' : s'.keys[k]? with
    | none => rfl
    | some e' =>
      obtain ⟨r, hrec, hrk, -⟩ := hopen.held he'
      have hheld := hrec.holds
      rw [hbytes] at hheld
      rcases h.inv.covers _ r hheld List.not_mem_nil with ⟨x, hx, -⟩ | ⟨e, he₁, -⟩
      · cases hx
      · rw [hrk, he] at he₁
        cases he₁
  | some e =>
    obtain ⟨r, hr, hlive⟩ := h.inv.toWf.liveMap_some he
    have hsingle : r.batch = false := by
      cases hb : r.batch with
      | false => rfl
      | true => exact absurd (hlive.symm.trans hk) (hputs _ r hr.holds hb)
    have hrec : Recovers s.close e.fileID r := recovers_of_single (hbytes ▸ hr.holds) hsingle
    rw [(hopen.restores h.inv hbytes he hrec hr.key hr.seq).1, hk]

/-! ### Whole runs -/

/-- **Compaction on a replica is transparent** after every step of a run exactly if no frame
brings back what is deleted; and then what is deleted stays so across a reopening, if no
tombstone came as a member of a batch. -/
theorem compaction_transparent (hdist : hist.Pairwise fun r r' => r.seq ≠ r'.seq) (h : Stocked hist s)
    (acts : List Delivery) (hdrawn : ∀ raw, .apply raw ∈ acts → ∀ r ∈ delivered raw, Drawn hist r)
    (hroom : copiesMachine.Meets (fun p a => a.Room p) (s, s) acts) :
    (copiesMachine.Meets (fun p a => a.Keeps p) (s, s) acts ↔ ∀ js, js <+: acts →
      (replicaMachine.run s js).1.liveMap = (replicaMachine.run s (uncompacted js)).1.liveMap) ∧
    (copiesMachine.Meets (fun p a => a.Keeps p) (s, s) acts → Puts s →
      (∀ raw, .apply raw ∈ acts → ∀ r ∈ delivered raw, r.batch = true → r.payload ≠ none) →
      (replicaMachine.run s acts).1.nextID + 1 < 2 ^ 32 → ∀ opts, ∃ s',
        openStore opts (replicaMachine.run s acts).1.close = .ok s' ∧
        ∀ k, (replicaMachine.run s (uncompacted acts)).1.liveMap k = none → s'.liveMap k = none) := by
  have hstart : Copies hist (s, s) := ⟨h, h.inv.toWf, .refl _⟩
  have hfit := hroom.and (Q := fun a => ∀ raw, a = .apply raw → ∀ r ∈ delivered raw, Drawn hist r)
    fun a ha raw heq => hdrawn raw (heq ▸ ha)
  have hiff : copiesMachine.Meets (fun p a => a.Keeps p) (s, s) acts ↔ ∀ js, js <+: acts →
      (replicaMachine.run s js).1.liveMap = (replicaMachine.run s (uncompacted js)).1.liveMap := by
    have halways : copiesMachine.Meets (fun p a => a.Keeps p) (s, s) acts ↔ ∀ js, js <+: acts →
        (copiesMachine.run (s, s) js).1.1.liveMap = (copiesMachine.run (s, s) js).1.2.liveMap :=
      hfit.iff_always (I := Copies hist) (P := fun p => p.1.liveMap = p.2.liveMap)
        (fun p a hp hfit => hp.step hdist hfit.1 hfit.2)
        (fun p a hp hfit halike => hp.alike_iff hdist hfit.1 hfit.2 halike) hstart rfl
    simpa only [copies_run] using halways
  refine ⟨hiff, fun hkeeps hputs hframes hid opts => ?_⟩
  have hend : Copies hist (copiesMachine.run (s, s) acts).1 ∧ Puts (copiesMachine.run (s, s) acts).1.1 := by
    refine (hfit.and (Q := fun a => ∀ raw, a = .apply raw → ∀ r ∈ delivered raw, r.batch = true → r.payload ≠ none)
      fun a ha raw heq => hframes raw (heq ▸ ha)).invariant (P := fun p => Copies hist p ∧ Puts p.1)
      (fun p a hp hfit => ?_) ⟨hstart, hputs⟩
    exact ⟨hp.1.step hdist hfit.1.1 hfit.1.2, hp.2.step hp.1.stocked rfl hfit.1.1 hfit.2⟩
  rw [copies_run] at hend
  obtain ⟨s', hs', hdead⟩ := hend.1.stocked.reopen hend.2 opts hid
  refine ⟨s', hs', fun k hk => hdead k ?_⟩
  rw [hiff.mp hkeeps acts (List.prefix_refl acts)]
  exact hk

end Transparency

/-- A value and its deletion. -/
def valueThenDelete : List Record := [⟨0, 1, 0, [1], [7]⟩, ⟨0, 2, 1, [1], []⟩]

/-- They come in one frame, and the store is compacted: the key stays deleted. -/
theorem compaction_transparent_run : ∃ s', openStore ⟨0, .never⟩ (replicaMachine.run (Store.init ⟨0, .never⟩)
    [.apply (encodeAll valueThenDelete), .compact]).1.close = .ok s' ∧ s'.liveMap [1] = none := by
  have hframe : delivered (encodeAll valueThenDelete) = valueThenDelete := by decide +kernel
  have hacts (raw : Bytes) (h : Delivery.apply raw ∈ [.apply (encodeAll valueThenDelete), .compact]) :
      delivered raw = valueThenDelete := by
    rcases List.mem_cons.mp h with h | h
    · cases h
      exact hframe
    · cases List.mem_singleton.mp h
  have hroom : Delivery.Room (Store.init ⟨0, .never⟩, Store.init ⟨0, .never⟩) (.apply (encodeAll valueThenDelete)) :=
    ⟨by rw [hframe]; exact addressable_of_length (by decide +kernel), by decide +kernel, by decide +kernel⟩
  have hroom' : Delivery.Room (copiesMachine.step (Store.init ⟨0, .never⟩, Store.init ⟨0, .never⟩)
      (.apply (encodeAll valueThenDelete))).1 .compact := by
    rw [Delivery.Room]
    decide +kernel
  -- Before the frame neither copy knows anything of the key.
  have hkeeps : Delivery.Keeps (Store.init ⟨0, .never⟩, Store.init ⟨0, .never⟩)
      (.apply (encodeAll valueThenDelete)) := by
    rintro r - - ⟨-, -, q, hq, -⟩
    rw [view_init] at hq
    cases hq
  have hputs : Puts (Store.init ⟨0, .never⟩) := fun i r hr => absurd ((stocked_init [] ⟨0, .never⟩).drawn i r hr) nofun
  have hbatch : ∀ r ∈ valueThenDelete, r.batch = true → r.payload ≠ none := by decide
  obtain ⟨s', hs', hdead⟩ := (compaction_transparent (by decide) (stocked_init valueThenDelete ⟨0, .never⟩)
    [.apply (encodeAll valueThenDelete), .compact]
    (fun raw hraw => by
      rw [hacts raw hraw]
      decide)
    ⟨hroom, hroom', trivial⟩).2 ⟨hkeeps, trivial, trivial⟩ hputs (fun raw hraw => hacts raw hraw ▸ hbatch)
    (by decide +kernel) ⟨0, .never⟩
  exact ⟨s', hs', hdead [1] (by decide +kernel)⟩

/-- **An older value comes back.** The tombstone of a key has been applied and compacted
away; its value arrives, and only the compacted copy shows it. -/
theorem compact_revives : (replicaMachine.run (Store.init ⟨0, .never⟩)
    [.apply (Record.encode ⟨0, 2, 1, [1], []⟩), .compact,
      .apply (Record.encode ⟨0, 1, 0, [1], [7]⟩)]).1.liveMap [1] = some [7] ∧
    (replicaMachine.run (Store.init ⟨0, .never⟩) (uncompacted [.apply (Record.encode ⟨0, 2, 1, [1], []⟩), .compact,
      .apply (Record.encode ⟨0, 1, 0, [1], [7]⟩)])).1.liveMap [1] = none := by
  decide +kernel

end Gokv.Engine
