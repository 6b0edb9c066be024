import Gokv.Engine.Chronicle

/-! Whether the log of a store reaches back to a position.

A store comes by its records in three ways: it writes them itself, it is sent them one
frame at a time, or it is reset and loads the snapshot of another node. Whatever the
mix, its index covers its files (`Stocked`), so the newest record it sends of a key
carries what it shows (`Inv.newest_since`). What its files need not have is a record
of every key that changed since the position: a compaction drops tombstones below its
watermark, and a snapshot never had them. The first is reported, the second is not,
since `Reset` sets the watermark to zero. `serves_since`: the replica ends up with the
store's map, or the store asks for a full sync, exactly if the position is below the
watermark or every key that changed since has a record above it. -/
namespace Gokv.Engine
open Base

/-- How a store comes by its records. -/
inductive Intake where
  | op (op : Op)
  | apply (recs : List Record)
  /-- `Reset`, then the snapshot of another node, record by record. -/
  | load (other : Store)

section Lineage
variable [Checksum]

def Store.intake (s : Store) : Intake → Store × Option Error
  | .op op => s.apply op
  | .apply recs =>
    match s.applyRaw (encodeAll recs) with
    | (s, .ok _) => (s, none)
    | (s, .error e) => (s, some e)
  | .load other =>
    match s.reset with
    | (s, some e) => (s, some e)
    | (s, none) => s.applyAll other.snapshotRecords

def intakeMachine : Machine Intake Store (Option Error) := ⟨Store.intake⟩

/-- The record stands in the history, its batch markers apart. -/
def Drawn (hist : List Record) (r : Record) : Prop := r.version ∈ hist.map Record.version

omit [Checksum] in
instance decidableDrawn (hist : List Record) (r : Record) : Decidable (Drawn hist r) :=
  inferInstanceAs (Decidable (r.version ∈ hist.map Record.version))

/-- Whatever the store takes in is drawn from the history and within the widths; it is
not closed and opened meanwhile. -/
def Draws (hist : List Record) (s : Store) : Intake → Prop
  | .op op => (∀ opts, op ≠ .reopen opts) ∧ Fits s op ∧
    (op.refusal s.liveMap = none → ∀ r ∈ Store.assignSeqs s.seq op.records, Drawn hist r)
  | .apply recs => (∀ r ∈ recs, r.Sized ∧ Drawn hist r) ∧ (encodeAll recs).length < 2 ^ 32 ∧ s.nextID + 1 < 2 ^ 32
  | .load other => Wf .every other [] ∧ (∀ r ∈ other.snapshot, Drawn hist r) ∧
    s.nextID + other.snapshot.length + 2 < 2 ^ 32

/-- A store whose index covers files that hold nothing but records of the history. -/
structure Stocked (hist : List Record) (s : Store) : Prop where
  inv : Inv .every s [] []
  bounded : Bounded .every s
  marked : Marked s
  drawn : ∀ i r, Holds .every s.dir.bytes i r → Drawn hist r

variable {hist : List Record} {s s' : Store} {recs : List Record}

omit [Checksum] in
/-- In a history a number stands for one version. -/
theorem Drawn.agree (hdist : hist.Pairwise fun r r' => r.seq ≠ r'.seq) {r r' : Record} (h : Drawn hist r)
    (h' : Drawn hist r') (hseq : r.seq = r'.seq) : r.payload = r'.payload := by
  obtain ⟨x, hx, hxr⟩ := List.mem_map.mp h
  obtain ⟨y, hy, hyr⟩ := List.mem_map.mp h'
  have huniq := List.Pairwise.forall_of_forall_of_flip (l := hist) (R := fun a b => a.seq = b.seq → a = b)
    (fun _ _ _ => rfl) (hdist.imp fun hne heq => absurd heq hne) (hdist.imp fun hne heq => absurd heq.symm hne)
  have hxs : x.seq = r.seq := UInt64.toNat_inj.mp (congrArg (·.2.1) hxr)
  have hys : y.seq = r'.seq := UInt64.toNat_inj.mp (congrArg (·.2.1) hyr)
  have heq := huniq hx hy (by rw [hxs, hys, hseq])
  have hxp : x.payload = r.payload := congrArg (·.2.2) hxr
  have hyp : y.payload = r'.payload := congrArg (·.2.2) hyr
  rw [← hxp, heq, hyp]

theorem Stocked.background (h : Stocked hist s) (hb : Background s s') (hman : s'.dir.manifest = s.dir.manifest)
    (hinv : Inv .every s' [] []) : Stocked hist s' where
  inv := hinv
  bounded i r hr := by
    rw [hb.seq]
    exact h.bounded i r (hb.bytes ▸ hr)
  marked := by
    rw [Marked, hman, hb.mergeSeq]
    exact h.marked
  drawn i r hr := h.drawn i r (hb.bytes ▸ hr)

theorem Stocked.op (h : Stocked hist s) {op : Op} (hd : Draws hist s (.op op)) : Stocked hist (s.apply op).1 := by
  obtain ⟨hno, hfit, hdrawn⟩ := hd
  have hwrite (hop : op.Local) : Stocked hist (s.apply op).1 := by
    rw [h.inv.toWf.apply_local hop]
    cases hr : op.refusal s.liveMap with
    | some e => exact h
    | none =>
      by_cases hnil : op.records = []
      · simp only [hnil, if_true]
        exact h
      · have hw := (Op.records_ne_nil_valid hop hr hnil).writes hfit
        obtain ⟨s', hs', hwr⟩ := h.inv.appendLocked h.bounded hw.sized hw.group hw.addressable hw.seq hw.id
        simp only [if_neg hnil, hs']
        refine ⟨hwr.inv, hwr.bounded, ?_, fun i r hi => ?_⟩
        · rw [Marked, hwr.appended.manifest, hwr.appended.mergeSeq]
          exact h.marked
        · rcases (hwr.holds i r).mp hi with hi | ⟨-, hi⟩
          · exact h.drawn i r hi
          · exact hdrawn hr r hi
  cases op with
  | put now key value => exact hwrite trivial
  | batchPut now keys values => exact hwrite trivial
  | delete now key => exact hwrite trivial
  | compact =>
    obtain ⟨s', hs', hc⟩ := h.inv.compact h.bounded h.marked hfit
    have hs' : s.apply .compact = (s', none) := hs'
    rw [hs']
    refine ⟨hc.inv, hc.bounded, hc.marked, fun i r hi => ?_⟩
    obtain ⟨j, r₀, hr₀, hk, hseq, hpay⟩ := hc.back i r hi
    have hver : r₀.version = r.version := by rw [Record.version, Record.version, hk, hseq, hpay]
    have := h.drawn j r₀ hr₀
    rwa [Drawn, hver] at this
  | reopen opts => exact absurd rfl (hno opts)
  | sync =>
    obtain ⟨s', hs', hsame, hb, hman⟩ := h.inv.toWf.sync
    have hs' : s.apply .sync = (s', none) := hs'
    rw [hs']
    exact h.background hb hman (h.inv.same hsame hb.active)
  | hint id =>
    obtain ⟨hb, -, hman⟩ := background_finishHint s id
    exact h.background hb hman (h.inv.finishHint id)

/-- Records of the history may be applied in any order and any number of times. -/
theorem Stocked.received (h : Stocked hist s) (hdist : hist.Pairwise fun r r' => r.seq ≠ r'.seq)
    (hr : Received s s' recs) (hdrawn : ∀ r ∈ recs, Drawn hist r) : Stocked hist s' := by
  have hfrom {r : Record} (hi : (∃ i, Holds .every s.dir.bytes i r) ∨ r ∈ recs) : Drawn hist r :=
    hi.elim (fun ⟨i, hi⟩ => h.drawn i r hi) (hdrawn r)
  obtain ⟨hq, hall, -⟩ := topSeq_spec s.seq recs
  refine ⟨h.inv.received hr fun r r' hi hi' _ hseq => (hfrom hi).agree hdist (hfrom hi') hseq, fun i r hi => ?_, ?_,
    fun i r hi => hfrom ((hr.holds i r hi).imp_left fun hi => ⟨i, hi⟩)⟩
  · rw [hr.seq]
    rcases hr.holds i r hi with hi | hi
    · exact UInt64.le_trans (h.bounded i r hi) hq
    · exact hall r hi
  · rw [Marked, hr.manifest, hr.mergeSeq]
    exact h.marked

theorem Stocked.cleared (h : Cleared s s') : Stocked hist s' where
  inv := {h.wf with
    covers := fun i r hr => absurd hr (h.empty i r)
    agree := fun i _ r _ hr => absurd hr (h.empty i r) }
  bounded i r hr := absurd hr (h.empty i r)
  marked := by
    rw [Marked, h.manifest, h.mergeSeq]
    exact readManifest_text 0
  drawn i r hr := absurd hr (h.empty i r)

/-- **A loaded store shows what the other node shows**, and holds its snapshot alone. -/
theorem Wf.load {ρ : Reading} {other : Store} (h : Wf .every s []) (ho : Wf ρ other [])
    (hid : s.nextID + other.snapshot.length + 2 < 2 ^ 32) :
    ∃ s₁ s', s.intake (.load other) = (s', none) ∧ Cleared s s₁ ∧ Received s₁ s' other.snapshot ∧
      s'.liveMap = other.liveMap := by
  obtain ⟨s₁, hreset, hclear⟩ := h.reset (by omega)
  obtain ⟨s', hall, hr⟩ := hclear.wf.applySingly (sized_snapshot ho.readable.leads) (by rw [hclear.nextID]; omega)
  refine ⟨s₁, s', ?_, hclear, hr, ?_⟩
  · rw [Store.intake, hreset, snapshotRecords_eq ho.files]
    exact hall
  · rw [Store.liveMap, hr.view, hclear.view]
    exact (Newest.indexes_offerAll _).live_eq (ho.readable.shown_eq ▸ snapshot_shows ho.readable.leads)

/-- **Every way to take in records of a history keeps the store in order.** -/
theorem Stocked.step (hdist : hist.Pairwise fun r r' => r.seq ≠ r'.seq) {i : Intake} (h : Stocked hist s)
    (hd : Draws hist s i) : Stocked hist (s.intake i).1 := by
  cases i with
  | op op => exact h.op hd
  | apply recs =>
    obtain ⟨hrecs, hlen, hid⟩ := hd
    obtain ⟨s', top, hraw, hr, -⟩ := h.inv.toWf.applyRaw (fun r hr => (hrecs r hr).1) (addressable_of_length hlen) hid
    rw [Store.intake, hraw]
    exact h.received hdist hr fun r hr => (hrecs r hr).2
  | load other =>
    obtain ⟨ho, hdrawn, hid⟩ := hd
    obtain ⟨s₁, s', hs', hclear, hr, -⟩ := h.inv.toWf.load ho hid
    rw [hs']
    exact (Stocked.cleared hclear).received hdist hr hdrawn

theorem stocked_init (hist : List Record) (opts : Options) : Stocked hist (Store.init opts) := by
  have hc := chronicled_init opts
  refine ⟨hc.quiet.inv.every hc.unbroken, fun i r hr => hc.held hr, hc.quiet.marked, fun i r hr => ?_⟩
  have := hc.origin i r hr
  cases this

/-- **A store serves a position, or asks for a full sync,** exactly if the position is
below its watermark or every key that changed since has a record above it in the
files. -/
theorem serves_since (hist : List Record) (opts : Options) (is : List Intake) (s₀ s f : Store) (q : UInt64)
    (hdist : hist.Pairwise fun r r' => r.seq ≠ r'.seq) (hopen : openStore opts {} = .ok s₀)
    (hdraws : intakeMachine.Meets (Draws hist) s₀ is) (hrun : (intakeMachine.run s₀ is).1 = s)
    (hshows : s.liveMap = latest hist) (hf : Wf .every f []) (hlive : f.liveMap = latest (upTo q hist))
    (hentries : ∀ (k : Bytes) (e : Entry), f.keys[k]? = some e → e.seq ≤ q)
    (hid : f.nextID + (s.since q).length < 2 ^ 32) :
    (s.recordsSince q = .error .needFullSync ∨
      ∃ raws f', s.recordsSince q = .ok raws ∧ f.applyAll raws = (f', none) ∧ f'.liveMap = s.liveMap) ↔
    q < s.mergeSeq ∨ ∀ k, latest (upTo q hist) k = latest hist k ∨
      ∃ i r, Holds .every s.dir.bytes i r ∧ r.key = k ∧ q < r.seq := by
  cases Except.ok.inj (hopen.symm.trans (openStore_empty opts))
  have hs : Stocked hist s := by
    rw [← hrun]
    exact hdraws.invariant (P := Stocked hist) (fun _ _ h hd => h.step hdist hd) (stocked_init hist opts)
  rw [recordsSince_eq]
  by_cases hq : q < s.mergeSeq
  · rw [if_pos hq]
    exact iff_of_true (.inl rfl) (.inl hq)
  rw [if_neg hq]
  have hsized : ∀ r ∈ s.since q, r.Sized := fun r hr => by
    obtain ⟨⟨i, hi⟩, -⟩ := hs.inv.mem_since.mp hr
    exact hi.sized
  obtain ⟨f', hall, hrec⟩ := hf.applySingly hsized hid
  have hview := hrec.above hentries fun r hr => (hs.inv.mem_since.mp hr).2
  -- The replica takes the store's value of what it was sent and keeps the rest.
  have hkey (k : Bytes) : f'.liveMap k = s.liveMap k ↔ latest (upTo q hist) k = latest hist k ∨
      ∃ i r, Holds .every s.dir.bytes i r ∧ r.key = k ∧ q < r.seq := by
    have hindex := Newest.indexes_offerAll ((s.since q).map Record.version)
    cases hx : Newest.offerAll (fun _ => none) ((s.since q).map Record.version) k with
    | some x =>
      have hval : f'.liveMap k = s.liveMap k := by
        rw [Store.liveMap, Newest.live, hview, hx]
        exact hs.inv.newest_since hx
      obtain ⟨r, hr, heq⟩ := List.mem_map.mp (hindex.sound k x hx)
      obtain ⟨⟨i, hi⟩, hlt⟩ := hs.inv.mem_since.mp hr
      exact iff_of_true hval (.inr ⟨i, r, hi, congrArg Prod.fst heq, hlt⟩)
    | none =>
      have hval : f'.liveMap k = f.liveMap k := by
        rw [Store.liveMap, Newest.live, hview, hx]
        rfl
      have hno : ¬ ∃ i r, Holds .every s.dir.bytes i r ∧ r.key = k ∧ q < r.seq := by
        rintro ⟨i, r, hi, rfl, hlt⟩
        obtain ⟨y, hy, -⟩ := hindex.covers r.key (r.seq.toNat, r.payload)
          (List.mem_map.mpr ⟨r, hs.inv.mem_since.mpr ⟨⟨i, hi⟩, hlt⟩, rfl⟩)
        rw [hx] at hy
        cases hy
      rw [hval, hlive, hshows]
      exact (or_iff_left hno).symm
  constructor
  · rintro (herr | ⟨raws, g, hraws, hg, heq⟩)
    · cases herr
    · cases hraws
      cases (Prod.mk.inj (hall.symm.trans hg)).1
      exact .inr fun k => (hkey k).mp (congrFun heq k)
  · rintro (hlt | hcov)
    · exact absurd hlt hq
    · exact .inr ⟨_, f', rfl, hall, funext fun k => (hkey k).mpr (hcov k)⟩

end Lineage

/-- A key written, deleted, and another key written. -/
def deletion : List Op := [.put 0 [1] [7], .delete 0 [1], .put 0 [2] [8]]

def deletionLog : List Record := [⟨0, 1, 0, [1], [7]⟩, ⟨0, 2, flagTombstone, [1], []⟩, ⟨0, 3, 0, [2], [8]⟩]

theorem intake_ops (s : Store) (ops : List Op) : intakeMachine.run s (ops.map .op) = storeMachine.run s ops := by
  induction ops generalizing s with
  | nil => rfl
  | cons op rest ih =>
    have hrest := ih (s.apply op).1
    simp only [List.map_cons, Machine.run, intakeMachine, storeMachine, Store.intake] at hrest ⊢
    rw [hrest]

/-- A store that wrote its records itself serves a position between them. -/
theorem serves_since_own : ∃ s f f', s = (intakeMachine.run (Store.init ⟨0, .never⟩) (deletion.map .op)).1 ∧
    f = (storeMachine.run (Store.init ⟨0, .never⟩) [.put 0 [1] [7]]).1 ∧ f.get [1] = .ok [7] ∧
    ∃ raws, s.recordsSince 1 = .ok raws ∧ f.applyAll raws = (f', none) ∧ f'.liveMap = s.liveMap := by
  have hs := steady_store ⟨0, .never⟩ deletion deletionLog (by decide +kernel) (by decide +kernel)
  have hf := steady_store ⟨0, .never⟩ [.put 0 [1] [7]] (upTo 1 deletionLog) (by decide +kernel) (by decide +kernel)
  have hseq : ((storeMachine.run (Store.init ⟨0, .never⟩) [.put 0 [1] [7]]).1).seq = 1 := by decide +kernel
  have hwater : ((storeMachine.run (Store.init ⟨0, .never⟩) deletion).1).mergeSeq ≤ 1 := by decide +kernel
  have hok : ((storeMachine.run (Store.init ⟨0, .never⟩) deletion).1).recordsSince 1 ≠ .error .needFullSync := by
    decide +kernel
  have hid : ((storeMachine.run (Store.init ⟨0, .never⟩) [.put 0 [1] [7]]).1).nextID +
      (((storeMachine.run (Store.init ⟨0, .never⟩) deletion).1).since 1).length < 2 ^ 32 := by decide +kernel
  have hdraws : intakeMachine.Meets (Draws deletionLog) (Store.init ⟨0, .never⟩) (deletion.map .op) :=
    ⟨⟨nofun, by decide +kernel, by decide +kernel⟩, ⟨nofun, by decide +kernel, by decide +kernel⟩,
      ⟨nofun, by decide +kernel, by decide +kernel⟩, trivial⟩
  have hrun : (intakeMachine.run (Store.init ⟨0, .never⟩) (deletion.map .op)).1 =
      (storeMachine.run (Store.init ⟨0, .never⟩) deletion).1 := by rw [intake_ops]
  have hserves := serves_since deletionLog ⟨0, .never⟩ (deletion.map .op) (Store.init ⟨0, .never⟩)
    (storeMachine.run (Store.init ⟨0, .never⟩) deletion).1
      (storeMachine.run (Store.init ⟨0, .never⟩) [.put 0 [1] [7]]).1 1
    (by decide) (openStore_empty _) hdraws hrun hs.liveMap hf.quiet.inv.toWf.every hf.liveMap
    (fun k e he => hseq ▸ hf.quiet.bounded.entry hf.quiet.inv.toWf he) hid
  obtain ⟨raws, f', hraws, hall, hlive⟩ := (hserves.mpr (.inr (hs.spans hwater))).resolve_left hok
  exact ⟨_, _, f', hrun.symm, rfl, by decide +kernel, raws, hraws, hall, hlive⟩

/-- A store loaded from a snapshot sends nothing of a deletion before it: a replica that
still has the key keeps it. -/
theorem loaded_omits_deletion : ∃ l s f, l = (storeMachine.run (Store.init ⟨0, .never⟩) deletion).1 ∧
    s = (intakeMachine.run (Store.init ⟨0, .never⟩) [.load l]).1 ∧
    f = (storeMachine.run (Store.init ⟨0, .never⟩) [.put 0 [1] [7]]).1 ∧
    s.liveMap = latest deletionLog ∧ f.liveMap = latest (upTo 1 deletionLog) ∧
    s.recordsSince 1 = .ok [Record.encode ⟨0, 3, 0, [2], [8]⟩] ∧
    (f.applyAll [Record.encode ⟨0, 3, 0, [2], [8]⟩]).1.get [1] = .ok [7] ∧ s.get [1] = .error .keyNotFound := by
  have hl := steady_store ⟨0, .never⟩ deletion deletionLog (by decide +kernel) (by decide +kernel)
  have hf := steady_store ⟨0, .never⟩ [.put 0 [1] [7]] (upTo 1 deletionLog) (by decide +kernel)
    (by decide +kernel)
  have hs : ((intakeMachine.run (Store.init ⟨0, .never⟩)
      [.load (storeMachine.run (Store.init ⟨0, .never⟩) deletion).1]).1).liveMap = latest deletionLog := by
    obtain ⟨-, s', hs', -, -, hlive⟩ := (stocked_init [] ⟨0, .never⟩).inv.toWf.load hl.quiet.inv.toWf
      (by decide +kernel)
    rw [show intakeMachine.run (Store.init ⟨0, .never⟩)
      [_] = ((Store.intake _ _).1, [(Store.intake _ _).2]) from rfl, hs',
      hlive]
    exact hl.liveMap
  exact ⟨_, _, _, rfl, rfl, rfl, hs, hf.liveMap, by decide +kernel, by decide +kernel, by decide +kernel⟩

end Gokv.Engine
