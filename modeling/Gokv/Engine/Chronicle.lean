import Gokv.Engine.Streamed

/-! A store beside everything it has written.

A `Chronicle` keeps, next to a store, the records of its accepted writes under the
numbers they were given. Compaction does not touch the list, so it is what "the state
as of a sequence number" speaks of: `latest` of the records up to that number.

`Filed` says what the files still have of the list. Above the watermark they hold all
of it, word for word, and the order of the file ids is the order of the numbers, merged
files or not; below the watermark they hold copies. `Chronicled` adds the index: the
store shows `latest` of the list. Both hold after every history that keeps to the widths
and whose reopens do not set the counter back (`Chronicled.step`). -/
namespace Gokv.Engine
open Base

/-! ### The newest record of each key -/

/-- The newest-record-wins map of a list of records. -/
def latest (recs : List Record) : Map := Newest.live (Newest.offerAll (fun _ => none) (recs.map Record.version))

/-- The records up to a number. -/
def upTo (q : UInt64) (log : List Record) : List Record := log.filter (·.seq ≤ q)

/-- Records in the order of their numbers. -/
abbrev Ascending (log : List Record) : Prop := log.Pairwise fun r r' => r.seq < r'.seq

section Latest
variable {log recs : List Record} {q p : UInt64} {r : Record}

theorem mem_upTo : r ∈ upTo q log ↔ r ∈ log ∧ r.seq ≤ q := by
  rw [upTo, List.mem_filter, decide_eq_true_iff]

theorem upTo_all (h : ∀ r ∈ log, r.seq ≤ q) : upTo q log = log :=
  List.filter_eq_self.mpr fun r hr => decide_eq_true (h r hr)

/-- Later records do not change what was there up to a number. -/
theorem upTo_append (h : ∀ r ∈ recs, q < r.seq) : upTo q (log ++ recs) = upTo q log := by
  have hnil : recs.filter (·.seq ≤ q) = [] :=
    List.filter_eq_nil_iff.mpr fun r hr hle => absurd (of_decide_eq_true hle) (UInt64.not_le.mpr (h r hr))
  rw [upTo, List.filter_append, hnil, List.append_nil, upTo]

theorem Ascending.agree (h : Ascending log) : Newest.Agree {x | x ∈ log.map Record.version} := by
  intro k x y hx hy heq
  obtain ⟨r, hr, hrx⟩ := List.mem_map.mp hx
  obtain ⟨r', hr', hry⟩ := List.mem_map.mp hy
  simp only [Record.version, Prod.mk.injEq] at hrx hry
  obtain ⟨-, rfl⟩ := hrx
  obtain ⟨-, rfl⟩ := hry
  rw [eq_of_seq_eq h hr hr' (UInt64.toNat_inj.mp heq)]

theorem Ascending.shows (h : Ascending log) : Newest.Shows {x | x ∈ log.map Record.version} (latest log) :=
  (Newest.indexes_offerAll _).shows h.agree

theorem Ascending.upTo (h : Ascending log) : Ascending (upTo q log) := h.filter _

theorem versions_upTo : {x | x ∈ (upTo q log).map Record.version} =
    {x | x ∈ log.map Record.version ∧ x.2.1 ≤ q.toNat} := by
  ext x
  simp only [Set.mem_ofPred_eq, List.mem_map, mem_upTo]
  constructor
  · rintro ⟨r, ⟨hr, hle⟩, rfl⟩
    exact ⟨⟨r, hr, rfl⟩, UInt64.le_iff_toNat_le.mp hle⟩
  · rintro ⟨⟨r, hr, rfl⟩, hle⟩
    exact ⟨r, ⟨hr, UInt64.le_iff_toNat_le.mpr hle⟩, rfl⟩

/-- A map is the newest-record-wins map of a list if it has the newest record of each
key. -/
theorem latest_unique {m : Map} (hm : Newest.Shows {x | x ∈ log.map Record.version} m) : m = latest log :=
  ((Newest.indexes_offerAll _).live_eq hm).symm

/-- A key with no record above a number is as it was. -/
theorem Ascending.latest_upTo (h : Ascending log) {k : Bytes} (hk : ∀ r ∈ log, r.key = k → r.seq ≤ q) :
    latest (Engine.upTo q log) k = latest log k := by
  have hmem {x : Nat × Option Bytes} (hx : (k, x) ∈ log.map Record.version) :
      (k, x) ∈ (Engine.upTo q log).map Record.version := by
    obtain ⟨r, hr, heq⟩ := List.mem_map.mp hx
    exact List.mem_map.mpr ⟨r, mem_upTo.mpr ⟨hr, hk r hr (congrArg Prod.fst heq)⟩, heq⟩
  have hsub {x : Nat × Option Bytes} (hx : (k, x) ∈ (Engine.upTo q log).map Record.version) :
      (k, x) ∈ log.map Record.version := by
    obtain ⟨r, hr, heq⟩ := List.mem_map.mp hx
    exact List.mem_map.mpr ⟨r, (mem_upTo.mp hr).1, heq⟩
  have hindex := Newest.indexes_offerAll (log.map Record.version)
  cases hx : Newest.offerAll (fun _ => none) (log.map Record.version) k with
  | none =>
    have hnone (x : Nat × Option Bytes) (hmem : (k, x) ∈ log.map Record.version) : False := by
      obtain ⟨y, hy, -⟩ := hindex.covers k x hmem
      rw [hx] at hy
      cases hy
    rw [h.shows.absent k hnone, h.upTo.shows.absent k fun x hx => hnone x (hsub hx)]
  | some x =>
    have hmax {y : Nat × Option Bytes} (hy : (k, y) ∈ log.map Record.version) : y.1 ≤ x.1 := by
      obtain ⟨z, hz, hle⟩ := hindex.covers k y hy
      rw [hx] at hz
      cases hz
      exact hle
    have hxin := hindex.sound k x hx
    rw [h.shows.newest k x hxin fun y hy => hmax hy, h.upTo.shows.newest k x (hmem hxin) fun y hy => hmax (hsub hy)]

/-- Newer records move the map one after the other. -/
theorem latest_append (hinc : Ascending recs) (hnew : ∀ r ∈ log, ∀ r' ∈ recs, r.seq < r'.seq) :
    latest (log ++ recs) = applyRecords (latest log) recs := by
  rw [latest, List.map_append, Newest.offerAll_append]
  refine live_offerAll_version hinc fun r' hr' k y hy => ?_
  obtain ⟨r, hr, heq⟩ := List.mem_map.mp ((Newest.indexes_offerAll _).sound k y hy)
  have hseq : r.seq.toNat = y.1 := congrArg (·.2.1) heq
  have hlt := UInt64.lt_iff_toNat_lt.mp (hnew r hr r' hr')
  omega

section Fed
variable [Checksum] {f f' : Store} {got : List Record}

/-- **A replica fed from a list.** It stood at number `q`. It was sent all of the list
between `q` and `p` and nothing above, and with an older record, if any, whatever was
newer up to `q`. Then it stands at `p`. -/
theorem Received.latest (h : Received f f' got) (hlog : Ascending log)
    (hlive : f.liveMap = latest (upTo q log)) (hentries : ∀ (k : Bytes) (e : Entry), f.keys[k]? = some e → e.seq ≤ q)
    (hqp : q ≤ p) (hgot : ∀ r ∈ got, r.version ∈ log.map Record.version ∧ r.seq ≤ p)
    (hdown : ∀ r ∈ log, q < r.seq → r.seq ≤ p → r.version ∈ got.map Record.version)
    (hup : ∀ r ∈ got, r.seq ≤ q → ∀ r' ∈ log, r'.key = r.key → r.seq < r'.seq → r'.seq ≤ q →
      r'.version ∈ got.map Record.version) :
    f'.liveMap = Engine.latest (upTo p log) := by
  have hbase : Newest.Shows {x | x ∈ log.map Record.version ∧ x.2.1 ≤ q.toNat} (Newest.live f.view) := by
    have hshow := (hlog.upTo (q := q)).shows
    rw [versions_upTo, ← hlive] at hshow
    exact hshow
  refine latest_unique ?_
  rw [versions_upTo, Store.liveMap, h.view]
  refine Newest.Shows.replay hlog.agree hbase (fun k y hy => ?_) (UInt64.le_iff_toNat_le.mp hqp) (fun x hx => ?_)
    (fun x hx hlt hle => ?_) fun x hx hle y hy hlt hyq => ?_
  · obtain ⟨e, he, rfl⟩ := Option.map_eq_some_iff.mp hy
    exact UInt64.le_iff_toNat_le.mp (hentries k e he)
  · obtain ⟨r, hr, rfl⟩ := List.mem_map.mp hx
    exact ⟨(hgot r hr).1, UInt64.le_iff_toNat_le.mp (hgot r hr).2⟩
  · obtain ⟨r, hr, rfl⟩ := List.mem_map.mp hx
    exact hdown r hr (UInt64.lt_iff_toNat_lt.mpr hlt) (UInt64.le_iff_toNat_le.mpr hle)
  · obtain ⟨r, hr, rfl⟩ := List.mem_map.mp hx
    obtain ⟨r', hr', heq⟩ := List.mem_map.mp hy
    have hkey : r'.key = r.key := congrArg Prod.fst heq
    have hver : r'.version = (r.key, y) := heq
    have hseq : r'.seq.toNat = y.1 := congrArg (·.2.1) heq
    have hmem := hup r hr (UInt64.le_iff_toNat_le.mpr hle) r' hr' hkey (UInt64.lt_iff_toNat_lt.mpr (hseq ▸ hlt))
      (UInt64.le_iff_toNat_le.mpr (hseq ▸ hyq))
    rwa [hver] at hmem

end Fed

end Latest

section Chronicle
variable [Checksum]

/-! ### What the files have of the list -/

structure Filed (s : Store) (log : List Record) : Prop where
  ascending : Ascending log
  passed : ∀ r ∈ log, r.seq ≤ s.seq
  watermark : s.mergeSeq ≤ s.seq
  /-- Whatever the files hold was written. -/
  origin : ∀ i r, Holds .every s.dir.bytes i r → r.version ∈ log.map Record.version
  /-- Above the watermark the files hold what was written, word for word. -/
  fresh : ∀ i r, Holds .every s.dir.bytes i r → s.mergeSeq < r.seq → r ∈ log
  kept : ∀ r ∈ log, s.mergeSeq < r.seq → ∃ i, Holds .every s.dir.bytes i r
  sorted : ∀ i b, s.dir.bytes i = some b → Ascending ((records b).filter (s.mergeSeq < ·.seq))
  ordered : ∀ i j r r', Holds .every s.dir.bytes i r → Holds .every s.dir.bytes j r' → s.mergeSeq < r.seq →
    s.mergeSeq < r'.seq → i < j → r.seq < r'.seq
  top : ∀ i r, Holds .every s.dir.bytes i r → s.mergeSeq < r.seq → i ≤ s.active.id

variable {s s' : Store} {log recs : List Record}

/-- Everything on disk has a number the counter has passed. -/
theorem Filed.held (h : Filed s log) {i : Nat} {r : Record} (hr : Holds .every s.dir.bytes i r) : r.seq ≤ s.seq := by
  obtain ⟨r₀, hr₀, heq⟩ := List.mem_map.mp (h.origin i r hr)
  have hseq : r₀.seq = r.seq := UInt64.toNat_inj.mp (congrArg (·.2.1) heq)
  exact hseq ▸ h.passed r₀ hr₀

/-- **A write is filed.** -/
theorem Filed.append (h : Filed s log) (hwf : Wf .every s []) (hs : ∀ r ∈ recs, r.Sized)
    (hroom : s.seq.toNat + recs.length < 2 ^ 64)
    (happ : Appended {s with seq := s.seq + UInt64.ofNat recs.length} s' (Store.assignSeqs s.seq recs)) :
    Filed s' (log ++ Store.assignSeqs s.seq recs) := by
  obtain ⟨hrange, hinc⟩ := seq_assignSeqs hroom
  have hs' := sized_assignSeqs (q := s.seq) hs
  have hwf' : Wf .every {s with seq := s.seq + UInt64.ofNat recs.length} [] :=
    hwf.same ⟨rfl, rfl, rfl, rfl, rfl, rfl, rfl⟩ rfl
  have hholds {i : Nat} {r : Record} := happ.holds (i := i) (r := r) hwf' hs' trivial
  have hseq : s'.seq.toNat = s.seq.toNat + recs.length := by rw [happ.seq, ← toNat_advance hroom]
  have hmerge : s'.mergeSeq = s.mergeSeq := happ.mergeSeq
  have hold {r r' : Record} (hr : r.seq ≤ s.seq) (hr' : r' ∈ Store.assignSeqs s.seq recs) : r.seq < r'.seq := by
    have h1 := UInt64.le_iff_toNat_le.mp hr
    have h2 := (hrange r' hr').1
    exact UInt64.lt_iff_toNat_lt.mpr (by omega)
  -- The active file stays, or moves up to a fresh id.
  have hactive : s.active.id ≤ s'.active.id := by
    obtain ⟨b, hb, -⟩ := hwf.active
    rcases happ.active with ⟨ha, -⟩ | ⟨ha, -⟩
    · exact ha.ge
    · exact (hwf.fresh _ b hb).le.trans ha.ge
  refine ⟨List.pairwise_append.mpr ⟨h.ascending, hinc, fun r hr r' hr' => hold (h.passed r hr) hr'⟩, fun r hr => ?_,
    ?_, fun i r hr => ?_, fun i r hr hlt => ?_, fun r hr hlt => ?_, fun i b hb => ?_,
      fun i j r r' hr hr' hlt hlt' hij => ?_,
    fun i r hr hlt => ?_⟩
  · refine UInt64.le_iff_toNat_le.mpr ?_
    rcases List.mem_append.mp hr with hr | hr
    · have := UInt64.le_iff_toNat_le.mp (h.passed r hr)
      omega
    · have := (hrange r hr).2
      omega
  · have := UInt64.le_iff_toNat_le.mp h.watermark
    rw [hmerge]
    exact UInt64.le_iff_toNat_le.mpr (by omega)
  · rw [List.map_append]
    rcases hholds.mp hr with hr | ⟨-, hr⟩
    · exact List.mem_append_left _ (h.origin i r hr)
    · exact List.mem_append_right _ (List.mem_map_of_mem hr)
  · rw [hmerge] at hlt
    rcases hholds.mp hr with hr | ⟨-, hr⟩
    · exact List.mem_append_left _ (h.fresh i r hr hlt)
    · exact List.mem_append_right _ hr
  · rw [hmerge] at hlt
    rcases List.mem_append.mp hr with hr | hr
    · obtain ⟨i, hi⟩ := h.kept r hr hlt
      exact ⟨i, hholds.mpr (.inl hi)⟩
    · exact ⟨s'.active.id, hholds.mpr (.inr ⟨rfl, hr⟩)⟩
  · rw [hmerge]
    have hbytes := congrFun happ.bytes i
    by_cases hi : i = s'.active.id
    · subst hi
      rw [Function.update_self, hb, Option.some.injEq] at hbytes
      -- The old contents, sorted, then the numbers handed out.
      obtain ⟨old, hintact, hsorted, hle, hb'⟩ : ∃ old, Intact old ∧
          Ascending ((records old).filter (s.mergeSeq < ·.seq)) ∧ (∀ r ∈ records old, r.seq ≤ s.seq) ∧
          b = old ++ encodeAll (Store.assignSeqs s.seq recs) := by
        rcases happ.active with ⟨ha, -⟩ | ⟨ha, -⟩
        · obtain ⟨old, hold, -, hintact, -⟩ := hwf.active
          have hold : s.dir.bytes s'.active.id = some old := ha ▸ hold
          refine ⟨old, hintact, h.sorted _ old hold, fun r hr => h.held ⟨old, hold, hr⟩, ?_⟩
          rw [hbytes]
          show (s.dir.bytes s'.active.id).getD [] ++ _ = _
          rw [hold, Option.getD_some]
        · have hnone : s.dir.bytes s'.active.id = none := ha ▸ hwf.notMem_nextID
          refine ⟨[], intact_nil, .nil, fun r hr => absurd hr List.not_mem_nil, ?_⟩
          rw [hbytes]
          show (s.dir.bytes s'.active.id).getD [] ++ _ = _
          rw [hnone, Option.getD_none]
      rw [hb', hintact.records_append _ hs', List.filter_append]
      exact List.pairwise_append.mpr ⟨hsorted, hinc.filter _, fun r hr r' hr' =>
        hold (hle r (List.mem_of_mem_filter hr)) (List.mem_of_mem_filter hr')⟩
    · rw [Function.update_of_ne hi] at hbytes
      exact h.sorted i b (hbytes ▸ hb)
  · rw [hmerge] at hlt hlt'
    rcases hholds.mp hr' with hr' | ⟨hj, hr'⟩
    · rcases hholds.mp hr with hr | ⟨rfl, -⟩
      · exact h.ordered i j r r' hr hr' hlt hlt' hij
      · exact absurd ((h.top j r' hr' hlt').trans hactive) (not_le.mpr hij)
    · rcases hholds.mp hr with hr | ⟨rfl, -⟩
      · exact hold (h.held hr) hr'
      · exact absurd hj hij.ne'
  · rw [hmerge] at hlt
    rcases hholds.mp hr with hr | ⟨rfl, -⟩
    · exact (h.top i r hr hlt).trans hactive
    · exact le_rfl

/-- With the same records in the same files nothing changes. -/
theorem Filed.same (h : Filed s log) (hseq : s'.seq = s.seq) (hmerge : s'.mergeSeq = s.mergeSeq)
    (hrecs : ∀ i b', s'.dir.bytes i = some b' → records b' = ((s.dir.bytes i).map records).getD [])
    (hholds : ∀ i r, Holds .every s'.dir.bytes i r ↔ Holds .every s.dir.bytes i r)
    (htop : ∀ i r, Holds .every s.dir.bytes i r → s.mergeSeq < r.seq → i ≤ s'.active.id) : Filed s' log where
  ascending := h.ascending
  passed := hseq ▸ h.passed
  watermark := hseq ▸ hmerge ▸ h.watermark
  origin i r hr := h.origin i r ((hholds i r).mp hr)
  fresh i r hr hlt := h.fresh i r ((hholds i r).mp hr) (hmerge ▸ hlt)
  kept r hr hlt := by
    obtain ⟨i, hi⟩ := h.kept r hr (hmerge ▸ hlt)
    exact ⟨i, (hholds i r).mpr hi⟩
  sorted i b' hb' := by
    rw [hmerge, hrecs i b' hb']
    cases hb : s.dir.bytes i with
    | none => exact .nil
    | some b => exact h.sorted i b hb
  ordered i j r r' hr hr' hlt hlt' hij :=
    h.ordered i j r r' ((hholds i r).mp hr) ((hholds j r').mp hr') (hmerge ▸ hlt) (hmerge ▸ hlt') hij
  top i r hr hlt := htop i r ((hholds i r).mp hr) (hmerge ▸ hlt)

/-- With nothing above the watermark the order of the files says nothing. -/
theorem Filed.merged (h : Filed s log) (hseq : s'.seq = s.seq) (hwater : s'.mergeSeq ≤ s.seq)
    (hback : ∀ i r, Holds .every s'.dir.bytes i r → ∃ j r₀, Holds .every s.dir.bytes j r₀ ∧ r₀.version = r.version)
    (hlog : ∀ r ∈ log, r.seq ≤ s'.mergeSeq) : Filed s' log := by
  have horigin (i : Nat) (r : Record) (hr : Holds .every s'.dir.bytes i r) : r.version ∈ log.map Record.version := by
    obtain ⟨j, r₀, hr₀, heq⟩ := hback i r hr
    exact heq ▸ h.origin j r₀ hr₀
  have hnone {i : Nat} {r : Record} (hr : Holds .every s'.dir.bytes i r) (hlt : s'.mergeSeq < r.seq) : False := by
    obtain ⟨r₀, hr₀, heq⟩ := List.mem_map.mp (horigin i r hr)
    have hr₀q : r₀.seq = r.seq := UInt64.toNat_inj.mp (congrArg (·.2.1) heq)
    exact absurd (hr₀q ▸ hlog r₀ hr₀) (UInt64.not_le.mpr hlt)
  refine ⟨h.ascending, hseq ▸ h.passed, hseq ▸ hwater, horigin, fun i r hr hlt => (hnone hr hlt).elim,
    fun r hr hlt => absurd (hlog r hr) (UInt64.not_le.mpr hlt), fun i b hb => ?_,
    fun i j r r' hr _ hlt _ _ => (hnone hr hlt).elim, fun i r hr hlt => (hnone hr hlt).elim⟩
  have hnil : (records b).filter (s'.mergeSeq < ·.seq) = [] :=
    List.filter_eq_nil_iff.mpr fun r hr hlt => hnone ⟨b, hb, hr⟩ (of_decide_eq_true hlt)
  rw [hnil]
  exact .nil

/-! ### The store beside its list -/

structure Chronicle where
  store : Store
  log : List Record

/-- An operation; the records of an accepted write are listed under their numbers. -/
def Chronicle.step (c : Chronicle) (op : Op) : Chronicle × Option Error :=
  match c.store.apply op with
  | (s, some e) => (⟨s, c.log⟩, some e)
  | (s, none) => (⟨s, c.log ++ Store.assignSeqs c.store.seq op.records⟩, none)

def chronicleMachine : Machine Op Chronicle (Option Error) := ⟨Chronicle.step⟩

/-- A step the widths hold; a reopen finds the counter where it was. -/
def Steady (c : Chronicle) : Op → Prop
  | .reopen opts => Fits c.store (.reopen opts) ∧
    ∀ s ∈ (openStore opts c.store.close).toOption, s.seq = c.store.seq
  | op => Fits c.store op

instance decidableSteady (c : Chronicle) : (op : Op) → Decidable (Steady c op)
  | .reopen opts => inferInstanceAs (Decidable (Fits c.store (.reopen opts) ∧
    ∀ s ∈ (openStore opts c.store.close).toOption, s.seq = c.store.seq))
  | .put now key value => inferInstanceAs (Decidable (Fits c.store (.put now key value)))
  | .batchPut now keys values => inferInstanceAs (Decidable (Fits c.store (.batchPut now keys values)))
  | .delete now key => inferInstanceAs (Decidable (Fits c.store (.delete now key)))
  | .compact => inferInstanceAs (Decidable (Fits c.store .compact))
  | .sync => inferInstanceAs (Decidable (Fits c.store .sync))
  | .hint id => inferInstanceAs (Decidable (Fits c.store (.hint id)))

theorem Steady.fits {c : Chronicle} {op : Op} (h : Steady c op) : Fits c.store op := by
  cases op with
  | reopen opts => exact h.1
  | put _ _ _ | batchPut _ _ _ | delete _ _ | compact | sync | hint _ => exact h

structure Chronicled (c : Chronicle) : Prop extends Filed c.store c.log where
  quiet : Quiet c.store
  unbroken : Unbroken c.store
  /-- The store shows the newest record of every key. -/
  liveMap : c.store.liveMap = latest c.log
  /-- A key of the index is at its newest record. -/
  newest : ∀ (k : Bytes) (e : Entry), c.store.keys[k]? = some e → ∀ r ∈ c.log, r.key = k → r.seq ≤ e.seq

variable {op : Op}

theorem Chronicled.idle (h : Chronicled ⟨s, log⟩) (hq : Quiet s') (hb : Background s s') : Chronicled ⟨s', log⟩ := by
  have hholds (i : Nat) (r : Record) : Holds .every s'.dir.bytes i r ↔ Holds .every s.dir.bytes i r := by rw [hb.bytes]
  refine {h.toFiled.same hb.seq hb.mergeSeq (fun i b' hb' => ?_) hholds fun i r hr hlt => ?_ with
    quiet := hq, unbroken := fun i b hib => ?_, liveMap := ?_, newest := fun k e he => ?_}
  · rw [← hb.bytes, hb', Option.map_some, Option.getD_some]
  · rw [hb.active]
    exact h.top i r hr hlt
  · exact h.unbroken i b (hb.bytes ▸ hib)
  · exact (hb.liveMap h.quiet.inv.toWf).trans h.liveMap
  · exact h.newest k e (hb.keys ▸ he)

theorem Chronicled.wrote (h : Chronicled ⟨s, log⟩) (hq : Quiet s') (hu : Unbroken s') (hs : ∀ r ∈ recs, r.Sized)
    (hw : Written .committed s s' recs) : Chronicled ⟨s', log ++ Store.assignSeqs s.seq recs⟩ := by
  have hfiled := h.toFiled.append h.quiet.inv.toWf.every hs hw.room hw.appended
  have hnewer {r r' : Record} (hr : r ∈ log) (hr' : r' ∈ Store.assignSeqs s.seq recs) : r.seq < r'.seq :=
    (List.pairwise_append.mp hfiled.ascending).2.2 r hr r' hr'
  refine {hfiled with quiet := hq, unbroken := hu, liveMap := ?_, newest := fun k e he r hr hk => ?_}
  · show s'.liveMap = latest (log ++ Store.assignSeqs s.seq recs)
    rw [hw.liveMap, latest_append (seq_assignSeqs hw.room).2, applyRecords_assignSeqs]
    · exact congrArg (applyRecords · recs) h.liveMap
    · exact fun r hr r' hr' => hnewer hr hr'
  · -- The index covers what is on disk; an older record was outdone before.
    have hcover {i : Nat} {x : Record} (hx : Holds .committed s'.dir.bytes i x) (hxk : x.key = k) : x.seq ≤ e.seq := by
      rcases hw.inv.covers i x hx List.not_mem_nil with ⟨_, hmem, _⟩ | ⟨e', he', hle⟩
      · cases hmem
      · rw [hxk] at he'
        cases Option.some.inj (he'.symm.trans he)
        exact hle
    rcases List.mem_append.mp hr with hr | hr
    · cases he₀ : s.keys[k]? with
      | some e₀ =>
        obtain ⟨r₀, hr₀⟩ := h.quiet.inv.located k e₀ he₀
        have hle := hcover ((hw.holds _ _).mpr (.inl hr₀.holds)) hr₀.key
        exact UInt64.le_trans (h.newest k e₀ he₀ r hr hk) (hr₀.seq ▸ hle)
      | none =>
        obtain ⟨x, hx⟩ := hw.inv.located k e he
        rw [← hx.seq]
        rcases (hw.holds _ _).mp hx.holds with hold | ⟨-, hnew⟩
        · rcases h.quiet.inv.covers _ x hold List.not_mem_nil with ⟨_, hmem, _⟩ | ⟨e', he', -⟩
          · cases hmem
          · rw [hx.key] at he'
            cases he₀.symm.trans he'
        · exact UInt64.le_of_lt (hnewer hr hnew)
    · exact hcover ((hw.holds s'.active.id r).mpr (.inr ⟨rfl, hr⟩)) hk

theorem Chronicled.compacted (h : Chronicled ⟨s, log⟩) (hq : Quiet s') (hu : Unbroken s')
    (hc : Compacted .committed s s') (hmark : s'.mergeSeq = s.seq ∨ ∀ i r, ¬ Holds .committed s.dir.bytes i r) :
    Chronicled ⟨s', log⟩ := by
  have hback (i : Nat) (r : Record) (hr : Holds .every s'.dir.bytes i r) :
      ∃ j r₀, Holds .every s.dir.bytes j r₀ ∧ r₀.version = r.version := by
    obtain ⟨j, r₀, hr₀, hk, hseq, hpay⟩ := hc.back i r (hu.holds.mp hr)
    exact ⟨j, r₀, h.unbroken.holds.mpr hr₀, by rw [Record.version, Record.version, hk, hseq, hpay]⟩
  have hwater : s'.mergeSeq ≤ s.seq := by
    rcases hc.watermark with heq | heq
    · exact heq ▸ h.watermark
    · exact heq ▸ UInt64.le_refl _
  have hlog (r : Record) (hr : r ∈ log) : r.seq ≤ s'.mergeSeq := by
    rcases hmark with heq | hnone
    · exact heq ▸ h.passed r hr
    · rcases hc.watermark with heq | heq
      · rw [heq]
        refine UInt64.not_lt.mp fun hlt => ?_
        obtain ⟨i, hi⟩ := h.kept r hr hlt
        exact hnone i r (h.unbroken.holds.mp hi)
      · exact heq ▸ h.passed r hr
  refine {h.toFiled.merged hc.seq hwater hback hlog with
    quiet := hq, unbroken := hu, liveMap := hc.liveMap.trans h.liveMap, newest := fun k e he r hr hk => ?_}
  -- What a key has now was its value before, so it was the newest.
  obtain ⟨x, hx⟩ := hc.inv.located k e he
  obtain ⟨j, r₀, hr₀, hk₀, -, -⟩ := hc.back _ x hx.holds
  rcases h.quiet.inv.covers j r₀ hr₀ List.not_mem_nil with ⟨_, hmem, _⟩ | ⟨e₀, he₀, -⟩
  · cases hmem
  rw [hk₀, hx.key] at he₀
  cases ht : e₀.tomb with
  | false =>
    obtain ⟨e', he', hseq, -⟩ := hc.kept k e₀ he₀ ht
    cases Option.some.inj (he'.symm.trans he)
    exact hseq ▸ h.newest k e₀ he₀ r hr hk
  | true =>
    have hnone : s.liveMap k = none := by
      obtain ⟨x₀, hx₀, hlive⟩ := h.quiet.inv.toWf.liveMap_some he₀
      exact hlive.trans (payload_eq_none.mpr (hx₀.tomb.trans ht))
    have hsome : s'.liveMap k ≠ none := by
      obtain ⟨x', hx', hlive⟩ := hc.inv.toWf.liveMap_some he
      rw [hlive]
      intro hpay
      have := hc.values _ x' hx'.holds
      rw [payload_eq_none.mp hpay] at this
      cases this
    exact absurd (hc.liveMap ▸ hnone) hsome

theorem Chronicled.reopened {opts : Options} (h : Chronicled ⟨s, log⟩) (hq : Quiet s') (hu : Unbroken s')
    (hr : Reopened .committed opts s.close s') (hlive : s'.liveMap = s.liveMap) (hseq : s'.seq = s.seq) :
    Chronicled ⟨s', log⟩ := by
  obtain ⟨hbytes, -, hman⟩ := h.quiet.inv.toWf.close
  have hcommitted (i : Nat) (r : Record) : Holds .committed s'.dir.bytes i r ↔ Holds .committed s.dir.bytes i r := by
    rw [hr.holds, hbytes]
  have hholds (i : Nat) (r : Record) : Holds .every s'.dir.bytes i r ↔ Holds .every s.dir.bytes i r := by
    rw [hu.holds, hcommitted, h.unbroken.holds]
  have hmerge : s'.mergeSeq = s.mergeSeq := by
    rw [hr.mergeSeq, hman]
    exact h.quiet.marked
  have hrecs (i : Nat) (b' : Bytes) (hb' : s'.dir.bytes i = some b') :
      records b' = ((s.dir.bytes i).map records).getD [] := by
    cases hb : s.dir.bytes i with
    | none =>
      rcases hr.bytes_none (hbytes ▸ hb) with hnone | ⟨-, hnil⟩
      · rw [hnone] at hb'
        cases hb'
      · cases Option.some.inj (hnil.symm.trans hb')
        rfl
    | some b =>
      obtain ⟨c, hc, hsame⟩ := hr.bytes (hbytes ▸ hb)
      cases Option.some.inj (hc.symm.trans hb')
      rcases hsame with rfl | ⟨-, htrim⟩
      · rfl
      · have hcom := htrim.committed_eq
        rw [(hu i b' hb').settled, (h.unbroken i b hb).settled] at hcom
        exact hcom
  refine {h.toFiled.same hseq hmerge hrecs hholds fun i r hi _ => ?_ with
    quiet := hq, unbroken := hu, liveMap := hlive.trans h.liveMap, newest := fun k e he r hr' hk => ?_}
  · obtain ⟨b, hb, -⟩ := (hholds i r).mpr hi
    exact hr.top i b hb
  · -- The index was rebuilt from the same records.
    obtain ⟨x, hx⟩ := hq.inv.located k e he
    rcases h.quiet.inv.covers _ x ((hcommitted _ _).mp hx.holds) List.not_mem_nil with ⟨_, hmem, _⟩ | ⟨e₀, he₀, -⟩
    · cases hmem
    rw [hx.key] at he₀
    obtain ⟨x₀, hx₀⟩ := h.quiet.inv.located k e₀ he₀
    rcases hq.inv.covers _ x₀ ((hcommitted _ _).mpr hx₀.holds) List.not_mem_nil with ⟨_, hmem, _⟩ | ⟨e', he', hle⟩
    · cases hmem
    rw [hx₀.key] at he'
    cases Option.some.inj (he'.symm.trans he)
    exact UInt64.le_trans (h.newest k e₀ he₀ r hr' hk) (hx₀.seq ▸ hle)

/-- **A step keeps the store and its list together.** -/
theorem Chronicled.step {c : Chronicle} (h : Chronicled c) (hst : Steady c op) : Chronicled (c.step op).1 := by
  obtain ⟨s, log⟩ := c
  obtain ⟨s', hs', hq, hlive, heffect⟩ := h.quiet.apply hst.fits
  have hu := heffect.whole h.quiet hq h.unbroken
  have hrefused {e : Error} (hr : op.refusal s.liveMap = some e) : (Chronicle.step ⟨s, log⟩ op).1 = ⟨s', log⟩ := by
    rw [Chronicle.step, hs', hr]
  have hdone (hr : op.refusal s.liveMap = none) :
      (Chronicle.step ⟨s, log⟩ op).1 = ⟨s', log ++ Store.assignSeqs s.seq op.records⟩ := by
    rw [Chronicle.step, hs', hr]
  cases heffect with
  | idle hb hop =>
    cases hr : op.refusal s.liveMap with
    | some e =>
      rw [hrefused hr]
      exact h.idle hq hb
    | none =>
      obtain ⟨hnil, -⟩ := hop.resolve_left fun hne => hne hr
      rw [hdone hr, hnil, Store.assignSeqs, List.append_nil]
      exact h.idle hq hb
  | wrote hg hs hw hok =>
    rw [hdone hok]
    exact h.wrote hq hu hs hw
  | compacted hc =>
    have hmark := h.quiet.inv.compact_watermark h.quiet.bounded h.quiet.marked hst
    have hrun : s.compact.1 = s' := congrArg Prod.fst hs'
    rw [hrun] at hmark
    simp only [hdone rfl, Op.records, Store.assignSeqs, List.append_nil]
    exact h.compacted hq hu hc hmark
  | @reopened opts _ hr =>
    have hopen : openStore opts s.close = .ok s' := by
      have hs' : s.apply (.reopen opts) = (s', none) := hs'
      rw [Store.apply] at hs'
      split at hs'
      case h_1 s₁ hs₁ =>
        cases hs'
        exact hs₁
      · cases hs'
    simp only [hdone rfl, Op.records, Store.assignSeqs, List.append_nil]
    refine h.reopened hq hu hr hlive (hst.2 s' ?_)
    rw [hopen]
    rfl

/-- **Above the watermark the log reaches back**: a key that changed since has a record
above the number in the files. -/
theorem Filed.spans (h : Filed s log) {q : UInt64} (hq : s.mergeSeq ≤ q) (k : Bytes) :
    latest (upTo q log) k = latest log k ∨ ∃ i r, Holds .every s.dir.bytes i r ∧ r.key = k ∧ q < r.seq := by
  by_cases hk : ∀ r ∈ log, r.key = k → r.seq ≤ q
  · exact .inl (h.ascending.latest_upTo hk)
  · push Not at hk
    obtain ⟨r, hr, hkey, hlt⟩ := hk
    have hlt := UInt64.not_le.mp hlt
    obtain ⟨i, hi⟩ := h.kept r hr (UInt64.lt_of_le_of_lt hq hlt)
    exact .inr ⟨i, r, hi, hkey, hlt⟩

theorem chronicled_init (opts : Options) : Chronicled ⟨Store.init opts, []⟩ := by
  have hnone {i : Nat} {r : Record} : ¬ Holds .every (Store.init opts).dir.bytes i r := by
    rintro ⟨b, hb, hr⟩
    rw [bytes_init hb] at hr
    exact absurd hr List.not_mem_nil
  refine ⟨⟨.nil, fun _ hr => absurd hr List.not_mem_nil, UInt64.le_refl _, fun _ _ hr => absurd hr hnone,
    fun _ _ hr => absurd hr hnone, fun _ hr => absurd hr List.not_mem_nil, fun i b hb => ?_,
    fun _ _ _ _ hr => absurd hr hnone, fun _ _ hr => absurd hr hnone⟩, (quiet_init opts).1, unbroken_init opts,
    (quiet_init opts).2, fun _ _ _ _ hr => absurd hr List.not_mem_nil⟩
  rw [bytes_init hb]
  exact .nil

/-- The list is written beside the store and does not change what it does. -/
theorem chronicle_store (c : Chronicle) (ops : List Op) :
    (chronicleMachine.run c ops).1.store = (storeMachine.run c.store ops).1 := by
  induction ops generalizing c with
  | nil => rfl
  | cons op rest ih =>
    have hstep : (c.step op).1.store = (c.store.apply op).1 := by
      rw [Chronicle.step]
      split <;> rename_i heq <;> rw [heq]
    show (chronicleMachine.run (c.step op).1 rest).1.store = (storeMachine.run (c.store.apply op).1 rest).1
    rw [ih, hstep]

/-- **After every steady history** the store stands beside its list. -/
theorem Chronicled.run {opts : Options} {ops : List Op} (h : chronicleMachine.Meets Steady ⟨Store.init opts, []⟩ ops) :
    Chronicled (chronicleMachine.run ⟨Store.init opts, []⟩ ops).1 :=
  h.invariant (P := Chronicled) (fun _ _ hc hst => hc.step hst) (chronicled_init opts)

/-- A store with a steady history, and the list of it. -/
theorem steady_store (opts : Options) (ops : List Op) (log : List Record)
    (h : chronicleMachine.Meets Steady ⟨Store.init opts, []⟩ ops)
    (hlog : (chronicleMachine.run ⟨Store.init opts, []⟩ ops).1.log = log) :
    Chronicled ⟨(storeMachine.run (Store.init opts) ops).1, log⟩ := by
  have hc := Chronicled.run h
  have hstore := chronicle_store ⟨Store.init opts, []⟩ ops
  generalize (chronicleMachine.run ⟨Store.init opts, []⟩ ops).1 = c at hc hlog hstore
  obtain ⟨s, l⟩ := c
  cases hlog
  cases hstore
  exact hc

end Chronicle

end Gokv.Engine
