import Gokv.Engine.Refinement

/-! A write whose file operations fail.

The write path of the store once more, with one of its file operations failing: the fsync
of the file that is rotated away, the creation of the next one, the fsync of the directory,
the write itself after some bytes, the fsync of the write. Without a failure it is the write
path (`writeWith_clean`). Up to the write nothing the store shows depends on what was done
so far, and a write that failed half way is cut off again, so the store is left as it was,
on disk and in memory. The last fsync is different: by then the records stand in the log and
the index has not seen them. The call reports an error, the store goes on without the
records, and the next `Open` finds them (`failed_write`). -/
namespace Gokv.Engine
open Base

/-- The file operation that fails. -/
inductive Fault where
  | rotateSync
  | create
  | syncDir
  /-- `WriteAt` has written this many bytes. -/
  | write (n : Nat)
  | sync
  deriving DecidableEq, Repr

/-- Why a call returns an error. -/
inductive Failure where
  | refused (err : Error)
  | injected (fault : Fault)
  deriving DecidableEq, Repr

namespace Store

def openNewActiveWith (fault : Option Fault) (s : Store) : Store × Option Failure :=
  if fault = some .create then (s, some (.injected .create))
  else
    match s.openNewActive with
    | (s, some e) => (s, some (.refused e))
    -- The fresh file is in place by the time the directory is synced.
    | (s, none) => (s, if fault = some .syncDir then some (.injected .syncDir) else none)

def maybeRotateWith (fault : Option Fault) (s : Store) (incoming : Nat) : Store × Option Failure :=
  if s.active.size = 0 ∨ s.active.size + incoming ≤ s.opts.limit then (s, none)
  else if fault = some .rotateSync then (s, some (.injected .rotateSync))
  else
    match s.dir.sync s.active.id with
    | .error e => (s, some (.refused e))
    | .ok dir =>
      match openNewActiveWith fault {s with dir := dir} with
      | (s', some e) => (s', some e)
      | (s', none) => ({s' with dirty := false, hinting := s.active.id :: s'.hinting}, none)

section Write
variable [Checksum]

/-- `WriteAt` fails after `n` bytes, and the file is cut back. -/
def tornWrite (s : Store) (n : Nat) (buf : Bytes) : Store × Option Failure :=
  match s.dir.writeAt s.active.id s.active.size (buf.take n) with
  | .error e => (s, some (.refused e))
  | .ok dir => ({s with dir := dir.truncate s.active.id s.active.size}, some (.injected (.write n)))

/-- The append and what follows it. -/
def finishWith (fault : Option Fault) (s : Store) (recs : List Record) (buf : Bytes) (offs : List Nat) :
    Store × Option Failure :=
  match s.dir.writeAt s.active.id s.active.size buf with
  | .error e => (s, some (.refused e))
  | .ok dir =>
    let size := s.active.size + buf.length
    let es := writeEntries s.active.id s.active.size recs offs
    let s := {s with dir := dir, active := ⟨s.active.id, size⟩,
                     files := s.files.alter s.active.id (Option.map fun _ => size),
                     total := s.total + buf.length, dirty := true}
    if s.opts.syncMode = .always then
      if fault = some .sync then (s, some (.injected .sync))
      else
        match s.dir.sync s.active.id with
        | .error e => (s, some (.refused e))
        | .ok dir => (indexWrite {s with dir := dir, dirty := false} es, none)
    else (s.indexWrite es, none)

def writeWith (fault : Option Fault) (s : Store) (recs : List Record) : Store × Option Failure :=
  let (buf, offs) := writeBuffer [] recs
  match s.maybeRotateWith fault buf.length with
  | (s, some e) => (s, some e)
  | (s, none) =>
    match fault with
    | some (.write n) => s.tornWrite n buf
    | _ => s.finishWith fault recs buf offs

def appendLockedWith (fault : Option Fault) (s : Store) (recs : List Record) : Store × Option Failure :=
  writeWith fault {s with seq := s.seq + UInt64.ofNat recs.length} (assignSeqs s.seq recs)

def putWith (fault : Option Fault) (s : Store) (now : Int64) (key value : Bytes) : Store × Option Failure :=
  match validateKey key with
  | some e => (s, some (.refused e))
  | none =>
    if maxValueSize < value.length then (s, some (.refused .valueTooLong))
    else if s.closed then (s, some (.refused .closed))
    else s.appendLockedWith fault [putRecord now key value]

def batchPutWith (fault : Option Fault) (s : Store) (now : Int64) (keys values : List Bytes) : Store × Option Failure :=
  if keys.length ≠ values.length then (s, some (.refused .batchLen))
  else if keys.length = 0 then (s, none)
  else
    match validateBatch (keys.zip values) with
    | some e => (s, some (.refused e))
    | none =>
      if s.closed then (s, some (.refused .closed))
      else s.appendLockedWith fault (batchRecords now (keys.zip values))

def deleteWith (fault : Option Fault) (s : Store) (now : Int64) (key : Bytes) : Store × Option Failure :=
  match validateKey key with
  | some e => (s, some (.refused e))
  | none =>
    if !s.isLive key then (s, some (.refused .keyNotFound))
    else if s.closed then (s, some (.refused .closed))
    else s.appendLockedWith fault [deleteRecord now key]

/-- A client's write with a failing file operation. -/
def applyWith (fault : Option Fault) (s : Store) : Op → Store × Option Failure
  | .put now key value => s.putWith fault now key value
  | .batchPut now keys values => s.batchPutWith fault now keys values
  | .delete now key => s.deleteWith fault now key
  | _ => (s, none)

end Write

end Store

section Faults
variable [Checksum] {s s₁ s' : Store} {fault : Option Fault} {op : Op} {recs : List Record} {buf : Bytes}
    {offs : List Nat}

/-! ### The two write paths -/

theorem writeWith_rotated (hbuf : Store.writeBuffer [] recs = (buf, offs))
    (hrot : s.maybeRotateWith fault buf.length = (s₁, none)) (hwrite : ∀ n, fault ≠ some (.write n)) :
    s.writeWith fault recs = s₁.finishWith fault recs buf offs := by
  rw [Store.writeWith, hbuf]
  simp only [hrot]

/-- **Without a failure** this is the write path. -/
theorem writeWith_clean (hbuf : Store.writeBuffer [] recs = (buf, offs))
    (hrot : s.maybeRotateWith fault buf.length = (s₁, none)) (hrot' : s.maybeRotateLocked buf.length = (s₁, none))
    (hwrite : ∀ n, fault ≠ some (.write n)) (hsync : fault = some .sync → s₁.opts.syncMode ≠ .always) :
    s.writeWith fault recs = ((s.writeLocked recs).1, (s.writeLocked recs).2.map .refused) := by
  rw [writeWith_rotated hbuf hrot hwrite, Store.finishWith, Store.writeLocked, Store.logWrite, hbuf]
  simp only [hrot']
  cases s₁.dir.writeAt s₁.active.id s₁.active.size buf with
  | error e => rfl
  | ok dir =>
    by_cases hmode : s₁.opts.syncMode = .always
    · simp only [if_pos hmode, if_neg fun h => hsync h hmode]
      cases dir.sync s₁.active.id <;> rfl
    · simp only [if_neg hmode]
      rfl

/-- The store as if no write were to be synced. -/
def Store.lazy (s : Store) : Store := {s with opts := {s.opts with syncMode := .never}}

omit [Checksum] in
theorem maybeRotate_lazy (s : Store) (n : Nat) :
    s.lazy.maybeRotateLocked n = ((s.maybeRotateLocked n).1.lazy, (s.maybeRotateLocked n).2) := by
  rw [Store.maybeRotateLocked, Store.maybeRotateLocked]
  by_cases hroom : s.active.size = 0 ∨ s.active.size + n ≤ s.opts.limit
  · rw [if_pos hroom]
    exact if_pos hroom
  · rw [if_neg hroom]
    refine (if_neg hroom).trans ?_
    show (match s.dir.sync s.active.id with | .error e => _ | .ok dir => _) = _
    cases s.dir.sync s.active.id with
    | error e => rfl
    | ok dir =>
      simp only [Store.openNewActive]
      show (match (match dir.create s.nextID with | .error e => _ | .ok dir => _ : Store × Option Error) with
        | (s', some e) => _ | (s', none) => _) = _
      cases dir.create s.nextID <;> rfl

/-- **Where the last fsync fails**, the store is left as a lazy one before the index sees
the write. -/
theorem writeWith_sync (hbuf : Store.writeBuffer [] recs = (buf, offs))
    (hrot : s.maybeRotateWith (some .sync) buf.length = (s₁, none))
    (hrot' : s.maybeRotateLocked buf.length = (s₁, none))
    (hmode : s₁.opts.syncMode = .always) {t : Store} {es : List (Bytes × Entry)}
    (hlog : s.lazy.logWrite recs = (t, .ok es)) :
    ∃ s', s.writeWith (some .sync) recs = (s', some (.injected .sync)) ∧ s'.lazy = t := by
  rw [writeWith_rotated hbuf hrot (by rintro _ ⟨⟩), Store.finishWith]
  rw [Store.logWrite, hbuf] at hlog
  simp only [maybeRotate_lazy, hrot'] at hlog
  cases hw : s₁.dir.writeAt s₁.active.id s₁.active.size buf with
  | error e =>
    have hw' : s₁.lazy.dir.writeAt s₁.lazy.active.id s₁.lazy.active.size buf = .error e := hw
    simp only [hw'] at hlog
    cases hlog
  | ok dir =>
    have hw' : s₁.lazy.dir.writeAt s₁.lazy.active.id s₁.lazy.active.size buf = .ok dir := hw
    have hnever : ¬ s₁.lazy.opts.syncMode = .always := by rintro ⟨⟩
    simp only [hw', if_neg hnever] at hlog
    simp only [if_pos hmode, if_true]
    refine ⟨_, rfl, ?_⟩
    obtain ⟨rfl, -⟩ := Prod.mk.inj hlog
    rfl

/-! ### What a failure leaves -/

/-- The store goes on as it was, perhaps with a fresh file. -/
structure Unharmed (s s' : Store) : Prop where
  quiet : Quiet s'
  liveMap : s'.liveMap = s.liveMap
  nextID : s'.nextID ≤ s.nextID + 1

/-- Only what no reader looks at has changed. -/
theorem Quiet.unharmed (h : Quiet s) (hs : Same s s') (ha : s'.active = s.active) (hq : s.seq ≤ s'.seq)
    (hm : s'.mergeSeq = s.mergeSeq) (hman : s'.dir.manifest = s.dir.manifest) : Unharmed s s' := by
  refine ⟨⟨h.inv.same hs ha, fun i r hr => ?_, ?_⟩, h.inv.toMounted.liveMap_same hs, hs.nextID.le.trans (Nat.le_succ _)⟩
  · rw [hs.bytes] at hr
    exact UInt64.le_trans (h.bounded i r hr) hq
  · rw [Marked, hman, hm]
    exact h.marked

theorem Quiet.withActive (h : Quiet s) : Unharmed s s.withActive := by
  refine ⟨⟨h.inv.withActive, fun i r hr => ?_, h.marked⟩, ?_, le_rfl⟩
  · rw [bytes_withActive, holds_create h.inv.notMem_nextID] at hr
    exact h.bounded i r hr
  · refine h.inv.toMounted.liveMap_eq rfl fun k e r hr _ => ?_
    rw [bytes_withActive]
    exact hr.create h.inv.notMem_nextID

theorem Quiet.rotated (h : Quiet s) (hwf : Wf .committed s' []) (happ : Appended s s' []) (hkeys : s'.keys = s.keys) :
    Unharmed s s' := by
  have hnil : ∀ r ∈ ([] : List Record), r.Sized := fun r hr => absurd hr List.not_mem_nil
  have hholds {i : Nat} {r : Record} : Holds .committed s'.dir.bytes i r ↔ Holds .committed s.dir.bytes i r := by
    rw [happ.holds h.inv.toWf hnil Reading.whole_nil]
    simp
  have hwf : Wf .committed s' (placed s'.active.id 0 []) := hwf
  refine ⟨⟨h.inv.appended happ hkeys hwf hnil Reading.whole_nil fun i j r r' hr hr' => ?_,
    fun i r hr => ?_, ?_⟩, ?_, ?_⟩
  · exact h.inv.agree i j r r' (hholds.mp hr) (hholds.mp hr')
  · rw [happ.seq]
    exact h.bounded i r (hholds.mp hr)
  · rw [Marked, happ.manifest, happ.mergeSeq]
    exact h.marked
  · exact h.inv.toMounted.liveMap_eq hkeys fun _ _ _ hr _ => happ.located h.inv.toWf hnil Reading.whole_nil hr
  · rcases happ.active with ⟨-, hn, -⟩ | ⟨-, hn, -⟩
    · exact hn.le.trans (Nat.le_succ _)
    · exact hn.le

/-- **A rotation** goes through, or fails and leaves the store unharmed. -/
theorem Quiet.maybeRotateWith (h : Quiet s) (hid : s.nextID + 1 < 2 ^ 32) (fault : Option Fault) (n : Nat) :
    (∃ s', s.maybeRotateWith fault n = (s', none) ∧ s.maybeRotateLocked n = (s', none) ∧ Unharmed s s') ∨
      ∃ s' f, s.maybeRotateWith fault n = (s', some (.injected f)) ∧ fault = some f ∧ f ≠ .sync ∧ Unharmed s s' := by
  obtain ⟨b, hb, -⟩ := h.inv.active
  by_cases hroom : s.active.size = 0 ∨ s.active.size + n ≤ s.opts.limit
  · exact .inl ⟨s, if_pos hroom, if_pos hroom, h, rfl, Nat.le_succ _⟩
  have hbase : s.maybeRotateWith fault n = if fault = some .rotateSync then (s, some (.injected .rotateSync))
      else match s.dir.sync s.active.id with
        | .error e => (s, some (.refused e))
        | .ok dir =>
          match Store.openNewActiveWith fault {s with dir := dir} with
          | (s', some e) => (s', some e)
          | (s', none) => ({s' with dirty := false, hinting := s.active.id :: s'.hinting}, none) := if_neg hroom
  rw [hbase]
  by_cases hrs : fault = some .rotateSync
  · exact .inr ⟨s, .rotateSync, if_pos hrs, hrs, nofun, h, rfl, Nat.le_succ _⟩
  obtain ⟨d, hd, hbytes, hhints, hman, -⟩ := Dir.sync_ok hb
  have hsynced : Unharmed s {s with dir := d} :=
    h.unharmed ⟨rfl, hbytes, hhints, rfl, rfl, rfl, rfl⟩ rfl (UInt64.le_refl _) rfl hman
  rw [if_neg hrs, hd]
  by_cases hcr : fault = some .create
  · exact .inr ⟨_, .create, by simp only [Store.openNewActiveWith, if_pos hcr], hcr, nofun, hsynced⟩
  have hopen := hsynced.quiet.inv.openNewActive hid
  have hfresh := hsynced.quiet.withActive
  by_cases hsd : fault = some .syncDir
  · refine .inr ⟨_, .syncDir, by simp only [Store.openNewActiveWith, if_neg hcr, hopen, if_pos hsd], hsd, nofun,
      hfresh.quiet, hfresh.liveMap.trans hsynced.liveMap, le_rfl⟩
  · obtain ⟨s', hs', hwf, happ, hkeys, -⟩ := h.inv.toWf.maybeRotate n hid
    refine .inl ⟨s', ?_, hs', ?_⟩
    · rw [Store.maybeRotateLocked, if_neg hroom, hd] at hs'
      simp only [hopen] at hs'
      simp only [Store.openNewActiveWith, if_neg hcr, hopen, if_neg hsd]
      rw [(Prod.mk.inj hs').1]
    · exact h.rotated hwf happ hkeys

/-- **A write that fails half way** is cut off again. -/
theorem Quiet.tornWrite (h : Quiet s) (n : Nat) (buf : Bytes) :
    ∃ s', s.tornWrite n buf = (s', some (.injected (.write n))) ∧ Unharmed s s' ∧ s'.nextID = s.nextID := by
  obtain ⟨b, hb, hsize, -⟩ := h.inv.active
  obtain ⟨d, hd, hbytes, hhints, hman, -⟩ := Dir.writeAt_end hb (buf.take n)
  rw [hsize] at hd
  have hcut : (d.truncate s.active.id s.active.size).bytes = s.dir.bytes := by
    rw [Dir.bytes_truncate, hbytes, Function.update_idem, Function.update_self, Option.map_some, ← hsize,
      List.take_left', Function.update_eq_self_iff.mpr hb.symm]
    rfl
  refine ⟨{s with dir := d.truncate s.active.id s.active.size}, by rw [Store.tornWrite, hd], ?_, rfl⟩
  exact h.unharmed ⟨rfl, hcut, hhints, rfl, rfl, rfl, rfl⟩ rfl (UInt64.le_refl _) rfl hman

/-- The store of a write whose last fsync fails: it shows what it showed, and its files are
those of a store that shows the write. -/
structure Unseen (s s' : Store) (op : Op) : Prop where
  liveMap : s'.liveMap = s.liveMap
  seen : ∃ t : Store, t.close = s'.close ∧ Quiet t ∧ t.liveMap = (Map.apply s.liveMap op).1 ∧ t.nextID ≤ s.nextID + 1

omit [Checksum] in
/-- What `Close` leaves is a matter of the files and of what is to be synced. -/
theorem close_congr (hd : s'.dir = s.dir) (ha : s'.active = s.active) (hdirty : s'.dirty = s.dirty) :
    s'.close = s.close := by
  rw [Store.close, Store.close, Store.sync, Store.sync, hd, ha, hdirty]
  cases s.dirty with
  | false => exact hd
  | true =>
    simp only [Bool.not_true, Bool.false_eq_true, if_false]
    cases s.dir.sync s.active.id with
    | error e => exact hd
    | ok dir => rfl

/-- The first half of a write, without the fsync. -/
theorem Quiet.unseen (h : Quiet s) (hok : op.refusal s.liveMap = none) (hw : Writes s op) :
    ∃ (t : Store) (pend : Pending), s.lazy.startWrite op.records = (t, .ok pend.entries) ∧
      ∀ s' : Store, s'.lazy = t → Unseen s s' op := by
  have hlazy : Same s s.lazy := ⟨rfl, rfl, rfl, rfl, rfl, rfl, rfl⟩
  have hinv := h.inv.same hlazy rfl
  have hbound : Bounded .committed s.lazy := h.bounded
  obtain ⟨t, pend, hlog, hl⟩ := hinv.startWrite hbound hw.sized hw.group hw.addressable hw.seq hw.id
  have hwritten := hl.written hbound hinv.toWf
  obtain ⟨l, n, heq⟩ := indexWrite_eq t pend.entries
  refine ⟨t, pend, hlog, fun s' hs' => ⟨?_, t.indexWrite pend.entries, ?_, ⟨hwritten.inv, hwritten.bounded, ?_⟩,
    ?_, ?_⟩⟩
  · have : t.liveMap = s.liveMap := hl.liveMap
    rw [← this, ← hs']
    rfl
  · rw [heq, ← hs']
    exact close_congr rfl rfl rfl
  · rw [Marked, hwritten.appended.manifest, hwritten.appended.mergeSeq]
    exact h.marked
  · have hlive : (t.indexWrite pend.entries).liveMap = applyRecords s.liveMap op.records := hwritten.liveMap
    rw [hlive, hw.map, Map.apply, hok]
  · rcases hwritten.appended.active with ⟨-, hn, -⟩ | ⟨-, hn, -⟩
    · exact hn.le.trans (Nat.le_succ _)
    · exact hn.le

/-- **An accepted write** succeeds, leaves the store unharmed, or stays unseen. -/
theorem Quiet.appendLockedWith (h : Quiet s) (hok : op.refusal s.liveMap = none) (hw : Writes s op)
    (fault : Option Fault) :
    (s.appendLockedWith fault op.records).2 = none ∨
      (∃ s' f, s.appendLockedWith fault op.records = (s', some (.injected f)) ∧ fault = some f ∧ f ≠ .sync ∧
        Unharmed s s') ∨
      ∃ s', s.appendLockedWith fault op.records = (s', some (.injected .sync)) ∧ fault = some .sync ∧
        Unseen s s' op := by
  have hnum : Unharmed s {s with seq := s.seq + UInt64.ofNat op.records.length} := by
    refine h.unharmed ⟨rfl, rfl, rfl, rfl, rfl, rfl, rfl⟩ rfl ?_ rfl rfl
    have := toNat_advance hw.seq
    refine UInt64.le_iff_toNat_le.mpr ?_
    show s.seq.toNat ≤ (s.seq + UInt64.ofNat op.records.length).toNat
    omega
  obtain ⟨buf, offs, hbuf⟩ : ∃ buf offs, Store.writeBuffer [] (Store.assignSeqs s.seq op.records) =
    (buf, offs) := ⟨_, _, rfl⟩
  rw [Store.appendLockedWith]
  rcases hnum.quiet.maybeRotateWith hw.id fault buf.length with ⟨s₁, hrot, hrot', hun⟩ | ⟨s₁, f, hrot, hf, hne, hun⟩
  · by_cases hwrite : ∃ n, fault = some (.write n)
    · obtain ⟨n, rfl⟩ := hwrite
      obtain ⟨s', hs', hun', hid⟩ := hun.quiet.tornWrite n buf
      refine .inr (.inl ⟨s', .write n, ?_, rfl, nofun, hun'.quiet, hun'.liveMap.trans hun.liveMap,
        hid.le.trans hun.nextID⟩)
      rw [Store.writeWith, hbuf]
      simp only [hrot, hs']
    · have hwrite : ∀ n, fault ≠ some (.write n) := fun n hn => hwrite ⟨n, hn⟩
      by_cases hsync : fault = some .sync ∧ s₁.opts.syncMode = .always
      · obtain ⟨rfl, hmode⟩ := hsync
        obtain ⟨t, pend, hlog, hunseen⟩ := h.unseen hok hw
        obtain ⟨s', hs', hlazy⟩ := writeWith_sync hbuf hrot hrot' hmode hlog
        exact .inr (.inr ⟨s', hs', rfl, hunseen s' hlazy⟩)
      · left
        have hclean := writeWith_clean hbuf hrot hrot' hwrite fun hf hm => hsync ⟨hf, hm⟩
        obtain ⟨s', hs', -⟩ := h.write hok hw
        have hs' : Store.writeLocked {s with seq := s.seq + UInt64.ofNat op.records.length}
          (Store.assignSeqs s.seq op.records) = (s', none) := hs'
        rw [hclean, hs']
        rfl
  · refine .inr (.inl ⟨s₁, f, ?_, hf, hne, hun.quiet, hun.liveMap, hun.nextID⟩)
    rw [Store.writeWith, hbuf]
    simp only [hrot]

/-! ### The operations -/

/-- **A client's write** is refused as the map calls for, or appends its records. -/
theorem Wf.applyWith_local {ρ : Reading} (h : Wf ρ s []) (hop : op.Local) (fault : Option Fault) :
    s.applyWith fault op =
      match op.refusal s.liveMap with
      | some e => (s, some (.refused e))
      | none => if op.records = [] then (s, none) else s.appendLockedWith fault op.records := by
  have hrun := h.running
  cases op with
  | put now key value =>
    simp only [Store.applyWith, Store.putWith, Op.refusal, Op.records, hrun]
    cases Store.validateKey key with
    | some e => rfl
    | none =>
      by_cases hv : maxValueSize < value.length
      · simp [hv]
      · simp [hv]
  | batchPut now keys values =>
    simp only [Store.applyWith, Store.batchPutWith, Op.refusal, hrun]
    by_cases hlen : keys.length = values.length
    · have hempty : keys.length = 0 ↔ (Op.batchPut now keys values).records = [] := by
        rw [← List.length_eq_zero_iff (l := (Op.batchPut now keys values).records), Op.records, length_batchRecords,
          List.length_zip, hlen, Nat.min_self]
      rw [if_neg (not_not.mpr hlen), if_neg (not_not.mpr hlen)]
      by_cases hnil : keys.length = 0
      · simp only [if_pos hnil, if_pos (hempty.mp hnil)]
        rw [List.eq_nil_of_length_eq_zero hnil]
        rfl
      · simp only [if_neg hnil, if_neg fun hz => hnil (hempty.mpr hz)]
        rfl
    · rw [if_pos hlen, if_pos hlen]
  | delete now key =>
    simp only [Store.applyWith, Store.deleteWith, Op.refusal, Op.records, hrun, h.isLive_eq key]
    cases Store.validateKey key with
    | some e => rfl
    | none =>
      cases s.liveMap key with
      | none => rfl
      | some v => simp
  | compact | reopen _ | sync | hint _ => exact hop.elim

/-- **A write that returns an error** leaves the live map as it was; closed and opened, the
store shows it again exactly if the last fsync did not fail or the write would have changed
nothing. -/
theorem failed_write (h : Quiet s) (hop : op.Local) (hf : Fits s op) (hid : s.nextID + 2 < 2 ^ 32)
    (fault : Option Fault) (hfail : (s.applyWith fault op).2 ≠ none) (opts : Options) :
    (s.applyWith fault op).1.liveMap = s.liveMap ∧
      ∃ s', openStore opts (s.applyWith fault op).1.close = .ok s' ∧
        (s'.liveMap = s.liveMap ↔ (fault = some .sync → (Map.apply s.liveMap op).1 = s.liveMap)) := by
  have hreopens {t : Store} (ht : Unharmed s t) : t.liveMap = s.liveMap ∧ ∃ s', openStore opts t.close = .ok s' ∧
      s'.liveMap = s.liveMap := by
    have hfit : Fits t (.reopen opts) := by
      have := ht.nextID
      rw [Fits]
      omega
    obtain ⟨s', hs', -, hlive, -⟩ := ht.quiet.reopen hfit
    exact ⟨ht.liveMap, s', hs', hlive.trans ht.liveMap⟩
  rw [h.inv.toWf.applyWith_local hop fault] at hfail ⊢
  cases hok : op.refusal s.liveMap with
  | some e =>
    obtain ⟨hlive, s', hs', hsame⟩ := hreopens ⟨h, rfl, Nat.le_succ _⟩
    refine ⟨hlive, s', hs', iff_of_true hsame fun _ => ?_⟩
    rw [Map.apply, hok]
  | none =>
    rw [hok] at hfail
    by_cases hnil : op.records = []
    · simp only [if_pos hnil] at hfail
      exact absurd rfl hfail
    · simp only [if_neg hnil] at hfail ⊢
      have hw := (Op.records_ne_nil_valid hop hok hnil).writes hf
      rcases h.appendLockedWith hok hw fault with hnone | ⟨t, f, ht, rfl, hne, hun⟩ | ⟨t, ht, rfl, hunseen⟩
      · exact absurd hnone hfail
      · rw [ht]
        obtain ⟨hlive, s', hs', hsame⟩ := hreopens hun
        exact ⟨hlive, s', hs', iff_of_true hsame fun hsync => absurd (Option.some.inj hsync) hne⟩
      · rw [ht]
        obtain ⟨u, hclose, hquiet, hlive, hnext⟩ := hunseen.seen
        have hfit : Fits u (.reopen opts) := by
          rw [Fits]
          omega
        obtain ⟨s', hs', -, hlive', -⟩ := hquiet.reopen hfit
        rw [hclose] at hs'
        refine ⟨hunseen.liveMap, s', hs', ?_⟩
        rw [hlive', hlive]
        exact ⟨fun heq _ => heq, fun himp => himp rfl⟩

end Faults

/-- A write fails after three bytes; the store is opened again and shows what it showed. -/
theorem failed_write_torn : ∃ s', openStore ⟨0, .always⟩
    (Store.applyWith (some (.write 3)) (Store.init ⟨0, .always⟩) (.put 0 [1] [7])).1.close = .ok s' ∧
      s'.liveMap = (Store.init ⟨0, .always⟩).liveMap := by
  obtain ⟨-, s', hs', hiff⟩ := failed_write (quiet_init ⟨0, .always⟩).1
    (show Op.Local (.put 0 [1] [7]) from trivial) (by decide +kernel)
    (by decide +kernel) (some (.write 3)) (by decide +kernel) ⟨0, .always⟩
  exact ⟨s', hs', hiff.mpr nofun⟩

/-- **A failed fsync and a write that returns.** The `Put` reports an error and the key is
not there; after a close and a reopening it is. -/
theorem unsynced_write_returns :
    (Store.applyWith (some .sync) (Store.init ⟨0, .always⟩) (.put 0 [1] [7])).2 = some (.injected .sync) ∧
    (Store.applyWith (some .sync) (Store.init ⟨0, .always⟩) (.put 0 [1] [7])).1.get [1] = .error .keyNotFound ∧
    (openStore ⟨0, .always⟩ (Store.applyWith (some .sync) (Store.init ⟨0, .always⟩)
      (.put 0 [1] [7])).1.close).toOption.map
      (fun s => s.liveMap [1]) = some (some [7]) := by
  decide +kernel

end Gokv.Engine
