import Gokv.Base.Run
import Gokv.Engine.Compaction
import Gokv.Engine.Reopen

/-! Histories of one store, run one operation at a time.

`Op` is what clients do, a clean close followed by `Open`, and what the background
does at its own time: the fsync timer and the construction of hints. `Map.apply`
is what an operation means: the map it leaves and the error it reports.
`Effect` says what an operation can do to the store, whole; `Quiet.apply` is the
one place where the operations are looked into, and everything about histories
follows from it. `Fits` is what the machine widths ask of a step. -/
namespace Gokv.Engine
open Base

inductive Op where
  | put (now : Int64) (key value : Bytes)
  | batchPut (now : Int64) (keys values : List Bytes)
  | delete (now : Int64) (key : Bytes)
  | compact
  /-- A clean `Close`, then `Open`. -/
  | reopen (opts : Options)
  /-- `Sync`, also what the background timer runs. -/
  | sync
  /-- The background construction of the hint of a rotated file. -/
  | hint (id : Nat)

/-! ### What operations mean -/

abbrev Map := Bytes → Option Bytes

namespace Op

/-- The error an operation reports on a map, if any. -/
def refusal (m : Map) : Op → Option Error
  | .put _ key value =>
    match Store.validateKey key with
    | some e => some e
    | none => if maxValueSize < value.length then some .valueTooLong else none
  | .batchPut _ keys values =>
    if keys.length ≠ values.length then some .batchLen else Store.validateBatch (keys.zip values)
  | .delete _ key =>
    match Store.validateKey key with
    | some e => some e
    | none => if (m key).isNone then some .keyNotFound else none
  | _ => none

/-- What an operation assigns, in order; `none` removes the key. -/
def updates : Op → List (Bytes × Option Bytes)
  | .put _ key value => [(key, some value)]
  | .batchPut _ keys values => (keys.zip values).map fun x => (x.1, some x.2)
  | .delete _ key => [(key, none)]
  | _ => []

/-- The records an operation appends, numbers apart. -/
def records : Op → List Record
  | .put now key value => [Store.putRecord now key value]
  | .batchPut now keys values => Store.batchRecords now (keys.zip values)
  | .delete now key => [Store.deleteRecord now key]
  | _ => []

/-- What a write checks of its arguments before it takes the write lock. -/
def Valid : Op → Prop
  | .put _ key value => Store.validateKey key = none ∧ value.length ≤ maxValueSize
  | .batchPut _ keys values => keys.length = values.length ∧ keys.length ≠ 0 ∧
      Store.validateBatch (keys.zip values) = none
  | .delete _ key => Store.validateKey key = none
  | _ => False

/-- A client's write. -/
def Local : Op → Prop
  | .put _ _ _ | .batchPut _ _ _ | .delete _ _ => True
  | _ => False

end Op

def Map.update (m : Map) (us : List (Bytes × Option Bytes)) : Map :=
  us.foldl (fun m x => Function.update m x.1 x.2) m

/-- What an operation means: the map it leaves and the error it reports. -/
def Map.apply (m : Map) (op : Op) : Map × Option Error :=
  match op.refusal m with
  | some e => (m, some e)
  | none => (m.update op.updates, none)

/-! ### The records of an operation -/

theorem validateKey_none {key : Bytes} (h : Store.validateKey key = none) :
    0 < key.length ∧ key.length ≤ maxKeySize := by
  unfold Store.validateKey at h
  split at h
  · cases h
  · split at h
    · cases h
    · omega

theorem validateBatch_none {pairs : List (Bytes × Bytes)} (h : Store.validateBatch pairs = none) :
    ∀ x ∈ pairs, Store.validateKey x.1 = none ∧ x.2.length ≤ maxValueSize := by
  induction pairs with
  | nil => exact fun x hx => absurd hx List.not_mem_nil
  | cons y rest ih =>
    obtain ⟨key, value⟩ := y
    rw [Store.validateBatch] at h
    cases hk : Store.validateKey key with
    | some e =>
      rw [hk] at h
      cases h
    | none =>
      rw [hk] at h
      by_cases hv : maxValueSize < value.length
      · simp only [if_pos hv] at h
        cases h
      · simp only [if_neg hv] at h
        intro x hx
        rcases List.mem_cons.mp hx with rfl | hx
        · exact ⟨hk, not_lt.mp hv⟩
        · exact ih h x hx

/-- A member of a batch, the last one apart. -/
def memberRecord (now : Int64) (x : Bytes × Bytes) : Record := ⟨now, 0, flagBatch, x.1, x.2⟩

def lastRecord (now : Int64) (x : Bytes × Bytes) : Record := ⟨now, 0, flagBatch ||| flagBatchEnd, x.1, x.2⟩

theorem memberRecord_flags (now : Int64) (x : Bytes × Bytes) : (memberRecord now x).batch = true ∧
    (memberRecord now x).batchEnd = false ∧ (memberRecord now x).payload = some x.2 := by
  refine ⟨?_, ?_, if_neg ?_⟩
  · show (flagBatch &&& flagBatch != 0) = true
    decide
  · show (flagBatch &&& flagBatchEnd != 0) = false
    decide
  · show ¬ (flagBatch &&& flagTombstone != 0) = true
    decide

theorem lastRecord_flags (now : Int64) (x : Bytes × Bytes) : (lastRecord now x).batch = true ∧
    (lastRecord now x).batchEnd = true ∧ (lastRecord now x).payload = some x.2 := by
  refine ⟨?_, ?_, if_neg ?_⟩
  · show ((flagBatch ||| flagBatchEnd) &&& flagBatch != 0) = true
    decide
  · show ((flagBatch ||| flagBatchEnd) &&& flagBatchEnd != 0) = true
    decide
  · show ¬ ((flagBatch ||| flagBatchEnd) &&& flagTombstone != 0) = true
    decide

theorem batchRecords_concat (now : Int64) (pairs : List (Bytes × Bytes)) (x : Bytes × Bytes) :
    Store.batchRecords now (pairs ++ [x]) = pairs.map (memberRecord now) ++ [lastRecord now x] := by
  induction pairs with
  | nil => rfl
  | cons y rest ih =>
    cases rest with
    | nil => rfl
    | cons z more =>
      rw [List.cons_append, List.cons_append, Store.batchRecords]
      · rw [← List.cons_append, ih]
        rfl
      · intro hnil
        simp at hnil

theorem isGroup_batchRecords (now : Int64) {pairs : List (Bytes × Bytes)} (h : pairs ≠ []) :
    IsGroup (Store.batchRecords now pairs) := by
  obtain ⟨init, x, rfl⟩ := pairs.eq_nil_or_concat'.resolve_left h
  obtain ⟨hb, he, _⟩ := lastRecord_flags now x
  refine ⟨init.map (memberRecord now), lastRecord now x, batchRecords_concat now init x, fun r hr => ?_,
    .inl ⟨hb, he⟩⟩
  obtain ⟨y, _, rfl⟩ := List.mem_map.mp hr
  exact ⟨(memberRecord_flags now y).1, (memberRecord_flags now y).2.1⟩

theorem mem_batchRecords {now : Int64} {pairs : List (Bytes × Bytes)} {r : Record}
    (h : r ∈ Store.batchRecords now pairs) : (r.key, r.value) ∈ pairs := by
  rcases pairs.eq_nil_or_concat' with rfl | ⟨init, x, rfl⟩
  · cases h
  · rw [batchRecords_concat] at h
    rcases List.mem_append.mp h with h | h
    · obtain ⟨y, hy, rfl⟩ := List.mem_map.mp h
      exact List.mem_append_left _ hy
    · rw [List.mem_singleton.mp h]
      exact List.mem_append_right _ (List.mem_singleton_self x)

theorem length_batchRecords (now : Int64) (pairs : List (Bytes × Bytes)) :
    (Store.batchRecords now pairs).length = pairs.length := by
  rcases pairs.eq_nil_or_concat' with rfl | ⟨init, x, rfl⟩
  · rfl
  · simp [batchRecords_concat]

theorem applyRecords_batchRecords (m : Map) (now : Int64) (pairs : List (Bytes × Bytes)) :
    applyRecords m (Store.batchRecords now pairs) = m.update (pairs.map fun x => (x.1, some x.2)) := by
  rcases pairs.eq_nil_or_concat' with rfl | ⟨init, x, rfl⟩
  · rfl
  · rw [batchRecords_concat, applyRecords, Map.update, List.foldl_append, List.foldl_map, List.foldl_map,
      List.foldl_append]
    simp only [(memberRecord_flags now _).2.2, List.foldl_cons, List.foldl_nil, (lastRecord_flags now x).2.2]
    rfl

/-! ### What operations do -/

section History
variable [Checksum]

def Store.apply (s : Store) : Op → Store × Option Error
  | .put now key value => s.put now key value
  | .batchPut now keys values => s.batchPut now keys values
  | .delete now key => s.delete now key
  | .compact => s.compact
  | .reopen opts =>
    match openStore opts s.close with
    | .ok s => (s, none)
    | .error e => (s, some e)
  | .sync => s.sync
  | .hint id => (s.finishHint id, none)

/-- The widths hold a step: the records of a batch start below 2^32 in its buffer,
and neither the sequence number nor the file counter wraps. -/
def Fits (s : Store) : Op → Prop
  | .put _ _ _ => s.seq.toNat + 1 < 2 ^ 64 ∧ s.nextID + 1 < 2 ^ 32
  | .batchPut _ keys values =>
    ((keys.zip values).dropLast.map fun x => recordHeaderSize + x.1.length + x.2.length).sum < 2 ^ 32 ∧
      s.seq.toNat + keys.length < 2 ^ 64 ∧ s.nextID + 1 < 2 ^ 32
  | .delete _ _ => s.seq.toNat + 1 < 2 ^ 64 ∧ s.nextID + 1 < 2 ^ 32
  | .compact => s.nextID + s.keys.size + 2 < 2 ^ 32
  | .reopen _ => s.nextID + 1 < 2 ^ 32
  | _ => True

omit [Checksum] in
instance decidableFits (s : Store) : (op : Op) → Decidable (Fits s op)
  | .put _ _ _ => inferInstanceAs (Decidable (_ ∧ _))
  | .batchPut _ _ _ => inferInstanceAs (Decidable (_ ∧ _ ∧ _))
  | .delete _ _ => inferInstanceAs (Decidable (_ ∧ _))
  | .compact => inferInstanceAs (Decidable (_ < _))
  | .reopen _ => inferInstanceAs (Decidable (_ < _))
  | .sync => inferInstanceAs (Decidable True)
  | .hint _ => inferInstanceAs (Decidable True)

/-- A store between operations. -/
structure Quiet (s : Store) : Prop where
  inv : Inv .committed s [] []
  bounded : Bounded .committed s
  marked : Marked s

/-- What the background and a refused operation leave alone. -/
structure Background (s s' : Store) : Prop where
  bytes : s'.dir.bytes = s.dir.bytes
  hints : ∀ id, id ∈ s.dir.hints → id ∈ s'.dir.hints
  keys : s'.keys = s.keys
  seq : s'.seq = s.seq
  active : s'.active = s.active
  nextID : s'.nextID = s.nextID
  opts : s'.opts = s.opts
  mergeSeq : s'.mergeSeq = s.mergeSeq
  synced : ∀ f : DiskFile, s.dir.data[s.active.id]? = some f → ∃ f', s'.dir.data[s.active.id]? = some f' ∧
    f'.bytes = f.bytes ∧ (f'.synced = f.synced ∨ f'.synced = f'.bytes.length)

/-- All an operation can do to a store. -/
inductive Effect (s : Store) : Op → Store → Prop
  | idle {op : Op} {s' : Store} (h : Background s s')
      (hop : op.refusal s.liveMap ≠ none ∨ op.records = [] ∧ op ≠ .compact) :
    Effect s op s'
  | wrote {op : Op} {s' : Store} (hg : IsGroup op.records) (hs : ∀ r ∈ op.records, r.Sized)
    (h : Written .committed s s' op.records) (hok : op.refusal s.liveMap = none) : Effect s op s'
  | compacted {s' : Store} (h : Compacted .committed s s') : Effect s .compact s'
  | reopened {opts : Options} {s' : Store} (h : Reopened .committed opts s.close s') : Effect s (.reopen opts) s'

variable {s s' : Store}

omit [Checksum] in
theorem Background.refl (s : Store) : Background s s :=
  ⟨rfl, fun _ h => h, rfl, rfl, rfl, rfl, rfl, rfl, fun f hf => ⟨f, hf, rfl, .inl rfl⟩⟩

theorem addressable_concat {init : List Record} (r : Record) (h : (encodeAll init).length < 2 ^ 32) :
    Addressable (init ++ [r]) := by
  intro x hx
  obtain ⟨before, after, hsplit, hpos, _⟩ := mem_layout hx
  have hpre : before <+: init := by
    refine List.prefix_of_prefix_length_le (show before <+: init ++ [r] from ⟨x.record :: after, hsplit.symm⟩)
      (List.prefix_append ..) ?_
    have := congrArg List.length hsplit
    simp only [List.length_append, List.length_cons, List.length_nil] at this
    omega
  obtain ⟨t, rfl⟩ := hpre
  rw [encodeAll_append, List.length_append] at h
  omega

theorem addressable_batchRecords {now : Int64} {pairs : List (Bytes × Bytes)}
    (h : (pairs.dropLast.map fun x => recordHeaderSize + x.1.length + x.2.length).sum < 2 ^ 32) :
    Addressable (Store.batchRecords now pairs) := by
  rcases pairs.eq_nil_or_concat' with rfl | ⟨init, x, rfl⟩
  · exact fun x hx => absurd hx List.not_mem_nil
  · rw [List.dropLast_concat] at h
    rw [batchRecords_concat]
    refine addressable_concat _ ?_
    have hlen : (encodeAll (init.map (memberRecord now))).length =
        (init.map fun x => recordHeaderSize + x.1.length + x.2.length).sum := by
      clear h
      induction init with
      | nil => rfl
      | cons y rest ih =>
        rw [List.map_cons, encodeAll_cons, List.length_append, ih, List.map_cons, List.sum_cons,
          Record.length_encode]
        rfl
    rw [hlen]
    exact h

/-! ### One operation -/

/-- An operation taken by a quiet store: where it leads, what it means, what it did. -/
structure Done (s : Store) (op : Op) (s' : Store) : Prop where
  quiet : Quiet s'
  liveMap : s'.liveMap = (Map.apply s.liveMap op).1
  effect : Effect s op s'

variable {op : Op}

/-- A refused operation changes nothing. -/
theorem Quiet.refused (h : Quiet s) {e : Error} (hop : op.refusal s.liveMap = some e) : Done s op s where
  quiet := h
  liveMap := by rw [Map.apply, hop]
  effect := .idle (.refl s) (.inl (by rw [hop]; exact Option.some_ne_none e))

omit [Checksum] in
theorem putRecord_payload (now : Int64) (key value : Bytes) :
    (Store.putRecord now key value).payload = some value ∧ (Store.putRecord now key value).batch = false := by
  refine ⟨if_neg ?_, ?_⟩
  · show ¬ ((0 : UInt8) &&& flagTombstone != 0) = true
    decide
  · show ((0 : UInt8) &&& flagBatch != 0) = false
    decide

omit [Checksum] in
theorem deleteRecord_payload (now : Int64) (key : Bytes) :
    (Store.deleteRecord now key).payload = none ∧ (Store.deleteRecord now key).batch = false := by
  refine ⟨if_pos ?_, ?_⟩
  · show (flagTombstone &&& flagTombstone != 0) = true
    decide
  · show (flagTombstone &&& flagBatch != 0) = false
    decide

/-- What the write path asks of the records of a write. -/
structure Writes (s : Store) (op : Op) : Prop where
  group : IsGroup op.records
  sized : ∀ r ∈ op.records, r.Sized
  addressable : Addressable op.records
  map : ∀ m : Map, applyRecords m op.records = m.update op.updates
  seq : s.seq.toNat + op.records.length < 2 ^ 64
  id : s.nextID + 1 < 2 ^ 32

omit [Checksum] in
theorem Op.Valid.isGroup (h : op.Valid) : IsGroup op.records := by
  cases op with
  | put now key value => exact isGroup_single _ (putRecord_payload now key value).2
  | batchPut now keys values =>
    obtain ⟨hlen, hnil, -⟩ := h
    have hpairs : (keys.zip values).length = keys.length := by rw [List.length_zip, hlen, Nat.min_self]
    exact isGroup_batchRecords now fun hz => hnil (hpairs.symm.trans (by rw [hz]; rfl))
  | delete now key => exact isGroup_single _ (deleteRecord_payload now key).2
  | compact | reopen _ | sync | hint _ => exact h.elim

omit [Checksum] in
theorem Op.Valid.sized (h : op.Valid) : ∀ r ∈ op.records, r.Sized := by
  intro r hr
  cases op with
  | put now key value =>
    obtain ⟨hpos, hle⟩ := validateKey_none h.1
    rw [List.mem_singleton.mp hr]
    exact ⟨hpos, hle, h.2⟩
  | batchPut now keys values =>
    obtain ⟨hk, hle⟩ := validateBatch_none h.2.2 _ (mem_batchRecords hr)
    obtain ⟨hpos, hmax⟩ := validateKey_none hk
    exact ⟨hpos, hmax, hle⟩
  | delete now key =>
    obtain ⟨hpos, hle⟩ := validateKey_none h
    rw [List.mem_singleton.mp hr]
    exact ⟨hpos, hle, Nat.zero_le _⟩
  | compact | reopen _ | sync | hint _ => exact h.elim

/-- **A valid write that fits can be written.** -/
theorem Op.Valid.writes (h : op.Valid) (hf : Fits s op) : Writes s op := by
  have hgroup := h.isGroup
  have hsized := h.sized
  cases op with
  | put now key value =>
    obtain ⟨hpay, -⟩ := putRecord_payload now key value
    refine ⟨hgroup, hsized, addressable_single _, fun m => ?_, hf.1, hf.2⟩
    show Function.update m key (Store.putRecord now key value).payload = _
    rw [hpay]
    rfl
  | batchPut now keys values =>
    obtain ⟨hlen, -, -⟩ := h
    have hpairs : (keys.zip values).length = keys.length := by rw [List.length_zip, hlen, Nat.min_self]
    refine ⟨hgroup, hsized, addressable_batchRecords hf.1, fun m => applyRecords_batchRecords m now _, ?_, hf.2.2⟩
    rw [Op.records, length_batchRecords, hpairs]
    exact hf.2.1
  | delete now key =>
    obtain ⟨hpay, -⟩ := deleteRecord_payload now key
    refine ⟨hgroup, hsized, addressable_single _, fun m => ?_, hf.1, hf.2⟩
    show Function.update m key (Store.deleteRecord now key).payload = _
    rw [hpay]
    rfl
  | compact | reopen _ | sync | hint _ => exact h.elim

/-- An accepted write appends its records. -/
theorem Quiet.write (h : Quiet s) (hok : op.refusal s.liveMap = none) (hw : Writes s op) :
    ∃ s', s.appendLocked op.records = (s', none) ∧ Done s op s' := by
  obtain ⟨s', hs', hwritten⟩ := h.inv.appendLocked h.bounded hw.sized hw.group hw.addressable hw.seq hw.id
  refine ⟨s', hs', ⟨hwritten.inv, hwritten.bounded, ?_⟩, ?_, .wrote hw.group hw.sized hwritten hok⟩
  · rw [Marked, hwritten.appended.manifest, hwritten.appended.mergeSeq]
    exact h.marked
  · rw [hwritten.liveMap, hw.map, Map.apply, hok]

omit [Checksum] in
theorem Op.records_ne_nil_valid (hop : op.Local) {m : Map} (hr : op.refusal m = none) (hne : op.records ≠ []) :
    op.Valid := by
  cases op with
  | put now key value =>
    cases hk : Store.validateKey key with
    | some e =>
      simp only [Op.refusal, hk] at hr
      cases hr
    | none =>
      simp only [Op.refusal, hk, ite_eq_right_iff, reduceCtorEq, imp_false, not_lt] at hr
      exact ⟨hk, hr⟩
  | batchPut now keys values =>
    simp only [Op.refusal] at hr
    split at hr
    · cases hr
    case isFalse hlen =>
      refine ⟨not_not.mp hlen, fun hnil => hne ?_, hr⟩
      rw [Op.records, List.eq_nil_of_length_eq_zero hnil, List.zip_nil_left]
      rfl
  | delete now key =>
    cases hk : Store.validateKey key with
    | some e =>
      simp only [Op.refusal, hk] at hr
      cases hr
    | none => exact hk
  | compact | reopen _ | sync | hint _ => exact hop.elim

omit [Checksum] in
/-- A write without records is an empty batch. -/
theorem Op.updates_nil (hop : op.Local) (hnil : op.records = []) : op.updates = [] := by
  cases op with
  | batchPut now keys values =>
    have hz := length_batchRecords now (keys.zip values)
    rw [show Store.batchRecords now (keys.zip values) = [] from hnil, List.length_nil] at hz
    rw [Op.updates, List.eq_nil_of_length_eq_zero hz.symm]
    rfl
  | put _ _ _ | delete _ _ => cases hnil
  | compact | reopen _ | sync | hint _ => exact hop.elim

/-- **A client's write** is refused as the map calls for, or appends its records. -/
theorem Store.apply_local (hrun : s.closed = false) (hlive : ∀ key, s.isLive key = (s.liveMap key).isSome)
    (hop : op.Local) :
    s.apply op =
      match op.refusal s.liveMap with
      | some e => (s, some e)
      | none => if op.records = [] then (s, none) else s.appendLocked op.records := by
  cases op with
  | put now key value =>
    simp only [Store.apply, Store.put, Op.refusal, Op.records, hrun]
    cases Store.validateKey key with
    | some e => rfl
    | none =>
      by_cases hv : maxValueSize < value.length
      · simp [hv]
      · simp [hv]
  | batchPut now keys values =>
    simp only [Store.apply, Store.batchPut, Op.refusal, hrun]
    by_cases hlen : keys.length = values.length
    · have hempty : keys.length = 0 ↔ (Op.batchPut now keys values).records = [] := by
        rw [← List.length_eq_zero_iff (l := (Op.batchPut now keys values).records), Op.records, length_batchRecords,
          List.length_zip, hlen, Nat.min_self]
      rw [if_neg (not_not.mpr hlen), if_neg (not_not.mpr hlen)]
      by_cases hnil : keys.length = 0
      · simp only [if_pos hnil, if_pos (hempty.mp hnil)]
        rw [List.eq_nil_of_length_eq_zero hnil]
        rfl
      · simp only [if_neg hnil, if_neg fun hz => hnil (hempty.mpr hz)]
        rfl
    · rw [if_pos hlen, if_pos hlen]
  | delete now key =>
    simp only [Store.apply, Store.delete, Op.refusal, Op.records, hrun, hlive key]
    cases Store.validateKey key with
    | some e => rfl
    | none =>
      cases s.liveMap key with
      | none => rfl
      | some v => simp
  | compact | reopen _ | sync | hint _ => exact hop.elim

theorem Wf.apply_local {ρ : Reading} (h : Wf ρ s []) (hop : op.Local) :
    s.apply op =
      match op.refusal s.liveMap with
      | some e => (s, some e)
      | none => if op.records = [] then (s, none) else s.appendLocked op.records :=
  Store.apply_local h.running h.isLive_eq hop

theorem Quiet.applyLocal (h : Quiet s) (hop : op.Local) (hf : Fits s op) :
    ∃ s', s.apply op = (s', op.refusal s.liveMap) ∧ Done s op s' := by
  rw [h.inv.toWf.apply_local hop]
  cases hr : op.refusal s.liveMap with
  | some e => exact ⟨s, rfl, h.refused hr⟩
  | none =>
    by_cases hnil : op.records = []
    · refine ⟨s, by simp only [hnil, if_true], h, ?_, .idle (.refl s) (.inr ⟨hnil, fun heq => ?_⟩)⟩
      · simp only [Map.apply, hr, Op.updates_nil hop hnil]
        rfl
      · rw [heq] at hop
        exact hop
    · obtain ⟨s', hs', hd⟩ := h.write hr ((Op.records_ne_nil_valid hop hr hnil).writes hf)
      exact ⟨s', by simp only [if_neg hnil, hs'], hd⟩

/-- A write that is valid, fits and is not refused takes its numbers and at most one
file id. -/
theorem Quiet.accepted (h : Quiet s) (op : Op) (hop : op.Valid) (hf : Fits s op) (hok : op.refusal s.liveMap = none) :
    ∃ s', s.apply op = (s', none) ∧ Quiet s' ∧ s'.liveMap = (Map.apply s.liveMap op).1 ∧ s'.nextID ≤ s.nextID + 1 ∧
      s'.seq.toNat = s.seq.toNat + op.records.length := by
  have hw := hop.writes hf
  have hlocal : op.Local := by
    cases op with
    | put _ _ _ | batchPut _ _ _ | delete _ _ => trivial
    | compact | reopen _ | sync | hint _ => exact hop
  obtain ⟨s', hs', hquiet, hlive, heffect⟩ := h.write hok hw
  refine ⟨s', ?_, hquiet, hlive, ?_⟩
  · rw [h.inv.toWf.apply_local hlocal, hok]
    simp only [if_neg hw.group.ne_nil, hs']
  · cases heffect with
    | idle _ hidle => exact absurd hw.group.ne_nil fun hne => hidle.elim (fun hr => hr hok) fun hr => hne hr.1
    | wrote _ _ hwritten _ =>
      refine ⟨?_, ?_⟩
      · rcases hwritten.appended.active with ⟨-, hn, -⟩ | ⟨-, hn, -⟩
        · exact hn.le.trans (Nat.le_succ _)
        · exact hn.le
      · rw [hwritten.appended.seq]
        exact toNat_advance hw.seq
    | compacted _ => exact hop.elim
    | reopened _ => exact hop.elim

section Upkeep
variable {ρ : Reading} {pend : Pending} {gone : List Nat}

theorem Wf.sync (h : Wf ρ s pend) : ∃ s', s.sync = (s', none) ∧ Same s s' ∧ Background s s' ∧
    s'.dir.manifest = s.dir.manifest := by
  rw [Store.sync]
  cases s.dirty with
  | false => exact ⟨s, rfl, .refl s, .refl s, rfl⟩
  | true =>
    obtain ⟨b, hb, _⟩ := h.active
    obtain ⟨d, hd, hbytes, hhints, hman, ⟨f', hf', hsync⟩, _⟩ := Dir.sync_ok hb
    simp only [Bool.not_true, Bool.false_eq_true, if_false, hd]
    refine ⟨_, rfl, ⟨rfl, hbytes, hhints, rfl, rfl, rfl, rfl⟩,
      ⟨hbytes, fun id hid => hhints ▸ hid, rfl, rfl, rfl, rfl, rfl, rfl, fun f hf => ⟨f', hf', ?_, .inr hsync⟩⟩, hman⟩
    have := congrFun hbytes s.active.id
    simp only [Dir.bytes, hf, hf', Option.map_some, Option.some.injEq] at this
    exact this

theorem Wf.close (h : Wf ρ s pend) : s.close.bytes = s.dir.bytes ∧ s.close.hints = s.dir.hints ∧
    s.close.manifest = s.dir.manifest := by
  obtain ⟨s', hs', hsame, _, hman⟩ := h.sync
  rw [Store.close, hs']
  exact ⟨hsame.bytes, hsame.hints, hman⟩

theorem Inv.finishHint (h : Inv ρ s pend gone) (id : Nat) : Inv ρ (s.finishHint id) pend gone := by
  rw [Store.finishHint]
  by_cases hid : id ∉ s.hinting
  · rw [if_pos hid]
    exact h
  · rw [if_neg hid]
    have hmem := not_not.mp hid
    have hne : id ≠ s.active.id := fun heq => h.noHint (.inr (heq ▸ hmem))
    -- The id leaves the list either way; a hint is renamed only if the file is there.
    have herase {t : Store} (ht : Inv ρ t pend gone) (hh : t.hinting = s.hinting) :
        Inv ρ {t with hinting := s.hinting.erase id} pend gone :=
      {ht with
        hintIDs := fun i hi => ht.hintIDs i (hi.imp (fun hi => hi) fun hi => hh ▸ List.mem_of_mem_erase hi)
        hinting := fun i b hi hb => ht.hinting i b (hh ▸ List.mem_of_mem_erase hi) hb
        noHint := fun hi => ht.noHint (hi.imp (fun hi => hi) fun hi => hh ▸ List.mem_of_mem_erase hi) }
    cases hf : s.dir.data[id]? with
    | none => exact herase h rfl
    | some f =>
      have hb : s.dir.bytes id = some f.bytes := by rw [Dir.bytes, hf]; rfl
      exact herase (h.renameHint hb (h.hinting id _ hmem hb) hne) rfl

theorem background_finishHint (s : Store) (id : Nat) :
    Background s (s.finishHint id) ∧ (s.finishHint id).dir.data = s.dir.data ∧
      (s.finishHint id).dir.manifest = s.dir.manifest := by
  have hsame {f : DiskFile} (hf : s.dir.data[s.active.id]? = some f) : ∃ f', s.dir.data[s.active.id]? = some f' ∧
      f'.bytes = f.bytes ∧ (f'.synced = f.synced ∨ f'.synced = f'.bytes.length) := ⟨f, hf, rfl, .inl rfl⟩
  rw [Store.finishHint]
  split
  · exact ⟨.refl s, rfl, rfl⟩
  · split
    · exact ⟨⟨rfl, fun _ hi => hi, rfl, rfl, rfl, rfl, rfl, rfl, fun _ hf => hsame hf⟩, rfl, rfl⟩
    · refine ⟨⟨rfl, fun i hi => ?_, rfl, rfl, rfl, rfl, rfl, rfl, fun _ hf => hsame hf⟩, rfl, rfl⟩
      exact Std.ExtTreeMap.mem_insert.mpr (.inr hi)

end Upkeep

theorem Quiet.sync (h : Quiet s) : ∃ s', s.sync = (s', none) ∧ Quiet s' ∧ Background s s' := by
  obtain ⟨s', hs', hsame, hb, hman⟩ := h.inv.toWf.sync
  refine ⟨s', hs', ⟨h.inv.same hsame hb.active, fun i r hr => ?_, ?_⟩, hb⟩
  · rw [hb.seq]
    exact h.bounded i r (hb.bytes ▸ hr)
  · rw [Marked, hman, hb.mergeSeq]
    exact h.marked

theorem Quiet.finishHint (h : Quiet s) (id : Nat) :
    Quiet (s.finishHint id) ∧ Background s (s.finishHint id) ∧ (s.finishHint id).dir.data = s.dir.data := by
  obtain ⟨hb, hdata, hman⟩ := background_finishHint s id
  refine ⟨⟨h.inv.finishHint id, fun i r hr => ?_, ?_⟩, hb, hdata⟩
  · rw [hb.seq]
    exact h.bounded i r (hb.bytes ▸ hr)
  · rw [Marked, hman, hb.mergeSeq]
    exact h.marked

theorem Background.liveMap {s s' : Store} (h : Background s s') (hw : Wf .committed s []) :
    s'.liveMap = s.liveMap :=
  hw.toMounted.liveMap_eq h.keys fun _ _ _ hr _ => h.bytes ▸ hr

theorem Quiet.reopen (h : Quiet s) {opts : Options} (hf : Fits s (.reopen opts)) :
    ∃ s', openStore opts s.close = .ok s' ∧ Quiet s' ∧ s'.liveMap = s.liveMap ∧
      Reopened .committed opts s.close s' := by
  obtain ⟨hbytes, hhints, hman⟩ := h.inv.toWf.close
  have hd : DirOk .committed s.close := h.inv.dir.same hbytes hhints
  obtain ⟨s', hs', hr⟩ := openStore_ok opts hd fun id hid => by
    obtain ⟨b, hb⟩ := Dir.mem_data.mp hid
    have hlt := h.inv.fresh id b (hbytes ▸ hb)
    have hfit : s.nextID + 1 < 2 ^ 32 := hf
    omega
  obtain ⟨hinv, hbound⟩ := hr.inv hd (hbytes ▸ h.inv.agree)
  refine ⟨s', hs', ⟨hinv, hbound, ?_⟩, h.inv.liveMap_eq hinv ?_, hr⟩
  · rw [Marked, hr.manifest, hr.mergeSeq]
  · ext x
    simp only [versions, Set.mem_ofPred_eq, hr.holds, hbytes]

/-- **What an operation does.** A quiet store takes it, reports what the map of its
keys calls for, and its live map moves as that map does. -/
theorem Quiet.apply (h : Quiet s) (hf : Fits s op) :
    ∃ s', s.apply op = (s', op.refusal s.liveMap) ∧ Done s op s' := by
  cases op with
  | put now key value => exact h.applyLocal trivial hf
  | batchPut now keys values => exact h.applyLocal trivial hf
  | delete now key => exact h.applyLocal trivial hf
  | compact =>
    obtain ⟨s', hs', hc⟩ := h.inv.compact h.bounded h.marked hf
    exact ⟨s', hs', ⟨hc.inv, hc.bounded, hc.marked⟩, hc.liveMap, .compacted hc⟩
  | reopen opts =>
    obtain ⟨s', hs', hq, hlive, hr⟩ := h.reopen hf
    exact ⟨s', by simp only [Store.apply, hs']; rfl, hq, hlive, .reopened hr⟩
  | sync =>
    obtain ⟨s', hs', hq, hb⟩ := h.sync
    exact ⟨s', hs', hq, hb.liveMap h.inv.toWf, .idle hb (.inr ⟨rfl, Op.noConfusion⟩)⟩
  | hint id =>
    obtain ⟨hq, hb, _⟩ := h.finishHint id
    exact ⟨_, rfl, hq, hb.liveMap h.inv.toWf, .idle hb (.inr ⟨rfl, Op.noConfusion⟩)⟩

theorem Written.whole {recs : List Record} (hw : Written .committed s s' recs)
    (h : ∀ i b, s.dir.bytes i = some b → Grouped (records b)) :
    ∀ i b, s'.dir.bytes i = some b → Grouped (records b) := by
  intro i b hb
  by_cases hi : i = s'.active.id
  · obtain ⟨c, hc, _, _, hw⟩ := hw.inv.active
    rw [hi, hc] at hb
    cases hb
    exact hw
  · have hbytes : s'.dir.bytes = Function.update s.dir.bytes s'.active.id
      (some ((s.dir.bytes s'.active.id).getD [] ++ encodeAll (Store.assignSeqs s.seq recs))) := hw.appended.bytes
    rw [hbytes, Function.update_of_ne hi] at hb
    exact h i b hb

/-- No operation leaves a file with an open batch at its end. -/
theorem Effect.whole (he : Effect s op s') (hq : Quiet s) (hq' : Quiet s')
    (h : ∀ i b, s.dir.bytes i = some b → Grouped (records b)) :
    ∀ i b, s'.dir.bytes i = some b → Grouped (records b) := by
  intro i b hb
  -- The active file is whole in any store between operations.
  by_cases hi : i = s'.active.id
  · obtain ⟨c, hc, _, _, hw⟩ := hq'.inv.active
    rw [hi, hc] at hb
    cases hb
    exact hw
  cases he with
  | idle hbg _ => exact h i b (hbg.bytes ▸ hb)
  | wrote _ _ hw _ => exact hw.whole h i b hb
  | compacted hc =>
    have hhint := hc.hinted i b hb hi
    rw [Std.ExtTreeMap.mem_iff_isSome_getElem?, Option.isSome_iff_exists] at hhint
    obtain ⟨c, hc'⟩ := hhint
    exact (hc.inv.dir.hints i c b hc' hb).2
  | reopened hr =>
    obtain ⟨hbytes, _, _⟩ := hq.inv.toWf.close
    cases hd : s.close.bytes i with
    | none =>
      rcases hr.bytes_none hd with hb' | ⟨hact, _⟩
      · rw [hb'] at hb
        cases hb
      · exact absurd hact hi
    | some c =>
      have hgrouped := h i c (hbytes ▸ hd)
      obtain ⟨b', hb', hkept⟩ := hr.bytes hd
      rw [hb'] at hb
      cases hb
      rcases hkept with rfl | ⟨_, htrim⟩
      · exact hgrouped
      · exact htrim.grouped hgrouped.isTidy

end History

end Gokv.Engine
