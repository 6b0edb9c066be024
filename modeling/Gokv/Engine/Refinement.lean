import Gokv.Engine.History

/-! A store is a map.

Run one operation at a time, a store answers every operation as the map does and
`Get` reads the map (`history_get`), as long as every step fits the widths. The
width that is within reach is the one of the offsets of a batch: a batch whose
last record starts at 2^32 is indexed where its first record is, and `Get` of a
key that was just written fails (`wideBatch_get`). -/
namespace Gokv.Engine
open Base

/-- What a client starts from. -/
def Map.empty : Map := fun _ => none

def mapMachine : Machine Op Map (Option Error) := ⟨Map.apply⟩

/-- The store `Open` makes of an empty directory. -/
def Store.init (opts : Options) : Store :=
  { opts := opts.applyDefaults, dir := {data := (∅ : Std.ExtTreeMap Nat DiskFile compare).insert 0 ⟨[], 0⟩},
    keys := ∅, active := ⟨0, 0⟩, nextID := 1, seq := 0, dirty := false,
    files := (∅ : Std.ExtTreeMap Nat Nat compare).insert 0 0, live := 0, total := 0, nLive := 0, mergeSeq := 0,
    hinting := [], closed := false }

theorem applyDefaults_syncMode (opts : Options) : opts.applyDefaults.syncMode = opts.syncMode := by
  unfold Options.applyDefaults
  split <;> rfl

section Refinement
variable [Checksum]

def storeMachine : Machine Op Store (Option Error) := ⟨Store.apply⟩

theorem openStore_empty (opts : Options) : openStore opts {} = .ok (Store.init opts) := rfl

theorem quiet_init (opts : Options) : Quiet (Store.init opts) ∧ (Store.init opts).liveMap = Map.empty := by
  have hnone (id : Nat) : ({} : Dir).bytes id = none := by simp [Dir.bytes]
  have hd : DirOk .committed {} :=
    ⟨fun id b hb => by simp [hnone] at hb, fun id b hb => by simp [hnone] at hb,
      fun id h b _ hb => by simp [hnone] at hb⟩
  obtain ⟨s, hs, hr⟩ := openStore_ok opts hd fun id hid => by
    obtain ⟨b, hb⟩ := Dir.mem_data.mp hid
    simp [hnone] at hb
  cases (Except.ok.inj (hs.symm.trans (openStore_empty opts)))
  obtain ⟨hinv, hbound⟩ := hr.inv hd fun i j r r' hr => by
    obtain ⟨b, hb, -⟩ := hr
    simp [hnone] at hb
  refine ⟨⟨hinv, hbound, rfl⟩, funext fun k => Store.liveMap_none ?_⟩
  exact Std.ExtTreeMap.getElem?_empty

/-- The store refines the map, as long as its steps fit. -/
def storeRefinesMap : Refinement (storeMachine) mapMachine Fits where
  Rel s m := Quiet s ∧ s.liveMap = m
  step s m op h hf := by
    obtain ⟨hq, rfl⟩ := h
    obtain ⟨s', hs', hd⟩ := hq.apply hf
    show Quiet (s.apply op).1 ∧ (s.apply op).1.liveMap = (Map.apply s.liveMap op).1
    rw [hs']
    exact ⟨hd.quiet, hd.liveMap⟩
  answer s m op h hf := by
    obtain ⟨hq, rfl⟩ := h
    obtain ⟨s', hs', hd⟩ := hq.apply hf
    show (s.apply op).2 = (Map.apply s.liveMap op).2
    rw [hs', Map.apply]
    cases op.refusal s.liveMap <;> rfl

/-- **A store is a map.** From an empty directory on, every operation is answered as
the map answers it, and `Get` reads the map. -/
theorem history_get (opts : Options) (ops : List Op) (s : Store) (hopen : openStore opts {} = .ok s)
    (hfits : storeMachine.Meets Fits s ops) :
    (storeMachine.run s ops).2 = (mapMachine.run Map.empty ops).2 ∧
      ∀ key, Store.validateKey key = none →
        (storeMachine.run s ops).1.get key = answer ((mapMachine.run Map.empty ops).1 key) := by
  cases Except.ok.inj (hopen.symm.trans (openStore_empty opts))
  obtain ⟨⟨hq, hlive⟩, hans⟩ := storeRefinesMap.run (quiet_init opts) hfits
  refine ⟨hans, fun key hk => ?_⟩
  rw [hq.inv.toWf.get_eq hk, hlive]

/-! ### Past the width of the offsets -/

/-- The entry a write makes for its last record: the offset is kept in 32 bits. -/
theorem writeEntries_concat (id base : Nat) (init : List Record) (r : Record) :
    Store.writeEntries id base (init ++ [r]) (Store.writeBuffer [] (init ++ [r])).2 =
      Store.writeEntries id base init (Store.writeBuffer [] init).2 ++
        [(r.key, { pos := base + (encodeAll init).length % 2 ^ 32, seq := r.seq, fileID := id,
                   size := encodedSize r.key.length r.value.length, tomb := r.tombstone })] := by
  have hlen : init.length = ((layout 0 init).map fun x => x.pos % 2 ^ 32).length := by
    rw [List.length_map, ← List.length_map (f := Scanned.record), layout_records]
  rw [writeBuffer_eq, writeBuffer_eq]
  show Store.writeEntries id base _ ((layout 0 (init ++ [r])).map _) =
    Store.writeEntries id base init ((layout 0 init).map _) ++ _
  rw [layout_append, List.map_append, Store.writeEntries, List.zipWith_append hlen, Nat.zero_add]
  rfl

omit [Checksum] in
theorem mem_writeEntries {id base : Nat} {recs : List Record} {offs : List Nat} {x : Bytes × Entry}
    (h : x ∈ Store.writeEntries id base recs offs) : ∃ r ∈ recs, x.1 = r.key ∧ x.2.seq = r.seq := by
  rw [Store.writeEntries] at h
  obtain ⟨i, hi, rfl⟩ := List.getElem_of_mem h
  rw [List.getElem_zipWith]
  exact ⟨_, List.getElem_mem _, rfl, rfl⟩

/-- A write to a fresh store whose last record starts at 2^32: its locator leads to the
first record. -/
theorem write_wrapped (opts : Options) (hsync : opts.syncMode = .never) (q : UInt64) (first last : Record)
    {mid : List Record} (hs : first.Sized) (hlast : Store.validateKey last.key = none)
    (hval : last.tombstone = false) (hkeys : ∀ r ∈ first :: mid, r.key ≠ last.key)
    (hwide : (encodeAll (first :: mid)).length = 2 ^ 32)
    (hsize : encodedSize last.key.length last.value.length = first.encode.length)
    (hseq : first.seq ≠ last.seq) :
    ∃ s, Store.writeLocked {Store.init opts with seq := q} (first :: mid ++ [last]) = (s, none) ∧
      s.get last.key = .error (.seqMismatch last.seq first.seq) := by
  have hmode : ¬ opts.applyDefaults.syncMode = .always := by
    rw [applyDefaults_syncMode, hsync]
    decide
  have hfile : (Store.init opts).dir.bytes 0 = some [] := by
    simp [Store.init, Dir.bytes]
  obtain ⟨d, hd, hbytes, _⟩ := Dir.writeAt_end hfile (encodeAll (first :: mid ++ [last]))
  have hbuf : Store.writeBuffer [] (first :: mid ++ [last]) =
      (encodeAll (first :: mid ++ [last]), (Store.writeBuffer [] (first :: mid ++ [last])).2) := by
    rw [writeBuffer_eq, List.nil_append]
  have hlog : ∃ s1, Store.logWrite {Store.init opts with seq := q} (first :: mid ++ [last]) =
      (s1, .ok (Store.writeEntries 0 0 (first :: mid ++ [last]) (Store.writeBuffer [] (first :: mid ++ [last])).2)) ∧
        s1.dir = d ∧ s1.keys = ∅ ∧ 0 ∈ s1.files := by
    have hrot (n : Nat) : Store.maybeRotateLocked {Store.init opts with seq := q} n =
        ({Store.init opts with seq := q}, none) := if_pos (.inl rfl)
    have hd' : (Store.init opts).dir.writeAt (Store.init opts).active.id (Store.init opts).active.size
        (encodeAll (first :: mid ++ [last])) = .ok d := hd
    have hmode' : ¬ (Store.init opts).opts.syncMode = .always := hmode
    rw [Store.logWrite, hbuf]
    simp only [hrot, hd', if_neg hmode']
    exact ⟨_, rfl, rfl, rfl, by simp [Store.init]⟩
  obtain ⟨s1, hlog, hdir, hempty, hopen⟩ := hlog
  rw [writeEntries_concat, Nat.zero_add, hwide, Nat.mod_self] at hlog
  set es := Store.writeEntries 0 0 (first :: mid) (Store.writeBuffer [] (first :: mid)).2 with hes
  obtain ⟨l, n, hidx⟩ := indexWrite_eq s1 (es ++ [(last.key, _)])
  refine ⟨_, by rw [Store.writeLocked, hlog], ?_⟩
  rw [hidx]
  -- The last record's key is new to the index, and gets the wrapped locator.
  have hget : (s1.keys.installAll (es ++ [(last.key, (⟨0, last.seq, 0, encodedSize last.key.length
      last.value.length, last.tombstone⟩ : Entry))]))[last.key]? =
        some ⟨0, last.seq, 0, first.encode.length, false⟩ := by
    rw [Index.installAll_append]
    show ((s1.keys.installAll es).install last.key _)[last.key]? = _
    rw [Index.getElem?_install, if_pos, hsize, hval]
    refine ⟨rfl, fun n hn => ?_⟩
    rcases Index.mem_installAll hn with hmem | hold
    · obtain ⟨r, hr, hk, -⟩ := mem_writeEntries hmem
      exact absurd hk.symm (hkeys r hr)
    · rw [hempty] at hold
      simp at hold
  have hread : s1.dir.readAt 0 0 first.encode.length = .ok first.encode := by
    have hb : d.bytes 0 = some (first.encode ++ encodeAll (mid ++ [last])) := by
      rw [hbytes, Function.update_self, List.nil_append, List.cons_append, encodeAll_cons]
    obtain ⟨f, hf, hfb⟩ := Option.map_eq_some_iff.mp hb
    rw [hdir, Dir.readAt, hf]
    simp only [hfb, List.length_append, Nat.zero_add, Nat.not_lt.mpr (Nat.le_add_right ..), if_false]
    exact congrArg Except.ok (slice_mid [] first.encode _ rfl (Nat.zero_add _))
  rw [Store.get, hlast]
  show Store.getLoop _ _ (3 + 1) = _
  rw [Store.getLoop, Store.lookup]
  simp only [hget, Bool.false_eq_true, if_false, Store.readValue, hopen, not_true_eq_false, Store.readRecord,
    hread, decodeRecord_encode first hs, ne_eq, hseq, not_false_eq_true, if_true]

theorem length_encodeAll_of_forall {n : Nat} {rs : List Record} (h : ∀ r ∈ rs, r.encode.length = n) :
    (encodeAll rs).length = rs.length * n := by
  induction rs with
  | nil => simp
  | cons r rest ih =>
    rw [encodeAll_cons, List.length_append, ih fun r' hr' => h r' (List.mem_cons_of_mem _ hr'),
      h r (List.mem_cons_self ..), List.length_cons, Nat.succ_mul, Nat.add_comm]

omit [Checksum] in
theorem validateBatch_of_forall {pairs : List (Bytes × Bytes)}
    (h : ∀ x ∈ pairs, Store.validateKey x.1 = none ∧ x.2.length ≤ maxValueSize) : Store.validateBatch pairs = none := by
  induction pairs with
  | nil => rfl
  | cons x rest ih =>
    rw [List.forall_mem_cons] at h
    obtain ⟨⟨hk, hv⟩, hrest⟩ := h
    rw [Store.validateBatch, hk]
    simp only [if_neg (not_lt.mpr hv)]
    exact ih hrest

omit [Checksum] in
theorem validateBatch_map {v : Bytes} {keys : List Bytes} (hk : ∀ k ∈ keys, Store.validateKey k = none)
    (hv : v.length ≤ maxValueSize) : Store.validateBatch (keys.map fun k => (k, v)) = none := by
  refine validateBatch_of_forall fun x hx => ?_
  obtain ⟨k, hmem, rfl⟩ := List.mem_map.mp hx
  exact ⟨hk k hmem, hv⟩

/-- Seventeen one-byte keys. -/
def wideKeys : List Bytes := (List.range 17).map fun i => [UInt8.ofNat i]

/-- A value whose record, under a one-byte key, is 2^28 bytes long. -/
def wideValue : Bytes := List.replicate (2 ^ 28 - 30) 0

/-- Seventeen records of 2^28 bytes: the last one starts at 2^32. -/
theorem wide_batchPut (v : Bytes) (hv : v.length = 2 ^ 28 - 30) :
    ∃ s, (Store.init ⟨0, .never⟩).batchPut 0 wideKeys (wideKeys.map fun _ => v) = (s, none) ∧
      s.get [16] = .error (.seqMismatch 17 1) := by
  have hlong : v.length ≤ maxValueSize := by
    rw [hv, maxValueSize]
    omega
  have hzip : wideKeys.zip (wideKeys.map fun _ => v) = wideKeys.map fun k => (k, v) := rfl
  have hlen : ¬ wideKeys.length ≠ (wideKeys.map fun _ => v).length := by simp
  have hne : ¬ wideKeys.length = 0 := by decide
  have hvalid : Store.validateBatch (wideKeys.map fun k => (k, v)) = none :=
    validateBatch_map (by decide) hlong
  have hrecs : Store.assignSeqs 0 (Store.batchRecords 0 (wideKeys.map fun k => (k, v))) =
      ⟨0, 1, 2, [0], v⟩ :: Store.assignSeqs 1 (((List.range 15).map fun i => ([UInt8.ofNat (i + 1)], v)).map
        (memberRecord 0)) ++ [⟨0, 17, 6, [16], v⟩] := rfl
  have hmember : ∀ r ∈ (⟨0, 1, 2, [0], v⟩ : Record) :: Store.assignSeqs 1
      (((List.range 15).map fun i => ([UInt8.ofNat (i + 1)], v)).map (memberRecord 0)),
      r.key.length = 1 ∧ r.value = v ∧ r.key ≠ [16] := by
    intro r hr
    rcases List.mem_cons.mp hr with rfl | hr
    · exact ⟨rfl, rfl, show ([0] : Bytes) ≠ [16] by decide⟩
    · obtain ⟨r₀, hr₀, heq⟩ := mem_assignSeqs hr
      obtain ⟨x, hx, rfl⟩ := List.mem_map.mp hr₀
      obtain ⟨i, hi, rfl⟩ := List.mem_map.mp hx
      rw [heq]
      refine ⟨rfl, rfl, ?_⟩
      have : ∀ i ∈ List.range 15, ([UInt8.ofNat (i + 1)] : Bytes) ≠ [16] := by decide
      exact this i hi
  have hwide := length_encodeAll_of_forall (n := 2 ^ 28) fun r hr => by
    obtain ⟨hk, hval, _⟩ := hmember r hr
    rw [r.length_encode, hk, hval, hv, recordHeaderSize]
    decide
  obtain ⟨s, hs, hget⟩ := write_wrapped ⟨0, .never⟩ rfl 17 ⟨0, 1, 2, [0], v⟩ ⟨0, 17, 6, [16], v⟩
    ⟨show 0 < ([0] : Bytes).length by decide, show ([0] : Bytes).length ≤ maxKeySize by decide, hlong⟩
    (show Store.validateKey [16] = none by decide)
    (show ((6 : UInt8) &&& flagTombstone != 0) = false by decide)
    (fun r hr => (hmember r hr).2.2) (hwide.trans (show 16 * 2 ^ 28 = 2 ^ 32 by decide))
    (by
      rw [Record.length_encode, encodedSize]
      show (recordHeaderSize + 1 + v.length) % 2 ^ 32 = recordHeaderSize + 1 + v.length
      rw [hv, recordHeaderSize]
      decide)
    (show (1 : UInt64) ≠ 17 by decide)
  refine ⟨s, ?_, hget⟩
  rw [Store.batchPut, if_neg hlen, if_neg hne, hzip, hvalid]
  simp only [Store.appendLocked]
  exact hs

omit [Checksum] in
theorem wide_map (v : Bytes) (hv : v.length ≤ maxValueSize) :
    (mapMachine.run Map.empty [.batchPut 0 wideKeys (wideKeys.map fun _ => v)]).1 [16] = some v := by
  have hvalid : Store.validateBatch (wideKeys.zip (wideKeys.map fun _ => v)) = none :=
    validateBatch_map (show ∀ k ∈ wideKeys, Store.validateKey k = none by decide) hv
  have hop : Op.refusal Map.empty (.batchPut 0 wideKeys (wideKeys.map fun _ => v)) = none := by
    rw [Op.refusal, if_neg (by simp), hvalid]
  show (Map.apply Map.empty (.batchPut 0 wideKeys (wideKeys.map fun _ => v))).1 [16] = _
  rw [Map.apply, hop]
  rfl

theorem wide_run (v : Bytes) (hv : v.length = 2 ^ 28 - 30) : ∃ s, openStore ⟨0, .never⟩ {} = .ok s ∧
    (storeMachine.run s [.batchPut 0 wideKeys (wideKeys.map fun _ => v)]).2 = [none] ∧
    (storeMachine.run s [.batchPut 0 wideKeys (wideKeys.map fun _ => v)]).1.get [16] = .error (.seqMismatch 17 1) ∧
    (mapMachine.run Map.empty [.batchPut 0 wideKeys (wideKeys.map fun _ => v)]).1 [16] = some v := by
  obtain ⟨s, hs, hget⟩ := wide_batchPut v hv
  have hrun : storeMachine.step (Store.init ⟨0, .never⟩) (.batchPut 0 wideKeys (wideKeys.map fun _ => v)) =
      (s, none) := hs
  refine ⟨_, openStore_empty _, ?_, ?_, wide_map v (by rw [hv, maxValueSize]; omega)⟩
  · simp only [Machine.run, hrun]
  · simp only [Machine.run, hrun, hget]

end Refinement

/-- A put, a batch that repeats a key, a delete, a rotation-sized write, a merge and a
reopening, read back. -/
theorem history_get_run :
    (storeMachine.run (Store.init ⟨70, .always⟩) [.put 0 [1] [7], .batchPut 0 [[2], [2]] [[3], [4]],
      .delete 0 [1], .compact, .reopen ⟨70, .never⟩]).1.get [2] = .ok [4] := by
  refine ((history_get ⟨70, .always⟩ _ _ (openStore_empty _) ?_).2 [2] (by decide)).trans (by decide)
  decide +kernel

/-- `Get` fails on a key whose `BatchPut` was acknowledged. -/
theorem wideBatch_get : ∃ s, openStore ⟨0, .never⟩ {} = .ok s ∧
    (storeMachine.run s [.batchPut 0 wideKeys (wideKeys.map fun _ => wideValue)]).2 = [none] ∧
    (storeMachine.run s [.batchPut 0 wideKeys (wideKeys.map fun _ => wideValue)]).1.get [16] =
      .error (.seqMismatch 17 1) ∧
    (mapMachine.run Map.empty [.batchPut 0 wideKeys (wideKeys.map fun _ => wideValue)]).1 [16] =
      some wideValue := by
  exact wide_run wideValue (by rw [wideValue, List.length_replicate])

end Gokv.Engine
