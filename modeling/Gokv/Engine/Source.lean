import Gokv.Engine.Invariant

/-! A store as a source of replication.

`recordsSince` replays the log: every record above a position, file by file, unless
the position lies below the watermark of the last compaction. `snapshotRecords` walks
the index: the record of every live key, out of its batch, in chunks of the key order.
The first sends what the files hold (`recordsSince_eq`, `mem_since`), the second what
the index shows (`snapshotRecords_eq`, `snapshot_shows`). -/
namespace Gokv.Engine
open Base

section Source
variable [Checksum]

/-- The scan of one file by `RecordsSince`; a file that is gone is skipped. -/
def Dir.scanSince (d : Dir) (fromSeq : UInt64) (id : Nat) : List Bytes :=
  match d.data[id]? with
  | none => []
  | some f => ((scanFile f.bytes).1.filter fun x => ¬ x.record.seq ≤ fromSeq).map Scanned.raw

namespace Store

/-- `RecordsSince` on a store that is left alone meanwhile. -/
def recordsSince (s : Store) (fromSeq : UInt64) : Except Error (List Bytes) :=
  if fromSeq < s.mergeSeq then .error .needFullSync
  else .ok (s.files.keys.flatMap (s.dir.scanSince fromSeq))

/-- What one attempt of `rawRecord` reads. -/
def readRaw (s : Store) (e : Entry) : Option Bytes :=
  if e.fileID ∉ s.files then none
  else
    match s.dir.readAt e.fileID e.pos e.size with
    | .error _ => none
    | .ok buf =>
      match decodeRecord buf with
      | .error _ => none
      | .ok _ => some (clearBatchFlags buf)

/-- The attempts of `rawRecord` left to it. -/
def rawRecord (s : Store) (key : Bytes) : Nat → Entry → Except Error Bytes
  | 0, _ => .error .fileGone
  | attempts + 1, e =>
    match s.readRaw e with
    | some raw => .ok raw
    | none =>
      match s.keys[key]? with
      | some n => rawRecord s key attempts n
      | none => .error .keyNotFound

/-- The keys behind the cursor, in order. -/
def behind (s : Store) : Option Bytes → List (Bytes × Entry)
  | none => s.keys.toList
  | some cursor => s.keys.toList.filter fun x => compare cursor x.1 = .lt

/-- The keys one chunk examines: it ends at the last live key it has room for, or
after so many keys. -/
def takeChunk : Nat → Nat → List (Bytes × Entry) → List (Bytes × Entry)
  | 0, _, _ => []
  | _ + 1, 0, _ => []
  | _ + 1, _ + 1, [] => []
  | refs + 1, room + 1, x :: rest => x :: takeChunk (if x.2.tomb then refs + 1 else refs) room rest

/-- The chunk of `SnapshotRecords` behind the cursor: what it sends, and the cursor it
leaves; none at the end of the index. -/
def snapshotChunk (s : Store) (cursor : Option Bytes) : Option (List Bytes × Bytes) :=
  let chunk := takeChunk 512 4096 (s.behind cursor)
  chunk.getLast?.map fun last =>
    ((chunk.filter fun x => !x.2.tomb).filterMap fun x => (s.rawRecord x.1 3 x.2).toOption, last.1)

/-- `SnapshotRecords` on a store that is left alone meanwhile; the fuel bounds the
number of chunks. -/
def snapshotFrom (s : Store) : Nat → Option Bytes → List Bytes
  | 0, _ => []
  | fuel + 1, cursor =>
    match s.snapshotChunk cursor with
    | none => []
    | some (raws, last) => raws ++ snapshotFrom s fuel (some last)

def snapshotRecords (s : Store) : List Bytes := s.snapshotFrom (s.keys.size + 1) none

end Store

/-! ### The log -/

/-- The records of a file above a position. -/
def Dir.since (d : Dir) (fromSeq : UInt64) (id : Nat) : List Record :=
  ((d.bytes id).elim [] records).filter fun r => ¬ r.seq ≤ fromSeq

theorem scanSince_eq (d : Dir) (fromSeq : UInt64) (id : Nat) :
    d.scanSince fromSeq id = (d.since fromSeq id).map Record.encode := by
  rw [Dir.scanSince, Dir.since, Dir.bytes]
  cases d.data[id]? with
  | none => rfl
  | some f =>
    have hraw : ∀ x ∈ (scanFile f.bytes).1, x.raw = x.record.encode := by
      intro x hx
      rw [(scanFile_spec f.bytes).1] at hx
      obtain ⟨_, _, _, _, hraw⟩ := mem_layout hx
      exact hraw
    show _ = ((records f.bytes).filter _).map _
    rw [records, List.filter_map, List.map_map]
    exact List.map_congr_left fun x hx => hraw x (List.mem_of_mem_filter hx)

theorem mem_dir_since {d : Dir} {fromSeq : UInt64} {id : Nat} {r : Record} :
    r ∈ d.since fromSeq id ↔ Holds .every d.bytes id r ∧ fromSeq < r.seq := by
  rw [Dir.since, List.mem_filter, Holds]
  cases d.bytes id with
  | none => simp
  | some b => simp [Reading.take, UInt64.not_le]

/-- The records `RecordsSince` streams. -/
def Store.since (s : Store) (fromSeq : UInt64) : List Record := s.files.keys.flatMap (s.dir.since fromSeq)

/-- **The log replay** sends the records of every open file that are above the
position, in the order of the file ids. -/
theorem recordsSince_eq (s : Store) (fromSeq : UInt64) :
    s.recordsSince fromSeq =
      if fromSeq < s.mergeSeq then .error .needFullSync
      else .ok ((s.since fromSeq).map Record.encode) := by
  rw [Store.recordsSince, Store.since, List.map_flatMap]
  congr 2
  exact congrArg (List.flatMap · s.files.keys) (funext (scanSince_eq s.dir fromSeq))

theorem Mounted.mem_since {ρ : Reading} {s : Store} {pend : Pending} (h : Mounted ρ s pend)
    {fromSeq : UInt64} {r : Record} :
    r ∈ s.since fromSeq ↔ (∃ id, Holds .every s.dir.bytes id r) ∧ fromSeq < r.seq := by
  simp only [Store.since, List.mem_flatMap, mem_dir_since]
  constructor
  · rintro ⟨id, -, hr, hlt⟩
    exact ⟨⟨id, hr⟩, hlt⟩
  · rintro ⟨⟨id, hr⟩, hlt⟩
    obtain ⟨b, hb, hmem⟩ := hr
    exact ⟨id, Std.ExtTreeMap.mem_keys.mpr (h.mem_files.mpr ⟨b, hb⟩), ⟨b, hb, hmem⟩, hlt⟩

/-! ### The snapshot -/

section Snapshot
variable {ρ : Reading} {s : Store}

/-- The live entries, in key order. -/
def Store.liveEntries (s : Store) : List (Bytes × Entry) := s.keys.toList.filter fun x => !x.2.tomb

omit [Checksum] in
theorem lookup_eq_some {k : Bytes} {e : Entry} : s.lookup k = some e ↔ s.keys[k]? = some e ∧ e.tomb = false := by
  rw [Store.lookup]
  cases s.keys[k]? with
  | none => simp
  | some n => cases ht : n.tomb <;> simp only [ht, Option.some.injEq] <;> grind

omit [Checksum] in
theorem mem_liveEntries {x : Bytes × Entry} : x ∈ s.liveEntries ↔ s.lookup x.1 = some x.2 := by
  rw [Store.liveEntries, List.mem_filter, Std.ExtTreeMap.mem_toList_iff_getElem?_eq_some, lookup_eq_some]
  simp

/-- The record of an index entry, as a snapshot sends it. -/
def Store.recordAt (s : Store) (x : Bytes × Entry) : Option Record :=
  (Store.readRecord s.dir x.2).toOption.map Record.lifted

/-- What was read has passed the decoder. -/
theorem decode_of_read {d : Dir} {e : Entry} {r : Record} (h : Store.readRecord d e = .ok r) :
    ∃ buf, decodeRecord buf = .ok r := by
  rw [Store.readRecord] at h
  cases hb : d.readAt e.fileID e.pos e.size with
  | error err =>
    rw [hb] at h
    cases h
  | ok buf =>
    rw [hb] at h
    exact ⟨buf, h⟩

/-- What stands at a place of a file can be read through a locator. -/
theorem readRecord_at {d : Dir} {e : Entry} {a c : Bytes} {r : Record}
    (hb : d.bytes e.fileID = some (a ++ (r.encode ++ c)))
    (hpos : e.pos = a.length) (hsize : e.size = r.encode.length) (hdecode : decodeRecord r.encode = .ok r) :
    Store.readRecord d e = .ok r := by
  obtain ⟨f, hf, hfb⟩ := Option.map_eq_some_iff.mp hb
  have hlong : ¬ f.bytes.length < e.pos + e.size := by
    rw [hfb, hpos, hsize, List.length_append, List.length_append]
    omega
  rw [Store.readRecord, Dir.readAt, hf]
  dsimp only
  rw [if_neg hlong, hfb, slice_mid a r.encode c hpos.symm (by rw [hsize])]
  exact hdecode

theorem readRaw_eq (h : ∀ id, s.files[id]? = (s.dir.bytes id).map List.length) (x : Bytes × Entry) :
    s.readRaw x.2 = (s.recordAt x).map Record.encode := by
  rw [Store.readRaw, Store.recordAt, Store.readRecord]
  by_cases hf : x.2.fileID ∈ s.files
  · rw [if_neg (not_not.mpr hf)]
    cases s.dir.readAt x.2.fileID x.2.pos x.2.size with
    | error err => rfl
    | ok buf =>
      cases hr : decodeRecord buf with
      | error err => simp only [hr]; rfl
      | ok r =>
        have hclear : clearBatchFlags buf = r.lifted.encode := by
          rw [← encode_of_decode buf r hr, clearBatchFlags_encode]
        simp only [hr, hclear]
        rfl
  · have hgone : s.dir.data[x.2.fileID]? = none := by
      cases hd : s.dir.data[x.2.fileID]? with
      | none => rfl
      | some f => exact absurd ((Store.mem_files h).mpr ⟨f.bytes, by rw [Dir.bytes, hd]; rfl⟩) hf
    rw [if_pos hf, Dir.readAt, hgone]
    rfl

/-- With no one else at work, the further attempts read what the first one read. -/
theorem rawRecord_eq (h : ∀ id, s.files[id]? = (s.dir.bytes id).map List.length) {x : Bytes × Entry}
    (hx : s.keys[x.1]? = some x.2) : (s.rawRecord x.1 3 x.2).toOption = (s.recordAt x).map Record.encode := by
  rw [← readRaw_eq h x]
  cases hr : s.readRaw x.2 with
  | some raw => simp only [Store.rawRecord, hr]; rfl
  | none => simp only [Store.rawRecord, hr, hx]; rfl

/-- What a snapshot sends for keys of the index. -/
theorem chunk_records (h : ∀ id, s.files[id]? = (s.dir.bytes id).map List.length) (xs : List (Bytes × Entry))
    (hmem : ∀ x ∈ xs, s.keys[x.1]? = some x.2) :
    xs.filterMap (fun x => (s.rawRecord x.1 3 x.2).toOption) =
      (xs.filterMap s.recordAt).map Record.encode := by
  rw [List.map_filterMap]
  exact List.filterMap_congr fun x hx => rawRecord_eq h (hmem x hx)

omit [Checksum] in
theorem takeChunk_isInit (refs room : Nat) (xs : List (Bytes × Entry)) : Store.takeChunk refs room xs <+: xs := by
  induction xs generalizing refs room with
  | nil => cases refs <;> cases room <;> exact List.nil_prefix
  | cons x rest ih =>
    cases refs with
    | zero =>
      rw [Store.takeChunk]
      exact List.nil_prefix
    | succ refs =>
      cases room with
      | zero => exact List.nil_prefix
      | succ room => exact List.cons_prefix_cons.mpr ⟨rfl, ih _ _⟩

omit [Checksum] in
/-- Of keys in order, those behind a key are what stands behind it. -/
theorem filter_behind {before rest : List (Bytes × Entry)} {x : Bytes × Entry}
    (hsorted : (before ++ x :: rest).Pairwise fun a b => compare a.1 b.1 = .lt) :
    (before ++ x :: rest).filter (fun y => compare x.1 y.1 = .lt) = rest := by
  obtain ⟨-, hx, hbefore⟩ := List.pairwise_append.mp hsorted
  obtain ⟨hrest, -⟩ := List.pairwise_cons.mp hx
  have hdrop : before.filter (fun y => compare x.1 y.1 = .lt) = [] :=
    List.filter_eq_nil_iff.mpr fun a ha => by
      simp [Std.OrientedCmp.gt_of_lt (hbefore a ha x (List.mem_cons_self ..))]
  have hkeep : rest.filter (fun y => compare x.1 y.1 = .lt) = rest :=
    List.filter_eq_self.mpr fun a ha => by simpa using hrest a ha
  rw [List.filter_append, hdrop, List.nil_append, List.filter_cons_of_neg (by simp), hkeep]

/-- A chunk splits what is behind the cursor; what is behind its own cursor is the
rest. -/
theorem behind_chunk {cursor : Option Bytes} {before : List (Bytes × Entry)}
    (hall : s.keys.toList = before ++ s.behind cursor) :
    (s.snapshotChunk cursor = none ∧ s.behind cursor = []) ∨
      ∃ chunk last, chunk ≠ [] ∧
        s.snapshotChunk cursor = some ((chunk.filter fun x => !x.2.tomb).filterMap
          fun x => (s.rawRecord x.1 3 x.2).toOption, last) ∧
        s.behind cursor = chunk ++ s.behind (some last) ∧
        s.keys.toList = before ++ chunk ++ s.behind (some last) ∧
        ∃ e, (last, e) ∈ chunk := by
  obtain ⟨rest, hrest⟩ := takeChunk_isInit 512 4096 (s.behind cursor)
  rcases (Store.takeChunk 512 4096 (s.behind cursor)).eq_nil_or_concat' with hnil | ⟨init, x, hchunk⟩
  · refine .inl ⟨by rw [Store.snapshotChunk, hnil]; rfl, ?_⟩
    cases hb : s.behind cursor with
    | nil => rfl
    | cons y ys =>
      rw [hb] at hnil
      cases hnil
  · have hbehind : s.behind (some x.1) = rest := by
      have hsplit : s.keys.toList = (before ++ init) ++ x :: rest := by
        rw [hall, ← hrest, hchunk]
        simp
      have hsorted := Std.ExtTreeMap.ordered_keys_toList (t := s.keys)
      rw [hsplit] at hsorted
      rw [Store.behind, hsplit]
      exact filter_behind hsorted
    refine .inr ⟨init ++ [x], x.1, List.concat_ne_nil _ _, ?_, ?_, ?_, x.2,
      List.mem_append_right _ (List.mem_singleton.mpr rfl)⟩
    · rw [Store.snapshotChunk, hchunk]
      simp
    · rw [hbehind, ← hrest, hchunk]
    · rw [hbehind, List.append_assoc, ← hchunk, hrest]
      exact hall

theorem snapshotFrom_eq (h : ∀ id, s.files[id]? = (s.dir.bytes id).map List.length) (fuel : Nat)
    {cursor : Option Bytes} {before : List (Bytes × Entry)}
    (hall : s.keys.toList = before ++ s.behind cursor) (hf : (s.behind cursor).length < fuel) :
    s.snapshotFrom fuel cursor =
      (((s.behind cursor).filter fun x => !x.2.tomb).filterMap s.recordAt).map Record.encode := by
  induction fuel generalizing cursor before with
  | zero => exact absurd hf (Nat.not_lt_zero _)
  | succ fuel ih =>
    rw [Store.snapshotFrom]
    rcases behind_chunk hall with ⟨hend, hnil⟩ | ⟨chunk, last, hne, hchunk, hbehind, hall', -⟩
    · rw [hend, hnil]
      rfl
    · have hmem : ∀ x ∈ chunk.filter fun x => !x.2.tomb, s.keys[x.1]? = some x.2 := fun x hx =>
        Std.ExtTreeMap.mem_toList_iff_getElem?_eq_some.mp (by
          rw [hall']
          exact List.mem_append_left _ (List.mem_append_right _ (List.mem_of_mem_filter hx)))
      have hlen : (s.behind (some last)).length < fuel := by
        have := List.length_pos_iff.mpr hne
        rw [hbehind, List.length_append] at hf
        omega
      rw [hchunk, hbehind]
      simp only [chunk_records h _ hmem, ih hall' hlen, List.filter_append, List.filterMap_append, List.map_append]

/-- The records a snapshot consists of. -/
def Store.snapshot (s : Store) : List Record := (s.keys.toList.filter fun x => !x.2.tomb).filterMap s.recordAt

/-- **The snapshot** sends the record of every live key that can be read, out of its batch,
in key order. -/
theorem snapshotRecords_eq (h : ∀ id, s.files[id]? = (s.dir.bytes id).map List.length) :
    s.snapshotRecords = s.snapshot.map Record.encode := by
  have hall : s.keys.toList = [] ++ s.behind none := rfl
  refine snapshotFrom_eq h _ hall ?_
  show s.keys.toList.length < _
  rw [Std.ExtTreeMap.length_toList]
  exact Nat.lt_succ_self _

/-! ### Complete snapshots -/

/-- The locator of a live key leads to a put of that key, under the number of the entry. -/
def Store.Leads (s : Store) (x : Bytes × Entry) : Prop :=
  ∃ r, Store.readRecord s.dir x.2 = .ok r ∧ r.Sized ∧ r.key = x.1 ∧ r.seq = x.2.seq ∧ r.tombstone = false

/-- The map the live entries stand for. -/
def Store.shown (s : Store) (k : Bytes) : Option Bytes :=
  (s.lookup k).bind fun e => (Store.readRecord s.dir e).toOption.bind Record.payload

theorem sized_snapshot (h : ∀ x ∈ s.liveEntries, s.Leads x) : ∀ r ∈ s.snapshot, r.Sized := by
  intro r hr
  obtain ⟨x, hx, hat⟩ := List.mem_filterMap.mp hr
  obtain ⟨r', hread, hs, -⟩ := h x hx
  rw [Store.recordAt, hread] at hat
  cases hat
  exact hs.lifted

/-- The live map is the newest-record-wins map of the snapshot. -/
theorem snapshot_shows (h : ∀ x ∈ s.liveEntries, s.Leads x) :
    Newest.Shows {x | x ∈ s.snapshot.map Record.version} s.shown where
  absent k hk := by
    rw [Store.shown]
    cases he : s.lookup k with
    | none => rfl
    | some e =>
      have hx : (k, e) ∈ s.liveEntries := mem_liveEntries.mpr he
      obtain ⟨r, hread, -, hkey, -⟩ := h (k, e) hx
      have hmem : r.lifted ∈ s.snapshot := List.mem_filterMap.mpr ⟨(k, e), hx, by rw [Store.recordAt, hread]; rfl⟩
      refine absurd (List.mem_map.mpr ⟨r.lifted, hmem, ?_⟩) (hk (r.seq.toNat, r.payload))
      rw [Record.lifted_version, Record.version, hkey]
  newest k x hx _ := by
    obtain ⟨_, hr, heq⟩ := List.mem_map.mp hx
    obtain ⟨⟨k', e⟩, hmem, hat⟩ := List.mem_filterMap.mp hr
    obtain ⟨r, hread, -, hkey, -⟩ := h (k', e) hmem
    rw [Store.recordAt, hread] at hat
    cases hat
    rw [Record.lifted_version, Record.version, hkey] at heq
    cases heq
    rw [Store.shown, mem_liveEntries.mp hmem]
    show (Store.readRecord s.dir e).toOption.bind Record.payload = _
    rw [show Store.readRecord s.dir e = .ok r from hread]
    rfl

/-- Every locator leads to its record in an open file. -/
structure Readable (ρ : Reading) (s : Store) : Prop where
  files : ∀ id, s.files[id]? = (s.dir.bytes id).map List.length
  located : ∀ (k : Bytes) (e : Entry), s.keys[k]? = some e → ∃ r, Located ρ s.dir.bytes k e r

theorem Wf.readable {pend : Pending} (h : Wf ρ s pend) : Readable ρ s := ⟨h.files, h.located⟩

theorem Readable.leads (h : Readable ρ s) : ∀ x ∈ s.liveEntries, s.Leads x := by
  rintro ⟨k, e⟩ hx
  obtain ⟨he, ht⟩ := lookup_eq_some.mp (mem_liveEntries.mp hx)
  obtain ⟨r, hr⟩ := h.located k e he
  exact ⟨r, hr.readRecord, hr.holds.sized, hr.key, hr.seq, hr.tomb.trans ht⟩

theorem Readable.shown_eq (h : Readable ρ s) : s.shown = s.liveMap := by
  funext k
  rw [Store.shown]
  cases he : s.keys[k]? with
  | none =>
    rw [Store.lookup, he, Store.liveMap_none he]
    rfl
  | some e =>
    obtain ⟨r, hr⟩ := h.located k e he
    rw [Store.lookup, he, hr.liveMap_eq he]
    cases ht : e.tomb with
    | true =>
      simp only [payload_eq_none.mpr (hr.tomb.trans ht), ht, if_true, Option.bind_none]
    | false =>
      simp only [ht, Bool.false_eq_true, if_false, Option.bind_some, hr.readRecord]
      rfl

end Snapshot

end Source

end Gokv.Engine
