import Gokv.Engine.Store

/-! Recovery.

`recover` walks the data files of the directory in id order and replays each from
its hint or, without a usable one, by a scan that stages the records of a batch
until the batch ends. Entries go into the index by sequence number, so the order
of the files does not matter. The tail of the last file is cut off behind its
last committed record, and the file is appended to again if it was scanned and
is not full. -/
namespace Gokv.Engine
open Base

/-- The state of one scan: `pending` is the batch being staged, `commit` the end of
the last record known to count. -/
structure Replay where
  keys : Index
  maxSeq : UInt64
  pending : List (Bytes × Entry)
  commit : Nat

def maxSeqOf (a b : UInt64) : UInt64 := if a < b then b else a

def Replay.step (id : Nat) (st : Replay) (x : Scanned) : Replay :=
  let maxSeq := maxSeqOf st.maxSeq x.record.seq
  let e := x.entry id
  if x.record.batch then
    let pending := st.pending ++ [(x.record.key, e)]
    if x.record.batchEnd then
      { keys := st.keys.installAll pending, maxSeq := maxSeq, pending := [], commit := x.pos + e.size }
    else {st with maxSeq := maxSeq, pending := pending}
  else
    { keys := st.keys.install x.record.key e, maxSeq := maxSeq, pending := st.pending,
      commit := x.pos + e.size }

/-- What a recovery has built so far. -/
structure Recovery where
  dir : Dir
  keys : Index
  files : Std.ExtTreeMap Nat Nat compare
  nextID : Nat
  maxSeq : UInt64
  total : Nat
  reuseActive : Option DataFile

section Recover
variable [Checksum]

def scanIntoIndex (id : Nat) (b : Bytes) (keys : Index) (maxSeq : UInt64) : Replay :=
  (scanFile b).1.foldl (Replay.step id) ⟨keys, maxSeq, [], 0⟩

/-- The index and the highest sequence number after replaying a hint, and whether
the hint was usable; what was parsed of an unusable one stays applied. -/
def replayHint (id : Nat) (hint : Bytes) (keys : Index) (maxSeq : UInt64) : Index × UInt64 × Bool :=
  let (items, err) := readHint id hint
  (keys.installAll (items.map fun i => (i.key, i.recovered)),
    items.foldl (fun m i => maxSeqOf m i.entry.seq) maxSeq, err.isNone)

def recoverFile (opts : Options) (isLast : Bool) (st : Recovery) (id : Nat) : Recovery :=
  match st.dir.data[id]? with
  | none => st
  | some f =>
    let (keys, maxSeq, scanned) := match st.dir.hints[id]? with
      | none => (st.keys, st.maxSeq, false)
      | some hint => replayHint id hint st.keys st.maxSeq
    let rp := if scanned then ⟨keys, maxSeq, [], 0⟩ else scanIntoIndex id f.bytes keys maxSeq
    -- A torn tail, or a batch that never completed, at the end of the last file.
    let torn := isLast && !scanned && rp.commit < f.bytes.length
    let dir := if torn then
        {st.dir with data := st.dir.data.insert id ⟨f.bytes.take rp.commit, rp.commit⟩}
      else st.dir
    let size := if torn then rp.commit else f.bytes.length
    { dir := dir, keys := rp.keys, files := st.files.insert id size
      nextID := if st.nextID ≤ id then Store.succID id else st.nextID
      maxSeq := rp.maxSeq, total := st.total + size
      reuseActive := if isLast && !scanned && size < opts.limit then some ⟨id, size⟩
        else st.reuseActive }

def recoverFiles (opts : Options) : Recovery → List Nat → Recovery
  | st, [] => st
  | st, [id] => recoverFile opts true st id
  | st, id :: rest => recoverFiles opts (recoverFile opts false st id) rest

/-- `removeOrphanHints` deletes the hints without a data file. -/
def removeOrphanHints (d : Dir) : Dir := {d with hints := d.hints.filter fun id _ => id ∈ d.data}

/-- `listDataFiles`: the ids of the data files, ascending. -/
def listDataFiles (d : Dir) : List Nat := d.data.keys

def Recovery.start (d : Dir) : Recovery :=
  { dir := removeOrphanHints d, keys := ∅, files := ∅, nextID := 0, maxSeq := 0, total := 0
    reuseActive := none }

/-- The store a finished walk leaves, before it has an active file. -/
def Recovery.store (opts : Options) (st : Recovery) (active : DataFile) : Store :=
  { opts := opts, dir := st.dir, keys := st.keys, active := active, nextID := st.nextID,
    seq := st.maxSeq, dirty := false, files := st.files, live := 0, total := st.total, nLive := 0,
    mergeSeq := readManifest st.dir.manifest, hinting := [], closed := false }

def recover (opts : Options) (d : Dir) : Store × Option Error :=
  let st := recoverFiles opts (Recovery.start d) (listDataFiles d)
  match st.reuseActive with
  | some df => ((st.store opts df).recountLocked, none)
  | none =>
    match (st.store opts ⟨0, 0⟩).openNewActive with
    | (s, some e) => (s, some e)
    | (s, none) => (s.recountLocked, none)

/-- `Open` on a directory nobody else holds. -/
def openStore (opts : Options) (d : Dir) : Except Error Store :=
  match recover opts.applyDefaults d with
  | (_, some e) => .error e
  | (s, none) => .ok s

section Outcome
variable {opts : Options} {d : Dir} {s : Store}

/-- The last file found is written on. -/
theorem openStore_reuse {df : DataFile}
    (h : (recoverFiles opts.applyDefaults (Recovery.start d) (listDataFiles d)).reuseActive = some df) :
    openStore opts d =
      .ok ((recoverFiles opts.applyDefaults (Recovery.start d) (listDataFiles d)).store opts.applyDefaults
        df).recountLocked := by
  simp only [openStore, recover, h]

/-- A new file is begun. -/
theorem openStore_create (h : (recoverFiles opts.applyDefaults (Recovery.start d) (listDataFiles d)).reuseActive = none)
    (hs : ((recoverFiles opts.applyDefaults (Recovery.start d) (listDataFiles d)).store opts.applyDefaults
      ⟨0, 0⟩).openNewActive = (s, none)) : openStore opts d = .ok s.recountLocked := by
  simp only [openStore, recover, h, hs]

/-- No new file can be begun. -/
theorem openStore_blocked {e : Error}
    (h : (recoverFiles opts.applyDefaults (Recovery.start d) (listDataFiles d)).reuseActive = none)
    (hs : ((recoverFiles opts.applyDefaults (Recovery.start d) (listDataFiles d)).store opts.applyDefaults
      ⟨0, 0⟩).openNewActive = (s, some e)) : openStore opts d = .error e := by
  simp only [openStore, recover, h, hs]

end Outcome

end Recover

end Gokv.Engine
