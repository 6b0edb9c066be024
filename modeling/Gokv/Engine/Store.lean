import Gokv.Engine.Hint
import Gokv.Engine.Manifest

/-! The store: its directory, its memory, and the write and read paths.

A `Dir` is what the operating system holds: the bytes of every data file and how
many of them the last fsync covered, the hints that were renamed into place, and
the manifest. A `Store` is the open store over its directory. Machine widths are
kept where they can be reached: sequence numbers are 64-bit, and the offsets of a
write inside its buffer and the file counter wrap at 32 bits.

A write is split where its locks are: `logWrite` does everything under the write
lock up to the index, `indexWrite` is the critical section on the index, and
`writeLocked` is the two in a row. -/
namespace Gokv.Engine
open Base

/-! ### The directory -/

/-- A data file on disk; `synced` is its length at the last fsync. -/
structure DiskFile where
  bytes : Bytes
  synced : Nat
  deriving DecidableEq, Repr

structure Dir where
  data : Std.ExtTreeMap Nat DiskFile compare := ∅
  hints : Std.ExtTreeMap Nat Bytes compare := ∅
  manifest : Option Bytes := none

namespace Dir

/-- `createDataFile` opens with `O_EXCL`. -/
def create (d : Dir) (id : Nat) : Except Error Dir :=
  if id ∈ d.data then .error .fileExists else .ok {d with data := d.data.insert id ⟨[], 0⟩}

/-- Fsync through an open handle; a removed file has been closed before. -/
def sync (d : Dir) (id : Nat) : Except Error Dir :=
  match d.data[id]? with
  | none => .error .fileClosed
  | some f => .ok {d with data := d.data.insert id {f with synced := f.bytes.length}}

/-- A positioned write: a gap is filled with zeros, bytes behind it stay. -/
def overwrite (b : Bytes) (off : Nat) (buf : Bytes) : Bytes :=
  b.take off ++ (List.replicate (off - b.length) 0 ++ (buf ++ b.drop (off + buf.length)))

def writeAt (d : Dir) (id off : Nat) (buf : Bytes) : Except Error Dir :=
  match d.data[id]? with
  | none => .error .fileClosed
  | some f => .ok {d with data := d.data.insert id {f with bytes := overwrite f.bytes off buf}}

/-- A positioned read of exactly `n` bytes. -/
def readAt (d : Dir) (id off n : Nat) : Except Error Bytes :=
  match d.data[id]? with
  | none => .error .fileClosed
  | some f => if f.bytes.length < off + n then .error .eof else .ok (slice f.bytes off (off + n))

def truncate (d : Dir) (id n : Nat) : Dir :=
  {d with data := d.data.alter id (Option.map fun f => ⟨f.bytes.take n, min f.synced n⟩)}

def removeData (d : Dir) (id : Nat) : Dir := {d with data := d.data.erase id}
def removeHint (d : Dir) (id : Nat) : Dir := {d with hints := d.hints.erase id}
def renameHint (d : Dir) (id : Nat) (b : Bytes) : Dir := {d with hints := d.hints.insert id b}

end Dir

/-! ### The store -/

inductive SyncMode where
  | interval
  | always
  | never
  deriving DecidableEq, Repr

structure Options where
  maxFileSize : Int64
  syncMode : SyncMode
  deriving DecidableEq, Repr

namespace Options

def applyDefaults (o : Options) : Options :=
  if o.maxFileSize ≤ 0 then {o with maxFileSize := 256 * 2 ^ 20} else o

def limit (o : Options) : Nat := o.maxFileSize.toNatClampNeg

end Options

/-- An open data file: its id and its append offset. -/
structure DataFile where
  id : Nat
  size : Nat
  deriving DecidableEq, Repr

structure Store where
  opts : Options
  dir : Dir
  keys : Index
  active : DataFile
  nextID : Nat
  seq : UInt64
  dirty : Bool
  /-- The open file set: the size of every open data file. -/
  files : Std.ExtTreeMap Nat Nat compare
  live : Int
  total : Int
  nLive : Int
  mergeSeq : UInt64
  /-- Rotated files whose hint is still being built in the background. -/
  hinting : List Nat
  closed : Bool

namespace Store

/-- The file counter is 32 bits wide. -/
def succID (id : Nat) : Nat := (id + 1) % 2 ^ 32

def openNewActive (s : Store) : Store × Option Error :=
  match s.dir.create s.nextID with
  | .error e => (s, some e)
  | .ok dir =>
    ({s with dir := dir, nextID := succID s.nextID, files := s.files.insert s.nextID 0,
             active := ⟨s.nextID, 0⟩}, none)

def maybeRotateLocked (s : Store) (incoming : Nat) : Store × Option Error :=
  if s.active.size = 0 ∨ s.active.size + incoming ≤ s.opts.limit then (s, none)
  else
    match s.dir.sync s.active.id with
    | .error e => (s, some e)
    | .ok dir =>
      match openNewActive {s with dir := dir} with
      | (s', some e) => (s', some e)
      | (s', none) => ({s' with dirty := false, hinting := s.active.id :: s'.hinting}, none)

/-! ### The write path -/

section Paths
variable [Checksum]

/-- The buffer of a write and the offset of each record in it, kept in 32 bits. -/
def writeBuffer : Bytes → List Record → Bytes × List Nat
  | buf, [] => (buf, [])
  | buf, r :: rest =>
    let (all, offs) := writeBuffer (appendRecord buf r) rest
    (all, buf.length % 2 ^ 32 :: offs)

/-- The entries of records written at `base` of file `id`, with their keys. -/
def writeEntries (id base : Nat) (recs : List Record) (offs : List Nat) : List (Bytes × Entry) :=
  List.zipWith (fun r off => (r.key,
    { pos := base + off, seq := r.seq, fileID := id,
      size := encodedSize r.key.length r.value.length, tomb := r.tombstone })) recs offs

/-- `writeLocked` up to the index: rotate, append, account, fsync if every write
is to be. The result is what remains to be indexed. -/
def logWrite (s : Store) (recs : List Record) : Store × Except Error (List (Bytes × Entry)) :=
  let (buf, offs) := writeBuffer [] recs
  match s.maybeRotateLocked buf.length with
  | (s, some e) => (s, .error e)
  | (s, none) =>
    match s.dir.writeAt s.active.id s.active.size buf with
    | .error e => (s, .error e)
    | .ok dir =>
      let size := s.active.size + buf.length
      let es := writeEntries s.active.id s.active.size recs offs
      let s := {s with dir := dir, active := ⟨s.active.id, size⟩,
                       files := s.files.alter s.active.id (Option.map fun _ => size),
                       total := s.total + buf.length, dirty := true}
      if s.opts.syncMode = .always then
        match s.dir.sync s.active.id with
        | .error e => (s, .error e)
        | .ok dir => ({s with dir := dir, dirty := false}, .ok es)
      else (s, .ok es)

/-- The one place where the index changes on the write path. -/
def indexApplyLocked (s : Store) (key : Bytes) (e : Entry) : Store :=
  match s.keys[key]? with
  | some n =>
    if e.seq ≤ n.seq then s
    else
      let s := if n.tomb then s else {s with live := s.live - n.size, nLive := s.nLive - 1}
      let s := {s with keys := s.keys.insert key e}
      if e.tomb then s else {s with live := s.live + e.size, nLive := s.nLive + 1}
  | none =>
    let s := {s with keys := s.keys.insert key e}
    if e.tomb then s else {s with live := s.live + e.size, nLive := s.nLive + 1}

def indexWrite (s : Store) (es : List (Bytes × Entry)) : Store :=
  es.foldl (fun s x => s.indexApplyLocked x.1 x.2) s

def writeLocked (s : Store) (recs : List Record) : Store × Option Error :=
  match s.logWrite recs with
  | (s, .error e) => (s, some e)
  | (s, .ok es) => (s.indexWrite es, none)

/-- Consecutive sequence numbers from `seq` on. -/
def assignSeqs : UInt64 → List Record → List Record
  | _, [] => []
  | seq, r :: rest => {r with seq := seq + 1} :: assignSeqs (seq + 1) rest

def appendLocked (s : Store) (recs : List Record) : Store × Option Error :=
  writeLocked {s with seq := s.seq + UInt64.ofNat recs.length} (assignSeqs s.seq recs)

def validateKey (key : Bytes) : Option Error :=
  if key.length = 0 then some .emptyKey
  else if maxKeySize < key.length then some .keyTooLarge
  else none

def putRecord (now : Int64) (key value : Bytes) : Record := ⟨now, 0, 0, key, value⟩

def put (s : Store) (now : Int64) (key value : Bytes) : Store × Option Error :=
  match validateKey key with
  | some e => (s, some e)
  | none =>
    if maxValueSize < value.length then (s, some .valueTooLong)
    else if s.closed then (s, some .closed)
    else s.appendLocked [putRecord now key value]

/-- Every pair within the limits, checked in order. -/
def validateBatch : List (Bytes × Bytes) → Option Error
  | [] => none
  | (key, value) :: rest =>
    match validateKey key with
    | some e => some e
    | none => if maxValueSize < value.length then some .valueTooLong else validateBatch rest

/-- The records of a batch: every one flagged, the last one as its end. -/
def batchRecords (now : Int64) : List (Bytes × Bytes) → List Record
  | [] => []
  | [(key, value)] => [⟨now, 0, flagBatch ||| flagBatchEnd, key, value⟩]
  | (key, value) :: rest => ⟨now, 0, flagBatch, key, value⟩ :: batchRecords now rest

def batchPut (s : Store) (now : Int64) (keys values : List Bytes) : Store × Option Error :=
  if keys.length ≠ values.length then (s, some .batchLen)
  else if keys.length = 0 then (s, none)
  else
    match validateBatch (keys.zip values) with
    | some e => (s, some e)
    | none =>
      if s.closed then (s, some .closed) else s.appendLocked (batchRecords now (keys.zip values))

def deleteRecord (now : Int64) (key : Bytes) : Record := ⟨now, 0, flagTombstone, key, []⟩

/-- The liveness check of `Delete`, under the read lock of the index. -/
def isLive (s : Store) (key : Bytes) : Bool :=
  match s.keys[key]? with
  | some n => !n.tomb
  | none => false

def delete (s : Store) (now : Int64) (key : Bytes) : Store × Option Error :=
  match validateKey key with
  | some e => (s, some e)
  | none =>
    if !s.isLive key then (s, some .keyNotFound)
    else if s.closed then (s, some .closed)
    else s.appendLocked [deleteRecord now key]

/-! ### The read path -/

/-- `datafile.readRecord`, with the checksum verified again. -/
def readRecord (d : Dir) (e : Entry) : Except Error Record :=
  match d.readAt e.fileID e.pos e.size with
  | .error err => .error err
  | .ok buf => decodeRecord buf

def readValue (s : Store) (e : Entry) : Except Error Bytes :=
  if e.fileID ∉ s.files then .error .fileGone
  else
    match readRecord s.dir e with
    | .error err => .error err
    | .ok rec =>
      if rec.seq ≠ e.seq then .error (.seqMismatch e.seq rec.seq)
      else if rec.tombstone then .error .keyNotFound
      else .ok rec.value

/-- The index lookup of one attempt of `Get`. -/
def lookup (s : Store) (key : Bytes) : Option Entry :=
  match s.keys[key]? with
  | some e => if e.tomb then none else some e
  | none => none

/-- The attempts of `Get` left to it. -/
def getLoop (s : Store) (key : Bytes) : Nat → Except Error Bytes
  | 0 => .error .lostRace
  | attempts + 1 =>
    match s.lookup key with
    | none => .error .keyNotFound
    | some e =>
      match s.readValue e with
      | .error .fileGone => getLoop s key attempts
      | r => r

def getAttempts : Nat := 4

def get (s : Store) (key : Bytes) : Except Error Bytes :=
  match validateKey key with
  | some e => .error e
  | none => s.getLoop key getAttempts

/-! ### Housekeeping -/

/-- `Sync`, also what the background timer runs. -/
def sync (s : Store) : Store × Option Error :=
  if !s.dirty then (s, none)
  else
    match s.dir.sync s.active.id with
    | .error e => (s, some e)
    | .ok dir => ({s with dir := dir, dirty := false}, none)

/-- The background construction of one hint: the scan fails if the file is gone. -/
def finishHint (s : Store) (id : Nat) : Store :=
  if id ∉ s.hinting then s
  else
    match s.dir.data[id]? with
    | none => {s with hinting := s.hinting.erase id}
    | some f =>
      {s with hinting := s.hinting.erase id, dir := s.dir.renameHint id (buildHint id f.bytes)}

/-- The directory a clean `Close` leaves. -/
def close (s : Store) : Dir :=
  match s.sync with
  | (s, _) => s.dir

/-- `recountLocked` rebuilds the live counters from the index. -/
def recountLocked (s : Store) : Store :=
  {s with live := ((s.keys.toList.filter fun x => !x.2.tomb).map fun x => (x.2.size : Int)).sum
          nLive := (s.keys.toList.filter fun x => !x.2.tomb).length}

end Paths

end Store

end Gokv.Engine
