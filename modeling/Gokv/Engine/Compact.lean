import Gokv.Engine.Recover

/-! Compaction, one locked step at a time.

`Compact` seals the active file, lists the files to merge, snapshots the index
entries that point into them, copies the live records to fresh outputs, makes the
outputs and their hints durable, repoints the index, forgets the tombstones,
publishes the watermark and removes the merged files. A `Merge` is the local
state of one such run and `Merge.step` its next step, each as large as the code
holds a lock or performs one file operation, so a crash point is a number of
steps and an interleaving is steps of other operations in between. `compact` is
the run with nothing in between. -/
namespace Gokv.Engine
open Base

structure Item where
  key : Bytes
  entry : Entry
  deriving DecidableEq, Repr

/-- An output file, and the contents of its hint so far. -/
structure Out where
  id : Nat
  size : Nat
  hint : Bytes
  deriving DecidableEq, Repr

inductive Removal where
  | data (id : Nat)
  | hint (id : Nat)
  deriving DecidableEq, Repr

/-- Where a run of `Compact` stands, with what is left of the current loop. -/
inductive Phase where
  | list (activeID : Nat)
  | snapshot
  | copy (todo : List Item)
  /-- The record has been read and has an output to go to. -/
  | write (item : Item) (rec : Record) (buf : Bytes) (todo : List Item)
  | syncOuts (todo : List Out)
  | commitHints (todo : List Out)
  | repoint (todo : List (Item × Entry))
  | retire (todo : List Item)
  | watermark
  | remove (todo : List Removal)
  | recount
  | sum
  | total (n : Int)
  | done
  | failed (err : Error)
  deriving DecidableEq, Repr

structure Merge where
  phase : Phase
  barrier : UInt64
  mergeIDs : List Nat
  retired : List Item
  outs : List Out
  moved : List (Item × Entry)
  deriving DecidableEq, Repr

def repointChunk : Nat := 1024

namespace Merge

def start (phase : Phase) (barrier : UInt64) : Merge := ⟨phase, barrier, [], [], [], []⟩

/-- Abandon the merge: the outputs go, the index was never touched. -/
def cleanup (s : Store) (m : Merge) (err : Error) : Store × Merge :=
  (m.outs.foldl (fun s o => {s with files := s.files.erase o.id, dir := s.dir.removeData o.id}) s,
    {m with phase := .failed err})

/-- A fresh output file and its hint. -/
def newOut (s : Store) (m : Merge) : Store × Except Error Merge :=
  let id := s.nextID
  let s := {s with nextID := Store.succID s.nextID}
  match s.dir.create id with
  | .error e => (s, .error e)
  | .ok dir =>
    ({s with dir := dir, files := s.files.insert id 0}, .ok {m with outs := m.outs ++ [⟨id, 0, hintMagic⟩]})

/-- The current output is missing or would outgrow the limit. -/
def needsOut (s : Store) (m : Merge) (n : Nat) : Bool :=
  match m.outs.getLast? with
  | none => true
  | some o => s.opts.limit < o.size + n

/-- `list`: every open file but the one that was active at the seal. -/
def listStep (s : Store) (m : Merge) (activeID : Nat) : Store × Merge :=
  let ids := s.files.keys.filter (· ≠ activeID)
  (s, {m with mergeIDs := ids, phase := if ids = [] then .done else .snapshot})

/-- The index entries that point into the merge set, in key order. -/
def inMerge (s : Store) (ids : List Nat) : List Item :=
  (s.keys.toList.filter fun x => x.2.fileID ∈ ids).map fun x => ⟨x.1, x.2⟩

def snapshotStep (s : Store) (m : Merge) : Store × Merge :=
  let items := inMerge s m.mergeIDs
  (s, {m with retired := items.filter (·.entry.tomb), phase := .copy (items.filter (!·.entry.tomb))})

/-- One pass of the repoint loop: the key moves unless it was rewritten since. -/
def repointOne (keys : Index) (x : Item × Entry) : Index :=
  match keys[x.1.key]? with
  | some n => if n.seq = x.1.entry.seq ∧ n.fileID = x.1.entry.fileID then keys.insert x.1.key x.2 else keys
  | none => keys

/-- One pass of the retire loop. -/
def retireOne (keys : Index) (x : Item) : Index :=
  match keys[x.key]? with
  | some n => if n.seq = x.entry.seq ∧ n.fileID = x.entry.fileID then keys.erase x.key else keys
  | none => keys

section Steps
variable [Checksum]

/-- Read and verify the next record and see to an output for it. -/
def copyStep (s : Store) (m : Merge) (it : Item) (rest : List Item) : Store × Merge :=
  if it.entry.fileID ∉ s.files then (s, {m with phase := .copy rest})
  else
    match s.dir.readAt it.entry.fileID it.entry.pos it.entry.size with
    | .error e => cleanup s m e
    | .ok raw =>
      match decodeRecord raw with
      | .error e => cleanup s m e
      | .ok rec =>
        let buf := clearBatchFlags raw
        if needsOut s m buf.length then
          match newOut s m with
          | (s, .error e) => cleanup s m e
          | (s, .ok m) => (s, {m with phase := .write it rec buf rest})
        else (s, {m with phase := .write it rec buf rest})

/-- Append the record to the last output and list it in the output's hint. -/
def writeStep (s : Store) (m : Merge) (it : Item) (rec : Record) (buf : Bytes) (rest : List Item) :
    Store × Merge :=
  match m.outs.getLast? with
  | none => (s, {m with phase := .copy rest})
  | some o =>
    match s.dir.writeAt o.id o.size buf with
    | .error e => cleanup s m e
    | .ok dir =>
      let e : Entry := { pos := o.size, seq := rec.seq, fileID := o.id, size := buf.length % 2 ^ 32, tomb := false }
      let o : Out := ⟨o.id, o.size + buf.length, o.hint ++ hintEntry rec.key e (buf.getD 20 0)⟩
      ({s with dir := dir, files := s.files.alter o.id (Option.map fun _ => o.size)},
        {m with outs := m.outs.dropLast ++ [o], moved := m.moved ++ [(it, e)], phase := .copy rest})

/-- The removals of the final loop, in the order the code issues them. -/
def removals (ids : List Nat) : List Removal := ids.flatMap fun id => [.data id, .hint id]

def removeStep (s : Store) (r : Removal) : Store :=
  match r with
  | .data id =>
    if id ∈ s.files then {s with dir := s.dir.removeData id, files := s.files.erase id} else s
  | .hint id => {s with dir := s.dir.removeHint id}

/-- The sizes of all open files, as `recomputeUsage` adds them up. -/
def usage (s : Store) : Int := (s.files.toList.map fun x => (x.2 : Int)).sum

def step (s : Store) (m : Merge) : Store × Merge :=
  match m.phase with
  | .list activeID => listStep s m activeID
  | .snapshot => snapshotStep s m
  | .copy [] => (s, {m with phase := .syncOuts m.outs})
  | .copy (it :: rest) => copyStep s m it rest
  | .write it rec buf rest => writeStep s m it rec buf rest
  | .syncOuts [] => (s, {m with phase := .commitHints m.outs})
  | .syncOuts (o :: rest) =>
    match s.dir.sync o.id with
    | .error e => cleanup s m e
    | .ok dir => ({s with dir := dir}, {m with phase := .syncOuts rest})
  | .commitHints [] => (s, {m with phase := .repoint m.moved})
  | .commitHints (o :: rest) =>
    ({s with dir := s.dir.renameHint o.id o.hint}, {m with phase := .commitHints rest})
  | .repoint [] => (s, {m with phase := .retire m.retired})
  | .repoint (x :: rest) =>
    ({s with keys := ((x :: rest).take repointChunk).foldl repointOne s.keys},
      {m with phase := .repoint ((x :: rest).drop repointChunk)})
  | .retire [] => (s, {m with phase := .watermark})
  | .retire (x :: rest) =>
    ({s with keys := ((x :: rest).take repointChunk).foldl retireOne s.keys},
      {m with phase := .retire ((x :: rest).drop repointChunk)})
  | .watermark =>
    ({s with mergeSeq := m.barrier, dir := {s.dir with manifest := some (manifestText m.barrier)}},
      {m with phase := .remove (removals m.mergeIDs)})
  | .remove [] => (s, {m with phase := .recount})
  | .remove (r :: rest) => (removeStep s r, {m with phase := .remove rest})
  | .recount => (s.recountLocked, {m with phase := .sum})
  | .sum => (s, {m with phase := .total (usage s)})
  | .total n => ({s with total := n}, {m with phase := .done})
  | .done => (s, m)
  | .failed _ => (s, m)

def run : Nat → Store → Merge → Store × Merge
  | 0, s, m => (s, m)
  | n + 1, s, m => run n (step s m).1 (step s m).2

end Steps

end Merge

namespace Store

/-- The first critical section of `Compact`: seal the active file so that the merge
set is unambiguous. -/
def sealActive (s : Store) : Store × Merge :=
  if s.closed then (s, .start (.failed .closed) 0)
  else if s.active.size = 0 then (s, .start (.list s.active.id) s.seq)
  else
    match s.dir.sync s.active.id with
    | .error e => (s, .start (.failed e) 0)
    | .ok dir =>
      match openNewActive {s with dir := dir} with
      | (s, some e) => (s, .start (.failed e) 0)
      | (s, none) => ({s with dirty := false}, .start (.list s.active.id) s.seq)

section Compact
variable [Checksum]

/-- More steps than any run of `Compact` on this store takes. -/
def compactFuel (s : Store) : Nat := 16 + 8 * (s.keys.size + s.files.size)

/-- `Compact` with nothing in between. -/
def compact (s : Store) : Store × Option Error :=
  match Merge.run s.compactFuel s.sealActive.1 s.sealActive.2 with
  | (s, m) =>
    match m.phase with
    | .failed e => (s, some e)
    | _ => (s, none)

end Compact

end Store

end Gokv.Engine
