import Gokv.Engine.Abandoned
import Gokv.Engine.Source

/-! A merge with nothing in between, on any store.

The copy loop fills one output after the other; `Shelf` is an output as the list of what has
been copied into it, and everything the merge keeps track of can be read off the shelves
(`Copying`). Until the outputs are durable a merge can fail, and then the store is the one it
started with, but for the ids it has used up. From there on nothing can fail any more, and the
store it will leave is a plain function of where it stands (`Merge.outcome`). Neither half
asks where the locators of the index lead or how the file ids are spent. -/
namespace Gokv.Engine
open Base

/-! ### The second half -/

namespace Merge

/-- The store the last steps of a merge leave, from the recount on. -/
def recounted (s : Store) : Store := {s.recountLocked with total := usage s}

def cleared (s : Store) (todo : List Removal) : Store := recounted (todo.foldl removeStep s)

def stamped (s : Store) (m : Merge) : Store :=
  cleared {s with mergeSeq := m.barrier, dir := {s.dir with manifest := some (manifestText m.barrier)}}
    (removals m.mergeIDs)

def forgotten (s : Store) (m : Merge) (todo : List Item) : Store :=
  stamped {s with keys := todo.foldl retireOne s.keys} m

def repointed (s : Store) (m : Merge) (todo : List (Item × Entry)) : Store :=
  forgotten {s with keys := todo.foldl repointOne s.keys} m m.retired

def hinted (s : Store) (m : Merge) (todo : List Out) : Store :=
  repointed {s with dir := todo.foldl (fun d o => d.renameHint o.id o.hint) s.dir} m m.moved

/-- The store a merge whose outputs are durable will leave. -/
def outcome (s : Store) (m : Merge) : Store :=
  match m.phase with
  | .commitHints todo => hinted s m todo
  | .repoint todo => repointed s m todo
  | .retire todo => forgotten s m todo
  | .watermark => stamped s m
  | .remove todo => cleared s todo
  | .recount => recounted s
  | .sum => {s with total := usage s}
  | .total n => {s with total := n}
  | _ => s

/-- The outputs are durable. -/
def Phase.publishing : Phase → Bool
  | .commitHints _ | .repoint _ | .retire _ | .watermark | .remove _ | .recount | .sum | .total _ | .done => true
  | _ => false

variable [Checksum] {s : Store} {m : Merge}

/-- **Each step of the second half** leads to the same end. -/
theorem outcome_step (hp : Phase.publishing m.phase = true) :
    outcome (step s m).1 (step s m).2 = outcome s m ∧ Phase.publishing (step s m).2.phase = true := by
  unfold step
  cases h : m.phase with
  | commitHints todo => cases todo <;> simp only [outcome, h] <;> exact ⟨rfl, rfl⟩
  | repoint todo =>
    cases todo with
    | nil => simp only [outcome, h]; exact ⟨rfl, rfl⟩
    | cons x rest =>
      simp only [outcome, h, repointed, ← List.foldl_append, List.take_append_drop]
      exact ⟨rfl, rfl⟩
  | retire todo =>
    cases todo with
    | nil => simp only [outcome, h]; exact ⟨rfl, rfl⟩
    | cons x rest =>
      simp only [outcome, h, forgotten, ← List.foldl_append, List.take_append_drop]
      exact ⟨rfl, rfl⟩
  | watermark => simp only [outcome, h]; exact ⟨rfl, rfl⟩
  | remove todo => cases todo <;> simp only [outcome, h] <;> exact ⟨rfl, rfl⟩
  | recount => simp only [outcome, h]; exact ⟨rfl, rfl⟩
  | sum => simp only [outcome, h]; exact ⟨trivial, rfl⟩
  | total n => simp only [outcome, h]; exact ⟨trivial, rfl⟩
  | done => simp only [h]; exact ⟨trivial, rfl⟩
  | list _ | snapshot | copy _ | write _ _ _ _ | syncOuts _ | failed _ => rw [h] at hp; cases hp

end Merge

/-! ### The first half -/

/-- A live entry, with the record its locator reads. -/
structure Row where
  key : Bytes
  entry : Entry
  record : Record

def Row.item (r : Row) : Item := ⟨r.key, r.entry⟩

/-- An output, as what has been copied into it. -/
structure Shelf where
  id : Nat
  rows : List Row

section Shelf
variable [Checksum]

namespace Shelf

def records (sh : Shelf) : List Record := sh.rows.map fun r => r.record.lifted

def bytes (sh : Shelf) : Bytes := encodeAll sh.records

/-- The locators of the copies. -/
def entries (sh : Shelf) : List Entry := (layout 0 sh.records).map fun x => {x.entry sh.id with tomb := false}

def moves (sh : Shelf) : List (Item × Entry) := (sh.rows.map Row.item).zip sh.entries

def out (sh : Shelf) : Out := ⟨sh.id, sh.bytes.length, hintOf sh.id (layout 0 sh.records)⟩

def push (sh : Shelf) (r : Row) : Shelf := ⟨sh.id, sh.rows ++ [r]⟩

theorem length_layout (pos : Nat) (rs : List Record) : (layout pos rs).length = rs.length := by
  rw [← List.length_map (f := Scanned.record), layout_records]

theorem length_entries (sh : Shelf) : sh.entries.length = sh.rows.length := by
  rw [entries, List.length_map, length_layout, records, List.length_map]

omit [Checksum] in
theorem records_push (sh : Shelf) (r : Row) : (sh.push r).records = sh.records ++ [r.record.lifted] := by
  simp [records, push]

/-- A record that was read is as long as its locator says. -/
theorem length_of_read {d : Dir} {e : Entry} {r : Record} (h : Store.readRecord d e = .ok r) :
    r.lifted.encode.length = e.size := by
  rw [Record.length_encode, Record.lifted_key, Record.lifted_value, ← Record.length_encode]
  unfold Store.readRecord Dir.readAt at h
  cases hf : d.data[e.fileID]? with
  | none => rw [hf] at h; cases h
  | some f =>
    rw [hf] at h
    dsimp only at h
    by_cases hshort : f.bytes.length < e.pos + e.size
    · rw [if_pos hshort] at h; cases h
    · rw [if_neg hshort] at h
      rw [encode_of_decode _ r h, length_slice]
      omega

theorem bytes_push (sh : Shelf) (r : Row) : (sh.push r).bytes = sh.bytes ++ r.record.lifted.encode := by
  simp [bytes, records_push]

theorem layout_push (sh : Shelf) (r : Row) : layout 0 (sh.push r).records =
    layout 0 sh.records ++ [⟨sh.bytes.length, r.record.lifted.encode, r.record.lifted⟩] := by
  rw [records_push, layout_append, Nat.zero_add]
  rfl

/-- The locator a copy gets behind a shelf. -/
def next (sh : Shelf) (r : Record) : Entry := ⟨sh.bytes.length, r.seq, sh.id, r.lifted.encode.length % 2 ^ 32, false⟩

theorem moves_push (sh : Shelf) (r : Row) : (sh.push r).moves = sh.moves ++ [(r.item, sh.next r.record)] := by
  have hentries : (sh.push r).entries = sh.entries ++ [sh.next r.record] := by
    rw [entries, layout_push, List.map_append]
    rfl
  rw [moves, hentries]
  show ((sh.rows ++ [r]).map Row.item).zip _ = _
  rw [List.map_append, List.zip_append (by rw [List.length_map, length_entries])]
  rfl

/-- Where a copy stands. -/
theorem mem_moves {id : Nat} {rows : List Row} {y : Item × Entry} (hy : y ∈ moves ⟨id, rows⟩) :
    ∃ before r after, rows = before ++ r :: after ∧ y = (r.item, next ⟨id, before⟩ r.record) := by
  induction rows using List.reverseRecOn with
  | nil => exact nomatch hy
  | append_singleton rows r ih =>
    have hmoves : moves ⟨id, rows ++ [r]⟩ = moves ⟨id, rows⟩ ++ [(r.item, next ⟨id, rows⟩ r.record)] :=
      moves_push ⟨id, rows⟩ r
    rw [hmoves] at hy
    rcases List.mem_append.mp hy with hy | hy
    · obtain ⟨before, x, after, rfl, heq⟩ := ih hy
      exact ⟨before, x, after ++ [r], by simp, heq⟩
    · exact ⟨rows, r, [], rfl, List.mem_singleton.mp hy⟩

/-- A copy is read through its locator. -/
theorem read_copy {sh : Shelf} {d : Dir} {before after : List Row} {r : Row} (hrows : sh.rows = before ++ r :: after)
    (hb : d.bytes sh.id = some sh.bytes) (hdecode : decodeRecord r.record.lifted.encode = .ok r.record.lifted)
    (hsize : r.record.lifted.encode.length < 2 ^ 32) :
    Store.readRecord d (next ⟨sh.id, before⟩ r.record) = .ok r.record.lifted := by
  refine readRecord_at (a := bytes ⟨sh.id, before⟩) (c := encodeAll (records ⟨sh.id, after⟩)) ?_ rfl
    (Nat.mod_eq_of_lt hsize) hdecode
  refine hb.trans (congrArg some ?_)
  rw [bytes, records, hrows, List.map_append, List.map_cons, encodeAll_append, encodeAll_cons]
  rfl

/-- What the index is charged for the copies. -/
theorem sizes_moves (id : Nat) (rows : List Row) :
    (moves ⟨id, rows⟩).map (fun y => y.2.size) = rows.map fun r => r.record.lifted.encode.length % 2 ^ 32 := by
  induction rows using List.reverseRecOn with
  | nil => rfl
  | append_singleton rows r ih =>
    have hmoves : moves ⟨id, rows ++ [r]⟩ = moves ⟨id, rows⟩ ++ [(r.item, next ⟨id, rows⟩ r.record)] :=
      moves_push ⟨id, rows⟩ r
    rw [hmoves, List.map_append, ih, List.map_append]
    rfl

theorem charge_le (sh : Shelf) : (sh.moves.map fun y => y.2.size).sum ≤ sh.bytes.length := by
  rw [sizes_moves sh.id sh.rows, bytes, records]
  generalize sh.rows = rows
  induction rows with
  | nil => exact Nat.le_refl _
  | cons r rest ih =>
    rw [List.map_cons, List.sum_cons, List.map_cons, encodeAll_cons, List.length_append]
    exact Nat.add_le_add (Nat.mod_le _ _) ih

theorem out_push (sh : Shelf) (r : Row) : (sh.push r).out =
    ⟨sh.id, sh.bytes.length + r.record.lifted.encode.length,
      sh.out.hint ++ hintEntry r.record.key (sh.next r.record) (r.record.lifted.encode.getD 20 0)⟩ := by
  rw [out, layout_push, hintOf_append, bytes_push, List.length_append, Record.getD_flags]
  rfl

end Shelf

/-- The rows copied so far. -/
def shelved (shelves : List Shelf) : List Row := shelves.flatMap Shelf.rows

/-- The files a merge of this store takes in. -/
def Store.mergeSet (s : Store) : List Nat := s.files.keys.filter (· ≠ s.active.id)

/-- The dead entries. -/
def Store.graves (s : Store) : List (Bytes × Entry) := s.keys.toList.filter fun x => x.2.tomb

def itemOf (x : Bytes × Entry) : Item := ⟨x.1, x.2⟩

/-- The bytes of the live records, as their locators have them. -/
def Store.liveBytes (s : Store) : Nat := (s.liveEntries.map fun x => x.2.size).sum

/-- How many more outputs records of these sizes take, behind one that holds `last` bytes. -/
def outputs (limit : Nat) : Option Nat → List Nat → Nat
  | _, [] => 0
  | none, n :: rest => outputs limit (some n) rest + 1
  | some last, n :: rest =>
    if limit < last + n then outputs limit (some n) rest + 1 else outputs limit (some (last + n)) rest

omit [Checksum] in
theorem outputs_le (limit : Nat) (last : Option Nat) (sizes : List Nat) : outputs limit last sizes ≤ sizes.length := by
  induction sizes generalizing last with
  | nil => cases last <;> exact Nat.le_refl 0
  | cons n rest ih =>
    cases last with
    | none => exact Nat.succ_le_succ (ih (some n))
    | some l =>
      rw [outputs]
      split
      · exact Nat.succ_le_succ (ih (some n))
      · exact Nat.le_succ_of_le (ih (some (l + n)))

omit [Checksum] in
theorem outputs_zero {limit last : Nat} {sizes : List Nat} (h : last + sizes.sum ≤ limit) :
    outputs limit (some last) sizes = 0 := by
  induction sizes generalizing last with
  | nil => rfl
  | cons n rest ih =>
    rw [List.sum_cons] at h
    rw [outputs, if_neg (by omega)]
    exact ih (by omega)

/-- The outputs of a merge of this store. -/
def Store.outputs (s : Store) : Nat := Engine.outputs s.opts.limit none (s.liveEntries.map fun x => x.2.size)

omit [Checksum] in
/-- There is more than one output only if one cannot hold everything. -/
theorem Store.limit_lt_liveBytes {s : Store} (h : 1 < s.outputs) : s.opts.limit < s.liveBytes := by
  by_contra hle
  refine absurd h (Nat.not_lt.mpr ?_)
  rw [Store.liveBytes] at hle
  rw [Store.outputs]
  cases hsizes : s.liveEntries.map fun x => x.2.size with
  | nil => exact Nat.zero_le _
  | cons n rest =>
    rw [hsizes, List.sum_cons] at hle
    rw [Engine.outputs, outputs_zero (by omega)]

/-- A store whose index is spread over the files of its merge set. -/
structure Spread (s : Store) : Prop where
  files : ∀ id, s.files[id]? = (s.dir.bytes id).map List.length
  inSet : ∀ (k : Bytes) (e : Entry), s.keys[k]? = some e → e.fileID ∈ s.mergeSet

/-- What a merge of `s₀` has copied when `todo` is left. -/
structure Copying (s₀ s : Store) (m : Merge) (shelves : List Shelf) (todo : List (Bytes × Entry)) : Prop where
  store : s = {s₀ with dir := s.dir, files := s.files, nextID := s.nextID}
  hints : s.dir.hints = s₀.dir.hints
  manifest : s.dir.manifest = s₀.dir.manifest
  distinct : (shelves.map Shelf.id).Nodup
  fresh : ∀ sh ∈ shelves, sh.id ∉ s₀.dir.data
  bytes : ∀ sh ∈ shelves, s.dir.bytes sh.id = some sh.bytes
  sizes : ∀ sh ∈ shelves, s.files[sh.id]? = some sh.bytes.length
  data : ∀ id : Nat, id ∉ shelves.map Shelf.id → s.dir.data[id]? = s₀.dir.data[id]?
  files : ∀ id : Nat, id ∉ shelves.map Shelf.id → s.files[id]? = s₀.files[id]?
  merge : m = ⟨m.phase, s₀.seq, s₀.mergeSet, s₀.graves.map itemOf, shelves.map Shelf.out, shelves.flatMap Shelf.moves⟩
  rows : (shelves.flatMap Shelf.rows).map (fun r => (r.key, r.entry)) ++ todo = s₀.liveEntries
  reads : ∀ r ∈ shelves.flatMap Shelf.rows, Store.readRecord s₀.dir r.entry = .ok r.record
  /-- The outputs take the ids in a row. -/
  ids : shelves.map Shelf.id = (List.range shelves.length).map fun i => Store.succID^[i] s₀.nextID
  nextID : s.nextID = Store.succID^[shelves.length] s₀.nextID

variable {s₀ s : Store} {m : Merge} {shelves : List Shelf} {todo : List (Bytes × Entry)}

theorem Copying.phase (h : Copying s₀ s m shelves todo) (p : Phase) : Copying s₀ s {m with phase := p} shelves todo :=
  {h with merge := by rw [h.merge]}

theorem Copying.outIDs (h : Copying s₀ s m shelves todo) : m.outs.map Out.id = shelves.map Shelf.id := by
  rw [h.merge, List.map_map]
  rfl

omit [Checksum] in
theorem Spread.mem_data (hs : Spread s₀) {id : Nat} : id ∈ s₀.files ↔ id ∈ s₀.dir.data := by
  rw [Store.mem_files hs.files, Dir.mem_data]

/-- **Giving up**: the outputs go, and with them all traces. -/
theorem Copying.cleanup (h : Copying s₀ s m shelves todo) (hs : Spread s₀) (n : Nat) (e : Error) :
    Merge.cleanup {s with nextID := n} m e = ({s₀ with nextID := n}, {m with phase := .failed e}) := by
  have hids := h.outIDs
  have hdrop : (Merge.cleanup {s with nextID := n} m e).1 =
      (m.outs.map Out.id).foldl Store.dropped {s with nextID := n} := by
    rw [List.foldl_map]
    rfl
  have hfiles : (m.outs.map Out.id).foldl (fun t id => t.erase id) s.files = s₀.files := by
    refine Std.ExtTreeMap.ext_getElem? fun i => ?_
    rw [getElem?_eraseAll, hids]
    by_cases hi : i ∈ shelves.map Shelf.id
    · obtain ⟨sh, hsh, rfl⟩ := List.mem_map.mp hi
      rw [if_pos hi, Std.ExtTreeMap.getElem?_eq_none fun hm => h.fresh sh hsh (hs.mem_data.mp hm)]
    · rw [if_neg hi, h.files i hi]
  have hdata : (m.outs.map Out.id).foldl (fun t id => t.erase id) s.dir.data = s₀.dir.data := by
    refine Std.ExtTreeMap.ext_getElem? fun i => ?_
    rw [getElem?_eraseAll, hids]
    by_cases hi : i ∈ shelves.map Shelf.id
    · obtain ⟨sh, hsh, rfl⟩ := List.mem_map.mp hi
      rw [if_pos hi, Std.ExtTreeMap.getElem?_eq_none (h.fresh sh hsh)]
    · rw [if_neg hi, h.data i hi]
  refine Prod.ext ?_ rfl
  rw [hdrop, droppedAll_eq]
  show ({s with nextID := n, files := _, dir := _} : Store) = _
  rw [hfiles, hdata, h.store]
  have hdir : ({s.dir with data := s₀.dir.data} : Dir) = s₀.dir := by
    show Dir.mk s₀.dir.data s.dir.hints s.dir.manifest = s₀.dir
    rw [h.hints, h.manifest]
  show ({s₀ with nextID := n, files := s₀.files, dir := {s.dir with data := s₀.dir.data} } : Store) = _
  rw [hdir]

/-- A fresh, empty output. -/
theorem Copying.newOut (h : Copying s₀ s m shelves todo) {d : Dir} (hd : s.dir.create s.nextID = .ok d) :
    Copying s₀ {s with nextID := Store.succID s.nextID, dir := d, files := s.files.insert s.nextID 0}
      {m with outs := m.outs ++ [⟨s.nextID, 0, hintMagic⟩]} (shelves ++ [⟨s.nextID, []⟩]) todo := by
  have hnew : s.nextID ∉ s.dir.data ∧ d = {s.dir with data := s.dir.data.insert s.nextID ⟨[], 0⟩} := by
    unfold Dir.create at hd
    split at hd
    · cases hd
    · rename_i hm
      cases hd
      exact ⟨hm, rfl⟩
  obtain ⟨hfree, rfl⟩ := hnew
  have hout : s.nextID ∉ shelves.map Shelf.id := fun hm => by
    obtain ⟨sh, hsh, heq⟩ := List.mem_map.mp hm
    exact hfree (heq ▸ Dir.mem_data.mpr ⟨sh.bytes, h.bytes sh hsh⟩)
  have hne {sh : Shelf} (hsh : sh ∈ shelves) : sh.id ≠ s.nextID := fun heq =>
    hout (heq ▸ List.mem_map_of_mem hsh)
  have hids : (shelves ++ [(⟨s.nextID, []⟩ : Shelf)]).map Shelf.id = shelves.map Shelf.id ++ [s.nextID] := by simp
  have hbytes : ({s.dir with data := s.dir.data.insert s.nextID ⟨[], 0⟩} : Dir).bytes =
      Function.update s.dir.bytes s.nextID (some []) := Dir.bytes_insert ..
  refine ⟨?_, h.hints, h.manifest, ?_, fun sh hsh => ?_, fun sh hsh => ?_, fun sh hsh => ?_, fun i hi => ?_,
    fun i hi => ?_, ?_, ?_, fun r hr => ?_, ?_, ?_⟩
  · conv_lhs => rw [h.store]
  · rw [hids, List.nodup_append]
    refine ⟨h.distinct, List.nodup_singleton _, fun i hi j hj heq => ?_⟩
    rw [heq, List.mem_singleton.mp hj] at hi
    exact hout hi
  · rcases List.mem_append.mp hsh with hsh | hsh
    · exact h.fresh sh hsh
    · rw [List.mem_singleton.mp hsh]
      intro hm
      rw [Std.ExtTreeMap.mem_iff_isSome_getElem?, ← h.data _ hout, ← Std.ExtTreeMap.mem_iff_isSome_getElem?] at hm
      exact hfree hm
  · rw [hbytes]
    rcases List.mem_append.mp hsh with hsh | hsh
    · rw [Function.update_of_ne (hne hsh), h.bytes sh hsh]
    · rw [List.mem_singleton.mp hsh, Function.update_self]
      rfl
  · show (s.files.insert s.nextID 0)[sh.id]? = _
    rcases List.mem_append.mp hsh with hsh | hsh
    · rw [Std.ExtTreeMap.getElem?_insert, if_neg (by simpa using (hne hsh).symm), h.sizes sh hsh]
    · rw [List.mem_singleton.mp hsh]
      exact Std.ExtTreeMap.getElem?_insert_self
  · rw [hids, List.mem_append, List.mem_singleton, not_or] at hi
    show (s.dir.data.insert s.nextID _)[i]? = _
    rw [Std.ExtTreeMap.getElem?_insert, if_neg (by simpa using Ne.symm hi.2), h.data i hi.1]
  · rw [hids, List.mem_append, List.mem_singleton, not_or] at hi
    show (s.files.insert s.nextID _)[i]? = _
    rw [Std.ExtTreeMap.getElem?_insert, if_neg (by simpa using Ne.symm hi.2), h.files i hi.1]
  · have hm := h.merge
    rw [hm]
    simp only [List.map_append, List.flatMap_append, List.map_cons, List.map_nil, List.flatMap_cons, List.flatMap_nil]
    rw [show Shelf.moves ⟨s.nextID, []⟩ = [] from rfl, List.append_nil, List.append_nil]
    rfl
  · simp only [List.flatMap_append, List.flatMap_cons, List.flatMap_nil, List.append_nil]
    exact h.rows
  · simp only [List.flatMap_append, List.flatMap_cons, List.flatMap_nil, List.append_nil] at hr
    exact h.reads r hr
  · rw [hids, List.length_append, List.length_singleton, List.range_succ, List.map_append, ← h.ids, h.nextID]
    rfl
  · rw [List.length_append, List.length_singleton, Function.iterate_succ_apply', ← h.nextID]

/-- The id a merge takes next is not free. -/
def Crowded (s₀ : Store) (n : Nat) : Prop :=
  Store.succID^[n] s₀.nextID ∈ s₀.dir.data ∨ ∃ i < n, Store.succID^[n] s₀.nextID = Store.succID^[i] s₀.nextID

/-- Why a merge can give up: a live record cannot be read, or there is no id for an output. -/
def Blocked (s₀ : Store) : Prop :=
  (∃ x ∈ s₀.liveEntries, ∃ e, Store.readRecord s₀.dir x.2 = .error e) ∨ ∃ n < s₀.outputs, Crowded s₀ n

/-- With `todo` left to copy, so many outputs are still to come. -/
def Due (s₀ : Store) (shelves : List Shelf) (todo : List (Bytes × Entry)) : Prop :=
  shelves.length + outputs s₀.opts.limit (shelves.getLast?.map fun sh => sh.bytes.length) (todo.map fun x => x.2.size) =
    s₀.outputs

/-- The same when the next record is to go to the last output, whatever its size. -/
def Taking (s₀ : Store) (shelves : List Shelf) (x : Bytes × Entry) (todo : List (Bytes × Entry)) : Prop :=
  ∃ done sh, shelves = done ++ [sh] ∧
    shelves.length + outputs s₀.opts.limit (some (sh.bytes.length + x.2.size)) (todo.map fun x => x.2.size) = s₀.outputs

theorem Copying.crowded (h : Copying s₀ s m shelves todo) (hm : s.nextID ∈ s.dir.data) : Crowded s₀ shelves.length := by
  by_cases hid : s.nextID ∈ shelves.map Shelf.id
  · rw [h.ids] at hid
    obtain ⟨i, hi, heq⟩ := List.mem_map.mp hid
    exact .inr ⟨i, List.mem_range.mp hi, h.nextID ▸ heq.symm⟩
  · left
    rw [Std.ExtTreeMap.mem_iff_isSome_getElem?, h.data _ hid, ← Std.ExtTreeMap.mem_iff_isSome_getElem?, h.nextID] at hm
    exact hm

/-- A record is read as it was at the start. -/
theorem Copying.readAt (h : Copying s₀ s m shelves todo) (hs : Spread s₀) {x : Bytes × Entry}
    (hx : s₀.keys[x.1]? = some x.2) :
    x.2.fileID ∈ s.files ∧ s.dir.readAt x.2.fileID x.2.pos x.2.size = s₀.dir.readAt x.2.fileID x.2.pos x.2.size := by
  have hmem : x.2.fileID ∈ s₀.files := Std.ExtTreeMap.mem_keys.mp (List.mem_of_mem_filter (hs.inSet x.1 x.2 hx))
  have hout : x.2.fileID ∉ shelves.map Shelf.id := fun hm => by
    obtain ⟨sh, hsh, heq⟩ := List.mem_map.mp hm
    exact h.fresh sh hsh (heq ▸ hs.mem_data.mp hmem)
  constructor
  · rwa [Std.ExtTreeMap.mem_iff_isSome_getElem?, h.files _ hout, ← Std.ExtTreeMap.mem_iff_isSome_getElem?]
  · rw [Dir.readAt, Dir.readAt, h.data _ hout]

theorem Copying.live (h : Copying s₀ s m shelves todo) {x : Bytes × Entry} (hx : x ∈ todo) : x ∈ s₀.liveEntries := by
  rw [← h.rows]
  exact List.mem_append_right _ hx

/-- An output is opened at the start and behind one that would pass the limit. -/
theorem Copying.needsOut_iff (h : Copying s₀ s m shelves todo) (n : Nat) :
    Merge.needsOut s m n = true ↔ ∀ sh, shelves.getLast? = some sh → s₀.opts.limit < sh.bytes.length + n := by
  rw [Merge.needsOut, h.merge, h.store, List.getLast?_map]
  cases shelves.getLast? with
  | none => exact iff_of_true rfl fun _ hl => by cases hl
  | some sh => exact decide_eq_true_iff.trans ⟨fun hlt _ hl => Option.some.inj hl ▸ hlt, fun hall => hall sh rfl⟩

/-- **The next record**: it is read and has an output to go to, or the merge gives up. -/
theorem Copying.copyStep {x : Bytes × Entry} (h : Copying s₀ s m shelves (x :: todo)) (hs : Spread s₀)
    (hdue : Due s₀ shelves (x :: todo)) :
    (Blocked s₀ ∧ ∃ n e, Merge.copyStep s m (itemOf x) (todo.map itemOf) =
        ({s₀ with nextID := n}, {m with phase := .failed e})) ∨
      ∃ rec s' m' shelves', Merge.copyStep s m (itemOf x) (todo.map itemOf) =
          (s', {m' with phase := .write (itemOf x) rec rec.lifted.encode (todo.map itemOf)}) ∧
        Store.readRecord s₀.dir x.2 = .ok rec ∧ Copying s₀ s' m' shelves' (x :: todo) ∧ Taking s₀ shelves' x todo := by
  have hlive := h.live (List.mem_cons_self ..)
  obtain ⟨hfile, hread⟩ := h.readAt hs (lookup_eq_some.mp (mem_liveEntries.mp hlive)).1
  unfold Merge.copyStep
  rw [if_neg (show ¬ (itemOf x).entry.fileID ∉ s.files from not_not.mpr hfile),
    show s.dir.readAt (itemOf x).entry.fileID (itemOf x).entry.pos (itemOf x).entry.size =
      s₀.dir.readAt x.2.fileID x.2.pos x.2.size from hread]
  cases hr : s₀.dir.readAt x.2.fileID x.2.pos x.2.size with
  | error e => exact .inl ⟨.inl ⟨x, hlive, e, by rw [Store.readRecord, hr]⟩, s.nextID, e, h.cleanup hs s.nextID e⟩
  | ok raw =>
    have hrec : Store.readRecord s₀.dir x.2 = decodeRecord raw := by rw [Store.readRecord, hr]
    dsimp only
    cases hd : decodeRecord raw with
    | error e => exact .inl ⟨.inl ⟨x, hlive, e, hrec.trans hd⟩, s.nextID, e, h.cleanup hs s.nextID e⟩
    | ok rec =>
      have hbuf : clearBatchFlags raw = rec.lifted.encode := by
        rw [← encode_of_decode raw rec hd, clearBatchFlags_encode]
      simp only [hbuf]
      have hneeds : Merge.needsOut s m rec.lifted.encode.length = true ↔
          ∀ sh, shelves.getLast? = some sh → s₀.opts.limit < sh.bytes.length + x.2.size := by
        rw [Shelf.length_of_read (hrec.trans hd)]
        exact h.needsOut_iff x.2.size
      rw [Due, List.map_cons] at hdue
      by_cases hneed : Merge.needsOut s m rec.lifted.encode.length = true
      · have hmore : shelves.length + 1 + outputs s₀.opts.limit (some x.2.size) (todo.map fun x => x.2.size) =
            s₀.outputs := by
          rw [← hdue]
          cases hl : shelves.getLast? with
          | none =>
            rw [Option.map_none, outputs]
            omega
          | some sh =>
            rw [Option.map_some, outputs, if_pos (hneeds.mp hneed sh hl)]
            omega
        rw [if_pos hneed, Merge.newOut]
        cases hc : s.dir.create s.nextID with
        | error e =>
          have hcrowd : Crowded s₀ shelves.length := h.crowded (by
            unfold Dir.create at hc
            split at hc
            · assumption
            · cases hc)
          exact .inl ⟨.inr ⟨_, by omega, hcrowd⟩, _, e, h.cleanup hs (Store.succID s.nextID) e⟩
        | ok d =>
          refine .inr ⟨rec, _, _, _, rfl, hrec.trans hd, h.newOut hc, shelves, _, rfl, ?_⟩
          rw [List.length_append, List.length_singleton, ← hmore,
            show (Shelf.bytes ⟨s.nextID, []⟩).length = 0 from rfl, Nat.zero_add]
      · rw [if_neg hneed]
        refine .inr ⟨rec, s, m, shelves, rfl, hrec.trans hd, h, ?_⟩
        rcases shelves.eq_nil_or_concat' with rfl | ⟨done, sh, rfl⟩
        · exact absurd (hneeds.mpr fun sh hl => by cases hl) hneed
        · rw [List.getLast?_concat] at hneeds hdue
          rw [Option.map_some, outputs, if_neg fun hlt =>
            hneed (hneeds.mpr fun _ hl => Option.some.inj hl ▸ hlt)] at hdue
          exact ⟨done, sh, rfl, hdue⟩

/-- **A copy**: the record goes to the end of the last output. -/
theorem Copying.writeStep {x : Bytes × Entry} {rec : Record} (h : Copying s₀ s m shelves (x :: todo))
    (hread : Store.readRecord s₀.dir x.2 = .ok rec) (htake : Taking s₀ shelves x todo) :
    ∃ s' m' shelves', Merge.writeStep s m (itemOf x) rec rec.lifted.encode (todo.map itemOf) =
        (s', {m' with phase := .copy (todo.map itemOf)}) ∧ Copying s₀ s' m' shelves' todo ∧ Due s₀ shelves' todo := by
  obtain ⟨done, sh, rfl, hcount⟩ := htake
  have hmem : sh ∈ done ++ [sh] := List.mem_append_right _ (List.mem_singleton_self sh)
  obtain ⟨d, hd, hbytes, hhints, hmanifest, hdata⟩ := Dir.writeAt_end (h.bytes sh hmem) rec.lifted.encode
  let r : Row := ⟨x.1, x.2, rec⟩
  have hids : (done ++ [sh.push r]).map Shelf.id = (done ++ [sh]).map Shelf.id := by simp [Shelf.push]
  have hrows : (done ++ [sh.push r]).flatMap Shelf.rows = (done ++ [sh]).flatMap Shelf.rows ++ [r] := by
    simp [Shelf.push]
  have hother {t : Shelf} (ht : t ∈ done) : t.id ≠ sh.id := fun heq => by
    have := h.distinct
    rw [List.map_append, List.map_singleton, List.nodup_append] at this
    exact this.2.2 t.id (List.mem_map_of_mem ht) sh.id (List.mem_singleton_self _) heq
  have hlast : m.outs.getLast? = some sh.out := by
    rw [h.merge, List.map_append]
    exact List.getLast?_concat
  refine ⟨{s with dir := d,
                  files := s.files.alter sh.id (Option.map fun _ => sh.bytes.length + rec.lifted.encode.length)},
    {m with outs := m.outs.dropLast ++ [(sh.push r).out], moved := m.moved ++ [(itemOf x, sh.next rec)]},
    done ++ [sh.push r], ?_, ?_, ?_⟩
  · unfold Merge.writeStep
    rw [hlast]
    simp only [Shelf.out, hd]
    rw [← Shelf.out, Shelf.out_push]
    rfl
  · refine ⟨?_, hhints.trans h.hints, hmanifest.trans h.manifest, hids ▸ h.distinct, fun t ht => ?_, fun t ht => ?_,
      fun t ht => ?_, fun i hi => ?_, fun i hi => ?_, ?_, ?_, fun y hy => ?_, ?_, ?_⟩
    · conv_lhs => rw [h.store]
    · rcases List.mem_append.mp ht with ht | ht
      · exact h.fresh t (List.mem_append_left _ ht)
      · rw [List.mem_singleton.mp ht]
        exact h.fresh sh hmem
    · show d.bytes t.id = _
      rw [hbytes]
      rcases List.mem_append.mp ht with ht | ht
      · rw [Function.update_of_ne (hother ht), h.bytes t (List.mem_append_left _ ht)]
      · rw [List.mem_singleton.mp ht, Shelf.bytes_push]
        exact Function.update_self ..
    · show (s.files.alter sh.id _)[t.id]? = _
      rcases List.mem_append.mp ht with ht | ht
      · rw [Std.ExtTreeMap.getElem?_alter, if_neg (by simpa using (hother ht).symm),
          h.sizes t (List.mem_append_left _ ht)]
      · rw [List.mem_singleton.mp ht, Shelf.bytes_push]
        show (s.files.alter sh.id _)[sh.id]? = _
        rw [Std.ExtTreeMap.getElem?_alter_self, h.sizes sh hmem, List.length_append]
        rfl
    · rw [hids] at hi
      rw [← h.data i hi]
      exact hdata i fun heq => hi (heq ▸ List.mem_map_of_mem hmem)
    · rw [hids] at hi
      rw [← h.files i hi]
      show (s.files.alter sh.id _)[i]? = _
      rw [Std.ExtTreeMap.getElem?_alter, if_neg]
      simpa using fun heq : sh.id = i => hi (heq ▸ List.mem_map_of_mem hmem)
    · have hm := h.merge
      rw [hm]
      simp only [List.map_append, List.flatMap_append, List.map_cons, List.map_nil, List.flatMap_cons, List.flatMap_nil,
        List.append_nil, List.dropLast_concat, Shelf.moves_push, List.append_assoc]
      rfl
    · rw [hrows, List.map_append, List.append_assoc]
      exact h.rows
    · rw [hrows, List.mem_append, List.mem_singleton] at hy
      rcases hy with hy | rfl
      · exact h.reads y hy
      · exact hread
    · rw [hids, h.ids]
      simp only [List.length_append, List.length_singleton]
    · rw [show (done ++ [sh.push r]).length = (done ++ [sh]).length by simp]
      exact h.nextID
  · have hlen : (done ++ [sh.push r]).length = (done ++ [sh]).length := by simp
    have hsize : (sh.push r).bytes.length = sh.bytes.length + x.2.size := by
      rw [Shelf.bytes_push, List.length_append]
      exact congrArg _ (Shelf.length_of_read hread)
    rw [Due, hlen, List.getLast?_concat, Option.map_some, hsize]
    exact hcount

theorem Copying.syncOuts (h : Copying s₀ s m shelves todo) {sh : Shelf} (hsh : sh ∈ shelves) :
    ∃ d, s.dir.sync sh.id = .ok d ∧ Copying s₀ {s with dir := d} m shelves todo := by
  obtain ⟨d, hd, hbytes, hhints, hmanifest, _, hdata⟩ := Dir.sync_ok (h.bytes sh hsh)
  refine ⟨d, hd, {h with
    store := ?_
    hints := hhints.trans h.hints
    manifest := hmanifest.trans h.manifest
    bytes := fun t ht => (congrFun hbytes t.id).trans (h.bytes t ht)
    data := fun i hi => ?_}⟩
  · conv_lhs => rw [h.store]
  · rw [← h.data i hi]
    exact hdata i fun heq => hi (heq ▸ List.mem_map_of_mem hsh)

/-! ### The whole run -/

/-- Where a merge of `s₀` can be. -/
inductive Stage (s₀ : Store) : Store → Merge → Prop
  | list : Stage s₀ s₀ (.start (.list s₀.active.id) s₀.seq)
  | idle {m : Merge} (hm : m.phase = .done) (hset : s₀.mergeSet = []) : Stage s₀ s₀ m
  | snapshot (hset : s₀.mergeSet ≠ []) : Stage s₀ s₀ ⟨.snapshot, s₀.seq, s₀.mergeSet, [], [], []⟩
  | copy {s : Store} {m : Merge} {shelves : List Shelf} {todo : List (Bytes × Entry)} (hset : s₀.mergeSet ≠ [])
      (h : Copying s₀ s m shelves todo) (hdue : Due s₀ shelves todo) :
      Stage s₀ s {m with phase := .copy (todo.map itemOf)}
  | write {s : Store} {m : Merge} {shelves : List Shelf} {x : Bytes × Entry} {todo : List (Bytes × Entry)}
      {rec : Record} (hset : s₀.mergeSet ≠ []) (h : Copying s₀ s m shelves (x :: todo))
      (hread : Store.readRecord s₀.dir x.2 = .ok rec)
      (htake : Taking s₀ shelves x todo) :
      Stage s₀ s {m with phase := .write (itemOf x) rec rec.lifted.encode (todo.map itemOf)}
  | syncOuts {s : Store} {m : Merge} {shelves left : List Shelf} (hset : s₀.mergeSet ≠ [])
      (h : Copying s₀ s m shelves []) (hcount : shelves.length = s₀.outputs) (hleft : ∀ sh ∈ left, sh ∈ shelves) :
      Stage s₀ s {m with phase := .syncOuts (left.map Shelf.out)}
  | publish {s t : Store} {m n : Merge} {shelves : List Shelf} (hset : s₀.mergeSet ≠ []) (h : Copying s₀ t n shelves [])
      (hcount : shelves.length = s₀.outputs) (hm : Merge.Phase.publishing m.phase = true)
      (hend : Merge.outcome s m = Merge.hinted t n n.outs) : Stage s₀ s m
  | failed {m : Merge} {e : Error} (n : Nat) (hm : m.phase = .failed e) (h : Blocked s₀) :
      Stage s₀ {s₀ with nextID := n} m

omit [Checksum] in
theorem Spread.inMerge (hs : Spread s₀) : Merge.inMerge s₀ s₀.mergeSet = s₀.keys.toList.map itemOf := by
  unfold Merge.inMerge
  rw [List.filter_eq_self.mpr fun x hx => ?_]
  · rfl
  · exact decide_eq_true (hs.inSet x.1 x.2 (Std.ExtTreeMap.mem_toList_iff_getElem?_eq_some.mp hx))

theorem Copying.start (s₀ : Store) :
    Copying s₀ s₀ ⟨.snapshot, s₀.seq, s₀.mergeSet, s₀.graves.map itemOf, [], []⟩ [] s₀.liveEntries where
  store := rfl
  hints := rfl
  manifest := rfl
  distinct := List.nodup_nil
  fresh _ hsh := nomatch hsh
  bytes _ hsh := nomatch hsh
  sizes _ hsh := nomatch hsh
  data _ _ := rfl
  files _ _ := rfl
  merge := rfl
  rows := rfl
  reads _ hr := nomatch hr
  ids := rfl
  nextID := rfl

theorem Stage.step (hs : Spread s₀) (h : Stage s₀ s m) : Stage s₀ (Merge.step s m).1 (Merge.step s m).2 := by
  cases h with
  | list =>
    show Stage s₀ s₀ ⟨if s₀.mergeSet = [] then .done else .snapshot, s₀.seq, s₀.mergeSet, [], [], []⟩
    by_cases hset : s₀.mergeSet = []
    · exact .idle (if_pos hset) hset
    · rw [if_neg hset]
      exact .snapshot hset
  | idle hm hset =>
    rw [Merge.step, hm]
    exact .idle hm hset
  | snapshot hset =>
    have hlive : (s₀.keys.toList.map itemOf).filter (!·.entry.tomb) = s₀.liveEntries.map itemOf := List.filter_map
    have hdead : (s₀.keys.toList.map itemOf).filter (·.entry.tomb) = s₀.graves.map itemOf := List.filter_map
    show Stage s₀ s₀ ⟨.copy ((Merge.inMerge s₀ s₀.mergeSet).filter (!·.entry.tomb)), s₀.seq, s₀.mergeSet,
      (Merge.inMerge s₀ s₀.mergeSet).filter (·.entry.tomb), [], []⟩
    rw [hs.inMerge, hlive, hdead]
    exact .copy hset (.start s₀) (Nat.zero_add _)
  | copy hset h hdue =>
    rename_i n shelves todo
    cases todo with
    | nil =>
      have hcount : shelves.length = s₀.outputs := by
        rw [← hdue]
        cases shelves.getLast? <;> rfl
      have : Stage s₀ s {n with phase := .syncOuts (shelves.map Shelf.out)} := .syncOuts hset h hcount fun _ hsh => hsh
      rw [h.merge] at this ⊢
      exact this
    | cons x todo =>
      rcases (h.phase (.copy ((x :: todo).map itemOf))).copyStep hs hdue with
        ⟨hb, k, e, heq⟩ | ⟨rec, s', m', shelves', heq, hread, h', htake⟩
      · show Stage s₀ (Merge.copyStep s _ (itemOf x) (todo.map itemOf)).1
          (Merge.copyStep s _ (itemOf x) (todo.map itemOf)).2
        rw [heq]
        exact .failed k rfl hb
      · show Stage s₀ (Merge.copyStep s _ (itemOf x) (todo.map itemOf)).1
          (Merge.copyStep s _ (itemOf x) (todo.map itemOf)).2
        rw [heq]
        exact .write hset h' hread htake
  | write hset h hread htake =>
    rename_i n shelves x todo rec
    obtain ⟨s', m', shelves', heq, h', hdue⟩ :=
      (h.phase (.write (itemOf x) rec rec.lifted.encode (todo.map itemOf))).writeStep hread htake
    show Stage s₀ (Merge.writeStep s _ (itemOf x) rec _ (todo.map itemOf)).1
      (Merge.writeStep s _ (itemOf x) rec _ (todo.map itemOf)).2
    rw [heq]
    exact .copy hset h' hdue
  | syncOuts hset h hcount hleft =>
    rename_i n shelves left
    cases left with
    | nil => exact .publish hset h hcount rfl rfl
    | cons sh left =>
      obtain ⟨d, hd, h'⟩ := h.syncOuts (hleft sh (List.mem_cons_self ..))
      have : Merge.step s {n with phase := .syncOuts ((sh :: left).map Shelf.out)} =
          ({s with dir := d}, {n with phase := .syncOuts (left.map Shelf.out)}) := by
        simp only [Merge.step, List.map_cons]
        rw [show s.dir.sync sh.out.id = .ok d from hd]
      rw [this]
      exact .syncOuts hset h' hcount fun t ht => hleft t (List.mem_cons_of_mem _ ht)
  | publish hset h hcount hm hend =>
    obtain ⟨hsame, hpub⟩ := Merge.outcome_step hm
    exact .publish hset h hcount hpub (hsame.trans hend)
  | failed k hm hb =>
    rw [Merge.step, hm]
    exact .failed k hm hb

theorem Stage.run (hs : Spread s₀) (h : Stage s₀ s m) (n : Nat) : Stage s₀ (Merge.run n s m).1 (Merge.run n s m).2 := by
  induction n generalizing s m with
  | zero => exact h
  | succ n ih => exact ih (h.step hs)

end Shelf

end Gokv.Engine
