import Gokv.Engine.Copy
import Gokv.Engine.Wide

/-! What a `Compact` that runs alone leaves.

A store is tidy behind a successful merge (`Tidied`): every live key reads as before and has its
sequence number, no tombstone is left, the outputs hold one record for each live key in key order
and out of its batch, and nothing else is on disk. Compact copies what the locators read and does
not look at the key, so this takes locators that find a put of their key under their number, and
no more (`tidied_iff`). Behind 4 GiB of one batch they do not (`wideBatch_compact`). -/
namespace Gokv.Engine
open Base

section Tidied
variable [Checksum] {s s₀ s' : Store} {shelves : List Shelf}

/-- The bytes on disk the index does not point at. -/
def Store.deadBytes (s : Store) : Int := if 0 < s.total - s.live then s.total - s.live else 0

/-- The record of a live entry, as a merge writes it. -/
structure Carried (x : Bytes × Entry) (r : Record) : Prop where
  decodes : decodeRecord r.encode = .ok r
  key : r.key = x.1
  seq : r.seq = x.2.seq
  put : r.tombstone = false
  single : r.batch = false
  noEnd : r.batchEnd = false

/-- The id of the first output. An active file with something in it is sealed before. -/
def Store.firstOut (s : Store) : Nat := if s.active.size = 0 then s.nextID else Store.succID s.nextID

/-- The outputs, in the order they were opened, are the files of the store but for an empty active one. -/
structure Volumes (s s' : Store) (outs : List (Nat × List Record)) : Prop where
  ids : outs.map Prod.fst = (List.range outs.length).map fun i => Store.succID^[i] s.firstOut
  distinct : (outs.map Prod.fst).Nodup
  apart : s'.active.id ∉ outs.map Prod.fst
  active : s'.dir.bytes s'.active.id = some []
  bytes : ∀ o ∈ outs, s'.dir.bytes o.1 = some (encodeAll o.2)
  only : ∀ id b, s'.dir.bytes id = some b → id = s'.active.id ∨ id ∈ outs.map Prod.fst
  records : List.Forall₂ Carried s.liveEntries (outs.flatMap Prod.snd)

/-- `s'` is `s`, compacted. -/
structure Tidied (s s' : Store) : Prop where
  get : ∀ k, s'.get k = s.get k
  seqs : ∀ k, (s'.lookup k).map Entry.seq = (s.lookup k).map Entry.seq
  noTombs : ∀ (k : Bytes) (e : Entry), s'.keys[k]? = some e → e.tomb = false
  disk : ∃ outs, Volumes s s' outs
  total : s'.total = s'.live
  dead : s'.deadBytes = 0
  seq : s'.seq = s.seq
  mergeSeq : s'.mergeSeq = s'.seq

/-- There is something to merge. -/
def Store.Mergeable (s : Store) : Prop := s.active.size ≠ 0 ∨ ∃ id ∈ s.files, id ≠ s.active.id

/-- The locator of a live key finds a put of that key, under the number of the entry. -/
def Store.Finds (s : Store) (x : Bytes × Entry) : Prop :=
  ∃ r, Store.readRecord s.dir x.2 = .ok r ∧ r.key = x.1 ∧ r.seq = x.2.seq ∧ r.tombstone = false

instance (s : Store) (x : Bytes × Entry) : Decidable (s.Finds x) :=
  match h : Store.readRecord s.dir x.2 with
  | .error _ => isFalse fun hf => by
      obtain ⟨r, hr, -⟩ := hf
      rw [h] at hr
      cases hr
  | .ok r => decidable_of_iff (r.key = x.1 ∧ r.seq = x.2.seq ∧ r.tombstone = false)
      ⟨fun hr => ⟨r, h, hr⟩, fun hf => by
        obtain ⟨r', hr', hfound⟩ := hf
        cases Except.ok.inj (h.symm.trans hr')
        exact hfound⟩

/-! ### The index and the outputs -/

theorem shelfIndex_keys (shelves : List Shelf) : (shelfIndex shelves).map Prod.fst = (shelved shelves).map Row.key := by
  have := congrArg (List.map Item.key) (moves_items shelves)
  rw [List.map_map, List.map_map] at this
  rw [shelfIndex, List.map_map]
  exact this

/-- Where the copy of a row stands. -/
theorem shelfIndex_at {x : Bytes × Entry} (hx : x ∈ shelfIndex shelves) : ∃ sh ∈ shelves, ∃ before r after,
    sh.rows = before ++ r :: after ∧ x.1 = r.key ∧ x.2 = Shelf.next ⟨sh.id, before⟩ r.record := by
  obtain ⟨y, hy, rfl⟩ := List.mem_map.mp hx
  obtain ⟨sh, hsh, hy⟩ := List.mem_flatMap.mp hy
  obtain ⟨before, r, after, hrows, rfl⟩ := Shelf.mem_moves hy
  exact ⟨sh, hsh, before, r, after, hrows, rfl, rfl⟩

theorem Merged.row_live (h : Merged s₀ s shelves) {r : Row} (hr : r ∈ shelved shelves) :
    (r.key, r.entry) ∈ s₀.liveEntries :=
  h.rows ▸ List.mem_map_of_mem (f := fun r : Row => (r.key, r.entry)) hr

/-- The copy of a row is read through its locator. -/
theorem Merged.read (h : Merged s₀ s shelves) {x : Bytes × Entry} (hx : x ∈ s.liveEntries)
    (hsize : ∀ y ∈ s₀.liveEntries, y.2.size < 2 ^ 32) : ∃ r ∈ shelved shelves, x.1 = r.key ∧ x.2.seq = r.record.seq ∧
      Store.readRecord s.dir x.2 = .ok r.record.lifted := by
  have hmem : x ∈ shelfIndex shelves := h.keys ▸ List.mem_of_mem_filter hx
  obtain ⟨sh, hsh, before, r, after, hrows, hkey, he⟩ := shelfIndex_at hmem
  have hr : r ∈ shelved shelves := List.mem_flatMap.mpr ⟨sh, hsh, by rw [hrows]; simp⟩
  obtain ⟨buf, hbuf⟩ := decode_of_read (h.reads r hr)
  refine ⟨r, hr, hkey, by rw [he]; rfl, ?_⟩
  rw [he]
  refine Shelf.read_copy hrows (h.bytes sh hsh) (decodeRecord_lifted hbuf) ?_
  rw [Shelf.length_of_read (h.reads r hr)]
  exact hsize _ (h.row_live hr)

theorem Merged.noTombs (h : Merged s₀ s shelves) (k : Bytes) (e : Entry) (he : s.keys[k]? = some e) :
    e.tomb = false := by
  rw [← Std.ExtTreeMap.mem_toList_iff_getElem?_eq_some, h.keys] at he
  exact shelfIndex_live he

/-- A key is live behind a merge exactly if it was before. -/
theorem Merged.lookup_none (h : Merged s₀ s shelves) (k : Bytes) : s.lookup k = none ↔ s₀.lookup k = none := by
  have hboth (t : Store) : t.lookup k = none ↔ k ∉ t.liveEntries.map Prod.fst := by
    rw [← not_iff_not, not_not, ← ne_eq, Option.ne_none_iff_exists', List.mem_map]
    constructor
    · rintro ⟨e, he⟩
      exact ⟨(k, e), mem_liveEntries.mpr he, rfl⟩
    · rintro ⟨x, hx, rfl⟩
      exact ⟨x.2, mem_liveEntries.mp hx⟩
  have hall : s.liveEntries = shelfIndex shelves := by
    rw [Store.liveEntries, h.keys]
    exact List.filter_eq_self.mpr fun x hx => by rw [shelfIndex_live hx]; rfl
  rw [hboth, hboth, hall, shelfIndex_keys, ← h.rows, List.map_map]
  rfl

/-- What is known of a key on both sides of a merge. -/
theorem Merged.lookup_some (h : Merged s₀ s shelves) (hsize : ∀ y ∈ s₀.liveEntries, y.2.size < 2 ^ 32)
    {k : Bytes} {e : Entry}
    (he : s₀.lookup k = some e) : ∃ e' r, s.lookup k = some e' ∧ e'.seq = r.seq ∧ Store.readRecord s₀.dir e = .ok r ∧
      Store.readRecord s.dir e' = .ok r.lifted := by
  cases he' : s.lookup k with
  | none =>
    rw [(h.lookup_none k).mp he'] at he
    cases he
  | some e' =>
    obtain ⟨r, hr, hkey, hseq, hread⟩ := h.read (x := (k, e')) (mem_liveEntries.mpr he') hsize
    have hsame : s₀.lookup k = some r.entry := by
      rw [show k = r.key from hkey]
      exact mem_liveEntries.mp (h.row_live hr)
    rw [he, Option.some.injEq] at hsame
    exact ⟨e', r.record, rfl, hseq, hsame ▸ h.reads r hr, hread⟩

/-! ### The files -/

/-- No output has the id of the active file. -/
theorem Merged.active_apart (h : Merged s₀ s shelves) (hactive : s₀.dir.bytes s₀.active.id = some []) :
    s₀.active.id ∉ shelves.map Shelf.id := by
  intro hm
  obtain ⟨sh, hsh, heq⟩ := List.mem_map.mp hm
  exact h.fresh sh hsh (Dir.mem_data.mpr ⟨[], heq ▸ hactive⟩)

/-- The files behind a merge that found an empty active file. -/
theorem Merged.files_perm (h : Merged s₀ s shelves) (hactive : s₀.dir.bytes s₀.active.id = some []) :
    s.files.toList.Perm ((s₀.active.id, 0) :: shelves.map fun sh => (sh.id, sh.bytes.length)) := by
  have hout := h.active_apart hactive
  have hids : ((shelves.map fun sh => (sh.id, sh.bytes.length)).map Prod.fst) = shelves.map Shelf.id := List.map_map
  have hnodup : ((s₀.active.id, 0) :: shelves.map fun sh => (sh.id, sh.bytes.length)).Nodup := by
    refine List.Nodup.of_map Prod.fst ?_
    rw [List.map_cons, hids]
    exact List.nodup_cons.mpr ⟨hout, h.distinct⟩
  refine (List.perm_ext_iff_of_nodup (nodup_toList _) hnodup).mpr fun x => ?_
  obtain ⟨id, n⟩ := x
  rw [Std.ExtTreeMap.mem_toList_iff_getElem?_eq_some, h.files, List.mem_cons, Prod.mk.injEq]
  by_cases hm : id ∈ shelves.map Shelf.id
  · obtain ⟨sh, hsh, rfl⟩ := List.mem_map.mp hm
    have hne : sh.id ≠ s₀.active.id := fun heq => hout (heq ▸ hm)
    rw [h.bytes sh hsh, Option.map_some, Option.some.injEq]
    constructor
    · rintro rfl
      exact .inr (List.mem_map_of_mem (f := fun sh : Shelf => (sh.id, sh.bytes.length)) hsh)
    · rintro (⟨heq, -⟩ | hx)
      · exact absurd heq hne
      · obtain ⟨sh', hsh', heq⟩ := List.mem_map.mp hx
        rw [Prod.mk.injEq] at heq
        rw [← heq.2, List.inj_on_of_nodup_map h.distinct hsh' hsh heq.1]
  · have hno : (id, n) ∉ shelves.map fun sh => (sh.id, sh.bytes.length) := fun hx =>
      hm (hids ▸ List.mem_map_of_mem (f := Prod.fst) hx)
    rw [h.others id hm, or_iff_left hno]
    by_cases ha : id = s₀.active.id
    · rw [if_pos ha, ha, hactive]
      simp [eq_comm]
    · simp [ha]

/-- What a shelf costs is what the index is charged for it. -/
theorem Shelf.charge_eq (sh : Shelf) (hsize : ∀ r ∈ sh.rows, r.record.lifted.encode.length < 2 ^ 32) :
    (sh.moves.map fun y => y.2.size).sum = sh.bytes.length := by
  rw [sizes_moves sh.id sh.rows, bytes, records]
  generalize sh.rows = rows at hsize
  induction rows with
  | nil => rfl
  | cons r rest ih =>
    rw [List.forall_mem_cons] at hsize
    rw [List.map_cons, List.sum_cons, List.map_cons, encodeAll_cons, List.length_append,
      Nat.mod_eq_of_lt hsize.1, ih hsize.2]

/-- **The recount**: everything on disk is live. -/
theorem Merged.total_eq (h : Merged s₀ s shelves) (hactive : s₀.dir.bytes s₀.active.id = some [])
    (hsize : ∀ y ∈ s₀.liveEntries, y.2.size < 2 ^ 32) : s.total = s.live := by
  have hrows (sh : Shelf) (hsh : sh ∈ shelves) : ∀ r ∈ sh.rows, r.record.lifted.encode.length < 2 ^ 32 := fun r hr => by
    have hmem : r ∈ shelved shelves := List.mem_flatMap.mpr ⟨sh, hsh, hr⟩
    rw [Shelf.length_of_read (h.reads r hmem)]
    exact hsize (r.key, r.entry) (h.row_live hmem)
  have hsum (xs : List Shelf) (hxs : ∀ sh ∈ xs, ∀ r ∈ sh.rows, r.record.lifted.encode.length < 2 ^ 32) :
      ((shelfIndex xs).map fun x => (x.2.size : Int)).sum = (xs.map fun sh => (sh.bytes.length : Int)).sum := by
    induction xs with
    | nil => rfl
    | cons sh rest ih =>
      rw [List.forall_mem_cons] at hxs
      rw [List.map_cons, List.sum_cons, ← ih hxs.2, ← sh.charge_eq hxs.1, Nat.cast_list_sum, List.map_map]
      simp only [shelfIndex, List.flatMap_cons, List.map_append, List.sum_append, List.map_map]
      rfl
  rw [h.total, h.live, hsum shelves hrows, Merge.usage, ((h.files_perm hactive).map _).sum_eq, List.map_cons,
    List.sum_cons,
    List.map_map]
  exact Int.zero_add _

/-- The outputs of a merge as ids and records. -/
def volumes (shelves : List Shelf) : List (Nat × List Record) := shelves.map fun sh => (sh.id, sh.records)

omit [Checksum] in
theorem volumes_records (shelves : List Shelf) :
    (volumes shelves).flatMap Prod.snd = (shelved shelves).map fun r => r.record.lifted := by
  rw [volumes, List.flatMap_map, shelved, List.map_flatMap]
  rfl

omit [Checksum] in
theorem volumes_ids (shelves : List Shelf) : (volumes shelves).map Prod.fst = shelves.map Shelf.id := List.map_map

/-- Row by row, the records are those of the live entries exactly if the locators find them. -/
theorem Merged.carried_iff (h : Merged s₀ s shelves) :
    List.Forall₂ Carried s₀.liveEntries ((volumes shelves).flatMap Prod.snd) ↔ ∀ x ∈ s₀.liveEntries, s₀.Finds x := by
  rw [volumes_records, ← h.rows, List.forall₂_map_left_iff, List.forall₂_map_right_iff, List.forall₂_same,
    List.forall_mem_map]
  refine forall₂_congr fun r hr => ?_
  have hread := h.reads r hr
  constructor
  · intro hc
    exact ⟨r.record, hread, hc.key, hc.seq, r.record.lifted_tombstone ▸ hc.put⟩
  · rintro ⟨r', hread', hkey, hseq, hput⟩
    cases Except.ok.inj (hread.symm.trans hread')
    obtain ⟨buf, hbuf⟩ := decode_of_read hread
    exact ⟨decodeRecord_lifted hbuf, hkey, hseq, r.record.lifted_tombstone.trans hput, r.record.lifted_batch,
      r.record.lifted_batchEnd⟩

theorem Merged.made (h : Merged s₀ s' shelves) (hactive : s₀.dir.bytes s₀.active.id = some [])
    (hfirst : s₀.nextID = s.firstOut)
    (hcarried : List.Forall₂ Carried s.liveEntries ((volumes shelves).flatMap Prod.snd)) :
    Volumes s s' (volumes shelves) := by
  have hact : s'.active = s₀.active := by rw [h.store]
  have hapart := h.active_apart hactive
  constructor
  case ids => rw [volumes_ids, h.ids, hfirst, volumes, List.length_map]
  case distinct =>
    rw [volumes_ids]
    exact h.distinct
  case apart =>
    rw [volumes_ids, hact]
    exact hapart
  case active => rw [hact, h.others _ hapart, if_pos rfl, hactive]
  case bytes =>
    intro o ho
    obtain ⟨sh, hsh, rfl⟩ := List.mem_map.mp ho
    exact h.bytes sh hsh
  case only =>
    intro id b hb
    rw [volumes_ids, hact]
    by_contra hno
    rw [not_or] at hno
    rw [h.others id hno.2, if_neg hno.1] at hb
    cases hb
  case records => exact hcarried

/-- The directory tells the outputs. -/
theorem Merged.volumes_unique (h : Merged s₀ s' shelves) (hactive : s₀.dir.bytes s₀.active.id = some [])
    (hfirst : s₀.nextID = s.firstOut) {outs : List (Nat × List Record)} (hv : Volumes s s' outs) :
    outs = volumes shelves := by
  have hact : s'.active = s₀.active := by rw [h.store]
  have hmem (id : Nat) : id ∈ outs.map Prod.fst ↔ id ∈ shelves.map Shelf.id := by
    constructor
    · intro hid
      by_contra hno
      obtain ⟨o, ho, rfl⟩ := List.mem_map.mp hid
      have hb := hv.bytes o ho
      rw [h.others _ hno, if_neg fun heq => hv.apart (by rw [hact, ← heq]; exact hid)] at hb
      cases hb
    · intro hid
      obtain ⟨sh, hsh, rfl⟩ := List.mem_map.mp hid
      refine (hv.only _ _ (h.bytes sh hsh)).resolve_left fun heq => h.active_apart hactive ?_
      rw [← hact, ← heq]
      exact hid
  have hlen : outs.length = shelves.length := by
    simpa using ((List.perm_ext_iff_of_nodup hv.distinct h.distinct).mpr hmem).length_eq
  have hids : outs.map Prod.fst = shelves.map Shelf.id := by rw [hv.ids, h.ids, hlen, hfirst]
  have hdecodes {xs : List (Bytes × Entry)} {rs : List Record} (hall : List.Forall₂ Carried xs rs) :
      ∀ r ∈ rs, decodeRecord r.encode = .ok r := by
    induction hall with
    | nil => exact fun r hr => absurd hr List.not_mem_nil
    | cons hc _ ih => exact List.forall_mem_cons.mpr ⟨hc.decodes, ih⟩
  refine List.ext_getElem (by rw [hlen, volumes, List.length_map]) fun i hi hi' => ?_
  have hi' : i < shelves.length := hlen ▸ hi
  have hid : outs[i].1 = shelves[i].id := by
    have := congrArg (·[i]?) hids
    simpa [List.getElem?_eq_getElem hi, List.getElem?_eq_getElem hi'] using this
  have hbytes : encodeAll outs[i].2 = encodeAll shelves[i].records := by
    have ho := hv.bytes outs[i] (List.getElem_mem _)
    rw [hid, h.bytes shelves[i] (List.getElem_mem _)] at ho
    exact (Option.some.inj ho).symm
  have hrecords : outs[i].2 = shelves[i].records := by
    refine encodeAll_inj (fun r hr => ?_) (fun r hr => ?_) hbytes
    · exact hdecodes hv.records r (List.mem_flatMap.mpr ⟨outs[i], List.getElem_mem _, hr⟩)
    · obtain ⟨row, hrow, rfl⟩ := List.mem_map.mp hr
      obtain ⟨buf, hbuf⟩ := decode_of_read (h.reads row (List.mem_flatMap.mpr ⟨shelves[i], List.getElem_mem _, hrow⟩))
      exact decodeRecord_lifted hbuf
  simp only [volumes, List.getElem_map]
  exact Prod.ext hid hrecords

/-! ### The call -/

/-- **A successful call** with something to merge is a merge of the sealed store. -/
theorem compact_merged (hs : Placed s) (hset : s.Mergeable) (hok : s.compact.2 = none) :
    ∃ s₀ shelves, Merged s₀ s.compact.1 shelves ∧ s₀.keys = s.keys ∧ s₀.seq = s.seq ∧ s₀.nextID = s.firstOut ∧
      s₀.dir.bytes s₀.active.id = some [] ∧
      ∀ x ∈ s.liveEntries, Store.readRecord s₀.dir x.2 = Store.readRecord s.dir x.2 := by
  rcases compact_cases hs with ⟨-, d, e, -, -, heq⟩ | ⟨s₀, -, hends, hhow⟩
  · rw [heq] at hok
    cases hok
  have hmerged (hne : s₀.mergeSet ≠ []) : ∃ shelves, Merged s₀ s.compact.1 shelves := by
    generalize s.compact.1 = t, s.compact.2 = err at hends hok
    cases hends with
    | idle hnil => exact absurd hnil hne
    | blocked n e hb => cases hok
    | merged _ hm => exact ⟨_, hm⟩
  rcases hhow with ⟨hz, rfl⟩ | ⟨d, hbytes, -, hz, hid, rfl⟩
  · obtain ⟨id, hid, hne⟩ := hset.resolve_left (not_not.mpr hz)
    obtain ⟨shelves, hm⟩ := hmerged (List.ne_nil_of_mem (mem_mergeSet.mpr ⟨hid, hne⟩))
    have hempty := hs.active
    rw [hs.files, hz] at hempty
    obtain ⟨b, hb, hlen⟩ := Option.map_eq_some_iff.mp hempty
    exact ⟨s₀, shelves, hm, rfl, rfl, (if_pos hz).symm, List.eq_nil_of_length_eq_zero hlen ▸ hb, fun x _ => rfl⟩
  · have hnew : (s.resealed d).dir.bytes = Function.update s.dir.bytes s.nextID (some []) := by
      show (Store.fresh {s with dir := d}).dir.bytes = _
      rw [bytes_fresh]
      exact congrArg (Function.update · _ _) hbytes
    have hapart {id : Nat} (hopen : id ∈ s.files) : id ≠ s.nextID := fun heq =>
      hid (Dir.mem_data.mpr ((Store.mem_files hs.files).mp (heq ▸ hopen)))
    have hactive : s.active.id ∈ s.files := Std.ExtTreeMap.mem_iff_isSome_getElem?.mpr (by rw [hs.active]; rfl)
    obtain ⟨shelves, hm⟩ := hmerged (List.ne_nil_of_mem
      (mem_mergeSet.mpr ⟨Std.ExtTreeMap.mem_insert.mpr (.inr hactive), hapart hactive⟩))
    refine ⟨_, shelves, hm, rfl, rfl, (if_neg hz).symm, ?_, fun x hx => readRecord_congr ?_⟩
    · rw [hnew]
      exact Function.update_self ..
    · rw [hnew]
      exact Function.update_of_ne (hapart (hs.opened _ _ (lookup_eq_some.mp (mem_liveEntries.mp hx)).1)) _ _

/-- What is shown of a key on both sides of a merge. -/
theorem Merged.get_eq (h : Merged s₀ s' shelves) (hkeys : s₀.keys = s.keys)
    (hfiles : ∀ id, s.files[id]? = (s.dir.bytes id).map List.length) (hsize : ∀ y ∈ s₀.liveEntries, y.2.size < 2 ^ 32)
    (hread : ∀ x ∈ s.liveEntries, Store.readRecord s₀.dir x.2 = Store.readRecord s.dir x.2)
    (hfinds : ∀ x ∈ s.liveEntries, s.Finds x) (k : Bytes) : s'.get k = s.get k := by
  cases hk : Store.validateKey k with
  | some e => rw [Store.get, Store.get, hk]
  | none =>
    have hlook : s₀.lookup k = s.lookup k := by rw [Store.lookup, Store.lookup, hkeys]
    have hleft : s.get k = answer (s.shown k) := get_eq_of_read hfiles hk fun e he => by
      obtain ⟨r, hr, -, hseq, hput⟩ := hfinds (k, e) (mem_liveEntries.mpr he)
      exact ⟨r, hr, hseq, hput⟩
    cases he : s.lookup k with
    | none =>
      have hnone : s'.lookup k = none := (h.lookup_none k).mpr (hlook.trans he)
      rw [hleft, get_eq_of_read h.files hk fun e' he' => by rw [hnone] at he'; cases he']
      rw [Store.shown, Store.shown, hnone, he]
      rfl
    | some e =>
      obtain ⟨e', r, he', hseq', hr, hr'⟩ := h.lookup_some hsize (hlook.trans he)
      have hx := mem_liveEntries (x := (k, e)).mpr he
      rw [hread (k, e) hx] at hr
      obtain ⟨r₁, hr₁, -, -, hput⟩ := hfinds (k, e) hx
      cases Except.ok.inj (hr.symm.trans hr₁)
      have hright : s'.get k = answer (s'.shown k) := get_eq_of_read h.files hk fun e₁ he₁ => by
        cases Option.some.inj (he'.symm.trans he₁)
        exact ⟨r.lifted, hr', hseq'.symm, r.lifted_tombstone.trans hput⟩
      rw [hleft, hright, Store.shown, Store.shown, he, he', Option.bind_some, Option.bind_some, hr, hr']
      simp [Except.toOption]

/-- **What `Compact` leaves** behind a successful call with something to merge, in any store whose
files are those of the directory and whose locators lead into them: the store compacted, exactly
if every locator of a live key finds a put of that key under its number. -/
theorem tidied_iff (hs : Placed s) (hsize : ∀ x ∈ s.liveEntries, x.2.size < 2 ^ 32) (hset : s.Mergeable)
    (hok : s.compact.2 = none) : Tidied s s.compact.1 ↔ ∀ x ∈ s.liveEntries, s.Finds x := by
  obtain ⟨s₀, shelves, hm, hkeys, hseq, hfirst, hactive, hread⟩ := compact_merged hs hset hok
  have hlive : s₀.liveEntries = s.liveEntries := by rw [Store.liveEntries, Store.liveEntries, hkeys]
  have hcarried : List.Forall₂ Carried s.liveEntries ((volumes shelves).flatMap Prod.snd) ↔
      ∀ x ∈ s.liveEntries, s.Finds x := by
    rw [← hlive, hm.carried_iff]
    refine forall₂_congr fun x hx => ?_
    rw [Store.Finds, Store.Finds, hread x (hlive ▸ hx)]
  rw [← hlive] at hsize
  constructor
  · intro ht
    obtain ⟨outs, hv⟩ := ht.disk
    rw [← hcarried, ← hm.volumes_unique hactive hfirst hv]
    exact hv.records
  · intro hfinds
    have hnumber : s.compact.1.seq = s.seq := by
      rw [hm.store]
      exact hseq
    have htotal := hm.total_eq hactive hsize
    refine ⟨hm.get_eq hkeys hs.files hsize hread hfinds, fun k => ?_, hm.noTombs, ⟨volumes shelves, ?_⟩, htotal,
      ?_, hnumber, ?_⟩
    · have hlook : s₀.lookup k = s.lookup k := by rw [Store.lookup, Store.lookup, hkeys]
      cases he : s.lookup k with
      | none => rw [(hm.lookup_none k).mpr (hlook.trans he)]
      | some e =>
        obtain ⟨e', r, he', hseq', hr, -⟩ := hm.lookup_some hsize (hlook.trans he)
        have hx := mem_liveEntries (x := (k, e)).mpr he
        obtain ⟨r₁, hr₁, -, hnum, -⟩ := hfinds (k, e) hx
        cases Except.ok.inj ((hread (k, e) hx ▸ hr).symm.trans hr₁)
        rw [he', Option.map_some, Option.map_some, hseq', hnum]
    · exact hm.made hactive hfirst (hcarried.mpr hfinds)
    · rw [Store.deadBytes, htotal, Int.sub_self]
      rfl
    · rw [hnumber, hm.store]
      exact hseq

/-! ### Past the width of the offsets -/

/-- The records of the wide batch. -/
def wideRecords (v : Bytes) : List Record := Store.assignSeqs 0 (Store.batchRecords 0 (wideKeys.map fun k => (k, v)))

omit [Checksum] in
theorem wideRecords_split (v : Bytes) : ∃ mid, mid.length = 15 ∧
    wideRecords v = ⟨0, 1, 2, [0], v⟩ :: mid ++ [⟨0, 17, 6, [16], v⟩] :=
  ⟨Store.assignSeqs 1 (((List.range 15).map fun i => ([UInt8.ofNat (i + 1)], v)).map (memberRecord 0)), rfl, rfl⟩

theorem wideRecords_length {v : Bytes} (hv : v.length = 2 ^ 28 - 30) {r : Record} (hr : r ∈ wideRecords v) :
    r.encode.length = 2 ^ 28 ∧ r.Sized := by
  obtain ⟨r₀, hr₀, heq⟩ := mem_assignSeqs hr
  obtain ⟨k, hk, hpair⟩ := List.mem_map.mp (mem_batchRecords hr₀)
  have hlen : ∀ k ∈ wideKeys, k.length = 1 := by decide
  rw [Prod.mk.injEq] at hpair
  rw [heq, Record.length_encode]
  show recordHeaderSize + r₀.key.length + r₀.value.length = _ ∧
    0 < r₀.key.length ∧ r₀.key.length ≤ maxKeySize ∧ r₀.value.length ≤ maxValueSize
  rw [← hpair.1, ← hpair.2, hlen k hk, hv]
  decide

/-- The first record of the wide batch stands at the front of the file, the last one 4 GiB behind it. -/
theorem First.wide_front {opts : Options} {v : Bytes} (h : First s opts (wideRecords v)) (hv : v.length = 2 ^ 28 - 30)
    {e : Entry} (hid : e.fileID = 0) (hpos : e.pos = 0) (hsize : e.size = 2 ^ 28) :
    Store.readRecord s.dir e = .ok ⟨0, 1, 2, [0], v⟩ := by
  obtain ⟨mid, -, hsplit⟩ := wideRecords_split v
  obtain ⟨hlen, hs⟩ := wideRecords_length hv (r := ⟨0, 1, 2, [0], v⟩) (by rw [hsplit]; simp)
  refine h.read (a := []) (c := encodeAll (mid ++ [⟨0, 17, 6, [16], v⟩])) hid ?_ hpos (hsize.trans hlen.symm)
    (decodeRecord_encode _ hs)
  rw [hsplit, List.nil_append, List.cons_append, encodeAll_cons]

/-- Behind the wide batch every locator reads a record. -/
theorem First.wide_reads {opts : Options} {v : Bytes} (h : First s opts (wideRecords v))
    (hv : v.length = 2 ^ 28 - 30) {k : Bytes}
    {e : Entry} (he : s.keys[k]? = some e) : e.size = 2 ^ 28 ∧ ∃ r, Store.readRecord s.dir e = .ok r := by
  obtain ⟨before, r, after, hsplit, rfl, rfl⟩ := h.entry he
  obtain ⟨hlen, hs⟩ := wideRecords_length hv (r := r) (by rw [hsplit]; simp)
  have hplace : (encodeAll before).length = before.length * 2 ^ 28 := length_encodeAll_of_forall fun r' hr' =>
    (wideRecords_length hv (by rw [hsplit]; exact List.mem_append_left _ hr')).1
  have hsize : (wrapped before r).size = 2 ^ 28 := by
    show (recordHeaderSize + r.key.length + r.value.length) % 2 ^ 32 = 2 ^ 28
    rw [← Record.length_encode, hlen]
    decide
  have hcount : before.length + (after.length + 1) = 17 := by
    obtain ⟨mid, hmid, heq⟩ := wideRecords_split v
    have := congrArg List.length (hsplit.symm.trans heq)
    simpa [hmid] using this
  refine ⟨hsize, ?_⟩
  by_cases hlast : before.length = 16
  · refine ⟨_, h.wide_front hv rfl ?_ hsize⟩
    show (encodeAll before).length % 2 ^ 32 = 0
    rw [hplace, hlast]
    decide
  · refine ⟨r, h.read (a := encodeAll before) (c := encodeAll after) rfl ?_ ?_ (hsize.trans hlen.symm)
      (decodeRecord_encode r hs)⟩
    · rw [hsplit, encodeAll_append, encodeAll_cons]
    · refine Nat.mod_eq_of_lt ?_
      rw [hplace]
      omega

/-- The last key of the wide batch, under the number of its record. -/
theorem First.wide_last {opts : Options} {v : Bytes} (h : First s opts (wideRecords v)) (hv : v.length = 2 ^ 28 - 30) :
    ∃ e, s.lookup [16] = some e ∧ e.seq = 17 ∧ Store.readRecord s.dir e = .ok ⟨0, 1, 2, [0], v⟩ := by
  obtain ⟨mid, hmid, hsplit⟩ := wideRecords_split v
  have hkeys : (wideRecords v).map Record.key = wideKeys := rfl
  have hindexed := h.indexed (hkeys ▸ (by decide : wideKeys.Nodup)) hsplit
  have hplace : (encodeAll (⟨0, 1, 2, [0], v⟩ :: mid)).length = 16 * 2 ^ 28 := by
    rw [length_encodeAll_of_forall fun r' hr' =>
      (wideRecords_length hv (by rw [hsplit]; exact List.mem_append_left _ hr')).1,
      List.length_cons, hmid]
  have hput : (wrapped (⟨0, 1, 2, [0], v⟩ :: mid) ⟨0, 17, 6, [16], v⟩).tomb = false := by
    show (⟨0, 17, 6, [16], v⟩ : Record).tombstone = false
    show ((6 : UInt8) &&& flagTombstone != 0) = false
    decide
  refine ⟨_, lookup_eq_some.mpr ⟨hindexed, hput⟩, rfl, h.wide_front hv rfl ?_ (h.wide_reads hv hindexed).1⟩
  show (encodeAll _).length % 2 ^ 32 = 0
  rw [hplace]
  decide

theorem wide_compact (v : Bytes) (hv : v.length = 2 ^ 28 - 30) :
    ∃ s s', (Store.init ⟨0, .never⟩).batchPut 0 wideKeys (wideKeys.map fun _ => v) = (s, none) ∧ Placed s ∧
      s.Mergeable ∧
      s.compact = (s', none) ∧ s.get [16] = .error (.seqMismatch 17 1) ∧ s'.get [16] = .ok v ∧
      (s.lookup [16]).map Entry.seq = some 17 ∧ (s'.lookup [16]).map Entry.seq = some 1 := by
  have hop : (Op.batchPut 0 wideKeys (wideKeys.map fun _ => v)).Valid := by
    refine ⟨by rw [List.length_map], by decide, ?_⟩
    refine validateBatch_map (show ∀ k ∈ wideKeys, Store.validateKey k = none by decide) ?_
    rw [hv, maxValueSize]
    omega
  obtain ⟨s, hput, hfirst⟩ := first_batchPut ⟨0, .never⟩ rfl 0 hop
  have h : First s ⟨0, .never⟩ (wideRecords v) := hfirst
  obtain ⟨s₁, hput', hget⟩ := wide_batchPut v hv
  cases (Prod.mk.inj (hput.symm.trans hput')).1
  have hkey {x : Bytes × Entry} (hx : x ∈ s.liveEntries) : s.keys[x.1]? = some x.2 :=
    (lookup_eq_some.mp (mem_liveEntries.mp hx)).1
  have hfew : s.liveEntries.length < 2 ^ 31 := by
    have hsub : s.liveEntries.map Prod.fst ⊆ wideKeys := fun k hk => by
      obtain ⟨x, hx, rfl⟩ := List.mem_map.mp hk
      obtain ⟨before, r, after, hsplit, hr, -⟩ := h.entry (hkey hx)
      have hkeys : (wideRecords v).map Record.key = wideKeys := rfl
      rw [hr, ← hkeys, hsplit]
      exact List.mem_map_of_mem (by simp)
    have := (List.subperm_of_subset (liveEntries_distinct s) hsub).length_le
    rw [List.length_map, show wideKeys.length = 17 from rfl] at this
    omega
  have hne : encodeAll (wideRecords v) ≠ [] := fun hnil => by
    obtain ⟨mid, -, hsplit⟩ := wideRecords_split v
    rw [hsplit, List.cons_append, encodeAll_cons, List.append_eq_nil_iff] at hnil
    have := Record.encode_pos ⟨0, 1, 2, [0], v⟩
    rw [hnil.1] at this
    exact Nat.lt_irrefl _ this
  obtain ⟨s', s₀, shelves, hcompact, hm, hlive, -, -, -, -, -, hsame⟩ :=
    h.compact hne hfew fun x hx => (h.wide_reads hv (hkey hx)).2
  have hsize : ∀ y ∈ s₀.liveEntries, y.2.size < 2 ^ 32 := fun y hy => by
    rw [hlive] at hy
    rw [(h.wide_reads hv (hkey hy)).1]
    decide
  obtain ⟨e, he, hseq, hread⟩ := h.wide_last hv
  have hx := mem_liveEntries (x := ([16], e)).mpr he
  have he₀ : s₀.lookup [16] = some e := mem_liveEntries.mp (hlive ▸ hx)
  obtain ⟨e', r, he', hseq', hr, hr'⟩ := hm.lookup_some hsize he₀
  cases Except.ok.inj (hr.symm.trans ((hsame _ hx).trans hread))
  have hactive : s.active.size ≠ 0 := by
    rw [h.active]
    exact fun hz => hne (List.eq_nil_of_length_eq_zero hz)
  have htomb : (⟨0, 1, 2, [0], v⟩ : Record).tombstone = false :=
    show ((2 : UInt8) &&& flagTombstone != 0) = false by decide
  refine ⟨s, s', hput, h.ledger.placed, .inl hactive, hcompact, hget, ?_, ?_, ?_⟩
  · rw [get_eq_of_read hm.files (by decide), Store.shown, he', Option.bind_some, hr', Except.toOption, Option.bind_some,
      Record.lifted_payload, Record.payload, htomb]
    · rfl
    · intro e₁ he₁
      cases Option.some.inj (he'.symm.trans he₁)
      exact ⟨_, hr', hseq'.symm, (Record.lifted_tombstone _).trans htomb⟩
  · rw [he, Option.map_some, hseq]
  · rw [he', Option.map_some, hseq']

end Tidied

/-- A store with a batch, a deletion and an update in its first file. -/
def revised : Store :=
  ([.batchPut 0 [[1], [2], [3]] [[7], [8], [9]], .delete 0 [2], .put 0 [1] [5]] : List Append).foldl
    (fun s a => (s.append a).1)
    (Store.init ⟨0, .never⟩)

theorem tidied_iff_revised : Tidied revised revised.compact.1 := by
  have hledger : Ledger revised := (((ledger_init ⟨0, .never⟩).append _).append _).append _
  exact (tidied_iff hledger.placed (by decide +kernel) (.inl (by decide +kernel)) (by decide +kernel)).mpr
    (by decide +kernel)

/-- A batch of which `Compact` keeps the first record under the last key too. -/
theorem wideBatch_compact :
    ∃ s s', (Store.init ⟨0, .never⟩).batchPut 0 wideKeys (wideKeys.map fun _ => wideValue) = (s, none) ∧
      Placed s ∧ s.Mergeable ∧
      s.compact = (s', none) ∧ s.get [16] = .error (.seqMismatch 17 1) ∧ s'.get [16] = .ok wideValue ∧
      (s.lookup [16]).map Entry.seq = some 17 ∧ (s'.lookup [16]).map Entry.seq = some 1 :=
  wide_compact wideValue (by rw [wideValue, List.length_replicate])

end Gokv.Engine
