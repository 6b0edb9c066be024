import Gokv.Base.Weight
import Gokv.Engine.Alone
import Gokv.Engine.Appending

/-! What a merge with nothing in between leaves.

`Merged` reads the store behind a successful `Compact` off the shelves: the index lists the
copies, the directory holds the outputs and the active file, the outputs have their hints, and
the counters are recounted. `compact_cases` says how a call can end on any store whose locators
lead into open files (`Placed`). -/
namespace Gokv.Engine
open Base

section Shelf
variable [Checksum] {s₀ s : Store} {m : Merge} {shelves : List Shelf} {todo : List (Bytes × Entry)}

/-! ### The index -/

omit [Checksum] in
theorem getElem?_repointAll {keys : Index} {xs : List (Item × Entry)} (hd : (xs.map (·.1.key)).Nodup)
    (hx : ∀ x ∈ xs, keys[x.1.key]? = some x.1.entry) (k : Bytes) (e : Entry) :
    (xs.foldl Merge.repointOne keys)[k]? = some e ↔
      (k, e) ∈ xs.map (fun x => (x.1.key, x.2)) ∨ k ∉ xs.map (·.1.key) ∧ keys[k]? = some e := by
  induction xs generalizing keys with
  | nil => simp
  | cons x rest ih =>
    rw [List.map_cons, List.nodup_cons] at hd
    have hhead : Merge.repointOne keys x = keys.insert x.1.key x.2 := by
      simp only [Merge.repointOne, hx x (List.mem_cons_self ..), and_self, if_true]
    have hrest : ∀ y ∈ rest, (keys.insert x.1.key x.2)[y.1.key]? = some y.1.entry := fun y hy => by
      rw [Std.ExtTreeMap.getElem?_insert, if_neg, hx y (List.mem_cons_of_mem _ hy)]
      simpa using fun heq : x.1.key = y.1.key => hd.1 (heq ▸ List.mem_map_of_mem hy)
    rw [List.foldl_cons, hhead, ih hd.2 hrest, Std.ExtTreeMap.getElem?_insert]
    by_cases hk : k = x.1.key
    · subst hk
      have hout : (x.1.key, e) ∉ rest.map (fun x => (x.1.key, x.2)) := fun hm => by
        obtain ⟨y, hy, heq⟩ := List.mem_map.mp hm
        exact hd.1 (List.mem_map.mpr ⟨y, hy, congrArg Prod.fst heq⟩)
      simp [hd.1, hout, eq_comm]
    · simp [hk, Ne.symm hk]

omit [Checksum] in
theorem getElem?_retireAll {keys : Index} {xs : List Item} (hd : (xs.map Item.key).Nodup)
    (hx : ∀ x ∈ xs, keys[x.key]? = some x.entry) (k : Bytes) :
    (xs.foldl Merge.retireOne keys)[k]? = if k ∈ xs.map Item.key then none else keys[k]? := by
  induction xs generalizing keys with
  | nil => simp
  | cons x rest ih =>
    rw [List.map_cons, List.nodup_cons] at hd
    have hhead : Merge.retireOne keys x = keys.erase x.key := by
      simp only [Merge.retireOne, hx x (List.mem_cons_self ..), and_self, if_true]
    have hrest : ∀ y ∈ rest, (keys.erase x.key)[y.key]? = some y.entry := fun y hy => by
      rw [Std.ExtTreeMap.getElem?_erase, if_neg, hx y (List.mem_cons_of_mem _ hy)]
      simpa using fun heq : x.key = y.key => hd.1 (heq ▸ List.mem_map_of_mem hy)
    rw [List.foldl_cons, hhead, ih hd.2 hrest, Std.ExtTreeMap.getElem?_erase]
    by_cases hk : k = x.key
    · simp [hk]
    · simp [hk, Ne.symm hk]

/-- The rows of a finished merge are the live entries. -/
theorem Copying.rows_eq (h : Copying s₀ s m shelves []) :
    (shelved shelves).map (fun r => (r.key, r.entry)) = s₀.liveEntries := by
  rw [← h.rows, List.append_nil]
  rfl

theorem moves_items (shelves : List Shelf) :
    (shelves.flatMap Shelf.moves).map Prod.fst = (shelved shelves).map Row.item := by
  induction shelves with
  | nil => rfl
  | cons sh rest ih =>
    have hhead : sh.moves.map Prod.fst = sh.rows.map Row.item :=
      List.map_fst_zip (by rw [List.length_map, Shelf.length_entries])
    rw [List.flatMap_cons, List.map_append, ih, hhead, ← List.map_append]
    rfl

omit [Checksum] in
theorem liveEntries_distinct (s : Store) : (s.liveEntries.map Prod.fst).Nodup :=
  (nodup_fst_toList s.keys).sublist (List.filter_sublist.map _)

/-- The index of a finished merge, as a list. -/
def shelfIndex (shelves : List Shelf) : List (Bytes × Entry) :=
  (shelves.flatMap Shelf.moves).map fun x => (x.1.key, x.2)

theorem Copying.shelfIndex_keys (h : Copying s₀ s m shelves []) :
    (shelfIndex shelves).map Prod.fst = s₀.liveEntries.map Prod.fst := by
  have := congrArg (List.map Item.key) (moves_items shelves)
  rw [← h.rows_eq, List.map_map, shelfIndex, List.map_map]
  rw [List.map_map, List.map_map] at this
  exact this

/-- `ids` go, with their hints. -/
def Store.without (s : Store) (ids : List Nat) : Store :=
  {s with files := ids.foldl (fun t id => t.erase id) s.files
          dir := {s.dir with data := ids.foldl (fun t id => t.erase id) s.dir.data
                             hints := ids.foldl (fun t id => t.erase id) s.dir.hints} }

omit [Checksum] in
theorem removeAll_eq (s : Store) (ids : List Nat) (hs : ∀ id, id ∈ s.dir.data → id ∈ s.files) :
    (Merge.removals ids).foldl Merge.removeStep s = s.without ids := by
  induction ids generalizing s with
  | nil => rfl
  | cons id rest ih =>
    have hdata : Merge.removeStep s (.data id) = {s with dir := s.dir.removeData id, files := s.files.erase id} := by
      show (if id ∈ s.files then _ else s) = _
      by_cases hid : id ∈ s.files
      · exact if_pos hid
      · have hfiles : s.files.erase id = s.files := erase_eq_self (Std.ExtTreeMap.getElem?_eq_none hid)
        have hgone : s.dir.removeData id = s.dir := by
          rw [Dir.removeData, erase_eq_self (Std.ExtTreeMap.getElem?_eq_none fun hm => hid (hs id hm))]
        rw [if_neg hid, hfiles, hgone]
    show (Merge.removals rest).foldl Merge.removeStep (Merge.removeStep (Merge.removeStep s (.data id)) (.hint id)) = _
    rw [hdata]
    refine (ih _ fun i hi => ?_).trans rfl
    obtain ⟨hne, hi⟩ := Std.ExtTreeMap.mem_erase.mp hi
    exact Std.ExtTreeMap.mem_erase.mpr ⟨hne, hs i hi⟩

omit [Checksum] in
/-- The store a merge leaves, as one record. -/
theorem Merge.hinted_eq (s : Store) (m : Merge) (hs : ∀ id, id ∈ s.dir.data → id ∈ s.files) :
    hinted s m m.outs =
      recounted (Store.without
        {s with keys := m.retired.foldl retireOne (m.moved.foldl repointOne s.keys)
                mergeSeq := m.barrier
                dir := {s.dir with hints := m.outs.foldl (fun t o => t.insert o.id o.hint) s.dir.hints
                                   manifest := some (manifestText m.barrier)} } m.mergeIDs) := by
  have hhints (d : Dir) (outs : List Out) : outs.foldl (fun d o => d.renameHint o.id o.hint) d =
      {d with hints := outs.foldl (fun t o => t.insert o.id o.hint) d.hints} := by
    induction outs generalizing d with
    | nil => rfl
    | cons o rest ih =>
      rw [List.foldl_cons, ih]
      rfl
  unfold hinted repointed forgotten stamped cleared
  rw [hhints]
  exact congrArg recounted (removeAll_eq _ _ hs)

/-- Every file of the directory is open. -/
theorem Copying.listed (h : Copying s₀ s m shelves todo) (hs : Spread s₀) (id : Nat) (hid : id ∈ s.dir.data) :
    id ∈ s.files := by
  rw [Std.ExtTreeMap.mem_iff_isSome_getElem?] at hid ⊢
  by_cases hm : id ∈ shelves.map Shelf.id
  · obtain ⟨sh, hsh, rfl⟩ := List.mem_map.mp hm
    rw [h.sizes sh hsh]
    rfl
  · rw [h.data id hm, ← Std.ExtTreeMap.mem_iff_isSome_getElem?] at hid
    rw [h.files id hm, ← Std.ExtTreeMap.mem_iff_isSome_getElem?]
    exact hs.mem_data.mpr hid

omit [Checksum] in
theorem mem_graves {x : Bytes × Entry} : x ∈ s.graves ↔ s.keys[x.1]? = some x.2 ∧ x.2.tomb = true := by
  rw [Store.graves, List.mem_filter, ← Std.ExtTreeMap.mem_toList_iff_getElem?_eq_some]

/-- What has been copied was live. -/
theorem Copying.moved_live (h : Copying s₀ s m shelves []) {y : Item × Entry} (hy : y ∈ shelves.flatMap Shelf.moves) :
    (y.1.key, y.1.entry) ∈ s₀.liveEntries := by
  have hm := List.mem_map_of_mem (f := Prod.fst) hy
  rw [moves_items] at hm
  obtain ⟨r, hr, heq⟩ := List.mem_map.mp hm
  rw [← h.rows_eq, ← heq]
  exact List.mem_map_of_mem (f := fun r : Row => (r.key, r.entry)) hr

theorem Copying.moved_keys (h : Copying s₀ s m shelves []) :
    (shelves.flatMap Shelf.moves).map (·.1.key) = s₀.liveEntries.map Prod.fst := by
  rw [← h.shelfIndex_keys, shelfIndex, List.map_map]
  rfl

/-- The index when some of the copies have been entered. -/
theorem Copying.getElem?_moved (h : Copying s₀ s m shelves []) {done todo : List (Item × Entry)}
    (hsplit : shelves.flatMap Shelf.moves = done ++ todo) (k : Bytes) (e : Entry) :
    (done.foldl Merge.repointOne s₀.keys)[k]? = some e ↔
      (k, e) ∈ done.map (fun x => (x.1.key, x.2)) ∨ k ∉ done.map (·.1.key) ∧ s₀.keys[k]? = some e := by
  have hdistinct : ((done ++ todo).map (·.1.key)).Nodup := by
    rw [← hsplit, h.moved_keys]
    exact liveEntries_distinct s₀
  rw [List.map_append] at hdistinct
  refine getElem?_repointAll hdistinct.of_append_left (fun x hx => ?_) k e
  have hlive := h.moved_live (hsplit ▸ List.mem_append_left todo hx)
  exact (lookup_eq_some.mp (mem_liveEntries.mp hlive)).1

omit [Checksum] in
/-- No key is both dead and live. -/
theorem graves_apart {k : Bytes} (hk : k ∈ s.graves.map Prod.fst) : k ∉ s.liveEntries.map Prod.fst := fun hl => by
  obtain ⟨x, hx, rfl⟩ := List.mem_map.mp hk
  obtain ⟨y, hy, heq⟩ := List.mem_map.mp hl
  obtain ⟨hyk, hyt⟩ := lookup_eq_some.mp (mem_liveEntries.mp hy)
  obtain ⟨hxk, hxt⟩ := mem_graves.mp hx
  rw [heq, hxk] at hyk
  rw [← Option.some.inj hyk, hxt] at hyt
  cases hyt

/-- The index when all copies have been entered and some of the tombstones forgotten. -/
theorem Copying.getElem?_retired (h : Copying s₀ s m shelves []) {done todo : List Item}
    (hsplit : s₀.graves.map itemOf = done ++ todo) (k : Bytes) :
    (done.foldl Merge.retireOne ((shelves.flatMap Shelf.moves).foldl Merge.repointOne s₀.keys))[k]? =
      if k ∈ done.map Item.key then none else ((shelves.flatMap Shelf.moves).foldl Merge.repointOne s₀.keys)[k]? := by
  have hgraves : (s₀.graves.map itemOf).map Item.key = s₀.graves.map Prod.fst := List.map_map
  have hdistinct : ((done ++ todo).map Item.key).Nodup := by
    rw [← hsplit, hgraves]
    exact (nodup_fst_toList s₀.keys).sublist (List.filter_sublist.map _)
  rw [List.map_append] at hdistinct
  refine getElem?_retireAll hdistinct.of_append_left (fun x hx => ?_) k
  obtain ⟨y, hy, rfl⟩ := List.mem_map.mp (hsplit ▸ List.mem_append_left todo hx)
  refine (h.getElem?_moved (List.append_nil _).symm _ _).mpr (.inr ⟨?_, (mem_graves.mp hy).1⟩)
  rw [h.moved_keys]
  exact graves_apart (List.mem_map_of_mem (f := Prod.fst) hy)

/-- **The index in the end**: the live keys, each with the locator of its copy. -/
theorem Copying.getElem?_keys (h : Copying s₀ s m shelves []) (k : Bytes) (e : Entry) :
    (m.retired.foldl Merge.retireOne (m.moved.foldl Merge.repointOne s₀.keys))[k]? = some e ↔
      (k, e) ∈ shelfIndex shelves := by
  have hgraves : (s₀.graves.map itemOf).map Item.key = s₀.graves.map Prod.fst := List.map_map
  rw [h.merge]
  show ((s₀.graves.map itemOf).foldl Merge.retireOne
    ((shelves.flatMap Shelf.moves).foldl Merge.repointOne s₀.keys))[k]? = _ ↔ _
  rw [h.getElem?_retired (List.append_nil _).symm, hgraves]
  by_cases hk : k ∈ s₀.graves.map Prod.fst
  · rw [if_pos hk]
    refine iff_of_false (by simp) fun hm => absurd ?_ (graves_apart hk)
    rw [← h.shelfIndex_keys]
    exact List.mem_map_of_mem (f := Prod.fst) hm
  · rw [if_neg hk, h.getElem?_moved (List.append_nil _).symm, h.moved_keys]
    refine or_iff_left ?_
    rintro ⟨hout, hkey⟩
    cases ht : e.tomb with
    | false => exact hout (List.mem_map.mpr ⟨(k, e), mem_liveEntries.mpr (lookup_eq_some.mpr ⟨hkey, ht⟩), rfl⟩)
    | true => exact hk (List.mem_map.mpr ⟨(k, e), mem_graves.mpr ⟨hkey, ht⟩, rfl⟩)

/-- What a merge of `s₀` leaves. -/
structure Merged (s₀ s : Store) (shelves : List Shelf) : Prop where
  store : s = {s₀ with dir := s.dir, files := s.files, keys := s.keys, nextID := s.nextID, mergeSeq := s₀.seq,
                       live := s.live, nLive := s.nLive, total := s.total}
  keys : s.keys.toList = shelfIndex shelves
  files : ∀ id, s.files[id]? = (s.dir.bytes id).map List.length
  bytes : ∀ sh ∈ shelves, s.dir.bytes sh.id = some sh.bytes
  /-- Of the files of the store only the active one is left. -/
  others : ∀ id : Nat, id ∉ shelves.map Shelf.id → s.dir.bytes id = if id = s₀.active.id then s₀.dir.bytes id else none
  hints : ∀ sh ∈ shelves, s.dir.hints[sh.id]? = some sh.out.hint
  otherHints : ∀ id : Nat, id ∉ shelves.map Shelf.id →
    s.dir.hints[id]? = if id ∈ s₀.mergeSet then none else s₀.dir.hints[id]?
  manifest : s.dir.manifest = some (manifestText s₀.seq)
  live : s.live = ((shelfIndex shelves).map fun x => (x.2.size : Int)).sum
  nLive : s.nLive = (shelfIndex shelves).length
  total : s.total = Merge.usage s
  distinct : (shelves.map Shelf.id).Nodup
  fresh : ∀ sh ∈ shelves, sh.id ∉ s₀.dir.data
  rows : (shelved shelves).map (fun r => (r.key, r.entry)) = s₀.liveEntries
  reads : ∀ r ∈ shelved shelves, Store.readRecord s₀.dir r.entry = .ok r.record
  ids : shelves.map Shelf.id = (List.range shelves.length).map fun i => Store.succID^[i] s₀.nextID
  count : shelves.length = s₀.outputs

omit [Checksum] in
theorem getElem?_hintAll {outs : List Out} (hd : (outs.map Out.id).Nodup) (t : Std.ExtTreeMap Nat Bytes compare) :
    (∀ o ∈ outs, (outs.foldl (fun t o => t.insert o.id o.hint) t)[o.id]? = some o.hint) ∧
      ∀ i : Nat, i ∉ outs.map Out.id → (outs.foldl (fun t o => t.insert o.id o.hint) t)[i]? = t[i]? := by
  induction outs generalizing t with
  | nil => exact ⟨fun o ho => (nomatch ho), fun i _ => rfl⟩
  | cons o rest ih =>
    rw [List.map_cons, List.nodup_cons] at hd
    obtain ⟨hin, hout⟩ := ih hd.2 (t.insert o.id o.hint)
    refine ⟨fun p hp => ?_, fun i hi => ?_⟩
    · rcases List.mem_cons.mp hp with rfl | hp
      · rw [List.foldl_cons, hout p.id hd.1, Std.ExtTreeMap.getElem?_insert_self]
      · exact hin p hp
    · rw [List.map_cons, List.mem_cons, not_or] at hi
      rw [List.foldl_cons, hout i hi.2, Std.ExtTreeMap.getElem?_insert, if_neg (by simpa using Ne.symm hi.1)]

theorem mem_shelfIndex {x : Bytes × Entry} (hx : x ∈ shelfIndex shelves) :
    ∃ sh ∈ shelves, ∃ r ∈ sh.rows, x.1 = r.key ∧ x.2.fileID = sh.id ∧ x.2.tomb = false ∧
      x.2.size = r.record.lifted.encode.length % 2 ^ 32 ∧
      (x.1, x.2.size) ∈ sh.moves.map fun y => (y.1.key, y.2.size) := by
  obtain ⟨y, hy, rfl⟩ := List.mem_map.mp hx
  obtain ⟨sh, hsh, hy⟩ := List.mem_flatMap.mp hy
  have hcharged := List.mem_map_of_mem (f := fun y => (y.1.key, y.2.size)) hy
  obtain ⟨before, r, after, hrows, rfl⟩ := Shelf.mem_moves hy
  exact ⟨sh, hsh, r, by rw [hrows]; simp, rfl, rfl, rfl, rfl, hcharged⟩

theorem shelfIndex_live {x : Bytes × Entry} (hx : x ∈ shelfIndex shelves) : x.2.tomb = false := by
  obtain ⟨_, _, _, _, _, _, hlive, _⟩ := mem_shelfIndex hx
  exact hlive

omit [Checksum] in
theorem mem_mergeSet {id : Nat} : id ∈ s.mergeSet ↔ id ∈ s.files ∧ id ≠ s.active.id := by
  rw [Store.mergeSet, List.mem_filter, Std.ExtTreeMap.mem_keys, decide_eq_true_iff]

theorem Copying.ascending (h : Copying s₀ s m shelves []) :
    (shelfIndex shelves).Pairwise fun x y => compare x.1 y.1 = .lt := by
  have hlive : (s₀.liveEntries.map Prod.fst).Pairwise fun j k => compare j k = .lt :=
    List.pairwise_map.mpr (s₀.keys.ordered_keys_toList.sublist List.filter_sublist)
  rw [← h.shelfIndex_keys] at hlive
  exact List.pairwise_map.mp hlive

/-- **The end of a merge.** -/
theorem Copying.merged (h : Copying s₀ s m shelves []) (hs : Spread s₀) (hcount : shelves.length = s₀.outputs) :
    Merged s₀ (Merge.hinted s m m.outs) shelves := by
  have hset : m.mergeIDs = s₀.mergeSet := by rw [h.merge]
  have hseq : m.barrier = s₀.seq := by rw [h.merge]
  have hkeys : s.keys = s₀.keys := by rw [h.store]
  rw [Merge.hinted_eq s m (h.listed hs), hset, hseq, hkeys]
  have hindex := toList_eq_of_mem h.ascending h.getElem?_keys
  have hshelf {sh : Shelf} (hsh : sh ∈ shelves) : sh.id ∉ s₀.mergeSet := fun hm =>
    h.fresh sh hsh (hs.mem_data.mp (mem_mergeSet.mp hm).1)
  have houts := getElem?_hintAll (h.outIDs ▸ h.distinct) s.dir.hints
  have hfiltered : (shelfIndex shelves).filter (fun x => !x.2.tomb) = shelfIndex shelves :=
    List.filter_eq_self.mpr fun x hx => by rw [shelfIndex_live hx]; rfl
  have hdata (id : Nat) : (s₀.mergeSet.foldl (fun t id => t.erase id) s.dir.data)[id]? =
      if id ∈ s₀.mergeSet then none else s.dir.data[id]? := getElem?_eraseAll ..
  have hfiles (id : Nat) : (s₀.mergeSet.foldl (fun t id => t.erase id) s.files)[id]? =
      if id ∈ s₀.mergeSet then none else s.files[id]? := getElem?_eraseAll ..
  have hhints (id : Nat) (t : Std.ExtTreeMap Nat Bytes compare) :
      (s₀.mergeSet.foldl (fun t id => t.erase id) t)[id]? = if id ∈ s₀.mergeSet then none else t[id]? :=
        getElem?_eraseAll ..
  constructor
  case store =>
    conv_lhs => rw [h.store]
    rfl
  case keys => exact hindex
  case files =>
    intro id
    show (s₀.mergeSet.foldl (fun t id => t.erase id) s.files)[id]? =
      (((s₀.mergeSet.foldl (fun t id => t.erase id) s.dir.data)[id]?).map DiskFile.bytes).map List.length
    rw [hfiles, hdata]
    by_cases hm : id ∈ s₀.mergeSet
    · rw [if_pos hm, if_pos hm]
      rfl
    rw [if_neg hm, if_neg hm]
    by_cases hi : id ∈ shelves.map Shelf.id
    · obtain ⟨sh, hsh, rfl⟩ := List.mem_map.mp hi
      have := h.bytes sh hsh
      rw [Dir.bytes] at this
      rw [this, h.sizes sh hsh]
      rfl
    · rw [h.files id hi, h.data id hi, hs.files]
      rfl
  case bytes =>
    intro sh hsh
    show ((s₀.mergeSet.foldl (fun t id => t.erase id) s.dir.data)[sh.id]?).map DiskFile.bytes = _
    rw [hdata, if_neg (hshelf hsh)]
    exact h.bytes sh hsh
  case others =>
    intro id hi
    show ((s₀.mergeSet.foldl (fun t id => t.erase id) s.dir.data)[id]?).map DiskFile.bytes = _
    rw [hdata, h.data id hi]
    by_cases ha : id = s₀.active.id
    · rw [if_neg fun hm => (mem_mergeSet.mp hm).2 ha, if_pos ha]
      rfl
    · rw [if_neg ha]
      by_cases hm : id ∈ s₀.mergeSet
      · rw [if_pos hm]
        rfl
      · have hgone : id ∉ s₀.dir.data := fun hd => hm (mem_mergeSet.mpr ⟨hs.mem_data.mpr hd, ha⟩)
        rw [if_neg hm, Std.ExtTreeMap.getElem?_eq_none hgone]
        rfl
  case hints =>
    intro sh hsh
    refine (hhints sh.id _).trans ?_
    rw [if_neg (hshelf hsh)]
    refine houts.1 sh.out ?_
    rw [h.merge]
    exact List.mem_map_of_mem hsh
  case otherHints =>
    intro id hi
    refine (hhints id _).trans ?_
    rw [← h.hints]
    exact congrArg (ite _ none) (houts.2 id (h.outIDs ▸ hi))
  case manifest => rfl
  case live =>
    refine (congrArg (fun l : List (Bytes × Entry) =>
      ((l.filter fun x => !x.2.tomb).map fun x => (x.2.size : Int)).sum) hindex).trans ?_
    rw [hfiltered]
  case nLive =>
    refine (congrArg (fun l : List (Bytes × Entry) => ((l.filter fun x => !x.2.tomb).length : Int)) hindex).trans ?_
    rw [hfiltered]
  case total => rfl
  case distinct => exact h.distinct
  case fresh => exact h.fresh
  case rows => exact h.rows_eq
  case reads => exact h.reads
  case ids => exact h.ids
  case count => exact hcount

/-! ### From the call to the return -/

/-- How a merge of `s₀` can end. -/
inductive Ends (s₀ : Store) : Store → Option Error → Prop
  | idle (hset : s₀.mergeSet = []) : Ends s₀ s₀ none
  | merged {s : Store} {shelves : List Shelf} (hset : s₀.mergeSet ≠ []) (h : Merged s₀ s shelves) : Ends s₀ s none
  | blocked (n : Nat) (e : Error) (h : Blocked s₀) : Ends s₀ {s₀ with nextID := n} (some e)

/-- What `Compact` finds in a store: every locator leads into an open file, and an active file
without bytes has none. -/
structure Placed (s : Store) : Prop where
  files : ∀ id, s.files[id]? = (s.dir.bytes id).map List.length
  active : s.files[s.active.id]? = some s.active.size
  opened : ∀ (k : Bytes) (e : Entry), s.keys[k]? = some e → e.fileID ∈ s.files
  filled : s.active.size = 0 → ∀ (k : Bytes) (e : Entry), s.keys[k]? = some e → e.fileID ≠ s.active.id

/-- The store behind a seal that had something to seal. -/
def Store.resealed (s : Store) (d : Dir) : Store := {(Store.fresh {s with dir := d}) with dirty := false}

omit [Checksum] in
/-- **The seal** fails, has nothing to do, or opens a fresh file. -/
theorem sealActive_cases (hs : Placed s) :
    ((s.closed = true ∨ s.active.size ≠ 0 ∧ s.nextID ∈ s.dir.data) ∧ ∃ d e, d.bytes = s.dir.bytes ∧
      d.hints = s.dir.hints ∧
        s.sealActive = ({s with dir := d}, .start (.failed e) 0)) ∨
      s.active.size = 0 ∧ s.sealActive = (s, .start (.list s.active.id) s.seq) ∨
      ∃ d, d.bytes = s.dir.bytes ∧ d.hints = s.dir.hints ∧ s.active.size ≠ 0 ∧ s.nextID ∉ s.dir.data ∧
        s.sealActive = (s.resealed d, .start (.list s.nextID) s.seq) := by
  unfold Store.sealActive
  by_cases hc : s.closed = true
  · exact .inl ⟨.inl hc, s.dir, .closed, rfl, rfl, if_pos hc⟩
  rw [if_neg hc]
  by_cases hz : s.active.size = 0
  · exact .inr (.inl ⟨hz, if_pos hz⟩)
  rw [if_neg hz]
  obtain ⟨b, hb⟩ : ∃ b, s.dir.bytes s.active.id = some b := by
    have := hs.active
    rw [hs.files] at this
    obtain ⟨b, hb, _⟩ := Option.map_eq_some_iff.mp this
    exact ⟨b, hb⟩
  obtain ⟨d, hd, hbytes, hhints, -⟩ := Dir.sync_ok hb
  have hmem : s.nextID ∈ d.data ↔ s.nextID ∈ s.dir.data := by rw [Dir.mem_data, Dir.mem_data, hbytes]
  rw [hd]
  dsimp only
  by_cases hm : s.nextID ∈ d.data
  · rw [openNewActive_exists (s := {s with dir := d}) hm]
    exact .inl ⟨.inr ⟨hz, hmem.mp hm⟩, d, .fileExists, hbytes, hhints, rfl⟩
  · rw [openNewActive_fresh (s := {s with dir := d}) hm]
    exact .inr (.inr ⟨d, hbytes, hhints, hz, fun h => hm (hmem.mpr h), rfl⟩)

omit [Checksum] in
theorem Placed.spread (hs : Placed s) (hz : s.active.size = 0) : Spread s where
  files := hs.files
  inSet k e he := mem_mergeSet.mpr ⟨hs.opened k e he, hs.filled hz k e he⟩

omit [Checksum] in
theorem Placed.resealed {d : Dir} (hs : Placed s) (hbytes : d.bytes = s.dir.bytes) (hid : s.nextID ∉ s.dir.data) :
    Spread (s.resealed d) := by
  have hfiles (id : Nat) : ({s with dir := d} : Store).files[id]? = (d.bytes id).map List.length := by
    rw [hbytes]
    exact hs.files id
  have hout : s.nextID ∉ s.files := by
    rw [Store.mem_files hs.files]
    exact fun h => hid (Dir.mem_data.mpr h)
  refine ⟨(poised_fresh hfiles).files, fun k e he => mem_mergeSet.mpr ⟨?_, fun heq => ?_⟩⟩
  · exact Std.ExtTreeMap.mem_insert.mpr (.inr (hs.opened k e he))
  · have heq : e.fileID = s.nextID := heq
    exact hout (heq ▸ hs.opened k e he)

/-- **A call of `Compact`** fails at the seal, or ends as a merge of the sealed store can. -/
theorem compact_cases (hs : Placed s) :
    ((s.closed = true ∨ s.active.size ≠ 0 ∧ s.nextID ∈ s.dir.data) ∧ ∃ d e, d.bytes = s.dir.bytes ∧
      d.hints = s.dir.hints ∧
        s.compact = ({s with dir := d}, some e)) ∨
      ∃ s₀, Spread s₀ ∧ Ends s₀ s.compact.1 s.compact.2 ∧ (s.active.size = 0 ∧ s₀ = s ∨
        ∃ d, d.bytes = s.dir.bytes ∧ d.hints = s.dir.hints ∧ s.active.size ≠ 0 ∧ s.nextID ∉ s.dir.data ∧
          s₀ = s.resealed d) := by
  have hrun {s₀ : Store} (hspread : Spread s₀) (hseal : s.sealActive = (s₀, .start (.list s₀.active.id) s₀.seq))
      (hkeys : s₀.keys = s.keys) (hfiles : s₀.files.size ≤ s.files.size + 1) : Ends s₀ s.compact.1 s.compact.2 := by
    have hrank : (Merge.start (.list s₀.active.id) s₀.seq).rank s₀ ≤ s.compactFuel := by
      show 13 + 6 * s₀.keys.size + 2 * s₀.files.size + 0 + 0 ≤ 16 + 8 * (s.keys.size + s.files.size)
      rw [hkeys]
      omega
    have hover := Merge.run_over s.compactFuel hrank
    have hlist : Stage s₀ s₀ (.start (.list s₀.active.id) s₀.seq) := .list
    have hstage := hlist.run hspread s.compactFuel
    rw [Store.compact, hseal]
    revert hover hstage
    rcases Merge.run s.compactFuel s₀ (.start (.list s₀.active.id) s₀.seq) with ⟨t, m⟩
    intro hover hstage
    dsimp only at hover hstage ⊢
    rcases hover with hdone | ⟨e, hfailed⟩
    · rw [hdone]
      cases hstage with
      | idle _ hset => exact .idle hset
      | publish hset h hcount _ hend =>
        rw [Merge.outcome, hdone] at hend
        exact .merged hset (hend ▸ h.merged hspread hcount)
      | failed _ hm => rw [hdone] at hm; cases hm
      | list | snapshot | copy | write | syncOuts => cases hdone
    · rw [hfailed]
      cases hstage with
      | failed n hm h => exact .blocked n e h
      | idle hm => rw [hfailed] at hm; cases hm
      | publish _ _ _ hm => rw [hfailed] at hm; cases hm
      | list | snapshot | copy | write | syncOuts => cases hfailed
  rcases sealActive_cases hs with ⟨hwhy, d, e, hbytes, hhints, hseal⟩ | ⟨hz, hseal⟩ |
    ⟨d, hbytes, hhints, hz, hid, hseal⟩
  · refine .inl ⟨hwhy, d, e, hbytes, hhints, ?_⟩
    have hstay (n : Nat) : Merge.run n ({s with dir := d} : Store) (.start (.failed e) 0) =
        ({s with dir := d}, .start (.failed e) 0) := by
      induction n with
      | zero => rfl
      | succ n ih => exact ih
    rw [Store.compact, hseal]
    dsimp only
    rw [hstay]
    rfl
  · exact .inr ⟨s, hs.spread hz, hrun (hs.spread hz) hseal rfl (Nat.le_succ _), .inl ⟨hz, rfl⟩⟩
  · refine .inr ⟨s.resealed d, hs.resealed hbytes hid, hrun (hs.resealed hbytes hid) hseal rfl ?_,
      .inr ⟨d, hbytes, hhints, hz, hid, rfl⟩⟩
    show (s.files.insert s.nextID 0).size ≤ _
    exact Std.ExtTreeMap.size_insert_le

end Shelf

end Gokv.Engine
