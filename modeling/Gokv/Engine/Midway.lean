import Gokv.Engine.Tidied

/-! Every state of a merge that runs alone.

Of the live keys of a store some can be read: their locators find their records (`Standing`). A
merge never takes that away: until it has entered the copies in the index the old files are all
there, and when it removes them the index no longer leads into them (`Tending.advance`). A key that
cannot be read stops every merge at its record. A locator that was taken from the index before may
have lost its file; as long as the file is there, its bytes are as they were (`Tending.frame`). -/
namespace Gokv.Engine
open Base

section Midway
variable [Checksum] {s s₀ t : Store} {m n : Merge} {shelves : List Shelf} {todo : List (Bytes × Entry)}
  {K R : Set Bytes}

/-- A store whose live keys are those in `K`, and which can read those of them in `R`. -/
structure Standing (K R : Set Bytes) (s : Store) : Prop where
  files : ∀ id, s.files[id]? = (s.dir.bytes id).map List.length
  live : ∀ k, k ∈ K ↔ ∃ e, s.lookup k = some e
  finds : ∀ x ∈ s.liveEntries, x.1 ∈ R → s.Finds x
  lost : ∀ x ∈ s.liveEntries, x.1 ∉ R → ∃ err, Store.readRecord s.dir x.2 = .error err
  sizes : ∀ x ∈ s.liveEntries, x.2.size < 2 ^ 32

/-- Finding a record takes the bytes of one file. -/
theorem Store.Finds.congr {s' : Store} {x : Bytes × Entry} (h : s.Finds x)
    (hb : s'.dir.bytes x.2.fileID = s.dir.bytes x.2.fileID) : s'.Finds x := by
  obtain ⟨r, hr, hrest⟩ := h
  exact ⟨r, (readRecord_congr hb).trans hr, hrest⟩

theorem Standing.congr {s' : Store} (h : Standing K R s) (hkeys : s'.keys = s.keys) (hfiles : s'.files = s.files)
    (hbytes : s'.dir.bytes = s.dir.bytes) : Standing K R s' := by
  have hlive : s'.liveEntries = s.liveEntries := by rw [Store.liveEntries, Store.liveEntries, hkeys]
  constructor
  case files =>
    intro id
    rw [hfiles, hbytes]
    exact h.files id
  case live =>
    intro k
    rw [h.live k, Store.lookup, Store.lookup, hkeys]
  case finds =>
    intro x hx hr
    exact (h.finds x (hlive ▸ hx) hr).congr (by rw [hbytes])
  case lost =>
    intro x hx hr
    obtain ⟨err, herr⟩ := h.lost x (hlive ▸ hx) hr
    exact ⟨err, (readRecord_congr (by rw [hbytes])).trans herr⟩
  case sizes => exact fun x hx => h.sizes x (hlive ▸ hx)

/-! ### Copying -/

/-- The file of an index entry is none of the outputs. -/
theorem Copying.apart (h : Copying s₀ s m shelves todo) (hs : Spread s₀) {k : Bytes} {e : Entry}
    (he : s₀.keys[k]? = some e) :
    e.fileID ∉ shelves.map Shelf.id := by
  intro hm
  obtain ⟨sh, hsh, heq⟩ := List.mem_map.mp hm
  have hmem := (mem_mergeSet.mp (hs.inSet k e he)).1
  exact h.fresh sh hsh (heq ▸ hs.mem_data.mp hmem)

theorem Copying.bytes_eq (h : Copying s₀ s m shelves todo) {id : Nat} (hid : id ∉ shelves.map Shelf.id) :
    s.dir.bytes id = s₀.dir.bytes id := by
  rw [Dir.bytes, Dir.bytes, h.data id hid]

theorem Copying.files_eq (h : Copying s₀ s m shelves todo) (hs : Spread s₀) (id : Nat) :
    s.files[id]? = (s.dir.bytes id).map List.length := by
  by_cases hid : id ∈ shelves.map Shelf.id
  · obtain ⟨sh, hsh, rfl⟩ := List.mem_map.mp hid
    rw [h.bytes sh hsh, h.sizes sh hsh]
    rfl
  · rw [h.files id hid, h.bytes_eq hid]
    exact hs.files id

/-- While it copies, a merge leaves the index and the old files alone. -/
theorem Copying.standing (h : Copying s₀ s m shelves todo) (hs : Spread s₀) (hst : Standing K R s₀) :
    Standing K R s := by
  have hkeys : s.keys = s₀.keys := by rw [h.store]
  have hlive : s.liveEntries = s₀.liveEntries := by rw [Store.liveEntries, Store.liveEntries, hkeys]
  have hbytes {x : Bytes × Entry} (hx : x ∈ s₀.liveEntries) : s.dir.bytes x.2.fileID = s₀.dir.bytes x.2.fileID :=
    h.bytes_eq (h.apart hs (lookup_eq_some.mp (mem_liveEntries.mp hx)).1)
  constructor
  case files => exact h.files_eq hs
  case live =>
    intro k
    rw [hst.live k, Store.lookup, Store.lookup, hkeys]
  case finds =>
    intro x hx hr
    rw [hlive] at hx
    exact (hst.finds x hx hr).congr (hbytes hx)
  case lost =>
    intro x hx hr
    rw [hlive] at hx
    obtain ⟨err, herr⟩ := hst.lost x hx hr
    exact ⟨err, (readRecord_congr (hbytes hx)).trans herr⟩
  case sizes => exact fun x hx => hst.sizes x (hlive ▸ hx)

/-! ### Publishing -/

/-- A merge that publishes has read every live record. -/
theorem Copying.readable (h : Copying s₀ t n shelves []) (hst : Standing K R s₀) {x : Bytes × Entry}
    (hx : x ∈ s₀.liveEntries) :
    x.1 ∈ R := by
  by_contra hr
  obtain ⟨err, herr⟩ := hst.lost x hx hr
  rw [← h.rows_eq] at hx
  obtain ⟨r, hmem, rfl⟩ := List.mem_map.mp hx
  have hread := h.reads r hmem
  rw [herr] at hread
  cases hread

/-- The copies are found where the outputs are. -/
theorem Copying.finds_copy (h : Copying s₀ t n shelves []) (hst : Standing K R s₀)
    (hb : ∀ sh ∈ shelves, s.dir.bytes sh.id = some sh.bytes) {x : Bytes × Entry} (hx : x ∈ shelfIndex shelves) :
    s.Finds x ∧ x.2.size < 2 ^ 32 := by
  obtain ⟨sh, hsh, before, r, after, hrows, hkey, he⟩ := shelfIndex_at hx
  have hr : r ∈ shelved shelves := List.mem_flatMap.mpr ⟨sh, hsh, by rw [hrows]; simp⟩
  have hread := h.reads r hr
  have hlive : (r.key, r.entry) ∈ s₀.liveEntries := by
    rw [← h.rows_eq]
    exact List.mem_map_of_mem (f := fun r : Row => (r.key, r.entry)) hr
  have hlen : r.record.lifted.encode.length < 2 ^ 32 := by
    rw [Shelf.length_of_read hread]
    exact hst.sizes _ hlive
  obtain ⟨buf, hbuf⟩ := decode_of_read hread
  obtain ⟨r', hr', hk, -, hput⟩ := hst.finds _ hlive (h.readable hst hlive)
  cases Except.ok.inj (hread.symm.trans hr')
  have hcopy := Shelf.read_copy hrows (hb sh hsh) (decodeRecord_lifted hbuf) hlen
  refine ⟨⟨r.record.lifted, ?_, ?_, ?_, r.record.lifted_tombstone.trans hput⟩, ?_⟩
  · rw [he]
    exact hcopy
  · rw [hkey]
    exact hk
  · rw [he]
    rfl
  · rw [he]
    exact Nat.mod_lt _ (by decide)

/-- An index of old locators and of new ones. -/
structure Repointed (s₀ : Store) (shelves : List Shelf) (keys : Index) : Prop where
  origin : ∀ (k : Bytes) (e : Entry), keys[k]? = some e → e.tomb = false → s₀.keys[k]? = some e ∨
    (k, e) ∈ shelfIndex shelves
  live : ∀ k : Bytes, (∃ e, keys[k]? = some e ∧ e.tomb = false) ↔ ∃ e, s₀.lookup k = some e

/-- Some of the copies have been entered. -/
theorem Copying.repointed (h : Copying s₀ t n shelves []) {done left : List (Item × Entry)}
    (hsplit : shelves.flatMap Shelf.moves = done ++ left) :
    Repointed s₀ shelves (done.foldl Merge.repointOne s₀.keys) := by
  have hindex {k : Bytes} {e : Entry} (hm : (k, e) ∈ done.map (fun x => (x.1.key, x.2))) :
      (k, e) ∈ shelfIndex shelves := by
    rw [shelfIndex, hsplit, List.map_append]
    exact List.mem_append_left _ hm
  constructor
  case origin =>
    intro k e he _
    rcases (h.getElem?_moved hsplit k e).mp he with hm | ⟨-, hold⟩
    · exact .inr (hindex hm)
    · exact .inl hold
  case live =>
    intro k
    constructor
    · rintro ⟨e, he, hlive⟩
      rcases (h.getElem?_moved hsplit k e).mp he with hm | ⟨-, hold⟩
      · obtain ⟨y, hy, heq⟩ := List.mem_map.mp hm
        rw [Prod.mk.injEq] at heq
        have := mem_liveEntries.mp (h.moved_live (hsplit ▸ List.mem_append_left left hy))
        exact ⟨y.1.entry, heq.1 ▸ this⟩
      · exact ⟨e, lookup_eq_some.mpr ⟨hold, hlive⟩⟩
    · rintro ⟨e, he⟩
      obtain ⟨hold, hlive⟩ := lookup_eq_some.mp he
      by_cases hk : k ∈ done.map (·.1.key)
      · obtain ⟨y, hy, rfl⟩ := List.mem_map.mp hk
        have hm := List.mem_map_of_mem (f := fun x : Item × Entry => (x.1.key, x.2)) hy
        exact ⟨y.2, (h.getElem?_moved hsplit _ _).mpr (.inl hm), shelfIndex_live (hindex hm)⟩
      · exact ⟨e, (h.getElem?_moved hsplit k e).mpr (.inr ⟨hk, hold⟩), hlive⟩

/-- Some of the tombstones have been forgotten. -/
theorem Copying.retired (h : Copying s₀ t n shelves []) {done left : List Item}
    (hsplit : s₀.graves.map itemOf = done ++ left) :
    Repointed s₀ shelves (done.foldl Merge.retireOne
      ((shelves.flatMap Shelf.moves).foldl Merge.repointOne s₀.keys)) := by
  have hall := h.repointed (List.append_nil _).symm
  have hget := h.getElem?_retired hsplit
  constructor
  case origin =>
    intro k e he hlive
    rw [hget] at he
    by_cases hk : k ∈ done.map Item.key
    · rw [if_pos hk] at he
      cases he
    · rw [if_neg hk] at he
      exact hall.origin k e he hlive
  case live =>
    intro k
    rw [← hall.live k, hget]
    by_cases hk : k ∈ done.map Item.key
    · rw [if_pos hk]
      refine iff_of_false (by simp) fun hlive => ?_
      obtain ⟨e, he⟩ := (hall.live k).mp hlive
      obtain ⟨x, hx, rfl⟩ := List.mem_map.mp hk
      obtain ⟨y, hy, rfl⟩ := List.mem_map.mp (hsplit ▸ List.mem_append_left left hx)
      exact graves_apart (List.mem_map_of_mem (f := Prod.fst) hy)
        (List.mem_map.mpr ⟨_, mem_liveEntries (x := (y.1, e)).mpr he, rfl⟩)
    · rw [if_neg hk]

/-- The store while the index is being moved. -/
theorem Repointed.standing {keys : Index} (hk : Repointed s₀ shelves keys) (h : Copying s₀ t n shelves [])
    (hs : Spread s₀)
    (hst : Standing K R s₀) {d : Dir} (hd : d.data = t.dir.data) : Standing K R {t with dir := d, keys := keys} := by
  have hbytes (id : Nat) : d.bytes id = t.dir.bytes id := by rw [Dir.bytes, Dir.bytes, hd]
  have hlook (k : Bytes) (e : Entry) : Store.lookup {t with dir := d, keys := keys} k = some e ↔
      keys[k]? = some e ∧ e.tomb = false :=
    lookup_eq_some
  have hboth : ∀ x ∈ Store.liveEntries {t with dir := d, keys := keys},
      Store.Finds {t with dir := d, keys := keys} x ∧ x.2.size < 2 ^ 32 := fun x hx => by
    obtain ⟨he, hlive⟩ := (hlook _ _).mp (mem_liveEntries.mp hx)
    rcases hk.origin x.1 x.2 he hlive with hold | hnew
    · have hx₀ : x ∈ s₀.liveEntries := mem_liveEntries.mpr (lookup_eq_some.mpr ⟨hold, hlive⟩)
      refine ⟨(hst.finds x hx₀ (h.readable hst hx₀)).congr ?_, hst.sizes x hx₀⟩
      exact (hbytes _).trans (h.bytes_eq (h.apart hs hold))
    · exact h.finds_copy hst (fun sh hsh => (hbytes sh.id).trans (h.bytes sh hsh)) hnew
  constructor
  case files => exact fun id => (h.files_eq hs id).trans (by rw [← hbytes id])
  case live =>
    intro k
    rw [hst.live k, ← hk.live k]
    exact exists_congr fun e => (hlook k e).symm
  case finds => exact fun x hx _ => (hboth x hx).1
  case lost =>
    intro x hx hr
    obtain ⟨e, he⟩ := (hk.live x.1).mp ⟨x.2, (hlook _ _).mp (mem_liveEntries.mp hx)⟩
    exact absurd (h.readable hst (x := (x.1, e)) (mem_liveEntries.mpr he)) hr
  case sizes => exact fun x hx => (hboth x hx).2

/-- What is left to do once the watermark has been moved. -/
def Merge.Phase.closing (ids : List Nat) : Phase → Prop
  | .remove todo => ∀ r ∈ todo, r ∈ Merge.removals ids
  | .recount | .sum | .total _ | .done => True
  | _ => False

/-- Where a merge whose outputs are durable can be. -/
inductive Late (t : Store) (n : Merge) (shelves : List Shelf) (ids : List Nat) : Store → Merge → Prop
  | hints {d : Dir} (left : List Out) (hd : d.data = t.dir.data)
      (hhints : ∀ id : Nat, id ∉ shelves.map Shelf.id → d.hints[id]? = t.dir.hints[id]?)
      (hleft : ∀ o ∈ left, o.id ∈ shelves.map Shelf.id) :
      Late t n shelves ids {t with dir := d} {n with phase := .commitHints left}
  | repoint {d : Dir} (done left : List (Item × Entry)) (hd : d.data = t.dir.data) (hsplit : n.moved = done ++ left) :
      Late t n shelves ids {t with dir := d, keys := done.foldl Merge.repointOne t.keys} {n with phase := .repoint left}
  | retire {d : Dir} (done left : List Item) (hd : d.data = t.dir.data) (hsplit : n.retired = done ++ left) :
      Late t n shelves ids {t with dir := d, keys := done.foldl Merge.retireOne (n.moved.foldl Merge.repointOne t.keys)}
        {n with phase := .retire left}
  | watermark {d : Dir} (hd : d.data = t.dir.data) :
      Late t n shelves ids
        {t with dir := d, keys := n.retired.foldl Merge.retireOne (n.moved.foldl Merge.repointOne t.keys)}
        {n with phase := .watermark}
  | closing {s : Store} {m : Merge}
      (hkeys : s.keys = n.retired.foldl Merge.retireOne (n.moved.foldl Merge.repointOne t.keys))
      (hfiles : ∀ id, s.files[id]? = (s.dir.bytes id).map List.length)
      (hbytes : ∀ sh ∈ shelves, s.dir.bytes sh.id = some sh.bytes)
      (hphase : Merge.Phase.closing ids m.phase) : Late t n shelves ids s m

omit [Checksum] in
/-- The file table follows the directory when a file is removed. -/
theorem files_dropped (hfiles : ∀ id, s.files[id]? = (s.dir.bytes id).map List.length) (id i : Nat) :
    (s.dropped id).files[i]? = ((s.dropped id).dir.bytes i).map List.length := by
  show (s.files.erase id)[i]? = ((s.dir.removeData id).bytes i).map List.length
  rw [Dir.bytes_removeData, Std.ExtTreeMap.getElem?_erase]
  by_cases hi : i = id
  · subst hi
    simp
  · rw [Function.update_of_ne hi, ← hfiles i, if_neg (by simpa using Ne.symm hi)]

/-- The files of the merge set go, the outputs stay. -/
theorem Late.ofClosing (h : Copying s₀ t n shelves []) (hs : Spread s₀)
    (hkeys : s.keys = n.retired.foldl Merge.retireOne (n.moved.foldl Merge.repointOne t.keys))
    (hfiles : ∀ id, s.files[id]? = (s.dir.bytes id).map List.length)
    (hbytes : ∀ sh ∈ shelves, s.dir.bytes sh.id = some sh.bytes)
    (hphase : Merge.Phase.closing s₀.mergeSet m.phase) :
    Late t n shelves s₀.mergeSet (Merge.step s m).1 (Merge.step s m).2 := by
  unfold Merge.step
  cases hp : m.phase with
  | remove left =>
    rw [hp] at hphase
    cases left with
    | nil => exact .closing hkeys hfiles hbytes trivial
    | cons r rest =>
      have hrest : Merge.Phase.closing s₀.mergeSet (.remove rest) := fun x hx => hphase x (List.mem_cons_of_mem _ hx)
      cases r with
      | hint id => exact .closing hkeys hfiles hbytes hrest
      | data id =>
        have hid : id ∈ s₀.mergeSet := by
          obtain ⟨i, hi, hr⟩ := List.mem_flatMap.mp (hphase (.data id) (List.mem_cons_self ..))
          simp only [List.mem_cons, Removal.data.injEq, reduceCtorEq, or_false, List.not_mem_nil] at hr
          exact hr ▸ hi
        have hout : ∀ sh ∈ shelves, sh.id ≠ id := fun sh hsh heq =>
          h.fresh sh hsh (heq ▸ hs.mem_data.mp (mem_mergeSet.mp hid).1)
        dsimp only [Merge.removeStep]
        by_cases hopen : id ∈ s.files
        · rw [if_pos hopen]
          refine .closing hkeys (files_dropped hfiles id) (fun sh hsh => ?_) hrest
          show (s.dir.removeData id).bytes sh.id = _
          rw [Dir.bytes_removeData, Function.update_of_ne (hout sh hsh)]
          exact hbytes sh hsh
        · rw [if_neg hopen]
          exact .closing hkeys hfiles hbytes hrest
  | recount => exact .closing hkeys hfiles hbytes trivial
  | sum => exact .closing hkeys hfiles hbytes trivial
  | total k => exact .closing hkeys hfiles hbytes trivial
  | done => exact .closing hkeys hfiles hbytes (by rw [hp]; trivial)
  | list _ | snapshot | copy _ | write _ _ _ _ | syncOuts _ | commitHints _ | repoint _ | retire _ | watermark
  | failed _ =>
    rw [hp] at hphase
    exact hphase.elim

theorem Late.step (h : Copying s₀ t n shelves []) (hs : Spread s₀) (hl : Late t n shelves s₀.mergeSet s m) :
    Late t n shelves s₀.mergeSet (Merge.step s m).1 (Merge.step s m).2 := by
  cases hl with
  | hints left hd hhints hleft =>
    cases left with
    | nil => exact .repoint [] n.moved hd rfl
    | cons o rest =>
      refine .hints rest hd (fun id hid => ?_) fun p hp => hleft p (List.mem_cons_of_mem _ hp)
      have hne : o.id ≠ id := fun heq => hid (heq ▸ hleft o (List.mem_cons_self ..))
      rw [← hhints id hid]
      exact (Std.ExtTreeMap.getElem?_insert ..).trans (if_neg (by simpa using hne))
  | repoint done left hd hsplit =>
    cases left with
    | nil =>
      rw [List.append_nil] at hsplit
      rw [← hsplit]
      exact .retire [] n.retired hd rfl
    | cons x rest =>
      have hfold : ((x :: rest).take repointChunk).foldl Merge.repointOne (done.foldl Merge.repointOne t.keys) =
          (done ++ (x :: rest).take repointChunk).foldl Merge.repointOne t.keys := List.foldl_append.symm
      show Late t n shelves s₀.mergeSet {t with dir := _, keys := _}
        {n with phase := .repoint ((x :: rest).drop repointChunk)}
      rw [hfold]
      refine .repoint _ _ hd ?_
      rw [List.append_assoc, List.take_append_drop]
      exact hsplit
  | retire done left hd hsplit =>
    cases left with
    | nil =>
      rw [List.append_nil] at hsplit
      rw [← hsplit]
      exact .watermark hd
    | cons x rest =>
      have hfold : ((x :: rest).take repointChunk).foldl Merge.retireOne
          (done.foldl Merge.retireOne (n.moved.foldl Merge.repointOne t.keys)) =
          (done ++ (x :: rest).take repointChunk).foldl Merge.retireOne (n.moved.foldl Merge.repointOne t.keys) :=
        List.foldl_append.symm
      show Late t n shelves s₀.mergeSet {t with dir := _, keys := _}
        {n with phase := .retire ((x :: rest).drop repointChunk)}
      rw [hfold]
      refine .retire _ _ hd ?_
      rw [List.append_assoc, List.take_append_drop]
      exact hsplit
  | watermark hd =>
    rename_i d
    have hbytes (id : Nat) : d.bytes id = t.dir.bytes id := by rw [Dir.bytes, Dir.bytes, hd]
    have hids : n.mergeIDs = s₀.mergeSet := by rw [h.merge]
    refine .closing rfl (fun id => (h.files_eq hs id).trans ?_) (fun sh hsh => (hbytes sh.id).trans (h.bytes sh hsh)) ?_
    · rw [← hbytes id]
      rfl
    · rw [← hids]
      exact fun r hr => hr
  | closing hkeys hfiles hbytes hphase => exact .ofClosing h hs hkeys hfiles hbytes hphase

/-- **A merge that publishes** takes no record away. -/
theorem Late.standing (hl : Late t n shelves s₀.mergeSet s m) (h : Copying s₀ t n shelves []) (hs : Spread s₀)
    (hst : Standing K R s₀) : Standing K R s := by
  have hkeys : t.keys = s₀.keys := by rw [h.store]
  have hmoved : n.moved = shelves.flatMap Shelf.moves := by rw [h.merge]
  have hretired : n.retired = s₀.graves.map itemOf := by rw [h.merge]
  cases hl with
  | hints left hd _ _ =>
    exact (h.standing hs hst).congr rfl rfl (funext fun id => by rw [Dir.bytes, Dir.bytes, hd])
  | repoint done left hd hsplit =>
    rw [hkeys]
    exact (h.repointed (hmoved ▸ hsplit)).standing h hs hst hd
  | retire done left hd hsplit =>
    rw [hkeys, hmoved]
    exact (h.retired (hretired ▸ hsplit)).standing h hs hst hd
  | watermark hd =>
    rw [hkeys, hmoved, hretired]
    exact (h.retired (List.append_nil _).symm).standing h hs hst hd
  | closing hfinal hfiles hbytes _ =>
    rw [hkeys] at hfinal
    have hindex (k : Bytes) (e : Entry) : s.lookup k = some e ↔ (k, e) ∈ shelfIndex shelves := by
      rw [lookup_eq_some, hfinal, h.getElem?_keys]
      exact and_iff_left_of_imp fun hx => shelfIndex_live hx
    have hall := h.retired (List.append_nil _).symm
    have hlook (k : Bytes) (e : Entry) := lookup_eq_some (s := s) (k := k) (e := e)
    rw [hfinal, hmoved, hretired] at hlook
    have hboth : ∀ x ∈ s.liveEntries, s.Finds x ∧ x.2.size < 2 ^ 32 := fun x hx =>
      h.finds_copy hst hbytes ((hindex _ _).mp (mem_liveEntries.mp hx))
    constructor
    case files => exact hfiles
    case live =>
      intro k
      rw [hst.live k, ← hall.live k]
      exact exists_congr fun e => (hlook k e).symm
    case finds => exact fun x hx _ => (hboth x hx).1
    case lost =>
      intro x hx hr
      obtain ⟨e, he⟩ := (hall.live x.1).mp ⟨x.2, (hlook _ _).mp (mem_liveEntries.mp hx)⟩
      exact absurd (h.readable hst (x := (x.1, e)) (mem_liveEntries.mpr he)) hr
    case sizes => exact fun x hx => (hboth x hx).2

/-! ### The whole merge -/

/-- A merge begins to publish when its outputs are durable, or has nothing to do. -/
theorem Merge.publishing_step (hp : Phase.publishing (step s m).2.phase = true) :
    Phase.publishing m.phase = true ∨ m.phase = .syncOuts [] ∨ ∃ id, m.phase = .list id := by
  unfold step at hp
  cases hm : m.phase with
  | list id => exact .inr (.inr ⟨id, rfl⟩)
  | copy todo =>
    rw [hm] at hp
    cases todo with
    | nil => cases hp
    | cons it rest =>
      dsimp only [copyStep, newOut, cleanup] at hp
      repeat' split at hp
      all_goals cases hp
  | write it rec buf rest =>
    rw [hm] at hp
    dsimp only [writeStep, cleanup] at hp
    repeat' split at hp
    all_goals cases hp
  | syncOuts todo =>
    rw [hm] at hp
    cases todo with
    | nil => exact .inr (.inl rfl)
    | cons o rest =>
      dsimp only [cleanup] at hp
      split at hp
      all_goals cases hp
  | snapshot =>
    rw [hm] at hp
    cases hp
  | failed err =>
    simp only [hm] at hp
    cases hp
  | commitHints _ | repoint _ | retire _ | watermark | remove _ | recount | sum | total _ | done => exact .inl rfl

/-- Where a merge of `s₀` can be, and how it got there. -/
structure Passing (s₀ s : Store) (m : Merge) : Prop where
  stage : Stage s₀ s m
  late : Merge.Phase.publishing m.phase = true → (m.phase = .done ∧ s = s₀) ∨
    ∃ t n shelves, Copying s₀ t n shelves [] ∧ Late t n shelves s₀.mergeSet s m

theorem Passing.step (h : Passing s₀ s m) (hs : Spread s₀) : Passing s₀ (Merge.step s m).1 (Merge.step s m).2 := by
  refine ⟨h.stage.step hs, fun hp => ?_⟩
  rcases Merge.publishing_step hp with hold | hsync | ⟨id, hlist⟩
  · rcases h.late hold with ⟨hdone, rfl⟩ | ⟨t, n, shelves, hc, hl⟩
    · have : Merge.step s m = (s, m) := by rw [Merge.step, hdone]
      rw [this]
      exact .inl ⟨hdone, rfl⟩
    · exact .inr ⟨t, n, shelves, hc, hl.step hc hs⟩
  · obtain ⟨hstage, -⟩ := h
    cases hstage with
    | syncOuts hset hc hcount hleft =>
      rename_i n shelves left
      cases left with
      | nil =>
        refine .inr ⟨s, n, shelves, hc, .hints n.outs rfl (fun _ _ => rfl) fun o ho => ?_⟩
        rw [← hc.outIDs]
        exact List.mem_map_of_mem ho
      | cons sh left => cases hsync
    | publish hset hc hcount hm hend =>
      rw [hsync] at hm
      cases hm
    | idle hm hset | failed k hm hb =>
      rw [hsync] at hm
      cases hm
    | list | snapshot | copy | write => cases hsync
  · obtain ⟨hstage, -⟩ := h
    cases hstage with
    | list =>
      have hstep : Merge.step s (.start (.list s.active.id) s.seq) =
        (s, ⟨if s.mergeSet = [] then .done else .snapshot, s.seq, s.mergeSet, [], [], []⟩) := rfl
      rw [hstep] at hp ⊢
      by_cases hset : s.mergeSet = []
      · exact .inl ⟨if_pos hset, rfl⟩
      · dsimp only at hp
        rw [if_neg hset] at hp
        cases hp
    | publish hset hc hcount hm hend =>
      rw [hlist] at hm
      cases hm
    | idle hm hset | failed k hm hb =>
      rw [hlist] at hm
      cases hm
    | snapshot | copy | write | syncOuts => cases hlist

theorem Passing.standing (h : Passing s₀ s m) (hs : Spread s₀) (hst : Standing K R s₀) : Standing K R s := by
  obtain ⟨hstage, hlate⟩ := h
  cases hstage with
  | list | idle | snapshot => exact hst
  | copy _ hc | write _ hc | syncOuts _ hc => exact hc.standing hs hst
  | failed k hm hb => exact hst.congr rfl rfl rfl
  | publish hset hc hcount hm hend =>
    rcases hlate hm with ⟨-, rfl⟩ | ⟨t, n, shelves, hc, hl⟩
    · exact hst
    · exact hl.standing hc hs hst

/-! ### One merge after another -/

omit [Checksum] in
theorem Placed.congr {s' : Store} (h : Placed s) (hkeys : s'.keys = s.keys) (hfiles : s'.files = s.files)
    (hactive : s'.active = s.active) (hbytes : s'.dir.bytes = s.dir.bytes) : Placed s' := by
  refine ⟨?_, ?_, ?_, ?_⟩
  · rw [hfiles, hbytes]
    exact h.files
  · rw [hfiles, hactive]
    exact h.active
  · rw [hkeys, hfiles]
    exact h.opened
  · rw [hkeys, hactive]
    exact h.filled

theorem Merged.placed (h : Merged s₀ s shelves) (hs : Placed s₀) (hz : s₀.active.size = 0) : Placed s := by
  have hactive : s.active = s₀.active := by rw [h.store]
  have hkept : s₀.active.id ∉ shelves.map Shelf.id := fun hm => by
    obtain ⟨sh, hsh, heq⟩ := List.mem_map.mp hm
    have hmem : s₀.active.id ∈ s₀.files := Std.ExtTreeMap.mem_iff_isSome_getElem?.mpr (by rw [hs.active]; rfl)
    exact h.fresh sh hsh (heq ▸ (hs.spread hz).mem_data.mp hmem)
  have hout {k : Bytes} {e : Entry} (he : s.keys[k]? = some e) : e.fileID ∈ shelves.map Shelf.id := by
    have hmem := Std.ExtTreeMap.mem_toList_iff_getElem?_eq_some.mpr he
    rw [h.keys] at hmem
    obtain ⟨sh, hsh, before, r, after, -, -, heq⟩ := shelfIndex_at hmem
    have heq : e = _ := heq
    rw [heq]
    exact List.mem_map_of_mem hsh
  refine ⟨h.files, ?_, fun k e he => ?_, fun _ k e he heq => ?_⟩
  · rw [hactive, h.files, h.others _ hkept, if_pos rfl, ← hs.files]
    exact hs.active
  · obtain ⟨sh, hsh, heq⟩ := List.mem_map.mp (hout he)
    rw [← heq, Store.mem_files h.files]
    exact ⟨_, h.bytes sh hsh⟩
  · rw [hactive] at heq
    exact hkept (heq ▸ hout he)

/-- The merge has returned. -/
def Merge.returned (m : Merge) : Prop := m.phase = .done ∨ ∃ e, m.phase = .failed e

instance (m : Merge) : Decidable m.returned :=
  match h : m.phase with
  | .done => isTrue (.inl h)
  | .failed e => isTrue (.inr ⟨e, h⟩)
  | .list _ | .snapshot | .copy _ | .write _ _ _ _ | .syncOuts _ | .commitHints _ | .repoint _ | .retire _ | .watermark
  | .remove _ | .recount | .sum | .total _ => isFalse fun hr => by
      rcases hr with hr | ⟨e, hr⟩ <;> rw [h] at hr <;> cases hr

theorem Passing.placed (h : Passing s₀ s m) (hs : Placed s₀) (hz : s₀.active.size = 0) (hm : m.returned) :
    Placed s := by
  obtain ⟨hstage, -⟩ := h
  cases hstage with
  | idle => exact hs
  | failed k hm hb => exact hs.congr rfl rfl rfl rfl
  | publish hset hc hcount hp hend =>
    rcases hm with hdone | ⟨e, hfailed⟩
    · rw [Merge.outcome, hdone] at hend
      exact (hend ▸ hc.merged (hs.spread hz) hcount).placed hs hz
    · rw [hfailed] at hp
      cases hp
  | list | snapshot | copy | write | syncOuts => rcases hm with hm | ⟨e, hm⟩ <;> cases hm

/-- The next step of the `Compact` that is running, or the first of the next one. -/
def Store.advance (s : Store) : Option Merge → Store × Merge
  | none => s.sealActive
  | some m => if m.returned then s.sealActive else Merge.step s m

/-- A store in use, and the `Compact` that runs on it or was the last to. -/
inductive Tending (K R : Set Bytes) : Store → Option Merge → Prop
  | rest {s : Store} {merge : Option Merge} (hs : Placed s) (hst : Standing K R s) (hm : ∀ m ∈ merge, m.returned) :
      Tending K R s merge
  | busy {s₀ s : Store} {m : Merge} (hs : Placed s₀) (hz : s₀.active.size = 0) (hst : Standing K R s₀)
      (h : Passing s₀ s m) :
      Tending K R s (some m)

variable {merge : Option Merge}

theorem Tending.standing (h : Tending K R s merge) : Standing K R s := by
  cases h with
  | rest _ hst => exact hst
  | busy hs hz hst h => exact h.standing (hs.spread hz) hst

omit [Checksum] in
theorem Placed.fresh {d : Dir} (hs : Placed s) (hbytes : d.bytes = s.dir.bytes) (hid : s.nextID ∉ s.dir.data) :
    Placed (s.resealed d) := by
  have hspread := hs.resealed hbytes hid
  refine ⟨hspread.files, ?_, fun k e he => (mem_mergeSet.mp (hspread.inSet k e he)).1,
    fun _ k e he => (mem_mergeSet.mp (hspread.inSet k e he)).2⟩
  exact Std.ExtTreeMap.getElem?_insert_self

theorem Standing.resealed {d : Dir} (h : Standing K R s) (hs : Placed s) (hbytes : d.bytes = s.dir.bytes)
    (hid : s.nextID ∉ s.dir.data) : Standing K R (s.resealed d) := by
  have hsame {x : Bytes × Entry} (hx : x ∈ s.liveEntries) :
      (s.resealed d).dir.bytes x.2.fileID = s.dir.bytes x.2.fileID := by
    have hopen := hs.opened x.1 x.2 (lookup_eq_some.mp (mem_liveEntries.mp hx)).1
    obtain ⟨b, hb⟩ := (Store.mem_files hs.files).mp hopen
    have hne : x.2.fileID ≠ s.nextID := fun heq => hid (heq ▸ Dir.mem_data.mpr ⟨b, hb⟩)
    exact (congrFun (bytes_fresh {s with dir := d}) _).trans ((Function.update_of_ne hne ..).trans (congrFun hbytes _))
  constructor
  case files => exact (hs.resealed hbytes hid).files
  case live => exact h.live
  case finds => exact fun x hx hr => (h.finds x hx hr).congr (hsame hx)
  case lost =>
    intro x hx hr
    obtain ⟨err, herr⟩ := h.lost x hx hr
    exact ⟨err, (readRecord_congr (hsame hx)).trans herr⟩
  case sizes => exact h.sizes

theorem Tending.sealed (hs : Placed s) (hst : Standing K R s) : Tending K R s.sealActive.1 (some s.sealActive.2) := by
  rcases sealActive_cases hs with ⟨-, d, e, hbytes, -, heq⟩ | ⟨hz, heq⟩ | ⟨d, hbytes, -, -, hid, heq⟩
  · rw [heq]
    refine .rest (hs.congr rfl rfl rfl hbytes) (hst.congr rfl rfl hbytes) fun m hm => ?_
    cases hm
    exact .inr ⟨e, rfl⟩
  · rw [heq]
    exact .busy hs hz hst ⟨.list, fun hp => by cases hp⟩
  · rw [heq]
    exact .busy (hs.fresh hbytes hid) rfl (hst.resealed hs hbytes hid) ⟨.list, fun hp => by cases hp⟩

/-- The next step begins a merge or goes on with one. -/
theorem Tending.advance_cases (h : Tending K R s merge) : (Placed s ∧ s.advance merge = s.sealActive) ∨
    ∃ s₀ m, merge = some m ∧ Placed s₀ ∧ s₀.active.size = 0 ∧ Standing K R s₀ ∧ Passing s₀ s m ∧
      s.advance merge = Merge.step s m := by
  cases h with
  | rest hs hst hm =>
    refine .inl ⟨hs, ?_⟩
    cases merge with
    | none => rfl
    | some m => exact if_pos (hm m rfl)
  | busy hs hz hst h =>
    rename_i s₀ m
    by_cases hm : m.returned
    · exact .inl ⟨h.placed hs hz hm, if_pos hm⟩
    · exact .inr ⟨s₀, m, rfl, hs, hz, hst, h, if_neg hm⟩

/-- **A step of a merge** takes no key away. -/
theorem Tending.advance (h : Tending K R s merge) : Tending K R (s.advance merge).1 (some (s.advance merge).2) := by
  rcases h.advance_cases with ⟨hs, heq⟩ | ⟨s₀, m, rfl, hs, hz, hst, hp, heq⟩
  · rw [heq]
    exact .sealed hs h.standing
  · rw [heq]
    exact .busy hs hz hst (hp.step (hs.spread hz))

/-! ### What a step leaves alone -/

/-- The outputs that are still written to. -/
def Merge.drafts (m : Merge) : List Nat :=
  match m.phase with
  | .list _ | .snapshot | .copy _ | .write _ _ _ _ | .syncOuts _ => m.outs.map Out.id
  | _ => []

omit [Checksum] in
theorem cleanup_frame {id : Nat} (hd : id ∉ m.outs.map Out.id) (err : Error) :
    (Merge.cleanup s m err).1.dir.bytes id = s.dir.bytes id := by
  have hdrop : (Merge.cleanup s m err).1 = (m.outs.map Out.id).foldl Store.dropped s := by
    rw [List.foldl_map]
    rfl
  rw [hdrop, droppedAll_eq]
  show Option.map _ _ = Option.map _ _
  rw [getElem?_eraseAll, if_neg hd]

omit [Checksum] in
theorem sync_bytes {d d' : Dir} {id : Nat} (h : d.sync id = .ok d') : d'.bytes = d.bytes := by
  cases hb : d.bytes id with
  | none =>
    have hgone : d.data[id]? = none := Option.map_eq_none_iff.mp hb
    rw [Dir.sync, hgone] at h
    cases h
  | some b =>
    obtain ⟨d₁, hd, hbytes, -⟩ := Dir.sync_ok hb
    cases Except.ok.inj (hd.symm.trans h)
    exact hbytes

omit [Checksum] in
theorem newOut_frame {id : Nat} {s' : Store} {r : Except Error Merge} (h : Merge.newOut s m = (s', r))
    (hid : id ∈ s.dir.data)
    (hd : id ∉ m.outs.map Out.id) : s'.dir.bytes id = s.dir.bytes id ∧ ∀ m', r = .ok m' → id ∉ m'.outs.map Out.id := by
  unfold Merge.newOut Dir.create at h
  by_cases hm : s.nextID ∈ s.dir.data
  · simp only [if_pos hm] at h
    cases h
    exact ⟨rfl, fun m' hm' => by cases hm'⟩
  · have hne : id ≠ s.nextID := fun heq => hm (heq ▸ hid)
    simp only [if_neg hm] at h
    cases h
    constructor
    · show Dir.bytes {s.dir with data := s.dir.data.insert s.nextID ⟨[], 0⟩} id = _
      rw [Dir.bytes_insert, Function.update_of_ne hne]
    · intro m' hm'
      cases hm'
      rw [List.map_append, List.mem_append, List.map_singleton, List.mem_singleton]
      exact fun hor => hor.elim hd hne

theorem copyStep_frame {id : Nat} {it : Item} {rest : List Item} (hid : id ∈ s.dir.data) (hd : id ∉ m.outs.map Out.id) :
    (Merge.copyStep s m it rest).1.dir.bytes id = s.dir.bytes id ∧ id ∉ (Merge.copyStep s m it rest).2.drafts := by
  unfold Merge.copyStep
  by_cases hgone : it.entry.fileID ∉ s.files
  · rw [if_pos hgone]
    exact ⟨rfl, hd⟩
  rw [if_neg hgone]
  cases s.dir.readAt it.entry.fileID it.entry.pos it.entry.size with
  | error err => exact ⟨cleanup_frame hd err, List.not_mem_nil⟩
  | ok raw =>
    dsimp only
    cases decodeRecord raw with
    | error err => exact ⟨cleanup_frame hd err, List.not_mem_nil⟩
    | ok rec =>
      dsimp only
      cases hneed : Merge.needsOut s m (clearBatchFlags raw).length with
      | false => exact ⟨rfl, hd⟩
      | true =>
        rw [if_pos rfl]
        rcases hnew : Merge.newOut s m with ⟨s', r⟩
        obtain ⟨hbytes, houts⟩ := newOut_frame hnew hid hd
        cases r with
        | error err => exact ⟨(cleanup_frame hd err).trans hbytes, List.not_mem_nil⟩
        | ok m' => exact ⟨hbytes, houts m' rfl⟩

omit [Checksum] in
theorem writeStep_frame {id : Nat} {it : Item} {rec : Record} {buf : Bytes} {rest : List Item}
    (hd : id ∉ m.outs.map Out.id) :
    (Merge.writeStep s m it rec buf rest).1.dir.bytes id = s.dir.bytes id ∧
      id ∉ (Merge.writeStep s m it rec buf rest).2.drafts := by
  unfold Merge.writeStep
  cases hlast : m.outs.getLast? with
  | none => exact ⟨rfl, hd⟩
  | some o =>
    obtain ⟨outs, houts⟩ := List.getLast?_eq_some_iff.mp hlast
    have hne : id ≠ o.id := fun heq => hd (by rw [houts, heq]; simp)
    dsimp only
    cases hw : s.dir.writeAt o.id o.size buf with
    | error err => exact ⟨cleanup_frame hd err, List.not_mem_nil⟩
    | ok d =>
      obtain ⟨data, rfl, hdata⟩ := writeAt_elsewhere hw
      constructor
      · exact congrArg (Option.map DiskFile.bytes) (hdata id hne)
      · show id ∉ (m.outs.dropLast ++ [_]).map Out.id
        rw [houts, List.map_append, List.mem_append, not_or] at hd
        rw [houts, List.dropLast_concat, List.map_append, List.mem_append, not_or]
        exact hd

omit [Checksum] in
theorem removeStep_frame {id : Nat} (r : Removal) :
    (Merge.removeStep s r).dir.bytes id = none ∨ (Merge.removeStep s r).dir.bytes id = s.dir.bytes id := by
  cases r with
  | hint i => exact .inr rfl
  | data i =>
    dsimp only [Merge.removeStep]
    split
    · show (s.dir.removeData i).bytes id = none ∨ (s.dir.removeData i).bytes id = _
      rw [Dir.bytes_removeData]
      by_cases hi : id = i
      · rw [hi]
        exact .inl (Function.update_self ..)
      · exact .inr (Function.update_of_ne hi ..)
    · exact .inr rfl

/-- A file that is no draft is removed by a step or keeps its bytes. -/
theorem Merge.step_frame {id : Nat} (hid : id ∈ s.dir.data) (hd : id ∉ m.drafts) :
    (step s m).1.dir.bytes id = none ∨ (step s m).1.dir.bytes id = s.dir.bytes id ∧ id ∉ (step s m).2.drafts := by
  unfold step
  unfold drafts at hd
  cases hm : m.phase with
  | list activeID =>
    rw [hm] at hd
    refine .inr ⟨rfl, ?_⟩
    dsimp only [listStep, drafts]
    by_cases hids : s.files.keys.filter (· ≠ activeID) = []
    · rw [if_pos hids]
      exact List.not_mem_nil
    · rw [if_neg hids]
      exact hd
  | snapshot =>
    rw [hm] at hd
    exact .inr ⟨rfl, hd⟩
  | copy todo =>
    rw [hm] at hd
    cases todo with
    | nil => exact .inr ⟨rfl, hd⟩
    | cons it rest => exact .inr (copyStep_frame hid hd)
  | write it rec buf rest =>
    rw [hm] at hd
    exact .inr (writeStep_frame hd)
  | syncOuts todo =>
    rw [hm] at hd
    cases todo with
    | nil => exact .inr ⟨rfl, List.not_mem_nil⟩
    | cons o rest =>
      dsimp only
      cases hsync : s.dir.sync o.id with
      | error err => exact .inr ⟨cleanup_frame hd err, List.not_mem_nil⟩
      | ok d => exact .inr ⟨congrFun (sync_bytes hsync) id, hd⟩
  | commitHints todo | repoint todo | retire todo => cases todo <;> exact .inr ⟨rfl, List.not_mem_nil⟩
  | remove todo =>
    cases todo with
    | nil => exact .inr ⟨rfl, List.not_mem_nil⟩
    | cons r rest => exact (removeStep_frame r).imp_right fun hsame => ⟨hsame, List.not_mem_nil⟩
  | watermark | recount | sum | total _ => exact .inr ⟨rfl, List.not_mem_nil⟩
  | done | failed _ =>
    refine .inr ⟨rfl, ?_⟩
    dsimp only [drafts]
    rw [hm]
    exact List.not_mem_nil

theorem Tending.drafts_apart (h : Tending K R s (some m)) {x : Bytes × Entry} (hx : x ∈ s.liveEntries) :
    x.2.fileID ∉ m.drafts := by
  cases h with
  | rest _ _ hm =>
    rcases hm m rfl with hdone | ⟨e, hfailed⟩
    · rw [Merge.drafts, hdone]
      exact List.not_mem_nil
    · rw [Merge.drafts, hfailed]
      exact List.not_mem_nil
  | busy hs hz hst h =>
    rename_i s₀
    have he := (lookup_eq_some.mp (mem_liveEntries.mp hx)).1
    have hcopying {n : Merge} {shelves : List Shelf} {todo : List (Bytes × Entry)} (hc : Copying s₀ s n shelves todo) :
        x.2.fileID ∉ n.outs.map Out.id := by
      rw [hc.outIDs]
      refine hc.apart (hs.spread hz) (k := x.1) ?_
      rw [← he, hc.store]
    obtain ⟨hstage, -⟩ := h
    cases hstage with
    | list | snapshot => exact List.not_mem_nil
    | copy _ hc | write _ hc | syncOuts _ hc => exact hcopying (hc.phase _)
    | idle hm | failed _ hm =>
      rw [Merge.drafts, hm]
      exact List.not_mem_nil
    | publish hset hc hcount hm hend =>
      unfold Merge.drafts
      cases hp : m.phase with
      | list _ | snapshot | copy _ | write _ _ _ _ | syncOuts _ =>
        rw [hp] at hm
        cases hm
      | commitHints _ | repoint _ | retire _ | watermark | remove _ | recount | sum | total _ | done | failed _ =>
        exact List.not_mem_nil

/-- The outputs the merge still writes to, if one is running. -/
def draftsOf : Option Merge → List Nat
  | none => []
  | some m => m.drafts

omit [Checksum] in
theorem Placed.sealed_frame (hs : Placed s) {id : Nat} (hid : id ∈ s.dir.data) :
    s.sealActive.1.dir.bytes id = s.dir.bytes id ∧ id ∉ s.sealActive.2.drafts := by
  rcases sealActive_cases hs with ⟨-, d, e, hbytes, -, heq⟩ | ⟨hz, heq⟩ | ⟨d, hbytes, -, -, hnew, heq⟩
  · rw [heq]
    exact ⟨congrFun hbytes id, List.not_mem_nil⟩
  · rw [heq]
    exact ⟨rfl, List.not_mem_nil⟩
  · rw [heq]
    have hne : id ≠ s.nextID := fun h => hnew (h ▸ hid)
    refine ⟨?_, List.not_mem_nil⟩
    exact (congrFun (bytes_fresh {s with dir := d}) id).trans
      ((Function.update_of_ne hne ..).trans (congrFun hbytes id))

/-- **What a merge leaves alone**: a file it does not write to is removed or keeps its bytes. -/
theorem Tending.frame (h : Tending K R s merge) {id : Nat} (hid : id ∈ s.dir.data) (hd : id ∉ draftsOf merge) :
    (s.advance merge).1.dir.bytes id = none ∨
      (s.advance merge).1.dir.bytes id = s.dir.bytes id ∧ id ∉ (s.advance merge).2.drafts := by
  rcases h.advance_cases with ⟨hs, heq⟩ | ⟨s₀, m, rfl, -, -, -, -, heq⟩
  · rw [heq]
    exact .inr (hs.sealed_frame hid)
  · rw [heq]
    exact Merge.step_frame hid hd

end Midway

end Gokv.Engine
