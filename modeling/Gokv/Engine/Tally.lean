import Gokv.Base.Run
import Gokv.Base.Weight
import Gokv.Engine.Refinement

/-! The figure for the bytes on disk, under appends and merges.

An append writes to the active file, records the new size of the file and adds the length to
`total`, in this order and with the write lock held. A merge opens outputs nobody counts,
removes files nobody subtracts, and at its end adds up the sizes of the open files and stores
the sum over `total`, with neither lock held in between. `Traffic` is a store with one append
and one merge under way, and a turn is the next step of either. As long as no file has been
removed, `total` is what the sizes come to without the outputs and without the length the
append is about to add (`Balanced`). The sum may have seen a length that is still to be added,
and additions made after the sum are overwritten; `due` keeps the difference of the two, and
the figure comes out right exactly if nothing is due when the sum is stored
(`balanced_iff`). -/
namespace Gokv.Engine
open Base

/-- Where an append stands that holds the write lock. -/
inductive Writer where
  | idle
  | write (buf : Bytes) (es : List (Bytes × Entry))
  | size (buf : Bytes) (es : List (Bytes × Entry))
  | total (buf : Bytes) (es : List (Bytes × Entry))
  | index (es : List (Bytes × Entry))
  deriving DecidableEq, Repr

structure Traffic where
  store : Store
  writer : Writer
  merge : Option Merge
  /-- What the last sum saw before it was added to `total`, less what has been added since. -/
  due : Int

inductive Turn where
  /-- `writeLocked` takes the lock and makes room in the active file. -/
  | append (recs : List Record)
  | writer
  /-- `Compact` is called. -/
  | compact
  | merge
  deriving DecidableEq, Repr

/-- `Compact` has returned. -/
def Merge.over (m : Merge) : Bool :=
  match m.phase with
  | .done | .failed _ => true
  | _ => false

namespace Traffic

def start (s : Store) : Traffic := ⟨s, .idle, none, 0⟩

/-- The length that is in the size of the active file and not in `total` yet. -/
def inflight (w : Traffic) : Nat :=
  match w.writer with
  | .total buf _ => buf.length
  | _ => 0

section Steps
variable [Checksum]

def append (w : Traffic) (recs : List Record) : Traffic :=
  match w.writer with
  | .idle =>
    let (buf, offs) := Store.writeBuffer [] recs
    match w.store.maybeRotateLocked buf.length with
    | (s, some _) => {w with store := s}
    | (s, none) => {w with store := s, writer := .write buf (Store.writeEntries s.active.id s.active.size recs offs)}
  | _ => w

def writerStep (w : Traffic) : Traffic :=
  let s := w.store
  match w.writer with
  | .idle => w
  | .write buf es =>
    match s.dir.writeAt s.active.id s.active.size buf with
    | .error _ => {w with writer := .idle}
    | .ok dir => {w with store := {s with dir := dir}, writer := .size buf es}
  | .size buf es =>
    let size := s.active.size + buf.length
    {w with store := {s with active := ⟨s.active.id, size⟩,
                             files := s.files.alter s.active.id (Option.map fun _ => size)},
            writer := .total buf es}
  | .total buf es =>
    {w with store := {s with total := s.total + buf.length, dirty := true}, writer := .index es,
            due := w.due - buf.length}
  | .index es =>
    if s.opts.syncMode = .always then
      match s.dir.sync s.active.id with
      | .error _ => {w with writer := .idle}
      | .ok dir => {w with store := ({s with dir := dir, dirty := false} : Store).indexWrite es, writer := .idle}
    else {w with store := s.indexWrite es, writer := .idle}

def compact (w : Traffic) : Traffic :=
  if w.writer = .idle ∧ w.merge.all Merge.over then
    {w with store := w.store.sealActive.1, merge := some w.store.sealActive.2}
  else w

def mergeStep (w : Traffic) : Traffic :=
  match w.merge with
  | none => w
  | some m =>
    -- `allocFileID` waits for the write lock.
    if w.writer ≠ .idle ∧ (Merge.step w.store m).1.nextID ≠ w.store.nextID then w
    else
      {w with store := (Merge.step w.store m).1, merge := some (Merge.step w.store m).2,
              due := if m.phase = .sum then w.inflight else w.due}

def step (w : Traffic) : Turn → Traffic
  | .append recs => w.append recs
  | .writer => w.writerStep
  | .compact => w.compact
  | .merge => w.mergeStep

end Steps

end Traffic

def traffic [Checksum] : Machine Turn Traffic Unit := ⟨fun w t => (w.step t, ())⟩

/-! ### The sizes of the open files -/

section Sizes
variable {s s' : Store}

theorem usage_eq (s : Store) : Merge.usage s = weight (fun _ n => n) s.files := by
  rw [Merge.usage, weight, Nat.cast_list_sum, List.map_map]
  rfl

theorem usage_insert {id n : Nat} (h : id ∉ s.files) (hs : s'.files = s.files.insert id n) :
    Merge.usage s' = Merge.usage s + n := by
  rw [usage_eq, usage_eq, hs, weight_insert_new (Std.ExtTreeMap.getElem?_eq_none h)]
  exact Nat.cast_add ..

theorem usage_resize {id n n' : Nat} (h : s.files[id]? = some n)
    (hs : s'.files = s.files.alter id (Option.map fun _ => n')) : Merge.usage s' + n = Merge.usage s + n' := by
  have halter : s.files.alter id (Option.map fun _ => n') = s.files.insert id n' := by
    refine Std.ExtTreeMap.ext_getElem? fun i => ?_
    rw [Std.ExtTreeMap.getElem?_alter, Std.ExtTreeMap.getElem?_insert]
    by_cases hi : id = i
    · subst hi
      simp [h]
    · simp [hi]
  have := weight_insert (fun _ n => n) s.files id n'
  rw [h] at this
  rw [usage_eq, usage_eq, hs, halter]
  exact_mod_cast this

theorem mem_resize {files : Std.ExtTreeMap Nat Nat compare} {id n i : Nat} :
    i ∈ files.alter id (Option.map fun _ => n) ↔ i ∈ files := by
  rw [Std.ExtTreeMap.mem_iff_isSome_getElem?, Std.ExtTreeMap.mem_iff_isSome_getElem?, Std.ExtTreeMap.getElem?_alter]
  by_cases hi : id = i
  · subst hi
    simp
  · simp [hi]

theorem usage_erase {id n : Nat} (h : s.files[id]? = some n) (hs : s'.files = s.files.erase id) :
    Merge.usage s' + n = Merge.usage s := by
  have := weight_erase (fun _ n => n) s.files id
  rw [h] at this
  rw [usage_eq, usage_eq, hs]
  exact_mod_cast this

end Sizes

/-! ### The books -/

section Books
variable {s s' : Store} {m m' : Merge} {id : Nat} {ids : List Nat} {outs : List Out} {due : Int}
  {inflight : Nat}

/-- The open files are those of the directory, and the active one has its size. -/
structure Listed (s : Store) : Prop where
  files : ∀ id, id ∈ s.files ↔ id ∈ s.dir.data
  active : s.files[s.active.id]? = some s.active.size

/-- Files of a merge, besides the active one. -/
structure Outputs (s : Store) (outs : List Out) : Prop where
  distinct : (outs.map Out.id).Nodup
  sizes : ∀ o ∈ outs, s.files[o.id]? = some o.size
  inactive : ∀ o ∈ outs, o.id ≠ s.active.id

structure Removable (s : Store) (ids : List Nat) : Prop where
  distinct : ids.Nodup
  opened : ∀ id ∈ ids, id ∈ s.files
  inactive : ∀ id ∈ ids, id ≠ s.active.id

/-- The data files a loop of removals has still to come to. -/
def dataIDs (todo : List Removal) : List Nat :=
  todo.filterMap fun
    | .data id => some id
    | .hint _ => none

/-- The files of a merge are open until it removes them, and none of them is active. -/
def Merge.Kept (s : Store) (m : Merge) : Prop :=
  match m.phase with
  | .list _ => m.outs = []
  | .remove todo => Removable s (dataIDs todo)
  | .recount | .sum | .total _ | .done | .failed _ => True
  | _ => Outputs s m.outs ∧ Removable s m.mergeIDs

/-- The bytes in outputs. -/
def outsSize (outs : List Out) : Int := (outs.map fun o => (o.size : Int)).sum

/-- What `total` has to do with the sizes of the files, where a length is in flight. -/
def Merge.Balanced (s : Store) (m : Merge) (due : Int) (inflight : Nat) : Prop :=
  match m.phase with
  | .remove _ | .recount | .sum => True
  | .total n => n - due + inflight = Merge.usage s
  | .done | .failed _ => s.total + inflight = Merge.usage s
  | _ => s.total + inflight + outsSize m.outs = Merge.usage s

/-- Every file but the active one stays, and stays inactive. -/
def Spares (s s' : Store) : Prop :=
  ∀ id, id ∈ s.files → id ≠ s.active.id → s'.files[id]? = s.files[id]? ∧ id ≠ s'.active.id

theorem Outputs.mem (h : Outputs s outs) {o : Out} (ho : o ∈ outs) : o.id ∈ s.files := by
  rw [Std.ExtTreeMap.mem_iff_isSome_getElem?, h.sizes o ho]
  rfl

theorem Outputs.spares (h : Outputs s outs) (hs : Spares s s') : Outputs s' outs where
  distinct := h.distinct
  sizes o ho := (hs _ (h.mem ho) (h.inactive o ho)).1.trans (h.sizes o ho)
  inactive o ho := (hs _ (h.mem ho) (h.inactive o ho)).2

theorem Removable.spares (h : Removable s ids) (hs : Spares s s') : Removable s' ids where
  distinct := h.distinct
  opened id hid := by
    rw [Std.ExtTreeMap.mem_iff_isSome_getElem?, (hs id (h.opened id hid) (h.inactive id hid)).1,
      ← Std.ExtTreeMap.mem_iff_isSome_getElem?]
    exact h.opened id hid
  inactive id hid := (hs id (h.opened id hid) (h.inactive id hid)).2

theorem Merge.Kept.spares (h : m.Kept s) (hs : Spares s s') : m.Kept s' := by
  unfold Merge.Kept at h ⊢
  split at h
  case h_1 => exact h
  case h_2 => exact Removable.spares h hs
  case h_8 => exact ⟨h.1.spares hs, h.2.spares hs⟩
  all_goals trivial

/-- A store with the same open files. -/
structure SameFiles (s s' : Store) : Prop where
  files : s'.files = s.files
  active : s'.active = s.active
  data : ∀ id, id ∈ s'.dir.data ↔ id ∈ s.dir.data

theorem SameFiles.listed (h : SameFiles s s') (hl : Listed s) : Listed s' :=
  ⟨fun id => by rw [h.files, h.data, hl.files], by rw [h.files, h.active, hl.active]⟩

theorem SameFiles.spares (h : SameFiles s s') : Spares s s' := fun id _ hne => ⟨by rw [h.files], h.active ▸ hne⟩

theorem SameFiles.usage (h : SameFiles s s') : Merge.usage s' = Merge.usage s := by
    rw [Merge.usage, Merge.usage, h.files]

/-- A fresh file is opened, of size 0. -/
structure Opened (s s' : Store) (id : Nat) : Prop where
  fresh : id ∉ s.dir.data
  files : s'.files = s.files.insert id 0
  data : ∀ i, i ∈ s'.dir.data ↔ i = id ∨ i ∈ s.dir.data

theorem Opened.usage (h : Opened s s' id) (hl : Listed s) : Merge.usage s' = Merge.usage s := by
  rw [usage_insert (fun hm => h.fresh ((hl.files id).mp hm)) h.files]
  exact Int.add_zero _

theorem Opened.mem (h : Opened s s' id) (hl : Listed s) (i : Nat) : i ∈ s'.files ↔ i ∈ s'.dir.data := by
  rw [h.files, h.data, Std.ExtTreeMap.mem_insert, hl.files, compare_eq_iff_eq, eq_comm]

theorem Opened.getElem? (h : Opened s s' id) {i : Nat} (hi : i ≠ id) : s'.files[i]? = s.files[i]? := by
  rw [h.files, Std.ExtTreeMap.getElem?_insert, if_neg (by simpa using hi.symm)]

theorem Opened.ne (h : Opened s s' id) (hl : Listed s) {i : Nat} (hi : i ∈ s.files) : i ≠ id := fun heq =>
  h.fresh ((hl.files id).mp (heq ▸ hi))

theorem Opened.listed (h : Opened s s' id) (hl : Listed s) (ha : s'.active = s.active) : Listed s' := by
  refine ⟨h.mem hl, ?_⟩
  have hmem : s.active.id ∈ s.files := by
    rw [Std.ExtTreeMap.mem_iff_isSome_getElem?, hl.active]
    rfl
  rw [ha, h.getElem? (h.ne hl hmem), hl.active]

/-- The fresh file becomes the active one. -/
theorem Opened.activated (h : Opened s s' id) (hl : Listed s) (ha : s'.active = ⟨id, 0⟩) : Listed s' ∧ Spares s s' := by
  refine ⟨⟨h.mem hl, ?_⟩, fun i hi _ => ⟨h.getElem? (h.ne hl hi), ?_⟩⟩
  · rw [ha, h.files]
    exact Std.ExtTreeMap.getElem?_insert_self
  · rw [ha]
    exact h.ne hl hi

/-- What the holder of the write lock leaves to a merge, with nothing added to any file. -/
structure Unfilled (s s' : Store) : Prop where
  listed : Listed s'
  spares : Spares s s'
  total : s'.total = s.total
  usage : Merge.usage s' = Merge.usage s

theorem SameFiles.unfilled (h : SameFiles s s') (hl : Listed s) (ht : s'.total = s.total) : Unfilled s s' :=
  ⟨h.listed hl, h.spares, ht, h.usage⟩

theorem sync_data {d d' : Dir} (h : d.sync id = .ok d') (i : Nat) : i ∈ d'.data ↔ i ∈ d.data := by
  unfold Dir.sync at h
  split at h
  · cases h
  · rename_i f hf
    cases h
    rw [Std.ExtTreeMap.mem_insert, compare_eq_iff_eq]
    refine or_iff_right_of_imp ?_
    rintro rfl
    rw [Std.ExtTreeMap.mem_iff_isSome_getElem?, hf]
    rfl

theorem writeAt_data {d d' : Dir} {off : Nat} {buf : Bytes} (h : d.writeAt id off buf = .ok d') (i : Nat) :
    i ∈ d'.data ↔ i ∈ d.data := by
  unfold Dir.writeAt at h
  split at h
  · cases h
  · rename_i f hf
    cases h
    rw [Std.ExtTreeMap.mem_insert, compare_eq_iff_eq]
    refine or_iff_right_of_imp ?_
    rintro rfl
    rw [Std.ExtTreeMap.mem_iff_isSome_getElem?, hf]
    rfl

theorem create_data {d d' : Dir} (h : d.create id = .ok d') :
    id ∉ d.data ∧ ∀ i, i ∈ d'.data ↔ i = id ∨ i ∈ d.data := by
  unfold Dir.create at h
  split at h
  · cases h
  · rename_i hfresh
    cases h
    refine ⟨hfresh, fun i => ?_⟩
    rw [Std.ExtTreeMap.mem_insert, compare_eq_iff_eq, eq_comm]

theorem openNewActive_unfilled (hl : Listed s) : Unfilled s s.openNewActive.1 := by
  unfold Store.openNewActive
  split
  · exact ⟨hl, fun _ _ hne => ⟨rfl, hne⟩, rfl, rfl⟩
  · rename_i dir hd
    obtain ⟨hfresh, hdata⟩ := create_data hd
    have ho (t : Store) (hf : t.files = s.files.insert s.nextID 0) (hdir : t.dir = dir) : Opened s t s.nextID :=
      ⟨hfresh, hf, hdir ▸ hdata⟩
    exact ⟨((ho _ rfl rfl).activated hl rfl).1, ((ho _ rfl rfl).activated hl rfl).2, rfl, (ho _ rfl rfl).usage hl⟩

/-- Fields the books do not have may change in front of it and behind it. -/
theorem Unfilled.around {d : Dir} {t : Store} (h : Unfilled {s with dir := d} t) (hs : SameFiles t s')
    (ht : s'.total = t.total) : Unfilled s s' where
  listed := hs.listed h.listed
  spares i hi hne := by
    obtain ⟨h1, h2⟩ := h.spares i hi hne
    exact ⟨by rw [hs.files, h1], hs.active ▸ h2⟩
  total := ht.trans h.total
  usage := hs.usage.trans h.usage

theorem maybeRotate_unfilled (hl : Listed s) (n : Nat) : Unfilled s (s.maybeRotateLocked n).1 := by
  have hrefl : Unfilled s s := ⟨hl, fun _ _ hne => ⟨rfl, hne⟩, rfl, rfl⟩
  unfold Store.maybeRotateLocked
  split
  · exact hrefl
  · split
    · exact hrefl
    · rename_i d hd
      have hopen := openNewActive_unfilled (s := {s with dir := d})
        ⟨fun i => (hl.files i).trans (sync_data hd i).symm, hl.active⟩
      split
      · rename_i t _ heq
        rw [heq] at hopen
        exact hopen.around ⟨rfl, rfl, fun _ => Iff.rfl⟩ rfl
      · rename_i t heq
        rw [heq] at hopen
        exact hopen.around ⟨rfl, rfl, fun _ => Iff.rfl⟩ rfl

theorem sealActive_unfilled (hl : Listed s) : Unfilled s s.sealActive.1 := by
  have hrefl : Unfilled s s := ⟨hl, fun _ _ hne => ⟨rfl, hne⟩, rfl, rfl⟩
  unfold Store.sealActive
  split
  · exact hrefl
  · split
    · exact hrefl
    · split
      · exact hrefl
      · rename_i d hd
        have hopen := openNewActive_unfilled (s := {s with dir := d})
          ⟨fun i => (hl.files i).trans (sync_data hd i).symm, hl.active⟩
        split
        · rename_i t _ heq
          rw [heq] at hopen
          exact hopen.around ⟨rfl, rfl, fun _ => Iff.rfl⟩ rfl
        · rename_i t heq
          rw [heq] at hopen
          exact hopen.around ⟨rfl, rfl, fun _ => Iff.rfl⟩ rfl

/-! ### The steps of a merge -/

theorem outsSize_append (outs outs' : List Out) : outsSize (outs ++ outs') = outsSize outs + outsSize outs' := by
  simp [outsSize]

theorem Listed.dropped (h : Listed s) (hne : id ≠ s.active.id) : Listed (s.dropped id) := by
  refine ⟨fun i => ?_, ?_⟩
  · show i ∈ s.files.erase id ↔ i ∈ s.dir.data.erase id
    rw [Std.ExtTreeMap.mem_erase, Std.ExtTreeMap.mem_erase, h.files]
  · show (s.files.erase id)[s.active.id]? = _
    rw [Std.ExtTreeMap.getElem?_erase, if_neg (by simpa using hne), h.active]
    rfl

theorem dropped_ne {i : Nat} (hi : i ≠ id) : (s.dropped id).files[i]? = s.files[i]? := by
  show (s.files.erase id)[i]? = _
  rw [Std.ExtTreeMap.getElem?_erase, if_neg (by simpa using hi.symm)]

/-- **Abandoning a merge** takes its outputs off the books. -/
theorem Outputs.dropped (ho : Outputs s outs) (hl : Listed s) :
    Listed ((outs.map Out.id).foldl Store.dropped s) ∧ ((outs.map Out.id).foldl Store.dropped s).total = s.total ∧
      Merge.usage ((outs.map Out.id).foldl Store.dropped s) + outsSize outs = Merge.usage s := by
  induction outs generalizing s with
  | nil => exact ⟨hl, rfl, Int.add_zero _⟩
  | cons o rest ih =>
    obtain ⟨hnot, hnodup⟩ := List.nodup_cons.mp ho.distinct
    have ho' : Outputs (s.dropped o.id) rest := by
      refine ⟨hnodup, fun p hp => ?_, fun p hp => ho.inactive p (List.mem_cons_of_mem _ hp)⟩
      have hne : p.id ≠ o.id := fun heq => hnot (heq ▸ List.mem_map_of_mem hp)
      rw [dropped_ne hne]
      exact ho.sizes p (List.mem_cons_of_mem _ hp)
    obtain ⟨h1, h2, h3⟩ := ih ho' (hl.dropped (ho.inactive o (List.mem_cons_self ..)))
    have hu : Merge.usage (s.dropped o.id) + o.size = Merge.usage s :=
      usage_erase (ho.sizes o (List.mem_cons_self ..)) rfl
    refine ⟨h1, h2, ?_⟩
    have hcons : outsSize (o :: rest) = o.size + outsSize rest := outsSize_append [o] rest
    rw [hcons, List.map_cons, List.foldl_cons]
    omega

/-- The merge has a set of files to merge, and has not begun to remove them. -/
def Phase.merging : Phase → Bool
  | .list _ | .remove _ | .recount | .sum | .total _ | .done | .failed _ => false
  | _ => true

theorem kept_merging (hp : m.phase.merging = true) : m.Kept s ↔ Outputs s m.outs ∧ Removable s m.mergeIDs := by
  unfold Merge.Kept
  cases h : m.phase <;> first | rfl | (rw [h] at hp; cases hp)

theorem balanced_merging (hp : m.phase.merging = true) :
    m.Balanced s due inflight ↔ s.total + inflight + outsSize m.outs = Merge.usage s := by
  unfold Merge.Balanced
  cases h : m.phase <;> first | rfl | (rw [h] at hp; cases hp)

/-- What a step of such a merge can do to the files. -/
inductive Handles (s : Store) (m : Merge) : Store → Merge → Prop
  | stays {s' : Store} {m' : Merge} (same : SameFiles s s') (total : s'.total = s.total) (outs : m'.outs = m.outs)
      (ids : m'.mergeIDs = m.mergeIDs) (phase : m'.phase.merging = true) : Handles s m s' m'
  | opens {s' : Store} {m' : Merge} {id : Nat} {hint : Bytes} (opened : Opened s s' id) (active : s'.active = s.active)
      (total : s'.total = s.total) (outs : m'.outs = m.outs ++ [⟨id, 0, hint⟩])
      (ids : m'.mergeIDs = m.mergeIDs) (phase : m'.phase.merging = true) : Handles s m s' m'
  | writes {s' : Store} {m' : Merge} {init : List Out} {o : Out} {n : Nat} {hint : Bytes} (last : m.outs = init ++ [o])
      (files : s'.files = s.files.alter o.id (Option.map fun _ => o.size + n))
      (data : ∀ id, id ∈ s'.dir.data ↔ id ∈ s.dir.data) (active : s'.active = s.active)
      (total : s'.total = s.total) (outs : m'.outs = init ++ [⟨o.id, o.size + n, hint⟩])
      (ids : m'.mergeIDs = m.mergeIDs) (phase : m'.phase.merging = true) : Handles s m s' m'
  | abandons {t : Store} {m' : Merge} {e : Error} (same : SameFiles s t) (total : t.total = s.total)
      (phase : m'.phase = .failed e) : Handles s m ((m.outs.map Out.id).foldl Store.dropped t) m'
  | removes {s' : Store} {m' : Merge} (same : SameFiles s s') (phase : m'.phase = .remove (Merge.removals m.mergeIDs)) :
      Handles s m s' m'

theorem SameFiles.refl (s : Store) : SameFiles s s := ⟨rfl, rfl, fun _ => Iff.rfl⟩

theorem SameFiles.cleanup {t : Store} (same : SameFiles s t) (total : t.total = s.total) (e : Error) :
    Handles s m (Merge.cleanup t m e).1 (Merge.cleanup t m e).2 := by
  have heq : (Merge.cleanup t m e).1 = (m.outs.map Out.id).foldl Store.dropped t := by
    rw [List.foldl_map]
    rfl
  rw [heq]
  exact .abandons same total rfl

theorem Outputs.opened {hint : Bytes} (h : Outputs s outs) (hl : Listed s) (ho : Opened s s' id)
    (ha : s'.active = s.active) : Outputs s' (outs ++ [⟨id, 0, hint⟩]) := by
  have hne {o : Out} (hmem : o ∈ outs) : o.id ≠ id := ho.ne hl (h.mem hmem)
  have hact : id ≠ s.active.id := by
    have hmem : s.active.id ∈ s.files := by
      rw [Std.ExtTreeMap.mem_iff_isSome_getElem?, hl.active]
      rfl
    exact (ho.ne hl hmem).symm
  refine ⟨?_, fun o hmem => ?_, fun o hmem => ?_⟩
  · rw [List.map_append, List.nodup_append]
    refine ⟨h.distinct, List.nodup_singleton _, fun i hi j hj heq => ?_⟩
    obtain ⟨o, hmem, rfl⟩ := List.mem_map.mp hi
    rw [List.mem_singleton.mp hj] at heq
    exact hne hmem heq
  · rcases List.mem_append.mp hmem with hmem | hmem
    · rw [ho.getElem? (hne hmem), h.sizes o hmem]
    · rw [List.mem_singleton.mp hmem, ho.files]
      exact Std.ExtTreeMap.getElem?_insert_self
  · rw [ha]
    rcases List.mem_append.mp hmem with hmem | hmem
    · exact h.inactive o hmem
    · rw [List.mem_singleton.mp hmem]
      exact hact

theorem Outputs.grown {init : List Out} {o : Out} {n : Nat} {hint : Bytes} (h : Outputs s (init ++ [o]))
    (hf : s'.files = s.files.alter o.id (Option.map fun _ => o.size + n)) (ha : s'.active = s.active) :
    Outputs s' (init ++ [⟨o.id, o.size + n, hint⟩]) := by
  have hmem : o ∈ init ++ [o] := List.mem_append_right _ (List.mem_singleton_self o)
  have hids : (init ++ [(⟨o.id, o.size + n, hint⟩ : Out)]).map Out.id = (init ++ [o]).map Out.id := by simp
  have hnodup := h.distinct
  refine ⟨hids ▸ hnodup, fun p hp => ?_, fun p hp => ?_⟩
  · rcases List.mem_append.mp hp with hp | hp
    · have hne : ¬ o.id = p.id := fun heq => by
        rw [List.map_append, List.nodup_append] at hnodup
        exact hnodup.2.2 _ (List.mem_map_of_mem hp) _ (List.mem_singleton_self _) heq.symm
      rw [hf, Std.ExtTreeMap.getElem?_alter, if_neg (by simpa using hne)]
      exact h.sizes p (List.mem_append_left _ hp)
    · rw [List.mem_singleton.mp hp, hf, Std.ExtTreeMap.getElem?_alter_self, h.sizes o hmem]
      rfl
  · rw [ha]
    rcases List.mem_append.mp hp with hp | hp
    · exact h.inactive p (List.mem_append_left _ hp)
    · rw [List.mem_singleton.mp hp]
      exact h.inactive o hmem

theorem Removable.of_mem (h : Removable s ids) (hf : ∀ id, id ∈ s.files → id ∈ s'.files) (ha : s'.active = s.active) :
    Removable s' ids :=
  ⟨h.distinct, fun i hi => hf i (h.opened i hi), fun i hi => ha ▸ h.inactive i hi⟩

theorem dataIDs_removals (ids : List Nat) : dataIDs (Merge.removals ids) = ids := by
  induction ids with
  | nil => rfl
  | cons id rest ih =>
    show id :: dataIDs (Merge.removals rest) = _
    rw [ih]

theorem Handles.keeps (h : Handles s m s' m') (hp : m.phase.merging = true) (hl : Listed s) (hk : m.Kept s) :
    Listed s' ∧ m'.Kept s' ∧ (m.Balanced s due inflight → m'.Balanced s' due inflight) := by
  obtain ⟨houts, hrem⟩ := (kept_merging hp).mp hk
  rw [balanced_merging hp]
  cases h with
  | stays same total outs ids phase =>
    refine ⟨same.listed hl, (kept_merging phase).mpr ?_, fun hbal => (balanced_merging phase).mpr ?_⟩
    · rw [outs, ids]
      exact ⟨houts.spares same.spares, hrem.spares same.spares⟩
    · rw [outs, total, same.usage]
      exact hbal
  | opens opened active total outs ids phase =>
    refine ⟨opened.listed hl active, (kept_merging phase).mpr ?_, fun hbal => (balanced_merging phase).mpr ?_⟩
    · rw [outs, ids]
      refine ⟨houts.opened hl opened active, hrem.of_mem (fun i hi => ?_) active⟩
      rw [opened.files, Std.ExtTreeMap.mem_insert]
      exact .inr hi
    · rw [outs, total, opened.usage hl, outsSize_append]
      exact (congrArg _ (Int.add_zero _)).trans hbal
  | @writes _ _ init o n hint last files data active total outs ids phase =>
    rw [last] at houts ⊢
    have hmem (i : Nat) : i ∈ s'.files ↔ i ∈ s.files := by
      rw [files]
      exact mem_resize
    refine ⟨⟨fun i => by rw [hmem, data, hl.files], ?_⟩, (kept_merging phase).mpr ?_,
      fun hbal => (balanced_merging phase).mpr ?_⟩
    · have hne := houts.inactive o (List.mem_append_right _ (List.mem_singleton_self o))
      rw [active, files, Std.ExtTreeMap.getElem?_alter, if_neg (by simpa using hne), hl.active]
    · rw [outs, ids]
      exact ⟨houts.grown files active, hrem.of_mem (fun i hi => (hmem i).mpr hi) active⟩
    · have hu := usage_resize (houts.sizes o (List.mem_append_right _ (List.mem_singleton_self o))) files
      have hsum : outsSize (init ++ [⟨o.id, o.size + n, hint⟩]) = outsSize (init ++ [o]) + n := by
        rw [outsSize_append, outsSize_append]
        simp only [outsSize, List.map_cons, List.map_nil, List.sum_cons, List.sum_nil, Nat.cast_add]
        omega
      rw [outs, hsum, total]
      omega
  | abandons same total phase =>
    obtain ⟨hl', htotal, husage⟩ := (houts.spares same.spares).dropped (same.listed hl)
    refine ⟨hl', ?_, fun hbal => ?_⟩
    · rw [Merge.Kept, phase]
      trivial
    · rw [Merge.Balanced, phase]
      show _ + _ = _
      rw [htotal, total]
      rw [same.usage] at husage
      omega
  | removes same phase =>
    refine ⟨same.listed hl, ?_, fun _ => ?_⟩
    · rw [Merge.Kept, phase]
      show Removable _ _
      rw [dataIDs_removals]
      exact hrem.spares same.spares
    · rw [Merge.Balanced, phase]
      trivial

section Steps
variable [Checksum]

theorem copyStep_handles (it : Item) (rest : List Item) :
    Handles s m (Merge.copyStep s m it rest).1 (Merge.copyStep s m it rest).2 := by
  unfold Merge.copyStep
  split
  · exact .stays (.refl s) rfl rfl rfl rfl
  · split
    · exact (SameFiles.refl s).cleanup rfl _
    · split
      · exact (SameFiles.refl s).cleanup rfl _
      · simp only [Merge.newOut]
        split
        · cases hd : s.dir.create s.nextID with
          | error e =>
            have hsame : SameFiles s {s with nextID := Store.succID s.nextID} := ⟨rfl, rfl, fun _ => Iff.rfl⟩
            exact hsame.cleanup rfl e
          | ok dir =>
            obtain ⟨hfresh, hdata⟩ := create_data hd
            exact .opens ⟨hfresh, rfl, hdata⟩ rfl rfl rfl rfl rfl
        · exact .stays (.refl s) rfl rfl rfl rfl

omit [Checksum] in
theorem writeStep_handles (it : Item) (rec : Record) (buf : Bytes) (rest : List Item) :
    Handles s m (Merge.writeStep s m it rec buf rest).1 (Merge.writeStep s m it rec buf rest).2 := by
  unfold Merge.writeStep
  split
  · exact .stays (.refl s) rfl rfl rfl rfl
  · rename_i o ho
    obtain ⟨init, houts⟩ := List.getLast?_eq_some_iff.mp ho
    split
    · exact (SameFiles.refl s).cleanup rfl _
    · rename_i dir hd
      have hdrop (p : Out) : m.outs.dropLast ++ [p] = init ++ [p] := by rw [houts, List.dropLast_concat]
      exact .writes houts rfl (writeAt_data hd) rfl rfl (hdrop _) rfl rfl

theorem Merge.step_handles (hp : m.phase.merging = true) : Handles s m (Merge.step s m).1 (Merge.step s m).2 := by
  unfold Merge.step
  cases h : m.phase with
  | snapshot => exact .stays (.refl s) rfl rfl rfl rfl
  | copy todo =>
    cases todo with
    | nil => exact .stays (.refl s) rfl rfl rfl rfl
    | cons it rest => exact copyStep_handles it rest
  | write it rec buf rest => exact writeStep_handles it rec buf rest
  | syncOuts todo =>
    cases todo with
    | nil => exact .stays (.refl s) rfl rfl rfl rfl
    | cons o rest =>
      cases hd : s.dir.sync o.id with
      | error e =>
        simp only [hd]
        exact (SameFiles.refl s).cleanup rfl _
      | ok dir =>
        simp only [hd]
        exact .stays ⟨rfl, rfl, sync_data hd⟩ rfl rfl rfl rfl
  | commitHints todo => cases todo <;> exact .stays ⟨rfl, rfl, fun _ => Iff.rfl⟩ rfl rfl rfl rfl
  | repoint todo => cases todo <;> exact .stays ⟨rfl, rfl, fun _ => Iff.rfl⟩ rfl rfl rfl rfl
  | retire todo => cases todo <;> exact .stays ⟨rfl, rfl, fun _ => Iff.rfl⟩ rfl rfl rfl rfl
  | watermark => exact .removes ⟨rfl, rfl, fun _ => Iff.rfl⟩ rfl
  | list _ | remove _ | recount | sum | total _ | done | failed _ => rw [h] at hp; cases hp

/-- **A step of a merge**: the books balance unless a sum is stored with something due. -/
theorem Merge.Kept.step (hk : m.Kept s) (hl : Listed s) (hlist : ∀ a, m.phase = .list a → a = s.active.id)
    (due : Int) (inflight : Nat) :
    Listed (Merge.step s m).1 ∧ (Merge.step s m).2.Kept (Merge.step s m).1 ∧
      (m.Balanced s due inflight → ((∀ n, m.phase = .total n → due = 0) ↔
        (Merge.step s m).2.Balanced (Merge.step s m).1 (if m.phase = .sum then inflight else due) inflight)) := by
  by_cases hp : m.phase.merging = true
  · obtain ⟨hl', hk', hbal'⟩ := (Merge.step_handles hp).keeps hp hl hk
    have hsum : m.phase ≠ .sum := fun heq => by
      rw [heq] at hp
      cases hp
    refine ⟨hl', hk', fun hbal => iff_of_true (fun n hn => ?_) (if_neg hsum ▸ hbal' hbal)⟩
    rw [hn] at hp
    cases hp
  have hk₀ := hk
  unfold Merge.Kept at hk
  cases hphase : m.phase with
  | list a =>
    rw [hphase] at hk
    have hnone : outsSize m.outs = 0 := by
      rw [show m.outs = [] from hk]
      rfl
    have hset : Removable s (s.files.keys.filter (· ≠ a)) := by
      refine ⟨s.files.nodup_keys.filter _, fun i hi => ?_, fun i hi => ?_⟩
      · exact Std.ExtTreeMap.mem_keys.mp (List.mem_of_mem_filter hi)
      · rw [← hlist a hphase]
        simpa using (List.mem_filter.mp hi).2
    have houts : Outputs s m.outs := by
      rw [show m.outs = [] from hk]
      exact ⟨List.nodup_nil, fun _ ho => absurd ho List.not_mem_nil, fun _ ho => absurd ho List.not_mem_nil⟩
    simp only [Merge.step, hphase, Merge.listStep]
    refine ⟨hl, ?_, fun hbal => iff_of_true (fun _ hn => by cases hn) ?_⟩
    · split
      · trivial
      · exact ⟨houts, hset⟩
    · unfold Merge.Balanced at hbal
      rw [hphase] at hbal
      have hbal : s.total + inflight + outsSize m.outs = Merge.usage s := hbal
      split
      · show s.total + inflight = Merge.usage s
        omega
      · exact hbal
  | remove todo =>
    rw [hphase] at hk
    have hk : Removable s (dataIDs todo) := hk
    cases todo with
    | nil =>
      simp only [Merge.step, hphase]
      exact ⟨hl, trivial, fun _ => iff_of_true (fun _ hn => by cases hn) trivial⟩
    | cons r rest =>
      cases r with
      | data id =>
        obtain ⟨hnot, hnodup⟩ := List.nodup_cons.mp (show (id :: dataIDs rest).Nodup from hk.distinct)
        have hmem : id ∈ s.files := hk.opened id (List.mem_cons_self ..)
        simp only [Merge.step, hphase, Merge.removeStep, if_pos hmem]
        refine ⟨hl.dropped (hk.inactive id (List.mem_cons_self ..)), ⟨hnodup, fun i hi => ?_, fun i hi => ?_⟩,
          fun _ => iff_of_true (fun _ hn => by cases hn) trivial⟩
        · show i ∈ s.files.erase id
          rw [Std.ExtTreeMap.mem_erase]
          exact ⟨by simpa using fun heq : id = i => hnot (heq ▸ hi), hk.opened i (List.mem_cons_of_mem _ hi)⟩
        · exact hk.inactive i (List.mem_cons_of_mem _ hi)
      | hint id =>
        simp only [Merge.step, hphase, Merge.removeStep]
        have hsame : SameFiles s {s with dir := s.dir.removeHint id} := ⟨rfl, rfl, fun _ => Iff.rfl⟩
        exact ⟨hsame.listed hl, (show Removable _ (dataIDs rest) from Removable.spares hk hsame.spares),
          fun _ => iff_of_true (fun _ hn => by cases hn) trivial⟩
  | recount =>
    simp only [Merge.step, hphase]
    exact ⟨⟨hl.files, hl.active⟩, trivial, fun _ => iff_of_true (fun _ hn => by cases hn) trivial⟩
  | sum =>
    simp only [Merge.step, hphase]
    refine ⟨hl, trivial, fun _ => iff_of_true (fun _ hn => by cases hn) ?_⟩
    show Merge.usage s - (inflight : Int) + inflight = Merge.usage s
    omega
  | total n =>
    simp only [Merge.step, hphase]
    refine ⟨⟨hl.files, hl.active⟩, trivial, fun hbal => ?_⟩
    unfold Merge.Balanced at hbal
    rw [hphase] at hbal
    have hbal : n - due + inflight = Merge.usage s := hbal
    show _ ↔ n + (inflight : Int) = Merge.usage s
    constructor
    · intro hdue
      have := hdue n rfl
      omega
    · intro hn _ _
      omega
  | done =>
    simp only [Merge.step, hphase]
    exact ⟨hl, hk₀, fun hbal => iff_of_true (fun _ hn => by cases hn) hbal⟩
  | failed e =>
    simp only [Merge.step, hphase]
    exact ⟨hl, hk₀, fun hbal => iff_of_true (fun _ hn => by cases hn) hbal⟩
  | snapshot | copy _ | write _ _ _ _ | syncOuts _ | commitHints _ | repoint _ | retire _ | watermark =>
    rw [hphase] at hp
    exact absurd rfl hp

end Steps

end Books

/-! ### Appends and merges -/

namespace Traffic

/-- `total` says what the sizes of the files come to, but for what is in flight. -/
def Balanced (w : Traffic) : Prop :=
  match w.merge with
  | none => w.store.total + w.inflight = Merge.usage w.store
  | some m => m.Balanced w.store w.due w.inflight

/-- What the books rest on. -/
structure Kept (w : Traffic) : Prop where
  listed : Listed w.store
  merge : ∀ m, w.merge = some m → m.Kept w.store

/-- No operation is under way. -/
def idle (w : Traffic) : Bool := w.writer = .idle && w.merge.all Merge.over

end Traffic

/-- The next step of the merge lists files, and another one is active than at the seal. -/
def Merge.unsealed (s : Store) (m : Merge) : Bool :=
  match m.phase with
  | .list a => a ≠ s.active.id
  | _ => false

/-- The next step of the merge stores a sum. -/
def Merge.storing (m : Merge) : Bool :=
  match m.phase with
  | .total _ => true
  | _ => false

/-- A merge lists its files with the file active that was active at the seal. -/
def SealStands (w : Traffic) (t : Turn) : Prop := t = .merge → w.merge.any (Merge.unsealed w.store) = false

instance (w : Traffic) (t : Turn) : Decidable (SealStands w t) := inferInstanceAs (Decidable (_ → _))

/-- A sum is stored with nothing due. -/
def SumStands (w : Traffic) (t : Turn) : Prop := t = .merge → w.merge.any Merge.storing = true → w.due = 0

instance (w : Traffic) (t : Turn) : Decidable (SumStands w t) := inferInstanceAs (Decidable (_ → _ → _))

section Turns
variable {w w' : Traffic} {s s' : Store} {m : Merge}

theorem Merge.Balanced.mono {due due' : Int} {inflight inflight' : Nat} (h : m.Balanced s due inflight)
    (htotal : s'.total + inflight' - Merge.usage s' = s.total + inflight - Merge.usage s)
    (hdue : - due' + inflight' - Merge.usage s' = - due + inflight - Merge.usage s) :
    m.Balanced s' due' inflight' := by
  unfold Merge.Balanced at h ⊢
  split at h
  case h_4 =>
    show _ - due' + _ = _
    omega
  case h_5 | h_6 =>
    show _ + _ = _
    omega
  case h_7 =>
    show _ + _ + _ = _
    omega
  all_goals trivial

/-- A turn of the holder of the write lock. -/
theorem Traffic.Balanced.mono (h : w.Balanced) (hm : w'.merge = w.merge)
    (htotal : w'.store.total + w'.inflight - Merge.usage w'.store = w.store.total + w.inflight - Merge.usage w.store)
    (hdue : - w'.due + w'.inflight - Merge.usage w'.store = - w.due + w.inflight - Merge.usage w.store) :
    w'.Balanced := by
  unfold Traffic.Balanced at h ⊢
  rw [hm]
  cases hw : w.merge with
  | none =>
    rw [hw] at h
    show _ + _ = _
    have h : w.store.total + w.inflight = Merge.usage w.store := h
    omega
  | some m =>
    rw [hw] at h
    exact Merge.Balanced.mono h htotal hdue

theorem Traffic.Kept.mono (h : w.Kept) (hm : w'.merge = w.merge) (hl : Listed w'.store) (hs : Spares w.store w'.store) :
    w'.Kept :=
  ⟨hl, fun m hmem => (h.merge m (hm ▸ hmem)).spares hs⟩

theorem Traffic.Kept.unfilled (h : w.Kept) (hm : w'.merge = w.merge) (hu : Unfilled w.store w'.store)
    (hi : w'.inflight = w.inflight) (hd : w'.due = w.due) : w'.Kept ∧ (w.Balanced → w'.Balanced) := by
  refine ⟨h.mono hm hu.listed hu.spares, fun hb => hb.mono hm ?_ ?_⟩
  · rw [hu.total, hu.usage, hi]
  · rw [hu.usage, hi, hd]

theorem indexWrite_books (s : Store) (es : List (Bytes × Entry)) :
    (s.indexWrite es).files = s.files ∧ (s.indexWrite es).active = s.active ∧ (s.indexWrite es).dir = s.dir ∧
      (s.indexWrite es).total = s.total := by
  have hone (s : Store) (k : Bytes) (e : Entry) : (s.indexApplyLocked k e).files = s.files ∧
      (s.indexApplyLocked k e).active = s.active ∧ (s.indexApplyLocked k e).dir = s.dir ∧
      (s.indexApplyLocked k e).total = s.total := by
    unfold Store.indexApplyLocked
    repeat' split
    all_goals exact ⟨rfl, rfl, rfl, rfl⟩
  induction es generalizing s with
  | nil => exact ⟨rfl, rfl, rfl, rfl⟩
  | cons x rest ih =>
    obtain ⟨h1, h2, h3, h4⟩ := ih (s.indexApplyLocked x.1 x.2)
    obtain ⟨g1, g2, g3, g4⟩ := hone s x.1 x.2
    exact ⟨h1.trans g1, h2.trans g2, h3.trans g3, h4.trans g4⟩

theorem indexWrite_unfilled (hl : Listed s) (es : List (Bytes × Entry)) : Unfilled s (s.indexWrite es) := by
  obtain ⟨hf, ha, hd, ht⟩ := indexWrite_books s es
  have hsame : SameFiles s (s.indexWrite es) := ⟨hf, ha, fun _ => by rw [hd]⟩
  exact hsame.unfilled hl ht

variable [Checksum]

theorem Traffic.Kept.append (h : w.Kept) (recs : List Record) :
    (w.append recs).Kept ∧ (w.Balanced → (w.append recs).Balanced) := by
  unfold Traffic.append
  cases hw : w.writer with
  | idle =>
    have hi : w.inflight = 0 := by rw [Traffic.inflight, hw]
    have hu := maybeRotate_unfilled h.listed (Store.writeBuffer [] recs).1.length
    simp only
    split
    · rename_i t _ heq
      rw [heq] at hu
      exact h.unfilled rfl hu (by simp only [Traffic.inflight, hw]) rfl
    · rename_i t heq
      rw [heq] at hu
      exact h.unfilled rfl hu (by rw [hi]; rfl) rfl
  | write _ _ | size _ _ | total _ _ | index _ => exact ⟨h, id⟩

omit [Checksum] in
theorem Traffic.Kept.writerStep (h : w.Kept) : w.writerStep.Kept ∧ (w.Balanced → w.writerStep.Balanced) := by
  have hzero {x : Traffic} (hx : ∀ buf es, x.writer ≠ .total buf es) : x.inflight = 0 := by
    unfold Traffic.inflight
    split
    · rename_i buf es heq
      exact absurd heq (hx buf es)
    · rfl
  unfold Traffic.writerStep
  cases hw : w.writer with
  | idle => exact ⟨h, id⟩
  | write buf es =>
    have hi : w.inflight = 0 := hzero fun _ _ => by rw [hw]; exact nofun
    cases hd : w.store.dir.writeAt w.store.active.id w.store.active.size buf with
    | error e =>
      simp only [hd]
      exact h.unfilled rfl ⟨h.listed, fun _ _ hne => ⟨rfl, hne⟩, rfl, rfl⟩ (by rw [hi]; rfl) rfl
    | ok dir =>
      simp only [hd]
      have hsame : SameFiles w.store {w.store with dir := dir} := ⟨rfl, rfl, writeAt_data hd⟩
      exact h.unfilled rfl (hsame.unfilled h.listed rfl) (by rw [hi]; rfl) rfl
  | size buf es =>
    have hi : w.inflight = 0 := hzero fun _ _ => by rw [hw]; exact nofun
    simp only
    have hact := h.listed.active
    have hu (t : Store) (ht : t.files = w.store.files.alter w.store.active.id
        (Option.map fun _ => w.store.active.size + buf.length)) : Merge.usage t = Merge.usage w.store + buf.length := by
      have := usage_resize hact ht
      omega
    refine ⟨h.mono rfl ⟨fun i => mem_resize.trans (h.listed.files i), ?_⟩ fun i _ hne => ⟨?_, hne⟩, fun hb => ?_⟩
    · show (w.store.files.alter w.store.active.id _)[w.store.active.id]? = _
      rw [Std.ExtTreeMap.getElem?_alter_self, hact]
      rfl
    · show (w.store.files.alter w.store.active.id _)[i]? = _
      rw [Std.ExtTreeMap.getElem?_alter, if_neg (by simpa using hne.symm)]
    · refine hb.mono rfl ?_ ?_
      · rw [hu _ rfl, hi]
        show w.store.total + (buf.length : Int) - (_ + _) = _
        omega
      · rw [hu _ rfl, hi]
        show - w.due + (buf.length : Int) - (_ + _) = _
        omega
  | total buf es =>
    have hi : w.inflight = buf.length := by rw [Traffic.inflight, hw]
    simp only
    refine ⟨h.mono rfl ⟨h.listed.files, h.listed.active⟩ fun i _ hne => ⟨rfl, hne⟩, fun hb => hb.mono rfl ?_ ?_⟩
    · rw [hi]
      show w.store.total + (buf.length : Int) + 0 - Merge.usage w.store = _
      omega
    · rw [hi]
      show - (w.due - (buf.length : Int)) + 0 - Merge.usage w.store = _
      omega
  | index es =>
    have hi : w.inflight = 0 := hzero fun _ _ => by rw [hw]; exact nofun
    simp only
    split
    · cases hd : w.store.dir.sync w.store.active.id with
      | error e =>
        simp only
        exact h.unfilled rfl ⟨h.listed, fun _ _ hne => ⟨rfl, hne⟩, rfl, rfl⟩ (by rw [hi]; rfl) rfl
      | ok dir =>
        simp only
        have hl : Listed {w.store with dir := dir} :=
          ⟨fun i => (h.listed.files i).trans (sync_data hd i).symm, h.listed.active⟩
        have hu := (indexWrite_unfilled (s := {w.store with dir := dir, dirty := false}) ⟨hl.files, hl.active⟩ es)
        exact h.unfilled rfl ⟨hu.listed, hu.spares, hu.total, hu.usage⟩ (by rw [hi]; rfl) rfl
    · exact h.unfilled rfl (indexWrite_unfilled h.listed es) (by rw [hi]; rfl) rfl

omit [Checksum] in
theorem sealActive_phase (s : Store) :
    s.sealActive.2.outs = [] ∧ ((∃ e, s.sealActive.2.phase = .failed e) ∨ ∃ a, s.sealActive.2.phase = .list a) := by
  unfold Store.sealActive
  repeat' split
  all_goals first | exact ⟨rfl, .inl ⟨_, rfl⟩⟩ | exact ⟨rfl, .inr ⟨_, rfl⟩⟩

omit [Checksum] in
theorem Merge.Balanced.settled {due : Int} {inflight : Nat} (h : m.Balanced s due inflight) (hover : m.over = true) :
    s.total + inflight = Merge.usage s := by
  unfold Merge.over at hover
  unfold Merge.Balanced at h
  split at hover
  · rename_i hp
    rw [hp] at h
    exact h
  · rename_i hp
    rw [hp] at h
    exact h
  · cases hover

omit [Checksum] in
theorem Traffic.Balanced.settled (h : w.Balanced) (hover : w.merge.all Merge.over = true) :
    w.store.total + w.inflight = Merge.usage w.store := by
  unfold Traffic.Balanced at h
  cases hm : w.merge with
  | none =>
    rw [hm] at h
    exact h
  | some m =>
    rw [hm] at h hover
    exact Merge.Balanced.settled h hover

omit [Checksum] in
theorem Traffic.Balanced.total_eq (h : w.Balanced) (hidle : w.idle = true) : w.store.total = Merge.usage w.store := by
  rw [Traffic.idle, Bool.and_eq_true, decide_eq_true_eq] at hidle
  have hzero : w.inflight = 0 := by rw [Traffic.inflight, hidle.1]
  have := h.settled hidle.2
  rwa [hzero, Nat.cast_zero, Int.add_zero] at this

omit [Checksum] in
theorem Traffic.Kept.compact (h : w.Kept) : w.compact.Kept ∧ (w.Balanced → w.compact.Balanced) := by
  unfold Traffic.compact
  split
  · rename_i hidle
    have hu := sealActive_unfilled h.listed
    obtain ⟨houts, hphase⟩ := sealActive_phase w.store
    refine ⟨⟨hu.listed, ?_⟩, fun hb => ?_⟩
    · intro m hm
      cases Option.some.inj hm
      unfold Merge.Kept
      rcases hphase with ⟨e, he⟩ | ⟨a, ha⟩
      · rw [he]
        trivial
      · rw [ha]
        exact houts
    · have hold := hb.settled hidle.2
      unfold Traffic.Balanced
      show Merge.Balanced _ _ _ _
      unfold Merge.Balanced
      have hnew : w.store.sealActive.1.total + w.inflight = Merge.usage w.store.sealActive.1 := by
        rw [hu.total, hu.usage]
        exact hold
      rcases hphase with ⟨e, he⟩ | ⟨a, ha⟩
      · rw [he]
        exact hnew
      · rw [ha, houts]
        exact (Int.add_zero _).trans hnew
  · exact ⟨h, id⟩

/-- **One turn**: the files stay on the books, and the books balance unless a sum is stored
with something due. -/
theorem Traffic.Kept.step (h : w.Kept) (t : Turn) (hseal : SealStands w t) :
    (w.step t).Kept ∧ (w.Balanced → (SumStands w t ↔ (w.step t).Balanced)) := by
  have hother (hne : t ≠ .merge) {w' : Traffic} (hw' : w'.Kept ∧ (w.Balanced → w'.Balanced)) :
      w'.Kept ∧ (w.Balanced → (SumStands w t ↔ w'.Balanced)) :=
    ⟨hw'.1, fun hb => iff_of_true (fun heq => absurd heq hne) (hw'.2 hb)⟩
  cases t with
  | append recs => exact hother nofun (h.append recs)
  | writer => exact hother nofun h.writerStep
  | compact => exact hother nofun h.compact
  | merge =>
    show w.mergeStep.Kept ∧ (w.Balanced → (SumStands w .merge ↔ w.mergeStep.Balanced))
    unfold Traffic.mergeStep
    cases hm : w.merge with
    | none => exact ⟨h, fun hb => iff_of_true (fun _ hm' => by rw [hm] at hm'; cases hm') hb⟩
    | some m =>
      have hrule : SumStands w .merge ↔ ∀ n, m.phase = .total n → w.due = 0 := by
        have hstore : m.storing = true ↔ ∃ n, m.phase = .total n := by
          unfold Merge.storing
          split
          · rename_i n hp
            exact iff_of_true rfl ⟨n, hp⟩
          · rename_i hp
            exact iff_of_false nofun fun ⟨n, hn⟩ => hp n hn
        rw [SumStands, hm, show (some m).any Merge.storing = m.storing from rfl, hstore]
        exact ⟨fun hs n hn => hs rfl ⟨n, hn⟩, fun hs _ ⟨n, hn⟩ => hs n hn⟩
      have hact (a : Nat) (ha : m.phase = .list a) : a = w.store.active.id := by
        have := hseal rfl
        rw [hm] at this
        have : m.unsealed w.store = false := this
        rw [Merge.unsealed, ha] at this
        simpa using this
      obtain ⟨hl, hk, hbal⟩ := (h.merge m hm).step h.listed hact w.due w.inflight
      simp only
      split
      · -- The step waits for the write lock, so it is none that stores a sum.
        rename_i hwait
        refine ⟨h, fun hb => iff_of_true (hrule.mpr fun n hn => absurd ?_ hwait.2) hb⟩
        simp only [Merge.step, hn]
      · refine ⟨⟨hl, fun m' hm' => Option.some.inj hm' ▸ hk⟩, fun hb => hrule.trans (hbal ?_)⟩
        unfold Traffic.Balanced at hb
        rw [hm] at hb
        exact hb

/-- **When the figure drifts.** Take any interleaving of appends and merges that starts with
the figure right and in which no merge lists its files with another file active than the one
at its seal. The books balance in every state of the run exactly if every sum is stored with
nothing due; and then, whenever no operation is under way, `total` is the sum of the sizes of
the open files. -/
theorem balanced_iff (hl : Listed s) (ht : s.total = Merge.usage s) (turns : List Turn)
    (hseal : traffic.Meets SealStands (.start s) turns) :
    (traffic.Meets SumStands (.start s) turns ↔ ∀ ts, ts <+: turns → (traffic.run (.start s) ts).1.Balanced) ∧
      (traffic.Meets SumStands (.start s) turns → ∀ ts, ts <+: turns → (traffic.run (.start s) ts).1.idle = true →
        (traffic.run (.start s) ts).1.store.total = Merge.usage (traffic.run (.start s) ts).1.store) := by
  have hkept : (Traffic.start s).Kept := ⟨hl, fun _ hm => nomatch hm⟩
  have hbal : (Traffic.start s).Balanced := by
    show s.total + ((0 : Nat) : Int) = _
    rw [ht]
    exact Int.add_zero _
  have hiff := hseal.iff_always (I := Traffic.Kept) (P := Traffic.Balanced)
    (fun w t hw hs => (hw.step t hs).1) (fun w t hw hs => (hw.step t hs).2) hkept hbal
  refine ⟨hiff, fun hsum ts hts hidle => ?_⟩
  exact (hiff.mp hsum ts hts).total_eq hidle

/-! ### Whole operations -/

/-- The turns of an append put together are `writeLocked`. -/
theorem append_whole (s : Store) (recs : List Record) :
    (traffic.run (.start s) [.append recs, .writer, .writer, .writer, .writer]).1.store = (s.writeLocked recs).1 := by
  simp only [Machine.run, traffic, Traffic.step, Traffic.append, Traffic.start, Store.writeLocked, Store.logWrite]
  cases hrot : s.maybeRotateLocked (Store.writeBuffer [] recs).1.length with
  | mk t err =>
    cases err with
    | some e => rfl
    | none =>
      cases hd : t.dir.writeAt t.active.id t.active.size (Store.writeBuffer [] recs).1 with
      | error e => simp only [Traffic.writerStep, hd]
      | ok dir =>
        simp only [Traffic.writerStep, hd]
        by_cases hsync : t.opts.syncMode = .always
        · simp only [hsync, if_true]
          cases dir.sync t.active.id with
          | error e => rfl
          | ok dir' => rfl
        · simp only [hsync, if_false]

theorem merges_whole (n : Nat) (hw : w.writer = .idle) (hm : w.merge = some m) :
    (traffic.run w (List.replicate n .merge)).1.store = (Merge.run n w.store m).1 := by
  induction n generalizing w m with
  | zero => rfl
  | succ n ih =>
    have hstep : (w.step .merge).writer = .idle ∧ (w.step .merge).merge = some (Merge.step w.store m).2 ∧
        (w.step .merge).store = (Merge.step w.store m).1 := by
      simp [Traffic.step, Traffic.mergeStep, hm, hw]
    rw [List.replicate_succ]
    show (traffic.run (w.step .merge) _).1.store = _
    rw [ih hstep.1 hstep.2.1, hstep.2.2]
    rfl

/-- And those of a merge with nothing in between are `Compact`. -/
theorem compact_whole (s : Store) :
    (traffic.run (.start s) (.compact :: List.replicate s.compactFuel .merge)).1.store = s.compact.1 := by
  have hw : (traffic.run (.start s) (.compact :: List.replicate s.compactFuel .merge)).1 =
      (traffic.run ⟨s.sealActive.1, .idle, some s.sealActive.2, 0⟩ (List.replicate s.compactFuel .merge)).1 := rfl
  rw [hw, merges_whole _ rfl rfl, Store.compact]
  show (Merge.run s.compactFuel s.sealActive.1 s.sealActive.2).1 = _
  cases Merge.run s.compactFuel s.sealActive.1 s.sealActive.2 with
  | mk t m => cases hp : m.phase <;> simp only [hp]

end Turns

theorem listed_init (opts : Options) : Listed (Store.init opts) := by
  refine ⟨fun id => ?_, rfl⟩
  show id ∈ (∅ : Std.ExtTreeMap Nat Nat compare).insert 0 0 ↔
    id ∈ (∅ : Std.ExtTreeMap Nat DiskFile compare).insert 0 ⟨[], 0⟩
  rw [Std.ExtTreeMap.mem_insert, Std.ExtTreeMap.mem_insert]
  simp

/-- The turns of one append. -/
def appendTurns (recs : List Record) : List Turn := [.append recs, .writer, .writer, .writer, .writer]

/-- A record is appended, and a merge of its file is about to add up the sizes. -/
def toTheSum : List Turn :=
  appendTurns [⟨0, 1, 0, [1], [7]⟩] ++ .compact :: List.replicate 17 .merge

/-- The sum sees an append whose length is added before the sum is stored. -/
theorem balanced_iff_overtaken :
    let w := (traffic.run (.start (Store.init ⟨0, .never⟩)) (toTheSum ++
      [.append [⟨0, 2, 0, [2], [8]⟩], .writer, .writer, .merge, .writer, .merge, .writer])).1
    Merge.usage w.store = 62 ∧ w.store.total = Merge.usage w.store :=
  ⟨by decide +kernel, (balanced_iff (listed_init ⟨0, .never⟩) (by decide +kernel) _ (by decide +kernel)).2
    (by decide +kernel) _ (List.prefix_refl _) (by decide +kernel)⟩

/-- An append between the sum and its store is not in the figure any more; one that the sum has
seen and that adds its length behind the store is in it twice. -/
theorem total_drifts :
    let lost := (traffic.run (.start (Store.init ⟨0, .never⟩)) (toTheSum ++ .merge ::
      appendTurns [⟨0, 2, 0, [2], [8]⟩] ++ [.merge])).1
    let twice := (traffic.run (.start (Store.init ⟨0, .never⟩)) (toTheSum ++
      [.append [⟨0, 2, 0, [2], [8]⟩], .writer, .writer, .merge, .merge, .writer, .writer])).1
    (lost.idle = true ∧ lost.store.total = 31 ∧ Merge.usage lost.store = 62) ∧
      twice.idle = true ∧ twice.store.total = 93 ∧ Merge.usage twice.store = 62 := by
  decide +kernel

end Gokv.Engine
