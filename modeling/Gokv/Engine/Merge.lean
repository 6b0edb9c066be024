import Gokv.Engine.Compact
import Gokv.Engine.Local

/-! The invariant of a running merge.

`MergeInv` says what holds at each step of `Compact`, with any write in flight.
Until the index is repointed, the merge set is as it was and everything on disk is
covered; the outputs only hold copies of what the snapshot found. Sequence numbers
split the disk: the merge set is at or below the barrier, and whatever is neither
in it nor an output is above it, so once the tombstones of the merge set are
forgotten nothing outside it is left for them to shadow. From there on the files
of the merge set need no cover (`Merge.gone`), and when they are removed the full
invariant is back. `MergeInv.step` is the step lemma; a step never moves the live
map. -/
namespace Gokv.Engine
open Base

section Merge
variable [Checksum]

/-- The files that need no cover any more. -/
def Merge.gone (m : Merge) : List Nat :=
  match m.phase with
  | .retire _ => m.mergeIDs
  | .watermark => m.mergeIDs
  | .remove _ => m.mergeIDs
  | _ => []

/-- An output holds whole records outside any batch, and its hint lists them. -/
def OutOk (s : Store) (o : Out) : Prop :=
  ∃ b, s.dir.bytes o.id = some b ∧ b.length = o.size ∧ Intact b ∧ (∀ r ∈ records b, r.batch = false) ∧
    o.hint = buildHint o.id b

/-- What holds from the listing on. -/
structure Merging (ρ : Reading) (s : Store) (pend : Pending) (m : Merge) : Prop where
  inv : Inv ρ s pend m.gone
  active : s.active.id ∉ m.mergeIDs
  ids : ∀ id ∈ m.mergeIDs, id < s.nextID
  pendIDs : ∀ x ∈ pend, x.1.fileID ∉ m.mergeIDs
  barrier : m.barrier ≤ s.seq
  old : ∀ i r, Holds ρ s.dir.bytes i r → i ∈ m.mergeIDs → r.seq ≤ m.barrier
  new : ∀ i r, Holds ρ s.dir.bytes i r → i ∉ m.mergeIDs → i ∉ m.outs.map Out.id → m.barrier < r.seq
  outs : ∀ o ∈ m.outs, OutOk s o
  outIDs : ∀ o ∈ m.outs, o.id ∉ m.mergeIDs ∧ o.id ≠ s.active.id ∧ o.id < s.nextID ∧ o.id ∉ s.hinting
  distinct : (m.outs.map Out.id).Nodup
  /-- Outputs hold copies of moved records. -/
  content : ∀ o ∈ m.outs, ∀ r, Holds ρ s.dir.bytes o.id r →
    r.tombstone = false ∧ ∃ x ∈ m.moved, x.1.key = r.key
  moved : ∀ x ∈ m.moved, ∃ r, Located ρ s.dir.bytes x.1.key x.2 r ∧ r.seq = x.1.entry.seq ∧
    x.1.entry.fileID ∈ m.mergeIDs ∧ x.2.fileID ∈ m.outs.map Out.id
  retired : ∀ it ∈ m.retired, it.entry.tomb = true ∧ it.entry.fileID ∈ m.mergeIDs
  apart : ∀ x ∈ m.moved, ∀ it ∈ m.retired, x.1.key ≠ it.key
  above : ∀ i b, s.dir.bytes i = some b → s.active.id < i → i ∈ m.mergeIDs ∨ i ∈ m.outs.map Out.id

/-- The items the copy loop is to move, against the index and the disk. -/
structure Snapped (ρ : Reading) (s : Store) (ids : List Nat) (retired items : List Item) : Prop where
  indexed : ∀ (k : Bytes) (e : Entry), s.keys[k]? = some e → e.fileID ∈ ids →
    ⟨k, e⟩ ∈ items ∨ ⟨k, e⟩ ∈ retired
  live : ∀ it ∈ items, it.entry.fileID ∈ ids ∧
    ∃ r, Located ρ s.dir.bytes it.key it.entry r ∧ r.tombstone = false
  apart : ∀ it ∈ items, ∀ jt ∈ retired, it.key ≠ jt.key

/-- Hints are renamed into place only after the copy loop. -/
def NoHints (s : Store) (m : Merge) : Prop := ∀ o ∈ m.outs, o.id ∉ s.dir.hints

/-- The outputs have their hints. -/
def Hinted (s : Store) (m : Merge) : Prop := ∀ o ∈ m.outs, o.id ∈ s.dir.hints

/-- No locator of the index leads into the merge set. -/
def Left (s : Store) (m : Merge) : Prop :=
  ∀ (k : Bytes) (e : Entry), s.keys[k]? = some e → e.fileID ∉ m.mergeIDs

/-- The merge set is gone, and the outputs stand in for it. -/
def Removed (s : Store) (m : Merge) : Prop := Hinted s m ∧ ∀ id ∈ m.mergeIDs, s.dir.bytes id = none

/-- What holds at each phase besides. -/
def PhaseOk (ρ : Reading) (s : Store) (m : Merge) : Phase → Prop
  | .list _ => False
  | .snapshot => m.outs = [] ∧ m.moved = [] ∧ m.retired = []
  | .copy todo => Snapped ρ s m.mergeIDs m.retired (m.moved.map Prod.fst ++ todo) ∧ NoHints s m
  | .write it rec buf todo => Snapped ρ s m.mergeIDs m.retired (m.moved.map Prod.fst ++ it :: todo) ∧ NoHints s m ∧
      Located ρ s.dir.bytes it.key it.entry rec ∧ buf = rec.lifted.encode ∧
      ∃ o ∈ m.outs.getLast?, o.size = 0 ∨ o.size + buf.length ≤ s.opts.limit
  | .syncOuts todo => Snapped ρ s m.mergeIDs m.retired (m.moved.map Prod.fst) ∧ NoHints s m ∧ ∀ o ∈ todo, o ∈ m.outs
  | .commitHints todo => Snapped ρ s m.mergeIDs m.retired (m.moved.map Prod.fst) ∧ (∀ o ∈ todo, o ∈ m.outs) ∧
      ∀ o ∈ m.outs, o ∈ todo ∨ o.id ∈ s.dir.hints
  | .repoint todo => Hinted s m ∧ (∀ x ∈ todo, x ∈ m.moved) ∧ ∀ (k : Bytes) (e : Entry), s.keys[k]? = some e →
      e.fileID ∈ m.mergeIDs → ⟨k, e⟩ ∈ todo.map Prod.fst ∨ ⟨k, e⟩ ∈ m.retired
  | .retire todo => Hinted s m ∧ (∀ it ∈ todo, it ∈ m.retired) ∧ ∀ (k : Bytes) (e : Entry), s.keys[k]? = some e →
      e.fileID ∈ m.mergeIDs → ⟨k, e⟩ ∈ todo
  | .watermark => Hinted s m ∧ Left s m
  | .remove todo => Hinted s m ∧ Left s m ∧ (∀ id, .data id ∈ todo ∨ .hint id ∈ todo → id ∈ m.mergeIDs) ∧
      ∀ id ∈ m.mergeIDs, .data id ∈ todo ∨ s.dir.bytes id = none
  | .recount => Removed s m
  | .sum => Removed s m
  | .total _ => Removed s m
  | .done => Removed s m
  | .failed _ => False

/-- Between the seal and the listing. `a` is the file that was active at the seal; as
long as it is active still, it holds exactly what came after the barrier. -/
structure Listing (ρ : Reading) (s : Store) (pend : Pending) (m : Merge) (a : Nat) : Prop where
  inv : Inv ρ s pend []
  barrier : m.barrier ≤ s.seq
  fresh : m = .start (.list a) m.barrier
  lt : a < s.nextID
  pendIDs : ∀ x ∈ pend, x.1.fileID = s.active.id
  old : s.active.id = a → ∀ i r, Holds ρ s.dir.bytes i r → i ≠ a → r.seq ≤ m.barrier
  new : s.active.id = a → ∀ r, Holds ρ s.dir.bytes a r → m.barrier < r.seq

def MergeInv (ρ : Reading) (s : Store) (pend : Pending) (m : Merge) : Prop :=
  (∃ a, Listing ρ s pend m a) ∨ Merging ρ s pend m ∧ PhaseOk ρ s m m.phase

/-- Every live key of one index has the version in the other. -/
def KeepsLive (ks ks' : Index) : Prop := ∀ (k : Bytes) (e : Entry), ks[k]? = some e → e.tomb = false →
  ∃ e', ks'[k]? = some e' ∧ e'.seq = e.seq ∧ e'.tomb = false

omit [Checksum] in
theorem KeepsLive.refl (ks : Index) : KeepsLive ks ks := fun _ e he ht => ⟨e, he, rfl, ht⟩

omit [Checksum] in
theorem KeepsLive.trans {ks₁ ks₂ ks₃ : Index} (h : KeepsLive ks₁ ks₂) (h' : KeepsLive ks₂ ks₃) :
    KeepsLive ks₁ ks₃ := by
  intro k e he ht
  obtain ⟨e₁, he₁, hs₁, ht₁⟩ := h k e he ht
  obtain ⟨e₂, he₂, hs₂, ht₂⟩ := h' k e₁ he₁ ht₁
  exact ⟨e₂, he₂, hs₂.trans hs₁, ht₂⟩

/-- What no step of a merge changes. -/
structure Unmoved (ρ : Reading) (s s' : Store) : Prop where
  seq : s'.seq = s.seq
  active : s'.active = s.active
  opts : s'.opts = s.opts
  hinting : s'.hinting = s.hinting
  nextID : s.nextID ≤ s'.nextID
  liveMap : s'.liveMap = s.liveMap
  activeData : s'.dir.data[s.active.id]? = s.dir.data[s.active.id]?
  /-- A live key keeps its version. -/
  kept : KeepsLive s.keys s'.keys
  /-- Everything on disk was there, or is a copy of a value that was. -/
  back : ∀ i r, Holds ρ s'.dir.bytes i r → Holds ρ s.dir.bytes i r ∨ r.tombstone = false ∧
    ∃ j r₀, Holds ρ s.dir.bytes j r₀ ∧ r₀.key = r.key ∧ r₀.seq = r.seq ∧ r₀.payload = r.payload

/-- What a step leaves to those that hold locators of their own. -/
structure Stepped (ρ : Reading) (s s' : Store) : Prop extends Unmoved ρ s s' where
  located : ∀ k e r, Located ρ s.dir.bytes k e r →
    Located ρ s'.dir.bytes k e r ∨ s'.dir.bytes e.fileID = none
  absent : ∀ i, i < s.nextID → s.dir.bytes i = none → s'.dir.bytes i = none

variable {ρ : Reading} {s s' : Store} {pend : Pending} {m : Merge}

/-! ### Steps that leave the store alone -/

theorem Unmoved.refl (s : Store) : Unmoved ρ s s :=
  ⟨rfl, rfl, rfl, rfl, le_rfl, rfl, rfl, .refl _, fun _ _ h => .inl h⟩

theorem Unmoved.trans {s₁ s₂ s₃ : Store} (h : Unmoved ρ s₁ s₂) (h' : Unmoved ρ s₂ s₃) :
    Unmoved ρ s₁ s₃ where
  seq := h'.seq.trans h.seq
  active := h'.active.trans h.active
  opts := h'.opts.trans h.opts
  hinting := h'.hinting.trans h.hinting
  nextID := h.nextID.trans h'.nextID
  liveMap := h'.liveMap.trans h.liveMap
  activeData := by
    have := h'.activeData
    rw [h.active] at this
    exact this.trans h.activeData
  kept := h.kept.trans h'.kept
  back i r hr := by
    rcases h'.back i r hr with hr | ⟨ht, j, r₀, hr₀, hk, hs, hp⟩
    · exact h.back i r hr
    · rcases h.back j r₀ hr₀ with hr₀ | ⟨_, i', r₁, hr₁, hk', hs', hp'⟩
      · exact .inr ⟨ht, j, r₀, hr₀, hk, hs, hp⟩
      · exact .inr ⟨ht, i', r₁, hr₁, hk'.trans hk, hs'.trans hs, hp'.trans hp⟩

theorem Unmoved.bounded (h : Unmoved ρ s s') (hb : Bounded ρ s) : Bounded ρ s' := by
  intro i r hr
  rw [h.seq]
  rcases h.back i r hr with hr | ⟨_, j, r₀, hr₀, _, hseq, _⟩
  · exact hb i r hr
  · exact hseq ▸ hb j r₀ hr₀

theorem Stepped.refl (s : Store) : Stepped ρ s s :=
  ⟨.refl s, fun _ _ _ h => .inl h, fun _ _ h => h⟩

/-- A step that changes neither the bytes on disk nor the index. -/
theorem Stepped.of_same (h : Mounted ρ s pend) (hs : Same s s') (hseq : s'.seq = s.seq)
    (hact : s'.active = s.active) (hopts : s'.opts = s.opts)
    (hdata : s'.dir.data[s.active.id]? = s.dir.data[s.active.id]?) : Stepped ρ s s' where
  seq := hseq
  active := hact
  opts := hopts
  hinting := hs.hinting
  nextID := hs.nextID.ge
  liveMap := h.liveMap_same hs
  activeData := hdata
  kept := hs.keys ▸ .refl _
  back _ _ hr := .inl (hs.bytes ▸ hr)
  located _ _ _ hr := .inl (hs.bytes ▸ hr)
  absent _ _ hi := hs.bytes ▸ hi

theorem Inv.weaken {gone gone' : List Nat} (h : Inv ρ s pend gone) (hsub : ∀ id ∈ gone, id ∈ gone') :
    Inv ρ s pend gone' :=
  {h with covers := fun id r hr hid => h.covers id r hr fun hg => hid (hsub id hg) }

theorem Merging.withPhase (h : Merging ρ s pend m) (p : Phase)
    (hinv : Inv ρ s pend ({m with phase := p} : Merge).gone) : Merging ρ s pend {m with phase := p} :=
  ⟨hinv, h.active, h.ids, h.pendIDs, h.barrier, h.old, h.new, h.outs, h.outIDs, h.distinct, h.content,
    h.moved, h.retired, h.apart, h.above⟩

/-! ### The listing and the snapshot -/

theorem Listing.step {a : Nat} (h : Listing ρ s pend m a) (ha : s.active.id = a) :
    MergeInv ρ (Merge.listStep s m a).1 pend (Merge.listStep s m a).2 := by
  obtain ⟨hinv, hbar, hm, hlt, hpend, hold, hnew⟩ := h
  rw [hm]
  refine .inr ⟨⟨?_, ?_, fun id hid => ?_, fun x hx => ?_, hbar, fun i r hr hi => ?_,
    fun i r hr hi _ => ?_, fun o ho => absurd ho List.not_mem_nil, fun o ho => absurd ho List.not_mem_nil,
    List.nodup_nil, fun o ho => absurd ho List.not_mem_nil, fun x hx => absurd hx List.not_mem_nil,
    fun it hit => absurd hit List.not_mem_nil, fun x hx => absurd hx List.not_mem_nil,
    fun i b hb hi => .inl ?_⟩, ?_⟩
  · refine hinv.weaken fun id hid => absurd hid List.not_mem_nil
  · simp [Merge.listStep, ha]
  · simp only [Merge.listStep, List.mem_filter, Std.ExtTreeMap.mem_keys] at hid
    obtain ⟨b, hb⟩ := hinv.mem_files.mp hid.1
    exact hinv.fresh id b hb
  · simp [Merge.listStep, hpend x hx, ha]
  · refine hold ha i r hr ?_
    simp only [Merge.listStep, List.mem_filter] at hi
    simpa using hi.2
  · obtain ⟨b, hb, _⟩ := id hr
    have : i = a := by
      by_contra hne
      exact hi (by simp [Merge.listStep, Std.ExtTreeMap.mem_keys, hinv.mem_files.mpr ⟨b, hb⟩, hne])
    subst this
    exact hnew ha r hr
  · have hne : i ≠ a := ha ▸ (show s.active.id < i from hi).ne'
    simp [Merge.listStep, Std.ExtTreeMap.mem_keys, hinv.mem_files.mpr ⟨b, hb⟩, hne]
  · simp only [Merge.listStep, Merge.start]
    split
    · rename_i hnil
      refine ⟨fun o ho => absurd ho List.not_mem_nil, fun id hid => ?_⟩
      have hid : id ∈ s.files.keys.filter (· ≠ a) := hid
      rw [hnil] at hid
      cases hid
    · exact ⟨rfl, rfl, rfl⟩

omit [Checksum] in
theorem mem_inMerge {ids : List Nat} {it : Item} :
    it ∈ Merge.inMerge s ids ↔ s.keys[it.key]? = some it.entry ∧ it.entry.fileID ∈ ids := by
  simp only [Merge.inMerge, List.mem_map, List.mem_filter, decide_eq_true_eq]
  constructor
  · rintro ⟨⟨k, e⟩, ⟨hmem, hid⟩, rfl⟩
    exact ⟨Std.ExtTreeMap.mem_toList_iff_getElem?_eq_some.mp hmem, hid⟩
  · rintro ⟨hk, hid⟩
    exact ⟨(it.key, it.entry), ⟨Std.ExtTreeMap.mem_toList_iff_getElem?_eq_some.mpr hk, hid⟩, rfl⟩

theorem Merging.snapshot (h : Merging ρ s pend m) (hm : PhaseOk ρ s m .snapshot) (hp : m.phase = .snapshot) :
    MergeInv ρ (Merge.snapshotStep s m).1 pend (Merge.snapshotStep s m).2 := by
  obtain ⟨houts, hmoved, _⟩ := hm
  have hinv : Inv ρ s pend [] := by
    have := h.inv
    rwa [Merge.gone, hp] at this
  refine .inr ⟨⟨hinv, h.active, h.ids, h.pendIDs, h.barrier, h.old, h.new, h.outs, h.outIDs, h.distinct,
    h.content, h.moved, fun it hit => ?_, fun x hx => ?_, h.above⟩, ⟨fun k e he hid => ?_, fun it hit => ?_,
    fun it hit jt hjt heq => ?_⟩, fun o ho => ?_⟩
  · obtain ⟨hit, ht⟩ := List.mem_filter.mp hit
    exact ⟨ht, (mem_inMerge.mp hit).2⟩
  · have hx : x ∈ m.moved := hx
    rw [hmoved] at hx
    cases hx
  · have hmem : (⟨k, e⟩ : Item) ∈ Merge.inMerge s m.mergeIDs := mem_inMerge.mpr ⟨he, hid⟩
    cases ht : e.tomb with
    | true => exact .inr (List.mem_filter.mpr ⟨hmem, ht⟩)
    | false => exact .inl (List.mem_append_right _ (List.mem_filter.mpr ⟨hmem, by simp [ht]⟩))
  · simp only [Merge.snapshotStep, hmoved, List.map_nil, List.nil_append, List.mem_filter] at hit
    obtain ⟨hk, hid⟩ := mem_inMerge.mp hit.1
    obtain ⟨r, hr⟩ := hinv.located _ _ hk
    exact ⟨hid, r, hr, hr.tomb.trans (by simpa using hit.2)⟩
  · -- One entry per key: a snapshot cannot find it alive and dead.
    simp only [Merge.snapshotStep, hmoved, List.map_nil, List.nil_append, List.mem_filter] at hit hjt
    have h1 := (mem_inMerge.mp hit.1).1
    have h2 := (mem_inMerge.mp hjt.1).1
    rw [heq, h2] at h1
    have ht := hit.2
    rw [← Option.some.inj h1, hjt.2] at ht
    cases ht
  · have ho : o ∈ m.outs := ho
    rw [houts] at ho
    cases ho

/-! ### A fresh output -/

theorem OutOk.of_eq {o : Out} (h : OutOk s o) (hb : s'.dir.bytes o.id = s.dir.bytes o.id) : OutOk s' o := by
  rwa [OutOk, hb]

theorem Wf.active_ne_nextID (h : Wf ρ s pend) : s.active.id ≠ s.nextID := by
  obtain ⟨b, hb, _⟩ := h.active
  exact (h.fresh _ b hb).ne

theorem holds_created (h : Mounted ρ s pend) {i : Nat} {r : Record} :
    Holds ρ s.created.dir.bytes i r ↔ Holds ρ s.dir.bytes i r := by
  rw [bytes_created, holds_create h.notMem_nextID]

theorem Inv.created {gone : List Nat} (h : Inv ρ s pend gone) : Inv ρ s.created pend gone where
  toMounted := h.toMounted.created
  active := by
    obtain ⟨b, hb, hrest⟩ := h.active
    refine ⟨b, ?_, hrest⟩
    rw [bytes_created]
    exact (Function.update_of_ne h.active_ne_nextID ..).trans hb
  noHint := h.noHint
  covers id r hr hid := h.covers id r ((holds_created h.toMounted).mp hr) hid
  agree i j r r' hr hr' :=
    h.agree i j r r' ((holds_created h.toMounted).mp hr) ((holds_created h.toMounted).mp hr')

theorem Stepped.created (h : Wf ρ s pend) : Stepped ρ s s.created where
  seq := rfl
  active := rfl
  opts := rfl
  hinting := rfl
  nextID := Nat.le_succ _
  liveMap := h.toMounted.liveMap_eq rfl fun _ _ _ hr _ =>
    bytes_created s ▸ hr.create h.notMem_nextID
  activeData := by
    show (s.dir.data.insert s.nextID ⟨[], 0⟩)[s.active.id]? = _
    simp [Std.ExtTreeMap.getElem?_insert, h.active_ne_nextID.symm]
  kept := .refl _
  back _ _ hr := .inl ((holds_created h.toMounted).mp hr)
  located _ _ _ hr := .inl (bytes_created s ▸ hr.create h.notMem_nextID)
  absent i hi hb := by
    rw [bytes_created, Function.update_of_ne hi.ne]
    exact hb

/-- The merge with a fresh output. -/
def Merge.withOut (m : Merge) (id : Nat) : Merge := {m with outs := m.outs ++ [⟨id, 0, hintMagic⟩]}

theorem newOut_eq (h : Mounted ρ s pend) (hid : s.nextID + 1 < 2 ^ 32) :
    Merge.newOut s m = (s.created, .ok (m.withOut s.nextID)) := by
  have := h.create_ok
  simp only [Merge.newOut, this, succID_eq hid, Merge.withOut, Store.created]

theorem Merging.withOut (h : Merging ρ s pend m) :
    Merging ρ s.created pend (m.withOut s.nextID) := by
  have hb := bytes_created s
  have hholds {i : Nat} {r : Record} := holds_created (i := i) (r := r) h.inv.toMounted
  have hids : (m.withOut s.nextID).outs.map Out.id = m.outs.map Out.id ++ [s.nextID] := by
    simp [Merge.withOut]
  have hsplit {o : Out} (ho : o ∈ (m.withOut s.nextID).outs) :
      o ∈ m.outs ∨ o = ⟨s.nextID, 0, hintMagic⟩ := by
    simpa [Merge.withOut] using ho
  refine ⟨h.inv.created, h.active, fun id hid => (h.ids id hid).trans (Nat.lt_succ_self _), h.pendIDs, h.barrier,
    fun i r hr hi => h.old i r (hholds.mp hr) hi, fun i r hr hi ho => ?_, fun o ho => ?_, fun o ho => ?_,
    ?_, fun o ho r hr => ?_, fun x hx => ?_, h.retired, h.apart, fun i b hi hlt => ?_⟩
  · rw [hids] at ho
    exact h.new i r (hholds.mp hr) hi fun hm => ho (List.mem_append_left _ hm)
  · rcases hsplit ho with ho | rfl
    · refine (h.outs o ho).of_eq ?_
      rw [hb, Function.update_of_ne (h.outIDs o ho).2.2.1.ne]
    · exact ⟨[], by rw [hb, Function.update_self], rfl, intact_nil, fun _ hr => (by cases hr), rfl⟩
  · rcases hsplit ho with ho | rfl
    · obtain ⟨h1, h2, h3, h4⟩ := h.outIDs o ho
      exact ⟨h1, h2, h3.trans (Nat.lt_succ_self _), h4⟩
    · refine ⟨fun hm => absurd (h.ids _ hm) (lt_irrefl _), h.inv.active_ne_nextID.symm, Nat.lt_succ_self _,
        fun hm => absurd (h.inv.hintIDs _ (.inr hm)) (lt_irrefl _)⟩
  · rw [hids, List.nodup_append]
    refine ⟨h.distinct, List.nodup_singleton _, fun i hi j hj heq => ?_⟩
    obtain ⟨o, ho, rfl⟩ := List.mem_map.mp hi
    rw [List.mem_singleton.mp hj] at heq
    exact absurd heq (h.outIDs o ho).2.2.1.ne
  · rcases hsplit ho with ho | rfl
    · exact h.content o ho r (hholds.mp hr)
    · obtain ⟨b, hb', _⟩ := hholds.mp hr
      exact absurd (h.inv.fresh _ b hb') (lt_irrefl _)
  · obtain ⟨r, hr, hseq, hfrom, hto⟩ := h.moved x hx
    refine ⟨r, hb ▸ hr.create h.inv.notMem_nextID, hseq, hfrom, ?_⟩
    rw [hids]
    exact List.mem_append_left _ hto
  · rw [hids]
    rcases update_some (hb ▸ hi) with ⟨rfl, _⟩ | ⟨_, hi⟩
    · exact .inr (List.mem_append_right _ (List.mem_singleton_self _))
    · exact (h.above i b hi hlt).imp (fun hM => hM) (List.mem_append_left _)

theorem Snapped.created {ids : List Nat} {retired items : List Item} (h : Snapped ρ s ids retired items)
    (hm : Mounted ρ s pend) : Snapped ρ s.created ids retired items := by
  refine ⟨h.indexed, fun it hit => ?_, h.apart⟩
  obtain ⟨hid, r, hr, ht⟩ := h.live it hit
  exact ⟨hid, r, bytes_created s ▸ hr.create hm.notMem_nextID, ht⟩

/-! ### The copy loop -/

theorem Merging.copy {it : Item} {rest : List Item} (h : Merging ρ s pend m)
    (hp : PhaseOk ρ s m (.copy (it :: rest))) (hphase : m.phase = .copy (it :: rest))
    (hid : s.nextID + 1 < 2 ^ 32) :
    MergeInv ρ (Merge.copyStep s m it rest).1 pend (Merge.copyStep s m it rest).2 ∧
      Stepped ρ s (Merge.copyStep s m it rest).1 := by
  obtain ⟨hsnap, hno⟩ := hp
  have hinv : Inv ρ s pend [] := by
    have := h.inv
    rwa [Merge.gone, hphase] at this
  obtain ⟨hfrom, r, hr, ht⟩ := hsnap.live it (List.mem_append_right _ (List.mem_cons_self ..))
  obtain ⟨b, hb, _⟩ := hr.holds
  have hfile : ¬ it.entry.fileID ∉ s.files := not_not.mpr (hinv.mem_files.mpr ⟨b, hb⟩)
  rw [Merge.copyStep, if_neg hfile, hr.readAt]
  simp only [decodeRecord_encode r hr.holds.sized, clearBatchFlags_encode]
  by_cases hneed : Merge.needsOut s m r.lifted.encode.length
  · rw [if_pos hneed]
    simp only [newOut_eq hinv.toMounted hid]
    refine ⟨.inr ⟨(h.withOut).withPhase _ hinv.created, hsnap.created hinv.toMounted, fun o ho => ?_,
      bytes_created s ▸ hr.create hinv.notMem_nextID, rfl, ⟨s.nextID, 0, hintMagic⟩, ?_, .inl rfl⟩,
      .created hinv.toWf⟩
    · have ho : o ∈ m.outs ++ [⟨s.nextID, 0, hintMagic⟩] := ho
      rcases List.mem_append.mp ho with ho | ho
      · exact hno o ho
      · rw [List.mem_singleton.mp ho]
        exact fun hm => absurd (hinv.hintIDs _ (.inl hm)) (lt_irrefl _)
    · exact List.getLast?_concat
  · rw [if_neg hneed]
    simp only [Merge.needsOut] at hneed
    refine ⟨.inr ⟨h.withPhase _ hinv, hsnap, hno, hr, rfl, ?_⟩, .refl s⟩
    cases hl : m.outs.getLast? with
    | none => simp [hl] at hneed
    | some o =>
      refine ⟨o, rfl, .inr ?_⟩
      simpa [hl] using hneed

theorem Agreeing.copy {B B' : Nat → Option Bytes} {id j : Nat} {r₀ c : Record} (h : Agreeing ρ B)
    (hB : ∀ i r, Holds ρ B' i r ↔ Holds ρ B i r ∨ i = id ∧ r ∈ [c]) (hr₀ : Holds ρ B j r₀)
    (hk : c.key = r₀.key) (hs : c.seq = r₀.seq) (hp : c.payload = r₀.payload) : Agreeing ρ B' := by
  -- Every record of the grown disk has the version of one that was there.
  have hback (i : Nat) (r : Record) (hr : Holds ρ B' i r) : ∃ i' r', Holds ρ B i' r' ∧ r.key = r'.key ∧
      r.seq = r'.seq ∧ r.payload = r'.payload := by
    rcases (hB i r).mp hr with hr | ⟨_, hr⟩
    · exact ⟨i, r, hr, rfl, rfl, rfl⟩
    · rw [List.mem_singleton.mp hr]
      exact ⟨j, r₀, hr₀, hk, hs, hp⟩
  intro i i' r r' hr hr' hkey hseq
  obtain ⟨j, q, hq, hqk, hqs, hqp⟩ := hback i r hr
  obtain ⟨j', q', hq', hqk', hqs', hqp'⟩ := hback i' r' hr'
  rw [hqp, hqp']
  exact h j j' q q' hq hq' (by rw [← hqk, ← hqk', hkey]) (by rw [← hqs, ← hqs', hseq])

omit [Checksum] in
theorem whole_of_unbatched {rs : List Record} (h : ∀ r ∈ rs, r.batch = false) : ρ.Whole rs := by
  induction rs with
  | nil => exact Reading.whole_nil
  | cons r rest ih =>
    exact (Reading.whole_single r (h r (List.mem_cons_self ..))).append
      (ih fun r' hr' => h r' (List.mem_cons_of_mem _ hr'))

/-- The store after a copy was appended to file `id`. -/
def Store.copied (s : Store) (d : Dir) (id size : Nat) : Store :=
  {s with dir := d, files := s.files.alter id (Option.map fun _ => size)}

/-- An output to append to, and the copy to append. -/
structure CopyTo (ρ : Reading) (s : Store) (id : Nat) (b : Bytes) (d : Dir) (c : Record) : Prop where
  bytes : s.dir.bytes id = some b
  intact : Intact b
  whole : ρ.Whole (records b)
  noHint : ¬ (id ∈ s.dir.hints ∨ id ∈ s.hinting)
  inactive : id ≠ s.active.id
  sized : c.Sized
  unbatched : c.batch = false
  value : c.tombstone = false
  source : ∃ j r₀, Holds ρ s.dir.bytes j r₀ ∧ r₀.key = c.key ∧ r₀.seq = c.seq ∧ r₀.payload = c.payload
  dir : d.bytes = Function.update s.dir.bytes id (some (b ++ encodeAll [c]))
  hints : d.hints = s.dir.hints
  others : ∀ i : Nat, i ≠ id → d.data[i]? = s.dir.data[i]?
  short : (b ++ encodeAll [c]).length < 2 ^ 63

section CopyTo
variable {id : Nat} {b : Bytes} {d : Dir} {c : Record}

theorem CopyTo.sizedAll (h : CopyTo ρ s id b d c) : ∀ r ∈ [c], r.Sized := fun r hr => by
  rw [List.mem_singleton.mp hr]
  exact h.sized

theorem CopyTo.holds (h : CopyTo ρ s id b d c) {i : Nat} {r : Record} :
    Holds ρ d.bytes i r ↔ Holds ρ s.dir.bytes i r ∨ i = id ∧ r ∈ [c] :=
  h.dir ▸ holds_append h.bytes h.intact h.whole h.sizedAll (Reading.whole_single c h.unbatched)

theorem CopyTo.located (h : CopyTo ρ s id b d c) {k : Bytes} {e : Entry} {r : Record}
    (hr : Located ρ s.dir.bytes k e r) : Located ρ d.bytes k e r :=
  h.dir ▸ hr.append h.bytes h.intact h.whole h.sizedAll (Reading.whole_single c h.unbatched)

theorem CopyTo.inv (h : CopyTo ρ s id b d c) (hinv : Inv ρ s pend []) :
    Inv ρ (s.copied d id (b ++ encodeAll [c]).length) pend [] where
  toMounted := by
    rw [List.length_append]
    exact hinv.toMounted.appendTo h.bytes h.intact h.whole h.noHint h.dir h.hints h.sizedAll
      (Reading.whole_single c h.unbatched) h.short
  active := by
    obtain ⟨a, ha, hrest⟩ := hinv.active
    refine ⟨a, ?_, hrest⟩
    show d.bytes s.active.id = _
    rw [h.dir, Function.update_of_ne h.inactive.symm]
    exact ha
  noHint := by
    show ¬ (s.active.id ∈ d.hints ∨ _)
    rw [h.hints]
    exact hinv.noHint
  covers i r hr hi := by
    rcases h.holds.mp hr with hr | ⟨_, hr⟩
    · exact hinv.covers i r hr hi
    · obtain ⟨j, r₀, hr₀, hk, hs, _⟩ := h.source
      have := hinv.covers j r₀ hr₀ List.not_mem_nil
      rwa [hk, hs, ← List.mem_singleton.mp hr] at this
  agree := by
    obtain ⟨j, r₀, hr₀, hk, hs, hp⟩ := h.source
    exact hinv.agree.copy (fun _ _ => h.holds) hr₀ hk.symm hs.symm hp.symm

theorem CopyTo.stepped (h : CopyTo ρ s id b d c) (hm : Mounted ρ s pend) (size : Nat) :
    Stepped ρ s (s.copied d id size) where
  seq := rfl
  active := rfl
  opts := rfl
  hinting := rfl
  nextID := le_rfl
  liveMap := hm.liveMap_eq rfl fun _ _ _ hr _ => h.located hr
  activeData := h.others _ h.inactive.symm
  kept := .refl _
  back i r hr := by
    rcases h.holds.mp hr with hr | ⟨_, hr⟩
    · exact .inl hr
    · rw [List.mem_singleton.mp hr]
      exact .inr ⟨h.value, h.source⟩
  located _ _ _ hr := .inl (h.located hr)
  absent i _ hi := by
    show d.bytes i = none
    rw [h.dir, Function.update_of_ne]
    · exact hi
    · rintro rfl
      rw [h.bytes] at hi
      cases hi

end CopyTo

/-- The locator of the next record of an output. -/
def Out.entry (o : Out) (c : Record) : Entry := Scanned.entry o.id ⟨o.size, c.encode, c⟩

/-- An output with one record more. -/
def Out.grown (o : Out) (c : Record) : Out :=
  ⟨o.id, o.size + c.encode.length, o.hint ++ Scanned.hintEntry o.id ⟨o.size, c.encode, c⟩⟩

theorem writeStep_eq {it : Item} {rec : Record} {rest : List Item} {o : Out} {d : Dir}
    (ho : m.outs.getLast? = some o) (hd : s.dir.writeAt o.id o.size rec.lifted.encode = .ok d)
    (ht : rec.tombstone = false) :
    Merge.writeStep s m it rec rec.lifted.encode rest =
      (s.copied d o.id (o.size + rec.lifted.encode.length),
        {m with outs := m.outs.dropLast ++ [o.grown rec.lifted],
                moved := m.moved ++ [(it, o.entry rec.lifted)], phase := .copy rest}) := by
  have he : o.entry rec.lifted = ⟨o.size, rec.seq, o.id, rec.lifted.encode.length % 2 ^ 32, false⟩ := by
    simp [Out.entry, Scanned.entry, ht]
  have hh : Scanned.hintEntry o.id ⟨o.size, rec.lifted.encode, rec.lifted⟩ =
      hintEntry rec.key (o.entry rec.lifted) (rec.lifted.encode.getD 20 0) := by
    rw [Record.getD_flags]
    rfl
  rw [Merge.writeStep, ho]
  simp only [hd, Out.grown, hh, he, Store.copied]

theorem OutOk.grown {o : Out} {b : Bytes} {d : Dir} {c : Record} {size : Nat} (h : OutOk s o)
    (hc : CopyTo ρ s o.id b d c) : OutOk (s.copied d o.id size) (o.grown c) := by
  obtain ⟨b', hb', hlen, hi, hun, hhint⟩ := h
  cases Option.some.inj (hc.bytes.symm.trans hb')
  refine ⟨b ++ encodeAll [c], ?_, ?_, hi.append [c] hc.sizedAll, fun r hr => ?_, ?_⟩
  · show d.bytes o.id = _
    rw [hc.dir, Function.update_self]
  · simp [Out.grown, hlen]
  · rw [hi.records_append [c] hc.sizedAll] at hr
    rcases List.mem_append.mp hr with hr | hr
    · exact hun r hr
    · rw [List.mem_singleton.mp hr]
      exact hc.unbatched
  · have henc : encodeAll [c] = c.encode := by simp
    rw [henc]
    show o.hint ++ _ = buildHint o.id (b ++ c.encode)
    rw [buildHint_append o.id hi c hc.sized, hhint, hlen]

theorem Snapped.copied (size : Nat) {ids : List Nat} {retired items : List Item} {id : Nat} {b : Bytes} {d : Dir}
    {c : Record} (h : Snapped ρ s ids retired items) (hc : CopyTo ρ s id b d c) :
    Snapped ρ (s.copied d id size) ids retired items := by
  refine ⟨h.indexed, fun it hit => ?_, h.apart⟩
  obtain ⟨hid, r, hr, ht⟩ := h.live it hit
  exact ⟨hid, r, hc.located hr, ht⟩

/-- The merge after a copy went to its last output. -/
theorem Merging.write {it : Item} {rec : Record} {buf : Bytes} {rest : List Item}
    (h : Merging ρ s pend m) (hp : PhaseOk ρ s m (.write it rec buf rest))
    (hphase : m.phase = .write it rec buf rest) :
    MergeInv ρ (Merge.writeStep s m it rec buf rest).1 pend (Merge.writeStep s m it rec buf rest).2 ∧
      Stepped ρ s (Merge.writeStep s m it rec buf rest).1 := by
  obtain ⟨hsnap, hno, hr, rfl, o, ho, hroom⟩ := hp
  have hinv : Inv ρ s pend [] := by
    have := h.inv
    rwa [Merge.gone, hphase] at this
  obtain ⟨init, houts⟩ := List.getLast?_eq_some_iff.mp ho
  have homem : o ∈ m.outs := houts ▸ List.mem_append_right _ (List.mem_singleton_self o)
  obtain ⟨b, hb, hsize, hi, hun, _⟩ := h.outs o homem
  obtain ⟨honM, hoact, holt, hohint⟩ := h.outIDs o homem
  have henc : encodeAll [rec.lifted] = rec.lifted.encode := by simp
  obtain ⟨hfrom, r', hr', ht'⟩ := hsnap.live it (List.mem_append_right _ (List.mem_cons_self ..))
  have hval : rec.tombstone = false := by rw [hr.unique hr', ht']
  obtain ⟨d, hd, hbytes, hhints, _, hothers⟩ := Dir.writeAt_end hb rec.lifted.encode
  rw [hsize] at hd
  have hc : CopyTo ρ s o.id b d rec.lifted := by
    refine ⟨hb, hi, whole_of_unbatched hun, not_or.mpr ⟨hno o homem, hohint⟩, hoact, hr.holds.sized.lifted,
      rec.lifted_batch, by rw [rec.lifted_tombstone, hval], ⟨_, rec, hr.holds, rfl, rfl, by simp⟩,
      henc ▸ hbytes, hhints, hothers, ?_⟩
    have := limit_lt s.opts
    have := hr.holds.sized.lifted.lt
    rw [henc, List.length_append, hsize]
    rw [Record.length_encode] at hroom ⊢
    omega
  have hlen : (b ++ encodeAll [rec.lifted]).length = o.size + rec.lifted.encode.length := by
    rw [henc, List.length_append, hsize]
  -- The copy, where the merge has just put it.
  have hcopy : Located ρ d.bytes it.key (o.entry rec.lifted) rec.lifted := by
    have hpl := located_placed (B := d.bytes) (ρ := ρ) o.id hi hc.whole hc.sizedAll
      (Reading.whole_single _ rec.lifted_batch) (by rw [hc.dir, Function.update_self])
      (_, rec.lifted) (List.mem_singleton_self _)
    rwa [rec.lifted_key, hr.key, hsize] at hpl
  have hids : (m.outs.dropLast ++ [o.grown rec.lifted]).map Out.id = m.outs.map Out.id := by
    rw [houts, List.dropLast_concat, List.map_append, List.map_append]
    rfl
  have hsplit {o' : Out} (ho' : o' ∈ m.outs.dropLast ++ [o.grown rec.lifted]) :
      (o' ∈ m.outs ∧ o'.id ≠ o.id) ∨ o' = o.grown rec.lifted := by
    rw [houts, List.dropLast_concat] at ho'
    rcases List.mem_append.mp ho' with ho' | ho'
    · refine .inl ⟨houts ▸ List.mem_append_left _ ho', fun heq => ?_⟩
      have hnd := h.distinct
      rw [houts, List.map_append, List.nodup_append] at hnd
      exact hnd.2.2 _ (List.mem_map_of_mem ho') _ (List.mem_singleton_self _) heq
    · exact .inr (List.mem_singleton.mp ho')
  rw [writeStep_eq ho hd hval]
  refine ⟨.inr ⟨⟨hlen ▸ hc.inv hinv, h.active, h.ids, h.pendIDs, h.barrier, fun i r hr hi => ?_,
    fun i r hr hi ho => ?_, fun o' ho' => ?_, fun o' ho' => ?_, ?_, fun o' ho' r hr => ?_, fun x hx => ?_,
    h.retired, fun x hx jt hjt => ?_, fun i c hc' hlt => ?_⟩, ?_, fun o' ho' => ?_⟩,
    hc.stepped hinv.toMounted _⟩
  · rcases hc.holds.mp hr with hr | ⟨rfl, _⟩
    · exact h.old i r hr hi
    · exact absurd hi honM
  · rcases hc.holds.mp hr with hr | ⟨rfl, _⟩
    · exact h.new i r hr hi (hids ▸ ho)
    · exact absurd (hids ▸ List.mem_map_of_mem homem) ho
  · rcases hsplit ho' with ⟨ho', hne⟩ | rfl
    · refine (h.outs o' ho').of_eq ?_
      show d.bytes o'.id = _
      rw [hc.dir, Function.update_of_ne hne]
    · exact (h.outs o homem).grown hc
  · rcases hsplit ho' with ⟨ho', _⟩ | rfl
    · exact h.outIDs o' ho'
    · exact ⟨honM, hoact, holt, hohint⟩
  · exact hids ▸ h.distinct
  · rcases hc.holds.mp hr with hr | ⟨hid, hr⟩
    · have hold : ∃ o₀ ∈ m.outs, o₀.id = o'.id := by
        rcases hsplit ho' with ⟨ho', _⟩ | rfl
        · exact ⟨o', ho', rfl⟩
        · exact ⟨o, homem, rfl⟩
      obtain ⟨o₀, ho₀, heq⟩ := hold
      obtain ⟨ht, x, hx, hk⟩ := h.content o₀ ho₀ r (heq ▸ hr)
      exact ⟨ht, x, List.mem_append_left _ hx, hk⟩
    · rw [List.mem_singleton.mp hr]
      exact ⟨hc.value, _, List.mem_append_right _ (List.mem_singleton_self _), hcopy.key.symm⟩
  · rcases List.mem_append.mp hx with hx | hx
    · obtain ⟨r, hr, hseq, hfrom, hto⟩ := h.moved x hx
      exact ⟨r, hc.located hr, hseq, hfrom, hids ▸ hto⟩
    · rw [List.mem_singleton.mp hx]
      exact ⟨rec.lifted, hcopy, hr.seq, hfrom, hids ▸ List.mem_map_of_mem homem⟩
  · rcases List.mem_append.mp hx with hx | hx
    · exact h.apart x hx jt hjt
    · rw [List.mem_singleton.mp hx]
      exact hsnap.apart it (List.mem_append_right _ (List.mem_cons_self ..)) jt hjt
  · rw [hids]
    rcases update_some (hc.dir ▸ hc') with ⟨rfl, _⟩ | ⟨_, hc'⟩
    · exact .inr (List.mem_map_of_mem homem)
    · exact h.above i c hc' hlt
  · have := hsnap.copied (o.size + rec.lifted.encode.length) hc
    simpa only [List.map_append, List.map_cons, List.map_nil, List.append_assoc, List.cons_append,
      List.nil_append] using this
  · show o'.id ∉ d.hints
    rw [hhints]
    rcases hsplit ho' with ⟨ho', _⟩ | rfl
    · exact hno o' ho'
    · exact hno o homem

end Merge

end Gokv.Engine
