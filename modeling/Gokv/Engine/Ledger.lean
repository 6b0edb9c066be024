import Gokv.Engine.Fallback
import Gokv.Engine.Merged
import Gokv.Engine.Tally

/-! The counters of a store whose calls run one at a time.

`live` and `nLive` follow the index entry by entry, `total` the files. That `live` stays within
`total` is a matter of what the index charges to each file: a cover of a file is a list of keys
and sizes with every entry that leads into the file among them, and no larger than the file
(`Books.covers`). An append adds its own records to the cover of the active file, a merge leaves
outputs that are exactly their covers, and a recovery reads the covers off the scans and hints.
Nothing here asks where in a file a locator leads. -/
namespace Gokv.Engine
open Base

/-! ### The books -/

def liveSize (_ : Bytes) (e : Entry) : Nat := if e.tomb then 0 else e.size

def liveCount (_ : Bytes) (e : Entry) : Nat := if e.tomb then 0 else 1

section Ledger
variable [Checksum] {s s' : Store} {recs : List Record}

/-- Every entry of file `id` is on the list. -/
def Covers (keys : Index) (id : Nat) (cover : List (Bytes × Nat)) : Prop :=
  ∀ (k : Bytes) (e : Entry), keys[k]? = some e → e.fileID = id → (k, e.size) ∈ cover

/-- A hint as the store writes it for a file of `n` bytes. -/
def Itemizes (id : Nat) (hint : Bytes) (n : Nat) : Prop :=
  ∃ rs : List Record, (∀ r ∈ rs, r.Sized) ∧ hint = hintOf id (layout 0 rs) ∧ (encodeAll rs).length ≤ n

/-- The files and what is charged to them. -/
structure Books (s : Store) : Prop where
  files : ∀ id, s.files[id]? = (s.dir.bytes id).map List.length
  covers : ∀ id : Nat, ∃ cover, Covers s.keys id cover ∧ (cover.map Prod.snd).sum ≤ s.files[id]?.getD 0
  sizes : ∀ (k : Bytes) (e : Entry), s.keys[k]? = some e → 0 < e.size ∧ e.size < 2 ^ 32
  total : s.total = Merge.usage s
  hints : ∀ (id : Nat) (hint : Bytes), s.dir.hints[id]? = some hint →
    ∃ b, s.dir.bytes id = some b ∧ Itemizes id hint b.length

/-- The books of an open store. -/
structure Ledger (s : Store) : Prop extends Books s where
  active : s.files[s.active.id]? = some s.active.size
  live : s.live = weight liveSize s.keys
  nLive : s.nLive = weight liveCount s.keys

theorem Books.congr (h : Books s) (hb : s'.dir.bytes = s.dir.bytes) (hh : s'.dir.hints = s.dir.hints)
    (hk : s'.keys = s.keys) (hf : s'.files = s.files) (ht : s'.total = s.total) : Books s' where
  files id := by rw [hf, hb, h.files]
  covers id := by rw [hk, hf]; exact h.covers id
  sizes k e he := h.sizes k e (hk ▸ he)
  total := by rw [ht, h.total, Merge.usage, Merge.usage, hf]
  hints id hint hi := by rw [hb]; exact h.hints id hint (hh ▸ hi)

theorem Ledger.congr (h : Ledger s) (hb : s'.dir.bytes = s.dir.bytes) (hh : s'.dir.hints = s.dir.hints)
    (hk : s'.keys = s.keys) (hf : s'.files = s.files) (ht : s'.total = s.total) (ha : s'.active = s.active)
    (hl : s'.live = s.live) (hn : s'.nLive = s.nLive) : Ledger s' where
  toBooks := h.toBooks.congr hb hh hk hf ht
  active := by rw [hf, ha, h.active]
  live := by rw [hl, hk, h.live]
  nLive := by rw [hn, hk, h.nLive]

/-- An entry leads into an open file that is not empty. -/
theorem Books.charged (h : Books s) {k : Bytes} {e : Entry} (he : s.keys[k]? = some e) :
    ∃ n, s.files[e.fileID]? = some n ∧ 0 < n := by
  obtain ⟨cover, hcover, hsum⟩ := h.covers e.fileID
  have hle : e.size ≤ (cover.map Prod.snd).sum :=
    List.single_le_sum (fun _ _ => Nat.zero_le _) _ (List.mem_map_of_mem (f := Prod.snd) (hcover k e he rfl))
  have hpos := (h.sizes k e he).1
  cases hf : s.files[e.fileID]? with
  | none =>
    rw [hf] at hsum
    exact absurd hsum (by simp; omega)
  | some n =>
    rw [hf] at hsum
    exact ⟨n, rfl, by simp at hsum; omega⟩

theorem Ledger.placed (h : Ledger s) : Placed s where
  files := h.files
  active := h.active
  opened k e he := by
    obtain ⟨n, hn, _⟩ := h.charged he
    rw [Std.ExtTreeMap.mem_iff_isSome_getElem?, hn]
    rfl
  filled hz k e he heq := by
    obtain ⟨n, hn, hpos⟩ := h.charged he
    rw [heq, h.active, hz] at hn
    cases hn
    exact absurd hpos (Nat.lt_irrefl 0)

/-- The entries of one file weigh no more than the file. -/
theorem Books.fiber_le (h : Books s) (id : Nat) :
    weight (fiber Entry.fileID id fun _ e => e.size) s.keys ≤ s.files[id]?.getD 0 := by
  obtain ⟨cover, hcover, hsum⟩ := h.covers id
  refine le_trans ?_ hsum
  -- The pairs of the file, as a list without repetition among the cover.
  have hsplit : weight (fiber Entry.fileID id fun _ e => e.size) s.keys =
      (((s.keys.toList.filter fun x => x.2.fileID = id).map fun x => (x.1, x.2.size)).map Prod.snd).sum := by
    rw [weight, List.map_map]
    generalize s.keys.toList = xs
    induction xs with
    | nil => rfl
    | cons x rest ih =>
      rw [List.map_cons, List.sum_cons, ih, fiber]
      by_cases hx : x.2.fileID = id <;> simp [hx]
  have hnodup : ((s.keys.toList.filter fun x => x.2.fileID = id).map fun x => (x.1, x.2.size)).Nodup := by
    refine List.Nodup.of_map Prod.fst ?_
    rw [List.map_map]
    exact (nodup_fst_toList s.keys).sublist (List.filter_sublist.map _)
  have hsub : ((s.keys.toList.filter fun x => x.2.fileID = id).map fun x => (x.1, x.2.size)) ⊆ cover := fun y hy => by
    obtain ⟨x, hx, rfl⟩ := List.mem_map.mp hy
    obtain ⟨hx, hid⟩ := List.mem_filter.mp hx
    exact hcover x.1 x.2 (Std.ExtTreeMap.mem_toList_iff_getElem?_eq_some.mp hx) (of_decide_eq_true hid)
  rw [hsplit]
  obtain ⟨l, hperm, hsubl⟩ := List.subperm_of_subset hnodup hsub
  rw [← (hperm.map Prod.snd).sum_eq]
  exact (hsubl.map Prod.snd).sum_le_sum fun _ _ => Nat.zero_le _

/-- The live bytes are a part of the bytes of the files. -/
theorem Books.live_le (h : Books s) : (weight liveSize s.keys : Int) ≤ s.total := by
  have hle : weight liveSize s.keys ≤ weight (fun _ e => e.size) s.keys := weight_mono fun k e _ => by
    rw [liveSize]
    split
    · exact Nat.zero_le _
    · exact Nat.le_refl _
  rw [h.total, usage_eq]
  exact_mod_cast hle.trans (weight_le_of_fibers h.fiber_le)

/-! ### The figures -/

/-- What the counters are to be. -/
structure Store.Accounted (s : Store) : Prop where
  live : s.live = (s.liveEntries.map fun x => (x.2.size : Int)).sum
  nLive : s.nLive = s.liveEntries.length
  total : s.total = (s.files.toList.map fun x => (x.2 : Int)).sum
  /-- So that `deadBytes` need not clamp. -/
  within : s.live ≤ s.total

omit [Checksum] in
theorem weight_liveSize (s : Store) : (weight liveSize s.keys : Int) =
    (s.liveEntries.map fun x => (x.2.size : Int)).sum := by
  rw [weight, Store.liveEntries]
  generalize s.keys.toList = xs
  induction xs with
  | nil => rfl
  | cons x rest ih =>
    rw [List.map_cons, List.sum_cons, Nat.cast_add, ih, liveSize]
    cases ht : x.2.tomb <;> simp [ht]

omit [Checksum] in
theorem weight_liveCount (s : Store) : weight liveCount s.keys = s.liveEntries.length := by
  rw [weight, Store.liveEntries]
  generalize s.keys.toList = xs
  induction xs with
  | nil => rfl
  | cons x rest ih =>
    rw [List.map_cons, List.sum_cons, ih, liveCount]
    cases ht : x.2.tomb <;> simp [ht, Nat.add_comm]

theorem Ledger.accounted (h : Ledger s) : s.Accounted where
  live := h.live.trans (weight_liveSize s)
  nLive := by rw [h.nLive, weight_liveCount]
  total := h.total
  within := h.live ▸ h.live_le

/-! ### Files come -/

theorem Books.fresh (h : Books s) (hid : s.nextID ∉ s.dir.data) : Books s.fresh := by
  have hout : s.nextID ∉ s.files := by
    rw [Store.mem_files h.files]
    exact fun hm => hid (Dir.mem_data.mpr hm)
  have hnone : s.files[s.nextID]? = none := Std.ExtTreeMap.getElem?_eq_none hout
  refine ⟨(poised_fresh h.files).files, fun id => ?_, h.sizes, h.total.trans ?_, fun id hint hi => ?_⟩
  · obtain ⟨cover, hcover, hsum⟩ := h.covers id
    refine ⟨cover, hcover, hsum.trans ?_⟩
    show _ ≤ (s.files.insert s.nextID 0)[id]?.getD 0
    rw [Std.ExtTreeMap.getElem?_insert]
    by_cases heq : s.nextID = id
    · rw [← heq, hnone]
      exact Nat.zero_le _
    · rw [if_neg (by simpa using heq)]
  · have : Merge.usage s.fresh = Merge.usage s + (0 : Nat) := usage_insert hout rfl
    rw [this]
    exact (Int.add_zero _).symm
  · obtain ⟨b, hb, hlist⟩ := h.hints id hint hi
    refine ⟨b, ?_, hlist⟩
    rw [bytes_fresh, Function.update_of_ne, hb]
    rintro rfl
    exact hid (Dir.mem_data.mpr ⟨b, hb⟩)

theorem Ledger.fresh (h : Books s) (hl : s.live = weight liveSize s.keys) (hn : s.nLive = weight liveCount s.keys)
    (hid : s.nextID ∉ s.dir.data) : Ledger s.fresh :=
  {h.fresh hid with active := Std.ExtTreeMap.getElem?_insert_self, live := hl, nLive := hn}

theorem Ledger.bytes_active (h : Ledger s) : ∃ b, s.dir.bytes s.active.id = some b ∧ b.length = s.active.size := by
  have := h.active
  rw [h.files] at this
  exact Option.map_eq_some_iff.mp this

theorem Ledger.maybeRotate (h : Ledger s) (n : Nat) : Ledger (s.maybeRotateLocked n).1 := by
  unfold Store.maybeRotateLocked
  split
  · exact h
  · obtain ⟨b, hb, -⟩ := h.bytes_active
    obtain ⟨d, hd, hbytes, hhints, -⟩ := Dir.sync_ok hb
    have hsynced : Ledger {s with dir := d} := h.congr hbytes hhints rfl rfl rfl rfl rfl rfl
    rw [hd]
    dsimp only
    by_cases hid : s.nextID ∈ d.data
    · rw [openNewActive_exists (s := {s with dir := d}) hid]
      exact hsynced
    · rw [openNewActive_fresh (s := {s with dir := d}) hid]
      exact (Ledger.fresh hsynced.toBooks hsynced.live hsynced.nLive hid).congr rfl rfl rfl rfl rfl rfl rfl rfl

/-! ### Appends -/

/-- The store with `n` more bytes in the active file. -/
def Store.filled (s : Store) (d : Dir) (n : Nat) (dirty : Bool) : Store :=
  {s with dir := d
          active := ⟨s.active.id, s.active.size + n⟩
          files := s.files.alter s.active.id (Option.map fun _ => s.active.size + n)
          total := s.total + n
          dirty := dirty}

/-- The appended bytes are not charged for yet. -/
theorem Ledger.filled (h : Ledger s) {d : Dir} {b buf : Bytes} (hb : s.dir.bytes s.active.id = some b)
    (hd : d.bytes = Function.update s.dir.bytes s.active.id (some (b ++ buf))) (hh : d.hints = s.dir.hints)
    (dirty : Bool) :
    Ledger (s.filled d buf.length dirty) ∧ ∃ cover, Covers s.keys s.active.id cover ∧
      (cover.map Prod.snd).sum + buf.length ≤ s.active.size + buf.length := by
  have hsize : b.length = s.active.size := by
    have := h.active
    rw [h.files, hb] at this
    exact Option.some.inj this
  have hfile (id : Nat) : (s.filled d buf.length dirty).files[id]? =
      if id = s.active.id then some (s.active.size + buf.length) else s.files[id]? := by
    show (s.files.alter s.active.id _)[id]? = _
    rw [Std.ExtTreeMap.getElem?_alter]
    by_cases hid : id = s.active.id
    · subst hid
      simp [h.active]
    · simp [hid, Ne.symm hid]
  refine ⟨⟨⟨fun id => ?_, fun id => ?_, h.sizes, ?_, fun id hint hi => ?_⟩, ?_, h.live, h.nLive⟩, ?_⟩
  · rw [hfile]
    show _ = (d.bytes id).map List.length
    rw [hd]
    by_cases hid : id = s.active.id
    · subst hid
      simp [hsize]
    · simp [hid, h.files]
  · obtain ⟨cover, hcover, hsum⟩ := h.covers id
    refine ⟨cover, hcover, hsum.trans ?_⟩
    rw [hfile]
    by_cases hid : id = s.active.id
    · subst hid
      simp [h.active]
    · simp [hid]
  · have : Merge.usage (s.filled d buf.length dirty) + s.active.size = Merge.usage s + (s.active.size + buf.length) :=
      usage_resize h.active rfl
    show s.total + _ = _
    rw [h.total]
    omega
  · have hi : s.dir.hints[id]? = some hint := hh ▸ hi
    obtain ⟨c, hc, rs, hsized, hhint, hlen⟩ := h.hints id hint hi
    show ∃ c, d.bytes id = some c ∧ _
    rw [hd]
    by_cases hid : id = s.active.id
    · subst hid
      rw [hb] at hc
      cases hc
      exact ⟨b ++ buf, Function.update_self .., rs, hsized, hhint, by rw [List.length_append]; omega⟩
    · exact ⟨c, by rw [Function.update_of_ne hid, hc], rs, hsized, hhint, hlen⟩
  · exact (hfile _).trans (if_pos rfl)
  · obtain ⟨cover, hcover, hsum⟩ := h.covers s.active.id
    rw [h.active] at hsum
    exact ⟨cover, hcover, Nat.add_le_add_right hsum _⟩

omit [Checksum] in
/-- One index update keeps the counters. -/
theorem indexApply_counts (hl : s.live = weight liveSize s.keys) (hn : s.nLive = weight liveCount s.keys)
    (k : Bytes) (e : Entry) :
    (s.indexApplyLocked k e).live = weight liveSize (s.indexApplyLocked k e).keys ∧
      (s.indexApplyLocked k e).nLive = weight liveCount (s.indexApplyLocked k e).keys := by
  have hsize := weight_insert liveSize s.keys k e
  have hcount := weight_insert liveCount s.keys k e
  unfold Store.indexApplyLocked
  cases hk : s.keys[k]? with
  | none =>
    rw [hk, Option.elim_none] at hsize hcount
    cases ht : e.tomb <;> simp [hl, hn, liveSize, liveCount, ht] at hsize hcount ⊢ <;> omega
  | some n =>
    rw [hk, Option.elim_some] at hsize hcount
    dsimp only
    by_cases hle : e.seq ≤ n.seq
    · rw [if_pos hle]
      exact ⟨hl, hn⟩
    · rw [if_neg hle]
      cases ht : e.tomb <;> cases ht' : n.tomb <;>
        simp [hl, hn, liveSize, liveCount, ht, ht'] at hsize hcount ⊢ <;> omega

omit [Checksum] in
theorem indexWrite_counts (es : List (Bytes × Entry)) (hl : s.live = weight liveSize s.keys)
    (hn : s.nLive = weight liveCount s.keys) :
    (s.indexWrite es).live = weight liveSize (s.indexWrite es).keys ∧
      (s.indexWrite es).nLive = weight liveCount (s.indexWrite es).keys := by
  induction es generalizing s with
  | nil => exact ⟨hl, hn⟩
  | cons x rest ih =>
    obtain ⟨hl', hn'⟩ := indexApply_counts hl hn x.1 x.2
    exact ih hl' hn'

/-- What an append makes of its records is charged to the bytes it appends. -/
theorem writeEntries_sizes (id base : Nat) (hs : ∀ r ∈ recs, r.Sized) (offs : List Nat) :
    ((Store.writeEntries id base recs offs).map fun x => x.2.size).sum ≤ (encodeAll recs).length ∧
      ∀ x ∈ Store.writeEntries id base recs offs, x.2.fileID = id ∧ 0 < x.2.size ∧ x.2.size < 2 ^ 32 := by
  induction recs generalizing offs with
  | nil => exact ⟨Nat.le_refl _, fun x hx => (nomatch hx)⟩
  | cons r rest ih =>
    cases offs with
    | nil => exact ⟨Nat.zero_le _, fun x hx => (nomatch hx)⟩
    | cons off offs =>
      obtain ⟨hsum, hall⟩ := ih (fun r' hr' => hs r' (List.mem_cons_of_mem _ hr')) offs
      have hlt := (hs r (List.mem_cons_self ..)).lt
      have hsize : encodedSize r.key.length r.value.length = r.encode.length := by
        rw [encodedSize, r.length_encode]
        exact Nat.mod_eq_of_lt (by omega)
      have hlen := r.length_encode
      rw [recordHeaderSize] at hlen hlt
      refine ⟨?_, fun x hx => ?_⟩
      · show encodedSize _ _ + ((Store.writeEntries id base rest offs).map fun x => x.2.size).sum ≤ _
        rw [encodeAll_cons, List.length_append, hsize]
        exact Nat.add_le_add_left hsum _
      · rcases List.mem_cons.mp hx with rfl | hx
        · show id = id ∧ 0 < encodedSize _ _ ∧ encodedSize _ _ < _
          rw [hsize]
          omega
        · exact hall x hx

/-- **Indexing** charges the entries to the active file, where there is room for them. -/
theorem Ledger.indexWrite (h : Ledger s) {es : List (Bytes × Entry)}
    (hes : ∀ x ∈ es, x.2.fileID = s.active.id ∧ 0 < x.2.size ∧ x.2.size < 2 ^ 32)
    (hroom : ∃ cover, Covers s.keys s.active.id cover ∧
      (cover.map Prod.snd).sum + (es.map fun x => x.2.size).sum ≤ s.active.size) : Ledger (s.indexWrite es) := by
  obtain ⟨hl, hn⟩ := indexWrite_counts es h.live h.nLive
  obtain ⟨l, n, heq⟩ := indexWrite_eq s es
  rw [heq] at hl hn ⊢
  refine ⟨⟨h.files, fun id => ?_, fun k e he => ?_, h.total, h.hints⟩, h.active, hl, hn⟩
  · by_cases hid : id = s.active.id
    · subst hid
      obtain ⟨cover, hcover, hsum⟩ := hroom
      refine ⟨cover ++ es.map fun x => (x.1, x.2.size), fun k e he hf => ?_, ?_⟩
      · rcases Index.mem_installAll he with hmem | hold
        · exact List.mem_append_right _ (List.mem_map.mpr ⟨(k, e), hmem, rfl⟩)
        · exact List.mem_append_left _ (hcover k e hold hf)
      · show _ ≤ s.files[s.active.id]?.getD 0
        rw [h.active, List.map_append, List.sum_append, List.map_map]
        exact hsum
    · obtain ⟨cover, hcover, hsum⟩ := h.covers id
      refine ⟨cover, fun k e he hf => ?_, hsum⟩
      rcases Index.mem_installAll he with hmem | hold
      · exact absurd (hf.symm.trans (hes (k, e) hmem).1) hid
      · exact hcover k e hold hf
  · rcases Index.mem_installAll he with hmem | hold
    · exact (hes (k, e) hmem).2
    · exact h.sizes k e hold

theorem Ledger.writeLocked (h : Ledger s) (hs : ∀ r ∈ recs, r.Sized) : Ledger (s.writeLocked recs).1 := by
  have hbuf : Store.writeBuffer [] recs = (encodeAll recs, (Store.writeBuffer [] recs).2) := by
    rw [writeBuffer_eq, List.nil_append]
  have hrot := h.maybeRotate (encodeAll recs).length
  unfold Store.writeLocked Store.logWrite
  rw [hbuf]
  dsimp only
  revert hrot
  rcases s.maybeRotateLocked (encodeAll recs).length with ⟨t, err⟩
  intro ht
  cases err with
  | some e => exact ht
  | none =>
    dsimp only at ht ⊢
    obtain ⟨b, hb, hsize⟩ := ht.bytes_active
    obtain ⟨d, hd, hbytes, hhints, -⟩ := Dir.writeAt_end hb (encodeAll recs)
    rw [hsize] at hd
    obtain ⟨hsum, hes⟩ := writeEntries_sizes t.active.id t.active.size hs (Store.writeBuffer [] recs).2
    -- The fsync changes nothing the books see.
    have hdone {d' : Dir} (hd' : d'.bytes = d.bytes) (hh' : d'.hints = d.hints) (dirty : Bool) :
        Ledger ((t.filled d' (encodeAll recs).length dirty).indexWrite
          (Store.writeEntries t.active.id t.active.size recs (Store.writeBuffer [] recs).2)) := by
      obtain ⟨hfilled, cover, hcover, hroom⟩ :=
        ht.filled hb (hd'.trans hbytes) (hh'.trans hhints) dirty
      exact hfilled.indexWrite hes ⟨cover, hcover, (Nat.add_le_add_left hsum _).trans hroom⟩
    rw [hd]
    dsimp only
    by_cases hsync : t.opts.syncMode = .always
    · have hb₂ : d.bytes t.active.id = some (b ++ encodeAll recs) := by rw [hbytes, Function.update_self]
      obtain ⟨d', hd', hbytes', hhints', -⟩ := Dir.sync_ok hb₂
      rw [if_pos hsync, hd']
      exact hdone hbytes' hhints' false
    · rw [if_neg hsync]
      exact hdone rfl rfl true

theorem Ledger.appendLocked (h : Ledger s) (hs : ∀ r ∈ recs, r.Sized) : Ledger (s.appendLocked recs).1 := by
  exact Ledger.writeLocked (s := {s with seq := _}) (h.congr rfl rfl rfl rfl rfl rfl rfl rfl) (sized_assignSeqs hs)

theorem Ledger.append (h : Ledger s) (a : Append) : Ledger (s.append a).1 := by
  rcases append_forms s a with ⟨heq, -⟩ | ⟨op, hop⟩ | ⟨raw, recs, -, hparse, heq⟩
  · rwa [heq]
  · rw [hop.append]
    exact h.appendLocked hop.valid.sized
  · have hw := h.writeLocked (parseRaw_ok hparse).2
    rw [heq]
    revert hw
    rcases s.writeLocked recs with ⟨t, err⟩
    intro ht
    cases err with
    | some e => exact ht
    | none => exact Ledger.congr ht rfl rfl rfl rfl rfl rfl rfl rfl

/-! ### Compaction -/

/-- The records behind the live locators are within the limits, where there are any. -/
def Store.Legible (s : Store) : Prop :=
  ∀ x ∈ s.liveEntries, ∀ r, Store.readRecord s.dir x.2 = .ok r → r.Sized

/-- A read depends on the bytes of one file. -/
theorem readRecord_congr {d d' : Dir} {e : Entry} (h : d'.bytes e.fileID = d.bytes e.fileID) :
    Store.readRecord d' e = Store.readRecord d e := by
  unfold Store.readRecord Dir.readAt
  unfold Dir.bytes at h
  cases hd : d.data[e.fileID]? with
  | none =>
    rw [hd, Option.map_none, Option.map_eq_none_iff] at h
    rw [h]
  | some f =>
    rw [hd, Option.map_some] at h
    obtain ⟨f', hf', hb⟩ := Option.map_eq_some_iff.mp h
    simp only [hf', hb]

variable {s₀ : Store} {shelves : List Shelf}

/-- The outputs itemize the live records. -/
theorem Merged.sized (h : Merged s₀ s shelves) (hleg : s₀.Legible) {sh : Shelf} (hsh : sh ∈ shelves) :
    ∀ r ∈ sh.records, r.Sized := by
  intro r hr
  obtain ⟨x, hx, rfl⟩ := List.mem_map.mp hr
  have hmem : x ∈ shelved shelves := List.mem_flatMap.mpr ⟨sh, hsh, hx⟩
  have hlive : (x.key, x.entry) ∈ s₀.liveEntries := by
    rw [← h.rows]
    exact List.mem_map.mpr ⟨x, hmem, rfl⟩
  have hsized : x.record.Sized := hleg _ hlive _ (h.reads x hmem)
  exact hsized

/-- **A finished merge** has its books in order. -/
theorem Merged.ledger (h : Merged s₀ s shelves) (hs : Ledger s₀) (hleg : s₀.Legible) : Ledger s := by
  have hindex {k : Bytes} {e : Entry} (he : s.keys[k]? = some e) : (k, e) ∈ shelfIndex shelves := by
    rw [← h.keys]
    exact Std.ExtTreeMap.mem_toList_iff_getElem?_eq_some.mpr he
  have hactive : s.active = s₀.active := by rw [h.store]
  obtain ⟨b, hb, -⟩ := hs.bytes_active
  have hapart : s₀.active.id ∉ shelves.map Shelf.id := fun hm => by
    obtain ⟨sh, hsh, heq⟩ := List.mem_map.mp hm
    exact h.fresh sh hsh (heq ▸ Dir.mem_data.mpr ⟨b, hb⟩)
  have hkept : s.dir.bytes s₀.active.id = s₀.dir.bytes s₀.active.id := by rw [h.others _ hapart, if_pos rfl]
  refine ⟨⟨h.files, fun id => ?_, fun k e he => ?_, h.total, fun id hint hi => ?_⟩, ?_, ?_, ?_⟩
  · by_cases hid : id ∈ shelves.map Shelf.id
    · obtain ⟨sh, hsh, rfl⟩ := List.mem_map.mp hid
      refine ⟨sh.moves.map fun y => (y.1.key, y.2.size), fun k e he hf => ?_, ?_⟩
      · obtain ⟨sh', hsh', -, -, -, hid', -, -, hmem⟩ := mem_shelfIndex (hindex he)
        rwa [List.inj_on_of_nodup_map h.distinct hsh hsh' (hf.symm.trans hid')]
      · rw [h.files, h.bytes sh hsh, List.map_map]
        exact sh.charge_le
    · refine ⟨[], fun k e he hf => ?_, Nat.zero_le _⟩
      obtain ⟨sh, hsh, -, -, -, hid', -⟩ := mem_shelfIndex (hindex he)
      exact absurd (List.mem_map.mpr ⟨sh, hsh, hid'.symm.trans hf⟩) hid
  · obtain ⟨sh, hsh, r, hr, -, -, -, hsize, -⟩ := mem_shelfIndex (hindex he)
    have hmem : r ∈ shelved shelves := List.mem_flatMap.mpr ⟨sh, hsh, hr⟩
    have hlive : (r.key, r.entry) ∈ s₀.liveEntries := by
      rw [← h.rows]
      exact List.mem_map.mpr ⟨r, hmem, rfl⟩
    have hold := hs.sizes _ _ (lookup_eq_some.mp (mem_liveEntries.mp hlive)).1
    rw [hsize, Shelf.length_of_read (h.reads r hmem), Nat.mod_eq_of_lt hold.2]
    exact hold
  · by_cases hid : id ∈ shelves.map Shelf.id
    · obtain ⟨sh, hsh, rfl⟩ := List.mem_map.mp hid
      rw [h.hints sh hsh] at hi
      cases hi
      exact ⟨sh.bytes, h.bytes sh hsh, sh.records, h.sized hleg hsh, rfl, Nat.le_refl _⟩
    · rw [h.otherHints id hid] at hi
      by_cases hm : id ∈ s₀.mergeSet
      · rw [if_pos hm] at hi
        cases hi
      · rw [if_neg hm] at hi
        obtain ⟨c, hc, hlist⟩ := hs.hints id hint hi
        have heq : id = s₀.active.id := by
          by_contra hne
          exact hm (mem_mergeSet.mpr ⟨(Store.mem_files hs.files).mpr ⟨c, hc⟩, hne⟩)
        exact ⟨c, by rw [heq, hkept, ← heq, hc], hlist⟩
  · rw [hactive, h.files, hkept, ← hs.files, hs.active]
  · rw [h.live, weight_liveSize]
    refine congrArg (fun l : List (Bytes × Entry) => (l.map fun x => (x.2.size : Int)).sum) ?_
    rw [Store.liveEntries, h.keys, List.filter_eq_self.mpr fun x hx => by rw [shelfIndex_live hx]; rfl]
  · rw [h.nLive, weight_liveCount, Store.liveEntries, h.keys,
      List.filter_eq_self.mpr fun x hx => by rw [shelfIndex_live hx]; rfl]

theorem Ledger.compact (h : Ledger s) (hleg : s.Legible) : Ledger s.compact.1 := by
  rcases compact_cases h.placed with ⟨-, d, e, hbytes, hhints, heq⟩ | ⟨s₀, -, hends, hs₀⟩
  · rw [heq]
    exact h.congr hbytes hhints rfl rfl rfl rfl rfl rfl
  · have hsealed : Ledger s₀ ∧ s₀.Legible := by
      rcases hs₀ with ⟨-, rfl⟩ | ⟨d, hbytes, hhints, -, hid, rfl⟩
      · exact ⟨h, hleg⟩
      · have hd : Ledger {s with dir := d} := h.congr hbytes hhints rfl rfl rfl rfl rfl rfl
        have hid : s.nextID ∉ d.data := by rwa [Dir.mem_data, hbytes, ← Dir.mem_data]
        refine ⟨(Ledger.fresh hd.toBooks hd.live hd.nLive hid).congr rfl rfl rfl rfl rfl rfl rfl rfl,
          fun x hx r hr => hleg x hx r ?_⟩
        rw [← hr]
        refine (readRecord_congr ?_).symm
        show (Store.fresh {s with dir := d}).dir.bytes x.2.fileID = _
        rw [bytes_fresh]
        show Function.update d.bytes s.nextID _ _ = _
        rw [hbytes, Function.update_of_ne]
        intro heq
        obtain ⟨n, hn, -⟩ := h.charged (lookup_eq_some.mp (mem_liveEntries.mp hx)).1
        rw [heq, h.files] at hn
        obtain ⟨b, hb, -⟩ := Option.map_eq_some_iff.mp hn
        exact hid (Dir.mem_data.mpr ⟨b, by rw [hbytes, hb]⟩)
    obtain ⟨hl, hleg₀⟩ := hsealed
    generalize s.compact.1 = t, s.compact.2 = err at hends
    cases hends with
    | idle => exact hl
    | merged _ hm => exact hm.ledger hl hleg₀
    | blocked n e _ => exact hl.congr rfl rfl rfl rfl rfl rfl rfl rfl

/-! ### Reset, and the background -/

theorem Ledger.reset (h : Ledger s) : Ledger s.reset.1 := by
  unfold Store.reset
  split
  · exact h
  · have hgone := bytes_cleared h.files
    have hhints (id : Nat) (hint : Bytes) (hi : s.cleared.dir.hints[id]? = some hint) : False := by
      obtain ⟨hout, hi⟩ := Dir.hint_removeFiles (d := s.dir) hi
      obtain ⟨b, hb, -⟩ := h.hints id hint hi
      exact hout (Std.ExtTreeMap.mem_keys.mpr ((Store.mem_files h.files).mpr ⟨b, hb⟩))
    have hbooks : Books s.cleared := by
      refine ⟨fun id => ?_, fun id => ⟨[], fun k e he => ?_, Nat.zero_le _⟩, fun k e he => ?_, rfl,
        fun id hint hi => (hhints id hint hi).elim⟩
      · rw [hgone]
        rfl
      · simp [Store.cleared] at he
      · simp [Store.cleared] at he
    have hid : s.cleared.nextID ∉ s.cleared.dir.data := by
      rw [Dir.mem_data, hgone]
      rintro ⟨b, hb⟩
      cases hb
    rw [openNewActive_fresh hid]
    exact (Ledger.fresh hbooks (by simp [Store.cleared]) (by simp [Store.cleared]) hid).congr rfl rfl rfl rfl
      rfl rfl rfl rfl

theorem Ledger.sync (h : Ledger s) : Ledger s.sync.1 := by
  unfold Store.sync
  split
  · exact h
  · obtain ⟨b, hb, -⟩ := h.bytes_active
    obtain ⟨d, hd, hbytes, hhints, -⟩ := Dir.sync_ok hb
    rw [hd]
    exact h.congr hbytes hhints rfl rfl rfl rfl rfl rfl

/-- A scan finds no more than the file holds. -/
theorem itemizes_scan (id : Nat) (b : Bytes) : Itemizes id (buildHint id b) b.length := by
  obtain ⟨hlay, hsized, t, -, hb⟩ := scanFile_spec b
  refine ⟨records b, hsized, by rw [buildHint, hlay], ?_⟩
  conv_rhs => rw [hb]
  rw [List.length_append]
  exact Nat.le_add_right _ _

theorem Ledger.finishHint (h : Ledger s) (id : Nat) : Ledger (s.finishHint id) := by
  unfold Store.finishHint
  split
  · exact h
  · cases hf : s.dir.data[id]? with
    | none => exact h.congr rfl rfl rfl rfl rfl rfl rfl rfl
    | some f =>
      have hb : s.dir.bytes id = some f.bytes := by
        rw [Dir.bytes, hf]
        rfl
      refine ⟨⟨h.files, h.covers, h.sizes, h.total, fun i hint hi => ?_⟩, h.active, h.live, h.nLive⟩
      have hi : (s.dir.hints.insert id (buildHint id f.bytes))[i]? = some hint := hi
      rw [Std.ExtTreeMap.getElem?_insert] at hi
      by_cases heq : id = i
      · subst heq
        rw [if_pos (by simp)] at hi
        cases hi
        exact ⟨f.bytes, hb, itemizes_scan id f.bytes⟩
      · rw [if_neg (by simpa using heq)] at hi
        exact h.hints i hint hi

/-! ### Recovery -/

/-- Every hint itemizes its file. -/
def Shelved (d : Dir) : Prop :=
  ∀ (id : Nat) (hint : Bytes), d.hints[id]? = some hint → ∃ b, d.bytes id = some b ∧ Itemizes id hint b.length

/-- What is offered for a file, charged to it. -/
def Charged (offers : List (Bytes × Entry)) (n : Nat) : Prop :=
  ∃ cover : List (Bytes × Nat), (∀ y ∈ offers, (y.1, y.2.size) ∈ cover ∧ 0 < y.2.size ∧ y.2.size < 2 ^ 32) ∧
    (cover.map Prod.snd).sum ≤ n

/-- The lengths of records, as a cover. -/
theorem sum_cover (rs : List Record) : ((rs.map fun r => (r.key, r.encode.length)).map Prod.snd).sum =
    (encodeAll rs).length := by
  rw [List.map_map]
  induction rs with
  | nil => rfl
  | cons r rest ih =>
    rw [List.map_cons, List.sum_cons, encodeAll_cons, List.length_append, ih]
    rfl

theorem Record.Sized.encode_lt {r : Record} (h : r.Sized) : 0 < r.encode.length ∧ r.encode.length < 2 ^ 32 := by
  have := h.lt
  rw [r.length_encode]
  rw [recordHeaderSize] at *
  omega

/-- What a scan offers lies before the open end of the file. -/
theorem charged_scan (id : Nat) {b : Bytes} {kept tail : List Record} (hsplit : records b = kept ++ tail)
    (hopen : Open tail) :
    Charged (scanOffers id b) (encodeAll kept).length := by
  obtain ⟨hlay, hsized, -⟩ := scanFile_spec b
  have htail (p : Nat) : settles Scanned.record (layout p tail) = false ∧
      (layout p tail).filter (fun y => !y.record.batch) = [] := by
    have hrec {x : Scanned} (hx : x ∈ layout p tail) : x.record.batch = true ∧ x.record.batchEnd = false := by
      obtain ⟨before, after, hmem, -⟩ := mem_layout hx
      exact hopen x.record (by rw [hmem]; simp)
    refine ⟨?_, List.filter_eq_nil_iff.mpr fun x hx => by simp [(hrec hx).1]⟩
    rw [settles, List.any_eq_false]
    exact fun x hx => by simp [(hrec hx).2]
  refine ⟨kept.map fun r => (r.key, r.encode.length), fun y hy => ?_, (sum_cover kept).le⟩
  obtain ⟨x, hx, rfl⟩ := List.mem_map.mp hy
  rw [hlay, hsplit, layout_append, installOrder_append, (installOrder_open _ (htail _).1).1, (htail _).2,
    List.append_nil] at hx
  have hx := (mem_installOrder hx).resolve_left List.not_mem_nil
  obtain ⟨before, after, hmem, -, hraw⟩ := mem_layout hx
  have hin : x.record ∈ kept := by rw [hmem]; simp
  have hlen := (hsized x.record (hsplit ▸ List.mem_append_left _ hin)).encode_lt
  have hsize : (Scanned.offer id x).2.size = x.record.encode.length := by
    show x.raw.length % 2 ^ 32 = _
    rw [hraw, Nat.mod_eq_of_lt hlen.2]
  rw [hsize]
  exact ⟨List.mem_map.mpr ⟨x.record, hin, rfl⟩, hlen⟩

theorem Itemizes.charged {id n : Nat} {hint : Bytes} (h : Itemizes id hint n) :
    (readHint id hint).2 = none ∧ Charged (hintOffers id hint) n := by
  obtain ⟨rs, hsized, rfl, hlen⟩ := h
  obtain ⟨herr, hitems⟩ := readHint_sizes id rs hsized
  refine ⟨herr, rs.map fun r => (r.key, r.encode.length), fun y hy => ?_, (sum_cover rs).le.trans hlen⟩
  obtain ⟨i, hi, rfl⟩ := List.mem_map.mp hy
  have hmem : (i.key, i.entry.size) ∈ rs.map fun r => (r.key, r.encode.length) := by
    rw [← hitems]
    exact List.mem_map_of_mem (f := fun i : HintItem => (i.key, i.entry.size)) hi
  obtain ⟨r, hr, heq⟩ := List.mem_map.mp hmem
  have hsize : r.encode.length = i.entry.size := congrArg Prod.snd heq
  exact ⟨hmem, hsize ▸ (hsized r hr).encode_lt⟩

/-- What the recovery of one file leaves of it. -/
structure Salvaged (d : Dir) (id : Nat) (b b' : Bytes) (st st' : Recovery) : Prop where
  bytes : st'.dir.bytes = Function.update d.bytes id (some b')
  hints : st'.dir.hints = d.hints
  kept : id ∈ d.hints → b' = b
  files : st'.files = st.files.insert id b'.length
  total : st'.total = st.total + b'.length
  reuse : ∀ df ∈ st'.reuseActive, df = ⟨id, b'.length⟩ ∨ df ∈ st.reuseActive
  charged : Charged (d.offers id) b'.length

variable {d : Dir} {st : Recovery} {id : Nat} {b : Bytes}

theorem salvaged_of_shelved (opts : Options) (hd : Shelved d) (hdir : st.dir = d) (hb : d.bytes id = some b)
    (isLast : Bool) :
    ∃ b', (isLast = false → b' = b) ∧ Salvaged d id b b' st (recoverFile opts isLast st id) := by
  obtain ⟨f, hf, rfl⟩ := Option.map_eq_some_iff.mp hb
  subst hdir
  have hself : st.dir.bytes = Function.update st.dir.bytes id (some f.bytes) :=
    (Function.update_eq_self_iff.mpr hb.symm).symm
  cases hhint : st.dir.hints[id]? with
  | some hint =>
    obtain ⟨b, hb', hitem⟩ := hd id hint hhint
    rw [hb] at hb'
    cases hb'
    obtain ⟨herr, hcharged⟩ := hitem.charged
    have heq : recoverFile opts isLast st id =
        { st with keys := (recoverFile opts isLast st id).keys
                  files := st.files.insert id f.bytes.length
                  nextID := (recoverFile opts isLast st id).nextID
                  maxSeq := (recoverFile opts isLast st id).maxSeq
                  total := st.total + f.bytes.length } := by
      simp only [recoverFile, hf, hhint, replayHint_eq, herr, Option.isNone_none, Bool.not_true, Bool.and_false,
        Bool.false_and, if_true, Bool.false_eq_true, if_false]
    have hoffers : st.dir.offers id = hintOffers id hint := by
      simp only [Dir.offers, hf, hhint, herr, Option.isNone_none, if_true, List.append_nil]
    rw [heq]
    exact ⟨f.bytes, fun _ => rfl, hself, rfl, fun _ => rfl, rfl, rfl, fun df hdf => .inr hdf, hoffers ▸ hcharged⟩
  | none =>
    have hoffers : st.dir.offers id = scanOffers id f.bytes := by rw [Dir.offers, hf, hhint]
    have hout : id ∉ st.dir.hints := by
      rw [Std.ExtTreeMap.mem_iff_isSome_getElem?, hhint]
      exact Bool.false_ne_true
    obtain ⟨hlay, -, t, -, hbytes⟩ := scanFile_spec f.bytes
    obtain ⟨kept, tail, hsplit, hopen, -, hcommit⟩ :=
      replay_commit id (records f.bytes) (records_sized f.bytes) st.keys st.maxSeq
    have hcommit : (scanIntoIndex id f.bytes st.keys st.maxSeq).commit = (encodeAll kept).length := by
      rw [← hcommit, ← hlay]
      rfl
    have hcut : f.bytes = encodeAll kept ++ (encodeAll tail ++ t) := by
      conv_lhs => rw [hbytes, hsplit]
      rw [encodeAll_append, List.append_assoc]
    have hreuse {n : Nat} {df : DataFile}
        (h : df ∈ if (isLast && decide (n < opts.limit)) = true then some ⟨id, n⟩ else st.reuseActive) :
        df = ⟨id, n⟩ ∨ df ∈ st.reuseActive := by
      split at h
      · exact .inl (Option.mem_some_iff.mp h).symm
      · exact .inr h
    rw [recoverFile_scanned opts isLast hf hhint]
    dsimp only
    rw [hcommit]
    by_cases htorn : (isLast && decide ((encodeAll kept).length < f.bytes.length)) = true
    · simp only [if_pos htorn]
      have htake : f.bytes.take (encodeAll kept).length = encodeAll kept := by
        conv_lhs => rw [hcut]
        exact List.take_left' rfl
      refine ⟨encodeAll kept, fun hl => ?_, ?_, rfl, fun hm => absurd hm hout, rfl, rfl, fun df hdf => hreuse hdf,
        hoffers ▸ charged_scan id hsplit hopen⟩
      · rw [hl] at htorn
        cases htorn
      · rw [Dir.bytes_insert, htake]
    · simp only [if_neg htorn]
      refine ⟨f.bytes, fun _ => rfl, hself, rfl, fun _ => rfl, rfl, rfl, fun df hdf => hreuse hdf, ?_⟩
      obtain ⟨cover, hcover, hsum⟩ := charged_scan id hsplit hopen
      refine hoffers ▸ ⟨cover, hcover, hsum.trans ?_⟩
      conv_rhs => rw [hcut]
      rw [List.length_append]
      exact Nat.le_add_right _ _

/-- A walk over whole files. -/
structure Walking (d : Dir) (done : List Nat) (st : Recovery) : Prop where
  dir : st.dir = d
  files : ∀ id : Nat, st.files[id]? = if id ∈ done then (d.bytes id).map List.length else none
  total : st.total = weight (fun _ n => n) st.files
  reuse : st.reuseActive = none
  charged : ∀ id ∈ done, Charged (d.offers id) (((d.bytes id).map List.length).getD 0)

theorem recoverFile_reuse (opts : Options) (st : Recovery) (id : Nat) :
    (recoverFile opts false st id).reuseActive = st.reuseActive := by
  rw [recoverFile]
  cases st.dir.data[id]? with
  | none => rfl
  | some f => simp

theorem Walking.step {done : List Nat} (h : Walking d done st) (opts : Options) (hd : Shelved d)
    (hb : d.bytes id = some b) (hnew : id ∉ done) :
    Walking d (done ++ [id]) (recoverFile opts false st id) := by
  obtain ⟨b', hsame, hr⟩ := salvaged_of_shelved opts hd h.dir hb false
  obtain rfl := hsame rfl
  have hnone : st.files[id]? = none := by rw [h.files, if_neg hnew]
  refine ⟨by rw [recoverFile_dir, h.dir], fun i => ?_, ?_, ?_, fun i hi => ?_⟩
  · rw [hr.files, Std.ExtTreeMap.getElem?_insert]
    by_cases hi : i = id
    · subst hi
      simp [hb]
    · simp [hi, Ne.symm hi, h.files]
  · rw [hr.total, hr.files, weight_insert_new hnone, h.total]
  · rw [recoverFile_reuse, h.reuse]
  · rcases List.mem_append.mp hi with hi | hi
    · exact h.charged i hi
    · rw [List.mem_singleton.mp hi, hb]
      exact hr.charged

theorem Walking.run {done : List Nat} (h : Walking d done st) (opts : Options) (hd : Shelved d) (ids : List Nat)
    (hnodup : (done ++ ids).Nodup)
    (hids : ∀ id ∈ ids, ∃ b, d.bytes id = some b) :
    Walking d (done ++ ids) (ids.foldl (recoverFile opts false) st) := by
  induction ids generalizing done st with
  | nil => rwa [List.append_nil]
  | cons id rest ih =>
    obtain ⟨b, hb⟩ := hids id (List.mem_cons_self ..)
    have hnew : id ∉ done := fun hm => (List.nodup_append.mp hnodup).2.2 id hm id (List.mem_cons_self ..) rfl
    have hsplit : done ++ id :: rest = done ++ [id] ++ rest := by rw [List.append_assoc, List.singleton_append]
    rw [hsplit] at hnodup ⊢
    exact ih (h.step opts hd hb hnew) hnodup fun i hi => hids i (List.mem_cons_of_mem _ hi)

theorem shelved_removeOrphanHints (hd : Shelved d) : Shelved (removeOrphanHints d) := by
  intro id hint hi
  have hmem : id ∈ (removeOrphanHints d).hints := by
    rw [Std.ExtTreeMap.mem_iff_isSome_getElem?, hi]
    rfl
  exact hd id hint ((hints_removeOrphanHints (mem_data_of_hint hmem)).symm.trans hi)

/-- **Recovery** leaves books in order, and an active file that is one of them. -/
theorem books_recover (hd : Shelved d) (opts : Options) (active : DataFile) :
    Books ((recoverFiles opts (Recovery.start d) (listDataFiles d)).store opts active) ∧
      ∀ df ∈ (recoverFiles opts (Recovery.start d) (listDataFiles d)).reuseActive,
        (recoverFiles opts (Recovery.start d) (listDataFiles d)).files[df.id]? = some df.size := by
  have hd₀ := shelved_removeOrphanHints hd
  have hkeys := (recoverFiles_offers opts (listDataFiles d) (Recovery.start d)).1
  have hids : ∀ id ∈ listDataFiles d, ∃ b, (removeOrphanHints d).bytes id = some b :=
    fun id hid => mem_listDataFiles.mp hid
  have hall (id : Nat) : id ∈ listDataFiles d ↔ ∃ b, (removeOrphanHints d).bytes id = some b := mem_listDataFiles
  have hnodup : (listDataFiles d).Nodup := (listDataFiles_ascending d).imp fun h => Nat.ne_of_lt h
  have hstart : Walking (removeOrphanHints d) [] (Recovery.start d) :=
    ⟨rfl, fun id => rfl, weight_empty.symm, rfl, fun id hid => (nomatch hid)⟩
  -- Where the entries come from, once the files are charged for their offers.
  have hbooks {st : Recovery} (hk : st.keys = (∅ : Index).installAll
    ((listDataFiles d).flatMap (removeOrphanHints d).offers))
      (hf : ∀ id, st.files[id]? = (st.dir.bytes id).map List.length)
      (hc : ∀ id ∈ listDataFiles d, Charged ((removeOrphanHints d).offers id) (st.files[id]?.getD 0))
      (ht : st.total = weight (fun _ n => n) st.files) (hh : Shelved st.dir) : Books (st.store opts active) := by
    have hfrom {k : Bytes} {e : Entry} (he : st.keys[k]? = some e) :
        e.fileID ∈ listDataFiles d ∧ (k, e) ∈ (removeOrphanHints d).offers e.fileID := by
      rw [hk] at he
      rcases Index.mem_installAll he with hm | hm
      · obtain ⟨id, hid, hm⟩ := List.mem_flatMap.mp hm
        rw [(mem_offers hm).1]
        exact ⟨hid, hm⟩
      · simp at hm
    refine ⟨hf, fun id => ?_, fun k e he => ?_, ?_, hh⟩
    · by_cases hid : id ∈ listDataFiles d
      · obtain ⟨cover, hcover, hsum⟩ := hc id hid
        exact ⟨cover, fun k e he hfile => (hcover _ (hfile ▸ (hfrom he).2)).1, hsum⟩
      · exact ⟨[], fun k e he hfile => absurd (hfile ▸ (hfrom he).1) hid, Nat.zero_le _⟩
    · obtain ⟨hid, hm⟩ := hfrom he
      obtain ⟨cover, hcover, -⟩ := hc _ hid
      exact (hcover _ hm).2
    · rw [usage_eq]
      exact congrArg Nat.cast ht
  rcases (listDataFiles d).eq_nil_or_concat' with hnil | ⟨init, last, hlist⟩
  · have hst : recoverFiles opts (Recovery.start d) (listDataFiles d) = Recovery.start d := by
      rw [hnil]
      rfl
    rw [hst] at hkeys ⊢
    refine ⟨hbooks hkeys (fun id => ?_) (fun id hid => by rw [hnil] at hid; cases hid) weight_empty.symm hd₀,
      fun df hdf => nomatch hdf⟩
    show (∅ : Std.ExtTreeMap Nat Nat compare)[id]? = _
    cases hb : (removeOrphanHints d).bytes id with
    | none => exact (congrArg (Option.map List.length) hb).symm
    | some b =>
      have := (hall id).mpr ⟨b, hb⟩
      rw [hnil] at this
      cases this
  · rw [hlist] at hnodup hids
    obtain ⟨hinit, -, hapart⟩ := List.nodup_append.mp hnodup
    have hnew : last ∉ init := fun hm => hapart last hm last (List.mem_singleton_self last) rfl
    obtain ⟨b, hb⟩ := hids last (List.mem_append_right _ (List.mem_singleton_self last))
    have hw := hstart.run opts hd₀ init hinit fun id hid => hids id (List.mem_append_left _ hid)
    rw [List.nil_append] at hw
    obtain ⟨b', -, hr⟩ := salvaged_of_shelved opts hd₀ hw.dir hb true
    have hst : recoverFiles opts (Recovery.start d) (listDataFiles d) =
        recoverFile opts true (init.foldl (recoverFile opts false) (Recovery.start d)) last := by
      rw [hlist, recoverFiles_concat]
    rw [hst] at hkeys ⊢
    generalize recoverFile opts true (init.foldl (recoverFile opts false) (Recovery.start d)) last = st' at hr hkeys ⊢
    have hfile (id : Nat) : st'.files[id]? = if id = last then some b'.length else
        if id ∈ init then ((removeOrphanHints d).bytes id).map List.length else none := by
      rw [hr.files, Std.ExtTreeMap.getElem?_insert, ← hw.files]
      by_cases hid : id = last
      · simp [hid]
      · simp [hid, Ne.symm hid]
    have hnone : (init.foldl (recoverFile opts false) (Recovery.start d)).files[last]? = none := by
      rw [hw.files, if_neg hnew]
    refine ⟨hbooks hkeys (fun id => ?_) (fun id hid => ?_) ?_ fun id hint hi => ?_, fun df hdf => ?_⟩
    · rw [hfile, hr.bytes]
      by_cases hid : id = last
      · simp [hid]
      · rw [if_neg hid, Function.update_of_ne hid]
        by_cases hin : id ∈ init
        · rw [if_pos hin]
        · rw [if_neg hin]
          cases hb : (removeOrphanHints d).bytes id with
          | none => rfl
          | some c =>
            have hm := (hall id).mpr ⟨c, hb⟩
            rw [hlist] at hm
            rcases List.mem_append.mp hm with hm | hm
            · exact absurd hm hin
            · exact absurd (List.mem_singleton.mp hm) hid
    · rw [hfile]
      by_cases hid' : id = last
      · rw [if_pos hid', hid']
        exact hr.charged
      · rw [if_neg hid']
        rw [hlist] at hid
        rcases List.mem_append.mp hid with hm | hm
        · rw [if_pos hm]
          exact hw.charged id hm
        · exact absurd (List.mem_singleton.mp hm) hid'
    · rw [hr.total, hr.files, weight_insert_new hnone, hw.total]
    · rw [hr.hints] at hi
      obtain ⟨c, hc, hitem⟩ := hd₀ id hint hi
      rw [hr.bytes]
      by_cases hid : id = last
      · subst hid
        have hmem : id ∈ (removeOrphanHints d).hints := by
          rw [Std.ExtTreeMap.mem_iff_isSome_getElem?, hi]
          rfl
        rw [hb] at hc
        cases hc
        exact ⟨b', Function.update_self .., hr.kept hmem ▸ hitem⟩
      · exact ⟨c, by rw [Function.update_of_ne hid, hc], hitem⟩
    · rcases hr.reuse df hdf with rfl | hdf
      · exact (hfile _).trans (if_pos rfl)
      · rw [hw.reuse] at hdf
        cases hdf

/-- The recount brings the live figures in line. -/
theorem Books.recount (h : Books s) (ha : s.files[s.active.id]? = some s.active.size) : Ledger s.recountLocked :=
  {(show Books s.recountLocked from h.congr rfl rfl rfl rfl rfl) with
    active := ha
    live := (weight_liveSize s).symm
    nLive := congrArg Nat.cast (weight_liveCount s).symm}

theorem ledger_open (hd : Shelved d) {opts : Options} (h : openStore opts d = .ok s) : Ledger s := by
  rw [openStore, recover] at h
  obtain ⟨-, hreuse⟩ := books_recover hd opts.applyDefaults ⟨0, 0⟩
  have hbooks := books_recover hd opts.applyDefaults
  generalize recoverFiles opts.applyDefaults (Recovery.start d) (listDataFiles d) = st at h hreuse hbooks
  cases hst : st.reuseActive with
  | some df =>
    rw [hst] at h
    cases h
    exact (hbooks df).1.recount (hreuse df hst)
  | none =>
    rw [hst] at h
    dsimp only at h
    by_cases hid : (st.store opts.applyDefaults ⟨0, 0⟩).nextID ∈ (st.store opts.applyDefaults ⟨0, 0⟩).dir.data
    · rw [openNewActive_exists hid] at h
      cases h
    · rw [openNewActive_fresh hid] at h
      cases h
      exact ((hbooks ⟨0, 0⟩).1.fresh hid).recount Std.ExtTreeMap.getElem?_insert_self

theorem Ledger.reopen (h : Ledger s) {opts : Options} (ho : openStore opts s.close = .ok s') : Ledger s' :=
  ledger_open (show Shelved s.close from h.sync.hints) ho

end Ledger

end Gokv.Engine
