import Gokv.Engine.Replica

/-! An append, whatever the file counter.

A rotation creates its file under the next id and fails if a file of that id exists,
which happens once the counter has wrapped. Here an append is looked at without a bound
on the counter: it grows the active file, or a fresh one, by its records (`Grown`), or it
fails at the rotation and leaves everything in place (`Stalled`). Where the records start
within the width of the offsets, the index gets locators that lead to them
(`Sound.writeLocked`). -/
namespace Gokv.Engine
open Base

section Appending
variable [Checksum] {s s' : Store} {recs : List Record}

/-- The active file is whole and appended to at its end, and the open file set is the
directory's. -/
structure Poised (s : Store) : Prop where
  active : ∃ b, s.dir.bytes s.active.id = some b ∧ b.length = s.active.size ∧ Intact b
  files : ∀ id, s.files[id]? = (s.dir.bytes id).map List.length

/-- What an append does, the index apart. -/
structure Grown (s s' : Store) (recs : List Record) : Prop where
  seq : s'.seq = s.seq
  closed : s'.closed = s.closed
  hints : s'.dir.hints = s.dir.hints
  active : s'.active.id = s.active.id ∨ s.dir.bytes s'.active.id = none
  bytes : s'.dir.bytes = Function.update s.dir.bytes s'.active.id
    (some ((s.dir.bytes s'.active.id).getD [] ++ encodeAll recs))

/-- What a rotation that fails leaves. -/
structure Stalled (s s' : Store) : Prop where
  keys : s'.keys = s.keys
  seq : s'.seq = s.seq
  closed : s'.closed = s.closed
  hints : s'.dir.hints = s.dir.hints
  active : s'.active = s.active
  bytes : s'.dir.bytes = s.dir.bytes

theorem Poised.same (h : Poised s) (hf : s'.files = s.files) (ha : s'.active = s.active)
    (hb : s'.dir.bytes = s.dir.bytes) : Poised s' := by
  obtain ⟨h1, h2⟩ := h
  exact ⟨by rwa [ha, hb], by rwa [hf, hb]⟩

/-- The file an append grows is whole. -/
theorem Grown.intact (hg : Grown s s' recs) (h : Poised s) : Intact ((s.dir.bytes s'.active.id).getD []) := by
  rcases hg.active with ha | hnone
  · obtain ⟨b, hb, -, hi⟩ := h.active
    rwa [ha, hb]
  · rw [hnone]
    exact intact_nil

/-! ### Rotation -/

/-- The store with a fresh active file under the next id. -/
def Store.fresh (s : Store) : Store :=
  {s with dir := {s.dir with data := s.dir.data.insert s.nextID ⟨[], 0⟩}, nextID := Store.succID s.nextID,
          files := s.files.insert s.nextID 0, active := ⟨s.nextID, 0⟩}

omit [Checksum] in
theorem openNewActive_exists (h : s.nextID ∈ s.dir.data) : s.openNewActive = (s, some .fileExists) := by
  rw [Store.openNewActive, Dir.create, if_pos h]

omit [Checksum] in
theorem openNewActive_fresh (h : s.nextID ∉ s.dir.data) : s.openNewActive = (s.fresh, none) := by
  rw [Store.openNewActive, Dir.create, if_neg h]
  rfl

omit [Checksum] in
theorem bytes_fresh (s : Store) : s.fresh.dir.bytes = Function.update s.dir.bytes s.nextID (some []) :=
  Dir.bytes_insert s.dir s.nextID ⟨[], 0⟩

omit [Checksum] in
theorem bytes_nextID (h : s.nextID ∉ s.dir.data) : s.dir.bytes s.nextID = none := by
  cases hc : s.dir.bytes s.nextID with
  | none => rfl
  | some c => exact absurd (Dir.mem_data.mpr ⟨c, hc⟩) h

/-- A fresh file leaves the store poised, whatever was active before. -/
theorem poised_fresh (hfiles : ∀ id, s.files[id]? = (s.dir.bytes id).map List.length) : Poised s.fresh := by
  refine ⟨⟨[], ?_, rfl, intact_nil⟩, fun i => ?_⟩
  · rw [bytes_fresh]
    exact Function.update_self ..
  · rw [bytes_fresh]
    show (s.files.insert s.nextID 0)[i]? = _
    rw [Std.ExtTreeMap.getElem?_insert]
    by_cases hid : i = s.nextID
    · subst hid
      simp
    · simp [hid, Ne.symm hid, hfiles]

/-- A rotation is due, and a file of the next id exists. -/
def Store.Stalls (s : Store) (n : Nat) : Prop :=
  ¬ (s.active.size = 0 ∨ s.active.size + n ≤ s.opts.limit) ∧ s.nextID ∈ s.dir.data

instance (s : Store) (n : Nat) : Decidable (s.Stalls n) := inferInstanceAs (Decidable (_ ∧ _))

/-- **A rotation** opens a fresh file, is not needed, or fails on a file that exists. -/
theorem Poised.maybeRotate (h : Poised s) (n : Nat) :
    (¬ s.Stalls n ∧ ∃ s', s.maybeRotateLocked n = (s', none) ∧ Poised s' ∧ Grown s s' [] ∧ s'.keys = s.keys) ∨
      s.Stalls n ∧ ∃ s', s.maybeRotateLocked n = (s', some .fileExists) ∧ Poised s' ∧ Stalled s s' := by
  obtain ⟨b, hb, hsize, hi⟩ := h.active
  rw [Store.maybeRotateLocked]
  by_cases hroom : s.active.size = 0 ∨ s.active.size + n ≤ s.opts.limit
  · refine .inl ⟨fun hst => hst.1 hroom, s, by rw [if_pos hroom], h, ⟨rfl, rfl, rfl, .inl rfl, ?_⟩, rfl⟩
    rw [hb, Option.getD_some, encodeAll_nil, List.append_nil]
    exact (Function.update_eq_self_iff.mpr hb.symm).symm
  · obtain ⟨d, hd, hbytes, hhints, -, -⟩ := Dir.sync_ok hb
    have hmem : s.nextID ∈ d.data ↔ s.nextID ∈ s.dir.data := by rw [Dir.mem_data, Dir.mem_data, hbytes]
    rw [if_neg hroom, hd]
    simp only
    by_cases hm : s.nextID ∈ d.data
    · rw [openNewActive_exists (s := {s with dir := d}) hm]
      exact .inr ⟨⟨hroom, hmem.mp hm⟩, _, rfl, h.same rfl rfl hbytes, rfl, rfl, rfl, hhints, rfl, hbytes⟩
    · have hnone : s.dir.bytes s.nextID = none := by
        rw [← hbytes]
        exact bytes_nextID (s := {s with dir := d}) hm
      rw [openNewActive_fresh (s := {s with dir := d}) hm]
      have hfresh : Poised (Store.fresh {s with dir := d}) := poised_fresh fun id => by
        show s.files[id]? = (d.bytes id).map _
        rw [hbytes]
        exact h.files id
      refine .inl ⟨fun hst => hm (hmem.mpr hst.2), _, rfl, hfresh.same rfl rfl rfl,
        ⟨rfl, rfl, hhints, .inr hnone, ?_⟩, rfl⟩
      show (Store.fresh {s with dir := d}).dir.bytes =
        Function.update s.dir.bytes s.nextID (some ((s.dir.bytes s.nextID).getD [] ++ []))
      rw [bytes_fresh, hnone]
      show Function.update d.bytes s.nextID _ = _
      rw [hbytes]
      rfl

/-! ### The append -/

/-- **The append** grows one file by its records, or fails at the rotation. -/
theorem Poised.logWrite (h : Poised s) (hs : ∀ r ∈ recs, r.Sized) :
    (¬ s.Stalls (encodeAll recs).length ∧
      ∃ s', s.logWrite recs = (s', .ok (Store.writeEntries s'.active.id ((s.dir.bytes s'.active.id).getD []).length recs
        (Store.writeBuffer [] recs).2)) ∧ Poised s' ∧ Grown s s' recs ∧ s'.keys = s.keys) ∨
      s.Stalls (encodeAll recs).length ∧
        ∃ s', s.logWrite recs = (s', .error .fileExists) ∧ Poised s' ∧ Stalled s s' := by
  have hbuf : Store.writeBuffer [] recs = (encodeAll recs, (Store.writeBuffer [] recs).2) := by
    rw [writeBuffer_eq, List.nil_append]
  rw [Store.logWrite, hbuf]
  rcases h.maybeRotate (encodeAll recs).length with ⟨hno, s₁, hrot, h₁, hg, hkeys⟩ | ⟨hstall, s₁, hrot, h₁, hst⟩
  · obtain ⟨b, hb, hsize, hi⟩ := h₁.active
    have hgetD : (s.dir.bytes s₁.active.id).getD [] = b := by
      have := congrFun hg.bytes s₁.active.id
      rw [Function.update_self, hb, encodeAll_nil, List.append_nil] at this
      exact (Option.some.inj this).symm
    obtain ⟨d, hd, hbytes, hhints, -, -⟩ := Dir.writeAt_end hb (encodeAll recs)
    have hall : d.bytes = Function.update s.dir.bytes s₁.active.id
        (some ((s.dir.bytes s₁.active.id).getD [] ++ encodeAll recs)) := by
      rw [hbytes, hg.bytes, Function.update_idem, hgetD]
    have hpoised {d' : Dir} (hd' : d'.bytes = d.bytes) (t : Int) (dirty : Bool) :
        Poised {s₁ with dir := d', active := ⟨s₁.active.id, s₁.active.size + (encodeAll recs).length⟩,
                        files := s₁.files.alter s₁.active.id
                          (Option.map fun _ => s₁.active.size + (encodeAll recs).length),
                        total := t, dirty := dirty} := by
      refine ⟨⟨b ++ encodeAll recs, ?_, ?_, hi.append recs hs⟩, fun i => ?_⟩
      · show d'.bytes s₁.active.id = _
        rw [hd', hbytes, Function.update_self]
      · rw [List.length_append, hsize]
      · show (s₁.files.alter _ _)[i]? = (d'.bytes i).map _
        rw [hd', hbytes, Std.ExtTreeMap.getElem?_alter]
        by_cases hid : i = s₁.active.id
        · subst hid
          simp [h₁.files, hb, hsize]
        · simp [hid, Ne.symm hid, h₁.files]
    rw [hsize] at hd
    simp only [hrot, hd]
    by_cases hsync : s₁.opts.syncMode = .always
    · have hb₂ : d.bytes s₁.active.id = some (b ++ encodeAll recs) := by rw [hbytes, Function.update_self]
      obtain ⟨d', hd', hbytes', hhints', -⟩ := Dir.sync_ok hb₂
      simp only [if_pos hsync, hd']
      exact .inl ⟨hno, _, by rw [hgetD, hsize], hpoised hbytes' _ _, ⟨hg.seq, hg.closed,
        hhints'.trans (hhints.trans hg.hints), hg.active, hbytes'.trans hall⟩, hkeys⟩
    · simp only [if_neg hsync]
      exact .inl ⟨hno, _, by rw [hgetD, hsize], hpoised rfl _ _, ⟨hg.seq, hg.closed, hhints.trans hg.hints,
        hg.active, hall⟩, hkeys⟩
  · simp only [hrot]
    exact .inr ⟨hstall, s₁, rfl, h₁, hst⟩

/-- The locators an append makes of its records. -/
def Store.madeEntries (s s' : Store) (recs : List Record) : List (Bytes × Entry) :=
  Store.writeEntries s'.active.id ((s.dir.bytes s'.active.id).getD []).length recs (Store.writeBuffer [] recs).2

theorem Poised.writeLocked_cases (h : Poised s) (hs : ∀ r ∈ recs, r.Sized) :
    (¬ s.Stalls (encodeAll recs).length ∧ ∃ s', s.writeLocked recs = (s', none) ∧ Poised s' ∧ Grown s s' recs ∧
      s'.keys = s.keys.installAll (s.madeEntries s' recs)) ∨
      s.Stalls (encodeAll recs).length ∧
        ∃ s', s.writeLocked recs = (s', some .fileExists) ∧ Poised s' ∧ Stalled s s' := by
  rw [Store.writeLocked]
  rcases h.logWrite hs with ⟨hno, s₁, hlog, h₁, hg, hkeys⟩ | ⟨hstall, s₁, hlog, h₁, hst⟩
  · rw [hlog]
    obtain ⟨l, n, heq⟩ := indexWrite_eq s₁ (s.madeEntries s₁ recs)
    refine .inl ⟨hno, s₁.indexWrite (s.madeEntries s₁ recs), rfl, ?_, ?_, ?_⟩
    · rw [heq]
      exact h₁.same rfl rfl rfl
    · rw [heq]
      exact ⟨hg.seq, hg.closed, hg.hints, hg.active, hg.bytes⟩
    · rw [heq, ← hkeys]
      rfl
  · rw [hlog]
    exact .inr ⟨hstall, s₁, rfl, h₁, hst⟩

theorem Poised.writeLocked (h : Poised s) (hs : ∀ r ∈ recs, r.Sized) :
    (∃ s', s.writeLocked recs = (s', none) ∧ Poised s' ∧ Grown s s' recs ∧
      s'.keys = s.keys.installAll (s.madeEntries s' recs)) ∨
      ∃ s', s.writeLocked recs = (s', some .fileExists) ∧ Poised s' ∧ Stalled s s' :=
  (h.writeLocked_cases hs).imp And.right And.right

/-- **A write fails exactly if it stalls.** -/
theorem Poised.writeLocked_ok (h : Poised s) (hs : ∀ r ∈ recs, r.Sized) :
    (s.writeLocked recs).2 = none ↔ ¬ s.Stalls (encodeAll recs).length := by
  rcases h.writeLocked_cases hs with ⟨hno, s', hw, -⟩ | ⟨hstall, s', hw, -⟩
  · rw [hw]
    exact iff_of_true rfl hno
  · rw [hw]
    exact iff_of_false nofun (not_not.mpr hstall)

/-! ### Sizes and ids -/

/-- How an append of `n` bytes uses up files: the active file ends within the limit, or it
holds nothing else; at most one id is taken. -/
structure Paced (s s' : Store) (n : Nat) : Prop where
  opts : s'.opts = s.opts
  size : s'.active.size ≤ max s.opts.limit n
  ids : s'.active.id = s.active.id ∧ s'.nextID = s.nextID ∨
    s'.active.id = s.nextID ∧ s'.nextID = Store.succID s.nextID

omit [Checksum] in
theorem maybeRotate_paced {n : Nat} (h : s.maybeRotateLocked n = (s', none)) :
    Paced s s' s'.active.size ∧ (s'.active.size = 0 ∨ s'.active.size + n ≤ s.opts.limit) := by
  rw [Store.maybeRotateLocked] at h
  split at h
  case isTrue hroom =>
    cases h
    exact ⟨⟨rfl, le_max_right _ _, .inl ⟨rfl, rfl⟩⟩, hroom⟩
  case isFalse =>
    cases hd : s.dir.sync s.active.id with
    | error e => simp [hd] at h
    | ok d =>
      rw [hd] at h
      simp only [Store.openNewActive] at h
      cases hc : d.create s.nextID with
      | error e => simp [hc] at h
      | ok d' =>
        rw [hc] at h
        cases h
        exact ⟨⟨rfl, Nat.zero_le _, .inr ⟨rfl, rfl⟩⟩, .inl rfl⟩

theorem writeLocked_paced (h : s.writeLocked recs = (s', none)) : Paced s s' (encodeAll recs).length := by
  have hbuf : (Store.writeBuffer [] recs).1 = encodeAll recs := by rw [writeBuffer_eq, List.nil_append]
  rw [Store.writeLocked, Store.logWrite] at h
  simp only [hbuf] at h
  cases hrot : s.maybeRotateLocked (encodeAll recs).length with
  | mk s₁ err =>
    cases err with
    | some e => simp [hrot] at h
    | none =>
      obtain ⟨hp, hroom⟩ := maybeRotate_paced hrot
      have hsize : s₁.active.size + (encodeAll recs).length ≤ max s.opts.limit (encodeAll recs).length := by
        rcases hroom with hz | hle
        · rw [hz, Nat.zero_add]
          exact le_max_right _ _
        · exact hle.trans (le_max_left _ _)
      have hdone {t : Store} {es : List (Bytes × Entry)} (ht : t.indexWrite es = s') (hopts : t.opts = s₁.opts)
          (hact : t.active = ⟨s₁.active.id, s₁.active.size + (encodeAll recs).length⟩) (hnext : t.nextID = s₁.nextID) :
          Paced s s' (encodeAll recs).length := by
        obtain ⟨l, n, heq⟩ := indexWrite_eq t es
        rw [heq] at ht
        subst ht
        refine ⟨hopts.trans hp.opts, ?_, ?_⟩
        · show t.active.size ≤ _
          rw [hact]
          exact hsize
        · show t.active.id = _ ∧ t.nextID = _ ∨ t.active.id = _ ∧ t.nextID = _
          rw [hact, hnext]
          exact hp.ids
      rw [hrot] at h
      simp only at h
      cases hw : s₁.dir.writeAt s₁.active.id s₁.active.size (encodeAll recs) with
      | error e => simp [hw] at h
      | ok d =>
        simp only [hw] at h
        by_cases hsync : s₁.opts.syncMode = .always
        · simp only [if_pos hsync] at h
          cases hd : d.sync s₁.active.id with
          | error e => simp [hd] at h
          | ok d' =>
            simp only [hd] at h
            exact hdone (Prod.mk.inj h).1 rfl rfl rfl
        · simp only [if_neg hsync] at h
          exact hdone (Prod.mk.inj h).1 rfl rfl rfl

/-! ### The locators -/

/-- A poised store whose locators lead to their records. -/
structure Sound (s : Store) : Prop extends Poised s where
  located : ∀ k e, s.keys[k]? = some e → ∃ r, Located .every s.dir.bytes k e r

/-- Locators survive an append. -/
theorem Grown.located (hg : Grown s s' recs) (h : Poised s) (hs : ∀ r ∈ recs, r.Sized) {k : Bytes} {e : Entry}
    {r : Record} (hr : Located .every s.dir.bytes k e r) : Located .every s'.dir.bytes k e r := by
  have hi := hg.intact h
  rw [hg.bytes]
  cases hb : s.dir.bytes s'.active.id with
  | some b =>
    rw [hb] at hi
    exact hr.append hb hi trivial hs trivial
  | none =>
    rw [Option.getD_none, ← Function.update_idem (a := s'.active.id) (v := some [])]
    exact (hr.create hb).append (Function.update_self ..) intact_nil trivial hs trivial

/-- Within the width of the offsets the locators lead to the records. -/
theorem Grown.madeEntries (hg : Grown s s' recs) (h : Poised s) (hs : ∀ r ∈ recs, r.Sized) (ha : Addressable recs) :
    ∃ pend : Pending, s.madeEntries s' recs = pend.entries ∧ pend.map Prod.snd = recs ∧
      ∀ x ∈ pend, Located .every s'.dir.bytes x.2.key x.1 x.2 :=
  ⟨placed s'.active.id ((s.dir.bytes s'.active.id).getD []).length recs, writeEntries_eq _ _ _ ha,
    placed_records .., located_placed s'.active.id (hg.intact h) trivial hs trivial
      (by rw [hg.bytes, Function.update_self])⟩

/-- **An append that succeeds offers its records** to what the store shows. -/
theorem Sound.writeLocked (h : Sound s) (hs : ∀ r ∈ recs, r.Sized) (ha : Addressable recs) :
    (∃ s', s.writeLocked recs = (s', none) ∧ Sound s' ∧ Grown s s' recs ∧
      s'.view = Newest.offerAll s.view (recs.map Record.version)) ∨
      ∃ s', s.writeLocked recs = (s', some .fileExists) ∧ Sound s' ∧ Stalled s s' := by
  rcases h.toPoised.writeLocked hs with ⟨s', hs', h', hg, hkeys⟩ | ⟨s', hs', h', hst⟩
  · obtain ⟨pend, hmade, hrecs, hnew⟩ := hg.madeEntries h.toPoised hs ha
    rw [hmade] at hkeys
    refine .inl ⟨s', hs', ⟨h', fun k e he => ?_⟩, hg, ?_⟩
    · rw [hkeys] at he
      rcases Index.mem_installAll he with hmem | hmem
      · obtain ⟨x, hx, hxe⟩ := List.mem_map.mp hmem
        cases hxe
        exact ⟨x.2, hnew x hx⟩
      · obtain ⟨r, hr⟩ := h.located k e hmem
        exact ⟨r, hg.located h.toPoised hs hr⟩
    · have hversions : pend.entries.map (fun x => (x.1, x.2.seq.toNat, valueAt s'.dir x.2)) =
          recs.map Record.version := by
        rw [← hrecs, Pending.entries, List.map_map, List.map_map]
        refine List.map_congr_left fun x hx => ?_
        have hx := hnew x hx
        simp only [Function.comp_apply, hx.valueAt_eq, hx.seq, Record.version]
      have hview : s.keys.versions (valueAt s'.dir) = s.view := by
        refine Index.versions_congr s.keys fun k e he => ?_
        obtain ⟨r, hr⟩ := h.located k e he
        rw [hr.valueAt_eq, (hg.located h.toPoised hs hr).valueAt_eq]
      rw [Store.view, hkeys, Index.versions_installAll, hversions, hview]
  · refine .inr ⟨s', hs', ⟨h', fun k e he => ?_⟩, hst⟩
    rw [hst.keys] at he
    rw [hst.bytes]
    exact h.located k e he

end Appending

end Gokv.Engine
