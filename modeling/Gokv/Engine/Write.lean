import Gokv.Engine.Invariant

/-! The write path keeps the invariant.

`logWrite` appends a whole group to the active file, rotating first if it has to,
and hands back one locator per record; as long as the records start below the
32-bit width of the offsets, those are the locators a scan of the file would find
(`writeEntries_eq`). `Appended` is all a write does to the store before it touches
the index, and `indexWrite` then installs the locators. -/
namespace Gokv.Engine
open Base

section Write
variable [Checksum] {ρ : Reading} {s : Store} {pend : Pending}

/-- Every record of the list starts at an offset that 32 bits can hold. -/
def Addressable (recs : List Record) : Prop := ∀ x ∈ layout 0 recs, x.pos < 2 ^ 32

/-- Records laid out from `base` on in file `id`, with their locators. -/
def placed (id base : Nat) (recs : List Record) : Pending :=
  (layout base recs).map fun x => (x.entry id, x.record)

theorem placed_records (id base : Nat) (recs : List Record) : (placed id base recs).map Prod.snd = recs := by
  rw [placed, List.map_map]
  exact layout_records base recs

/-! ### The buffer of a write -/

theorem writeBuffer_eq (buf : Bytes) (recs : List Record) :
    Store.writeBuffer buf recs =
      (buf ++ encodeAll recs, (layout buf.length recs).map fun x => x.pos % 2 ^ 32) := by
  induction recs generalizing buf with
  | nil => simp [Store.writeBuffer, layout]
  | cons r rest ih =>
    simp only [Store.writeBuffer, appendRecord, ih, layout, List.map_cons, encodeAll_cons,
      List.append_assoc, List.length_append]

theorem writeEntries_layout (id base pos : Nat) (recs : List Record)
    (h : ∀ x ∈ layout pos recs, x.pos < 2 ^ 32) :
    Store.writeEntries id base recs ((layout pos recs).map fun x => x.pos % 2 ^ 32) =
      (placed id (base + pos) recs).entries := by
  induction recs generalizing pos with
  | nil => rfl
  | cons r rest ih =>
    have hpos : pos < 2 ^ 32 := h ⟨pos, r.encode, r⟩ (List.mem_cons_self ..)
    have hsize : encodedSize r.key.length r.value.length = r.encode.length % 2 ^ 32 := by
      rw [r.length_encode, encodedSize]
    have hrest := ih (pos + r.encode.length) fun x hx => h x (List.mem_cons_of_mem _ hx)
    rw [Store.writeEntries] at hrest ⊢
    rw [layout, List.map_cons, List.zipWith_cons_cons, hrest, Nat.mod_eq_of_lt hpos, hsize,
      ← Nat.add_assoc]
    rfl

/-- **Within the width of the offsets, a write indexes its records where they are.** -/
theorem writeEntries_eq (id base : Nat) (recs : List Record) (h : Addressable recs) :
    Store.writeEntries id base recs (Store.writeBuffer [] recs).2 =
      (placed id base recs).entries := by
  rw [writeBuffer_eq]
  exact writeEntries_layout id base 0 recs h

/-- The buffer of an addressable write is not much longer than the offsets reach. -/
theorem Addressable.length_lt {recs : List Record} (h : Addressable recs) (hs : ∀ r ∈ recs, r.Sized) :
    (encodeAll recs).length < 2 ^ 33 := by
  rcases recs.eq_nil_or_concat with rfl | ⟨init, r, rfl⟩
  · show 0 < 2 ^ 33
    decide
  · rw [List.concat_eq_append] at h hs ⊢
    have hr := (hs r (List.mem_append_right _ (List.mem_singleton_self r))).lt
    have hpos := h ⟨0 + (encodeAll init).length, r.encode, r⟩ (layout_mem 0)
    simp only [encodeAll_append, encodeAll_cons, encodeAll_nil, List.append_nil, List.length_append,
      r.length_encode] at hpos ⊢
    omega

theorem addressable_single (r : Record) : Addressable [r] := by
  intro x hx
  rw [layout, layout, List.mem_singleton] at hx
  rw [hx]
  show 0 < 2 ^ 32
  decide

theorem addressable_of_length_le {recs : List Record} (h : (encodeAll recs).length ≤ 2 ^ 32) : Addressable recs := by
  intro x hx
  obtain ⟨before, after, hsplit, hpos, -⟩ := mem_layout hx
  rw [hsplit, encodeAll_append, encodeAll_cons, List.length_append, List.length_append, Record.length_encode,
    recordHeaderSize] at h
  rw [hpos]
  omega

theorem addressable_of_length {recs : List Record} (h : (encodeAll recs).length < 2 ^ 32) : Addressable recs :=
  addressable_of_length_le h.le

/-! ### Rotation -/

omit [Checksum] in
theorem succID_eq {id : Nat} (h : id + 1 < 2 ^ 32) : Store.succID id = id + 1 := Nat.mod_eq_of_lt h

/-- The store with a fresh data file. -/
def Store.created (s : Store) : Store :=
  {s with dir := {s.dir with data := s.dir.data.insert s.nextID ⟨[], 0⟩}, nextID := s.nextID + 1,
          files := s.files.insert s.nextID 0}

/-- The store with a fresh active file. -/
def Store.withActive (s : Store) : Store := {s.created with active := ⟨s.nextID, 0⟩}

theorem Mounted.notMem_nextID (h : Mounted ρ s pend) : s.dir.bytes s.nextID = none := by
  cases hb : s.dir.bytes s.nextID with
  | none => rfl
  | some b => exact absurd (h.fresh _ b hb) (lt_irrefl _)

omit [Checksum] in
theorem bytes_created (s : Store) :
    s.created.dir.bytes = Function.update s.dir.bytes s.nextID (some []) :=
  Dir.bytes_insert s.dir s.nextID ⟨[], 0⟩

omit [Checksum] in
theorem bytes_withActive (s : Store) :
    s.withActive.dir.bytes = Function.update s.dir.bytes s.nextID (some []) := bytes_created s

theorem Mounted.create_ok (h : Mounted ρ s pend) :
    s.dir.create s.nextID = .ok {s.dir with data := s.dir.data.insert s.nextID ⟨[], 0⟩} := by
  refine if_neg fun hm => ?_
  obtain ⟨b, hb⟩ := Dir.mem_data.mp hm
  rw [h.notMem_nextID] at hb
  cases hb

theorem Mounted.openNewActive (h : Mounted ρ s pend) (hid : s.nextID + 1 < 2 ^ 32) :
    s.openNewActive = (s.withActive, none) := by
  rw [Store.openNewActive, h.create_ok]
  simp only [succID_eq hid, Store.withActive, Store.created]

omit [Checksum] in
/-- Where a fresh file was created, the others are as before. -/
theorem update_some {B : Nat → Option Bytes} {id i : Nat} {b c : Bytes}
    (h : Function.update B id (some b) i = some c) : i = id ∧ c = b ∨ i ≠ id ∧ B i = some c := by
  by_cases hi : i = id
  · subst hi
    rw [Function.update_self] at h
    exact .inl ⟨rfl, (Option.some.inj h).symm⟩
  · rw [Function.update_of_ne hi] at h
    exact .inr ⟨hi, h⟩

theorem DirOk.create {d d' : Dir} {id : Nat} (h : DirOk ρ d)
    (hb : d'.bytes = Function.update d.bytes id (some [])) (hh : d'.hints = d.hints)
    (hno : id ∉ d.hints) : DirOk ρ d' where
  sizes i b hi := by
    rw [hb] at hi
    rcases update_some hi with ⟨rfl, rfl⟩ | ⟨_, hi⟩
    · show 0 < 2 ^ 63
      decide
    · exact h.sizes i b hi
  tidy i b hi := by
    rw [hb] at hi
    rcases update_some hi with ⟨rfl, rfl⟩ | ⟨_, hi⟩
    · exact Reading.whole_nil.tidy
    · exact h.tidy i b hi
  hints i c b hc hi := by
    rw [hb] at hi
    rw [hh] at hc
    rcases update_some hi with ⟨rfl, rfl⟩ | ⟨_, hi⟩
    · exact absurd (Std.ExtTreeMap.mem_iff_isSome_getElem?.mpr (by rw [hc]; rfl)) hno
    · exact h.hints i c b hc hi

theorem Mounted.created (h : Mounted ρ s pend) : Mounted ρ s.created pend where
  running := h.running
  dir := h.dir.create (bytes_created s) rfl fun hm => absurd (h.hintIDs _ (.inl hm)) (lt_irrefl _)
  files id := by
    rw [bytes_created]
    show (s.files.insert s.nextID 0)[id]? = _
    rw [Std.ExtTreeMap.getElem?_insert]
    by_cases hi : id = s.nextID
    · subst hi
      simp
    · simp [hi, Ne.symm hi, h.files]
  fresh id b hb := by
    rw [bytes_created] at hb
    show id < s.nextID + 1
    rcases update_some hb with ⟨rfl, _⟩ | ⟨_, hb⟩
    · exact Nat.lt_succ_self _
    · exact (h.fresh id b hb).trans (Nat.lt_succ_self _)
  hintIDs id hid := (h.hintIDs id hid).trans (Nat.lt_succ_self _)
  hinting id b hid hb := by
    rw [bytes_created] at hb
    rcases update_some hb with ⟨_, rfl⟩ | ⟨_, hb⟩
    · exact Reading.whole_nil
    · exact h.hinting id b hid hb
  located k e he := by
    obtain ⟨r, hr⟩ := h.located k e he
    exact ⟨r, bytes_created s ▸ hr.create h.notMem_nextID⟩
  pending x hx := bytes_created s ▸ (h.pending x hx).create h.notMem_nextID

/-- **A fresh active file**: the structure stays, whatever was active before. -/
theorem Mounted.withActive (h : Mounted ρ s pend) : Wf ρ s.withActive pend where
  toMounted := h.created.same ⟨rfl, rfl, rfl, rfl, rfl, rfl, rfl⟩
  active := ⟨[], by rw [bytes_withActive]; exact Function.update_self .., rfl, intact_nil,
    Reading.whole_nil⟩
  noHint hm := absurd (h.hintIDs _ hm) (lt_irrefl _)

/-- What a write does to the store before it touches the index. -/
structure Appended (s s' : Store) (recs : List Record) : Prop where
  seq : s'.seq = s.seq
  mergeSeq : s'.mergeSeq = s.mergeSeq
  opts : s'.opts = s.opts
  hints : s'.dir.hints = s.dir.hints
  manifest : s'.dir.manifest = s.dir.manifest
  /-- The active file stays, or a fresh one takes its place and the old one waits for
  its hint. -/
  active : s'.active.id = s.active.id ∧ s'.nextID = s.nextID ∧ s'.hinting = s.hinting ∨
    s'.active.id = s.nextID ∧ s'.nextID = s.nextID + 1 ∧ s'.hinting = s.active.id :: s.hinting
  bytes : s'.dir.bytes = Function.update s.dir.bytes s'.active.id
    (some ((s.dir.bytes s'.active.id).getD [] ++ encodeAll recs))

theorem Wf.maybeRotate (h : Wf ρ s []) (n : Nat) (hid : s.nextID + 1 < 2 ^ 32) :
    ∃ s', s.maybeRotateLocked n = (s', none) ∧ Wf ρ s' [] ∧ Appended s s' [] ∧ s'.keys = s.keys ∧
      (s'.active.size = 0 ∨ s'.active.size + n ≤ s'.opts.limit) := by
  obtain ⟨b, hb, hsize, hi, hw⟩ := h.active
  rw [Store.maybeRotateLocked]
  by_cases hroom : s.active.size = 0 ∨ s.active.size + n ≤ s.opts.limit
  · refine ⟨s, by rw [if_pos hroom], h, ?_, rfl, hroom⟩
    refine ⟨rfl, rfl, rfl, rfl, rfl, .inl ⟨rfl, rfl, rfl⟩, ?_⟩
    rw [hb, Option.getD_some, encodeAll_nil, List.append_nil]
    exact (Function.update_eq_self_iff.mpr hb.symm).symm
  · obtain ⟨d, hd, hbytes, hhints, hman, _⟩ := Dir.sync_ok hb
    have hm : Mounted ρ {s with dir := d} [] :=
      h.toMounted.same ⟨rfl, hbytes, hhints, rfl, rfl, rfl, rfl⟩
    -- The old active file is whole, so it may wait for its hint.
    have hm' : Mounted ρ {s with dir := d, dirty := false, hinting := s.active.id :: s.hinting} [] := by
      refine {hm with
        hintIDs := fun id hid => ?_
        hinting := fun id c hid hc => ?_ }
      · rcases hid with hid | hid
        · exact hm.hintIDs id (.inl hid)
        · rcases List.mem_cons.mp hid with rfl | hid
          · exact h.fresh _ b hb
          · exact hm.hintIDs id (.inr hid)
      · rcases List.mem_cons.mp hid with rfl | hid
        · rw [show ({s with dir := d, dirty := false, hinting := s.active.id :: s.hinting} : Store).dir.bytes
            = s.dir.bytes from hbytes, hb] at hc
          cases hc
          exact hw
        · exact hm.hinting id c hid hc
    refine ⟨_, ?_, hm'.withActive, ?_, rfl, .inl rfl⟩
    · rw [if_neg hroom, hd]
      simp only [hm.openNewActive hid]
      rfl
    · refine ⟨rfl, rfl, rfl, hhints, hman, .inr ⟨rfl, rfl, rfl⟩, ?_⟩
      rw [bytes_withActive]
      show Function.update d.bytes s.nextID (some []) =
        Function.update s.dir.bytes s.nextID (some ((s.dir.bytes s.nextID).getD [] ++ []))
      rw [hbytes, h.notMem_nextID]
      rfl

/-! ### The append -/

theorem DirOk.append {d d' : Dir} {id : Nat} {b : Bytes} {recs : List Record} (h : DirOk ρ d)
    (hi : Intact b) (hw : ρ.Whole (records b))
    (hb : d'.bytes = Function.update d.bytes id (some (b ++ encodeAll recs)))
    (hh : d'.hints = d.hints) (hno : id ∉ d.hints) (hs : ∀ r ∈ recs, r.Sized) (hg : ρ.Whole recs)
    (hlen : (b ++ encodeAll recs).length < 2 ^ 63) : DirOk ρ d' where
  sizes i c hc := by
    rw [hb] at hc
    rcases update_some hc with ⟨rfl, rfl⟩ | ⟨_, hc⟩
    · exact hlen
    · exact h.sizes i c hc
  tidy i c hc := by
    rw [hb] at hc
    rcases update_some hc with ⟨rfl, rfl⟩ | ⟨_, hc⟩
    · rw [hi.records_append recs hs]
      exact (hw.append hg).tidy
    · exact h.tidy i c hc
  hints i c b' hc hi' := by
    rw [hb] at hi'
    rw [hh] at hc
    rcases update_some hi' with ⟨rfl, rfl⟩ | ⟨_, hi'⟩
    · exact absurd (Std.ExtTreeMap.mem_iff_isSome_getElem?.mpr (by rw [hc]; rfl)) hno
    · exact h.hints i c b' hc hi'

/-- The locators of appended records lead to them. -/
theorem located_placed {B : Nat → Option Bytes} (id : Nat) {b : Bytes} {recs : List Record}
    (hi : Intact b) (hw : ρ.Whole (records b)) (hs : ∀ r ∈ recs, r.Sized) (hg : ρ.Whole recs)
    (hB : B id = some (b ++ encodeAll recs)) :
    ∀ x ∈ placed id b.length recs, Located ρ B x.2.key x.1 x.2 := by
  intro _ hmem
  obtain ⟨x, hx, rfl⟩ := List.mem_map.mp hmem
  have hrec := hi.records_append recs hs
  have hscan : x ∈ (scanFile (b ++ encodeAll recs)).1 := by
    rw [(scanFile_spec _).1, hrec, layout_append, hi, Nat.zero_add]
    exact List.mem_append_right _ hx
  have hr : x.record ∈ recs := by
    obtain ⟨before, after, hsplit, _⟩ := mem_layout hx
    rw [hsplit]
    exact List.mem_append_right _ (List.mem_cons_self ..)
  refine located_scanned hB hscan ?_
  rw [hrec, (hw.append hg).take_eq]
  exact List.mem_append_right _ hr

/-- An append of a whole group to a file without a hint. -/
theorem Mounted.appendTo (h : Mounted ρ s pend) {id : Nat} {b : Bytes} {d : Dir} {recs : List Record}
    (hb : s.dir.bytes id = some b) (hi : Intact b) (hw : ρ.Whole (records b))
    (hno : ¬ (id ∈ s.dir.hints ∨ id ∈ s.hinting))
    (hd : d.bytes = Function.update s.dir.bytes id (some (b ++ encodeAll recs)))
    (hh : d.hints = s.dir.hints) (hs : ∀ r ∈ recs, r.Sized) (hg : ρ.Whole recs)
    (hlen : (b ++ encodeAll recs).length < 2 ^ 63) :
    Mounted ρ {s with dir := d
                      files := s.files.alter id (Option.map fun _ => b.length + (encodeAll recs).length)}
      pend where
  running := h.running
  dir := h.dir.append hi hw hd hh (fun hm => hno (.inl hm)) hs hg hlen
  files i := by
    show (s.files.alter _ _)[i]? = (d.bytes i).map _
    rw [hd, Std.ExtTreeMap.getElem?_alter]
    by_cases hid : i = id
    · subst hid
      simp [h.files, hb]
    · simp [hid, Ne.symm hid, h.files]
  fresh i c hc := by
    rcases update_some (hd ▸ hc) with ⟨rfl, _⟩ | ⟨_, hc⟩
    · exact h.fresh _ b hb
    · exact h.fresh i c hc
  hintIDs i hi := h.hintIDs i (by simpa only [hh] using hi)
  hinting i c hid hc := by
    rcases update_some (hd ▸ hc) with ⟨rfl, _⟩ | ⟨_, hc⟩
    · exact absurd (.inr hid) hno
    · exact h.hinting i c hid hc
  located k e he := by
    obtain ⟨r, hr⟩ := h.located k e he
    exact ⟨r, hd ▸ hr.append hb hi hw hs hg⟩
  pending x hx := hd ▸ (h.pending x hx).append hb hi hw hs hg

theorem Wf.append (h : Wf ρ s []) {b : Bytes} {d : Dir} {recs : List Record}
    (hb : s.dir.bytes s.active.id = some b) (hsize : b.length = s.active.size) (hi : Intact b)
    (hw : ρ.Whole (records b))
    (hd : d.bytes = Function.update s.dir.bytes s.active.id (some (b ++ encodeAll recs)))
    (hh : d.hints = s.dir.hints) (hs : ∀ r ∈ recs, r.Sized) (hg : ρ.Whole recs)
    (hlen : (b ++ encodeAll recs).length < 2 ^ 63) (t : Int) (dirty : Bool) :
    Wf ρ {s with dir := d, active := ⟨s.active.id, s.active.size + (encodeAll recs).length⟩,
                 files := s.files.alter s.active.id
                   (Option.map fun _ => s.active.size + (encodeAll recs).length),
                 total := t, dirty := dirty} (placed s.active.id s.active.size recs) where
  toMounted := by
    have hm := h.toMounted.appendTo hb hi hw h.noHint hd hh hs hg hlen
    rw [hsize] at hm
    refine {hm with pending := ?_ }
    rw [← hsize]
    exact located_placed _ hi hw hs hg (by rw [hd, Function.update_self])
  active := by
    refine ⟨b ++ encodeAll recs, ?_, ?_, hi.append recs hs, ?_⟩
    · show d.bytes s.active.id = _
      rw [hd, Function.update_self]
    · rw [List.length_append, hsize]
    · rw [hi.records_append recs hs]
      exact hw.append hg
  noHint := by
    show ¬ (s.active.id ∈ d.hints ∨ _)
    rw [hh]
    exact h.noHint

omit [Checksum] in
theorem limit_lt (o : Options) : o.limit < 2 ^ 63 := by
  have := o.maxFileSize.toInt_lt
  unfold Options.limit Int64.toNatClampNeg
  omega

/-- **What a logged write leaves**: the group is appended, the structure stands, and
every record has its locator. -/
theorem Wf.logWrite (h : Wf ρ s []) {recs : List Record} (hs : ∀ r ∈ recs, r.Sized)
    (hg : ρ.Whole recs) (ha : Addressable recs) (hid : s.nextID + 1 < 2 ^ 32) :
    ∃ s' base, s.logWrite recs = (s', .ok (placed s'.active.id base recs).entries) ∧
      Wf ρ s' (placed s'.active.id base recs) ∧ Appended s s' recs ∧ s'.keys = s.keys ∧
      (s.opts.syncMode = .always →
        ∃ f, s'.dir.data[s'.active.id]? = some f ∧ f.synced = f.bytes.length) := by
  obtain ⟨s1, hrot, h1, happ, hkeys, hroom⟩ := h.maybeRotate (encodeAll recs).length hid
  obtain ⟨b, hb, hsize, hi, hw⟩ := h1.active
  obtain ⟨d, hd, hbytes, hhints, hman, _⟩ := Dir.writeAt_end hb (encodeAll recs)
  have hlen : (b ++ encodeAll recs).length < 2 ^ 63 := by
    have := limit_lt s1.opts
    have := ha.length_lt hs
    rw [List.length_append]
    omega
  have hwf (t : Int) (dirty : Bool) := h1.append hb hsize hi hw hbytes hhints hs hg hlen t dirty
  have hgetD : (s.dir.bytes s1.active.id).getD [] = b := by
    have := congrFun happ.bytes s1.active.id
    rw [Function.update_self, hb, encodeAll_nil, List.append_nil] at this
    exact (Option.some.inj this).symm
  have hall : d.bytes = Function.update s.dir.bytes s1.active.id (some (b ++ encodeAll recs)) := by
    rw [hbytes, happ.bytes, Function.update_idem]
  rw [hsize] at hd
  have hbuf : Store.writeBuffer [] recs = (encodeAll recs, (Store.writeBuffer [] recs).2) := by
    rw [writeBuffer_eq, List.nil_append]
  rw [Store.logWrite, hbuf]
  simp only [hrot, hd, writeEntries_eq _ _ _ ha]
  by_cases hsync : s1.opts.syncMode = .always
  · rw [if_pos hsync]
    have hb2 : d.bytes s1.active.id = some (b ++ encodeAll recs) := by rw [hbytes, Function.update_self]
    obtain ⟨d', hd', hbytes', hhints', hman', hsynced, _⟩ := Dir.sync_ok hb2
    simp only [hd']
    refine ⟨_, s1.active.size, rfl, (hwf s1.total true).same ⟨rfl, hbytes', hhints', rfl, rfl, rfl, rfl⟩ rfl,
      ⟨happ.seq, happ.mergeSeq, happ.opts, hhints'.trans (hhints.trans happ.hints),
        hman'.trans (hman.trans happ.manifest), happ.active, ?_⟩, hkeys, fun _ => hsynced⟩
    show d'.bytes = Function.update s.dir.bytes s1.active.id _
    rw [hgetD]
    exact hbytes'.trans hall
  · rw [if_neg hsync]
    refine ⟨_, s1.active.size, rfl, hwf _ _, ⟨happ.seq, happ.mergeSeq, happ.opts,
      hhints.trans happ.hints, hman.trans happ.manifest, happ.active, ?_⟩, hkeys,
      fun hc => absurd (happ.opts ▸ hc) hsync⟩
    show d.bytes = Function.update s.dir.bytes s1.active.id _
    rw [hgetD]
    exact hall

/-- The disk after an append counts the group, and nothing else changes. -/
theorem Appended.holds {s' : Store} {recs : List Record} (happ : Appended s s' recs) (h : Wf ρ s [])
    (hs : ∀ r ∈ recs, r.Sized) (hg : ρ.Whole recs) {i : Nat} {r : Record} :
    Holds ρ s'.dir.bytes i r ↔ Holds ρ s.dir.bytes i r ∨ i = s'.active.id ∧ r ∈ recs := by
  rw [happ.bytes]
  rcases happ.active with ⟨ha, _⟩ | ⟨ha, _⟩
  · obtain ⟨b, hb, _, hi, hw⟩ := h.active
    rw [ha, hb, Option.getD_some]
    exact holds_append hb hi hw hs hg
  · have hnone := h.notMem_nextID
    rw [ha, hnone, Option.getD_none, ← Function.update_idem (a := s.nextID) (v := some []),
      holds_append (Function.update_self ..) intact_nil Reading.whole_nil hs hg, holds_create hnone]

/-- Locators survive an append. -/
theorem Appended.located {s' : Store} {recs : List Record} (happ : Appended s s' recs) (h : Wf ρ s [])
    (hs : ∀ r ∈ recs, r.Sized) (hg : ρ.Whole recs) {k : Bytes} {e : Entry} {r : Record}
    (hr : Located ρ s.dir.bytes k e r) : Located ρ s'.dir.bytes k e r := by
  rw [happ.bytes]
  rcases happ.active with ⟨ha, _⟩ | ⟨ha, _⟩
  · obtain ⟨b, hb, _, hi, hw⟩ := h.active
    rw [ha, hb, Option.getD_some]
    exact hr.append hb hi hw hs hg
  · have hnone := h.notMem_nextID
    rw [ha, hnone, Option.getD_none, ← Function.update_idem (a := s.nextID) (v := some [])]
    exact (hr.create hnone).append (Function.update_self ..) intact_nil Reading.whole_nil hs hg

theorem Inv.appended {s' : Store} {recs : List Record} {gone : List Nat} {base : Nat}
    (h : Inv ρ s [] gone) (happ : Appended s s' recs) (hkeys : s'.keys = s.keys)
    (hwf : Wf ρ s' (placed s'.active.id base recs))
    (hs : ∀ r ∈ recs, r.Sized) (hg : ρ.Whole recs) (hagree : Agreeing ρ s'.dir.bytes) :
    Inv ρ s' (placed s'.active.id base recs) gone := by
  refine {hwf with covers := fun id r hr hid => ?_, agree := hagree }
  rcases (happ.holds h.toWf hs hg).mp hr with hold | ⟨_, hmem⟩
  · rcases h.covers id r hold hid with ⟨x, hx, _⟩ | ⟨e, he, hle⟩
    · cases hx
    · exact .inr ⟨e, by rw [hkeys, he], hle⟩
  · rw [← placed_records s'.active.id base recs] at hmem
    obtain ⟨x, hx, rfl⟩ := List.mem_map.mp hmem
    exact .inl ⟨x, hx, rfl, rfl⟩

/-! ### The index -/

omit [Checksum] in
theorem indexApplyLocked_eq (s : Store) (k : Bytes) (e : Entry) : ∃ l n,
    s.indexApplyLocked k e = {s with keys := s.keys.install k e, live := l, nLive := n} := by
  unfold Store.indexApplyLocked Index.install
  cases s.keys[k]? with
  | none => cases e.tomb <;> exact ⟨_, _, rfl⟩
  | some n =>
    by_cases hle : e.seq ≤ n.seq
    · exact ⟨s.live, s.nLive, by simp only [if_pos hle]⟩
    · simp only [if_neg hle]
      cases n.tomb <;> cases e.tomb <;> exact ⟨_, _, rfl⟩

omit [Checksum] in
theorem indexWrite_eq (s : Store) (es : List (Bytes × Entry)) : ∃ l n,
    s.indexWrite es = {s with keys := s.keys.installAll es, live := l, nLive := n} := by
  induction es generalizing s with
  | nil => exact ⟨s.live, s.nLive, rfl⟩
  | cons x rest ih =>
    obtain ⟨l, n, hx⟩ := indexApplyLocked_eq s x.1 x.2
    obtain ⟨l', n', hrest⟩ := ih (s.indexApplyLocked x.1 x.2)
    refine ⟨l', n', ?_⟩
    show (s.indexApplyLocked x.1 x.2).indexWrite rest = _
    rw [hrest, hx]
    rfl

theorem Wf.indexWrite (h : Wf ρ s pend) : Wf ρ (s.indexWrite pend.entries) [] := by
  obtain ⟨l, n, heq⟩ := indexWrite_eq s pend.entries
  rw [heq]
  refine {h with located := fun k e he => ?_, pending := fun x hx => absurd hx List.not_mem_nil }
  rcases Index.mem_installAll he with hmem | hold
  · obtain ⟨x, hx, hxe⟩ := List.mem_map.mp hmem
    cases hxe
    exact ⟨x.2, h.pending x hx⟩
  · exact h.located k e hold

/-- **Installing the pending locators** restores full coverage. -/
theorem Inv.indexWrite {gone : List Nat} (h : Inv ρ s pend gone) :
    Inv ρ (s.indexWrite pend.entries) [] gone := by
  have hwf := h.toWf.indexWrite
  obtain ⟨l, n, heq⟩ := indexWrite_eq s pend.entries
  rw [heq] at hwf ⊢
  refine {hwf with covers := fun id r hr hid => .inr ?_, agree := h.agree }
  rcases h.covers id r hr hid with ⟨x, hx, hk, hseq⟩ | ⟨e, he, hle⟩
  · have hmem : (r.key, x.1) ∈ pend.entries := List.mem_map.mpr ⟨x, hx, by rw [hk]⟩
    obtain ⟨e', he', hle⟩ := Index.covers_installAll s.keys pend.entries (.inl hmem)
    exact ⟨e', he', by rwa [← hseq, (h.pending x hx).seq]⟩
  · obtain ⟨e', he', hle'⟩ := Index.covers_installAll s.keys pend.entries (.inr he)
    exact ⟨e', he', UInt64.le_trans hle hle'⟩

/-- A map after a list of records, the last word on a key winning. -/
def applyRecords (m : Bytes → Option Bytes) (recs : List Record) : Bytes → Option Bytes :=
  recs.foldl (fun m r => Function.update m r.key r.payload) m

omit [Checksum] in
/-- Records with fresh numbers, in order, have the last word. -/
theorem live_offerAll_version {view : Bytes → Option (Nat × Option Bytes)} {recs : List Record}
    (hinc : recs.Pairwise fun r r' => r.seq < r'.seq)
    (hnew : ∀ r ∈ recs, ∀ k y, view k = some y → y.1 < r.seq.toNat) :
    Newest.live (Newest.offerAll view (recs.map Record.version)) = applyRecords (Newest.live view) recs := by
  rw [Newest.live_offerAll]
  · rw [applyRecords, List.foldl_map]
    rfl
  · rw [List.pairwise_map]
    exact hinc.imp fun hlt => UInt64.lt_iff_toNat_lt.mp hlt
  · intro x hx k y hy
    obtain ⟨r, hr, rfl⟩ := List.mem_map.mp hx
    exact hnew r hr k y hy

/-- **Installing the pending locators offers their records to the view.** -/
theorem Wf.view_indexWrite (h : Wf ρ s pend) :
    (s.indexWrite pend.entries).view =
      Newest.offerAll s.view ((pend.map Prod.snd).map Record.version) := by
  obtain ⟨l, n, heq⟩ := indexWrite_eq s pend.entries
  have hversions : pend.entries.map (fun x => (x.1, x.2.seq.toNat, valueAt s.dir x.2)) =
      (pend.map Prod.snd).map Record.version := by
    rw [Pending.entries, List.map_map, List.map_map]
    refine List.map_congr_left fun x hx => ?_
    have hx := h.pending x hx
    simp only [Function.comp_apply, hx.valueAt_eq, hx.seq, Record.version]
  rw [heq, ← hversions]
  exact Index.versions_installAll (valueAt s.dir) s.keys pend.entries

/-- **A write with fresh sequence numbers moves the live map by its records.** -/
theorem Wf.liveMap_indexWrite (h : Wf ρ s pend)
    (hinc : (pend.map Prod.snd).Pairwise fun r r' => r.seq < r'.seq)
    (hnew : ∀ x ∈ pend, ∀ (k : Bytes) (n : Entry), s.keys[k]? = some n → n.seq < x.2.seq) :
    (s.indexWrite pend.entries).liveMap = applyRecords s.liveMap (pend.map Prod.snd) := by
  rw [Store.liveMap, h.view_indexWrite]
  refine live_offerAll_version hinc fun r hr k y hy => ?_
  obtain ⟨x, hx, rfl⟩ := List.mem_map.mp hr
  obtain ⟨e, he, rfl⟩ := Option.map_eq_some_iff.mp hy
  exact UInt64.lt_iff_toNat_lt.mp (hnew x hx k e he)

end Write

end Gokv.Engine
