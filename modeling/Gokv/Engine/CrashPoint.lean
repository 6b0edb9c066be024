import Gokv.Engine.Refinement

/-! Crashes inside `Compact`.

`crashPoint s n` is the directory as it is after `n` steps of a `Compact` that runs
alone. Up to the first removal it holds everything the store held. The removals
go through the merge set by ascending id, and a tombstone lives in the file that
was active when its key was deleted. An earlier merge may have put the key's value
into a file of a higher id; a crash after the tombstone's file is gone and before
the value's file is brings the key back. `compact_crash`: that is the only way. -/
namespace Gokv.Engine
open Base

section CrashPoint
variable [Checksum]

/-- The directory after `n` steps of a `Compact`. -/
def Store.crashPoint (s : Store) (n : Nat) : Dir := (Merge.run n s.sealActive.1 s.sealActive.2).1.dir

/-- No deleted key has a record in a file behind the one its tombstone is in. -/
def Buried (s : Store) : Prop :=
  ∀ x ∈ s.keys.toList, x.2.tomb = true → ∀ f ∈ s.dir.data.toList, x.2.fileID < f.1 →
    ∀ r ∈ records f.2.bytes, r.key ≠ x.1

instance decidableBuried (s : Store) : Decidable (Buried s) :=
  inferInstanceAs (Decidable (∀ x ∈ s.keys.toList, _ → ∀ f ∈ s.dir.data.toList, _ → ∀ r ∈ records f.2.bytes, _))

/-- The order of the files, as far as tombstones go by it. -/
structure Ordered (s : Store) : Prop where
  quiet : Quiet s
  whole : ∀ i b, s.dir.bytes i = some b → Grouped (records b)
  /-- A tombstone is newer than everything in the files before its own. -/
  newer : ∀ i j r t, Holds .committed s.dir.bytes i r → Holds .committed s.dir.bytes j t → t.tombstone = true →
    i < j → r.seq < t.seq
  /-- There is none behind the active file. -/
  values : ∀ j t, Holds .committed s.dir.bytes j t → s.active.id < j → t.tombstone = false

variable {s s' : Store} {op : Op}

theorem Ordered.buried_iff (h : Ordered s) : Buried s ↔ ∀ (k : Bytes) (e : Entry), s.keys[k]? = some e →
    e.tomb = true → ∀ i r, Holds .committed s.dir.bytes i r → r.key = k → i ≤ e.fileID := by
  constructor
  · intro hb k e he ht i r ⟨b, hbytes, hr⟩ hk
    by_contra hlt
    obtain ⟨f, hf, rfl⟩ := Option.map_eq_some_iff.mp hbytes
    exact hb (k, e) (Std.ExtTreeMap.mem_toList_iff_getElem?_eq_some.mpr he) ht (i, f)
      (Std.ExtTreeMap.mem_toList_iff_getElem?_eq_some.mpr hf) (not_le.mp hlt) r (Reading.take_subset hr) hk
  · intro hb x hx ht f hf hlt r hr hk
    have hbytes : s.dir.bytes f.1 = some f.2.bytes := by
      rw [Dir.bytes, Std.ExtTreeMap.mem_toList_iff_getElem?_eq_some.mp hf]
      rfl
    have hholds : Holds .committed s.dir.bytes f.1 r := by
      refine ⟨_, hbytes, ?_⟩
      rwa [Reading.Whole.take_eq (ρ := .committed) (h.whole _ _ hbytes)]
    exact absurd (hb x.1 x.2 (Std.ExtTreeMap.mem_toList_iff_getElem?_eq_some.mp hx) ht f.1 r hholds hk)
      (not_le.mpr hlt)

/-! ### Tombstones along a history -/

theorem Ordered.step (h : Ordered s) (hf : Fits s op) : Ordered (s.apply op).1 := by
  obtain ⟨s', hs', hq', _, heff⟩ := h.quiet.apply hf
  have hwhole := heff.whole h.quiet hq' h.whole
  rw [hs']
  show Ordered s'
  cases heff with
  | idle hb _ =>
    refine ⟨hq', hwhole, fun i j r t hr ht => ?_, fun j t ht => ?_⟩
    · exact h.newer i j r t (hb.bytes ▸ hr) (hb.bytes ▸ ht)
    · rw [hb.active]
      exact h.values j t (hb.bytes ▸ ht)
  | wrote _ _ hw _ =>
    obtain ⟨b, hb, _⟩ := h.quiet.inv.active
    have hle : s.active.id ≤ s'.active.id := by
      rcases hw.appended.active with ⟨ha, _⟩ | ⟨ha, _⟩
      · exact ha.ge
      · exact (h.quiet.inv.fresh _ b hb).le.trans ha.ge
    refine ⟨hq', hwhole, fun i j r t hr ht htomb hlt => ?_, fun j t ht hlt => ?_⟩
    · rcases (hw.holds i r).mp hr with hr | ⟨hi, hr⟩ <;> rcases (hw.holds j t).mp ht with ht | ⟨hj, ht⟩
      · exact h.newer i j r t hr ht htomb hlt
      · exact hw.newer h.quiet.bounded hr ht
      · have := h.values j t ht (by omega)
        rw [htomb] at this
        cases this
      · omega
    · rcases (hw.holds j t).mp ht with ht | ⟨hj, _⟩
      · exact h.values j t ht (by omega)
      · omega
  | compacted hc =>
    refine ⟨hq', hwhole, fun i j r t _ ht htomb _ => ?_, fun j t ht _ => hc.values j t ht⟩
    rw [hc.values j t ht] at htomb
    cases htomb
  | reopened hr =>
    obtain ⟨hbytes, _, _⟩ := h.quiet.inv.toWf.close
    have hholds (i : Nat) (r : Record) :
        Holds .committed s'.dir.bytes i r ↔ Holds .committed s.dir.bytes i r := by
      rw [hr.holds, hbytes]
    refine ⟨hq', hwhole, fun i j r t hr' ht => ?_, fun j t ht hlt => ?_⟩
    · exact h.newer i j r t ((hholds i r).mp hr') ((hholds j t).mp ht)
    · obtain ⟨b, hb, _⟩ := ht
      exact absurd (hr.top j b hb) (not_le.mpr hlt)

theorem ordered_init (opts : Options) : Ordered (Store.init opts) := by
  have hnil (i : Nat) (b : Bytes) (hb : (Store.init opts).dir.bytes i = some b) : b = [] := by
    rw [Dir.bytes, Store.init] at hb
    simp only [Std.ExtTreeMap.getElem?_insert] at hb
    split at hb
    · cases hb
      rfl
    · simp at hb
  have hnone {i : Nat} {r : Record} (hr : Holds .committed (Store.init opts).dir.bytes i r) : False := by
    obtain ⟨b, hb, hmem⟩ := hr
    rw [hnil i b hb] at hmem
    exact absurd (Reading.take_subset hmem) List.not_mem_nil
  refine ⟨(quiet_init opts).1, fun i b hb => ?_, fun i j r t hr => (hnone hr).elim,
    fun j t ht => (hnone ht).elim⟩
  rw [hnil i b hb]
  exact .nil

/-! ### One crash point -/

/-- What `Open` makes of a crash point, beside what the merge had got to. -/
structure Recovered (s : Store) (n : Nat) (s' : Store) : Prop where
  inv : Inv .committed s' [] []
  holds : ∀ i r, Holds .committed s'.dir.bytes i r ↔ Holds .committed (s.crashPoint n).bytes i r
  /-- Nothing is on disk that was not. -/
  back : ∀ i r, Holds .committed (s.crashPoint n).bytes i r → ∃ j r₀, Holds .committed s.dir.bytes j r₀ ∧
    r₀.key = r.key ∧ r₀.seq = r.seq ∧ r₀.payload = r.payload
  /-- The newest value of every live key is on disk. -/
  live : ∀ k v, s.liveMap k = some v → ∃ e, s.keys[k]? = some e ∧ ∃ i r,
    Holds .committed (s.crashPoint n).bytes i r ∧ r.key = k ∧ r.seq = e.seq ∧ r.payload = some v

theorem Quiet.sealed (h : Quiet s) (hf : Fits s .compact) :
    Sealed .committed s s.sealActive.1 s.sealActive.2 := by
  have hf : s.nextID + s.keys.size + 2 < 2 ^ 32 := hf
  exact h.inv.sealActive h.bounded (by omega)

theorem Quiet.recovers (h : Quiet s) (hf : Fits s .compact) (opts : Options) (n : Nat) :
    ∃ s', openStore opts (s.crashPoint n) = .ok s' ∧ Recovered s n s' := by
  have hs := h.sealed hf
  have hf : s.nextID + s.keys.size + 2 < 2 ^ 32 := hf
  obtain ⟨hm, hun, _, _, _, hid⟩ := hs.run h.marked hf n
  have hinv : ∃ gone, Inv .committed (Merge.run n s.sealActive.1 s.sealActive.2).1 [] gone := by
    rcases hm with ⟨_, hl⟩ | ⟨hm, _⟩
    · exact ⟨_, hl.inv⟩
    · exact ⟨_, hm.inv⟩
  obtain ⟨gone, hinv⟩ := hinv
  obtain ⟨s', hs', hr⟩ := openStore_ok opts hinv.dir fun i hi => by
    obtain ⟨b, hb⟩ := Dir.mem_data.mp hi
    have := hinv.fresh i b hb
    omega
  refine ⟨s', hs', (hr.inv hinv.dir hinv.agree).1, fun i r => hr.holds, fun i r hr' => ?_, fun k v hv => ?_⟩
  · rcases hun.back i r hr' with hr' | ⟨_, j, r₀, hr₀, hrest⟩
    · exact ⟨i, r, (hs.holds i r).mp hr', rfl, rfl, rfl⟩
    · exact ⟨j, r₀, (hs.holds j r₀).mp hr₀, hrest⟩
  · cases he : s.keys[k]? with
    | none =>
      rw [Store.liveMap_none he] at hv
      cases hv
    | some e =>
      obtain ⟨r, hr', hlive⟩ := h.inv.toWf.liveMap_some he
      have ht : e.tomb = false := Bool.eq_false_iff.mpr fun ht => by
        rw [hlive, payload_eq_none.mpr (hr'.tomb.trans ht)] at hv
        cases hv
      obtain ⟨e', he', hseq, _⟩ := hun.kept k e (hs.keys ▸ he) ht
      obtain ⟨r', hr'', hlive'⟩ := hinv.toWf.liveMap_some he'
      rw [hun.liveMap, hs.liveMap, hv] at hlive'
      exact ⟨e, rfl, _, r', hr''.holds, hr''.key, hr''.seq.trans hseq, hlive'.symm⟩

variable {n : Nat}

theorem Recovered.le (h : Recovered s n s') (hq : Quiet s) {i : Nat} {r : Record}
    (hr : Holds .committed (s.crashPoint n).bytes i r) {e : Entry} (he : s.keys[r.key]? = some e) :
    r.seq ≤ e.seq := by
  obtain ⟨j, r₀, hr₀, hk, hseq, _⟩ := h.back i r hr
  rcases hq.inv.covers j r₀ hr₀ List.not_mem_nil with ⟨x, hx, _⟩ | ⟨e', he', hle⟩
  · cases hx
  · rw [hk, he] at he'
    cases he'
    rwa [← hseq]

/-- **No live key is lost**, wherever the crash. -/
theorem Recovered.liveMap_some (h : Recovered s n s') (hq : Quiet s) {k : Bytes} {v : Bytes}
    (hv : s.liveMap k = some v) : s'.liveMap k = some v := by
  obtain ⟨e, he, i, r, hr, rfl, hseq, hpay⟩ := h.live k v hv
  rw [← hpay]
  refine h.inv.liveMap_newest ((h.holds i r).mpr hr) fun j r' hr' hk => ?_
  rw [hseq]
  exact h.le hq ((h.holds j r').mp hr') (hk ▸ he)

/-- A key that was never written is not there. -/
theorem Recovered.liveMap_unknown (h : Recovered s n s') (hq : Quiet s) {k : Bytes} (hk : s.keys[k]? = none) :
    s'.liveMap k = none := by
  refine h.inv.liveMap_absent fun i r hr heq => ?_
  obtain ⟨j, r₀, hr₀, hkey, _⟩ := h.back i r ((h.holds i r).mp hr)
  rcases hq.inv.covers j r₀ hr₀ List.not_mem_nil with ⟨x, hx, _⟩ | ⟨e', he', _⟩
  · cases hx
  · rw [hkey, heq, hk] at he'
    cases he'

/-! ### Deleted keys -/

/-- At a crash point, what is on disk of a key is what was there, in the files from
`c` on. -/
def Cut (s : Store) (n c : Nat) (k : Bytes) : Prop :=
  ∀ i r, r.key = k → (Holds .committed (s.crashPoint n).bytes i r ↔ c ≤ i ∧ Holds .committed s.dir.bytes i r)

omit [Checksum] in
theorem exists_cut {before left : List Removal} (h : (before ++ left).Pairwise fun x y =>
    ∀ i j, x = .data i → y = .data j → i < j) :
    ∃ c, (∀ i, .data i ∈ before → i < c) ∧ ∀ i, .data i ∈ left → c ≤ i := by
  induction before with
  | nil => exact ⟨0, fun i hi => absurd hi List.not_mem_nil, fun i _ => Nat.zero_le i⟩
  | cons x rest ih =>
    rw [List.cons_append, List.pairwise_cons] at h
    obtain ⟨c, hlt, hle⟩ := ih h.2
    cases x with
    | hint id =>
      exact ⟨c, fun i hi => hlt i ((List.mem_cons.mp hi).resolve_left Removal.noConfusion), hle⟩
    | data id =>
      refine ⟨max c (id + 1), fun i hi => ?_, fun i hi => ?_⟩
      · rcases List.mem_cons.mp hi with heq | hi
        · cases heq
          exact lt_max_of_lt_right (Nat.lt_succ_self _)
        · exact lt_max_of_lt_left (hlt i hi)
      · exact max_le (hle i hi) (h.1 _ (List.mem_append_right _ hi) id i rfl rfl)

/-- The state a `Compact` is in after its listing and `n` steps more. -/
abbrev Store.merging (s : Store) (n : Nat) : Store × Merge :=
  Merge.run (n + 1) s.sealActive.1 s.sealActive.2

theorem Quiet.trail (h : Quiet s) (hf : Fits s .compact) (n : Nat) :
    Trail s.sealActive.1 (s.merging n).1 (s.merging n).2 := by
  obtain ⟨htrail, hm, hroom⟩ := (h.sealed hf).trail h.marked hf
  exact htrail.run hm hroom n

/-- A deleted key between two removals. -/
theorem Quiet.cut (h : Quiet s) (hf : Fits s .compact) {k : Bytes} {e : Entry} (he : s.keys[k]? = some e)
    (ht : e.tomb = true) {c : Nat} {before : List Removal}
    (hsplit : Merge.removals (s.merging n).2.mergeIDs = before ++ (s.merging n).2.left)
    (hlt : ∀ i, .data i ∈ before → i < c) (hle : ∀ i, .data i ∈ (s.merging n).2.left → c ≤ i) :
    Cut s (n + 1) c k := by
  have hs := h.sealed hf
  obtain ⟨hm, hun, _⟩ := hs.run h.marked hf (n + 1)
  have htrail := h.trail hf n
  obtain ⟨before', hsplit', hgone, hsame⟩ := htrail.left
  have hbefore : before' = before := List.append_cancel_right (hsplit'.symm.trans hsplit)
  subst hbefore
  -- The active file of the sealed store is empty.
  have hempty {B : Nat → Option Bytes} (hB : B s.sealActive.1.active.id =
      s.sealActive.1.dir.bytes s.sealActive.1.active.id) {r : Record} :
      ¬ Holds .committed B s.sealActive.1.active.id r := by
    rintro ⟨b, hb, hr⟩
    obtain ⟨f, hfile, hnil⟩ := hs.empty
    rw [hB, Dir.bytes, hfile, Option.map_some, hnil] at hb
    cases hb
    exact absurd (Reading.take_subset hr) List.not_mem_nil
  have hids (i : Nat) : i ∈ (s.merging n).2.mergeIDs ↔ _ := htrail.mem_ids hs.listing.inv.toMounted
  intro i r hk
  rw [← hs.holds]
  constructor
  · intro hr
    obtain ⟨b, hb, hmem⟩ := hr
    have hb : (s.merging n).1.dir.bytes i = some b := hb
    rcases htrail.files i b hb with hact | hmerge | hout
    · refine absurd ⟨b, hact ▸ hb, hmem⟩ (hempty ?_)
      rw [Dir.bytes, Dir.bytes, Store.merging, hun.activeData]
    · rcases List.mem_append.mp (hsplit ▸ Merge.mem_removals.mpr hmerge) with hdone | hleft
      · rw [hgone i hdone] at hb
        cases hb
      · exact ⟨hle i hleft, b, hsame i hleft ▸ hb, hmem⟩
    · obtain ⟨hM, _⟩ := hm.resolve_left (by
        rintro ⟨a, hl⟩
        refine htrail.phase a ?_
        have := hl.fresh
        rw [Store.merging, this]
        rfl)
      obtain ⟨o, ho, rfl⟩ := List.mem_map.mp hout
      obtain ⟨_, x, hx, hxk⟩ := hM.content o ho r ⟨b, hb, hmem⟩
      have hitem : x.1 ∈ (s.merging n).2.items := by
        have hmoved := List.mem_map_of_mem (f := Prod.fst) hx
        unfold Merge.items
        split
        · exact List.mem_append_left _ hmoved
        · exact List.mem_append_left _ hmoved
        · exact hmoved
      obtain ⟨hkey, htomb⟩ := htrail.items x.1 hitem
      rw [hs.keys, hxk, hk, he] at hkey
      cases hkey
      rw [ht] at htomb
      cases htomb
  · rintro ⟨hci, hr⟩
    have hne : i ≠ s.sealActive.1.active.id := fun heq => hempty rfl (heq ▸ hr)
    obtain ⟨b, hb, hmem⟩ := hr
    have hmerge := (hids i).mpr ⟨hne, b, hb⟩
    rcases List.mem_append.mp (hsplit ▸ Merge.mem_removals.mpr hmerge) with hdone | hleft
    · exact absurd (hlt i hdone) (not_lt.mpr hci)
    · exact ⟨b, hsame i hleft ▸ hb, hmem⟩

/-- A deleted key at any crash point. -/
theorem Quiet.exists_cut (h : Quiet s) (hf : Fits s .compact) {k : Bytes} {e : Entry} (he : s.keys[k]? = some e)
    (ht : e.tomb = true) (n : Nat) : ∃ c, Cut s n c k := by
  cases n with
  | zero =>
    refine ⟨0, fun i r _ => ?_⟩
    rw [← (h.sealed hf).holds]
    exact ⟨fun hr => ⟨Nat.zero_le i, hr⟩, fun hr => hr.2⟩
  | succ n =>
    have htrail := h.trail hf n
    obtain ⟨before, hsplit, _⟩ := htrail.left
    obtain ⟨c, hlt, hle⟩ := Engine.exists_cut (hsplit ▸ Merge.removals_ascending htrail.ascending)
    exact ⟨c, h.cut hf he ht hsplit hlt hle⟩

/-- A crash can strike right before the removal of any file that holds a record. -/
theorem Quiet.reaches_cut (h : Quiet s) (hf : Fits s .compact) {k : Bytes} {e : Entry}
    (he : s.keys[k]? = some e) (ht : e.tomb = true) {i : Nat} {r : Record}
    (hr : Holds .committed s.dir.bytes i r) : ∃ n, Cut s n i k := by
  have hs := h.sealed hf
  obtain ⟨htrail, hm, hroom⟩ := hs.trail h.marked hf
  have hids := htrail.mem_ids (i := i) hs.listing.inv.toMounted
  -- The file is in the merge set, so its removal is among those to come.
  have hmem : i ∈ (Merge.run 1 s.sealActive.1 s.sealActive.2).2.mergeIDs := by
    refine hids.mpr ⟨fun heq => ?_, ?_⟩
    · obtain ⟨b, hb, hmem⟩ := (hs.holds i r).mpr hr
      obtain ⟨f, hfile, hnil⟩ := hs.empty
      rw [heq, Dir.bytes, hfile, Option.map_some, hnil] at hb
      cases hb
      exact absurd (Reading.take_subset hmem) List.not_mem_nil
    · obtain ⟨b, hb, _⟩ := (hs.holds i r).mpr hr
      exact ⟨b, hb⟩
  obtain ⟨gone, hsplit, hgone, _⟩ := htrail.left
  have hleft : .data i ∈ (Merge.run 1 s.sealActive.1 s.sealActive.2).2.left := by
    rcases List.mem_append.mp (hsplit ▸ Merge.mem_removals.mpr hmem) with hdone | hleft
    · obtain ⟨b, hb, _⟩ := (hs.holds i r).mpr hr
      have hstep : (Merge.run 1 s.sealActive.1 s.sealActive.2).1.dir.bytes i = s.sealActive.1.dir.bytes i := by
        have hphase : s.sealActive.2.phase = .list s.sealActive.1.active.id := by
          rw [hs.listing.fresh]
          rfl
        simp only [Merge.run, Merge.step, hphase, Merge.listStep]
      rw [← hstep, hgone i hdone] at hb
      cases hb
    · exact hleft
  obtain ⟨pre, post, hpre⟩ := List.append_of_mem hleft
  have hend : (Merge.run (s.compactFuel - 1) (Merge.run 1 s.sealActive.1 s.sealActive.2).1
      (Merge.run 1 s.sealActive.1 s.sealActive.2).2).2.left = [] := by
    have hdone := hs.done h.marked hf
    have hfuel : s.compactFuel = s.compactFuel - 1 + 1 := by
      rw [Store.compactFuel]
      omega
    rw [hfuel] at hdone
    have hdone : (Merge.run (s.compactFuel - 1) (Merge.run 1 s.sealActive.1 s.sealActive.2).1
      (Merge.run 1 s.sealActive.1 s.sealActive.2).2).2.phase = .done := hdone
    rw [Merge.left, hdone]
  obtain ⟨n, hn⟩ := htrail.reaches hm hroom hend (t := .data i :: post) ⟨pre, hpre.symm⟩
  have hn : (s.merging n).2.left = .data i :: post := hn
  have htrail' := h.trail hf n
  obtain ⟨before, hsplit', _⟩ := htrail'.left
  have hasc := List.pairwise_append.mp (hsplit' ▸ Merge.removals_ascending htrail'.ascending)
  refine ⟨n + 1, h.cut hf he ht hsplit' (fun j hj => ?_) fun j hj => ?_⟩
  · exact hasc.2.2 _ hj (.data i) (hn ▸ List.mem_cons_self ..) j i rfl rfl
  · rw [hn] at hj hasc
    rcases List.mem_cons.mp hj with heq | hj
    · cases heq
      exact le_rfl
    · exact ((List.pairwise_cons.mp hasc.2.1).1 _ hj i j rfl rfl).le

/-- **Every crash point of a `Compact` keeps the map** exactly if no deleted key has a
record in a file behind its tombstone's. -/
theorem Ordered.crash_iff (h : Ordered s) (hf : Fits s .compact) (opts : Options) :
    (∀ n, ∃ s', openStore opts (s.crashPoint n) = .ok s' ∧ s'.liveMap = s.liveMap) ↔ Buried s := by
  have hq := h.quiet
  rw [h.buried_iff]
  constructor
  · intro hall k e he ht i r hr hk
    by_contra hlt
    rw [not_le] at hlt
    obtain ⟨n, hcut⟩ := hq.reaches_cut hf he ht hr
    obtain ⟨s', hs', hlive⟩ := hall n
    obtain ⟨s'', hs'', hrec⟩ := hq.recovers hf opts n
    cases Except.ok.inj (hs'.symm.trans hs'')
    obtain ⟨t, htl, hdead⟩ := hq.inv.toWf.liveMap_some he
    rw [payload_eq_none.mpr (htl.tomb.trans ht)] at hdead
    -- Some record of the key is on disk, and each that is is a value.
    have hheld := (hrec.holds i r).mpr ((hcut i r hk).mpr ⟨le_rfl, hr⟩)
    rcases hrec.inv.covers i r hheld List.not_mem_nil with ⟨x, hx, _⟩ | ⟨e', he', _⟩
    · cases hx
    · rw [hk] at he'
      obtain ⟨r', hr', hlive'⟩ := hrec.inv.toWf.liveMap_some he'
      rw [hlive, hdead, eq_comm, payload_eq_none] at hlive'
      obtain ⟨hij, hr''⟩ := (hcut _ r' hr'.key).mp ((hrec.holds _ r').mp hr'.holds)
      have hnew := h.newer _ _ t r' htl.holds hr'' hlive' (lt_of_lt_of_le hlt hij)
      rcases hq.inv.covers _ r' hr'' List.not_mem_nil with ⟨x, hx, _⟩ | ⟨e₂, he₂, hle⟩
      · cases hx
      · rw [hr'.key, he] at he₂
        cases he₂
        rw [htl.seq] at hnew
        exact UInt64.not_lt.mpr hle hnew
  · intro hb n
    obtain ⟨s', hs', hrec⟩ := hq.recovers hf opts n
    refine ⟨s', hs', funext fun k => ?_⟩
    cases hv : s.liveMap k with
    | some v => exact hrec.liveMap_some hq hv
    | none =>
      cases he : s.keys[k]? with
      | none => exact hrec.liveMap_unknown hq he
      | some e =>
        obtain ⟨t, htl, hdead⟩ := hq.inv.toWf.liveMap_some he
        have ht : e.tomb = true := htl.tomb.symm.trans (payload_eq_none.mp (hdead.symm.trans hv))
        obtain ⟨c, hcut⟩ := hq.exists_cut hf he ht n
        by_cases hc : c ≤ e.fileID
        · -- The tombstone is still there.
          have hheld := (hrec.holds _ t).mpr ((hcut _ t htl.key).mpr ⟨hc, htl.holds⟩)
          rw [← htl.key, hrec.inv.liveMap_newest hheld fun j r' hr' hk => ?_]
          · exact payload_eq_none.mpr (htl.tomb.trans ht)
          · rw [htl.seq]
            exact hrec.le hq ((hrec.holds j r').mp hr') (by rw [hk, htl.key, he])
        · -- It is gone, and with it every record of the key.
          refine hrec.inv.liveMap_absent fun i r hr hk => ?_
          obtain ⟨hci, hr'⟩ := (hcut i r hk).mp ((hrec.holds i r).mp hr)
          have := hb k e he ht i r hr' hk
          omega

/-- **Crashes inside `Compact`.** After any history, `Open` on every crash point of one
more `Compact` reads as before the `Compact`, exactly if no deleted key has a record
in a file behind its tombstone's. -/
theorem compact_crash (opts opts' : Options) (ops : List Op) (s₀ s : Store) (hopen : openStore opts {} = .ok s₀)
    (hfits : storeMachine.Meets Fits s₀ ops) (hrun : (storeMachine.run s₀ ops).1 = s) (hroom : Fits s .compact) :
    (∀ n, ∃ s', openStore opts' (s.crashPoint n) = .ok s' ∧ ∀ key, s'.get key = s.get key) ↔ Buried s := by
  cases Except.ok.inj (hopen.symm.trans (openStore_empty opts))
  have hord : Ordered s := by
    rw [← hrun]
    exact hfits.invariant (P := Ordered) (fun _ _ h hf => h.step hf) (ordered_init opts)
  rw [← hord.crash_iff hroom opts']
  refine forall_congr' fun n => ?_
  obtain ⟨s', hs', hrec⟩ := hord.quiet.recovers hroom opts' n
  simp only [hs', Except.ok.injEq, exists_eq_left', hord.quiet.inv.toWf.get_congr hrec.inv.toWf]

end CrashPoint

/-- A key deleted in the file it was written to stays deleted wherever `Compact` is cut
short. -/
theorem compact_crash_run : ∃ s, s = (storeMachine.run (Store.init ⟨0, .never⟩)
      [.put 0 [1] [7], .put 0 [2] [8], .delete 0 [1]]).1 ∧
    Buried s ∧ ∀ n, ∃ s', openStore ⟨0, .never⟩ (s.crashPoint n) = .ok s' ∧ ∀ key, s'.get key = s.get key :=
  ⟨_, rfl, by decide +kernel,
    (compact_crash ⟨0, .never⟩ ⟨0, .never⟩ [.put 0 [1] [7], .put 0 [2] [8], .delete 0 [1]] _ _ (openStore_empty _)
      (by decide +kernel) rfl (by decide +kernel)).mpr (by decide +kernel)⟩

/-- A key merged, then deleted: once the file of the tombstone is gone, a crash brings
the key back. -/
theorem crashPoint_resurrects : ∃ s, s = (storeMachine.run (Store.init ⟨0, .never⟩)
      [.put 0 [1] [7], .compact, .delete 0 [1]]).1 ∧
    s.get [1] = .error .keyNotFound ∧
    (Merge.run 10 s.sealActive.1 s.sealActive.2).2.phase = .remove [.hint 1, .data 2, .hint 2] ∧
    (openStore ⟨0, .never⟩ (s.crashPoint 10)).map (·.get [1]) = .ok (.ok [7]) :=
  ⟨_, rfl, by decide +kernel⟩

end Gokv.Engine
