import Gokv.Engine.Disk

/-! The invariant of an open store.

`Mounted` and `Wf` are its structure: the open file set mirrors the directory, the active file
is whole and has no hint, every hint is the one its data file calls for, and every
locator, in the index or of a write that is logged but not indexed yet, leads to
its record. `Inv` adds what makes the index an index of the disk: every record
that counts is covered, and no two records of a key share a sequence number and
differ in value. Files about to be removed may be exempt from coverage.

Under `Wf` a read answers from the live map (`Wf.get_eq`); under `Inv` the live map
is the newest-record-wins map of the disk (`Inv.indexes`). -/
namespace Gokv.Engine
open Base

section Invariant
variable [Checksum]

/-- What a locator leads to, as a value. -/
def valueAt (d : Dir) (e : Entry) : Option Bytes :=
  match Store.readRecord d e with
  | .ok r => r.payload
  | .error _ => none

/-- The index, with each entry read from disk. -/
def Store.view (s : Store) : Bytes → Option (Nat × Option Bytes) := s.keys.versions (valueAt s.dir)

/-- The map the store stands for. -/
def Store.liveMap (s : Store) : Bytes → Option Bytes := Newest.live s.view

/-- What `Get` returns for a key that the map sends to `o`. -/
def answer : Option Bytes → Except Error Bytes
  | some v => .ok v
  | none => .error .keyNotFound

/-- A directory recovery can rebuild a store from. -/
structure DirOk (ρ : Reading) (d : Dir) : Prop where
  sizes : ∀ id b, d.bytes id = some b → b.length < 2 ^ 63
  tidy : ∀ id b, d.bytes id = some b → ρ.Tidy (records b)
  hints : ∀ id h b, d.hints[id]? = some h → d.bytes id = some b →
    h = buildHint id b ∧ ρ.Whole (records b)

/-- The records of a write that is logged but not indexed yet, with their locators. -/
abbrev Pending := List (Entry × Record)

/-- What the index is yet to install. -/
def Pending.entries (pend : Pending) : List (Bytes × Entry) := pend.map fun x => (x.2.key, x.1)

/-- A store whose files are in order, with or without an active one. -/
structure Mounted (ρ : Reading) (s : Store) (pend : Pending) : Prop where
  running : s.closed = false
  dir : DirOk ρ s.dir
  files : ∀ id, s.files[id]? = (s.dir.bytes id).map List.length
  fresh : ∀ id b, s.dir.bytes id = some b → id < s.nextID
  hintIDs : ∀ id, id ∈ s.dir.hints ∨ id ∈ s.hinting → id < s.nextID
  hinting : ∀ id b, id ∈ s.hinting → s.dir.bytes id = some b → ρ.Whole (records b)
  located : ∀ k e, s.keys[k]? = some e → ∃ r, Located ρ s.dir.bytes k e r
  pending : ∀ x ∈ pend, Located ρ s.dir.bytes x.2.key x.1 x.2

structure Wf (ρ : Reading) (s : Store) (pend : Pending) : Prop
    extends Mounted ρ s pend where
  active : ∃ b, s.dir.bytes s.active.id = some b ∧ b.length = s.active.size ∧ Intact b ∧
    ρ.Whole (records b)
  noHint : ¬ (s.active.id ∈ s.dir.hints ∨ s.active.id ∈ s.hinting)

/-- No two records of a key share a sequence number and differ in value. -/
def Agreeing (ρ : Reading) (B : Nat → Option Bytes) : Prop :=
  ∀ i j r r', Holds ρ B i r → Holds ρ B j r' → r.key = r'.key → r.seq = r'.seq → r.payload = r'.payload

structure Inv (ρ : Reading) (s : Store) (pend : Pending) (gone : List Nat) : Prop
    extends Wf ρ s pend where
  covers : ∀ id r, Holds ρ s.dir.bytes id r → id ∉ gone →
    (∃ x ∈ pend, x.2.key = r.key ∧ x.2.seq = r.seq) ∨ ∃ e, s.keys[r.key]? = some e ∧ r.seq ≤ e.seq
  agree : Agreeing ρ s.dir.bytes

/-- The versions on disk. -/
def versions (ρ : Reading) (B : Nat → Option Bytes) : Set (Bytes × Nat × Option Bytes) :=
  {x | ∃ id r, Holds ρ B id r ∧ x = (r.key, r.seq.toNat, r.payload)}

variable {ρ : Reading} {s : Store} {pend : Pending} {gone : List Nat}

omit [Checksum] in
/-- Records told apart by their numbers never clash. -/
theorem agree_version {V : Set Record} (h : Set.InjOn Record.seq V) : Newest.Agree (Record.version '' V) := by
  rintro k x y ⟨r, hr, hx⟩ ⟨r', hr', hy⟩ hseq
  obtain ⟨-, rfl⟩ := Prod.mk.inj hx
  obtain ⟨-, rfl⟩ := Prod.mk.inj hy
  rw [h hr hr' (UInt64.toNat_inj.mp hseq)]

/-! ### Reading -/

theorem Located.valueAt_eq {d : Dir} {k : Bytes} {e : Entry} {r : Record}
    (h : Located ρ d.bytes k e r) : valueAt d e = r.payload := by
  rw [valueAt, h.readRecord]

omit [Checksum] in
theorem Store.mem_files (h : ∀ id, s.files[id]? = (s.dir.bytes id).map List.length) {id : Nat} :
    id ∈ s.files ↔ ∃ b, s.dir.bytes id = some b := by
  rw [Std.ExtTreeMap.mem_iff_isSome_getElem?, h]
  cases s.dir.bytes id <;> simp

theorem Mounted.mem_files (h : Mounted ρ s pend) {id : Nat} :
    id ∈ s.files ↔ ∃ b, s.dir.bytes id = some b := Store.mem_files h.files

theorem Located.readValue {k : Bytes} {e : Entry} {r : Record} (h : Located ρ s.dir.bytes k e r)
    (hfiles : ∀ id, s.files[id]? = (s.dir.bytes id).map List.length) : s.readValue e = answer r.payload := by
  obtain ⟨b, _, _, hb, _⟩ := h.place
  have hseq : ¬ r.seq ≠ e.seq := not_not.mpr h.seq
  rw [Store.readValue, if_neg (not_not.mpr ((Store.mem_files hfiles).mpr ⟨b, hb⟩)), h.readRecord]
  simp only [if_neg hseq, Record.payload]
  cases r.tombstone <;> rfl

theorem Located.liveMap_eq {k : Bytes} {e : Entry} {r : Record} (h : Located ρ s.dir.bytes k e r)
    (he : s.keys[k]? = some e) : s.liveMap k = r.payload := by
  simp [Store.liveMap, Newest.live, Store.view, Index.versions, he, h.valueAt_eq]

theorem Wf.liveMap_some (h : Wf ρ s pend) {k : Bytes} {e : Entry} (he : s.keys[k]? = some e) :
    ∃ r, Located ρ s.dir.bytes k e r ∧ s.liveMap k = r.payload := by
  obtain ⟨r, hr⟩ := h.located k e he
  exact ⟨r, hr, hr.liveMap_eq he⟩

omit [Checksum] in
theorem payload_eq_none {r : Record} : r.payload = none ↔ r.tombstone = true := by
  unfold Record.payload
  cases r.tombstone <;> simp

theorem Store.liveMap_none {k : Bytes} (he : s.keys[k]? = none) : s.liveMap k = none := by
  simp [Store.liveMap, Newest.live, Store.view, Index.versions, he]

/-- Where the locator of a key leads to its record in an open file, a read answers from the
live map. -/
theorem Store.get_eq_of_located {k : Bytes} (hk : Store.validateKey k = none)
    (hfiles : ∀ id, s.files[id]? = (s.dir.bytes id).map List.length)
    (hloc : ∀ e, s.keys[k]? = some e → ∃ r, Located ρ s.dir.bytes k e r) : s.get k = answer (s.liveMap k) := by
  rw [Store.get, hk]
  show s.getLoop k (3 + 1) = _
  rw [Store.getLoop]
  cases he : s.keys[k]? with
  | none =>
    have hlook : s.lookup k = none := by rw [Store.lookup, he]
    simp only [hlook, Store.liveMap_none he, answer]
  | some e =>
    obtain ⟨r, hr⟩ := hloc e he
    have hlive := hr.liveMap_eq he
    cases ht : e.tomb with
    | true =>
      have hlook : s.lookup k = none := by rw [Store.lookup, he]; simp [ht]
      simp only [hlook, hlive, payload_eq_none.mpr (hr.tomb.trans ht), answer]
    | false =>
      have hlook : s.lookup k = some e := by rw [Store.lookup, he]; simp [ht]
      have hval : r.payload = some r.value := by
        rw [Record.payload, hr.tomb, ht]
        rfl
      simp only [hlook, hr.readValue hfiles, hlive, hval, answer]

/-- **A read answers from the live map.** -/
theorem Wf.get_eq (h : Wf ρ s pend) {k : Bytes} (hk : Store.validateKey k = none) :
    s.get k = answer (s.liveMap k) :=
  Store.get_eq_of_located hk h.files fun e he => h.located k e he

omit [Checksum] in
theorem answer_injective : Function.Injective answer := by
  intro o o' h
  cases o <;> cases o' <;> first | rfl | (cases h; rfl) | cases h

/-- A key that fails the check maps to nothing. -/
theorem Wf.liveMap_invalid (h : Wf ρ s pend) {k : Bytes} {err : Error} (hk : Store.validateKey k = some err) :
    s.liveMap k = none := by
  refine Store.liveMap_none ?_
  cases he : s.keys[k]? with
  | none => rfl
  | some e =>
    obtain ⟨r, hr⟩ := h.located k e he
    obtain ⟨hpos, hle, _⟩ := hr.holds.sized
    rw [hr.key] at hpos hle
    rw [Store.validateKey, if_neg (by omega), if_neg (by omega)] at hk
    cases hk

/-- Reads tell live maps apart, and nothing else. -/
theorem Wf.get_congr {s' : Store} {pend' : Pending} (h : Wf ρ s pend) (h' : Wf ρ s' pend') :
    (∀ key, s'.get key = s.get key) ↔ s'.liveMap = s.liveMap := by
  constructor
  · intro hget
    funext k
    cases hk : Store.validateKey k with
    | some err => rw [h.liveMap_invalid hk, h'.liveMap_invalid hk]
    | none =>
      have := hget k
      rw [h.get_eq hk, h'.get_eq hk] at this
      exact answer_injective this
  · intro hlive k
    cases hk : Store.validateKey k with
    | some err => rw [Store.get, Store.get, hk]
    | none => rw [h.get_eq hk, h'.get_eq hk, hlive]

/-- The liveness check of `Delete` asks the live map. -/
theorem Store.isLive_eq_of_located {k : Bytes} (hloc : ∀ e, s.keys[k]? = some e → ∃ r, Located ρ s.dir.bytes k e r) :
    s.isLive k = (s.liveMap k).isSome := by
  rw [Store.isLive]
  cases he : s.keys[k]? with
  | none => simp only [Store.liveMap_none he, Option.isSome_none]
  | some e =>
    obtain ⟨r, hr⟩ := hloc e he
    rw [hr.liveMap_eq he, Record.payload, hr.tomb]
    cases ht : e.tomb <;> simp [ht]

theorem Wf.isLive_eq (h : Wf ρ s pend) (k : Bytes) : s.isLive k = (s.liveMap k).isSome :=
  Store.isLive_eq_of_located fun e he => h.located k e he

/-! ### The index of a quiet store -/

theorem Agreeing.versions {B : Nat → Option Bytes} (h : Agreeing ρ B) : Newest.Agree (versions ρ B) := by
  rintro k ⟨n, p⟩ ⟨n', p'⟩ ⟨i, r, hr, hx⟩ ⟨j, r', hr', hy⟩ hn
  simp only [Prod.mk.injEq] at hx hy hn
  obtain ⟨hk, hs, hp⟩ := hx
  obtain ⟨hk', hs', hp'⟩ := hy
  have hseq : r.seq = r'.seq := UInt64.toNat_inj.mp (by rw [← hs, ← hs', hn])
  have := h i j r r' hr hr' (hk.symm.trans hk') hseq
  rw [hn, hp, hp', this]

/-- **The index of a quiet store is an index of its disk.** -/
theorem Inv.indexes (h : Inv ρ s [] []) : Newest.Indexes (versions ρ s.dir.bytes) s.view where
  sound k x hx := by
    obtain ⟨e, he, rfl⟩ := Option.map_eq_some_iff.mp hx
    obtain ⟨r, hr⟩ := h.located k e he
    exact ⟨e.fileID, r, hr.holds, by rw [hr.key, hr.seq, hr.valueAt_eq]⟩
  covers k x hx := by
    obtain ⟨id, r, hr, heq⟩ := hx
    simp only [Prod.mk.injEq] at heq
    obtain ⟨rfl, rfl⟩ := heq
    rcases h.covers id r hr List.not_mem_nil with ⟨x, hx, _⟩ | ⟨e, he, hle⟩
    · cases hx
    · refine ⟨(e.seq.toNat, valueAt s.dir e), ?_, UInt64.le_iff_toNat_le.mp hle⟩
      rw [Store.view, Index.versions, he, Option.map_some]

/-- The live map of a quiet store is the newest-record-wins map of its disk. -/
theorem Inv.shows (h : Inv ρ s [] []) : Newest.Shows (versions ρ s.dir.bytes) s.liveMap :=
  h.indexes.shows h.agree.versions

/-- The newest record of a key decides what the key maps to. -/
theorem Inv.liveMap_newest (h : Inv ρ s [] []) {i : Nat} {r : Record} (hr : Holds ρ s.dir.bytes i r)
    (hmax : ∀ j r', Holds ρ s.dir.bytes j r' → r'.key = r.key → r'.seq ≤ r.seq) :
    s.liveMap r.key = r.payload := by
  rcases h.covers i r hr List.not_mem_nil with ⟨x, hx, _⟩ | ⟨e, he, hle⟩
  · cases hx
  · obtain ⟨r', hr', hlive⟩ := h.toWf.liveMap_some he
    have hseq := UInt64.le_antisymm (hmax _ r' hr'.holds hr'.key) (hr'.seq ▸ hle)
    rw [hlive, h.agree _ i r' r hr'.holds hr hr'.key hseq]

theorem Inv.liveMap_absent (h : Inv ρ s [] []) {k : Bytes}
    (hnone : ∀ i r, Holds ρ s.dir.bytes i r → r.key ≠ k) : s.liveMap k = none := by
  refine Store.liveMap_none ?_
  cases he : s.keys[k]? with
  | none => rfl
  | some e =>
    obtain ⟨r, hr⟩ := h.located k e he
    exact absurd hr.key (hnone _ r hr.holds)

/-! ### What the invariant does not see -/

/-- The stores differ at most in the active file, in counters, options and what has
been synced. -/
structure Same (s s' : Store) : Prop where
  closed : s'.closed = s.closed
  bytes : s'.dir.bytes = s.dir.bytes
  hints : s'.dir.hints = s.dir.hints
  files : s'.files = s.files
  nextID : s'.nextID = s.nextID
  hinting : s'.hinting = s.hinting
  keys : s'.keys = s.keys

variable {s' : Store}

theorem DirOk.same {d d' : Dir} (h : DirOk ρ d) (hb : d'.bytes = d.bytes) (hh : d'.hints = d.hints) :
    DirOk ρ d' := by
  obtain ⟨h1, h2, h3⟩ := h
  rw [← hb] at h1 h2 h3
  rw [← hh] at h3
  exact ⟨h1, h2, h3⟩

theorem Mounted.same (h : Mounted ρ s pend) (hs : Same s s') : Mounted ρ s' pend := by
  obtain ⟨h1, h2, h3, h4, h5, h6, h7, h8⟩ := h
  rw [← hs.closed] at h1
  rw [← hs.bytes] at h3 h4 h6 h7 h8
  rw [← hs.files] at h3
  rw [← hs.nextID] at h4 h5
  rw [← hs.hints] at h5
  rw [← hs.hinting] at h5 h6
  rw [← hs.keys] at h7
  exact ⟨h1, h2.same hs.bytes hs.hints, h3, h4, h5, h6, h7, h8⟩

theorem Wf.same (h : Wf ρ s pend) (hs : Same s s') (ha : s'.active = s.active) : Wf ρ s' pend := by
  obtain ⟨h0, h1, h2⟩ := h
  refine ⟨h0.same hs, ?_, ?_⟩
  · rw [ha, hs.bytes]
    exact h1
  · rw [ha, hs.hints, hs.hinting]
    exact h2

theorem Inv.same (h : Inv ρ s pend gone) (hs : Same s s') (ha : s'.active = s.active) :
    Inv ρ s' pend gone := by
  obtain ⟨h0, h1, h2⟩ := h
  refine ⟨h0.same hs ha, ?_, ?_⟩
  · rw [hs.bytes, hs.keys]
    exact h1
  · rw [hs.bytes]
    exact h2

/-- The view stays as long as every locator of the index keeps its record. -/
theorem Mounted.view_eq (h : Mounted ρ s pend) (hk : s'.keys = s.keys)
    (hl : ∀ k e r, Located ρ s.dir.bytes k e r → s.keys[k]? = some e → Located ρ s'.dir.bytes k e r) :
    s'.view = s.view := by
  rw [Store.view, Store.view, hk]
  refine Index.versions_congr s.keys fun k e he => ?_
  obtain ⟨r, hr⟩ := h.located k e he
  rw [hr.valueAt_eq, (hl k e r hr he).valueAt_eq]

theorem Mounted.liveMap_eq (h : Mounted ρ s pend) (hk : s'.keys = s.keys)
    (hl : ∀ k e r, Located ρ s.dir.bytes k e r → s.keys[k]? = some e → Located ρ s'.dir.bytes k e r) :
    s'.liveMap = s.liveMap := by
  rw [Store.liveMap, Store.liveMap, h.view_eq hk hl]

theorem Mounted.liveMap_same (h : Mounted ρ s pend) (hs : Same s s') : s'.liveMap = s.liveMap :=
  h.liveMap_eq hs.keys fun _ _ _ hr _ => hs.bytes ▸ hr

/-! ### Hints -/

/-- Renaming a hint into place, of a file that is whole and not written any more. -/
theorem Inv.renameHint (h : Inv ρ s pend gone) {id : Nat} {b : Bytes} (hb : s.dir.bytes id = some b)
    (hw : ρ.Whole (records b)) (hne : id ≠ s.active.id) :
    Inv ρ {s with dir := s.dir.renameHint id (buildHint id b)} pend gone :=
  {h with
    dir := ⟨h.dir.sizes, h.dir.tidy, fun i c b' hc hb' => by
      by_cases hi : i = id
      · subst hi
        rw [Dir.renameHint, Std.ExtTreeMap.getElem?_insert_self] at hc
        cases Option.some.inj (hb.symm.trans hb')
        exact ⟨(Option.some.inj hc).symm, hw⟩
      · rw [Dir.renameHint, Std.ExtTreeMap.getElem?_insert, if_neg (by simpa using Ne.symm hi)] at hc
        exact h.dir.hints i c b' hc hb'⟩
    hintIDs := fun i hi => by
      rw [Dir.renameHint, Std.ExtTreeMap.mem_insert] at hi
      rcases hi with (hi | hi) | hi
      · rw [← Std.LawfulEqCmp.eq_of_compare hi]
        exact h.fresh id b hb
      · exact h.hintIDs i (.inl hi)
      · exact h.hintIDs i (.inr hi)
    noHint := fun hi => by
      rw [Dir.renameHint, Std.ExtTreeMap.mem_insert] at hi
      rcases hi with (hi | hi) | hi
      · exact hne (Std.LawfulEqCmp.eq_of_compare hi)
      · exact h.noHint (.inl hi)
      · exact h.noHint (.inr hi) }

theorem Inv.removeHint (h : Inv ρ s pend gone) (id : Nat) :
    Inv ρ {s with dir := s.dir.removeHint id} pend gone :=
  {h with
    dir := ⟨h.dir.sizes, h.dir.tidy, fun i c b hc hb => by
      rw [Dir.removeHint, Std.ExtTreeMap.getElem?_erase] at hc
      split at hc
      · cases hc
      · exact h.dir.hints i c b hc hb⟩
    hintIDs := fun i hi => by
      rw [Dir.removeHint, Std.ExtTreeMap.mem_erase] at hi
      exact h.hintIDs i (hi.imp And.right fun hi => hi)
    noHint := fun hi => by
      rw [Dir.removeHint, Std.ExtTreeMap.mem_erase] at hi
      exact h.noHint (hi.imp And.right fun hi => hi) }

end Invariant

end Gokv.Engine
