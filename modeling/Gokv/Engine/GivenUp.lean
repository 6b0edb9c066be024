import Gokv.Engine.Acknowledged
import Gokv.Engine.Midway
import Gokv.Engine.Range

/-! A `Compact` that gives up.

A `Compact` fails at an operation of the file system (`compactFails`) or because the id of an output
is taken. The store it leaves has the index it had; new are an empty active file, used up file ids
and perhaps hints of files that are gone (`GivenUp`). It shows what it showed. The writes behind it,
a later `Compact` and the next `Open` work exactly if the ids they ask for are free
(`failed_compact`), which they are as long as the counter has not wrapped. -/
namespace Gokv.Engine
open Base

section GivenUp
variable [Checksum] {s s' s₀ t : Store} {m : Merge} {op : Op}

/-! ### The store left behind -/

/-- What a `Compact` that gave up leaves. -/
structure GivenUp (s s' : Store) : Prop where
  running : s'.closed = false
  keys : s'.keys = s.keys
  seq : s'.seq = s.seq
  files : ∀ id, s'.files[id]? = (s'.dir.bytes id).map List.length
  hints : ∀ id, id ∈ s'.dir.data → s'.dir.hints[id]? = s.dir.hints[id]?
  disk : s'.dir.bytes = s.dir.bytes ∧ s'.active = s.active ∨
    s'.dir.bytes = Function.update s.dir.bytes s.nextID (some []) ∧ s'.active = ⟨s.nextID, 0⟩

theorem Quiet.givenUp_sync (h : Quiet s) {d : Dir} (hbytes : d.bytes = s.dir.bytes) (hhints : d.hints = s.dir.hints) :
    GivenUp s {s with dir := d} where
  running := h.inv.running
  keys := rfl
  seq := rfl
  files id := by
    rw [hbytes]
    exact h.inv.files id
  hints id _ := by rw [hhints]
  disk := .inl ⟨hbytes, rfl⟩

theorem Quiet.givenUp_seal (h : Quiet s) {d : Dir} (hbytes : d.bytes = s.dir.bytes) (hhints : d.hints = s.dir.hints) :
    GivenUp s (Store.fresh {s with dir := d}) where
  running := h.inv.running
  keys := rfl
  seq := rfl
  files := (poised_fresh (h.givenUp_sync hbytes hhints).files).files
  hints id _ := congrArg (·[id]?) hhints
  disk := by
    refine .inr ⟨?_, rfl⟩
    rw [bytes_fresh]
    exact congrArg (Function.update · _ _) hbytes

theorem Quiet.givenUp_resealed (h : Quiet s) {d : Dir} (hbytes : d.bytes = s.dir.bytes)
    (hhints : d.hints = s.dir.hints) :
    GivenUp s (s.resealed d) := by
  obtain ⟨h1, h2, h3, h4, h5, h6⟩ := h.givenUp_seal hbytes hhints
  exact ⟨h1, h2, h3, h4, h5, h6⟩

omit [Checksum] in
/-- Ids may be used up, and hints without a file come and go. -/
theorem GivenUp.skip (h : GivenUp s s₀) {d : Dir} (hdata : d.data = s₀.dir.data)
    (hhints : ∀ id, id ∈ s₀.dir.data → d.hints[id]? = s₀.dir.hints[id]?) (n : Nat) :
    GivenUp s {s₀ with dir := d, nextID := n} := by
  have hbytes : d.bytes = s₀.dir.bytes := funext fun id => by rw [Dir.bytes, Dir.bytes, hdata]
  refine ⟨h.running, h.keys, h.seq, fun id => ?_, fun id hid => ?_, ?_⟩
  · rw [hbytes]
    exact h.files id
  · have hid : id ∈ s₀.dir.data := hdata ▸ hid
    exact (hhints id hid).trans (h.hints id hid)
  · rw [hbytes]
    exact h.disk

/-- Without its outputs a merge that has not repointed the index is the store it started with. -/
theorem Passing.abandon (h : Passing s₀ t m) (hs : Spread s₀) (hcopy : m.copying = true)
    (hlist : ∀ a, m.phase ≠ .list a) (n : Nat) :
    ∃ d : Dir, Merge.abandon {t with nextID := n} m = {s₀ with dir := d, nextID := n} ∧ d.data = s₀.dir.data ∧
      ∀ id, id ∈ s₀.dir.data → d.hints[id]? = s₀.dir.hints[id]? := by
  have hclean {m : Merge} {shelves : List Shelf} {todo : List (Bytes × Entry)} (hc : Copying s₀ t m shelves todo) :
      ∃ d : Dir, Merge.abandon {t with nextID := n} m = {s₀ with dir := d, nextID := n} ∧ d.data = s₀.dir.data ∧
        ∀ id, id ∈ s₀.dir.data → d.hints[id]? = s₀.dir.hints[id]? :=
    ⟨s₀.dir, congrArg Prod.fst (hc.cleanup hs n .eof), rfl, fun _ _ => rfl⟩
  obtain ⟨hstage, hlate⟩ := h
  cases hstage with
  | list => exact absurd rfl (hlist _)
  | snapshot => exact ⟨s₀.dir, rfl, rfl, fun _ _ => rfl⟩
  | copy _ hc | write _ hc | syncOuts _ hc => exact hclean (hc.phase _)
  | idle hm | failed _ hm =>
    rw [Merge.copying, hm] at hcopy
    cases hcopy
  | publish hset _ _ hm =>
    rcases hlate hm with ⟨hdone, -⟩ | ⟨u, k, shelves, hc, hl⟩
    · rw [Merge.copying, hdone] at hcopy
      cases hcopy
    · cases hl with
      | @hints d left hd hhints _ =>
        have hgone : Merge.abandon {u with nextID := n} k = {s₀ with nextID := n} :=
          congrArg Prod.fst (hc.cleanup hs n .eof)
        rw [abandon_eq, droppedAll_eq] at hgone
        have hfiles : (k.outs.map Out.id).foldl (fun t id => t.erase id) u.files = s₀.files :=
          congrArg Store.files hgone
        have hdata : (k.outs.map Out.id).foldl (fun t id => t.erase id) u.dir.data = s₀.dir.data :=
          congrArg (fun s : Store => s.dir.data) hgone
        refine ⟨{d with data := s₀.dir.data}, ?_, rfl, fun id hid => ?_⟩
        · rw [abandon_eq, droppedAll_eq]
          show ({u with nextID := n, files := (k.outs.map Out.id).foldl (fun t id => t.erase id) u.files,
                        dir := {d with data := (k.outs.map Out.id).foldl (fun t id => t.erase id) d.data} } : Store) = _
          rw [hd, hfiles, hdata, hc.store]
        · refine (hhints id fun hm => ?_).trans (by rw [hc.hints])
          obtain ⟨sh, hsh, rfl⟩ := List.mem_map.mp hm
          exact hc.fresh sh hsh hid
      | repoint | retire | watermark => cases hcopy
      | closing _ _ _ hphase =>
        cases hp : m.phase with
        | remove _ | recount | sum | total _ | done =>
          rw [Merge.copying, hp] at hcopy
          cases hcopy
        | _ =>
          rw [hp] at hphase
          exact hphase.elim

theorem Passing.run (h : Passing s₀ t m) (hs : Spread s₀) (n : Nat) :
    Passing s₀ (Merge.run n t m).1 (Merge.run n t m).2 := by
  induction n generalizing t m with
  | zero => exact h
  | succ n ih => exact ih (h.step hs)

theorem Located.toEvery {ρ : Reading} {B : Nat → Option Bytes} {k : Bytes} {e : Entry} {r : Record}
    (h : Located ρ B k e r) : Located .every B k e r := by
  obtain ⟨b, before, after, hb, hrecs, hpos, hr⟩ := h.place
  exact {h with place := ⟨b, before, after, hb, hrecs, hpos, Reading.take_subset hr⟩}

theorem Wf.sound {ρ : Reading} {pend : Pending} (h : Wf ρ s pend) : Sound s := by
  obtain ⟨b, hb, hsize, hi, -⟩ := h.active
  exact ⟨⟨⟨b, hb, hsize, hi⟩, h.files⟩, fun k e he => (h.located k e he).imp fun _ hr => hr.toEvery⟩

theorem Sound.placed (h : Sound s) : Placed s where
  files := h.files
  active := by
    obtain ⟨b, hb, hsize, -⟩ := h.active
    rw [h.files, hb, Option.map_some, hsize]
  opened k e he := by
    obtain ⟨r, hr⟩ := h.located k e he
    obtain ⟨b, -, -, hb, -⟩ := hr.place
    exact (Store.mem_files h.files).mpr ⟨b, hb⟩
  filled hz k e he heq := by
    obtain ⟨r, hr⟩ := h.located k e he
    obtain ⟨b, before, after, hb, hrecs, -⟩ := hr.place
    obtain ⟨c, hc, hsize, -⟩ := h.active
    rw [heq, hc] at hb
    cases hb
    rw [hz] at hsize
    rw [List.eq_nil_of_length_eq_zero hsize] at hrecs
    have hlen := congrArg List.length hrecs
    simp [records, scanFile, scanFrom] at hlen

theorem Quiet.free (h : Quiet s) : s.nextID ∉ s.dir.data := fun hm => by
  obtain ⟨b, hb⟩ := Dir.mem_data.mp hm
  exact Nat.lt_irrefl _ (h.inv.fresh _ b hb)

variable {fault : MergeFault} {n : Nat}

theorem Quiet.sealFails (h : Quiet s) (hfail : s.sealFails fault = some s') : GivenUp s s' := by
  obtain ⟨b, hb, -⟩ := h.inv.active
  obtain ⟨d, hd, hbytes, hhints, -⟩ := Dir.sync_ok hb
  unfold Store.sealFails at hfail
  split at hfail
  · cases hfail
  · rw [hd] at hfail
    cases fault with
    | sealSync =>
      cases hfail
      exact h.givenUp_sync rfl rfl
    | sealCreate =>
      cases hfail
      exact h.givenUp_sync hbytes hhints
    | sealSyncDir =>
      have hfree : ({s with dir := d} : Store).nextID ∉ ({s with dir := d} : Store).dir.data := by
        rw [Dir.mem_data, show ({s with dir := d} : Store).dir.bytes = s.dir.bytes from hbytes, ← Dir.mem_data]
        exact h.free
      simp only [openNewActive_fresh hfree] at hfail
      cases hfail
      exact h.givenUp_seal hbytes hhints
    | _ => cases hfail

theorem Quiet.mergeFails (h : Quiet s)
    (hfail : Merge.fails fault (Merge.run n s.sealActive.1 s.sealActive.2).1
      (Merge.run n s.sealActive.1 s.sealActive.2).2 = some s') : GivenUp s s' := by
  have hplaced := h.inv.toWf.sound.placed
  have hrun {s₀ : Store} (hspread : Spread s₀) (hg : GivenUp s s₀)
      (hseal : s.sealActive = (s₀, .start (.list s₀.active.id) s₀.seq)) : GivenUp s s' := by
    rw [hseal] at hfail
    have hstart : Passing s₀ s₀ (.start (.list s₀.active.id) s₀.seq) := ⟨.list, fun hp => by cases hp⟩
    obtain ⟨hcopy, hlist, id, -, rfl⟩ := Merge.fails_abandon hfail
    obtain ⟨d, heq, hdata, hhints⟩ := (hstart.run hspread n).abandon hspread hcopy hlist id
    rw [heq]
    exact hg.skip hdata hhints id
  rcases sealActive_cases hplaced with ⟨hwhy, -⟩ | ⟨hz, hseal⟩ | ⟨d, hbytes, hhints, hz, hid, hseal⟩
  · rcases hwhy with hclosed | ⟨-, hmem⟩
    · rw [h.inv.running] at hclosed
      cases hclosed
    · exact absurd hmem h.free
  · exact hrun (hplaced.spread hz) (h.givenUp_sync rfl rfl) hseal
  · exact hrun (hplaced.resealed hbytes hid) (h.givenUp_resealed hbytes hhints) hseal

/-- **Wherever `Compact` fails**, it leaves this. -/
theorem Quiet.compactFails (h : Quiet s) (hfail : s.compactFails fault n = some s') : GivenUp s s' := by
  rw [Store.compactFails, h.inv.running] at hfail
  simp only [Bool.false_eq_true, if_false] at hfail
  cases hseal : s.sealFails fault with
  | some t =>
    rw [hseal] at hfail
    cases hfail
    exact h.sealFails hseal
  | none =>
    rw [hseal] at hfail
    exact h.mergeFails hfail

/-- A `Compact` that fails by itself finds no free id for an output. -/
theorem Quiet.compactBlocked (h : Quiet s) (hne : s.compact.2 ≠ none) : GivenUp s s.compact.1 := by
  have hblocked {s₀ : Store} (hg : GivenUp s s₀) (hends : Ends s₀ s.compact.1 s.compact.2) : GivenUp s s.compact.1 := by
    generalize s.compact.1 = t, s.compact.2 = err at hends hne
    cases hends with
    | idle | merged => exact absurd rfl hne
    | blocked id e => exact hg.skip rfl (fun _ _ => rfl) id
  rcases compact_cases h.inv.toWf.sound.placed with
    ⟨hwhy, -⟩ | ⟨s₀, -, hends, ⟨-, rfl⟩ | ⟨d, hbytes, hhints, -, -, rfl⟩⟩
  · rcases hwhy with hclosed | ⟨-, hmem⟩
    · rw [h.inv.running] at hclosed
      cases hclosed
    · exact absurd hmem h.free
  · exact hblocked (h.givenUp_sync rfl rfl) hends
  · exact hblocked (h.givenUp_resealed hbytes hhints) hends

/-! ### What it shows -/

theorem GivenUp.located (hg : GivenUp s s') (h : Quiet s) {ρ : Reading} {k : Bytes} {e : Entry} {r : Record}
    (hr : Located ρ s.dir.bytes k e r) : Located ρ s'.dir.bytes k e r := by
  rcases hg.disk with ⟨hbytes, -⟩ | ⟨hbytes, -⟩
  · rwa [hbytes]
  · rw [hbytes]
    exact hr.create h.inv.notMem_nextID

theorem GivenUp.holds (hg : GivenUp s s') (h : Quiet s) {ρ : Reading} {i : Nat} {r : Record} :
    Holds ρ s'.dir.bytes i r ↔ Holds ρ s.dir.bytes i r := by
  rcases hg.disk with ⟨hbytes, -⟩ | ⟨hbytes, -⟩
  · rw [hbytes]
  · rw [hbytes, holds_create h.inv.notMem_nextID]

theorem GivenUp.sound (hg : GivenUp s s') (h : Quiet s) : Sound s' := by
  refine ⟨⟨?_, hg.files⟩, fun k e he => ?_⟩
  · rcases hg.disk with ⟨hbytes, hactive⟩ | ⟨hbytes, hactive⟩
    · rw [hbytes, hactive]
      exact h.inv.toWf.sound.active
    · rw [hbytes, hactive]
      exact ⟨[], Function.update_self .., rfl, intact_nil⟩
  · obtain ⟨r, hr⟩ := h.inv.toWf.sound.located k e (hg.keys ▸ he)
    exact ⟨r, hg.located h hr⟩

theorem GivenUp.liveMap (hg : GivenUp s s') (h : Quiet s) : s'.liveMap = s.liveMap :=
  h.inv.toMounted.liveMap_eq hg.keys fun _ _ _ hr _ => hg.located h hr

theorem GivenUp.alike (hg : GivenUp s s') (h : Quiet s) : Alike s s' where
  keys := hg.keys
  read k e he := by
    obtain ⟨r, hr⟩ := h.inv.located k e he
    rw [hr.readValue h.inv.files, (hg.located h hr).readValue hg.files]

theorem GivenUp.get (hg : GivenUp s s') (h : Quiet s) (key : Bytes) : s'.get key = s.get key := by
  refine get_congr (fun k hk => ?_) key
  rw [h.inv.toWf.get_eq hk, Store.get_eq_of_located hk hg.files fun e he => (hg.sound h).located k e he, hg.liveMap h]

/-! ### Reopening -/

theorem GivenUp.dirOk (hg : GivenUp s s') (h : Quiet s) : DirOk .committed s'.close := by
  obtain ⟨b, hb, -⟩ := (hg.sound h).active
  obtain ⟨hbytes, hhints⟩ := Store.close_same hb
  refine DirOk.same (d := s'.dir) ?_ hbytes hhints
  have hkept {id : Nat} {c : Bytes} (hc : s'.dir.bytes id = some c) :
      s.dir.bytes id = some c ∨ id = s.nextID ∧ c = [] := by
    rcases hg.disk with ⟨hdisk, -⟩ | ⟨hdisk, -⟩
    · exact .inl (hdisk ▸ hc)
    · rw [hdisk] at hc
      rcases update_some hc with ⟨rfl, rfl⟩ | ⟨-, hc⟩
      · exact .inr ⟨rfl, rfl⟩
      · exact .inl hc
  refine ⟨fun id c hc => ?_, fun id c hc => ?_, fun id hint c hh hc => ?_⟩
  · rcases hkept hc with hold | ⟨-, rfl⟩
    · exact h.inv.dir.sizes id c hold
    · decide
  · rcases hkept hc with hold | ⟨-, rfl⟩
    · exact h.inv.dir.tidy id c hold
    · exact Reading.whole_nil.tidy
  · rw [hg.hints id (Dir.mem_data.mpr ⟨c, hc⟩)] at hh
    rcases hkept hc with hold | ⟨rfl, -⟩
    · exact h.inv.dir.hints id hint c hh hold
    · have hlt := h.inv.hintIDs s.nextID (.inl (Std.ExtTreeMap.mem_iff_isSome_getElem?.mpr (by rw [hh]; rfl)))
      exact absurd hlt (Nat.lt_irrefl _)

theorem GivenUp.ids_lt (hg : GivenUp s s') (h : Quiet s) (hid : s.nextID < 2 ^ 32) :
    ∀ id, id ∈ s'.close.data → id < 2 ^ 32 := by
  intro id hm
  obtain ⟨c, hc⟩ := Dir.mem_data.mp hm
  rw [(hg.sound h).toPoised.bytes_close] at hc
  rcases hg.disk with ⟨hdisk, -⟩ | ⟨hdisk, -⟩
  · rw [hdisk] at hc
    exact (h.inv.fresh id c hc).trans hid
  · rw [hdisk] at hc
    rcases update_some hc with ⟨rfl, -⟩ | ⟨-, hc⟩
    · exact hid
    · exact (h.inv.fresh id c hc).trans hid

/-- **Closed and opened**, the store shows its map, unless `Open` finds no id for a fresh file. -/
theorem GivenUp.reopen_iff (hg : GivenUp s s') (h : Quiet s) (hid : s.nextID < 2 ^ 32) (opts : Options) :
    (∃ s'', openStore opts s'.close = .ok s'' ∧ s''.liveMap = s.liveMap) ↔ ¬ Stuck opts s'.close := by
  have hd := hg.dirOk h
  have hbytes := (hg.sound h).toPoised.bytes_close
  have hrecovers {id : Nat} {r : Record} : Recovers s'.close id r ↔ Holds .committed s.dir.bytes id r := by
    rw [hd.recovers_committed, hbytes, hg.holds h]
  rcases openStore_found opts hd.toEvery (hg.ids_lt h hid) with ⟨hstuck, hopen⟩ | ⟨hfree, t, hopen, hfound⟩
  · refine iff_of_false ?_ (not_not.mpr hstuck)
    rintro ⟨t, ht, -⟩
    rw [hopen] at ht
    cases ht
  · refine iff_of_true ⟨t, hopen, Newest.Indexes.live_eq ⟨fun k x hx => ?_, fun k x hx => ?_⟩ h.inv.shows⟩ hfree
    · obtain ⟨e, he, rfl⟩ := Option.map_eq_some_iff.mp hx
      obtain ⟨r, hloc, hrec⟩ := hfound.recovers k e he
      exact ⟨e.fileID, r, hrecovers.mp hrec, by rw [hloc.key, hloc.seq, hloc.valueAt_eq]⟩
    · obtain ⟨id, r, hr, heq⟩ := hx
      obtain ⟨rfl, rfl⟩ := Prod.mk.inj heq
      obtain ⟨e, he, hle⟩ := hfound.covers id r (hrecovers.mpr hr)
      exact ⟨(e.seq.toNat, valueAt t.dir e), by rw [Store.view, Index.versions, he]; rfl, UInt64.le_iff_toNat_le.mp hle⟩

end GivenUp

/-! ### Later writes -/

section Later
variable [Checksum] {s t : Store} {m : Map} {op : Op} {recs : List Record} {err : Option Error}

/-- **An append, wherever the file counter stands**, fails if it stalls and else moves the map
by its records. -/
theorem Sound.appendLocked (h : Sound s) (ha : Ahead s) (hs : ∀ r ∈ recs, r.Sized) (hfar : Addressable recs)
    (hroom : s.seq.toNat + recs.length < 2 ^ 64) :
    s.Stalls (encodeAll recs).length ∧ (s.appendLocked recs).2 = some .fileExists ∨
      ¬ s.Stalls (encodeAll recs).length ∧ ∃ s', s.appendLocked recs = (s', none) ∧ Sound s' ∧ Ahead s' ∧
        s'.closed = s.closed ∧ s'.liveMap = applyRecords s.liveMap recs := by
  have hnum : Sound {s with seq := s.seq + UInt64.ofNat recs.length} := h.same rfl rfl rfl rfl
  have hs' := sized_assignSeqs (q := s.seq) hs
  have hok := hnum.toPoised.writeLocked_ok hs'
  rw [length_encodeAll_assignSeqs] at hok
  obtain ⟨hseq, hmem⟩ := hnum.toPoised.writeLocked_seq hs'
  obtain ⟨hrange, hinc⟩ := seq_assignSeqs hroom
  have hadvance := toNat_advance hroom
  rw [Store.appendLocked]
  rcases hnum.writeLocked hs' (addressable_assignSeqs hfar) with ⟨s', hw, h', hg, hview⟩ | ⟨s', hw, -⟩
  · rw [hw] at hok hseq hmem
    refine .inr ⟨hok.mp rfl, s', hw, h', fun k e he => UInt64.le_iff_toNat_le.mpr ?_, hg.closed, ?_⟩
    · rw [show s'.seq = s.seq + UInt64.ofNat recs.length from hseq, hadvance]
      rcases hmem k e he with hold | ⟨-, r, hr, hre⟩
      · have := UInt64.le_iff_toNat_le.mp (ha k e hold)
        omega
      · rw [hre]
        exact (hrange r hr).2
    · rw [Store.liveMap, hview, live_offerAll_version hinc fun r hr k y hy => ?_, applyRecords_assignSeqs]
      · rfl
      · obtain ⟨e, he, rfl⟩ := Option.map_eq_some_iff.mp hy
        exact Nat.lt_of_le_of_lt (UInt64.le_iff_toNat_le.mp (ha k e he)) (hrange r hr).1
  · rw [hw] at hok ⊢
    refine .inl ⟨not_not.mp fun hno => ?_, rfl⟩
    have := hok.mpr hno
    cases this

/-- The widths hold a client's write, the file counter apart. -/
def Roomy (s : Store) (op : Op) : Prop := op.Local ∧ Fits {s with nextID := 0} op

/-- A write that gets as far as the log finds an id for the file it rotates to. -/
def Unstalled (s : Store) (op : Op) : Prop :=
  op.refusal s.liveMap = none → op.records ≠ [] → ¬ s.Stalls (encodeAll op.records).length

omit [Checksum] in
instance decidableRoomy (s : Store) : (op : Op) → Decidable (Roomy s op)
  | .put _ _ _ | .batchPut _ _ _ | .delete _ _ => inferInstanceAs (Decidable (True ∧ _))
  | .compact | .reopen _ | .sync | .hint _ => inferInstanceAs (Decidable (False ∧ _))

instance (s : Store) (op : Op) : Decidable (Unstalled s op) := inferInstanceAs (Decidable (_ → _ → ¬ _))

/-- A store that serves a map, wherever its file counter stands. -/
structure Serves (s : Store) (m : Map) : Prop extends Sound s where
  running : s.closed = false
  ahead : Ahead s
  shows : s.liveMap = m

/-- **A client's write** is answered as the map answers it exactly if it does not stall. -/
theorem Serves.apply (h : Serves s m) (hop : Roomy s op) :
    ((s.apply op).2 = (Map.apply m op).2 ↔ Unstalled s op) ∧
      (Unstalled s op → Serves (s.apply op).1 (Map.apply m op).1) := by
  obtain ⟨hsound, hrun, hahead, rfl⟩ := h
  rw [Store.apply_local hrun (fun key => Store.isLive_eq_of_located fun e he => hsound.located key e he) hop.1,
    Map.apply]
  cases hr : op.refusal s.liveMap with
  | some e =>
    refine ⟨iff_of_true rfl fun hno => ?_, fun _ => ⟨hsound, hrun, hahead, rfl⟩⟩
    rw [hr] at hno
    cases hno
  | none =>
    by_cases hnil : op.records = []
    · simp only [hnil, if_true]
      refine ⟨iff_of_true trivial fun _ hne => absurd hnil hne, fun _ => ⟨hsound, hrun, hahead, ?_⟩⟩
      rw [Op.updates_nil hop.1 hnil]
      rfl
    · have hw := (Op.records_ne_nil_valid hop.1 hr hnil).writes hop.2
      have hun : Unstalled s op ↔ ¬ s.Stalls (encodeAll op.records).length := ⟨fun h => h hr hnil, fun h _ _ => h⟩
      simp only [if_neg hnil, hun]
      rcases hsound.appendLocked hahead hw.sized hw.addressable hw.seq with
        ⟨hst, hfail⟩ | ⟨hno, s', hs', h', ha', hc, hlive⟩
      · rw [hfail]
        exact ⟨iff_of_false (Option.some_ne_none _) (not_not.mpr hst), fun hno => absurd hst hno⟩
      · rw [hs']
        exact ⟨iff_of_true rfl hno, fun _ => ⟨h', hc.trans hrun, ha', hlive.trans (hw.map _)⟩⟩

theorem Serves.run {ops : List Op} (h : Serves s m) (hops : storeMachine.Meets Roomy s ops) :
    ((storeMachine.run s ops).2 = (mapMachine.run m ops).2 ↔ storeMachine.Meets Unstalled s ops) ∧
      (storeMachine.Meets Unstalled s ops → Serves (storeMachine.run s ops).1 (mapMachine.run m ops).1) := by
  induction ops generalizing s m with
  | nil => exact ⟨iff_of_true rfl trivial, fun _ => h⟩
  | cons op rest ih =>
    obtain ⟨hiff, hnext⟩ := h.apply hops.1
    show ((s.apply op).2 :: (storeMachine.run (s.apply op).1 rest).2 =
        (Map.apply m op).2 :: (mapMachine.run (Map.apply m op).1 rest).2 ↔
        Unstalled s op ∧ storeMachine.Meets Unstalled (s.apply op).1 rest) ∧ _
    rw [List.cons.injEq, hiff]
    exact ⟨and_congr_right fun hu => (ih (hnext hu) hops.2).1, fun hu => (ih (hnext hu.1) hops.2).2 hu.2⟩

/-! ### A later `Compact` -/

/-- The ids `Compact` asks for: one for the seal if the active file holds anything, and one for
each output. -/
def Store.asked (s : Store) : List Nat :=
  (List.range (s.outputs + if s.active.size = 0 then 0 else 1)).map fun i => Store.succID^[i] s.nextID

/-- They are free, and no two of them are the same. -/
def Store.Spare (s : Store) : Prop := s.asked.Nodup ∧ ∀ id ∈ s.asked, id ∉ s.dir.data

omit [Checksum] in
instance (s : Store) : Decidable s.Spare := inferInstanceAs (Decidable (_ ∧ _))

/-- A merge of readable records ends well exactly if the ids of its outputs are free. -/
theorem Ends.ok_iff (h : Ends s t err) (hs : Spread s)
    (hread : ∀ x ∈ s.liveEntries, ∃ r, Store.readRecord s.dir x.2 = .ok r) :
    err = none ↔ ((List.range s.outputs).map fun i => Store.succID^[i] s.nextID).Nodup ∧
      ∀ id ∈ (List.range s.outputs).map fun i => Store.succID^[i] s.nextID, id ∉ s.dir.data := by
  cases h with
  | idle hset =>
    have hnone : s.liveEntries = [] := List.eq_nil_iff_forall_not_mem.mpr fun x hx => by
      have hmem := hs.inSet x.1 x.2 (lookup_eq_some.mp (mem_liveEntries.mp hx)).1
      rw [hset] at hmem
      cases hmem
    have hzero : s.outputs = 0 := by
      rw [Store.outputs, hnone]
      rfl
    rw [hzero]
    exact iff_of_true rfl ⟨List.nodup_nil, fun id hid => absurd hid List.not_mem_nil⟩
  | merged _ hm =>
    rw [← hm.count, ← hm.ids]
    refine iff_of_true rfl ⟨hm.distinct, fun id hid => ?_⟩
    obtain ⟨sh, hsh, rfl⟩ := List.mem_map.mp hid
    exact hm.fresh sh hsh
  | blocked n e hb =>
    refine iff_of_false (Option.some_ne_none _) ?_
    rintro ⟨hnodup, hfree⟩
    have hasked {i : Nat} (hi : i < s.outputs) : Store.succID^[i] s.nextID ∈
        (List.range s.outputs).map fun i => Store.succID^[i] s.nextID :=
      List.mem_map_of_mem (f := fun i => Store.succID^[i] s.nextID) (List.mem_range.mpr hi)
    rcases hb with ⟨x, hx, e, he⟩ | ⟨n, hn, hmem | ⟨i, hi, heq⟩⟩
    · obtain ⟨r, hr⟩ := hread x hx
      rw [hr] at he
      cases he
    · exact hfree _ (hasked hn) hmem
    · have := (List.nodup_map_iff_inj_on List.nodup_range).mp hnodup n (List.mem_range.mpr hn) i
        (List.mem_range.mpr (hi.trans hn)) heq
      omega

omit [Checksum] in
/-- The seal takes the first of the ids. -/
theorem asked_sealed (hz : s.active.size ≠ 0) :
    s.asked = s.nextID :: (List.range s.outputs).map fun i => Store.succID^[i] (Store.succID s.nextID) := by
  rw [Store.asked, if_neg hz, List.range_succ_eq_map, List.map_cons, List.map_map]
  rfl

theorem Sound.reads (h : Sound s) : ∀ x ∈ s.liveEntries, ∃ r, Store.readRecord s.dir x.2 = .ok r ∧ r.key = x.1 ∧
    r.seq = x.2.seq ∧ r.tombstone = false ∧ x.2.size < 2 ^ 32 := by
  rintro ⟨k, e⟩ hx
  obtain ⟨he, ht⟩ := lookup_eq_some.mp (mem_liveEntries.mp hx)
  obtain ⟨r, hr⟩ := h.located k e he
  refine ⟨r, hr.readRecord, hr.key, hr.seq, hr.tomb.trans ht, ?_⟩
  have hlt := hr.holds.sized.lt
  rw [hr.size, Record.length_encode]
  omega

/-- **`Compact` goes through** exactly if the ids it asks for are free. -/
theorem Sound.compact_ok (h : Sound s) (hrun : s.closed = false) : s.compact.2 = none ↔ s.Spare := by
  rcases compact_cases h.placed with ⟨hwhy, d, e, -, -, hc⟩ |
    ⟨s₀, hspread, hends, ⟨hz, rfl⟩ | ⟨d, hbytes, -, hz, hfree, rfl⟩⟩
  · rw [hc]
    refine iff_of_false (Option.some_ne_none _) fun hspare => ?_
    rcases hwhy with hclosed | ⟨hz, hmem⟩
    · rw [hrun] at hclosed
      cases hclosed
    · refine hspare.2 s.nextID ?_ hmem
      rw [asked_sealed hz]
      exact List.mem_cons_self ..
  · rw [hends.ok_iff hspread fun x hx => (h.reads x hx).imp fun _ hr => hr.1, Store.Spare, Store.asked, if_pos hz]
    rfl
  · have hread : ∀ x ∈ (s.resealed d).liveEntries, ∃ r, Store.readRecord (s.resealed d).dir x.2 = .ok r := by
      rintro ⟨k, e⟩ hx
      obtain ⟨he, -⟩ := lookup_eq_some.mp (mem_liveEntries.mp hx)
      obtain ⟨r, hr⟩ := h.located k e he
      refine ⟨r, Located.readRecord (ρ := .every) (k := k) (r := r) ?_⟩
      show Located .every (Store.fresh {s with dir := d}).dir.bytes k e r
      rw [bytes_fresh, show ({s with dir := d} : Store).dir.bytes = s.dir.bytes from hbytes]
      exact hr.create (bytes_nextID hfree)
    have hdata {id : Nat} : id ∈ (s.resealed d).dir.data ↔ id = s.nextID ∨ id ∈ s.dir.data := by
      show id ∈ d.data.insert s.nextID ⟨[], 0⟩ ↔ _
      rw [Std.ExtTreeMap.mem_insert, compare_eq_iff_eq, eq_comm, Dir.mem_data, Dir.mem_data, hbytes]
    rw [hends.ok_iff hspread hread, Store.Spare, asked_sealed hz, List.nodup_cons, List.forall_mem_cons]
    simp only [hdata, not_or]
    show (_ ∧ ∀ id ∈ (List.range s.outputs).map fun i => Store.succID^[i] (Store.succID s.nextID), _) ↔ _
    constructor
    · rintro ⟨hnodup, hout⟩
      exact ⟨⟨fun hm => (hout _ hm).1 rfl, hnodup⟩, hfree, fun id hid => (hout id hid).2⟩
    · rintro ⟨⟨hne, hnodup⟩, -, hout⟩
      exact ⟨hnodup, fun id hid => ⟨fun heq => hne (heq ▸ hid), hout id hid⟩⟩

/-- A `Compact` that goes through shows what the store showed. -/
theorem Sound.compact_get (h : Sound s) (hok : s.compact.2 = none) (key : Bytes) : s.compact.1.get key = s.get key := by
  by_cases hset : s.Mergeable
  · obtain ⟨s₀, shelves, hm, hkeys, -, -, -, hread⟩ := compact_merged h.placed hset hok
    have hlive : s₀.liveEntries = s.liveEntries := by rw [Store.liveEntries, Store.liveEntries, hkeys]
    refine hm.get_eq hkeys h.files (fun x hx => ?_) hread (fun x hx => ?_) key
    · obtain ⟨r, -, -, -, -, hsize⟩ := h.reads x (hlive ▸ hx)
      exact hsize
    · obtain ⟨r, hr, hkey, hseq, hput, -⟩ := h.reads x hx
      exact ⟨r, hr, hkey, hseq, hput⟩
  · obtain ⟨hz, hnone⟩ := not_or.mp hset
    rcases compact_cases h.placed with ⟨-, d, e, -, -, hc⟩ | ⟨s₀, -, hends, ⟨-, rfl⟩ | ⟨_, -, -, hne, -⟩⟩
    · rw [hc] at hok
      cases hok
    · generalize s₀.compact.1 = t, s₀.compact.2 = err at hends hok
      cases hends with
      | idle => rfl
      | merged hne _ =>
        obtain ⟨id, hid⟩ := List.exists_mem_of_ne_nil _ hne
        exact absurd ⟨id, mem_mergeSet.mp hid⟩ hnone
      | blocked => cases hok
    · exact absurd hne hz

/-! ### As if it had not been called -/

/-- `s'` is as good as `s`: it has the same index and answers as `s`, goes on to answer `ops` as
a map would and then compacts, and shows the same map when it is closed and opened. -/
structure Unspoilt (s s' : Store) (ops : List Op) (opts : Options) : Prop where
  keys : s'.keys = s.keys
  get : ∀ key, s'.get key = s.get key
  scan : ∀ start endKey limit, s'.scan start endKey limit = s.scan start endKey limit
  writes : (storeMachine.run s' ops).2 = (mapMachine.run s.liveMap ops).2 ∧
    (storeMachine.run s' ops).1.liveMap = (mapMachine.run s.liveMap ops).1
  compact : (storeMachine.run s' ops).1.compact.2 = none ∧
    ∀ key, (storeMachine.run s' ops).1.compact.1.get key = (storeMachine.run s' ops).1.get key
  reopen : ∃ s'', openStore opts s'.close = .ok s'' ∧ s''.liveMap = s.liveMap

theorem GivenUp.serves {s' : Store} (hg : GivenUp s s') (h : Quiet s) : Serves s' s.liveMap where
  toSound := hg.sound h
  running := hg.running
  ahead k e he := by
    rw [hg.seq]
    exact h.bounded.entry h.inv.toWf (hg.keys ▸ he)
  shows := hg.liveMap h

variable {s' : Store} {fault : MergeFault} {n : Nat}

/-- **A `Compact` that fails before it repoints the index**, at an operation of the file system or
for want of a free id, leaves the store as good as before exactly if the ids asked for later are
free: by the rotations of the writes behind it, by the seal and the outputs of the next `Compact`,
and by `Open`. -/
theorem failed_compact (h : Quiet s) (hid : s.nextID < 2 ^ 32)
    (hfail : s.compactFails fault n = some s' ∨ s.compact.2 ≠ none ∧ s' = s.compact.1) (ops : List Op)
    (hops : storeMachine.Meets Roomy s' ops) (opts : Options) :
    Unspoilt s s' ops opts ↔
      storeMachine.Meets Unstalled s' ops ∧ (storeMachine.run s' ops).1.Spare ∧ ¬ Stuck opts s'.close := by
  have hg : GivenUp s s' := by
    rcases hfail with hfault | ⟨hne, rfl⟩
    · exact h.compactFails hfault
    · exact h.compactBlocked hne
  obtain ⟨hwrites, hserves⟩ := (hg.serves h).run hops
  have hreopen := hg.reopen_iff h hid opts
  constructor
  · intro hu
    have hmeets := hwrites.mp hu.writes.1
    have ht := hserves hmeets
    exact ⟨hmeets, (ht.toSound.compact_ok ht.running).mp hu.compact.1, hreopen.mp hu.reopen⟩
  · rintro ⟨hmeets, hspare, hfree⟩
    have ht := hserves hmeets
    have hok := (ht.toSound.compact_ok ht.running).mpr hspare
    exact ⟨hg.keys, hg.get h, (hg.alike h).scan, ⟨hwrites.mpr hmeets, ht.shows⟩, ⟨hok, ht.toSound.compact_get hok⟩,
      hreopen.mpr hfree⟩

end Later

/-- Two keys, in a file each. -/
def twoFiles : Store := (storeMachine.run (Store.init ⟨40, .never⟩) [.put 0 [1] [7], .put 0 [2] [8]]).1

/-- The second of two hints cannot be committed; the first stays behind without its file. A write, a
removal, one that is refused, `Compact` and `Open` go on as if nothing had happened. -/
theorem failed_compact_commit : ∃ s', twoFiles.compactFails .commit 11 = some s' ∧ s'.dir.hints.size = 1 ∧
    Unspoilt twoFiles s' [.put 0 [1] [9], .delete 0 [2], .delete 0 [2]] ⟨40, .never⟩ := by
  obtain ⟨⟨hquiet, -⟩, -⟩ := storeRefinesMap.run (quiet_init ⟨40, .never⟩)
    (show storeMachine.Meets Fits _ [.put 0 [1] [7], .put 0 [2] [8]] by decide +kernel)
  obtain ⟨s', hs', hruns⟩ := Option.map_eq_some_iff.mp (show (twoFiles.compactFails .commit 11).map (fun s' =>
    decide (s'.dir.hints.size = 1 ∧ storeMachine.Meets Roomy s' [.put 0 [1] [9], .delete 0 [2], .delete 0 [2]] ∧
      storeMachine.Meets Unstalled s' [.put 0 [1] [9], .delete 0 [2], .delete 0 [2]] ∧
      (storeMachine.run s' [.put 0 [1] [9], .delete 0 [2], .delete 0 [2]]).1.Spare ∧ 2 ^ 32 - 1 ∉ s'.close.data)) =
    some true by decide +kernel)
  obtain ⟨hhints, hroomy, hruns, hspare, hids⟩ := of_decide_eq_true hruns
  exact ⟨s', hs', hhints, (failed_compact hquiet (by decide +kernel) (.inl hs') _ hroomy _).mpr
    ⟨hruns, hspare, fun hstuck => hids hstuck.2.1⟩⟩

/-- The two lowest file ids are taken, and the last but one. -/
def topIDs : Dir :=
  { data := (((∅ : Std.ExtTreeMap Nat DiskFile compare).insert 0 ⟨(⟨0, 1, 0, [1], [7]⟩ : Record).encode, 31⟩).insert 1
      ⟨(⟨0, 2, 0, [2], [8]⟩ : Record).encode, 31⟩).insert (2 ^ 32 - 2) ⟨(⟨0, 3, 0, [3], [9]⟩ : Record).encode, 31⟩ }

/-- **A failed `Compact` where file ids wrap.** The seal takes the last id, so no output can be
created: the next id is 0. The call after it fails at id 1, and so does the third `Put`, at its
rotation; without the `Compact` the three of them go through. -/
theorem failed_compact_wraps :
    (openStore ⟨70, .never⟩ topIDs).toOption.map (fun s =>
      (s.compact.2, s.compact.1.compact.2,
        (storeMachine.run s.compact.1 [.put 0 [4] [1], .put 0 [5] [1], .put 0 [6] [1]]).2,
        (storeMachine.run s [.put 0 [4] [1], .put 0 [5] [1], .put 0 [6] [1]]).2)) =
      some (some .fileExists, some .fileExists, [none, none, some .fileExists], [none, none, none]) := by
  decide +kernel

end Gokv.Engine
