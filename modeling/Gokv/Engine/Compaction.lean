import Gokv.Engine.Trail

/-! A whole `Compact` with nothing in between.

The seal leaves an empty active file and everything written so far behind the
barrier. Every step lowers a rank, so the fuel `compact` runs on is enough, and a
step takes at most one file id per record still to be copied. A run therefore
ends, without an error, in a store with the same live map whose disk holds no
tombstone (`Inv.compact`); the states it passes through are the crash points
(`Sealed.run`). -/
namespace Gokv.Engine
open Base

namespace Merge

/-- The output files a merge may still open. -/
def todo (s : Store) (m : Merge) : Nat :=
  match m.phase with
  | .list _ => s.keys.size
  | .snapshot => s.keys.size
  | .copy t => t.length
  | .write _ _ _ t => t.length
  | _ => 0

/-- More than the steps a merge has left. -/
def rank (s : Store) (m : Merge) : Nat :=
  match m.phase with
  | .list _ => 13 + 6 * s.keys.size + 2 * s.files.size + 2 * m.outs.length + m.moved.length
  | .snapshot => 12 + 6 * s.keys.size + 2 * m.mergeIDs.length + 2 * m.outs.length + m.moved.length
  | .copy t => 11 + 5 * t.length + 2 * m.outs.length + m.moved.length + m.retired.length + 2 * m.mergeIDs.length
  | .write _ _ _ t =>
    13 + 5 * t.length + 2 * m.outs.length + m.moved.length + m.retired.length + 2 * m.mergeIDs.length
  | .syncOuts t => 10 + t.length + m.outs.length + m.moved.length + m.retired.length + 2 * m.mergeIDs.length
  | .commitHints t => 9 + t.length + m.moved.length + m.retired.length + 2 * m.mergeIDs.length
  | .repoint t => 8 + t.length + m.retired.length + 2 * m.mergeIDs.length
  | .retire t => 7 + t.length + 2 * m.mergeIDs.length
  | .watermark => 6 + 2 * m.mergeIDs.length
  | .remove t => 5 + t.length
  | .recount => 4
  | .sum => 3
  | .total _ => 2
  | .done => 0
  | .failed _ => 0

end Merge

/-- What every step of a merge does to its progress and to the watermark, whatever
the store. -/
structure Advances (s : Store) (m : Merge) (s' : Store) (m' : Merge) : Prop where
  barrier : m'.barrier = m.barrier
  listed : ∀ a, m'.phase ≠ .list a
  room : s'.nextID + m'.todo s' ≤ s.nextID + m.todo s
  rank : m'.rank s' < m.rank s
  seq : s'.seq = s.seq
  marks : s'.mergeSeq = s.mergeSeq ∧ s'.dir.manifest = s.dir.manifest ∨
    s'.mergeSeq = m.barrier ∧ s'.dir.manifest = some (manifestText m.barrier)

section Progress
variable {s : Store} {m : Merge}

theorem cleanup_eq (s : Store) (m : Merge) (e : Error) : ∃ files data,
    Merge.cleanup s m e =
      ({s with files := files, dir := {s.dir with data := data} }, {m with phase := .failed e}) := by
  suffices h : ∀ outs : List Out, ∃ files data,
      outs.foldl (fun s o => {s with files := s.files.erase o.id, dir := s.dir.removeData o.id}) s =
        {s with files := files, dir := {s.dir with data := data} } by
    obtain ⟨files, data, heq⟩ := h m.outs
    exact ⟨files, data, by rw [Merge.cleanup, heq]⟩
  intro outs
  induction outs generalizing s with
  | nil => exact ⟨s.files, s.dir.data, rfl⟩
  | cons o rest ih =>
    obtain ⟨files, data, heq⟩ := ih {s with files := s.files.erase o.id, dir := s.dir.removeData o.id}
    exact ⟨files, data, heq⟩

theorem Advances.cleanup {e : Error} (h : 0 < m.rank s) :
    Advances s m (Merge.cleanup s m e).1 (Merge.cleanup s m e).2 := by
  obtain ⟨files, data, heq⟩ := cleanup_eq s m e
  rw [heq]
  exact ⟨rfl, fun a ha => (by cases ha), Nat.le_add_right .., h, rfl, .inl ⟨rfl, rfl⟩⟩

/-- A step that stays clear of the watermark and opens no file. -/
theorem Advances.same_room {s' : Store} {m' : Merge} (hbar : m'.barrier = m.barrier)
    (hlist : ∀ a, m'.phase ≠ .list a) (hid : s'.nextID = s.nextID) (htodo : m'.todo s' ≤ m.todo s)
    (hrank : m'.rank s' < m.rank s) (hseq : s'.seq = s.seq)
    (hmark : s'.mergeSeq = s.mergeSeq ∧ s'.dir.manifest = s.dir.manifest) : Advances s m s' m' :=
  ⟨hbar, hlist, by omega, hrank, hseq, .inl hmark⟩

theorem length_snapshot (s : Store) (ids : List Nat) :
    ((Merge.inMerge s ids).filter (·.entry.tomb)).length +
      ((Merge.inMerge s ids).filter (!·.entry.tomb)).length ≤ s.keys.size := by
  have hall : (Merge.inMerge s ids).length ≤ s.keys.size := by
    rw [Merge.inMerge, List.length_map, ← Std.ExtTreeMap.length_toList]
    exact List.length_filter_le ..
  rw [← List.length_eq_length_filter_add]
  exact hall

variable [Checksum]

theorem Advances.copy {it : Item} {rest : List Item} (hp : m.phase = .copy (it :: rest)) :
    Advances s m (Merge.copyStep s m it rest).1 (Merge.copyStep s m it rest).2 := by
  have hrank : m.rank s = 11 + 5 * (rest.length + 1) + 2 * m.outs.length + m.moved.length + m.retired.length +
      2 * m.mergeIDs.length := by
    rw [Merge.rank, hp]
    rfl
  have htodo : m.todo s = rest.length + 1 := by rw [Merge.todo, hp]; rfl
  have hpos : 0 < m.rank s := by omega
  have hwrite {rec : Record} {buf : Bytes} : Advances s m s {m with phase := .write it rec buf rest} := by
    refine .same_room rfl (fun a ha => (by cases ha)) rfl ?_ ?_ rfl ⟨rfl, rfl⟩
    · show rest.length ≤ _
      omega
    · rw [hrank]
      simp only [Merge.rank]
      omega
  rw [Merge.copyStep]
  split
  · refine .same_room rfl (fun a ha => (by cases ha)) rfl ?_ ?_ rfl ⟨rfl, rfl⟩
    · show rest.length ≤ _
      omega
    · rw [hrank]
      simp only [Merge.rank]
      omega
  · cases s.dir.readAt it.entry.fileID it.entry.pos it.entry.size with
    | error e => exact .cleanup hpos
    | ok raw =>
      cases hrec : decodeRecord raw with
      | error e =>
        simp only [hrec]
        exact .cleanup hpos
      | ok rec =>
        simp only [hrec]
        split
        · have hsucc : Store.succID s.nextID ≤ s.nextID + 1 := Nat.mod_le ..
          cases hnew : s.dir.create s.nextID with
          | error e =>
            obtain ⟨files, data, heq⟩ := cleanup_eq {s with nextID := Store.succID s.nextID} m e
            simp only [Merge.newOut, hnew, heq]
            refine ⟨rfl, fun a ha => (by cases ha), ?_, hpos, rfl, .inl ⟨rfl, rfl⟩⟩
            show Store.succID s.nextID + 0 ≤ _
            omega
          | ok dir =>
            have hman : dir.manifest = s.dir.manifest := by
              unfold Dir.create at hnew
              split at hnew
              · cases hnew
              · cases hnew
                rfl
            simp only [Merge.newOut, hnew]
            refine ⟨rfl, fun a ha => (by cases ha), ?_, ?_, rfl, .inl ⟨rfl, hman⟩⟩
            · show Store.succID s.nextID + rest.length ≤ _
              omega
            · rw [hrank]
              simp only [Merge.rank, List.length_append, List.length_cons, List.length_nil]
              omega
        · exact hwrite

omit [Checksum] in
theorem Advances.write {it : Item} {rec : Record} {buf : Bytes} {rest : List Item}
    (hp : m.phase = .write it rec buf rest) :
    Advances s m (Merge.writeStep s m it rec buf rest).1 (Merge.writeStep s m it rec buf rest).2 := by
  have hrank : m.rank s = 13 + 5 * rest.length + 2 * m.outs.length + m.moved.length + m.retired.length +
      2 * m.mergeIDs.length := by
    rw [Merge.rank, hp]
  have htodo : m.todo s = rest.length := by rw [Merge.todo, hp]
  rw [Merge.writeStep]
  cases hlast : m.outs.getLast? with
  | none =>
    refine .same_room rfl (fun a ha => (by cases ha)) rfl htodo.ge ?_ rfl ⟨rfl, rfl⟩
    rw [hrank]
    simp only [Merge.rank]
    omega
  | some o =>
    cases hw : s.dir.writeAt o.id o.size buf with
    | error e =>
      simp only [hw]
      exact .cleanup (by omega)
    | ok dir =>
      have hman : dir.manifest = s.dir.manifest := by
        unfold Dir.writeAt at hw
        split at hw
        · cases hw
        · cases hw
          rfl
      have hne : m.outs ≠ [] := fun hnil => by
        rw [hnil] at hlast
        cases hlast
      have hlen := List.length_pos_of_ne_nil hne
      simp only [hw]
      refine .same_room rfl (fun a ha => (by cases ha)) rfl htodo.ge ?_ rfl ⟨rfl, hman⟩
      rw [hrank]
      simp only [Merge.rank, List.length_append, List.length_dropLast, List.length_cons, List.length_nil]
      omega

/-- **Every step of a merge that is not over advances it.** -/
theorem Merge.step_advances (hdone : m.phase ≠ .done) (hfailed : ∀ e, m.phase ≠ .failed e) :
    Advances s m (Merge.step s m).1 (Merge.step s m).2 := by
  cases hp : m.phase with
  | list a =>
    simp only [Merge.step, hp, Merge.listStep]
    have hlen : (s.files.keys.filter (· ≠ a)).length ≤ s.files.size := by
      rw [← Std.ExtTreeMap.length_keys]
      exact List.length_filter_le ..
    have hrank : m.rank s = 13 + 6 * s.keys.size + 2 * s.files.size + 2 * m.outs.length + m.moved.length := by
      rw [Merge.rank, hp]
    have htodo : m.todo s = s.keys.size := by rw [Merge.todo, hp]
    split
    · refine .same_room rfl (fun a ha => (by cases ha)) rfl (Nat.zero_le _) ?_ rfl ⟨rfl, rfl⟩
      rw [hrank]
      simp only [Merge.rank]
      omega
    · refine .same_room rfl (fun a ha => (by cases ha)) rfl htodo.ge ?_ rfl ⟨rfl, rfl⟩
      rw [hrank]
      simp only [Merge.rank]
      omega
  | snapshot =>
    simp only [Merge.step, hp, Merge.snapshotStep]
    have hlen := length_snapshot s m.mergeIDs
    have hrank : m.rank s = 12 + 6 * s.keys.size + 2 * m.mergeIDs.length + 2 * m.outs.length + m.moved.length := by
      rw [Merge.rank, hp]
    have htodo : m.todo s = s.keys.size := by rw [Merge.todo, hp]
    refine .same_room rfl (fun a ha => (by cases ha)) rfl ?_ ?_ rfl ⟨rfl, rfl⟩
    · rw [htodo]
      simp only [Merge.todo]
      omega
    · rw [hrank]
      simp only [Merge.rank]
      omega
  | copy todo =>
    cases todo with
    | nil =>
      simp only [Merge.step, hp]
      refine .same_room rfl (fun a ha => (by cases ha)) rfl (Nat.zero_le _) ?_ rfl ⟨rfl, rfl⟩
      simp only [Merge.rank, hp, List.length_nil]
      omega
    | cons it rest =>
      simp only [Merge.step, hp]
      exact .copy hp
  | write it rec buf rest =>
    simp only [Merge.step, hp]
    exact .write hp
  | syncOuts todo =>
    cases todo with
    | nil =>
      simp only [Merge.step, hp]
      refine .same_room rfl (fun a ha => (by cases ha)) rfl (Nat.zero_le _) ?_ rfl ⟨rfl, rfl⟩
      simp only [Merge.rank, hp, List.length_nil]
      omega
    | cons o rest =>
      have hpos : 0 < m.rank s := by
        simp only [Merge.rank, hp]
        omega
      cases hsync : s.dir.sync o.id with
      | error e =>
        simp only [Merge.step, hp, hsync]
        exact .cleanup hpos
      | ok dir =>
        have hman : dir.manifest = s.dir.manifest := by
          unfold Dir.sync at hsync
          split at hsync
          · cases hsync
          · cases hsync
            rfl
        simp only [Merge.step, hp, hsync]
        refine .same_room rfl (fun a ha => (by cases ha)) rfl (Nat.zero_le _) ?_ rfl ⟨rfl, hman⟩
        simp only [Merge.rank, hp, List.length_cons]
        omega
  | commitHints todo =>
    cases todo with
    | nil =>
      simp only [Merge.step, hp]
      refine .same_room rfl (fun a ha => (by cases ha)) rfl (Nat.zero_le _) ?_ rfl ⟨rfl, rfl⟩
      simp only [Merge.rank, hp, List.length_nil]
      omega
    | cons o rest =>
      simp only [Merge.step, hp]
      refine .same_room rfl (fun a ha => (by cases ha)) rfl (Nat.zero_le _) ?_ rfl ⟨rfl, rfl⟩
      simp only [Merge.rank, hp, List.length_cons]
      omega
  | repoint todo =>
    cases todo with
    | nil =>
      simp only [Merge.step, hp]
      refine .same_room rfl (fun a ha => (by cases ha)) rfl (Nat.zero_le _) ?_ rfl ⟨rfl, rfl⟩
      simp only [Merge.rank, hp, List.length_nil]
      omega
    | cons x rest =>
      have hdrop : ((x :: rest).drop repointChunk).length ≤ rest.length := by
        rw [List.length_drop, List.length_cons, repointChunk]
        omega
      simp only [Merge.step, hp]
      refine .same_room rfl (fun a ha => (by cases ha)) rfl (Nat.zero_le _) ?_ rfl ⟨rfl, rfl⟩
      simp only [Merge.rank, hp, List.length_cons]
      omega
  | retire todo =>
    cases todo with
    | nil =>
      simp only [Merge.step, hp]
      refine .same_room rfl (fun a ha => (by cases ha)) rfl (Nat.zero_le _) ?_ rfl ⟨rfl, rfl⟩
      simp only [Merge.rank, hp, List.length_nil]
      omega
    | cons x rest =>
      have hdrop : ((x :: rest).drop repointChunk).length ≤ rest.length := by
        rw [List.length_drop, List.length_cons, repointChunk]
        omega
      simp only [Merge.step, hp]
      refine .same_room rfl (fun a ha => (by cases ha)) rfl (Nat.zero_le _) ?_ rfl ⟨rfl, rfl⟩
      simp only [Merge.rank, hp, List.length_cons]
      omega
  | watermark =>
    have hlen : (Merge.removals m.mergeIDs).length = 2 * m.mergeIDs.length := by
      rw [Merge.removals, List.length_flatMap]
      simp [Nat.mul_comm]
    simp only [Merge.step, hp]
    refine ⟨rfl, fun a ha => (by cases ha), ?_, ?_, rfl, .inr ⟨rfl, rfl⟩⟩
    · exact Nat.le_add_right ..
    · simp only [Merge.rank, hp]
      omega
  | remove todo =>
    cases todo with
    | nil =>
      simp only [Merge.step, hp]
      refine .same_room rfl (fun a ha => (by cases ha)) rfl (Nat.zero_le _) ?_ rfl ⟨rfl, rfl⟩
      simp only [Merge.rank, hp, List.length_nil]
      omega
    | cons r rest =>
      have hremove : (Merge.removeStep s r).nextID = s.nextID ∧ (Merge.removeStep s r).seq = s.seq ∧
          (Merge.removeStep s r).mergeSeq = s.mergeSeq ∧
          (Merge.removeStep s r).dir.manifest = s.dir.manifest := by
        unfold Merge.removeStep
        cases r with
        | data id => by_cases hf : id ∈ s.files <;> simp [hf, Dir.removeData]
        | hint id => exact ⟨rfl, rfl, rfl, rfl⟩
      obtain ⟨hid, hseq, hmark⟩ := hremove
      simp only [Merge.step, hp]
      refine .same_room rfl (fun a ha => (by cases ha)) hid (Nat.zero_le _) ?_ hseq hmark
      simp only [Merge.rank, hp, List.length_cons]
      omega
  | recount =>
    simp only [Merge.step, hp]
    refine .same_room rfl (fun a ha => (by cases ha)) rfl (Nat.zero_le _) ?_ rfl ⟨rfl, rfl⟩
    simp only [Merge.rank, hp]
    omega
  | sum =>
    simp only [Merge.step, hp]
    refine .same_room rfl (fun a ha => (by cases ha)) rfl (Nat.zero_le _) ?_ rfl ⟨rfl, rfl⟩
    simp only [Merge.rank, hp]
    omega
  | total n =>
    simp only [Merge.step, hp]
    refine .same_room rfl (fun a ha => (by cases ha)) rfl (Nat.zero_le _) ?_ rfl ⟨rfl, rfl⟩
    simp only [Merge.rank, hp]
    omega
  | done => exact absurd hp hdone
  | failed e => exact absurd hp (hfailed e)

/-- A run with fuel for its rank is over. -/
theorem Merge.run_over (n : Nat) (hn : m.rank s ≤ n) :
    (run n s m).2.phase = .done ∨ ∃ e, (run n s m).2.phase = .failed e := by
  induction n generalizing s m with
  | zero =>
    show m.phase = .done ∨ ∃ e, m.phase = .failed e
    unfold Merge.rank at hn
    cases hp : m.phase with
    | done => exact .inl rfl
    | failed e => exact .inr ⟨e, rfl⟩
    | _ => rw [hp] at hn; simp at hn
  | succ n ih =>
    by_cases hdone : m.phase = .done
    · refine ih ?_
      simp only [Merge.step, hdone, Merge.rank]
      exact Nat.zero_le _
    · by_cases hfailed : ∃ e, m.phase = .failed e
      · obtain ⟨e, he⟩ := hfailed
        refine ih ?_
        simp only [Merge.step, he, Merge.rank]
        exact Nat.zero_le _
      · have := (Merge.step_advances (s := s) hdone fun e he => hfailed ⟨e, he⟩).rank
        exact ih (by omega)

end Progress

section Compaction
variable [Checksum] {ρ : Reading} {s s' : Store} {m : Merge}

/-! ### The seal -/

/-- What the first critical section leaves. -/
structure Sealed (ρ : Reading) (s s' : Store) (m : Merge) : Prop where
  listing : Listing ρ s' [] m s'.active.id
  barrier : m.barrier = s.seq
  seq : s'.seq = s.seq
  opts : s'.opts = s.opts
  hinting : s'.hinting = s.hinting
  keys : s'.keys = s.keys
  mergeSeq : s'.mergeSeq = s.mergeSeq
  manifest : s'.dir.manifest = s.dir.manifest
  grown : s.nextID ≤ s'.nextID ∧ s'.nextID ≤ s.nextID + 1 ∧ s'.files.size ≤ s.files.size + 1
  liveMap : s'.liveMap = s.liveMap
  holds : ∀ i r, Holds ρ s'.dir.bytes i r ↔ Holds ρ s.dir.bytes i r
  active : s'.active = s.active ∧ s.active.size = 0 ∨ s'.active.id = s.nextID
  empty : ∃ f, s'.dir.data[s'.active.id]? = some f ∧ f.bytes = []

theorem Sealed.bounded (h : Sealed ρ s s' m) (hb : Bounded ρ s) : Bounded ρ s' := fun i r hr =>
  h.seq ▸ hb i r ((h.holds i r).mp hr)

theorem Inv.withActive {pend : Pending} {gone : List Nat} (h : Inv ρ s pend gone) :
    Inv ρ s.withActive pend gone :=
  {h.toMounted.withActive with covers := h.created.covers, agree := h.created.agree }

theorem Inv.sealActive (h : Inv ρ s [] []) (hb : Bounded ρ s) (hid : s.nextID + 1 < 2 ^ 32) :
    Sealed ρ s s.sealActive.1 s.sealActive.2 := by
  obtain ⟨b, hact, hsize, _⟩ := h.active
  have hopen : ¬ s.closed = true := by
    rw [h.running]
    exact Bool.false_ne_true
  rw [Store.sealActive, if_neg hopen]
  by_cases hempty : s.active.size = 0
  · have hnil : b = [] := List.eq_nil_of_length_eq_zero (hsize.trans hempty)
    rw [if_pos hempty]
    refine ⟨⟨h, UInt64.le_refl _, rfl, h.fresh _ b hact, fun x hx => absurd hx List.not_mem_nil,
      fun _ i r hr _ => hb i r hr, fun _ r hr => ?_⟩, rfl, rfl, rfl, rfl, rfl, rfl, rfl,
      ⟨le_rfl, Nat.le_succ _, Nat.le_succ _⟩, rfl, fun _ _ => Iff.rfl, .inl ⟨rfl, hempty⟩, ?_⟩
    · obtain ⟨b', hb', hr⟩ := hr
      cases Option.some.inj (hact.symm.trans hb')
      rw [hnil] at hr
      exact absurd (Reading.take_subset hr) List.not_mem_nil
    · obtain ⟨f, hf, hfb⟩ := Option.map_eq_some_iff.mp hact
      exact ⟨f, hf, hfb.trans hnil⟩
  · obtain ⟨d, hd, hbytes, hhints, hman, _⟩ := Dir.sync_ok hact
    have hs : Same s {s with dir := d} := ⟨rfl, hbytes, hhints, rfl, rfl, rfl, rfl⟩
    have hm : Inv ρ {s with dir := d} [] [] := h.same hs rfl
    rw [if_neg hempty, hd]
    simp only [hm.openNewActive hid]
    -- The sealed store, and a fresh file behind it.
    have hwith : Same ({s with dir := d} : Store).withActive
        {({s with dir := d} : Store).withActive with dirty := false} := ⟨rfl, rfl, rfl, rfl, rfl, rfl, rfl⟩
    have hholds {i : Nat} {r : Record} :
        Holds ρ ({s with dir := d} : Store).withActive.dir.bytes i r ↔ Holds ρ s.dir.bytes i r := by
      rw [bytes_withActive, holds_create hm.notMem_nextID]
      show Holds ρ d.bytes i r ↔ _
      rw [hbytes]
    have hfile : (({s with dir := d} : Store).withActive.dir.data)[s.nextID]? = some ⟨[], 0⟩ :=
      Std.ExtTreeMap.getElem?_insert_self
    refine ⟨⟨hm.withActive.same hwith rfl, UInt64.le_refl _, rfl, Nat.lt_succ_self _,
      fun x hx => absurd hx List.not_mem_nil, fun _ i r hr _ => hb i r (hholds.mp hr), fun _ r hr => ?_⟩, rfl, rfl,
      rfl, rfl, rfl, rfl, hman, ⟨Nat.le_succ _, le_rfl, Std.ExtTreeMap.size_insert_le⟩, ?_, fun i r => hholds,
      .inr rfl, ⟨_, hfile, rfl⟩⟩
    · obtain ⟨b', hb', _⟩ := hholds.mp hr
      exact absurd (h.fresh _ b' hb') (lt_irrefl _)
    · refine h.toMounted.liveMap_eq rfl fun k e r hr _ => ?_
      show Located ρ ({s with dir := d} : Store).withActive.dir.bytes k e r
      rw [bytes_withActive]
      have hr : Located ρ d.bytes k e r := hbytes ▸ hr
      exact hr.create hm.notMem_nextID

/-! ### The run -/

/-- The watermark on disk is the one in memory. -/
def Marked (s : Store) : Prop := readManifest s.dir.manifest = s.mergeSeq

omit [Checksum] in
theorem Marked.advance {m' : Merge} (h : Marked s) (ha : Advances s m s' m') :
    Marked s' ∧ (s'.mergeSeq = s.mergeSeq ∨ s'.mergeSeq = m.barrier) := by
  rcases ha.marks with ⟨hm, hd⟩ | ⟨hm, hd⟩
  · exact ⟨by rw [Marked, hd, hm, h], .inl hm⟩
  · exact ⟨by rw [Marked, hd, hm, readManifest_text], .inr hm⟩

/-- **A run of a merge with nothing in between** keeps the invariant of the merge and
the live map at every step. -/
theorem MergeInv.run (h : MergeInv ρ s [] m) (hlist : ∀ a, m.phase = .list a → s.active.id = a)
    (hroom : s.nextID + m.todo s + 1 < 2 ^ 32) (hmark : Marked s) (n : Nat) :
    MergeInv ρ (Merge.run n s m).1 [] (Merge.run n s m).2 ∧ Unmoved ρ s (Merge.run n s m).1 ∧
      (Merge.run n s m).2.barrier = m.barrier ∧ Marked (Merge.run n s m).1 ∧
      ((Merge.run n s m).1.mergeSeq = s.mergeSeq ∨ (Merge.run n s m).1.mergeSeq = m.barrier) ∧
      (Merge.run n s m).1.nextID ≤ s.nextID + m.todo s := by
  induction n generalizing s m with
  | zero => exact ⟨h, .refl s, rfl, hmark, .inl rfl, Nat.le_add_right ..⟩
  | succ n ih =>
    obtain ⟨hinv, hstep⟩ := h.step hlist (by omega)
    by_cases hdone : m.phase = .done
    · have hstay : Merge.step s m = (s, m) := by simp only [Merge.step, hdone]
      rw [Merge.run, hstay]
      exact ih h hlist hroom hmark
    · have hadv := Merge.step_advances (s := s) hdone h.not_failed
      have hroom' := hadv.room
      obtain ⟨hmark', hto⟩ := hmark.advance hadv
      obtain ⟨h1, h2, h3, h4, h5, h6⟩ := ih hinv (fun a ha => absurd ha (hadv.listed a)) (by omega) hmark'
      refine ⟨h1, hstep.toUnmoved.trans h2, h3.trans hadv.barrier, h4, ?_, h6.trans hroom'⟩
      rcases h5 with h5 | h5
      · rwa [← h5] at hto
      · exact .inr (h5.trans hadv.barrier)

theorem Trail.run {s₀ : Store} (h : Trail s₀ s m) (hm : MergeInv ρ s [] m)
    (hroom : s.nextID + m.todo s + 1 < 2 ^ 32) (n : Nat) :
    Trail s₀ (Merge.run n s m).1 (Merge.run n s m).2 := by
  induction n generalizing s m with
  | zero => exact h
  | succ n ih =>
    have hstep := h.step hm (by omega)
    have hinv := (hm.step (fun a ha => absurd ha (h.phase a)) (by omega)).1
    by_cases hdone : m.phase = .done
    · have hstay : Merge.step s m = (s, m) := by simp only [Merge.step, hdone]
      rw [Merge.run, hstay]
      exact ih h hm hroom
    · have hadv := (Merge.step_advances (s := s) hdone hm.not_failed).room
      exact ih hstep hinv (by omega)

/-- A run that ends stops at every removal on its way. -/
theorem Trail.reaches {s₀ : Store} (h : Trail s₀ s m) (hm : MergeInv ρ s [] m)
    (hroom : s.nextID + m.todo s + 1 < 2 ^ 32) {n : Nat} (hend : (Merge.run n s m).2.left = [])
    {t : List Removal} (ht : t <:+ m.left) : ∃ k, (Merge.run k s m).2.left = t := by
  induction n generalizing s m with
  | zero =>
    have hend : m.left = [] := hend
    rw [hend, List.suffix_nil] at ht
    exact ⟨0, hend.trans ht.symm⟩
  | succ n ih =>
    by_cases hdone : m.phase = .done
    · have hnil : m.left = [] := by rw [Merge.left, hdone]
      rw [hnil, List.suffix_nil] at ht
      exact ⟨0, hnil.trans ht.symm⟩
    · have hinv := (hm.step (fun a ha => absurd ha (h.phase a)) (by omega)).1
      have hadv := (Merge.step_advances (s := s) hdone hm.not_failed).room
      have hrest (ht' : t <:+ (Merge.step s m).2.left) : ∃ k, (Merge.run k s m).2.left = t := by
        obtain ⟨k, hk⟩ := ih (h.step hm (by omega)) hinv (by omega) hend ht'
        exact ⟨k + 1, hk⟩
      rcases h.left_step hinv.not_failed with hleft | ⟨r, hleft⟩
      · exact hrest (hleft ▸ ht)
      · rcases List.suffix_cons_iff.mp (hleft ▸ ht) with heq | hsuf
        · exact ⟨0, hleft.trans heq.symm⟩
        · exact hrest hsuf

/-- What a whole `Compact` does to a quiet store. -/
structure Compacted (ρ : Reading) (s s' : Store) : Prop where
  inv : Inv ρ s' [] []
  bounded : Bounded ρ s'
  seq : s'.seq = s.seq
  opts : s'.opts = s.opts
  hinting : s'.hinting = s.hinting
  marked : Marked s'
  watermark : s'.mergeSeq = s.mergeSeq ∨ s'.mergeSeq = s.seq
  liveMap : s'.liveMap = s.liveMap
  kept : KeepsLive s.keys s'.keys
  grown : s.nextID ≤ s'.nextID ∧ s'.nextID ≤ s.nextID + s.keys.size + 1
  active : s'.active = s.active ∧ s.active.size = 0 ∨ s'.active.id = s.nextID
  /-- Nothing is written to the active file. -/
  empty : ∃ f, s'.dir.data[s'.active.id]? = some f ∧ f.bytes = []
  /-- No tombstone is left. -/
  values : ∀ i r, Holds ρ s'.dir.bytes i r → r.tombstone = false
  /-- Every other file has its hint. -/
  hinted : ∀ i b, s'.dir.bytes i = some b → i ≠ s'.active.id → i ∈ s'.dir.hints
  back : ∀ i r, Holds ρ s'.dir.bytes i r → ∃ j r₀, Holds ρ s.dir.bytes j r₀ ∧ r₀.key = r.key ∧ r₀.seq = r.seq ∧
    r₀.payload = r.payload

/-- The states a `Compact` passes through after the seal. -/
theorem Sealed.run (h : Sealed ρ s s' m) (hmark : Marked s) (hroom : s.nextID + s.keys.size + 2 < 2 ^ 32)
    (n : Nat) :
    MergeInv ρ (Merge.run n s' m).1 [] (Merge.run n s' m).2 ∧ Unmoved ρ s' (Merge.run n s' m).1 ∧
      (Merge.run n s' m).2.barrier = m.barrier ∧ Marked (Merge.run n s' m).1 ∧
      ((Merge.run n s' m).1.mergeSeq = s.mergeSeq ∨ (Merge.run n s' m).1.mergeSeq = s.seq) ∧
      (Merge.run n s' m).1.nextID ≤ s.nextID + s.keys.size + 1 := by
  have hphase : m.phase = .list s'.active.id := by
    rw [h.listing.fresh]
    rfl
  have htodo : m.todo s' = s.keys.size := by
    rw [Merge.todo, hphase, ← h.keys]
  have hmark' : Marked s' := by rw [Marked, h.manifest, h.mergeSeq, hmark]
  obtain ⟨_, hgrown, _⟩ := h.grown
  obtain ⟨h1, h2, h3, h4, h5, h6⟩ := MergeInv.run (.inl ⟨_, h.listing⟩) (fun a ha => by
    rw [hphase] at ha
    cases ha
    rfl) (by omega) hmark' n
  exact ⟨h1, h2, h3, h4, h5.imp (·.trans h.mergeSeq) (·.trans h.barrier), by omega⟩

/-- The trail of a sealed store, from the listing on. -/
theorem Sealed.trail (h : Sealed ρ s s' m) (hmark : Marked s) (hroom : s.nextID + s.keys.size + 2 < 2 ^ 32) :
    Trail s' (Merge.run 1 s' m).1 (Merge.run 1 s' m).2 ∧ MergeInv ρ (Merge.run 1 s' m).1 [] (Merge.run 1 s' m).2 ∧
      (Merge.run 1 s' m).1.nextID + (Merge.run 1 s' m).2.todo (Merge.run 1 s' m).1 + 1 < 2 ^ 32 := by
  have hphase : m.phase = .list s'.active.id := by
    rw [h.listing.fresh]
    rfl
  have hadv := (Merge.step_advances (s := s') (m := m) (by rw [hphase]; exact Phase.noConfusion)
    fun e => by rw [hphase]; exact Phase.noConfusion).room
  have htodo : m.todo s' = s.keys.size := by rw [Merge.todo, hphase, ← h.keys]
  obtain ⟨_, hgrown, _⟩ := h.grown
  refine ⟨.start h.listing rfl, (h.run hmark hroom 1).1, ?_⟩
  show (Merge.step s' m).1.nextID + (Merge.step s' m).2.todo (Merge.step s' m).1 + 1 < 2 ^ 32
  omega

/-- The trail of a whole `Compact`. -/
theorem Sealed.trail_fuel (h : Sealed ρ s s' m) (hmark : Marked s) (hroom : s.nextID + s.keys.size + 2 < 2 ^ 32) :
    Trail s' (Merge.run s.compactFuel s' m).1 (Merge.run s.compactFuel s' m).2 := by
  obtain ⟨htrail, hinv, hroom'⟩ := h.trail hmark hroom
  have hfuel : s.compactFuel = s.compactFuel - 1 + 1 := by
    rw [Store.compactFuel]
    omega
  rw [hfuel]
  exact htrail.run hinv hroom' (s.compactFuel - 1)

/-- The fuel of `compact` is enough. -/
theorem Sealed.done (hs : Sealed ρ s s.sealActive.1 s.sealActive.2) (hmark : Marked s)
    (hroom : s.nextID + s.keys.size + 2 < 2 ^ 32) :
    (Merge.run s.compactFuel s.sealActive.1 s.sealActive.2).2.phase = .done := by
  obtain ⟨_, _, hfiles⟩ := hs.grown
  have hphase : s.sealActive.2.phase = .list s.sealActive.1.active.id := by
    rw [hs.listing.fresh]
    rfl
  have houts : s.sealActive.2.outs = [] ∧ s.sealActive.2.moved = [] := by
    rw [hs.listing.fresh]
    exact ⟨rfl, rfl⟩
  have hrank : (s.sealActive.2).rank s.sealActive.1 ≤ s.compactFuel := by
    rw [Merge.rank, hphase, hs.keys, houts.1, houts.2, Store.compactFuel]
    simp only [List.length_nil]
    omega
  exact (Merge.run_over s.compactFuel hrank).resolve_right fun ⟨e, he⟩ => (hs.run hmark hroom _).1.not_failed e he

/-- From the first removal on the watermark is the barrier, unless there was nothing to
merge. -/
def Stamped (s : Store) (m : Merge) : Prop :=
  match m.phase with
  | .remove _ | .recount | .sum | .total _ => s.mergeSeq = m.barrier
  | .done => m.mergeIDs = [] ∨ s.mergeSeq = m.barrier
  | _ => True

theorem Stamped.step (h : Stamped s m) : Stamped (Merge.step s m).1 (Merge.step s m).2 := by
  obtain ⟨phase, barrier, mergeIDs, outs, moved, retired⟩ := m
  cases phase with
  | list a =>
    by_cases hnil : s.files.keys.filter (· ≠ a) = []
    · simp only [Merge.step, Merge.listStep, hnil, if_true]
      exact .inl rfl
    · simp only [Merge.step, Merge.listStep, hnil, if_false]
      trivial
  | snapshot => trivial
  | copy todo =>
    cases todo with
    | nil => trivial
    | cons it rest =>
      simp only [Merge.step, Merge.copyStep]
      repeat' split
      all_goals trivial
  | write it rec buf todo =>
    simp only [Merge.step, Merge.writeStep]
    repeat' split
    all_goals trivial
  | syncOuts todo =>
    cases todo with
    | nil => trivial
    | cons o rest =>
      simp only [Merge.step]
      split
      all_goals trivial
  | commitHints todo => cases todo <;> trivial
  | repoint todo => cases todo <;> trivial
  | retire todo => cases todo <;> trivial
  | watermark => exact rfl
  | remove todo =>
    cases todo with
    | nil => exact h
    | cons r rest =>
      show (Merge.removeStep s r).mergeSeq = barrier
      have hsame : (Merge.removeStep s r).mergeSeq = s.mergeSeq := by
        cases r with
        | data id =>
          simp only [Merge.removeStep]
          split
          all_goals rfl
        | hint id => rfl
      rw [hsame]
      exact h
  | recount => exact h
  | sum => exact h
  | total n => exact .inr h
  | done => exact h
  | failed e => trivial

theorem Stamped.run (h : Stamped s m) (n : Nat) : Stamped (Merge.run n s m).1 (Merge.run n s m).2 := by
  induction n generalizing s m with
  | zero => exact h
  | succ n ih => exact ih h.step

omit [Checksum] in
/-- Until the watermark moves, every removal is still to come. -/
theorem Stamped.left (h : Stamped s m) (hne : s.mergeSeq ≠ m.barrier) :
    m.mergeIDs = [] ∨ m.left = Merge.removals m.mergeIDs := by
  obtain ⟨phase, barrier, mergeIDs, outs, moved, retired⟩ := m
  cases phase with
  | remove _ | recount | sum | total _ => exact absurd h hne
  | done => exact .inl (h.resolve_right hne)
  | list _ | snapshot | copy _ | write _ _ _ _ | syncOuts _ | commitHints _ | repoint _ | retire _ | watermark
  | failed _ =>
    exact .inr rfl

/-- **A whole `Compact`** succeeds, keeps the live map, and leaves no tombstone. -/
theorem Inv.compact (h : Inv ρ s [] []) (hb : Bounded ρ s) (hmark : Marked s)
    (hroom : s.nextID + s.keys.size + 2 < 2 ^ 32) : ∃ s', s.compact = (s', none) ∧ Compacted ρ s s' := by
  have hs := h.sealActive hb (by omega)
  obtain ⟨hinv, hun, hbar, hmark', hwater, hid⟩ := hs.run hmark hroom s.compactFuel
  have htrail := hs.trail_fuel hmark hroom
  have hdone := hs.done hmark hroom
  have hrun : s.compact = ((Merge.run s.compactFuel s.sealActive.1 s.sealActive.2).1, none) := by
    rw [Store.compact]
    simp only [hdone]
  refine ⟨_, hrun, ?_⟩
  generalize Merge.run s.compactFuel s.sealActive.1 s.sealActive.2 = out at *
  obtain ⟨h', hp⟩ := hinv.resolve_left fun ⟨a, hl⟩ => by
    rw [hl.fresh] at hdone
    cases hdone
  rw [hdone] at hp
  have hinv' := h'.inv
  rw [Merge.gone, hdone] at hinv'
  have hback (i : Nat) (r : Record) (hr : Holds ρ out.1.dir.bytes i r) : ∃ j r₀, Holds ρ s.dir.bytes j r₀ ∧
      r₀.key = r.key ∧ r₀.seq = r.seq ∧ r₀.payload = r.payload := by
    rcases hun.back i r hr with hr | ⟨_, j, r₀, hr₀, hrest⟩
    · exact ⟨i, r, (hs.holds i r).mp hr, rfl, rfl, rfl⟩
    · exact ⟨j, r₀, (hs.holds j r₀).mp hr₀, hrest⟩
  have hbound : Bounded ρ out.1 := hun.bounded (hs.bounded hb)
  refine ⟨hinv', hbound, hun.seq.trans hs.seq, hun.opts.trans hs.opts, hun.hinting.trans hs.hinting, hmark', hwater,
    hun.liveMap.trans hs.liveMap, hs.keys ▸ hun.kept, ⟨hs.grown.1.trans hun.nextID, hid⟩, ?_, ?_, fun i r hr => ?_,
    fun i b hb' hne => ?_, hback⟩
  · rw [hun.active]
    exact hs.active
  · obtain ⟨f, hf, hnil⟩ := hs.empty
    refine ⟨f, ?_, hnil⟩
    rw [hun.active, hun.activeData, hf]
  · -- What is outside the outputs would have to be newer than the newest record.
    by_cases hM : i ∈ out.2.mergeIDs
    · obtain ⟨b, hb', _⟩ := hr
      rw [hp.2 i hM] at hb'
      cases hb'
    · by_cases hout : i ∈ out.2.outs.map Out.id
      · obtain ⟨o, ho, rfl⟩ := List.mem_map.mp hout
        exact (h'.content o ho r hr).1
      · have hnew := h'.new i r hr hM hout
        rw [hbar, hs.barrier, ← hs.seq, ← hun.seq] at hnew
        exact absurd hnew (UInt64.not_lt.mpr (hbound i r hr))
  · rw [hun.active] at hne
    rcases (htrail.files i b hb').resolve_left hne with hM | hout
    · rw [hp.2 i hM] at hb'
      cases hb'
    · obtain ⟨o, ho, rfl⟩ := List.mem_map.mp hout
      exact hp.1 o ho

/-- A `Compact` moves the watermark up to the counter, unless there is nothing on disk. -/
theorem Inv.compact_watermark (h : Inv ρ s [] []) (hb : Bounded ρ s) (hmark : Marked s)
    (hroom : s.nextID + s.keys.size + 2 < 2 ^ 32) :
    s.compact.1.mergeSeq = s.seq ∨ ∀ i r, ¬ Holds ρ s.dir.bytes i r := by
  have hs := h.sealActive hb (by omega)
  have hdone := hs.done hmark hroom
  have hphase : s.sealActive.2.phase = .list s.sealActive.1.active.id := by
    rw [hs.listing.fresh]
    rfl
  have hstamp : Stamped s.sealActive.1 s.sealActive.2 := by
    rw [Stamped, hphase]
    trivial
  have hstamp := hstamp.run s.compactFuel
  have hcompact : s.compact.1 = (Merge.run s.compactFuel s.sealActive.1 s.sealActive.2).1 := by
    rw [Store.compact]
    simp only [hdone]
  rw [Stamped, hdone] at hstamp
  rcases hstamp with hnil | hseq
  · right
    rintro i r hr
    obtain ⟨b, hbytes, hmem⟩ := (hs.holds i r).mpr hr
    have hids := (hs.trail_fuel hmark hroom).mem_ids hs.listing.inv.toMounted (i := i)
    by_cases hact : i = s.sealActive.1.active.id
    · obtain ⟨f, hf, hempty⟩ := hs.empty
      rw [hact, Dir.bytes, hf, Option.map_some, hempty] at hbytes
      cases hbytes
      exact absurd (Reading.take_subset hmem) List.not_mem_nil
    · have hin := hids.mpr ⟨hact, b, hbytes⟩
      rw [hnil] at hin
      cases hin
  · left
    rw [hcompact, hseq, (hs.run hmark hroom _).2.2.1, hs.barrier]

end Compaction

end Gokv.Engine
