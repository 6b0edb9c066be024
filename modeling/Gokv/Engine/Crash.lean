import Gokv.Engine.Refinement

/-! Histories with crashes.

A crash outside `Compact` cuts the active file somewhere at or behind its last
fsync. A `Journal` carries beside the store the operations that are on disk: which
file each was appended to and where its append ends. A crash keeps those that end
before the cut, and `crash_history` says that the store `Open` then finds is the
map of exactly these, through any number of further operations and crashes.

The invariant (`Journaled`) looks ahead: it says of every cut of the current
active file what a replay would find. An append moves it by one group, of which a
proper beginning counts for nothing; a rotation or a merge leaves an active file
with nothing in it to cut; and `Open` itself changes nothing that a later cut
could bring back (`Trimmed.committed_take`). -/
namespace Gokv.Engine
open Base

/-- An operation on disk: what it assigns, and where its append ends. -/
structure Applied where
  updates : List (Bytes × Option Bytes)
  file : Nat
  stop : Nat

/-- The append lies outside the file that is cut, or before the cut. -/
def Applied.survives (id cut : Nat) (a : Applied) : Bool := a.file ≠ id ∨ a.stop ≤ cut

structure Journal where
  store : Store
  log : List Applied

/-- The map of the operations on disk. -/
def mapOf (log : List Applied) : Map := Map.update Map.empty (log.flatMap Applied.updates)

inductive Event where
  | op (op : Op)
  /-- A crash that cuts the active file, then `Open`. -/
  | crash (cut : Nat) (opts : Options)

/-- The directory a crash leaves. -/
def Store.crashed (s : Store) (cut : Nat) : Dir := s.dir.truncate s.active.id cut

section Crash
variable [Checksum]

def Journal.step (j : Journal) : Event → Journal × Option Error
  | .op op =>
    let next := j.store.apply op
    if next.2 = none ∧ op.records ≠ [] then
      (⟨next.1, j.log ++ [⟨op.updates, next.1.active.id, next.1.active.size⟩]⟩, none)
    else (⟨next.1, j.log⟩, next.2)
  | .crash cut opts =>
    match openStore opts (j.store.crashed cut) with
    | .ok s => (⟨s, j.log.filter (·.survives j.store.active.id cut)⟩, none)
    | .error e => (j, some e)

def journalMachine : Machine Event Journal (Option Error) := ⟨Journal.step⟩

/-- The bytes of the active file that the last fsync covered. -/
def Store.synced (s : Store) : Nat := (s.dir.data[s.active.id]?.map DiskFile.synced).getD 0

/-- A step the widths hold; a crash loses nothing that was synced. -/
def EventFits (j : Journal) : Event → Prop
  | .op op => Fits j.store op
  | .crash cut _ => j.store.synced ≤ cut ∧ j.store.nextID + 1 < 2 ^ 32

omit [Checksum] in
instance decidableEventFits (j : Journal) : (e : Event) → Decidable (EventFits j e)
  | .op op => inferInstanceAs (Decidable (Fits j.store op))
  | .crash _ _ => inferInstanceAs (Decidable (_ ∧ _))

/-- The bytes of the files with the active one cut. -/
def Store.cutBytes (s : Store) (n : Nat) : Nat → Option Bytes :=
  Function.update s.dir.bytes s.active.id ((s.dir.bytes s.active.id).map (List.take n))

variable {s s' : Store} {log : List Applied} {n : Nat}

omit [Checksum] in
theorem bytes_crashed (s : Store) (n : Nat) : (s.crashed n).bytes = s.cutBytes n :=
  Dir.bytes_truncate s.dir s.active.id n

/-- A cut behind the end of the active file loses nothing. -/
theorem Wf.cutBytes_eq (h : Wf .committed s []) (hn : s.active.size ≤ n) : s.cutBytes n = s.dir.bytes := by
  obtain ⟨b, hb, hsize, _⟩ := h.active
  rw [Store.cutBytes, hb, Option.map_some, List.take_of_length_le (hsize ▸ hn)]
  exact Function.update_eq_self_iff.mpr hb.symm

/-- A proper beginning of an appended group counts for nothing. -/
theorem committed_take_append {b : Bytes} {recs : List Record} (hi : Intact b) (hb : Grouped (records b))
    (hs : ∀ r ∈ recs, r.Sized) (hg : IsGroup recs) (hn : n < (b ++ encodeAll recs).length) :
    committed id (records ((b ++ encodeAll recs).take n)) = committed id (records (b.take n)) := by
  by_cases hle : n ≤ b.length
  · rw [List.take_append_of_le_length hle]
  · obtain ⟨kept, dropped, t, hsplit, ht, htake, _, _, htail⟩ := take_encodeAll recs hs (n - b.length)
    have hdrop : dropped ≠ [] := by
      rintro rfl
      rw [List.append_nil] at hsplit
      rw [List.length_append] at hn
      have hnil : t = [] := htail.resolve_right fun h => h rfl
      have := congrArg List.length htake
      rw [hnil, List.append_nil, ← hsplit, List.length_take] at this
      omega
    have hkept : ∀ r ∈ kept, r.Sized := fun r hr => hs r (hsplit ▸ List.mem_append_left _ hr)
    rw [List.take_append, List.take_of_length_le (by omega), htake, hi.records_append_any,
      records_eq kept hkept t ht, committed_of_grouped_open hb (hg.open_of_append hsplit hdrop)]
    exact (Grouped.settled hb).symm

/-- What a journal says of every cut of the active file. -/
structure Journaled (j : Journal) : Prop where
  quiet : Quiet j.store
  files : ∀ a ∈ j.log, a.file ≤ j.store.active.id
  /-- What lies behind the active file has its hint, so it is never appended to. -/
  behind : ∀ i b, j.store.dir.bytes i = some b → j.store.active.id < i → i ∈ j.store.dir.hints
  cut : ∀ n, Newest.Shows (versions .committed (j.store.cutBytes n))
    (mapOf (j.log.filter (·.survives j.store.active.id n)))

/-- Where the cut loses nothing, the surviving operations are the live map. -/
theorem Journaled.full {j : Journal} (h : Journaled j) (hn : j.store.active.size ≤ n) :
    j.store.liveMap = mapOf (j.log.filter (·.survives j.store.active.id n)) := by
  have hcut := h.cut n
  rw [h.quiet.inv.toWf.cutBytes_eq hn] at hcut
  exact h.quiet.inv.indexes.live_eq hcut

omit [Checksum] in
theorem exists_keepsAll (s : Store) (log : List Applied) :
    ∃ n, s.active.size ≤ n ∧ log.filter (·.survives s.active.id n) = log := by
  refine ⟨s.active.size + (log.map Applied.stop).sum, Nat.le_add_right .., ?_⟩
  refine List.filter_eq_self.mpr fun a ha => ?_
  have := List.le_sum_of_mem (List.mem_map_of_mem (f := Applied.stop) ha)
  simp only [Applied.survives, decide_eq_true_eq]
  omega

/-- **The live map is the map of the operations on disk.** -/
theorem Journaled.liveMap {j : Journal} (h : Journaled j) : j.store.liveMap = mapOf j.log := by
  obtain ⟨n, hn, hall⟩ := exists_keepsAll j.store j.log
  rw [h.full hn, hall]

/-- With nothing in the active file there is nothing to cut. -/
theorem Journaled.of_empty (hq : Quiet s) (hempty : s.active.size = 0)
    (hfiles : ∀ a ∈ log, a.file ≤ s.active.id)
    (hbehind : ∀ i b, s.dir.bytes i = some b → s.active.id < i → i ∈ s.dir.hints)
    (hmap : ∀ n, s.liveMap = mapOf (log.filter (·.survives s.active.id n))) : Journaled ⟨s, log⟩ where
  quiet := hq
  files := hfiles
  behind := hbehind
  cut n := by
    show Newest.Shows (versions .committed (s.cutBytes n)) _
    rw [hq.inv.toWf.cutBytes_eq (hempty ▸ Nat.zero_le n), ← hmap n]
    exact hq.inv.shows

theorem Journaled.idle {j : Journal} (h : Journaled j) (hb : Background j.store s') (hq : Quiet s') :
    Journaled ⟨s', j.log⟩ where
  quiet := hq
  files a ha := by
    show a.file ≤ s'.active.id
    rw [hb.active]
    exact h.files a ha
  behind i b hi hlt := hb.hints i (h.behind i b (hb.bytes ▸ hi) (hb.active ▸ hlt))
  cut n := by
    show Newest.Shows (versions .committed (s'.cutBytes n)) (mapOf (j.log.filter (·.survives s'.active.id n)))
    have hcut : s'.cutBytes n = j.store.cutBytes n := by rw [Store.cutBytes, Store.cutBytes, hb.bytes, hb.active]
    rw [hcut, hb.active]
    exact h.cut n

theorem versions_congr {B B' : Nat → Option Bytes}
    (h : ∀ i r, Holds .committed B i r ↔ Holds .committed B' i r) : versions .committed B = versions .committed B' := by
  ext x
  simp only [versions, Set.mem_ofPred_eq, h]

omit [Checksum] in
theorem mapOf_concat (log : List Applied) (a : Applied) :
    mapOf (log ++ [a]) = Map.update (mapOf log) a.updates := by
  simp only [mapOf, List.flatMap_append, List.flatMap_cons, List.flatMap_nil, List.append_nil, Map.update,
    List.foldl_append]

omit [Checksum] in
/-- Operations of other files survive every cut. -/
theorem filter_survives {id : Nat} (h : ∀ a ∈ log, a.file ≠ id) : log.filter (·.survives id n) = log := by
  refine List.filter_eq_self.mpr fun a ha => ?_
  simp only [Applied.survives, decide_eq_true_eq]
  exact .inl (h a ha)

/-- Where a write went: behind what the active file held, or into a fresh file. -/
theorem Written.place {recs : List Record} (h : Wf .committed s []) (hw : Written .committed s s' recs) :
    (∀ i, i ≠ s'.active.id → s'.dir.bytes i = s.dir.bytes i) ∧ ∃ b b', s'.dir.bytes s'.active.id = some b' ∧
      b'.length = s'.active.size ∧ b' = b ++ encodeAll (Store.assignSeqs s.seq recs) ∧ Intact b ∧
      Grouped (records b) ∧
      (s'.active.id = s.active.id ∧ s.dir.bytes s.active.id = some b ∧ b.length = s.active.size ∨
        s'.active.id = s.nextID ∧ s.dir.bytes s'.active.id = none ∧ b = []) := by
  obtain ⟨b, hb, hsize, hi, hwhole⟩ := h.active
  obtain ⟨b', hb', hsize', _⟩ := hw.inv.active
  have hbytes : s'.dir.bytes = Function.update s.dir.bytes s'.active.id
      (some ((s.dir.bytes s'.active.id).getD [] ++ encodeAll (Store.assignSeqs s.seq recs))) := hw.appended.bytes
  have hself := congrFun hbytes s'.active.id
  rw [Function.update_self, hb', Option.some.injEq] at hself
  refine ⟨fun i hi => by rw [hbytes, Function.update_of_ne hi], ?_⟩
  rcases hw.appended.active with ⟨ha, _⟩ | ⟨ha, _⟩
  · have ha : s'.active.id = s.active.id := ha
    rw [ha, hb, Option.getD_some] at hself
    exact ⟨b, b', hb', hsize', hself, hi, hwhole, .inl ⟨ha, hb, hsize⟩⟩
  · have ha : s'.active.id = s.nextID := ha
    have hnone : s.dir.bytes s'.active.id = none := by rw [ha, h.notMem_nextID]
    rw [hnone, Option.getD_none] at hself
    exact ⟨[], b', hb', hsize', hself, intact_nil, .nil, .inr ⟨ha, hnone, rfl⟩⟩

/-- What a replay finds of a cut active file after a write, if the cut falls before the
end of the write. -/
theorem Written.holds_cut {recs : List Record} (h : Wf .committed s []) (hw : Written .committed s s' recs)
    (hg : IsGroup recs) (hs : ∀ r ∈ recs, r.Sized) (hn : n < s'.active.size) (i : Nat) (r : Record) :
    Holds .committed (s'.cutBytes n) i r ↔
      Holds .committed (if s'.active.id = s.active.id then s.cutBytes n else s.dir.bytes) i r := by
  obtain ⟨hothers, b, b', hb', hsize', hsplit, hi, hwhole, hplace⟩ := hw.place h
  by_cases hne : i = s'.active.id
  · subst hne
    have hcut : s'.cutBytes n s'.active.id = some (b'.take n) := by
      rw [Store.cutBytes, Function.update_self, hb']
      rfl
    rw [← hsize', hsplit] at hn
    have hkept := committed_take_append hi hwhole (sized_assignSeqs hs) (isGroup_assignSeqs hg) hn
    rw [← hsplit] at hkept
    rcases hplace with ⟨ha, hb, _⟩ | ⟨ha, hnone, rfl⟩
    · have hold : s.cutBytes n s'.active.id = some (b.take n) := by
        rw [ha, Store.cutBytes, Function.update_self, hb]
        rfl
      simp only [Holds, if_pos ha, hcut, hold, Option.some.injEq, exists_eq_left', Reading.take, hkept]
    · have hnew : s'.active.id ≠ s.active.id := fun heq => by
        obtain ⟨c, hc, _⟩ := h.active
        rw [heq, hc] at hnone
        cases hnone
      simp only [Holds, if_neg hnew, hcut, hnone, Option.some.injEq, exists_eq_left', Reading.take, hkept,
        List.take_nil, reduceCtorEq, false_and, exists_false, iff_false]
      exact List.not_mem_nil
  · have hother : s'.cutBytes n i = s.dir.bytes i := by
      rw [Store.cutBytes, Function.update_of_ne hne, hothers i hne]
    by_cases ha : s'.active.id = s.active.id
    · have : s.cutBytes n i = s.dir.bytes i := by
        rw [Store.cutBytes, Function.update_of_ne (ha ▸ hne)]
      simp only [Holds, hother, if_pos ha, this]
    · simp only [Holds, hother, if_neg ha]

theorem Journaled.wrote {recs : List Record} {ups : List (Bytes × Option Bytes)} (h : Journaled ⟨s, log⟩)
    (hw : Written .committed s s' recs) (hg : IsGroup recs) (hs : ∀ r ∈ recs, r.Sized) (hq : Quiet s')
    (hlive : s'.liveMap = Map.update s.liveMap ups) :
    Journaled ⟨s', log ++ [⟨ups, s'.active.id, s'.active.size⟩]⟩ := by
  have hwf : Wf .committed s [] := h.quiet.inv.toWf
  obtain ⟨hothers, b, b', _, hsize', hsplit, _, _, hplace⟩ := hw.place hwf
  have hold : ∀ a ∈ log, a.file ≤ s.active.id := h.files
  -- Either the file is the same, or no earlier operation is in it.
  have hact : s'.active.id = s.active.id ∧ s.active.size ≤ s'.active.size ∨
      s.active.id < s'.active.id ∧ ∀ m, log.filter (·.survives s'.active.id m) = log := by
    rcases hplace with ⟨ha, _, hsize⟩ | ⟨ha, _⟩
    · refine .inl ⟨ha, ?_⟩
      rw [← hsize, ← hsize', hsplit, List.length_append]
      exact Nat.le_add_right ..
    · obtain ⟨c, hc, _⟩ := hwf.active
      have hnext := hwf.fresh _ c hc
      exact .inr ⟨ha ▸ hnext, fun m => filter_survives fun a hmem => by have := hold a hmem; omega⟩
  have hle : s.active.id ≤ s'.active.id := hact.elim (fun h => h.1.ge) fun h => h.1.le
  refine ⟨hq, fun a ha => ?_, fun i c hc hlt => ?_, fun n => ?_⟩
  · rcases List.mem_append.mp ha with ha | ha
    · exact (hold a ha).trans hle
    · rw [List.mem_singleton.mp ha]
  · have hne : i ≠ s'.active.id := Nat.ne_of_gt hlt
    have hc : s.dir.bytes i = some c := (hothers i hne).symm.trans hc
    show i ∈ s'.dir.hints
    rw [hw.appended.hints]
    exact h.behind i c hc (lt_of_le_of_lt hle hlt)
  · show Newest.Shows (versions .committed (s'.cutBytes n)) (mapOf ((log ++ [_]).filter (·.survives s'.active.id n)))
    by_cases hn : n < s'.active.size
    · have hnew : Applied.survives s'.active.id n ⟨ups, s'.active.id, s'.active.size⟩ = false := by
        simp [Applied.survives, hn]
      rw [List.filter_append, List.filter_singleton, hnew, cond_false, List.append_nil,
        versions_congr (hw.holds_cut hwf hg hs hn)]
      rcases hact with ⟨ha, _⟩ | ⟨hlt, hall⟩
      · rw [if_pos ha, ha]
        exact h.cut n
      · rw [if_neg hlt.ne', hall, ← h.liveMap]
        exact h.quiet.inv.shows
    · have hnew : Applied.survives s'.active.id n ⟨ups, s'.active.id, s'.active.size⟩ = true := by
        simp [Applied.survives, not_lt.mp hn]
      have hmap : s.liveMap = mapOf (log.filter (·.survives s'.active.id n)) := by
        rcases hact with ⟨ha, hgrow⟩ | ⟨_, hall⟩
        · rw [ha]
          exact h.full (hgrow.trans (not_lt.mp hn))
        · rw [hall]
          exact h.liveMap
      rw [List.filter_append, List.filter_singleton, hnew, cond_true, mapOf_concat, ← hmap, ← hlive,
        hq.inv.toWf.cutBytes_eq (not_lt.mp hn)]
      exact hq.inv.shows

theorem Journaled.compacted (h : Journaled ⟨s, log⟩) (hc : Compacted .committed s s') (hq : Quiet s') :
    Journaled ⟨s', log⟩ := by
  have hwf : Wf .committed s [] := h.quiet.inv.toWf
  have hold : ∀ a ∈ log, a.file ≤ s.active.id := h.files
  have hempty : s'.active.size = 0 := by
    obtain ⟨f, hf, hnil⟩ := hc.empty
    obtain ⟨b, hb, hsize, _⟩ := hq.inv.active
    rw [Dir.bytes, hf, Option.map_some, hnil] at hb
    rw [← hsize, ← Option.some.inj hb]
    rfl
  obtain ⟨b, hb, _⟩ := hwf.active
  have hnext := hwf.fresh _ b hb
  rcases hc.active with ⟨ha, hzero⟩ | ha
  · refine .of_empty hq hempty (fun a hmem => ha ▸ hold a hmem) (fun i b hb hlt => hc.hinted i b hb hlt.ne') fun n => ?_
    rw [hc.liveMap, ha]
    exact h.full (n := n) (show s.active.size ≤ n from hzero ▸ Nat.zero_le n)
  · refine .of_empty hq hempty (fun a hmem => ?_) (fun i b hb hlt => hc.hinted i b hb hlt.ne') fun n => ?_
    · have := hold a hmem
      omega
    · rw [hc.liveMap, filter_survives fun a hmem => by have := hold a hmem; omega]
      exact h.liveMap

/-! ### Reopening -/

omit [Checksum] in
theorem cutBytes_some {i : Nat} {c : Bytes} (h : s.cutBytes n i = some c) :
    i = s.active.id ∧ (∃ b, s.dir.bytes i = some b ∧ c = b.take n) ∨ i ≠ s.active.id ∧ s.dir.bytes i = some c := by
  by_cases hi : i = s.active.id
  · subst hi
    rw [Store.cutBytes, Function.update_self] at h
    obtain ⟨b, hb, rfl⟩ := Option.map_eq_some_iff.mp h
    exact .inl ⟨rfl, b, hb, rfl⟩
  · rw [Store.cutBytes, Function.update_of_ne hi] at h
    exact .inr ⟨hi, h⟩

/-- Whatever a replay keeps of a cut directory was there before the cut. -/
theorem Wf.holds_of_cut (h : Wf .committed s []) {i : Nat} {r : Record}
    (hr : Holds .committed (s.cutBytes n) i r) : Holds .committed s.dir.bytes i r := by
  obtain ⟨c, hc, hr⟩ := hr
  rcases cutBytes_some hc with ⟨rfl, b, hb, rfl⟩ | ⟨_, hc⟩
  · obtain ⟨b', hb', _, _, hwhole⟩ := h.active
    cases Option.some.inj (hb.symm.trans hb')
    obtain ⟨dropped, hdrop⟩ := records_take b n
    refine ⟨b, hb, ?_⟩
    rw [hwhole.take_eq, hdrop]
    exact List.mem_append_left _ (Reading.take_subset hr)
  · exact ⟨c, hc, hr⟩

theorem Wf.cut_ok {d : Dir} (h : Wf .committed s []) (hd : d.bytes = s.cutBytes n) (hh : d.hints = s.dir.hints) :
    DirOk .committed d := by
  refine ⟨fun i c hc => ?_, fun i c hc => ?_, fun i t c ht hc => ?_⟩
  · rcases cutBytes_some (hd ▸ hc) with ⟨rfl, b, hb, rfl⟩ | ⟨_, hc⟩
    · exact lt_of_le_of_lt (List.length_take_le' ..) (h.dir.sizes _ b hb)
    · exact h.dir.sizes i c hc
  · rcases cutBytes_some (hd ▸ hc) with ⟨rfl, b, hb, rfl⟩ | ⟨_, hc⟩
    · obtain ⟨b', hb', _, _, hwhole⟩ := h.active
      cases Option.some.inj (hb.symm.trans hb')
      obtain ⟨dropped, hdrop⟩ := records_take b n
      exact Grouped.tidy hwhole hdrop
    · exact h.dir.tidy i c hc
  · rw [hh] at ht
    rcases cutBytes_some (hd ▸ hc) with ⟨rfl, _⟩ | ⟨_, hc⟩
    · exact absurd (.inl (Std.ExtTreeMap.mem_iff_isSome_getElem?.mpr (by rw [ht]; rfl))) h.noHint
    · exact h.dir.hints i t c ht hc

theorem Wf.open_crashed (h : Wf .committed s []) (cut : Nat) (opts : Options) (hroom : s.nextID + 1 < 2 ^ 32) :
    ∃ s', openStore opts (s.crashed cut) = .ok s' ∧ Reopened .committed opts (s.crashed cut) s' := by
  refine openStore_ok opts (h.cut_ok (bytes_crashed s cut) rfl) fun id hid => ?_
  obtain ⟨c, hc⟩ := Dir.mem_data.mp hid
  rw [bytes_crashed] at hc
  have hlt : id < s.nextID := by
    rcases cutBytes_some hc with ⟨_, b, hb, _⟩ | ⟨_, hc⟩
    · exact h.fresh id b hb
    · exact h.fresh id c hc
  omega

/-- `Open` resumes the file that was cut, or starts a fresh one. -/
theorem Journaled.resumes {d : Dir} {opts : Options} (h : Journaled ⟨s, log⟩) (hd : d.bytes = s.cutBytes n)
    (hh : d.hints = s.dir.hints) (hr : Reopened .committed opts d s') :
    s'.active.id = s.active.id ∨
      s.active.id < s'.active.id ∧ d.data[s'.active.id]? = none ∧ s'.dir.data[s'.active.id]? = some ⟨[], 0⟩ := by
  have hwf : Wf .committed s [] := h.quiet.inv.toWf
  obtain ⟨b, hb, _⟩ := hwf.active
  have hcut : d.bytes s.active.id = some (b.take n) := by
    rw [hd, Store.cutBytes, Function.update_self, hb]
    rfl
  obtain ⟨b', hb', _⟩ := hr.bytes hcut
  have hle := hr.top _ b' hb'
  by_cases heq : s'.active.id = s.active.id
  · exact .inl heq
  · have hlt : s.active.id < s'.active.id := lt_of_le_of_ne hle (Ne.symm heq)
    refine .inr ⟨hlt, ?_⟩
    cases hdata : d.data[s'.active.id]? with
    | none =>
      refine ⟨rfl, ?_⟩
      rcases hr.fresh _ hdata with hnone | ⟨_, hnew⟩
      · obtain ⟨c, hc, _⟩ := hr.wf.active
        rw [Dir.bytes, hnone] at hc
        cases hc
      · exact hnew
    | some f =>
      -- A file behind the cut one has its hint, and is not resumed.
      have hmem : s'.active.id ∈ d.data := Std.ExtTreeMap.mem_iff_isSome_getElem?.mpr (by rw [hdata]; rfl)
      have hfile : s.dir.bytes s'.active.id = some f.bytes := by
        have hdb : d.bytes s'.active.id = some f.bytes := by rw [Dir.bytes, hdata]; rfl
        rwa [hd, Store.cutBytes, Function.update_of_ne heq] at hdb
      have hhint : s'.active.id ∈ s.dir.hints := h.behind _ _ hfile hlt
      refine absurd (.inl ?_) hr.wf.noHint
      rw [Std.ExtTreeMap.mem_iff_isSome_getElem?, hr.hints _ hmem, hh, ← Std.ExtTreeMap.mem_iff_isSome_getElem?]
      exact hhint

omit [Checksum] in
theorem survives_min (id m : Nat) (a : Applied) :
    (a.survives id n && a.survives id m) = a.survives id (min m n) := by
  rw [Bool.eq_iff_iff]
  simp only [Applied.survives, Bool.and_eq_true, decide_eq_true_eq, le_min_iff]
  tauto

/-- Cutting a resumed file once more is cutting it where the earlier of the two cuts
falls. -/
theorem Reopened.holds_cut {d : Dir} {opts : Options} {m : Nat} (h : Wf .committed s [])
    (hd : d.bytes = s.cutBytes n) (hr : Reopened .committed opts d s') (ha : s'.active.id = s.active.id) (i : Nat)
    (r : Record) : Holds .committed (s'.cutBytes m) i r ↔ Holds .committed (s.cutBytes (min m n)) i r := by
  obtain ⟨b, hb, _⟩ := h.active
  by_cases hi : i = s.active.id
  · subst hi
    have hcut : d.bytes s.active.id = some (b.take n) := by
      rw [hd, Store.cutBytes, Function.update_self, hb]
      rfl
    obtain ⟨b', hb', htrim⟩ := hr.bytes hcut
    have hkept : committed id (records (b'.take m)) = committed id (records (b.take (min m n))) := by
      rw [← List.take_take]
      rcases htrim with rfl | ⟨_, htrim⟩
      · rfl
      · exact htrim.committed_take m
    have hleft : s'.cutBytes m s.active.id = some (b'.take m) := by
      rw [Store.cutBytes, ha, Function.update_self, hb']
      rfl
    have hright : s.cutBytes (min m n) s.active.id = some (b.take (min m n)) := by
      rw [Store.cutBytes, Function.update_self, hb]
      rfl
    simp only [Holds, hleft, hright, Option.some.injEq, exists_eq_left', Reading.take, hkept]
  · have hleft : s'.cutBytes m i = s'.dir.bytes i := Function.update_of_ne (ha ▸ hi) ..
    have hright : s.cutBytes (min m n) i = d.bytes i := by
      rw [hd, Store.cutBytes, Store.cutBytes, Function.update_of_ne hi, Function.update_of_ne hi]
    have : Holds .committed s'.dir.bytes i r ↔ Holds .committed d.bytes i r := hr.holds
    simp only [Holds, hleft, hright] at this ⊢
    exact this

/-- `Open` leaves a quiet store, wherever the active file was cut. -/
theorem Quiet.reopenCut {d : Dir} {opts : Options} (h : Quiet s) (hd : d.bytes = s.cutBytes n)
    (hh : d.hints = s.dir.hints) (hr : Reopened .committed opts d s') : Quiet s' := by
  have hwf : Wf .committed s [] := h.inv.toWf
  have hagree : Agreeing .committed d.bytes := fun i j r r' hr hr' =>
    h.inv.agree i j r r' (hwf.holds_of_cut (hd ▸ hr)) (hwf.holds_of_cut (hd ▸ hr'))
  obtain ⟨hinv, hbound⟩ := hr.inv (hwf.cut_ok hd hh) hagree
  exact ⟨hinv, hbound, by rw [Marked, hr.manifest, hr.mergeSeq]⟩

/-- **Reopening a cut directory** leaves the operations that survived the cut, whatever
is cut again later. -/
theorem Journaled.reopened {d : Dir} {opts : Options} (h : Journaled ⟨s, log⟩) (hd : d.bytes = s.cutBytes n)
    (hh : d.hints = s.dir.hints) (hr : Reopened .committed opts d s') :
    Journaled ⟨s', log.filter (·.survives s.active.id n)⟩ := by
  have hwf : Wf .committed s [] := h.quiet.inv.toWf
  have hold : ∀ a ∈ log, a.file ≤ s.active.id := h.files
  have hq : Quiet s' := h.quiet.reopenCut hd hh hr
  have hinv := hq.inv
  have hbehind : ∀ i b, s'.dir.bytes i = some b → s'.active.id < i → i ∈ s'.dir.hints :=
    fun i b hb hlt => absurd (hr.top i b hb) (not_le.mpr hlt)
  rcases h.resumes hd hh hr with ha | ⟨hlt, hnone, hnew⟩
  · refine ⟨hq, fun a hmem => ?_, hbehind, fun m => ?_⟩
    · show a.file ≤ s'.active.id
      rw [ha]
      exact hold a (List.mem_of_mem_filter hmem)
    · show Newest.Shows (versions .committed (s'.cutBytes m)) (mapOf (List.filter _ (List.filter _ log)))
      have hfilter : (log.filter (·.survives s.active.id n)).filter (·.survives s'.active.id m) =
          log.filter (·.survives s.active.id (min m n)) := by
        rw [List.filter_filter, ha]
        exact List.filter_congr fun a _ => by rw [Bool.and_comm, survives_min]
      rw [hfilter, versions_congr (hr.holds_cut hwf hd ha)]
      exact h.cut (min m n)
  · have hempty : s'.active.size = 0 := by
      obtain ⟨b, hb, hsize, _⟩ := hinv.active
      rw [Dir.bytes, hnew, Option.map_some] at hb
      rw [← hsize, ← Option.some.inj hb]
      rfl
    refine .of_empty hq hempty (fun a hmem => ?_) hbehind fun m => ?_
    · exact (hold a (List.mem_of_mem_filter hmem)).trans hlt.le
    · rw [filter_survives fun a hmem => by have := hold a (List.mem_of_mem_filter hmem); omega]
      refine hinv.indexes.live_eq ?_
      have hcut := h.cut n
      rwa [versions_congr fun i r => (hr.holds.trans (by rw [hd]))]

/-! ### Every event -/

/-- The error an event reports, given the map of the operations on disk. -/
def Event.refusal (m : Map) : Event → Option Error
  | .op o => o.refusal m
  | .crash _ _ => none

/-- **Every event** keeps the journal, and is answered from its map. -/
theorem Journaled.step {j : Journal} {e : Event} (h : Journaled j) (hf : EventFits j e) :
    Journaled (j.step e).1 ∧ (j.step e).2 = e.refusal (mapOf j.log) := by
  obtain ⟨s, log⟩ := j
  have hlive : s.liveMap = mapOf log := h.liveMap
  cases e with
  | op op =>
    obtain ⟨s', hs', hq, hmap, heff⟩ := Quiet.apply h.quiet hf
    have hs' : s.apply op = (s', op.refusal s.liveMap) := hs'
    show _ ∧ _ = op.refusal (mapOf log)
    rw [← hlive]
    simp only [Journal.step, hs']
    cases heff with
    | idle hb hop =>
      have hno : ¬ (op.refusal s.liveMap = none ∧ op.records ≠ []) := fun hc =>
        hop.elim (fun hne => hne hc.1) fun hnil => hc.2 hnil.1
      rw [if_neg hno]
      exact ⟨h.idle hb hq, rfl⟩
    | wrote hg hs hw hok =>
      rw [Map.apply] at hmap
      have hok : op.refusal s.liveMap = none := hok
      simp only [hok] at hmap
      rw [if_pos ⟨hok, hg.ne_nil⟩, hok]
      exact ⟨h.wrote hw hg hs hq hmap, rfl⟩
    | compacted hc =>
      rw [if_neg fun hc => hc.2 rfl]
      exact ⟨h.compacted hc hq, rfl⟩
    | reopened hr =>
      obtain ⟨n, hn, hall⟩ := exists_keepsAll s log
      obtain ⟨hbytes, hhints, _⟩ := h.quiet.inv.toWf.close
      have hcut := h.reopened (hbytes.trans (h.quiet.inv.toWf.cutBytes_eq hn).symm) hhints hr
      rw [hall] at hcut
      rw [if_neg fun hc => hc.2 rfl]
      exact ⟨hcut, rfl⟩
  | crash cut opts =>
    have hwf : Wf .committed s [] := h.quiet.inv.toWf
    obtain ⟨s', hs', hr⟩ := hwf.open_crashed cut opts hf.2
    simp only [Journal.step, hs']
    exact ⟨h.reopened (bytes_crashed s cut) rfl hr, rfl⟩

/-! ### Fsync on every write -/

/-- The event leaves the store in a session that syncs every write. -/
def Event.Always : Event → Prop
  | .op (.reopen opts) => opts.syncMode = .always
  | .crash _ opts => opts.syncMode = .always
  | _ => True

/-- Every byte of the active file is synced, and every operation in it is behind none
of them. -/
structure Durable (j : Journal) : Prop where
  mode : j.store.opts.syncMode = .always
  synced : ∃ f, j.store.dir.data[j.store.active.id]? = some f ∧ f.bytes.length ≤ f.synced
  stops : ∀ a ∈ j.log, a.file = j.store.active.id → a.stop ≤ j.store.active.size

theorem Wf.size_eq (h : Wf .committed s []) {f : DiskFile} (hf : s.dir.data[s.active.id]? = some f) :
    f.bytes.length = s.active.size := by
  obtain ⟨b, hb, hsize, _⟩ := h.active
  rw [Dir.bytes, hf, Option.map_some, Option.some.injEq] at hb
  rw [hb, hsize]

/-- No cut that spares what is synced loses an operation. -/
theorem Durable.keepsAll {j : Journal} (h : Durable j) (hj : Journaled j) (hn : j.store.synced ≤ n) :
    j.store.active.size ≤ n ∧ j.log.filter (·.survives j.store.active.id n) = j.log := by
  obtain ⟨f, hf, hlen⟩ := h.synced
  have hsize := hj.quiet.inv.toWf.size_eq hf
  rw [Store.synced, hf] at hn
  have hn : f.synced ≤ n := hn
  refine ⟨by omega, List.filter_eq_self.mpr fun a ha => ?_⟩
  have := h.stops a ha
  simp only [Applied.survives, decide_eq_true_eq]
  by_cases heq : a.file = j.store.active.id
  · have := this heq
    omega
  · exact .inl heq

theorem Durable.reopened {d : Dir} {opts : Options} (h : Durable ⟨s, log⟩) (hj : Journaled ⟨s, log⟩)
    (hd : d.bytes = s.cutBytes n) (hn : s.active.size ≤ n) (hh : d.hints = s.dir.hints)
    (hsync : ∃ f : DiskFile, d.data[s.active.id]? = some f ∧ f.bytes.length ≤ f.synced)
    (hr : Reopened .committed opts d s') (hopts : opts.syncMode = .always) : Durable ⟨s', log⟩ := by
  have hwf : Wf .committed s [] := hj.quiet.inv.toWf
  have hmode : s'.opts.syncMode = .always := by rw [hr.opts, applyDefaults_syncMode, hopts]
  rcases hj.resumes hd hh hr with ha | ⟨hlt, _, hnew⟩
  · -- The resumed file is whole, so `Open` cuts nothing off it.
    obtain ⟨f, hf, hlen⟩ := hsync
    obtain ⟨b, hb, hsize, hi, hwhole⟩ := hwf.active
    have hfb : f.bytes = b := by
      have := congrFun (hd.trans (hwf.cutBytes_eq hn)) s.active.id
      rwa [Dir.bytes, hf, hb, Option.map_some, Option.some.injEq] at this
    have hfile : ∃ f', s'.dir.data[s'.active.id]? = some f' ∧ f'.bytes.length ≤ f'.synced ∧ f'.bytes = b := by
      rw [ha]
      rcases hr.data _ f hf with hsame | ⟨_, b', ht, hcut⟩
      · exact ⟨f, hsame, hlen, hfb⟩
      · rw [hfb] at ht
        exact ⟨_, hcut, le_rfl, ht.eq_self hi hwhole⟩
    obtain ⟨f', hf', hlen', hb'⟩ := hfile
    refine ⟨hmode, ⟨f', hf', hlen'⟩, fun a hmem hfa => ?_⟩
    show a.stop ≤ s'.active.size
    rw [← hr.wf.size_eq hf', hb', hsize]
    exact h.stops a hmem (hfa.trans ha)
  · refine ⟨hmode, ⟨_, hnew, le_rfl⟩, fun a hmem hfa => ?_⟩
    have hle : a.file ≤ s.active.id := hj.files a hmem
    have hfa : a.file = s'.active.id := hfa
    omega

theorem Durable.step {j : Journal} {e : Event} (h : Durable j) (hj : Journaled j) (hf : EventFits j e)
    (he : e.Always) : Durable (j.step e).1 := by
  obtain ⟨s, log⟩ := j
  have hwf : Wf .committed s [] := hj.quiet.inv.toWf
  obtain ⟨f, hfile, hlen⟩ : ∃ f : DiskFile, s.dir.data[s.active.id]? = some f ∧ f.bytes.length ≤ f.synced := h.synced
  cases e with
  | op op =>
    obtain ⟨s', hs', hq, _, heff⟩ := Quiet.apply hj.quiet hf
    have hs' : s.apply op = (s', op.refusal s.liveMap) := hs'
    simp only [Journal.step, hs']
    cases heff with
    | idle hb hop =>
      have hno : ¬ (op.refusal s.liveMap = none ∧ op.records ≠ []) := fun hc =>
        hop.elim (fun hne => hne hc.1) fun hnil => hc.2 hnil.1
      rw [if_neg hno]
      obtain ⟨f', hf', hb', hsync⟩ := hb.synced f hfile
      refine ⟨hb.opts ▸ h.mode, ⟨f', hb.active ▸ hf', ?_⟩, fun a ha hfa => ?_⟩
      · rcases hsync with hsync | hsync
        · rw [hb', hsync]
          exact hlen
        · exact hsync.ge
      · show a.stop ≤ s'.active.size
        rw [hb.active]
        exact h.stops a ha (hb.active ▸ hfa)
    | wrote hg hs hw hok =>
      have hok : op.refusal s.liveMap = none := hok
      rw [if_pos ⟨hok, hg.ne_nil⟩]
      obtain ⟨_, b, b', _, hsize', hsplit, _, _, hplace⟩ := hw.place hwf
      obtain ⟨g, hg, hgs⟩ := hw.synced h.mode
      refine ⟨hw.appended.opts ▸ h.mode, ⟨g, hg, hgs.ge⟩, fun a ha hfa => ?_⟩
      rcases List.mem_append.mp ha with ha | ha
      · have hfa : a.file = s'.active.id := hfa
        show a.stop ≤ s'.active.size
        rcases hplace with ⟨hact, _, hsize⟩ | ⟨hact, _⟩
        · have hstop : a.stop ≤ s.active.size := h.stops a ha (hfa.trans hact)
          rw [← hsize', hsplit, List.length_append]
          omega
        · have hle : a.file ≤ s.active.id := hj.files a ha
          obtain ⟨c, hc, _⟩ := hwf.active
          have := hwf.fresh _ c hc
          omega
      · rw [List.mem_singleton.mp ha]
    | compacted hc =>
      rw [if_neg fun hc => hc.2 rfl]
      obtain ⟨g, hg, hnil⟩ := hc.empty
      refine ⟨hc.opts ▸ h.mode, ⟨g, hg, by rw [hnil]; exact Nat.zero_le _⟩, fun a ha hfa => ?_⟩
      have hle : a.file ≤ s.active.id := hj.files a ha
      rcases hc.active with ⟨hact, _⟩ | hact
      · show a.stop ≤ s'.active.size
        rw [hact]
        exact h.stops a ha (hfa.trans (by rw [← hact]))
      · obtain ⟨c, hc, _⟩ := hwf.active
        have := hwf.fresh _ c hc
        have hact : s'.active.id = s.nextID := hact
        have hfa : a.file = s'.active.id := hfa
        omega
    | reopened hr =>
      rw [if_neg fun hc => hc.2 rfl]
      obtain ⟨hbytes, hhints, _⟩ := hj.quiet.inv.toWf.close
      refine h.reopened hj (hbytes.trans (hwf.cutBytes_eq le_rfl).symm) le_rfl hhints ?_ hr he
      obtain ⟨s1, hs1, _, hb⟩ := Quiet.sync hj.quiet
      have hs1 : s.sync = (s1, none) := hs1
      obtain ⟨f', hf', hb', hsync⟩ := hb.synced f hfile
      rw [Store.close, hs1]
      refine ⟨f', hf', ?_⟩
      rcases hsync with hsync | hsync
      · rw [hb', hsync]
        exact hlen
      · exact hsync.ge
  | crash cut opts =>
    obtain ⟨hn, hall⟩ := h.keepsAll hj hf.1
    obtain ⟨s', hs', hr⟩ := hwf.open_crashed cut opts hf.2
    have hall : log.filter (·.survives s.active.id cut) = log := hall
    simp only [Journal.step, hs', hall]
    have hsize := hwf.size_eq hfile
    have hn : s.active.size ≤ cut := hn
    refine h.reopened hj (bytes_crashed s cut) hn rfl ⟨⟨f.bytes.take cut, min f.synced cut⟩, ?_, ?_⟩ hr he
    · rw [Store.crashed, Dir.truncate, Std.ExtTreeMap.getElem?_alter]
      simp [hfile]
    · show (f.bytes.take cut).length ≤ min f.synced cut
      rw [List.length_take]
      omega

theorem journaled_init (opts : Options) : Journaled ⟨Store.init opts, []⟩ := by
  obtain ⟨hq, hmap⟩ := quiet_init opts
  refine .of_empty hq rfl (fun a ha => absurd ha List.not_mem_nil) (fun i b hb hlt => ?_) fun n => hmap
  have hne : i ≠ 0 := Nat.ne_of_gt hlt
  rw [Dir.bytes, Store.init, Std.ExtTreeMap.getElem?_insert, if_neg (by simpa using hne.symm)] at hb
  simp at hb

omit [Checksum] in
theorem durable_init {opts : Options} (h : opts.syncMode = .always) : Durable ⟨Store.init opts, []⟩ :=
  ⟨(applyDefaults_syncMode opts).trans h, ⟨⟨[], 0⟩, Std.ExtTreeMap.getElem?_insert_self, le_rfl⟩,
    fun _ ha => absurd ha List.not_mem_nil⟩

/-- **Histories with crashes.** From an empty directory on, `Get` reads the map of the
operations whose appends lie before every cut that hit their file; every event is
answered from that map, `Open` after a crash included; appends resume behind whole
records; and where every session syncs every write, no crash loses an operation. -/
theorem crash_history (opts : Options) (es : List Event) (s : Store) (j : Journal)
    (hopen : openStore opts {} = .ok s) (hfits : journalMachine.Meets EventFits ⟨s, []⟩ es)
    (hrun : (journalMachine.run ⟨s, []⟩ es).1 = j) :
    (∀ key, Store.validateKey key = none → j.store.get key = answer (mapOf j.log key)) ∧
      (∀ e, EventFits j e → (j.step e).2 = e.refusal (mapOf j.log)) ∧
      (∃ recs, j.store.dir.bytes j.store.active.id = some (encodeAll recs) ∧
        (encodeAll recs).length = j.store.active.size) ∧
      (opts.syncMode = .always → (∀ e ∈ es, e.Always) → ∀ cut, j.store.synced ≤ cut →
        j.log.filter (·.survives j.store.active.id cut) = j.log) := by
  cases Except.ok.inj (hopen.symm.trans (openStore_empty opts))
  subst hrun
  have hj := hfits.invariant (P := Journaled) (fun j e h hf => (h.step hf).1) (journaled_init opts)
  refine ⟨fun key hk => ?_, fun e he => (hj.step he).2, ?_, fun hmode hall cut hcut => ?_⟩
  · rw [hj.quiet.inv.toWf.get_eq hk, hj.liveMap]
  · obtain ⟨b, hb, hsize, hi, _⟩ := hj.quiet.inv.active
    exact ⟨records b, by rw [hi]; exact hb, by rw [hi, hsize]⟩
  · have hd := (hfits.and hall).invariant (P := fun j => Journaled j ∧ Durable j)
      (fun j e h hf => ⟨(h.1.step hf.1).1, h.2.step h.1 hf.1 hf.2⟩) ⟨journaled_init opts, durable_init hmode⟩
    exact (hd.2.keepsAll hj hcut).2

/-! ### Past the width of the offsets, after a crash -/

theorem openStore_crashed_init :
    openStore ⟨0, .never⟩ ((Store.init ⟨0, .never⟩).crashed 0) = .ok (Store.init ⟨0, .never⟩) := rfl

theorem wide_crash (v : Bytes) (hv : v.length = 2 ^ 28 - 30) :
    ∃ s j, openStore ⟨0, .never⟩ {} = .ok s ∧ EventFits ⟨s, []⟩ (.crash 0 ⟨0, .never⟩) ∧
      (journalMachine.run ⟨s, []⟩ [.crash 0 ⟨0, .never⟩,
        .op (.batchPut 0 wideKeys (wideKeys.map fun _ => v))]) = (j, [none, none]) ∧
      j.store.get [16] = .error (.seqMismatch 17 1) ∧ mapOf j.log [16] = some v := by
  obtain ⟨s, hs, hget⟩ := wide_batchPut v hv
  have hcrash : journalMachine.step ⟨Store.init ⟨0, .never⟩, []⟩ (.crash 0 ⟨0, .never⟩) =
      (⟨Store.init ⟨0, .never⟩, []⟩, none) := by
    simp only [journalMachine, Journal.step, openStore_crashed_init, List.filter_nil]
  have hop : (Store.init ⟨0, .never⟩).apply (.batchPut 0 wideKeys (wideKeys.map fun _ => v)) = (s, none) := hs
  have hrecs : (Op.batchPut 0 wideKeys (wideKeys.map fun _ => v)).records ≠ [] := List.cons_ne_nil _ _
  have hput : journalMachine.step ⟨Store.init ⟨0, .never⟩, []⟩
      (.op (.batchPut 0 wideKeys (wideKeys.map fun _ => v))) =
        (⟨s, [⟨(Op.batchPut 0 wideKeys (wideKeys.map fun _ => v)).updates, s.active.id, s.active.size⟩]⟩, none) := by
    simp only [journalMachine, Journal.step, hop, ne_eq, hrecs, not_false_eq_true, and_self, if_true,
      List.nil_append]
  refine ⟨_, ⟨s, [⟨(Op.batchPut 0 wideKeys (wideKeys.map fun _ => v)).updates, s.active.id, s.active.size⟩]⟩,
    openStore_empty _, ?_, ?_, hget, rfl⟩
  · decide
  · simp only [Machine.run, hcrash, hput]

end Crash

/-- A write, a sync, a write that a crash cuts in two, and what is left. -/
theorem crash_history_run : ((journalMachine.run ⟨Store.init ⟨0, .never⟩, []⟩ [.op (.put 0 [1] [7]), .op .sync,
      .op (.put 0 [2] [8]), .crash 40 ⟨0, .never⟩]).1.store.get [1] = .ok [7]) ∧
    ((journalMachine.run ⟨Store.init ⟨0, .never⟩, []⟩ [.op (.put 0 [1] [7]), .op .sync,
      .op (.put 0 [2] [8]), .crash 40 ⟨0, .never⟩]).1.store.get [2] = .error .keyNotFound) := by
  have h := (crash_history ⟨0, .never⟩ [.op (.put 0 [1] [7]), .op .sync, .op (.put 0 [2] [8]),
    .crash 40 ⟨0, .never⟩] _ _ (openStore_empty _) (by decide +kernel) rfl).1
  exact ⟨(h [1] (by decide)).trans (by decide +kernel), (h [2] (by decide)).trans (by decide +kernel)⟩

/-- After a crash and `Open`, `Get` fails on a key whose `BatchPut` was acknowledged. -/
theorem crash_wideBatch_get :
    ∃ s j, openStore ⟨0, .never⟩ {} = .ok s ∧ EventFits ⟨s, []⟩ (.crash 0 ⟨0, .never⟩) ∧
      (journalMachine.run ⟨s, []⟩ [.crash 0 ⟨0, .never⟩,
        .op (.batchPut 0 wideKeys (wideKeys.map fun _ => wideValue))]) = (j, [none, none]) ∧
      j.store.get [16] = .error (.seqMismatch 17 1) ∧ mapOf j.log [16] = some wideValue :=
  wide_crash wideValue (by rw [wideValue, List.length_replicate])

end Gokv.Engine
