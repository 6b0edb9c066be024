import Gokv.Engine.Crash
import Gokv.Engine.Source
import Gokv.Engine.Replica

/-! What `RecordsSince` sends of a store that has crashed.

Recovery replays a file batch by batch and drops a batch that never completed;
`RecordsSince` scans the same bytes record by record. The two agree on a file that
ends with a complete write, and `Open` cuts the torn file back to its last one if
that file is the last by id. After a compaction it need not be, since the merged
files take their ids behind the active file: then the dropped records stay on disk
and are sent. `Mended` rules that out, and under it `streams_committed` says that
what is sent is what the store serves. -/
namespace Gokv.Engine
open Base

section Streamed
variable [Checksum]

/-- Every file ends with a complete write. -/
def Unbroken (s : Store) : Prop := ∀ i b, s.dir.bytes i = some b → Grouped (records b)

variable {s s' : Store} {q : UInt64}

theorem Unbroken.holds (h : Unbroken s) {i : Nat} {r : Record} :
    Holds .every s.dir.bytes i r ↔ Holds .committed s.dir.bytes i r := by
  constructor
  · rintro ⟨b, hb, hr⟩
    refine ⟨b, hb, ?_⟩
    show r ∈ committed id (records b)
    rw [show committed id (records b) = records b from (h i b hb).settled]
    exact hr
  · rintro ⟨b, hb, hr⟩
    exact ⟨b, hb, Reading.take_subset hr⟩

/-- Over unbroken files the invariant counts every record. -/
theorem Inv.every {pend : Pending} {gone : List Nat} (h : Inv .committed s pend gone) (hu : Unbroken s) :
    Inv .every s pend gone :=
  {h.toWf.every with
    covers := fun i r hr hi => h.covers i r (hu.holds.mp hr) hi
    agree := fun i j r r' hr hr' => h.agree i j r r' (hu.holds.mp hr) (hu.holds.mp hr') }

/-- **The newest record sent** of a key carries what the store shows of it. -/
theorem Inv.newest_since (h : Inv .every s [] []) {k : Bytes} {x : Nat × Option Bytes}
    (hx : Newest.offerAll (fun _ => none) ((s.since q).map Record.version) k = some x) : x.2 = s.liveMap k := by
  have hindex := Newest.indexes_offerAll ((s.since q).map Record.version)
  obtain ⟨r, hr, heq⟩ := List.mem_map.mp (hindex.sound k x hx)
  simp only [Record.version, Prod.mk.injEq] at heq
  obtain ⟨rfl, rfl⟩ := heq
  obtain ⟨⟨i, hi⟩, hlt⟩ := h.mem_since.mp hr
  refine (h.liveMap_newest hi fun j r' hr' hk => ?_).symm
  by_cases hle : r'.seq ≤ q
  · exact UInt64.le_trans hle (UInt64.le_of_lt hlt)
  · have hmem := h.mem_since.mpr ⟨⟨j, hr'⟩, UInt64.not_le.mp hle⟩
    obtain ⟨y, hy, hley⟩ := hindex.covers r.key (r'.seq.toNat, r'.payload)
      (List.mem_map.mpr ⟨r', hmem, by rw [Record.version, hk]⟩)
    rw [hx] at hy
    cases hy
    exact UInt64.le_iff_toNat_le.mpr hley

/-! ### Histories with crashes -/

/-- A step the widths hold; a crash strikes while the active file is the last by id,
or leaves no part of a batch at the end of it. -/
def Mended (j : Journal) : Event → Prop
  | .op op => Fits j.store op
  | .crash cut _ => j.store.nextID + 1 < 2 ^ 32 ∧
    ((∀ i ∈ j.store.dir.data.keys, i ≤ j.store.active.id) ∨
      Settled id (records (((j.store.dir.bytes j.store.active.id).getD []).take cut)))

instance decidableMended (j : Journal) : (e : Event) → Decidable (Mended j e)
  | .op op => inferInstanceAs (Decidable (Fits j.store op))
  | .crash _ _ => inferInstanceAs (Decidable (_ ∧ (_ ∨ committed _ _ = _)))

omit [Checksum] in
theorem Tidy.grouped {rs : List Record} (h : Tidy rs) (hs : Settled id rs) : Grouped rs := by
  obtain ⟨g, tail, rfl, hg, htail⟩ := h
  have hcommit : g = g ++ tail := (committed_of_grouped_open hg htail).symm.trans hs
  exact hcommit ▸ hg

/-- **A mended crash** leaves every file with a complete write at its end. -/
theorem Unbroken.crashed (h : Unbroken s) (hq : Quiet s) {cut : Nat} {opts : Options}
    (hm : (∀ i ∈ s.dir.data.keys, i ≤ s.active.id) ∨
      Settled id (records (((s.dir.bytes s.active.id).getD []).take cut)))
    (hr : Reopened .committed opts (s.crashed cut) s') : Unbroken s' := by
  have hok := hq.inv.toWf.cut_ok (bytes_crashed s cut) (d := s.crashed cut) rfl
  intro i b' hb'
  cases hc : (s.crashed cut).bytes i with
  | none =>
    rcases hr.bytes_none hc with hnone | ⟨-, hnil⟩
    · rw [hnone] at hb'
      cases hb'
    · rw [hnil] at hb'
      cases hb'
      exact .nil
  | some c =>
    have htidy : Tidy (records c) := hok.tidy i c hc
    -- A file that is whole before `Open` is whole after it.
    have hwhole (hg : Grouped (records c)) : Grouped (records b') := by
      obtain ⟨b, hb, rfl | ⟨-, htrim⟩⟩ := hr.bytes hc
      · cases Option.some.inj (hb.symm.trans hb')
        exact hg
      · cases Option.some.inj (hb.symm.trans hb')
        exact htrim.grouped htidy
    rcases cutBytes_some (bytes_crashed s cut ▸ hc) with ⟨rfl, b, hb, rfl⟩ | ⟨-, hb⟩
    · rcases hm with htop | hs
      · have hno : s.active.id ∉ (s.crashed cut).hints := fun hin => hq.inv.noHint (.inl hin)
        obtain ⟨b, hb, htrim⟩ := hr.last _ _ hc hno fun i c hi => by
          rcases cutBytes_some (bytes_crashed s cut ▸ hi) with ⟨rfl, -⟩ | ⟨-, hi⟩
          · exact le_rfl
          · exact htop i (Std.ExtTreeMap.mem_keys.mpr (Dir.mem_data.mpr ⟨c, hi⟩))
        cases Option.some.inj (hb.symm.trans hb')
        exact htrim.grouped htidy
      · rw [hb, Option.getD_some] at hs
        exact hwhole (htidy.grouped hs)
    · exact hwhole (h i c hb)

theorem Unbroken.step {j : Journal} {e : Event} (h : Quiet j.store ∧ Unbroken j.store) (hm : Mended j e) :
    Quiet (j.step e).1.store ∧ Unbroken (j.step e).1.store := by
  obtain ⟨hq, hu⟩ := h
  cases e with
  | op op =>
    obtain ⟨s', hs', hdone⟩ := hq.apply hm
    have hstore : (j.step (.op op)).1.store = s' := by
      rw [Journal.step, hs']
      split <;> rfl
    rw [hstore]
    exact ⟨hdone.quiet, hdone.effect.whole hq hdone.quiet hu⟩
  | crash cut opts =>
    obtain ⟨hid, hmend⟩ := hm
    obtain ⟨s', hs', hr⟩ := hq.inv.toWf.open_crashed cut opts hid
    have hstore : (j.step (.crash cut opts)).1.store = s' := by
      simp only [Journal.step, hs']
    rw [hstore]
    exact ⟨hq.reopenCut (bytes_crashed j.store cut) rfl hr, hu.crashed hq hmend hr⟩

omit [Checksum] in
/-- A fresh store has written nothing. -/
theorem bytes_init {opts : Options} {i : Nat} {b : Bytes} (h : (Store.init opts).dir.bytes i = some b) : b = [] := by
  rw [Dir.bytes, Store.init, Std.ExtTreeMap.getElem?_insert] at h
  split at h
  · exact (Option.some.inj h).symm
  · simp at h

theorem unbroken_init (opts : Options) : Unbroken (Store.init opts) := by
  intro i b hb
  rw [bytes_init hb]
  exact .nil

/-- **What is sent is served.** After any history whose crashes are mended,
`RecordsSince` sends only records that recovery keeps. A replica they are applied to
shows of every key it was sent what the store shows, and of the others what it showed. -/
theorem streams_committed (opts : Options) (es : List Event) (s : Store) (j : Journal)
    (hopen : openStore opts {} = .ok s) (hmend : journalMachine.Meets Mended ⟨s, []⟩ es)
    (hrun : (journalMachine.run ⟨s, []⟩ es).1 = j) (q : UInt64) (raws : List Bytes)
    (hraws : j.store.recordsSince q = .ok raws) :
    ∃ recs : List Record, raws = recs.map Record.encode ∧ (∀ r ∈ recs, ∃ i, Holds .committed j.store.dir.bytes i r) ∧
      ∀ f : Store, Wf .every f [] → (∀ (k : Bytes) (e : Entry), f.keys[k]? = some e → e.seq ≤ q) →
        f.nextID + raws.length < 2 ^ 32 →
        ∃ f', f.applyAll raws = (f', none) ∧ (∀ r ∈ recs, f'.liveMap r.key = j.store.liveMap r.key) ∧
          ∀ k, (∀ r ∈ recs, r.key ≠ k) → f'.liveMap k = f.liveMap k := by
  cases Except.ok.inj (hopen.symm.trans (openStore_empty opts))
  subst hrun
  obtain ⟨hq, hu⟩ := hmend.invariant (P := fun j => Quiet j.store ∧ Unbroken j.store)
    (fun j e h hm => Unbroken.step h hm) ⟨(quiet_init opts).1, unbroken_init opts⟩
  set l := (journalMachine.run ⟨Store.init opts, []⟩ es).1.store
  have hinv := hq.inv.every hu
  rw [recordsSince_eq] at hraws
  split at hraws
  · cases hraws
  cases hraws
  refine ⟨l.since q, rfl, fun r hr => ?_, fun f hf hentries hid => ?_⟩
  · obtain ⟨⟨i, hi⟩, -⟩ := hinv.mem_since.mp hr
    exact ⟨i, hu.holds.mp hi⟩
  · have hsized : ∀ r ∈ l.since q, r.Sized := fun r hr => by
      obtain ⟨⟨i, hi⟩, -⟩ := hinv.mem_since.mp hr
      exact hi.sized
    rw [List.length_map] at hid
    obtain ⟨f', hall, hrec⟩ := hf.applySingly hsized hid
    have hview := hrec.above hentries fun r hr => (hinv.mem_since.mp hr).2
    have hindex := Newest.indexes_offerAll ((l.since q).map Record.version)
    refine ⟨f', hall, fun r hr => ?_, fun k hk => ?_⟩
    · obtain ⟨x, hx, -⟩ := hindex.covers r.key (r.seq.toNat, r.payload) (List.mem_map.mpr ⟨r, hr, rfl⟩)
      rw [Store.liveMap, Newest.live, hview, hx]
      exact hinv.newest_since hx
    · have hnone : Newest.offerAll (fun _ => none) ((l.since q).map Record.version) k = none := by
        cases hx : Newest.offerAll (fun _ => none) ((l.since q).map Record.version) k with
        | none => rfl
        | some x =>
          obtain ⟨r, hr, heq⟩ := List.mem_map.mp (hindex.sound k x hx)
          exact absurd (congrArg Prod.fst heq) (hk r hr)
      rw [Store.liveMap, Newest.live, hview, hnone]
      rfl

end Streamed

/-- The batch a crash tears in the only file is cut off and not sent; a replica is
fed what came before it. -/
theorem streams_committed_run : ∃ f', (Store.init ⟨0, .never⟩).applyAll [Record.encode ⟨0, 1, 0, [1], [7]⟩] =
    (f', none) ∧
    ∃ recs : List Record, [Record.encode ⟨0, 1, 0, [1], [7]⟩] = recs.map Record.encode ∧
      ∀ r ∈ recs, f'.liveMap r.key = (journalMachine.run ⟨Store.init ⟨0, .never⟩, []⟩ [.op (.put 0 [1] [7]),
        .op (.batchPut 0 [[2], [3]] [[8], [9]]), .crash 62 ⟨0, .never⟩]).1.store.liveMap r.key := by
  obtain ⟨recs, hraws, -, hfed⟩ := streams_committed ⟨0, .never⟩ [.op (.put 0 [1] [7]),
    .op (.batchPut 0 [[2], [3]] [[8], [9]]), .crash 62 ⟨0, .never⟩] _ _ (openStore_empty _) (by decide +kernel) rfl 0
    [Record.encode ⟨0, 1, 0, [1], [7]⟩] (by decide +kernel)
  have hempty : ∀ (k : Bytes) (e : Entry), (Store.init ⟨0, .never⟩).keys[k]? = some e → e.seq ≤ 0 :=
    fun k e he => by simp [Store.init] at he
  obtain ⟨f', hall, hkeys, -⟩ := hfed (Store.init ⟨0, .never⟩) (quiet_init _).1.inv.toWf.every hempty (by decide)
  exact ⟨f', hall, recs, hraws, hkeys⟩

/-- After a compaction the torn file is not the last: the part of the batch that
recovery dropped is sent, and its key is one the store does not have. -/
theorem torn_batch_sent :
    ∃ j, j = (journalMachine.run ⟨Store.init ⟨0, .never⟩, []⟩ [.op (.put 0 [1] [7]), .op .compact,
      .op (.batchPut 0 [[2], [3]] [[8], [9]]), .crash 31 ⟨0, .never⟩]) ∧ j.2 = [none, none, none, none] ∧
      j.1.store.recordsSince 1 = .ok [Record.encode ⟨0, 2, flagBatch, [2], [8]⟩] ∧
      j.1.store.get [2] = .error .keyNotFound ∧
      ((Store.init ⟨0, .never⟩).applyAll [Record.encode ⟨0, 2, flagBatch, [2], [8]⟩]).1.get [2] = .ok [8] :=
  ⟨_, rfl, by decide +kernel, by decide +kernel, by decide +kernel, by decide +kernel⟩

end Gokv.Engine
