import Gokv.Engine.Appending
import Gokv.Engine.Refinement

/-! Recovery and the layout of the files.

What `Open` makes of a directory is a matter of the records in it. How they are spread
over files, under which ids, how often, and which files have hints, shows in the locators
alone. One layout stands apart: a last file under the highest id there is, which may not
be appended to again, beside a file 0. The counter wraps, the fresh file of `Open` would
be file 0, and `Open` fails (`Stuck`).

`Laid` are the directories at hand; `open_layouts` compares any two with the same
records. -/
namespace Gokv.Engine
open Base

section Layouts
variable [Checksum] {d d' : Dir} {opts : Options}

/-! ### Opening a directory, whatever the ids -/

/-- The fresh file `Open` wants exists: the last file has the highest id and a hint, or is
full once its torn end is cut off, and the counter has wrapped to a file that is there. -/
def Stuck (opts : Options) (d : Dir) : Prop :=
  0 ∈ d.data ∧ 2 ^ 32 - 1 ∈ d.data ∧ (2 ^ 32 - 1 ∈ d.hints ∨
    ∀ b b', d.bytes (2 ^ 32 - 1) = some b → Trimmed b b' → opts.applyDefaults.limit ≤ b'.length)

/-- What `Open` finds. -/
structure Found (d : Dir) (s : Store) : Prop extends Sound s where
  recovers : ∀ k e, s.keys[k]? = some e → ∃ r, Located .every s.dir.bytes k e r ∧ Recovers d e.fileID r
  covers : ∀ id r, Recovers d id r → ∃ e, s.keys[r.key]? = some e ∧ r.seq ≤ e.seq
  seq_le : ∀ id b r, d.bytes id = some b → r ∈ records b → r.seq ≤ s.seq
  seq_mem : s.seq = 0 ∨ ∃ id b r, d.bytes id = some b ∧ r ∈ records b ∧ s.seq = r.seq

/-- The last file of the walk, and what became of it. -/
theorem Traversed.files_eq {ids : List Nat} {st : Recovery} (h : Traversed opts d ids st)
    (hids : ∀ id, id ∈ ids ↔ ∃ b, d.bytes id = some b) (id : Nat) :
    st.files[id]? = (st.dir.bytes id).map List.length := by
  by_cases hid : id ∈ ids
  · exact h.files id hid
  · rw [h.noFiles id hid]
    cases hb : d.bytes id with
    | some b => exact absurd ((hids id).mpr ⟨b, hb⟩) hid
    | none =>
      rw [h.kept.bytes_none hb]
      rfl

theorem Kept.mem_data (h : Kept d d') {id : Nat} : id ∈ d'.data ↔ id ∈ d.data := by
  rw [Std.ExtTreeMap.mem_iff_isSome_getElem?, Std.ExtTreeMap.mem_iff_isSome_getElem?]
  cases hf : d.data[id]? with
  | none => rw [h.absent id hf]
  | some f =>
    rcases h.same id f hf with hf' | ⟨-, b', -, hf'⟩
    · rw [hf']
    · rw [hf']
      rfl

/-- A walk ends without a file to append to and without an id for a fresh one exactly if
the directory is stuck. -/
theorem Traversed.stuck_iff {st : Recovery}
    (h : Traversed opts.applyDefaults (removeOrphanHints d) (listDataFiles d) st)
    (hids : ∀ id, id ∈ d.data → id < 2 ^ 32) : Stuck opts d ↔ st.reuseActive = none ∧ st.nextID ∈ st.dir.data := by
  have htrim {b : Bytes} (hb : d.bytes (2 ^ 32 - 1) = some b) (hlast : (listDataFiles d).getLast? = some (2 ^ 32 - 1))
      (hno : 2 ^ 32 - 1 ∉ d.hints) : ∃ b', st.dir.bytes (2 ^ 32 - 1) = some b' ∧ Trimmed b b' :=
    h.last _ hlast (fun hh => hno ((mem_hints_removeOrphanHints (Dir.mem_data.mpr ⟨b, hb⟩)).mp hh)) b hb
  constructor
  · rintro ⟨hzero, htop, hfull⟩
    obtain ⟨last, hlast, hle⟩ := le_last (listDataFiles_ascending d) (Std.ExtTreeMap.mem_keys.mpr htop)
    have hlt := hids last (Std.ExtTreeMap.mem_keys.mp (List.mem_of_getLast? hlast))
    obtain rfl : last = 2 ^ 32 - 1 := by omega
    obtain ⟨b, hb⟩ := Dir.mem_data.mp htop
    refine ⟨h.full.mpr fun id hid => ?_, ?_⟩
    · rw [hlast] at hid
      cases hid
      by_cases hno : 2 ^ 32 - 1 ∈ d.hints
      · exact .inl ((mem_hints_removeOrphanHints htop).mpr hno)
      · obtain ⟨b', hb', ht⟩ := htrim hb hlast hno
        refine .inr fun c hc => ?_
        rw [hb'] at hc
        cases hc
        exact hfull.resolve_left hno b b' hb ht
    · rw [h.nextID, hlast, h.kept.mem_data]
      exact hzero
  · rintro ⟨hnone, hnext⟩
    rw [h.kept.mem_data] at hnext
    have hnext : st.nextID ∈ d.data := hnext
    obtain ⟨last, hlast, hle⟩ := le_last (listDataFiles_ascending d) (Std.ExtTreeMap.mem_keys.mpr hnext)
    have hmem := Std.ExtTreeMap.mem_keys.mp (List.mem_of_getLast? hlast)
    have hlt := hids last hmem
    have hid : st.nextID = Store.succID last := by
      rw [h.nextID, hlast]
      rfl
    -- Behind any other last file the next id is free.
    obtain rfl : last = 2 ^ 32 - 1 := by
      by_contra hne
      have hsmall : last + 1 < 2 ^ 32 := by omega
      rw [hid, succID_eq hsmall] at hle
      omega
    refine ⟨by rwa [hid] at hnext, hmem, ?_⟩
    by_cases hno : 2 ^ 32 - 1 ∈ d.hints
    · exact .inl hno
    · refine .inr fun b b' hb ht => ?_
      obtain ⟨c, hc, htc⟩ := htrim hb hlast hno
      rw [ht.unique htc]
      refine (h.full.mp hnone _ hlast).elim (fun hh => ?_) fun hall => hall c hc
      exact absurd ((mem_hints_removeOrphanHints hmem).mp hh) hno

/-- **`Open` on a directory in order** fails exactly if it is stuck, and finds its records
otherwise. -/
theorem openStore_found (opts : Options) (hd : DirOk .every d) (hids : ∀ id, id ∈ d.data → id < 2 ^ 32) :
    Stuck opts d ∧ openStore opts d = .error .fileExists ∨
      ¬ Stuck opts d ∧ ∃ s, openStore opts d = .ok s ∧ Found d s := by
  have hd0 := hd.removeOrphans
  have hw := recoverFiles_traversed opts.applyDefaults hd0 (progress_start d)
    fun id hid => hids id (Std.ExtTreeMap.mem_keys.mp hid)
  have hfiles := hw.files_eq fun id => mem_listDataFiles
  have hseq := maxSeqAll_files d
  have hstuck := hw.stuck_iff hids
  set st := recoverFiles opts.applyDefaults (Recovery.start d) (listDataFiles (removeOrphanHints d)) with hst
  have hlocated {k : Bytes} {e : Entry} (he : st.keys[k]? = some e) :
      ∃ r, Located .every st.dir.bytes k e r ∧ Recovers d e.fileID r := by
    obtain ⟨r, hr, hrr⟩ := hw.kept.located hd0 hw.index he
    exact ⟨r, hr, recovers_removeOrphanHints.mp hrr⟩
  have hcovers : ∀ id r, Recovers d id r → ∃ e, st.keys[r.key]? = some e ∧ r.seq ≤ e.seq := fun id r hr =>
    covers_of_recovers hw.index (recovers_removeOrphanHints.mpr hr)
  have hmax : st.maxSeq = maxSeqAll 0 ((listDataFiles d).flatMap (recordsAt d)) := hw.maxSeq
  rw [← hmax] at hseq
  cases hreuse : st.reuseActive with
  | some df =>
    obtain ⟨hlast, hno, b, b', hb, htrim, hb', hsize⟩ := hw.reuse df hreuse
    refine .inr ⟨fun hs => ?_, _, openStore_reuse hreuse, ?_⟩
    · rw [(hstuck.mp hs).1] at hreuse
      cases hreuse
    · exact ⟨⟨⟨⟨b', hb', hsize, htrim.intact.1⟩, hfiles⟩, fun k e he => (hlocated he).imp fun r hr => hr.1⟩,
        fun k e he => hlocated he, hcovers, hseq.1, hseq.2⟩
  | none =>
    by_cases hm : st.nextID ∈ st.dir.data
    · exact .inl ⟨hstuck.mpr ⟨hreuse, hm⟩, openStore_blocked hreuse (openNewActive_exists hm)⟩
    · refine .inr ⟨fun hs => hm (hstuck.mp hs).2, (st.store opts.applyDefaults ⟨0, 0⟩).fresh.recountLocked, ?_, ?_⟩
      · exact openStore_create hreuse (openNewActive_fresh hm)
      · have hlocated' {k : Bytes} {e : Entry} (he : st.keys[k]? = some e) :
            ∃ r, Located .every (st.store opts.applyDefaults ⟨0, 0⟩).fresh.dir.bytes k e r ∧ Recovers d e.fileID r := by
          obtain ⟨r, hr, hrr⟩ := hlocated he
          rw [bytes_fresh]
          exact ⟨r, hr.create (bytes_nextID hm), hrr⟩
        exact ⟨⟨(poised_fresh hfiles).same rfl rfl rfl, fun k e he => (hlocated' he).imp fun r hr => hr.1⟩,
          fun k e he => hlocated' he, hcovers, hseq.1, hseq.2⟩

/-! ### Directories that differ in their layout -/

/-- The records of the directory, their batch flags aside. -/
def Dir.contents (d : Dir) : Set Record := {x | ∃ id r, Holds .every d.bytes id r ∧ x = r.lifted}

/-- Files of intact records whose batches end where they began, any of them with its hint;
copies of a record differ in their batch flags at most. -/
structure Laid (d : Dir) : Prop where
  ids : ∀ id, id ∈ d.data → id < 2 ^ 32
  sizes : ∀ id b, d.bytes id = some b → b.length < 2 ^ 63
  intact : ∀ id b, d.bytes id = some b → Intact b
  settled : ∀ id b, d.bytes id = some b → Settled (fun r => r) (records b)
  hints : ∀ id h b, d.hints[id]? = some h → d.bytes id = some b → h = buildHint id b
  agree : Set.InjOn Record.seq d.contents

theorem Laid.dirOk (h : Laid d) : DirOk .every d :=
  ⟨h.sizes, fun _ _ _ => trivial, fun id c b hc hb => ⟨h.hints id c b hc hb, trivial⟩⟩

/-- Hint or no hint, recovery takes every record. -/
theorem Laid.recovers_iff (h : Laid d) {id : Nat} {r : Record} : Recovers d id r ↔ Holds .every d.bytes id r := by
  rw [Recovers, Dir.reading]
  split
  · exact Iff.rfl
  · refine exists_congr fun b => and_congr_right fun hb => ?_
    have hall : Reading.take .committed (records b) = Reading.take .every (records b) := h.settled id b hb
    rw [hall]

/-- The index `Open` builds is one of the records, wherever they are. -/
theorem Laid.indexes {s : Store} (h : Laid d) (hs : Found d s) :
    Newest.Indexes (Record.version '' d.contents) s.view := by
  constructor
  · intro k x hx
    obtain ⟨e, he, rfl⟩ := Option.map_eq_some_iff.mp hx
    obtain ⟨r, hloc, hrec⟩ := hs.recovers k e he
    refine ⟨r.lifted, ⟨_, r, h.recovers_iff.mp hrec, rfl⟩, ?_⟩
    rw [Record.lifted_version, Record.version, hloc.key, hloc.seq, hloc.valueAt_eq]
  · rintro k x ⟨_, ⟨id, r, hr, rfl⟩, hx⟩
    rw [Record.lifted_version] at hx
    cases hx
    obtain ⟨e, he, hle⟩ := hs.covers id r (h.recovers_iff.mpr hr)
    exact ⟨(e.seq.toNat, valueAt s.dir e), by rw [Store.view, Index.versions, he]; rfl, UInt64.le_iff_toNat_le.mp hle⟩

theorem Found.le_seq {s : Store} (hs : Found d s) {r : Record} (hr : r ∈ d.contents) : r.seq ≤ s.seq := by
  obtain ⟨id, r, ⟨b, hb, hmem⟩, rfl⟩ := hr
  exact hs.seq_le id b r hb hmem

theorem Found.seq_cases {s : Store} (hs : Found d s) : s.seq = 0 ∨ ∃ r ∈ d.contents, s.seq = r.seq := by
  rcases hs.seq_mem with hz | ⟨id, b, r, hb, hmem, hr⟩
  · exact .inl hz
  · exact .inr ⟨r.lifted, ⟨id, r, ⟨b, hb, hmem⟩, rfl⟩, hr⟩

theorem Found.seq_le_of_contents {s s' : Store} (hs : Found d s) (hs' : Found d' s')
    (hsame : d.contents = d'.contents) : s.seq ≤ s'.seq := by
  rcases hs.seq_cases with hz | ⟨r, hr, hz⟩
  · rw [hz]
    exact UInt64.le_iff_toNat_le.mpr (Nat.zero_le _)
  · rw [hz]
    exact hs'.le_seq (hsame ▸ hr)

/-- **Recovery does not depend on the layout.** Of two directories with the same records,
however spread, numbered, repeated and hinted, `Open` makes stores with the same live map
and sequence number, if and only if neither is stuck. -/
theorem open_layouts (opts opts' : Options) (hd : Laid d) (hd' : Laid d') (hsame : d.contents = d'.contents) :
    (∃ s s', openStore opts d = .ok s ∧ openStore opts' d' = .ok s' ∧ s.liveMap = s'.liveMap ∧ s.seq = s'.seq) ↔
      ¬ Stuck opts d ∧ ¬ Stuck opts' d' := by
  rcases openStore_found opts hd.dirOk hd.ids with ⟨hstuck, herr⟩ | ⟨hfree, s, hs, hfound⟩
  · refine iff_of_false (fun ⟨s, _, hs, _⟩ => ?_) fun h => h.1 hstuck
    rw [herr] at hs
    cases hs
  rcases openStore_found opts' hd'.dirOk hd'.ids with ⟨hstuck, herr⟩ | ⟨hfree', s', hs', hfound'⟩
  · refine iff_of_false (fun ⟨_, s', _, hs', _⟩ => ?_) fun h => h.2 hstuck
    rw [herr] at hs'
    cases hs'
  refine iff_of_true ⟨s, s', hs, hs', ?_, ?_⟩ ⟨hfree, hfree'⟩
  · have hidx := hd'.indexes hfound'
    rw [← hsame] at hidx
    exact (hd.indexes hfound).live_eq (hidx.shows (agree_version hd.agree))
  · exact UInt64.le_antisymm (hfound.seq_le_of_contents hfound' hsame)
      (hfound'.seq_le_of_contents hfound hsame.symm)

/-! ### Copies of one record -/

theorem records_encode {r : Record} (h : r.Sized) : records r.encode = [r] := by
  have := records_encodeAll [r] fun x hx => List.mem_singleton.mp hx ▸ h
  rwa [encodeAll_cons, encodeAll_nil, List.append_nil] at this

/-- A directory whose files all hold the one record, outside any batch. -/
theorem laid_copies {r : Record} (hr : r.Sized) (hout : r.batch = false) (hids : ∀ id, id ∈ d.data → id < 2 ^ 32)
    (hcopy : ∀ id b, d.bytes id = some b → b = r.encode)
    (hhints : ∀ id h, d.hints[id]? = some h → h = buildHint id r.encode) (hex : ∃ id, d.bytes id = some r.encode) :
    Laid d ∧ d.contents = {r.lifted} := by
  have hone {x : Record} (hx : x ∈ d.contents) : x = r.lifted := by
    obtain ⟨id, y, ⟨b, hb, hmem⟩, rfl⟩ := hx
    rw [hcopy id b hb, records_encode hr] at hmem
    rw [List.mem_singleton.mp hmem]
  refine ⟨⟨hids, fun id b hb => ?_, fun id b hb => ?_, fun id b hb => ?_, fun id h b hh hb => ?_, ?_⟩, ?_⟩
  · have hlen := hr.lt
    rw [hcopy id b hb, r.length_encode]
    omega
  · rw [hcopy id b hb, Intact, records_encode hr, encodeAll_cons, encodeAll_nil, List.append_nil]
  · rw [hcopy id b hb, records_encode hr]
    exact settled_of_unbatched _ fun x hx => List.mem_singleton.mp hx ▸ hout
  · rw [hcopy id b hb]
    exact hhints id h hh
  · intro x hx y hy _
    rw [hone hx, hone hy]
  · obtain ⟨id, hb⟩ := hex
    refine Set.eq_singleton_iff_unique_mem.mpr ⟨⟨id, r, ⟨_, hb, ?_⟩, rfl⟩, fun x hx => hone hx⟩
    rw [records_encode hr]
    exact List.mem_singleton_self r

end Layouts

/-- The record of the directories below. -/
def solo : Record := ⟨0, 1, 0, [1], [7]⟩

/-- It stands in file 0. -/
def once : Dir := {data := (∅ : Std.ExtTreeMap Nat DiskFile compare).insert 0 ⟨solo.encode, 31⟩}

/-- It stands in file 0 and in the file of the highest id, which may have a hint. -/
def twice (hinted : Bool) : Dir :=
  { data := once.data.insert (2 ^ 32 - 1) ⟨solo.encode, 31⟩
    hints := if hinted then
        (∅ : Std.ExtTreeMap Nat Bytes compare).insert (2 ^ 32 - 1) (buildHint (2 ^ 32 - 1) solo.encode)
      else ∅ }

theorem laid_once : Laid once ∧ once.contents = {solo.lifted} := by
  refine laid_copies (r := solo) (by decide) (by decide) (fun id hid => ?_) (fun id b hb => ?_) (fun id h hh => ?_)
    ⟨0, by decide +kernel⟩
  · simp [once] at hid
    omega
  · simp only [Dir.bytes, once, Std.ExtTreeMap.getElem?_insert, Option.map_eq_some_iff] at hb
    grind
  · simp [once] at hh

theorem laid_twice (hinted : Bool) : Laid (twice hinted) ∧ (twice hinted).contents = {solo.lifted} := by
  refine laid_copies (r := solo) (by decide) (by decide) (fun id hid => ?_) (fun id b hb => ?_) (fun id h hh => ?_)
    ⟨0, by cases hinted <;> decide +kernel⟩
  · simp [twice, once] at hid
    omega
  · simp only [Dir.bytes, twice, once, Std.ExtTreeMap.getElem?_insert, Option.map_eq_some_iff] at hb
    grind
  · cases hinted with
    | false => simp [twice] at hh
    | true =>
      simp only [twice, if_true, Std.ExtTreeMap.getElem?_insert, Std.ExtTreeMap.getElem?_empty] at hh
      grind

/-- A copy under the highest id makes no difference as long as it may be appended to. -/
theorem open_layouts_copy : ∃ s s', openStore ⟨0, .never⟩ once = .ok s ∧ openStore ⟨0, .never⟩ (twice false) = .ok s' ∧
    s.liveMap = s'.liveMap ∧ s.seq = s'.seq := by
  refine (open_layouts ⟨0, .never⟩ ⟨0, .never⟩ laid_once.1 (laid_twice false).1
    (laid_once.2.trans (laid_twice false).2.symm)).mpr ⟨fun h => ?_, fun h => ?_⟩
  · exact absurd h.2.1 (by decide +kernel)
  · rcases h.2.2 with hh | hfull
    · exact absurd hh (by decide +kernel)
    · have := hfull solo.encode solo.encode (by decide +kernel)
        ⟨[solo], [], by decide +kernel, nofun, fun r hr => by cases hr; exact .inl rfl, by decide +kernel⟩
      exact absurd this (by decide +kernel)

/-- **A last file of the highest id with a hint.** The two directories have the same
record; the one opens, the other does not. -/
theorem open_stuck : Laid once ∧ Laid (twice true) ∧ once.contents = (twice true).contents ∧
    (openStore ⟨0, .never⟩ once).isOk = true ∧ openStore ⟨0, .never⟩ (twice true) = .error .fileExists := by
  refine ⟨laid_once.1, (laid_twice true).1, laid_once.2.trans (laid_twice true).2.symm, by decide +kernel, ?_⟩
  have hstuck : Stuck ⟨0, .never⟩ (twice true) := ⟨by decide +kernel, by decide +kernel, .inl (by decide +kernel)⟩
  rcases openStore_found ⟨0, .never⟩ (laid_twice true).1.dirOk (laid_twice true).1.ids with h | h
  · exact h.2
  · exact absurd hstuck h.1

end Gokv.Engine
