import Gokv.Engine.Convergence
import Gokv.Engine.Layouts
import Gokv.Engine.Restart

/-! A copy of a store.

A full resync empties a store and gives it the snapshot of another one, a record at a time.
The snapshot is one record for every live key, in key order and out of its batch
(`sent_iff`), so the copy shows what the source shows as soon as all records
have been taken in, and a scan of its files takes every one of them again when the copy is
reopened. Nothing is asked of the copy's past: `Loaded` says what its files hold from the
reset on. What can go wrong are the ids of its files, once the counter has wrapped
(`copy_iff`). -/
namespace Gokv.Engine
open Base

section Copy
variable [Checksum] {s t u : Store} {recs : List Record}

/-! ### The snapshot -/

omit [Checksum] in
theorem liveEntries_ascending (s : Store) :
    (s.liveEntries.map Prod.fst).Pairwise fun j k => compare j k = .lt := by
  have hsorted := Std.ExtTreeMap.ordered_keys_toList (t := s.keys)
  exact List.pairwise_map.mpr (hsorted.sublist List.filter_sublist)

/-- The record of a live entry, as another store can take it in. -/
structure Sent (x : Bytes × Entry) (r : Record) : Prop where
  sized : r.Sized
  key : r.key = x.1
  seq : r.seq = x.2.seq
  put : r.tombstone = false
  single : r.batch = false

/-- Entry by entry, the records read are the ones meant exactly if the locators lead to
them. -/
theorem sent_iff (xs : List (Bytes × Entry)) :
    (∃ recs : List Record, (xs.filterMap s.recordAt).map Record.encode = recs.map Record.encode ∧
        List.Forall₂ Sent xs recs) ↔ ∀ x ∈ xs, s.Leads x := by
  induction xs with
  | nil => exact iff_of_true ⟨[], rfl, .nil⟩ fun _ hx => absurd hx List.not_mem_nil
  | cons x rest ih =>
    rw [List.forall_mem_cons, ← ih]
    constructor
    · rintro ⟨_, heq, hall⟩
      obtain ⟨r, recs, hr, hrest, rfl⟩ := List.forall₂_cons_left_iff.mp hall
      cases hat : s.recordAt x with
      | none =>
        -- A record too few: none stands for this entry.
        rw [List.filterMap_cons_none hat] at heq
        have hlen := congrArg List.length heq
        have hle := List.length_filterMap_le s.recordAt rest
        have := hrest.length_eq
        simp only [List.length_map, List.length_cons] at hlen
        omega
      | some r' =>
        rw [List.filterMap_cons_some hat, List.map_cons, List.map_cons, List.cons.injEq] at heq
        refine ⟨?_, recs, heq.2, hrest⟩
        obtain ⟨r₀, hread, rfl⟩ : ∃ r₀, Store.readRecord s.dir x.2 = .ok r₀ ∧ r₀.lifted = r' := by
          rw [Store.recordAt] at hat
          cases hd : Store.readRecord s.dir x.2 with
          | error err =>
            rw [hd] at hat
            cases hat
          | ok r₀ =>
            rw [hd] at hat
            exact ⟨r₀, rfl, Option.some.inj hat⟩
        obtain ⟨buf, hbuf⟩ := decode_of_read hread
        have hsame : r = r₀.lifted := by
          have hd := decodeRecord_lifted hbuf
          rw [heq.1, decodeRecord_encode r hr.sized] at hd
          exact Except.ok.inj hd
        subst hsame
        exact ⟨r₀, hread, hr.sized, hr.key, hr.seq, r₀.lifted_tombstone ▸ hr.put⟩
    · rintro ⟨⟨r, hread, hs, hkey, hseq, hput⟩, recs, heq, hall⟩
      have hat : s.recordAt x = some r.lifted := by rw [Store.recordAt, hread]; rfl
      refine ⟨r.lifted :: recs, ?_, .cons ⟨hs.lifted, hkey, hseq, r.lifted_tombstone.trans hput, r.lifted_batch⟩ hall⟩
      rw [List.filterMap_cons_some hat, List.map_cons, List.map_cons, heq]

theorem single_snapshot (s : Store) : ∀ r ∈ s.snapshot, r.batch = false := by
  intro r hr
  obtain ⟨x, -, hat⟩ := List.mem_filterMap.mp hr
  obtain ⟨r', -, rfl⟩ := Option.map_eq_some_iff.mp hat
  exact r'.lifted_batch

/-- What `Get` answers where the locator of the key leads to a put under its number. -/
theorem get_eq_of_read (hfiles : ∀ id, s.files[id]? = (s.dir.bytes id).map List.length) {k : Bytes}
    (hk : Store.validateKey k = none)
    (h : ∀ e, s.lookup k = some e → ∃ r, Store.readRecord s.dir e = .ok r ∧ r.seq = e.seq ∧ r.tombstone = false) :
    s.get k = answer (s.shown k) := by
  rw [Store.get, hk]
  show s.getLoop k (3 + 1) = _
  rw [Store.getLoop, Store.shown]
  cases he : s.lookup k with
  | none => rfl
  | some e =>
    obtain ⟨r, hread, hseq, hput⟩ := h e he
    have hpay : r.payload = some r.value := by
      rw [Record.payload, hput]
      rfl
    have hopen : e.fileID ∈ s.files := by
      by_contra hno
      have hraw : s.readRaw e = none := by rw [Store.readRaw, if_pos hno]
      rw [readRaw_eq hfiles (k, e), Store.recordAt, hread] at hraw
      cases hraw
    have hval : s.readValue e = .ok r.value := by
      rw [Store.readValue, if_neg (not_not.mpr hopen)]
      simp only [hread, hseq, hput, ne_eq, not_true_eq_false, if_false, Bool.false_eq_true]
    simp only [hval, Option.bind_some, hread, Except.toOption, hpay, answer]

/-- What `Get` answers where the locators of the live keys lead to their records. -/
theorem get_eq_shown (hfiles : ∀ id, s.files[id]? = (s.dir.bytes id).map List.length)
    (h : ∀ x ∈ s.liveEntries, s.Leads x) {k : Bytes} (hk : Store.validateKey k = none) :
    s.get k = answer (s.shown k) := by
  refine get_eq_of_read hfiles hk fun e he => ?_
  obtain ⟨r, hread, -, -, hseq, hput⟩ := h (k, e) (mem_liveEntries.mpr he)
  exact ⟨r, hread, hseq, hput⟩

/-! ### Taking it in -/

/-- A store that holds the records and nothing else. -/
structure Loaded (u : Store) (recs : List Record) : Prop extends Sound u where
  running : u.closed = false
  view : u.view = Newest.offerAll (fun _ => none) (recs.map Record.version)
  holds : ∀ r, (∃ id, Holds .every u.dir.bytes id r) ↔ r ∈ recs
  sizes : ∀ id b, u.dir.bytes id = some b → b.length < 2 ^ 63
  ids : ∀ id, id ∈ u.dir.data → id < 2 ^ 32
  nextID : u.nextID < 2 ^ 32

theorem Grown.holds {s' : Store} (hg : Grown s s' recs) (h : Poised s) (hs : ∀ r ∈ recs, r.Sized) {i : Nat}
    {r : Record} :
    Holds .every s'.dir.bytes i r ↔ Holds .every s.dir.bytes i r ∨ i = s'.active.id ∧ r ∈ recs := by
  have hi := hg.intact h
  rw [hg.bytes]
  cases hb : s.dir.bytes s'.active.id with
  | some b =>
    rw [hb] at hi
    exact holds_append (ρ := .every) hb hi trivial hs trivial
  | none =>
    rw [Option.getD_none, ← Function.update_idem (a := s'.active.id) (v := some []),
      holds_append (ρ := .every) (Function.update_self ..) intact_nil trivial hs trivial, holds_create hb]

omit [Checksum] in
theorem succID_lt (id : Nat) : Store.succID id < 2 ^ 32 := Nat.mod_lt _ (by decide)

/-- **One record taken in**: it fails exactly if the write stalls. -/
theorem Loaded.applyRaw (h : Loaded u recs) {r : Record} (hr : r.Sized) :
    ((u.applyRaw r.encode).2.isOk = true ↔ ¬ u.Stalls r.encode.length) ∧
      ((u.applyRaw r.encode).2.isOk = true → Loaded (u.applyRaw r.encode).1 (recs ++ [r])) := by
  have hone : encodeAll [r] = r.encode := List.append_nil _
  have hs : ∀ x ∈ [r], x.Sized := fun x hx => List.mem_singleton.mp hx ▸ hr
  have hparse := parseRaw_encodeAll [r] hs (length_le_encodeAll _)
  rw [hone] at hparse
  have hok := h.toPoised.writeLocked_ok hs
  rw [hone] at hok
  have hopen : ¬ u.closed = true := by
    rw [h.running]
    exact Bool.false_ne_true
  have hfailed {s : Store} {e : Error} (hw : u.writeLocked [r] = (s, some e)) :
      u.applyRaw r.encode = (s, .error e) := by
    simp only [Store.applyRaw, hparse, if_neg hopen, hw]
  have hdone {s : Store} (hw : u.writeLocked [r] = (s, none)) : u.applyRaw r.encode =
      ({s with seq := if maxSeq [r] > s.seq then maxSeq [r] else s.seq}, .ok (maxSeq [r])) := by
    simp only [Store.applyRaw, hparse, if_neg hopen, hw]
  rcases h.toSound.writeLocked hs (addressable_single r) with ⟨u', hw, h', hg, hview⟩ | ⟨u', hw, -⟩
  · rw [hw] at hok
    rw [hdone hw]
    refine ⟨iff_of_true rfl (hok.mp rfl), fun _ => ?_⟩
    have hp := writeLocked_paced hw
    have hfile : ∀ id b, u'.dir.bytes id = some b → id = u'.active.id ∨ u.dir.bytes id = some b := by
      intro id b hb
      rw [hg.bytes] at hb
      exact (update_some hb).imp And.left And.right
    refine ⟨h'.same rfl rfl rfl rfl, hg.closed.trans h.running, ?_, fun x => ?_, fun id b hb => ?_,
      fun id hid => ?_, ?_⟩
    · show u'.view = _
      rw [hview, h.view, List.map_append, Newest.offerAll_append]
    · show (∃ id, Holds .every u'.dir.bytes id x) ↔ _
      simp only [hg.holds h.toPoised hs, exists_or, h.holds, List.mem_append, exists_eq_left]
    · show b.length < 2 ^ 63
      rcases hfile id b hb with rfl | hold
      · obtain ⟨c, hc, hsize, -⟩ := h'.active
        have hlen := r.length_encode
        have hlt := hr.lt
        have hlimit := limit_lt u.opts
        have hle := hp.size
        rw [hone] at hle
        rw [show u'.dir.bytes u'.active.id = some b from hb] at hc
        cases hc
        omega
      · exact h.sizes id b hold
    · obtain ⟨b, hb⟩ := Dir.mem_data.mp hid
      rcases hfile id b hb with rfl | hold
      · rcases hp.ids with ⟨hact, -⟩ | ⟨hact, -⟩
        · obtain ⟨c, hc, -⟩ := h.active
          rw [hact]
          exact h.ids _ (Dir.mem_data.mpr ⟨c, hc⟩)
        · rw [hact]
          exact h.nextID
      · exact h.ids id (Dir.mem_data.mpr ⟨b, hold⟩)
    · show u'.nextID < 2 ^ 32
      rcases hp.ids with ⟨-, hn⟩ | ⟨-, hn⟩
      · rw [hn]
        exact h.nextID
      · rw [hn]
        exact succID_lt _
  · rw [hw] at hok
    rw [hfailed hw]
    have hstall : ¬ ¬ u.Stalls r.encode.length := fun hno => by
      have := hok.mpr hno
      cases this
    exact ⟨iff_of_false (by simp [Except.isOk, Except.toBool]) hstall,
      fun hf => by simp [Except.isOk, Except.toBool] at hf⟩

/-- **All of them**, each in a call of its own. -/
theorem Loaded.applies (h : Loaded u recs) {more : List Record} (hs : ∀ r ∈ more, r.Sized) :
    ((∀ out ∈ (applyMachine.run u (more.map Record.encode)).2, out.isOk = true) ↔
        applyMachine.Meets (fun u raw => ¬ u.Stalls raw.length) u (more.map Record.encode)) ∧
      ((∀ out ∈ (applyMachine.run u (more.map Record.encode)).2, out.isOk = true) →
        Loaded (applyMachine.run u (more.map Record.encode)).1 (recs ++ more)) := by
  induction more generalizing u recs with
  | nil =>
    refine ⟨iff_of_true (fun _ hout => absurd hout List.not_mem_nil) trivial, fun _ => ?_⟩
    rw [List.append_nil]
    exact h
  | cons r rest ih =>
    obtain ⟨hiff, hload⟩ := h.applyRaw (hs r (List.mem_cons_self ..))
    rw [List.map_cons]
    show ((∀ out ∈ (u.applyRaw r.encode).2 :: (applyMachine.run (u.applyRaw r.encode).1 (rest.map Record.encode)).2,
        out.isOk = true) ↔ ¬ u.Stalls r.encode.length ∧
        applyMachine.Meets (fun u raw => ¬ u.Stalls raw.length) (u.applyRaw r.encode).1 (rest.map Record.encode)) ∧
      (_ → Loaded (applyMachine.run (u.applyRaw r.encode).1 (rest.map Record.encode)).1 (recs ++ r :: rest))
    rw [List.forall_mem_cons, ← hiff, show recs ++ r :: rest = recs ++ [r] ++ rest by simp]
    refine ⟨and_congr_right fun hok => ?_, fun hall => ?_⟩
    · exact (ih (hload hok) fun x hx => hs x (List.mem_cons_of_mem _ hx)).1
    · obtain ⟨hok, hrest⟩ := List.forall_mem_cons.mp hall
      exact (ih (hload hok) fun x hx => hs x (List.mem_cons_of_mem _ hx)).2 hrest

/-- **A store just emptied.** -/
theorem Poised.reset (h : Poised t) (hopen : t.closed = false) (hid : t.nextID < 2 ^ 32) :
    ∃ u, t.reset = (u, none) ∧ Loaded u [] := by
  have hgone := bytes_cleared h.files
  have hfree : t.cleared.nextID ∉ t.cleared.dir.data := fun hm => by
    obtain ⟨b, hb⟩ := Dir.mem_data.mp hm
    rw [hgone] at hb
    cases hb
  have hfiles : ∀ id, t.cleared.files[id]? = (t.cleared.dir.bytes id).map List.length := fun id => by
    rw [hgone]
    exact Std.ExtTreeMap.getElem?_empty
  have hbytes : t.cleared.fresh.dir.bytes = Function.update (fun _ => none) t.nextID (some []) := by
    rw [bytes_fresh, hgone]
    rfl
  have hempty {id : Nat} {b : Bytes} (hb : t.cleared.fresh.dir.bytes id = some b) : id = t.nextID ∧ b = [] := by
    rw [hbytes] at hb
    rcases update_some hb with ⟨rfl, rfl⟩ | ⟨-, hb⟩
    · exact ⟨rfl, rfl⟩
    · cases hb
  refine ⟨{t.cleared.fresh with dirty := false}, ?_, ?_⟩
  · rw [Store.reset, if_neg (by rw [hopen]; decide), openNewActive_fresh hfree]
  · refine ⟨⟨(poised_fresh hfiles).same rfl rfl rfl, fun k e he => ?_⟩, hopen, ?_, fun r => ?_, fun id b hb => ?_,
      fun id hm => ?_, succID_lt _⟩
    · simp [Store.fresh, Store.cleared] at he
    · funext k
      simp [Store.view, Index.versions, Store.fresh, Store.cleared, Newest.offerAll]
    · refine iff_of_false ?_ List.not_mem_nil
      rintro ⟨id, b, hb, hr⟩
      rw [(hempty hb).2] at hr
      cases hr
    · rw [(hempty hb).2]
      decide
    · obtain ⟨b, hb⟩ := Dir.mem_data.mp hm
      rw [(hempty hb).1]
      exact hid

/-! ### Opening it again -/

/-- The directory of a store that has been closed, without its hints. -/
def Store.closedBare (u : Store) : Dir := {u.close with hints := ∅}

omit [Checksum] in
/-- Closing a store syncs its active file, no more. -/
theorem Store.close_same {b : Bytes} (hb : u.dir.bytes u.active.id = some b) :
    u.close.bytes = u.dir.bytes ∧ u.close.hints = u.dir.hints := by
  rw [Store.close, Store.sync]
  cases u.dirty with
  | false => exact ⟨rfl, rfl⟩
  | true =>
    obtain ⟨d, hd, hbytes, hhints, -⟩ := Dir.sync_ok hb
    simp only [Bool.not_true, Bool.false_eq_true, if_false, hd]
    exact ⟨hbytes, hhints⟩

theorem Poised.bytes_close (h : Poised u) : u.close.bytes = u.dir.bytes := by
  obtain ⟨b, hb, -⟩ := h.active
  exact (Store.close_same hb).1

theorem Loaded.get_eq (h : Loaded u recs) {m : Bytes → Option Bytes}
    (hm : Newest.Shows {x | x ∈ recs.map Record.version} m) {k : Bytes} (hk : Store.validateKey k = none) :
    u.get k = answer (m k) := by
  rw [Store.get_eq_of_located hk h.files fun e he => h.located k e he, Store.liveMap, h.view,
    (Newest.indexes_offerAll _).live_eq hm]

/-- **A loaded store opens again** exactly if it is not stuck, and shows the same. -/
theorem Loaded.reopen (h : Loaded u recs) (hb : ∀ r ∈ recs, r.batch = false) (opts : Options)
    {m : Bytes → Option Bytes} (hm : Newest.Shows {x | x ∈ recs.map Record.version} m) :
    (Stuck opts u.closedBare ∧ openStore opts u.closedBare = .error .fileExists) ∨
      ¬ Stuck opts u.closedBare ∧ ∃ s, openStore opts u.closedBare = .ok s ∧
        ∀ k, Store.validateKey k = none → s.get k = answer (m k) := by
  have hbytes : u.closedBare.bytes = u.dir.bytes := h.toPoised.bytes_close
  have hd : DirOk .every u.closedBare := ⟨fun id b hb => h.sizes id b (hbytes ▸ hb), fun _ _ _ => trivial,
    fun id c b hc _ => by simp [Store.closedBare] at hc⟩
  have hids : ∀ id, id ∈ u.closedBare.data → id < 2 ^ 32 := fun id hid => by
    obtain ⟨b, hb⟩ := Dir.mem_data.mp hid
    exact h.ids id (Dir.mem_data.mpr ⟨b, hbytes ▸ hb⟩)
  have hrecovers {r : Record} : (∃ id, Recovers u.closedBare id r) ↔ r ∈ recs := by
    constructor
    · rintro ⟨id, hr⟩
      exact (h.holds r).mp ⟨id, hbytes ▸ hr.holds⟩
    · intro hr
      obtain ⟨id, hid⟩ := (h.holds r).mpr hr
      exact ⟨id, recovers_of_single (hbytes.symm ▸ hid) (hb r hr)⟩
  refine (openStore_found opts hd hids).imp id fun ⟨hfree, s, hs, hfound⟩ => ⟨hfree, s, hs, fun k hk => ?_⟩
  rw [Store.get_eq_of_located hk hfound.files fun e he => hfound.located k e he]
  refine congrArg (fun m => answer (m k)) (Newest.Indexes.live_eq ⟨fun k x hx => ?_, fun k x hx => ?_⟩ hm)
  · obtain ⟨e, he, rfl⟩ := Option.map_eq_some_iff.mp hx
    obtain ⟨r, hloc, hrec⟩ := hfound.recovers k e he
    refine List.mem_map.mpr ⟨r, hrecovers.mp ⟨_, hrec⟩, ?_⟩
    rw [Record.version, hloc.key, hloc.seq, hloc.valueAt_eq]
  · obtain ⟨r, hr, hrx⟩ := List.mem_map.mp hx
    cases hrx
    obtain ⟨id, hrec⟩ := hrecovers.mpr hr
    obtain ⟨e, he, hle⟩ := hfound.covers id r hrec
    exact ⟨(e.seq.toNat, valueAt s.dir e), by rw [Store.view, Index.versions, he]; rfl,
      UInt64.le_iff_toNat_le.mp hle⟩

/-- A key outside the limits is refused by every store. -/
theorem get_congr {s' : Store} (h : ∀ k, Store.validateKey k = none → s'.get k = s.get k) (k : Bytes) :
    s'.get k = s.get k := by
  cases hk : Store.validateKey k with
  | none => exact h k hk
  | some e => rw [Store.get, Store.get, hk]

/-- **A copy of a store.** The source sends exactly one record for every live key, in ascending
order and outside any batch; given one at a time to a store just emptied they are all taken
in, the copy answers as the source does, and answers the same when it is closed and opened
without its hints. This is so exactly if the locators of the live keys lead to their records,
no call needs a new file under an id that is taken, and `Open` does not either. -/
theorem copy_iff (hs : ∀ id, s.files[id]? = (s.dir.bytes id).map List.length) (ht : Poised t)
    (hopen : t.closed = false) (hid : t.nextID < 2 ^ 32) (opts : Options) :
    let u := t.reset.1
    let sent := s.snapshotRecords
    let copy := (applyMachine.run u sent).1
    (s.liveEntries.map Prod.fst).Pairwise (fun j k => compare j k = .lt) ∧
    (((∃ recs : List Record, sent = recs.map Record.encode ∧ List.Forall₂ Sent s.liveEntries recs) ∧
        (∀ out ∈ (applyMachine.run u sent).2, out.isOk = true) ∧ (∀ k, copy.get k = s.get k) ∧
        ∃ s', openStore opts copy.closedBare = .ok s' ∧ ∀ k, s'.get k = s.get k) ↔
      (∀ x ∈ s.liveEntries, s.Leads x) ∧ applyMachine.Meets (fun u raw => ¬ u.Stalls raw.length) u sent ∧
        ¬ Stuck opts copy.closedBare) := by
  intro u sent copy
  refine ⟨liveEntries_ascending s, ?_⟩
  have hsent : sent = s.snapshot.map Record.encode := snapshotRecords_eq hs
  have hfirst : (∃ recs : List Record, sent = recs.map Record.encode ∧ List.Forall₂ Sent s.liveEntries recs) ↔
      ∀ x ∈ s.liveEntries, s.Leads x := by
    rw [hsent]
    exact sent_iff s.liveEntries
  rw [hfirst]
  refine and_congr_right fun hleads => ?_
  obtain ⟨u', hreset, hload⟩ := ht.reset hopen hid
  have hu : u = u' := congrArg Prod.fst hreset
  obtain ⟨hiff, hdone⟩ := hload.applies (sized_snapshot hleads)
  rw [← hu, ← hsent] at hiff hdone
  rw [← hiff]
  refine and_congr_right fun hall => ?_
  have hcopy : Loaded copy s.snapshot := hdone hall
  have hshows := snapshot_shows hleads
  have hgets : ∀ k, copy.get k = s.get k :=
    get_congr fun k hk => (hcopy.get_eq hshows hk).trans (get_eq_shown hs hleads hk).symm
  rcases hcopy.reopen (single_snapshot s) opts hshows with ⟨hstuck, herr⟩ | ⟨hfree, s', hs', hget⟩
  · refine iff_of_false (fun ⟨_, s', hs', _⟩ => ?_) (not_not.mpr hstuck)
    rw [herr] at hs'
    cases hs'
  · refine iff_of_true ⟨hgets, s', hs', get_congr fun k hk => ?_⟩ hfree
    exact (hget k hk).trans (get_eq_shown hs hleads hk).symm

end Copy

/-- A store emptied and loaded with one key, overwritten and outlived by another. -/
def twoKeys : Store :=
  (applyMachine.run (Store.init ⟨0, .never⟩).reset.1
    ([⟨0, 1, 2, [2], [7]⟩, ⟨0, 2, 6, [1], [8]⟩, ⟨0, 3, 0, [2], [9]⟩].map Record.encode)).1

theorem loaded_twoKeys :
    Loaded twoKeys [⟨0, 1, 2, [2], [7]⟩, ⟨0, 2, 6, [1], [8]⟩, ⟨0, 3, 0, [2], [9]⟩] := by
  obtain ⟨u, hu, hload⟩ := (sound_init ⟨0, .never⟩).toPoised.reset rfl (by decide)
  have hs : ∀ r ∈ [(⟨0, 1, 2, [2], [7]⟩ : Record), ⟨0, 2, 6, [1], [8]⟩, ⟨0, 3, 0, [2], [9]⟩], r.Sized := by decide
  have hdone := (hload.applies hs).2
  rw [show u = (Store.init ⟨0, .never⟩).reset.1 from (congrArg Prod.fst hu).symm] at hdone
  exact hdone (by decide +kernel)

theorem copy_iff_twoKeys :
    let copy := (applyMachine.run (Store.init ⟨10, .never⟩).reset.1 twoKeys.snapshotRecords).1
    (∀ k, copy.get k = twoKeys.get k) ∧
      ∃ s, openStore ⟨10, .never⟩ copy.closedBare = .ok s ∧ ∀ k, s.get k = twoKeys.get k := by
  have hload := loaded_twoKeys
  have hread : Readable .every twoKeys := ⟨hload.files, hload.located⟩
  have hfree : ¬ Stuck ⟨10, .never⟩ (applyMachine.run
      (Store.init ⟨10, .never⟩).reset.1 twoKeys.snapshotRecords).1.closedBare :=
    fun h => absurd h.2.1 (by decide +kernel)
  exact ((copy_iff hload.files (sound_init ⟨10, .never⟩).toPoised rfl (by decide) ⟨10, .never⟩).2.mpr
    ⟨hread.leads, by decide +kernel, hfree⟩).2.2

/-- A directory whose one file has the highest id but one. -/
def topFile : Dir := {data := (∅ : Std.ExtTreeMap Nat DiskFile compare).insert (2 ^ 32 - 2) ⟨[], 0⟩}

/-- The target is opened on it, so that its counter stands at the highest id: the copy takes in both
records, in the files of the highest id and of id 0, and then cannot be opened. -/
theorem copy_wraps :
    twoKeys.snapshotRecords = [Record.encode ⟨0, 2, 0, [1], [8]⟩, Record.encode ⟨0, 3, 0, [2], [9]⟩] ∧
      (openStore ⟨10, .never⟩ topFile).toOption.map (fun t : Store =>
        let copying := applyMachine.run t.reset.1 twoKeys.snapshotRecords
        (copying.2.map Except.isOk, (copying.1.get [1]).toOption, (copying.1.get [2]).toOption, copying.1.files.keys,
          (openStore ⟨10, .never⟩ copying.1.closedBare).isOk)) =
        some ([true, true], some [8], some [9], [0, 2 ^ 32 - 1], false) := by
  decide +kernel

end Gokv.Engine
