import Gokv.Engine.Ledger

/-! A first batch of any size, and its compaction.

The records of the first batch of a store are the bytes of its first file, and every locator is
the place of its record in 32 bits. Behind 4 GiB a locator leads back to the front of the file,
to whatever stands there. `First.compact` says that `Compact` takes what the locators read. -/
namespace Gokv.Engine
open Base

section Wide
variable [Checksum] {s : Store} {recs : List Record}

/-- The locator of a record behind `before`. -/
def wrapped (before : List Record) (r : Record) : Entry :=
  ⟨(encodeAll before).length % 2 ^ 32, r.seq, 0, encodedSize r.key.length r.value.length, r.tombstone⟩

/-- A store with one batch in it. -/
structure First (s : Store) (opts : Options) (recs : List Record) : Prop where
  ledger : Ledger s
  bytes : s.dir.bytes = Function.update (fun _ => none) 0 (some (encodeAll recs))
  hints : s.dir.hints = ∅
  keys : s.keys = (∅ : Index).installAll (Store.writeEntries 0 0 recs (Store.writeBuffer [] recs).2)
  active : s.active = ⟨0, (encodeAll recs).length⟩
  nextID : s.nextID = 1
  opts : s.opts = opts.applyDefaults
  closed : s.closed = false

theorem ledger_init (opts : Options) : Ledger (Store.init opts) :=
  ledger_open (fun id hint hi => by simp at hi) (openStore_empty opts)

theorem first_write (opts : Options) (hsync : opts.syncMode = .never) (q : UInt64) (hs : ∀ r ∈ recs, r.Sized) :
    ∃ s, Store.writeLocked {Store.init opts with seq := q} recs = (s, none) ∧ First s opts recs := by
  have hledger : Ledger {Store.init opts with seq := q} := (ledger_init opts).congr rfl rfl rfl rfl rfl rfl rfl rfl
  have hwritten := hledger.writeLocked hs
  have hmode : ¬ (Store.init opts).opts.syncMode = .always := by
    show ¬ opts.applyDefaults.syncMode = .always
    rw [applyDefaults_syncMode, hsync]
    decide
  have hinit : (Store.init opts).dir.bytes = Function.update (fun _ : Nat => none) 0 (some []) := by
    have hempty : ({} : Dir).bytes = fun _ => none := funext fun id => by simp [Dir.bytes]
    rw [← hempty]
    exact Dir.bytes_insert {} 0 ⟨[], 0⟩
  have hfile : (Store.init opts).dir.bytes 0 = some [] := by rw [hinit, Function.update_self]
  obtain ⟨d, hd, hbytes, hhints, -⟩ := Dir.writeAt_end hfile (encodeAll recs)
  have hbuf : Store.writeBuffer [] recs = (encodeAll recs, (Store.writeBuffer [] recs).2) := by
    rw [writeBuffer_eq, List.nil_append]
  have hrot (n : Nat) : Store.maybeRotateLocked {Store.init opts with seq := q} n =
      ({Store.init opts with seq := q}, none) :=
    if_pos (.inl rfl)
  have hd' : (Store.init opts).dir.writeAt (Store.init opts).active.id (Store.init opts).active.size
      (encodeAll recs) = .ok d := hd
  have hlog : Store.logWrite {Store.init opts with seq := q} recs =
      (Store.filled {Store.init opts with seq := q} d (encodeAll recs).length true,
        .ok (Store.writeEntries 0 0 recs (Store.writeBuffer [] recs).2)) := by
    rw [Store.logWrite, hbuf]
    simp only [hrot, hd', if_neg hmode]
    rfl
  have heq : Store.writeLocked {Store.init opts with seq := q} recs =
      ((Store.filled {Store.init opts with seq := q} d (encodeAll recs).length true).indexWrite
        (Store.writeEntries 0 0 recs (Store.writeBuffer [] recs).2), none) := by
    rw [Store.writeLocked, hlog]
  rw [heq] at hwritten ⊢
  obtain ⟨l, n, hidx⟩ := indexWrite_eq (Store.filled {Store.init opts with seq := q} d (encodeAll recs).length true)
    (Store.writeEntries 0 0 recs (Store.writeBuffer [] recs).2)
  refine ⟨_, rfl, hwritten, ?_, ?_, ?_, ?_, ?_, ?_, ?_⟩ <;> rw [hidx]
  · show d.bytes = _
    rw [hbytes, hinit, Function.update_idem, List.nil_append]
  · exact hhints
  · rfl
  · show DataFile.mk 0 (0 + _) = _
    rw [Nat.zero_add]
  · rfl
  · rfl
  · rfl

/-- A store after one `BatchPut`. -/
theorem first_batchPut (opts : Options) (hsync : opts.syncMode = .never) (now : Int64) {keys values : List Bytes}
    (hvalid : (Op.batchPut now keys values).Valid) :
    ∃ s, (Store.init opts).batchPut now keys values = (s, none) ∧
      First s opts (Store.assignSeqs 0 (Store.batchRecords now (keys.zip values))) := by
  obtain ⟨s, hs, hfirst⟩ := first_write opts hsync (0 + UInt64.ofNat (Store.batchRecords now (keys.zip values)).length)
    (sized_assignSeqs (q := 0) hvalid.sized)
  obtain ⟨hlen, hne, hall⟩ := hvalid
  refine ⟨s, ?_, hfirst⟩
  rw [Store.batchPut, if_neg (not_not.mpr hlen), if_neg hne, hall]
  exact hs

/-- Every entry of the index is the wrapped locator of one of the records. -/
theorem First.entry {opts : Options} (h : First s opts recs) {k : Bytes} {e : Entry} (he : s.keys[k]? = some e) :
    ∃ before r after, recs = before ++ r :: after ∧ k = r.key ∧ e = wrapped before r := by
  have hmade (xs : List Record) (x : Bytes × Entry) (hx : x ∈ Store.writeEntries 0 0 xs (Store.writeBuffer [] xs).2) :
      ∃ before r after, xs = before ++ r :: after ∧ x.1 = r.key ∧ x.2 = wrapped before r := by
    induction xs using List.reverseRecOn with
    | nil => cases hx
    | append_singleton xs r ih =>
      rw [writeEntries_concat] at hx
      rcases List.mem_append.mp hx with hx | hx
      · obtain ⟨before, y, after, heq, hk, hent⟩ := ih hx
        exact ⟨before, y, after ++ [r], by rw [heq]; simp, hk, hent⟩
      · rw [List.mem_singleton.mp hx]
        refine ⟨xs, r, [], rfl, rfl, ?_⟩
        rw [Nat.zero_add]
        rfl
  rw [h.keys] at he
  rcases Index.mem_installAll he with hm | hm
  · exact hmade recs (k, e) hm
  · simp at hm

/-- Among records of different keys every one is indexed. -/
theorem First.indexed {opts : Options} (h : First s opts recs) (hd : (recs.map Record.key).Nodup)
    {before after : List Record}
    {r : Record} (hsplit : recs = before ++ r :: after) : s.keys[r.key]? = some (wrapped before r) := by
  have hall (xs : List Record) (hd : (xs.map Record.key).Nodup) : ∀ before r after, xs = before ++ r :: after →
      ((∅ : Index).installAll (Store.writeEntries 0 0 xs (Store.writeBuffer [] xs).2))[r.key]? =
        some (wrapped before r) := by
    induction xs using List.reverseRecOn with
    | nil => exact fun before r after heq => absurd heq (by simp)
    | append_singleton xs y ih =>
      intro before r after heq
      rw [List.map_append, List.nodup_append] at hd
      obtain ⟨hxs, -, hapart⟩ := hd
      rw [writeEntries_concat, Index.installAll_append]
      show (Index.install _ y.key _)[r.key]? = _
      rw [Index.getElem?_install]
      rcases List.eq_nil_or_concat' after with rfl | ⟨after, z, rfl⟩
      · obtain ⟨rfl, hy⟩ := List.append_inj' heq rfl
        cases hy
        have hnone (n : Entry)
            (hn : ((∅ : Index).installAll (Store.writeEntries 0 0 xs (Store.writeBuffer [] xs).2))[y.key]? = some n) :
            n.seq < y.seq := by
          rcases Index.mem_installAll hn with hm | hm
          · obtain ⟨r', hr', hk, -⟩ := mem_writeEntries hm
            exact absurd hk.symm (hapart _ (List.mem_map_of_mem hr') _ (List.mem_singleton_self _))
          · simp at hm
        refine (if_pos ⟨rfl, hnone⟩).trans ?_
        simp only [wrapped, Nat.zero_add]
      · have heq : xs ++ [y] = (before ++ r :: after) ++ [z] := by simpa using heq
        obtain ⟨rfl, -⟩ := List.append_inj' heq rfl
        rw [if_neg fun hc => ?_]
        · exact ih hxs before r after rfl
        · exact hapart r.key (List.mem_map_of_mem (by simp)) y.key (List.mem_singleton_self _) hc.1
  rw [h.keys]
  exact hall recs hd before r after hsplit

/-- What stands at a place of the file can be read through a locator. -/
theorem First.read {opts : Options} (h : First s opts recs) {e : Entry} {a c : Bytes} {r : Record} (hid : e.fileID = 0)
    (hbytes : encodeAll recs = a ++ (r.encode ++ c)) (hpos : e.pos = a.length) (hsize : e.size = r.encode.length)
    (hdecode : decodeRecord r.encode = .ok r) : Store.readRecord s.dir e = .ok r := by
  refine readRecord_at (c := c) ?_ hpos hsize hdecode
  rw [hid, h.bytes, Function.update_self, hbytes]

omit [Checksum] in
theorem succID_iterate {i n : Nat} (h : i + n < 2 ^ 32) : Store.succID^[n] i = i + n := by
  induction n with
  | zero => rfl
  | succ n ih =>
    rw [Function.iterate_succ_apply', ih (by omega), Store.succID]
    exact Nat.mod_eq_of_lt (by omega)

/-- **Compacting a first batch**: if every locator reads something, the outputs are what they read. -/
theorem First.compact {opts : Options} (h : First s opts recs) (hne : encodeAll recs ≠ [])
    (hfew : s.liveEntries.length < 2 ^ 31)
    (hread : ∀ x ∈ s.liveEntries, ∃ r, Store.readRecord s.dir x.2 = .ok r) :
    ∃ s' s₀ shelves, s.compact = (s', none) ∧ Merged s₀ s' shelves ∧ s₀.liveEntries = s.liveEntries ∧ s₀.dir.hints = ∅ ∧
      s₀.active = ⟨1, 0⟩ ∧ s₀.nextID = 2 ∧ s₀.opts = s.opts ∧ s₀.dir.bytes 1 = some [] ∧
      ∀ x ∈ s.liveEntries, Store.readRecord s₀.dir x.2 = Store.readRecord s.dir x.2 := by
  have hdata (i : Nat) : i ∈ s.dir.data ↔ i = 0 := by
    rw [Dir.mem_data, h.bytes]
    by_cases hi : i = 0
    · simp [hi]
    · simp [hi]
  have hactive : s.active.size ≠ 0 := by
    rw [h.active]
    exact fun hz => hne (List.eq_nil_of_length_eq_zero hz)
  rcases compact_cases h.ledger.placed with ⟨hwhy, -⟩ | ⟨s₀, hspread, hends, ⟨hz, -⟩ | ⟨d, hbytes, hhints, -, hid, rfl⟩⟩
  · rw [h.closed, h.nextID, hdata] at hwhy
    exact absurd (hwhy.resolve_left (by decide)).2 (by decide)
  · exact absurd hz hactive
  · have hnew : (s.resealed d).dir.bytes = Function.update s.dir.bytes 1 (some []) := by
      show (Store.fresh {s with dir := d}).dir.bytes = _
      rw [bytes_fresh]
      show Function.update d.bytes s.nextID _ = _
      rw [hbytes, h.nextID]
    have hsame (x : Bytes × Entry) (hx : x ∈ s.liveEntries) :
        Store.readRecord (s.resealed d).dir x.2 = Store.readRecord s.dir x.2 := by
      obtain ⟨_, _, _, -, -, he⟩ := h.entry (lookup_eq_some.mp (mem_liveEntries.mp hx)).1
      refine readRecord_congr ?_
      rw [hnew, he]
      exact Function.update_of_ne (by decide : (0 : Nat) ≠ 1) _ _
    have hnext : (s.resealed d).nextID = 2 := by
      show Store.succID s.nextID = 2
      rw [h.nextID]
      rfl
    have hfree : ¬ Blocked (s.resealed d) := by
      rintro (⟨x, hx, e, he⟩ | ⟨n, hn, hcrowd⟩)
      · obtain ⟨r, hr⟩ := hread x hx
        rw [hsame x hx, hr] at he
        cases he
      · have hlen := (outputs_le (s.resealed d).opts.limit none ((s.resealed d).liveEntries.map fun x => x.2.size))
        rw [List.length_map] at hlen
        have hn : n < 2 ^ 31 := Nat.lt_trans (Nat.lt_of_lt_of_le hn hlen) hfew
        rw [Crowded, hnext, succID_iterate (by omega)] at hcrowd
        rcases hcrowd with hm | ⟨i, hi, heq⟩
        · rw [Dir.mem_data, hnew] at hm
          obtain ⟨b, hb⟩ := hm
          rw [Function.update_of_ne (by omega), h.bytes, Function.update_of_ne (by omega)] at hb
          cases hb
        · rw [succID_iterate (by omega)] at heq
          omega
    have hset : (s.resealed d).mergeSet ≠ [] := by
      refine List.ne_nil_of_mem (a := 0) (mem_mergeSet.mpr ⟨?_, ?_⟩)
      · refine Std.ExtTreeMap.mem_insert.mpr (.inr ?_)
        rw [Store.mem_files h.ledger.files, ← Dir.mem_data, hdata]
      · show 0 ≠ s.nextID
        rw [h.nextID]
        decide
    have hactive₀ : (s.resealed d).active = ⟨1, 0⟩ := by
      show DataFile.mk s.nextID 0 = _
      rw [h.nextID]
    have hpair : s.compact = (s.compact.1, s.compact.2) := rfl
    generalize s.compact.1 = s', s.compact.2 = err at hends hpair
    cases hends with
    | idle hnil => exact absurd hnil hset
    | blocked _ _ hb => exact absurd hb hfree
    | merged _ hm =>
      refine ⟨s', _, _, hpair, hm, rfl, hhints.trans h.hints, hactive₀, hnext, rfl, ?_, hsame⟩
      rw [hnew, Function.update_self]

end Wide

end Gokv.Engine
