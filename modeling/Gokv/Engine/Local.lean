import Gokv.Engine.Write

/-! Local writes.

`Put`, `BatchPut` and `Delete` append records with the next sequence numbers. As
long as the 64-bit counter does not wrap these are newer than everything on disk
(`Bounded`), so the write cannot clash with a record that is there and, once it is
indexed, it moves the live map by exactly its records. -/
namespace Gokv.Engine
open Base

/-! ### Sequence numbers -/

section Seqs

theorem assignSeqs_append (q : UInt64) (rs ss : List Record) :
    Store.assignSeqs q (rs ++ ss) =
      Store.assignSeqs q rs ++ Store.assignSeqs (q + UInt64.ofNat rs.length) ss := by
  induction rs generalizing q with
  | nil => simp [Store.assignSeqs]
  | cons r rest ih =>
    have hq : q + UInt64.ofNat (r :: rest).length = q + 1 + UInt64.ofNat rest.length := by
      rw [List.length_cons, UInt64.ofNat_add, ← UInt64.add_assoc, UInt64.add_assoc q,
        UInt64.add_comm (UInt64.ofNat rest.length), ← UInt64.add_assoc]
      rfl
    rw [List.cons_append, Store.assignSeqs, Store.assignSeqs, ih, hq, List.cons_append]

/-- A record with its number is the record it was made from, number apart. -/
theorem mem_assignSeqs {q : UInt64} {recs : List Record} {r : Record}
    (h : r ∈ Store.assignSeqs q recs) : ∃ r₀ ∈ recs, r = {r₀ with seq := r.seq} := by
  induction recs generalizing q with
  | nil => cases h
  | cons r₀ rest ih =>
    rcases List.mem_cons.mp h with rfl | h
    · exact ⟨r₀, List.mem_cons_self .., rfl⟩
    · obtain ⟨r₁, hr₁, heq⟩ := ih h
      exact ⟨r₁, List.mem_cons_of_mem _ hr₁, heq⟩

theorem toNat_succ {q : UInt64} (h : q.toNat + 1 < 2 ^ 64) : (q + 1).toNat = q.toNat + 1 := by
  rw [UInt64.toNat_add, UInt64.toNat_one]
  omega

theorem toNat_advance {q : UInt64} {n : Nat} (h : q.toNat + n < 2 ^ 64) :
    (q + UInt64.ofNat n).toNat = q.toNat + n := by
  rw [UInt64.toNat_add, UInt64.toNat_ofNat']
  omega

/-- The numbers handed out are the ones behind the counter, in order. -/
theorem seq_assignSeqs {q : UInt64} {recs : List Record} (h : q.toNat + recs.length < 2 ^ 64) :
    (∀ r ∈ Store.assignSeqs q recs, q.toNat < r.seq.toNat ∧ r.seq.toNat ≤ q.toNat + recs.length) ∧
      (Store.assignSeqs q recs).Pairwise fun r r' => r.seq < r'.seq := by
  induction recs generalizing q with
  | nil => exact ⟨fun _ hr => (by cases hr), .nil⟩
  | cons r₀ rest ih =>
    rw [List.length_cons] at h
    have hq := toNat_succ (q := q) (by omega)
    obtain ⟨hb, hp⟩ := ih (q := q + 1) (by omega)
    rw [Store.assignSeqs]
    refine ⟨fun r hr => ?_, List.pairwise_cons.mpr ⟨fun r hr => ?_, hp⟩⟩
    · rw [List.length_cons]
      rcases List.mem_cons.mp hr with rfl | hr
      · show q.toNat < (q + 1).toNat ∧ (q + 1).toNat ≤ _
        omega
      · have := hb r hr
        omega
    · exact UInt64.lt_iff_toNat_lt.mpr (hb r hr).1

/-- The last record of a write carries the counter's new value. -/
theorem mem_assignSeqs_last (q : UInt64) {recs : List Record} (h : recs ≠ []) :
    ∃ r ∈ Store.assignSeqs q recs, r.seq = q + UInt64.ofNat recs.length := by
  obtain ⟨init, r, rfl⟩ := recs.eq_nil_or_concat'.resolve_left h
  rw [assignSeqs_append]
  refine ⟨_, List.mem_append_right _ (List.mem_cons_self ..), ?_⟩
  rw [List.length_append, List.length_singleton, UInt64.ofNat_add, ← UInt64.add_assoc]
  rfl

theorem sized_assignSeqs {q : UInt64} {recs : List Record} (h : ∀ r ∈ recs, r.Sized) :
    ∀ r ∈ Store.assignSeqs q recs, r.Sized := by
  intro r hr
  obtain ⟨r₀, hr₀, heq⟩ := mem_assignSeqs hr
  rw [heq]
  exact h r₀ hr₀

theorem isGroup_assignSeqs {q : UInt64} {recs : List Record} (h : IsGroup recs) :
    IsGroup (Store.assignSeqs q recs) := by
  obtain ⟨g, e, rfl, hopen, hend⟩ := h
  refine ⟨Store.assignSeqs q g, {e with seq := q + UInt64.ofNat g.length + 1},
    assignSeqs_append q g [e], fun r hr => ?_, ?_⟩
  · obtain ⟨r₀, hr₀, heq⟩ := mem_assignSeqs hr
    rw [heq]
    exact hopen r₀ hr₀
  · rcases hend with hend | ⟨rfl, hend⟩
    · exact .inl hend
    · exact .inr ⟨rfl, hend⟩

end Seqs

theorem IsGroup.whole {ρ : Reading} {g : List Record} (h : IsGroup g) : ρ.Whole g := by
  cases ρ with
  | every => trivial
  | committed => exact h.grouped

section Local
variable [Checksum] {ρ : Reading} {s : Store} {pend : Pending} {gone : List Nat}

theorem layout_assignSeqs (pos : Nat) (q : UInt64) (recs : List Record) :
    (layout pos (Store.assignSeqs q recs)).map Scanned.pos = (layout pos recs).map Scanned.pos := by
  induction recs generalizing pos q with
  | nil => rfl
  | cons r rest ih =>
    have hlen : (Record.encode {r with seq := q + 1}).length = r.encode.length := by
      rw [Record.length_encode, Record.length_encode]
    rw [Store.assignSeqs, layout, layout, List.map_cons, List.map_cons, hlen, ih]

theorem length_encodeAll_assignSeqs (q : UInt64) (recs : List Record) :
    (encodeAll (Store.assignSeqs q recs)).length = (encodeAll recs).length := by
  induction recs generalizing q with
  | nil => rfl
  | cons r rest ih =>
    rw [Store.assignSeqs, encodeAll_cons, encodeAll_cons, List.length_append, List.length_append, ih,
      Record.length_encode, Record.length_encode]

theorem addressable_assignSeqs {q : UInt64} {recs : List Record} (h : Addressable recs) :
    Addressable (Store.assignSeqs q recs) := by
  intro x hx
  have hmem : x.pos ∈ (layout 0 recs).map Scanned.pos := by
    rw [← layout_assignSeqs 0 q]
    exact List.mem_map_of_mem hx
  obtain ⟨y, hy, heq⟩ := List.mem_map.mp hmem
  rw [← heq]
  exact h y hy

omit [Checksum] in
theorem applyRecords_assignSeqs (m : Bytes → Option Bytes) (q : UInt64) (recs : List Record) :
    applyRecords m (Store.assignSeqs q recs) = applyRecords m recs := by
  induction recs generalizing m q with
  | nil => rfl
  | cons r rest ih => exact ih (Function.update m r.key r.payload) (q + 1)

/-- Every record that counts has a number the counter has passed. -/
def Bounded (ρ : Reading) (s : Store) : Prop := ∀ i r, Holds ρ s.dir.bytes i r → r.seq ≤ s.seq

theorem Bounded.entry (hb : Bounded ρ s) (h : Wf ρ s pend) {k : Bytes} {e : Entry}
    (he : s.keys[k]? = some e) : e.seq ≤ s.seq := by
  obtain ⟨r, hr⟩ := h.located k e he
  rw [← hr.seq]
  exact hb e.fileID r hr.holds

/-- The first half of `appendLocked`: take the numbers, write the log. -/
def Store.startWrite (s : Store) (recs : List Record) : Store × Except Error (List (Bytes × Entry)) :=
  logWrite {s with seq := s.seq + UInt64.ofNat recs.length} (assignSeqs s.seq recs)

/-- What a logged local write leaves: the log has grown by the numbered records, the
invariant holds with the write pending, and nothing indexed is as new. -/
structure Logged (ρ : Reading) (gone : List Nat) (s s' : Store) (recs : List Record) (pend : Pending) :
    Prop where
  inv : Inv ρ s' pend gone
  bounded : Bounded ρ s'
  records : pend.map Prod.snd = Store.assignSeqs s.seq recs
  increasing : (pend.map Prod.snd).Pairwise fun r r' => r.seq < r'.seq
  newer : ∀ x ∈ pend, s.seq < x.2.seq
  files : ∀ x ∈ pend, x.1.fileID = s'.active.id
  keys : s'.keys = s.keys
  liveMap : s'.liveMap = s.liveMap
  appended : Appended {s with seq := s.seq + UInt64.ofNat recs.length} s' (Store.assignSeqs s.seq recs)
  room : s.seq.toNat + recs.length < 2 ^ 64
  holds : ∀ i r, Holds ρ s'.dir.bytes i r ↔
    Holds ρ s.dir.bytes i r ∨ i = s'.active.id ∧ r ∈ Store.assignSeqs s.seq recs
  synced : s.opts.syncMode = .always →
    ∃ f, s'.dir.data[s'.active.id]? = some f ∧ f.synced = f.bytes.length

theorem Logged.seq_le {s s' : Store} {recs : List Record} (h : Logged ρ gone s s' recs pend) : s.seq ≤ s'.seq := by
  have hnow := toNat_advance h.room
  rw [h.appended.seq]
  refine UInt64.le_iff_toNat_le.mpr ?_
  show s.seq.toNat ≤ (s.seq + UInt64.ofNat recs.length).toNat
  omega

omit [Checksum] in
/-- Records in ascending order have one record to a number. -/
theorem eq_of_seq_eq {recs : List Record} (hinc : recs.Pairwise fun r r' => r.seq < r'.seq) {r r' : Record}
    (hr : r ∈ recs) (hr' : r' ∈ recs) (hseq : r.seq = r'.seq) : r = r' := by
  have hdiff {a b : Record} (hlt : a.seq < b.seq) (heq : a.seq = b.seq) : False := by
    rw [heq] at hlt
    exact absurd hlt (UInt64.lt_irrefl _)
  have huniq := List.Pairwise.forall_of_forall_of_flip (l := recs)
    (R := fun a b => a.seq = b.seq → a = b) (fun _ _ _ => rfl)
    (hinc.imp fun hlt heq => (hdiff hlt heq).elim)
    (hinc.imp fun hlt heq => (hdiff hlt heq.symm).elim)
  exact huniq hr hr' hseq

theorem Agreeing.fresh {B B' : Nat → Option Bytes} {recs : List Record} {id : Nat} (h : Agreeing ρ B)
    (hB : ∀ i r, Holds ρ B' i r ↔ Holds ρ B i r ∨ i = id ∧ r ∈ recs)
    (hinc : recs.Pairwise fun r r' => r.seq < r'.seq)
    (hnew : ∀ i r, Holds ρ B i r → ∀ r' ∈ recs, r.seq < r'.seq) : Agreeing ρ B' := by
  intro i j r r' hr hr' hk hseq
  have hdiff {a b : Record} (hlt : a.seq < b.seq) (heq : a.seq = b.seq) : False := by
    rw [heq] at hlt
    exact absurd hlt (UInt64.lt_irrefl _)
  rcases (hB i r).mp hr with hr | ⟨_, hr⟩ <;> rcases (hB j r').mp hr' with hr' | ⟨_, hr'⟩
  · exact h i j r r' hr hr' hk hseq
  · exact (hdiff (hnew i r hr r' hr') hseq).elim
  · exact (hdiff (hnew j r' hr' r hr) hseq.symm).elim
  · rw [eq_of_seq_eq hinc hr hr' hseq]

theorem Inv.startWrite (h : Inv ρ s [] gone) (hb : Bounded ρ s) {recs : List Record}
    (hs : ∀ r ∈ recs, r.Sized) (hg : IsGroup recs) (ha : Addressable recs)
    (hseq : s.seq.toNat + recs.length < 2 ^ 64) (hid : s.nextID + 1 < 2 ^ 32) :
    ∃ s' pend, s.startWrite recs = (s', .ok pend.entries) ∧ Logged ρ gone s s' recs pend := by
  have h' : Inv ρ {s with seq := s.seq + UInt64.ofNat recs.length} [] gone :=
    h.same ⟨rfl, rfl, rfl, rfl, rfl, rfl, rfl⟩ rfl
  have hs' := sized_assignSeqs (q := s.seq) hs
  have hg' : ρ.Whole (Store.assignSeqs s.seq recs) := (isGroup_assignSeqs hg).whole
  obtain ⟨hrange, hinc⟩ := seq_assignSeqs hseq
  obtain ⟨s', base, hlog, hwf, happ, hkeys, hsynced⟩ :=
    h'.toWf.logWrite hs' hg' (addressable_assignSeqs ha) hid
  have hholds {i : Nat} {r : Record} := happ.holds (i := i) (r := r) h'.toWf hs' hg'
  have hold : ∀ i r, Holds ρ s.dir.bytes i r → ∀ r' ∈ Store.assignSeqs s.seq recs, r.seq < r'.seq := by
    intro i r hr r' hr'
    have h1 := UInt64.le_iff_toNat_le.mp (hb i r hr)
    have h2 := (hrange r' hr').1
    exact UInt64.lt_iff_toNat_lt.mpr (by omega)
  have hagree : Agreeing ρ s'.dir.bytes := h.agree.fresh (fun i r => hholds) hinc hold
  have hmem : ∀ x ∈ placed s'.active.id base (Store.assignSeqs s.seq recs),
      x.2 ∈ Store.assignSeqs s.seq recs := fun x hx => by
    rw [← placed_records s'.active.id base (Store.assignSeqs s.seq recs)]
    exact List.mem_map_of_mem hx
  refine ⟨s', placed s'.active.id base (Store.assignSeqs s.seq recs), hlog, ?_⟩
  refine ⟨h'.appended happ hkeys hwf hs' hg' hagree, fun i r hr => ?_, placed_records .., ?_, fun x hx => ?_,
    fun x hx => ?_, hkeys, ?_, happ, hseq, fun i r => hholds, hsynced⟩
  · have hnow := toNat_advance hseq
    rw [happ.seq]
    refine UInt64.le_iff_toNat_le.mpr ?_
    rcases hholds.mp hr with hr | ⟨_, hr⟩
    · have := UInt64.le_iff_toNat_le.mp (hb i r hr)
      show r.seq.toNat ≤ (s.seq + UInt64.ofNat recs.length).toNat
      omega
    · have := (hrange r hr).2
      show r.seq.toNat ≤ (s.seq + UInt64.ofNat recs.length).toNat
      omega
  · rw [placed_records]
    exact hinc
  · exact UInt64.lt_iff_toNat_lt.mpr (hrange x.2 (hmem x hx)).1
  · obtain ⟨y, _, rfl⟩ := List.mem_map.mp hx
    rfl
  · exact h'.toMounted.liveMap_eq hkeys fun _ _ _ hr _ => happ.located h'.toWf hs' hg' hr

/-- **Indexing a logged local write** moves the live map by its records. -/
theorem Logged.liveMap_index {s s' : Store} {recs : List Record} (h : Logged ρ gone s s' recs pend)
    (hb : Bounded ρ s) (hwf : Wf ρ s []) :
    (s'.indexWrite pend.entries).liveMap = applyRecords s.liveMap recs := by
  rw [h.inv.toWf.liveMap_indexWrite h.increasing, h.records, applyRecords_assignSeqs, h.liveMap]
  intro x hx k n hn
  rw [h.keys] at hn
  have h1 := UInt64.le_iff_toNat_le.mp (hb.entry hwf hn)
  have h2 := UInt64.lt_iff_toNat_lt.mp (h.newer x hx)
  exact UInt64.lt_iff_toNat_lt.mpr (by omega)

/-! ### The operations -/

/-- What a local write does to a quiet store. -/
structure Written (ρ : Reading) (s s' : Store) (recs : List Record) : Prop where
  inv : Inv ρ s' [] []
  bounded : Bounded ρ s'
  liveMap : s'.liveMap = applyRecords s.liveMap recs
  appended : Appended {s with seq := s.seq + UInt64.ofNat recs.length} s' (Store.assignSeqs s.seq recs)
  room : s.seq.toNat + recs.length < 2 ^ 64
  holds : ∀ i r, Holds ρ s'.dir.bytes i r ↔
    Holds ρ s.dir.bytes i r ∨ i = s'.active.id ∧ r ∈ Store.assignSeqs s.seq recs
  synced : s.opts.syncMode = .always →
    ∃ f, s'.dir.data[s'.active.id]? = some f ∧ f.synced = f.bytes.length

/-- A logged local write, indexed. -/
theorem Logged.written {s s' : Store} {recs : List Record} (h : Logged ρ [] s s' recs pend) (hb : Bounded ρ s)
    (hwf : Wf ρ s []) : Written ρ s (s'.indexWrite pend.entries) recs := by
  have hinv := h.inv.indexWrite
  have hlive := h.liveMap_index hb hwf
  obtain ⟨l, n, heq⟩ := indexWrite_eq s' pend.entries
  have happ := h.appended
  rw [heq] at hinv hlive ⊢
  exact ⟨hinv, h.bounded, hlive, ⟨happ.seq, happ.mergeSeq, happ.opts, happ.hints, happ.manifest,
    happ.active, happ.bytes⟩, h.room, h.holds, h.synced⟩

/-- **A local write** succeeds and moves the live map by its records. -/
theorem Inv.appendLocked (h : Inv ρ s [] []) (hb : Bounded ρ s) {recs : List Record}
    (hs : ∀ r ∈ recs, r.Sized) (hg : IsGroup recs) (ha : Addressable recs)
    (hseq : s.seq.toNat + recs.length < 2 ^ 64) (hid : s.nextID + 1 < 2 ^ 32) :
    ∃ s', s.appendLocked recs = (s', none) ∧ Written ρ s s' recs := by
  obtain ⟨s', pend, hlog, hl⟩ := h.startWrite hb hs hg ha hseq hid
  refine ⟨s'.indexWrite pend.entries, ?_, hl.written hb h.toWf⟩
  rw [Store.startWrite] at hlog
  rw [Store.appendLocked, Store.writeLocked, hlog]

/-- A local write is newer than anything before it. -/
theorem Written.newer {recs : List Record} (h : Written ρ s s' recs) (hb : Bounded ρ s) {i : Nat} {r r' : Record}
    (hr : Holds ρ s.dir.bytes i r) (hr' : r' ∈ Store.assignSeqs s.seq recs) : r.seq < r'.seq := by
  have h1 := UInt64.le_iff_toNat_le.mp (hb i r hr)
  have h2 := ((seq_assignSeqs h.room).1 r' hr').1
  exact UInt64.lt_iff_toNat_lt.mpr (by omega)

end Local

end Gokv.Engine
