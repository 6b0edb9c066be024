import Gokv.Engine.Replays
import Gokv.Engine.Convergence

/-! Whether an acknowledged write is seen.

A local write numbers its records from the counter on, and the index takes a record only
if it is newer than what it holds. The counter is 64 bits wide, and a replicated record may
carry any number: behind the highest one the counter wraps, and a write that has been
logged and acknowledged is dropped by the index (`acknowledged_wraps`). A write is seen
exactly if its number has stayed ahead of what its key has, or if that says the same
(`acknowledged_iff`); as long as the counter does not wrap, it is (`acknowledged_seen`). -/
namespace Gokv.Engine
open Base

/-! ### The numbers of a write -/

/-- What a write assigns, with the numbers it takes from `q` on. -/
def numbered : UInt64 → List (Bytes × Option Bytes) → List (Bytes × Nat × Option Bytes)
  | _, [] => []
  | q, (k, v) :: rest => (k, (q + 1).toNat, v) :: numbered (q + 1) rest

theorem numbered_append (q : UInt64) (us vs : List (Bytes × Option Bytes)) :
    numbered q (us ++ vs) = numbered q us ++ numbered (q + UInt64.ofNat us.length) vs := by
  induction us generalizing q with
  | nil => simp [numbered]
  | cons u rest ih =>
    have hq : q + UInt64.ofNat (u :: rest).length = q + 1 + UInt64.ofNat rest.length := by
      rw [List.length_cons, UInt64.ofNat_add, ← UInt64.add_assoc, UInt64.add_assoc q,
        UInt64.add_comm (UInt64.ofNat rest.length), ← UInt64.add_assoc]
      rfl
    rw [List.cons_append, numbered, numbered, ih, hq, List.cons_append]

theorem numbered_keys {q : UInt64} {us : List (Bytes × Option Bytes)} {x : Bytes × Nat × Option Bytes}
    (h : x ∈ numbered q us) : ∃ u ∈ us, u.1 = x.1 := by
  induction us generalizing q with
  | nil => cases h
  | cons u rest ih =>
    rcases List.mem_cons.mp h with rfl | h
    · exact ⟨u, List.mem_cons_self .., rfl⟩
    · obtain ⟨v, hv, heq⟩ := ih h
      exact ⟨v, List.mem_cons_of_mem _ hv, heq⟩

/-- The numbers of a write that does not wrap. -/
theorem numbered_le {q : UInt64} {us : List (Bytes × Option Bytes)} (h : q.toNat + us.length < 2 ^ 64) :
    ∀ x ∈ numbered q us, x.2.1 ≤ q.toNat + us.length := by
  induction us generalizing q with
  | nil => exact fun _ hx => absurd hx List.not_mem_nil
  | cons u rest ih =>
    rw [List.length_cons] at h ⊢
    have hq := toNat_succ (q := q) (by omega)
    intro x hx
    rcases List.mem_cons.mp hx with rfl | hx
    · show (q + 1).toNat ≤ _
      omega
    · have := ih (q := q + 1) (by omega) x hx
      omega

theorem Append.Numbers.updates {s : Store} {a : Append} (h : a.Numbers s) :
    s.seq.toNat + a.updates.length < 2 ^ 64 ∨ a.updates = [] := by
  cases a with
  | put now key value => exact .inl h
  | batchPut now keys values =>
    refine .inl (Nat.lt_of_le_of_lt ?_ h)
    rw [Append.updates, List.length_map, List.length_zip]
    omega
  | delete now key => exact .inl h
  | applyRaw raw => exact .inr rfl

theorem version_assignSeqs (q : UInt64) (recs : List Record) :
    (Store.assignSeqs q recs).map Record.version = numbered q (recs.map fun r => (r.key, r.payload)) := by
  induction recs generalizing q with
  | nil => rfl
  | cons r rest ih =>
    rw [Store.assignSeqs, List.map_cons, ih]
    rfl

/-- The records of a write carry what it assigns. -/
theorem Op.records_updates {op : Op} (hop : op.Local) :
    op.records.map (fun r => (r.key, r.payload)) = op.updates := by
  cases op with
  | put now key value =>
    rw [Op.records, List.map_singleton, (putRecord_payload now key value).1]
    rfl
  | delete now key =>
    rw [Op.records, List.map_singleton, (deleteRecord_payload now key).1]
    rfl
  | batchPut now keys values =>
    rw [Op.records, Op.updates]
    rcases (keys.zip values).eq_nil_or_concat' with hnil | ⟨init, x, hsplit⟩
    · rw [hnil]
      rfl
    · rw [hsplit, batchRecords_concat, List.map_append, List.map_append, List.map_map]
      congr 1
      · refine List.map_congr_left fun y _ => ?_
        simp only [Function.comp_apply, (memberRecord_flags now y).2.2]
        rfl
      · rw [List.map_singleton, List.map_singleton, (lastRecord_flags now x).2.2]
        rfl
  | compact | reopen _ | sync | hint _ => exact hop.elim

section Acknowledged
variable [Checksum] {s s' : Store} {a : Append}

/-! ### What the index holds -/

/-- A call within the width of the offsets keeps the locators leading to their records. -/
theorem Sound.append (h : Sound s) (ha : a.Narrow) : Sound (s.append a).1 := by
  rcases append_cases s a with heq | ⟨recs, q, q', hs, -, hn, heq⟩
  · rwa [heq]
  · have hq : Sound {s with seq := q} := h.same rfl rfl rfl rfl
    rw [heq]
    rcases hq.writeLocked hs (hn ha) with ⟨s', hw, h', -⟩ | ⟨s', hw, h', -⟩
    · rw [hw]
      exact h'.same rfl rfl rfl rfl
    · rw [hw]
      exact h'.same rfl rfl rfl rfl

/-- No entry has passed the counter. -/
def Ahead (s : Store) : Prop := ∀ (k : Bytes) (e : Entry), s.keys[k]? = some e → e.seq ≤ s.seq

/-- What a write leaves in the index was there or has the number of one of its records. -/
theorem Poised.writeLocked_seq (hp : Poised s) {recs : List Record} (hs : ∀ r ∈ recs, r.Sized) :
    (s.writeLocked recs).1.seq = s.seq ∧ ∀ (k : Bytes) (e : Entry), (s.writeLocked recs).1.keys[k]? = some e →
      s.keys[k]? = some e ∨ (s.writeLocked recs).2 = none ∧ ∃ r ∈ recs, e.seq = r.seq := by
  rcases hp.writeLocked hs with ⟨s', hw, -, hg, hkeys⟩ | ⟨s', hw, -, hst⟩
  · rw [hw]
    refine ⟨hg.seq, fun k e he => ?_⟩
    rw [hkeys] at he
    rcases Index.mem_installAll he with hmem | hold
    · obtain ⟨r, hr, -, hseq⟩ := mem_writeEntries hmem
      exact .inr ⟨rfl, r, hr, hseq⟩
    · exact .inl hold
  · rw [hw]
    refine ⟨hst.seq, fun k e he => .inl ?_⟩
    rwa [hst.keys] at he

/-- **The counter stays ahead** as long as it does not wrap. -/
theorem Ahead.append (h : Ahead s) (hp : Poised s) (hn : a.Numbers s) : Ahead (s.append a).1 := by
  rcases append_forms s a with ⟨heq, -⟩ | ⟨op, hop⟩ | ⟨raw, recs, -, hparse, heq⟩
  · rwa [heq]
  · have hroom := hop.numbers hn
    have hq := toNat_advance hroom
    have hp' : Poised {s with seq := s.seq + UInt64.ofNat op.records.length} := hp.same rfl rfl rfl
    obtain ⟨hseq, hmem⟩ := hp'.writeLocked_seq (sized_assignSeqs (q := s.seq) hop.valid.sized)
    rw [hop.append]
    intro k e he
    rw [Store.appendLocked, hseq]
    refine UInt64.le_iff_toNat_le.mpr ?_
    show e.seq.toNat ≤ (s.seq + UInt64.ofNat op.records.length).toNat
    rcases hmem k e he with hold | ⟨-, r, hr, hre⟩
    · have := UInt64.le_iff_toNat_le.mp (h k e hold)
      omega
    · have := ((seq_assignSeqs hroom).1 r hr).2
      rw [hre]
      omega
  · obtain ⟨hseq, hmem⟩ := hp.writeLocked_seq (parseRaw_ok hparse).2
    obtain ⟨hle, hall, -⟩ := topSeq_spec s.seq recs
    rw [heq]
    cases hw : s.writeLocked recs with
    | mk s' err =>
      rw [hw] at hseq hmem
      cases err with
      | some e =>
        intro k n hk
        show n.seq ≤ s'.seq
        rw [show s'.seq = s.seq from hseq]
        rcases hmem k n hk with hold | ⟨hno, -⟩
        · exact h k n hold
        · cases hno
      | none =>
        intro k n hk
        show n.seq ≤ topSeq s'.seq recs
        rw [show s'.seq = s.seq from hseq]
        rcases hmem k n hk with hold | ⟨-, r, hr, hre⟩
        · exact UInt64.le_trans (h k n hold) hle
        · rw [hre]
          exact hall r hr

/-! ### Acknowledged writes -/

/-- What an acknowledged write offers to what the store shows. -/
theorem Sound.acknowledged (h : Sound s) (ha : a.Narrow) (hack : (s.append a).2 = none) (hne : a.updates ≠ []) :
    Sound (s.append a).1 ∧ (s.append a).1.view = Newest.offerAll s.view (numbered s.seq a.updates) ∧
      ∀ x ∈ a.updates, Store.validateKey x.1 = none := by
  rcases append_forms s a with ⟨-, hnil⟩ | ⟨op, hop⟩ | ⟨raw, recs, rfl, -⟩
  · exact absurd (hnil hack) hne
  · have hq : Sound {s with seq := s.seq + UInt64.ofNat op.records.length} := h.same rfl rfl rfl rfl
    have hrecs : op.records.map (fun r => (r.key, r.payload)) = a.updates :=
      (Op.records_updates hop.isLocal).trans hop.updates
    rw [hop.append] at hack ⊢
    rcases hq.writeLocked (sized_assignSeqs hop.valid.sized) (addressable_assignSeqs (hop.narrow ha)) with
      ⟨s', hw, h', -, hview⟩ | ⟨s', hw, -⟩
    · rw [Store.appendLocked, hw]
      refine ⟨h', ?_, fun x hx => ?_⟩
      · rw [hview, version_assignSeqs, hrecs]
        rfl
      · rw [← hrecs] at hx
        obtain ⟨r, hr, rfl⟩ := List.mem_map.mp hx
        obtain ⟨hpos, hle, -⟩ := hop.valid.sized r hr
        rw [Store.validateKey, if_neg (Nat.pos_iff_ne_zero.mp hpos), if_neg (not_lt.mpr hle)]
    · rw [Store.appendLocked, hw] at hack
      cases hack
  · exact absurd rfl hne

/-- The last value a write gives a key is seen exactly if it outdoes what it finds, or that
says the same. -/
theorem Sound.seen_iff (h : Sound s) (ha : a.Narrow) (hack : (s.append a).2 = none)
    {before after : List (Bytes × Option Bytes)} {k : Bytes} {v : Option Bytes}
    (hsplit : a.updates = before ++ (k, v) :: after) (hlast : ∀ y ∈ after, y.1 ≠ k) :
    (s.append a).1.get k = answer v ↔ ∀ y, Newest.offerAll s.view (numbered s.seq before) k = some y →
      y.1 < (s.seq + UInt64.ofNat before.length + 1).toNat ∨ y.2 = v := by
  obtain ⟨h', hview, hkeys⟩ := h.acknowledged ha hack (by rw [hsplit]; simp)
  have hk : Store.validateKey k = none := hkeys (k, v) (by rw [hsplit]; simp)
  rw [Store.get_eq_of_located hk h'.files fun e he => h'.located k e he, answer_injective.eq_iff,
    Store.liveMap, hview, hsplit, numbered_append, numbered]
  refine Newest.live_offerAll_last fun y hy => ?_
  obtain ⟨u, hu, heq⟩ := numbered_keys hy
  rw [← heq]
  exact hlast u hu

/-- **Whether an acknowledged write is seen.** In every state reached by local writes and
replicated records, a write that has returned nil is answered with the last value it gives a
key exactly if everything the index and the write itself have for the key by then has a lower
number than that value, or says the same. -/
theorem acknowledged_iff (opts : Options) (calls : List Append) (a : Append) (hcalls : ∀ b ∈ calls, b.Narrow)
    (ha : a.Narrow) :
    let s := (appendMachine.run (Store.init opts) calls).1
    (s.append a).2 = none → ∀ before k v after, a.updates = before ++ (k, v) :: after → (∀ y ∈ after, y.1 ≠ k) →
      ((s.append a).1.get k = answer v ↔
        ∀ y, Newest.offerAll s.view (numbered s.seq before) k = some y →
          y.1 < (s.seq + UInt64.ofNat before.length + 1).toNat ∨ y.2 = v) := by
  intro s hack before k v after hsplit hlast
  have hmeets : appendMachine.Meets (fun _ b => b.Narrow) (Store.init opts) calls :=
    Machine.meets_of_forall fun b hb _ => hcalls b hb
  have hsound : Sound s := hmeets.invariant (P := Sound) (fun s b h hb => h.append hb) (sound_init opts)
  exact hsound.seen_iff ha hack hsplit hlast

/-- **As long as the counter does not wrap**, every acknowledged write is seen. -/
theorem acknowledged_seen (opts : Options) (calls : List Append) (a : Append) (hcalls : ∀ b ∈ calls, b.Narrow)
    (ha : a.Narrow) (hn : appendMachine.Meets (fun s b => b.Numbers s) (Store.init opts) (calls ++ [a])) :
    let s := (appendMachine.run (Store.init opts) calls).1
    (s.append a).2 = none → ∀ before k v after, a.updates = before ++ (k, v) :: after → (∀ y ∈ after, y.1 ≠ k) →
      (s.append a).1.get k = answer v := by
  intro s hack before k v after hsplit hlast
  obtain ⟨hruns, hnum, -⟩ := Machine.meets_append.mp hn
  obtain ⟨hahead, hsound⟩ : Ahead s ∧ Sound s := (hruns.and hcalls).invariant (P := fun s => Ahead s ∧ Sound s)
    (fun s b h hb => ⟨h.1.append h.2.toPoised hb.1, h.2.append hb.2⟩)
    ⟨fun k e he => by simp [Store.init] at he, sound_init opts⟩
  have hroom : s.seq.toNat + (before.length + 1) < 2 ^ 64 := by
    have := Append.Numbers.updates (s := s) hnum
    simp only [hsplit, List.length_append, List.length_cons, List.append_eq_nil_iff, reduceCtorEq, and_false,
      or_false] at this
    omega
  refine (hsound.seen_iff ha hack hsplit hlast).mpr fun y hy => .inl ?_
  rw [UInt64.add_assoc, ← UInt64.ofNat_one, ← UInt64.ofNat_add, toNat_advance hroom]
  have hself : Newest.Sound {x | s.view x.1 = some x.2} s.view := fun j x hx => hx
  rcases hself.offerAll (numbered s.seq before) k y hy with hold | hnew
  · obtain ⟨e, he, rfl⟩ := Option.map_eq_some_iff.mp hold
    have := UInt64.le_iff_toNat_le.mp (hahead k e he)
    show e.seq.toNat < _
    omega
  · have hle : y.1 ≤ s.seq.toNat + before.length := numbered_le (by omega) _ hnew
    omega

end Acknowledged

/-- Two values for one key in a batch: the last one is seen. -/
theorem acknowledged_iff_batch :
    ((Store.init ⟨0, .never⟩).append (.batchPut 0 [[1], [1]] [[7], [8]])).1.get [1] = .ok [8] := by
  have hshort : Addressable (Store.batchRecords 0 ([[1], [1]].zip [[7], [8]])) :=
    addressable_of_length (by decide +kernel)
  refine (acknowledged_iff ⟨0, .never⟩ [] (.batchPut 0 [[1], [1]] [[7], [8]]) (fun _ hb => absurd hb List.not_mem_nil)
    hshort (by decide +kernel) [([1], some [7])] [1] (some [8]) [] rfl (fun _ hy => absurd hy List.not_mem_nil)).mpr ?_
  intro y hy
  have hfirst : Newest.offerAll (Store.init ⟨0, .never⟩).view (numbered 0 [([1], some [7])]) [1] =
      some (1, some [7]) := by
    decide +kernel
  cases hfirst.symm.trans hy
  exact .inl (by decide)

/-- A record of the highest number arrives, then its key is written again: the write is
acknowledged and the old value stays. -/
theorem acknowledged_wraps :
    let s := (appendMachine.run (Store.init ⟨0, .never⟩)
      [.applyRaw (Record.encode ⟨0, 2 ^ 64 - 1, 0, [1], [7]⟩)]).1
    (s.append (.put 0 [1] [8])).2 = none ∧ (s.append (.put 0 [1] [8])).1.get [1] = .ok [7] := by
  decide +kernel

end Gokv.Engine
