import Gokv.Engine.Appending
import Gokv.Engine.Refinement

/-! Replicas that have been told the same.

`ApplyRaw` offers the records of its call to the index, one after the other, and the
index keeps the newest of every key. Which records have arrived is therefore all that
matters: two stores that have been given the records of one set, in any order, in any
grouping and any number of times, show the same map and carry the same sequence number
(`replicas_converge`).

A call is not bounded by the engine. A record that starts 2^32 bytes or more into its
call gets a locator that has wrapped, and cannot be read (`replica_wrapped`). -/
namespace Gokv.Engine
open Base

section Convergence
variable [Checksum] {s s' : Store}

/-- The records one call carries. -/
def delivered (raw : Bytes) : List Record := (parseRaw raw.length raw).toOption.getD []

def applyMachine : Machine Bytes Store (Except Error UInt64) := ⟨Store.applyRaw⟩

/-- What a successful call does. -/
structure Taken (s s' : Store) (recs : List Record) : Prop where
  sound : Sound s'
  view : s'.view = Newest.offerAll s.view (recs.map Record.version)
  seq : s'.seq = topSeq s.seq recs

theorem Sound.same (h : Sound s) (hk : s'.keys = s.keys) (hf : s'.files = s.files) (ha : s'.active = s.active)
    (hb : s'.dir.bytes = s.dir.bytes) : Sound s' := by
  refine ⟨h.toPoised.same hf ha hb, fun k e he => ?_⟩
  rw [hb]
  exact h.located k e (hk ▸ he)

omit [Checksum] in
theorem topSeq_nil (q : UInt64) : topSeq q [] = q :=
  (topSeq_unique (UInt64.le_refl _) (fun _ hr => absurd hr List.not_mem_nil) (.inl rfl)).symm

/-- **A successful call** offers its records to what the store shows. -/
theorem Sound.applyRaw (h : Sound s) {raw : Bytes} (ha : Addressable (delivered raw))
    (hok : (s.applyRaw raw).2.isOk = true) : Taken s (s.applyRaw raw).1 (delivered raw) := by
  rw [delivered] at ha ⊢
  rw [Store.applyRaw] at hok ⊢
  cases hp : parseRaw raw.length raw with
  | error e => simp [hp, Except.isOk, Except.toBool] at hok
  | ok recs =>
    rw [hp] at ha hok
    simp only [Except.toOption, Option.getD_some] at ha ⊢
    cases recs with
    | nil => exact ⟨h, rfl, (topSeq_nil s.seq).symm⟩
    | cons r rest =>
      by_cases hc : s.closed = true
      · simp [hc, Except.isOk, Except.toBool] at hok
      · simp only [if_neg hc] at hok ⊢
        rcases h.writeLocked (parseRaw_ok hp).2 ha with ⟨s', hw, h', hg, hview⟩ | ⟨s', hw, -⟩
        · simp only [hw]
          refine ⟨h'.same rfl rfl rfl rfl, hview, ?_⟩
          show (if maxSeq (r :: rest) > s'.seq then _ else s'.seq) = _
          rw [hg.seq, topSeq]
        · simp [hw, Except.isOk, Except.toBool] at hok

/-- **A run of successful calls** has offered all their records. -/
theorem Sound.applies {calls : List Bytes} (h : Sound s) (ha : ∀ raw ∈ calls, Addressable (delivered raw))
    (hok : ∀ out ∈ (applyMachine.run s calls).2, out.isOk = true) :
    Taken s (applyMachine.run s calls).1 (calls.flatMap delivered) := by
  induction calls generalizing s with
  | nil => exact ⟨h, rfl, (topSeq_nil s.seq).symm⟩
  | cons raw rest ih =>
    have hfirst := h.applyRaw (ha raw (List.mem_cons_self ..)) (hok _ (List.mem_cons_self ..))
    have hrest := ih hfirst.sound (fun x hx => ha x (List.mem_cons_of_mem _ hx))
      fun out hout => hok out (List.mem_cons_of_mem _ hout)
    refine ⟨hrest.sound, ?_, ?_⟩
    · rw [List.flatMap_cons, List.map_append, Newest.offerAll_append, ← hfirst.view]
      exact hrest.view
    · rw [List.flatMap_cons, topSeq_append, ← hfirst.seq]
      exact hrest.seq

theorem view_init (opts : Options) : (Store.init opts).view = fun _ => none := by
  funext k
  simp [Store.view, Index.versions, Store.init]

theorem sound_init (opts : Options) : Sound (Store.init opts) := by
  have hwf := (quiet_init opts).1.inv.toWf
  obtain ⟨b, hb, hsize, hi, -⟩ := hwf.active
  exact ⟨⟨⟨b, hb, hsize, hi⟩, hwf.files⟩, fun k e he => by simp [Store.init] at he⟩

section Told
variable {opts : Options} {recs : List Record} {R : Finset Record}

/-- A store that has been given the records of a set, and nothing else, indexes the set. -/
theorem Taken.indexes (h : Taken (Store.init opts) s recs) (hR : ∀ r, r ∈ recs ↔ r ∈ R) :
    Newest.Indexes (Record.version '' R) s.view := by
  have hidx := Newest.indexes_offerAll (recs.map Record.version)
  rw [← view_init opts, ← h.view] at hidx
  refine hidx.congr ?_
  ext x
  simp [hR]

theorem Taken.seq_eq (h : Taken (Store.init opts) s recs) (hR : ∀ r, r ∈ recs ↔ r ∈ R) :
    s.seq.toNat = R.sup fun r => r.seq.toNat := by
  obtain ⟨-, hall, htop⟩ := topSeq_spec (Store.init opts).seq recs
  rw [← h.seq] at hall htop
  refine le_antisymm ?_ (Finset.sup_le fun r hr => UInt64.le_iff_toNat_le.mp (hall r ((hR r).mpr hr)))
  rcases htop with hzero | ⟨r, hr, heq⟩
  · rw [hzero]
    exact Nat.zero_le _
  · rw [← heq]
    exact Finset.le_sup (f := fun r : Record => r.seq.toNat) ((hR r).mp hr)

end Told

/-- **Replicas converge.** Two empty stores are given the records of one set, each of them
at least once, by successful calls in any order and grouping: both show the newest record of
every key, and their counters stand at the highest number. -/
theorem replicas_converge (opts opts' : Options) (R : Finset Record) (hseq : Set.InjOn Record.seq R)
    (calls calls' : List Bytes) (hall : ∀ r, r ∈ calls.flatMap delivered ↔ r ∈ R)
    (hall' : ∀ r, r ∈ calls'.flatMap delivered ↔ r ∈ R)
    (hok : ∀ out ∈ (applyMachine.run (Store.init opts) calls).2, out.isOk = true)
    (hok' : ∀ out ∈ (applyMachine.run (Store.init opts') calls').2, out.isOk = true)
    (ha : ∀ raw ∈ calls, Addressable (delivered raw)) (ha' : ∀ raw ∈ calls', Addressable (delivered raw)) :
    let s := (applyMachine.run (Store.init opts) calls).1
    let s' := (applyMachine.run (Store.init opts') calls').1
    s.liveMap = s'.liveMap ∧ s.seq = s'.seq ∧ Newest.Shows (Record.version '' R) s.liveMap ∧
      (∀ k, Store.validateKey k = none → s.get k = answer (s.liveMap k)) ∧
      s.seq.toNat = R.sup fun r => r.seq.toNat := by
  intro s s'
  have h := (sound_init opts).applies ha hok
  have h' := (sound_init opts').applies ha' hok'
  have hshows := (h.indexes hall).shows (agree_version hseq)
  have hshows' := (h'.indexes hall').shows (agree_version hseq)
  refine ⟨(h.indexes hall).live_eq hshows', ?_, hshows, fun k hk => ?_, h.seq_eq hall⟩
  · exact UInt64.toNat_inj.mp ((h.seq_eq hall).trans (h'.seq_eq hall').symm)
  · exact Store.get_eq_of_located hk h.sound.files fun e he => h.sound.located k e he

/-! ### Past the width of the offsets -/

/-- Sixteen records under one-byte keys. -/
def wideStart (v : Bytes) : List Record :=
  (List.range 16).map fun i => ⟨0, UInt64.ofNat (i + 1), 0, [UInt8.ofNat i], v⟩

/-- One more. -/
def wideLast (v : Bytes) : Record := ⟨0, 17, 0, [16], v⟩

section Wide
variable {v : Bytes}

omit [Checksum] in
theorem wide_sized (hv : v.length = 2 ^ 28 - 30) : ∀ r ∈ wideStart v ++ [wideLast v], r.Sized := by
  intro r hr
  have hr : r.key.length = 1 ∧ r.value = v := by
    rcases List.mem_append.mp hr with hr | hr
    · obtain ⟨i, -, rfl⟩ := List.mem_map.mp hr
      exact ⟨rfl, rfl⟩
    · rw [List.mem_singleton.mp hr]
      exact ⟨rfl, rfl⟩
  rw [Record.Sized, hr.1, hr.2, hv]
  decide

/-- Sixteen records of 2^28 bytes fill the width of the offsets. -/
theorem length_wideStart (hv : v.length = 2 ^ 28 - 30) : (encodeAll (wideStart v)).length = 2 ^ 32 := by
  refine (length_encodeAll_of_forall (n := 2 ^ 28) fun r hr => ?_).trans (show 16 * 2 ^ 28 = 2 ^ 32 by decide)
  obtain ⟨i, -, rfl⟩ := List.mem_map.mp hr
  rw [Record.length_encode]
  show recordHeaderSize + 1 + v.length = _
  rw [hv, recordHeaderSize]
  decide

omit [Checksum] in
theorem key_wideStart {r : Record} (hr : r ∈ wideStart v) : r.key ≠ [16] := by
  have hne : ∀ i ∈ List.range 16, ([UInt8.ofNat i] : Bytes) ≠ [16] := by decide
  obtain ⟨i, hi, rfl⟩ := List.mem_map.mp hr
  exact hne i hi

/-- The last record's locator leads to the first record. -/
theorem wide_write (hv : v.length = 2 ^ 28 - 30) : ∃ s : Store,
    (Store.init ⟨0, .never⟩).writeLocked (wideStart v ++ [wideLast v]) = (s, none) ∧
      s.get [16] = .error (.seqMismatch 17 1) := by
  have hs := wide_sized hv
  obtain ⟨first, mid, hcons, hseq, hlen⟩ : ∃ first mid, wideStart v = first :: mid ∧ first.seq = 1 ∧
      first.encode.length = 2 ^ 28 := by
    refine ⟨⟨0, 1, 0, [0], v⟩, (List.range 15).map fun i => ⟨0, UInt64.ofNat (i + 2), 0, [UInt8.ofNat (i + 1)], v⟩,
      rfl, rfl, ?_⟩
    rw [Record.length_encode]
    show recordHeaderSize + 1 + v.length = _
    rw [hv, recordHeaderSize]
    decide
  have hwide := length_wideStart hv
  rw [hcons] at hs hwide ⊢
  obtain ⟨s, hw, hget⟩ := write_wrapped ⟨0, .never⟩ rfl 0 first (wideLast v)
    (hs _ (List.mem_cons_self ..)) (show Store.validateKey [16] = none by decide)
    (show ((0 : UInt8) &&& flagTombstone != 0) = false by decide)
    (fun r hr => key_wideStart (v := v) (hcons ▸ hr)) hwide
    (by
      rw [hlen, encodedSize]
      show (recordHeaderSize + 1 + v.length) % 2 ^ 32 = _
      rw [hv, recordHeaderSize]
      decide)
    (by
      rw [hseq]
      show (1 : UInt64) ≠ 17
      decide)
  rw [hseq] at hget
  exact ⟨s, hw, hget⟩

/-- Given in one call, the last record cannot be read. -/
theorem wide_applied (hv : v.length = 2 ^ 28 - 30) : ∃ (s : Store) (a : UInt64),
    (Store.init ⟨0, .never⟩).applyRaw (encodeAll (wideStart v ++ [wideLast v])) = (s, .ok a) ∧
      s.get [16] = .error (.seqMismatch 17 1) := by
  obtain ⟨s, hw, hget⟩ := wide_write hv
  have hparse := parseRaw_encodeAll _ (wide_sized hv) (length_le_encodeAll _)
  obtain ⟨first, rest, hcons⟩ : ∃ first rest, wideStart v ++ [wideLast v] = first :: rest := ⟨_, _, rfl⟩
  rw [hcons] at hw hparse ⊢
  refine ⟨{s with seq := if maxSeq (first :: rest) > s.seq then maxSeq (first :: rest) else s.seq},
    maxSeq (first :: rest), ?_, hget⟩
  rw [Store.applyRaw, hparse]
  show (if (Store.init ⟨0, .never⟩).closed = true then _ else _) = _
  rw [if_neg (by decide), hw]

theorem wide_atOnce (hv : v.length = 2 ^ 28 - 30) : ∃ (s : Store) (a : UInt64),
    applyMachine.run (Store.init ⟨0, .never⟩) [encodeAll (wideStart v ++ [wideLast v])] = (s, [.ok a]) ∧
      s.get [16] = .error (.seqMismatch 17 1) := by
  obtain ⟨s, a, happ, hget⟩ := wide_applied hv
  exact ⟨s, a, by simp only [Machine.run, applyMachine, happ], hget⟩

/-- Given apart, it can. -/
theorem wide_apart (hv : v.length = 2 ^ 28 - 30) : ∃ (s : Store) (a b : UInt64),
    applyMachine.run (Store.init ⟨0, .never⟩) [encodeAll (wideStart v), encodeAll [wideLast v]] = (s, [.ok a, .ok b]) ∧
      s.get [16] = .ok v := by
  have hs := wide_sized hv
  have hinit := (quiet_init ⟨0, .never⟩).1.inv.toWf.every
  obtain ⟨s₁, a, happ₁, hrec₁, hid₁⟩ := hinit.applyRaw (fun r hr => hs r (List.mem_append_left _ hr))
    (addressable_of_length_le (length_wideStart hv).le) (by decide)
  obtain ⟨s, b, happ, hrec, -⟩ := hrec₁.wf.applyRaw (fun r hr => hs r (List.mem_append_right _ hr))
    (addressable_single (wideLast v)) (Nat.lt_of_le_of_lt (Nat.succ_le_succ hid₁) (by decide))
  refine ⟨s, a, b, by simp only [Machine.run, applyMachine, happ₁, happ], ?_⟩
  have hnone : s₁.view [16] = none := by
    rw [Option.eq_none_iff_forall_not_mem]
    intro x hx
    rw [hrec₁.view, view_init] at hx
    obtain ⟨r, hr, hrx⟩ := List.mem_map.mp ((Newest.indexes_offerAll _).sound [16] x hx)
    exact key_wideStart hr (congrArg Prod.fst hrx)
  have hlive : s.liveMap [16] = some v := by
    have hver : (wideLast v).version = ([16], 17, some v) := by
      have hput : (wideLast v).tombstone = false := show ((0 : UInt8) &&& flagTombstone != 0) = false by decide
      rw [Record.version, Record.payload, hput]
      rfl
    have hview : s.view = Newest.offer s₁.view [16] (17, some v) := by
      rw [hrec.view, List.map_singleton, hver]
      rfl
    rw [Store.liveMap, Newest.live, hview, Newest.offer_newer _ _ _ fun y hy => (by rw [hnone] at hy; cases hy),
      Function.update_self]
    rfl
  rw [hrec.wf.get_eq (show Store.validateKey [16] = none by decide), hlive, answer]

end Wide

end Convergence

/-- The tombstone arrives first on one side, behind its value and again on the other. -/
theorem replicas_converge_delete :
    (applyMachine.run (Store.init ⟨0, .never⟩)
      [Record.encode ⟨0, 2, 1, [1], []⟩, Record.encode ⟨0, 1, 0, [1], [7]⟩]).1.liveMap =
    (applyMachine.run (Store.init ⟨40, .always⟩) [encodeAll [⟨0, 1, 0, [1], [7]⟩, ⟨0, 2, 1, [1], []⟩],
      Record.encode ⟨0, 2, 1, [1], []⟩]).1.liveMap := by
  refine (replicas_converge ⟨0, .never⟩ ⟨40, .always⟩ {⟨0, 1, 0, [1], [7]⟩, ⟨0, 2, 1, [1], []⟩} ?_ _ _ ?_ ?_
    (by decide +kernel) (by decide +kernel) ?_ ?_).1
  · intro r hr r' hr' hseq
    simp only [Finset.coe_insert, Finset.coe_singleton, Set.mem_insert_iff, Set.mem_singleton_iff] at hr hr'
    rcases hr with rfl | rfl <;> rcases hr' with rfl | rfl <;> first | rfl | exact absurd hseq (by decide)
  · have hall : [Record.encode ⟨0, 2, 1, [1], []⟩, Record.encode ⟨0, 1, 0, [1], [7]⟩].flatMap delivered =
        [⟨0, 2, 1, [1], []⟩, ⟨0, 1, 0, [1], [7]⟩] := by decide +kernel
    rw [hall]
    simp [or_comm]
  · have hall : [encodeAll [⟨0, 1, 0, [1], [7]⟩, ⟨0, 2, 1, [1], []⟩],
      Record.encode ⟨0, 2, 1, [1], []⟩].flatMap delivered =
        [⟨0, 1, 0, [1], [7]⟩, ⟨0, 2, 1, [1], []⟩, ⟨0, 2, 1, [1], []⟩] := by decide +kernel
    rw [hall]
    simp
  · have hshort : ∀ raw ∈ [Record.encode ⟨0, 2, 1, [1], []⟩, Record.encode ⟨0, 1, 0, [1], [7]⟩],
        (encodeAll (delivered raw)).length < 2 ^ 32 := by decide +kernel
    exact fun raw hraw => addressable_of_length (hshort raw hraw)
  · have hshort : ∀ raw ∈ [encodeAll [⟨0, 1, 0, [1], [7]⟩, ⟨0, 2, 1, [1], []⟩], Record.encode ⟨0, 2, 1, [1], []⟩],
        (encodeAll (delivered raw)).length < 2 ^ 32 := by decide +kernel
    exact fun raw hraw => addressable_of_length (hshort raw hraw)

/-- **A call of more than 2^32 bytes.** Both stores acknowledge the same seventeen records;
one of them cannot read the last. -/
theorem replica_wrapped : ∃ (s s' : Store) (a b c : UInt64),
    applyMachine.run (Store.init ⟨0, .never⟩) [encodeAll (wideStart wideValue ++ [wideLast wideValue])] = (s, [.ok a]) ∧
    applyMachine.run (Store.init ⟨0, .never⟩) [encodeAll (wideStart wideValue), encodeAll [wideLast wideValue]] =
      (s', [.ok b, .ok c]) ∧
    s.get [16] = .error (.seqMismatch 17 1) ∧ s'.get [16] = .ok wideValue := by
  have hv : wideValue.length = 2 ^ 28 - 30 := by rw [wideValue, List.length_replicate]
  obtain ⟨s, a, hs, hget⟩ := wide_atOnce hv
  obtain ⟨s', b, c, hs', hget'⟩ := wide_apart hv
  exact ⟨s, s', a, b, c, hs, hs', hget, hget'⟩

end Gokv.Engine
