import Gokv.Engine.Convergence

/-! What `ApplyRaw` lets in.

The bytes of a call are read by a loop of its own, with its own bounds. It accepts exactly
the byte strings that a scan of a data file reads to the last byte (`parseRaw_isOk`), so
nothing gets into the log at which a later recovery would stop. A refused call leaves the
store as it was; an accepted one grows the log by the very bytes it was given, and offers
the index the records a scan of them reports (`applyRaw_admits`), where they stand as long
as they start within the width of the offsets. -/
namespace Gokv.Engine
open Base

section Admission
variable [Checksum] {s : Store} {raw : Bytes}

/-- The records a scan of `raw` reports, once `raw` stands at `base` of file `id`. -/
def scanEntries (id base : Nat) (raw : Bytes) : List (Bytes × Entry) :=
  (scanFile raw).1.map fun x => (x.record.key, {x.entry id with pos := base + x.pos})

/-- A scan that reads to the last byte has found whole records only. -/
theorem scanFile_whole : (scanFile raw).2 = raw.length ↔ Intact raw := by
  obtain ⟨-, -, t, -, hraw⟩ := scanFile_spec raw
  have hlen := congrArg List.length hraw
  rw [List.length_append] at hlen
  rw [scanFile_end, Intact]
  constructor
  · intro h
    have ht : t = [] := List.length_eq_zero_iff.mp (by omega)
    rw [ht, List.append_nil] at hraw
    exact hraw.symm
  · intro h
    rw [h]

/-- **The two readers agree**: the loop of `ApplyRaw` accepts what a scan reads to the last
byte, and reads the same records. -/
theorem parseRaw_eq_ok {recs : List Record} :
    parseRaw raw.length raw = .ok recs ↔ (scanFile raw).2 = raw.length ∧ recs = records raw := by
  rw [scanFile_whole]
  constructor
  · intro h
    obtain ⟨rfl, hs⟩ := parseRaw_ok h
    exact ⟨intact_encodeAll recs hs, (records_encodeAll recs hs).symm⟩
  · rintro ⟨hi, rfl⟩
    have h := parseRaw_encodeAll (records raw) (records_sized raw) (length_le_encodeAll _)
    rwa [show encodeAll (records raw) = raw from hi] at h

/-- A write's locators are those of a scan exactly if every record starts within the width of
the offsets. -/
theorem writeEntries_iff (id base : Nat) (raw : Bytes) :
    Store.writeEntries id base (records raw) (Store.writeBuffer [] (records raw)).2 = scanEntries id base raw ↔
      ∀ x ∈ (scanFile raw).1, x.pos < 2 ^ 32 := by
  have hmade (rs : List Record) (pos : Nat) :
      Store.writeEntries id base rs ((layout pos rs).map fun x => x.pos % 2 ^ 32) =
        (layout pos rs).map fun x => (x.record.key, {x.entry id with pos := base + x.pos % 2 ^ 32}) := by
    induction rs generalizing pos with
    | nil => rfl
    | cons r rest ih =>
      have hsize : encodedSize r.key.length r.value.length = r.encode.length % 2 ^ 32 := by
        rw [r.length_encode, encodedSize]
      have hrest := ih (pos + r.encode.length)
      rw [Store.writeEntries] at hrest ⊢
      rw [layout, List.map_cons, List.map_cons, List.zipWith_cons_cons, hrest, hsize]
      rfl
  rw [writeBuffer_eq, scanEntries, (scanFile_spec raw).1]
  show Store.writeEntries id base (records raw) ((layout 0 (records raw)).map _) = _ ↔ _
  rw [hmade, List.map_inj_left]
  refine forall₂_congr fun x _ => ?_
  simp only [Prod.mk.injEq, true_and, Entry.mk.injEq, and_true, Nat.add_left_cancel_iff]
  exact Nat.mod_eq_iff_lt (by decide)

/-- **What `ApplyRaw` lets in.** Without a failed create, a call on an open store succeeds
exactly if a scan reads its bytes to the last one. A call that fails leaves the whole store
as it was. A call that succeeds grows one file, the active one or a fresh one, by its bytes,
and what it offers the index is what a scan reports exactly if every record starts within
the first 2^32 bytes of the call. -/
theorem applyRaw_admits (h : Poised s) (hopen : s.closed = false) (raw : Bytes)
    (hio : (s.applyRaw raw).2 ≠ .error .fileExists) :
    let s' := (s.applyRaw raw).1
    let id := s'.active.id
    let base := (s.dir.bytes id).getD []
    ((s.applyRaw raw).2.isOk = true ↔ (scanFile raw).2 = raw.length) ∧
      ((s.applyRaw raw).2.isOk = false → s' = s) ∧
      ((s.applyRaw raw).2.isOk = true →
        (id = s.active.id ∨ s.dir.bytes id = none) ∧
        s'.dir.bytes = Function.update s.dir.bytes id (some (base ++ raw)) ∧
        s'.keys = s.keys.installAll (s.madeEntries s' (records raw)) ∧
        s'.seq = topSeq s.seq (records raw) ∧
        (s.madeEntries s' (records raw) = scanEntries id base.length raw ↔
          ∀ x ∈ (scanFile raw).1, x.pos < 2 ^ 32)) := by
  intro s' id base
  have hiff := writeEntries_iff id base.length raw
  cases hp : parseRaw raw.length raw with
  | error e =>
    have happ : s.applyRaw raw = (s, .error e) := by rw [Store.applyRaw, hp]
    have hshort : ¬ (scanFile raw).2 = raw.length := fun hall => by
      rw [parseRaw_eq_ok.mpr ⟨hall, rfl⟩] at hp
      cases hp
    refine ⟨?_, fun _ => congrArg Prod.fst happ, ?_⟩
    · rw [happ]
      simp [Except.isOk, Except.toBool, hshort]
    · rw [happ]
      simp [Except.isOk, Except.toBool]
  | ok recs =>
    obtain ⟨hall, rfl⟩ := parseRaw_eq_ok.mp hp
    have hraw : encodeAll (records raw) = raw := scanFile_whole.mp hall
    cases hrecs : records raw with
    | nil =>
      have happ : s.applyRaw raw = (s, .ok 0) := by rw [Store.applyRaw, hp, hrecs]
      have hs' : s' = s := congrArg Prod.fst happ
      obtain ⟨b, hb, -, -⟩ := h.active
      have hid : id = s.active.id := congrArg (fun t : Store => t.active.id) hs'
      have hbase : s.dir.bytes id = some base := by
        show s.dir.bytes id = some ((s.dir.bytes id).getD [])
        rw [hid, hb, Option.getD_some]
      have hnil : raw = [] := by rw [← hraw, hrecs, encodeAll_nil]
      rw [hrecs] at hiff
      refine ⟨by rw [happ]; simp [Except.isOk, Except.toBool, hall], fun _ => hs',
        fun _ => ⟨.inl hid, ?_, ?_, ?_, hiff⟩⟩
      · rw [hs', hnil, List.append_nil, ← hbase, Function.update_eq_self]
      · rw [hs']
        rfl
      · rw [hs', topSeq_nil]
    | cons r rest =>
      rcases h.writeLocked (records_sized raw) with ⟨s₁, hw, -, hg, hkeys⟩ | ⟨s₁, hw, -⟩
      · have happ : s.applyRaw raw = ({s₁ with seq := if maxSeq (records raw) > s₁.seq then maxSeq (records raw)
            else s₁.seq}, .ok (maxSeq (records raw))) := by
          rw [Store.applyRaw, hp]
          simp only [hrecs, hopen, Bool.false_eq_true, if_false]
          rw [← hrecs, hw]
        have hs' : s' = {s₁ with seq := topSeq s.seq (records raw)} := by
          rw [topSeq, ← hg.seq]
          exact congrArg Prod.fst happ
        have hid : id = s₁.active.id := by
          show s'.active.id = _
          rw [hs']
        rw [← hrecs]
        refine ⟨by rw [happ]; simp [Except.isOk, Except.toBool, hall], fun hno => ?_, fun _ => ⟨?_, ?_, ?_, ?_, hiff⟩⟩
        · rw [happ] at hno
          cases hno
        · rw [hid]
          exact hg.active
        · rw [hs']
          show s₁.dir.bytes = Function.update s.dir.bytes id (some ((s.dir.bytes id).getD [] ++ raw))
          rw [hg.bytes, hraw, hid]
        · rw [hs']
          exact hkeys
        · rw [hs']
      · refine absurd ?_ hio
        rw [Store.applyRaw, hp]
        simp only [hrecs, hopen, Bool.false_eq_true, if_false]
        rw [← hrecs, hw]

end Admission

/-- A record with trailing bytes behind it is refused, and a whole one is let in. -/
theorem applyRaw_admits_whole :
    ((Store.init ⟨0, .never⟩).applyRaw (Record.encode ⟨0, 9, 0, [1], [7]⟩)).1.seq = 9 ∧
      ((Store.init ⟨0, .never⟩).applyRaw (Record.encode ⟨0, 9, 0, [1], [7]⟩ ++ [0])).1 = Store.init ⟨0, .never⟩ := by
  have hopen : (Store.init ⟨0, .never⟩).closed = false := rfl
  have hwhole := applyRaw_admits (sound_init ⟨0, .never⟩).toPoised hopen (Record.encode ⟨0, 9, 0, [1], [7]⟩)
    (by intro h; exact absurd (congrArg Except.isOk h) (by decide +kernel))
  have htrail := applyRaw_admits (sound_init ⟨0, .never⟩).toPoised hopen (Record.encode ⟨0, 9, 0, [1], [7]⟩ ++ [0])
    (by decide +kernel)
  refine ⟨?_, htrail.2.1 (by decide +kernel)⟩
  rw [(hwhole.2.2 (by decide +kernel)).2.2.2.1]
  decide +kernel

/-- **A call of more than 2^32 bytes.** A scan reads it to the last byte and reports the last
record; the call is acknowledged, and that record cannot be read. -/
theorem applyRaw_wrapped : ∃ (s : Store) (a : UInt64),
    (Store.init ⟨0, .never⟩).applyRaw (encodeAll (wideStart wideValue ++ [wideLast wideValue])) = (s, .ok a) ∧
      (scanFile (encodeAll (wideStart wideValue ++ [wideLast wideValue]))).2 =
        (encodeAll (wideStart wideValue ++ [wideLast wideValue])).length ∧
      wideLast wideValue ∈ records (encodeAll (wideStart wideValue ++ [wideLast wideValue])) ∧
      s.get (wideLast wideValue).key = .error (.seqMismatch 17 1) := by
  have hv : wideValue.length = 2 ^ 28 - 30 := by rw [wideValue, List.length_replicate]
  have hs := wide_sized hv
  obtain ⟨s, a, happ, hget⟩ := wide_applied hv
  refine ⟨s, a, happ, ?_, ?_, hget⟩
  · exact scanFile_whole.mpr (intact_encodeAll _ hs)
  · rw [records_encodeAll _ hs]
    exact List.mem_append_right _ (List.mem_singleton_self _)

end Gokv.Engine
