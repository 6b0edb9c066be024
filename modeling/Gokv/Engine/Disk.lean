import Gokv.Engine.Batch
import Gokv.Engine.Store

/-! What the files hold, and where.

The index and the replays see a directory only through the bytes of its data
files. `Holds ρ B id r` says that record `r` counts among the records of file `id`
under the reading `ρ`: a session counts every record it finds, a replay without a
hint only those whose batch ended. `Located ρ B k e r` says that the locator `e`
leads to `r`, a record of key `k`, and then reading through `e` returns `r`
(`Located.readRecord`). The rest is how the three changes a file can undergo, an
append of whole groups, creation and removal, act on both. -/
namespace Gokv.Engine
open Base

/-- How a reader takes the records of a file. -/
inductive Reading where
  | every
  | committed

namespace Reading

def take : Reading → List Record → List Record
  | .every, rs => rs
  | .committed, rs => Engine.committed id rs

/-- The reader takes all of the list, and of whatever follows what it would take
alone. -/
def Whole : Reading → List Record → Prop
  | .every, _ => True
  | .committed, rs => Grouped rs

/-- What a cut can leave of a whole list. -/
def Tidy : Reading → List Record → Prop
  | .every, _ => True
  | .committed, rs => Engine.Tidy rs

variable {ρ : Reading} {rs ss : List Record}

theorem take_subset {r : Record} (h : r ∈ ρ.take rs) : r ∈ rs := by
  cases ρ with
  | every => exact h
  | committed => exact committed_subset rs r h

theorem Whole.take_eq (h : ρ.Whole rs) : ρ.take rs = rs := by
  cases ρ with
  | every => rfl
  | committed => exact Grouped.settled h

theorem Whole.append (hr : ρ.Whole rs) (hs : ρ.Whole ss) : ρ.Whole (rs ++ ss) := by
  cases ρ with
  | every => trivial
  | committed => exact Grouped.append hr hs

theorem Whole.tidy (h : ρ.Whole rs) : ρ.Tidy rs := by
  cases ρ with
  | every => trivial
  | committed => exact Grouped.isTidy h

theorem whole_nil : ρ.Whole [] := by
  cases ρ with
  | every => trivial
  | committed => exact .nil

theorem whole_single (r : Record) (h : r.batch = false) : ρ.Whole [r] := by
  cases ρ with
  | every => trivial
  | committed => exact .single r h

end Reading

/-- The value a record gives its key; a tombstone gives none. -/
def Record.payload (r : Record) : Option Bytes := if r.tombstone then none else some r.value

@[simp] theorem Record.lifted_payload (r : Record) : r.lifted.payload = r.payload := by
  simp only [Record.payload, Record.lifted_tombstone, Record.lifted_value]

/-- A record as a version of its key. -/
def Record.version (r : Record) : Bytes × Nat × Option Bytes := (r.key, r.seq.toNat, r.payload)

@[simp] theorem Record.lifted_version (r : Record) : r.lifted.version = r.version := by
  simp only [Record.version, Record.lifted_payload, Record.lifted_key, Record.lifted_seq]

/-- The bytes of every data file. -/
def Dir.bytes (d : Dir) (id : Nat) : Option Bytes := d.data[id]?.map DiskFile.bytes

section Disk
variable [Checksum]

def Holds (ρ : Reading) (B : Nat → Option Bytes) (id : Nat) (r : Record) : Prop :=
  ∃ b, B id = some b ∧ r ∈ ρ.take (records b)

structure Located (ρ : Reading) (B : Nat → Option Bytes) (k : Bytes) (e : Entry) (r : Record) : Prop where
  place : ∃ b before after, B e.fileID = some b ∧ records b = before ++ r :: after ∧
    e.pos = (encodeAll before).length ∧ r ∈ ρ.take (records b)
  key : r.key = k
  seq : r.seq = e.seq
  tomb : r.tombstone = e.tomb
  size : e.size = r.encode.length

variable {ρ : Reading} {B : Nat → Option Bytes}

theorem Located.holds {k : Bytes} {e : Entry} {r : Record} (h : Located ρ B k e r) :
    Holds ρ B e.fileID r := by
  obtain ⟨b, _, _, hb, _, _, hr⟩ := h.place
  exact ⟨b, hb, hr⟩

theorem Holds.sized {id : Nat} {r : Record} (h : Holds ρ B id r) : r.Sized := by
  obtain ⟨b, _, hr⟩ := h
  exact records_sized b r (Reading.take_subset hr)

omit [Checksum] in
/-- The encoding of a record within the limits is far from the width of a size. -/
theorem Record.Sized.lt {r : Record} (h : r.Sized) :
    recordHeaderSize + r.key.length + r.value.length < 2 ^ 29 := by
  obtain ⟨_, hk, hv⟩ := h
  rw [maxKeySize] at hk
  rw [maxValueSize] at hv
  rw [recordHeaderSize]
  omega

/-! ### Reading through a locator -/

theorem Located.readAt {d : Dir} {k : Bytes} {e : Entry} {r : Record} (h : Located ρ d.bytes k e r) :
    d.readAt e.fileID e.pos e.size = .ok r.encode := by
  obtain ⟨b, before, after, hb, hrec, hpos, _⟩ := h.place
  obtain ⟨f, hf, rfl⟩ := Option.map_eq_some_iff.mp hb
  obtain ⟨_, _, t, _, hbytes⟩ := scanFile_spec f.bytes
  rw [hrec] at hbytes
  have hsplit : f.bytes = encodeAll before ++ (r.encode ++ (encodeAll after ++ t)) := by
    conv_lhs => rw [hbytes]
    simp
  have hlen : ¬ f.bytes.length < e.pos + e.size := by
    have := congrArg List.length hsplit
    simp only [List.length_append] at this
    rw [hpos, h.size]
    omega
  rw [Dir.readAt, hf]
  simp only [if_neg hlen]
  rw [hsplit, slice_mid _ _ _ hpos.symm (by rw [h.size, hpos])]

/-- **Reading through a locator returns its record.** -/
theorem Located.readRecord {d : Dir} {k : Bytes} {e : Entry} {r : Record}
    (h : Located ρ d.bytes k e r) : Store.readRecord d e = .ok r := by
  rw [Store.readRecord, h.readAt]
  exact decodeRecord_encode r h.holds.sized

theorem Located.unique {d : Dir} {k k' : Bytes} {e : Entry} {r r' : Record}
    (h : Located ρ d.bytes k e r) (h' : Located ρ d.bytes k' e r') : r = r' := by
  have := h.readRecord.symm.trans h'.readRecord
  exact Except.ok.inj this

/-- The locator of a scanned record leads to it. -/
theorem located_scanned {id : Nat} {b : Bytes} (hb : B id = some b) {x : Scanned}
    (hx : x ∈ (scanFile b).1) (hr : x.record ∈ ρ.take (records b)) :
    Located ρ B x.record.key (x.entry id) x.record := by
  rw [(scanFile_spec b).1] at hx
  obtain ⟨before, after, hrec, hpos, hraw⟩ := mem_layout hx
  have hlt := (records_sized b x.record (Reading.take_subset hr)).lt
  refine ⟨⟨b, before, after, hb, hrec, ?_, hr⟩, rfl, rfl, rfl, ?_⟩
  · show x.pos = _
    rw [hpos, Nat.zero_add]
  · show x.raw.length % 2 ^ 32 = _
    rw [hraw, Nat.mod_eq_of_lt]
    rw [x.record.length_encode]
    omega

/-! ### Appends, creation, removal -/

section Change
variable {id : Nat} {b : Bytes} {recs : List Record}

theorem holds_append (hb : B id = some b) (hi : Intact b) (hw : ρ.Whole (records b))
    (hs : ∀ r ∈ recs, r.Sized) (hg : ρ.Whole recs) {i : Nat} {r : Record} :
    Holds ρ (Function.update B id (some (b ++ encodeAll recs))) i r ↔
      Holds ρ B i r ∨ i = id ∧ r ∈ recs := by
  unfold Holds
  by_cases h : i = id
  · subst h
    simp only [Function.update_self, Option.some.injEq, exists_eq_left', hb, hi.records_append recs hs,
      (hw.append hg).take_eq, hw.take_eq, List.mem_append, true_and]
  · simp only [Function.update_of_ne h, h, false_and, or_false]

theorem holds_create (hb : B id = none) {i : Nat} {r : Record} :
    Holds ρ (Function.update B id (some [])) i r ↔ Holds ρ B i r := by
  unfold Holds
  by_cases h : i = id
  · subst h
    have hnil : records ([] : Bytes) = [] := rfl
    simp only [Function.update_self, Option.some.injEq, exists_eq_left', hb, hnil,
      Reading.whole_nil.take_eq, List.not_mem_nil, reduceCtorEq, false_and, exists_false]
  · simp only [Function.update_of_ne h]

theorem holds_remove {i : Nat} {r : Record} :
    Holds ρ (Function.update B id none) i r ↔ i ≠ id ∧ Holds ρ B i r := by
  unfold Holds
  by_cases h : i = id
  · subst h
    simp
  · simp only [Function.update_of_ne h, ne_eq, h, not_false_eq_true, true_and]

/-- A locator into a file that did not change, or only grew, keeps leading to its
record. -/
theorem Located.grow {B' : Nat → Option Bytes} {k : Bytes} {e : Entry} {r : Record}
    (h : Located ρ B k e r)
    (hgrow : ∀ b, B e.fileID = some b → ∃ b' more, B' e.fileID = some b' ∧
      records b' = records b ++ more ∧ ∀ r ∈ ρ.take (records b), r ∈ ρ.take (records b')) :
    Located ρ B' k e r := by
  obtain ⟨b, before, after, hb, hrec, hpos, hr⟩ := h.place
  obtain ⟨b', more, hb', hrec', htake⟩ := hgrow b hb
  refine ⟨⟨b', before, after ++ more, hb', ?_, hpos, htake r hr⟩, h.key, h.seq, h.tomb, h.size⟩
  rw [hrec', hrec, List.append_assoc, List.cons_append]

theorem Located.of_eq {B' : Nat → Option Bytes} {k : Bytes} {e : Entry} {r : Record}
    (h : Located ρ B k e r) (heq : B' e.fileID = B e.fileID) : Located ρ B' k e r :=
  h.grow fun b hb => ⟨b, [], heq.trans hb, (List.append_nil _).symm, fun _ hr => hr⟩

theorem Located.append {k : Bytes} {e : Entry} {r : Record} (h : Located ρ B k e r)
    (hb : B id = some b) (hi : Intact b) (hw : ρ.Whole (records b)) (hs : ∀ r ∈ recs, r.Sized)
    (hg : ρ.Whole recs) : Located ρ (Function.update B id (some (b ++ encodeAll recs))) k e r := by
  by_cases he : e.fileID = id
  · refine h.grow fun b' hb' => ⟨b ++ encodeAll recs, recs, ?_, ?_, fun r' hr' => ?_⟩
    · rw [he, Function.update_self]
    · rw [he, hb] at hb'
      rw [hi.records_append recs hs, Option.some.inj hb']
    · rw [he, hb] at hb'
      cases hb'
      rw [hi.records_append recs hs, (hw.append hg).take_eq]
      exact List.mem_append_left _ (Reading.take_subset hr')
  · exact h.of_eq (Function.update_of_ne he ..)

theorem Located.create {k : Bytes} {e : Entry} {r : Record} (h : Located ρ B k e r) (hb : B id = none) :
    Located ρ (Function.update B id (some [])) k e r := by
  refine h.of_eq (Function.update_of_ne (fun he => ?_) ..)
  obtain ⟨b, _, _, hb', _⟩ := h.place
  rw [he, hb] at hb'
  cases hb'

theorem Located.remove {k : Bytes} {e : Entry} {r : Record} (h : Located ρ B k e r)
    (hne : e.fileID ≠ id) : Located ρ (Function.update B id none) k e r :=
  h.of_eq (Function.update_of_ne hne ..)

end Change

end Disk

/-! ### The file operations, seen through the bytes -/

/-- The ids of a file table are listed in order. -/
theorem keys_ascending {α : Type*} (t : Std.ExtTreeMap Nat α compare) : t.keys.Pairwise (· < ·) :=
  (Std.ExtTreeMap.ordered_keys (t := t)).imp fun hlt => by simpa [Nat.compare_eq_lt] using hlt

namespace Dir

theorem mem_data {d : Dir} {id : Nat} : id ∈ d.data ↔ ∃ b, d.bytes id = some b := by
  rw [Std.ExtTreeMap.mem_iff_isSome_getElem?, bytes]
  cases d.data[id]? <;> simp

theorem bytes_insert (d : Dir) (id : Nat) (f : DiskFile) :
    ({d with data := d.data.insert id f} : Dir).bytes = Function.update d.bytes id (some f.bytes) := by
  funext i
  unfold bytes
  rw [Std.ExtTreeMap.getElem?_insert]
  by_cases h : i = id
  · subst h
    simp
  · simp [h, Ne.symm h]

theorem sync_ok {d : Dir} {id : Nat} {b : Bytes} (h : d.bytes id = some b) :
    ∃ d', d.sync id = .ok d' ∧ d'.bytes = d.bytes ∧ d'.hints = d.hints ∧ d'.manifest = d.manifest ∧
      (∃ f, d'.data[id]? = some f ∧ f.synced = f.bytes.length) ∧
      ∀ i : Nat, i ≠ id → d'.data[i]? = d.data[i]? := by
  obtain ⟨f, hf, rfl⟩ := Option.map_eq_some_iff.mp h
  refine ⟨{d with data := d.data.insert id {f with synced := f.bytes.length}}, ?_, ?_, rfl, rfl,
    ⟨{f with synced := f.bytes.length}, Std.ExtTreeMap.getElem?_insert_self, rfl⟩, fun i hi => ?_⟩
  · rw [sync, hf]
  · rw [bytes_insert]
    exact Function.update_eq_self_iff.mpr h.symm
  · simp [Std.ExtTreeMap.getElem?_insert, hi.symm]

theorem overwrite_end (b buf : Bytes) : overwrite b b.length buf = b ++ buf := by
  simp [overwrite]

/-- A write at the end of a file appends. -/
theorem writeAt_end {d : Dir} {id : Nat} {b : Bytes} (h : d.bytes id = some b) (buf : Bytes) :
    ∃ d', d.writeAt id b.length buf = .ok d' ∧
      d'.bytes = Function.update d.bytes id (some (b ++ buf)) ∧ d'.hints = d.hints ∧
      d'.manifest = d.manifest ∧ ∀ i : Nat, i ≠ id → d'.data[i]? = d.data[i]? := by
  obtain ⟨f, hf, rfl⟩ := Option.map_eq_some_iff.mp h
  refine ⟨{d with data := d.data.insert id {f with bytes := f.bytes ++ buf}}, ?_, ?_, rfl, rfl,
    fun i hi => ?_⟩
  · rw [writeAt, hf, ← overwrite_end]
  · rw [bytes_insert]
  · simp [Std.ExtTreeMap.getElem?_insert, hi.symm]

theorem bytes_truncate (d : Dir) (id n : Nat) :
    (d.truncate id n).bytes = Function.update d.bytes id ((d.bytes id).map (List.take n)) := by
  funext i
  rw [Dir.bytes, Dir.truncate, Std.ExtTreeMap.getElem?_alter]
  by_cases hi : id = i
  · subst hi
    rw [if_pos (by simp), Function.update_self, Dir.bytes]
    cases d.data[id]? <;> rfl
  · rw [if_neg (by simpa using hi), Function.update_of_ne (Ne.symm hi), Dir.bytes]

theorem bytes_removeData (d : Dir) (id : Nat) :
    (d.removeData id).bytes = Function.update d.bytes id none := by
  funext i
  unfold bytes removeData
  rw [Std.ExtTreeMap.getElem?_erase]
  by_cases h : i = id
  · subst h
    simp
  · simp [h, Ne.symm h]

end Dir

end Gokv.Engine
