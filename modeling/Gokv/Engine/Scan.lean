import Gokv.Engine.Record

/-! Walking a data file.

`scanFile` hands every intact record of a file to its callback and stops at the
first one that is truncated, implausible or fails its checksum; here it returns
the records it hands out, with their offsets, and the offset where it stopped.
Any byte string is a list of whole records and a torn rest (`exists_records`),
and the scan reports exactly that list at exactly those offsets (`scanFile_eq`).
A cut anywhere in the encoding of a list keeps the whole records before it
(`take_encodeAll`). -/
namespace Gokv.Engine
open Base

/-- One record as the scan reports it. -/
structure Scanned where
  pos : Nat
  raw : Bytes
  record : Record
  deriving DecidableEq, Repr

section Scan
variable [Checksum]

/-- The record at the front of `b`, its bytes, and what follows it. -/
def nextRecord (b : Bytes) : Option (Record × Bytes × Bytes) :=
  if b.length < recordHeaderSize then none
  else
    let keyLen := getLE (slice b 21 25)
    let valLen := getLE (slice b 25 29)
    if keyLen = 0 ∨ maxKeySize < keyLen ∨ maxValueSize < valLen then none
    else
      let size := recordHeaderSize + keyLen + valLen
      if b.length < size then none
      else match decodeRecord (b.take size) with
        | .error _ => none
        | .ok r => some (r, b.take size, b.drop size)

/-- The loop of `scanFile`; the fuel bounds the number of records. -/
def scanFrom : Nat → Nat → Bytes → List Scanned × Nat
  | 0, pos, _ => ([], pos)
  | fuel + 1, pos, b =>
    match nextRecord b with
    | none => ([], pos)
    | some (r, raw, rest) =>
      let (tail, stop) := scanFrom fuel (pos + raw.length) rest
      (⟨pos, raw, r⟩ :: tail, stop)

def scanFile (b : Bytes) : List Scanned × Nat := scanFrom b.length 0 b

/-- The records of a file, in file order. -/
def records (b : Bytes) : List Record := (scanFile b).1.map Scanned.record

def encodeAll (rs : List Record) : Bytes := rs.flatMap Record.encode

/-- Records laid out one behind the other from offset `pos` on. -/
def layout : Nat → List Record → List Scanned
  | _, [] => []
  | pos, r :: rest => ⟨pos, r.encode, r⟩ :: layout (pos + r.encode.length) rest

/-- No whole record stands at the front. -/
def Torn (b : Bytes) : Prop := nextRecord b = none

/-- Nothing but whole records. -/
def Intact (b : Bytes) : Prop := encodeAll (records b) = b

/-! ### The record at the front -/

theorem nextRecord_encode (r : Record) (h : r.Sized) (rest : Bytes) :
    nextRecord (r.encode ++ rest) = some (r, r.encode, rest) := by
  obtain ⟨hk, hv⟩ := r.header_lengths rest h
  have hlen : (r.encode ++ rest).length =
      recordHeaderSize + r.key.length + r.value.length + rest.length := by
    rw [List.length_append, r.length_encode]
  have hsized : ¬ (r.key.length = 0 ∨ maxKeySize < r.key.length ∨ maxValueSize < r.value.length) := by
    obtain ⟨h1, h2, h3⟩ := h
    omega
  have htake : (r.encode ++ rest).take (recordHeaderSize + r.key.length + r.value.length) = r.encode :=
    List.take_left' r.length_encode
  have hdrop : (r.encode ++ rest).drop (recordHeaderSize + r.key.length + r.value.length) = rest :=
    List.drop_left' r.length_encode
  rw [nextRecord, if_neg (by omega)]
  simp only [hk, hv, if_neg hsized, htake, hdrop, decodeRecord_encode r h]
  rw [if_neg (by omega)]

/-- A record read off the front was encoded there. -/
theorem nextRecord_some {b raw rest : Bytes} {r : Record} (h : nextRecord b = some (r, raw, rest)) :
    r.Sized ∧ raw = r.encode ∧ b = r.encode ++ rest := by
  rw [nextRecord] at h
  by_cases hlen : b.length < recordHeaderSize
  · rw [if_pos hlen] at h
    cases h
  rw [if_neg hlen] at h
  simp only at h
  by_cases hbad : getLE (slice b 21 25) = 0 ∨ maxKeySize < getLE (slice b 21 25) ∨
      maxValueSize < getLE (slice b 25 29)
  · rw [if_pos hbad] at h
    cases h
  rw [if_neg hbad] at h
  by_cases hshort : b.length < recordHeaderSize + getLE (slice b 21 25) + getLE (slice b 25 29)
  · rw [if_pos hshort] at h
    cases h
  rw [if_neg hshort] at h
  cases hd : decodeRecord (b.take (recordHeaderSize + getLE (slice b 21 25) + getLE (slice b 25 29))) with
  | error e =>
    rw [hd] at h
    cases h
  | ok r' =>
    rw [hd] at h
    simp only [Option.some.injEq, Prod.mk.injEq] at h
    obtain ⟨rfl, rfl, rfl⟩ := h
    have henc := encode_of_decode _ _ hd
    have hb : b = r'.encode ++
        b.drop (recordHeaderSize + getLE (slice b 21 25) + getLE (slice b 25 29)) := by
      rw [henc, List.take_append_drop]
    refine ⟨?_, henc.symm, hb⟩
    -- The lengths of the decoded key and value are the ones the header announced.
    have hlens := congrArg List.length henc
    have hk : r'.key.length % 256 ^ 4 = getLE (slice b 21 25) := by
      rw [← getLE_putLE, ← r'.slice_keyLen, ← hb]
    have hv : r'.value.length % 256 ^ 4 = getLE (slice b 25 29) := by
      rw [← getLE_putLE, ← r'.slice_valLen, ← hb]
    rw [r'.length_encode, List.length_take, Nat.min_eq_left (not_lt.mp hshort)] at hlens
    simp only [Record.Sized, maxKeySize, maxValueSize, recordHeaderSize] at hbad hlens ⊢
    omega

theorem torn_nil : Torn ([] : Bytes) := rfl

/-- A strict prefix of one record is torn, wherever it was cut. -/
theorem torn_take (r : Record) (h : r.Sized) {n : Nat} (hn : n < r.encode.length) :
    Torn (r.encode.take n) := by
  unfold Torn
  cases hnext : nextRecord (r.encode.take n) with
  | none => rfl
  | some x =>
    obtain ⟨r', raw, rest⟩ := x
    obtain ⟨hs, _, hb⟩ := nextRecord_some hnext
    -- The prefix holds a whole header, so its lengths are those of `r`.
    have hfull : r.encode = r'.encode ++ (rest ++ r.encode.drop n) := by
      rw [← List.append_assoc, ← hb, List.take_append_drop]
    have hkr := (r.header_lengths [] h).1
    have hvr := (r.header_lengths [] h).2
    have hkr' := (r'.header_lengths (rest ++ r.encode.drop n) hs).1
    have hvr' := (r'.header_lengths (rest ++ r.encode.drop n) hs).2
    rw [← hfull] at hkr' hvr'
    rw [List.append_nil] at hkr hvr
    have hlen := congrArg List.length hb
    rw [List.length_take, List.length_append, r'.length_encode, Nat.min_eq_left hn.le] at hlen
    rw [r.length_encode] at hn
    omega

/-! ### Lists of records -/

@[simp] theorem encodeAll_nil : encodeAll [] = [] := rfl

@[simp] theorem encodeAll_cons (r : Record) (rs : List Record) :
    encodeAll (r :: rs) = r.encode ++ encodeAll rs := rfl

@[simp] theorem encodeAll_append (rs ss : List Record) :
    encodeAll (rs ++ ss) = encodeAll rs ++ encodeAll ss := by
  simp [encodeAll]

/-- Records that can be read back are told apart by their bytes. -/
theorem encodeAll_inj {rs ss : List Record} (hr : ∀ r ∈ rs, decodeRecord r.encode = .ok r)
    (hs : ∀ r ∈ ss, decodeRecord r.encode = .ok r) (heq : encodeAll rs = encodeAll ss) : rs = ss := by
  have hpos {r : Record} {b : Bytes} (hnil : r.encode ++ b = []) : False := by
    have := r.encode_pos
    rw [(List.append_eq_nil_iff.mp hnil).1] at this
    exact Nat.lt_irrefl _ this
  induction rs generalizing ss with
  | nil =>
    cases ss with
    | nil => rfl
    | cons s rest => exact (hpos heq.symm).elim
  | cons r rest ih =>
    cases ss with
    | nil => exact (hpos heq).elim
    | cons s rest' =>
      rw [List.forall_mem_cons] at hr hs
      obtain ⟨rfl, htail⟩ := encode_append_inj hr.1 hs.1 heq
      rw [ih hr.2 hs.2 htail]

theorem foldl_appendRecord (rs : List Record) (dst : Bytes) : rs.foldl appendRecord dst = dst ++ encodeAll rs := by
  induction rs generalizing dst with
  | nil => simp
  | cons r rest ih => rw [List.foldl_cons, ih, appendRecord, encodeAll_cons, List.append_assoc]

theorem scanFrom_layout (rs : List Record) (hs : ∀ r ∈ rs, r.Sized) (t : Bytes) (ht : Torn t)
    (fuel pos : Nat) (hf : rs.length ≤ fuel) :
    scanFrom fuel pos (encodeAll rs ++ t) = (layout pos rs, pos + (encodeAll rs).length) := by
  induction rs generalizing fuel pos with
  | nil =>
    cases fuel with
    | zero => simp [scanFrom, layout]
    | succ fuel =>
      unfold Torn at ht
      simp [scanFrom, layout, ht]
  | cons r rest ih =>
    cases fuel with
    | zero => simp at hf
    | succ fuel =>
      have hr := hs r (List.mem_cons_self ..)
      rw [List.length_cons] at hf
      simp only [encodeAll_cons, List.append_assoc, scanFrom, nextRecord_encode r hr]
      rw [ih (fun r' hr' => hs r' (List.mem_cons_of_mem _ hr')) fuel _ (by omega)]
      simp only [layout, List.length_append, Nat.add_assoc]

theorem length_le_encodeAll (rs : List Record) : rs.length ≤ (encodeAll rs).length := by
  induction rs with
  | nil => rfl
  | cons r rest ih =>
    have := r.encode_pos
    rw [encodeAll_cons, List.length_append, List.length_cons]
    omega

/-- **The scan of whole records and a torn rest** reports the records where they
stand and stops at the end of the last. -/
theorem scanFile_eq (rs : List Record) (hs : ∀ r ∈ rs, r.Sized) (t : Bytes) (ht : Torn t) :
    scanFile (encodeAll rs ++ t) = (layout 0 rs, (encodeAll rs).length) := by
  have hle := length_le_encodeAll rs
  rw [scanFile, scanFrom_layout rs hs t ht _ 0 (by rw [List.length_append]; omega), Nat.zero_add]

theorem layout_records (pos : Nat) (rs : List Record) : (layout pos rs).map Scanned.record = rs := by
  induction rs generalizing pos with
  | nil => rfl
  | cons r rest ih => simp only [layout, List.map_cons, ih]

theorem records_eq (rs : List Record) (hs : ∀ r ∈ rs, r.Sized) (t : Bytes) (ht : Torn t) :
    records (encodeAll rs ++ t) = rs := by
  rw [records, scanFile_eq rs hs t ht, layout_records]

/-- Every byte string is whole records and a torn rest. -/
theorem exists_records (b : Bytes) :
    ∃ rs t, b = encodeAll rs ++ t ∧ (∀ r ∈ rs, Record.Sized r) ∧ Torn t := by
  induction hn : b.length using Nat.strong_induction_on generalizing b with
  | _ n ih =>
    cases hnext : nextRecord b with
    | none => exact ⟨[], b, rfl, by simp, hnext⟩
    | some x =>
      obtain ⟨r, raw, rest⟩ := x
      obtain ⟨hr, _, hb⟩ := nextRecord_some hnext
      have hlt : rest.length < n := by
        have := r.encode_pos
        rw [← hn, hb, List.length_append]
        omega
      obtain ⟨rs, t, hrest, hrs, ht⟩ := ih rest.length hlt rest rfl
      refine ⟨r :: rs, t, ?_, ?_, ht⟩
      · rw [hb, hrest, encodeAll_cons, List.append_assoc]
      · intro r' hr'
        rcases List.mem_cons.mp hr' with rfl | hr'
        · exact hr
        · exact hrs r' hr'

/-- What a scan finds in any byte string. -/
theorem scanFile_spec (b : Bytes) :
    (scanFile b).1 = layout 0 (records b) ∧ (∀ r ∈ records b, r.Sized) ∧
      ∃ t, Torn t ∧ b = encodeAll (records b) ++ t := by
  obtain ⟨rs, t, hb, hs, ht⟩ := exists_records b
  have hrec : records b = rs := by rw [hb, records_eq rs hs t ht]
  refine ⟨?_, by rwa [hrec], t, ht, by rw [hrec, hb]⟩
  rw [hrec, hb, scanFile_eq rs hs t ht]

theorem records_sized (b : Bytes) : ∀ r ∈ records b, r.Sized := (scanFile_spec b).2.1

theorem records_encodeAll (rs : List Record) (hs : ∀ r ∈ rs, r.Sized) : records (encodeAll rs) = rs := by
  have := records_eq rs hs [] torn_nil
  rwa [List.append_nil] at this

theorem intact_encodeAll (rs : List Record) (hs : ∀ r ∈ rs, r.Sized) : Intact (encodeAll rs) := by
  rw [Intact, records_encodeAll rs hs]

theorem intact_nil : Intact ([] : Bytes) := rfl

/-- Appending whole records to whole records. -/
theorem Intact.records_append {b : Bytes} (h : Intact b) (rs : List Record)
    (hs : ∀ r ∈ rs, r.Sized) : records (b ++ encodeAll rs) = records b ++ rs := by
  have hsplit : b ++ encodeAll rs = encodeAll (records b ++ rs) := by
    rw [encodeAll_append, h]
  rw [hsplit, records_encodeAll]
  intro r hr
  rcases List.mem_append.mp hr with hr | hr
  · exact records_sized b r hr
  · exact hs r hr

theorem Intact.append {b : Bytes} (h : Intact b) (rs : List Record) (hs : ∀ r ∈ rs, r.Sized) :
    Intact (b ++ encodeAll rs) := by
  rw [Intact, h.records_append rs hs, encodeAll_append, h]

/-- The end offset of a scan is the end of its last record. -/
theorem scanFile_end (b : Bytes) : (scanFile b).2 = (encodeAll (records b)).length := by
  obtain ⟨rs, t, hb, hs, ht⟩ := exists_records b
  have hrec : records b = rs := by rw [hb, records_eq rs hs t ht]
  rw [hrec, hb, scanFile_eq rs hs t ht]

/-- The encoding of a list cut at byte `n` is the whole records before the cut and
a torn rest. -/
theorem take_encodeAll (rs : List Record) (hs : ∀ r ∈ rs, r.Sized) (n : Nat) :
    ∃ kept dropped t, rs = kept ++ dropped ∧ Torn t ∧ (encodeAll rs).take n = encodeAll kept ++ t ∧
      (encodeAll kept).length ≤ n ∧ (∀ r ∈ dropped.head?, n < (encodeAll (kept ++ [r])).length) ∧
      (t = [] ∨ dropped ≠ []) := by
  induction rs generalizing n with
  | nil => exact ⟨[], [], [], rfl, torn_nil, by simp, by simp, by simp, .inl rfl⟩
  | cons r rest ih =>
    have hr := hs r (List.mem_cons_self ..)
    by_cases hn : n < r.encode.length
    · refine ⟨[], r :: rest, r.encode.take n, rfl, torn_take r hr hn, ?_, by simp, by simpa using hn,
        .inr (by simp)⟩
      rw [encodeAll_cons, List.take_append_of_le_length hn.le, encodeAll_nil, List.nil_append]
    · obtain ⟨kept, dropped, t, hrest, ht, htake, hle, hhead, hlast⟩ :=
        ih (fun r' hr' => hs r' (List.mem_cons_of_mem _ hr')) (n - r.encode.length)
      refine ⟨r :: kept, dropped, t, by rw [hrest]; rfl, ht, ?_, ?_, ?_, hlast⟩
      · rw [encodeAll_cons, List.take_append, htake, List.take_of_length_le (by omega),
          encodeAll_cons, List.append_assoc]
      · rw [encodeAll_cons, List.length_append]
        omega
      · intro r' hr'
        have := hhead r' hr'
        rw [List.cons_append, encodeAll_cons, List.length_append]
        omega

/-- **The record format.** A record within the limits is read back as it was written; what
`decodeRecord` accepts is what its result encodes to; clearing the batch markers of an
encoding gives the encoding of the record without them; and of any such records followed by a
torn one, a scan reports all but the torn one, where they stand, and the end of the last. -/
theorem record_format (rs : List Record) (r : Record) (n : Nat) (hs : ∀ x ∈ rs, x.Sized) (hr : r.Sized)
    (hn : n < r.encode.length) :
    decodeRecord (appendRecord [] r) = .ok r ∧
      (∀ buf x, decodeRecord buf = .ok x → appendRecord [] x = buf) ∧
      clearBatchFlags (appendRecord [] r) =
        appendRecord [] {r with flags := r.flags &&& ~~~(flagBatch ||| flagBatchEnd)} ∧
      scanFile (rs.foldl appendRecord [] ++ (appendRecord [] r).take n) =
        (layout 0 rs, (rs.foldl appendRecord []).length) := by
  have hall : rs.foldl appendRecord [] = encodeAll rs := by
    rw [foldl_appendRecord, List.nil_append]
  refine ⟨decodeRecord_encode r hr, encode_of_decode, ?_, ?_⟩
  · exact clearBatchFlags_encode r
  · rw [hall]
    exact scanFile_eq rs hs _ (torn_take r hr hn)

/-! ### Offsets -/

/-- Every record of a layout stands behind whole records. -/
theorem mem_layout {pos : Nat} {rs : List Record} {x : Scanned} (h : x ∈ layout pos rs) :
    ∃ before after, rs = before ++ x.record :: after ∧ x.pos = pos + (encodeAll before).length ∧
      x.raw = x.record.encode := by
  induction rs generalizing pos with
  | nil => cases h
  | cons r rest ih =>
    rcases List.mem_cons.mp h with rfl | h
    · exact ⟨[], rest, rfl, rfl, rfl⟩
    · obtain ⟨before, after, hrs, hpos, hraw⟩ := ih h
      refine ⟨r :: before, after, by rw [hrs]; rfl, ?_, hraw⟩
      rw [hpos, encodeAll_cons, List.length_append, Nat.add_assoc]

/-- A record of a list has its place in the layout. -/
theorem layout_mem (pos : Nat) {before after : List Record} {r : Record} :
    (⟨pos + (encodeAll before).length, r.encode, r⟩ : Scanned) ∈ layout pos (before ++ r :: after) := by
  induction before generalizing pos with
  | nil => exact List.mem_cons_self ..
  | cons b rest ih =>
    refine List.mem_cons_of_mem _ ?_
    have := ih (pos + b.encode.length)
    rwa [Nat.add_assoc, ← List.length_append, ← encodeAll_cons] at this

theorem layout_append (pos : Nat) (rs ss : List Record) :
    layout pos (rs ++ ss) = layout pos rs ++ layout (pos + (encodeAll rs).length) ss := by
  induction rs generalizing pos with
  | nil => rfl
  | cons r rest ih =>
    simp only [List.cons_append, layout, ih, encodeAll_cons, List.length_append, Nat.add_assoc]

end Scan

/-- Two records, one of a batch, and the first twelve bytes of a third. -/
theorem record_format_torn :
    scanFile ([⟨5, 1, 0, [1], [7]⟩, ⟨-5, 2, 6, [2], []⟩].foldl appendRecord [] ++
      (appendRecord [] ⟨0, 3, 1, [3], []⟩).take 12) = (layout 0 [⟨5, 1, 0, [1], [7]⟩, ⟨-5, 2, 6, [2], []⟩], 61) :=
  (record_format [⟨5, 1, 0, [1], [7]⟩, ⟨-5, 2, 6, [2], []⟩] ⟨0, 3, 1, [3], []⟩ 12 (by decide) (by decide)
    (by decide +kernel)).2.2.2

end Gokv.Engine
