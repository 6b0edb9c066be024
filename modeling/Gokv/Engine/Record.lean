import Gokv.Base.LittleEndian

/-! The on-disk record.

A record is a 29-byte header (checksum, timestamp, sequence number, flags, key
length, value length) followed by the key and the value. `encode` is what
`appendRecord` puts behind its buffer and `decodeRecord` reads it back; the two
are inverse in both directions (`decodeRecord_encode`, `encode_of_decode`), with
the checksum an arbitrary function of the bytes it covers. `clearBatchFlags`
rewrites an encoding in place, and `clearBatchFlags_encode` says which record the
rewritten bytes are. -/
namespace Gokv.Engine
open Base

/-- What an operation reports when it does not report nil. -/
inductive Error where
  | keyNotFound
  | closed
  | emptyKey
  | keyTooLarge
  | valueTooLong
  | batchLen
  | needFullSync
  | corrupt
  | short
  | fileGone
  /-- The read retried four times and lost its file every time. -/
  | lostRace
  /-- The index points at one sequence number, the disk holds another. -/
  | seqMismatch (index disk : UInt64)
  /-- A hint file with a bad magic, a bad key length or a torn entry. -/
  | badHint
  /-- Fewer bytes than a positioned read asked for. -/
  | eof
  | fileExists
  | fileClosed
  deriving DecidableEq, Repr

/-- The checksum of the format. -/
class Checksum where
  crc32 : Bytes → UInt32

/-! ### CRC-32 (IEEE) -/

def crcShift : Nat → UInt32 → UInt32
  | 0, c => c
  | n + 1, c => crcShift n (if c &&& 1 = 1 then (c >>> 1) ^^^ 0xEDB88320 else c >>> 1)

def checksumIEEE (b : Bytes) : UInt32 :=
  ~~~ (b.foldl (fun c x => crcShift 8 (c ^^^ x.toUInt32)) 0xFFFFFFFF)

instance ieee : Checksum := ⟨checksumIEEE⟩

-- The check value of the polynomial: the digits 1 to 9.
example : checksumIEEE [49, 50, 51, 52, 53, 54, 55, 56, 57] = 0xCBF43926 := by decide +kernel

/-! ### Records -/

def recordHeaderSize : Nat := 29

def flagTombstone : UInt8 := 1
def flagBatch : UInt8 := 2
def flagBatchEnd : UInt8 := 4

def maxKeySize : Nat := 64 * 2 ^ 10
def maxValueSize : Nat := 256 * 2 ^ 20

structure Record where
  ts : Int64
  seq : UInt64
  flags : UInt8
  key : Bytes
  value : Bytes
  deriving DecidableEq, Repr

namespace Record

def tombstone (r : Record) : Bool := r.flags &&& flagTombstone != 0
def batch (r : Record) : Bool := r.flags &&& flagBatch != 0
def batchEnd (r : Record) : Bool := r.flags &&& flagBatchEnd != 0

/-- The limits the write paths enforce on one item. -/
def Sized (r : Record) : Prop :=
  0 < r.key.length ∧ r.key.length ≤ maxKeySize ∧ r.value.length ≤ maxValueSize

instance (r : Record) : Decidable r.Sized := inferInstanceAs (Decidable (_ ∧ _ ∧ _))

/-- The record outside the batch it was written in. -/
def lifted (r : Record) : Record := {r with flags := r.flags &&& ~~~(flagBatch ||| flagBatchEnd)}

end Record

/-! ### Flags -/

private theorem flag_bits : ∀ f : BitVec 8, (f &&& ~~~6#8) &&& 1#8 = f &&& 1#8 ∧
    (f &&& ~~~6#8) &&& 2#8 = 0#8 ∧ (f &&& 6#8 = 0#8 → f &&& ~~~6#8 = f) := by decide

private theorem flag_end : ∀ f : BitVec 8, (f &&& ~~~6#8) &&& 4#8 = 0#8 := by decide

/-- Clearing the batch markers keeps the tombstone bit, clears the batch bit, and
is the identity on a byte that carries neither marker. -/
theorem flags_cleared (f : UInt8) :
    (f &&& ~~~(flagBatch ||| flagBatchEnd)) &&& flagTombstone = f &&& flagTombstone ∧
      (f &&& ~~~(flagBatch ||| flagBatchEnd)) &&& flagBatch = 0 ∧
      (f &&& (flagBatch ||| flagBatchEnd) = 0 → f &&& ~~~(flagBatch ||| flagBatchEnd) = f) := by
  obtain ⟨ht, hb, hn⟩ := flag_bits f.toBitVec
  refine ⟨UInt8.eq_of_toBitVec_eq ht, UInt8.eq_of_toBitVec_eq hb, fun h => ?_⟩
  exact UInt8.eq_of_toBitVec_eq (hn (congrArg UInt8.toBitVec h))

namespace Record

@[simp] theorem lifted_key (r : Record) : r.lifted.key = r.key := rfl
@[simp] theorem lifted_value (r : Record) : r.lifted.value = r.value := rfl
@[simp] theorem lifted_seq (r : Record) : r.lifted.seq = r.seq := rfl

@[simp] theorem lifted_tombstone (r : Record) : r.lifted.tombstone = r.tombstone := by
  simp only [tombstone, lifted, (flags_cleared r.flags).1]

@[simp] theorem lifted_batch (r : Record) : r.lifted.batch = false := by
  simp only [batch, lifted, (flags_cleared r.flags).2.1]
  rfl

theorem lifted_batchEnd (r : Record) : r.lifted.batchEnd = false := by
  have hclear : r.lifted.flags &&& flagBatchEnd = 0 := UInt8.eq_of_toBitVec_eq (flag_end r.flags.toBitVec)
  simp only [batchEnd, hclear]
  rfl

theorem Sized.lifted {r : Record} (h : r.Sized) : r.lifted.Sized := h

end Record

def encodedSize (keyLen valLen : Nat) : Nat := (recordHeaderSize + keyLen + valLen) % 2 ^ 32

/-- Every byte after the checksum. -/
def Record.body (r : Record) : Bytes :=
  putLE 8 r.ts.toUInt64.toNat ++ (putLE 8 r.seq.toNat ++ ([r.flags] ++
    (putLE 4 r.key.length ++ (putLE 4 r.value.length ++ (r.key ++ r.value)))))

@[simp] theorem Record.length_body (r : Record) :
    r.body.length = 25 + r.key.length + r.value.length := by
  simp only [Record.body, List.length_append, length_putLE, List.length_cons, List.length_nil]
  omega

section Format
variable [Checksum]

def Record.encode (r : Record) : Bytes :=
  putLE 4 (Checksum.crc32 r.body).toNat ++ r.body

/-- `appendRecord` encodes `r` onto `dst`. -/
def appendRecord (dst : Bytes) (r : Record) : Bytes := dst ++ r.encode

def decodeRecord (buf : Bytes) : Except Error Record :=
  if buf.length < recordHeaderSize then .error .short
  else
    let keyLen := getLE (slice buf 21 25)
    let valLen := getLE (slice buf 25 29)
    if recordHeaderSize + keyLen + valLen ≠ buf.length then .error .corrupt
    else if getLE (slice buf 0 4) ≠ (Checksum.crc32 (buf.drop 4)).toNat then .error .corrupt
    else .ok
      { ts := (UInt64.ofNat (getLE (slice buf 4 12))).toInt64
        seq := UInt64.ofNat (getLE (slice buf 12 20))
        flags := buf.getD 20 0
        key := slice buf recordHeaderSize (recordHeaderSize + keyLen)
        value := buf.drop (recordHeaderSize + keyLen) }

def clearBatchFlags (raw : Bytes) : Bytes :=
  if raw.length < recordHeaderSize ∨ raw.getD 20 0 &&& (flagBatch ||| flagBatchEnd) = 0 then raw
  else
    let out := raw.set 20 (raw.getD 20 0 &&& ~~~(flagBatch ||| flagBatchEnd))
    putLE 4 (Checksum.crc32 (out.drop 4)).toNat ++ out.drop 4

/-! ### The fields of an encoding -/

@[simp] theorem Record.length_encode (r : Record) :
    r.encode.length = recordHeaderSize + r.key.length + r.value.length := by
  simp only [Record.encode, List.length_append, length_putLE, Record.length_body, recordHeaderSize]
  omega

theorem Record.encode_pos (r : Record) : 0 < r.encode.length := by
  rw [Record.length_encode, recordHeaderSize]
  omega

/-- An encoding as its eight fields, with whatever follows it. -/
theorem Record.encode_fields (r : Record) (rest : Bytes) :
    r.encode ++ rest =
      putLE 4 (Checksum.crc32 r.body).toNat ++ (putLE 8 r.ts.toUInt64.toNat ++ (putLE 8 r.seq.toNat ++
        ([r.flags] ++ (putLE 4 r.key.length ++ (putLE 4 r.value.length ++
          (r.key ++ (r.value ++ rest))))))) := by
  simp only [Record.encode, Record.body, List.append_assoc]

theorem Record.slice_crc (r : Record) (rest : Bytes) :
    slice (r.encode ++ rest) 0 4 = putLE 4 (Checksum.crc32 r.body).toNat := by
  rw [r.encode_fields]
  exact slice_mid [] (putLE 4 (Checksum.crc32 r.body).toNat) _ rfl (by simp)

theorem Record.slice_ts (r : Record) (rest : Bytes) :
    slice (r.encode ++ rest) 4 12 = putLE 8 r.ts.toUInt64.toNat := by
  rw [r.encode_fields]
  exact slice_mid _ _ _ (length_putLE 4 _) (by simp)

theorem Record.slice_seq (r : Record) (rest : Bytes) :
    slice (r.encode ++ rest) 12 20 = putLE 8 r.seq.toNat := by
  rw [r.encode_fields, ← List.append_assoc]
  exact slice_mid _ _ _ (by simp) (by simp)

theorem Record.slice_flags (r : Record) (rest : Bytes) :
    slice (r.encode ++ rest) 20 21 = [r.flags] := by
  rw [r.encode_fields, ← List.append_assoc, ← List.append_assoc]
  exact slice_mid _ _ _ (by simp) (by simp)

theorem Record.slice_keyLen (r : Record) (rest : Bytes) :
    slice (r.encode ++ rest) 21 25 = putLE 4 r.key.length := by
  rw [r.encode_fields, ← List.append_assoc, ← List.append_assoc, ← List.append_assoc]
  exact slice_mid _ _ _ (by simp) (by simp)

theorem Record.slice_valLen (r : Record) (rest : Bytes) :
    slice (r.encode ++ rest) 25 29 = putLE 4 r.value.length := by
  rw [r.encode_fields, ← List.append_assoc, ← List.append_assoc, ← List.append_assoc,
    ← List.append_assoc]
  exact slice_mid _ _ _ (by simp) (by simp)

theorem Record.slice_key (r : Record) (rest : Bytes) :
    slice (r.encode ++ rest) recordHeaderSize (recordHeaderSize + r.key.length) = r.key := by
  rw [r.encode_fields, ← List.append_assoc, ← List.append_assoc, ← List.append_assoc,
    ← List.append_assoc, ← List.append_assoc]
  exact slice_mid _ _ _ (by simp [recordHeaderSize]) rfl

theorem Record.drop_key (r : Record) :
    r.encode.drop (recordHeaderSize + r.key.length) = r.value := by
  have h := r.encode_fields []
  simp only [List.append_nil] at h
  have hsplit : r.encode = (putLE 4 (Checksum.crc32 r.body).toNat ++ putLE 8 r.ts.toUInt64.toNat ++
      putLE 8 r.seq.toNat ++ [r.flags] ++ putLE 4 r.key.length ++ putLE 4 r.value.length ++ r.key) ++
        r.value := by
    rw [h]
    simp only [List.append_assoc]
  rw [hsplit]
  exact List.drop_left' (by simp [recordHeaderSize]; omega)

theorem Record.drop_crc (r : Record) : r.encode.drop 4 = r.body :=
  List.drop_left' (length_putLE 4 _)

theorem Record.getD_flags (r : Record) : r.encode.getD 20 0 = r.flags := by
  have h := r.slice_flags []
  rw [List.append_nil] at h
  have hlen := r.length_encode
  rw [recordHeaderSize] at hlen
  rw [List.getD_eq_getElem?_getD]
  have hdrop : (slice r.encode 20 21)[0]? = r.encode[20]? := by
    simp [slice]
  rw [← hdrop, h]
  rfl

/-- The two lengths a reader finds in the header of a record within the limits. -/
theorem Record.header_lengths (r : Record) (rest : Bytes) (h : r.Sized) :
    getLE (slice (r.encode ++ rest) 21 25) = r.key.length ∧
      getLE (slice (r.encode ++ rest) 25 29) = r.value.length := by
  obtain ⟨_, hk, hv⟩ := h
  rw [maxKeySize] at hk
  rw [maxValueSize] at hv
  rw [r.slice_keyLen, r.slice_valLen]
  exact ⟨getLE_putLE_of_lt (by omega), getLE_putLE_of_lt (by omega)⟩

/-! ### Round trips -/

/-- A record whose lengths fit in their fields is read back. -/
theorem decode_of_lengths (r : Record) (hk : getLE (putLE 4 r.key.length) = r.key.length)
    (hv : getLE (putLE 4 r.value.length) = r.value.length) : decodeRecord r.encode = .ok r := by
  have hc := r.slice_crc []
  have ht := r.slice_ts []
  have hs := r.slice_seq []
  have hkl := r.slice_keyLen []
  have hvl := r.slice_valLen []
  have hkey := r.slice_key []
  simp only [List.append_nil] at hc ht hs hkl hvl hkey
  have hlen : ¬ r.encode.length < recordHeaderSize := by
    rw [r.length_encode]
    omega
  have hcrc : getLE (putLE 4 (Checksum.crc32 r.body).toNat) = (Checksum.crc32 r.body).toNat :=
    getLE_putLE_of_lt (UInt32.toNat_lt _)
  have htn : getLE (putLE 8 r.ts.toUInt64.toNat) = r.ts.toUInt64.toNat :=
    getLE_putLE_of_lt (UInt64.toNat_lt _)
  have hsn : getLE (putLE 8 r.seq.toNat) = r.seq.toNat := getLE_putLE_of_lt (UInt64.toNat_lt _)
  rw [decodeRecord, if_neg hlen]
  simp only [hkl, hvl, hk, hv, r.length_encode, ne_eq, not_true_eq_false, if_false, hc, r.drop_crc, hcrc, ht, hs,
    htn, hsn, hkey, r.drop_key, r.getD_flags, UInt64.ofNat_toNat]
  rfl

theorem decodeRecord_encode (r : Record) (h : r.Sized) : decodeRecord r.encode = .ok r := by
  obtain ⟨_, hk, hv⟩ := h
  rw [maxKeySize] at hk
  rw [maxValueSize] at hv
  exact decode_of_lengths r (getLE_putLE_of_lt (by omega)) (getLE_putLE_of_lt (by omega))

omit [Checksum] in
/-- The consecutive fields of a byte string put it together. -/
theorem split_fields (buf : Bytes) (n : Nat) :
    buf = slice buf 0 4 ++ (slice buf 4 12 ++ (slice buf 12 20 ++ (slice buf 20 21 ++
      (slice buf 21 25 ++ (slice buf 25 29 ++ (slice buf 29 (29 + n) ++ buf.drop (29 + n))))))) := by
  rw [slice_append_drop buf (by omega), slice_append_drop buf (by omega),
    slice_append_drop buf (by omega), slice_append_drop buf (by omega),
    slice_append_drop buf (by omega), slice_append_drop buf (by omega),
    slice_append_drop buf (by omega), List.drop_zero]

/-- Whatever `decodeRecord` accepts is the encoding of what it returns. -/
theorem encode_of_decode (buf : Bytes) (r : Record) (h : decodeRecord buf = .ok r) :
    r.encode = buf := by
  rw [decodeRecord, recordHeaderSize] at h
  by_cases hlen : buf.length < 29
  · rw [if_pos hlen] at h
    cases h
  rw [if_neg hlen] at h
  by_cases hsize : 29 + getLE (slice buf 21 25) + getLE (slice buf 25 29) = buf.length
  swap
  · rw [if_pos hsize] at h
    cases h
  by_cases hcrc : getLE (slice buf 0 4) = (Checksum.crc32 (buf.drop 4)).toNat
  swap
  · rw [if_neg (not_not.mpr hsize), if_pos hcrc] at h
    cases h
  rw [if_neg (not_not.mpr hsize), if_neg (not_not.mpr hcrc)] at h
  simp only [Except.ok.injEq] at h
  have h4 : (slice buf 0 4).length = 4 := by simp; omega
  have h8 : (slice buf 4 12).length = 8 := by simp; omega
  have h8' : (slice buf 12 20).length = 8 := by simp; omega
  have h1 : slice buf 20 21 = [buf.getD 20 0] := by
    rw [slice, List.drop_take, List.drop_eq_getElem_cons (by omega),
      List.getD_eq_getElem _ _ (by omega)]
    rfl
  have hk4 : (slice buf 21 25).length = 4 := by simp; omega
  have hv4 : (slice buf 25 29).length = 4 := by simp; omega
  have hkey : (slice buf 29 (29 + getLE (slice buf 21 25))).length = getLE (slice buf 21 25) := by
    simp; omega
  have hval : (buf.drop (29 + getLE (slice buf 21 25))).length = getLE (slice buf 25 29) := by
    simp; omega
  have hts : getLE (slice buf 4 12) < 2 ^ 64 := by
    have := getLE_lt (slice buf 4 12); rw [h8] at this; simpa using this
  have hseq : getLE (slice buf 12 20) < 2 ^ 64 := by
    have := getLE_lt (slice buf 12 20); rw [h8'] at this; simpa using this
  subst h
  have hbody : Record.body { ts := (UInt64.ofNat (getLE (slice buf 4 12))).toInt64
                             seq := UInt64.ofNat (getLE (slice buf 12 20))
                             flags := buf.getD 20 0
                             key := slice buf 29 (29 + getLE (slice buf 21 25))
                             value := buf.drop (29 + getLE (slice buf 21 25)) } = buf.drop 4 := by
    have e8 := putLE_getLE (slice buf 4 12)
    have e8' := putLE_getLE (slice buf 12 20)
    have ek := putLE_getLE (slice buf 21 25)
    have ev := putLE_getLE (slice buf 25 29)
    rw [h8] at e8
    rw [h8'] at e8'
    rw [hk4] at ek
    rw [hv4] at ev
    simp only [Record.body, UInt64.toUInt64_toInt64, UInt64.toNat_ofNat_of_lt' hts,
      UInt64.toNat_ofNat_of_lt' hseq, hkey, hval, e8, e8', ek, ev]
    conv_rhs => rw [split_fields buf (getLE (slice buf 21 25))]
    rw [List.drop_left' h4, h1]
  have e4 := putLE_getLE (slice buf 0 4)
  rw [h4, hcrc] at e4
  rw [Record.encode, hbody, e4, slice_append_drop buf (by omega), List.drop_zero]

/-- The rewritten bytes are the encoding of the record outside its batch. -/
theorem clearBatchFlags_encode (r : Record) : clearBatchFlags r.encode = r.lifted.encode := by
  have hlen : ¬ r.encode.length < recordHeaderSize := by
    rw [r.length_encode]
    omega
  rw [clearBatchFlags, r.getD_flags]
  by_cases hf : r.flags &&& (flagBatch ||| flagBatchEnd) = 0
  · rw [if_pos (Or.inr hf)]
    congr 1
    rw [Record.lifted, (flags_cleared r.flags).2.2 hf]
  · rw [if_neg (not_or.mpr ⟨hlen, hf⟩)]
    have hbody : (r.encode.set 20 (r.flags &&& ~~~(flagBatch ||| flagBatchEnd))).drop 4 =
        r.lifted.body := by
      have hsplit : r.encode = (putLE 4 (Checksum.crc32 r.body).toNat ++
          (putLE 8 r.ts.toUInt64.toNat ++ putLE 8 r.seq.toNat)) ++ (r.flags ::
            (putLE 4 r.key.length ++ (putLE 4 r.value.length ++ (r.key ++ r.value)))) := by
        simp [Record.encode, Record.body]
      rw [hsplit, List.set_append_right _ _ (by simp)]
      simp [Record.body, Record.lifted]
    simp only [hbody]
    rfl

/-- The lengths of a record that was read fit in their fields. -/
theorem lengths_of_decode {buf : Bytes} {r : Record} (h : decodeRecord buf = .ok r) :
    getLE (putLE 4 r.key.length) = r.key.length ∧ getLE (putLE 4 r.value.length) = r.value.length := by
  have hkl := r.slice_keyLen []
  have hvl := r.slice_valLen []
  simp only [List.append_nil] at hkl hvl
  have hsum : recordHeaderSize + getLE (putLE 4 r.key.length) + getLE (putLE 4 r.value.length) = r.encode.length := by
    rw [← encode_of_decode buf r h, decodeRecord, hkl, hvl] at h
    by_contra hne
    simp only [ne_eq, hne, not_false_eq_true, if_true] at h
    split at h <;> cases h
  have hk : getLE (putLE 4 r.key.length) ≤ r.key.length := by rw [getLE_putLE]; exact Nat.mod_le ..
  have hv : getLE (putLE 4 r.value.length) ≤ r.value.length := by rw [getLE_putLE]; exact Nat.mod_le ..
  rw [r.length_encode] at hsum
  omega

/-- What was read is read back out of its batch. -/
theorem decodeRecord_lifted {buf : Bytes} {r : Record} (h : decodeRecord buf = .ok r) :
    decodeRecord r.lifted.encode = .ok r.lifted := by
  obtain ⟨hk, hv⟩ := lengths_of_decode h
  exact decode_of_lengths r.lifted hk hv

/-- No encoding is the beginning of another. -/
theorem encode_append_inj {r r' : Record} {a b : Bytes} (hr : decodeRecord r.encode = .ok r)
    (hr' : decodeRecord r'.encode = .ok r') (heq : r.encode ++ a = r'.encode ++ b) : r = r' ∧ a = b := by
  obtain ⟨hk, hv⟩ := lengths_of_decode hr
  obtain ⟨hk', hv'⟩ := lengths_of_decode hr'
  have hkeys : r.key.length = r'.key.length := by
    rw [← hk, ← hk', ← r.slice_keyLen a, ← r'.slice_keyLen b, heq]
  have hvals : r.value.length = r'.value.length := by
    rw [← hv, ← hv', ← r.slice_valLen a, ← r'.slice_valLen b, heq]
  obtain ⟨hsame, hrest⟩ := List.append_inj heq (by rw [r.length_encode, r'.length_encode, hkeys, hvals])
  rw [hsame, hr'] at hr
  exact ⟨(Except.ok.inj hr).symm, hrest⟩

end Format

end Gokv.Engine
