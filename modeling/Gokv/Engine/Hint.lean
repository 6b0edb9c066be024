import Gokv.Engine.Index

/-! Hint files.

A hint is a sidecar that lists, for every record of an immutable data file, its
key, its locator and its flags. It is written under a temporary name and renamed
into place, so a hint that exists is complete. `readHint` replays it; a problem
anywhere in it is an error, but the entries parsed before the problem have been
handed out by then. `readHint_buildHint`: replaying the hint that `buildHint`
writes for a file hands out the file's records, in file order. -/
namespace Gokv.Engine
open Base

/-- `"GOKVHNT1"` -/
def hintMagic : Bytes := [71, 79, 75, 86, 72, 78, 84, 49]

def hintHeaderSize : Nat := 25

/-- What `hintWriter.add` writes for one record. -/
def hintEntry (key : Bytes) (e : Entry) (flags : UInt8) : Bytes :=
  putLE 8 e.seq.toNat ++ ([flags] ++ (putLE 8 e.pos ++ (putLE 4 e.size ++
    (putLE 4 key.length ++ key))))

/-- One entry as the reader hands it out. -/
structure HintItem where
  key : Bytes
  entry : Entry
  flags : UInt8
  deriving DecidableEq, Repr

/-- The loop of `readHint` behind the magic. -/
def readHintFrom (id : Nat) : Nat → Bytes → List HintItem × Option Error
  | 0, _ => ([], none)
  | fuel + 1, b =>
    if b = [] then ([], none)
    else if b.length < hintHeaderSize then ([], some .badHint)
    else
      let keyLen := getLE (slice b 21 25)
      if keyLen = 0 ∨ maxKeySize < keyLen then ([], some .badHint)
      else if b.length < hintHeaderSize + keyLen then ([], some .badHint)
      else
        let item : HintItem :=
          { key := slice b hintHeaderSize (hintHeaderSize + keyLen)
            entry :=
              { pos := getLE (slice b 9 17), seq := UInt64.ofNat (getLE (slice b 0 8)), fileID := id,
                size := getLE (slice b 17 21), tomb := false }
            flags := b.getD 8 0 }
        let (rest, err) := readHintFrom id fuel (b.drop (hintHeaderSize + keyLen))
        (item :: rest, err)

/-- The entries handed out, and the error that ended the replay if one did. -/
def readHint (id : Nat) (b : Bytes) : List HintItem × Option Error :=
  if slice b 0 8 = hintMagic then readHintFrom id b.length (b.drop 8) else ([], some .badHint)

/-- The entry `recover` installs for a replayed item. -/
def HintItem.recovered (i : HintItem) : Entry := {i.entry with tomb := i.flags &&& flagTombstone != 0}

/-- What a hint says of one scanned record. -/
def Scanned.hintItem (id : Nat) (x : Scanned) : HintItem :=
  ⟨x.record.key, {x.entry id with tomb := false}, x.record.flags⟩

def Scanned.hintEntry (id : Nat) (x : Scanned) : Bytes :=
  Engine.hintEntry x.record.key (x.entry id) x.record.flags

/-- The hint of a list of scanned records. -/
def hintOf (id : Nat) (xs : List Scanned) : Bytes := hintMagic ++ xs.flatMap (Scanned.hintEntry id)

section Build
variable [Checksum]

/-- The sidecar `buildHint` writes for the file `b`. -/
def buildHint (id : Nat) (b : Bytes) : Bytes := hintOf id (scanFile b).1

end Build

theorem hintOf_append (id : Nat) (xs : List Scanned) (x : Scanned) :
    hintOf id (xs ++ [x]) = hintOf id xs ++ x.hintEntry id := by
  simp [hintOf]

/-! ### Reading a hint back -/

theorem length_hintEntry (key : Bytes) (e : Entry) (flags : UInt8) :
    (hintEntry key e flags).length = hintHeaderSize + key.length := by
  simp only [hintEntry, List.length_append, length_putLE, List.length_cons, List.length_nil,
    hintHeaderSize]
  omega

/-- One entry read off the front of a hint, in the widths of its fields. -/
theorem readHintFrom_fields (id fuel : Nat) (key : Bytes) (e : Entry) (flags : UInt8) (rest : Bytes)
    (hk : 0 < key.length) (hk' : key.length ≤ maxKeySize) :
    readHintFrom id (fuel + 1) (hintEntry key e flags ++ rest) =
      (⟨key, ⟨getLE (putLE 8 e.pos), e.seq, id, getLE (putLE 4 e.size), false⟩, flags⟩ :: (readHintFrom id fuel rest).1,
        (readHintFrom id fuel rest).2) := by
  have hfields : hintEntry key e flags ++ rest = putLE 8 e.seq.toNat ++ ([flags] ++
      (putLE 8 e.pos ++ (putLE 4 e.size ++ (putLE 4 key.length ++ (key ++ rest))))) := by
    simp [hintEntry]
  have hlen : (hintEntry key e flags ++ rest).length = 25 + key.length + rest.length := by
    rw [List.length_append, length_hintEntry, hintHeaderSize]
  have hseq : slice (hintEntry key e flags ++ rest) 0 8 = putLE 8 e.seq.toNat := by
    rw [hfields]
    exact slice_mid [] (putLE 8 e.seq.toNat) _ rfl (by simp)
  have hflag : (hintEntry key e flags ++ rest).getD 8 0 = flags := by
    rw [hfields, List.getD_append_right _ _ _ _ (by simp)]
    simp
  have hp : slice (hintEntry key e flags ++ rest) 9 17 = putLE 8 e.pos := by
    rw [hfields, ← List.append_assoc]
    exact slice_mid _ _ _ (by simp) (by simp)
  have hs : slice (hintEntry key e flags ++ rest) 17 21 = putLE 4 e.size := by
    rw [hfields, ← List.append_assoc, ← List.append_assoc]
    exact slice_mid _ _ _ (by simp) (by simp)
  have hkl : slice (hintEntry key e flags ++ rest) 21 25 = putLE 4 key.length := by
    rw [hfields, ← List.append_assoc, ← List.append_assoc, ← List.append_assoc]
    exact slice_mid _ _ _ (by simp) (by simp)
  have hkey : slice (hintEntry key e flags ++ rest) 25 (25 + key.length) = key := by
    rw [hfields, ← List.append_assoc, ← List.append_assoc, ← List.append_assoc, ← List.append_assoc]
    exact slice_mid _ _ _ (by simp) rfl
  have hdrop : (hintEntry key e flags ++ rest).drop (25 + key.length) = rest :=
    List.drop_left' (length_hintEntry key e flags)
  have hmax : key.length < 256 ^ 4 := by
    rw [maxKeySize] at hk'
    omega
  have hne : hintEntry key e flags ++ rest ≠ [] := by
    intro h
    rw [h, List.length_nil] at hlen
    omega
  rw [readHintFrom, if_neg hne, hintHeaderSize, if_neg (by omega)]
  simp only [hkl, getLE_putLE_of_lt hmax, hkey, hp, hs, hseq, hflag, hdrop,
    getLE_putLE_of_lt (show e.seq.toNat < 256 ^ 8 from e.seq.toNat_lt), UInt64.ofNat_toNat]
  rw [if_neg (by omega), if_neg (by omega)]

/-- One entry read off the front of a hint. -/
theorem readHintFrom_entry (id fuel : Nat) (key : Bytes) (e : Entry) (flags : UInt8) (rest : Bytes)
    (hk : 0 < key.length) (hk' : key.length ≤ maxKeySize) (hpos : e.pos < 2 ^ 64)
    (hsize : e.size < 2 ^ 32) :
    readHintFrom id (fuel + 1) (hintEntry key e flags ++ rest) =
      (⟨key, {e with fileID := id, tomb := false}, flags⟩ :: (readHintFrom id fuel rest).1,
        (readHintFrom id fuel rest).2) := by
  rw [readHintFrom_fields id fuel key e flags rest hk hk', getLE_putLE_of_lt (show e.pos < 256 ^ 8 by omega),
    getLE_putLE_of_lt (show e.size < 256 ^ 4 by omega)]

section Replay
variable [Checksum]

/-- A scanned record fits the fields of a hint entry, as long as its file's length
fits an offset. -/
theorem readHintFrom_layout (id fuel pos : Nat) (rs : List Record) (hs : ∀ r ∈ rs, r.Sized)
    (hf : rs.length < fuel) (hpos : pos + (encodeAll rs).length < 2 ^ 64) :
    readHintFrom id fuel ((layout pos rs).flatMap (Scanned.hintEntry id)) =
      ((layout pos rs).map (Scanned.hintItem id), none) := by
  induction rs generalizing fuel pos with
  | nil =>
    cases fuel with
    | zero => simp at hf
    | succ fuel => simp [layout, readHintFrom]
  | cons r rest ih =>
    cases fuel with
    | zero => simp at hf
    | succ fuel =>
      obtain ⟨hk, hk', hv⟩ := hs r (List.mem_cons_self ..)
      have hlen := r.length_encode
      rw [encodeAll_cons, List.length_append] at hpos
      rw [List.length_cons] at hf
      have hrest := ih fuel (pos + r.encode.length)
        (fun r' hr' => hs r' (List.mem_cons_of_mem _ hr')) (by omega) (by omega)
      simp only [layout, List.flatMap_cons, List.map_cons]
      have hentry : Scanned.hintEntry id ⟨pos, r.encode, r⟩ =
          hintEntry r.key (Scanned.entry id ⟨pos, r.encode, r⟩) r.flags := rfl
      rw [hentry, readHintFrom_entry id fuel _ _ _ _ hk hk'
        (show pos < 2 ^ 64 by omega) (Nat.mod_lt _ (by decide)), hrest]
      rfl

/-- The hint of a file grows with the file. -/
theorem buildHint_append (id : Nat) {b : Bytes} (hi : Intact b) (r : Record) (hr : r.Sized) :
    buildHint id (b ++ r.encode) = buildHint id b ++ Scanned.hintEntry id ⟨b.length, r.encode, r⟩ := by
  have hrec : records (b ++ r.encode) = records b ++ [r] := by
    have := hi.records_append [r] fun r' hr' => by rwa [List.mem_singleton.mp hr']
    rwa [encodeAll_cons, encodeAll_nil, List.append_nil] at this
  rw [buildHint, (scanFile_spec _).1, hrec, layout_append, hi, Nat.zero_add]
  show hintOf id (layout 0 (records b) ++ [⟨b.length, r.encode, r⟩]) = _
  rw [hintOf_append, buildHint, (scanFile_spec b).1]

/-- A hint starts with the magic and is longer than its list. -/
theorem hintOf_shape (id : Nat) (rs : List Record) : slice (hintOf id (layout 0 rs)) 0 8 = hintMagic ∧
    (hintOf id (layout 0 rs)).drop 8 = (layout 0 rs).flatMap (Scanned.hintEntry id) ∧
    rs.length < (hintOf id (layout 0 rs)).length := by
  refine ⟨slice_mid [] hintMagic _ rfl rfl, List.drop_left' rfl, ?_⟩
  have hlen : (layout 0 rs).length = rs.length := by
    rw [← List.length_map (f := Scanned.record), layout_records]
  have hle : (layout 0 rs).length ≤ ((layout 0 rs).flatMap (Scanned.hintEntry id)).length := by
    rw [List.length_flatMap]
    calc (layout 0 rs).length = ((layout 0 rs).map fun _ => 1).sum := by simp
      _ ≤ _ := List.sum_le_sum fun x _ => by
        rw [Scanned.hintEntry, length_hintEntry, hintHeaderSize]
        omega
  rw [hintOf, List.length_append]
  have : hintMagic.length = 8 := rfl
  omega

/-- **Replaying the hint of a file hands out its records.** -/
theorem readHint_buildHint (id : Nat) (b : Bytes) (h : b.length < 2 ^ 64) :
    readHint id (buildHint id b) = ((scanFile b).1.map (Scanned.hintItem id), none) := by
  obtain ⟨hlay, hsized, t, ht, hb⟩ := scanFile_spec b
  obtain ⟨hmagic, hdrop, hitems⟩ := hintOf_shape id (records b)
  have hlen : (encodeAll (records b)).length ≤ b.length := by
    conv_rhs => rw [hb]
    rw [List.length_append]
    omega
  rw [buildHint, hlay, readHint, if_pos hmagic, hdrop,
    readHintFrom_layout id _ 0 (records b) hsized hitems (by omega)]

/-- Keys and sizes come back from a hint of any length. -/
theorem readHintFrom_sizes (id fuel pos : Nat) (rs : List Record) (hs : ∀ r ∈ rs, r.Sized) (hf : rs.length < fuel) :
    (readHintFrom id fuel ((layout pos rs).flatMap (Scanned.hintEntry id))).2 = none ∧
      (readHintFrom id fuel ((layout pos rs).flatMap (Scanned.hintEntry id))).1.map (fun i => (i.key, i.entry.size)) =
        rs.map fun r => (r.key, r.encode.length) := by
  induction rs generalizing fuel pos with
  | nil =>
    cases fuel with
    | zero => simp at hf
    | succ fuel => simp [layout, readHintFrom]
  | cons r rest ih =>
    cases fuel with
    | zero => simp at hf
    | succ fuel =>
      have hr := hs r (List.mem_cons_self ..)
      obtain ⟨hk, hk', hv⟩ := hr
      rw [List.length_cons] at hf
      obtain ⟨herr, hitems⟩ := ih fuel (pos + r.encode.length)
        (fun r' hr' => hs r' (List.mem_cons_of_mem _ hr')) (by omega)
      have hlen : r.encode.length < 2 ^ 32 := by
        rw [r.length_encode, recordHeaderSize]
        rw [maxKeySize] at hk'
        rw [maxValueSize] at hv
        omega
      have hsize : getLE (putLE 4 (r.encode.length % 2 ^ 32)) = r.encode.length := by
        rw [Nat.mod_eq_of_lt hlen, getLE_putLE_of_lt (show r.encode.length < 256 ^ 4 by omega)]
      have hentry : Scanned.hintEntry id ⟨pos, r.encode, r⟩ =
          hintEntry r.key (Scanned.entry id ⟨pos, r.encode, r⟩) r.flags := rfl
      simp only [layout, List.flatMap_cons]
      rw [hentry, readHintFrom_fields id fuel _ _ _ _ hk hk']
      refine ⟨herr, ?_⟩
      rw [List.map_cons, List.map_cons, hitems]
      exact congrArg (fun n => (r.key, n) :: rest.map fun r => (r.key, r.encode.length)) hsize

theorem readHint_sizes (id : Nat) (rs : List Record) (hs : ∀ r ∈ rs, r.Sized) :
    (readHint id (hintOf id (layout 0 rs))).2 = none ∧
      (readHint id (hintOf id (layout 0 rs))).1.map (fun i => (i.key, i.entry.size)) =
        rs.map fun r => (r.key, r.encode.length) := by
  obtain ⟨hmagic, hdrop, hitems⟩ := hintOf_shape id rs
  rw [readHint, if_pos hmagic, hdrop]
  exact readHintFrom_sizes id _ 0 rs hs hitems

end Replay

end Gokv.Engine
