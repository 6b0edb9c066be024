import Gokv.Client.Wire

/-! Frames and the fields of a frame.

`Enc` appends fields to a body and `Dec` reads them off again. A decoder keeps its position
and its first error; behind an error every read yields a zero and moves nothing. The reads
slice the body, and a slice out of range is `none` here, as it is a panic in the source:
`reads_total` says that it does not happen, on any bytes. A `Writer` puts payloads on a
stream, each behind its length, and a `Reader` takes them off.

`wire_round_trip` is both round trips, with what happens on a body or a stream that was cut
or has something behind it. -/
namespace Gokv.Proto
open Base Engine Remote

inductive Error where
  | malformed
  /-- `ErrMalformed`, wrapped with the number of bytes that are left. -/
  | trailing (n : Nat)
  | frameTooLarge
  | eof
  | unexpectedEOF
  deriving DecidableEq, Repr

/-! ### Writing a body -/

inductive Field where
  | u8 (v : UInt8)
  | u32 (v : UInt32)
  | u64 (v : UInt64)
  | bytes (b : Bytes)
  | str (s : Bytes)
  deriving DecidableEq, Repr

def newEnc (first : UInt8) : Bytes := [first]

namespace Enc

def u8 (e : Bytes) (v : UInt8) : Bytes := e ++ [v]
def u32 (e : Bytes) (v : UInt32) : Bytes := e ++ putBE 4 v.toNat
def u64 (e : Bytes) (v : UInt64) : Bytes := e ++ putBE 8 v.toNat
def bytes (e b : Bytes) : Bytes := u32 e (UInt32.ofNat b.length) ++ b
def str (e s : Bytes) : Bytes := u32 e (UInt32.ofNat s.length) ++ s

def field (e : Bytes) : Field → Bytes
  | .u8 v => u8 e v
  | .u32 v => u32 e v
  | .u64 v => u64 e v
  | .bytes b => bytes e b
  | .str s => str e s

end Enc

/-- The body of a frame with these fields. -/
def body (first : UInt8) (fs : List Field) : Bytes := (fs.foldl Enc.field (newEnc first)).drop 1

/-! ### Reading it -/

structure Dec where
  b : Bytes
  pos : Nat
  err : Option Error
  deriving DecidableEq, Repr

def newDec (b : Bytes) : Dec := ⟨b, 0, none⟩

namespace Dec

def fail (d : Dec) : Dec := {d with err := some .malformed}

/-- The next `n` bytes of the body. -/
def window (d : Dec) (n : Nat) : Option Bytes :=
  if d.b.length < d.pos + n then none else some (slice d.b d.pos (d.pos + n))

/-- A big-endian number of `w` bytes. -/
def number (w : Nat) (d : Dec) : Option (Nat × Dec) :=
  if d.err ≠ none ∨ d.b.length < d.pos + w then some (0, d.fail)
  else (d.window w).map fun v => (getBE v, {d with pos := d.pos + w})

def u8 (d : Dec) : Option (UInt8 × Dec) := (d.number 1).map fun x => (UInt8.ofNat x.1, x.2)
def u32 (d : Dec) : Option (UInt32 × Dec) := (d.number 4).map fun x => (UInt32.ofNat x.1, x.2)
def u64 (d : Dec) : Option (UInt64 × Dec) := (d.number 8).map fun x => (UInt64.ofNat x.1, x.2)

-- An int has 64 bits, so the length of a field is not negative.
def bytes (d : Dec) : Option (Bytes × Dec) :=
  match d.u32 with
  | none => none
  | some (n, d) =>
    if d.err ≠ none ∨ d.b.length < d.pos + n.toNat then some ([], d.fail)
    else (d.window n.toNat).map fun v => (v, {d with pos := d.pos + n.toNat})

def str (d : Dec) : Option (Bytes × Dec) := d.bytes

/-- Whatever is left. -/
def rest (d : Dec) : Option (Bytes × Dec) :=
  if d.err ≠ none then some ([], d)
  else if d.b.length < d.pos then none
  else some (d.b.drop d.pos, {d with pos := d.b.length})

def done (d : Dec) : Option Error :=
  if d.err ≠ none then d.err
  else if d.pos ≠ d.b.length then some (.trailing (d.b.length - d.pos))
  else none

def remaining (d : Dec) : Nat := if d.err ≠ none ∨ d.b.length < d.pos then 0 else d.b.length - d.pos

def empty (d : Dec) : Bool := d.b.length ≤ d.pos

end Dec

/-- Which read a field calls for. -/
inductive Kind where
  | u8
  | u32
  | u64
  | bytes
  | str
  deriving DecidableEq, Repr

namespace Field

def kind : Field → Kind
  | .u8 _ => .u8
  | .u32 _ => .u32
  | .u64 _ => .u64
  | .bytes _ => .bytes
  | .str _ => .str

/-- The length of a byte string has a field of 32 bits. -/
def Fits : Field → Prop
  | .bytes b | .str b => b.length < 2 ^ 32
  | _ => True

instance : (f : Field) → Decidable f.Fits
  | .bytes b | .str b => inferInstanceAs (Decidable (b.length < 2 ^ 32))
  | .u8 _ | .u32 _ | .u64 _ => isTrue trivial

/-- What a field adds to a body. -/
def encode : Field → Bytes
  | .u8 v => [v]
  | .u32 v => putBE 4 v.toNat
  | .u64 v => putBE 8 v.toNat
  | .bytes b | .str b => putBE 4 (UInt32.ofNat b.length).toNat ++ b

end Field

/-- What a read that fails yields. -/
def Kind.zero : Kind → Field
  | .u8 => .u8 0
  | .u32 => .u32 0
  | .u64 => .u64 0
  | .bytes => .bytes []
  | .str => .str []

def Dec.read (d : Dec) : Kind → Option (Field × Dec)
  | .u8 => d.u8.map fun x => (.u8 x.1, x.2)
  | .u32 => d.u32.map fun x => (.u32 x.1, x.2)
  | .u64 => d.u64.map fun x => (.u64 x.1, x.2)
  | .bytes => d.bytes.map fun x => (.bytes x.1, x.2)
  | .str => d.str.map fun x => (.str x.1, x.2)

/-- Reads one after the other. -/
def Dec.reads (d : Dec) : List Kind → Option (List Field × Dec)
  | [] => some ([], d)
  | k :: rest =>
    match d.read k with
    | none => none
    | some (f, d) => (d.reads rest).map fun x => (f :: x.1, x.2)

theorem Enc.field_eq (e : Bytes) (f : Field) : Enc.field e f = e ++ f.encode := by
  cases f with
  | u8 v | u32 v | u64 v => rfl
  | bytes b | str b => exact List.append_assoc ..

theorem body_eq (first : UInt8) (fs : List Field) : body first fs = fs.flatMap Field.encode := by
  have hall (e : Bytes) : fs.foldl Enc.field e = e ++ fs.flatMap Field.encode := by
    induction fs generalizing e with
    | nil => simp
    | cons f rest ih => rw [List.foldl_cons, ih, Enc.field_eq, List.flatMap_cons, List.append_assoc]
  rw [body, hall]
  rfl

/-! ### One read -/

theorem getBE_putBE {w n : Nat} (h : n < 256 ^ w) : getBE (putBE w n) = n := by
  rw [getBE, putBE, List.reverse_reverse, getLE_putLE_of_lt h]

/-- A decoder that stands in front of `after`. -/
structure Dec.At (d : Dec) (before after : Bytes) : Prop where
  split : d.b = before ++ after
  pos : d.pos = before.length
  fine : d.err = none

section Read
variable {d : Dec} {before after : Bytes}

theorem Dec.At.window (h : d.At before after) {n : Nat} (hn : n ≤ after.length) : d.window n = some (after.take n) := by
  have hlen : ¬ d.b.length < d.pos + n := by
    rw [h.split, h.pos, List.length_append]
    omega
  rw [Dec.window, if_neg hlen, h.split, h.pos]
  conv_lhs => rw [← List.take_append_drop n after]
  rw [slice_mid before (after.take n) (after.drop n) rfl (by rw [List.length_take_of_le hn])]

/-- A read that has its bytes leaves the decoder behind them. -/
theorem Dec.At.advance (h : d.At before after) {n : Nat} (hn : n ≤ after.length) :
    Dec.At {d with pos := d.pos + n} (before ++ after.take n) (after.drop n) where
  split := by rw [List.append_assoc, List.take_append_drop]; exact h.split
  pos := by
    show d.pos + n = _
    rw [h.pos, List.length_append, List.length_take_of_le hn]
  fine := h.fine

theorem Dec.At.number (h : d.At before after) {w : Nat} (hw : w ≤ after.length) :
    d.number w = some (getBE (after.take w), {d with pos := d.pos + w}) := by
  have hok : ¬ (d.err ≠ none ∨ d.b.length < d.pos + w) := by
    rw [h.fine, h.split, h.pos, List.length_append]
    simp
    omega
  rw [Dec.number, if_neg hok, h.window hw]
  rfl

theorem Dec.At.number_short (h : d.At before after) {w : Nat} (hw : after.length < w) :
    d.number w = some (0, d.fail) := by
  have hbad : d.err ≠ none ∨ d.b.length < d.pos + w := .inr (by rw [h.split, h.pos, List.length_append]; omega)
  rw [Dec.number, if_pos hbad]

theorem Dec.At.done (h : d.At before after) :
    d.done = if after = [] then none else some (.trailing after.length) := by
  have hlen : d.b.length = d.pos + after.length := by rw [h.split, h.pos, List.length_append]
  rw [Dec.done, h.fine, if_neg (by simp), hlen]
  by_cases hnil : after = []
  · rw [if_pos hnil, if_neg (by simp [hnil])]
  · have := List.length_pos_iff.mpr hnil
    rw [if_neg hnil, if_pos (by omega), Nat.add_sub_cancel_left]

/-- `Dec.Bytes` is the functional reading of a byte string. -/
theorem Dec.At.bytes (h : d.At before after) :
    match decBytes after with
    | some (v, rest) => ∃ d', d.bytes = some (v, d') ∧ d'.At (before ++ encBytes v) rest
    | none => ∃ d', d.bytes = some ([], d') ∧ d'.err = some .malformed ∧ d'.b = d.b := by
  rw [decBytes, decU32]
  by_cases hshort : after.length < 4
  · rw [if_pos hshort]
    refine ⟨d.fail.fail, ?_, rfl, rfl⟩
    rw [Dec.bytes, Dec.u32, h.number_short hshort]
    exact if_pos (.inl (Option.some_ne_none _))
  · have hlong : 4 ≤ after.length := Nat.le_of_not_lt hshort
    have h4 := h.advance hlong
    have hlt : getBE (after.take 4) < 2 ^ 32 := by
      have := getLE_lt (after.take 4).reverse
      rw [List.length_reverse, List.length_take_of_le hlong] at this
      simpa [getBE] using this
    have hn : (UInt32.ofNat (getBE (after.take 4))).toNat = getBE (after.take 4) := UInt32.toNat_ofNat_of_lt' hlt
    have hu32 : d.u32 = some (UInt32.ofNat (getBE (after.take 4)), {d with pos := d.pos + 4}) := by
      rw [Dec.u32, h.number hlong]
      rfl
    rw [if_neg hshort, Dec.bytes, hu32]
    simp only [hn]
    by_cases hcut : (after.drop 4).length < getBE (after.take 4)
    · rw [if_pos hcut]
      refine ⟨Dec.fail {d with pos := d.pos + 4}, if_pos (.inr ?_), rfl, rfl⟩
      rw [h.split, h.pos, List.length_append]
      rw [List.length_drop] at hcut
      omega
    · have hfull : getBE (after.take 4) ≤ (after.drop 4).length := Nat.le_of_not_lt hcut
      have hok : ¬ (d.err ≠ none ∨ d.b.length < d.pos + 4 + getBE (after.take 4)) := by
        rw [h.fine, h.split, h.pos, List.length_append]
        rw [List.length_drop] at hfull
        simp
        omega
      have hdone := h4.advance hfull
      have hvalue : decBytes after = some ((after.drop 4).take (getBE (after.take 4)),
          (after.drop 4).drop (getBE (after.take 4))) := by
        rw [decBytes, decU32, if_neg hshort]
        exact if_neg hcut
      rw [if_neg hcut]
      refine ⟨{d with pos := d.pos + 4 + getBE (after.take 4)}, (if_neg hok).trans (by rw [h4.window hfull]; rfl), ?_⟩
      have hsplit : encBytes ((after.drop 4).take (getBE (after.take 4))) =
          after.take 4 ++ (after.drop 4).take (getBE (after.take 4)) := by
        have hboth := (decBytes_exact hvalue).1
        conv_lhs at hboth => rw [← List.take_append_drop 4 after,
          ← List.take_append_drop (getBE (after.take 4)) (after.drop 4),
          ← List.append_assoc]
        exact (List.append_cancel_right hboth).symm
      rw [hsplit, ← List.append_assoc]
      exact hdone

/-- **A field is read back**, and the decoder stands behind it. -/
theorem Dec.At.read {f : Field} (hf : f.Fits) (h : d.At before (f.encode ++ after)) :
    ∃ d', d.read f.kind = some (f, d') ∧ d'.At (before ++ f.encode) after := by
  have hnum {w n : Nat} (hn : n < 256 ^ w) (henc : f.encode = putBE w n) :
      d.number w = some (n, {d with pos := d.pos + w}) ∧
        Dec.At {d with pos := d.pos + w} (before ++ f.encode) after := by
    have hlen : f.encode.length = w := by rw [henc, length_putBE]
    have hle : w ≤ (f.encode ++ after).length := by rw [List.length_append]; omega
    have hnext := h.advance hle
    rw [List.take_left' hlen, List.drop_left' hlen] at hnext
    rw [h.number hle, List.take_left' hlen, henc, getBE_putBE hn]
    exact ⟨rfl, henc ▸ hnext⟩
  have hstr {b : Bytes} (hb : b.length < 2 ^ 32) (henc : f.encode = putBE 4 (UInt32.ofNat b.length).toNat ++ b) :
      ∃ d', d.bytes = some (b, d') ∧ d'.At (before ++ f.encode) after := by
    have heq : f.encode = encBytes b := by rw [henc, UInt32.toNat_ofNat_of_lt' hb]; rfl
    have hread := h.bytes
    rw [heq, decBytes_encBytes hb] at hread
    obtain ⟨d', hd', hat⟩ := hread
    exact ⟨d', hd', heq ▸ hat⟩
  cases f with
  | u8 v =>
    obtain ⟨hread, hat⟩ := hnum (w := 1) (n := v.toNat) v.toNat_lt (by simp [Field.encode, putBE, putLE])
    refine ⟨_, ?_, hat⟩
    rw [Field.kind, Dec.read, Dec.u8, hread]
    simp
  | u32 v =>
    obtain ⟨hread, hat⟩ := hnum (w := 4) (n := v.toNat) v.toNat_lt rfl
    refine ⟨_, ?_, hat⟩
    rw [Field.kind, Dec.read, Dec.u32, hread]
    simp
  | u64 v =>
    obtain ⟨hread, hat⟩ := hnum (w := 8) (n := v.toNat) v.toNat_lt rfl
    refine ⟨_, ?_, hat⟩
    rw [Field.kind, Dec.read, Dec.u64, hread]
    simp
  | bytes b | str b =>
    obtain ⟨d', hread, hat⟩ := hstr hf rfl
    refine ⟨d', ?_, hat⟩
    show Option.map _ d.bytes = _
    rw [hread]
    rfl

/-- **A field that was cut** is an error. -/
theorem Dec.At.read_cut {f : Field} (hf : f.Fits) (hcut : after <+: f.encode) (hne : after ≠ f.encode)
    (h : d.At before after) :
    ∃ v d', d.read f.kind = some (v, d') ∧ d'.err = some .malformed ∧ d'.b = d.b := by
  have hlt : after.length < f.encode.length :=
    lt_of_le_of_ne hcut.length_le fun heq => hne (hcut.eq_of_length heq)
  have hstr {b : Bytes} (hb : b.length < 2 ^ 32) (henc : f.encode = putBE 4 (UInt32.ofNat b.length).toNat ++ b) :
      ∃ d', d.bytes = some ([], d') ∧ d'.err = some .malformed ∧ d'.b = d.b := by
    have heq : f.encode = putBE 4 b.length ++ b := by rw [henc, UInt32.toNat_ofNat_of_lt' hb]
    have hnone : decBytes after = none := by
      by_cases hshort : after.length < 4
      · rw [decBytes, decU32, if_pos hshort]
      · rw [heq] at hcut hlt
        have hhead : putBE 4 b.length <+: after :=
          List.prefix_of_prefix_length_le (List.prefix_append _ _) hcut (by rw [length_putBE]; omega)
        obtain ⟨part, rfl⟩ := hhead
        rw [List.length_append, List.length_append] at hlt
        rw [decBytes, decU32_putBE hb]
        exact if_pos (by omega)
    have hread := h.bytes
    rwa [hnone] at hread
  cases f with
  | u8 v =>
    have hshort : after.length < 1 := hlt
    exact ⟨_, d.fail, by rw [Field.kind, Dec.read, Dec.u8, h.number_short hshort]; rfl, rfl, rfl⟩
  | u32 v =>
    have hshort : after.length < 4 := by rwa [Field.encode, length_putBE] at hlt
    exact ⟨_, d.fail, by rw [Field.kind, Dec.read, Dec.u32, h.number_short hshort]; rfl, rfl, rfl⟩
  | u64 v =>
    have hshort : after.length < 8 := by rwa [Field.encode, length_putBE] at hlt
    exact ⟨_, d.fail, by rw [Field.kind, Dec.read, Dec.u64, h.number_short hshort]; rfl, rfl, rfl⟩
  | bytes b =>
    obtain ⟨d', hread, herr, hb⟩ := hstr hf rfl
    exact ⟨_, d', by rw [Field.kind, Dec.read, hread]; rfl, herr, hb⟩
  | str b =>
    obtain ⟨d', hread, herr, hb⟩ := hstr hf rfl
    exact ⟨_, d', by rw [Field.kind, Dec.read, Dec.str, hread]; rfl, herr, hb⟩

theorem Dec.fail_failed (h : d.err = some .malformed) : d.fail = d := by rw [Dec.fail, ← h]

theorem Dec.number_failed (h : d.err = some .malformed) (w : Nat) : d.number w = some (0, d) := by
  rw [Dec.number, if_pos (.inl (h ▸ Option.some_ne_none _)), Dec.fail_failed h]

theorem Dec.bytes_failed (h : d.err = some .malformed) : d.bytes = some ([], d) := by
  rw [Dec.bytes, Dec.u32, Dec.number_failed h]
  refine (if_pos (.inl (h ▸ Option.some_ne_none _))).trans ?_
  rw [Dec.fail_failed h]

/-- **Behind an error** a read yields a zero and moves nothing. -/
theorem Dec.read_failed (h : d.err = some .malformed) (k : Kind) : d.read k = some (k.zero, d) := by
  cases k with
  | u8 => rw [Dec.read, Dec.u8, Dec.number_failed h]; rfl
  | u32 => rw [Dec.read, Dec.u32, Dec.number_failed h]; rfl
  | u64 => rw [Dec.read, Dec.u64, Dec.number_failed h]; rfl
  | bytes => rw [Dec.read, Dec.bytes_failed h]; rfl
  | str => rw [Dec.read, Dec.str, Dec.bytes_failed h]; rfl

/-- A decoder within its body. -/
structure Dec.Within (d : Dec) : Prop where
  pos : d.pos ≤ d.b.length
  err : d.err = none ∨ d.err = some .malformed

theorem Dec.Within.number (h : d.Within) (w : Nat) : ∃ n d', d.number w = some (n, d') ∧ d'.Within := by
  rw [Dec.number]
  by_cases hbad : d.err ≠ none ∨ d.b.length < d.pos + w
  · exact ⟨0, d.fail, if_pos hbad, h.pos, .inr rfl⟩
  · have hlen : ¬ d.b.length < d.pos + w := fun hlt => hbad (.inr hlt)
    rw [if_neg hbad, Dec.window, if_neg hlen]
    exact ⟨_, _, rfl, Nat.le_of_not_lt hlen, h.err⟩

/-- **No read leaves the body.** -/
theorem Dec.Within.read (h : d.Within) (k : Kind) : ∃ v d', d.read k = some (v, d') ∧ d'.Within := by
  have hbytes : ∃ v d', d.bytes = some (v, d') ∧ d'.Within := by
    obtain ⟨n, d', hd', hin⟩ := h.number 4
    rw [Dec.bytes, Dec.u32, hd']
    simp only [Option.map_some]
    generalize (UInt32.ofNat n).toNat = m
    by_cases hbad : d'.err ≠ none ∨ d'.b.length < d'.pos + m
    · exact ⟨[], d'.fail, if_pos hbad, hin.pos, .inr rfl⟩
    · have hlen : ¬ d'.b.length < d'.pos + m := fun hlt => hbad (.inr hlt)
      rw [if_neg hbad, Dec.window, if_neg hlen]
      exact ⟨_, _, rfl, Nat.le_of_not_lt hlen, hin.err⟩
  cases k with
  | u8 =>
    obtain ⟨n, d', hd', hin⟩ := h.number 1
    exact ⟨_, d', by rw [Dec.read, Dec.u8, hd']; rfl, hin⟩
  | u32 =>
    obtain ⟨n, d', hd', hin⟩ := h.number 4
    exact ⟨_, d', by rw [Dec.read, Dec.u32, hd']; rfl, hin⟩
  | u64 =>
    obtain ⟨n, d', hd', hin⟩ := h.number 8
    exact ⟨_, d', by rw [Dec.read, Dec.u64, hd']; rfl, hin⟩
  | bytes =>
    obtain ⟨v, d', hd', hin⟩ := hbytes
    exact ⟨_, d', by rw [Dec.read, hd']; rfl, hin⟩
  | str =>
    obtain ⟨v, d', hd', hin⟩ := hbytes
    exact ⟨_, d', by rw [Dec.read, Dec.str, hd']; rfl, hin⟩

/-! ### Whole bodies -/

theorem Dec.reads_failed (h : d.err = some .malformed) (ks : List Kind) : d.reads ks = some (ks.map Kind.zero, d) := by
  induction ks with
  | nil => rfl
  | cons k rest ih =>
    rw [Dec.reads, Dec.read_failed h]
    simp only [ih]
    rfl

theorem Dec.Within.reads (h : d.Within) (ks : List Kind) : ∃ vs d', d.reads ks = some (vs, d') ∧ d'.Within := by
  induction ks generalizing d with
  | nil => exact ⟨[], d, rfl, h⟩
  | cons k rest ih =>
    obtain ⟨v, d', hd', hin⟩ := h.read k
    obtain ⟨vs, d'', hd'', hin'⟩ := ih hin
    refine ⟨v :: vs, d'', ?_, hin'⟩
    rw [Dec.reads, hd']
    simp only [hd'']
    rfl

theorem Dec.At.reads {fs : List Field} (hfs : ∀ f ∈ fs, f.Fits) (h : d.At before (fs.flatMap Field.encode ++ after)) :
    ∃ d', d.reads (fs.map Field.kind) = some (fs, d') ∧ d'.At (before ++ fs.flatMap Field.encode) after := by
  induction fs generalizing d before with
  | nil => exact ⟨d, rfl, by simpa using h⟩
  | cons f rest ih =>
    rw [List.forall_mem_cons] at hfs
    rw [List.flatMap_cons, List.append_assoc] at h
    obtain ⟨d', hd', hat⟩ := h.read hfs.1
    obtain ⟨d'', hd'', hat'⟩ := ih hfs.2 hat
    refine ⟨d'', ?_, by rwa [List.flatMap_cons, ← List.append_assoc]⟩
    rw [List.map_cons, Dec.reads, hd']
    simp only [hd'']
    rfl

theorem Dec.At.reads_cut {fs : List Field} (hfs : ∀ f ∈ fs, f.Fits) (hcut : after <+: fs.flatMap Field.encode)
    (hne : after ≠ fs.flatMap Field.encode) (h : d.At before after) :
    ∃ vs d', d.reads (fs.map Field.kind) = some (vs, d') ∧ d'.err = some .malformed := by
  induction fs generalizing d before after with
  | nil => exact absurd (List.prefix_nil.mp hcut) hne
  | cons f rest ih =>
    rw [List.forall_mem_cons] at hfs
    rw [List.flatMap_cons] at hcut hne
    rw [List.map_cons, Dec.reads]
    by_cases hfirst : f.encode <+: after
    · -- The field is whole, and the cut behind it.
      obtain ⟨part, rfl⟩ := hfirst
      obtain ⟨d', hd', hat⟩ := h.read hfs.1
      obtain ⟨vs, d'', hd'', herr⟩ := ih hfs.2 ((List.prefix_append_right_inj _).mp hcut)
        (fun heq => hne (by rw [heq])) hat
      rw [hd']
      exact ⟨f :: vs, d'', by simp only [hd'']; rfl, herr⟩
    · have hlt : ¬ f.encode.length ≤ after.length := fun hle =>
        hfirst (List.prefix_of_prefix_length_le (List.prefix_append _ _) hcut hle)
      have hin : after <+: f.encode := List.prefix_of_prefix_length_le hcut (List.prefix_append _ _) (by omega)
      obtain ⟨v, d', hd', herr, -⟩ := h.read_cut hfs.1 hin fun heq => hlt (by rw [heq])
      rw [hd']
      exact ⟨v :: rest.map (Kind.zero ∘ Field.kind), d', by simp only [Dec.reads_failed herr, List.map_map]; rfl, herr⟩

end Read

theorem newDec_at (b : Bytes) : (newDec b).At [] b := ⟨rfl, rfl, rfl⟩

/-- What is to be read off a body of fields, off a part of it, and off more than it. -/
structure BodyRoundTrip (first : UInt8) (fs : List Field) : Prop where
  whole : ∃ d, (newDec (body first fs)).reads (fs.map Field.kind) = some (fs, d) ∧ d.done = none
  cut : ∀ part, part <+: body first fs → part ≠ body first fs →
    ∃ vs d, (newDec part).reads (fs.map Field.kind) = some (vs, d) ∧ d.err = some .malformed
  longer : ∀ more, more ≠ [] → ∃ vs d, (newDec (body first fs ++ more)).reads (fs.map Field.kind) =
    some (vs, d) ∧ d.done ≠ none

/-- Reads on any bytes: none is out of range, and behind the first error nothing happens. -/
structure FailsClosed (b : Bytes) (ks : List Kind) (vs : List Field) (d : Dec) : Prop where
  read : (newDec b).reads ks = some (vs, d)
  rest : d.rest ≠ none
  err : d.err = none ∨ d.err = some .malformed
  sticky : d.err ≠ none → ∀ more, d.reads more = some (more.map Kind.zero, d)

theorem body_round_trip (first : UInt8) (fs : List Field) (hfs : ∀ f ∈ fs, f.Fits) : BodyRoundTrip first fs := by
  refine ⟨?_, fun part hpart hne => ?_, fun more hmore => ?_⟩
  · have hat := newDec_at (body first fs)
    conv at hat => rw [body_eq, ← List.append_nil (fs.flatMap Field.encode)]
    obtain ⟨d, hd, hend⟩ := hat.reads hfs
    refine ⟨d, by rw [body_eq, ← List.append_nil (fs.flatMap Field.encode)]; exact hd, ?_⟩
    have hpos : d.pos = d.b.length := by rw [hend.pos, hend.split, List.append_nil]
    rw [Dec.done, hend.fine, hpos]
    simp
  · rw [body_eq] at hpart hne
    exact (newDec_at part).reads_cut hfs hpart hne
  · have hat := newDec_at (body first fs ++ more)
    rw [body_eq] at hat ⊢
    obtain ⟨d, hd, hend⟩ := hat.reads hfs
    refine ⟨fs, d, hd, ?_⟩
    have hlen := List.length_pos_iff.mpr hmore
    have hpos : d.pos ≠ d.b.length := by
      have hsplit := congrArg List.length hend.split
      rw [List.length_append] at hsplit
      rw [hend.pos]
      omega
    rw [Dec.done, hend.fine]
    simp [hpos]

theorem fails_closed (b : Bytes) (ks : List Kind) : ∃ vs d, FailsClosed b ks vs d := by
  have hnew : (newDec b).Within := ⟨Nat.zero_le _, .inl rfl⟩
  obtain ⟨vs, d, hd, hin⟩ := hnew.reads ks
  refine ⟨vs, d, hd, ?_, hin.err, fun herr more => Dec.reads_failed (hin.err.resolve_left herr) more⟩
  rw [Dec.rest]
  have := hin.pos
  split
  · exact Option.some_ne_none _
  · rw [if_neg (by omega)]
    exact Option.some_ne_none _

/-! ### Frames -/

/-- `WriteFrame`; what is on the stream is what will have been flushed. -/
def writeFrame (stream payload : Bytes) : Except Error Bytes :=
  if maxFrameSize < payload.length then .error .frameTooLarge else .ok (stream ++ (putBE 4 payload.length ++ payload))

def writeFrames (stream : Bytes) : List Bytes → Except Error Bytes
  | [] => .ok stream
  | p :: rest =>
    match writeFrame stream p with
    | .error e => .error e
    | .ok stream => writeFrames stream rest

/-- `io.ReadFull` at the end of a stream. -/
def readFull (n : Nat) (stream : Bytes) : Except Error (Bytes × Bytes) :=
  if n ≤ stream.length then .ok (stream.take n, stream.drop n)
  else if stream = [] then .error .eof
  else .error .unexpectedEOF

def readFrame (stream : Bytes) : Except Error (Bytes × Bytes) :=
  match readFull 4 stream with
  | .error e => .error e
  | .ok (hdr, rest) => if maxFrameSize < getBE hdr then .error .frameTooLarge else readFull (getBE hdr) rest

/-- Frames read off a stream up to the first error; a frame takes four bytes at least. -/
def readFrames : Nat → Bytes → List Bytes × Option Error
  | 0, _ => ([], none)
  | fuel + 1, stream =>
    match readFrame stream with
    | .error e => ([], some e)
    | .ok (p, rest) => (p :: (readFrames fuel rest).1, (readFrames fuel rest).2)

def readAll (stream : Bytes) : List Bytes × Option Error := readFrames (stream.length + 1) stream

/-- A payload on the stream. -/
def framed (p : Bytes) : Bytes := putBE 4 p.length ++ p

theorem length_framed (p : Bytes) : (framed p).length = 4 + p.length := by
  rw [framed, List.length_append, length_putBE]

theorem writeFrames_eq {ps : List Bytes} (hps : ∀ p ∈ ps, p.length ≤ maxFrameSize) (stream : Bytes) :
    writeFrames stream ps = .ok (stream ++ ps.flatMap framed) := by
  induction ps generalizing stream with
  | nil => simp [writeFrames]
  | cons p rest ih =>
    rw [List.forall_mem_cons] at hps
    rw [writeFrames, writeFrame, if_neg (by omega)]
    simp only
    rw [ih hps.2, List.flatMap_cons, List.append_assoc]
    rfl

/-- A frame is read off the stream. -/
theorem readFrame_framed {p : Bytes} (hp : p.length ≤ maxFrameSize) (rest : Bytes) :
    readFrame (framed p ++ rest) = .ok (p, rest) := by
  have hmax : maxFrameSize < 2 ^ 32 := by decide
  have hhdr := length_putBE 4 p.length
  rw [framed, List.append_assoc, readFrame, readFull, if_pos (by rw [List.length_append]; omega), List.take_left' hhdr,
    List.drop_left' hhdr]
  simp only [getBE_putBE (show p.length < 256 ^ 4 by omega)]
  rw [if_neg (by omega), readFull, if_pos (by rw [List.length_append]; omega), List.take_left, List.drop_left]

/-- A frame that was cut is not. -/
theorem readFrame_cut {p part : Bytes} (hp : p.length ≤ maxFrameSize) (hpart : part <+: framed p)
    (hlt : part.length < 4 + p.length) :
    readFrame part = .error .eof ∨ readFrame part = .error .unexpectedEOF := by
  have hends {n : Nat} {b : Bytes} (hn : b.length < n) : readFull n b = .error .eof ∨
      readFull n b = .error .unexpectedEOF := by
    rw [readFull, if_neg (by omega)]
    by_cases hb : b = []
    · exact .inl (if_pos hb)
    · exact .inr (if_neg hb)
  by_cases hshort : part.length < 4
  · rw [readFrame]
    rcases hends hshort with h | h
    · rw [h]
      exact .inl rfl
    · rw [h]
      exact .inr rfl
  · have hmax : maxFrameSize < 2 ^ 32 := by decide
    have hhdr := length_putBE 4 p.length
    obtain ⟨b, rfl⟩ : putBE 4 p.length <+: part :=
      List.prefix_of_prefix_length_le (List.prefix_append _ _) hpart (by omega)
    rw [List.length_append] at hlt
    rw [readFrame, readFull, if_pos (by rw [List.length_append]; omega), List.take_left' hhdr, List.drop_left' hhdr]
    simp only [getBE_putBE (show p.length < 256 ^ 4 by omega)]
    rw [if_neg (by omega)]
    exact hends (by omega)

/-- Reading a stream of payloads that ends after `n` bytes. -/
theorem readFrames_cut {ps : List Bytes} (hps : ∀ p ∈ ps, p.length ≤ maxFrameSize) {n fuel : Nat}
    (hn : n ≤ (ps.flatMap framed).length) (hfuel : n < fuel) :
    ∃ k e, readFrames fuel ((ps.flatMap framed).take n) = (ps.take k, some e) ∧ (e = .eof ∨ e = .unexpectedEOF) ∧
      k ≤ ps.length ∧ ∀ j ≤ ps.length, j ≤ k ↔ ((ps.take j).flatMap framed).length ≤ n := by
  induction ps generalizing n fuel with
  | nil =>
    obtain ⟨fuel, rfl⟩ : ∃ m, fuel = m + 1 := ⟨fuel - 1, by omega⟩
    have hzero : n = 0 := by simpa using hn
    subst hzero
    refine ⟨0, .eof, rfl, .inl rfl, le_rfl, fun j hj => ?_⟩
    rw [Nat.le_zero.mp hj]
    simp
  | cons p rest ih =>
    rw [List.forall_mem_cons] at hps
    obtain ⟨fuel, rfl⟩ : ∃ m, fuel = m + 1 := ⟨fuel - 1, by omega⟩
    have hlen := length_framed p
    rw [List.flatMap_cons, List.length_append] at hn
    rw [List.flatMap_cons, readFrames]
    by_cases hcut : n < 4 + p.length
    · have htake : (framed p ++ rest.flatMap framed).take n = (framed p).take n := by
        rw [List.take_append_of_le_length (by omega)]
      have hbad := readFrame_cut hps.1 (List.take_prefix n (framed p)) (by rw [List.length_take]; omega)
      have hnone : ∀ j ≤ (p :: rest).length, j ≤ 0 ↔ (((p :: rest).take j).flatMap framed).length ≤ n := fun j _ => by
        cases j with
        | zero => simp
        | succ j =>
          rw [List.take_succ_cons, List.flatMap_cons, List.length_append]
          omega
      rw [htake]
      rcases hbad with h | h
      · exact ⟨0, .eof, by rw [h]; rfl, .inl rfl, Nat.zero_le _, hnone⟩
      · exact ⟨0, .unexpectedEOF, by rw [h]; rfl, .inr rfl, Nat.zero_le _, hnone⟩
    · obtain ⟨m, rfl⟩ : ∃ m, n = (framed p).length + m := ⟨n - (framed p).length, by omega⟩
      obtain ⟨k, e, hread, herr, hk, hall⟩ := ih hps.2 (n := m) (show m ≤ _ by omega) (show m < fuel by omega)
      refine ⟨k + 1, e, ?_, herr, by simpa using hk, fun j hj => ?_⟩
      · rw [List.take_length_add_append, readFrame_framed hps.1]
        simp only [hread]
        rfl
      · cases j with
        | zero => simp
        | succ j =>
          rw [List.take_succ_cons, List.flatMap_cons, List.length_append]
          have := hall j (by simpa using hj)
          omega

theorem readFrames_whole {ps : List Bytes} (hps : ∀ p ∈ ps, p.length ≤ maxFrameSize) {fuel : Nat}
    (hfuel : ps.length < fuel) :
    readFrames fuel (ps.flatMap framed) = (ps, some .eof) := by
  induction ps generalizing fuel with
  | nil =>
    obtain ⟨fuel, rfl⟩ : ∃ m, fuel = m + 1 := ⟨fuel - 1, by omega⟩
    rfl
  | cons p rest ih =>
    rw [List.forall_mem_cons] at hps
    rw [List.length_cons] at hfuel
    obtain ⟨fuel, rfl⟩ : ∃ m, fuel = m + 1 := ⟨fuel - 1, by omega⟩
    rw [List.flatMap_cons, readFrames, readFrame_framed hps.1]
    simp only [ih hps.2 (show rest.length < fuel by omega)]

/-- What is to be read off a stream of payloads, whole or cut. -/
structure FramesRoundTrip (ps : List Bytes) (stream : Bytes) : Prop where
  written : writeFrames [] ps = .ok stream
  whole : readAll stream = (ps, some .eof)
  /-- On a stream of `n` bytes: the payloads that end there or before, then an error. -/
  cut : ∀ n ≤ stream.length, ∃ k e, readAll (stream.take n) = (ps.take k, some e) ∧ k ≤ ps.length ∧
    ∀ j ≤ ps.length, j ≤ k ↔ ((ps.take j).flatMap framed).length ≤ n

theorem frames_round_trip {ps : List Bytes} (hps : ∀ p ∈ ps, p.length ≤ maxFrameSize) :
    FramesRoundTrip ps (ps.flatMap framed) := by
  have hmany : ps.length ≤ (ps.flatMap framed).length := by
    clear hps
    induction ps with
    | nil => exact le_rfl
    | cons p rest ih =>
      rw [List.flatMap_cons, List.length_append, length_framed, List.length_cons]
      omega
  refine ⟨by rw [writeFrames_eq hps, List.nil_append], readFrames_whole hps (by omega), fun n hn => ?_⟩
  · obtain ⟨k, e, hread, -, hk, hall⟩ := readFrames_cut hps hn
      (show n < ((ps.flatMap framed).take n).length + 1 by rw [List.length_take_of_le hn]; omega)
    exact ⟨k, e, hread, hk, hall⟩

/-- **The wire format round trips**: the fields of a body, and the payloads of a stream; what was
cut or has something behind it is noticed, and on no bytes does a decoder leave its body. -/
theorem wire_round_trip :
    (∀ first fs, (∀ f ∈ fs, Field.Fits f) → BodyRoundTrip first fs) ∧
      (∀ b ks, ∃ vs d, FailsClosed b ks vs d) ∧
      ∀ ps : List Bytes, (∀ p ∈ ps, p.length ≤ maxFrameSize) → ∃ stream, FramesRoundTrip ps stream :=
  ⟨body_round_trip, fails_closed, fun _ hps => ⟨_, frames_round_trip hps⟩⟩

theorem wire_round_trip_fields :
    (∀ f ∈ [Field.u8 7, .u32 70000, .bytes [1, 2], .str [], .u64 9], f.Fits) ∧
      BodyRoundTrip 2 [.u8 7, .u32 70000, .bytes [1, 2], .str [], .u64 9] ∧
      ∃ stream, FramesRoundTrip [[1, 2, 3], [], [4]] stream :=
  ⟨by decide, wire_round_trip.1 _ _ (by decide), wire_round_trip.2.2 _ (by decide)⟩

end Gokv.Proto
