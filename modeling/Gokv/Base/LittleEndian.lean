import Mathlib

/-! Fixed-width little-endian fields in byte strings.

A field of `w` bytes is written by `putLE w` and read back by `getLE`. Both
directions of the round trip hold: reading what was written gives the number
modulo the width (`getLE_putLE`), and writing what was read gives the bytes
(`putLE_getLE`), which is what lets a decoder be inverted byte for byte.
`slice` is a half-open byte range, and `slice_mid` is the one fact about it that
a field layout needs. -/
namespace Gokv

abbrev Bytes := List UInt8

namespace Base

/-- The low `w` bytes of `n`, least significant first. -/
def putLE : Nat → Nat → Bytes
  | 0, _ => []
  | w + 1, n => UInt8.ofNat n :: putLE w (n / 256)

/-- The number a little-endian byte string stands for. -/
def getLE : Bytes → Nat
  | [] => 0
  | b :: rest => b.toNat + 256 * getLE rest

/-- The bytes at offsets `i`, …, `j - 1`. -/
def slice (b : Bytes) (i j : Nat) : Bytes := (b.take j).drop i

@[simp] theorem length_putLE (w n : Nat) : (putLE w n).length = w := by
  induction w generalizing n with
  | zero => rfl
  | succ w ih => simp [putLE, ih]

theorem getLE_putLE (w n : Nat) : getLE (putLE w n) = n % 256 ^ w := by
  induction w generalizing n with
  | zero => simp [putLE, getLE, Nat.mod_one]
  | succ w ih =>
    have hbyte : (UInt8.ofNat n).toNat = n % 256 := UInt8.toNat_ofNat'
    rw [putLE, getLE, ih, hbyte, pow_succ, Nat.mul_comm (256 ^ w), Nat.mod_mul]

/-- Below the width, nothing is lost. -/
theorem getLE_putLE_of_lt {w n : Nat} (h : n < 256 ^ w) : getLE (putLE w n) = n := by
  rw [getLE_putLE, Nat.mod_eq_of_lt h]

theorem getLE_lt (b : Bytes) : getLE b < 256 ^ b.length := by
  induction b with
  | nil => simp [getLE]
  | cons x rest ih =>
    have hx : x.toNat < 256 := x.toNat_lt
    rw [getLE, List.length_cons, pow_succ]
    omega

theorem putLE_getLE (b : Bytes) : putLE b.length (getLE b) = b := by
  induction b with
  | nil => rfl
  | cons x rest ih =>
    have hx : x.toNat < 256 := x.toNat_lt
    have hhead : UInt8.ofNat (x.toNat + 256 * getLE rest) = x := by
      apply UInt8.toNat_inj.mp
      rw [UInt8.toNat_ofNat']
      omega
    have htail : (x.toNat + 256 * getLE rest) / 256 = getLE rest := by omega
    rw [List.length_cons, getLE, putLE, hhead, htail, ih]

/-! ### Slices -/

@[simp] theorem length_slice (b : Bytes) (i j : Nat) :
    (slice b i j).length = min j b.length - i := by
  simp [slice]

/-- The field behind `a` and before `c`. -/
theorem slice_mid (a b c : Bytes) {i j : Nat} (hi : a.length = i) (hj : i + b.length = j) :
    slice (a ++ (b ++ c)) i j = b := by
  subst hi hj
  simp [slice, List.take_append]

/-- A slice is the field that follows it cut off the rest. -/
theorem slice_append_drop (b : Bytes) {i j : Nat} (h : i ≤ j) :
    slice b i j ++ b.drop j = b.drop i := by
  unfold slice
  have hsplit : b.drop i = (b.take j ++ b.drop j).drop i := by rw [List.take_append_drop]
  rw [hsplit]
  by_cases hj : j ≤ b.length
  · rw [List.drop_append_of_le_length]
    rw [List.length_take, Nat.min_eq_left hj]
    exact h
  · rw [List.drop_eq_nil_of_le (by omega : b.length ≤ j), List.append_nil, List.append_nil]

end Base

end Gokv
