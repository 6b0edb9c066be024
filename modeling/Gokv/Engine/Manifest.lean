import Gokv.Engine.Record

/-! The manifest: one line of text with the watermark of the last compaction.

`readManifest` takes the first line `merge_seq=<digits>` whose number fits 64
bits and answers zero when there is none, or no file. -/
namespace Gokv.Engine

/-- `"merge_seq"` -/
def manifestKey : Bytes := [109, 101, 114, 103, 101, 95, 115, 101, 113]

/-- The decimal digits of `n` in front of `acc`; `fuel` bounds their number. -/
def decimalFrom : Nat → Nat → Bytes → Bytes
  | 0, _, acc => acc
  | fuel + 1, n, acc =>
    if n < 10 then UInt8.ofNat (48 + n % 10) :: acc
    else decimalFrom fuel (n / 10) (UInt8.ofNat (48 + n % 10) :: acc)

/-- The file `writeManifest` leaves: `merge_seq=%d` and a newline. -/
def manifestText (mergeSeq : UInt64) : Bytes :=
  manifestKey ++ 61 :: (decimalFrom 20 mergeSeq.toNat [] ++ [10])

/-- `strings.Split` at newlines. -/
def splitLines : Bytes → List Bytes
  | [] => [[]]
  | b :: rest =>
    match splitLines rest with
    | [] => [[b]]
    | line :: lines => if b = 10 then [] :: line :: lines else (b :: line) :: lines

def isSpace (b : UInt8) : Bool := b = 32 ∨ (9 ≤ b ∧ b ≤ 13)

def trimSpace (b : Bytes) : Bytes := ((b.dropWhile isSpace).reverse.dropWhile isSpace).reverse

def parseDigits : Nat → Bytes → Option Nat
  | n, [] => some n
  | n, d :: rest => if 48 ≤ d ∧ d ≤ 57 then parseDigits (n * 10 + (d.toNat - 48)) rest else none

/-- `strconv.ParseUint` in base ten at 64 bits. -/
def parseUint (b : Bytes) : Option UInt64 :=
  if b = [] then none
  else match parseDigits 0 b with
    | some n => if n < 2 ^ 64 then some (UInt64.ofNat n) else none
    | none => none

def readLine (line : Bytes) : Option UInt64 :=
  let line := trimSpace line
  if line.takeWhile (· ≠ 61) = manifestKey ∧ 61 ∈ line then
    parseUint ((line.dropWhile (· ≠ 61)).drop 1)
  else none

def readManifest (manifest : Option Bytes) : UInt64 :=
  match manifest with
  | none => 0
  | some b => ((splitLines b).findSome? readLine).getD 0

/-! ### The watermark survives the file -/

/-- The digits written for a number, none of them a separator or a blank. -/
theorem decimalFrom_digits (fuel n : Nat) (acc : Bytes) (h : ∀ d ∈ acc, 48 ≤ d ∧ d ≤ 57) :
    ∀ d ∈ decimalFrom fuel n acc, 48 ≤ d ∧ d ≤ 57 := by
  have hdigit : ∀ m, 48 ≤ UInt8.ofNat (48 + m % 10) ∧ UInt8.ofNat (48 + m % 10) ≤ 57 := by
    intro m
    have hm : m % 10 < 10 := Nat.mod_lt _ (by decide)
    simp only [UInt8.le_iff_toNat_le, UInt8.toNat_ofNat', UInt8.toNat_ofNat]
    omega
  induction fuel generalizing n acc with
  | zero => exact h
  | succ fuel ih =>
    have hcons : ∀ d ∈ UInt8.ofNat (48 + n % 10) :: acc, 48 ≤ d ∧ d ≤ 57 := by
      intro d hd
      rcases List.mem_cons.mp hd with rfl | hd
      · exact hdigit n
      · exact h d hd
    rw [decimalFrom]
    split
    · exact hcons
    · exact ih _ _ hcons

theorem parseDigits_decimalFrom (fuel n : Nat) (acc : Bytes) (hf : 0 < fuel) (hn : n < 10 ^ fuel) :
    parseDigits 0 (decimalFrom fuel n acc) = parseDigits n acc := by
  have hdigit : ∀ m, (48 : UInt8) ≤ UInt8.ofNat (48 + m % 10) ∧ UInt8.ofNat (48 + m % 10) ≤ 57 ∧
      (UInt8.ofNat (48 + m % 10)).toNat - 48 = m % 10 := by
    intro m
    have hm : m % 10 < 10 := Nat.mod_lt _ (by decide)
    simp only [UInt8.le_iff_toNat_le, UInt8.toNat_ofNat', UInt8.toNat_ofNat]
    omega
  obtain ⟨h1, h2, h3⟩ := hdigit n
  induction fuel generalizing n acc with
  | zero => exact absurd hf (Nat.lt_irrefl 0)
  | succ fuel ih =>
    rw [decimalFrom]
    split
    · rename_i hlt
      rw [parseDigits, if_pos ⟨h1, h2⟩, h3, Nat.zero_mul, Nat.zero_add, Nat.mod_eq_of_lt hlt]
    · rename_i hge
      have hfuel : 0 < fuel := by
        cases fuel with
        | zero => omega
        | succ fuel => exact Nat.succ_pos _
      have hdiv : n / 10 < 10 ^ fuel := by
        rw [pow_succ] at hn
        omega
      obtain ⟨g1, g2, g3⟩ := hdigit (n / 10)
      rw [ih (n / 10) _ hfuel hdiv g1 g2 g3, parseDigits, if_pos ⟨h1, h2⟩, h3]
      congr 1
      omega

theorem splitLines_append (t rest : Bytes) (h : 10 ∉ t) :
    splitLines (t ++ 10 :: rest) = t :: splitLines rest := by
  induction t with
  | nil =>
    have hne : splitLines rest ≠ [] := by
      cases rest with
      | nil => simp [splitLines]
      | cons b r =>
        rw [splitLines]
        split
        · simp
        · split <;> simp
    rw [List.nil_append, splitLines]
    split
    · contradiction
    · rename_i line lines hl
      rw [hl, if_pos rfl]
  | cons b t ih =>
    have hb : b ≠ 10 := fun he => h (he ▸ List.mem_cons_self ..)
    rw [List.cons_append, splitLines, ih fun hm => h (List.mem_cons_of_mem _ hm)]
    simp [hb]

theorem trimSpace_of_solid (b : Bytes) (h : ∀ x ∈ b, isSpace x = false) : trimSpace b = b := by
  have hdrop : ∀ c : Bytes, (∀ x ∈ c, isSpace x = false) → c.dropWhile isSpace = c := by
    intro c hc
    cases c with
    | nil => rfl
    | cons x rest => rw [List.dropWhile_cons_of_neg]; simp [hc x (List.mem_cons_self ..)]
  rw [trimSpace, hdrop b h, hdrop b.reverse fun x hx => h x (List.mem_reverse.mp hx), List.reverse_reverse]

/-- **The watermark read back is the one written.** -/
theorem readManifest_text (n : UInt64) : readManifest (some (manifestText n)) = n := by
  have hdigits := decimalFrom_digits 20 n.toNat [] (by simp)
  have hdsolid : ∀ d ∈ decimalFrom 20 n.toNat [], isSpace d = false ∧ d ≠ 10 ∧ d ≠ 61 := by
    intro d hd
    have hd' := hdigits d hd
    refine ⟨?_, fun he => absurd (he ▸ hd') (by decide), fun he => absurd (he ▸ hd') (by decide)⟩
    simp only [UInt8.le_iff_toNat_le, UInt8.toNat_ofNat] at hd'
    simp only [isSpace, decide_eq_false_iff_not, UInt8.le_iff_toNat_le, UInt8.toNat_ofNat,
      ← UInt8.toNat_inj]
    omega
  have hkeysolid : ∀ x ∈ manifestKey, isSpace x = false ∧ x ≠ 10 ∧ x ≠ 61 := by decide +kernel
  have hline : 10 ∉ manifestKey ++ 61 :: decimalFrom 20 n.toNat [] := by
    intro hm
    rcases List.mem_append.mp hm with hm | hm
    · exact (hkeysolid 10 hm).2.1 rfl
    · rcases List.mem_cons.mp hm with hm | hm
      · exact absurd hm (by decide)
      · exact (hdsolid 10 hm).2.1 rfl
  have htext : manifestText n = (manifestKey ++ 61 :: decimalFrom 20 n.toNat []) ++ 10 :: [] := by
    simp [manifestText]
  have htrim : trimSpace (manifestKey ++ 61 :: decimalFrom 20 n.toNat []) =
      manifestKey ++ 61 :: decimalFrom 20 n.toNat [] := by
    apply trimSpace_of_solid
    intro x hx
    rcases List.mem_append.mp hx with hx | hx
    · exact (hkeysolid x hx).1
    · rcases List.mem_cons.mp hx with rfl | hx
      · rfl
      · exact (hdsolid x hx).1
  have htake : (manifestKey ++ 61 :: decimalFrom 20 n.toNat []).takeWhile (· ≠ 61) = manifestKey := rfl
  have hdrop : ((manifestKey ++ 61 :: decimalFrom 20 n.toNat []).dropWhile (· ≠ 61)).drop 1 =
      decimalFrom 20 n.toNat [] := rfl
  have hparse : parseUint (decimalFrom 20 n.toNat []) = some n := by
    have hn : n.toNat < 2 ^ 64 := n.toNat_lt
    have hp := parseDigits_decimalFrom 20 n.toNat [] (by decide) (by omega)
    have hne : decimalFrom 20 n.toNat [] ≠ [] := by
      intro he
      rw [he] at hp
      simp only [parseDigits, Option.some.injEq] at hp
      rw [← hp] at he
      exact absurd he (by decide)
    rw [parseUint, if_neg hne, hp, parseDigits]
    simp only [if_pos hn, UInt64.ofNat_toNat]
  have hread : readLine (manifestKey ++ 61 :: decimalFrom 20 n.toNat []) = some n := by
    rw [readLine]
    simp only [htrim]
    rw [if_pos ⟨htake, by simp⟩, hdrop, hparse]
  rw [readManifest, htext, splitLines_append _ _ hline, List.findSome?_cons, hread]
  rfl

end Gokv.Engine
