import Mathlib.Data.List.Nodup

/-! Lists threaded through pointers.

A node is `some a`, what a list hangs from may be `none`. `next x` is the pointer `x` holds;
it is `none` where `x` has no such field. `Path next x as` says that from `x` on the pointers
run through `as`, and `Links next x as` that they end there. A node is spliced in, or out, by
setting the pointer of its predecessor. -/
namespace Gokv.Base

variable {α : Type*}

def Path (next : Option α → Option (Option α)) : Option α → List α → Prop
  | _, [] => True
  | x, a :: rest => next x = some (some a) ∧ Path next (some a) rest

/-- Where a list that hangs from `x` ends. -/
def lastFrom : Option α → List α → Option α
  | x, [] => x
  | _, a :: rest => lastFrom (some a) rest

def Links (next : Option α → Option (Option α)) (x : Option α) (as : List α) : Prop :=
  Path next x as ∧ next (lastFrom x as) = some none

/-- Follow the pointers from `x` on while they lead to a node that is below. -/
def walk (next : Option α → Option (Option α)) (below : α → Bool) : Nat → Option α → Option (Option α)
  | 0, _ => none
  | fuel + 1, x =>
    match next x with
    | none => none
    | some none => some x
    | some (some a) => if below a then walk next below fuel (some a) else some x

/-- The nodes the pointers run through from `x` on. -/
def trace (next : Option α → Option (Option α)) : Nat → Option α → List α
  | 0, _ => []
  | fuel + 1, x =>
    match next x with
    | some (some a) => a :: trace next fuel (some a)
    | _ => []

variable {next next' : Option α → Option (Option α)} {x : Option α} {as bs : List α} {c : α}

theorem lastFrom_append (x : Option α) (as bs : List α) : lastFrom x (as ++ bs) = lastFrom (lastFrom x as) bs := by
  induction as generalizing x with
  | nil => rfl
  | cons a rest ih => exact ih (some a)

theorem lastFrom_concat (x : Option α) (as : List α) (a : α) : lastFrom x (as ++ [a]) = some a := by
  rw [lastFrom_append]
  rfl

/-- A list ends in its hook or in one of its nodes. -/
theorem lastFrom_cases (x : Option α) (as : List α) :
    lastFrom x as = x ∧ as = [] ∨ ∃ a ∈ as, lastFrom x as = some a := by
  rcases List.eq_nil_or_concat as with rfl | ⟨init, a, rfl⟩
  · exact .inl ⟨rfl, rfl⟩
  · refine .inr ⟨a, by simp, ?_⟩
    rw [List.concat_eq_append, lastFrom_concat]

theorem path_append : Path next x (as ++ bs) ↔ Path next x as ∧ Path next (lastFrom x as) bs := by
  induction as generalizing x with
  | nil => exact ⟨fun h => ⟨trivial, h⟩, fun h => h.2⟩
  | cons a rest ih =>
    show next x = some (some a) ∧ Path next (some a) (rest ++ bs) ↔ _
    rw [ih]
    exact and_assoc.symm

theorem links_append : Links next x (as ++ bs) ↔ Path next x as ∧ Links next (lastFrom x as) bs := by
  rw [Links, Links, path_append, lastFrom_append, and_assoc]

theorem links_cons {a : α} : Links next x (a :: as) ↔ next x = some (some a) ∧ Links next (some a) as :=
  and_assoc

/-- The pointer of the last node plays no part in a path. -/
theorem Path.congr (h : Path next x as) (hx : ∀ a ∈ as, x ≠ some a) (hd : as.Nodup)
    (heq : ∀ y, (∀ a, y = some a → some a = x ∨ a ∈ as) → y ≠ lastFrom x as → next' y = next y) : Path next' x as := by
  induction as generalizing x with
  | nil => trivial
  | cons a rest ih =>
    obtain ⟨ha, hrest⟩ := List.nodup_cons.mp hd
    have hne : x ≠ lastFrom (some a) rest := by
      rcases lastFrom_cases (some a) rest with ⟨hlast, -⟩ | ⟨b, hb, hlast⟩
      · rw [hlast]
        exact hx a (List.mem_cons_self ..)
      · rw [hlast]
        exact hx b (List.mem_cons_of_mem _ hb)
    refine ⟨(heq x (fun b hb => .inl hb.symm) hne).trans h.1, ih h.2 (fun b hb hab => ha ?_) hrest fun y hy => ?_⟩
    · rw [Option.some.inj hab]
      exact hb
    · refine heq y fun b hb => .inr ?_
      rcases hy b hb with hba | hmem
      · exact Option.some.inj hba ▸ List.mem_cons_self ..
      · exact List.mem_cons_of_mem _ hmem

/-- A list hangs from whatever points to its head. -/
theorem Links.rehang {y : Option α} (h : Links next x as) (hy : next' y = next x)
    (heq : ∀ a ∈ as, next' (some a) = next (some a)) : Links next' y as := by
  induction as generalizing x y with
  | nil => exact ⟨trivial, hy.trans h.2⟩
  | cons a rest ih =>
    obtain ⟨ha, hrest⟩ := links_cons.mp h
    exact links_cons.mpr ⟨hy.trans ha, ih hrest (heq a (List.mem_cons_self ..)) fun b hb =>
      heq b (List.mem_cons_of_mem _ hb)⟩

/-- Behind the nodes of one list there is none of another. -/
theorem lastFrom_ne (hd : (as ++ bs).Nodup) {b : α} (hb : b ∈ bs) : some b ≠ lastFrom none as := by
  rcases lastFrom_cases none as with ⟨hlast, -⟩ | ⟨a, ha, hlast⟩
  · rw [hlast]
    exact Option.some_ne_none b
  · rw [hlast]
    rintro ⟨⟩
    exact (List.nodup_append.mp hd).2.2 b ha b hb rfl

/-- **Splicing a node in** behind `as`. -/
theorem Links.insert (h : Links next none (as ++ bs)) (hd : (as ++ bs).Nodup) (hc : c ∉ as ++ bs)
    (hlast : next' (lastFrom none as) = some (some c)) (hnew : next' (some c) = next (lastFrom none as))
    (heq : ∀ y, y ≠ lastFrom none as → y ≠ some c → next' y = next y) : Links next' none (as ++ c :: bs) := by
  obtain ⟨hpath, hrest⟩ := links_append.mp h
  have hne {b : α} (hb : b ∈ as ++ bs) : some b ≠ some c := fun hbc => hc (Option.some.inj hbc ▸ hb)
  refine links_append.mpr ⟨?_, links_cons.mpr ⟨hlast, hrest.rehang hnew fun b hb => ?_⟩⟩
  · refine hpath.congr (fun a _ => (Option.some_ne_none a).symm) (List.nodup_append.mp hd).1 fun y hy hylast => ?_
    refine heq y hylast fun hyc => ?_
    rcases hy c hyc with hbad | hmem
    · cases hbad
    · exact hc (List.mem_append_left _ hmem)
  · exact heq _ (lastFrom_ne hd hb) (hne (List.mem_append_right _ hb))

/-- **Splicing a node out** behind `as`. -/
theorem Links.remove (h : Links next none (as ++ c :: bs)) (hd : (as ++ c :: bs).Nodup)
    (hlast : next' (lastFrom none as) = next (some c)) (heq : ∀ y, y ≠ lastFrom none as → next' y = next y) :
    Links next' none (as ++ bs) := by
  obtain ⟨hpath, hrest⟩ := links_append.mp h
  obtain ⟨-, hrest⟩ := links_cons.mp hrest
  refine links_append.mpr ⟨hpath.congr (fun a _ => (Option.some_ne_none a).symm) (List.nodup_append.mp hd).1
    fun y _ hy => heq y hy, ?_⟩
  exact hrest.rehang hlast fun b hb => heq _ (lastFrom_ne hd (List.mem_cons_of_mem _ hb))

/-- **A walk** goes as far as the nodes are below. -/
theorem walk_path {below : α → Bool} {fuel : Nat} (h : Path next x as) (hbelow : ∀ a ∈ as, below a = true)
    (hstop : next (lastFrom x as) = some none ∨ ∃ b, next (lastFrom x as) = some (some b) ∧ below b = false)
    (hfuel : as.length < fuel) : walk next below fuel x = some (lastFrom x as) := by
  induction as generalizing x fuel with
  | nil =>
    obtain ⟨fuel, rfl⟩ : ∃ n, fuel = n + 1 := ⟨fuel - 1, by rw [List.length_nil] at hfuel; omega⟩
    rw [walk]
    rcases hstop with hend | ⟨b, hb, hnot⟩
    · have hend : next x = some none := hend
      rw [hend]
      rfl
    · have hb : next x = some (some b) := hb
      rw [hb]
      simp only [hnot, Bool.false_eq_true, if_false]
      rfl
  | cons a rest ih =>
    obtain ⟨fuel, rfl⟩ : ∃ n, fuel = n + 1 := ⟨fuel - 1, by omega⟩
    rw [walk, h.1]
    simp only [hbelow a (List.mem_cons_self ..), if_true]
    exact ih h.2 (fun b hb => hbelow b (List.mem_cons_of_mem _ hb)) hstop (by rw [List.length_cons] at hfuel; omega)

theorem Links.trace_eq (h : Links next x as) {fuel : Nat} (hfuel : as.length ≤ fuel) : trace next fuel x = as := by
  induction as generalizing x fuel with
  | nil =>
    cases fuel with
    | zero => rfl
    | succ fuel =>
      have hend : next x = some none := h.2
      rw [trace, hend]
  | cons a rest ih =>
    obtain ⟨fuel, rfl⟩ : ∃ n, fuel = n + 1 := ⟨fuel - 1, by rw [List.length_cons] at hfuel; omega⟩
    obtain ⟨ha, hrest⟩ := links_cons.mp h
    rw [trace, ha]
    simp only
    rw [ih hrest (by rw [List.length_cons] at hfuel; omega)]

end Gokv.Base
