import Mathlib

/-! Machines, runs, and refinement under a rule.

A machine takes one input at a time and answers it. A rule says which inputs a
state may be given; `Meets` asks it of every step of a run, each in the state the
run has reached by then. An invariant that one step keeps under the rule holds
along every run that meets it, and a refinement whose step needs the rule matches
a run's answers one for one. -/
namespace Gokv.Base

structure Machine (ι σ ω : Type*) where
  step : σ → ι → σ × ω

namespace Machine
variable {ι σ τ ω : Type*} (M : Machine ι σ ω)

/-- The state a run ends in, and its answers. -/
def run : σ → List ι → σ × List ω
  | s, [] => (s, [])
  | s, i :: rest =>
    let next := run (M.step s i).1 rest
    (next.1, (M.step s i).2 :: next.2)

/-- Every step of the run meets the rule, in the state it is taken in. -/
def Meets (Rule : σ → ι → Prop) : σ → List ι → Prop
  | _, [] => True
  | s, i :: rest => Rule s i ∧ Meets Rule (M.step s i).1 rest

instance decidableMeets (Rule : σ → ι → Prop) [∀ s i, Decidable (Rule s i)] :
    (s : σ) → (is : List ι) → Decidable (M.Meets Rule s is)
  | _, [] => isTrue trivial
  | s, i :: rest =>
    have := decidableMeets Rule (M.step s i).1 rest
    inferInstanceAs (Decidable (Rule s i ∧ M.Meets Rule (M.step s i).1 rest))

variable {M} {Rule : σ → ι → Prop}

/-- **What one step keeps, a run keeps.** -/
theorem Meets.invariant {P : σ → Prop} (hstep : ∀ s i, P s → Rule s i → P (M.step s i).1) {s : σ}
    {is : List ι} (hs : P s) (h : M.Meets Rule s is) : P (M.run s is).1 := by
  induction is generalizing s with
  | nil => exact hs
  | cons i rest ih => exact ih (hstep s i hs h.1) h.2

/-- A rule that holds of the inputs in every state is met. -/
theorem meets_of_forall {s : σ} {is : List ι} (h : ∀ i ∈ is, ∀ s, Rule s i) : M.Meets Rule s is := by
  induction is generalizing s with
  | nil => trivial
  | cons i rest ih => exact ⟨h i (List.mem_cons_self ..) s, ih fun j hj => h j (List.mem_cons_of_mem _ hj)⟩

/-- A rule on inputs alone holds along a run as soon as it holds of its inputs. -/
theorem Meets.and {Q : ι → Prop} {s : σ} {is : List ι} (h : M.Meets Rule s is) (hq : ∀ i ∈ is, Q i) :
    M.Meets (fun s i => Rule s i ∧ Q i) s is := by
  induction is generalizing s with
  | nil => trivial
  | cons i rest ih =>
    exact ⟨⟨h.1, hq i (List.mem_cons_self ..)⟩, ih h.2 fun j hj => hq j (List.mem_cons_of_mem _ hj)⟩

theorem run_append (s : σ) (is js : List ι) :
    M.run s (is ++ js) =
      ((M.run (M.run s is).1 js).1, (M.run s is).2 ++ (M.run (M.run s is).1 js).2) := by
  induction is generalizing s with
  | nil => rfl
  | cons i rest ih => simp only [List.cons_append, run, ih]

theorem meets_append {s : σ} {is js : List ι} :
    M.Meets Rule s (is ++ js) ↔ M.Meets Rule s is ∧ M.Meets Rule (M.run s is).1 js := by
  induction is generalizing s with
  | nil => simp [Meets, run]
  | cons i rest ih => simp only [List.cons_append, Meets, run, ih, and_assoc]

/-- **A rule that says exactly when a step keeps a property** is met by a run exactly
if the property holds in every state the run passes. What the step needs besides may be an
invariant of the runs at hand. -/
theorem Meets.iff_always {Fit : σ → ι → Prop} {I P : σ → Prop} (hinv : ∀ s i, I s → Fit s i → I (M.step s i).1)
    (hstep : ∀ s i, I s → Fit s i → P s → (Rule s i ↔ P (M.step s i).1)) {s : σ} {is : List ι}
    (hfit : M.Meets Fit s is) (hI : I s) (hs : P s) :
    M.Meets Rule s is ↔ ∀ js, js <+: is → P (M.run s js).1 := by
  induction is generalizing s with
  | nil =>
    refine ⟨fun _ js hjs => ?_, fun _ => trivial⟩
    rw [List.prefix_nil.mp hjs]
    exact hs
  | cons i rest ih =>
    obtain ⟨hi, hrest⟩ := hfit
    have hone := hstep s i hI hi hs
    constructor
    · rintro ⟨hrule, hmore⟩ js hjs
      cases js with
      | nil => exact hs
      | cons j js =>
        obtain ⟨rfl, htail⟩ := List.cons_prefix_cons.mp hjs
        exact (ih hrest (hinv s j hI hi) (hone.mp hrule)).mp hmore js htail
    · intro hall
      have hi' : P (M.step s i).1 := hall [i] (by simp)
      exact ⟨hone.mpr hi', (ih hrest (hinv s i hI hi) hi').mpr fun js hjs =>
        hall (i :: js) (List.cons_prefix_cons.mpr ⟨rfl, hjs⟩)⟩

theorem meets_iff_always {P : σ → Prop} (hstep : ∀ s i, P s → (Rule s i ↔ P (M.step s i).1)) {s : σ}
    {is : List ι} (hs : P s) : M.Meets Rule s is ↔ ∀ js, js <+: is → P (M.run s js).1 := by
  have hany : M.Meets (fun _ _ => True) s is := meets_of_forall fun _ _ _ => trivial
  exact hany.iff_always (I := fun _ => True) (fun _ _ _ _ => trivial) (fun s i _ _ => hstep s i) trivial hs

end Machine

/-- One machine refines another as long as its inputs meet the rule. -/
structure Refinement {ι σ τ ω : Type*} (impl : Machine ι σ ω) (spec : Machine ι τ ω)
    (Rule : σ → ι → Prop) where
  Rel : σ → τ → Prop
  step : ∀ s t i, Rel s t → Rule s i → Rel (impl.step s i).1 (spec.step t i).1
  answer : ∀ s t i, Rel s t → Rule s i → (impl.step s i).2 = (spec.step t i).2

/-- **A run that meets the rule is answered as the specification answers it**, and
ends in a related state. -/
theorem Refinement.run {ι σ τ ω : Type*} {impl : Machine ι σ ω} {spec : Machine ι τ ω}
    {Rule : σ → ι → Prop} (r : Refinement impl spec Rule) {s : σ} {t : τ} {is : List ι} (h : r.Rel s t)
    (hm : impl.Meets Rule s is) :
    r.Rel (impl.run s is).1 (spec.run t is).1 ∧ (impl.run s is).2 = (spec.run t is).2 := by
  induction is generalizing s t with
  | nil => exact ⟨h, rfl⟩
  | cons i rest ih =>
    obtain ⟨hrel, hans⟩ := ih (r.step s t i h hm.1) hm.2
    exact ⟨hrel, congrArg₂ _ (r.answer s t i h hm.1) hans⟩

end Gokv.Base
