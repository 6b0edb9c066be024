import Gokv.Base.Run

/-! Histories of concurrent calls.

A history lists the calls and returns as they happen. It is `Linearizable` with respect to a
machine if its calls can be put in one order such that the machine, taking them one after the other,
gives the answers that were returned, and a call that returned before another began stands before it.
Every call that returned has its place in the order; one that has not may have.

`Linearized` carries such an order along an execution, with the state the machine is in. A call and
a return leave the order as it is, and in between the call takes effect at one moment: it is put at
the end of the order, and answered as the machine answers it there. -/
namespace Gokv.Base.Linear

inductive Occurrence (ι ω : Type*) where
  | call (id : Nat) (i : ι)
  | ret (id : Nat) (o : ω)
  deriving DecidableEq

def Occurrence.id {ι ω : Type*} : Occurrence ι ω → Nat
  | .call id _ | .ret id _ => id

/-- A call that took effect. -/
structure Served (ι ω : Type*) where
  id : Nat
  input : ι
  output : ω

variable {ι σ ω : Type*}

/-- An order of calls that agrees with what was seen of them. -/
structure Woven (h : List (Occurrence ι ω)) (order : List (Served ι ω)) : Prop where
  called : ∀ x ∈ order, .call x.id x.input ∈ h
  once : (order.map Served.id).Nodup
  returned : ∀ id o, .ret id o ∈ h → ∃ x ∈ order, x.id = id ∧ x.output = o
  realTime : ∀ x ∈ order, ∀ y ∈ order, ∀ o i, [.ret x.id o, .call y.id i].Sublist h → [x, y].Sublist order

def Linearizable (M : Machine ι σ ω) (s : σ) (h : List (Occurrence ι ω)) : Prop :=
  ∃ order, Woven h order ∧ (M.run s (order.map Served.input)).2 = order.map Served.output

theorem pair_sublist_concat {α : Type*} {x y z : α} {l : List α} :
    [x, y].Sublist (l ++ [z]) ↔ [x, y].Sublist l ∨ x ∈ l ∧ y = z := by
  constructor
  · intro h
    obtain ⟨l₁, l₂, heq, h₁, h₂⟩ := List.sublist_append_iff.mp h
    cases l₁ with
    | nil =>
      rw [List.nil_append] at heq
      rw [← heq] at h₂
      exact absurd h₂.length_le (by simp)
    | cons a l₁ =>
      cases l₁ with
      | nil =>
        cases heq
        exact .inr ⟨List.singleton_sublist.mp h₁, List.mem_singleton.mp (List.singleton_sublist.mp h₂)⟩
      | cons b l₁ =>
        have hnil : l₁ = [] := by
          have := congrArg List.length heq
          simp only [List.length_cons, List.length_nil, List.cons_append, List.length_append] at this
          exact List.eq_nil_of_length_eq_zero (by omega)
        subst hnil
        cases heq
        exact .inl h₁
  · rintro (h | ⟨hx, rfl⟩)
    · exact h.trans (List.sublist_append_left ..)
    · exact (List.singleton_sublist.mpr hx).append (List.Sublist.refl [y])

namespace Woven
variable {h : List (Occurrence ι ω)} {order : List (Served ι ω)}

theorem nil : Woven ([] : List (Occurrence ι ω)) [] :=
  ⟨fun _ hx => absurd hx List.not_mem_nil, List.nodup_nil, fun _ _ hr => absurd hr List.not_mem_nil,
    fun _ hx => absurd hx List.not_mem_nil⟩

/-- A call is in the order only once. -/
theorem eq_of_id (hw : Woven h order) {x y : Served ι ω} (hx : x ∈ order) (hy : y ∈ order) (heq : x.id = y.id) :
    x = y :=
  List.inj_on_of_nodup_map hw.once hx hy heq

theorem call (hw : Woven h order) {id : Nat} (hfresh : ∀ e ∈ h, e.id ≠ id) (i : ι) :
    Woven (h ++ [.call id i]) order where
  called x hx := List.mem_append_left _ (hw.called x hx)
  once := hw.once
  returned id' o hr := by
    rcases List.mem_append.mp hr with hr | hr
    · exact hw.returned id' o hr
    · cases List.mem_singleton.mp hr
  realTime x hx y hy o j hsub := by
    rcases pair_sublist_concat.mp hsub with hsub | ⟨-, heq⟩
    · exact hw.realTime x hx y hy o j hsub
    · -- the new call is not in the order yet
      cases heq
      exact absurd rfl (hfresh _ (hw.called y hy))

theorem ret (hw : Woven h order) {x : Served ι ω} (hx : x ∈ order) : Woven (h ++ [.ret x.id x.output]) order where
  called y hy := List.mem_append_left _ (hw.called y hy)
  once := hw.once
  returned id o hr := by
    rcases List.mem_append.mp hr with hr | hr
    · exact hw.returned id o hr
    · cases List.mem_singleton.mp hr
      exact ⟨x, hx, rfl, rfl⟩
  realTime y hy z hz o i hsub := by
    rcases pair_sublist_concat.mp hsub with hsub | ⟨-, heq⟩
    · exact hw.realTime y hy z hz o i hsub
    · cases heq

/-- A call that has begun takes effect behind all that have. -/
theorem take (hw : Woven h order) {x : Served ι ω} (hcall : .call x.id x.input ∈ h)
    (hnew : x.id ∉ order.map Served.id) :
    Woven h (order ++ [x]) where
  called y hy := by
    rcases List.mem_append.mp hy with hy | hy
    · exact hw.called y hy
    · rwa [List.mem_singleton.mp hy]
  once := by
    rw [List.map_append, List.nodup_append]
    refine ⟨hw.once, List.nodup_singleton _, fun a ha b hb => ?_⟩
    rw [List.mem_singleton.mp hb]
    rintro rfl
    exact hnew ha
  returned id o hr := by
    obtain ⟨y, hy, hid, ho⟩ := hw.returned id o hr
    exact ⟨y, List.mem_append_left _ hy, hid, ho⟩
  realTime y hy z hz o i hsub := by
    -- one that has returned was in the order before
    have hy : y ∈ order := by
      rcases List.mem_append.mp hy with hy | hy
      · exact hy
      · rw [List.mem_singleton.mp hy] at hsub
        obtain ⟨w, hw', hid, -⟩ := hw.returned x.id o (hsub.subset List.mem_cons_self)
        exact absurd (hid ▸ List.mem_map_of_mem hw') hnew
    rw [pair_sublist_concat]
    rcases List.mem_append.mp hz with hz | hz
    · exact .inl (hw.realTime y hy z hz o i hsub)
    · exact .inr ⟨hy, List.mem_singleton.mp hz⟩

/-- The one call that returned before all others began is the first in the order. -/
theorem head (hw : Woven h order) {x : Served ι ω} (hx : x ∈ order)
    (hfirst : ∀ y ∈ order, y.id ≠ x.id → ∃ o i, [.ret x.id o, .call y.id i].Sublist h) :
    ∃ rest, order = x :: rest ∧ ∀ y ∈ rest, y.id ≠ x.id := by
  cases order with
  | nil => exact absurd hx List.not_mem_nil
  | cons y rest =>
    have honce := hw.once
    rw [List.map_cons, List.nodup_cons] at honce
    have heq : x = y := by
      by_contra hne
      have hid : y.id ≠ x.id := fun hc => hne (hw.eq_of_id hx List.mem_cons_self hc.symm)
      obtain ⟨o, i, hsub⟩ := hfirst y List.mem_cons_self hid
      -- a pair that ends in the first of the list
      rcases List.sublist_cons_iff.mp (hw.realTime x hx y List.mem_cons_self o i hsub) with hrest | ⟨l, hl, -⟩
      · exact honce.1 (List.mem_map_of_mem (hrest.subset (List.mem_cons_of_mem _ (List.mem_singleton_self y))))
      · exact hne (List.cons.inj hl).1
    subst heq
    exact ⟨rest, rfl, fun z hz hc => honce.1 (hc ▸ List.mem_map_of_mem hz)⟩

end Woven

/-- An order that explains the history, and the state it leads to. -/
structure Linearized (M : Machine ι σ ω) (s₀ : σ) (h : List (Occurrence ι ω)) (order : List (Served ι ω))
    (s : σ) : Prop extends Woven h order where
  run : M.run s₀ (order.map Served.input) = (s, order.map Served.output)

namespace Linearized
variable {M : Machine ι σ ω} {s₀ s : σ} {h : List (Occurrence ι ω)} {order : List (Served ι ω)}

theorem start (M : Machine ι σ ω) (s₀ : σ) : Linearized M s₀ [] [] s₀ := ⟨Woven.nil, rfl⟩

theorem linearizable (hl : Linearized M s₀ h order s) : Linearizable M s₀ h :=
  ⟨order, hl.toWoven, congrArg Prod.snd hl.run⟩

/-- **A call takes effect** if it is answered as the machine answers it now. -/
theorem takeEffect (hl : Linearized M s₀ h order s) {x : Served ι ω} (hcall : .call x.id x.input ∈ h)
    (hnew : x.id ∉ order.map Served.id) (hans : (M.step s x.input).2 = x.output) :
    Linearized M s₀ h (order ++ [x]) (M.step s x.input).1 where
  toWoven := hl.toWoven.take hcall hnew
  run := by
    rw [List.map_append, M.run_append, hl.run, List.map_append, List.map_singleton, List.map_singleton, ← hans]
    rfl

end Linearized

end Gokv.Base.Linear
