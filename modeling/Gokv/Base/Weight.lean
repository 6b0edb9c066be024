import Mathlib

/-! Weights over maps.

`weight w t` adds up `w` over the pairs of a map. What an insertion, an erasure or a change of
one value does to the sum is read off the pair they touch; a map that is split by a function
of its values weighs no more than another one that bounds each part (`weight_le_of_fibers`). -/
namespace Gokv.Base

section Weight
variable {α β ι : Type*} {cmp : α → α → Ordering} {cmpι : ι → ι → Ordering}

def weight (w : α → β → Nat) (t : Std.ExtTreeMap α β cmp) [Std.TransCmp cmp] : Nat :=
  (t.toList.map fun x => w x.1 x.2).sum

variable [Std.TransCmp cmp] [Std.LawfulEqCmp cmp] {w w' : α → β → Nat} {t : Std.ExtTreeMap α β cmp} {k : α} {v : β}

omit [Std.LawfulEqCmp cmp] in
theorem nodup_toList (t : Std.ExtTreeMap α β cmp) : t.toList.Nodup :=
  t.distinct_keys_toList.imp fun {a b} (hne : ¬ cmp a.1 b.1 = .eq) (heq : a = b) => by
    rw [heq] at hne
    exact hne Std.ReflCmp.compare_self

omit [Std.LawfulEqCmp cmp] in
theorem nodup_fst_toList (t : Std.ExtTreeMap α β cmp) : (t.toList.map Prod.fst).Nodup :=
  List.pairwise_map.mpr <| t.distinct_keys_toList.imp fun {a b} (hne : ¬ cmp a.1 b.1 = .eq) (heq : a.1 = b.1) => by
    rw [heq] at hne
    exact hne Std.ReflCmp.compare_self

/-- An ascending list of the pairs of a map is its list. -/
theorem toList_eq_of_mem {xs : List (α × β)} (hsorted : xs.Pairwise fun x y => cmp x.1 y.1 = .lt)
    (h : ∀ k v, t[k]? = some v ↔ (k, v) ∈ xs) : t.toList = xs := by
  have hasymm {x y : α × β} (hxy : cmp x.1 y.1 = .lt) (hyx : cmp y.1 x.1 = .lt) : x = y :=
    absurd hyx (Std.OrientedCmp.not_lt_of_lt hxy)
  have hnodup : xs.Nodup := hsorted.imp fun {x y} hlt heq => by
    rw [heq] at hlt
    exact absurd (hlt.symm.trans Std.ReflCmp.compare_self) (by decide)
  refine List.Perm.eq_of_pairwise (fun x y _ _ => hasymm) t.ordered_keys_toList hsorted ?_
  refine (List.perm_ext_iff_of_nodup (nodup_toList t) hnodup).mpr fun x => ?_
  rw [← h, ← Std.ExtTreeMap.mem_toList_iff_getElem?_eq_some]

/-- A pair of the map stands before the rest. -/
theorem toList_perm_erase (h : t[k]? = some v) : t.toList.Perm ((k, v) :: (t.erase k).toList) := by
  have hout : (k, v) ∉ (t.erase k).toList := by
    rw [Std.ExtTreeMap.mem_toList_iff_getElem?_eq_some]
    simp
  refine (List.perm_ext_iff_of_nodup (nodup_toList t) (List.nodup_cons.mpr ⟨hout, nodup_toList _⟩)).mpr ?_
  rintro ⟨k', v'⟩
  rw [List.mem_cons, Std.ExtTreeMap.mem_toList_iff_getElem?_eq_some, Std.ExtTreeMap.mem_toList_iff_getElem?_eq_some,
    Std.ExtTreeMap.getElem?_erase, Prod.mk.injEq]
  by_cases hk : cmp k k' = .eq
  · cases Std.LawfulEqCmp.eq_of_compare hk
    simp [h, eq_comm]
  · have hne : k' ≠ k := fun heq => hk (heq ▸ Std.ReflCmp.compare_self)
    simp [hk, hne]

@[simp] theorem weight_empty : weight w (∅ : Std.ExtTreeMap α β cmp) = 0 := by
  have hnil : (∅ : Std.ExtTreeMap α β cmp).toList = [] := by
    rw [List.eq_nil_iff_forall_not_mem]
    rintro ⟨k, v⟩ hx
    rw [Std.ExtTreeMap.mem_toList_iff_getElem?_eq_some, Std.ExtTreeMap.getElem?_empty] at hx
    cases hx
  rw [weight, hnil]
  rfl

theorem weight_eq_of_mem (h : t[k]? = some v) : weight w t = w k v + weight w (t.erase k) := by
  rw [weight, ((toList_perm_erase h).map _).sum_eq, List.map_cons, List.sum_cons, weight]

/-- Nothing to erase. -/
theorem erase_eq_self (h : t[k]? = none) : t.erase k = t := by
  refine Std.ExtTreeMap.ext_getElem? fun j => ?_
  rw [Std.ExtTreeMap.getElem?_erase]
  by_cases hj : cmp k j = .eq
  · cases Std.LawfulEqCmp.eq_of_compare hj
    simp [h]
  · simp [hj]

theorem weight_erase (w : α → β → Nat) (t : Std.ExtTreeMap α β cmp) (k : α) :
    weight w (t.erase k) + t[k]?.elim 0 (w k) = weight w t := by
  cases h : t[k]? with
  | none =>
    rw [erase_eq_self h]
    rfl
  | some v =>
    rw [weight_eq_of_mem h, Nat.add_comm]
    rfl

theorem weight_insert (w : α → β → Nat) (t : Std.ExtTreeMap α β cmp) (k : α) (v : β) :
    weight w (t.insert k v) + t[k]?.elim 0 (w k) = weight w t + w k v := by
  have hsame : (t.insert k v).erase k = t.erase k := by
    refine Std.ExtTreeMap.ext_getElem? fun j => ?_
    rw [Std.ExtTreeMap.getElem?_erase, Std.ExtTreeMap.getElem?_erase, Std.ExtTreeMap.getElem?_insert]
    by_cases hj : cmp k j = .eq <;> simp [hj]
  rw [weight_eq_of_mem (t := t.insert k v) Std.ExtTreeMap.getElem?_insert_self, hsame, ← weight_erase w t k]
  omega

theorem weight_insert_new (h : t[k]? = none) : weight w (t.insert k v) = weight w t + w k v := by
  have := weight_insert w t k v
  rwa [h, Option.elim_none, Nat.add_zero] at this

theorem weight_mono (h : ∀ k v, t[k]? = some v → w k v ≤ w' k v) : weight w t ≤ weight w' t := by
  refine List.sum_le_sum fun x hx => h x.1 x.2 ?_
  exact Std.ExtTreeMap.mem_toList_iff_getElem?_eq_some.mp hx

/-- The part of a weight on the values with one label. -/
def fiber [DecidableEq ι] (g : β → ι) (i : ι) (w : α → β → Nat) (k : α) (v : β) : Nat := if g v = i then w k v else 0

variable [Std.TransCmp cmpι] [Std.LawfulEqCmp cmpι]

omit [Std.LawfulEqCmp cmp] in
/-- **Part by part.** -/
theorem weight_le_of_fibers [DecidableEq ι] {g : β → ι} {u : Std.ExtTreeMap ι Nat cmpι}
    (h : ∀ i, weight (fiber g i w) t ≤ u[i]?.getD 0) : weight w t ≤ weight (fun _ n => n) u := by
  classical
  -- Sums over the two lists, as sums over the labels that occur in either.
  let labels := (t.toList.map fun x => g x.2).toFinset ∪ (u.toList.map Prod.fst).toFinset
  have hleft : weight w t = ∑ i ∈ labels, weight (fiber g i w) t := by
    have hmaps : ∀ x ∈ t.toList.toFinset, g x.2 ∈ labels := fun x hx =>
      Finset.mem_union_left _ (List.mem_toFinset.mpr (List.mem_map_of_mem (List.mem_toFinset.mp hx)))
    rw [weight, ← List.sum_toFinset _ (nodup_toList t), ← Finset.sum_fiberwise_of_maps_to hmaps]
    refine Finset.sum_congr rfl fun i _ => ?_
    rw [weight, ← List.sum_toFinset _ (nodup_toList t), Finset.sum_filter]
    rfl
  have hright : ∑ i ∈ labels, u[i]?.getD 0 ≤ weight (fun _ n => n) u := by
    have hzero : ∀ i ∈ labels, i ∉ (u.toList.map Prod.fst).toFinset → u[i]?.getD 0 = 0 := fun i _ hi => by
      cases hu : u[i]? with
      | none => rfl
      | some n =>
        refine absurd (List.mem_toFinset.mpr (List.mem_map.mpr ⟨(i, n), ?_, rfl⟩)) hi
        exact Std.ExtTreeMap.mem_toList_iff_getElem?_eq_some.mpr hu
    rw [← Finset.sum_subset Finset.subset_union_right hzero]
    rw [List.sum_toFinset _ (nodup_fst_toList u), List.map_map, weight]
    refine le_of_eq (congrArg List.sum (List.map_congr_left fun x hx => ?_))
    rw [Function.comp, Std.ExtTreeMap.mem_toList_iff_getElem?_eq_some.mp hx]
    rfl
  calc weight w t = ∑ i ∈ labels, weight (fiber g i w) t := hleft
    _ ≤ ∑ i ∈ labels, u[i]?.getD 0 := Finset.sum_le_sum fun i _ => h i
    _ ≤ weight (fun _ n => n) u := hright

end Weight

end Gokv.Base
