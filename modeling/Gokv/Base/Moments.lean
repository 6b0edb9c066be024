import Gokv.Base.Linear

/-! Calls that take effect in the past.

A read that may have to look again cannot tell which of its looks will count. It holds on to the
`Moment` of the last one: a place in the order behind every call that had returned when the read
began, with the state the machine was in there. Calls, returns and effects of others leave a moment
standing, and a read whose answer is the machine's answer at its moment takes effect there
(`Linearized.insert`).

A call may also give up and come to nothing. `settled` is the history without the calls that
returned such a `void` answer; a call that never took effect can be left out of any order. -/
namespace Gokv.Base.Linear

variable {ι σ ω : Type*} {M : Machine ι σ ω} {s₀ s t : σ} {h : List (Occurrence ι ω)} {order order' : List (Served ι ω)}
  {id : Nat} {x : Served ι ω}

/-! ### Moments -/

/-- The state after some of the calls, those that had returned when the call `id` began among them. -/
def Moment (M : Machine ι σ ω) (s₀ : σ) (h : List (Occurrence ι ω)) (order : List (Served ι ω)) (id : Nat)
    (t : σ) : Prop :=
  ∃ before after, order = before ++ after ∧ (M.run s₀ (before.map Served.input)).1 = t ∧
    ∀ y ∈ after, ∀ o i, ¬ [.ret y.id o, .call id i].Sublist h

/-- A call joins an order at its end, or at a place where it changes nothing. -/
def Enters (M : Machine ι σ ω) (s₀ : σ) (x : Served ι ω) (order order' : List (Served ι ω)) : Prop :=
  ∃ before after, order = before ++ after ∧ order' = before ++ x :: after ∧
    (after = [] ∨ (M.step (M.run s₀ (before.map Served.input)).1 x.input).1 = (M.run s₀ (before.map Served.input)).1)

theorem Enters.last (M : Machine ι σ ω) (s₀ : σ) (x : Served ι ω) (order : List (Served ι ω)) :
    Enters M s₀ x order (order ++ [x]) := ⟨order, [], (List.append_nil order).symm, rfl, .inl rfl⟩

theorem Enters.mem (he : Enters M s₀ x order order') : x ∈ order' := by
  obtain ⟨before, after, -, rfl, -⟩ := he
  exact List.mem_append_right _ List.mem_cons_self

theorem Enters.subset (he : Enters M s₀ x order order') {y : Served ι ω} (hy : y ∈ order) : y ∈ order' := by
  obtain ⟨before, after, rfl, rfl, -⟩ := he
  rcases List.mem_append.mp hy with hy | hy
  · exact List.mem_append_left _ hy
  · exact List.mem_append_right _ (List.mem_cons_of_mem _ hy)

theorem Enters.notMem (he : Enters M s₀ x order order') (hne : id ≠ x.id) (hid : id ∉ order.map Served.id) :
    id ∉ order'.map Served.id := by
  obtain ⟨before, after, rfl, rfl, -⟩ := he
  rw [List.map_append, List.map_cons, List.mem_append, List.mem_cons, not_or, not_or]
  rw [List.map_append, List.mem_append, not_or] at hid
  exact ⟨hid.1, hne, hid.2⟩

namespace Moment

theorem call (hm : Moment M s₀ h order id t) {id' : Nat} (hne : id' ≠ id) (i : ι) :
    Moment M s₀ (h ++ [.call id' i]) order id t := by
  obtain ⟨before, after, horder, hrun, hafter⟩ := hm
  refine ⟨before, after, horder, hrun, fun y hy o j hsub => ?_⟩
  rcases pair_sublist_concat.mp hsub with hsub | ⟨-, heq⟩
  · exact hafter y hy o j hsub
  · cases heq
    exact hne rfl

theorem ret (hm : Moment M s₀ h order id t) (id' : Nat) (o : ω) : Moment M s₀ (h ++ [.ret id' o]) order id t := by
  obtain ⟨before, after, horder, hrun, hafter⟩ := hm
  refine ⟨before, after, horder, hrun, fun y hy o' j hsub => ?_⟩
  rcases pair_sublist_concat.mp hsub with hsub | ⟨-, heq⟩
  · exact hafter y hy o' j hsub
  · cases heq

theorem sublist {h' : List (Occurrence ι ω)} (hm : Moment M s₀ h order id t) (hsub : h'.Sublist h) :
    Moment M s₀ h' order id t := by
  obtain ⟨before, after, horder, hrun, hafter⟩ := hm
  exact ⟨before, after, horder, hrun, fun y hy o i hs => hafter y hy o i (hs.trans hsub)⟩

/-- A call that has not returned joins the order, before the moment or behind it. -/
theorem enters (hm : Moment M s₀ h order id t) (he : Enters M s₀ x order order') (hopen : ∀ o, .ret x.id o ∉ h) :
    Moment M s₀ h order' id t := by
  obtain ⟨before, after, rfl, hrun, hafter⟩ := hm
  obtain ⟨pre, post, hsplit, rfl, hstill⟩ := he
  have hnew : ∀ o i, ¬ [.ret x.id o, .call id i].Sublist h := fun o i hsub => hopen o (hsub.subset List.mem_cons_self)
  rcases List.append_eq_append_iff.mp hsplit with ⟨mid, rfl, rfl⟩ | ⟨mid, rfl, rfl⟩
  · -- behind the moment
    refine ⟨before, mid ++ x :: post, by rw [List.append_assoc], hrun, fun y hy => ?_⟩
    rcases List.mem_append.mp hy with hy | hy
    · exact hafter y (List.mem_append_left _ hy)
    · rcases List.mem_cons.mp hy with rfl | hy
      · exact hnew
      · exact hafter y (List.mem_append_right _ hy)
  · rcases hstill with hnil | hstill
    · -- at the end, which is where the moment is
      obtain ⟨rfl, rfl⟩ := List.append_eq_nil_iff.mp hnil
      refine ⟨pre, [x], rfl, ?_, fun y hy => ?_⟩
      · rwa [List.append_nil] at hrun
      · rw [List.mem_singleton.mp hy]
        exact hnew
    · -- before the moment: the state there is the same
      refine ⟨pre ++ x :: mid, after, by rw [List.append_assoc, List.cons_append], ?_, hafter⟩
      rw [List.map_append, M.run_append] at hrun
      rw [List.map_append, M.run_append, ← hrun]
      show (M.run (M.step _ x.input).1 (mid.map Served.input)).1 = _
      rw [hstill]

end Moment

/-- Right now is a moment of every call. -/
theorem Linearized.moment (hl : Linearized M s₀ h order s) (id : Nat) : Moment M s₀ h order id s :=
  ⟨order, [], (List.append_nil order).symm, by rw [hl.run], fun _ hy => absurd hy List.not_mem_nil⟩

theorem length_run (M : Machine ι σ ω) (s : σ) (is : List ι) : (M.run s is).2.length = is.length := by
  induction is generalizing s with
  | nil => rfl
  | cons i is ih => exact congrArg (· + 1) (ih _)

theorem Woven.insert {before after : List (Served ι ω)} (hw : Woven h (before ++ after))
    (hcall : .call x.id x.input ∈ h)
    (hnew : x.id ∉ (before ++ after).map Served.id)
    (hafter : ∀ y ∈ after, ∀ o i, ¬ [.ret y.id o, .call x.id i].Sublist h) :
    Woven h (before ++ x :: after) where
  called y hy := by
    rcases List.mem_append.mp hy with hy | hy
    · exact hw.called y (List.mem_append_left _ hy)
    · rcases List.mem_cons.mp hy with rfl | hy
      · exact hcall
      · exact hw.called y (List.mem_append_right _ hy)
  once := by
    have hperm : (before ++ x :: after).Perm (x :: (before ++ after)) := List.perm_middle
    rw [(hperm.map Served.id).nodup_iff, List.map_cons, List.nodup_cons]
    exact ⟨hnew, hw.once⟩
  returned id o hr := by
    obtain ⟨y, hy, hid, ho⟩ := hw.returned id o hr
    refine ⟨y, ?_, hid, ho⟩
    rcases List.mem_append.mp hy with hy | hy
    · exact List.mem_append_left _ hy
    · exact List.mem_append_right _ (List.mem_cons_of_mem _ hy)
  realTime y hy z hz o i hsub := by
    have hold {w : Served ι ω} (hmem : w ∈ before ++ x :: after) (hne : w ≠ x) : w ∈ before ++ after := by
      rcases List.mem_append.mp hmem with hmem | hmem
      · exact List.mem_append_left _ hmem
      · exact List.mem_append_right _ ((List.mem_cons.mp hmem).resolve_left hne)
    -- one that has returned was in the order before
    have hy : y ∈ before ++ after := by
      refine hold hy fun heq => ?_
      rw [heq] at hsub
      obtain ⟨w, hw', hid, -⟩ := hw.returned x.id o (hsub.subset List.mem_cons_self)
      exact hnew (hid ▸ List.mem_map_of_mem hw')
    by_cases hzx : z = x
    · rw [hzx] at hsub ⊢
      have hfront : y ∈ before := (List.mem_append.mp hy).resolve_right fun ha => hafter y ha o i hsub
      exact (List.singleton_sublist.mpr hfront).append (List.singleton_sublist.mpr List.mem_cons_self)
    · exact (hw.realTime y hy z (hold hz hzx) o i hsub).trans
        ((List.Sublist.refl before).append (List.sublist_cons_self x after))

/-- **A read takes effect in the past**, at a moment it has held on to. -/
theorem Linearized.insert (hl : Linearized M s₀ h order s) (hcall : .call x.id x.input ∈ h)
    (hnew : x.id ∉ order.map Served.id)
    (hm : Moment M s₀ h order x.id t) (hans : M.step t x.input = (t, x.output)) :
    ∃ order', Enters M s₀ x order order' ∧ Linearized M s₀ h order' s := by
  obtain ⟨before, after, rfl, rfl, hafter⟩ := hm
  refine ⟨before ++ x :: after, ⟨before, after, rfl, rfl, .inr (congrArg Prod.fst hans)⟩,
    hl.toWoven.insert hcall hnew hafter, ?_⟩
  have hrun := hl.run
  rw [List.map_append, M.run_append, List.map_append, Prod.mk.injEq] at hrun
  obtain ⟨hstate, hout⟩ := hrun
  have hlen : (M.run s₀ (before.map Served.input)).2.length = (before.map Served.output).length := by
    rw [length_run, List.length_map, List.length_map]
  obtain ⟨hfront, hback⟩ := List.append_inj hout hlen
  rw [List.map_append, List.map_cons, M.run_append]
  simp only [Machine.run, hans, List.map_append, List.map_cons, hstate, hfront, hback]

/-! ### Calls that come to nothing -/

/-- The event says that the call `id` came to nothing. -/
def Occurrence.voids (void : ω → Bool) (id : Nat) : Occurrence ι ω → Bool
  | .call _ _ => false
  | .ret id' o => decide (id' = id) && void o

/-- The history without the calls that came to nothing. -/
def settled (void : ω → Bool) (h : List (Occurrence ι ω)) : List (Occurrence ι ω) :=
  h.filter fun e => !h.any (Occurrence.voids void e.id)

variable {void : ω → Bool}

theorem settled_sublist (void : ω → Bool) (h : List (Occurrence ι ω)) : (settled void h).Sublist h :=
    List.filter_sublist

theorem not_any_voids (hopen : ∀ o, .ret id o ∉ h) : h.any (Occurrence.voids void id) = false := by
  rw [List.any_eq_false]
  intro e he
  cases e with
  | call _ _ => exact Bool.false_ne_true
  | ret id' o =>
    intro hv
    obtain ⟨hid, -⟩ := Bool.and_eq_true_iff.mp hv
    rw [of_decide_eq_true hid] at he
    exact hopen o he

theorem mem_settled {e : Occurrence ι ω} (he : e ∈ h) (hopen : ∀ o, .ret e.id o ∉ h) : e ∈ settled void h := by
  refine List.mem_filter.mpr ⟨he, ?_⟩
  rw [not_any_voids hopen]
  rfl

/-- An event that voids no call leaves the others as they are. -/
theorem settled_concat {e : Occurrence ι ω} (hopen : ∀ o, .ret e.id o ∉ h)
    (he : ∀ id, Occurrence.voids void id e = false) :
    settled void (h ++ [e]) = settled void h ++ [e] := by
  have hany (id : Nat) : (h ++ [e]).any (Occurrence.voids void id) = h.any (Occurrence.voids void id) := by
    rw [List.any_append, List.any_cons, List.any_nil, he id, Bool.or_false, Bool.or_false]
  simp only [settled, hany, List.filter_append, List.filter_cons, List.filter_nil, not_any_voids hopen]
  rfl

theorem settled_void {o : ω} (ho : void o = true) :
    settled void (h ++ [.ret id o]) = (settled void h).filter fun e => decide (e.id ≠ id) := by
  have hany (i : Nat) : (h ++ [Occurrence.ret id o]).any (Occurrence.voids void i) =
      (h.any (Occurrence.voids void i) || decide (id = i)) := by
    rw [List.any_append, List.any_cons, List.any_nil, Bool.or_false, Occurrence.voids, ho, Bool.and_true]
  have hself : decide (id = Occurrence.id (.ret id o : Occurrence ι ω)) = true := decide_eq_true rfl
  simp only [settled, hany, List.filter_append, List.filter_cons, List.filter_nil, List.filter_filter, hself,
    Bool.or_true,
    Bool.not_true, Bool.false_eq_true, if_false, List.append_nil]
  refine List.filter_congr fun e _ => ?_
  by_cases hid : id = e.id
  · rw [decide_eq_true hid, decide_eq_false (not_not.mpr hid.symm), Bool.or_true, Bool.false_and]
    rfl
  · rw [decide_eq_false hid, decide_eq_true (Ne.symm hid), Bool.or_false, Bool.true_and]

/-- A call that has not taken effect can be left out. -/
theorem Woven.drop (hw : Woven h order) (hnew : id ∉ order.map Served.id) :
    Woven (h.filter fun e => decide (e.id ≠ id)) order where
  called y hy := by
    refine List.mem_filter.mpr ⟨hw.called y hy, decide_eq_true fun heq => hnew ?_⟩
    rw [← heq]
    exact List.mem_map_of_mem hy
  once := hw.once
  returned id' o hr := hw.returned id' o (List.mem_filter.mp hr).1
  realTime y hy z hz o i hsub := hw.realTime y hy z hz o i (hsub.trans List.filter_sublist)

end Gokv.Base.Linear
