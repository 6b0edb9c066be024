import Gokv.Engine.Record

/-! Batches in the log.

Every record of a batch carries a flag and the last one is marked as its end.
`committed` is what a replay keeps of a list of records: a record written in a
batch counts only if the list goes on to the end of a batch. The write path
appends one `IsGroup` at a time, a single record or a whole batch, so its logs
are `Grouped`; a replay keeps all of a grouped log, and of any prefix of one it
keeps the groups the prefix contains whole (`Grouped.tidy`). -/
namespace Gokv.Engine

/-! ### What a replay keeps -/

section Batches
variable {α : Type*} (f : α → Record)

/-- The list goes on to the end of a batch. -/
def settles (xs : List α) : Bool := xs.any fun x => (f x).batch && (f x).batchEnd

/-- What a replay keeps: everything but the records of a batch that never ends. -/
def committed : List α → List α
  | [] => []
  | x :: rest => if (f x).batch && !settles f (x :: rest) then committed rest else x :: committed rest

/-- Every batch ends inside the list. -/
def Settled (xs : List α) : Prop := committed f xs = xs

variable {f}

theorem committed_subset (xs : List α) : ∀ x ∈ committed f xs, x ∈ xs := by
  induction xs with
  | nil => simp [committed]
  | cons y rest ih =>
    intro x hx
    unfold committed at hx
    split at hx
    · exact List.mem_cons_of_mem _ (ih x hx)
    · rcases List.mem_cons.mp hx with rfl | hx
      · exact List.mem_cons_self ..
      · exact List.mem_cons_of_mem _ (ih x hx)

theorem length_committed_le (xs : List α) : (committed f xs).length ≤ xs.length := by
  induction xs with
  | nil => rfl
  | cons x rest ih =>
    unfold committed
    split
    · exact ih.trans (Nat.le_succ _)
    · simpa using ih

/-- The head of a settled list is kept, and the tail is settled. -/
theorem Settled.cons_iff (x : α) (rest : List α) :
    Settled f (x :: rest) ↔
      ((f x).batch = false ∨ settles f (x :: rest) = true) ∧ Settled f rest := by
  unfold Settled
  rw [committed]
  cases hb : (f x).batch && !settles f (x :: rest) with
  | true =>
    have hlen := length_committed_le (f := f) rest
    simp only [if_true]
    constructor
    · intro h
      rw [h, List.length_cons] at hlen
      omega
    · rintro ⟨hx, -⟩
      simp only [Bool.and_eq_true, Bool.not_eq_true'] at hb
      rcases hx with hx | hx
      · simp [hx] at hb
      · simp [hx] at hb
  | false =>
    simp only [Bool.false_eq_true, if_false, List.cons.injEq, true_and]
    simp only [Bool.and_eq_false_iff, Bool.not_eq_false'] at hb
    exact ⟨fun h => ⟨hb, h⟩, fun h => h.2⟩

theorem settles_append (xs ys : List α) : settles f (xs ++ ys) = (settles f xs || settles f ys) := by
  simp [settles]

/-- Behind settled records a replay keeps what it would keep alone. -/
theorem committed_append {xs : List α} (h : Settled f xs) (ys : List α) :
    committed f (xs ++ ys) = xs ++ committed f ys := by
  induction xs with
  | nil => rfl
  | cons x rest ih =>
    obtain ⟨hx, hrest⟩ := (Settled.cons_iff x rest).mp h
    rw [List.cons_append, committed, if_neg, ih hrest, List.cons_append]
    rw [← List.cons_append, settles_append]
    rcases hx with hx | hx <;> simp [hx]

theorem Settled.append {xs ys : List α} (hx : Settled f xs) (hy : Settled f ys) :
    Settled f (xs ++ ys) := by
  rw [Settled, committed_append hx, hy]

theorem settled_nil : Settled f [] := rfl

/-- Records outside any batch are settled. -/
theorem settled_of_unbatched (xs : List α) (h : ∀ x ∈ xs, (f x).batch = false) : Settled f xs := by
  induction xs with
  | nil => rfl
  | cons x rest ih =>
    refine (Settled.cons_iff x rest).mpr ⟨.inl (h x (List.mem_cons_self ..)), ?_⟩
    exact ih fun y hy => h y (List.mem_cons_of_mem _ hy)

/-- Records that all belong to a batch still open are dropped. -/
theorem committed_open (xs : List α) (h : ∀ x ∈ xs, (f x).batch = true ∧ (f x).batchEnd = false) :
    committed f xs = [] := by
  induction xs with
  | nil => rfl
  | cons x rest ih =>
    have hx := h x (List.mem_cons_self ..)
    have hopen : settles f (x :: rest) = false := by
      simp only [settles, List.any_eq_false, Bool.and_eq_true, not_and, Bool.not_eq_true]
      exact fun y hy _ => (h y hy).2
    rw [committed, hx.1, hopen, if_pos (by rfl)]
    exact ih fun y hy => h y (List.mem_cons_of_mem _ hy)

/-- A batch with its terminator is settled, whatever precedes the terminator. -/
theorem settled_closed (xs : List α) (x : α) (hb : (f x).batch = true) (he : (f x).batchEnd = true) :
    Settled f (xs ++ [x]) := by
  induction xs with
  | nil =>
    refine (Settled.cons_iff x []).mpr ⟨.inr ?_, settled_nil⟩
    simp [settles, hb, he]
  | cons y rest ih =>
    refine (Settled.cons_iff y (rest ++ [x])).mpr ⟨.inr ?_, ih⟩
    simp [settles, hb, he]

theorem committed_map {β : Type*} (g : β → α) (xs : List β) :
    committed f (xs.map g) = (committed (f ∘ g) xs).map g := by
  induction xs with
  | nil => rfl
  | cons x rest ih =>
    have hs : settles f (g x :: rest.map g) = settles (f ∘ g) (x :: rest) := by
      simp [settles, List.any_map, Function.comp_def]
    rw [List.map_cons, committed, committed, hs, ih]
    simp only [Function.comp_apply]
    split <;> rfl

end Batches

/-! ### Groups -/

/-- The records of a batch that has not ended. -/
def Open (rs : List Record) : Prop := ∀ r ∈ rs, r.batch = true ∧ r.batchEnd = false

/-- What one append writes: a record outside any batch, or a whole batch. -/
def IsGroup (rs : List Record) : Prop :=
  ∃ g e, rs = g ++ [e] ∧ Open g ∧ (e.batch = true ∧ e.batchEnd = true ∨ g = [] ∧ e.batch = false)

inductive Grouped : List Record → Prop where
  | nil : Grouped []
  | cons {g rest : List Record} : IsGroup g → Grouped rest → Grouped (g ++ rest)

/-- Groups, and behind them at most the beginning of one more batch. -/
def Tidy (rs : List Record) : Prop := ∃ g tail, rs = g ++ tail ∧ Grouped g ∧ Open tail

theorem isGroup_single (r : Record) (h : r.batch = false) : IsGroup [r] :=
  ⟨[], r, rfl, fun _ hr => (by cases hr), .inr ⟨rfl, h⟩⟩

theorem IsGroup.ne_nil {g : List Record} (h : IsGroup g) : g ≠ [] := by
  obtain ⟨body, e, rfl, _⟩ := h
  exact List.append_ne_nil_of_right_ne_nil _ (List.cons_ne_nil _ _)

theorem Grouped.single (r : Record) (h : r.batch = false) : Grouped [r] := by
  have := Grouped.cons (isGroup_single r h) .nil
  rwa [List.append_nil] at this

theorem IsGroup.grouped {g : List Record} (h : IsGroup g) : Grouped g := by
  have := Grouped.cons h .nil
  rwa [List.append_nil] at this

theorem Grouped.append {rs ss : List Record} (hr : Grouped rs) (hs : Grouped ss) :
    Grouped (rs ++ ss) := by
  induction hr with
  | nil => exact hs
  | cons hg _ ih =>
    rw [List.append_assoc]
    exact .cons hg ih

theorem IsGroup.settled {g : List Record} (h : IsGroup g) : Settled id g := by
  obtain ⟨g, e, rfl, _, ⟨hb, he⟩ | ⟨rfl, hb⟩⟩ := h
  · exact settled_closed g e hb he
  · refine settled_of_unbatched _ fun x hx => ?_
    rw [List.nil_append, List.mem_singleton] at hx
    rw [hx]
    exact hb

theorem Grouped.settled {rs : List Record} (h : Grouped rs) : Settled id rs := by
  induction h with
  | nil => rfl
  | cons hg _ ih => exact hg.settled.append ih

/-- A replay of a tidy list keeps its groups. -/
theorem committed_of_grouped_open {g tail : List Record} (hg : Grouped g) (ht : Open tail) :
    committed id (g ++ tail) = g := by
  rw [committed_append hg.settled, committed_open (f := id) tail ht, List.append_nil]

theorem Grouped.isTidy {rs : List Record} (h : Grouped rs) : Tidy rs :=
  ⟨rs, [], (List.append_nil rs).symm, h, fun _ hr => (by cases hr)⟩

/-- A proper beginning of a group is the beginning of an open batch. -/
theorem IsGroup.open_of_append {g kept dropped : List Record} (h : IsGroup g)
    (hsplit : g = kept ++ dropped) (hd : dropped ≠ []) : Open kept := by
  obtain ⟨body, e, rfl, hopen, _⟩ := h
  rcases List.append_eq_append_iff.mp hsplit with ⟨as, hk, _⟩ | ⟨bs, hb, _⟩
  · -- Everything but the end of the group is kept, or the whole group.
    rename_i hlast
    cases as with
    | nil =>
      rw [List.append_nil] at hk
      rw [hk]
      exact hopen
    | cons a as =>
      have hlen := congrArg List.length hlast
      simp only [List.length_cons, List.length_nil, List.length_append] at hlen
      exact absurd (List.length_eq_zero_iff.mp (by omega)) hd
  · intro r hr
    exact hopen r (hb ▸ List.mem_append_left _ hr)

/-- **Any beginning of a grouped log is tidy.** -/
theorem Grouped.tidy {rs kept dropped : List Record} (h : Grouped rs) (hsplit : rs = kept ++ dropped) :
    Tidy kept := by
  induction h generalizing kept with
  | nil =>
    rw [List.nil_eq_append_iff.mp hsplit |>.1]
    exact Grouped.nil.isTidy
  | @cons g rest hg _ ih =>
    rcases List.append_eq_append_iff.mp hsplit with ⟨as, rfl, hrest⟩ | ⟨bs, hb, _⟩
    · obtain ⟨body, tail, rfl, hbody, htail⟩ := ih hrest
      exact ⟨g ++ body, tail, (List.append_assoc ..).symm, .cons hg hbody, htail⟩
    · cases bs with
      | nil =>
        rw [List.append_nil] at hb
        exact hb ▸ hg.grouped.isTidy
      | cons b bs =>
        exact ⟨[], kept, rfl, .nil, hg.open_of_append hb (List.cons_ne_nil _ _)⟩

end Gokv.Engine
