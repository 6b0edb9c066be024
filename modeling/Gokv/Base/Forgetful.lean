import Gokv.Base.Newest

/-! An index that forgets deletions.

Two indexes are offered the same versions; the one may drop a key whose newest version
is a deletion, the other keeps everything. What the first holds is never ahead, and what
the second shows as live the first holds as it is (`Trails`): offers and dropping keep
that. They answer alike until an offer brings back a value the full index knows to be
deleted (`Revives`), and no longer. -/
namespace Gokv.Base.Newest

variable {κ σ α ν : Type*} [LinearOrder σ]

/-- The newer of what a key holds and an offer; ties go to what it holds. -/
def newer (o : Option (σ × α)) (x : σ × α) : Option (σ × α) :=
  match o with
  | some y => if x.1 ≤ y.1 then some y else some x
  | none => some x

theorem newer_cases (o : Option (σ × α)) (x : σ × α) :
    newer o x = some x ∧ (∀ y, o = some y → y.1 < x.1) ∨ newer o x = o ∧ ∃ y, o = some y ∧ x.1 ≤ y.1 := by
  cases o with
  | none => exact .inl ⟨rfl, nofun⟩
  | some y =>
    by_cases hle : x.1 ≤ y.1
    · exact .inr ⟨if_pos hle, y, rfl, hle⟩
    · refine .inl ⟨if_neg hle, fun z hz => ?_⟩
      cases hz
      exact not_le.mp hle

theorem newer_newer (o : Option (σ × α)) (x y : σ × α) :
    newer (newer o x) y = newer o (if y.1 ≤ x.1 then x else y) := by
  cases o with
  | none =>
    show newer (some x) y = some _
    rw [newer]
    split <;> rfl
  | some z => grind [newer]

section Offer
variable [DecidableEq κ]

theorem offer_at (idx : κ → Option (σ × α)) (k : κ) (x : σ × α) : offer idx k x k = newer (idx k) x := by
  unfold offer newer
  cases hk : idx k with
  | none => exact Function.update_self ..
  | some y =>
    by_cases hle : x.1 ≤ y.1
    · simp only [if_pos hle, hk]
    · simp only [if_neg hle, Function.update_self]

/-- **A list of offers is one offer per key**: that of its newest version. -/
theorem offerAll_at (idx : κ → Option (σ × α)) (xs : List (κ × σ × α)) (k : κ) :
    offerAll idx xs k = (offerAll (fun _ => none) xs k).elim (idx k) (newer (idx k)) := by
  induction xs using List.reverseRecOn with
  | nil => rfl
  | append_singleton xs x ih =>
    rw [offerAll_append, offerAll_append]
    show offer (offerAll idx xs) x.1 x.2 k = (offer (offerAll (fun _ => none) xs) x.1 x.2 k).elim _ _
    by_cases hk : k = x.1
    · subst hk
      rw [offer_at, offer_at, ih]
      cases offerAll (fun _ => none) xs x.1 with
      | none => rfl
      | some y =>
        show newer (newer _ y) x.2 = (if x.2.1 ≤ y.1 then some y else some x.2).elim _ _
        rw [newer_newer]
        split <;> rfl
    · rw [offer_other _ _ hk, offer_other _ _ hk, ih]

/-! ### Two indexes -/

variable {idx idx' ref : κ → Option (σ × Option ν)}

/-- `idx` has forgotten deletions that `ref` remembers. -/
structure Trails (idx ref : κ → Option (σ × Option ν)) : Prop where
  behind : ∀ k x, idx k = some x → ∃ y, ref k = some y ∧ x.1 ≤ y.1
  live : ∀ k q v, ref k = some (q, some v) → idx k = some (q, some v)

omit [DecidableEq κ] in
theorem Trails.refl (idx : κ → Option (σ × Option ν)) : Trails idx idx :=
  ⟨fun _ x hx => ⟨x, hx, le_rfl⟩, fun _ _ _ h => h⟩

theorem Trails.offerAll (h : Trails idx ref) (xs : List (κ × σ × Option ν)) :
    Trails (offerAll idx xs) (offerAll ref xs) := by
  constructor
  · intro k x hx
    rw [offerAll_at] at hx ⊢
    cases hnew : Newest.offerAll (fun _ => none) xs k with
    | none =>
      rw [hnew] at hx
      exact h.behind k x hx
    | some y =>
      rw [hnew] at hx
      show ∃ z, newer (ref k) y = some z ∧ _
      have hx : newer (idx k) y = some x := hx
      rcases newer_cases (idx k) y with ⟨hy, -⟩ | ⟨hold, -⟩
      · obtain rfl : y = x := Option.some.inj (hy.symm.trans hx)
        rcases newer_cases (ref k) y with ⟨hr, -⟩ | ⟨hr, z, hz, hle⟩
        · exact ⟨y, hr, le_rfl⟩
        · exact ⟨z, hr.trans hz, hle⟩
      · obtain ⟨z, hz, hle⟩ := h.behind k x (hold.symm.trans hx)
        rcases newer_cases (ref k) y with ⟨hr, hlt⟩ | ⟨hr, -⟩
        · exact ⟨y, hr, hle.trans (hlt z hz).le⟩
        · exact ⟨z, hr.trans hz, hle⟩
  · intro k q v hr
    rw [offerAll_at] at hr ⊢
    cases hnew : Newest.offerAll (fun _ => none) xs k with
    | none =>
      rw [hnew] at hr
      exact h.live k q v hr
    | some y =>
      rw [hnew] at hr
      show newer (idx k) y = _
      have hr : newer (ref k) y = some (q, some v) := hr
      rcases newer_cases (ref k) y with ⟨hy, hlt⟩ | ⟨hold, z, hz, hle⟩
      · rcases newer_cases (idx k) y with ⟨hi, -⟩ | ⟨-, x, hx, hle⟩
        · exact hi.trans (hy.symm.trans hr)
        · obtain ⟨z, hz, hle'⟩ := h.behind k x hx
          exact absurd (hle.trans hle') (not_le.mpr (hlt z hz))
      · have hq := h.live k q v (hold.symm.trans hr)
        obtain rfl : z = (q, some v) := Option.some.inj (hz.symm.trans (hold.symm.trans hr))
        rw [hq, newer, if_pos hle]

omit [DecidableEq κ] in
/-- Dropping keys that are not live. -/
theorem Trails.forget (h : Trails idx ref)
    (hf : ∀ k, idx' k = idx k ∨ idx' k = none ∧ ∀ q v, idx k ≠ some (q, some v)) : Trails idx' ref := by
  constructor
  · intro k x hx
    rcases hf k with heq | ⟨hnone, -⟩
    · exact h.behind k x (heq ▸ hx)
    · rw [hnone] at hx
      cases hx
  · intro k q v hr
    have hi := h.live k q v hr
    rcases hf k with heq | ⟨-, hdead⟩
    · rw [heq, hi]
    · exact absurd hi (hdead q v)

/-- The offer is a value `idx` takes and `ref` knows to be deleted. -/
def Revives (idx ref : κ → Option (σ × Option ν)) (k : κ) (x : σ × Option ν) : Prop :=
  x.2 ≠ none ∧ (∀ y, idx k = some y → y.1 < x.1) ∧ ∃ q, ref k = some (q, none) ∧ x.1 ≤ q

omit [DecidableEq κ] in
/-- One offer to one key. -/
theorem Trails.live_newer_iff (h : Trails idx ref) {k : κ} (hk : Newest.live idx k = Newest.live ref k)
    (x : σ × Option ν) :
    (newer (idx k) x).bind Prod.snd = (newer (ref k) x).bind Prod.snd ↔ ¬ Revives idx ref k x := by
  rcases newer_cases (idx k) x with ⟨hi, hlt⟩ | ⟨hi, y, hy, hle⟩
  · rcases newer_cases (ref k) x with ⟨hr, hlt'⟩ | ⟨hr, z, hz, hle'⟩
    · rw [hi, hr]
      refine iff_of_true rfl fun ⟨_, _, q, hq, hle⟩ => ?_
      exact absurd hle (not_le.mpr (hlt' _ hq))
    · -- The full index keeps a newer version; were it a value, both would hold it.
      have hdel : z.2 = none := by
        rw [Option.eq_none_iff_forall_not_mem]
        intro v hv
        have := hlt (z.1, some v) (h.live k z.1 v (hz.trans (by rw [← Option.mem_def.mp hv])))
        exact absurd hle' (not_le.mpr this)
      rw [hi, hr, hz, Option.bind_some, Option.bind_some, hdel]
      refine ⟨fun hx ⟨hne, _⟩ => hne hx, fun hno => ?_⟩
      by_contra hne
      exact hno ⟨hne, hlt, z.1, hz.trans (by rw [← hdel]), hle'⟩
  · obtain ⟨z, hz, hle'⟩ := h.behind k y hy
    have hr : newer (ref k) x = ref k := by
      rw [hz, newer, if_pos (hle.trans hle')]
    rw [hi, hr]
    refine iff_of_true hk fun ⟨_, hlt, _⟩ => ?_
    exact absurd hle (not_le.mpr (hlt y hy))

/-- **The two answer alike** after the offers exactly if the newest of no key revives it. -/
theorem Trails.live_iff (h : Trails idx ref) (hlive : Newest.live idx = Newest.live ref)
    (xs : List (κ × σ × Option ν)) :
    Newest.live (Newest.offerAll idx xs) = Newest.live (Newest.offerAll ref xs) ↔
      ∀ k x, Newest.offerAll (fun _ => none) xs k = some x → ¬ Revives idx ref k x := by
  rw [funext_iff]
  refine forall_congr' fun k => ?_
  have hk := congrFun hlive k
  simp only [Newest.live, offerAll_at idx xs k, offerAll_at ref xs k]
  cases Newest.offerAll (fun _ => none) xs k with
  | none => exact iff_of_true hk fun _ hx => by cases hx
  | some x =>
    simp only [Option.elim_some, Option.some.injEq, forall_eq']
    exact h.live_newer_iff hk x

end Offer

end Gokv.Base.Newest
