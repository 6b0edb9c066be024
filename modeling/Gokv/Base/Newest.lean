import Mathlib

/-! Newest version wins.

A store that keeps versions `(key, version, payload)` in no particular order and
answers a key with its newest version is described twice here. `Shows V m` is
the purpose: `m` is the newest-version-wins map of the set `V`, where a payload
of `none` is a deletion. `Indexes V idx` is the mechanism: `idx` holds, for each
key of `V`, one of its newest versions. `Indexes.live_eq` joins the two, and the
rest is how an index follows its set: `offer` installs one version unless the
index already holds one at least as new (`Indexes.offer`), and a list of versions
offered again brings an index up to a later version (`Shows.replay`). -/
namespace Gokv.Base.Newest

variable {κ σ α ν : Type*} [LinearOrder σ]

/-- Everything the index holds is in the set. -/
def Sound (V : Set (κ × σ × α)) (idx : κ → Option (σ × α)) : Prop :=
  ∀ k x, idx k = some x → (k, x) ∈ V

/-- Every version of the set is outdone, or matched, by what the index holds. -/
def Covers (V : Set (κ × σ × α)) (idx : κ → Option (σ × α)) : Prop :=
  ∀ k x, (k, x) ∈ V → ∃ y, idx k = some y ∧ x.1 ≤ y.1

structure Indexes (V : Set (κ × σ × α)) (idx : κ → Option (σ × α)) : Prop where
  sound : Sound V idx
  covers : Covers V idx

/-- One version per key and version number. -/
def Agree (V : Set (κ × σ × α)) : Prop :=
  ∀ k x y, (k, x) ∈ V → (k, y) ∈ V → x.1 = y.1 → x = y

/-- The newest-version-wins map of a set of versions. -/
structure Shows (V : Set (κ × σ × Option ν)) (m : κ → Option ν) : Prop where
  absent : ∀ k, (∀ x, (k, x) ∉ V) → m k = none
  newest : ∀ k x, (k, x) ∈ V → (∀ y, (k, y) ∈ V → y.1 ≤ x.1) → m k = x.2

/-- What an index answers. -/
def live (idx : κ → Option (σ × Option ν)) (k : κ) : Option ν := (idx k).bind Prod.snd

/-- Install a version unless the index holds one at least as new. -/
def offer [DecidableEq κ] (idx : κ → Option (σ × α)) (k : κ) (x : σ × α) : κ → Option (σ × α) :=
  match idx k with
  | some y => if x.1 ≤ y.1 then idx else Function.update idx k (some x)
  | none => Function.update idx k (some x)

/-! ### One offer -/

section Offer
variable [DecidableEq κ]

open Classical in
/-- The offered key takes the version exactly if everything it held was older. -/
theorem offer_apply (idx : κ → Option (σ × α)) (k j : κ) (x : σ × α) :
    offer idx k x j = if j = k ∧ ∀ y, idx k = some y → y.1 < x.1 then some x else idx j := by
  unfold offer
  cases hk : idx k with
  | none =>
    by_cases hj : j = k
    · subst hj
      simp
    · simp [hj]
  | some y =>
    by_cases hle : x.1 ≤ y.1
    · have : ¬ y.1 < x.1 := not_lt.mpr hle
      simp [hle, this]
    · have hlt : y.1 < x.1 := not_le.mp hle
      by_cases hj : j = k
      · subst hj
        simp [hle, hlt]
      · simp [hle, hj]

theorem offer_other (idx : κ → Option (σ × α)) {k j : κ} (x : σ × α) (h : j ≠ k) :
    offer idx k x j = idx j := by
  rw [offer_apply, if_neg fun hc => h hc.1]

/-- After the offer the key holds the offered version or one at least as new that
was already there. -/
theorem offer_self (idx : κ → Option (σ × α)) (k : κ) (x : σ × α) :
    offer idx k x k = some x ∧ (∀ y, idx k = some y → y.1 < x.1) ∨
      ∃ y, offer idx k x k = some y ∧ idx k = some y ∧ x.1 ≤ y.1 := by
  unfold offer
  cases hk : idx k with
  | none => exact .inl ⟨Function.update_self .., fun y hy => by cases hy⟩
  | some y =>
    by_cases hle : x.1 ≤ y.1
    · exact .inr ⟨y, by simp only [if_pos hle, hk], rfl, hle⟩
    · refine .inl ⟨by simp only [if_neg hle, Function.update_self], fun z hz => ?_⟩
      cases hz
      exact not_le.mp hle

/-- A version newer than everything the key holds is installed. -/
theorem offer_newer (idx : κ → Option (σ × α)) (k : κ) (x : σ × α)
    (h : ∀ y, idx k = some y → y.1 < x.1) : offer idx k x = Function.update idx k (some x) := by
  unfold offer
  cases hk : idx k with
  | none => rfl
  | some y => simp only [if_neg (not_le.mpr (h y hk))]

/-- An index never gets older at any key. -/
theorem offer_mono (idx : κ → Option (σ × α)) (k j : κ) (x y : σ × α) (h : idx j = some y) :
    ∃ z, offer idx k x j = some z ∧ y.1 ≤ z.1 := by
  by_cases hj : j = k
  · subst hj
    rcases offer_self idx j x with ⟨hx, hlt⟩ | ⟨z, hz, hold, _⟩
    · exact ⟨x, hx, (hlt y h).le⟩
    · rw [h] at hold
      cases hold
      exact ⟨y, hz, le_rfl⟩
  · exact ⟨y, (offer_other idx x hj).trans h, le_rfl⟩

theorem Sound.offer {V : Set (κ × σ × α)} {idx : κ → Option (σ × α)} (h : Sound V idx) (k : κ)
    (x : σ × α) : Sound (insert (k, x) V) (offer idx k x) := by
  intro j y hy
  by_cases hj : j = k
  · subst hj
    rcases offer_self idx j x with ⟨hx, _⟩ | ⟨z, hz, hold, _⟩
    · rw [hx] at hy
      cases hy
      exact Set.mem_insert _ _
    · rw [hz] at hy
      cases hy
      exact Set.mem_insert_of_mem _ (h j y hold)
  · rw [offer_other idx x hj] at hy
    exact Set.mem_insert_of_mem _ (h j y hy)

theorem Covers.offer {V : Set (κ × σ × α)} {idx : κ → Option (σ × α)} (h : Covers V idx) (k : κ)
    (x : σ × α) : Covers (insert (k, x) V) (offer idx k x) := by
  intro j y hy
  rcases Set.mem_insert_iff.mp hy with heq | hold
  · cases heq
    rcases offer_self idx k x with ⟨hx, _⟩ | ⟨z, hz, _, hle⟩
    · exact ⟨x, hx, le_rfl⟩
    · exact ⟨z, hz, hle⟩
  · obtain ⟨z, hz, hle⟩ := h j y hold
    obtain ⟨w, hw, hzw⟩ := offer_mono idx k j x z hz
    exact ⟨w, hw, hle.trans hzw⟩

theorem Indexes.offer {V : Set (κ × σ × α)} {idx : κ → Option (σ × α)} (h : Indexes V idx) (k : κ)
    (x : σ × α) : Indexes (insert (k, x) V) (offer idx k x) :=
  ⟨h.sound.offer k x, h.covers.offer k x⟩

/-- A list of versions, offered in order. -/
def offerAll (idx : κ → Option (σ × α)) (xs : List (κ × σ × α)) : κ → Option (σ × α) :=
  xs.foldl (fun i x => Newest.offer i x.1 x.2) idx

omit [LinearOrder σ] [DecidableEq κ] in
private theorem union_cons (V : Set (κ × σ × α)) (x : κ × σ × α) (rest : List (κ × σ × α)) :
    V ∪ {y | y ∈ x :: rest} = insert (x.1, x.2) V ∪ {y | y ∈ rest} := by
  ext y
  simp only [Set.mem_union, Set.mem_ofPred_eq, List.mem_cons, Set.mem_insert_iff]
  tauto

theorem Sound.offerAll {V : Set (κ × σ × α)} {idx : κ → Option (σ × α)} (h : Sound V idx)
    (xs : List (κ × σ × α)) : Sound (V ∪ {x | x ∈ xs}) (offerAll idx xs) := by
  induction xs generalizing V idx with
  | nil => simpa [Newest.offerAll] using h
  | cons x rest ih =>
    rw [union_cons]
    exact ih (h.offer x.1 x.2)

theorem Covers.offerAll {V : Set (κ × σ × α)} {idx : κ → Option (σ × α)} (h : Covers V idx)
    (xs : List (κ × σ × α)) : Covers (V ∪ {x | x ∈ xs}) (offerAll idx xs) := by
  induction xs generalizing V idx with
  | nil => simpa [Newest.offerAll] using h
  | cons x rest ih =>
    rw [union_cons]
    exact ih (h.offer x.1 x.2)

theorem Indexes.offerAll {V : Set (κ × σ × α)} {idx : κ → Option (σ × α)} (h : Indexes V idx)
    (xs : List (κ × σ × α)) : Indexes (V ∪ {x | x ∈ xs}) (offerAll idx xs) :=
  ⟨h.sound.offerAll xs, h.covers.offerAll xs⟩

theorem offerAll_append (idx : κ → Option (σ × α)) (xs ys : List (κ × σ × α)) :
    offerAll idx (xs ++ ys) = offerAll (offerAll idx xs) ys := List.foldl_append

theorem offerAll_other {idx : κ → Option (σ × α)} {xs : List (κ × σ × α)} {k : κ} (h : ∀ x ∈ xs, x.1 ≠ k) :
    offerAll idx xs k = idx k := by
  induction xs generalizing idx with
  | nil => rfl
  | cons x rest ih =>
    show offerAll (Newest.offer idx x.1 x.2) rest k = idx k
    rw [ih fun y hy => h y (List.mem_cons_of_mem _ hy), offer_other idx x.2 (h x (List.mem_cons_self ..)).symm]

/-- The last offer for a key shows exactly if what it finds is older or says the same. -/
theorem live_offerAll_last {idx : κ → Option (σ × Option ν)} {before after : List (κ × σ × Option ν)} {k : κ}
    {x : σ × Option ν} (h : ∀ y ∈ after, y.1 ≠ k) :
    live (offerAll idx (before ++ (k, x) :: after)) k = x.2 ↔
      ∀ y, offerAll idx before k = some y → y.1 < x.1 ∨ y.2 = x.2 := by
  rw [offerAll_append, live]
  show (offerAll (Newest.offer (offerAll idx before) k x) after k).bind Prod.snd = x.2 ↔ _
  rw [offerAll_other h]
  rcases offer_self (offerAll idx before) k x with ⟨hx, hlt⟩ | ⟨z, hz, hold, hle⟩
  · rw [hx, Option.bind_some]
    exact ⟨fun _ y hy => .inl (hlt y hy), fun _ => rfl⟩
  · rw [hz, Option.bind_some]
    constructor
    · intro hsame y hy
      rw [hold] at hy
      cases hy
      exact .inr hsame
    · intro hall
      exact (hall z hold).resolve_left (not_lt.mpr hle)

/-- Where everything offered for a key is newer than what it holds, the key shows the
newest of the offers, and what it held if there is none. -/
theorem offerAll_newer {idx : κ → Option (σ × α)} {xs : List (κ × σ × α)} {k : κ}
    (h : ∀ x ∈ xs, x.1 = k → ∀ y, idx k = some y → y.1 < x.2.1) :
    offerAll idx xs k = (offerAll (fun _ => none) xs k).or (idx k) := by
  suffices hgen : ∀ (i j : κ → Option (σ × α)), i k = (j k).or (idx k) →
      offerAll i xs k = (offerAll j xs k).or (idx k) from hgen idx (fun _ => none) rfl
  induction xs with
  | nil => exact fun i j hij => hij
  | cons x rest ih =>
    intro i j hij
    refine ih (fun y hy => h y (List.mem_cons_of_mem _ hy)) _ _ ?_
    show offer i x.1 x.2 k = (offer j x.1 x.2 k).or (idx k)
    by_cases hk : x.1 = k
    · have hnew := h x (List.mem_cons_self ..) hk
      subst hk
      cases hj : j x.1 with
      | none =>
        rw [hj, Option.none_or] at hij
        rw [offer_newer i x.1 x.2 fun y hy => hnew y (hij ▸ hy), offer_newer j x.1 x.2 fun y hy => ?_]
        · simp
        · rw [hj] at hy
          cases hy
      | some z =>
        rw [hj, Option.some_or] at hij
        simp only [offer, hij, hj]
        by_cases hle : x.2.1 ≤ z.1
        · simp only [if_pos hle, hij, hj, Option.some_or]
        · simp only [if_neg hle, Function.update_self, Option.some_or]
    · rw [offer_other i x.2 (Ne.symm hk), offer_other j x.2 (Ne.symm hk), hij]

/-- Versions that are each newer than everything before them move the map one
after the other. -/
theorem live_offerAll (idx : κ → Option (σ × Option ν)) (xs : List (κ × σ × Option ν))
    (hinc : xs.Pairwise fun x y => x.2.1 < y.2.1)
    (hnew : ∀ x ∈ xs, ∀ k y, idx k = some y → y.1 < x.2.1) :
    live (offerAll idx xs) = xs.foldl (fun m x => Function.update m x.1 x.2.2) (live idx) := by
  induction xs generalizing idx with
  | nil => rfl
  | cons x rest ih =>
    obtain ⟨hx, hrest⟩ := List.pairwise_cons.mp hinc
    have hoffer : Newest.offer idx x.1 x.2 = Function.update idx x.1 (some x.2) :=
      offer_newer idx x.1 x.2 (hnew x (List.mem_cons_self ..) x.1)
    have hlive : live (Newest.offer idx x.1 x.2) = Function.update (live idx) x.1 x.2.2 := by
      funext k
      by_cases hk : k = x.1
      · subst hk
        simp [hoffer, live]
      · simp [hoffer, live, hk]
    show live (Newest.offerAll (Newest.offer idx x.1 x.2) rest) = _
    rw [ih _ hrest, hlive, List.foldl_cons]
    intro y hy k z hz
    rw [hoffer] at hz
    by_cases hk : k = x.1
    · subst hk
      rw [Function.update_self] at hz
      cases hz
      exact hx y hy
    · rw [Function.update_of_ne hk] at hz
      exact hnew y (List.mem_cons_of_mem _ hy) k z hz

end Offer

theorem Indexes.congr {V W : Set (κ × σ × α)} {idx : κ → Option (σ × α)} (h : Indexes V idx)
    (hVW : V = W) : Indexes W idx := hVW ▸ h

theorem Indexes.empty : Indexes (∅ : Set (κ × σ × α)) (fun _ => none) :=
  ⟨fun _ _ h => (by cases h), fun _ _ h => absurd h (Set.notMem_empty _)⟩

/-- Offers to an empty index make an index of the offers. -/
theorem indexes_offerAll [DecidableEq κ] (xs : List (κ × σ × α)) :
    Indexes {x | x ∈ xs} (offerAll (fun _ => none) xs) := by
  have h := (Indexes.empty (κ := κ) (σ := σ) (α := α)).offerAll xs
  rwa [Set.empty_union] at h

/-! ### What an index answers -/

/-- **An index of a set answers the set's newest-version-wins map.** -/
theorem Indexes.live_eq {V : Set (κ × σ × Option ν)} {idx : κ → Option (σ × Option ν)}
    {m : κ → Option ν} (h : Indexes V idx) (hm : Shows V m) : live idx = m := by
  funext k
  unfold live
  cases hk : idx k with
  | none =>
    refine (hm.absent k fun x hx => ?_).symm
    obtain ⟨y, hy, _⟩ := h.covers k x hx
    rw [hk] at hy
    cases hy
  | some x =>
    refine (hm.newest k x (h.sound k x hk) fun y hy => ?_).symm
    obtain ⟨z, hz, hle⟩ := h.covers k y hy
    rw [hk] at hz
    cases hz
    exact hle

/-- Where no two versions of a key clash, an index decides the map. -/
theorem Indexes.shows {V : Set (κ × σ × Option ν)} {idx : κ → Option (σ × Option ν)}
    (h : Indexes V idx) (ha : Agree V) : Shows V (live idx) where
  absent k hk := by
    unfold live
    cases hx : idx k with
    | none => rfl
    | some x => exact absurd (h.sound k x hx) (hk x)
  newest k x hx hmax := by
    obtain ⟨y, hy, hle⟩ := h.covers k x hx
    have hmem := h.sound k y hy
    have : x = y := ha k x y hx hmem (le_antisymm hle (hmax y hmem))
    rw [live, hy, this, Option.bind_some]

/-- A key whose newest version is among the offers shows it, unless what it had before was as
new and said something else. -/
theorem live_offerAll_newest [DecidableEq κ] {V : Set (κ × σ × Option ν)} {idx : κ → Option (σ × Option ν)}
    {xs : List (κ × σ × Option ν)} {k : κ} {y : σ × Option ν} (ha : Agree V) (hxs : ∀ x ∈ xs, x ∈ V) (hy : (k, y) ∈ xs)
    (hmax : ∀ z, (k, z) ∈ V → z.1 ≤ y.1) (hidx : ∀ z, idx k = some z → z.1 < y.1 ∨ z.2 = y.2) :
    live (offerAll idx xs) k = y.2 := by
  have hself : Indexes {x | idx x.1 = some x.2} idx := ⟨fun _ _ h => h, fun _ x h => ⟨x, h, le_rfl⟩⟩
  have hall := hself.offerAll xs
  obtain ⟨w, hw, hle⟩ := hall.covers k y (.inr hy)
  rw [live, hw, Option.bind_some]
  rcases hall.sound k w hw with hold | hnew
  · exact (hidx w hold).resolve_left (not_lt.mpr hle)
  · rw [ha k w y (hxs _ hnew) (hxs _ hy) (le_antisymm (hmax w (hxs _ hnew)) hle)]

/-! ### Replaying -/

/-- **A replay.** An index that shows the set up to version `q` and is offered versions
of the set, among them all between `q` and `p` and none above, shows the set up to `p`.
An offer may repeat something old, if it brings along whatever outdid it up to `q`. -/
theorem Shows.replay [DecidableEq κ] {V : Set (κ × σ × Option ν)} {idx : κ → Option (σ × Option ν)} {q p : σ}
    {xs : List (κ × σ × Option ν)} (ha : Agree V) (h : Shows {x ∈ V | x.2.1 ≤ q} (live idx))
    (hidx : ∀ k y, idx k = some y → y.1 ≤ q) (hqp : q ≤ p) (hxs : ∀ x ∈ xs, x ∈ V ∧ x.2.1 ≤ p)
    (hdown : ∀ x ∈ V, q < x.2.1 → x.2.1 ≤ p → x ∈ xs)
    (hup : ∀ x ∈ xs, x.2.1 ≤ q → ∀ y, (x.1, y) ∈ V → x.2.1 < y.1 → y.1 ≤ q → (x.1, y) ∈ xs) :
    Shows {x ∈ V | x.2.1 ≤ p} (live (offerAll idx xs)) := by
  have hself : Indexes {x | idx x.1 = some x.2} idx :=
    ⟨fun _ _ hx => hx, fun _ x hx => ⟨x, hx, le_rfl⟩⟩
  obtain ⟨hsound, hcovers⟩ := hself.offerAll xs
  refine ⟨fun k hk => ?_, fun k x hx hmax => ?_⟩
  · -- Nothing of the key in the set: nothing is offered, and nothing was shown.
    cases hz : offerAll idx xs k with
    | none => rw [live, hz, Option.bind_none]
    | some z =>
      rcases hsound k z hz with hold | hoff
      · have habsent := h.absent k fun y hy => hk y ⟨hy.1, hy.2.trans hqp⟩
        have hold : idx k = some z := hold
        rw [live, hold] at habsent
        rw [live, hz, habsent]
      · exact absurd (hxs _ hoff) (hk z)
  · have hnewest {z : σ × Option ν} (hz : (k, z) ∈ xs) : z.1 ≤ x.1 := hmax z (hxs _ hz)
    by_cases hq : x.1 ≤ q
    · have hshown : live idx k = x.2 := h.newest k x ⟨hx.1, hq⟩ fun y hy => hmax y ⟨hy.1, hy.2.trans hqp⟩
      cases hz : offerAll idx xs k with
      | none =>
        cases hi : idx k with
        | none =>
          rw [live, hi] at hshown
          rw [live, hz, hshown]
        | some y =>
          obtain ⟨w, hw, -⟩ := hcovers k y (.inl hi)
          rw [hz] at hw
          cases hw
      | some z =>
        rcases hsound k z hz with hold | hoff
        · have hold : idx k = some z := hold
          rw [live, hold] at hshown
          rw [live, hz, hshown]
        · -- The offer of the key is the newest one, or brought it along.
          have hmem : (k, x) ∈ xs := by
            rcases (hnewest hoff).lt_or_eq with hlt | heq
            · exact hup _ hoff ((hnewest hoff).trans hq) x hx.1 hlt hq
            · rwa [← ha k z x (hxs _ hoff).1 hx.1 heq]
          obtain ⟨w, hw, hle⟩ := hcovers k x (.inr hmem)
          rw [hz] at hw
          cases hw
          rw [live, hz, ha k z x (hxs _ hoff).1 hx.1 (le_antisymm (hnewest hoff) hle), Option.bind_some]
    · have hlt := not_le.mp hq
      obtain ⟨z, hz, hle⟩ := hcovers k x (.inr (hdown _ hx.1 hlt hx.2))
      rcases hsound k z hz with hold | hoff
      · exact absurd (hle.trans (hidx k z hold)) hq
      · rw [live, hz, ha k z x (hxs _ hoff).1 hx.1 (le_antisymm (hnewest hoff) hle), Option.bind_some]

end Gokv.Base.Newest
