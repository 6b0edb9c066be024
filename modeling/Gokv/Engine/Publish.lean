import Gokv.Engine.Merge

/-! The second half of a merge: the outputs take over.

Syncing the outputs and renaming their hints changes nothing a reader sees. A
repoint replaces a locator by one of the same version; a retired tombstone leaves
the index, and nothing outside the merge set is left for it to shadow; a removed
file is one no locator leads to. `MergeInv.step` puts the phases together. -/
namespace Gokv.Engine
open Base

section Publish
variable [Checksum] {ρ : Reading} {s s' : Store} {pend : Pending} {m : Merge}

theorem Merging.same (h : Merging ρ s pend m) (hs : Same s s') (ha : s'.active = s.active)
    (hseq : s'.seq = s.seq) : Merging ρ s' pend m := by
  obtain ⟨h1, h2, h3, h4, h5, h6, h7, h8, h9, h10, h11, h12, h13, h14, h15⟩ := h
  rw [← ha] at h2 h9 h15
  rw [← hs.nextID] at h3 h9
  rw [← hs.hinting] at h9
  rw [← hseq] at h5
  rw [← hs.bytes] at h6 h7 h11 h12 h15
  exact ⟨h1.same hs ha, h2, h3, h4, h5, h6, h7, fun o ho => (h8 o ho).of_eq (congrFun hs.bytes _), h9, h10,
    h11, h12, h13, h14, h15⟩

theorem Snapped.same {ids : List Nat} {retired items : List Item} (h : Snapped ρ s ids retired items)
    (hs : Same s s') : Snapped ρ s' ids retired items := by
  obtain ⟨h1, h2, h3⟩ := h
  rw [← hs.keys] at h1
  rw [← hs.bytes] at h2
  exact ⟨h1, h2, h3⟩

/-! ### Outputs and hints made durable -/

theorem Merging.syncOut {o : Out} {rest : List Out} (h : Merging ρ s pend m)
    (hp : PhaseOk ρ s m (.syncOuts (o :: rest))) (hphase : m.phase = .syncOuts (o :: rest)) :
    MergeInv ρ (Merge.step s m).1 pend (Merge.step s m).2 ∧ Stepped ρ s (Merge.step s m).1 := by
  obtain ⟨hsnap, hno, htodo⟩ := hp
  have hinv : Inv ρ s pend [] := by
    have := h.inv
    rwa [Merge.gone, hphase] at this
  have ho := htodo o (List.mem_cons_self ..)
  obtain ⟨b, hb, _⟩ := h.outs o ho
  obtain ⟨d, hd, hbytes, hhints, _, _, hothers⟩ := Dir.sync_ok hb
  have hs : Same s {s with dir := d} := ⟨rfl, hbytes, hhints, rfl, rfl, rfl, rfl⟩
  simp only [Merge.step, hphase, hd]
  refine ⟨.inr ⟨(h.same hs rfl rfl).withPhase _ (hinv.same hs rfl), hsnap.same hs, fun o' ho' => ?_,
    fun o' ho' => htodo o' (List.mem_cons_of_mem _ ho')⟩,
    .of_same hinv.toMounted hs rfl rfl rfl (hothers _ (h.outIDs o ho).2.1.symm)⟩
  show o'.id ∉ d.hints
  rw [hhints]
  exact hno o' ho'

theorem Merging.commitHint {o : Out} {rest : List Out} (h : Merging ρ s pend m)
    (hp : PhaseOk ρ s m (.commitHints (o :: rest))) (hphase : m.phase = .commitHints (o :: rest)) :
    MergeInv ρ (Merge.step s m).1 pend (Merge.step s m).2 ∧ Stepped ρ s (Merge.step s m).1 := by
  obtain ⟨hsnap, htodo, hhad⟩ := hp
  have hinv : Inv ρ s pend [] := by
    have := h.inv
    rwa [Merge.gone, hphase] at this
  have ho := htodo o (List.mem_cons_self ..)
  obtain ⟨b, hb, _, _, hun, hhint⟩ := h.outs o ho
  have hinv' : Inv ρ {s with dir := s.dir.renameHint o.id o.hint} pend [] :=
    hhint ▸ hinv.renameHint hb (whole_of_unbatched hun) (h.outIDs o ho).2.1
  simp only [Merge.step, hphase]
  refine ⟨.inr ⟨⟨hinv', h.active, h.ids, h.pendIDs, h.barrier, h.old, h.new, h.outs, h.outIDs, h.distinct,
    h.content, h.moved, h.retired, h.apart, h.above⟩, ⟨hsnap.indexed, hsnap.live, hsnap.apart⟩,
    fun o' ho' => htodo o' (List.mem_cons_of_mem _ ho'), fun o' ho' => ?_⟩, ?_⟩
  · show _ ∨ o'.id ∈ s.dir.hints.insert o.id o.hint
    rw [Std.ExtTreeMap.mem_insert]
    rcases hhad o' ho' with hmem | hmem
    · rcases List.mem_cons.mp hmem with rfl | hmem
      · exact .inr (.inl (by simp))
      · exact .inl hmem
    · exact .inr (.inr hmem)
  exact ⟨⟨rfl, rfl, rfl, rfl, le_rfl, rfl, rfl, .refl _, fun _ _ hr => .inl hr⟩, fun _ _ _ hr => .inl hr,
    fun _ _ hi => hi⟩

/-! ### The index moves over -/

theorem Inv.withKeys {gone : List Nat} {ks : Index} (h : Inv ρ s pend gone)
    (hloc : ∀ (k : Bytes) (e : Entry), ks[k]? = some e → s.keys[k]? = some e ∨ ∃ r, Located ρ s.dir.bytes k e r)
    (hcov : ∀ id r, Holds ρ s.dir.bytes id r → id ∉ gone → ∀ e, s.keys[r.key]? = some e → r.seq ≤ e.seq →
      ∃ e', ks[r.key]? = some e' ∧ r.seq ≤ e'.seq) : Inv ρ {s with keys := ks} pend gone :=
  {h with
    located := fun k e he => (hloc k e he).elim (h.located k e) fun hr => hr
    covers := fun id r hr hid => (h.covers id r hr hid).imp (fun hx => hx)
      fun ⟨e, he, hle⟩ => hcov id r hr hid e he hle }

theorem Merging.withKeys {ks : Index} (h : Merging ρ s pend m)
    (hinv : Inv ρ {s with keys := ks} pend m.gone) : Merging ρ {s with keys := ks} pend m :=
  ⟨hinv, h.active, h.ids, h.pendIDs, h.barrier, h.old, h.new, h.outs, h.outIDs, h.distinct, h.content,
    h.moved, h.retired, h.apart, h.above⟩

theorem Stepped.withKeys {ks : Index} (hlive : ({s with keys := ks} : Store).liveMap = s.liveMap)
    (hkept : KeepsLive s.keys ks) : Stepped ρ s {s with keys := ks} :=
  ⟨⟨rfl, rfl, rfl, rfl, le_rfl, hlive, rfl, hkept, fun _ _ hr => .inl hr⟩, fun _ _ _ hr => .inl hr,
    fun _ _ hi => hi⟩

theorem Store.liveMap_congr {ks : Index}
    (h : ∀ k : Bytes, ks[k]? = s.keys[k]? ∨
      ((ks[k]?).bind fun e => valueAt s.dir e) = (s.keys[k]?).bind fun e => valueAt s.dir e) :
    ({s with keys := ks} : Store).liveMap = s.liveMap := by
  funext k
  have hlive (t : Store) : t.liveMap k = (t.keys[k]?).bind fun e => valueAt t.dir e := by
    unfold Store.liveMap Newest.live Store.view Index.versions
    cases t.keys[k]? <;> rfl
  rw [hlive, hlive]
  rcases h k with h | h
  · show (ks[k]?).bind _ = _
    rw [h]
  · exact h

/-- One pass of the repoint loop. -/
theorem Merging.repointOne {x : Item × Entry} {rest : List (Item × Entry)} (h : Merging ρ s pend m)
    (hp : PhaseOk ρ s m (.repoint (x :: rest))) :
    Merging ρ {s with keys := Merge.repointOne s.keys x} pend m ∧
      PhaseOk ρ {s with keys := Merge.repointOne s.keys x} m (.repoint rest) ∧
      ({s with keys := Merge.repointOne s.keys x} : Store).liveMap = s.liveMap ∧
      KeepsLive s.keys (Merge.repointOne s.keys x) := by
  obtain ⟨hhint, htodo, hidx⟩ := hp
  have hrest : ∀ y ∈ rest, y ∈ m.moved := fun y hy => htodo y (List.mem_cons_of_mem _ hy)
  obtain ⟨r, hr, hseq, hfrom, hto⟩ := h.moved x (htodo x (List.mem_cons_self ..))
  have hval : r.tombstone = false := by
    obtain ⟨o, ho, heq⟩ := List.mem_map.mp hto
    exact (h.content o ho r (heq ▸ hr.holds)).1
  have hxM : x.2.fileID ∉ m.mergeIDs := by
    obtain ⟨o, ho, heq⟩ := List.mem_map.mp hto
    rw [← heq]
    exact (h.outIDs o ho).1
  by_cases hmatch : ∃ n, s.keys[x.1.key]? = some n ∧ n.seq = x.1.entry.seq ∧ n.fileID = x.1.entry.fileID
  · obtain ⟨n, hn, hns, hnf⟩ := hmatch
    have hks : Merge.repointOne s.keys x = s.keys.insert x.1.key x.2 := by
      simp only [Merge.repointOne, hn, hns, hnf, and_self, if_true]
    have hget (k : Bytes) (hk : k ≠ x.1.key) : (s.keys.insert x.1.key x.2)[k]? = s.keys[k]? := by
      rw [Std.ExtTreeMap.getElem?_insert, if_neg (by simpa using Ne.symm hk)]
    rw [hks]
    refine ⟨h.withKeys (h.inv.withKeys (fun k e he => ?_) fun id r' hr' _ e he hle => ?_),
      ⟨hhint, hrest, fun k e he hid => ?_⟩, Store.liveMap_congr fun k => ?_, fun k e he ht => ?_⟩
    · by_cases hk : k = x.1.key
      · subst hk
        rw [Std.ExtTreeMap.getElem?_insert_self] at he
        cases he
        exact .inr ⟨r, hr⟩
      · exact .inl (hget k hk ▸ he)
    · by_cases hk : r'.key = x.1.key
      · rw [hk, hn] at he
        cases he
        exact ⟨x.2, by rw [hk, Std.ExtTreeMap.getElem?_insert_self], by rwa [← hr.seq, hseq, ← hns]⟩
      · exact ⟨e, (hget _ hk).trans he, hle⟩
    · by_cases hk : k = x.1.key
      · subst hk
        simp only [Std.ExtTreeMap.getElem?_insert_self, Option.some.injEq] at he
        exact absurd (he ▸ hid) hxM
      · rcases hidx k e ((hget k hk).symm.trans he) hid with hmem | hmem
        · rcases List.mem_cons.mp hmem with heq | hmem
          · exact absurd (congrArg Item.key heq) hk
          · exact .inl hmem
        · exact .inr hmem
    · by_cases hk : k = x.1.key
      · -- The copy is the version the key had.
        subst hk
        obtain ⟨r₀, hr₀⟩ := h.inv.located _ _ hn
        have := h.inv.agree _ _ r r₀ hr.holds hr₀.holds (hr.key.trans hr₀.key.symm)
          (by rw [hseq, hr₀.seq, hns])
        refine .inr ?_
        rw [Std.ExtTreeMap.getElem?_insert_self, hn, Option.bind_some, Option.bind_some, hr.valueAt_eq,
          hr₀.valueAt_eq, this]
      · exact .inl (hget k hk)
    · by_cases hk : k = x.1.key
      · subst hk
        cases Option.some.inj (hn.symm.trans he)
        exact ⟨x.2, Std.ExtTreeMap.getElem?_insert_self, by rw [← hr.seq, hseq, hns], hr.tomb.symm.trans hval⟩
      · exact ⟨e, (hget k hk).trans he, rfl, ht⟩
  · have hks : Merge.repointOne s.keys x = s.keys := by
      unfold Merge.repointOne
      cases hn : s.keys[x.1.key]? with
      | none => rfl
      | some n => exact if_neg fun hc => hmatch ⟨n, hn, hc⟩
    rw [hks]
    refine ⟨h, ⟨hhint, hrest, fun k e he hid => ?_⟩, rfl, .refl _⟩
    rcases hidx k e he hid with hmem | hmem
    · rcases List.mem_cons.mp hmem with heq | hmem
      · exact absurd ⟨e, heq ▸ he, heq ▸ rfl, heq ▸ rfl⟩ hmatch
      · exact .inl hmem
    · exact .inr hmem

theorem Merging.repointAll {xs rest : List (Item × Entry)} (h : Merging ρ s pend m)
    (hp : PhaseOk ρ s m (.repoint (xs ++ rest))) :
    Merging ρ {s with keys := xs.foldl Merge.repointOne s.keys} pend m ∧
      PhaseOk ρ {s with keys := xs.foldl Merge.repointOne s.keys} m (.repoint rest) ∧
      ({s with keys := xs.foldl Merge.repointOne s.keys} : Store).liveMap = s.liveMap ∧
      KeepsLive s.keys (xs.foldl Merge.repointOne s.keys) := by
  induction xs generalizing s with
  | nil => exact ⟨h, hp, rfl, .refl _⟩
  | cons x xs ih =>
    obtain ⟨h1, h2, h3, h4⟩ := h.repointOne hp
    obtain ⟨h5, h6, h7, h8⟩ := ih h1 h2
    exact ⟨h5, h6, h7.trans h3, h4.trans h8⟩

/-- One pass of the retire loop. A tombstone of the merge set is at or below the
barrier, so what it shadowed is in the merge set too, or was never copied. -/
theorem Merging.retireOne {x : Item} {rest : List Item} (h : Merging ρ s pend m)
    (hgone : m.gone = m.mergeIDs) (hp : PhaseOk ρ s m (.retire (x :: rest))) :
    Merging ρ {s with keys := Merge.retireOne s.keys x} pend m ∧
      PhaseOk ρ {s with keys := Merge.retireOne s.keys x} m (.retire rest) ∧
      ({s with keys := Merge.retireOne s.keys x} : Store).liveMap = s.liveMap ∧
      KeepsLive s.keys (Merge.retireOne s.keys x) := by
  obtain ⟨hhint, htodo, hidx⟩ := hp
  have hrest : ∀ y ∈ rest, y ∈ m.retired := fun y hy => htodo y (List.mem_cons_of_mem _ hy)
  obtain ⟨_, hxM⟩ := h.retired x (htodo x (List.mem_cons_self ..))
  by_cases hmatch : ∃ n, s.keys[x.key]? = some n ∧ n.seq = x.entry.seq ∧ n.fileID = x.entry.fileID
  · obtain ⟨n, hn, hns, hnf⟩ := hmatch
    have hks : Merge.retireOne s.keys x = s.keys.erase x.key := by
      simp only [Merge.retireOne, hn, hns, hnf, and_self, if_true]
    have hget (k : Bytes) (hk : k ≠ x.key) : (s.keys.erase x.key)[k]? = s.keys[k]? := by
      rw [Std.ExtTreeMap.getElem?_erase, if_neg (by simpa using Ne.symm hk)]
    have hnone : (s.keys.erase x.key)[x.key]? = none := Std.ExtTreeMap.getElem?_erase_self
    have hback {k : Bytes} {e : Entry} (he : (s.keys.erase x.key)[k]? = some e) :
        k ≠ x.key ∧ s.keys[k]? = some e := by
      have hk : k ≠ x.key := by
        rintro rfl
        rw [hnone] at he
        cases he
      exact ⟨hk, (hget k hk).symm.trans he⟩
    obtain ⟨r, hr⟩ := h.inv.located _ _ hn
    have htomb : n.tomb = true :=
      (h.retired ⟨x.key, n⟩ (htodo _ (hidx x.key n hn (hnf ▸ hxM)))).1
    rw [hks]
    refine ⟨h.withKeys (h.inv.withKeys (fun k e he => .inl (hback he).2) fun id r' hr' hid e he hle => ?_),
      ⟨hhint, hrest, fun k e he hid => ?_⟩, Store.liveMap_congr fun k => ?_, fun k e he ht => ?_⟩
    · by_cases hk : r'.key = x.key
      · rw [hk, hn] at he
        cases he
        have hbar : r'.seq ≤ m.barrier :=
          UInt64.le_trans hle (hr.seq ▸ h.old _ r hr.holds (hnf ▸ hxM))
        rw [hgone] at hid
        by_cases hout : id ∈ m.outs.map Out.id
        · obtain ⟨o, ho, rfl⟩ := List.mem_map.mp hout
          obtain ⟨_, y, hy, hyk⟩ := h.content o ho r' hr'
          exact absurd (hyk.trans hk) (h.apart y hy x (htodo x (List.mem_cons_self ..)))
        · exact absurd (h.new id r' hr' hid hout) (UInt64.not_lt.mpr hbar)
      · exact ⟨e, (hget _ hk).trans he, hle⟩
    · obtain ⟨hk, he⟩ := hback he
      rcases List.mem_cons.mp (hidx k e he hid) with heq | hmem
      · exact absurd (congrArg Item.key heq) hk
      · exact hmem
    · by_cases hk : k = x.key
      · subst hk
        refine .inr ?_
        rw [hnone, hn, Option.bind_none, Option.bind_some, hr.valueAt_eq,
          payload_eq_none.mpr (hr.tomb.trans htomb)]
      · exact .inl (hget k hk)
    · have hk : k ≠ x.key := by
        rintro rfl
        cases Option.some.inj (hn.symm.trans he)
        rw [htomb] at ht
        cases ht
      exact ⟨e, (hget k hk).trans he, rfl, ht⟩
  · have hks : Merge.retireOne s.keys x = s.keys := by
      unfold Merge.retireOne
      cases hn : s.keys[x.key]? with
      | none => rfl
      | some n => exact if_neg fun hc => hmatch ⟨n, hn, hc⟩
    rw [hks]
    refine ⟨h, ⟨hhint, hrest, fun k e he hid => ?_⟩, rfl, .refl _⟩
    rcases List.mem_cons.mp (hidx k e he hid) with heq | hmem
    · exact absurd ⟨e, heq ▸ he, heq ▸ rfl, heq ▸ rfl⟩ hmatch
    · exact hmem

theorem Merging.retireAll {xs rest : List Item} (h : Merging ρ s pend m) (hgone : m.gone = m.mergeIDs)
    (hp : PhaseOk ρ s m (.retire (xs ++ rest))) :
    Merging ρ {s with keys := xs.foldl Merge.retireOne s.keys} pend m ∧
      PhaseOk ρ {s with keys := xs.foldl Merge.retireOne s.keys} m (.retire rest) ∧
      ({s with keys := xs.foldl Merge.retireOne s.keys} : Store).liveMap = s.liveMap ∧
      KeepsLive s.keys (xs.foldl Merge.retireOne s.keys) := by
  induction xs generalizing s with
  | nil => exact ⟨h, hp, rfl, .refl _⟩
  | cons x xs ih =>
    obtain ⟨h1, h2, h3, h4⟩ := h.retireOne hgone hp
    obtain ⟨h5, h6, h7, h8⟩ := ih h1 h2
    exact ⟨h5, h6, h7.trans h3, h4.trans h8⟩

/-! ### The merge set goes -/

/-- The store without data file `id`. -/
def Store.dropped (s : Store) (id : Nat) : Store :=
  {s with dir := s.dir.removeData id, files := s.files.erase id}

/-- Removing a file no locator leads into. -/
theorem Inv.dropped {gone : List Nat} {id : Nat} (h : Inv ρ s pend gone) (hact : s.active.id ≠ id)
    (hkeys : ∀ (k : Bytes) (e : Entry), s.keys[k]? = some e → e.fileID ≠ id)
    (hpend : ∀ x ∈ pend, x.1.fileID ≠ id) : Inv ρ (s.dropped id) pend gone := by
  have hb : (s.dropped id).dir.bytes = Function.update s.dir.bytes id none := Dir.bytes_removeData s.dir id
  have hback {i : Nat} {b : Bytes} (hi : (s.dropped id).dir.bytes i = some b) : s.dir.bytes i = some b := by
    rw [hb] at hi
    by_cases heq : i = id
    · rw [heq, Function.update_self] at hi
      cases hi
    · rwa [Function.update_of_ne heq] at hi
  refine ⟨⟨⟨h.running, ⟨fun i b hi => h.dir.sizes i b (hback hi), fun i b hi => h.dir.tidy i b (hback hi),
    fun i c b hc hi => h.dir.hints i c b hc (hback hi)⟩, fun i => ?_, fun i b hi => h.fresh i b (hback hi),
    h.hintIDs, fun i b hi hi' => h.hinting i b hi (hback hi'), fun k e he => ?_, fun x hx => ?_⟩, ?_, h.noHint⟩,
    fun i r hr hi => ?_, fun i j r r' hr hr' => ?_⟩
  · rw [hb]
    show (s.files.erase id)[i]? = _
    rw [Std.ExtTreeMap.getElem?_erase]
    by_cases hi : i = id
    · subst hi
      simp
    · simp [hi, Ne.symm hi, h.files]
  · obtain ⟨r, hr⟩ := h.located k e he
    exact ⟨r, hb ▸ hr.remove (hkeys k e he)⟩
  · exact hb ▸ (h.pending x hx).remove (hpend x hx)
  · obtain ⟨b, hb', hrest⟩ := h.active
    refine ⟨b, ?_, hrest⟩
    rw [hb]
    exact (Function.update_of_ne hact ..).trans hb'
  · exact h.covers i r (holds_remove.mp (hb ▸ hr)).2 hi
  · exact h.agree i j r r' (holds_remove.mp (hb ▸ hr)).2 (holds_remove.mp (hb ▸ hr')).2

theorem Stepped.dropped {id : Nat} (h : Mounted ρ s pend) (hact : s.active.id ≠ id)
    (hkeys : ∀ (k : Bytes) (e : Entry), s.keys[k]? = some e → e.fileID ≠ id) :
    Stepped ρ s (s.dropped id) := by
  have hb : (s.dropped id).dir.bytes = Function.update s.dir.bytes id none := Dir.bytes_removeData s.dir id
  refine ⟨⟨rfl, rfl, rfl, rfl, le_rfl, h.liveMap_eq rfl fun k e r hr he => hb ▸ hr.remove (hkeys k e he), ?_,
    .refl _, fun i r hr => .inl (holds_remove.mp (hb ▸ hr)).2⟩, fun k e r hr => ?_, fun i _ hi => ?_⟩
  · show (s.dir.data.erase id)[s.active.id]? = _
    rw [Std.ExtTreeMap.getElem?_erase, if_neg (by simpa using hact.symm)]
  · by_cases he : e.fileID = id
    · exact .inr (by rw [hb, he, Function.update_self])
    · exact .inl (hb ▸ hr.remove he)
  · rw [hb]
    by_cases heq : i = id
    · rw [heq, Function.update_self]
    · rwa [Function.update_of_ne heq]

theorem Merging.dropped {id : Nat} (h : Merging ρ s pend m) (hid : id ∈ m.mergeIDs) (hleft : Left s m) :
    Merging ρ (s.dropped id) pend m := by
  have hb : (s.dropped id).dir.bytes = Function.update s.dir.bytes id none := Dir.bytes_removeData s.dir id
  have hholds {i : Nat} {r : Record} (hr : Holds ρ (s.dropped id).dir.bytes i r) : Holds ρ s.dir.bytes i r :=
    (holds_remove.mp (hb ▸ hr)).2
  have hne {i : Nat} (hi : i ∉ m.mergeIDs) : i ≠ id := fun heq => hi (heq ▸ hid)
  refine ⟨h.inv.dropped (hne h.active) (fun k e he => hne (hleft k e he)) fun x hx => hne (h.pendIDs x hx),
    h.active, h.ids, h.pendIDs, h.barrier, fun i r hr => h.old i r (hholds hr), fun i r hr => h.new i r (hholds hr),
    fun o ho => (h.outs o ho).of_eq ?_, h.outIDs, h.distinct, fun o ho r hr => h.content o ho r (hholds hr),
    fun x hx => ?_, h.retired, h.apart, fun i b hi => h.above i b ?_⟩
  · rw [hb]
    exact Function.update_of_ne (hne (h.outIDs o ho).1) ..
  · obtain ⟨r, hr, hseq, hfrom, hto⟩ := h.moved x hx
    obtain ⟨o, ho, heq⟩ := List.mem_map.mp hto
    exact ⟨r, hb ▸ hr.remove (heq ▸ hne (h.outIDs o ho).1), hseq, hfrom, hto⟩
  · rw [hb] at hi
    by_cases heq : i = id
    · rw [heq, Function.update_self] at hi
      cases hi
    · rwa [Function.update_of_ne heq] at hi

theorem Merging.remove {x : Removal} {rest : List Removal} (h : Merging ρ s pend m)
    (hp : PhaseOk ρ s m (.remove (x :: rest))) (hphase : m.phase = .remove (x :: rest)) :
    MergeInv ρ (Merge.step s m).1 pend (Merge.step s m).2 ∧ Stepped ρ s (Merge.step s m).1 := by
  obtain ⟨hhint, hleft, htodo, hall⟩ := hp
  have hrest : ∀ id, .data id ∈ rest ∨ .hint id ∈ rest → id ∈ m.mergeIDs := fun id hid =>
    htodo id (hid.imp (List.mem_cons_of_mem _) (List.mem_cons_of_mem _))
  have hinv : Inv ρ s pend m.mergeIDs := by
    have := h.inv
    rwa [Merge.gone, hphase] at this
  simp only [Merge.step, hphase]
  cases x with
  | data id =>
    have hid := htodo id (.inl (List.mem_cons_self ..))
    by_cases hf : id ∈ s.files
    · have hstep : Merge.removeStep s (.data id) = s.dropped id := if_pos hf
      have hm := h.dropped hid hleft
      have hne {i : Nat} (hi : i ∉ m.mergeIDs) : i ≠ id := fun heq => hi (heq ▸ hid)
      have hinv' : Inv ρ (s.dropped id) pend m.mergeIDs := by
        have := hm.inv
        rwa [Merge.gone, hphase] at this
      have hb := Dir.bytes_removeData s.dir id
      rw [hstep]
      refine ⟨.inr ⟨hm.withPhase _ hinv', hhint, hleft, hrest, fun i hi => ?_⟩,
        .dropped hinv.toMounted (hne h.active) fun k e he => hne (hleft k e he)⟩
      by_cases heq : i = id
      · refine .inr ?_
        show (s.dir.removeData id).bytes i = none
        rw [hb, heq, Function.update_self]
      · rcases hall i hi with hmem | hmem
        · rcases List.mem_cons.mp hmem with hx | hmem
          · cases hx
            exact absurd rfl heq
          · exact .inl hmem
        · refine .inr ?_
          show (s.dir.removeData id).bytes i = none
          rwa [hb, Function.update_of_ne heq]
    · have hstep : Merge.removeStep s (.data id) = s := if_neg hf
      rw [hstep]
      refine ⟨.inr ⟨h.withPhase _ hinv, hhint, hleft, hrest, fun i hi => ?_⟩, .refl s⟩
      rcases hall i hi with hmem | hmem
      · rcases List.mem_cons.mp hmem with hx | hmem
        · cases hx
          refine .inr ?_
          cases hb : s.dir.bytes id with
          | none => rfl
          | some b => exact absurd (hinv.mem_files.mpr ⟨b, hb⟩) hf
        · exact .inl hmem
      · exact .inr hmem
  | hint id =>
    have hid := htodo id (.inr (List.mem_cons_self ..))
    refine ⟨.inr ⟨⟨hinv.removeHint id, h.active, h.ids, h.pendIDs, h.barrier, h.old, h.new, h.outs, h.outIDs,
      h.distinct, h.content, h.moved, h.retired, h.apart, h.above⟩, fun o ho => ?_, hleft, hrest,
      fun i hi => ?_⟩, ?_⟩
    · show o.id ∈ s.dir.hints.erase id
      rw [Std.ExtTreeMap.mem_erase]
      exact ⟨by simpa using fun heq : id = o.id => (h.outIDs o ho).1 (heq ▸ hid), hhint o ho⟩
    · rcases hall i hi with hmem | hmem
      · rcases List.mem_cons.mp hmem with hx | hmem
        · cases hx
        · exact .inl hmem
      · exact .inr hmem
    · exact ⟨⟨rfl, rfl, rfl, rfl, le_rfl, rfl, rfl, .refl _, fun _ _ hr => .inl hr⟩,
        fun _ _ _ hr => .inl hr, fun _ _ hi => hi⟩

/-! ### Every step -/

theorem PhaseOk.withPhase {p q : Phase} (h : PhaseOk ρ s m p) : PhaseOk ρ s {m with phase := q} p := by
  cases p <;> exact h

/-- A step that only goes on to another phase, or only touches what the invariant
does not see. -/
theorem Merging.next {p : Phase} (h : Merging ρ s pend m)
    (hinv : Inv ρ s pend ({m with phase := p} : Merge).gone) (hp : PhaseOk ρ s' m p) (hs : Same s s')
    (ha : s'.active = s.active) (hseq : s'.seq = s.seq) (hopts : s'.opts = s.opts)
    (hdata : s'.dir.data = s.dir.data) :
    MergeInv ρ s' pend {m with phase := p} ∧ Stepped ρ s s' :=
  ⟨.inr ⟨(h.withPhase p hinv).same hs ha hseq, hp.withPhase⟩,
    .of_same h.inv.toMounted hs hseq ha hopts (by rw [hdata])⟩

omit [Checksum] in
theorem Same.refl (s : Store) : Same s s := ⟨rfl, rfl, rfl, rfl, rfl, rfl, rfl⟩

/-- **Every step of a merge keeps its invariant and the live map**, whatever write is
in flight, as long as the file the seal made active is active at the listing and
the file counter has room. -/
theorem MergeInv.step (h : MergeInv ρ s pend m) (hlist : ∀ a, m.phase = .list a → s.active.id = a)
    (hid : s.nextID + 1 < 2 ^ 32) :
    MergeInv ρ (Merge.step s m).1 pend (Merge.step s m).2 ∧ Stepped ρ s (Merge.step s m).1 := by
  rcases h with ⟨a, h⟩ | ⟨h, hp⟩
  · have hphase : m.phase = .list a := by
      rw [h.fresh]
      rfl
    simp only [Merge.step, hphase]
    exact ⟨h.step (hlist a hphase), .refl s⟩
  · have hinv := h.inv
    cases hphase : m.phase with
    | list a =>
      rw [hphase] at hp
      exact hp.elim
    | snapshot =>
      rw [hphase] at hp
      simp only [Merge.step, hphase]
      exact ⟨h.snapshot hp hphase, .refl s⟩
    | copy todo =>
      rw [hphase] at hp
      rw [Merge.gone, hphase] at hinv
      cases todo with
      | nil =>
        simp only [Merge.step, hphase]
        obtain ⟨hsnap, hno⟩ := hp
        rw [List.append_nil] at hsnap
        exact h.next hinv ⟨hsnap, hno, fun o ho => ho⟩ (.refl s) rfl rfl rfl rfl
      | cons it rest =>
        simp only [Merge.step, hphase]
        exact h.copy hp hphase hid
    | write it rec buf rest =>
      rw [hphase] at hp
      simp only [Merge.step, hphase]
      exact h.write hp hphase
    | syncOuts todo =>
      rw [hphase] at hp
      cases todo with
      | nil =>
        rw [Merge.gone, hphase] at hinv
        simp only [Merge.step, hphase]
        exact h.next hinv ⟨hp.1, fun o ho => ho, fun o ho => .inl ho⟩ (.refl s) rfl rfl rfl rfl
      | cons o rest => exact h.syncOut hp hphase
    | commitHints todo =>
      rw [hphase] at hp
      cases todo with
      | nil =>
        rw [Merge.gone, hphase] at hinv
        simp only [Merge.step, hphase]
        have hhint : Hinted s m := fun o ho => (hp.2.2 o ho).resolve_left List.not_mem_nil
        exact h.next hinv ⟨hhint, fun x hx => hx, hp.1.indexed⟩ (.refl s) rfl rfl rfl rfl
      | cons o rest => exact h.commitHint hp hphase
    | repoint todo =>
      rw [hphase] at hp
      rw [Merge.gone, hphase] at hinv
      simp only [Merge.step, hphase]
      cases todo with
      | nil =>
        have hidx : ∀ (k : Bytes) (e : Entry), s.keys[k]? = some e → e.fileID ∈ m.mergeIDs → ⟨k, e⟩ ∈ m.retired :=
          fun k e he hid => (hp.2.2 k e he hid).resolve_left List.not_mem_nil
        exact h.next (hinv.weaken fun id hid => absurd hid List.not_mem_nil) ⟨hp.1, fun it hit => hit, hidx⟩
          (.refl s) rfl rfl rfl rfl
      | cons x rest =>
        rw [← List.take_append_drop repointChunk (x :: rest)] at hp
        obtain ⟨h1, h2, h3, h4⟩ := h.repointAll hp
        have hinv1 := h1.inv
        rw [Merge.gone, hphase] at hinv1
        exact ⟨.inr ⟨h1.withPhase _ hinv1, h2⟩, .withKeys h3 h4⟩
    | retire todo =>
      rw [hphase] at hp
      simp only [Merge.step, hphase]
      have hgone : m.gone = m.mergeIDs := by rw [Merge.gone, hphase]
      cases todo with
      | nil =>
        rw [hgone] at hinv
        have hleft : Left s m := fun k e he hid => List.not_mem_nil (hp.2.2 k e he hid)
        exact h.next hinv ⟨hp.1, hleft⟩ (.refl s) rfl rfl rfl rfl
      | cons x rest =>
        rw [← List.take_append_drop repointChunk (x :: rest)] at hp
        obtain ⟨h1, h2, h3, h4⟩ := h.retireAll hgone hp
        have hinv1 := h1.inv
        rw [hgone] at hinv1
        exact ⟨.inr ⟨h1.withPhase _ hinv1, h2⟩, .withKeys h3 h4⟩
    | watermark =>
      rw [hphase] at hp
      rw [Merge.gone, hphase] at hinv
      simp only [Merge.step, hphase]
      refine h.next hinv ⟨hp.1, hp.2, fun id hid => ?_, fun id hid => .inl ?_⟩
        ⟨rfl, rfl, rfl, rfl, rfl, rfl, rfl⟩ rfl rfl
        rfl rfl
      · simp only [Merge.removals, List.mem_flatMap, List.mem_cons, Removal.data.injEq, Removal.hint.injEq,
          reduceCtorEq, List.not_mem_nil, or_false, false_or] at hid
        obtain ⟨i, hi, rfl⟩ | ⟨i, hi, rfl⟩ := hid <;> exact hi
      · exact List.mem_flatMap.mpr ⟨id, hid, List.mem_cons_self ..⟩
    | remove todo =>
      rw [hphase] at hp
      cases todo with
      | nil =>
        rw [Merge.gone, hphase] at hinv
        simp only [Merge.step, hphase]
        -- The merge set is gone, so nothing in it needs a cover.
        have hall : Inv ρ s pend [] := by
          refine {hinv with covers := fun i r hr _ => ?_ }
          by_cases hi : i ∈ m.mergeIDs
          · obtain ⟨b, hb, _⟩ := hr
            rcases hp.2.2.2 i hi with hmem | hnone
            · cases hmem
            · rw [hnone] at hb
              cases hb
          · exact hinv.covers i r hr hi
        have hgone : Removed s m := ⟨hp.1, fun i hi => (hp.2.2.2 i hi).resolve_left List.not_mem_nil⟩
        exact h.next hall hgone (.refl s) rfl rfl rfl rfl
      | cons x rest => exact h.remove hp hphase
    | recount =>
      rw [hphase] at hp
      rw [Merge.gone, hphase] at hinv
      simp only [Merge.step, hphase]
      exact h.next hinv hp ⟨rfl, rfl, rfl, rfl, rfl, rfl, rfl⟩ rfl rfl rfl rfl
    | sum =>
      rw [hphase] at hp
      rw [Merge.gone, hphase] at hinv
      simp only [Merge.step, hphase]
      exact h.next hinv hp (.refl s) rfl rfl rfl rfl
    | total n =>
      rw [hphase] at hp
      rw [Merge.gone, hphase] at hinv
      simp only [Merge.step, hphase]
      exact h.next hinv hp ⟨rfl, rfl, rfl, rfl, rfl, rfl, rfl⟩ rfl rfl rfl rfl
    | done =>
      simp only [Merge.step, hphase]
      exact ⟨.inr ⟨h, hp⟩, .refl s⟩
    | failed e =>
      rw [hphase] at hp
      exact hp.elim

theorem MergeInv.not_failed {pend : Pending} (h : MergeInv ρ s pend m) (e : Error) : m.phase ≠ .failed e := by
  intro hp
  rcases h with ⟨a, h⟩ | ⟨_, h⟩
  · rw [h.fresh] at hp
    cases hp
  · rw [hp] at h
    exact h

end Publish

end Gokv.Engine
