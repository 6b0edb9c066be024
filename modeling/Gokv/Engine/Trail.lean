import Gokv.Engine.Publish

/-! What a merge with nothing in between leaves on disk.

`Moves` says what one step does to the disk and to the merge's own lists, whatever
the store. A `Trail` compares a merge with the store it was started on: every file
is the active one, in the merge set or an output; the items are the values the
index held; and of the removals, issued in id order, those done have left no file
while the files still to remove are as they were. -/
namespace Gokv.Engine
open Base

namespace Merge

/-- The items that were or will be copied. -/
def items (m : Merge) : List Item :=
  match m.phase with
  | .copy todo => m.moved.map Prod.fst ++ todo
  | .write it _ _ todo => m.moved.map Prod.fst ++ it :: todo
  | _ => m.moved.map Prod.fst

/-- The removals still to issue. -/
def left (m : Merge) : List Removal :=
  match m.phase with
  | .remove todo => todo
  | .recount => []
  | .sum => []
  | .total _ => []
  | .done => []
  | _ => removals m.mergeIDs

theorem mem_removals {ids : List Nat} {i : Nat} : .data i ∈ removals ids ↔ i ∈ ids := by
  simp [removals]

/-- Removals are issued in the order of the ids. -/
theorem removals_ascending {ids : List Nat} (h : ids.Pairwise (· < ·)) :
    (removals ids).Pairwise fun x y => ∀ i j, x = .data i → y = .data j → i < j := by
  induction ids with
  | nil => exact List.Pairwise.nil
  | cons id rest ih =>
    obtain ⟨hid, hrest⟩ := List.pairwise_cons.mp h
    refine List.pairwise_cons.mpr ⟨fun y hy i j hx hj => ?_, List.pairwise_cons.mpr ⟨?_, ih hrest⟩⟩
    · cases hx
      subst hj
      exact hid j (mem_removals.mp ((List.mem_cons.mp hy).resolve_left Removal.noConfusion))
    · intro y _ i j hx
      cases hx

end Merge

/-- What a step past the snapshot does to the disk and to the merge's lists. -/
structure Moves (s : Store) (m : Merge) (s' : Store) (m' : Merge) : Prop where
  ids : m'.mergeIDs = m.mergeIDs
  phase : m'.phase ≠ .snapshot ∧ ∀ a, m'.phase ≠ .list a
  outs : ∀ i ∈ m.outs.map Out.id, i ∈ m'.outs.map Out.id
  files : ∀ i b, s'.dir.bytes i = some b → (∃ b, s.dir.bytes i = some b) ∨ i ∈ m'.outs.map Out.id
  items : ∀ it ∈ m'.items, it ∈ m.items
  left : m'.left = m.left ∧ (∀ i, i < s.nextID → i ∉ m.outs.map Out.id → s'.dir.bytes i = s.dir.bytes i) ∨
    ∃ r, m.left = r :: m'.left ∧ s' = Merge.removeStep s r

section Moves
variable {s s' : Store} {m : Merge}

/-- A step that leaves data files and outputs alone. -/
theorem Moves.of_bytes {p : Phase} (hb : s'.dir.bytes = s.dir.bytes)
    (hp : p ≠ .snapshot ∧ ∀ a, p ≠ .list a)
    (hitems : ∀ it ∈ ({m with phase := p} : Merge).items, it ∈ m.items)
    (hleft : ({m with phase := p} : Merge).left = m.left) : Moves s m s' {m with phase := p} :=
  ⟨rfl, hp, fun _ hi => hi, fun i b hi => .inl ⟨b, hb ▸ hi⟩, hitems, .inl ⟨hleft, fun i _ _ => by rw [hb]⟩⟩

variable [Checksum]

theorem Moves.copy {it : Item} {rest : List Item} (hp : m.phase = .copy (it :: rest))
    (hok : ∀ e, (Merge.copyStep s m it rest).2.phase ≠ .failed e) :
    Moves s m (Merge.copyStep s m it rest).1 (Merge.copyStep s m it rest).2 := by
  have hitems : m.items = m.moved.map Prod.fst ++ it :: rest := by rw [Merge.items, hp]
  have hleft : m.left = Merge.removals m.mergeIDs := by rw [Merge.left, hp]
  have hwrite {rec : Record} {buf : Bytes} : Moves s m s {m with phase := .write it rec buf rest} :=
    .of_bytes rfl ⟨Phase.noConfusion, fun _ => Phase.noConfusion⟩ (fun x hx => hitems ▸ hx) hleft.symm
  revert hok
  rw [Merge.copyStep]
  split
  · intro _
    refine .of_bytes rfl ⟨Phase.noConfusion, fun _ => Phase.noConfusion⟩ (fun x hx => ?_) hleft.symm
    rw [hitems]
    rcases List.mem_append.mp hx with hx | hx
    · exact List.mem_append_left _ hx
    · exact List.mem_append_right _ (List.mem_cons_of_mem _ hx)
  · cases s.dir.readAt it.entry.fileID it.entry.pos it.entry.size with
    | error e => exact fun hok => absurd rfl (hok e)
    | ok raw =>
      cases hrec : decodeRecord raw with
      | error e =>
        simp only [hrec]
        exact fun hok => absurd rfl (hok e)
      | ok rec =>
        simp only [hrec]
        split
        · cases hnew : s.dir.create s.nextID with
          | error e =>
            simp only [Merge.newOut, hnew]
            exact fun hok => absurd rfl (hok e)
          | ok dir =>
            have hdir : dir.bytes = Function.update s.dir.bytes s.nextID (some []) := by
              unfold Dir.create at hnew
              split at hnew
              · cases hnew
              · cases hnew
                exact Dir.bytes_insert ..
            simp only [Merge.newOut, hnew]
            refine fun _ => ⟨rfl, ⟨Phase.noConfusion, fun _ => Phase.noConfusion⟩, fun i hi => ?_,
              fun i b hi => ?_, fun x hx => hitems ▸ hx, .inl ⟨hleft.symm, fun i hi _ => ?_⟩⟩
            · rw [List.map_append]
              exact List.mem_append_left _ hi
            · rcases update_some (hdir ▸ hi) with ⟨rfl, _⟩ | ⟨_, hi⟩
              · exact .inr (by simp)
              · exact .inl ⟨b, hi⟩
            · show dir.bytes i = _
              rw [hdir, Function.update_of_ne hi.ne]
        · exact fun _ => hwrite

omit [Checksum] in
theorem Moves.write {it : Item} {rec : Record} {buf : Bytes} {rest : List Item}
    (hp : m.phase = .write it rec buf rest)
    (hok : ∀ e, (Merge.writeStep s m it rec buf rest).2.phase ≠ .failed e) :
    Moves s m (Merge.writeStep s m it rec buf rest).1 (Merge.writeStep s m it rec buf rest).2 := by
  have hitems : m.items = m.moved.map Prod.fst ++ it :: rest := by rw [Merge.items, hp]
  have hleft : m.left = Merge.removals m.mergeIDs := by rw [Merge.left, hp]
  revert hok
  rw [Merge.writeStep]
  cases hlast : m.outs.getLast? with
  | none =>
    refine fun _ => .of_bytes rfl ⟨Phase.noConfusion, fun _ => Phase.noConfusion⟩ (fun x hx => ?_) hleft.symm
    rw [hitems]
    rcases List.mem_append.mp hx with hx | hx
    · exact List.mem_append_left _ hx
    · exact List.mem_append_right _ (List.mem_cons_of_mem _ hx)
  | some o =>
    obtain ⟨init, houts⟩ := List.getLast?_eq_some_iff.mp hlast
    have ho : o.id ∈ m.outs.map Out.id := by simp [houts]
    cases hw : s.dir.writeAt o.id o.size buf with
    | error e =>
      simp only [hw]
      exact fun hok => absurd rfl (hok e)
    | ok dir =>
      have hdir : ∃ b, dir.bytes = Function.update s.dir.bytes o.id (some b) := by
        unfold Dir.writeAt at hw
        split at hw
        · cases hw
        · cases hw
          exact ⟨_, Dir.bytes_insert ..⟩
      obtain ⟨b, hdir⟩ := hdir
      simp only [hw]
      have hids (size : Nat) (hint : Bytes) :
          (m.outs.dropLast ++ [(⟨o.id, size, hint⟩ : Out)]).map Out.id = m.outs.map Out.id := by
        rw [houts, List.dropLast_concat, List.map_append, List.map_append, List.map_singleton,
          List.map_singleton]
      refine fun _ => ⟨rfl, ⟨Phase.noConfusion, fun _ => Phase.noConfusion⟩, fun i hi => ?_,
        fun i c hi => ?_, fun x hx => ?_, .inl ⟨hleft.symm, fun i _ hi => ?_⟩⟩
      · rwa [hids]
      · rcases update_some (hdir ▸ hi) with ⟨rfl, _⟩ | ⟨_, hi⟩
        · exact .inr (by rwa [hids])
        · exact .inl ⟨c, hi⟩
      · have hx : x ∈ (m.moved ++ [(it, _)]).map Prod.fst ++ rest := hx
        rw [List.map_append, List.append_assoc] at hx
        exact hitems ▸ hx
      · show dir.bytes i = _
        rw [hdir, Function.update_of_ne fun heq : i = o.id => hi (heq ▸ ho)]

omit [Checksum] in
theorem bytes_removeStep_ne {r : Removal} {i : Nat} (h : r ≠ .data i) :
    (Merge.removeStep s r).dir.bytes i = s.dir.bytes i := by
  unfold Merge.removeStep
  cases r with
  | data id =>
    have hne : i ≠ id := fun heq => h (by rw [heq])
    by_cases hf : id ∈ s.files
    · simp only [if_pos hf, Dir.bytes_removeData, Function.update_of_ne hne]
    · simp only [if_neg hf]
  | hint id => rfl

theorem bytes_removeStep_self {ρ : Reading} {pend : Pending} (h : Mounted ρ s pend) (i : Nat) :
    (Merge.removeStep s (.data i)).dir.bytes i = none := by
  unfold Merge.removeStep
  by_cases hf : i ∈ s.files
  · simp only [if_pos hf, Dir.bytes_removeData, Function.update_self]
  · simp only [if_neg hf]
    cases hb : s.dir.bytes i with
    | none => rfl
    | some b => exact absurd (h.mem_files.mpr ⟨b, hb⟩) hf

/-- **What a step past the snapshot can do.** -/
theorem Merge.step_moves (hp : m.phase ≠ .snapshot ∧ ∀ a, m.phase ≠ .list a)
    (hok : ∀ e, (Merge.step s m).2.phase ≠ .failed e) :
    Moves s m (Merge.step s m).1 (Merge.step s m).2 := by
  have hnext {s' : Store} {p : Phase} (hb : s'.dir.bytes = s.dir.bytes)
      (hq : p ≠ .snapshot ∧ ∀ a, p ≠ .list a)
      (hitems : ({m with phase := p} : Merge).items = m.items)
      (hleft : ({m with phase := p} : Merge).left = m.left) : Moves s m s' {m with phase := p} :=
    .of_bytes hb hq (fun it hit => hitems ▸ hit) hleft
  revert hok
  cases hphase : m.phase with
  | list a => exact absurd hphase (hp.2 a)
  | snapshot => exact absurd hphase hp.1
  | copy todo =>
    cases todo with
    | nil =>
      simp only [Merge.step, hphase]
      exact fun _ => hnext rfl ⟨Phase.noConfusion, fun _ => Phase.noConfusion⟩
        (by simp only [Merge.items, hphase, List.append_nil]) (by simp only [Merge.left, hphase])
    | cons it rest =>
      simp only [Merge.step, hphase]
      exact Moves.copy hphase
  | write it rec buf rest =>
    simp only [Merge.step, hphase]
    exact Moves.write hphase
  | syncOuts todo =>
    cases todo with
    | nil =>
      simp only [Merge.step, hphase]
      exact fun _ => hnext rfl ⟨Phase.noConfusion, fun _ => Phase.noConfusion⟩
        (by simp only [Merge.items, hphase]) (by simp only [Merge.left, hphase])
    | cons o rest =>
      cases hsync : s.dir.sync o.id with
      | error e =>
        simp only [Merge.step, hphase, hsync]
        exact fun hok => absurd rfl (hok e)
      | ok dir =>
        have hdir : dir.bytes = s.dir.bytes := by
          cases hb : s.dir.bytes o.id with
          | none =>
            rw [Dir.bytes, Option.map_eq_none_iff] at hb
            rw [Dir.sync, hb] at hsync
            cases hsync
          | some b =>
            obtain ⟨d, hd, hbytes, _⟩ := Dir.sync_ok hb
            cases Except.ok.inj (hsync.symm.trans hd)
            exact hbytes
        simp only [Merge.step, hphase, hsync]
        exact fun _ => hnext hdir ⟨Phase.noConfusion, fun _ => Phase.noConfusion⟩
          (by simp only [Merge.items, hphase]) (by simp only [Merge.left, hphase])
  | commitHints todo =>
    cases todo <;> simp only [Merge.step, hphase] <;>
      exact fun _ => hnext rfl ⟨Phase.noConfusion, fun _ => Phase.noConfusion⟩
        (by simp only [Merge.items, hphase]) (by simp only [Merge.left, hphase])
  | repoint todo =>
    cases todo <;> simp only [Merge.step, hphase] <;>
      exact fun _ => hnext rfl ⟨Phase.noConfusion, fun _ => Phase.noConfusion⟩
        (by simp only [Merge.items, hphase]) (by simp only [Merge.left, hphase])
  | retire todo =>
    cases todo <;> simp only [Merge.step, hphase] <;>
      exact fun _ => hnext rfl ⟨Phase.noConfusion, fun _ => Phase.noConfusion⟩
        (by simp only [Merge.items, hphase]) (by simp only [Merge.left, hphase])
  | remove todo =>
    cases todo with
    | nil =>
      simp only [Merge.step, hphase]
      exact fun _ => hnext rfl ⟨Phase.noConfusion, fun _ => Phase.noConfusion⟩
        (by simp only [Merge.items, hphase]) (by simp only [Merge.left, hphase])
    | cons r rest =>
      simp only [Merge.step, hphase]
      refine fun _ => ⟨rfl, ⟨Phase.noConfusion, fun _ => Phase.noConfusion⟩, fun _ hi => hi, fun i b hi => .inl ?_,
        fun it hit => ?_, .inr ⟨r, ?_, rfl⟩⟩
      · by_cases hr : r = .data i
        · subst hr
          unfold Merge.removeStep at hi
          by_cases hf : i ∈ s.files
          · simp only [if_pos hf, Dir.bytes_removeData, Function.update_self] at hi
            cases hi
          · simp only [if_neg hf] at hi
            exact ⟨b, hi⟩
        · exact ⟨b, bytes_removeStep_ne hr ▸ hi⟩
      · simp only [Merge.items, hphase] at hit ⊢
        exact hit
      · simp only [Merge.left, hphase]
  | watermark | recount | sum | total n =>
    simp only [Merge.step, hphase]
    exact fun _ => hnext rfl ⟨Phase.noConfusion, fun _ => Phase.noConfusion⟩
      (by simp only [Merge.items, hphase]) (by simp only [Merge.left, hphase])
  | done =>
    simp only [Merge.step, hphase]
    exact fun _ => ⟨rfl, hp, fun _ hi => hi, fun i b hi => .inl ⟨b, hi⟩, fun _ hit => hit,
      .inl ⟨rfl, fun _ _ _ => rfl⟩⟩
  | failed e =>
    simp only [Merge.step, hphase]
    exact fun hok => absurd rfl (hok e)

end Moves

/-! ### Along a run -/

section Trail
variable [Checksum]

/-- A merge past its listing, against the store `s₀` it was started on. -/
structure Trail (s₀ s : Store) (m : Merge) : Prop where
  phase : ∀ a, m.phase ≠ .list a
  ids : m.mergeIDs = s₀.files.keys.filter (· ≠ s₀.active.id)
  files : ∀ i b, s.dir.bytes i = some b → i = s₀.active.id ∨ i ∈ m.mergeIDs ∨ i ∈ m.outs.map Out.id
  fresh : m.phase = .snapshot → s.keys = s₀.keys ∧ m.moved = []
  items : ∀ it ∈ m.items, s₀.keys[it.key]? = some it.entry ∧ it.entry.tomb = false
  left : ∃ before, Merge.removals m.mergeIDs = before ++ m.left ∧
    (∀ i, .data i ∈ before → s.dir.bytes i = none) ∧
    ∀ i, .data i ∈ m.left → s.dir.bytes i = s₀.dir.bytes i

variable {ρ : Reading} {s₀ s : Store} {pend : Pending} {m : Merge} {a : Nat}

/-- The merge set is what the store had besides the active file. -/
theorem Trail.mem_ids (h : Trail s₀ s m) (hm : Mounted ρ s₀ pend) {i : Nat} :
    i ∈ m.mergeIDs ↔ i ≠ s₀.active.id ∧ ∃ b, s₀.dir.bytes i = some b := by
  rw [h.ids, List.mem_filter, Std.ExtTreeMap.mem_keys, hm.mem_files, and_comm]
  simp

omit [Checksum] in
theorem Trail.ascending (h : Trail s₀ s m) : m.mergeIDs.Pairwise (· < ·) := by
  rw [h.ids]
  exact (keys_ascending s₀.files).filter _

/-- The listing. -/
theorem Trail.start (h : Listing ρ s pend m a) (ha : s.active.id = a) :
    Trail s (Merge.step s m).1 (Merge.step s m).2 := by
  have hphase : m.phase = .list a := by
    rw [h.fresh]
    rfl
  have hmoved : m.moved = [] ∧ m.outs = [] := by
    rw [h.fresh]
    exact ⟨rfl, rfl⟩
  simp only [Merge.step, hphase, Merge.listStep]
  generalize hids : s.files.keys.filter (· ≠ a) = ids
  have hfiles (i : Nat) (b : Bytes) (hb : s.dir.bytes i = some b) : i = a ∨ i ∈ ids := by
    rw [← hids, List.mem_filter, Std.ExtTreeMap.mem_keys, h.inv.mem_files]
    by_cases hi : i = a
    · exact .inl hi
    · exact .inr ⟨⟨b, hb⟩, by simpa using hi⟩
  have hleft : ({m with mergeIDs := ids, phase := if ids = [] then .done else .snapshot} : Merge).left =
      Merge.removals ids := by
    by_cases hnil : ids = []
    · rw [if_pos hnil, hnil]
      rfl
    · rw [if_neg hnil]
      rfl
  have hitems : ({m with mergeIDs := ids, phase := if ids = [] then .done else .snapshot} : Merge).items = [] := by
    by_cases hnil : ids = []
    · rw [if_pos hnil, Merge.items, hmoved.1]
      rfl
    · rw [if_neg hnil, Merge.items, hmoved.1]
      rfl
  refine ⟨fun b => ?_, by rw [ha, hids], fun i b hb => ?_, fun _ => ⟨rfl, hmoved.1⟩, fun it hit => ?_,
    [], hleft.symm, fun i hi => absurd hi List.not_mem_nil, fun _ _ => rfl⟩
  · show (if ids = [] then Phase.done else Phase.snapshot) ≠ _
    split <;> exact Phase.noConfusion
  · rw [ha]
    exact (hfiles i b hb).imp (fun hi => hi) .inl
  · rw [hitems] at hit
    cases hit

/-- **A step keeps the trail.** -/
theorem Trail.step (h : Trail s₀ s m) (hm : MergeInv ρ s pend m) (hid : s.nextID + 1 < 2 ^ 32) :
    Trail s₀ (Merge.step s m).1 (Merge.step s m).2 := by
  obtain ⟨hm', hstep⟩ := hm.step (fun a ha => absurd ha (h.phase a)) hid
  obtain ⟨hM, hphase⟩ := hm.resolve_left fun ⟨a, hl⟩ => h.phase a (by rw [hl.fresh]; rfl)
  by_cases hsnap : m.phase = .snapshot
  · obtain ⟨hkeys, hmoved⟩ := h.fresh hsnap
    have hleft : m.left = Merge.removals m.mergeIDs := by rw [Merge.left, hsnap]
    simp only [Merge.step, hsnap, Merge.snapshotStep]
    refine ⟨fun _ => Phase.noConfusion, h.ids, h.files, Phase.noConfusion, fun it hit => ?_,
      [], rfl, fun i hi => absurd hi List.not_mem_nil, fun i hi => ?_⟩
    · have hit : it ∈ m.moved.map Prod.fst ++ (Merge.inMerge s m.mergeIDs).filter (!·.entry.tomb) := hit
      rw [hmoved, List.map_nil, List.nil_append, List.mem_filter, mem_inMerge, hkeys] at hit
      exact ⟨hit.1.1, by simpa using hit.2⟩
    · obtain ⟨_, _, _, hsame⟩ := h.left
      exact hsame i (hleft ▸ hi)
  · have hmv := Merge.step_moves ⟨hsnap, h.phase⟩ (hm'.not_failed)
    obtain ⟨before, hsplit, hgone, hsame⟩ := h.left
    have hlt (i : Nat) (hi : .data i ∈ before ++ m.left) : i < s.nextID :=
      hM.ids i (Merge.mem_removals.mp (hsplit ▸ hi))
    refine ⟨hmv.phase.2, by rw [hmv.ids, h.ids], fun i b hb => ?_, fun hp => absurd hp hmv.phase.1,
      fun it hit => h.items it (hmv.items it hit), ?_⟩
    · rw [hmv.ids]
      rcases hmv.files i b hb with ⟨c, hc⟩ | hout
      · exact (h.files i c hc).imp (fun hi => hi) fun hi => hi.imp (fun hi => hi) (hmv.outs i)
      · exact .inr (.inr hout)
    · rw [hmv.ids]
      have habsent (i : Nat) (hi : .data i ∈ before) : (Merge.step s m).1.dir.bytes i = none :=
        hstep.absent i (hlt i (List.mem_append_left _ hi)) (hgone i hi)
      rcases hmv.left with ⟨hleft, hbytes⟩ | ⟨r, hleft, hs'⟩
      · refine ⟨before, hleft ▸ hsplit, habsent, fun i hi => ?_⟩
        rw [hleft] at hi
        have himem := Merge.mem_removals.mp (hsplit ▸ List.mem_append_right before hi)
        rw [hbytes i (hM.ids i himem) fun hout => ?_, hsame i hi]
        obtain ⟨o, ho, rfl⟩ := List.mem_map.mp hout
        exact (hM.outIDs o ho).1 himem
      · refine ⟨before ++ [r], ?_, fun i hi => ?_, fun i hi => ?_⟩
        · rw [hsplit, hleft, List.append_assoc]
          rfl
        · rcases List.mem_append.mp hi with hi | hi
          · exact habsent i hi
          · rw [hs', List.mem_singleton.mp hi |>.symm]
            exact bytes_removeStep_self hM.inv.toMounted i
        · -- A file is listed once, so the one just removed is not still to come.
          have hlater := List.mem_cons_of_mem r hi
          have hasc := hsplit ▸ Merge.removals_ascending h.ascending
          rw [hleft] at hasc
          have hne : r ≠ .data i := fun heq =>
            absurd ((List.pairwise_cons.mp (List.pairwise_append.mp hasc).2.1).1 _ hi i i heq rfl) (lt_irrefl _)
          rw [hs', bytes_removeStep_ne hne]
          exact hsame i (hleft ▸ hlater)

/-- A step issues one removal at most. -/
theorem Trail.left_step (h : Trail s₀ s m) (hok : ∀ e, (Merge.step s m).2.phase ≠ .failed e) :
    (Merge.step s m).2.left = m.left ∨ ∃ r, m.left = r :: (Merge.step s m).2.left := by
  by_cases hsnap : m.phase = .snapshot
  · left
    simp only [Merge.step, hsnap, Merge.snapshotStep, Merge.left]
  · rcases (Merge.step_moves ⟨hsnap, h.phase⟩ hok).left with ⟨hleft, _⟩ | ⟨r, hleft, _⟩
    · exact .inl hleft
    · exact .inr ⟨r, hleft⟩

end Trail

end Gokv.Engine
