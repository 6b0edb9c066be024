import Gokv.Engine.Faults

/-! The failures of `Compact`.

Until the index is repointed a merge only adds files nobody refers to. When one of its file
operations fails in that stretch, the outputs are removed and the call returns an error: at
the seal the fsync of the active file, the creation of the next one or the fsync of the
directory; then, for any record, the read, its check, the creation of an output or of its
hint, the write after some bytes or the entry of the hint; at the end the fsync of an output,
the commit of a hint, the fsync of the directory. `compactFails` is the store such a call
leaves. Wherever a step behind the seal fails, it is the store of that step without the
outputs (`Merge.fails_abandon`). -/
namespace Gokv.Engine
open Base

/-- The file operation of `Compact` that fails. -/
inductive MergeFault where
  | sealSync
  | sealCreate
  | sealSyncDir
  | read
  | decode
  | create
  | hint
  /-- `WriteAt` has written this many bytes. -/
  | write (n : Nat)
  | hintEntry
  | sync
  | commit
  | syncDir
  deriving DecidableEq, Repr

namespace Merge

/-- The index has not been touched. -/
def copying (m : Merge) : Bool :=
  match m.phase with
  | .list _ | .snapshot | .copy _ | .write _ _ _ _ | .syncOuts _ | .commitHints _ => true
  | _ => false

/-- The store `cleanup` leaves, whatever the error. -/
def abandon (s : Store) (m : Merge) : Store := (cleanup s m .eof).1

section Fails
variable [Checksum]

/-- The next record is read, checked, and needs an output. -/
def opensOut (s : Store) (m : Merge) (it : Item) : Bool :=
  it.entry.fileID ∈ s.files &&
    match s.dir.readAt it.entry.fileID it.entry.pos it.entry.size with
    | .error _ => false
    | .ok raw => (decodeRecord raw).isOk && needsOut s m (clearBatchFlags raw).length

/-- The store after the merge's next step fails this way, if it can. -/
def fails (fault : MergeFault) (s : Store) (m : Merge) : Option Store :=
  match fault, m.phase with
  | .read, .copy (it :: _) => if it.entry.fileID ∈ s.files then some (abandon s m) else none
  | .decode, .copy (it :: _) =>
    if it.entry.fileID ∈ s.files ∧ (s.dir.readAt it.entry.fileID it.entry.pos it.entry.size).isOk then
      some (abandon s m)
    else none
  | .create, .copy (it :: _) =>
    if opensOut s m it then some (abandon {s with nextID := Store.succID s.nextID} m) else none
  | .hint, .copy (it :: _) =>
    if opensOut s m it then
      match s.dir.create s.nextID with
      | .error _ => none
      | .ok dir =>
        some (abandon {s with nextID := Store.succID s.nextID, dir := dir.removeData s.nextID} m)
    else none
  | .write n, .write _ _ buf _ =>
    match m.outs.getLast? with
    | none => none
    | some o =>
      match s.dir.writeAt o.id o.size (buf.take n) with
      | .error _ => none
      | .ok dir => some (abandon {s with dir := dir} m)
  | .hintEntry, .write _ _ buf _ =>
    match m.outs.getLast? with
    | none => none
    | some o =>
      match s.dir.writeAt o.id o.size buf with
      | .error _ => none
      | .ok dir =>
        some (abandon {s with dir := dir, files := s.files.alter o.id (Option.map fun _ => o.size + buf.length)} m)
  | .sync, .syncOuts (_ :: _) => some (abandon s m)
  | .commit, .commitHints (_ :: _) => some (abandon s m)
  | .syncDir, .commitHints [] => some (abandon s m)
  | _, _ => none

end Fails

end Merge

namespace Store

/-- The store after the seal fails this way, if it can. -/
def sealFails (fault : MergeFault) (s : Store) : Option Store :=
  if s.active.size = 0 then none
  else
    match fault, s.dir.sync s.active.id with
    | .sealSync, _ => some s
    | .sealCreate, .ok dir => some {s with dir := dir}
    | .sealSyncDir, .ok dir =>
      match openNewActive {s with dir := dir} with
      | (s, none) => some s
      | (_, some _) => none
    | _, _ => none

/-- The store a `Compact` leaves that fails this way, at the seal or at step `n` behind it. -/
def compactFails [Checksum] (fault : MergeFault) (n : Nat) (s : Store) : Option Store :=
  if s.closed then none
  else
    match s.sealFails fault with
    | some s' => some s'
    | none =>
      Merge.fails fault (Merge.run n s.sealActive.1 s.sealActive.2).1 (Merge.run n s.sealActive.1 s.sealActive.2).2

end Store

/-! ### Removing the outputs -/

section Outputs
variable {s s' : Store} {m : Merge} {ids : List Nat}

theorem abandon_eq (s : Store) (m : Merge) : Merge.abandon s m = (m.outs.map Out.id).foldl Store.dropped s := by
  rw [List.foldl_map]
  rfl

theorem droppedAll_eq (s : Store) (ids : List Nat) :
    ids.foldl Store.dropped s = {s with files := ids.foldl (fun t id => t.erase id) s.files,
                                        dir := {s.dir with
                                          data := ids.foldl (fun t id => t.erase id) s.dir.data} } := by
  induction ids generalizing s with
  | nil => rfl
  | cons id rest ih =>
    rw [List.foldl_cons, ih]
    rfl

theorem getElem?_eraseAll {β : Type*} (t : Std.ExtTreeMap Nat β compare) (ids : List Nat) (i : Nat) :
    (ids.foldl (fun t id => t.erase id) t)[i]? = if i ∈ ids then none else t[i]? := by
  induction ids generalizing t with
  | nil => rfl
  | cons id rest ih =>
    rw [List.foldl_cons, ih, Std.ExtTreeMap.getElem?_erase]
    by_cases hi : i = id
    · subst hi
      simp
    · simp [hi, Ne.symm hi]

theorem eraseAll_congr {β : Type*} {t t' : Std.ExtTreeMap Nat β compare} (h : ∀ i, i ∉ ids → t'[i]? = t[i]?) :
    ids.foldl (fun t id => t.erase id) t' = ids.foldl (fun t id => t.erase id) t := by
  refine Std.ExtTreeMap.ext_getElem? fun i => ?_
  rw [getElem?_eraseAll, getElem?_eraseAll]
  by_cases hi : i ∈ ids
  · rw [if_pos hi, if_pos hi]
  · rw [if_neg hi, if_neg hi, h i hi]

/-- What was done to an output is undone with it. -/
theorem abandon_congr {files : Std.ExtTreeMap Nat Nat compare} {data : Std.ExtTreeMap Nat DiskFile compare}
    (hf : ∀ i, i ∉ m.outs.map Out.id → files[i]? = s.files[i]?)
    (hd : ∀ i, i ∉ m.outs.map Out.id → data[i]? = s.dir.data[i]?) :
    Merge.abandon {s with files := files, dir := {s.dir with data := data} } m = Merge.abandon s m := by
  rw [abandon_eq, abandon_eq, droppedAll_eq, droppedAll_eq, eraseAll_congr hf, eraseAll_congr hd]

/-- The writes of a failing step touch an output. -/
theorem writeAt_elsewhere {d : Dir} {id off : Nat} {buf : Bytes} (h : s.dir.writeAt id off buf = .ok d) :
    ∃ data : Std.ExtTreeMap Nat DiskFile compare, d = {s.dir with data := data} ∧
      ∀ i, i ≠ id → data[i]? = s.dir.data[i]? := by
  unfold Dir.writeAt at h
  split at h
  · cases h
  · cases h
    refine ⟨_, rfl, fun i hi => ?_⟩
    rw [Std.ExtTreeMap.getElem?_insert, if_neg (by simpa using hi.symm)]

theorem create_removeData {d : Dir} {id : Nat} (h : s.dir.create id = .ok d) : d.removeData id = s.dir := by
  unfold Dir.create at h
  split at h
  · cases h
  · rename_i hfresh
    cases h
    have hdata : (s.dir.data.insert id ⟨[], 0⟩).erase id = s.dir.data := by
      refine Std.ExtTreeMap.ext_getElem? fun i => ?_
      rw [Std.ExtTreeMap.getElem?_erase, Std.ExtTreeMap.getElem?_insert]
      by_cases hi : i = id
      · subst hi
        simp [Std.ExtTreeMap.getElem?_eq_none hfresh]
      · simp [Ne.symm hi]
    rw [Dir.removeData, hdata]

variable [Checksum]

/-- **A step that fails** leaves the outputs removed, perhaps a file id used up, and nothing
else. -/
theorem Merge.fails_abandon {fault : MergeFault} (h : Merge.fails fault s m = some s') :
    m.copying = true ∧ (∀ a, m.phase ≠ .list a) ∧
      ∃ id, (id = s.nextID ∨ id = Store.succID s.nextID) ∧ s' = Merge.abandon {s with nextID := id} m := by
  have hlast {o : Out} (ho : m.outs.getLast? = some o) : o.id ∈ m.outs.map Out.id :=
    List.mem_map_of_mem (List.mem_of_getLast? ho)
  have hpast {p : Phase} (hp : m.phase = p) (hl : ∀ a, p ≠ .list a) (a : Nat) : m.phase ≠ .list a := hp ▸ hl a
  have hpre (p : Phase) (hp : m.phase = p) (hc : ({m with phase := p} : Merge).copying = true) : m.copying = true := by
    rwa [← hp] at hc
  unfold Merge.fails at h
  split at h
  · rename_i it rest hp
    split at h
    · exact ⟨hpre _ hp rfl, hpast hp nofun, s.nextID, .inl rfl, (Option.some.inj h).symm⟩
    · cases h
  · rename_i it rest hp
    split at h
    · exact ⟨hpre _ hp rfl, hpast hp nofun, s.nextID, .inl rfl, (Option.some.inj h).symm⟩
    · cases h
  · rename_i it rest hp
    split at h
    · exact ⟨hpre _ hp rfl, hpast hp nofun, _, .inr rfl, (Option.some.inj h).symm⟩
    · cases h
  · rename_i it rest hp
    split at h
    · cases hnew : s.dir.create s.nextID with
      | error e =>
        rw [hnew] at h
        cases h
      | ok dir =>
        rw [hnew] at h
        refine ⟨hpre _ hp rfl, hpast hp nofun, _, .inr rfl, ?_⟩
        rw [← Option.some.inj h, create_removeData hnew]
    · cases h
  · rename_i n it rec buf rest hp
    cases ho : m.outs.getLast? with
    | none =>
      rw [ho] at h
      cases h
    | some o =>
      rw [ho] at h
      simp only at h
      cases hw : s.dir.writeAt o.id o.size (buf.take n) with
      | error e =>
        rw [hw] at h
        cases h
      | ok dir =>
        rw [hw] at h
        obtain ⟨data, rfl, hdata⟩ := writeAt_elsewhere hw
        refine ⟨hpre _ hp rfl, hpast hp nofun, s.nextID, .inl rfl, ?_⟩
        rw [← Option.some.inj h]
        exact abandon_congr (fun _ _ => rfl) fun i hi => hdata i fun heq => hi (heq ▸ hlast ho)
  · rename_i it rec buf rest hp
    cases ho : m.outs.getLast? with
    | none =>
      rw [ho] at h
      cases h
    | some o =>
      rw [ho] at h
      simp only at h
      cases hw : s.dir.writeAt o.id o.size buf with
      | error e =>
        rw [hw] at h
        cases h
      | ok dir =>
        rw [hw] at h
        obtain ⟨data, rfl, hdata⟩ := writeAt_elsewhere hw
        refine ⟨hpre _ hp rfl, hpast hp nofun, s.nextID, .inl rfl, ?_⟩
        rw [← Option.some.inj h]
        refine abandon_congr (fun i hi => ?_) fun i hi => hdata i fun heq => hi (heq ▸ hlast ho)
        have hne : ¬ o.id = i := fun heq => hi (heq ▸ hlast ho)
        simp [Std.ExtTreeMap.getElem?_alter, hne]
  · rename_i hp
    exact ⟨hpre _ hp rfl, hpast hp nofun, s.nextID, .inl rfl, (Option.some.inj h).symm⟩
  · rename_i hp
    exact ⟨hpre _ hp rfl, hpast hp nofun, s.nextID, .inl rfl, (Option.some.inj h).symm⟩
  · rename_i hp
    exact ⟨hpre _ hp rfl, hpast hp nofun, s.nextID, .inl rfl, (Option.some.inj h).symm⟩
  · cases h

end Outputs

end Gokv.Engine
