import Gokv.Engine.Midway
import Gokv.Engine.Refinement

/-! Operations beside a merge.

A merge holds its locks for one step at a time, and in between the store takes other operations. An
operation that writes leaves the merge set and the outputs alone: it appends to the active file or
to a fresh one (`MergeInv.logged`), and what it enters in the index leads there (`MergeInv.indexWrite`).
So every operation is answered as the map answers it, wherever it falls between the steps of one merge or of many, and
`Get` reads the map in every state on the way (`beside_map`). What the steps need of each other is
that the file the seal has made active is active still when the files are listed. -/
namespace Gokv.Engine
open Base

section Beside
variable [Checksum] {ρ : Reading} {s s' : Store} {m : Merge} {recs : List Record} {pend : Pending} {gone : List Nat}

/-! ### A write that is logged -/

theorem Logged.elsewhere (hl : Logged ρ gone s s' recs pend) {i : Nat} (hi : i ≠ s'.active.id) :
    s'.dir.bytes i = s.dir.bytes i := by
  rw [hl.appended.bytes, Function.update_of_ne hi]

theorem Logged.located (hl : Logged ρ gone s s' recs pend) (hwf : Wf ρ s []) (hs : ∀ r ∈ recs, r.Sized)
    (hg : IsGroup recs)
    {k : Bytes} {e : Entry} {r : Record} (hr : Located ρ s.dir.bytes k e r) : Located ρ s'.dir.bytes k e r := by
  have hwf' : Wf ρ {s with seq := s.seq + UInt64.ofNat recs.length} [] :=
    hwf.same ⟨rfl, rfl, rfl, rfl, rfl, rfl, rfl⟩ rfl
  exact hl.appended.located hwf' (sized_assignSeqs hs) (isGroup_assignSeqs hg).whole hr

/-- The active file stays or gives way to a fresh one. -/
theorem Logged.active (hl : Logged ρ gone s s' recs pend) :
    s'.active.id = s.active.id ∧ s'.nextID = s.nextID ∧ s'.hinting = s.hinting ∨
      s'.active.id = s.nextID ∧ s'.nextID = s.nextID + 1 ∧ s'.hinting = s.active.id :: s.hinting := hl.appended.active

theorem Logged.nextID_le (hl : Logged ρ gone s s' recs pend) : s.nextID ≤ s'.nextID := by
  rcases hl.active with ⟨-, hn, -⟩ | ⟨-, hn, -⟩ <;> omega

/-- A file of before, other than the active one, is not written. -/
theorem Logged.ne_active (hl : Logged ρ gone s s' recs pend) {i : Nat} (hlt : i < s.nextID) (hne : i ≠ s.active.id) :
    i ≠ s'.active.id := by
  rcases hl.active with ⟨ha, -⟩ | ⟨ha, -⟩
  · rwa [ha]
  · rw [ha]
    exact hlt.ne

/-- What is on disk after the write: what was, and its records above every number given out. -/
theorem Logged.origin (hl : Logged ρ gone s s' recs pend) {i : Nat} {r : Record} (hr : Holds ρ s'.dir.bytes i r) :
    Holds ρ s.dir.bytes i r ∨ i = s'.active.id ∧ s.seq < r.seq := by
  rcases (hl.holds i r).mp hr with hold | ⟨hi, hnew⟩
  · exact .inl hold
  · rw [← hl.records] at hnew
    obtain ⟨x, hx, rfl⟩ := List.mem_map.mp hnew
    exact .inr ⟨hi, hl.newer x hx⟩

theorem Logged.holds_old (hl : Logged ρ gone s s' recs pend) {i : Nat} {r : Record} (hr : Holds ρ s'.dir.bytes i r)
    (hi : i ≠ s'.active.id) : Holds ρ s.dir.bytes i r := (hl.origin hr).resolve_right fun hnew => hi hnew.1

theorem Listing.logged {a : Nat} (h : Listing ρ s [] m a) (hl : Logged ρ [] s s' recs pend) :
    Listing ρ s' pend m a where
  inv := hl.inv
  barrier := UInt64.le_trans h.barrier hl.seq_le
  fresh := h.fresh
  lt := h.lt.trans_le hl.nextID_le
  pendIDs := hl.files
  old ha i r hr hi := by
    rcases hl.active with ⟨hsame, -⟩ | ⟨hnew, -⟩
    · exact h.old (hsame ▸ ha) i r (hl.holds_old hr (ha ▸ hi)) hi
    · -- a file opened since then is not the one of the seal
      exact absurd (ha.symm.trans hnew) h.lt.ne
  new ha r hr := by
    rcases hl.active with ⟨hsame, -⟩ | ⟨hnew, -⟩
    · rcases hl.origin hr with hold | ⟨-, hlt⟩
      · exact h.new (hsame ▸ ha) r hold
      · exact UInt64.lt_of_le_of_lt h.barrier hlt
    · exact absurd (ha.symm.trans hnew) h.lt.ne

theorem Merging.logged (h : Merging ρ s [] m) (hl : Logged ρ m.gone s s' recs pend) (hs : ∀ r ∈ recs, r.Sized)
    (hg : IsGroup recs) : Merging ρ s' pend m := by
  have hset {i : Nat} (hi : i ∈ m.mergeIDs) : i ≠ s'.active.id :=
    hl.ne_active (h.ids i hi) fun heq => h.active (heq ▸ hi)
  have hout {o : Out} (ho : o ∈ m.outs) : o.id ≠ s'.active.id :=
    hl.ne_active (h.outIDs o ho).2.2.1 (h.outIDs o ho).2.1
  constructor
  case inv => exact hl.inv
  case active => exact fun hi => hset hi rfl
  case ids => exact fun i hi => (h.ids i hi).trans_le hl.nextID_le
  case pendIDs =>
    intro x hx hi
    rw [hl.files x hx] at hi
    exact hset hi rfl
  case barrier => exact UInt64.le_trans h.barrier hl.seq_le
  case old => exact fun i r hr hi => h.old i r (hl.holds_old hr (hset hi)) hi
  case new =>
    intro i r hr hi ho
    rcases hl.origin hr with hold | ⟨-, hlt⟩
    · exact h.new i r hold hi ho
    · exact UInt64.lt_of_le_of_lt h.barrier hlt
  case outs => exact fun o ho => (h.outs o ho).of_eq (hl.elsewhere (hout ho))
  case outIDs =>
    intro o ho
    obtain ⟨h1, h2, h3, h4⟩ := h.outIDs o ho
    refine ⟨h1, hout ho, h3.trans_le hl.nextID_le, ?_⟩
    rcases hl.active with ⟨-, -, hh⟩ | ⟨-, -, hh⟩
    · rwa [hh]
    · rw [hh, List.mem_cons, not_or]
      exact ⟨h2, h4⟩
  case distinct => exact h.distinct
  case content => exact fun o ho r hr => h.content o ho r (hl.holds_old hr (hout ho))
  case moved =>
    intro x hx
    obtain ⟨r, hr, hrest⟩ := h.moved x hx
    exact ⟨r, hl.located h.inv.toWf hs hg hr, hrest⟩
  case retired => exact h.retired
  case apart => exact h.apart
  case above =>
    intro i b hb hi
    rw [hl.elsewhere hi.ne'] at hb
    rcases hl.active with ⟨ha, -⟩ | ⟨ha, -⟩
    · exact h.above i b hb (ha ▸ hi)
    · exact absurd (h.inv.fresh i b hb) (not_lt.mpr (ha ▸ hi.le))

theorem Snapped.logged {ids : List Nat} {retired items : List Item} (h : Snapped ρ s ids retired items)
    (hl : Logged ρ gone s s' recs pend)
    (hgrow : ∀ k e r, Located ρ s.dir.bytes k e r → Located ρ s'.dir.bytes k e r) : Snapped ρ s' ids retired items where
  indexed := by
    rw [hl.keys]
    exact h.indexed
  live it hit := by
    obtain ⟨hid, r, hr, hput⟩ := h.live it hit
    exact ⟨hid, r, hgrow _ _ _ hr, hput⟩
  apart := h.apart

/-- What a phase rests on is not touched by a write that is logged. -/
theorem PhaseOk.logged {p : Phase} (h : PhaseOk ρ s m p) (hm : Merging ρ s [] m) (hl : Logged ρ gone s s' recs pend)
    (hgrow : ∀ k e r, Located ρ s.dir.bytes k e r → Located ρ s'.dir.bytes k e r) : PhaseOk ρ s' m p := by
  have hhints : s'.dir.hints = s.dir.hints := hl.appended.hints
  have hopts : s'.opts = s.opts := hl.appended.opts
  have hno (hn : NoHints s m) : NoHints s' m := by
    rw [NoHints, hhints]
    exact hn
  have hhinted (hn : Hinted s m) : Hinted s' m := by
    rw [Hinted, hhints]
    exact hn
  have hleft (hn : Left s m) : Left s' m := by
    rw [Left, hl.keys]
    exact hn
  have hgone {i : Nat} (hi : i ∈ m.mergeIDs) (hb : s.dir.bytes i = none) : s'.dir.bytes i = none := by
    rw [hl.elsewhere (hl.ne_active (hm.ids i hi) fun heq => hm.active (heq ▸ hi))]
    exact hb
  have hremoved (hn : Removed s m) : Removed s' m := ⟨hhinted hn.1, fun i hi => hgone hi (hn.2 i hi)⟩
  cases p with
  | list _ | failed _ => exact h
  | snapshot => exact h
  | copy todo => exact ⟨h.1.logged hl hgrow, hno h.2⟩
  | write it rec buf todo =>
    obtain ⟨hsnap, hn, hrec, hbuf, hroom⟩ := h
    refine ⟨hsnap.logged hl hgrow, hno hn, hgrow _ _ _ hrec, hbuf, ?_⟩
    rwa [hopts]
  | syncOuts todo => exact ⟨h.1.logged hl hgrow, hno h.2.1, h.2.2⟩
  | commitHints todo =>
    refine ⟨h.1.logged hl hgrow, h.2.1, ?_⟩
    rw [hhints]
    exact h.2.2
  | repoint todo | retire todo =>
    refine ⟨hhinted h.1, h.2.1, ?_⟩
    rw [hl.keys]
    exact h.2.2
  | watermark => exact ⟨hhinted h.1, hleft h.2⟩
  | remove todo => exact ⟨hhinted h.1, hleft h.2.1, h.2.2.1, fun i hi => (h.2.2.2 i hi).imp_right (hgone hi)⟩
  | recount | sum | total _ | done => exact hremoved h

/-- What is not covered at the moment, in the running merge or at its start. -/
theorem MergeInv.inv (h : MergeInv ρ s pend m) : Inv ρ s pend m.gone := by
  rcases h with ⟨a, h⟩ | ⟨h, -⟩
  · rw [h.fresh]
    exact h.inv
  · exact h.inv

theorem MergeInv.logged (h : MergeInv ρ s [] m) (hl : Logged ρ m.gone s s' recs pend) (hs : ∀ r ∈ recs, r.Sized)
    (hg : IsGroup recs) : MergeInv ρ s' pend m := by
  rcases h with ⟨a, h⟩ | ⟨h, hp⟩
  · have hnone : m.gone = [] := by rw [h.fresh]; rfl
    rw [hnone] at hl
    exact .inl ⟨a, h.logged hl⟩
  · exact .inr ⟨h.logged hl hs hg, hp.logged h hl fun _ _ _ hr => hl.located h.inv.toWf hs hg hr⟩

/-! ### A write that is indexed -/

/-- The index may be changed where it does not lead into the merge set. -/
theorem PhaseOk.indexed {p : Phase} {ks : Index} {l n : Int} (h : PhaseOk ρ s m p)
    (hks : ∀ (k : Bytes) (e : Entry), ks[k]? = some e → e.fileID ∈ m.mergeIDs → s.keys[k]? = some e) :
    PhaseOk ρ {s with keys := ks, live := l, nLive := n} m p := by
  have hsnap {retired items : List Item} (hn : Snapped ρ s m.mergeIDs retired items) :
      Snapped ρ {s with keys := ks, live := l, nLive := n} m.mergeIDs retired items :=
    ⟨fun k e he hid => hn.indexed k e (hks k e he hid) hid, hn.live, hn.apart⟩
  have hleft (hn : Left s m) : Left {s with keys := ks, live := l, nLive := n} m :=
    fun k e he hid => hn k e (hks k e he hid) hid
  cases p with
  | list _ | failed _ | snapshot | recount | sum | total _ | done => exact h
  | copy todo => exact ⟨hsnap h.1, h.2⟩
  | write it rec buf todo => exact ⟨hsnap h.1, h.2⟩
  | syncOuts todo => exact ⟨hsnap h.1, h.2⟩
  | commitHints todo => exact ⟨hsnap h.1, h.2⟩
  | repoint todo => exact ⟨h.1, h.2.1, fun k e he hid => h.2.2 k e (hks k e he hid) hid⟩
  | retire todo => exact ⟨h.1, h.2.1, fun k e he hid => h.2.2 k e (hks k e he hid) hid⟩
  | watermark => exact ⟨h.1, hleft h.2⟩
  | remove todo => exact ⟨h.1, hleft h.2.1, h.2.2⟩

/-- **Indexing what is pending** keeps the invariant of the merge. -/
theorem MergeInv.indexWrite (h : MergeInv ρ s pend m) : MergeInv ρ (s.indexWrite pend.entries) [] m := by
  obtain ⟨l, n, heq⟩ := indexWrite_eq s pend.entries
  rcases h with ⟨a, h⟩ | ⟨h, hp⟩
  · have hinv := h.inv.indexWrite
    rw [heq] at hinv ⊢
    exact .inl ⟨a, hinv, h.barrier, h.fresh, h.lt, fun x hx => absurd hx List.not_mem_nil, h.old, h.new⟩
  · have hinv := h.inv.indexWrite
    rw [heq] at hinv ⊢
    refine .inr ⟨⟨hinv, h.active, h.ids, fun x hx => absurd hx List.not_mem_nil, h.barrier, h.old, h.new,
      h.outs, h.outIDs,
      h.distinct, h.content, h.moved, h.retired, h.apart, h.above⟩, hp.indexed fun k e he hid => ?_⟩
    rcases Index.mem_installAll he with hmem | hold
    · obtain ⟨x, hx, hxe⟩ := List.mem_map.mp hmem
      cases hxe
      exact absurd hid (h.pendIDs x hx)
    · exact hold

/-! ### Upkeep -/

/-- The background syncs the active file and names hints, which no phase of a merge looks at. -/
theorem MergeInv.background (h : MergeInv ρ s [] m) (hinv : Inv ρ s' [] m.gone) (hb : Background s s')
    (hhints : ∀ id, id ∈ s'.dir.hints → id ∈ s.dir.hints ∨ id ∈ s.hinting)
    (hhinting : ∀ id ∈ s'.hinting, id ∈ s.hinting) :
    MergeInv ρ s' [] m := by
  rcases h with ⟨a, h⟩ | ⟨h, hp⟩
  · have hnone : m.gone = [] := by rw [h.fresh]; rfl
    rw [hnone] at hinv
    refine .inl ⟨a, hinv, ?_, h.fresh, ?_, fun x hx => absurd hx List.not_mem_nil, ?_, ?_⟩
    · rw [hb.seq]
      exact h.barrier
    · rw [hb.nextID]
      exact h.lt
    · rw [hb.active, hb.bytes]
      exact h.old
    · rw [hb.active, hb.bytes]
      exact h.new
  have hno (hn : NoHints s m) : NoHints s' m := fun o ho hm =>
    (hhints o.id hm).elim (hn o ho) (h.outIDs o ho).2.2.2
  have hhinted (hn : Hinted s m) : Hinted s' m := fun o ho => hb.hints _ (hn o ho)
  have hsnap {retired items : List Item} (hn : Snapped ρ s m.mergeIDs retired items) :
      Snapped ρ s' m.mergeIDs retired items := by
    obtain ⟨h1, h2, h3⟩ := hn
    rw [← hb.keys] at h1
    rw [← hb.bytes] at h2
    exact ⟨h1, h2, h3⟩
  have hleft (hn : Left s m) : Left s' m := by
    rw [Left, hb.keys]
    exact hn
  have hremoved (hn : Removed s m) : Removed s' m := ⟨hhinted hn.1, by rw [hb.bytes]; exact hn.2⟩
  refine .inr ⟨?_, ?_⟩
  · obtain ⟨-, h2, h3, h4, h5, h6, h7, h8, h9, h10, h11, h12, h13, h14, h15⟩ := h
    rw [← hb.active] at h2 h9 h15
    rw [← hb.nextID] at h3 h9
    rw [← hb.seq] at h5
    rw [← hb.bytes] at h6 h7 h11 h12 h15
    exact ⟨hinv, h2, h3, h4, h5, h6, h7, fun o ho => (h8 o ho).of_eq (congrFun hb.bytes _),
      fun o ho => ⟨(h9 o ho).1, (h9 o ho).2.1, (h9 o ho).2.2.1, fun hm => (h9 o ho).2.2.2 (hhinting _ hm)⟩,
      h10, h11, h12, h13, h14, h15⟩
  · cases hphase : m.phase with
    | list _ | failed _ | snapshot =>
      rw [hphase] at hp
      exact hp
    | copy todo =>
      rw [hphase] at hp
      exact ⟨hsnap hp.1, hno hp.2⟩
    | write it rec buf todo =>
      rw [hphase] at hp
      obtain ⟨h1, h2, h3, h4, h5⟩ := hp
      refine ⟨hsnap h1, hno h2, ?_, h4, ?_⟩
      · rwa [hb.bytes]
      · rwa [hb.opts]
    | syncOuts todo =>
      rw [hphase] at hp
      exact ⟨hsnap hp.1, hno hp.2.1, hp.2.2⟩
    | commitHints todo =>
      rw [hphase] at hp
      exact ⟨hsnap hp.1, hp.2.1, fun o ho => (hp.2.2 o ho).imp_right (hb.hints _)⟩
    | repoint todo | retire todo =>
      rw [hphase] at hp
      refine ⟨hhinted hp.1, hp.2.1, ?_⟩
      rw [hb.keys]
      exact hp.2.2
    | watermark =>
      rw [hphase] at hp
      exact ⟨hhinted hp.1, hleft hp.2⟩
    | remove todo =>
      rw [hphase] at hp
      refine ⟨hhinted hp.1, hleft hp.2.1, hp.2.2.1, ?_⟩
      rw [hb.bytes]
      exact hp.2.2.2
    | recount | sum | total _ | done =>
      rw [hphase] at hp
      exact hremoved hp

theorem finishHint_hints (s : Store) (id : Nat) :
    (∀ i, i ∈ (s.finishHint id).dir.hints → i ∈ s.dir.hints ∨ i ∈ s.hinting) ∧
      ∀ i ∈ (s.finishHint id).hinting, i ∈ s.hinting := by
  rw [Store.finishHint]
  by_cases hid : id ∉ s.hinting
  · rw [if_pos hid]
    exact ⟨fun i hi => .inl hi, fun i hi => hi⟩
  · rw [if_neg hid]
    cases s.dir.data[id]? with
    | none => exact ⟨fun i hi => .inl hi, fun i hi => List.mem_of_mem_erase hi⟩
    | some f =>
      refine ⟨fun i hi => ?_, fun i hi => List.mem_of_mem_erase hi⟩
      rcases Std.ExtTreeMap.mem_insert.mp hi with heq | hi
      · rw [Std.compare_eq_iff_eq] at heq
        exact .inr (heq ▸ not_not.mp hid)
      · exact .inl hi

/-! ### One task -/

/-- A store, and the `Compact` that is running on it. -/
structure Working where
  store : Store
  merge : Option Merge

/-- An operation as a whole, or one step of `Compact`. -/
inductive Task where
  | op (op : Op)
  | merge

/-- `Compact` and `Close` wait for a running merge. -/
def Op.exclusive : Op → Bool
  | .compact | .reopen _ => true
  | _ => false

/-- The file that was active at the seal, as long as the files are to be listed. -/
def Merge.listing (m : Merge) : Option Nat :=
  match m.phase with
  | .list a => some a
  | _ => none

namespace Working

def merged (x : Store × Merge) : Working := ⟨x.1, if x.2.returned then none else some x.2⟩

def step (w : Working) : Task → Working × Option Error
  | .op op => ({w with store := (w.store.apply op).1}, (w.store.apply op).2)
  | .merge =>
    match w.merge with
    | none => (merged w.store.sealActive, none)
    | some m => (merged (Merge.step w.store m), none)

end Working

def workingMachine : Machine Task Working (Option Error) := ⟨Working.step⟩

/-- What a task means: a merge means nothing. -/
def Map.task (m : Map) : Task → Map × Option Error
  | .op op => Map.apply m op
  | .merge => (m, none)

def taskMachine : Machine Task Map (Option Error) := ⟨Map.task⟩

/-- The task fits the widths, an operation that waits for merges finds none, and the active file has
not been rotated between the seal and the listing. -/
def Courteous (w : Working) : Task → Prop
  | .op op => Fits w.store op ∧ (op.exclusive = true → w.merge = none)
  | .merge => w.store.nextID + 1 < 2 ^ 32 ∧ ∀ a ∈ w.merge.bind Merge.listing, w.store.active.id = a

/-- The store of a run, with or without a merge under way, and the write that is being indexed. -/
structure Attended (pend : Pending) (w : Working) : Prop where
  quiet : w.merge = none → Inv .committed w.store pend []
  merging : ∀ m, w.merge = some m → MergeInv .committed w.store pend m
  bounded : Bounded .committed w.store
  marked : Marked w.store

theorem Attended.wf {w : Working} (h : Attended pend w) : Wf .committed w.store pend := by
  cases hm : w.merge with
  | none => exact (h.quiet hm).toWf
  | some m => exact (h.merging m hm).inv.toWf

/-- A merge that has returned leaves a quiet store. -/
theorem MergeInv.returned (h : MergeInv ρ s pend m) (hm : m.returned) : Inv ρ s pend [] := by
  have hdone := hm.resolve_right fun hf => by
    obtain ⟨e, he⟩ := hf
    exact h.not_failed e he
  have hinv := h.inv
  rwa [Merge.gone, hdone] at hinv

theorem Attended.merged (h : MergeInv .committed s pend m) (hb : Bounded .committed s) (hmark : Marked s) :
    Attended pend (Working.merged (s, m)) where
  quiet hnone := by
    by_cases hm : m.returned
    · exact h.returned hm
    · rw [Working.merged, if_neg hm] at hnone
      cases hnone
  merging n hn := by
    by_cases hm : m.returned
    · rw [Working.merged, if_pos hm] at hn
      cases hn
    · rw [Working.merged, if_neg hm] at hn
      cases hn
      exact h
  bounded := hb
  marked := hmark

/-- The seal finds the lock free. -/
theorem Attended.seal (h : Attended [] ⟨s, none⟩) (hid : s.nextID + 1 < 2 ^ 32) :
    Attended [] (Working.merged s.sealActive) ∧ s.sealActive.1.liveMap = s.liveMap := by
  have hs : Sealed .committed s s.sealActive.1 s.sealActive.2 := (h.quiet rfl).sealActive h.bounded hid
  have hmark : Marked s.sealActive.1 := by
    rw [Marked, hs.manifest, hs.mergeSeq]
    exact h.marked
  exact ⟨.merged (.inl ⟨_, hs.listing⟩) (hs.bounded h.bounded) hmark, hs.liveMap⟩

/-- A later step comes at any time. -/
theorem Attended.advance (h : Attended pend ⟨s, some m⟩) (hlist : ∀ a ∈ m.listing, s.active.id = a)
    (hid : s.nextID + 1 < 2 ^ 32) :
    Attended pend (Working.merged (Merge.step s m)) ∧ Stepped .committed s (Merge.step s m).1 := by
  have hm := h.merging m rfl
  obtain ⟨hinv, hstep⟩ := hm.step (fun a ha => hlist a (by simp [Merge.listing, ha])) hid
  have hmark : Marked (Merge.step s m).1 := by
    by_cases hdone : m.phase = .done
    · have hstay : Merge.step s m = (s, m) := by simp only [Merge.step, hdone]
      rw [hstay]
      exact h.marked
    · exact (Marked.advance h.marked (Merge.step_advances hdone hm.not_failed)).1
  exact ⟨.merged hinv (hstep.toUnmoved.bounded h.bounded) hmark, hstep⟩

/-- **A step of `Compact`** between operations. -/
theorem Attended.merge {w : Working} (h : Attended [] w) (hrule : Courteous w .merge) :
    Attended [] (w.step .merge).1 ∧ (w.step .merge).1.store.liveMap = w.store.liveMap := by
  obtain ⟨s, merge⟩ := w
  obtain ⟨hid, hlist⟩ := hrule
  cases merge with
  | none => exact h.seal hid
  | some m =>
    obtain ⟨ha, hstep⟩ := h.advance hlist hid
    exact ⟨ha, hstep.liveMap⟩

/-- A write goes to the log, whether a merge is under way or not. -/
theorem Attended.log {merge : Option Merge} {op : Op} (h : Attended [] ⟨s, merge⟩) (hw : Writes s op) :
    ∃ t pend gone, s.startWrite op.records = (t, .ok pend.entries) ∧ Logged .committed gone s t op.records pend ∧
      Attended pend ⟨t, merge⟩ := by
  have hmarked {t : Store} {pend : Pending} {gone : List Nat}
      (hl : Logged .committed gone s t op.records pend) : Marked t := by
    rw [Marked, hl.appended.manifest, hl.appended.mergeSeq]
    exact h.marked
  cases merge with
  | none =>
    obtain ⟨t, pend, hlog, hl⟩ := (h.quiet rfl).startWrite h.bounded hw.sized hw.group hw.addressable hw.seq hw.id
    exact ⟨t, pend, [], hlog, hl, fun _ => hl.inv, fun m hm => (by cases hm), hl.bounded, hmarked hl⟩
  | some m =>
    have hm := h.merging m rfl
    obtain ⟨t, pend, hlog, hl⟩ := hm.inv.startWrite h.bounded hw.sized hw.group hw.addressable hw.seq hw.id
    refine ⟨t, pend, m.gone, hlog, hl, fun hnone => (by cases hnone), fun n hn => ?_, hl.bounded, hmarked hl⟩
    cases hn
    exact hm.logged hl hw.sized hw.group

/-- And from the log to the index. -/
theorem Attended.index {merge : Option Merge} (h : Attended pend ⟨s, merge⟩) :
    Attended [] ⟨s.indexWrite pend.entries, merge⟩ := by
  obtain ⟨l, n, heq⟩ := indexWrite_eq s pend.entries
  refine ⟨fun hnone => (h.quiet hnone).indexWrite, fun m hm => (h.merging m hm).indexWrite, ?_, ?_⟩
  · show Bounded .committed (s.indexWrite pend.entries)
    rw [heq]
    exact h.bounded
  · show Marked (s.indexWrite pend.entries)
    rw [heq]
    exact h.marked

/-- What a client's write does beside a merge. -/
theorem Attended.write {w : Working} {op : Op} (h : Attended [] w) (hw : Writes w.store op)
    (hok : op.refusal w.store.liveMap = none) :
    ∃ s', w.store.appendLocked op.records = (s', none) ∧ Attended [] ⟨s', w.merge⟩ ∧
      s'.liveMap = (Map.apply w.store.liveMap op).1 := by
  obtain ⟨t, pend, gone, hlog, hl, ha⟩ := h.log hw
  refine ⟨t.indexWrite pend.entries, ?_, ha.index, ?_⟩
  · rw [Store.startWrite] at hlog
    rw [Store.appendLocked, Store.writeLocked, hlog]
  · rw [hl.liveMap_index h.bounded h.wf, hw.map, Map.apply, hok]

theorem Attended.local {w : Working} {op : Op} (h : Attended [] w) (hop : op.Local) (hf : Fits w.store op) :
    ∃ s', w.store.apply op = (s', op.refusal w.store.liveMap) ∧ Attended [] ⟨s', w.merge⟩ ∧
      s'.liveMap = (Map.apply w.store.liveMap op).1 := by
  rw [h.wf.apply_local hop]
  cases hr : op.refusal w.store.liveMap with
  | some e => exact ⟨w.store, rfl, h, by rw [Map.apply, hr]⟩
  | none =>
    by_cases hnil : op.records = []
    · refine ⟨w.store, by simp only [hnil, if_true], h, ?_⟩
      rw [Map.apply, hr, Op.updates_nil hop hnil]
      rfl
    · obtain ⟨s', hs', ha, hlive⟩ := h.write ((Op.records_ne_nil_valid hop hr hnil).writes hf) hr
      exact ⟨s', by simp only [if_neg hnil, hs'], ha, hlive⟩

/-- The background between the steps of a merge. -/
theorem Attended.background {w : Working} (h : Attended [] w) (hb : Background w.store s')
    (hman : s'.dir.manifest = w.store.dir.manifest)
    (hinv : ∀ gone, Inv .committed w.store [] gone → Inv .committed s' [] gone)
    (hhints : ∀ id, id ∈ s'.dir.hints → id ∈ w.store.dir.hints ∨ id ∈ w.store.hinting)
    (hhinting : ∀ id ∈ s'.hinting, id ∈ w.store.hinting) :
    Attended [] ⟨s', w.merge⟩ ∧ s'.liveMap = w.store.liveMap where
  left := by
    refine ⟨fun hnone => hinv _ (h.quiet hnone), fun m hm => ?_, fun i r hr => ?_, ?_⟩
    · exact (h.merging m hm).background (hinv _ (h.merging m hm).inv) hb hhints hhinting
    · rw [hb.seq]
      exact h.bounded i r (hb.bytes ▸ hr)
    · rw [Marked, hman, hb.mergeSeq]
      exact h.marked
  right := hb.liveMap h.wf

/-- **An operation**, wherever it falls. -/
theorem Attended.op {w : Working} {op : Op} (h : Attended [] w) (hrule : Courteous w (.op op)) :
    ∃ s', w.store.apply op = (s', op.refusal w.store.liveMap) ∧ Attended [] ⟨s', w.merge⟩ ∧
      s'.liveMap = (Map.apply w.store.liveMap op).1 := by
  obtain ⟨hf, hwait⟩ := hrule
  -- an operation that waits for merges finds the store quiet
  have hwaited (hex : op.exclusive = true) : ∃ s', w.store.apply op = (s', op.refusal w.store.liveMap) ∧
      Attended [] ⟨s', w.merge⟩ ∧ s'.liveMap = (Map.apply w.store.liveMap op).1 := by
    have hnone := hwait hex
    obtain ⟨s', hs', hd⟩ := (Quiet.mk (h.quiet hnone) h.bounded h.marked).apply hf
    refine ⟨s', hs', ⟨fun _ => hd.quiet.inv, fun m hm => ?_, hd.quiet.bounded, hd.quiet.marked⟩, hd.liveMap⟩
    cases hnone.symm.trans hm
  cases op with
  | put now key value => exact h.local trivial hf
  | batchPut now keys values => exact h.local trivial hf
  | delete now key => exact h.local trivial hf
  | compact => exact hwaited rfl
  | reopen opts => exact hwaited rfl
  | sync =>
    obtain ⟨s', hs', hsame, hb, hman⟩ := h.wf.sync
    obtain ⟨ha, hlive⟩ := h.background hb hman (fun gone hi => hi.same hsame hb.active)
      (fun id hid => .inl (hsame.hints ▸ hid)) (fun id hid => hsame.hinting ▸ hid)
    exact ⟨s', hs', ha, hlive⟩
  | hint id =>
    obtain ⟨hb, -, hman⟩ := background_finishHint w.store id
    obtain ⟨hhints, hhinting⟩ := finishHint_hints w.store id
    obtain ⟨ha, hlive⟩ := h.background hb hman (fun gone hi => hi.finishHint id) hhints hhinting
    exact ⟨_, rfl, ha, hlive⟩

/-! ### Every run -/

/-- A store with merges under way refines the map. -/
def workingRefinesMap : Refinement workingMachine taskMachine Courteous where
  Rel w m := Attended [] w ∧ w.store.liveMap = m
  step w m t h hrule := by
    obtain ⟨ha, rfl⟩ := h
    cases t with
    | op op =>
      obtain ⟨s', hs', ha', hlive⟩ := ha.op hrule
      show Attended [] ⟨(w.store.apply op).1, w.merge⟩ ∧ (w.store.apply op).1.liveMap = (Map.apply w.store.liveMap op).1
      rw [hs']
      exact ⟨ha', hlive⟩
    | merge => exact ha.merge hrule
  answer w m t h hrule := by
    obtain ⟨ha, rfl⟩ := h
    cases t with
    | op op =>
      obtain ⟨s', hs', -⟩ := ha.op hrule
      show (w.store.apply op).2 = (Map.apply w.store.liveMap op).2
      rw [hs', Map.apply]
      cases op.refusal w.store.liveMap <;> rfl
    | merge =>
      obtain ⟨s, merge⟩ := w
      cases merge <;> rfl

theorem attended_init (opts : Options) : Attended [] ⟨Store.init opts, none⟩ where
  quiet _ := (quiet_init opts).1.inv
  merging m hm := by cases hm
  bounded := (quiet_init opts).1.bounded
  marked := (quiet_init opts).1.marked

/-- **A store is a map while it is being compacted.** From an empty directory on, every operation is
answered as the map answers it, wherever it falls between the steps of any number of merges; `Get`
reads the map at every point, and no index entry leads to a file that is not there. -/
theorem beside_map (opts : Options) (tasks : List Task)
    (hrule : workingMachine.Meets Courteous ⟨Store.init opts, none⟩ tasks) :
    (workingMachine.run ⟨Store.init opts, none⟩ tasks).2 = (taskMachine.run Map.empty tasks).2 ∧
      (∀ key, Store.validateKey key = none → (workingMachine.run ⟨Store.init opts, none⟩ tasks).1.store.get key =
        answer ((taskMachine.run Map.empty tasks).1 key)) ∧
      ∀ (k : Bytes) (e : Entry), (workingMachine.run ⟨Store.init opts, none⟩ tasks).1.store.keys[k]? = some e →
        e.fileID ∈ (workingMachine.run ⟨Store.init opts, none⟩ tasks).1.store.files := by
  obtain ⟨⟨ha, hlive⟩, hans⟩ := workingRefinesMap.run ⟨attended_init opts, (quiet_init opts).2⟩ hrule
  refine ⟨hans, fun key hk => ?_, fun k e he => ?_⟩
  · rw [ha.wf.get_eq hk, hlive]
  · obtain ⟨r, hr⟩ := ha.wf.located k e he
    obtain ⟨b, -, -, hb, -⟩ := hr.place
    exact ha.wf.mem_files.mpr ⟨b, hb⟩

end Beside

instance decidableCourteous (w : Working) : (t : Task) → Decidable (Courteous w t)
  | .op op => inferInstanceAs (Decidable (Fits w.store op ∧ (op.exclusive = true → w.merge = none)))
  | .merge =>
    inferInstanceAs (Decidable (w.store.nextID + 1 < 2 ^ 32 ∧ ∀ a ∈ w.merge.bind Merge.listing, w.store.active.id = a))

/-- Keys are written, rewritten, deleted and made again while they are being copied, and the store is
reopened at the end. -/
def rewrites : List Task :=
  [.op (.batchPut 0 [[1], [2], [3]] [[7], [8], [9]]), .op (.delete 0 [3])] ++ List.replicate 3 .merge ++
    [.op (.put 0 [1] [5]), .merge, .op (.delete 0 [2]), .op (.put 0 [3] [6])] ++ List.replicate 10 .merge ++
    [.op (.put 0 [2] [4])] ++ List.replicate 9 .merge ++ [.op (.reopen ⟨0, .never⟩)]

theorem beside_map_rewrites :
    (workingMachine.run ⟨Store.init ⟨0, .never⟩, none⟩ rewrites).1.store.get [2] = .ok [4] := by
  have h := (beside_map ⟨0, .never⟩ rewrites (by decide +kernel)).2.1 [2] (by decide)
  exact h.trans (by decide +kernel)

/-- Five keys go into files of two records, and the active file is full between the seal and the listing. -/
def rotated : List Task :=
  [.op (.put 0 [1] [9]), .merge, .op (.put 0 [2] [9]), .op (.put 0 [3] [9]), .op (.put 0 [4] [9]), .merge, .merge,
    .op (.put 0 [5] [9])] ++ List.replicate 40 .merge

-- the file the last key is written to is then in the merge set, and goes with it
example : (workingMachine.run ⟨Store.init ⟨70, .never⟩, none⟩ rotated).1.store.get [5] = .error .lostRace := by
    decide +kernel

end Gokv.Engine
