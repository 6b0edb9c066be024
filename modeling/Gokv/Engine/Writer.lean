import Gokv.Engine.Chronicle

/-! A write taken apart.

`Put`, `BatchPut` and `Delete` hold the write lock while they log, index and publish
their records, but a reader of the files sees the records as soon as they are logged, a
reader of the index as soon as they are indexed, and a follower when they are published.
`Delete` looks for its key before it takes the lock, so between the two the key may have
been deleted, or written again.

A `Desk` is a store with whoever holds the lock (`Pen`), the keys for which a `Delete` is
waiting, and, beside it, the list of everything written. `Led` says how the three stand
at any moment: `Filed` holds whatever the pen does, and the index shows the list up to a
number that only the records still unindexed are above (`Showing`). -/
namespace Gokv.Engine
open Base

/-- Where the holder of the write lock is. -/
inductive Pen where
  | idle
  /-- The records are in the file; these entries are not in the index yet. -/
  | logged (recs : List Record) (entries : List (Bytes × Entry))
  | indexed (recs : List Record)

/-- The write that is under way, if any. -/
def Pen.unsent : Pen → List (List Record)
  | .idle => []
  | .logged recs _ | .indexed recs => [recs]

structure Desk where
  store : Store
  log : List Record
  pen : Pen
  /-- The keys that a `Delete` has found live and is about to delete. -/
  deleting : List Bytes

inductive Stroke where
  /-- The liveness check of a `Delete`. -/
  | check (key : Bytes)
  /-- A write takes the lock, its numbers, and appends its records to the log. -/
  | log (op : Op)
  | index

instance decidableValid : (op : Op) → Decidable op.Valid
  | .put _ key value => inferInstanceAs (Decidable (Store.validateKey key = none ∧ value.length ≤ maxValueSize))
  | .batchPut _ keys values => inferInstanceAs (Decidable (keys.length = values.length ∧ keys.length ≠ 0 ∧
      Store.validateBatch (keys.zip values) = none))
  | .delete _ key => inferInstanceAs (Decidable (Store.validateKey key = none))
  | .compact => isFalse fun h => h
  | .reopen _ => isFalse fun h => h
  | .sync => isFalse fun h => h
  | .hint _ => isFalse fun h => h

namespace Desk

/-- The write has passed the checks it makes before it takes the lock. -/
def Admits (d : Desk) (op : Op) : Prop :=
  op.Valid ∧ match op with
    | .delete _ key => key ∈ d.deleting
    | _ => True

instance decidableAdmits (d : Desk) : (op : Op) → Decidable (d.Admits op)
  | .put now key value => inferInstanceAs (Decidable ((Op.put now key value).Valid ∧ True))
  | .batchPut now keys values => inferInstanceAs (Decidable ((Op.batchPut now keys values).Valid ∧ True))
  | .delete now key => inferInstanceAs (Decidable ((Op.delete now key).Valid ∧ key ∈ d.deleting))
  | .compact => inferInstanceAs (Decidable (Op.compact.Valid ∧ True))
  | .reopen opts => inferInstanceAs (Decidable ((Op.reopen opts).Valid ∧ True))
  | .sync => inferInstanceAs (Decidable (Op.sync.Valid ∧ True))
  | .hint id => inferInstanceAs (Decidable ((Op.hint id).Valid ∧ True))

/-- The waiting `Delete`s, less the one that has its turn. -/
def waiting (d : Desk) : Op → List Bytes
  | .delete _ key => d.deleting.erase key
  | _ => d.deleting

section Step
variable [Checksum]

def write (d : Desk) (op : Op) : Desk :=
  match d.store.startWrite op.records with
  | (s, .ok entries) =>
    ⟨s, d.log ++ Store.assignSeqs d.store.seq op.records, .logged (Store.assignSeqs d.store.seq op.records) entries,
      d.waiting op⟩
  | (s, .error _) => {d with store := s, deleting := d.waiting op}

def step (d : Desk) : Stroke → Desk
  | .check key =>
    if Store.validateKey key = none ∧ d.store.isLive key then {d with deleting := key :: d.deleting} else d
  | .log op =>
    match d.pen with
    | .idle => if d.Admits op then d.write op else d
    | _ => d
  | .index =>
    match d.pen with
    | .logged recs entries => {d with store := d.store.indexWrite entries, pen := .indexed recs}
    | _ => d

end Step

end Desk

/-- The widths hold a stroke. -/
def Stroke.Fits (s : Store) : Stroke → Prop
  | .log op => Engine.Fits s op
  | _ => True

instance decidableStrokeFits (s : Store) : (a : Stroke) → Decidable (a.Fits s)
  | .check _ => isTrue trivial
  | .log op => inferInstanceAs (Decidable (Engine.Fits s op))
  | .index => isTrue trivial

section Led
variable [Checksum]

/-! ### The desk between strokes -/

inductive Led : Desk → Prop
  | idle {s : Store} {log : List Record} {ks : List Bytes} (h : Chronicled ⟨s, log⟩) : Led ⟨s, log, .idle, ks⟩
  | logged {s₀ s : Store} {log recs : List Record} {pend : Pending} {ks : List Bytes} (h : Chronicled ⟨s₀, log⟩)
      (hs : ∀ r ∈ recs, r.Sized) (ha : Addressable recs) (hl : Logged .committed [] s₀ s recs pend) :
    Led ⟨s, log ++ Store.assignSeqs s₀.seq recs, .logged (Store.assignSeqs s₀.seq recs) pend.entries, ks⟩
  | indexed {s : Store} {log recs : List Record} {ks : List Bytes} (h : Chronicled ⟨s, log ++ recs⟩)
      (hs : ∀ r ∈ recs, r.Sized) (ha : Addressable recs) : Led ⟨s, log ++ recs, .indexed recs, ks⟩

variable {d d' : Desk}

theorem Led.filed (h : Led d) : Filed d.store d.log := by
  cases h with
  | idle h => exact h.toFiled
  | logged h hs _ hl => exact h.toFiled.append h.quiet.inv.toWf.every hs hl.room hl.appended
  | indexed h _ _ => exact h.toFiled

theorem Led.wf (h : Led d) : ∃ pend, Wf .every d.store pend := by
  cases h with
  | idle h => exact ⟨_, h.quiet.inv.toWf.every⟩
  | logged _ _ _ hl => exact ⟨_, hl.inv.toWf.every⟩
  | indexed h _ _ => exact ⟨_, h.quiet.inv.toWf.every⟩

/-- The write that is under way is the end of the list. -/
theorem Led.unsent (h : Led d) :
    ∃ pre, d.log = pre ++ d.pen.unsent.flatten ∧ ∀ g ∈ d.pen.unsent, (∀ r ∈ g, r.Sized) ∧ Addressable g := by
  cases h with
  | @idle s log ks h => exact ⟨log, (List.append_nil log).symm, fun g hg => absurd hg List.not_mem_nil⟩
  | @logged s₀ s log recs pend ks h hs ha hl =>
    refine ⟨log, by simp [Pen.unsent], fun g hg => ?_⟩
    rw [List.mem_singleton.mp hg]
    exact ⟨sized_assignSeqs hs, addressable_assignSeqs ha⟩
  | @indexed s log recs ks h hs ha =>
    refine ⟨log, by simp [Pen.unsent], fun g hg => ?_⟩
    rw [List.mem_singleton.mp hg]
    exact ⟨hs, ha⟩

/-- The index shows the list up to `p`; what is above is still to be indexed. -/
structure Showing (d : Desk) (p : UInt64) : Prop where
  passed : p ≤ d.store.seq
  liveMap : d.store.liveMap = latest (upTo p d.log)
  newest : ∀ (k : Bytes) (e : Entry), d.store.keys[k]? = some e → ∀ r ∈ upTo p d.log, r.key = k → r.seq ≤ e.seq
  shown : ∀ pre, d.log = pre ++ d.pen.unsent.flatten → ∀ r ∈ pre, r.seq ≤ p

theorem Led.showing (h : Led d) : ∃ p, Showing d p := by
  cases h with
  | @idle s log ks h =>
    have hall : upTo s.seq log = log := upTo_all h.passed
    refine ⟨s.seq, UInt64.le_refl _, ?_, fun k e he r hr => ?_, fun pre hlog r hr => ?_⟩
    · show s.liveMap = latest (upTo s.seq log)
      rw [hall]
      exact h.liveMap
    · exact h.newest k e he r (mem_upTo.mp hr).1
    · have hlog : log = pre ++ [] := hlog
      exact h.passed r (hlog ▸ List.mem_append_left _ hr)
  | @logged s₀ s log recs pend ks h hs ha hl =>
    obtain ⟨hrange, -⟩ := seq_assignSeqs hl.room
    have hall : upTo s₀.seq (log ++ Store.assignSeqs s₀.seq recs) = log := by
      rw [upTo_append fun r hr => UInt64.lt_iff_toNat_lt.mpr (hrange r hr).1]
      exact upTo_all h.passed
    refine ⟨s₀.seq, hl.seq_le, ?_, fun k e he r hr => ?_, fun pre hlog r hr => ?_⟩
    · show s.liveMap = latest (upTo s₀.seq (log ++ Store.assignSeqs s₀.seq recs))
      rw [hall, hl.liveMap]
      exact h.liveMap
    · have hr : r ∈ upTo s₀.seq (log ++ Store.assignSeqs s₀.seq recs) := hr
      rw [hall] at hr
      have he : s.keys[k]? = some e := he
      rw [hl.keys] at he
      exact h.newest k e he r hr
    · have hlog : log ++ Store.assignSeqs s₀.seq recs = pre ++ [Store.assignSeqs s₀.seq recs].flatten := hlog
      rw [List.flatten_singleton] at hlog
      rw [← List.append_cancel_right hlog] at hr
      exact h.passed r hr
  | @indexed s log recs ks h hs ha =>
    have hall : upTo s.seq (log ++ recs) = log ++ recs := upTo_all h.passed
    refine ⟨s.seq, UInt64.le_refl _, ?_, fun k e he r hr => ?_, fun pre hlog r hr => ?_⟩
    · show s.liveMap = latest (upTo s.seq (log ++ recs))
      rw [hall]
      exact h.liveMap
    · exact h.newest k e he r (mem_upTo.mp hr).1
    · have hlog : log ++ recs = pre ++ [recs].flatten := hlog
      rw [List.flatten_singleton] at hlog
      rw [← List.append_cancel_right hlog] at hr
      exact h.passed r (List.mem_append_left _ hr)

/-! ### One stroke -/

/-- The records of a file, if there is one. -/
def Dir.listed (d : Dir) (id : Nat) : List Record := (d.bytes id).elim [] records

theorem mem_listed {d : Dir} {id : Nat} {r : Record} : r ∈ d.listed id ↔ Holds .every d.bytes id r := by
  rw [Dir.listed, Holds]
  cases d.bytes id with
  | none => simp
  | some b => simp [Reading.take]

theorem Appended.listed {s s' : Store} {recs : List Record} (happ : Appended s s' recs) (h : Wf .every s [])
    (hs : ∀ r ∈ recs, r.Sized) (i : Nat) :
    s'.dir.listed i = s.dir.listed i ++ if i = s'.active.id then recs else [] := by
  rw [Dir.listed, happ.bytes]
  by_cases hi : i = s'.active.id
  · subst hi
    rw [Function.update_self, Option.elim_some, if_pos rfl, Dir.listed]
    rcases happ.active with ⟨ha, -⟩ | ⟨ha, -⟩
    · obtain ⟨b, hb, -, hintact, -⟩ := h.active
      rw [ha, hb]
      exact hintact.records_append recs hs
    · rw [ha, h.notMem_nextID]
      exact records_encodeAll recs hs
  · rw [Function.update_of_ne hi, if_neg hi, List.append_nil, Dir.listed]

/-- What a stroke does to the files and to the list. -/
inductive Grew (d d' : Desk) : Prop
  | still (log : d'.log = d.log) (unsent : d'.pen.unsent = d.pen.unsent) (seq : d'.store.seq = d.store.seq)
      (mergeSeq : d'.store.mergeSeq = d.store.mergeSeq) (bytes : d'.store.dir.bytes = d.store.dir.bytes)
      (active : d'.store.active.id = d.store.active.id) (nextID : d'.store.nextID = d.store.nextID)
  | wrote (recs : List Record) (idle : d.pen.unsent = [])
      (unsent : d'.pen.unsent = [recs]) (log : d'.log = d.log ++ recs) (newer : ∀ r ∈ recs, d.store.seq < r.seq)
      (seq : d.store.seq ≤ d'.store.seq) (mergeSeq : d'.store.mergeSeq = d.store.mergeSeq)
      (located : ∀ k e r, Located .every d.store.dir.bytes k e r → Located .every d'.store.dir.bytes k e r)
      (active : d'.store.active.id = d.store.active.id ∧ d'.store.nextID = d.store.nextID ∨
        d'.store.active.id = d.store.nextID ∧ d'.store.nextID = d.store.nextID + 1)
      (listed : ∀ i, d'.store.dir.listed i = d.store.dir.listed i ++ if i = d'.store.active.id then recs else [])

theorem Grew.refl (d : Desk) : Grew d d := .still rfl rfl rfl rfl rfl rfl rfl

theorem Grew.mergeSeq (h : Grew d d') : d'.store.mergeSeq = d.store.mergeSeq := by
  cases h with
  | still _ _ _ hmerge => exact hmerge
  | wrote _ _ _ _ _ _ hmerge => exact hmerge

theorem Grew.seq (h : Grew d d') : d.store.seq ≤ d'.store.seq := by
  cases h with
  | still _ _ hseq => exact hseq ▸ UInt64.le_refl _
  | wrote _ _ _ _ _ hseq => exact hseq

/-- The list up to a number that has been handed out does not change. -/
theorem Grew.upTo (h : Grew d d') {q : UInt64} (hq : q ≤ d.store.seq) :
    Engine.upTo q d'.log = Engine.upTo q d.log := by
  cases h with
  | still hlog => rw [hlog]
  | wrote recs _ _ hlog hnew =>
    rw [hlog]
    exact upTo_append fun r hr => UInt64.lt_of_le_of_lt hq (hnew r hr)

theorem Led.write {s : Store} {log : List Record} {ks : List Bytes} {op : Op} (h : Chronicled ⟨s, log⟩) (hop : op.Valid)
    (hf : Fits s op) : Led (Desk.write ⟨s, log, .idle, ks⟩ op) ∧
      Grew ⟨s, log, .idle, ks⟩ (Desk.write ⟨s, log, .idle, ks⟩ op) := by
  have hw := hop.writes hf
  obtain ⟨s', pend, hstart, hl⟩ :=
    h.quiet.inv.startWrite h.quiet.bounded hw.sized hw.group hw.addressable hw.seq hw.id
  have hwrite : Desk.write ⟨s, log, .idle, ks⟩ op = ⟨s', log ++ Store.assignSeqs s.seq op.records,
      .logged (Store.assignSeqs s.seq op.records) pend.entries, Desk.waiting ⟨s, log, .idle, ks⟩ op⟩ := by
    simp only [Desk.write, hstart]
  obtain ⟨hrange, -⟩ := seq_assignSeqs hl.room
  have hwf : Wf .every {s with seq := s.seq + UInt64.ofNat op.records.length} [] :=
    h.quiet.inv.toWf.every.same ⟨rfl, rfl, rfl, rfl, rfl, rfl, rfl⟩ rfl
  have hsized := sized_assignSeqs (q := s.seq) hw.sized
  rw [hwrite]
  refine ⟨.logged h hw.sized hw.addressable hl, .wrote (Store.assignSeqs s.seq op.records) rfl rfl rfl
    (fun r hr => UInt64.lt_iff_toNat_lt.mpr (hrange r hr).1) hl.seq_le hl.appended.mergeSeq
    (fun k e r hr => hl.appended.located hwf hsized trivial hr) ?_ (hl.appended.listed hwf hsized)⟩
  exact hl.appended.active.imp (fun ⟨ha, hn, _⟩ => ⟨ha, hn⟩) fun ⟨ha, hn, _⟩ => ⟨ha, hn⟩

/-- **A stroke** keeps the desk in order. -/
theorem Led.step (h : Led d) {a : Stroke} (hf : a.Fits d.store) : Led (d.step a) ∧ Grew d (d.step a) := by
  cases a with
  | check key =>
    rw [Desk.step]
    split
    · cases h with
      | idle h => exact ⟨.idle h, .still rfl rfl rfl rfl rfl rfl rfl⟩
      | logged h hs ha hl => exact ⟨.logged h hs ha hl, .still rfl rfl rfl rfl rfl rfl rfl⟩
      | indexed h hs ha => exact ⟨.indexed h hs ha, .still rfl rfl rfl rfl rfl rfl rfl⟩
    · exact ⟨h, .refl d⟩
  | log op =>
    cases h with
    | @idle s log ks h =>
      have hf : Fits s op := hf
      show Led (if Desk.Admits ⟨s, log, .idle, ks⟩ op then _ else _) ∧ Grew _ (if Desk.Admits _ op then _ else _)
      by_cases hop : Desk.Admits ⟨s, log, .idle, ks⟩ op
      · rw [if_pos hop]
        exact Led.write h hop.1 hf
      · rw [if_neg hop]
        exact ⟨.idle h, .refl _⟩
    | logged h hs ha hl => exact ⟨.logged h hs ha hl, .refl _⟩
    | indexed h hs ha => exact ⟨.indexed h hs ha, .refl _⟩
  | index =>
    cases h with
    | idle h => exact ⟨.idle h, .refl _⟩
    | indexed h hs ha => exact ⟨.indexed h hs ha, .refl _⟩
    | @logged s₀ s log recs pend ks h hs ha hl =>
      have hwritten := hl.written h.quiet.bounded h.quiet.inv.toWf
      have hquiet : Quiet (s.indexWrite pend.entries) := by
        refine ⟨hwritten.inv, hwritten.bounded, ?_⟩
        rw [Marked, hwritten.appended.manifest, hwritten.appended.mergeSeq]
        exact h.quiet.marked
      obtain ⟨l, n, heq⟩ := indexWrite_eq s pend.entries
      refine ⟨.indexed (h.wrote hquiet (hwritten.whole h.unbroken) hs hwritten) (sized_assignSeqs hs)
        (addressable_assignSeqs ha), ?_⟩
      show Grew ⟨s, _, _, _⟩ ⟨s.indexWrite pend.entries, _, _, _⟩
      rw [heq]
      exact .still rfl rfl rfl rfl rfl rfl rfl

/-- The write is published, and the lock given up. -/
theorem Led.publish {s : Store} {log recs : List Record} {ks : List Bytes}
    (h : Led ⟨s, log, .indexed recs, ks⟩) : Led ⟨s, log, .idle, ks⟩ := by
  cases h with
  | indexed h => exact .idle h

/-- A merge keeps the list and the counter, and the watermark does not fall. -/
theorem Led.compact {s : Store} {log : List Record} {ks : List Bytes} (h : Led ⟨s, log, .idle, ks⟩)
    (hf : Fits s .compact) :
    Led ⟨s.compact.1, log, .idle, ks⟩ ∧ s.compact.1.seq = s.seq ∧ s.mergeSeq ≤ s.compact.1.mergeSeq := by
  cases h with
  | idle h =>
    have hstep : Chronicled (Chronicle.step ⟨s, log⟩ .compact).1 := h.step hf
    obtain ⟨s', hs', -, -, heffect⟩ := h.quiet.apply hf
    have hs' : s.compact = (s', none) := hs'
    have hrun : (Chronicle.step ⟨s, log⟩ .compact).1 = ⟨s', log⟩ := by
      have happly : s.apply .compact = (s', none) := hs'
      simp only [Chronicle.step, happly, Op.records, Store.assignSeqs, List.append_nil]
    rw [hrun] at hstep
    rw [hs']
    refine ⟨.idle hstep, ?_⟩
    cases heffect with
    | idle _ hop => exact absurd rfl (hop.resolve_left fun hne => hne rfl).2
    | wrote hg _ _ _ => exact absurd rfl hg.ne_nil
    | compacted hc =>
      refine ⟨hc.seq, ?_⟩
      rcases hc.watermark with heq | heq
      · exact heq ▸ UInt64.le_refl _
      · exact heq ▸ h.watermark

end Led

end Gokv.Engine
