import Gokv.Base.Moments
import Gokv.Engine.Racing
import Gokv.Engine.Beside

/-! `Put`, `Delete` and `Get` while the store is being compacted.

The calls go from lock to lock, and a merge takes its steps between theirs. It may take away the file
in which a `Get` has just found its record. The `Get` then looks again, and which of its looks counts
is decided by the read that succeeds: it takes effect at that look, in the past of what has happened
since. A `Get` that is outrun four times gives up, and is as if it had not been called.

`crossing_linearizable`: calls in any interleaving with the steps of any number of merges are
answered as a map would answer them one by one, each at some moment between its call and its return. -/
namespace Gokv.Engine
open Base

section Versions
variable [Checksum] {ρ : Reading} {s s' : Store} {m : Merge} {pend : Pending}

/-! ### What a step of a merge leaves of the index -/

/-- Every version of the second index is in the first, under its key. -/
def Index.Among (ks' ks : Index) : Prop :=
  ∀ (k : Bytes) (e' : Entry), ks'[k]? = some e' → ∃ e : Entry, ks[k]? = some e ∧ e.seq = e'.seq

omit [Checksum] in
theorem Index.Among.refl (ks : Index) : Index.Among ks ks := fun _ e he => ⟨e, he, rfl⟩

omit [Checksum] in
theorem Index.Among.trans {ks₁ ks₂ ks₃ : Index} (h : Index.Among ks₁ ks₂) (h' : Index.Among ks₂ ks₃) :
    Index.Among ks₁ ks₃ := by
  intro k e he
  obtain ⟨e₂, he₂, hs₂⟩ := h k e he
  obtain ⟨e₃, he₃, hs₃⟩ := h' k e₂ he₂
  exact ⟨e₃, he₃, hs₃.trans hs₂⟩

omit [Checksum] in
theorem Merge.repointOne_among {x : Item × Entry} (hx : x.2.seq = x.1.entry.seq) (ks : Index) :
    Index.Among (Merge.repointOne ks x) ks := by
  intro k e he
  unfold Merge.repointOne at he
  cases hn : ks[x.1.key]? with
  | none =>
    simp only [hn] at he
    exact ⟨e, he, rfl⟩
  | some n =>
    simp only [hn] at he
    by_cases hmatch : n.seq = x.1.entry.seq ∧ n.fileID = x.1.entry.fileID
    · rw [if_pos hmatch] at he
      by_cases hk : k = x.1.key
      · subst hk
        rw [Std.ExtTreeMap.getElem?_insert_self, Option.some.injEq] at he
        exact ⟨n, hn, by rw [hmatch.1, ← he, hx]⟩
      · rw [Std.ExtTreeMap.getElem?_insert, if_neg (by simpa using Ne.symm hk)] at he
        exact ⟨e, he, rfl⟩
    · rw [if_neg hmatch] at he
      exact ⟨e, he, rfl⟩

omit [Checksum] in
theorem Merge.retireOne_among (x : Item) (ks : Index) : Index.Among (Merge.retireOne ks x) ks := by
  intro k e he
  unfold Merge.retireOne at he
  cases hn : ks[x.key]? with
  | none =>
    simp only [hn] at he
    exact ⟨e, he, rfl⟩
  | some n =>
    simp only [hn] at he
    by_cases hmatch : n.seq = x.entry.seq ∧ n.fileID = x.entry.fileID
    · rw [if_pos hmatch, Std.ExtTreeMap.getElem?_erase] at he
      split at he
      · cases he
      · exact ⟨e, he, rfl⟩
    · rw [if_neg hmatch] at he
      exact ⟨e, he, rfl⟩

omit [Checksum] in
theorem Index.Among.foldl {α : Type*} {f : Index → α → Index} {xs : List α}
    (h : ∀ x ∈ xs, ∀ ks, Index.Among (f ks x) ks)
    (ks : Index) : Index.Among (xs.foldl f ks) ks := by
  induction xs generalizing ks with
  | nil => exact .refl ks
  | cons x xs ih =>
    exact (ih (fun y hy => h y (List.mem_cons_of_mem _ hy)) (f ks x)).trans (h x List.mem_cons_self ks)

omit [Checksum] in
theorem keys_cleanup (s : Store) (m : Merge) (e : Error) : (Merge.cleanup s m e).1.keys = s.keys := by
  obtain ⟨files, data, heq⟩ := cleanup_eq s m e
  rw [heq]

omit [Checksum] in
theorem keys_newOut (s : Store) (m : Merge) : (Merge.newOut s m).1.keys = s.keys := by
  unfold Merge.newOut
  dsimp only
  split <;> rfl

theorem keys_copyStep (s : Store) (m : Merge) (it : Item) (rest : List Item) :
    (Merge.copyStep s m it rest).1.keys = s.keys := by
  unfold Merge.copyStep
  split
  · rfl
  split
  · exact keys_cleanup ..
  split
  · exact keys_cleanup ..
  dsimp only
  split
  · have hnew := keys_newOut s m
    split
    all_goals
      rename_i heq
      rw [heq] at hnew
    · exact (keys_cleanup ..).trans hnew
    · exact hnew
  · rfl

omit [Checksum] in
theorem keys_writeStep (s : Store) (m : Merge) (it : Item) (rec : Record) (buf : Bytes) (rest : List Item) :
    (Merge.writeStep s m it rec buf rest).1.keys = s.keys := by
  unfold Merge.writeStep
  split
  · rfl
  split
  · exact keys_cleanup ..
  · rfl

/-- **A step of a merge brings no version into the index** that was not there. -/
theorem MergeInv.step_among (h : MergeInv ρ s pend m) : Index.Among (Merge.step s m).1.keys s.keys := by
  have hsame {ks : Index} (heq : ks = s.keys) : Index.Among ks s.keys := heq ▸ .refl _
  unfold Merge.step
  cases hphase : m.phase with
  | copy todo =>
    cases todo with
    | nil => exact .refl _
    | cons it rest => exact hsame (keys_copyStep s m it rest)
  | write it rec buf rest => exact hsame (keys_writeStep s m it rec buf rest)
  | repoint todo =>
    cases todo with
    | nil => exact .refl _
    | cons x rest =>
      refine Index.Among.foldl (fun y hy ks => Merge.repointOne_among ?_ ks) s.keys
      rcases h with ⟨a, h⟩ | ⟨h, hp⟩
      · rw [h.fresh] at hphase
        cases hphase
      · rw [hphase] at hp
        obtain ⟨r, hr, hseq, -⟩ := h.moved y (hp.2.1 y (List.mem_of_mem_take hy))
        rw [← hr.seq, hseq]
  | retire todo =>
    cases todo with
    | nil => exact .refl _
    | cons x rest => exact Index.Among.foldl (fun y _ ks => Merge.retireOne_among y ks) s.keys
  | syncOuts todo =>
    cases todo with
    | nil => exact .refl _
    | cons o rest =>
      dsimp only
      split
      · exact hsame (keys_cleanup ..)
      · exact .refl _
  | commitHints todo => cases todo <;> exact .refl _
  | remove todo =>
    cases todo with
    | nil => exact .refl _
    | cons x rest =>
      cases x with
      | data id =>
        dsimp only [Merge.removeStep]
        split <;> exact .refl _
      | hint id => exact .refl _
  | list _ | snapshot | watermark | recount | sum | total _ | done | failed _ => exact .refl _

/-! ### What a reader has found -/

/-- The locator leads to the value, or its file has been taken away. -/
def Sighted (s : Store) (e : Entry) (v : Bytes) : Prop :=
  (∃ k r, Located .committed s.dir.bytes k e r ∧ r.payload = some v) ∨ e.fileID < s.nextID ∧ s.dir.bytes e.fileID = none

variable {e : Entry} {v : Bytes}

theorem Sighted.congr (h : Sighted s e v) (hdir : s'.dir = s.dir) (hnext : s'.nextID = s.nextID) : Sighted s' e v := by
  rw [Sighted, hdir, hnext]
  exact h

theorem Sighted.stepped (h : Sighted s e v) (hwf : Wf .committed s pend) (hs : Stepped .committed s s') :
    Sighted s' e v := by
  rcases h with ⟨k, r, hr, hv⟩ | ⟨hlt, hnone⟩
  · rcases hs.located k e r hr with hr' | hgone
    · exact .inl ⟨k, r, hr', hv⟩
    · obtain ⟨b, -, -, hb, -⟩ := hr.place
      exact .inr ⟨(hwf.fresh _ b hb).trans_le hs.nextID, hgone⟩
  · exact .inr ⟨hlt.trans_le hs.nextID, hs.absent _ hlt hnone⟩

/-- A fresh file is nobody's. -/
theorem Sighted.create (h : Sighted s e v) (hwf : Wf .committed s pend) (hnext : s.nextID ≤ s'.nextID)
    (hbytes : s'.dir.bytes = s.dir.bytes ∨ s'.dir.bytes = Function.update s.dir.bytes s.nextID (some [])) :
    Sighted s' e v := by
  rcases hbytes with hbytes | hbytes
  · rw [Sighted, hbytes]
    exact h.imp_right fun hg => ⟨hg.1.trans_le hnext, hg.2⟩
  · rw [Sighted, hbytes]
    rcases h with ⟨k, r, hr, hv⟩ | ⟨hlt, hnone⟩
    · exact .inl ⟨k, r, hr.create hwf.notMem_nextID, hv⟩
    · refine .inr ⟨hlt.trans_le hnext, ?_⟩
      rw [Function.update_of_ne hlt.ne]
      exact hnone

theorem bytes_sealActive (h : Inv ρ s [] []) (hid : s.nextID + 1 < 2 ^ 32) :
    s.sealActive.1.dir.bytes = s.dir.bytes ∨
      s.sealActive.1.dir.bytes = Function.update s.dir.bytes s.nextID (some []) := by
  obtain ⟨b, hact, -⟩ := h.active
  have hopen : ¬ s.closed = true := by
    rw [h.running]
    exact Bool.false_ne_true
  rw [Store.sealActive, if_neg hopen]
  by_cases hempty : s.active.size = 0
  · rw [if_pos hempty]
    exact .inl rfl
  · obtain ⟨d, hd, hbytes, hhints, -, -⟩ := Dir.sync_ok hact
    have hm : Inv ρ {s with dir := d} [] [] := h.same ⟨rfl, hbytes, hhints, rfl, rfl, rfl, rfl⟩ rfl
    rw [if_neg hempty, hd]
    simp only [hm.openNewActive hid]
    refine .inr ?_
    show ({s with dir := d} : Store).withActive.dir.bytes = _
    rw [bytes_withActive]
    show Function.update d.bytes s.nextID (some []) = _
    rw [hbytes]

theorem Sighted.logged {gone : List Nat} {recs : List Record} (h : Sighted s e v) (hwf : Wf .committed s [])
    (hl : Logged .committed gone s s' recs pend) (hs : ∀ r ∈ recs, r.Sized) (hg : IsGroup recs) : Sighted s' e v := by
  rcases h with ⟨k, r, hr, hv⟩ | ⟨hlt, hnone⟩
  · exact .inl ⟨k, r, hl.located hwf hs hg hr, hv⟩
  · have hne : e.fileID ≠ s.active.id := by
      obtain ⟨b, hb, -⟩ := hwf.active
      rintro heq
      rw [← heq, hnone] at hb
      cases hb
    refine .inr ⟨hlt.trans_le hl.nextID_le, ?_⟩
    rw [hl.elsewhere (hl.ne_active hlt hne)]
    exact hnone

theorem Sighted.read (h : Sighted s e v) (hwf : Wf .committed s pend) :
    s.readValue e = .ok v ∨ s.readValue e = .error .fileGone := by
  rcases h with ⟨k, r, hr, hv⟩ | ⟨-, hnone⟩
  · rw [hr.readValue hwf.files, hv, answer]
    exact .inl rfl
  · refine .inr (if_pos fun hmem => ?_)
    obtain ⟨b, hb⟩ := hwf.mem_files.mp hmem
    rw [hnone] at hb
    cases hb

end Versions

namespace Racing
open Linear

/-! ### Calls beside a merge -/

/-- The calls under way, and the `Compact`. -/
structure Crossing where
  race : Race
  merge : Option Merge

/-- A move of a call, or one step of `Compact`. -/
inductive Motion where
  | call (move : Move)
  | merge
  deriving DecidableEq

/-- A `Get` that was outrun at every attempt. -/
def gaveUp : Reply → Bool
  | .failed .lostRace => true
  | _ => false

namespace Crossing

def start (w : Working) : Crossing := ⟨.start w.store, w.merge⟩

def merged (d : Race) (w : Working) : Crossing := ⟨{d with store := w.store}, w.merge⟩

section Machine
variable [Checksum]

def step (c : Crossing) : Motion → Crossing
  | .call move => {c with race := c.race.step move}
  | .merge =>
    match c.merge, c.race.holder with
    -- the seal takes the write lock
    | none, none => merged c.race (Working.merged c.race.store.sealActive)
    | none, some _ => c
    | some m, _ => merged c.race (Working.merged (Merge.step c.race.store m))

end Machine

end Crossing

def crossingMachine [Checksum] : Machine Motion Crossing Unit := ⟨fun c i => (c.step i, ())⟩

/-- The rule of a move: a write that takes the lock is ready, and the file the seal has made active is
active still at the listing. -/
def Smooth (c : Crossing) : Motion → Prop
  | .call move => Rechecked c.race move
  | .merge => Courteous ⟨c.race.store, c.merge⟩ .merge

section Crossed
variable [Checksum]

namespace Crossing

/-- A write that is logged and not yet indexed, beside a merge. -/
structure Inflight (s : Store) (merge : Option Merge) (op : Op) (pend : Pending) : Prop where
  attended : Attended pend ⟨s, merge⟩
  increasing : (pend.map Prod.snd).Pairwise fun r r' => r.seq < r'.seq
  newer : ∀ x ∈ pend, ∀ (k : Bytes) (n : Entry), s.keys[k]? = some n → n.seq < x.2.seq
  accepted : op.refusal s.liveMap = none
  effect : applyRecords s.liveMap (pend.map Prod.snd) = Map.update s.liveMap op.updates

/-- The store, by who has the write lock. -/
inductive Held (s : Store) (merge : Option Merge) (calls : Nat → Option (Request × Progress)) : Option Nat → Prop
  | free (attended : Attended [] ⟨s, merge⟩) (others : ∀ id req p, calls id = some (req, p) → p.holds = false) :
      Held s merge calls none
  | logged {id : Nat} {req : Request} {op : Op} {pend : Pending} (call : calls id = some (req, .logged pend.entries))
      (isOp : req.op = some op) (inflight : Inflight s merge op pend)
      (others : ∀ id' req p, id' ≠ id → calls id' = some (req, p) → p.holds = false) : Held s merge calls (some id)
  | indexed {id : Nat} {req : Request} (call : calls id = some (req, .indexed)) (attended : Attended [] ⟨s, merge⟩)
      (others : ∀ id' req p, id' ≠ id → calls id' = some (req, p) → p.holds = false) : Held s merge calls (some id)

/-- Where a call stands in the order, by how far it has come. -/
def Stands (m : Map) (s : Store) (h : List (Occurrence Request Reply)) (order : List (Served Request Reply)) (id : Nat)
    (req : Request) : Progress → Prop
  | .called => id ∉ order.map Served.id
  | .waiting => id ∉ order.map Served.id ∧ ∃ op, req.op = some op ∧ op.Valid
  | .logged _ => id ∉ order.map Served.id
  | .indexed => ⟨id, req, .wrote none⟩ ∈ order
  | .looking _ => id ∉ order.map Served.id ∧ ∃ key, req = .get key ∧ Store.validateKey key = none
  | .found _ e => id ∉ order.map Served.id ∧ ∃ key v t, req = .get key ∧ Store.validateKey key = none ∧ t key = some v ∧
      Moment mapCalls m h order id t ∧ Sighted s e v
  | .done r => if gaveUp r then id ∉ order.map Served.id else ⟨id, req, r⟩ ∈ order
  | .returned => True

/-- A run up to now, with the order in which its calls took effect. -/
structure Crossed (m : Map) (c : Crossing) (order : List (Served Request Reply)) : Prop where
  linear : Linearized mapCalls m (settled gaveUp c.race.history) order c.race.store.liveMap
  calls : ∀ id req p, c.race.calls id = some (req, p) →
    .call id req ∈ c.race.history ∧ Stands m c.race.store (settled gaveUp c.race.history) order id req p
  unanswered : ∀ id req p, c.race.calls id = some (req, p) → p ≠ .returned → ∀ o, .ret id o ∉ c.race.history
  fresh : ∀ id, c.race.calls id = none → ∀ e ∈ c.race.history, e.id ≠ id
  held : Held c.race.store c.merge c.race.calls c.race.holder

variable {m : Map} {c : Crossing} {order order' : List (Served Request Reply)} {id : Nat} {req : Request}
    {p p' : Progress}
  {s s' : Store} {merge merge' : Option Merge} {calls : Nat → Option (Request × Progress)} {holder : Option Nat}
    {op : Op}
  {pend : Pending}

/-! ### A write in flight -/

theorem Inflight.of_logged {gone : List Nat} (h : Attended [] ⟨s, merge⟩) (hw : Writes s op)
    (hok : op.refusal s.liveMap = none) (hl : Logged .committed gone s s' op.records pend)
    (ha : Attended pend ⟨s', merge⟩) :
    Inflight s' merge op pend where
  attended := ha
  increasing := hl.increasing
  newer x hx k n hn := by
    rw [hl.keys] at hn
    exact UInt64.lt_of_le_of_lt (h.bounded.entry h.wf hn) (hl.newer x hx)
  accepted := by
    rw [hl.liveMap]
    exact hok
  effect := by rw [hl.records, applyRecords_assignSeqs, hw.map]

theorem Inflight.advance {n : Merge} (h : Inflight s (some n) op pend) (hlist : ∀ a ∈ n.listing, s.active.id = a)
    (hid : s.nextID + 1 < 2 ^ 32) :
    Inflight (Working.merged (Merge.step s n)).store (Working.merged (Merge.step s n)).merge op pend := by
  obtain ⟨ha, hstep⟩ := h.attended.advance hlist hid
  refine ⟨ha, h.increasing, fun x hx k e' he' => ?_, ?_, ?_⟩
  · obtain ⟨e, he, hseq⟩ := (h.attended.merging n rfl).step_among k e' he'
    rw [← hseq]
    exact h.newer x hx k e he
  · show op.refusal (Merge.step s n).1.liveMap = none
    rw [hstep.liveMap]
    exact h.accepted
  · show applyRecords (Merge.step s n).1.liveMap _ = Map.update (Merge.step s n).1.liveMap _
    rw [hstep.liveMap]
    exact h.effect

/-- What indexing it means to the map. -/
theorem Inflight.apply (h : Inflight s merge op pend) :
    Map.apply s.liveMap op = ((s.indexWrite pend.entries).liveMap, none) := by
  rw [Map.apply, h.accepted, h.attended.wf.liveMap_indexWrite h.increasing h.newer, h.effect]

/-! ### What is known of a call -/

theorem Held.wf (h : Held s merge calls holder) : ∃ pend, Wf .committed s pend := by
  cases h with
  | free attended => exact ⟨_, attended.wf⟩
  | logged _ _ inflight => exact ⟨_, inflight.attended.wf⟩
  | indexed _ attended => exact ⟨_, attended.wf⟩

/-- A call without the lock goes on, or a new one begins. -/
theorem Held.set (h : Held s merge calls holder) (hidle : ∀ req p, calls id = some (req, p) → p.holds = false)
    (hp : p.holds = false) : Held s merge (Function.update calls id (some (req, p))) holder := by
  have hkeep {id' : Nat} {req' : Request} {q : Progress} (hcall : calls id' = some (req', q)) (hq : q.holds = true) :
      Function.update calls id (some (req, p)) id' = some (req', q) := by
    rw [Function.update_of_ne, hcall]
    rintro rfl
    rw [hidle req' q hcall] at hq
    cases hq
  have hothers {P : Nat → Prop} (ho : ∀ id' req q, P id' → calls id' = some (req, q) → q.holds = false) :
      ∀ id' req' q, P id' → Function.update calls id (some (req, p)) id' = some (req', q) → q.holds = false := by
    intro id' req' q hP hcall
    rcases update_calls hcall with ⟨-, -, rfl⟩ | ⟨-, hcall⟩
    · exact hp
    · exact ho _ _ _ hP hcall
  cases h with
  | free attended others =>
    exact .free attended fun id' req' q hcall => hothers (P := fun _ => True)
      (fun _ _ _ _ => others _ _ _) id' req' q trivial hcall
  | logged call isOp inflight others => exact .logged (hkeep call rfl) isOp inflight (hothers others)
  | indexed call attended others => exact .indexed (hkeep call rfl) attended (hothers others)

/-- The one call that has the lock. -/
theorem Held.eq_of_holds (h : Held s merge calls holder) (hc : calls id = some (req, p)) (hp : p.holds = true) :
    holder = some id := by
  have hcontra (hno : p.holds = false) : False := by
    rw [hp] at hno
    cases hno
  cases h with
  | free _ others => exact (hcontra (others _ _ _ hc)).elim
  | logged _ _ _ others | indexed _ _ others =>
    by_contra hne
    exact hcontra (others id req p (fun heq => hne (congrArg some heq.symm)) hc)

/-- The order is the same, or the call `id` has joined it. -/
def Joined (m : Map) (id : Nat) (order order' : List (Served Request Reply)) : Prop :=
  order' = order ∨ ∃ x, x.id = id ∧ Enters mapCalls m x order order'

omit [Checksum] in
theorem Joined.mem {x : Served Request Reply} (h : Joined m id order order') (hx : x ∈ order) : x ∈ order' := by
  rcases h with rfl | ⟨y, -, he⟩
  · exact hx
  · exact he.subset hx

omit [Checksum] in
theorem Joined.notMem {id' : Nat} (h : Joined m id order order') (hne : id' ≠ id) (hx : id' ∉ order.map Served.id) :
    id' ∉ order'.map Served.id := by
  rcases h with rfl | ⟨y, rfl, he⟩
  · exact hx
  · exact he.notMem hne hx

/-- What is known of the other calls stays known. -/
theorem Stands.other {h : List (Occurrence Request Reply)} {id' : Nat} (hs : Stands m s h order id' req p)
    (hne : id' ≠ id)
    (hjoin : Joined m id order order') (hopen : ∀ o, .ret id o ∉ h) (hsight : ∀ e v, Sighted s e v → Sighted s' e v) :
    Stands m s' h order' id' req p := by
  cases p with
  | called | logged _ => exact hjoin.notMem hne hs
  | waiting | looking _ => exact ⟨hjoin.notMem hne hs.1, hs.2⟩
  | indexed => exact hjoin.mem hs
  | found n e =>
    obtain ⟨hnew, key, v, t, hreq, hkey, hval, hmoment, hfound⟩ := hs
    refine ⟨hjoin.notMem hne hnew, key, v, t, hreq, hkey, hval, ?_, hsight e v hfound⟩
    rcases hjoin with rfl | ⟨x, rfl, he⟩
    · exact hmoment
    · exact hmoment.enters he hopen
  | done r =>
    rw [Stands] at hs ⊢
    by_cases hr : gaveUp r = true
    · rw [if_pos hr] at hs ⊢
      exact hjoin.notMem hne hs
    · rw [if_neg hr] at hs ⊢
      exact hjoin.mem hs
  | returned => trivial

/-! ### One move of a call -/

theorem Crossed.start {w : Working} (h : Attended [] w) : Crossed w.store.liveMap (.start w) [] :=
  ⟨.start mapCalls w.store.liveMap, fun _ _ _ hc => (by cases hc), fun _ _ _ hc => (by cases hc),
    fun _ _ _ he => absurd he List.not_mem_nil, .free h fun _ _ _ hc => (by cases hc)⟩

theorem Crossed.open (h : Crossed m c order) (hc : c.race.calls id = some (req, p)) (hp : p ≠ .returned) (o : Reply) :
    .ret id o ∉ settled gaveUp c.race.history := fun hr =>
  h.unanswered id req p hc hp o ((settled_sublist gaveUp _).subset hr)

/-- The call is in the history that counts, as long as it has not returned. -/
theorem Crossed.called (h : Crossed m c order) (hc : c.race.calls id = some (req, p)) (hp : p ≠ .returned) :
    .call id req ∈ settled gaveUp c.race.history := mem_settled (h.calls _ _ _ hc).1 (h.unanswered id req p hc hp)

/-- **A step of a call**, by what it does to the store, the lock and the order. -/
theorem Crossed.set (h : Crossed m c order) (hc : c.race.calls id = some (req, p)) (hp : p ≠ .returned)
    (hlin : Linearized mapCalls m (settled gaveUp c.race.history) order' s'.liveMap) (hjoin : Joined m id order order')
    (hsight : ∀ e v, Sighted c.race.store e v → Sighted s' e v)
    (hstand : Stands m s' (settled gaveUp c.race.history) order' id req p')
    (hheld : Held s' c.merge (Function.update c.race.calls id (some (req, p'))) holder) :
    Crossed m {c with race := {c.race.set id req p' with store := s', holder := holder}} order' where
  linear := hlin
  calls id' req' q hcall := by
    rcases update_calls hcall with ⟨rfl, rfl, rfl⟩ | ⟨hid, hcall⟩
    · exact ⟨(h.calls _ _ _ hc).1, hstand⟩
    · obtain ⟨hin, hst⟩ := h.calls id' req' q hcall
      exact ⟨hin, hst.other hid hjoin (h.open hc hp) hsight⟩
  unanswered id' req' q hcall hq := by
    rcases update_calls hcall with ⟨rfl, rfl, rfl⟩ | ⟨-, hcall⟩
    · exact h.unanswered _ _ _ hc hp
    · exact h.unanswered id' req' q hcall hq
  fresh id' hnone := h.fresh id' (update_calls_none hnone).2
  held := hheld

/-- A step that changes nothing but how far the call has come. -/
theorem Crossed.quietly (h : Crossed m c order) (hc : c.race.calls id = some (req, p)) (hret : p ≠ .returned)
    (hp : p.holds = false) (hp' : p'.holds = false)
    (hstand : Stands m c.race.store (settled gaveUp c.race.history) order id req p') :
    Crossed m {c with race := c.race.set id req p'} order :=
  h.set hc hret h.linear (.inl rfl) (fun _ _ hs => hs) hstand (h.held.set (Race.idle hc hp) hp')

omit [Checksum] in
/-- A map never gives up. -/
theorem gaveUp_respond (m : Map) (req : Request) : gaveUp (respond m req).2 = false := by
  cases req with
  | put now key value | delete now key => rfl
  | get key =>
    cases hk : Store.validateKey key with
    | some e =>
      simp only [respond, hk]
      unfold Store.validateKey at hk
      split at hk
      · cases hk
        rfl
      · split at hk
        · cases hk
          rfl
        · cases hk
    | none =>
      simp only [respond, hk]
      cases m key <;> rfl

theorem Stands.done_mem {h : List (Occurrence Request Reply)} {r : Reply} (hr : gaveUp r = false)
    (hmem : ⟨id, req, r⟩ ∈ order) :
    Stands m s h order id req (.done r) := by
  rw [Stands, hr]
  exact hmem

/-- A step at which the call takes effect and leaves the map as it is. -/
theorem Crossed.answered (h : Crossed m c order) (hc : c.race.calls id = some (req, p)) (hret : p ≠ .returned)
    (hp : p.holds = false) (hnew : id ∉ order.map Served.id) {r : Reply}
    (hans : respond c.race.store.liveMap req = (c.race.store.liveMap, r)) :
    ∃ order', Crossed m {c with race := c.race.set id req (.done r)} order' := by
  have hlin := h.linear.takeEffect (x := ⟨id, req, r⟩) (h.called hc hret) hnew (congrArg Prod.snd hans)
  rw [show (mapCalls.step c.race.store.liveMap req).1 = c.race.store.liveMap from congrArg Prod.fst hans] at hlin
  have hr : gaveUp r = false := by
    rw [← show (respond c.race.store.liveMap req).2 = r from congrArg Prod.snd hans]
    exact gaveUp_respond _ _
  exact ⟨_, h.set hc hret hlin (.inr ⟨_, rfl, .last ..⟩) (fun _ _ hs => hs)
    (Stands.done_mem hr (List.mem_append_right _ (List.mem_singleton_self _))) (h.held.set (Race.idle hc hp) rfl)⟩

/-- The first step: the arguments, and for a `Delete` the liveness check. -/
theorem Crossed.check (h : Crossed m c order) (hc : c.race.calls id = some (req, .called)) :
    ∃ order', Crossed m {c with race := c.race.advance id req .called} order' := by
  obtain ⟨-, hnew⟩ := h.calls _ _ _ hc
  obtain ⟨pend, hwf⟩ := h.held.wf
  have hret : Progress.called ≠ .returned := fun heq => by cases heq
  cases hinv : req.invalid with
  | some e =>
    simp only [Race.advance, hinv]
    exact h.answered hc hret rfl hnew (respond_invalid hinv _)
  | none =>
    cases req with
    | put now key value =>
      have hvalid : (Op.put now key value).Valid := by
        have hr : Op.refusal c.race.store.liveMap (.put now key value) = none := hinv
        exact Op.records_ne_nil_valid trivial hr (List.cons_ne_nil _ _)
      simp only [Race.advance, hinv]
      exact ⟨order, h.quietly hc hret rfl rfl ⟨hnew, _, rfl, hvalid⟩⟩
    | delete now key =>
      have hkey : Store.validateKey key = none := hinv
      simp only [Race.advance, hinv]
      by_cases hlive : c.race.store.isLive key = true
      · rw [if_pos hlive]
        exact ⟨order, h.quietly hc hret rfl rfl ⟨hnew, _, rfl, hkey⟩⟩
      · rw [if_neg hlive]
        have hnone : (c.race.store.liveMap key).isNone = true := by
          rw [hwf.isLive_eq] at hlive
          rw [Option.isNone_iff_eq_none]
          exact Option.not_isSome_iff_eq_none.mp hlive
        have hr : Op.refusal c.race.store.liveMap (.delete now key) = some .keyNotFound := by
          rw [Op.refusal, hkey]
          exact if_pos hnone
        refine h.answered hc hret rfl hnew ?_
        simp only [respond, Map.apply, hr]
    | get key =>
      simp only [Race.advance, hinv]
      exact ⟨order, h.quietly hc hret rfl rfl ⟨hnew, key, rfl, hinv⟩⟩

/-- **The append**, under the write lock. -/
theorem Crossed.append (h : Crossed m c order) (hc : c.race.calls id = some (req, .waiting))
    (hfree : c.race.holder = none)
    (hready : Ready c.race.store req) (hop : req.op = some op) :
    ∃ order', Crossed m {c with race := c.race.append id req op} order' := by
  obtain ⟨-, hnew, op', hop', hvalid⟩ := h.calls _ _ _ hc
  obtain rfl : op' = op := Option.some.inj (hop'.symm.trans hop)
  have hheld := h.held
  rw [hfree] at hheld
  cases hheld with
  | free attended others =>
    obtain ⟨hfits, haccepted⟩ := hready.accepted attended.wf hop hvalid
    have hw := hvalid.writes hfits
    obtain ⟨s', pend, gone, hstart, hl, ha⟩ := attended.log hw
    have hopen : ¬ c.race.store.closed = true := by
      rw [attended.wf.running]
      exact Bool.false_ne_true
    rw [Race.append, if_neg hopen, hstart]
    refine ⟨order, h.set hc (fun heq => by cases heq) ?_ (.inl rfl) (fun e v hs => ?_) hnew ?_⟩
    · rw [hl.liveMap]
      exact h.linear
    · exact hs.logged attended.wf hl hw.sized hw.group
    · refine .logged (Function.update_self ..) hop
        (.of_logged attended hw haccepted hl ha) fun id' req' q hne hcall => ?_
      rw [Function.update_of_ne hne] at hcall
      exact others _ _ _ hcall

/-- **The index update**, where a write takes effect. -/
theorem Crossed.index (h : Crossed m c order) {entries : List (Bytes × Entry)}
    (hc : c.race.calls id = some (req, .logged entries)) :
    ∃ order', Crossed m {c with race := c.race.advance id req (.logged entries)} order' := by
  obtain ⟨-, hnew⟩ := h.calls _ _ _ hc
  have hret : Progress.logged entries ≠ .returned := fun heq => by cases heq
  have hheld := h.held
  have hholder := hheld.eq_of_holds hc rfl
  rw [hholder] at hheld
  cases hheld with
  | indexed call => cases hc.symm.trans call
  | @logged _ req' op pend call isOp inflight others =>
    obtain ⟨rfl, hentries⟩ := Prod.mk.inj (Option.some.inj (hc.symm.trans call))
    cases hentries
    have hrespond : respond c.race.store.liveMap req =
        ((c.race.store.indexWrite pend.entries).liveMap, .wrote none) := by
      rw [respond_op isOp, inflight.apply]
    have hlin := h.linear.takeEffect (x := ⟨id, req, .wrote none⟩) (h.called hc hret) hnew (congrArg Prod.snd hrespond)
    rw [show (mapCalls.step c.race.store.liveMap req).1 = _ from congrArg Prod.fst hrespond] at hlin
    obtain ⟨l, n, hidx⟩ := indexWrite_eq c.race.store pend.entries
    refine ⟨_, h.set hc hret hlin (.inr ⟨_, rfl, .last ..⟩) (fun e v hs => ?_)
      (List.mem_append_right _ (List.mem_singleton_self _)) ?_⟩
    · exact hs.congr (by rw [hidx]) (by rw [hidx])
    · show Held _ _ _ c.race.holder
      rw [hholder]
      refine .indexed (Function.update_self ..) inflight.attended.index fun id' req' q hne hcall' => ?_
      rw [Function.update_of_ne hne] at hcall'
      exact others _ _ _ hne hcall'

/-- The lock is let go. -/
theorem Crossed.release (h : Crossed m c order) (hc : c.race.calls id = some (req, .indexed)) :
    ∃ order', Crossed m {c with race := c.race.advance id req .indexed} order' := by
  obtain ⟨-, htaken⟩ := h.calls _ _ _ hc
  have hheld := h.held
  rw [hheld.eq_of_holds hc rfl] at hheld
  cases hheld with
  | logged call => cases hc.symm.trans call
  | indexed call attended others =>
    refine ⟨order, h.set hc (fun heq => by cases heq) h.linear (.inl rfl) (fun _ _ hs => hs) htaken
      (.free attended fun id' req' q hcall => ?_)⟩
    rcases update_calls hcall with ⟨-, -, rfl⟩ | ⟨hid, hcall⟩
    · rfl
    · exact others _ _ _ hid hcall

/-- **A look of a `Get`.** It is answered if there is nothing to find; a locator is kept with the moment
it was found at. -/
theorem Crossed.look (h : Crossed m c order) {n : Nat} (hc : c.race.calls id = some (req, .looking n)) :
    ∃ order', Crossed m {c with race := c.race.advance id req (.looking n)} order' := by
  obtain ⟨-, hnew, key, rfl, hkey⟩ := h.calls _ _ _ hc
  obtain ⟨pend, hwf⟩ := h.held.wf
  have hret : Progress.looking n ≠ .returned := fun heq => by cases heq
  cases n with
  | zero => exact ⟨order, h.quietly hc hret rfl rfl hnew⟩
  | succ n =>
    have hmiss (hlook : c.race.store.lookup key = none) (hnone : c.race.store.liveMap key = none) :
        ∃ order', Crossed m {c with race := c.race.advance id (.get key) (.looking (n + 1))} order' := by
      simp only [Race.advance, hlook]
      refine h.answered hc hret rfl hnew ?_
      simp only [respond, hkey, hnone]
      rfl
    cases he : c.race.store.keys[key]? with
    | none => exact hmiss (by rw [Store.lookup, he]) (Store.liveMap_none he)
    | some e =>
      obtain ⟨r, hr⟩ := hwf.located key e he
      have hlive := hr.liveMap_eq he
      cases ht : e.tomb with
      | true =>
        refine hmiss (by simp [Store.lookup, he, ht]) ?_
        rw [hlive]
        exact payload_eq_none.mpr (hr.tomb.trans ht)
      | false =>
        have hlook : c.race.store.lookup key = some e := by simp [Store.lookup, he, ht]
        have hval : r.payload = some r.value := by
          rw [Record.payload, hr.tomb, ht]
          rfl
        simp only [Race.advance, hlook]
        exact ⟨order, h.quietly hc hret rfl rfl ⟨hnew, key, r.value, c.race.store.liveMap, rfl, hkey, hlive.trans hval,
          h.linear.moment id, .inl ⟨key, r, hr, hval⟩⟩⟩

/-- **The read behind it** settles the `Get` at its last look, or sends it back to look again. -/
theorem Crossed.read (h : Crossed m c order) {n : Nat} {e : Entry} (hc : c.race.calls id = some (req, .found n e)) :
    ∃ order', Crossed m {c with race := c.race.advance id req (.found n e)} order' := by
  obtain ⟨-, hnew, key, v, t, rfl, hkey, hval, hmoment, hfound⟩ := h.calls _ _ _ hc
  obtain ⟨pend, hwf⟩ := h.held.wf
  have hret : Progress.found n e ≠ .returned := fun heq => by cases heq
  rcases hfound.read hwf with hread | hread
  · have hans : mapCalls.step t (.get key) = (t, .value v) := by
      show respond t (.get key) = _
      simp only [respond, hkey, hval]
      rfl
    obtain ⟨order', he, hlin⟩ := h.linear.insert (x := ⟨id, .get key, .value v⟩) (h.called hc hret) hnew hmoment hans
    simp only [Race.advance, hread]
    exact ⟨order', h.set hc hret hlin (.inr ⟨_, rfl, he⟩) (fun _ _ hs => hs) (Stands.done_mem rfl he.mem)
      (h.held.set (Race.idle hc rfl) rfl)⟩
  · simp only [Race.advance, hread]
    exact ⟨order, h.quietly hc hret rfl rfl ⟨hnew, key, rfl, hkey⟩⟩

/-- What is known of a call after another event of the history. -/
theorem Stands.history {h h' : List (Occurrence Request Reply)} (hs : Stands m s h order id req p)
    (hm : ∀ t, Moment mapCalls m h order id t → Moment mapCalls m h' order id t) : Stands m s h' order id req p := by
  cases p with
  | found n e =>
    obtain ⟨hnew, key, v, t, hreq, hkey, hval, hmoment, hfound⟩ := hs
    exact ⟨hnew, key, v, t, hreq, hkey, hval, hm t hmoment, hfound⟩
  | called | waiting | logged _ | indexed | looking _ | done _ | returned => exact hs

/-- The return. One that gave up leaves the history that counts. -/
theorem Crossed.finish (h : Crossed m c order) {r : Reply} (hc : c.race.calls id = some (req, .done r)) :
    ∃ order', Crossed m {c with race := c.race.advance id req (.done r)} order' := by
  obtain ⟨-, hst⟩ := h.calls _ _ _ hc
  have hret : Progress.done r ≠ .returned := fun heq => by cases heq
  have hset : Crossed m {c with race := c.race.set id req .returned} order := h.quietly hc hret rfl rfl trivial
  -- the history that counts, and the moments of the others in it
  have hwoven : Woven (settled gaveUp (c.race.history ++ [.ret id r])) order ∧
      ∀ id' t, Moment mapCalls m (settled gaveUp c.race.history) order id' t →
        Moment mapCalls m (settled gaveUp (c.race.history ++ [.ret id r])) order id' t := by
    rw [Stands] at hst
    cases hr : gaveUp r with
    | true =>
      rw [if_pos hr] at hst
      rw [settled_void hr]
      exact ⟨h.linear.toWoven.drop hst, fun id' t hm => hm.sublist List.filter_sublist⟩
    | false =>
      rw [if_neg (by rw [hr]; exact Bool.false_ne_true)] at hst
      rw [settled_concat (e := .ret id r) (h.unanswered _ _ _ hc hret) fun id' =>
        by rw [Occurrence.voids, hr, Bool.and_false]]
      exact ⟨h.linear.toWoven.ret hst, fun id' t hm => hm.ret id r⟩
  refine ⟨order, ⟨hwoven.1, h.linear.run⟩, fun id' req' q hq => ?_, fun id' req' q hq hne o ho => ?_,
    fun id' hnone e he => ?_,
    hset.held⟩
  · obtain ⟨hin, hst⟩ := hset.calls id' req' q hq
    exact ⟨List.mem_append_left _ hin, hst.history (hwoven.2 id')⟩
  · rcases List.mem_append.mp ho with ho | ho
    · exact hset.unanswered id' req' q hq hne o ho
    · cases List.mem_singleton.mp ho
      rcases update_calls hq with ⟨-, -, rfl⟩ | ⟨hid, -⟩
      · exact hne rfl
      · exact hid rfl
  · rcases List.mem_append.mp he with he | he
    · exact hset.fresh id' hnone e he
    · rw [List.mem_singleton.mp he]
      exact (update_calls_none hnone).1.symm

/-- A new call. -/
theorem Crossed.invoke (h : Crossed m c order) (hc : c.race.calls id = none) (req : Request) :
    Crossed m {c with race := {c.race.set id req .called with history := c.race.history ++ [.call id req]}} order := by
  have hfresh := h.fresh id hc
  have hsettled : settled gaveUp (c.race.history ++ [.call id req]) = settled gaveUp c.race.history ++ [.call id req] :=
    settled_concat (fun o ho => hfresh _ ho rfl) fun _ => rfl
  refine ⟨?_, fun id' req' q hcall => ?_, fun id' req' q hcall hne o ho => ?_, fun id' hnone e he => ?_,
    h.held.set (fun _ _ hcall => by cases hc.symm.trans hcall) rfl⟩
  · show Linearized mapCalls m (settled gaveUp (c.race.history ++ [.call id req])) order c.race.store.liveMap
    rw [hsettled]
    exact ⟨h.linear.toWoven.call (fun e he => hfresh e ((settled_sublist gaveUp _).subset he)) req, h.linear.run⟩
  · rcases update_calls hcall with ⟨rfl, rfl, rfl⟩ | ⟨hid, hcall⟩
    · refine ⟨List.mem_append_right _ (List.mem_singleton_self _), fun hmem => ?_⟩
      obtain ⟨x, hx, hid⟩ := List.mem_map.mp hmem
      exact hfresh _ ((settled_sublist gaveUp _).subset (h.linear.called x hx)) hid
    · obtain ⟨hin, hst⟩ := h.calls id' req' q hcall
      refine ⟨List.mem_append_left _ hin, hst.history fun t hm => ?_⟩
      show Moment mapCalls m (settled gaveUp (c.race.history ++ [.call id req])) order id' t
      rw [hsettled]
      exact hm.call hid.symm req
  · rcases List.mem_append.mp ho with hold | hnew
    · rcases update_calls hcall with ⟨rfl, -, -⟩ | ⟨-, hcall⟩
      · exact hfresh (.ret id' o) hold rfl
      · exact h.unanswered id' req' q hcall hne o hold
    · cases List.mem_singleton.mp hnew
  · obtain ⟨hne, hnone⟩ := update_calls_none hnone
    rcases List.mem_append.mp he with he | he
    · exact h.fresh id' hnone e he
    · rw [List.mem_singleton.mp he]
      exact hne.symm

theorem Crossed.move (h : Crossed m c order) {i : Move} (hrule : Rechecked c.race i) :
    ∃ order', Crossed m (c.step (.call i)) order' := by
  show ∃ order', Crossed m {c with race := c.race.step i} order'
  cases i with
  | invoke id req =>
    rw [Race.step]
    cases hc : c.race.calls id with
    | none => exact ⟨order, h.invoke hc req⟩
    | some _ => exact ⟨order, h⟩
  | advance id =>
    rw [Rechecked] at hrule
    rw [Race.step]
    cases hc : c.race.calls id with
    | none => exact ⟨order, h⟩
    | some call =>
      obtain ⟨req, p⟩ := call
      rw [hc] at hrule
      cases p with
      | called => exact h.check hc
      | waiting =>
        simp only [Race.advance]
        split
        case h_1 op hfree hop => exact h.append hc hfree (hrule hfree) hop
        case h_2 => exact ⟨order, h⟩
      | logged entries => exact h.index hc
      | indexed => exact h.release hc
      | looking n => exact h.look hc
      | found n e => exact h.read hc
      | done r => exact h.finish hc
      | returned => exact ⟨order, h⟩

/-! ### One step of the merge -/

/-- The store changes behind the calls, and means the same to all of them. -/
theorem Crossed.restore {w : Working} (h : Crossed m c order) (hlive : w.store.liveMap = c.race.store.liveMap)
    (hsight : ∀ e v, Sighted c.race.store e v → Sighted w.store e v)
    (hheld : Held w.store w.merge c.race.calls c.race.holder) :
    Crossed m (.merged c.race w) order where
  linear := by
    show Linearized mapCalls m (settled gaveUp c.race.history) order w.store.liveMap
    rw [hlive]
    exact h.linear
  calls id req p hc := by
    obtain ⟨hin, hst⟩ := h.calls id req p hc
    refine ⟨hin, ?_⟩
    cases p with
    | found n e =>
      obtain ⟨hnew, key, v, t, hreq, hkey, hval, hmoment, hfound⟩ := hst
      exact ⟨hnew, key, v, t, hreq, hkey, hval, hmoment, hsight e v hfound⟩
    | called | waiting | logged _ | indexed | looking _ | done _ | returned => exact hst
  unanswered := h.unanswered
  fresh := h.fresh
  held := hheld

theorem Crossed.mergeStep (h : Crossed m c order) (hrule : Courteous ⟨c.race.store, c.merge⟩ .merge) :
    Crossed m (c.step .merge) order := by
  obtain ⟨hid, hlist⟩ := hrule
  obtain ⟨pend, hwf⟩ := h.held.wf
  obtain ⟨⟨s, holder, calls, history⟩, merge⟩ := c
  have hheld := h.held
  cases merge with
  | none =>
    cases holder with
    | some _ => exact h
    | none =>
      cases hheld with
      | free attended others =>
        obtain ⟨ha, hlive⟩ := attended.seal hid
        have hs : Sealed .committed s s.sealActive.1 s.sealActive.2 :=
          (attended.quiet rfl).sealActive attended.bounded hid
        exact h.restore hlive (fun e v hsee => hsee.create attended.wf hs.grown.1
          (bytes_sealActive (attended.quiet rfl) hid))
          (.free ha others)
  | some n =>
    have hgo {pend' : Pending} (attended : Attended pend' ⟨s, some n⟩)
        (hheld : Held (Working.merged (Merge.step s n)).store (Working.merged (Merge.step s n)).merge calls holder) :
        Crossed m (.merged ⟨s, holder, calls, history⟩ (Working.merged (Merge.step s n))) order := by
      obtain ⟨-, hstep⟩ := attended.advance hlist hid
      exact h.restore hstep.liveMap (fun e v hsee => hsee.stepped attended.wf hstep) hheld
    cases hheld with
    | free attended others => exact hgo attended (.free (attended.advance hlist hid).1 others)
    | logged call isOp inflight others =>
      exact hgo inflight.attended (.logged call isOp (inflight.advance hlist hid) others)
    | indexed call attended others => exact hgo attended (.indexed call (attended.advance hlist hid).1 others)

/-! ### Every run -/

theorem Crossed.step (h : ∃ order, Crossed m c order) {i : Motion} (hrule : Smooth c i) :
    ∃ order, Crossed m (c.step i) order := by
  obtain ⟨order, h⟩ := h
  cases i with
  | call move => exact h.move hrule
  | merge => exact ⟨order, h.mergeStep hrule⟩

end Crossing

/-- **Calls on a store that is being compacted are linearizable.** The store may be any that operations
and merges lead to, with a merge under way or not, and merges go on between the calls. Left out of the
history are the `Get`s that gave up. -/
theorem crossing_linearizable (opts : Options) (tasks : List Task) (motions : List Motion)
    (htasks : workingMachine.Meets Courteous ⟨Store.init opts, none⟩ tasks)
    (hrule : crossingMachine.Meets Smooth (.start (workingMachine.run ⟨Store.init opts, none⟩ tasks).1) motions) :
    Linearizable mapCalls (taskMachine.run Map.empty tasks).1
      (settled gaveUp (crossingMachine.run (.start (workingMachine.run ⟨Store.init opts, none⟩ tasks).1)
        motions).1.race.history) := by
  obtain ⟨⟨hattended, hlive⟩, -⟩ := workingRefinesMap.run ⟨attended_init opts, (quiet_init opts).2⟩ htasks
  rw [← hlive]
  obtain ⟨order, h⟩ := hrule.invariant (P := fun c => ∃ order, Crossing.Crossed _ c order)
    (fun _ _ hc hi => Crossing.Crossed.step hc hi) ⟨[], .start hattended⟩
  exact h.linear.linearizable

end Crossed

instance decidableSmooth (c : Crossing) : (i : Motion) → Decidable (Smooth c i)
  | .call move => inferInstanceAs (Decidable (Rechecked c.race move))
  | .merge => inferInstanceAs (Decidable (Courteous ⟨c.race.store, c.merge⟩ .merge))

/-- A `Get` has found its key when a whole `Compact` takes the file away. It looks again while a `Put` of
the key is logged, and reads after that has returned. -/
def outrun : List Motion :=
  [.call (.invoke 0 (.get [1])), .call (.advance 0), .call (.advance 0)] ++ List.replicate 20 .merge ++
    [.call (.invoke 1 (.put 0 [1] [8])), .call (.advance 1), .call (.advance 1), .call (.advance 0), .call (.advance 0),
      .call (.advance 1), .call (.advance 1), .call (.advance 1), .call (.advance 0), .call (.advance 0)]

theorem crossing_linearizable_outrun :
    Linearizable mapCalls (taskMachine.run Map.empty [.op (.put 0 [1] [7])]).1
      [.call 0 (.get [1]), .call 1 (.put 0 [1] [8]), .ret 1 (.wrote none), .ret 0 (.value [7])] := by
  have h := crossing_linearizable ⟨0, .never⟩ [.op (.put 0 [1] [7])] outrun (by decide +kernel) (by decide +kernel)
  refine Eq.mp (congrArg (Linearizable mapCalls _) ?_) h
  decide +kernel

end Racing

end Gokv.Engine
