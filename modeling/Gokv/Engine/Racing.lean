import Gokv.Base.Linear
import Gokv.Engine.Refinement

/-! `Put`, `Delete` and `Get` at the same time.

Every call goes from lock to lock. A `Put` takes the write lock, logs its record, indexes it under
the lock of the index, and lets go. A `Get` looks its key up under the read lock of the index and
reads the file afterwards. A `Delete` looks its key up first and takes the write lock later, when
the key may be gone: it does not look again, and deletes what is not there.

`race_linearizable`: as long as every `Delete` still finds its key when it comes to append, calls in
any interleaving are answered as a map would answer them one by one, each at some moment between its
call and its return. That moment is the index update of a write, and the lookup of a `Get` or of a
`Delete` that finds nothing. Otherwise two `Delete`s of one `Put` may both succeed (`deleted_twice`). -/
namespace Gokv.Engine.Racing
open Base Linear

/-! ### Calls -/

inductive Request where
  | put (now : Int64) (key value : Bytes)
  | delete (now : Int64) (key : Bytes)
  | get (key : Bytes)
  deriving DecidableEq

inductive Reply where
  | wrote (err : Option Error)
  | value (v : Bytes)
  | failed (err : Error)
  deriving DecidableEq

def Reply.ofRead : Except Error Bytes → Reply
  | .ok v => .value v
  | .error e => .failed e

/-- What a call means to a map. -/
def respond (m : Map) : Request → Map × Reply
  | .put now key value => ((Map.apply m (.put now key value)).1, .wrote (Map.apply m (.put now key value)).2)
  | .delete now key => ((Map.apply m (.delete now key)).1, .wrote (Map.apply m (.delete now key)).2)
  | .get key =>
    match Store.validateKey key with
    | some e => (m, .failed e)
    | none => (m, .ofRead (answer (m key)))

def mapCalls : Machine Request Map Reply := ⟨respond⟩

namespace Request

/-- What a call checks of its arguments before it takes a lock. -/
def invalid : Request → Option Error
  | .put _ key value =>
    match Store.validateKey key with
    | some e => some e
    | none => if maxValueSize < value.length then some .valueTooLong else none
  | .delete _ key | .get key => Store.validateKey key

def refused : Request → Error → Reply
  | .get _, e => .failed e
  | _, e => .wrote (some e)

/-- The write of a call, if it is one. -/
def op : Request → Option Op
  | .put now key value => some (.put now key value)
  | .delete now key => some (.delete now key)
  | .get _ => none

end Request

/-! ### Steps -/

/-- How far a call has come. -/
inductive Progress where
  | called
  /-- A write that waits for the write lock. -/
  | waiting
  /-- It holds the lock and its record is in the file. -/
  | logged (entries : List (Bytes × Entry))
  | indexed
  /-- A `Get` with so many attempts left. -/
  | looking (attempts : Nat)
  | found (attempts : Nat) (e : Entry)
  | done (r : Reply)
  | returned

/-- The call has the write lock. -/
def Progress.holds : Progress → Bool
  | .logged _ | .indexed => true
  | _ => false

structure Race where
  store : Store
  /-- Who has the write lock. -/
  holder : Option Nat
  calls : Nat → Option (Request × Progress)
  history : List (Occurrence Request Reply)

inductive Move where
  | invoke (id : Nat) (req : Request)
  | advance (id : Nat)
  deriving DecidableEq

def Race.start (s : Store) : Race := ⟨s, none, fun _ => none, []⟩

namespace Race
variable [Checksum]

def set (d : Race) (id : Nat) (req : Request) (p : Progress) : Race :=
  {d with calls := Function.update d.calls id (some (req, p))}

/-- A call that has the write lock to itself from here on. -/
def append (d : Race) (id : Nat) (req : Request) (op : Op) : Race :=
  if d.store.closed then d.set id req (.done (.wrote (some .closed)))
  else
    match d.store.startWrite op.records with
    | (s, .error e) => {d.set id req (.done (.wrote (some e))) with store := s}
    | (s, .ok entries) =>
      {d.set id req (.logged entries) with
        store := s
        holder := some id}

/-- The next step of a call. -/
def advance (d : Race) (id : Nat) (req : Request) : Progress → Race
  | .called =>
    match req.invalid with
    | some e => d.set id req (.done (req.refused e))
    | none =>
      match req with
      | .put _ _ _ => d.set id req .waiting
      | .delete _ key =>
        if d.store.isLive key then d.set id req .waiting else d.set id req (.done (.wrote (some .keyNotFound)))
      | .get _ => d.set id req (.looking Store.getAttempts)
  | .waiting =>
    match d.holder, req.op with
    | none, some op => d.append id req op
    | _, _ => d
  | .logged entries => {d.set id req .indexed with store := d.store.indexWrite entries}
  | .indexed => {d.set id req (.done (.wrote none)) with holder := none}
  | .looking 0 => d.set id req (.done (.failed .lostRace))
  | .looking (n + 1) =>
    match req with
    | .get key =>
      match d.store.lookup key with
      | none => d.set id req (.done (.failed .keyNotFound))
      | some e => d.set id req (.found n e)
    | _ => d
  | .found n e =>
    match d.store.readValue e with
    | .error .fileGone => d.set id req (.looking n)
    | r => d.set id req (.done (.ofRead r))
  | .done r => {d.set id req .returned with history := d.history ++ [.ret id r]}
  | .returned => d

def step (d : Race) : Move → Race
  | .invoke id req =>
    match d.calls id with
    | none => {d.set id req .called with history := d.history ++ [.call id req]}
    | some _ => d
  | .advance id =>
    match d.calls id with
    | none => d
    | some (req, p) => d.advance id req p

end Race

section Machine
variable [Checksum]

def raceMachine : Machine Move Race Unit := ⟨fun d m => (d.step m, ())⟩

end Machine

/-- A write that is about to append fits the widths, and a `Delete` still finds its key. -/
def Ready (s : Store) : Request → Prop
  | .put now key value => Fits s (.put now key value)
  | .delete now key => Fits s (.delete now key) ∧ s.isLive key = true
  | .get _ => True

instance decidableReady (s : Store) : (req : Request) → Decidable (Ready s req)
  | .put now key value => inferInstanceAs (Decidable (Fits s (.put now key value)))
  | .delete now key => inferInstanceAs (Decidable (Fits s (.delete now key) ∧ s.isLive key = true))
  | .get _ => isTrue trivial

/-- The call takes no lock, or is ready for it. -/
def Clear (s : Store) (holder : Option Nat) : Option (Request × Progress) → Prop
  | some (req, .waiting) => holder = none → Ready s req
  | _ => True

instance decidableClear (s : Store) (holder : Option Nat) : (c : Option (Request × Progress)) →
    Decidable (Clear s holder c)
  | some (req, .waiting) => inferInstanceAs (Decidable (holder = none → Ready s req))
  | some (_, .called) => isTrue trivial
  | some (_, .logged _) => isTrue trivial
  | some (_, .indexed) => isTrue trivial
  | some (_, .looking _) => isTrue trivial
  | some (_, .found _ _) => isTrue trivial
  | some (_, .done _) => isTrue trivial
  | some (_, .returned) => isTrue trivial
  | none => isTrue trivial

/-- The rule of a move: a write that takes the lock is ready. -/
def Rechecked (d : Race) : Move → Prop
  | .invoke _ _ => True
  | .advance id => Clear d.store d.holder (d.calls id)

instance decidableRechecked (d : Race) : (m : Move) → Decidable (Rechecked d m)
  | .invoke _ _ => isTrue trivial
  | .advance id => inferInstanceAs (Decidable (Clear d.store d.holder (d.calls id)))

section Raced
variable [Checksum]

/-! ### What is known of a call -/

/-- Where a call stands in the order, by how far it has come. -/
def Stands (s : Store) (order : List (Served Request Reply)) (id : Nat) (req : Request) : Progress → Prop
  | .called => id ∉ order.map Served.id
  | .waiting => id ∉ order.map Served.id ∧ ∃ op, req.op = some op ∧ op.Valid
  | .logged _ => id ∉ order.map Served.id
  | .indexed => ⟨id, req, .wrote none⟩ ∈ order
  | .looking n => id ∉ order.map Served.id ∧ 0 < n ∧ ∃ key, req = .get key ∧ Store.validateKey key = none
  | .found _ e => ∃ key r v, Located .committed s.dir.bytes key e r ∧ r.payload = some v ∧ ⟨id, req, .value v⟩ ∈ order
  | .done r => ⟨id, req, r⟩ ∈ order
  | .returned => True

/-- The store, by who has the write lock. -/
inductive Held (s : Store) (calls : Nat → Option (Request × Progress)) : Option Nat → Prop
  | free (quiet : Quiet s) (others : ∀ id req p, calls id = some (req, p) → p.holds = false) : Held s calls none
  | logged {id : Nat} {req : Request} {op : Op} {s₀ : Store} {pend : Pending}
      (call : calls id = some (req, .logged pend.entries)) (isOp : req.op = some op) (quiet : Quiet s₀)
      (writes : Writes s₀ op) (accepted : op.refusal s₀.liveMap = none)
      (log : Logged .committed [] s₀ s op.records pend)
      (others : ∀ id' req p, id' ≠ id → calls id' = some (req, p) → p.holds = false) : Held s calls (some id)
  | indexed {id : Nat} {req : Request} (call : calls id = some (req, .indexed)) (quiet : Quiet s)
      (others : ∀ id' req p, id' ≠ id → calls id' = some (req, p) → p.holds = false) : Held s calls (some id)

/-- A race up to now, with the order in which its calls took effect. -/
structure Raced (m : Map) (d : Race) (order : List (Served Request Reply)) : Prop where
  linear : Linearized mapCalls m d.history order d.store.liveMap
  calls : ∀ id req p, d.calls id = some (req, p) → .call id req ∈ d.history ∧ Stands d.store order id req p
  fresh : ∀ id, d.calls id = none → ∀ e ∈ d.history, e.id ≠ id
  held : Held d.store d.calls d.holder

variable {m : Map} {d : Race} {order order' : List (Served Request Reply)} {id : Nat} {req : Request} {p p' : Progress}
  {s s' : Store} {calls : Nat → Option (Request × Progress)} {holder : Option Nat}

theorem Raced.start (h : Quiet s) : Raced s.liveMap (.start s) [] :=
  ⟨.start mapCalls s.liveMap, fun _ _ _ hc => (by cases hc), fun _ _ _ he => absurd he List.not_mem_nil,
    .free h fun _ _ _ hc => (by cases hc)⟩

theorem Held.wf (h : Held s calls holder) : ∃ pend, Wf .committed s pend := by
  cases h with
  | free quiet => exact ⟨_, quiet.inv.toWf⟩
  | logged _ _ _ _ _ log => exact ⟨_, log.inv.toWf⟩
  | indexed _ quiet => exact ⟨_, quiet.inv.toWf⟩

omit [Checksum] in
/-- A call after one of them was changed. -/
theorem update_calls {id' : Nat} {req' : Request} {q : Progress}
    (h : Function.update calls id (some (req, p)) id' = some (req', q)) :
    id' = id ∧ req' = req ∧ q = p ∨ id' ≠ id ∧ calls id' = some (req', q) := by
  by_cases hid : id' = id
  · subst hid
    rw [Function.update_self, Option.some.injEq, Prod.mk.injEq] at h
    exact .inl ⟨rfl, h.1.symm, h.2.symm⟩
  · rw [Function.update_of_ne hid] at h
    exact .inr ⟨hid, h⟩

omit [Checksum] in
theorem update_calls_none {id' : Nat} (h : Function.update calls id (some (req, p)) id' = none) :
    id' ≠ id ∧ calls id' = none := by
  have hid : id' ≠ id := by
    rintro rfl
    rw [Function.update_self] at h
    cases h
  rw [Function.update_of_ne hid] at h
  exact ⟨hid, h⟩

/-- A call without the lock goes on, or a new one begins. -/
theorem Held.set (h : Held s calls holder) (hidle : ∀ req p, calls id = some (req, p) → p.holds = false)
    (hp : p.holds = false) : Held s (Function.update calls id (some (req, p))) holder := by
  have hkeep {id' : Nat} {req' : Request} {q : Progress} (hcall : calls id' = some (req', q)) (hq : q.holds = true) :
      Function.update calls id (some (req, p)) id' = some (req', q) := by
    rw [Function.update_of_ne, hcall]
    rintro rfl
    rw [hidle req' q hcall] at hq
    cases hq
  cases h with
  | free quiet others =>
    refine .free quiet fun id' req' q hcall => ?_
    rcases update_calls hcall with ⟨-, -, rfl⟩ | ⟨-, hcall⟩
    · exact hp
    · exact others _ _ _ hcall
  | logged call isOp quiet writes accepted log others =>
    refine .logged (hkeep call rfl) isOp quiet writes accepted log fun id' req' q hne hcall => ?_
    rcases update_calls hcall with ⟨-, -, rfl⟩ | ⟨-, hcall⟩
    · exact hp
    · exact others _ _ _ hne hcall
  | indexed call quiet others =>
    refine .indexed (hkeep call rfl) quiet fun id' req' q hne hcall => ?_
    rcases update_calls hcall with ⟨-, -, rfl⟩ | ⟨-, hcall⟩
    · exact hp
    · exact others _ _ _ hne hcall

/-- The order is the same, or the call `id` has joined it. -/
def Joined (id : Nat) (order order' : List (Served Request Reply)) : Prop :=
  order' = order ∨ ∃ x, x.id = id ∧ order' = order ++ [x]

omit [Checksum] in
theorem Joined.mem {x : Served Request Reply} (h : Joined id order order') (hx : x ∈ order) : x ∈ order' := by
  rcases h with rfl | ⟨y, -, rfl⟩
  · exact hx
  · exact List.mem_append_left _ hx

omit [Checksum] in
theorem Joined.notMem {id' : Nat} (h : Joined id order order') (hne : id' ≠ id) (hx : id' ∉ order.map Served.id) :
    id' ∉ order'.map Served.id := by
  rcases h with rfl | ⟨y, hy, rfl⟩
  · exact hx
  · rw [List.map_append, List.mem_append, not_or]
    refine ⟨hx, fun hmem => hne ?_⟩
    rw [List.mem_singleton.mp hmem, hy]

/-- What is known of the other calls stays known while the files only grow. -/
theorem Stands.other {id' : Nat} (h : Stands s order id' req p) (hne : id' ≠ id) (hjoin : Joined id order order')
    (hgrow : ∀ k e r, Located .committed s.dir.bytes k e r → Located .committed s'.dir.bytes k e r) :
    Stands s' order' id' req p := by
  cases p with
  | called | logged _ => exact hjoin.notMem hne h
  | waiting => exact ⟨hjoin.notMem hne h.1, h.2⟩
  | looking n => exact ⟨hjoin.notMem hne h.1, h.2⟩
  | indexed | done _ => exact hjoin.mem h
  | found n e =>
    obtain ⟨key, r, v, hloc, hval, hmem⟩ := h
    exact ⟨key, r, v, hgrow key e r hloc, hval, hjoin.mem hmem⟩
  | returned => trivial

/-! ### One move -/

/-- **A step of a call**, by what it does to the store, the lock and the order. -/
theorem Raced.set (h : Raced m d order) (hc : d.calls id = some (req, p))
    (hlin : Linearized mapCalls m d.history order' s'.liveMap) (hjoin : Joined id order order')
    (hgrow : ∀ k e r, Located .committed d.store.dir.bytes k e r → Located .committed s'.dir.bytes k e r)
    (hstand : Stands s' order' id req p') (hheld : Held s' (Function.update d.calls id (some (req, p'))) holder) :
    Raced m {d.set id req p' with store := s', holder := holder} order' where
  linear := hlin
  calls id' req' q hcall := by
    rcases update_calls hcall with ⟨rfl, rfl, rfl⟩ | ⟨hid, hcall⟩
    · exact ⟨(h.calls _ _ _ hc).1, hstand⟩
    · obtain ⟨hin, hst⟩ := h.calls id' req' q hcall
      exact ⟨hin, hst.other hid hjoin hgrow⟩
  fresh id' hnone := h.fresh id' (update_calls_none hnone).2
  held := hheld

omit [Checksum] in
theorem Race.idle (h : d.calls id = some (req, p)) (hp : p.holds = false) :
    ∀ req p, d.calls id = some (req, p) → p.holds = false := by
  intro req' q hq
  rw [h, Option.some.injEq, Prod.mk.injEq] at hq
  rwa [← hq.2]

/-- A step that changes nothing but how far the call has come. -/
theorem Raced.quietly (h : Raced m d order) (hc : d.calls id = some (req, p)) (hp : p.holds = false)
    (hp' : p'.holds = false)
    (hstand : Stands d.store order id req p') : Raced m (d.set id req p') order :=
  h.set hc h.linear (.inl rfl) (fun _ _ _ hl => hl) hstand (h.held.set (Race.idle hc hp) hp')

/-- A step at which the call takes effect and leaves the map as it is. -/
theorem Raced.answered (h : Raced m d order) (hc : d.calls id = some (req, p)) (hp : p.holds = false)
    (hp' : p'.holds = false)
    (hnew : id ∉ order.map Served.id) {r : Reply} (hans : respond d.store.liveMap req = (d.store.liveMap, r))
    (hstand : Stands d.store (order ++ [⟨id, req, r⟩]) id req p') : ∃ order', Raced m (d.set id req p') order' := by
  have hlin := h.linear.takeEffect (x := ⟨id, req, r⟩) (h.calls _ _ _ hc).1 hnew (congrArg Prod.snd hans)
  rw [show (mapCalls.step d.store.liveMap req).1 = d.store.liveMap from congrArg Prod.fst hans] at hlin
  exact ⟨_, h.set hc hlin (.inr ⟨_, rfl, rfl⟩) (fun _ _ _ hl => hl) hstand (h.held.set (Race.idle hc hp) hp')⟩

omit [Checksum] in
theorem respond_op {op : Op} (h : req.op = some op) (m : Map) :
    respond m req = ((Map.apply m op).1, .wrote (Map.apply m op).2) := by
  cases req <;> cases h <;> rfl

omit [Checksum] in
theorem respond_invalid {e : Error} (h : req.invalid = some e) (m : Map) : respond m req = (m, req.refused e) := by
  cases req with
  | put now key value =>
    have hr : Op.refusal m (.put now key value) = some e := h
    simp only [respond, Map.apply, hr, Request.refused]
  | delete now key =>
    have hk : Store.validateKey key = some e := h
    have hr : Op.refusal m (.delete now key) = some e := by rw [Op.refusal, hk]
    simp only [respond, Map.apply, hr, Request.refused]
  | get key =>
    have hk : Store.validateKey key = some e := h
    simp only [respond, hk, Request.refused]

/-- A write that is ready is accepted by the map. -/
theorem Ready.accepted {pend : Pending} (hwf : Wf .committed s pend) {op : Op} (hop : req.op = some op)
    (hvalid : op.Valid)
    (h : Ready s req) : Fits s op ∧ op.refusal s.liveMap = none := by
  cases req with
  | put now key value =>
    cases hop
    refine ⟨h, ?_⟩
    rw [Op.refusal, hvalid.1]
    exact if_neg (Nat.not_lt.mpr hvalid.2)
  | delete now key =>
    cases hop
    refine ⟨h.1, ?_⟩
    have hlive := h.2
    rw [hwf.isLive_eq] at hlive
    have hkey : Store.validateKey key = none := hvalid
    rw [Op.refusal, hkey]
    exact if_neg (by rw [Option.isNone_iff_eq_none, ← ne_eq, Option.ne_none_iff_isSome]; exact hlive)
  | get key => cases hop

/-- The first step: the arguments, and for a `Delete` the liveness check. -/
theorem Raced.check (h : Raced m d order) (hc : d.calls id = some (req, .called)) :
    ∃ order', Raced m (d.advance id req .called) order' := by
  obtain ⟨-, hnew⟩ := h.calls _ _ _ hc
  obtain ⟨pend, hwf⟩ := h.held.wf
  cases hinv : req.invalid with
  | some e =>
    simp only [Race.advance, hinv]
    exact h.answered hc rfl rfl hnew (respond_invalid hinv _) (List.mem_append_right _ (List.mem_singleton_self _))
  | none =>
    cases req with
    | put now key value =>
      have hvalid : (Op.put now key value).Valid := by
        have hr : Op.refusal d.store.liveMap (.put now key value) = none := hinv
        exact Op.records_ne_nil_valid trivial hr (List.cons_ne_nil _ _)
      simp only [Race.advance, hinv]
      exact ⟨order, h.quietly hc rfl rfl ⟨hnew, _, rfl, hvalid⟩⟩
    | delete now key =>
      have hkey : Store.validateKey key = none := hinv
      simp only [Race.advance, hinv]
      by_cases hlive : d.store.isLive key = true
      · rw [if_pos hlive]
        exact ⟨order, h.quietly hc rfl rfl ⟨hnew, _, rfl, hkey⟩⟩
      · rw [if_neg hlive]
        have hnone : (d.store.liveMap key).isNone = true := by
          rw [hwf.isLive_eq] at hlive
          rw [Option.isNone_iff_eq_none]
          exact Option.not_isSome_iff_eq_none.mp hlive
        have hr : Op.refusal d.store.liveMap (.delete now key) = some .keyNotFound := by
          rw [Op.refusal, hkey]
          exact if_pos hnone
        refine h.answered hc rfl rfl hnew ?_ (List.mem_append_right _ (List.mem_singleton_self _))
        simp only [respond, Map.apply, hr]
    | get key =>
      simp only [Race.advance, hinv]
      exact ⟨order, h.quietly hc rfl rfl ⟨hnew, by decide, key, rfl, hinv⟩⟩

/-- **The append**, under the write lock. -/
theorem Raced.append (h : Raced m d order) (hc : d.calls id = some (req, .waiting)) (hfree : d.holder = none)
    (hready : Ready d.store req) {op : Op} (hop : req.op = some op) :
    ∃ order', Raced m (d.append id req op) order' := by
  obtain ⟨-, hnew, op', hop', hvalid⟩ := h.calls _ _ _ hc
  obtain rfl : op' = op := Option.some.inj (hop'.symm.trans hop)
  have hheld := h.held
  rw [hfree] at hheld
  cases hheld with
  | free quiet others =>
    obtain ⟨hfits, haccepted⟩ := hready.accepted quiet.inv.toWf hop hvalid
    have hw := hvalid.writes hfits
    obtain ⟨s', pend, hstart, hl⟩ :=
      quiet.inv.startWrite quiet.bounded hw.sized hw.group hw.addressable hw.seq hw.id
    have hopen : ¬ d.store.closed = true := by
      rw [quiet.inv.running]
      exact Bool.false_ne_true
    have hwf : Wf .committed {d.store with seq := d.store.seq + UInt64.ofNat op'.records.length} [] :=
      quiet.inv.toWf.same ⟨rfl, rfl, rfl, rfl, rfl, rfl, rfl⟩ rfl
    have hwhole : Reading.committed.Whole (Store.assignSeqs d.store.seq op'.records) :=
      (isGroup_assignSeqs hw.group).whole
    rw [Race.append, if_neg hopen, hstart]
    refine ⟨order, h.set hc ?_ (.inl rfl) (fun k e r hr => ?_) hnew ?_⟩
    · rw [hl.liveMap]
      exact h.linear
    · exact hl.appended.located hwf (sized_assignSeqs hw.sized) hwhole hr
    · refine .logged (Function.update_self ..) hop quiet hw haccepted hl fun id' req' q hne hcall => ?_
      rw [Function.update_of_ne hne] at hcall
      exact others _ _ _ hcall

/-- The one call that has the lock. -/
theorem Held.eq_of_holds (h : Held s calls holder) (hc : calls id = some (req, p)) (hp : p.holds = true) :
    holder = some id := by
  have hcontra {q : Progress} (hq : q = p) (hno : q.holds = false) : False := by
    rw [hq, hp] at hno
    cases hno
  cases h with
  | free _ others => exact (hcontra rfl (others _ _ _ hc)).elim
  | logged _ _ _ _ _ _ others | indexed _ _ others =>
    by_contra hne
    exact hcontra rfl (others id req p (fun heq => hne (congrArg some heq.symm)) hc)

/-- **The index update**, where a write takes effect. -/
theorem Raced.index (h : Raced m d order) {entries : List (Bytes × Entry)}
    (hc : d.calls id = some (req, .logged entries)) :
    ∃ order', Raced m (d.advance id req (.logged entries)) order' := by
  obtain ⟨hcall, hnew⟩ := h.calls _ _ _ hc
  have hheld := h.held
  have hholder := hheld.eq_of_holds hc rfl
  rw [hholder] at hheld
  cases hheld with
  | indexed call => cases hc.symm.trans call
  | @logged _ req' op s₀ pend call isOp quiet writes accepted log others =>
    obtain ⟨rfl, hentries⟩ := Prod.mk.inj (Option.some.inj (hc.symm.trans call))
    cases hentries
    have hwritten := log.written quiet.bounded quiet.inv.toWf
    have hquiet : Quiet (d.store.indexWrite pend.entries) := by
      refine ⟨hwritten.inv, hwritten.bounded, ?_⟩
      rw [Marked, hwritten.appended.manifest, hwritten.appended.mergeSeq]
      exact quiet.marked
    have happly : Map.apply d.store.liveMap op = ((d.store.indexWrite pend.entries).liveMap, none) := by
      rw [Map.apply, log.liveMap, accepted, hwritten.liveMap, writes.map]
    have hlin := h.linear.takeEffect (x := ⟨id, req, .wrote none⟩) hcall hnew
      (show (respond d.store.liveMap req).2 = _ by rw [respond_op isOp, happly])
    rw [show (mapCalls.step d.store.liveMap req).1 = (d.store.indexWrite pend.entries).liveMap by
      show (respond d.store.liveMap req).1 = _
      rw [respond_op isOp, happly]] at hlin
    obtain ⟨l, n, hidx⟩ := indexWrite_eq d.store pend.entries
    have hdir : (d.store.indexWrite pend.entries).dir = d.store.dir := by rw [hidx]
    refine ⟨_, h.set hc hlin (.inr ⟨_, rfl, rfl⟩) (fun k e r hr => ?_)
      (List.mem_append_right _ (List.mem_singleton_self _)) ?_⟩
    · rwa [hdir]
    · show Held _ _ d.holder
      rw [hholder]
      refine .indexed (Function.update_self ..) hquiet fun id' req' q hne hcall' => ?_
      rw [Function.update_of_ne hne] at hcall'
      exact others _ _ _ hne hcall'

/-- The lock is let go. -/
theorem Raced.release (h : Raced m d order) (hc : d.calls id = some (req, .indexed)) :
    ∃ order', Raced m (d.advance id req .indexed) order' := by
  obtain ⟨-, htaken⟩ := h.calls _ _ _ hc
  have hheld := h.held
  rw [hheld.eq_of_holds hc rfl] at hheld
  cases hheld with
  | logged call => cases hc.symm.trans call
  | indexed call quiet others =>
    refine ⟨order, h.set hc h.linear (.inl rfl) (fun _ _ _ hl => hl) htaken (.free quiet fun id' req' q hcall => ?_)⟩
    rcases update_calls hcall with ⟨-, -, rfl⟩ | ⟨hid, hcall⟩
    · rfl
    · exact others _ _ _ hid hcall

/-- **The lookup of a `Get`**, where it takes effect. -/
theorem Raced.look (h : Raced m d order) {n : Nat} (hc : d.calls id = some (req, .looking n)) :
    ∃ order', Raced m (d.advance id req (.looking n)) order' := by
  obtain ⟨-, hnew, hpos, key, rfl, hkey⟩ := h.calls _ _ _ hc
  obtain ⟨pend, hwf⟩ := h.held.wf
  obtain ⟨n, rfl⟩ : ∃ k, n = k + 1 := ⟨n - 1, by omega⟩
  have hrespond : respond d.store.liveMap (.get key) = (d.store.liveMap, .ofRead (answer (d.store.liveMap key))) := by
    simp only [respond, hkey]
  have hmiss (hlook : d.store.lookup key = none) (hnone : d.store.liveMap key = none) :
      ∃ order', Raced m (d.advance id (.get key) (.looking (n + 1))) order' := by
    rw [hnone] at hrespond
    simp only [Race.advance, hlook]
    exact h.answered hc rfl rfl hnew hrespond (List.mem_append_right _ (List.mem_singleton_self _))
  cases he : d.store.keys[key]? with
  | none => exact hmiss (by rw [Store.lookup, he]) (Store.liveMap_none he)
  | some e =>
    obtain ⟨r, hr⟩ := hwf.located key e he
    have hlive := hr.liveMap_eq he
    cases ht : e.tomb with
    | true =>
      refine hmiss (by simp [Store.lookup, he, ht]) ?_
      rw [hlive]
      exact payload_eq_none.mpr (hr.tomb.trans ht)
    | false =>
      have hlook : d.store.lookup key = some e := by simp [Store.lookup, he, ht]
      have hval : r.payload = some r.value := by
        rw [Record.payload, hr.tomb, ht]
        rfl
      rw [hlive, hval] at hrespond
      simp only [Race.advance, hlook]
      exact h.answered hc rfl rfl hnew hrespond
        ⟨key, r, r.value, hr, hval, List.mem_append_right _ (List.mem_singleton_self _)⟩

/-- The read behind it: the file has only grown. -/
theorem Raced.read (h : Raced m d order) {n : Nat} {e : Entry} (hc : d.calls id = some (req, .found n e)) :
    ∃ order', Raced m (d.advance id req (.found n e)) order' := by
  obtain ⟨-, key, r, v, hloc, hval, hmem⟩ := h.calls _ _ _ hc
  obtain ⟨pend, hwf⟩ := h.held.wf
  have hread : d.store.readValue e = .ok v := by rw [hloc.readValue hwf.files, hval, answer]
  simp only [Race.advance, hread]
  exact ⟨order, h.quietly hc rfl rfl hmem⟩

/-- The return. -/
theorem Raced.finish (h : Raced m d order) {r : Reply} (hc : d.calls id = some (req, .done r)) :
    ∃ order', Raced m (d.advance id req (.done r)) order' := by
  obtain ⟨hcall, hmem⟩ := h.calls _ _ _ hc
  have hset : Raced m (d.set id req .returned) order := h.quietly hc rfl rfl trivial
  refine ⟨order, ⟨h.linear.toWoven.ret hmem, h.linear.run⟩, fun id' req' q hq => ?_, fun id' hnone e he => ?_,
    hset.held⟩
  · obtain ⟨hin, hst⟩ := hset.calls id' req' q hq
    exact ⟨List.mem_append_left _ hin, hst⟩
  · rcases List.mem_append.mp he with he | he
    · exact hset.fresh id' hnone e he
    · rw [List.mem_singleton.mp he]
      exact (update_calls_none hnone).1.symm

/-- A new call. -/
theorem Raced.invoke (h : Raced m d order) (hc : d.calls id = none) (req : Request) :
    Raced m {d.set id req .called with history := d.history ++ [.call id req]} order where
  linear := ⟨h.linear.toWoven.call (h.fresh id hc) req, h.linear.run⟩
  calls id' req' q hcall := by
    rcases update_calls hcall with ⟨rfl, rfl, rfl⟩ | ⟨-, hcall⟩
    · refine ⟨List.mem_append_right _ (List.mem_singleton_self _), fun hmem => ?_⟩
      obtain ⟨x, hx, hid⟩ := List.mem_map.mp hmem
      exact h.fresh id' hc _ (h.linear.called x hx) hid
    · obtain ⟨hin, hst⟩ := h.calls id' req' q hcall
      exact ⟨List.mem_append_left _ hin, hst⟩
  fresh id' hnone e he := by
    obtain ⟨hne, hnone⟩ := update_calls_none hnone
    rcases List.mem_append.mp he with he | he
    · exact h.fresh id' hnone e he
    · rw [List.mem_singleton.mp he]
      exact hne.symm
  held := h.held.set (fun _ _ hcall => by cases hc.symm.trans hcall) rfl

/-- **A move** that meets the rule keeps an order. -/
theorem Raced.step (h : ∃ order, Raced m d order) {i : Move} (hrule : Rechecked d i) :
    ∃ order, Raced m (d.step i) order := by
  obtain ⟨order, h⟩ := h
  cases i with
  | invoke id req =>
    rw [Race.step]
    cases hc : d.calls id with
    | none => exact ⟨order, h.invoke hc req⟩
    | some _ => exact ⟨order, h⟩
  | advance id =>
    rw [Rechecked] at hrule
    rw [Race.step]
    cases hc : d.calls id with
    | none => exact ⟨order, h⟩
    | some c =>
      obtain ⟨req, p⟩ := c
      rw [hc] at hrule
      cases p with
      | called => exact h.check hc
      | waiting =>
        show ∃ order, Raced m (match d.holder, req.op with | none, some op => d.append id req op | _, _ => d) order
        cases hfree : d.holder with
        | some other => exact ⟨order, h⟩
        | none =>
          cases hop : req.op with
          | none => exact ⟨order, h⟩
          | some op => exact h.append hc hfree (hrule hfree) hop
      | logged entries => exact h.index hc
      | indexed => exact h.release hc
      | looking n => exact h.look hc
      | found n e => exact h.read hc
      | done r => exact h.finish hc
      | returned => exact ⟨order, h⟩

/-- A run keeps an order. -/
theorem raced_run (hs : Quiet s) {moves : List Move} (h : raceMachine.Meets Rechecked (.start s) moves) :
    ∃ order, Raced s.liveMap (raceMachine.run (.start s) moves).1 order :=
  h.invariant (P := fun d => ∃ order, Raced s.liveMap d order) (fun _ _ hd hrule => Raced.step hd hrule) ⟨[], .start hs⟩

end Raced

/-! ### Deletes after a put -/

/-- The history of a `Put` and, after its return, of `Delete`s of its key that have all returned. -/
structure Contest (h : List (Occurrence Request Reply)) (a : Nat) (key : Bytes)
    (rest : List (Occurrence Request Reply)) : Prop where
  put : ∃ now value, h = .call a (.put now key value) :: .ret a (.wrote none) :: rest
  others : ∀ e ∈ rest, e.id ≠ a
  deletes : ∀ id req, .call id req ∈ rest → ∃ now, req = .delete now key
  returned : ∀ id req, .call id req ∈ rest → ∃ r, .ret id r ∈ rest
  begun : ∃ id req, .call id req ∈ rest

/-- A map answers a `Delete` of an absent key with the same error each time. -/
theorem run_absent {m : Map} {key : Bytes} (hkey : Store.validateKey key = none) (hm : m key = none)
    {reqs : List Request}
    (h : ∀ req ∈ reqs, ∃ now, req = .delete now key) :
    ∀ r ∈ (mapCalls.run m reqs).2, r = .wrote (some .keyNotFound) := by
  induction reqs with
  | nil => exact fun r hr => absurd hr List.not_mem_nil
  | cons req rest ih =>
    rw [List.forall_mem_cons] at h
    obtain ⟨⟨now, rfl⟩, hrest⟩ := h
    have hstep : mapCalls.step m (.delete now key) = (m, .wrote (some .keyNotFound)) := by
      have hr : Op.refusal m (.delete now key) = some .keyNotFound := by
        rw [Op.refusal, hkey, hm]
        rfl
      show respond m (.delete now key) = _
      simp only [respond, Map.apply, hr]
    intro r hr
    rw [Machine.run, hstep] at hr
    rcases List.mem_cons.mp hr with rfl | hr
    · rfl
    · exact ih hrest r hr

/-- One that is present is deleted by the first of them. -/
theorem run_present {m : Map} {key v : Bytes} (hkey : Store.validateKey key = none) (hm : m key = some v) (now : Int64)
    {rest : List Request} (h : ∀ req ∈ rest, ∃ now, req = .delete now key) :
    ∃ outs, (mapCalls.run m (.delete now key :: rest)).2 = .wrote none :: outs ∧
      ∀ r ∈ outs, r = .wrote (some .keyNotFound) := by
  have hr : Op.refusal m (.delete now key) = none := by
    rw [Op.refusal, hkey, hm]
    rfl
  have hstep : mapCalls.step m (.delete now key) = (Function.update m key none, .wrote none) := by
    show respond m (.delete now key) = _
    simp only [respond, Map.apply, hr]
    rfl
  refine ⟨(mapCalls.run (Function.update m key none) rest).2, ?_, run_absent hkey (Function.update_self ..) h⟩
  rw [Machine.run, hstep]

/-- **Of all the deletes of one put exactly one succeeds** in a linearizable history. -/
theorem Contest.one {m : Map} {h rest : List (Occurrence Request Reply)} {a : Nat} {key : Bytes}
    (hc : Contest h a key rest)
    (hl : Linearizable mapCalls m h) : ∃! id, .ret id (.wrote none) ∈ rest := by
  obtain ⟨order, hw, hrun⟩ := hl
  obtain ⟨now, value, rfl⟩ := hc.put
  -- the put comes first
  obtain ⟨x, hx, hid, hout⟩ := hw.returned a (.wrote none) (List.mem_cons_of_mem _ List.mem_cons_self)
  have hrest {y : Served Request Reply} (hy : y ∈ order) (hne : y.id ≠ a) : .call y.id y.input ∈ rest := by
    rcases List.mem_cons.mp (hw.called y hy) with heq | hmem
    · injection heq with heq
      exact absurd heq hne
    · exact (List.mem_cons.mp hmem).resolve_left fun heq => by cases heq
  have hinput : x.input = .put now key value := by
    rcases List.mem_cons.mp (hw.called x hx) with heq | hmem
    · injection heq
    · rcases List.mem_cons.mp hmem with heq | hmem
      · cases heq
      · exact absurd hid (hc.others _ hmem)
  obtain ⟨dels, rfl, hdels⟩ := hw.head hx fun y hy hne => by
    rw [hid] at hne ⊢
    exact ⟨.wrote none, y.input, (List.Sublist.cons_cons _ (List.singleton_sublist.mpr (hrest hy hne))).cons _⟩
  rw [hid] at hdels
  have hmem {y : Served Request Reply} (hy : y ∈ dels) : .call y.id y.input ∈ rest :=
    hrest (List.mem_cons_of_mem _ hy) (hdels y hy)
  -- which a map answers by putting the value in
  rw [List.map_cons, List.map_cons, hinput, hout, Machine.run] at hrun
  obtain ⟨hput, hrun⟩ := List.cons.inj hrun
  have hrefusal : Op.refusal m (.put now key value) = none := by
    have hput : Reply.wrote (Map.apply m (.put now key value)).2 = .wrote none := hput
    injection hput with hput
    rw [Map.apply] at hput
    cases hr : Op.refusal m (.put now key value) with
    | none => rfl
    | some e =>
      rw [hr] at hput
      cases hput
  have hvalid : (Op.put now key value).Valid := Op.records_ne_nil_valid trivial hrefusal (List.cons_ne_nil _ _)
  have hkey : Store.validateKey key = none := hvalid.1
  have hstate : (mapCalls.step m (.put now key value)).1 = Function.update m key (some value) := by
    show (respond m (.put now key value)).1 = _
    simp only [respond, Map.apply, hrefusal]
    rfl
  rw [hstate] at hrun
  -- a delete that returned is one of the order, with the answer it has there
  have hreturn {id : Nat} {r : Reply} (hr : .ret id r ∈ rest) : ∃ y ∈ dels, y.id = id ∧ y.output = r := by
    obtain ⟨y, hy, hyid, hyout⟩ := hw.returned id r (List.mem_cons_of_mem _ (List.mem_cons_of_mem _ hr))
    rcases List.mem_cons.mp hy with rfl | hy
    · exact absurd (hyid.symm.trans hid) (hc.others _ hr)
    · exact ⟨y, hy, hyid, hyout⟩
  cases dels with
  | nil =>
    obtain ⟨id, req, hcall⟩ := hc.begun
    obtain ⟨r, hr⟩ := hc.returned id req hcall
    obtain ⟨y, hy, -⟩ := hreturn hr
    exact absurd hy List.not_mem_nil
  | cons d dels =>
    obtain ⟨t, hdelete⟩ := hc.deletes _ _ (hmem List.mem_cons_self)
    have hothers : ∀ req ∈ dels.map Served.input, ∃ now, req = .delete now key := by
      intro req hreq
      obtain ⟨y, hy, rfl⟩ := List.mem_map.mp hreq
      exact hc.deletes _ _ (hmem (List.mem_cons_of_mem _ hy))
    rw [List.map_cons, hdelete, List.map_cons] at hrun
    obtain ⟨outs, houts, hlater⟩ := run_present hkey (Function.update_self key (some value) m) t hothers
    rw [houts] at hrun
    obtain ⟨hfirst, hlast⟩ := List.cons.inj hrun
    obtain ⟨r, hr⟩ := hc.returned _ _ (hmem List.mem_cons_self)
    obtain ⟨y, hy, hyid, hyout⟩ := hreturn hr
    have hyd : y = d := hw.eq_of_id (List.mem_cons_of_mem _ hy) (List.mem_cons_of_mem _ List.mem_cons_self) hyid
    refine ⟨d.id, ?_, fun id' hid' => ?_⟩
    · rw [hyd, ← hfirst] at hyout
      rwa [← hyout] at hr
    · obtain ⟨z, hz, hzid, hzout⟩ := hreturn hid'
      rcases List.mem_cons.mp hz with rfl | hz
      · exact hzid.symm
      · have hin : z.output ∈ outs := hlast ▸ List.mem_map_of_mem hz
        rw [hlater _ hin] at hzout
        cases hzout

/-! ### Every run -/

section Run
variable [Checksum]

/-- **Calls on a store are linearizable** as long as every write that comes to append fits, and
every `Delete` that does still finds its key. The store may be any that operations lead to. In
particular exactly one of the deletes after a put succeeds. -/
theorem race_linearizable (opts : Options) (ops : List Op) (moves : List Move)
    (hfits : storeMachine.Meets Fits (Store.init opts) ops)
    (hrule : raceMachine.Meets Rechecked (.start (storeMachine.run (Store.init opts) ops).1) moves) :
    Linearizable mapCalls (storeMachine.run (Store.init opts) ops).1.liveMap
        (raceMachine.run (.start (storeMachine.run (Store.init opts) ops).1) moves).1.history ∧
      ∀ a key rest,
        Contest (raceMachine.run (.start (storeMachine.run (Store.init opts) ops).1) moves).1.history a key rest →
          ∃! id, .ret id (.wrote none) ∈ rest := by
  obtain ⟨⟨hquiet, -⟩, -⟩ := storeRefinesMap.run (quiet_init opts) hfits
  obtain ⟨order, h⟩ := raced_run hquiet hrule
  have hl := h.linear.linearizable
  exact ⟨hl, fun a key rest hc => hc.one hl⟩

end Run

/-- A put, and a delete while it is being written. -/
def quietMoves : List Move :=
  [.invoke 0 (.put 0 [1] [2]), .advance 0, .advance 0, .invoke 1 (.delete 0 [1]), .advance 0, .advance 1, .advance 0,
    .advance 1, .advance 0, .advance 1, .advance 1, .advance 1]

theorem race_linearizable_quiet :
    Linearizable mapCalls (Store.init ⟨0, .never⟩).liveMap
      (raceMachine.run (.start (Store.init ⟨0, .never⟩)) quietMoves).1.history :=
  (race_linearizable ⟨0, .never⟩ [] quietMoves trivial (by decide +kernel)).1

/-- Two deletes that have both looked before either of them appends. -/
def rivalMoves : List Move :=
  [.invoke 0 (.put 0 [1] [2]), .advance 0, .advance 0, .advance 0, .advance 0, .advance 0,
    .invoke 1 (.delete 0 [1]), .invoke 2 (.delete 0 [1]), .advance 1, .advance 2,
    .advance 1, .advance 1, .advance 1, .advance 1, .advance 2, .advance 2, .advance 2, .advance 2]

/-- Both deletes of one put succeed, as no map would have it. -/
theorem deleted_twice :
    (raceMachine.run (.start (Store.init ⟨0, .never⟩)) rivalMoves).1.history =
        [.call 0 (.put 0 [1] [2]), .ret 0 (.wrote none), .call 1 (.delete 0 [1]), .call 2 (.delete 0 [1]),
          .ret 1 (.wrote none), .ret 2 (.wrote none)] ∧
      ¬ Linearizable mapCalls (Store.init ⟨0, .never⟩).liveMap
        (raceMachine.run (.start (Store.init ⟨0, .never⟩)) rivalMoves).1.history := by
  have hhistory : (raceMachine.run (.start (Store.init ⟨0, .never⟩)) rivalMoves).1.history =
      [.call 0 (.put 0 [1] [2]), .ret 0 (.wrote none), .call 1 (.delete 0 [1]), .call 2 (.delete 0 [1]),
        .ret 1 (.wrote none), .ret 2 (.wrote none)] := by decide +kernel
  refine ⟨hhistory, fun hl => ?_⟩
  rw [hhistory] at hl
  have hc : Contest [.call 0 (.put 0 [1] [2]), .ret 0 (.wrote none), .call 1 (.delete 0 [1]), .call 2 (.delete 0 [1]),
      .ret 1 (.wrote none), .ret 2 (.wrote none)] 0 [1]
      [.call 1 (.delete 0 [1]), .call 2 (.delete 0 [1]), .ret 1 (.wrote none), .ret 2 (.wrote none)] := by
    refine ⟨⟨0, [2], rfl⟩, by decide, fun id req hcall => ?_, fun id req hcall => ?_, 1, _, List.mem_cons_self⟩
    · simp only [List.mem_cons, Occurrence.call.injEq, reduceCtorEq, List.not_mem_nil, or_false] at hcall
      rcases hcall with ⟨-, rfl⟩ | ⟨-, rfl⟩ <;> exact ⟨0, rfl⟩
    · simp only [List.mem_cons, Occurrence.call.injEq, reduceCtorEq, List.not_mem_nil, or_false] at hcall
      rcases hcall with ⟨rfl, -⟩ | ⟨rfl, -⟩ <;> exact ⟨.wrote none, by decide⟩
  obtain ⟨id, -, honly⟩ := hc.one hl
  have hone := honly 1 (by decide)
  have htwo := honly 2 (by decide)
  exact absurd (hone.trans htwo.symm) (by decide)

end Gokv.Engine.Racing
