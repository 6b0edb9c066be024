import Gokv.Client.Connection

/-! The retries of a write.

A write goes to the leader, which decodes it, carries it out and replies. When no reply
arrives the client tries again, on a fresh connection, and does not know whether the
request or the reply was lost. Between two attempts other clients may write.

`retry_once`: whatever the leader's state and whatever the others write, a call has its
effect at most once, and a `Delete` reports a missing key only if it did not delete it,
exactly for the failure patterns in which no attempt reaches the leader after one whose
reply was lost. -/
namespace Gokv.Remote
open Base Engine

/-! ### The write requests of a node -/

/-- The pairs of a `BatchPut` frame. -/
def decBatch : Nat → Bytes → Option (List (Bytes × Bytes))
  | 0, [] => some []
  | 0, _ :: _ => none
  | n + 1, b =>
    match decBytes b with
    | none => none
    | some (key, rest) =>
      match decBytes rest with
      | none => none
      | some (value, rest) => (decBatch n rest).map ((key, value) :: ·)

/-- The write a frame asks for, if it decodes to its end. -/
def decWrite (now : Int64) : Bytes → Option Op
  | [] => none
  | code :: body =>
    if code = Opcode.put.byte then
      match decBytes body with
      | none => none
      | some (key, rest) =>
        match decBytes rest with
        | some (value, []) => some (.put now key value)
        | _ => none
    else if code = Opcode.delete.byte then
      match decBytes body with
      | some (key, []) => some (.delete now key)
      | _ => none
    else if code = Opcode.batchPut.byte then
      match decU32 body with
      | none => none
      | some (count, rest) =>
        if rest.length / 8 < count then none
        else (decBatch count rest).map fun pairs => .batchPut now (pairs.map Prod.fst) (pairs.map Prod.snd)
    else none

/-- The write of a request, at the time the leader carries it out. -/
def Request.write (now : Int64) : Request → Option Op
  | .put key value => some (.put now key value)
  | .delete key => some (.delete now key)
  | .batchPut keys values => some (.batchPut now keys values)
  | _ => none

theorem length_encPairs (pairs : List (Bytes × Bytes)) :
    8 * pairs.length ≤ (pairs.flatMap fun x => encBytes x.1 ++ encBytes x.2).length := by
  induction pairs with
  | nil => exact le_rfl
  | cons x rest ih =>
    rw [List.flatMap_cons, List.length_append, List.length_append, length_encBytes, length_encBytes, List.length_cons]
    omega

theorem decBatch_encode (pairs : List (Bytes × Bytes))
    (h : (pairs.flatMap fun x => encBytes x.1 ++ encBytes x.2).length < 2 ^ 32) :
    decBatch pairs.length (pairs.flatMap fun x => encBytes x.1 ++ encBytes x.2) = some pairs := by
  induction pairs with
  | nil => rfl
  | cons x rest ih =>
    obtain ⟨key, value⟩ := x
    simp only [List.flatMap_cons, List.length_append, length_encBytes] at h
    have hkey : key.length < 2 ^ 32 := by omega
    have hvalue : value.length < 2 ^ 32 := by omega
    simp only [List.length_cons, decBatch, List.flatMap_cons, List.append_assoc, decBytes_encBytes hkey,
      decBytes_encBytes hvalue, ih (by omega), Option.map_some]

/-- **A write request is decoded as the write it encodes.** -/
theorem decWrite_encode (now : Int64) {r : Request} {op : Op} (hop : r.write now = some op)
    (hbatch : ∀ keys values, r = .batchPut keys values → keys.length = values.length)
    (hsize : r.encode.length ≤ maxFrameSize) : decWrite now r.encode = some op := by
  rw [maxFrameSize, Request.encode, List.length_cons] at hsize
  cases r with
  | put key value =>
    cases hop
    simp only [Request.body, List.length_append, length_encBytes] at hsize
    have hvalue : decBytes (encBytes value) = some (value, []) := by
      have := decBytes_encBytes (b := value) (by omega) []
      rwa [List.append_nil] at this
    simp only [Request.encode, Request.opcode, Request.body, decWrite, if_true]
    rw [decBytes_encBytes (by omega)]
    simp only [hvalue]
  | delete key =>
    cases hop
    simp only [Request.body, length_encBytes] at hsize
    have hkey : decBytes (encBytes key) = some (key, []) := by
      have := decBytes_encBytes (b := key) (by omega) []
      rwa [List.append_nil] at this
    have hne : ¬ Opcode.delete.byte = Opcode.put.byte := by decide
    simp only [Request.encode, Request.opcode, Request.body, decWrite, if_neg hne, if_true, hkey]
  | batchPut keys values =>
    cases hop
    have hlen := hbatch keys values rfl
    have hzip : (keys.zip values).length = keys.length := by rw [List.length_zip, hlen, Nat.min_self]
    have hpairs := length_encPairs (keys.zip values)
    simp only [Request.body, List.length_append, length_putBE] at hsize
    have hne : ¬ Opcode.batchPut.byte = Opcode.put.byte := by decide
    have hne' : ¬ Opcode.batchPut.byte = Opcode.delete.byte := by decide
    simp only [Request.encode, Request.opcode, Request.body, decWrite, if_neg hne, if_neg hne', if_true]
    rw [decU32_putBE (by omega)]
    simp only
    rw [if_neg (by omega), ← hzip, decBatch_encode _ (by omega), Option.map_some, List.map_fst_zip (by omega),
      List.map_snd_zip (by omega)]
  | ping | read _ | scan _ _ _ _ | stats | info | compact | promote => cases hop

section Leader
variable [Checksum] (text : Option Error → Bytes)

/-- The reply to a write. -/
def replyTo (op : Op) : Option Error → Bytes
  | none => [Status.ok.byte]
  | some .keyNotFound =>
    match op with
    | .delete _ _ => [Status.notFound.byte]
    | _ => Status.error.byte :: encBytes (text (some .keyNotFound))
  | some e => Status.error.byte :: encBytes (text (some e))

/-- What becomes of an attempt. -/
inductive Fate where
  /-- The request does not reach the leader. -/
  | lostRequest
  /-- The request is carried out, and the reply does not arrive. -/
  | lostReply
  | delivered
  deriving DecidableEq

structure Attempt where
  /-- What other clients write before the attempt. -/
  others : List Op
  now : Int64
  fate : Fate

/-- The leader, what is to become of the attempts, and how many writes the client's
requests have appended to its log. -/
structure Leader where
  store : Store
  script : List Attempt
  effects : Nat

/-- A request that has reached the leader, and its reply. -/
def Leader.carry (n : Leader) (now : Int64) (req : Bytes) : Leader × Bytes :=
  match decWrite now req with
  | none => (n, Status.error.byte :: encBytes (text none))
  | some op =>
    match n.store.apply op with
    | (s, none) =>
      ({n with store := s, effects := if op.records = [] then n.effects else n.effects + 1}, replyTo text op none)
    | (s, some e) => ({n with store := s}, replyTo text op (some e))

/-- The leader when the next attempt begins. -/
def Leader.advance (n : Leader) (a : Attempt) (rest : List Attempt) : Leader :=
  {n with store := a.others.foldl (fun s op => (s.apply op).1) n.store, script := rest}

/-- A connection to a leader that can always be dialled; once the script is used up every
reply arrives. -/
def leaderNet : Net Leader where
  dial n _ := (n, true)
  send n _ req :=
    match n.script with
    | [] => ((n.carry text 0 req).1, true, [(n.carry text 0 req).2])
    | a :: rest =>
      match a.fate with
      | .lostRequest => (n.advance a rest, true, [])
      | .lostReply => (((n.advance a rest).carry text a.now req).1, true, [])
      | .delivered =>
        (((n.advance a rest).carry text a.now req).1, true, [((n.advance a rest).carry text a.now req).2])

/-- The call had its effect at most once, and a `Delete` that reports a missing key had
none. -/
def Once (r : Request) (n : Leader) (out : Leader × Client × Except ClientError Answer) : Prop :=
  out.1.effects ≤ n.effects + 1 ∧
    ∀ key, r = .delete key → out.2.2 = .error .keyNotFound → out.1.effects = n.effects

/-- No attempt reaches the leader behind one whose reply was lost. -/
def Certain : List Fate → Prop
  | [] => True
  | .lostRequest :: fates => Certain fates
  | .lostReply :: fates => ∀ f ∈ fates, f = .lostRequest
  | .delivered :: _ => True

/-- A client in order that is not closed and knows an address. -/
structure Usable (c : Client) : Prop extends Drained c where
  running : c.closed = false
  addrs : c.addrs ≠ []

variable {n : Leader} {c : Client} {r : Request}

/-! ### One attempt -/

/-- A request that is carried out appends at most one write, and a missing key means it
appended none. -/
theorem carry_spec (n : Leader) (now : Int64) (req : Bytes) :
    n.effects ≤ (n.carry text now req).1.effects ∧ (n.carry text now req).1.effects ≤ n.effects + 1 ∧
      (n.carry text now req).1.script = n.script ∧ (n.carry text now req).2 ≠ [] ∧
      Status.ofFrame (n.carry text now req).2 ≠ .redirect ∧
      (Status.ofFrame (n.carry text now req).2 = .notFound → (n.carry text now req).1.effects = n.effects) := by
  rw [Leader.carry]
  cases decWrite now req with
  | none =>
    exact ⟨le_rfl, Nat.le_succ _, rfl, List.cons_ne_nil _ _, (by decide : Status.error ≠ .redirect), fun _ => rfl⟩
  | some op =>
    simp only
    cases n.store.apply op with
    | mk s err =>
      cases err with
      | none =>
        refine ⟨?_, ?_, rfl, List.cons_ne_nil _ _, (by decide : Status.ok ≠ .redirect), fun hs => nomatch hs⟩
        · show n.effects ≤ if op.records = [] then n.effects else n.effects + 1
          split <;> omega
        · show (if op.records = [] then n.effects else n.effects + 1) ≤ n.effects + 1
          split <;> omega
      | some e =>
        have hreply : replyTo text op (some e) = [Status.notFound.byte] ∨
            ∃ msg, replyTo text op (some e) = Status.error.byte :: msg := by
          cases e with
          | keyNotFound =>
            cases op with
            | delete _ _ => exact .inl rfl
            | put _ _ _ | batchPut _ _ _ | compact | reopen _ | sync | hint _ => exact .inr ⟨_, rfl⟩
          | closed | emptyKey | keyTooLarge | valueTooLong | batchLen | needFullSync | corrupt | short | fileGone
          | lostRace | seqMismatch _ _ | badHint | eof | fileExists | fileClosed => exact .inr ⟨_, rfl⟩
        refine ⟨le_rfl, Nat.le_succ _, rfl, ?_, ?_, fun _ => rfl⟩
        · rcases hreply with heq | ⟨msg, heq⟩ <;> simp only [heq]
          · exact List.cons_ne_nil _ _
          · exact List.cons_ne_nil _ _
        · rcases hreply with heq | ⟨msg, heq⟩ <;> simp only [heq]
          · exact (by decide : Status.notFound ≠ .redirect)
          · exact (by decide : Status.error ≠ .redirect)

theorem Usable.connect (h : Usable c) (n : Leader) :
    ∃ c₁ k, Client.connect (leaderNet text) [] n c = (n, c₁, none) ∧ Usable c₁ ∧ c₁.conn = some k := by
  rw [Client.connect]
  cases hconn : c.conn with
  | some k => exact ⟨c, k, by simp, h, hconn⟩
  | none =>
    obtain ⟨addr, rest, hcons⟩ : ∃ addr rest, c.candidates [] = addr :: rest := by
      refine List.exists_cons_of_ne_nil fun hnil => h.addrs ?_
      simpa [Client.candidates] using hnil
    refine ⟨{c.drop with conn := some ⟨addr, []⟩}, ⟨addr, []⟩, ?_,
      ⟨⟨fun k hk => ?_, h.sound, h.own⟩, h.running, h.addrs⟩, rfl⟩
    · simp only [hcons, Client.dialAll, leaderNet]
    · cases hk
      rfl

/-- An attempt whose reply does not arrive. -/
theorem attempts_lost (h : Usable c) (hsize : r.encode.length ≤ maxFrameSize) {n' : Leader}
    (hsend : ∀ addr, (leaderNet text).send n addr r.encode = (n', true, [])) (m : Nat) (lastErr : Option ClientError) :
    ∃ c', Usable c' ∧ Client.attempts (leaderNet text) r (m + 1) [] lastErr n c =
      Client.attempts (leaderNet text) r m [] (some .transport) n' c' := by
  obtain ⟨c₁, k, hconnect, hc, hconn⟩ := h.connect text n
  have hex : Client.exchange (leaderNet text) r.encode n c₁ =
      (n', {c₁ with sent := c₁.sent + 1}, .error .transport) := by
    simp only [Client.exchange, hconn, if_neg (not_lt.mpr hsize), hsend, hc.inbox k hconn, List.map_nil,
      List.append_nil]
  refine ⟨{({c₁ with sent := c₁.sent + 1} : Client).drop with next := c₁.next + 1},
    ⟨drained_drop (c := {c₁ with sent := c₁.sent + 1}) hc.sound hc.own _, hc.running, hc.addrs⟩, ?_⟩
  simp only [Client.attempts, hconnect, hex]

/-- An attempt whose reply arrives is the last. -/
theorem attempts_replied (h : Usable c) (hsize : r.encode.length ≤ maxFrameSize) {n' : Leader} {frame : Bytes}
    (hwrite : r.write 0 ≠ none) (hsend : ∀ addr, (leaderNet text).send n addr r.encode = (n', true, [frame]))
    (hne : frame ≠ []) (hredirect : Status.ofFrame frame ≠ .redirect) (m : Nat) (lastErr : Option ClientError) :
    (Client.attempts (leaderNet text) r (m + 1) [] lastErr n c).1 = n' ∧
      ((Client.attempts (leaderNet text) r (m + 1) [] lastErr n c).2.2 = .error .keyNotFound →
        Status.ofFrame frame = .notFound) := by
  obtain ⟨c₁, k, hconnect, hc, hconn⟩ := h.connect text n
  have hex : Client.exchange (leaderNet text) r.encode n c₁ =
      (n', {c₁ with conn := some ⟨k.addr, []⟩, sent := c₁.sent + 1, seen := c₁.seen ++ [(c₁.sent, c₁.sent)]},
        .ok frame) := by
    simp only [Client.exchange, hconn, if_neg (not_lt.mpr hsize), hsend, hc.inbox k hconn, List.map_cons, List.map_nil,
      List.nil_append, if_neg hne]
  have hhandle (c : Client) : c.handle r frame = (c, r.single frame) := by
    cases r with
    | put _ _ | delete _ | batchPut _ _ => rfl
    | ping | read _ | scan _ _ _ _ | stats | info | compact | promote => exact absurd rfl hwrite
  have hsingle (herr : r.single frame = .error .keyNotFound) : Status.ofFrame frame = .notFound := by
    cases r with
    | delete key =>
      by_contra hs
      simp [Request.single, hs] at herr
    | put _ _ | batchPut _ _ =>
      simp only [Request.single] at herr
      split at herr <;> cases herr
    | ping | read _ | scan _ _ _ _ | stats | info | compact | promote => exact absurd rfl hwrite
  rw [Client.attempts, hconnect]
  simp only [hex]
  cases hs : Status.ofFrame frame with
  | redirect => exact absurd hs hredirect
  | error => exact ⟨rfl, fun herr => by cases herr⟩
  | notFound => exact ⟨rfl, fun _ => rfl⟩
  | ok | rangeChunk | rangeEnd | other _ =>
    rw [hs] at hsingle
    simp only [hhandle]
    exact ⟨trivial, hsingle⟩

/-! ### All attempts -/

/-- Where no attempt reaches the leader, nothing happens to its log. -/
theorem attempts_unreached (h : Usable c) (hsize : r.encode.length ≤ maxFrameSize) {script : List Attempt}
    (hscript : n.script = script) (hfates : ∀ a ∈ script, a.fate = .lostRequest) :
    (Client.attempts (leaderNet text) r script.length [] (some .transport) n c).1.effects = n.effects ∧
      (Client.attempts (leaderNet text) r script.length [] (some .transport) n c).2.2 = .error .transport := by
  induction script generalizing n c with
  | nil => exact ⟨rfl, rfl⟩
  | cons a rest ih =>
    have hfate := hfates a (List.mem_cons_self ..)
    have hsend (addr : Bytes) : (leaderNet text).send n addr r.encode = (n.advance a rest, true, []) := by
      simp only [leaderNet, hscript, hfate]
    obtain ⟨c', hc', heq⟩ := attempts_lost text h hsize hsend rest.length (some .transport)
    rw [List.length_cons, heq]
    exact ih (n := n.advance a rest) hc' rfl fun b hb => hfates b (List.mem_cons_of_mem _ hb)

/-- **Certain patterns** give the call its effect at most once. -/
theorem attempts_certain (h : Usable c) (hsize : r.encode.length ≤ maxFrameSize) (hwrite : r.write 0 ≠ none)
    {script : List Attempt} (hscript : n.script = script) (hfates : Certain (script.map Attempt.fate))
    (lastErr : Option ClientError) :
    (Client.attempts (leaderNet text) r script.length [] lastErr n c).1.effects ≤ n.effects + 1 ∧
      ((Client.attempts (leaderNet text) r script.length [] lastErr n c).2.2 = .error .keyNotFound →
        (Client.attempts (leaderNet text) r script.length [] lastErr n c).1.effects = n.effects) := by
  induction script generalizing n c lastErr with
  | nil => exact ⟨Nat.le_succ _, fun _ => rfl⟩
  | cons a rest ih =>
    rw [List.map_cons] at hfates
    rw [List.length_cons]
    obtain ⟨-, hle, hrest, hne, hredirect, hmissing⟩ := carry_spec text (n.advance a rest) a.now r.encode
    cases hfate : a.fate with
    | lostRequest =>
      rw [hfate] at hfates
      have hsend (addr : Bytes) : (leaderNet text).send n addr r.encode = (n.advance a rest, true, []) := by
        simp only [leaderNet, hscript, hfate]
      obtain ⟨c', hc', heq⟩ := attempts_lost text h hsize hsend rest.length lastErr
      rw [heq]
      exact ih (n := n.advance a rest) hc' rfl hfates (some .transport)
    | lostReply =>
      rw [hfate] at hfates
      have hsend (addr : Bytes) : (leaderNet text).send n addr r.encode =
          (((n.advance a rest).carry text a.now r.encode).1, true, []) := by
        simp only [leaderNet, hscript, hfate]
      obtain ⟨c', hc', heq⟩ := attempts_lost text h hsize hsend rest.length lastErr
      obtain ⟨heff, hres⟩ := attempts_unreached text hc' hsize hrest fun b hb =>
        hfates b.fate (List.mem_map_of_mem hb)
      have hres : (Client.attempts (leaderNet text) r rest.length [] (some .transport) _ c').2.2 =
        .error .transport := hres
      rw [heq, hres]
      exact ⟨heff.trans_le hle, fun hkey => nomatch hkey⟩
    | delivered =>
      have hsend (addr : Bytes) : (leaderNet text).send n addr r.encode =
          (((n.advance a rest).carry text a.now r.encode).1, true,
            [((n.advance a rest).carry text a.now r.encode).2]) := by
        simp only [leaderNet, hscript, hfate]
      obtain ⟨hlead, hres⟩ := attempts_replied text h hsize hwrite hsend hne hredirect rest.length lastErr
      rw [hlead]
      exact ⟨hle, fun hkey => hmissing (hres hkey)⟩

/-- What every request that is carried out keeps of the effects, a call keeps. -/
theorem attempts_keep {P : Nat → Prop} (hcarry : r.encode.length ≤ maxFrameSize → ∀ (n : Leader) (now : Int64),
      P n.effects → P (n.carry text now r.encode).1.effects) (m : Nat) (prefer : Bytes)
    (lastErr : Option ClientError) (n : Leader) (c : Client) (h : P n.effects) :
    P (Client.attempts (leaderNet text) r m prefer lastErr n c).1.effects := by
  have hdial (addrs : List Bytes) (n : Leader) (c : Client) : (Client.dialAll (leaderNet text) addrs n c).1 = n := by
    cases addrs with
    | nil => rfl
    | cons addr rest => rfl
  have hconnect (prefer : Bytes) (n : Leader) (c : Client) : (Client.connect (leaderNet text) prefer n c).1 = n := by
    rw [Client.connect]
    split
    · split
      · rfl
      · exact hdial ..
    · exact hdial ..
  have hsend (hsize : r.encode.length ≤ maxFrameSize) (n : Leader) (addr : Bytes) (h : P n.effects) :
      P ((leaderNet text).send n addr r.encode).1.effects := by
    simp only [leaderNet]
    cases n.script with
    | nil => exact hcarry hsize n 0 h
    | cons a rest =>
      simp only
      cases a.fate with
      | lostRequest => exact h
      | lostReply | delivered => exact hcarry hsize (n.advance a rest) a.now h
  have hex (n : Leader) (c : Client) (h : P n.effects) :
      P (Client.exchange (leaderNet text) r.encode n c).1.effects := by
    rw [Client.exchange]
    split
    · exact h
    case h_2 k _ =>
      split
      · exact h
      case isFalse hsize =>
        have hs := hsend (not_lt.mp hsize) n k.addr h
        split
        case h_1 heq =>
          rw [heq] at hs
          exact hs
        case h_2 heq =>
          rw [heq] at hs
          split <;> exact hs
  induction m generalizing prefer lastErr n c with
  | zero => exact h
  | succ m ih =>
    rw [Client.attempts]
    have h1 := hconnect prefer n c
    cases hc : Client.connect (leaderNet text) prefer n c with
    | mk n₁ out =>
      obtain ⟨c₁, err⟩ := out
      rw [hc] at h1
      cases h1
      cases err with
      | some e => exact h
      | none =>
        have h2 := hex n₁ c₁ h
        cases hx : Client.exchange (leaderNet text) r.encode n₁ c₁ with
        | mk n₂ out =>
          obtain ⟨c₂, res⟩ := out
          rw [hx] at h2
          cases res with
          | error e =>
            simp only [hx]
            exact ih _ _ _ _ h2
          | ok frame =>
            simp only [hx]
            split
            · split
              · exact ih _ _ _ _ h2
              · exact ih _ _ _ _ h2
            · exact h2
            · exact h2

/-! ### Requests the leader accepts -/

/-- The leader can carry the write out: it fits a frame and its arguments are within the
limits. -/
def Acceptable (r : Request) : Prop := r.encode.length ≤ maxFrameSize ∧ ∃ op, r.write 0 = some op ∧ op.Valid

theorem apply_invalid (s : Store) {op : Op} (hlocal : op.Local) (h : ¬ op.Valid) :
    (s.apply op).2 ≠ none ∨ op.records = [] := by
  cases op with
  | put now key value =>
    refine .inl ?_
    simp only [Store.apply, Store.put]
    cases hk : Store.validateKey key with
    | some e => exact Option.some_ne_none e
    | none =>
      have hv : maxValueSize < value.length := by
        by_contra hle
        exact h ⟨hk, not_lt.mp hle⟩
      simp only [if_pos hv]
      exact Option.some_ne_none _
  | batchPut now keys values =>
    simp only [Store.apply, Store.batchPut]
    by_cases hlen : keys.length = values.length
    · by_cases hnil : keys.length = 0
      · refine .inr ?_
        rw [Op.records, List.eq_nil_of_length_eq_zero hnil, List.zip_nil_left]
        rfl
      · refine .inl ?_
        rw [if_neg (not_not.mpr hlen), if_neg hnil]
        cases hv : Store.validateBatch (keys.zip values) with
        | some e => exact Option.some_ne_none e
        | none => exact absurd ⟨hlen, hnil, hv⟩ h
    · refine .inl ?_
      rw [if_pos hlen]
      exact Option.some_ne_none _
  | delete now key =>
    refine .inl ?_
    simp only [Store.apply, Store.delete]
    cases hk : Store.validateKey key with
    | some e => exact Option.some_ne_none e
    | none => exact absurd hk h
  | compact | reopen _ | sync | hint _ => exact hlocal.elim

omit [Checksum] in
theorem write_now {now : Int64} {op : Op} (h : r.write now = some op) :
    op.Local ∧ ∃ op₀, r.write 0 = some op₀ ∧ (op₀.Valid ↔ op.Valid) := by
  cases r with
  | put _ _ | delete _ | batchPut _ _ =>
    cases h
    exact ⟨trivial, _, rfl, Iff.rfl⟩
  | ping | read _ | scan _ _ _ _ | stats | info | compact | promote => cases h

/-- A request the leader does not accept has no effect. -/
theorem carry_unacceptable (hsize : r.encode.length ≤ maxFrameSize)
    (hbatch : ∀ keys values, r = .batchPut keys values → keys.length = values.length) (h : ¬ Acceptable r)
    (n : Leader) (now : Int64) : (n.carry text now r.encode).1.effects = n.effects := by
  rw [Leader.carry]
  cases hw : r.write now with
  | none =>
    have hnone : decWrite now r.encode = none := by
      cases r with
      | put _ _ | delete _ | batchPut _ _ => cases hw
      | ping | read _ | scan _ _ _ _ | stats | info | compact | promote => rfl
    rw [hnone]
  | some op =>
    obtain ⟨hlocal, op₀, hop₀, hvalid⟩ := write_now hw
    have hinvalid : ¬ op.Valid := fun hv => h ⟨hsize, op₀, hop₀, hvalid.mpr hv⟩
    rw [decWrite_encode now hw hbatch hsize]
    have hrefused := apply_invalid n.store hlocal hinvalid
    simp only
    cases hs : n.store.apply op with
    | mk s err =>
      cases err with
      | some e => rfl
      | none =>
        rw [hs] at hrefused
        exact if_pos (hrefused.resolve_left fun hne => hne rfl)

omit [Checksum] in
/-- A batch that fits a frame keeps its offsets. -/
theorem length_pairs_le (pairs : List (Bytes × Bytes)) :
    (pairs.dropLast.map fun x => recordHeaderSize + x.1.length + x.2.length).sum ≤
      4 * (pairs.flatMap fun x => encBytes x.1 ++ encBytes x.2).length := by
  induction pairs with
  | nil => exact Nat.zero_le _
  | cons x rest ih =>
    cases rest with
    | nil => exact Nat.zero_le _
    | cons y more =>
      rw [List.dropLast_cons_cons, List.map_cons, List.sum_cons, List.flatMap_cons, List.length_append,
        List.length_append,
        length_encBytes, length_encBytes, recordHeaderSize]
      rw [recordHeaderSize] at ih
      omega

/-- What others have written when an attempt arrives, so that it can be carried out. -/
def prepared : Request → List Op
  | .delete key => [.put 0 key []]
  | _ => []

/-- The widths hold that many more attempts. -/
def Room (s : Store) (k : Nat) : Prop := s.nextID + 2 * k < 2 ^ 32 ∧ s.seq.toNat + 2 ^ 32 * k < 2 ^ 64

/-- **An acceptable request that arrives** is carried out. -/
theorem carry_acceptable (h : Acceptable r) (now : Int64) {k : Nat} (fate : Fate) (rest : List Attempt)
    (hquiet : Quiet n.store) (hroom : Room n.store (k + 1)) :
    let n' := ((n.advance ⟨prepared r, now, fate⟩ rest).carry text now r.encode).1
    n'.effects = n.effects + 1 ∧ Quiet n'.store ∧ Room n'.store k := by
  obtain ⟨hsize, op, hop, hvalid⟩ := h
  obtain ⟨hid, hseq⟩ := hroom
  have hmax : maxFrameSize = 335544320 := rfl
  rw [Leader.carry]
  cases r with
  | put key value =>
    cases hop
    have hwrite := decWrite_encode now (r := .put key value) rfl (fun _ _ hr => by cases hr) hsize
    have hok : Op.refusal n.store.liveMap (.put now key value) = none := by
      rw [Op.refusal, hvalid.1]
      exact if_neg (not_lt.mpr hvalid.2)
    obtain ⟨s', hs', hq', -, hid', hseq'⟩ := hquiet.accepted (.put now key value) hvalid ⟨by omega, by omega⟩ hok
    have hlen : (Op.records (.put now key value)).length = 1 := rfl
    simp only [hwrite, Leader.advance, prepared, List.foldl_nil, hs']
    exact ⟨rfl, hq', by omega, by omega⟩
  | delete key =>
    cases hop
    have hwrite := decWrite_encode now (r := .delete key) rfl (fun _ _ hr => by cases hr) hsize
    have hvalid : Store.validateKey key = none := hvalid
    have hok : Op.refusal n.store.liveMap (.put 0 key []) = none := by
      rw [Op.refusal, hvalid]
      rfl
    obtain ⟨s₁, hs₁, hq₁, hlive, hid₁, hseq₁⟩ := hquiet.accepted (.put 0 key []) ⟨hvalid, Nat.zero_le _⟩
      ⟨by omega, by omega⟩ hok
    have hkey : s₁.liveMap key = some [] := by
      rw [hlive, Map.apply, hok]
      exact Function.update_self ..
    have hok' : Op.refusal s₁.liveMap (.delete now key) = none := by
      rw [Op.refusal, hvalid, hkey]
      rfl
    have hlen₁ : (Op.records (.put 0 key [])).length = 1 := rfl
    obtain ⟨s', hs', hq', -, hid', hseq'⟩ := hq₁.accepted (.delete now key) hvalid ⟨by omega, by omega⟩ hok'
    have hlen : (Op.records (.delete now key)).length = 1 := rfl
    simp only [hwrite, Leader.advance, prepared, List.foldl_cons, List.foldl_nil, hs₁, hs']
    exact ⟨rfl, hq', by omega, by omega⟩
  | batchPut keys values =>
    cases hop
    obtain ⟨hlen, hne, hall⟩ := hvalid
    have hwrite := decWrite_encode now (r := .batchPut keys values) rfl
      (fun _ _ hr => by cases hr; exact hlen) hsize
    have hpairs := length_encPairs (keys.zip values)
    have hoffsets := length_pairs_le (keys.zip values)
    have hzip : (keys.zip values).length = keys.length := by rw [List.length_zip, hlen, Nat.min_self]
    simp only [Request.encode, Request.body, List.length_cons, List.length_append, length_putBE] at hsize
    have hok : Op.refusal n.store.liveMap (.batchPut now keys values) = none := by
      rw [Op.refusal, if_neg (not_not.mpr hlen), hall]
    obtain ⟨s', hs', hq', -, hid', hseq'⟩ := hquiet.accepted (.batchPut now keys values) ⟨hlen, hne, hall⟩
      ⟨by omega, by omega, by omega⟩ hok
    have hcount : (Op.records (.batchPut now keys values)).length = keys.length := by
      rw [Op.records, length_batchRecords, hzip]
    have hrec : ¬ Op.records (.batchPut now keys values) = [] := fun hnil => by
      rw [hnil] at hcount
      exact hne hcount.symm
    simp only [hwrite, Leader.advance, prepared, List.foldl_nil, hs', if_neg hrec]
    exact ⟨trivial, hq', by omega, by omega⟩
  | ping | read _ | scan _ _ _ _ | stats | info | compact | promote => cases hop

/-! ### An attempt behind a lost reply -/

/-- The attempt others have prepared, if it reaches the leader. -/
def prepare (r : Request) : Fate → Attempt
  | .lostRequest => ⟨[], 0, .lostRequest⟩
  | fate => ⟨prepared r, 0, fate⟩

/-- The effects there are when an attempt begins are there when the call ends. -/
theorem le_attempts {e : Nat} (m : Nat) (lastErr : Option ClientError) (h : e ≤ n.effects) :
    e ≤ (Client.attempts (leaderNet text) r m [] lastErr n c).1.effects :=
  attempts_keep text (P := (e ≤ ·)) (fun _ n now h => h.trans (carry_spec text n now _).1) m [] lastErr n c h

/-- An attempt that reaches the leader adds an effect. -/
theorem attempts_reached (h : Usable c) (hr : Acceptable r) {fates : List Fate}
    (hscript : n.script = fates.map (prepare r)) (hfates : ∃ f ∈ fates, f ≠ .lostRequest) (hquiet : Quiet n.store)
    {k : Nat} (hroom : Room n.store (k + 1)) (lastErr : Option ClientError) :
    n.effects + 1 ≤ (Client.attempts (leaderNet text) r fates.length [] lastErr n c).1.effects := by
  induction fates generalizing n c lastErr with
  | nil =>
    obtain ⟨f, hf, -⟩ := hfates
    cases hf
  | cons f rest ih =>
    rw [List.map_cons] at hscript
    cases f with
    | lostRequest =>
      have hsend (addr : Bytes) : (leaderNet text).send n addr r.encode =
          (n.advance ⟨[], 0, .lostRequest⟩ (rest.map (prepare r)), true, []) := by
        simp only [leaderNet, hscript, prepare]
      obtain ⟨c', hc', heq⟩ := attempts_lost text h hr.1 hsend rest.length lastErr
      rw [List.length_cons, heq]
      obtain ⟨f, hf, hne⟩ := hfates
      exact ih (n := n.advance ⟨[], 0, .lostRequest⟩ (rest.map (prepare r))) hc' rfl
        ⟨f, (List.mem_cons.mp hf).resolve_left hne, hne⟩ hquiet hroom _
    | lostReply =>
      obtain ⟨heff, -, -⟩ := carry_acceptable text hr 0 .lostReply (rest.map (prepare r)) hquiet hroom
      have hsend (addr : Bytes) : (leaderNet text).send n addr r.encode =
          (((n.advance ⟨prepared r, 0, .lostReply⟩ (rest.map (prepare r))).carry text 0 r.encode).1, true, []) := by
        simp only [leaderNet, hscript, prepare]
      obtain ⟨c', -, heq⟩ := attempts_lost text h hr.1 hsend rest.length lastErr
      rw [List.length_cons, heq]
      exact le_attempts text _ _ heff.ge
    | delivered =>
      obtain ⟨heff, -, -⟩ := carry_acceptable text hr 0 .delivered (rest.map (prepare r)) hquiet hroom
      obtain ⟨-, -, -, hne, hredirect, -⟩ := carry_spec text
        (n.advance ⟨prepared r, 0, .delivered⟩ (rest.map (prepare r))) 0 r.encode
      have hwrite : r.write 0 ≠ none := by
        obtain ⟨-, op, hop, -⟩ := hr
        rw [hop]
        exact Option.some_ne_none op
      have hsend (addr : Bytes) : (leaderNet text).send n addr r.encode =
          (((n.advance ⟨prepared r, 0, .delivered⟩ (rest.map (prepare r))).carry text 0 r.encode).1, true,
            [((n.advance ⟨prepared r, 0, .delivered⟩ (rest.map (prepare r))).carry text 0 r.encode).2]) := by
        simp only [leaderNet, hscript, prepare]
      obtain ⟨hlead, -⟩ := attempts_replied text h hr.1 hwrite hsend hne hredirect rest.length lastErr
      rw [List.length_cons, hlead]
      exact heff.ge

/-- **An attempt that reaches the leader behind a lost reply** makes the call take effect
twice. -/
theorem attempts_twice (h : Usable c) (hr : Acceptable r) {fates : List Fate}
    (hscript : n.script = fates.map (prepare r)) (hfates : ¬ Certain fates) (hquiet : Quiet n.store)
    (hroom : Room n.store 2) (lastErr : Option ClientError) :
    n.effects + 2 ≤ (Client.attempts (leaderNet text) r fates.length [] lastErr n c).1.effects := by
  induction fates generalizing n c lastErr with
  | nil => exact absurd trivial hfates
  | cons f rest ih =>
    rw [List.map_cons] at hscript
    cases f with
    | lostRequest =>
      have hsend (addr : Bytes) : (leaderNet text).send n addr r.encode =
          (n.advance ⟨[], 0, .lostRequest⟩ (rest.map (prepare r)), true, []) := by
        simp only [leaderNet, hscript, prepare]
      obtain ⟨c', hc', heq⟩ := attempts_lost text h hr.1 hsend rest.length lastErr
      rw [List.length_cons, heq]
      exact ih (n := n.advance ⟨[], 0, .lostRequest⟩ (rest.map (prepare r))) hc' rfl hfates hquiet hroom _
    | lostReply =>
      obtain ⟨heff, hquiet', hroom'⟩ :=
        carry_acceptable text hr 0 .lostReply (rest.map (prepare r)) hquiet hroom
      have hsend (addr : Bytes) : (leaderNet text).send n addr r.encode =
          (((n.advance ⟨prepared r, 0, .lostReply⟩ (rest.map (prepare r))).carry text 0 r.encode).1, true, []) := by
        simp only [leaderNet, hscript, prepare]
      obtain ⟨c', hc', heq⟩ := attempts_lost text h hr.1 hsend rest.length lastErr
      have hreached : ∃ f ∈ rest, f ≠ .lostRequest := by
        by_contra hnone
        exact hfates fun f hf => by_contra fun hne => hnone ⟨f, hf, hne⟩
      have := attempts_reached text hc' hr (carry_spec text _ 0 r.encode).2.2.1 hreached hquiet' hroom'
        (some .transport)
      rw [List.length_cons, heq]
      omega
    | delivered => exact absurd trivial hfates

/-! ### A call -/

theorem call_eq (h : Usable c) (r : Request) (n : Leader)
    (hbatch : ∀ keys values, r = .batchPut keys values → keys.length = values.length) :
    Client.call (leaderNet text) r n c = Client.attempts (leaderNet text) r c.maxAttempts [] none n c := by
  have hopen : ¬ c.closed = true := by
    rw [h.running]
    exact Bool.false_ne_true
  cases r with
  | batchPut keys values =>
    rw [Client.call, if_neg (not_not.mpr (hbatch keys values rfl)), if_neg hopen]
  | put _ _ | delete _ | ping | read _ | scan _ _ _ _ | stats | info | compact | promote =>
    rw [Client.call, if_neg hopen]
    rintro _ _ ⟨⟩

/-- **A call has its effect at most once**, and a `Delete` reports a missing key only if
it has not deleted it, whatever the leader's state and the other clients' writes, exactly
if the request is never accepted or no attempt reaches the leader behind one whose reply
was lost. -/
theorem retry_once (r : Request) (fates : List Fate) :
    (∀ (n : Leader) (c : Client), n.script.map Attempt.fate = fates → Usable c → c.maxAttempts = fates.length →
      Once r n (Client.call (leaderNet text) r n c)) ↔ ¬ Acceptable r ∨ Certain fates := by
  constructor
  · intro h
    by_contra hnot
    obtain ⟨hr, hfates⟩ := not_or.mp hnot
    have hr := not_not.mp hr
    let n : Leader := ⟨Store.init ⟨0, .never⟩, fates.map (prepare r), 0⟩
    let c : Client := ⟨[[]], fates.length, none, 0, false, false, 0, []⟩
    have hc : Usable c := ⟨⟨fun _ hk => (nomatch hk), rfl, fun _ hx => absurd hx List.not_mem_nil⟩, rfl,
      List.cons_ne_nil _ _⟩
    have hscript : n.script.map Attempt.fate = fates := by
      rw [List.map_map]
      refine (List.map_congr_left fun f _ => ?_).trans (List.map_id fates)
      cases f <;> rfl
    have hbatch (keys values : List Bytes) (heq : r = .batchPut keys values) : keys.length = values.length := by
      obtain ⟨-, op, hop, hvalid⟩ := hr
      subst heq
      cases hop
      exact hvalid.1
    have honce := (h n c hscript hc rfl).1
    have hroom : Room (Store.init ⟨0, .never⟩) 2 := ⟨by decide, by decide⟩
    have htwice := attempts_twice text (n := n) hc hr rfl hfates (quiet_init _).1 hroom none
    rw [call_eq text hc r n hbatch] at honce
    have heq : c.maxAttempts = fates.length := rfl
    rw [heq] at honce
    omega
  · intro h n c hscript hc hmax
    by_cases hbatch : ∀ keys values, r = .batchPut keys values → keys.length = values.length
    · rw [call_eq text hc r n hbatch, hmax]
      by_cases hr : Acceptable r
      · have hwrite : r.write 0 ≠ none := by
          obtain ⟨-, op, hop, -⟩ := hr
          rw [hop]
          exact Option.some_ne_none op
        have hcertain : Certain (n.script.map Attempt.fate) := by
          rw [hscript]
          exact h.resolve_left (not_not.mpr hr)
        have hlen : n.script.length = fates.length := by rw [← hscript, List.length_map]
        obtain ⟨hle, hmissing⟩ := attempts_certain text hc hr.1 hwrite rfl hcertain none
        rw [hlen] at hle hmissing
        exact ⟨hle, fun _ _ => hmissing⟩
      · have hsame := attempts_keep text (P := (· = n.effects))
          (fun hsize m now hm => (carry_unacceptable text hsize hbatch hr m now).trans hm) fates.length [] none n c rfl
        exact ⟨hsame.le.trans (Nat.le_succ _), fun _ _ _ => hsame⟩
    · have hcall : (Client.call (leaderNet text) r n c).1 = n := by
        obtain ⟨keys, values, heq⟩ : ∃ keys values, r = .batchPut keys values ∧ keys.length ≠ values.length := by
          by_contra hnone
          exact hbatch fun keys values heq => by_contra fun hne => hnone ⟨keys, values, heq, hne⟩
        rw [heq.1, Client.call, if_pos heq.2]
      exact ⟨by rw [hcall]; exact Nat.le_succ _, fun _ _ _ => by rw [hcall]⟩

end Leader

/-- **The reply to a `Delete` is lost.** The client tries again and reports that the key
it has deleted was not there; a `Put` in its place is appended twice. -/
theorem retry_lostReply :
    ∃ n c, Usable c ∧ c.maxAttempts = 2 ∧ n.script.map Attempt.fate = [.lostReply, .delivered] ∧
      ¬ Once (.delete [1]) n (Client.call (leaderNet fun _ => []) (.delete [1]) n c) ∧
      ¬ Once (.put [1] [8]) n (Client.call (leaderNet fun _ => []) (.put [1] [8]) n c) := by
  refine ⟨⟨(storeMachine.run (Store.init ⟨0, .never⟩) [.put 0 [1] [7]]).1,
    [⟨[], 0, .lostReply⟩, ⟨[], 0, .delivered⟩], 0⟩, ⟨[[]], 2, none, 0, false, false, 0, []⟩,
    ⟨⟨fun _ hk => (nomatch hk), rfl, fun _ hx => absurd hx List.not_mem_nil⟩, rfl, List.cons_ne_nil _ _⟩, rfl, rfl,
    fun h => ?_, fun h => ?_⟩
  · have hmissing := h.2 [1] rfl (by decide +kernel)
    revert hmissing
    decide +kernel
  · have hone := h.1
    revert hone
    decide +kernel

end Gokv.Remote
