import Gokv.Client.Wire

/-! One client, its connection, and the replies on it.

Consecutive calls share a connection. A reply is one frame, but a range reply is any
number of chunks and an end, and the callback, a chunk that does not decode or a bad
status may end the call before the end has been read. What is left of the reply is still
on its way then and would be taken for the reply to the next request.

The network is left open: a `Net` decides which dials and writes succeed and which frames
arrive in reply. A reply that is cut short is a transport failure behind its last frame.
`drained_call`: as long as every reply is (a beginning of) what the grammar allows, a call
leaves its connection with nothing unread or drops it, and so every frame that is read
answers the request that was waiting for it (`reads_own_replies`). -/
namespace Gokv.Remote
open Base Engine

/-- A frame on its way, and the number of the request it answers. -/
structure Delivery where
  request : Nat
  frame : Bytes
  deriving DecidableEq

structure Conn where
  addr : Bytes
  inbox : List Delivery
  deriving DecidableEq

/-- A client. `conn`, `r`, `w` and `current` are one field; `sent` and `seen` watch what
happens on the wire. -/
structure Client where
  addrs : List Bytes
  maxAttempts : Nat
  conn : Option Conn
  next : Nat
  closed : Bool
  poisoned : Bool
  /-- How many requests were written. -/
  sent : Nat
  /-- For every frame that was read the request that waited for it and the one it answers. -/
  seen : List (Nat × Nat)

inductive ClientError where
  | closed
  | noNodes
  | batchLen
  | frameTooLarge
  | transport
  | malformed
  | noLeader
  | remote (msg : Bytes)
  | keyNotFound
  | status (b : UInt8)
  | callback (msg : String)
  deriving DecidableEq

inductive Answer where
  | done
  | value (v : Bytes)
  | pairs (kvs : List (Bytes × Bytes))
  deriving DecidableEq

/-- The network and the nodes behind it. `send` is a request written to a node: whether
the write succeeds, and the frames that arrive in reply. -/
structure Net (ν : Type) where
  dial : ν → Bytes → ν × Bool
  send : ν → Bytes → Bytes → ν × Bool × List Bytes

/-! ### Replies -/

/-- The pairs of a chunk, handed to the callback one by one: all pairs so far, or why the
chunk ended the scan. -/
def visit (fn : List (Bytes × Bytes) → Option String) :
    Nat → List (Bytes × Bytes) → Bytes → Except ClientError (List (Bytes × Bytes))
  | 0, got, _ => .ok got
  | _ + 1, got, [] => .ok got
  | fuel + 1, got, b :: bs =>
    match decBytes (b :: bs) with
    | none => .error .malformed
    | some (key, rest) =>
      match decBytes rest with
      | none => .error .malformed
      | some (value, rest) =>
        match fn (got ++ [(key, value)]) with
        | some e => .error (.callback e)
        | none => visit fn fuel (got ++ [(key, value)]) rest

/-- How the reply to a scan was left. -/
structure ScanEnd where
  left : List Delivery
  seen : List (Nat × Nat)
  poisoned : Bool
  result : Except ClientError Answer

/-- The loop of `ScanKeyRange` over the frames of its reply. -/
def scanReply (fn : List (Bytes × Bytes) → Option String) (waiting : Nat) :
    List (Bytes × Bytes) → Bytes → List Delivery → ScanEnd
  | got, frame, inbox =>
    match Status.ofFrame frame with
    | .rangeEnd => ⟨inbox, [], false, .ok (.pairs got)⟩
    | .rangeChunk =>
      match visit fn frame.length got (frame.drop 1) with
      | .error e => ⟨inbox, [], true, .error e⟩
      | .ok got =>
        match inbox with
        | [] => ⟨[], [], true, .error .transport⟩
        | d :: rest =>
          if d.frame = [] then ⟨rest, [(waiting, d.request)], true, .error .malformed⟩
          else
            let e := scanReply fn waiting got d.frame rest
            {e with seen := (waiting, d.request) :: e.seen}
    | .error => ⟨inbox, [], false, .error (.remote (decStr (frame.drop 1)))⟩
    | _ => ⟨inbox, [], true, .error (.status (frame.headD 0))⟩

/-- The pairs of a `Stats`, `Info` or `Compact` reply. -/
def decPairs : Nat → Bytes → Except ClientError (List (Bytes × Bytes))
  | 0, _ => .ok []
  | n + 1, b =>
    match decBytes b with
    | none => .error .malformed
    | some (key, rest) =>
      match decBytes rest with
      | none => .error .malformed
      | some (value, rest) => (decPairs n rest).map ((key, value) :: ·)

/-- What a call makes of a reply of one frame. -/
def Request.single (r : Request) (frame : Bytes) : Except ClientError Answer :=
  match r with
  | .put _ _ | .batchPut _ _ => if Status.ofFrame frame = .ok then .ok .done else .error (.status (frame.headD 0))
  | .read _ =>
    if Status.ofFrame frame = .notFound then .error .keyNotFound
    else
      match decBytes (frame.drop 1) with
      | some (value, []) => .ok (.value value)
      | _ => .error .malformed
  | .delete _ => if Status.ofFrame frame = .notFound then .error .keyNotFound else .ok .done
  | .stats | .info | .compact =>
    match decU32 (frame.drop 1) with
    | none => .error .malformed
    | some (count, rest) => (decPairs count rest).map .pairs
  | _ => .ok .done

namespace Client

/-- The client `New` returns. -/
def new (addrs : List Bytes) (maxAttempts : Int) : Except ClientError Client :=
  if addrs = [] then .error .noNodes
  else .ok ⟨addrs, if maxAttempts ≤ 0 then 2 * addrs.length + 2 else maxAttempts.toNat, none, 0, false, false, 0, []⟩

def drop (c : Client) : Client := {c with conn := none}

def close (c : Client) : Client := {c.drop with closed := true}

section Call
variable {ν : Type} (net : Net ν)

/-- The candidates one after the other. -/
def dialAll : List Bytes → ν → Client → ν × Client × Option ClientError
  | [], n, c => (n, c, some .noNodes)
  | addr :: rest, n, c =>
    match net.dial n addr with
    | (n, false) => dialAll rest n {c with next := c.next + 1}
    | (n, true) => (n, {c with conn := some ⟨addr, []⟩}, none)

/-- The configured addresses in turn, behind the preferred one. -/
def candidates (c : Client) (prefer : Bytes) : List Bytes :=
  (if prefer = [] then [] else [prefer]) ++
    (List.range c.addrs.length).map fun i => c.addrs.getD ((c.next + i) % c.addrs.length) []

def connect (prefer : Bytes) (n : ν) (c : Client) : ν × Client × Option ClientError :=
  match c.conn with
  | some k => if prefer = [] ∨ prefer = k.addr then (n, c, none) else dialAll net (c.candidates prefer) n c.drop
  | none => dialAll net (c.candidates prefer) n c.drop

/-- A request is written and the first frame of its reply read. -/
def exchange (req : Bytes) (n : ν) (c : Client) : ν × Client × Except ClientError Bytes :=
  match c.conn with
  | none => (n, c, .error .transport)
  | some k =>
    if maxFrameSize < req.length then (n, c, .error .frameTooLarge)
    else
      match net.send n k.addr req with
      | (n, false, _) => (n, {c with sent := c.sent + 1}, .error .transport)
      | (n, true, frames) =>
        match k.inbox ++ frames.map (Delivery.mk c.sent) with
        | [] => (n, {c with sent := c.sent + 1}, .error .transport)
        | d :: rest =>
          (n, {c with conn := some ⟨k.addr, rest⟩, sent := c.sent + 1, seen := c.seen ++ [(c.sent, d.request)]},
            if d.frame = [] then .error .malformed else .ok d.frame)

/-- What the call does with its reply; a poisoned connection is dropped. -/
def handle (r : Request) (frame : Bytes) (c : Client) : Client × Except ClientError Answer :=
  match r, c.conn with
  | .scan _ _ _ fn, some k =>
    let e := scanReply fn (c.sent - 1) [] frame k.inbox
    (if e.poisoned then {c.drop with seen := c.seen ++ e.seen}
      else {c with conn := some {k with inbox := e.left}, seen := c.seen ++ e.seen}, e.result)
  | r, _ => (c, r.single frame)

/-- The attempts of `call` that are left. -/
def attempts (r : Request) : Nat → Bytes → Option ClientError → ν → Client → ν × Client × Except ClientError Answer
  | 0, _, lastErr, n, c => (n, c, .error (lastErr.getD .noNodes))
  | m + 1, prefer, lastErr, n, c =>
    match connect net prefer n c with
    | (n, c, some e) => (n, c, .error e)
    | (n, c, none) =>
      match exchange net r.encode n c with
      | (n, c, .error e) => attempts r m [] (some e) n {c.drop with next := c.next + 1}
      | (n, c, .ok frame) =>
        match Status.ofFrame frame with
        | .redirect =>
          let leader := decStr (frame.drop 1)
          if leader = [] ∨ c.conn.map Conn.addr = some leader then
            attempts r m [] (some .noLeader) n {c.drop with next := c.next + 1}
          else attempts r m leader lastErr n c
        | .error => (n, c, .error (.remote (decStr (frame.drop 1))))
        | _ =>
          match c.handle r frame with
          | (c, res) => (n, c, res)

/-- A call on the client. -/
def call (r : Request) (n : ν) (c : Client) : ν × Client × Except ClientError Answer :=
  match r with
  | .batchPut keys values =>
    if keys.length ≠ values.length then (n, c, .error .batchLen)
    else if c.closed then (n, c, .error .closed) else attempts net r c.maxAttempts [] none n c
  | r => if c.closed then (n, c, .error .closed) else attempts net r c.maxAttempts [] none n c

end Call

end Client

/-! ### What a server may reply -/

/-- A beginning of a range reply: chunks, then one end or error. -/
def RangeReply : List Bytes → Prop
  | [] => True
  | frame :: rest =>
    match Status.ofFrame frame with
    | .rangeChunk => RangeReply rest
    | .rangeEnd | .error => rest = []
    | _ => False

/-- A beginning of a reply: one frame, or a range reply to a range request. -/
def Reply (r : Request) (frames : List Bytes) : Prop :=
  frames.length ≤ 1 ∨ r.opcode = .range ∧ RangeReply frames

def Net.Obeys {ν : Type} (net : Net ν) : Prop := ∀ n addr (r : Request), Reply r (net.send n addr r.encode).2.2

/-! ### A call -/

/-- Nothing is unread on the connection, and every frame that was read answered the
request that waited for it. -/
structure Drained (c : Client) : Prop where
  inbox : ∀ k, c.conn = some k → k.inbox = []
  sound : c.poisoned = false
  own : ∀ x ∈ c.seen, x.1 = x.2

section Drained
variable {c : Client} {r : Request}

/-- Nothing is unread on a connection that was dropped. -/
theorem drained_drop (hsound : c.poisoned = false) (hown : ∀ x ∈ c.seen, x.1 = x.2) (next : Nat) :
    Drained {c.drop with next := next} :=
  ⟨fun _ hk => (nomatch hk), hsound, hown⟩

/-- **The loop over a range reply** reads only frames of the reply, and reads all of them
or poisons the connection. -/
theorem scanReply_spec (waiting : Nat) (fn : List (Bytes × Bytes) → Option String) (got : List (Bytes × Bytes))
    (frame : Bytes)
    {frames : List Bytes} (h : frames = [] ∨ RangeReply (frame :: frames)) :
    (∀ x ∈ (scanReply fn waiting got frame (frames.map (Delivery.mk waiting))).seen, x.1 = x.2) ∧
      ((scanReply fn waiting got frame (frames.map (Delivery.mk waiting))).poisoned = true ∨
        (scanReply fn waiting got frame (frames.map (Delivery.mk waiting))).left = []) := by
  induction frames generalizing got frame with
  | nil =>
    rw [List.map_nil, scanReply]
    cases Status.ofFrame frame with
    | rangeEnd | error => exact ⟨fun x hx => absurd hx List.not_mem_nil, .inr rfl⟩
    | rangeChunk =>
      cases visit fn frame.length got (frame.drop 1) with
      | error e => exact ⟨fun x hx => absurd hx List.not_mem_nil, .inl rfl⟩
      | ok got => exact ⟨fun x hx => absurd hx List.not_mem_nil, .inl rfl⟩
    | ok | notFound | redirect | other _ => exact ⟨fun x hx => absurd hx List.not_mem_nil, .inl rfl⟩
  | cons next rest ih =>
    have h := h.resolve_left (List.cons_ne_nil _ _)
    rw [List.map_cons, scanReply]
    rw [RangeReply] at h
    cases hs : Status.ofFrame frame with
    | rangeChunk =>
      rw [hs] at h
      cases visit fn frame.length got (frame.drop 1) with
      | error e => exact ⟨fun x hx => absurd hx List.not_mem_nil, .inl rfl⟩
      | ok got =>
        by_cases hempty : next = []
        · simp only [hempty, if_true]
          refine ⟨fun x hx => ?_, .inl trivial⟩
          rw [List.mem_singleton.mp hx]
        · simp only [hempty, if_false]
          obtain ⟨hseen, hleft⟩ := ih got next (.inr h)
          refine ⟨fun x hx => ?_, hleft⟩
          rcases List.mem_cons.mp hx with rfl | hx
          · rfl
          · exact hseen x hx
    | rangeEnd | error =>
      rw [hs] at h
      cases h
    | ok | notFound | redirect | other _ =>
      rw [hs] at h
      exact h.elim

/-- A reply that does not begin with a chunk is one frame. -/
theorem Reply.single {frame : Bytes} {frames : List Bytes} (h : Reply r (frame :: frames))
    (hne : r.opcode ≠ .range ∨ Status.ofFrame frame ≠ .rangeChunk) : frames = [] := by
  rcases h with hlen | ⟨hrange, hreply⟩
  · exact List.eq_nil_of_length_eq_zero (by simpa using hlen)
  · have hne := hne.resolve_left fun hc => hc hrange
    rw [RangeReply] at hreply
    cases hs : Status.ofFrame frame with
    | rangeChunk => exact absurd hs hne
    | rangeEnd | error =>
      rw [hs] at hreply
      exact hreply
    | ok | notFound | redirect | other _ =>
      rw [hs] at hreply
      exact hreply.elim

variable {ν : Type} {net : Net ν} {n : ν}

theorem Drained.dialAll (h : Drained c) (addrs : List Bytes) (n : ν) : Drained (Client.dialAll net addrs n c).2.1 := by
  induction addrs generalizing n c with
  | nil => exact h
  | cons addr rest ih =>
    rw [Client.dialAll]
    cases net.dial n addr with
    | mk n ok =>
      cases ok with
      | false => exact ih (c := {c with next := c.next + 1}) ⟨h.inbox, h.sound, h.own⟩ n
      | true =>
        refine ⟨fun k hk => ?_, h.sound, h.own⟩
        cases hk
        rfl

theorem Drained.connect (h : Drained c) (net : Net ν) (prefer : Bytes) (n : ν) :
    Drained (Client.connect net prefer n c).2.1 := by
  rw [Client.connect]
  split
  · split
    · exact h
    · exact (drained_drop h.sound h.own c.next).dialAll _ n
  · exact (drained_drop h.sound h.own c.next).dialAll _ n

/-- What is on the connection when the first frame of a reply has been read. -/
structure Opened (r : Request) (c : Client) (frame : Bytes) : Prop where
  conn : ∃ addr frames, c.conn = some ⟨addr, frames.map (Delivery.mk (c.sent - 1))⟩ ∧ Reply r (frame :: frames)
  sound : c.poisoned = false
  own : ∀ x ∈ c.seen, x.1 = x.2

/-- A reply that is done with its first frame. -/
theorem Opened.drained {frame : Bytes} (h : Opened r c frame)
    (hne : r.opcode ≠ .range ∨ Status.ofFrame frame ≠ .rangeChunk) : Drained c := by
  obtain ⟨addr, frames, hconn, hreply⟩ := h.conn
  refine ⟨fun k hk => ?_, h.sound, h.own⟩
  rw [hconn] at hk
  cases hk
  show frames.map _ = []
  rw [hreply.single hne]
  rfl

/-- **The exchange** on a drained connection reads a frame of its own reply. -/
theorem Drained.exchange (hn : net.Obeys) (h : Drained c) (r : Request) (n : ν) :
    match (Client.exchange net r.encode n c).2.2 with
    | .error _ => Drained {(Client.exchange net r.encode n c).2.1.drop with
        next := (Client.exchange net r.encode n c).2.1.next + 1}
    | .ok frame => Opened r (Client.exchange net r.encode n c).2.1 frame := by
  rw [Client.exchange]
  cases hconn : c.conn with
  | none => exact drained_drop h.sound h.own _
  | some k =>
    have hempty := h.inbox k hconn
    have hreply := hn n k.addr r
    by_cases hbig : maxFrameSize < r.encode.length
    · simp only [if_pos hbig]
      exact drained_drop h.sound h.own _
    · simp only [if_neg hbig]
      cases hsend : net.send n k.addr r.encode with
      | mk n rest =>
        obtain ⟨ok, frames⟩ := rest
        rw [hsend] at hreply
        have hreply : Reply r frames := hreply
        cases ok with
        | false => exact drained_drop (c := {c with sent := c.sent + 1}) h.sound h.own _
        | true =>
          cases frames with
          | nil =>
            simp only [hempty, List.map_nil, List.append_nil]
            exact drained_drop (c := {c with sent := c.sent + 1}) h.sound h.own _
          | cons frame frames =>
            have hown : ∀ x ∈ c.seen ++ [(c.sent, c.sent)], x.1 = x.2 := by
              intro x hx
              rcases List.mem_append.mp hx with hx | hx
              · exact h.own x hx
              · rw [List.mem_singleton.mp hx]
            simp only [hempty, List.map_cons, List.nil_append]
            by_cases hframe : frame = []
            · simp only [if_pos hframe]
              exact ⟨fun _ hk => (nomatch hk), h.sound, hown⟩
            · simp only [if_neg hframe]
              exact ⟨⟨k.addr, frames, rfl, hreply⟩, h.sound, hown⟩

/-- **The handler** reads its reply to the end, or the connection is dropped. -/
theorem Opened.handle {frame : Bytes} (h : Opened r c frame) : Drained (c.handle r frame).1 := by
  obtain ⟨addr, frames, hconn, hreply⟩ := h.conn
  have hsingle (hne : r.opcode ≠ .range) : Drained c := h.drained (.inl hne)
  cases r with
  | scan startKey endKey limit fn =>
    have hstream : frames = [] ∨ RangeReply (frame :: frames) :=
      hreply.imp (fun hlen => List.eq_nil_of_length_eq_zero (by simpa using hlen)) And.right
    obtain ⟨hseen, hleft⟩ := scanReply_spec (c.sent - 1) fn [] frame hstream
    simp only [Client.handle, hconn]
    generalize scanReply fn (c.sent - 1) [] frame (frames.map (Delivery.mk (c.sent - 1))) = e at hseen hleft
    have hown : ∀ x ∈ c.seen ++ e.seen, x.1 = x.2 := fun x hx =>
      (List.mem_append.mp hx).elim (h.own x) (hseen x)
    cases hp : e.poisoned with
    | true => exact ⟨fun _ hk => (nomatch hk), h.sound, hown⟩
    | false =>
      refine ⟨fun k hk => ?_, h.sound, hown⟩
      cases hk
      exact hleft.resolve_left (by rw [hp]; exact Bool.false_ne_true)
  | ping | put _ _ | read _ | delete _ | batchPut _ _ | stats | info | compact | promote =>
    exact hsingle (by simp [Request.opcode])

theorem Drained.attempts (hn : net.Obeys) (r : Request) (m : Nat) (prefer : Bytes) (lastErr : Option ClientError)
    (n : ν) (h : Drained c) : Drained (Client.attempts net r m prefer lastErr n c).2.1 := by
  induction m generalizing prefer lastErr n c with
  | zero => exact h
  | succ m ih =>
    rw [Client.attempts]
    have hconnect := h.connect net prefer n
    cases hc : Client.connect net prefer n c with
    | mk n₁ out =>
      obtain ⟨c₁, err⟩ := out
      rw [hc] at hconnect
      have hconnect : Drained c₁ := hconnect
      cases err with
      | some e => exact hconnect
      | none =>
        have hex := hconnect.exchange hn r n₁
        cases hx : Client.exchange net r.encode n₁ c₁ with
        | mk n₂ out =>
          obtain ⟨c₂, res⟩ := out
          rw [hx] at hex
          cases res with
          | error e =>
            simp only [hx]
            exact ih [] (some e) n₂ hex
          | ok frame =>
            have hopen : Opened r c₂ frame := hex
            cases hs : Status.ofFrame frame with
            | redirect =>
              simp only [hx, hs]
              split
              · exact ih [] _ n₂ (drained_drop hopen.sound hopen.own _)
              · exact ih _ lastErr n₂ (hopen.drained (.inr (by rw [hs]; exact Status.noConfusion)))
            | error =>
              simp only [hx, hs]
              exact hopen.drained (.inr (by rw [hs]; exact Status.noConfusion))
            | ok | notFound | rangeChunk | rangeEnd | other _ =>
              simp only [hx, hs]
              exact hopen.handle

/-- **A call** leaves nothing unread behind. -/
theorem Drained.call (hn : net.Obeys) (h : Drained c) (r : Request) (n : ν) : Drained (Client.call net r n c).2.1 := by
  cases r with
  | batchPut keys values =>
    simp only [Client.call]
    split
    · exact h
    · split
      · exact h
      · exact h.attempts hn _ _ _ _ _
  | ping | put _ _ | read _ | delete _ | scan _ _ _ _ | stats | info | compact | promote =>
    simp only [Client.call]
    split
    · exact h
    · exact h.attempts hn _ _ _ _ _

/-- The calls on one client, one after the other. -/
def clientMachine (net : Net ν) : Machine Request (ν × Client) (Except ClientError Answer) :=
  ⟨fun s r => (((Client.call net r s.1 s.2).1, (Client.call net r s.1 s.2).2.1), (Client.call net r s.1 s.2).2.2)⟩

end Drained

/-- **Every frame a client reads answers the request it waits for**, and a call that
returns before the end of its reply leaves no connection behind: after any sequence of
calls, whatever the network and the servers do within the grammar. -/
theorem reads_own_replies {ν : Type} (net : Net ν) (hn : net.Obeys) (addrs : List Bytes) (maxAttempts : Int)
    (c : Client) (hnew : Client.new addrs maxAttempts = .ok c) (n : ν) (rs : List Request) :
    (∀ x ∈ ((clientMachine net).run (n, c) rs).1.2.seen, x.1 = x.2) ∧
      ∀ k, ((clientMachine net).run (n, c) rs).1.2.conn = some k → k.inbox = [] := by
  have hstart : Drained c := by
    rw [Client.new] at hnew
    split at hnew
    · cases hnew
    · cases hnew
      exact ⟨fun _ hk => (nomatch hk), rfl, fun _ hx => absurd hx List.not_mem_nil⟩
  have hrun : Drained ((clientMachine net).run (n, c) rs).1.2 := by
    clear hnew
    induction rs generalizing n c with
    | nil => exact hstart
    | cons r rest ih => exact ih _ _ (hstart.call hn r n)
  exact ⟨hrun.own, hrun.inbox⟩

/-- A node that answers a range request with two chunks and the end, and any other with
the value `[7]`. -/
def twoChunks : Net Unit :=
  ⟨fun _ _ => ((), true), fun _ _ req => ((), true,
    if req.headD 0 = Opcode.range.byte then [[4] ++ (encBytes [1] ++ encBytes [8]),
      [4] ++ (encBytes [2] ++ encBytes [9]), [5]]
    else [[0] ++ encBytes [7]])⟩

theorem twoChunks_obeys : twoChunks.Obeys := by
  intro n addr r
  cases r with
  | scan startKey endKey limit fn => exact .inr ⟨rfl, rfl⟩
  | ping | put _ _ | read _ | delete _ | batchPut _ _ | stats | info | compact | promote => exact .inl le_rfl

/-- The callback gives up at the first pair; the next call is answered with its own value. -/
theorem reads_own_replies_aborted :
    ((clientMachine twoChunks).run ((), ⟨[[97]], 4, none, 0, false, false, 0, []⟩)
        [.scan [] [] 0 fun _ => some "stop", .read [1]]).2 = [.error (.callback "stop"), .ok (.value [7])] ∧
      ∀ k, ((clientMachine twoChunks).run ((), ⟨[[97]], 4, none, 0, false, false, 0, []⟩)
        [.scan [] [] 0 fun _ => some "stop", .read [1]]).1.2.conn = some k → k.inbox = [] :=
  ⟨by decide +kernel, (reads_own_replies twoChunks twoChunks_obeys [[97]] 4
    ⟨[[97]], 4, none, 0, false, false, 0, []⟩ rfl ()
    [.scan [] [] 0 fun _ => some "stop", .read [1]]).2⟩

end Gokv.Remote
