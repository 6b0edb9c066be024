import Gokv.Proto.RangeReply
import Gokv.Engine.Ranges

/-! What a node makes of a connection.

`serveConn` takes frame after frame off a connection and hands each to `handle`. Whoever is at the
other end may send what it likes, and while a connection is served the node may win or lose the
leadership and other connections work on the same store. `serveConn_spec`: none of this makes a
handler fail, and the connection goes as a `Conversation` does. What it does to the node are the
writes, announcements and promotions that its frames are the exact encodings of, each once and in
order, a write only while the node leads; every other frame changes nothing. Every request is
answered by one reply of the form a client reads, up to the `OpReplicate` that makes the connection
a stream.

A frame is handled in one piece, and what others do happens between the frames. A compaction that
`OpCompact` starts is of this kind too, since the handler does not wait for it. -/
namespace Gokv.Proto
open Base Engine Remote

def opReplicate : UInt8 := 0x20
def opVote : UInt8 := 0x21
def opAnnounce : UInt8 := 0x22

/-- The opcode of a request a client can send. -/
def opcodeOf (b : UInt8) : Option Opcode :=
  [Opcode.ping, .put, .get, .delete, .range, .batchPut, .stats, .info, .compact, .promote].find? fun o =>
    o.byte = b

theorem opcodeOf_byte (o : Opcode) : opcodeOf o.byte = some o := by cases o <;> rfl

theorem opcodeOf_eq {b : UInt8} {o : Opcode} (h : opcodeOf b = some o) : b = o.byte := by
  have hfound := List.find?_some h
  exact (of_decide_eq_true hfound).symm

/-! ### The fields of a request -/

/-- The reads of a request, and `Done`. -/
def Dec.fields (d : Dec) (ks : List Kind) : Option (Except Error (List Field)) :=
  match d.reads ks with
  | none => none
  | some (vs, d) =>
    match d.done with
    | some e => some (.error e)
    | none => some (.ok vs)

/-- The frame is exactly this opcode with these fields. -/
def Says (f : Bytes) (op : UInt8) (vs : List Field) : Prop :=
  (∀ v ∈ vs, v.Fits) ∧ f = op :: vs.flatMap Field.encode

section Fields
variable {d : Dec} {before after : Bytes}

theorem Dec.done_failed (h : d.err = some .malformed) : d.done = some .malformed := by
  rw [Dec.done, h]
  exact if_pos (Option.some_ne_none _)

theorem encode_bytes {b : Bytes} (h : b.length < 2 ^ 32) : (Field.bytes b).encode = encBytes b := by
  rw [Field.encode, UInt32.toNat_ofNat_of_lt' h]
  rfl

/-- What a read takes off the body, if it does not fail. -/
def Took (d : Dec) (before after : Bytes) (vs : List Field) : Prop :=
  (∀ v ∈ vs, v.Fits) ∧ ∃ rest, after = vs.flatMap Field.encode ++ rest ∧
    d.At (before ++ vs.flatMap Field.encode) rest

theorem took_one {d' : Dec} {v : Field} {rest : Bytes} (hfits : v.Fits) (hsplit : after = v.encode ++ rest)
    (hat : d'.At (before ++ v.encode) rest) : Took d' before after [v] := by
  refine ⟨by simpa using hfits, rest, ?_, ?_⟩
  · simpa using hsplit
  · simpa using hat

/-- A number, whatever its width. -/
theorem Dec.At.number_exact (h : d.At before after) {w : Nat} {k : Kind} {v : Nat → Field}
    (hread : d.read k = (d.number w).map fun x => (v x.1, x.2)) (hkind : ∀ n, (v n).kind = k)
    (hfits : ∀ n, (v n).Fits)
    (henc : ∀ n, n < 256 ^ w → (v n).encode = putBE w n) :
    ∃ v d', d.read k = some (v, d') ∧
      (d'.err = some .malformed ∨ v.kind = k ∧ Took d' before after [v]) := by
  by_cases hw : w ≤ after.length
  · have hlen : (after.take w).length = w := List.length_take_of_le hw
    have hlt := getLE_lt (after.take w).reverse
    have hput : putBE w (getBE (after.take w)) = after.take w := by
      have hback := putLE_getLE (after.take w).reverse
      rw [List.length_reverse, hlen] at hback
      rw [putBE, getBE, hback, List.reverse_reverse]
    rw [List.length_reverse, hlen] at hlt
    have hv : (v (getBE (after.take w))).encode = after.take w := (henc _ hlt).trans hput
    have hsplit : after = (v (getBE (after.take w))).encode ++ after.drop w := by
      rw [hv, List.take_append_drop]
    refine ⟨v (getBE (after.take w)), {d with pos := d.pos + w}, by rw [hread, h.number hw]; rfl,
      .inr ⟨hkind _, took_one (hfits _) hsplit ?_⟩⟩
    rw [hv]
    exact h.advance hw
  · exact ⟨_, _, by rw [hread, h.number_short (Nat.lt_of_not_le hw)]; rfl, .inl rfl⟩

/-- **A field that is read is what stands there**, or the decoder has failed. -/
theorem Dec.At.read_exact (h : d.At before after) (k : Kind) :
    ∃ v d', d.read k = some (v, d') ∧
      (d'.err = some .malformed ∨ v.kind = k ∧ Took d' before after [v]) := by
  have hbytes {v : Bytes → Field} (hread : d.read k = d.bytes.map fun x => (v x.1, x.2))
      (hkind : ∀ b, (v b).kind = k)
      (hv : ∀ b, b.length < 2 ^ 32 → (v b).Fits ∧ (v b).encode = encBytes b) :
      ∃ v d', d.read k = some (v, d') ∧
        (d'.err = some .malformed ∨ v.kind = k ∧ Took d' before after [v]) := by
    have hfound := h.bytes
    cases hb : decBytes after with
    | none =>
      rw [hb] at hfound
      obtain ⟨d', hd', herr, -⟩ := hfound
      exact ⟨_, d', by rw [hread, hd']; rfl, .inl herr⟩
    | some x =>
      obtain ⟨b, rest⟩ := x
      rw [hb] at hfound
      obtain ⟨d', hd', hat⟩ := hfound
      obtain ⟨hsplit, hlen⟩ := decBytes_exact hb
      obtain ⟨hfits, henc⟩ := hv b hlen
      rw [← henc] at hsplit hat
      exact ⟨_, d', by rw [hread, hd']; rfl, .inr ⟨hkind b, took_one hfits hsplit hat⟩⟩
  cases k with
  | u8 =>
    exact h.number_exact (w := 1) (v := fun n => .u8 (UInt8.ofNat n)) (Option.map_map ..)
      (fun _ => rfl) (fun _ => trivial)
      fun _ _ => rfl
  | u32 =>
    exact h.number_exact (w := 4) (v := fun n => .u32 (UInt32.ofNat n)) (Option.map_map ..)
      (fun _ => rfl) (fun _ => trivial)
      fun n hn => by rw [Field.encode, UInt32.toNat_ofNat_of_lt' hn]
  | u64 =>
    exact h.number_exact (w := 8) (v := fun n => .u64 (UInt64.ofNat n)) (Option.map_map ..)
      (fun _ => rfl) (fun _ => trivial)
      fun n hn => by rw [Field.encode, UInt64.toNat_ofNat_of_lt' hn]
  | bytes | str => exact hbytes rfl (fun _ => rfl) fun b hb => ⟨hb, encode_bytes hb⟩

theorem Dec.At.reads_exact (h : d.At before after) (ks : List Kind) :
    ∃ vs d', d.reads ks = some (vs, d') ∧
      (d'.err = some .malformed ∨ vs.map Field.kind = ks ∧ Took d' before after vs) := by
  induction ks generalizing d before after with
  | nil => exact ⟨[], d, rfl, .inr ⟨rfl, by simp, after, rfl, by simpa using h⟩⟩
  | cons k rest ih =>
    obtain ⟨v, d₁, hd₁, hfirst⟩ := h.read_exact k
    rcases hfirst with herr | ⟨hkind, hfits, after₁, hsplit, hat⟩
    · refine ⟨v :: rest.map Kind.zero, d₁, ?_, .inl herr⟩
      rw [Dec.reads, hd₁]
      simp only [Dec.reads_failed herr]
      rfl
    · obtain ⟨vs, d₂, hd₂, hrest⟩ := ih hat
      refine ⟨v :: vs, d₂, ?_, hrest.imp_right ?_⟩
      · rw [Dec.reads, hd₁]
        simp only [hd₂]
        rfl
      · rintro ⟨hkinds, hfits', after₂, hsplit', hat'⟩
        simp only [List.flatMap_cons, List.flatMap_nil, List.append_nil] at hsplit hat'
        refine ⟨by rw [List.map_cons, hkind, hkinds], ?_, after₂, ?_, ?_⟩
        · exact List.forall_mem_cons.mpr ⟨hfits v List.mem_cons_self, hfits'⟩
        · rw [hsplit, hsplit', List.flatMap_cons, List.append_assoc]
        · rwa [List.flatMap_cons, ← List.append_assoc]

/-- **The fields of a request are accepted exactly if it is their encoding.** -/
theorem fields_spec (op : UInt8) (b : Bytes) (ks : List Kind) :
    ∃ r, (newDec b).fields ks = some r ∧
      ∀ vs, r = .ok vs ↔ vs.map Field.kind = ks ∧ Says (op :: b) op vs := by
  obtain ⟨vs, d, hd, hout⟩ := (newDec_at b).reads_exact ks
  -- what is an encoding is read back
  have hback (ws : List Field) (hws : ws.map Field.kind = ks) (h : Says (op :: b) op ws) :
      d.done = none ∧ ws = vs := by
    obtain ⟨d', hd', hdone⟩ := (body_round_trip op ws h.1).whole
    rw [body_eq, ← (List.cons.inj h.2).2, hws, hd] at hd'
    cases hd'
    exact ⟨hdone, rfl⟩
  simp only [Dec.fields, hd]
  cases hdone : d.done with
  | some e =>
    refine ⟨.error e, rfl, fun ws => iff_of_false (by rintro ⟨⟩) fun h => ?_⟩
    rw [(hback ws h.1 h.2).1] at hdone
    cases hdone
  | none =>
    refine ⟨.ok vs, rfl, fun ws => ⟨?_, fun h => by rw [(hback ws h.1 h.2).2]⟩⟩
    rintro ⟨⟩
    rcases hout with herr | ⟨hkinds, hfits, rest, hsplit, hat⟩
    · rw [Dec.done_failed herr] at hdone
      cases hdone
    · rw [hat.done] at hdone
      by_cases hrest : rest = []
      · exact ⟨hkinds, hfits, by rw [hsplit, hrest, List.append_nil]⟩
      · rw [if_neg hrest] at hdone
        cases hdone

/-- A frame says one thing. -/
theorem Says.unique {f : Bytes} {op : UInt8} {vs ws : List Field} (h : Says f op vs) (h' : Says f op ws)
    (hkinds : vs.map Field.kind = ws.map Field.kind) : vs = ws := by
  obtain ⟨r, -, hiff⟩ := fields_spec op (vs.flatMap Field.encode) (vs.map Field.kind)
  rw [← h.2] at hiff
  have := ((hiff vs).mpr ⟨rfl, h⟩).symm.trans ((hiff ws).mpr ⟨hkinds.symm, h'⟩)
  exact Except.ok.inj this

theorem kind_u32 {v : Field} : v.kind = .u32 ↔ ∃ n, v = .u32 n := by cases v <;> simp [Field.kind]
theorem kind_u64 {v : Field} : v.kind = .u64 ↔ ∃ n, v = .u64 n := by cases v <;> simp [Field.kind]
theorem kind_bytes {v : Field} : v.kind = .bytes ↔ ∃ b, v = .bytes b := by cases v <;> simp [Field.kind]
theorem kind_str {v : Field} : v.kind = .str ↔ ∃ b, v = .str b := by cases v <;> simp [Field.kind]

end Fields

/-! ### The handlers -/

/-- A node, as the handlers see it. -/
structure Host extends Server where
  id : Bytes
  addr : Bytes
  electionTimeout : Int
  epoch : UInt64
  lastContact : Int
  wasLeader : Bool

/-- What a handler takes from elsewhere: the time, the figures a node reports of itself, and whether
there was no compaction running. -/
structure Moment where
  now : Int64
  statPairs : List (Bytes × Bytes)
  infoPairs : List (Bytes × Bytes)
  started : Bool

/-- What a request made a node do. -/
structure Served where
  host : Host
  replies : List Bytes
  /-- Every frame could be written; otherwise the connection is closed. -/
  keeps : Bool

/-- `WriteFrame` of a reply of one frame. -/
def Served.wrote (n : Host) (frame : Bytes) : Served :=
  if maxFrameSize < frame.length then ⟨n, [], false⟩ else ⟨n, [frame], true⟩

def encodePairs (pairs : List (Bytes × Bytes)) : Bytes :=
  pairs.foldl (fun e p => Enc.str (Enc.str e p.1) p.2)
    (Enc.u32 (newEnc Status.ok.byte) (UInt32.ofNat pairs.length))

def unknownOpcode (op : UInt8) : Bytes :=
  utf8 ("unknown opcode OP(0x" ++ String.ofList (Nat.toDigits 16 op.toNat) ++ ")")

section Handle
variable [Checksum] (text : Engine.Error → Bytes) (configured : Int64)

def valueFrame : Except Engine.Error Bytes → Bytes
  | .error .keyNotFound => [Status.notFound.byte]
  | .error e => errorFrame (text e)
  | .ok v => Enc.bytes (newEnc Status.ok.byte) v

def deletedFrame : Option Engine.Error → Bytes
  | none => [Status.ok.byte]
  | some .keyNotFound => [Status.notFound.byte]
  | some e => errorFrame (text e)

namespace Host

def fails (n : Host) (e : Error) : Served := .wrote n (errorFrame (utf8 e.text))

/-- A write, which `redirectIfNotLeader` keeps away from a follower. -/
def write (n : Host) (op : Op) (frame : Option Engine.Error → Bytes) : Served :=
  if !n.leader then .wrote n (redirectFrame n.leaderAddr)
  else .wrote {n with store := (n.store.apply op).1} (frame (n.store.apply op).2)

def ranged (n : Host) (start endKey : Bytes) (limit : UInt32) : Served :=
  let found := n.store.scan start endKey (rangeLimit configured limit).toInt
  let out := serveRange found.1 (found.2.map text)
  ⟨n, out.1, out.2.isNone⟩

/-- The reply of `handleVote`. -/
def voteFrame (n : Host) (now : Int) : Bytes :=
  let alive := n.leader || now - n.lastContact ≤ n.electionTimeout
  let e := Enc.str (newEnc Status.ok.byte) n.id
  let e := Enc.u64 (Enc.u64 (Enc.u8 e (if n.leader then 1 else 0)) n.epoch) n.store.seq
  Enc.u8 (Enc.str e n.leaderAddr) (if alive then 1 else 0)

def handleAnnounce (n : Host) (now : Int) (leaderAddr : Bytes) (epoch : UInt64) : Host :=
  if epoch ≤ n.epoch then n
  else {n with leader := false, leaderAddr := leaderAddr, epoch := epoch, lastContact := now
               wasLeader := n.wasLeader || n.leader}

def promoteTo (n : Host) (now : Int) (epoch : UInt64) : Host :=
  if n.leader ∧ n.epoch ≥ epoch then n
  else {n with leader := true, leaderAddr := n.addr, epoch := epoch, lastContact := now}

/-- `handle`, for the opcode and the rest of a frame. -/
def handle (n : Host) (m : Moment) (op : UInt8) (b : Bytes) : Option Served :=
  match opcodeOf op with
  | some .ping => some (.wrote n [Status.ok.byte])
  | some .get =>
    match (newDec b).fields [.bytes] with
    | some (.ok [.bytes key]) => some (.wrote n (valueFrame text (n.store.get key)))
    | some (.error e) => some (n.fails e)
    | _ => none
  | some .put =>
    match (newDec b).fields [.bytes, .bytes] with
    | some (.ok [.bytes key, .bytes value]) => some (n.write (.put m.now key value) (storedFrame text))
    | some (.error e) => some (n.fails e)
    | _ => none
  | some .delete =>
    match (newDec b).fields [.bytes] with
    | some (.ok [.bytes key]) => some (n.write (.delete m.now key) (deletedFrame text))
    | some (.error e) => some (n.fails e)
    | _ => none
  | some .batchPut =>
    match n.handleBatchPut text m.now b with
    | some out => some (.wrote {n with store := out.store} (out.replies.headD []))
    | none => none
  | some .range =>
    match (newDec b).fields [.bytes, .bytes, .u32] with
    | some (.ok [.bytes start, .bytes endKey, .u32 limit]) =>
      some (n.ranged text configured start endKey limit)
    | some (.error e) => some (n.fails e)
    | _ => none
  | some .stats => some (.wrote n (encodePairs m.statPairs))
  | some .info => some (.wrote n (encodePairs m.infoPairs))
  | some .compact =>
    match (newDec b).fields [] with
    | some (.ok _) =>
      let said := if m.started then "started" else "already running"
      some (.wrote n (encodePairs ((utf8 "compaction", utf8 said) :: m.statPairs)))
    | some (.error e) => some (n.fails e)
    | none => none
  | some .promote =>
    match (newDec b).fields [] with
    | some (.ok _) => some (.wrote (n.promoteTo m.now.toInt (n.epoch + 1)) [Status.ok.byte])
    | some (.error e) => some (n.fails e)
    | none => none
  | none =>
    if op = opVote then
      match (newDec b).fields [.str, .u64] with
      | some (.ok _) => some (.wrote n (n.voteFrame m.now.toInt))
      | some (.error e) => some (n.fails e)
      | none => none
    else if op = opAnnounce then
      match (newDec b).fields [.str, .str, .u64] with
      | some (.ok [.str leaderAddr, .str _, .u64 epoch]) =>
        some (.wrote (n.handleAnnounce m.now.toInt leaderAddr epoch) [Status.ok.byte])
      | some (.error e) => some (n.fails e)
      | _ => none
    else some (.wrote n (errorFrame (unknownOpcode op)))

end Host

/-! ### The connection -/

/-- What goes on around a connection up to its next frame: what others do to the node, whether it is
closing, what the handler will find, and whether what is written goes out. -/
structure Around where
  others : Host → Host
  closing : Bool
  moment : Moment
  flushes : Bool

/-- Why a connection ends. -/
inductive Ended where
  /-- Nothing more arrives, or an empty frame, or the node is closing. -/
  | finished
  /-- A reply could not be written. -/
  | unwritten
  /-- `OpReplicate` was malformed; the reply. -/
  | refused (reply : Bytes)
  /-- The follower at the other end gets the log from here on. -/
  | streaming (fromSeq : UInt64)

/-- What a connection has come to. -/
structure Session where
  host : Host
  /-- The frames `handle` was given, with the replies. -/
  exchanges : List (Bytes × List Bytes)
  ended : Ended

variable (env : Nat → Around)

/-- `serveConn`; the frames are numbered. -/
def serveConn : Nat → Nat → Host → Bytes → Option Session
  | 0, _, n, _ => some ⟨n, [], .finished⟩
  | fuel + 1, i, n, stream =>
    if (env i).closing then some ⟨n, [], .finished⟩
    else
      match readFrame stream with
      | .error _ | .ok ([], _) => some ⟨n, [], .finished⟩
      | .ok (op :: b, rest) =>
        if op = opReplicate then
          match (newDec b).fields [.u64] with
          | some (.ok [.u64 seq]) => some ⟨n, [], .streaming seq⟩
          | some (.error e) => some ⟨n, [], .refused (errorFrame (utf8 e.text))⟩
          | _ => none
        else
          match ((env i).others n).handle text configured (env i).moment op b with
          | none => none
          | some out =>
            if out.keeps && (env i).flushes then
              (serveConn fuel (i + 1) out.host rest).map fun c =>
                {c with exchanges := (op :: b, out.replies) :: c.exchanges}
            else some ⟨out.host, [(op :: b, out.replies)], .unwritten⟩

/-- A connection, from when it is accepted. -/
def accept (n : Host) (stream : Bytes) : Option Session :=
  serveConn text configured env (stream.length + 1) 0 n stream

/-! ### What a frame is for -/

/-- What a frame can have a node do. -/
inductive Command where
  | write (op : Op)
  | announce (leaderAddr leaderID : Bytes) (epoch : UInt64)
  | promote

/-- The frame is exactly the request for this. -/
inductive Orders (now : Int64) (f : Bytes) : Command → Prop
  | put {key value : Bytes} (asked : Says f Opcode.put.byte [.bytes key, .bytes value]) :
      Orders now f (.write (.put now key value))
  | delete {key : Bytes} (asked : Says f Opcode.delete.byte [.bytes key]) :
      Orders now f (.write (.delete now key))
  | batchPut {b : Bytes} {keys vals : List Bytes} (frame : f = Opcode.batchPut.byte :: b)
      (asked : Encodes b keys vals) : Orders now f (.write (.batchPut now keys vals))
  | announce {leaderAddr leaderID : Bytes} {epoch : UInt64}
      (asked : Says f opAnnounce [.str leaderAddr, .str leaderID, .u64 epoch]) :
      Orders now f (.announce leaderAddr leaderID epoch)
  | promote (asked : Says f Opcode.promote.byte []) : Orders now f .promote

/-- What a command makes of a node; a write is for the leader. -/
def Host.obey (n : Host) (now : Int64) : Command → Host
  | .write op => if n.leader then {n with store := (n.store.apply op).1} else n
  | .announce leaderAddr _ epoch => n.handleAnnounce now.toInt leaderAddr epoch
  | .promote => n.promoteTo now.toInt (n.epoch + 1)

/-- A whole reply: one frame, or the chunks of a range and what ends them. -/
def Complete (f : Bytes) (frames : List Bytes) : Prop :=
  (∃ frame, frames = [frame] ∧
    ∃ st ∈ [Status.ok, .notFound, .error, .redirect], frame.head? = some st.byte) ∨
  f.head? = some Opcode.range.byte ∧ ∃ chunks last, frames = chunks ++ [last] ∧
    (∀ c ∈ chunks, c.head? = some Status.rangeChunk.byte) ∧
    ∃ st ∈ [Status.rangeEnd, .error], last.head? = some st.byte

/-- **What a request does to a node and what it is answered.** -/
structure Answers (n : Host) (now : Int64) (f : Bytes) (n' : Host) (replies : List Bytes) : Prop where
  effect : (∃ c, Orders now f c ∧ n' = n.obey now c) ∨ (∀ c, ¬ Orders now f c) ∧ n' = n
  reply : Complete f replies
  acks : ∀ op, Orders now f (.write op) → n.leader = true →
    (replies = [[Status.ok.byte]] ↔ (n.store.apply op).2 = none)
  redirects : ∀ op, Orders now f (.write op) → n.leader = false → replies = [redirectFrame n.leaderAddr]
  reads : ∀ key, Says f Opcode.get.byte [.bytes key] → replies = [valueFrame text (n.store.get key)]

/-- **A connection as it should go**, from the `i`-th frame on. -/
inductive Conversation : Nat → Host → List Bytes → Session → Prop
  | finished {i : Nat} {n : Host} {frames : List Bytes}
      (last : (env i).closing = true ∨ ∀ f ∈ frames.head?, f = []) :
      Conversation i n frames ⟨n, [], .finished⟩
  | streaming {i : Nat} {n : Host} {f : Bytes} {frames : List Bytes} {seq : UInt64}
      (asked : Says f opReplicate [.u64 seq]) : Conversation i n (f :: frames) ⟨n, [], .streaming seq⟩
  | refused {i : Nat} {n : Host} {f : Bytes} {frames : List Bytes} (msg : Bytes)
      (op : f.head? = some opReplicate) (malformed : ∀ seq, ¬ Says f opReplicate [.u64 seq]) :
      Conversation i n (f :: frames) ⟨n, [], .refused (errorFrame msg)⟩
  | answered {i : Nat} {n n' : Host} {f : Bytes} {frames replies : List Bytes} {c : Session}
      (op : f ≠ [] ∧ f.head? ≠ some opReplicate)
      (answer : Answers text ((env i).others n) (env i).moment.now f n' replies)
      (rest : Conversation (i + 1) n' frames c) :
      Conversation i n (f :: frames) {c with exchanges := (f, replies) :: c.exchanges}
  | unwritten {i : Nat} {n n' : Host} {f : Bytes} {frames replies whole : List Bytes}
      (op : f ≠ [] ∧ f.head? ≠ some opReplicate)
      (answer : Answers text ((env i).others n) (env i).moment.now f n' whole) (begun : replies <+: whole) :
      Conversation i n (f :: frames) ⟨n', [(f, replies)], .unwritten⟩

/-! ### The commands -/

section Orders
variable {now : Int64} {f : Bytes} {c c' : Command}

def Command.opcode : Command → UInt8
  | .write (.put _ _ _) => Opcode.put.byte
  | .write (.delete _ _) => Opcode.delete.byte
  | .write _ => Opcode.batchPut.byte
  | .announce _ _ _ => opAnnounce
  | .promote => Opcode.promote.byte

omit [Checksum] in
theorem Says.head {op : UInt8} {vs : List Field} (h : Says f op vs) : f.head? = some op := by
  rw [h.2]
  rfl

omit [Checksum] in
theorem Orders.head (h : Orders now f c) : f.head? = some c.opcode := by
  cases h with
  | put asked | delete asked | announce asked | promote asked => exact asked.head
  | batchPut frame _ =>
    rw [frame]
    rfl

omit [Checksum] in
/-- A frame orders one thing. -/
theorem Orders.unique (h : Orders now f c) (h' : Orders now f c') : c = c' := by
  have hop : c.opcode = c'.opcode := Option.some.inj (h.head.symm.trans h'.head)
  cases h <;> cases h' <;> simp [Command.opcode, Opcode.byte, opAnnounce] at hop
  case put.put asked _ _ asked' =>
    cases asked.unique asked' rfl
    rfl
  case delete.delete asked _ asked' =>
    cases asked.unique asked' rfl
    rfl
  case batchPut.batchPut b keys vals frame asked b' keys' vals' frame' asked' =>
    obtain rfl : b = b' := (List.cons.inj (frame.symm.trans frame')).2
    obtain ⟨room, read, -, -, hiff⟩ := decodeBatch_spec b
    cases ((hiff (keys, vals)).mpr asked).symm.trans ((hiff (keys', vals')).mpr asked')
    rfl
  case announce.announce asked _ _ _ asked' =>
    cases asked.unique asked' rfl
    rfl
  case promote.promote => rfl

end Orders

/-! ### The frames of a range -/

/-- Nothing but chunks has been written. -/
structure Ranging.Chunked (r : Ranging) : Prop where
  chunk : r.chunk.head? = some Status.rangeChunk.byte
  frames : ∀ c ∈ r.frames, c.head? = some Status.rangeChunk.byte

omit [Checksum] in
theorem Ranging.Chunked.send {r : Ranging} (h : r.Chunked) {frame : Bytes}
    (hframe : frame.head? = some Status.rangeChunk.byte) : (r.send frame).1.Chunked := by
  rw [Ranging.send]
  split
  · exact h
  · refine ⟨h.chunk, fun c hc => ?_⟩
    rcases List.mem_append.mp hc with hc | hc
    · exact h.frames c hc
    · rwa [List.mem_singleton.mp hc]

omit [Checksum] in
theorem Ranging.Chunked.pair {r : Ranging} (h : r.Chunked) (k v : Bytes) : (r.pair k v).1.Chunked := by
  have hchunk : (Enc.bytes (Enc.bytes r.chunk k) v).head? = some Status.rangeChunk.byte := by
    have hhead := h.chunk
    cases hc : r.chunk with
    | nil =>
      rw [hc] at hhead
      cases hhead
    | cons c cs =>
      rw [hc] at hhead
      exact hhead
  have hfull : Ranging.Chunked {r with chunk := Enc.bytes (Enc.bytes r.chunk k) v, total := r.total + 1} :=
    ⟨hchunk, h.frames⟩
  have hsent := hfull.send hchunk
  rw [Ranging.pair]
  simp only
  split
  · generalize Ranging.send _ _ = out at hsent
    obtain ⟨r', _ | e⟩ := out
    · exact ⟨rfl, hsent.frames⟩
    · exact hsent
  · exact hfull

omit [Checksum] in
theorem Ranging.Chunked.pairs {r : Ranging} (h : r.Chunked) (handed : List (Bytes × Bytes)) :
    (r.pairs handed).1.Chunked := by
  induction handed generalizing r with
  | nil => exact h
  | cons x rest ih =>
    have hpair := h.pair x.1 x.2
    rw [Ranging.pairs]
    generalize r.pair x.1 x.2 = out at hpair
    obtain ⟨r', _ | e⟩ := out
    · exact ih hpair
    · exact hpair

/-- The frames of a range reply: chunks and what ends them, or some chunks if one could not be written. -/
structure Ranged (out : List Bytes × Option Error) : Prop where
  whole : out.2 = none → ∃ chunks last, out.1 = chunks ++ [last] ∧
    (∀ c ∈ chunks, c.head? = some Status.rangeChunk.byte) ∧
    ∃ st ∈ [Status.rangeEnd, .error], last.head? = some st.byte
  cut : out.2 ≠ none → ∀ c ∈ out.1, c.head? = some Status.rangeChunk.byte

omit [Checksum] in
theorem Ranging.Chunked.last {r : Ranging} (h : r.Chunked) {st : Status}
    (hst : st ∈ [Status.rangeEnd, .error]) {f : Bytes} (hf : f.head? = some st.byte) :
    Ranged ((r.send f).1.frames, (r.send f).2) := by
  rw [Ranging.send]
  split
  · exact ⟨fun hsent => (by cases hsent), fun _ => h.frames⟩
  · exact ⟨fun _ => ⟨r.frames, f, rfl, h.frames, st, hst, hf⟩, fun hsent => absurd rfl hsent⟩

omit [Checksum] in
theorem serveRange_frames (handed : List (Bytes × Bytes)) (scanErr : Option Bytes) :
    Ranged (serveRange handed scanErr) := by
  have hcut {r : Ranging} (h : r.Chunked) (e : Error) : Ranged (r.frames, some e) :=
    ⟨fun hsent => (by cases hsent), fun _ => h.frames⟩
  have hread : (Ranging.start.pairs handed).1.Chunked :=
    Ranging.Chunked.pairs ⟨rfl, fun c hc => absurd hc List.not_mem_nil⟩ handed
  rw [serveRange]
  generalize Ranging.start.pairs handed = out at hread
  obtain ⟨r, _ | e⟩ := out
  · cases scanErr with
    | some msg => exact hread.last (by decide) rfl
    | none =>
      have hrest : (if 1 < r.chunk.length then r.send r.chunk else (r, none)).1.Chunked := by
        split
        · exact hread.send hread.chunk
        · exact hread
      simp only [Ranging.finish]
      generalize (if 1 < r.chunk.length then r.send r.chunk else (r, none)) = out at hrest
      obtain ⟨r', _ | e⟩ := out
      · exact hrest.last (by decide) rfl
      · exact hcut hrest e
  · exact hcut hread e

/-! ### Every frame -/

omit [Checksum] in
theorem complete_one {f frame : Bytes} (st : Status) (hst : st ∈ [Status.ok, .notFound, .error, .redirect])
    (h : frame.head? = some st.byte) : Complete f [frame] :=
  .inl ⟨frame, rfl, st, hst, h⟩

omit [Checksum] in
theorem encodePairs_head (pairs : List (Bytes × Bytes)) :
    (encodePairs pairs).head? = some Status.ok.byte := by
  have hgrow (ps : List (Bytes × Bytes)) (e : Bytes) (x : UInt8) :
      (ps.foldl (fun e p => Enc.str (Enc.str e p.1) p.2) (x :: e)).head? = some x := by
    induction ps generalizing e with
    | nil => rfl
    | cons p ps ih => exact ih _
  exact hgrow pairs _ _

section Answers
variable {text} {n n' : Host} {now : Int64} {op : UInt8} {b f : Bytes} {c : Command}

omit [Checksum] in
/-- The requests that are not read back from the reply alone. -/
theorem Orders.opcode_mem (h : Orders now (op :: b) c) :
    op ∈ [Opcode.put.byte, Opcode.delete.byte, Opcode.batchPut.byte, opAnnounce, Opcode.promote.byte] := by
  obtain rfl : op = c.opcode := Option.some.inj h.head
  cases h <;> simp [Command.opcode]

omit [Checksum] in
theorem Orders.not_get (h : Orders now f c) (key : Bytes) : ¬ Says f Opcode.get.byte [.bytes key] := by
  intro hget
  have hop := h.head.symm.trans hget.head
  cases h <;> simp [Command.opcode, Opcode.byte, opAnnounce] at hop

/-- A request that orders nothing and reads no value. -/
theorem answers_idle (hno : ∀ c, ¬ Orders now f c) (hget : ∀ key, ¬ Says f Opcode.get.byte [.bytes key])
    {replies : List Bytes} (h : Complete f replies) : Answers text n now f n replies where
  effect := .inr ⟨hno, rfl⟩
  reply := h
  acks _ h := absurd h (hno _)
  redirects _ h := absurd h (hno _)
  reads key h := absurd h (hget key)

theorem answers_other (hop : op ∉ [Opcode.put.byte, Opcode.delete.byte, Opcode.batchPut.byte, opAnnounce,
    Opcode.promote.byte]) (hget : op ≠ Opcode.get.byte) {replies : List Bytes}
    (h : Complete (op :: b) replies) : Answers text n now (op :: b) n replies :=
  answers_idle (fun _ h => hop h.opcode_mem) (fun _ h => hget (Option.some.inj h.head)) h

/-- The fields of a command. -/
def fieldsOf (op : UInt8) : List Kind :=
  if op = Opcode.put.byte then [.bytes, .bytes]
  else if op = Opcode.delete.byte then [.bytes]
  else if op = opAnnounce then [.str, .str, .u64]
  else []

/-- A request for a command that is malformed. -/
theorem answers_malformed {e : Error} (hr : (newDec b).fields (fieldsOf op) = some (.error e))
    (hop : op ≠ Opcode.get.byte ∧ op ≠ Opcode.batchPut.byte) (msg : Bytes) :
    Answers text n now (op :: b) n [errorFrame msg] := by
  have hno (c : Command) : ¬ Orders now (op :: b) c := fun h => by
    obtain ⟨r, hr', hiff⟩ := fields_spec op b (fieldsOf op)
    cases hr.symm.trans hr'
    cases h with
    | put asked | delete asked | announce asked | promote asked =>
      obtain rfl := Option.some.inj asked.head
      cases (hiff _).mpr ⟨rfl, asked⟩
    | batchPut frame _ => exact hop.2 (List.cons.inj frame).1
  exact answers_idle hno (fun _ h => hop.1 (Option.some.inj h.head))
    (complete_one .error (by decide) rfl)

theorem answers_get {key : Bytes} (h : Says (op :: b) Opcode.get.byte [.bytes key]) :
    Answers text n now (op :: b) n [valueFrame text (n.store.get key)] where
  effect := .inr ⟨fun _ hc => hc.not_get key h, rfl⟩
  reply := by
    cases hv : n.store.get key with
    | error e => cases e <;> first
      | exact complete_one .notFound (by decide) rfl
      | exact complete_one .error (by decide) rfl
    | ok v => exact complete_one .ok (by decide) rfl
  acks _ hc := absurd h (hc.not_get key)
  redirects _ hc := absurd h (hc.not_get key)
  reads key' h' := by
    cases h.unique h' rfl
    rfl

/-- What is not a write is answered `OK`. -/
theorem answers_control (h : Orders now f c) (hwrite : ∀ op, c ≠ .write op) :
    Answers text n now f (n.obey now c) [[Status.ok.byte]] where
  effect := .inl ⟨c, h, rfl⟩
  reply := complete_one .ok (by decide) rfl
  acks _ h' := absurd (h.unique h') (hwrite _)
  redirects _ h' := absurd (h.unique h') (hwrite _)
  reads key h' := absurd h' (h.not_get key)

/-- What a handler has done with a frame. -/
def Dealt (text : Engine.Error → Bytes) (n : Host) (now : Int64) (f : Bytes) (out : Served) : Prop :=
  ∃ whole, Answers text n now f out.host whole ∧ (out.keeps = true → out.replies = whole) ∧
    out.replies <+: whole

theorem Answers.wrote {frame : Bytes} (h : Answers text n now f n' [frame]) :
    Dealt text n now f (.wrote n' frame) := by
  rw [Served.wrote]
  split
  · exact ⟨[frame], h, fun hkeeps => (by cases hkeeps), List.nil_prefix⟩
  · exact ⟨[frame], h, fun _ => rfl, List.prefix_rfl⟩

theorem dealt_write {op : Op} (h : Orders now f (.write op)) {frame : Option Engine.Error → Bytes}
    (hframe : ∀ e, Complete f [frame e] ∧ (frame e = [Status.ok.byte] ↔ e = none)) :
    Dealt text n now f (n.write op frame) := by
  rw [Host.write]
  cases hn : n.leader with
  | false =>
    refine Answers.wrote ⟨.inl ⟨_, h, ?_⟩, complete_one .redirect (by decide) rfl, ?_, ?_, ?_⟩
    · rw [Host.obey, hn]
      rfl
    · intro _ _ hleads
      rw [hn] at hleads
      cases hleads
    · exact fun _ _ _ => rfl
    · exact fun key h' => absurd h' (h.not_get key)
  | true =>
    refine Answers.wrote ⟨.inl ⟨_, h, ?_⟩, (hframe _).1, ?_, ?_, ?_⟩
    · rw [Host.obey, hn]
      rfl
    · intro op' h' _
      cases h.unique h'
      rw [List.cons.injEq, and_iff_left rfl]
      exact (hframe _).2
    · intro _ _ hfollows
      rw [hn] at hfollows
      cases hfollows
    · exact fun key h' => absurd h' (h.not_get key)

omit [Checksum] in
theorem ne_ok {frame : Bytes} {st : Status} (h : frame.head? = some st.byte)
    (hst : st.byte ≠ Status.ok.byte) : frame ≠ [Status.ok.byte] := by
  rintro rfl
  exact hst (Option.some.inj h).symm

omit [Checksum] in
theorem storedFrame_reply (e : Option Engine.Error) :
    Complete f [storedFrame text e] ∧ (storedFrame text e = [Status.ok.byte] ↔ e = none) := by
  cases e with
  | none => exact ⟨complete_one .ok (by decide) rfl, iff_of_true rfl rfl⟩
  | some e =>
    have hhead : (storedFrame text (some e)).head? = some Status.error.byte := rfl
    exact ⟨complete_one .error (by decide) hhead, iff_of_false (ne_ok hhead (by decide)) (by rintro ⟨⟩)⟩

omit [Checksum] in
theorem deletedFrame_reply (e : Option Engine.Error) :
    Complete f [deletedFrame text e] ∧ (deletedFrame text e = [Status.ok.byte] ↔ e = none) := by
  cases e with
  | none => exact ⟨complete_one .ok (by decide) rfl, iff_of_true rfl rfl⟩
  | some e =>
    have hhead : ∃ st ∈ [Status.notFound, .error], (deletedFrame text (some e)).head? = some st.byte := by
      rw [deletedFrame.eq_def]
      split
      · exact ⟨.ok, by simp_all⟩
      · exact ⟨.notFound, by decide, rfl⟩
      · exact ⟨.error, by decide, rfl⟩
    obtain ⟨st, hst, hhead⟩ := hhead
    refine ⟨complete_one st ?_ hhead, iff_of_false (ne_ok hhead ?_) (by rintro ⟨⟩)⟩
    · rcases List.mem_pair.mp hst with rfl | rfl <;> decide
    · rcases List.mem_pair.mp hst with rfl | rfl <;> decide

/-- Every request but the commands and `OpGet` leaves a node as it is. -/
theorem dealt_other (hop : op ∉ [Opcode.put.byte, Opcode.delete.byte, Opcode.batchPut.byte, opAnnounce,
    Opcode.promote.byte]) (hget : op ≠ Opcode.get.byte) {frame : Bytes} (st : Status)
    (hst : st ∈ [Status.ok, .notFound, .error, .redirect]) (h : frame.head? = some st.byte) :
    Dealt text n now (op :: b) (.wrote n frame) :=
  (answers_other hop hget (complete_one st hst h)).wrote

theorem dealt_ranged (hop : op = Opcode.range.byte) (start endKey : Bytes) (limit : UInt32) :
    Dealt text n now (op :: b) (n.ranged text configured start endKey limit) := by
  have hother {replies : List Bytes} (h : Complete (op :: b) replies) :
      Answers text n now (op :: b) n replies :=
    answers_other (by rw [hop]; decide) (by rw [hop]; decide) h
  have hhead : (op :: b).head? = some Opcode.range.byte := congrArg some hop
  have hframes := serveRange_frames (n.store.scan start endKey (rangeLimit configured limit).toInt).1
    ((n.store.scan start endKey (rangeLimit configured limit).toInt).2.map text)
  rw [Host.ranged]
  generalize serveRange _ _ = out at hframes
  obtain ⟨frames, _ | e⟩ := out
  · exact ⟨frames, hother (.inr ⟨hhead, hframes.whole rfl⟩), fun _ => rfl, List.prefix_rfl⟩
  · have hchunks := hframes.cut (by rintro ⟨⟩)
    refine ⟨frames ++ [endFrame 0], hother (.inr ⟨hhead, frames, _, rfl, hchunks, ?_⟩), ?_, ?_⟩
    · exact ⟨.rangeEnd, by decide, rfl⟩
    · rintro ⟨⟩
    · exact List.prefix_append _ _

theorem dealt_batchPut (text : Engine.Error → Bytes) (n : Host) (b : Bytes) (m : Moment) :
    ∃ out, n.handleBatchPut text m.now b = some out ∧ Dealt text n m.now (Opcode.batchPut.byte :: b)
      (.wrote {n with store := out.store} (out.replies.headD [])) := by
  obtain ⟨room, read, hread, -, hiff⟩ := decodeBatch_spec b
  rw [Server.handleBatchPut, hread]
  refine ⟨_, rfl, ?_⟩
  cases read with
  | error msg =>
    have hno (c : Command) : ¬ Orders m.now (Opcode.batchPut.byte :: b) c := fun h => by
      have hhead := h.head
      cases h <;> simp [Command.opcode, Opcode.byte, opAnnounce] at hhead
      case batchPut b' keys vals frame asked =>
        cases (List.cons.inj frame).2
        cases (hiff (keys, vals)).mpr asked
    have hget (key : Bytes) : ¬ Says (Opcode.batchPut.byte :: b) Opcode.get.byte [.bytes key] := fun h =>
      absurd (Option.some.inj h.head) (by decide)
    exact (answers_idle hno hget (complete_one .error (by decide) rfl)).wrote
  | ok x =>
    have hsame : Served.wrote {n with store := (n.batch text m.now room (.ok x)).store}
        ((n.batch text m.now room (.ok x)).replies.headD []) =
          n.write (.batchPut m.now x.1 x.2) (storedFrame text) := by
      rw [Host.write, Server.batch]
      split <;> rfl
    rw [hsame]
    exact dealt_write (.batchPut rfl ((hiff x).mp rfl)) storedFrame_reply

end Answers

theorem handle_spec (n : Host) (m : Moment) (op : UInt8) (b : Bytes) :
    ∃ out, n.handle text configured m op b = some out ∧ Dealt text n m.now (op :: b) out := by
  rw [Host.handle]
  cases ho : opcodeOf op with
  | none =>
    have hop (o : Opcode) : op ≠ o.byte := by
      rintro rfl
      rw [opcodeOf_byte] at ho
      cases ho
    by_cases hannounce : op = opAnnounce
    · obtain ⟨r, hr, hiff⟩ := fields_spec op b [.str, .str, .u64]
      subst hannounce
      simp only [if_neg (show opAnnounce ≠ opVote by decide), if_true, hr]
      cases r with
      | error e => exact ⟨_, rfl, (answers_malformed hr (by decide) _).wrote⟩
      | ok vs =>
        obtain ⟨hkinds, hsays⟩ := (hiff vs).mp rfl
        simp only [List.map_eq_cons_iff, List.map_eq_nil_iff, kind_str, kind_u64] at hkinds
        obtain ⟨_, _, rfl, ⟨leaderAddr, rfl⟩, _, _, rfl, ⟨leaderID, rfl⟩, _, _, rfl, ⟨epoch, rfl⟩, rfl⟩ :=
          hkinds
        exact ⟨_, rfl, (answers_control (.announce hsays) (by rintro _ ⟨⟩)).wrote⟩
    · have hother : op ∉ [Opcode.put.byte, Opcode.delete.byte, Opcode.batchPut.byte, opAnnounce,
          Opcode.promote.byte] := by simp [hop, hannounce]
      simp only [if_neg hannounce]
      split
      · obtain ⟨r, hr, -⟩ := fields_spec op b [.str, .u64]
        simp only [hr]
        cases r with
        | error e => exact ⟨_, rfl, dealt_other hother (hop .get) .error (by decide) rfl⟩
        | ok vs => exact ⟨_, rfl, dealt_other hother (hop .get) .ok (by decide) rfl⟩
      · exact ⟨_, rfl, dealt_other hother (hop .get) .error (by decide) rfl⟩
  | some o =>
    obtain rfl := opcodeOf_eq ho
    cases o with
    | ping => exact ⟨_, rfl, dealt_other (by decide) (by decide) .ok (by decide) rfl⟩
    | stats | info =>
      exact ⟨_, rfl, dealt_other (by decide) (by decide) .ok (by decide) (encodePairs_head _)⟩
    | compact =>
      obtain ⟨r, hr, -⟩ := fields_spec Opcode.compact.byte b []
      simp only [hr]
      cases r with
      | error e => exact ⟨_, rfl, dealt_other (by decide) (by decide) .error (by decide) rfl⟩
      | ok vs =>
        exact ⟨_, rfl, dealt_other (by decide) (by decide) .ok (by decide) (encodePairs_head _)⟩
    | range =>
      obtain ⟨r, hr, hiff⟩ := fields_spec Opcode.range.byte b [.bytes, .bytes, .u32]
      simp only [hr]
      cases r with
      | error e => exact ⟨_, rfl, dealt_other (by decide) (by decide) .error (by decide) rfl⟩
      | ok vs =>
        have hkinds := ((hiff vs).mp rfl).1
        simp only [List.map_eq_cons_iff, List.map_eq_nil_iff, kind_bytes, kind_u32] at hkinds
        obtain ⟨_, _, rfl, ⟨start, rfl⟩, _, _, rfl, ⟨endKey, rfl⟩, _, _, rfl, ⟨limit, rfl⟩, rfl⟩ := hkinds
        exact ⟨_, rfl, dealt_ranged configured rfl start endKey limit⟩
    | get =>
      obtain ⟨r, hr, hiff⟩ := fields_spec Opcode.get.byte b [.bytes]
      simp only [hr]
      cases r with
      | error e =>
        have hno (c : Command) (h : Orders m.now (Opcode.get.byte :: b) c) : False :=
          absurd h.opcode_mem (by decide)
        have hget (key : Bytes) (h : Says (Opcode.get.byte :: b) Opcode.get.byte [.bytes key]) : False := by
          cases (hiff _).mpr ⟨rfl, h⟩
        exact ⟨_, rfl, (answers_idle hno hget (complete_one .error (by decide) rfl)).wrote⟩
      | ok vs =>
        obtain ⟨hkinds, hsays⟩ := (hiff vs).mp rfl
        simp only [List.map_eq_cons_iff, List.map_eq_nil_iff, kind_bytes] at hkinds
        obtain ⟨_, _, rfl, ⟨key, rfl⟩, rfl⟩ := hkinds
        exact ⟨_, rfl, (answers_get hsays).wrote⟩
    | put =>
      obtain ⟨r, hr, hiff⟩ := fields_spec Opcode.put.byte b [.bytes, .bytes]
      simp only [hr]
      cases r with
      | error e => exact ⟨_, rfl, (answers_malformed hr (by decide) _).wrote⟩
      | ok vs =>
        obtain ⟨hkinds, hsays⟩ := (hiff vs).mp rfl
        simp only [List.map_eq_cons_iff, List.map_eq_nil_iff, kind_bytes] at hkinds
        obtain ⟨_, _, rfl, ⟨key, rfl⟩, _, _, rfl, ⟨value, rfl⟩, rfl⟩ := hkinds
        exact ⟨_, rfl, dealt_write (.put hsays) storedFrame_reply⟩
    | delete =>
      obtain ⟨r, hr, hiff⟩ := fields_spec Opcode.delete.byte b [.bytes]
      simp only [hr]
      cases r with
      | error e => exact ⟨_, rfl, (answers_malformed hr (by decide) _).wrote⟩
      | ok vs =>
        obtain ⟨hkinds, hsays⟩ := (hiff vs).mp rfl
        simp only [List.map_eq_cons_iff, List.map_eq_nil_iff, kind_bytes] at hkinds
        obtain ⟨_, _, rfl, ⟨key, rfl⟩, rfl⟩ := hkinds
        exact ⟨_, rfl, dealt_write (.delete hsays) deletedFrame_reply⟩
    | batchPut =>
      obtain ⟨out, hout, hdealt⟩ := dealt_batchPut text n b m
      simp only [hout]
      exact ⟨_, rfl, hdealt⟩
    | promote =>
      obtain ⟨r, hr, hiff⟩ := fields_spec Opcode.promote.byte b []
      simp only [hr]
      cases r with
      | error e => exact ⟨_, rfl, (answers_malformed hr (by decide) _).wrote⟩
      | ok vs =>
        obtain ⟨hkinds, hsays⟩ := (hiff vs).mp rfl
        cases List.map_eq_nil_iff.mp hkinds
        exact ⟨_, rfl, (answers_control (.promote hsays) (by rintro _ ⟨⟩)).wrote⟩

/-! ### The whole connection -/

theorem serveConn_conversation (fuel i : Nat) (n : Host) (stream : Bytes) :
    ∃ c, serveConn text configured env fuel i n stream = some c ∧
      Conversation text env i n (readFrames fuel stream).1 c := by
  induction fuel generalizing i n stream with
  | zero => exact ⟨_, rfl, .finished (.inr fun f hf => by cases hf)⟩
  | succ fuel ih =>
    rw [serveConn, readFrames]
    cases hclosing : (env i).closing with
    | true => exact ⟨_, rfl, .finished (.inl hclosing)⟩
    | false =>
      rw [if_neg Bool.false_ne_true]
      cases hread : readFrame stream with
      | error e => exact ⟨_, rfl, .finished (.inr fun f hf => by cases hf)⟩
      | ok x =>
        obtain ⟨f, rest⟩ := x
        cases f with
        | nil =>
          refine ⟨_, rfl, .finished (.inr fun f hf => ?_)⟩
          cases hf
          rfl
        | cons op b =>
          by_cases hop : op = opReplicate
          · obtain ⟨r, hr, hiff⟩ := fields_spec op b [.u64]
            subst hop
            simp only [if_true, hr]
            cases r with
            | error e =>
              refine ⟨_, rfl, .refused _ rfl fun seq h => ?_⟩
              cases (hiff _).mpr ⟨rfl, h⟩
            | ok vs =>
              obtain ⟨hkinds, hsays⟩ := (hiff vs).mp rfl
              simp only [List.map_eq_cons_iff, List.map_eq_nil_iff, kind_u64] at hkinds
              obtain ⟨_, _, rfl, ⟨seq, rfl⟩, rfl⟩ := hkinds
              exact ⟨_, rfl, .streaming hsays⟩
          · have hrequest : op :: b ≠ [] ∧ (op :: b).head? ≠ some opReplicate :=
              ⟨List.cons_ne_nil _ _, fun h => hop (Option.some.inj h)⟩
            obtain ⟨out, hout, whole, hanswer, hkeeps, hbegun⟩ :=
              handle_spec text configured ((env i).others n) (env i).moment op b
            simp only [if_neg hop, hout]
            split
            · rename_i hgoes
              obtain ⟨c, hserve, hconv⟩ := ih (i + 1) out.host rest
              rw [← hkeeps (Bool.and_eq_true_iff.mp hgoes).1] at hanswer
              exact ⟨_, by rw [hserve]; rfl, .answered hrequest hanswer hconv⟩
            · exact ⟨_, rfl, .unwritten hrequest hanswer hbegun⟩

section Unique
variable {text} {env}

theorem Answers.unique {n n₁ n₂ : Host} {now : Int64} {f : Bytes} {r₁ r₂ : List Bytes}
    (h₁ : Answers text n now f n₁ r₁) (h₂ : Answers text n now f n₂ r₂) : n₁ = n₂ := by
  rcases h₁.effect with ⟨c, hc, rfl⟩ | ⟨hno, rfl⟩
  · rcases h₂.effect with ⟨c', hc', rfl⟩ | ⟨hno', rfl⟩
    · rw [hc.unique hc']
    · exact absurd hc (hno' c)
  · rcases h₂.effect with ⟨c', hc', rfl⟩ | ⟨hno', rfl⟩
    · exact absurd hc' (hno c')
    · rfl

theorem Conversation.host_of_nil {i : Nat} {n : Host} {frames : List Bytes} {c : Session}
    (h : Conversation text env i n frames c) (hnil : c.exchanges.length = 0) : c.host = n := by
  cases h with
  | finished _ | streaming _ | refused _ _ _ => rfl
  | answered _ _ _ | unwritten _ _ _ => cases hnil

/-- How many of its frames a connection has come to says what it did to the node. -/
theorem Conversation.unique {i : Nat} {n : Host} {frames : List Bytes} {c c' : Session}
    (h : Conversation text env i n frames c) (h' : Conversation text env i n frames c')
    (hlen : c.exchanges.length = c'.exchanges.length) : c.host = c'.host := by
  induction h generalizing c' with
  | finished _ | streaming _ | refused _ _ _ =>
    cases h' with
    | finished _ | streaming _ | refused _ _ _ => rfl
    | answered _ _ _ | unwritten _ _ _ => cases hlen
  | answered _ answer rest ih =>
    cases h' with
    | finished _ | streaming _ | refused _ _ _ => cases hlen
    | answered _ answer' rest' =>
      cases answer.unique answer'
      have hrest := ih rest' (Nat.succ.inj hlen)
      exact hrest
    | unwritten _ answer' _ =>
      rw [answer.unique answer'] at rest
      exact rest.host_of_nil (Nat.succ.inj hlen)
  | unwritten _ answer _ =>
    cases h' with
    | finished _ | streaming _ | refused _ _ _ => cases hlen
    | answered _ answer' rest' =>
      rw [← answer.unique answer'] at rest'
      exact (rest'.host_of_nil (Nat.succ.inj hlen).symm).symm
    | unwritten _ answer' _ => exact answer.unique answer'

end Unique

end Handle

end Gokv.Proto
