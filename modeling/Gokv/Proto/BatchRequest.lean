import Gokv.Client.Retry
import Gokv.Proto.Codec

/-! The `BatchPut` request.

A node reads the number of pairs, checks that the rest of the body can hold so many, makes room
for them and reads them off. `handle_batchPut` says which bodies it carries out: the encodings of
a count and so many pairs, and nothing else; the store and the reply are then those of `BatchPut`,
and whatever else arrives costs one error reply. -/
namespace Gokv.Proto
open Base Engine Remote

/-- What a request handler sees of its node. -/
structure Server where
  leader : Bool
  leaderAddr : Bytes
  store : Store

/-- What a request made a node do. -/
structure Handled where
  store : Store
  /-- The pairs room was made for. -/
  room : Nat
  replies : List Bytes

/-- The frame of `writeError`. -/
def errorFrame (msg : Bytes) : Bytes := Enc.str (newEnc Status.error.byte) msg

def redirectFrame (leaderAddr : Bytes) : Bytes := Enc.str (newEnc Status.redirect.byte) leaderAddr

def utf8 (s : String) : Bytes := s.toUTF8.toList

def Error.text : Error → String
  | .malformed => "proto: malformed frame"
  | .trailing n => "proto: malformed frame: " ++ toString n ++ " trailing bytes"
  | .frameTooLarge => "proto: frame exceeds maximum size"
  | .eof => "EOF"
  | .unexpectedEOF => "unexpected EOF"

/-- The pairs of a batch, read one after the other. -/
def decodePairs : Nat → List Bytes → List Bytes → Dec → Option (Except Error (List Bytes × List Bytes) × Dec)
  | 0, keys, vals, d => some (.ok (keys, vals), d)
  | n + 1, keys, vals, d =>
    match d.bytes with
    | none => none
    | some (k, d) =>
      match d.bytes with
      | none => none
      | some (v, d) =>
        match d.err with
        | some e => some (.error e, d)
        | none => decodePairs n (keys ++ [k]) (vals ++ [v]) d

/-- Pairs as `Enc` writes them. -/
def encPairs (ps : List (Bytes × Bytes)) : Bytes := ps.flatMap fun x => encBytes x.1 ++ encBytes x.2

/-- The lengths of the pairs have fields of 32 bits. -/
def Short (ps : List (Bytes × Bytes)) : Prop := ∀ x ∈ ps, x.1.length < 2 ^ 32 ∧ x.2.length < 2 ^ 32

theorem encPairs_cons (x : Bytes × Bytes) (ps : List (Bytes × Bytes)) :
    encPairs (x :: ps) = encBytes x.1 ++ encBytes x.2 ++ encPairs ps := rfl

/-- What `handle` reads off an `OpBatchPut` body: the pairs it makes room for, and the two lists or
the text of its error. -/
def decodeBatch (b : Bytes) : Option (Nat × Except Bytes (List Bytes × List Bytes)) :=
  match (newDec b).u32 with
  | none => none
  | some (count, d) =>
    match d.err with
    | some e => some (0, .error (utf8 e.text))
    | none =>
      if d.remaining / 8 < count.toNat then
        some (0, .error (utf8 ("batch count " ++ toString count ++ " does not fit in " ++
          toString d.remaining ++ " remaining bytes")))
      else
        match decodePairs count.toNat [] [] d with
        | none => none
        | some (.error e, _) => some (count.toNat, .error (utf8 e.text))
        | some (.ok pairs, d) =>
          match d.done with
          | some e => some (count.toNat, .error (utf8 e.text))
          | none => some (count.toNat, .ok pairs)

section Handle
variable [Checksum] (text : Engine.Error → Bytes)

/-- The reply to a `Put` or `BatchPut` the store has answered. -/
def storedFrame : Option Engine.Error → Bytes
  | none => [Status.ok.byte]
  | some e => errorFrame (text e)

namespace Server

/-- What `handle` does with what it has read. -/
def batch (n : Server) (now : Int64) (room : Nat) : Except Bytes (List Bytes × List Bytes) → Handled
  | .error msg => ⟨n.store, room, [errorFrame msg]⟩
  | .ok (keys, vals) =>
    if !n.leader then ⟨n.store, room, [redirectFrame n.leaderAddr]⟩
    else
      match n.store.batchPut now keys vals with
      | (s, err) => ⟨s, room, [storedFrame text err]⟩

/-- `handle` for `OpBatchPut`. -/
def handleBatchPut (n : Server) (now : Int64) (b : Bytes) : Option Handled :=
  match decodeBatch b with
  | none => none
  | some (room, read) => some (n.batch text now room read)

end Server

/-! ### The pairs -/

omit [Checksum] in
/-- Pairs of the same number are told apart by their bytes. -/
theorem encPairs_inj {ps qs : List (Bytes × Bytes)} {a b : Bytes} (hlen : ps.length = qs.length)
    (hps : Short ps) (hqs : Short qs)
    (heq : encPairs ps ++ a = encPairs qs ++ b) : ps = qs ∧ a = b := by
  induction ps generalizing qs with
  | nil =>
    rw [List.length_nil] at hlen
    rw [List.eq_nil_of_length_eq_zero hlen.symm] at heq ⊢
    exact ⟨rfl, heq⟩
  | cons p ps ih =>
    obtain ⟨q, qs, rfl⟩ := List.exists_cons_of_length_eq_add_one (hlen.symm.trans List.length_cons)
    obtain ⟨hp, hps⟩ := List.forall_mem_cons.mp hps
    obtain ⟨hq, hqs⟩ := List.forall_mem_cons.mp hqs
    rw [encPairs_cons, encPairs_cons, List.append_assoc, List.append_assoc, List.append_assoc, List.append_assoc] at heq
    have hkey := congrArg decBytes heq
    rw [decBytes_encBytes hp.1, decBytes_encBytes hq.1, Option.some.injEq, Prod.mk.injEq] at hkey
    have hval := congrArg decBytes hkey.2
    rw [decBytes_encBytes hp.2, decBytes_encBytes hq.2, Option.some.injEq, Prod.mk.injEq] at hval
    obtain ⟨rfl, rfl⟩ := ih (by simpa using hlen) hps hqs hval.2
    exact ⟨by rw [Prod.ext hkey.1 hval.1], rfl⟩

omit [Checksum] in
/-- **The loop** reads the pairs in front of it, or there are not so many. -/
theorem decodePairs_spec (n : Nat) (keys vals : List Bytes) {d : Dec} {before after : Bytes} (h : d.At before after) :
    (∃ ps rest d', ps.length = n ∧ Short ps ∧ after = encPairs ps ++ rest ∧
        decodePairs n keys vals d = some (.ok (keys ++ ps.map Prod.fst, vals ++ ps.map Prod.snd), d') ∧
        d'.At (before ++ encPairs ps) rest) ∨
      (∃ e d', decodePairs n keys vals d = some (.error e, d')) ∧
        ∀ ps rest, ps.length = n → Short ps → after ≠ encPairs ps ++ rest := by
  induction n generalizing keys vals d before after with
  | zero =>
    exact .inl ⟨[], after, d, rfl, fun x hx => absurd hx List.not_mem_nil, rfl,
      by simp [decodePairs], by simpa [encPairs] using h⟩
  | succ n ih =>
    -- A body that begins with a pair has two byte strings to read.
    have hfirst {ps : List (Bytes × Bytes)} {rest : Bytes} (hlen : ps.length = n + 1) (hfit : Short ps)
        (heq : after = encPairs ps ++ rest) :
        ∃ k v more, decBytes after = some (k, encBytes v ++ (encPairs more ++ rest)) ∧ v.length < 2 ^ 32 ∧
          more.length = n ∧
          Short more := by
      obtain ⟨x, more, rfl⟩ := List.exists_cons_of_length_eq_add_one hlen
      obtain ⟨hx, hmore⟩ := List.forall_mem_cons.mp hfit
      refine ⟨x.1, x.2, more, ?_, hx.2, by simpa using hlen, hmore⟩
      rw [heq, encPairs_cons, List.append_assoc, List.append_assoc]
      exact decBytes_encBytes hx.1 _
    have hkey := h.bytes
    cases hk : decBytes after with
    | none =>
      rw [hk] at hkey
      obtain ⟨d₁, hd₁, herr, -⟩ := hkey
      refine .inr ⟨⟨.malformed, d₁, ?_⟩, fun ps rest hlen hfit heq => ?_⟩
      · simp only [decodePairs, hd₁, Dec.bytes_failed herr, herr]
      · obtain ⟨_, _, _, hsome, -⟩ := hfirst hlen hfit heq
        rw [hk] at hsome
        cases hsome
    | some x =>
      obtain ⟨k, rest₁⟩ := x
      rw [hk] at hkey
      obtain ⟨d₁, hd₁, hat₁⟩ := hkey
      obtain ⟨hsplit₁, hklen⟩ := decBytes_exact hk
      have hvalue := hat₁.bytes
      cases hv : decBytes rest₁ with
      | none =>
        rw [hv] at hvalue
        obtain ⟨d₂, hd₂, herr, -⟩ := hvalue
        refine .inr ⟨⟨.malformed, d₂, ?_⟩, fun ps rest hlen hfit heq => ?_⟩
        · simp only [decodePairs, hd₁, hd₂, herr]
        · obtain ⟨_, v, more, hsome, hvlen, -⟩ := hfirst hlen hfit heq
          rw [hk] at hsome
          cases hsome
          rw [decBytes_encBytes hvlen] at hv
          cases hv
      | some y =>
        obtain ⟨v, rest₂⟩ := y
        rw [hv] at hvalue
        obtain ⟨d₂, hd₂, hat₂⟩ := hvalue
        obtain ⟨hsplit₂, hvlen⟩ := decBytes_exact hv
        have hstep : decodePairs (n + 1) keys vals d = decodePairs n (keys ++ [k]) (vals ++ [v]) d₂ := by
          simp only [decodePairs, hd₁, hd₂, hat₂.fine]
        rw [hstep]
        rcases ih (keys ++ [k]) (vals ++ [v]) hat₂ with ⟨ps, rest, d', hlen, hfit, heq, hread, hat⟩ | ⟨hbad, hno⟩
        · refine .inl ⟨(k, v) :: ps, rest, d', by rw [List.length_cons, hlen], ?_, ?_, ?_, ?_⟩
          · exact List.forall_mem_cons.mpr ⟨⟨hklen, hvlen⟩, hfit⟩
          · rw [hsplit₁, hsplit₂, heq, encPairs_cons, List.append_assoc, List.append_assoc]
          · rw [hread]
            simp
          · rw [encPairs_cons, ← List.append_assoc, ← List.append_assoc]
            exact hat
        · refine .inr ⟨hbad, fun ps rest hlen hfit heq => ?_⟩
          obtain ⟨_, v', more, hsome, hvlen', hmore, hfit'⟩ := hfirst hlen hfit heq
          rw [hk] at hsome
          cases hsome
          rw [decBytes_encBytes hvlen'] at hv
          cases hv
          exact hno more rest hmore hfit' rfl

/-! ### The request -/

/-- The body that `Enc` writes for a count and so many pairs. -/
def batchBody (keys vals : List Bytes) : Bytes :=
  body Opcode.batchPut.byte (.u32 (UInt32.ofNat keys.length) :: (keys.zip vals).flatMap fun x =>
    [.bytes x.1, .bytes x.2])

/-- The body is exactly the encoding of these pairs. -/
structure Encodes (b : Bytes) (keys vals : List Bytes) : Prop where
  pairs : keys.length = vals.length
  count : keys.length < 2 ^ 32
  fits : Short (keys.zip vals)
  exact : b = batchBody keys vals

omit [Checksum] in
theorem batchBody_eq {keys vals : List Bytes} (hcount : keys.length < 2 ^ 32) (hfits : Short (keys.zip vals)) :
    batchBody keys vals = putBE 4 keys.length ++ encPairs (keys.zip vals) := by
  have hpairs (ps : List (Bytes × Bytes)) (hps : Short ps) :
      (ps.flatMap fun x => [Field.bytes x.1, .bytes x.2]).flatMap Field.encode = encPairs ps := by
    induction ps with
    | nil => rfl
    | cons x rest ih =>
      obtain ⟨hx, hrest⟩ := List.forall_mem_cons.mp hps
      rw [List.flatMap_cons, List.flatMap_append, ih hrest, encPairs_cons]
      have hk : (UInt32.ofNat x.1.length).toNat = x.1.length := UInt32.toNat_ofNat_of_lt' hx.1
      have hv : (UInt32.ofNat x.2.length).toNat = x.2.length := UInt32.toNat_ofNat_of_lt' hx.2
      simp only [List.flatMap_cons, List.flatMap_nil, Field.encode, hk, hv, List.append_nil, encBytes,
        List.append_assoc]
  rw [batchBody, body_eq, List.flatMap_cons, hpairs _ hfits, Field.encode, UInt32.toNat_ofNat_of_lt' hcount]

omit [Checksum] in
/-- An encoding has the count in front of the pairs. -/
theorem Encodes.heads {b : Bytes} {keys vals : List Bytes} (h : Encodes b keys vals) :
    getBE (b.take 4) = keys.length ∧ b.drop 4 = encPairs (keys.zip vals) ∧ 4 ≤ b.length := by
  have hhdr := length_putBE 4 keys.length
  have hb : b = putBE 4 keys.length ++ encPairs (keys.zip vals) := h.exact.trans (batchBody_eq h.count h.fits)
  have hcount := h.count
  rw [hb, List.take_left' hhdr, List.drop_left' hhdr, List.length_append]
  exact ⟨getBE_putBE (by omega), rfl, by omega⟩

omit [Checksum] in
/-- The pairs of an accepted body are its only reading. -/
theorem encodes_iff {b : Bytes} {ps : List (Bytes × Bytes)} (hlong : 4 ≤ b.length) (hlen : ps.length = getBE (b.take 4))
    (hps : Short ps) (heq : b.drop 4 = encPairs ps) (keys vals : List Bytes) :
    Encodes b keys vals ↔ keys = ps.map Prod.fst ∧ vals = ps.map Prod.snd := by
  have hzip : (ps.map Prod.fst).zip (ps.map Prod.snd) = ps := (List.zip_of_prod rfl rfl).symm
  constructor
  · intro h
    obtain ⟨hcount, hdrop, -⟩ := h.heads
    have hsame : (keys.zip vals).length = ps.length := by
      rw [List.length_zip, ← h.pairs, Nat.min_self, hlen, hcount]
    have hboth : encPairs (keys.zip vals) ++ [] = encPairs ps ++ [] := by rw [← hdrop, heq]
    obtain ⟨hpairs, -⟩ := encPairs_inj hsame h.fits hps hboth
    rw [← hpairs, List.map_fst_zip (by rw [h.pairs]), List.map_snd_zip (by rw [h.pairs])]
    exact ⟨rfl, rfl⟩
  · rintro ⟨rfl, rfl⟩
    have hlt : getBE (b.take 4) < 2 ^ 32 := by
      have := getLE_lt (b.take 4).reverse
      rw [List.length_reverse, List.length_take_of_le hlong] at this
      simpa [getBE] using this
    have hcount : (ps.map Prod.fst).length < 2 ^ 32 := by rw [List.length_map, hlen]; exact hlt
    have hfits : Short ((ps.map Prod.fst).zip (ps.map Prod.snd)) := by rwa [hzip]
    have hhead : putBE 4 (getBE (b.take 4)) = b.take 4 := by
      have := putLE_getLE (b.take 4).reverse
      rw [List.length_reverse, List.length_take_of_le hlong] at this
      rw [putBE, getBE, this, List.reverse_reverse]
    refine ⟨by simp, hcount, hfits, ?_⟩
    rw [batchBody_eq hcount hfits, hzip, List.length_map, hlen, hhead, ← heq, List.take_append_drop]

omit [Checksum] in
/-- **What is read off a body** are the pairs it encodes. There is room for no more than it can hold. -/
theorem decodeBatch_spec (b : Bytes) :
    ∃ room read, decodeBatch b = some (room, read) ∧ 8 * room ≤ b.length ∧
      ∀ x : List Bytes × List Bytes, read = .ok x ↔ Encodes b x.1 x.2 := by
  have hrefused (room : Nat) (msg : Bytes) (hroom : 8 * room ≤ b.length) (hno : ∀ keys vals, ¬ Encodes b keys vals) :
      ∃ room' read, some (room, Except.error (α := List Bytes × List Bytes) msg) = some (room', read) ∧
        8 * room' ≤ b.length ∧ ∀ x : List Bytes × List Bytes, read = .ok x ↔ Encodes b x.1 x.2 :=
    ⟨room, .error msg, rfl, hroom, fun x => iff_of_false (by rintro ⟨⟩) (hno x.1 x.2)⟩
  have hat := newDec_at b
  by_cases hshort : b.length < 4
  · have hu32 : (newDec b).u32 = some (0, (newDec b).fail) := by
      rw [Dec.u32, hat.number_short hshort]
      rfl
    rw [decodeBatch, hu32]
    exact hrefused 0 _ (Nat.zero_le _) fun keys vals he => absurd he.heads.2.2 (by omega)
  have hlong : 4 ≤ b.length := Nat.le_of_not_lt hshort
  have h4 := hat.advance hlong
  rw [List.nil_append] at h4
  have hu32 : (newDec b).u32 = some (UInt32.ofNat (getBE (b.take 4)), {newDec b with pos := (newDec b).pos + 4}) := by
    rw [Dec.u32, hat.number hlong]
    rfl
  have hlt : getBE (b.take 4) < 2 ^ 32 := by
    have := getLE_lt (b.take 4).reverse
    rw [List.length_reverse, List.length_take_of_le hlong] at this
    simpa [getBE] using this
  have hcount : (UInt32.ofNat (getBE (b.take 4))).toNat = getBE (b.take 4) := UInt32.toNat_ofNat_of_lt' hlt
  generalize hd : ({newDec b with pos := (newDec b).pos + 4} : Dec) = d at h4 hu32
  have hrem : d.remaining = b.length - 4 := by
    have hin : ¬ (d.err ≠ none ∨ d.b.length < d.pos) := by
      rw [h4.fine, h4.split, h4.pos, List.length_append]
      simp only [ne_eq, not_true_eq_false, false_or]
      omega
    rw [Dec.remaining, if_neg hin, ← hd]
    rfl
  rw [decodeBatch, hu32]
  simp only [h4.fine, hrem, hcount]
  by_cases hroom : (b.length - 4) / 8 < getBE (b.take 4)
  · rw [if_pos hroom]
    refine hrefused 0 _ (Nat.zero_le _) fun keys vals he => ?_
    obtain ⟨hc, hrest, -⟩ := he.heads
    have hpairs := length_encPairs (keys.zip vals)
    have hdrop := congrArg List.length hrest
    rw [List.length_zip, ← he.pairs, Nat.min_self] at hpairs
    rw [List.length_drop, encPairs] at hdrop
    omega
  rw [if_neg hroom]
  have hfit : 8 * getBE (b.take 4) ≤ b.length := by omega
  rcases decodePairs_spec (getBE (b.take 4)) [] [] h4 with
    ⟨ps, rest, d', hlen, hps, heq, hread, hat'⟩ | ⟨⟨e, d', hread⟩, hno⟩
  swap
  · rw [hread]
    refine hrefused _ _ hfit fun keys vals he => ?_
    obtain ⟨hc, hrest, -⟩ := he.heads
    refine hno (keys.zip vals) [] ?_ he.fits (by rw [List.append_nil, hrest])
    rw [List.length_zip, ← he.pairs, Nat.min_self, hc]
  rw [hread]
  simp only [List.nil_append]
  rw [hat'.done]
  by_cases hrest : rest = []
  swap
  · rw [if_neg hrest]
    refine hrefused _ _ hfit fun keys vals he => hrest ?_
    -- The pairs are told by the bytes, so an encoding has nothing behind them.
    obtain ⟨hc, hdrop, -⟩ := he.heads
    have hsame : ps.length = (keys.zip vals).length := by
      rw [List.length_zip, ← he.pairs, Nat.min_self, ← hc, hlen]
    exact (encPairs_inj (b := []) hsame hps he.fits (by rw [List.append_nil, ← hdrop, heq])).2
  rw [hrest, List.append_nil] at heq
  refine ⟨_, .ok (ps.map Prod.fst, ps.map Prod.snd), by rw [if_pos hrest], hfit, fun x => ?_⟩
  rw [encodes_iff hlong hlen hps heq, Except.ok.injEq, Prod.ext_iff, eq_comm, eq_comm (a := x.2)]

omit [Checksum] in
/-- The body a client builds is an encoding. -/
theorem encodes_request {keys vals : List Bytes} (hpairs : keys.length = vals.length)
    (hsize : (Request.batchPut keys vals).encode.length ≤ maxFrameSize) :
    Encodes (Request.batchPut keys vals).body keys vals := by
  have hmax : maxFrameSize < 2 ^ 32 := by decide
  have hlen : (encPairs (keys.zip vals)).length < 2 ^ 32 := by
    rw [Request.encode, List.length_cons, Request.body, List.length_append] at hsize
    rw [encPairs]
    omega
  have hshort (ps : List (Bytes × Bytes)) (hps : (encPairs ps).length < 2 ^ 32) : Short ps := by
    induction ps with
    | nil => exact fun x hx => absurd hx List.not_mem_nil
    | cons x rest ih =>
      rw [encPairs_cons, List.length_append, List.length_append, length_encBytes, length_encBytes] at hps
      exact List.forall_mem_cons.mpr ⟨⟨by omega, by omega⟩, ih (by omega)⟩
  have hcount : keys.length < 2 ^ 32 := by
    have := length_encPairs (keys.zip vals)
    rw [List.length_zip, ← hpairs, Nat.min_self] at this
    rw [encPairs] at hlen
    omega
  refine ⟨hpairs, hcount, hshort _ hlen, ?_⟩
  rw [batchBody_eq hcount (hshort _ hlen)]
  rfl

/-- What a leader makes of a `BatchPut` body. -/
structure BatchHandled (n : Server) (now : Int64) (b : Bytes) (out : Handled) : Prop where
  /-- The pairs of an encoding are given to `BatchPut`, whose error is the reply. -/
  called : ∀ keys vals, Encodes b keys vals → out.store = (n.store.batchPut now keys vals).1 ∧
    out.replies = [storedFrame text (n.store.batchPut now keys vals).2]
  refused : (∀ keys vals, ¬ Encodes b keys vals) → out.store = n.store ∧ ∃ msg, out.replies = [errorFrame msg]
  /-- Every pair takes two lengths. -/
  room : 8 * out.room ≤ b.length

/-- **A leader carries out a `BatchPut` body exactly if it is an encoding**, with the pairs it
encodes, and what a client builds is decoded to the same lists. -/
theorem handle_batchPut (leaderAddr : Bytes) (s : Store) (now : Int64) :
    (∀ b, ∃ room read out, decodeBatch b = some (room, read) ∧
      (∀ keys vals, read = .ok (keys, vals) ↔ Encodes b keys vals) ∧
      (Server.mk true leaderAddr s).handleBatchPut text now b = some out ∧
      BatchHandled text ⟨true, leaderAddr, s⟩ now b out) ∧
    ∀ keys vals, keys.length = vals.length → (Request.batchPut keys vals).encode.length ≤ maxFrameSize →
      ∃ room, decodeBatch (Request.batchPut keys vals).body = some (room, .ok (keys, vals)) ∧
        (Server.mk true leaderAddr s).handleBatchPut text now (Request.batchPut keys vals).body =
          some ⟨(s.batchPut now keys vals).1, room, [storedFrame text (s.batchPut now keys vals).2]⟩ := by
  constructor
  · intro b
    obtain ⟨room, read, hread, hroom, hiff⟩ := decodeBatch_spec b
    refine ⟨room, read, _, hread, fun keys vals => hiff (keys, vals), by rw [Server.handleBatchPut, hread],
      fun keys vals he => ?_, fun hno => ?_, ?_⟩
    · rw [(hiff (keys, vals)).mpr he]
      exact ⟨rfl, rfl⟩
    · cases read with
      | error msg => exact ⟨rfl, msg, rfl⟩
      | ok x => exact absurd ((hiff x).mp rfl) (hno x.1 x.2)
    · cases read <;> exact hroom
  · intro keys vals hpairs hsize
    obtain ⟨room, read, hread, -, hiff⟩ := decodeBatch_spec (Request.batchPut keys vals).body
    obtain rfl := (hiff (keys, vals)).mpr (encodes_request hpairs hsize)
    exact ⟨room, hread, by rw [Server.handleBatchPut, hread]; rfl⟩

end Handle

/-- Two pairs, one with an empty value. -/
theorem handle_batchPut_pairs :
    let body := (Request.batchPut [[1], [2]] [[7], []]).body
    (Request.batchPut [[1], [2]] [[7], []]).encode.length ≤ maxFrameSize ∧
      ∃ room, decodeBatch body = some (room, .ok ([[1], [2]], [[7], []])) ∧
        (Server.mk true [] (Store.init ⟨0, .never⟩)).handleBatchPut (fun _ => []) 0 body =
          some ⟨((Store.init ⟨0, .never⟩).batchPut 0 [[1], [2]] [[7], []]).1, room, [[Status.ok.byte]]⟩ :=
  ⟨by decide, (handle_batchPut (fun _ => []) [] (Store.init ⟨0, .never⟩) 0).2 [[1], [2]] [[7], []] rfl (by decide)⟩

end Gokv.Proto
