import Gokv.Engine.Restart

/-! The wire format between a client and a node.

A message is a frame. The first byte of a request is its opcode, the first byte of a
reply its status; the rest is fields, each a big-endian number or a byte string behind
its length. A decoder that has failed once yields nothing more, so a field is read or
the rest of the frame is lost. -/
namespace Gokv.Remote
open Base Engine

inductive Opcode where
  | ping
  | put
  | get
  | delete
  | range
  | batchPut
  | stats
  | info
  | compact
  | promote
  deriving DecidableEq, Repr

def Opcode.byte : Opcode → UInt8
  | .ping => 0x01
  | .put => 0x02
  | .get => 0x03
  | .delete => 0x04
  | .range => 0x05
  | .batchPut => 0x06
  | .stats => 0x07
  | .info => 0x08
  | .compact => 0x09
  | .promote => 0x23

inductive Status where
  | ok
  | notFound
  | error
  | redirect
  | rangeChunk
  | rangeEnd
  /-- A status no client request is answered with. -/
  | other (b : UInt8)
  deriving DecidableEq, Repr

def Status.byte : Status → UInt8
  | .ok => 0x00
  | .notFound => 0x01
  | .error => 0x02
  | .redirect => 0x03
  | .rangeChunk => 0x04
  | .rangeEnd => 0x05
  | .other b => b

/-- The status of a frame, which is not empty. -/
def Status.ofFrame (frame : Bytes) : Status :=
  match frame.headD 0 with
  | 0x00 => .ok
  | 0x01 => .notFound
  | 0x02 => .error
  | 0x03 => .redirect
  | 0x04 => .rangeChunk
  | 0x05 => .rangeEnd
  | b => .other b

/-! ### Fields -/

def putBE (w n : Nat) : Bytes := (putLE w n).reverse

def getBE (b : Bytes) : Nat := getLE b.reverse

/-- `Enc.Bytes`, also `Enc.Str`. -/
def encBytes (b : Bytes) : Bytes := putBE 4 b.length ++ b

/-- `Dec.U32`: the number and what is left of the frame. -/
def decU32 (b : Bytes) : Option (Nat × Bytes) := if b.length < 4 then none else some (getBE (b.take 4), b.drop 4)

/-- `Dec.Bytes`, also `Dec.Str`. -/
def decBytes (b : Bytes) : Option (Bytes × Bytes) :=
  match decU32 b with
  | none => none
  | some (n, rest) => if rest.length < n then none else some (rest.take n, rest.drop n)

/-- A string whose decoding may fail is read as empty. -/
def decStr (b : Bytes) : Bytes := ((decBytes b).map Prod.fst).getD []

theorem length_putBE (w n : Nat) : (putBE w n).length = w := by rw [putBE, List.length_reverse, length_putLE]

theorem decU32_putBE {n : Nat} (h : n < 2 ^ 32) (rest : Bytes) : decU32 (putBE 4 n ++ rest) = some (n, rest) := by
  have hlen := length_putBE 4 n
  rw [decU32, if_neg (by rw [List.length_append]; omega), List.take_left' hlen, List.drop_left' hlen, getBE, putBE,
    List.reverse_reverse, getLE_putLE_of_lt (by omega)]

/-- **A byte string is read back** from in front of whatever follows it. -/
theorem decBytes_encBytes {b : Bytes} (h : b.length < 2 ^ 32) (rest : Bytes) :
    decBytes (encBytes b ++ rest) = some (b, rest) := by
  rw [decBytes, encBytes, List.append_assoc, decU32_putBE h]
  simp

theorem length_encBytes (b : Bytes) : (encBytes b).length = 4 + b.length := by
  rw [encBytes, List.length_append, length_putBE]

/-- Whatever reads as a byte string is one. -/
theorem decBytes_exact {b v rest : Bytes} (h : decBytes b = some (v, rest)) :
    b = encBytes v ++ rest ∧ v.length < 2 ^ 32 := by
  rw [decBytes, decU32] at h
  by_cases hshort : b.length < 4
  · rw [if_pos hshort] at h
    cases h
  · rw [if_neg hshort] at h
    simp only at h
    by_cases hcut : (b.drop 4).length < getBE (b.take 4)
    · rw [if_pos hcut] at h
      cases h
    · rw [if_neg hcut] at h
      cases h
      have hlen : (b.take 4).length = 4 := by
        rw [List.length_take]
        omega
      have hlt : getBE (b.take 4) < 2 ^ 32 := by
        have := getLE_lt (b.take 4).reverse
        rw [List.length_reverse, hlen] at this
        simpa [getBE] using this
      have hhead : putBE 4 (getBE (b.take 4)) = b.take 4 := by
        have := putLE_getLE (b.take 4).reverse
        rw [List.length_reverse, hlen] at this
        rw [putBE, getBE, this, List.reverse_reverse]
      have hv : ((b.drop 4).take (getBE (b.take 4))).length = getBE (b.take 4) :=
        List.length_take_of_le (Nat.le_of_not_lt hcut)
      refine ⟨?_, by rwa [hv]⟩
      rw [encBytes, hv, hhead, List.append_assoc, List.take_append_drop, List.take_append_drop]

/-! ### Requests -/

/-- A call of a client. The callback of a scan sees the pairs it has been handed, the
new one last, and may give up with an error. -/
inductive Request where
  | ping
  | put (key value : Bytes)
  | read (key : Bytes)
  | delete (key : Bytes)
  | batchPut (keys values : List Bytes)
  | scan (startKey endKey : Bytes) (limit : Int) (fn : List (Bytes × Bytes) → Option String)
  | stats
  | info
  | compact
  | promote

namespace Request

def opcode : Request → Opcode
  | .ping => .ping
  | .put _ _ => .put
  | .read _ => .get
  | .delete _ => .delete
  | .batchPut _ _ => .batchPut
  | .scan _ _ _ _ => .range
  | .stats => .stats
  | .info => .info
  | .compact => .compact
  | .promote => .promote

/-- The fields of the request. -/
def body : Request → Bytes
  | .put key value => encBytes key ++ encBytes value
  | .read key => encBytes key
  | .delete key => encBytes key
  | .batchPut keys values =>
    putBE 4 keys.length ++ (keys.zip values).flatMap fun x => encBytes x.1 ++ encBytes x.2
  | .scan startKey endKey limit _ => encBytes startKey ++ (encBytes endKey ++ putBE 4 limit.toNat)
  | _ => []

def encode (r : Request) : Bytes := r.opcode.byte :: r.body

end Request

end Gokv.Remote
