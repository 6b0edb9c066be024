import Gokv.Engine.Invariant

/-! Range reads.

`Scan` walks the ordered index in chunks: under the lock it collects the locators of at most
512 live keys, looking at no more than 4096 nodes, and behind the lock it reads the values,
going back to the index for a key whose file has been compacted away meanwhile. The cursor
is the last node looked at, dead or alive. The callback is the one of `ScanSlice`, which
gathers the pairs. -/
namespace Gokv.Engine

def scanChunk : Nat := 512

/-- What one pass under the lock has come to. -/
structure Chunk where
  refs : List (Bytes × Entry)
  cursor : Bytes
  exclusive : Bool
  examined : Nat
  atEnd : Bool
  deriving DecidableEq, Repr

/-- The cursor advances over tombstones too, so that a long run of deleted keys is not taken
for the end of the index. -/
def Chunk.push (c : Chunk) (x : Bytes × Entry) : Chunk :=
  { c with cursor := x.1, exclusive := true, examined := c.examined + 1,
           refs := if x.2.tomb then c.refs else c.refs ++ [x] }

namespace Store

/-- The nodes from the first key on that is not below `key`. -/
def seek (s : Store) (key : Bytes) : List (Bytes × Entry) :=
  s.keys.toList.dropWhile fun x => compare x.1 key = .lt

/-- Collect locators from the nodes ahead. -/
def collect (endKey : Bytes) : List (Bytes × Entry) → Chunk → Chunk
  | [], c => c
  | x :: rest, c =>
    if c.exclusive ∧ x.1 = c.cursor then collect endKey rest c
    else if endKey ≠ [] ∧ compare endKey x.1 = .lt then {c with atEnd := true}
    else if (c.push x).refs.length = scanChunk ∨ (c.push x).examined = scanChunk * 8 then c.push x
    else collect endKey rest (c.push x)

section Scan
variable [Checksum]

/-- Resolve a key again, for a locator that went stale. -/
def reread (s : Store) (key : Bytes) : Except Error Bytes :=
  match s.lookup key with
  | none => .error .keyNotFound
  | some e => s.readValue e

def readRef (s : Store) (x : Bytes × Entry) : Except Error Bytes :=
  match s.readValue x.2 with
  | .error .fileGone => s.reread x.1
  | r => r

/-- Read the locators of a chunk; with the pairs so far comes how the scan ended, if it
has. -/
def visit (s : Store) (limit : Int) : List (Bytes × Entry) → List (Bytes × Bytes) →
    List (Bytes × Bytes) × Option (Option Error)
  | [], out => (out, none)
  | x :: rest, out =>
    match s.readRef x with
    -- Deleted while the scan was in flight.
    | .error .fileGone => visit s limit rest out
    | .error .keyNotFound => visit s limit rest out
    | .error e => (out, some (some e))
    | .ok v =>
      if 0 < limit ∧ limit ≤ (out ++ [(x.1, v)]).length then (out ++ [(x.1, v)], some none)
      else visit s limit rest (out ++ [(x.1, v)])

def scanLoop (s : Store) (endKey : Bytes) (limit : Int) : Nat → Bytes → Bool → List (Bytes × Bytes) →
    List (Bytes × Bytes) × Option Error
  | 0, _, _, out => (out, none)
  | fuel + 1, cursor, exclusive, out =>
    let c := collect endKey (s.seek cursor) ⟨[], cursor, exclusive, 0, false⟩
    if c.examined = 0 then (out, none)
    else
      match s.visit limit c.refs out with
      | (out, some r) => (out, r)
      | (out, none) => if c.atEnd then (out, none) else scanLoop s endKey limit fuel c.cursor c.exclusive out

/-- `Scan` with the callback of `ScanSlice`: the pairs, and the error it stopped at. Every
chunk looks at a node no chunk has looked at, so there are fewer of them than keys. -/
def scan (s : Store) (start endKey : Bytes) (limit : Int) : List (Bytes × Bytes) × Option Error :=
  if endKey ≠ [] ∧ compare endKey start = .lt then ([], none)
  else s.scanLoop endKey limit (s.keys.size + 1) start false []

end Scan

end Store

/-! ### What a scan depends on -/

section Range
variable {s s' : Store}

theorem mem_seek {key : Bytes} {x : Bytes × Entry} (hx : x ∈ s.seek key) : s.keys[x.1]? = some x.2 :=
  Std.ExtTreeMap.mem_toList_iff_getElem?_eq_some.mp ((List.dropWhile_sublist _).subset hx)

theorem mem_collect {endKey : Bytes} {xs : List (Bytes × Entry)} {c : Chunk} {x : Bytes × Entry}
    (hx : x ∈ (Store.collect endKey xs c).refs) : x ∈ c.refs ∨ x ∈ xs := by
  induction xs generalizing c with
  | nil => exact .inl hx
  | cons y rest ih =>
    have hpush (hx : x ∈ (c.push y).refs) : x ∈ c.refs ∨ x ∈ y :: rest := by
      rw [Chunk.push] at hx
      split at hx
      · exact .inl hx
      · rcases List.mem_append.mp hx with hx | hx
        · exact .inl hx
        · exact .inr (List.mem_singleton.mp hx ▸ List.mem_cons_self ..)
    rw [Store.collect] at hx
    split at hx
    · exact (ih hx).imp_right (List.mem_cons_of_mem _)
    · split at hx
      · exact .inl hx
      · split at hx
        · exact hpush hx
        · exact (ih hx).elim hpush fun hx => .inr (List.mem_cons_of_mem _ hx)

variable [Checksum]

/-- The stores have the same index and read the same behind it. -/
structure Alike (s s' : Store) : Prop where
  keys : s'.keys = s.keys
  read : ∀ (k : Bytes) (e : Entry), s.keys[k]? = some e → s'.readValue e = s.readValue e

theorem Alike.reread (h : Alike s s') (key : Bytes) : s'.reread key = s.reread key := by
  rw [Store.reread, Store.reread, Store.lookup, Store.lookup, h.keys]
  cases hk : s.keys[key]? with
  | none => rfl
  | some e => cases ht : e.tomb <;> simp [ht, h.read key e hk]

theorem Alike.readRef (h : Alike s s') {x : Bytes × Entry} (hx : s.keys[x.1]? = some x.2) :
    s'.readRef x = s.readRef x := by
  rw [Store.readRef, Store.readRef, h.read x.1 x.2 hx, h.reread]

theorem Alike.visit (h : Alike s s') (limit : Int) {refs : List (Bytes × Entry)}
    (hrefs : ∀ x ∈ refs, s.keys[x.1]? = some x.2) (out : List (Bytes × Bytes)) :
    s'.visit limit refs out = s.visit limit refs out := by
  induction refs generalizing out with
  | nil => rfl
  | cons x rest ih =>
    have hrest := ih fun y hy => hrefs y (List.mem_cons_of_mem _ hy)
    rw [Store.visit, Store.visit, h.readRef (hrefs x (List.mem_cons_self ..))]
    simp only [hrest]

theorem Alike.scanLoop (h : Alike s s') (endKey : Bytes) (limit : Int) (fuel : Nat) (cursor : Bytes)
    (exclusive : Bool) (out : List (Bytes × Bytes)) :
    s'.scanLoop endKey limit fuel cursor exclusive out = s.scanLoop endKey limit fuel cursor exclusive out := by
  induction fuel generalizing cursor exclusive out with
  | zero => rfl
  | succ fuel ih =>
    have hseek : s'.seek cursor = s.seek cursor := by rw [Store.seek, Store.seek, h.keys]
    rw [Store.scanLoop, Store.scanLoop, hseek]
    simp only [ih]
    rw [h.visit limit fun x hx => mem_seek ((mem_collect hx).resolve_left List.not_mem_nil)]

/-- **Stores that read alike scan alike.** -/
theorem Alike.scan (h : Alike s s') (start endKey : Bytes) (limit : Int) :
    s'.scan start endKey limit = s.scan start endKey limit := by
  rw [Store.scan, Store.scan, h.keys, h.scanLoop]

end Range

end Gokv.Engine
