import Gokv.Proto.BatchRequest

/-! The reply to a range query.

`serveRange` packs the pairs it is handed into chunks: a chunk goes out as soon as it has reached
the threshold, whatever the last pair made of it, and the end of the reply says how many pairs
there were. The client takes the chunks apart again and hands the pairs to its callback.
`range_reply`: the two cancel out, for every list of pairs, and no frame is too long. -/
namespace Gokv.Proto
open Base Engine Remote

def rangeChunkBytes : Nat := 256 * 2 ^ 10

/-- `MaxRangeResults` with its default. -/
def maxRangeResults (configured : Int64) : Int64 := if configured ≤ 0 then 100000 else configured

/-- The limit `serveRange` gives to `Scan`, from the field of the request. -/
def rangeLimit (configured : Int64) (limit : UInt32) : Int64 :=
  let asked := Int64.ofNat limit.toNat
  if asked ≤ 0 ∨ maxRangeResults configured < asked then maxRangeResults configured else asked

/-- Where a range reply stands: the chunk that is filled, the pairs so far, the frames written. -/
structure Ranging where
  chunk : Bytes
  total : UInt64
  frames : List Bytes

namespace Ranging

def start : Ranging := ⟨newEnc Status.rangeChunk.byte, 0, []⟩

/-- `WriteFrame` of one more frame. -/
def send (r : Ranging) (frame : Bytes) : Ranging × Option Error :=
  if maxFrameSize < frame.length then (r, some .frameTooLarge)
  else ({r with frames := r.frames ++ [frame]}, none)

/-- The callback of the scan. -/
def pair (r : Ranging) (k v : Bytes) : Ranging × Option Error :=
  let r := {r with chunk := Enc.bytes (Enc.bytes r.chunk k) v, total := r.total + 1}
  if rangeChunkBytes ≤ r.chunk.length then
    match r.send r.chunk with
    | (r, some e) => (r, some e)
    | (r, none) => ({r with chunk := newEnc Status.rangeChunk.byte}, none)
  else (r, none)

/-- `Scan`, handing its pairs to the callback until that fails. -/
def pairs (r : Ranging) : List (Bytes × Bytes) → Ranging × Option Error
  | [] => (r, none)
  | x :: rest =>
    match r.pair x.1 x.2 with
    | (r, some e) => (r, some e)
    | (r, none) => r.pairs rest

/-- The end of the reply. -/
def finish (r : Ranging) : Ranging × Option Error :=
  match (if 1 < r.chunk.length then r.send r.chunk else (r, none)) with
  | (r, some e) => (r, some e)
  | (r, none) => r.send (Enc.u64 (newEnc Status.rangeEnd.byte) r.total)

end Ranging

/-- `serveRange`, for the pairs `Scan` hands to it and the error `Scan` returns: the frames it
writes and the error of its own. -/
def serveRange (handed : List (Bytes × Bytes)) (scanErr : Option Bytes) : List Bytes × Option Error :=
  match Ranging.start.pairs handed with
  | (r, some e) => (r.frames, some e)
  | (r, none) =>
    match scanErr with
    | some msg => ((r.send (errorFrame msg)).1.frames, (r.send (errorFrame msg)).2)
    | none => (r.finish.1.frames, r.finish.2)

/-! ### The chunks -/

def chunkFrame (ps : List (Bytes × Bytes)) : Bytes := Status.rangeChunk.byte :: encPairs ps

def endFrame (total : UInt64) : Bytes := Status.rangeEnd.byte :: putBE 8 total.toNat

/-- A pair as the store holds it. -/
def Admitted (x : Bytes × Bytes) : Prop := x.1.length ≤ maxKeySize ∧ x.2.length ≤ maxValueSize

instance (x : Bytes × Bytes) : Decidable (Admitted x) := inferInstanceAs (Decidable (_ ∧ _))

theorem Admitted.short {ps : List (Bytes × Bytes)} (h : ∀ x ∈ ps, Admitted x) : Short ps := fun x hx => by
  obtain ⟨hk, hv⟩ := h x hx
  rw [maxKeySize] at hk
  rw [maxValueSize] at hv
  omega

theorem encPairs_append (ps qs : List (Bytes × Bytes)) : encPairs (ps ++ qs) = encPairs ps ++ encPairs qs :=
  List.flatMap_append ..

/-- What has become of the pairs `done`: the groups that went out and those in the open chunk. -/
structure Ranging.Packed (r : Ranging) (done : List (Bytes × Bytes)) (groups : List (List (Bytes × Bytes)))
    (pending : List (Bytes × Bytes)) : Prop where
  all : done = groups.flatten ++ pending
  chunk : r.chunk = chunkFrame pending
  small : (chunkFrame pending).length < rangeChunkBytes
  frames : r.frames = groups.map chunkFrame
  fits : ∀ g ∈ groups, (chunkFrame g).length ≤ maxFrameSize
  total : r.total = UInt64.ofNat done.length

theorem Ranging.packed_start : start.Packed [] [] [] :=
  ⟨rfl, rfl, by decide, rfl, fun _ hg => absurd hg List.not_mem_nil, rfl⟩

theorem Ranging.send_eq (r : Ranging) {frame : Bytes} (h : frame.length ≤ maxFrameSize) :
    r.send frame = ({r with frames := r.frames ++ [frame]}, none) := if_neg (Nat.not_lt.mpr h)

section Packed
variable {r : Ranging} {done pending : List (Bytes × Bytes)} {groups : List (List (Bytes × Bytes))}

theorem length_chunkFrame_concat (pending : List (Bytes × Bytes)) (x : Bytes × Bytes) :
    (chunkFrame (pending ++ [x])).length = (chunkFrame pending).length + (8 + x.1.length + x.2.length) := by
  rw [chunkFrame, chunkFrame, encPairs_append, encPairs_cons]
  simp only [encPairs, List.flatMap_nil, List.append_nil, List.length_cons, List.length_append, length_encBytes]
  omega

theorem bytes_chunkFrame (pending : List (Bytes × Bytes)) {x : Bytes × Bytes} (hx : Admitted x) :
    Enc.bytes (Enc.bytes (chunkFrame pending) x.1) x.2 = chunkFrame (pending ++ [x]) := by
  obtain ⟨hk, hv⟩ := Admitted.short (List.forall_mem_singleton.mpr hx) x (List.mem_singleton_self x)
  rw [chunkFrame, chunkFrame, encPairs_append, encPairs_cons]
  simp [Enc.bytes, Enc.u32, encBytes, encPairs, UInt32.toNat_ofNat_of_lt' hk, UInt32.toNat_ofNat_of_lt' hv]

/-- **One pair** goes into the open chunk, which may go out. -/
theorem Ranging.Packed.pair (h : r.Packed done groups pending) {x : Bytes × Bytes} (hx : Admitted x) :
    ∃ r' groups' pending', r.pair x.1 x.2 = (r', none) ∧ r'.Packed (done ++ [x]) groups' pending' := by
  have hchunk : Enc.bytes (Enc.bytes r.chunk x.1) x.2 = chunkFrame (pending ++ [x]) := by
    rw [h.chunk, bytes_chunkFrame pending hx]
  have htotal : r.total + 1 = UInt64.ofNat (done ++ [x]).length := by
    rw [h.total, List.length_append, List.length_singleton, UInt64.ofNat_add]
    rfl
  have hall : done ++ [x] = groups.flatten ++ (pending ++ [x]) := by rw [h.all, List.append_assoc]
  -- a chunk that is short of the threshold has room for any one pair
  have hmax : (chunkFrame (pending ++ [x])).length ≤ maxFrameSize := by
    have hsmall := h.small
    obtain ⟨hk, hv⟩ := hx
    rw [rangeChunkBytes] at hsmall
    rw [maxKeySize] at hk
    rw [maxValueSize] at hv
    rw [length_chunkFrame_concat, maxFrameSize]
    omega
  rw [Ranging.pair]
  simp only [hchunk]
  by_cases hfull : rangeChunkBytes ≤ (chunkFrame (pending ++ [x])).length
  · rw [if_pos hfull, Ranging.send_eq _ hmax]
    refine ⟨_, groups ++ [pending ++ [x]], [], rfl, ?_, rfl, by decide, ?_, ?_, htotal⟩
    · rw [hall]
      simp
    · rw [List.map_append, ← h.frames]
      rfl
    · intro g hg
      rcases List.mem_append.mp hg with hg | hg
      · exact h.fits g hg
      · rwa [List.mem_singleton.mp hg]
  · rw [if_neg hfull]
    exact ⟨_, groups, pending ++ [x], rfl, hall, rfl, Nat.lt_of_not_le hfull, h.frames, h.fits, htotal⟩

theorem Ranging.Packed.pairs (h : r.Packed done groups pending) {handed : List (Bytes × Bytes)}
    (hx : ∀ x ∈ handed, Admitted x) :
    ∃ r' groups' pending', r.pairs handed = (r', none) ∧ r'.Packed (done ++ handed) groups' pending' := by
  induction handed generalizing r done groups pending with
  | nil => exact ⟨r, groups, pending, rfl, by rwa [List.append_nil]⟩
  | cons x rest ih =>
    rw [List.forall_mem_cons] at hx
    obtain ⟨r₁, groups₁, pending₁, hstep, hpacked⟩ := h.pair hx.1
    obtain ⟨r₂, groups₂, pending₂, hrest, hend⟩ := ih hpacked hx.2
    refine ⟨r₂, groups₂, pending₂, ?_, ?_⟩
    · rw [Ranging.pairs, hstep]
      exact hrest
    · rwa [List.append_assoc] at hend

/-- The open chunk goes out unless it is empty. -/
theorem Ranging.Packed.last (h : r.Packed done groups pending) :
    ∃ groups' : List (List (Bytes × Bytes)), groups'.flatten = done ∧
      (∀ g ∈ groups', (chunkFrame g).length ≤ maxFrameSize) ∧
      (if 1 < r.chunk.length then r.send r.chunk else (r, none)) =
      ({r with frames := groups'.map chunkFrame}, none) := by
  cases pending with
  | nil =>
    refine ⟨groups, by rw [h.all, List.append_nil], h.fits, ?_⟩
    have hone : ¬ 1 < r.chunk.length := by
      rw [h.chunk]
      decide
    rw [if_neg hone, ← h.frames]
  | cons x rest =>
    have hmax : (chunkFrame (x :: rest)).length ≤ maxFrameSize :=
      Nat.le_trans h.small.le (by decide)
    have hone : 1 < (chunkFrame (x :: rest)).length := by
      rw [chunkFrame, encPairs_cons, List.length_cons, List.length_append, List.length_append, length_encBytes]
      omega
    refine ⟨groups ++ [x :: rest], by rw [h.all]; simp, ?_, ?_⟩
    · intro g hg
      rcases List.mem_append.mp hg with hg | hg
      · exact h.fits g hg
      · rwa [List.mem_singleton.mp hg]
    · rw [← h.chunk] at hone hmax
      rw [if_pos hone, Ranging.send_eq r hmax, List.map_append, ← h.frames, h.chunk]
      rfl

end Packed

/-- **The frames** of a range reply: the pairs in groups, and the end. -/
theorem serveRange_eq {handed : List (Bytes × Bytes)} (hx : ∀ x ∈ handed, Admitted x) :
    ∃ groups : List (List (Bytes × Bytes)), groups.flatten = handed ∧
      (∀ g ∈ groups, (chunkFrame g).length ≤ maxFrameSize) ∧
      serveRange handed none = (groups.map chunkFrame ++ [endFrame (UInt64.ofNat handed.length)], none) := by
  obtain ⟨r, groups, pending, hread, h⟩ := Ranging.packed_start.pairs hx
  rw [List.nil_append] at h
  obtain ⟨groups', hflat, hfits, hlast⟩ := h.last
  refine ⟨groups', hflat, hfits, ?_⟩
  have hend : Enc.u64 (newEnc Status.rangeEnd.byte) r.total = endFrame (UInt64.ofNat handed.length) := by
    rw [h.total]
    rfl
  have hmax : (endFrame (UInt64.ofNat handed.length)).length ≤ maxFrameSize := by
    rw [endFrame, List.length_cons, length_putBE]
    decide
  rw [serveRange, hread]
  simp only [Ranging.finish, hlast, hend, Ranging.send_eq _ hmax]

/-! ### The client -/

section Client
variable {fn : List (Bytes × Bytes) → Option String}

/-- A chunk is taken apart into its pairs. -/
theorem visit_encPairs {ps got : List (Bytes × Bytes)} (hshort : Short ps)
    (hfn : ∀ l, l <+: got ++ ps → fn l = none) {fuel : Nat} (hfuel : ps.length ≤ fuel) :
    visit fn fuel got (encPairs ps) = .ok (got ++ ps) := by
  induction ps generalizing got fuel with
  | nil =>
    rw [List.append_nil]
    cases fuel <;> rfl
  | cons x rest ih =>
    obtain ⟨fuel, rfl⟩ : ∃ m, fuel = m + 1 := ⟨fuel - 1, by rw [List.length_cons] at hfuel; omega⟩
    rw [Short, List.forall_mem_cons] at hshort
    obtain ⟨⟨hk, hv⟩, hshort⟩ := hshort
    have hsplit : got ++ x :: rest = got ++ [x] ++ rest := by simp
    rw [hsplit] at hfn ⊢
    have hnext : visit fn fuel (got ++ [x]) (encPairs rest) = .ok (got ++ [x] ++ rest) :=
      ih hshort hfn (by simpa using hfuel)
    have hcall : fn (got ++ [x]) = none := hfn _ (List.prefix_append ..)
    obtain ⟨b, bs, hb⟩ : ∃ b bs, encPairs (x :: rest) = b :: bs := by
      refine List.exists_cons_of_ne_nil fun hnil => ?_
      have := congrArg List.length hnil
      rw [encPairs_cons, List.length_append, List.length_append, length_encBytes, List.length_nil] at this
      omega
    have hkey : decBytes (b :: bs) = some (x.1, encBytes x.2 ++ encPairs rest) := by
      rw [← hb, encPairs_cons, List.append_assoc, decBytes_encBytes hk]
    rw [hb, visit]
    simp only [hkey, decBytes_encBytes hv, hcall, hnext]

/-- **The loop over the frames** hands over the groups one after the other. -/
theorem scanReply_chunks {groups : List (List (Bytes × Bytes))} {got : List (Bytes × Bytes)} {total : UInt64}
    (waiting : Nat)
    (hshort : Short groups.flatten) (hfn : ∀ l, l <+: got ++ groups.flatten → fn l = none) {frame : Bytes}
    {rest : List Bytes}
    (hframes : frame :: rest = groups.map chunkFrame ++ [endFrame total]) :
    (scanReply fn waiting got frame (rest.map (Delivery.mk waiting))).result = .ok (.pairs (got ++ groups.flatten)) ∧
      (scanReply fn waiting got frame (rest.map (Delivery.mk waiting))).poisoned = false ∧
      (scanReply fn waiting got frame (rest.map (Delivery.mk waiting))).left = [] := by
  induction groups generalizing got frame rest with
  | nil =>
    obtain ⟨rfl, rfl⟩ := List.cons.inj hframes
    rw [List.flatten_nil, List.append_nil, List.map_nil, scanReply]
    exact ⟨rfl, rfl, rfl⟩
  | cons g groups ih =>
    obtain ⟨rfl, hrest⟩ := List.cons.inj hframes
    rw [List.flatten_cons, ← List.append_assoc] at hfn
    rw [Short, List.flatten_cons, List.forall_mem_append] at hshort
    have hvisit : visit fn (chunkFrame g).length got ((chunkFrame g).drop 1) = .ok (got ++ g) := by
      refine visit_encPairs hshort.1 (fun l hl => hfn l (hl.trans (List.prefix_append ..))) ?_
      have := length_encPairs g
      rw [chunkFrame, List.length_cons, encPairs]
      omega
    -- the end is still to come, so that another frame follows
    obtain ⟨next, more, rfl⟩ : ∃ next more, rest = next :: more := by
      refine List.exists_cons_of_ne_nil fun hnil => ?_
      rw [hnil] at hrest
      simp at hrest
    have hne : next ≠ [] := by
      have hmem : next ∈ groups.map chunkFrame ++ [endFrame total] := by
        rw [← show next :: more = groups.map chunkFrame ++ [endFrame total] from hrest]
        exact List.mem_cons_self
      rcases List.mem_append.mp hmem with hmem | hmem
      · obtain ⟨g', -, rfl⟩ := List.mem_map.mp hmem
        exact List.cons_ne_nil _ _
      · rw [List.mem_singleton.mp hmem]
        exact List.cons_ne_nil _ _
    obtain ⟨hres, hpois, hleft⟩ := ih hshort.2 hfn hrest
    rw [List.flatten_cons, ← List.append_assoc, scanReply, List.map_cons]
    have hstatus : Status.ofFrame (chunkFrame g) = .rangeChunk := rfl
    simp only [hstatus, hvisit, if_neg hne]
    exact ⟨hres, hpois, hleft⟩

end Client

/-! ### Both sides -/

/-- What the frames of a range reply owe for the pairs `handed`. -/
structure Replied (handed : List (Bytes × Bytes)) (frames : List Bytes) : Prop where
  /-- Chunks, then one end with the number of the pairs. -/
  shape : ∃ chunks, frames = chunks ++ [Status.rangeEnd.byte :: putBE 8 handed.length] ∧
    ∀ f ∈ chunks, f.head? = some Status.rangeChunk.byte
  fits : ∀ f ∈ frames, f.length ≤ maxFrameSize
  /-- A client that is sent these frames hands over these pairs and can go on. -/
  read : ∀ {ν : Type} (net : Net ν) (n n' : ν) (c : Client) (addr startKey endKey : Bytes) (limit : Int)
    (fn : List (Bytes × Bytes) → Option String), c.closed = false → 0 < c.maxAttempts → c.conn = some ⟨addr, []⟩ →
    (Request.scan startKey endKey limit fn).encode.length ≤ maxFrameSize →
    net.send n addr (Request.scan startKey endKey limit fn).encode = (n', true, frames) →
    (∀ l, l <+: handed → fn l = none) →
    ∃ c', Client.call net (.scan startKey endKey limit fn) n c = (n', c', .ok (.pairs handed)) ∧
      c'.conn = some ⟨addr, []⟩

/-- A call whose request is answered by chunks and their end. -/
theorem call_chunks {ν : Type} {net : Net ν} {n n' : ν} {c : Client} {addr startKey endKey : Bytes} {limit : Int}
    {fn : List (Bytes × Bytes) → Option String} {groups : List (List (Bytes × Bytes))} {total : UInt64}
    (hopen : c.closed = false) (htry : 0 < c.maxAttempts) (hconn : c.conn = some ⟨addr, []⟩)
    (hsize : (Request.scan startKey endKey limit fn).encode.length ≤ maxFrameSize)
    (hsend : net.send n addr (Request.scan startKey endKey limit fn).encode =
      (n', true, groups.map chunkFrame ++ [endFrame total]))
    (hshort : Short groups.flatten) (hfn : ∀ l, l <+: groups.flatten → fn l = none) :
    ∃ c', Client.call net (.scan startKey endKey limit fn) n c = (n', c', .ok (.pairs groups.flatten)) ∧
      c'.conn = some ⟨addr, []⟩ := by
  obtain ⟨frame, rest, hframes⟩ : ∃ frame rest, groups.map chunkFrame ++ [endFrame total] = frame :: rest :=
    List.exists_cons_of_ne_nil (by simp)
  obtain ⟨m, hm⟩ : ∃ m, c.maxAttempts = m + 1 := ⟨c.maxAttempts - 1, by omega⟩
  have hstatus : frame ≠ [] ∧ (Status.ofFrame frame = .rangeChunk ∨ Status.ofFrame frame = .rangeEnd) := by
    cases groups with
    | nil =>
      obtain ⟨rfl, -⟩ := List.cons.inj hframes
      exact ⟨List.cons_ne_nil _ _, .inr rfl⟩
    | cons g groups =>
      obtain ⟨rfl, -⟩ := List.cons.inj hframes
      exact ⟨List.cons_ne_nil _ _, .inl rfl⟩
  obtain ⟨hres, hpois, hleft⟩ := scanReply_chunks c.sent hshort
    (show ∀ l, l <+: [] ++ groups.flatten → fn l = none from hfn) hframes.symm
  rw [List.nil_append] at hres
  have hconnect : Client.connect net [] n c = (n, c, none) := by
    rw [Client.connect, hconn]
    exact if_pos (.inl rfl)
  have hexchange : Client.exchange net (Request.scan startKey endKey limit fn).encode n c =
      (n', {c with
        conn := some ⟨addr, rest.map (Delivery.mk c.sent)⟩
        sent := c.sent + 1
        seen := c.seen ++ [(c.sent, c.sent)]}, .ok frame) := by
    rw [Client.exchange, hconn]
    simp only [if_neg (Nat.not_lt.mpr hsize), hsend, hframes, List.nil_append, List.map_cons, if_neg hstatus.1]
  have hattempts : ∃ c', Client.attempts net (.scan startKey endKey limit fn) (m + 1) [] none n c =
      (n', c', .ok (.pairs groups.flatten)) ∧ c'.conn = some ⟨addr, []⟩ := by
    rw [Client.attempts, hconnect]
    simp only [hexchange]
    rcases hstatus.2 with hs | hs
    all_goals
      simp only [hs, Client.handle, Nat.add_sub_cancel, hres, hpois, hleft]
      exact ⟨_, rfl, rfl⟩
  rw [← hm] at hattempts
  simpa only [Client.call, hopen, Bool.false_eq_true, if_false] using hattempts

/-- **A range reply**: the frames for the pairs the scan hands over, at most as many as its limit,
are chunks and one end with their number, none of them too long, and a client makes of them the
same pairs in the same order. -/
theorem range_reply (configured : Int64) (limit : UInt32) {handed : List (Bytes × Bytes)}
    (hx : ∀ x ∈ handed, Admitted x) (hlimit : (handed.length : Int) ≤ (rangeLimit configured limit).toInt) :
    (serveRange handed none).2 = none ∧ Replied handed (serveRange handed none).1 := by
  obtain ⟨groups, hflat, hfits, hserve⟩ := serveRange_eq hx
  have hcount : (UInt64.ofNat handed.length).toNat = handed.length := by
    refine UInt64.toNat_ofNat_of_lt' (show _ < 2 ^ 64 from ?_)
    have hmax := Int64.toInt_lt (rangeLimit configured limit)
    omega
  have hshort : Short groups.flatten := hflat ▸ Admitted.short hx
  rw [hserve]
  refine ⟨rfl, ⟨groups.map chunkFrame, ?_, ?_⟩, ?_, ?_⟩
  · rw [endFrame, hcount]
  · intro f hf
    obtain ⟨g, -, rfl⟩ := List.mem_map.mp hf
    rfl
  · intro f hf
    rcases List.mem_append.mp hf with hf | hf
    · obtain ⟨g, hg, rfl⟩ := List.mem_map.mp hf
      exact hfits g hg
    · rw [List.mem_singleton.mp hf, endFrame, List.length_cons, length_putBE]
      decide
  · intro ν net n n' c addr startKey endKey lim fn hopen htry hconn hsize hsend hfn
    rw [← hflat] at hfn ⊢
    exact call_chunks hopen htry hconn hsize hsend hshort hfn

/-- A value that fills its chunk goes out before the next pair is taken in. -/
theorem serveRange_split {v : Bytes} (hv : v.length = rangeChunkBytes) :
    (serveRange [([1], v), ([3], [])] none).1 = [chunkFrame [([1], v)], chunkFrame [([3], [])], endFrame 2] := by
  have hchunk : Enc.bytes (Enc.bytes Ranging.start.chunk [1]) v = chunkFrame [([1], v)] :=
    bytes_chunkFrame [] (x := ([1], v)) ⟨show 1 ≤ maxKeySize by decide, hv ▸ (by decide)⟩
  have hlen : (chunkFrame [([1], v)]).length = 10 + rangeChunkBytes := by
    have hconcat := length_chunkFrame_concat [] ([1], v)
    have hempty : (chunkFrame []).length = 1 := rfl
    rw [List.nil_append, hempty, hv, List.length_singleton] at hconcat
    omega
  have hfirst : Ranging.start.pair [1] v = (⟨chunkFrame [], 1, [chunkFrame [([1], v)]]⟩, none) := by
    rw [Ranging.pair]
    simp only [hchunk]
    rw [if_pos (by omega), Ranging.send_eq _ (by rw [hlen]; decide)]
    rfl
  rw [serveRange, Ranging.pairs, hfirst]
  rfl

/-- Two pairs in a chunk each. -/
theorem range_reply_pairs :
    (serveRange [([1], List.replicate rangeChunkBytes 2), ([3], [])] none).1.length = 3 ∧
      (serveRange [([1], List.replicate rangeChunkBytes 2), ([3], [])] none).2 = none ∧
      Replied [([1], List.replicate rangeChunkBytes 2), ([3], [])]
        (serveRange [([1], List.replicate rangeChunkBytes 2), ([3], [])] none).1 := by
  refine ⟨by rw [serveRange_split List.length_replicate]; rfl, range_reply 0 2 ?_ (by decide)⟩
  rw [List.forall_mem_cons]
  exact ⟨⟨by decide, by rw [List.length_replicate]; decide⟩, by decide⟩

end Gokv.Proto
