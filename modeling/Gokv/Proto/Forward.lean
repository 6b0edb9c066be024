import Gokv.Cluster.Stream
import Gokv.Engine.Wide
import Gokv.Proto.BatchRequest

/-! Writes on their way to the followers.

The buffer of a write that succeeded is handed to `fanout`, which queues it on every open stream;
each stream sends it as one frame. A request spends 8 bytes on a pair beside its key and value,
the log 29, so a batch grows by 21 bytes a pair on its way through the leader. `forward_iff`
says which accepted requests can be forwarded. -/
namespace Gokv.Proto
open Base Engine Remote

def replDataByte : UInt8 := 0x06

/-- One queued write, as a frame. -/
def writeReplData (stream raw : Bytes) : Except Error Bytes := writeFrame stream (replDataByte :: raw)

/-- No write that waits on the stream fails for its length. -/
def Sendable (s : Cluster.Stream Bytes) : Prop :=
  ∀ raw ∈ s.ch, ∀ stream, writeReplData stream raw ≠ .error .frameTooLarge

/-- A leader: its store, and the streams its observer feeds. -/
structure LeaderNode where
  store : Store
  streams : List (Cluster.Stream Bytes)

section Forward
variable [Checksum]

/-- A write on a leader. `notify` stands at the end of `writeLocked`, so that every write that
reached the log is handed over, and an empty batch is not. -/
def LeaderNode.write (l : LeaderNode) (op : Op) : LeaderNode × Option Engine.Error :=
  match l.store.apply op with
  | (s, some e) => ({l with store := s}, some e)
  | (s, none) =>
    if op.records.isEmpty then ({l with store := s}, none)
    else (⟨s, l.streams.map (·.fanout (Store.writeBuffer [] (Store.assignSeqs l.store.seq op.records)).1)⟩, none)

/-- Forwarding the write can fail for no stream that could send what it had before. -/
def Forwards (s : Store) (op : Op) : Prop :=
  ∀ streams : List (Cluster.Stream Bytes), (∀ st ∈ streams, Sendable st) →
    ∀ st ∈ (LeaderNode.write ⟨s, streams⟩ op).1.streams, Sendable st

omit [Checksum] in
theorem writeReplData_tooLarge (stream raw : Bytes) :
    writeReplData stream raw = .error .frameTooLarge ↔ maxFrameSize < raw.length + 1 := by
  rw [writeReplData, writeFrame, List.length_cons]
  by_cases h : maxFrameSize < raw.length + 1
  · simp [h]
  · simp [h]

omit [Checksum] in
/-- What waits on a stream after `fanout`. -/
theorem mem_fanout {s : Cluster.Stream Bytes} {raw x : Bytes} (h : x ∈ (s.fanout raw).ch) : x ∈ s.ch ∨ x = raw := by
  rw [Cluster.Stream.fanout] at h
  split_ifs at h
  · exact .inl h
  · exact (List.mem_append.mp h).imp_right List.mem_singleton.mp
  · exact .inl h

/-- Forwarding an accepted write succeeds exactly if its records fit a frame. -/
theorem forwards_iff {s : Store} {op : Op} (hok : (s.apply op).2 = none) :
    Forwards s op ↔ (encodeAll (Store.assignSeqs s.seq op.records)).length + 1 ≤ maxFrameSize ∨ op.records = [] := by
  have hbuf : (Store.writeBuffer [] (Store.assignSeqs s.seq op.records)).1 =
      encodeAll (Store.assignSeqs s.seq op.records) := by rw [writeBuffer_eq, List.nil_append]
  have hwrite (streams : List (Cluster.Stream Bytes)) : (LeaderNode.write ⟨s, streams⟩ op).1.streams =
      if op.records = [] then streams else streams.map (·.fanout (encodeAll (Store.assignSeqs s.seq op.records))) := by
    rcases hs : s.apply op with ⟨s', err⟩
    obtain rfl : err = none := by rwa [hs] at hok
    by_cases hnil : op.records = [] <;> simp [LeaderNode.write, hs, hnil, hbuf]
  constructor
  · intro h
    by_cases hnil : op.records = []
    · exact .inr hnil
    · refine .inl (Nat.le_of_not_lt fun hlong => ?_)
      -- a follower that is up to date
      have hfresh := h [.attached] (fun st hst => by
        rw [List.mem_singleton.mp hst]
        exact fun raw hraw => absurd hraw List.not_mem_nil)
      rw [hwrite, if_neg hnil] at hfresh
      exact hfresh _ (List.mem_singleton_self _) _ (List.mem_singleton_self _) []
        ((writeReplData_tooLarge _ _).mpr hlong)
  · intro h streams hstreams st hst
    rw [hwrite] at hst
    by_cases hnil : op.records = []
    · rw [if_pos hnil] at hst
      exact hstreams st hst
    · rw [if_neg hnil] at hst
      obtain ⟨st₀, hst₀, rfl⟩ := List.mem_map.mp hst
      intro raw hraw stream
      rcases mem_fanout hraw with hraw | rfl
      · exact hstreams st₀ hst₀ raw hraw stream
      · rw [Ne, writeReplData_tooLarge, Nat.not_lt]
        exact h.resolve_right hnil

/-! ### The lengths -/

theorem put_accepted {s : Store} {now : Int64} {key value : Bytes} (h : (s.apply (.put now key value)).2 = none) :
    key.length ≤ maxKeySize ∧ value.length ≤ maxValueSize := by
  rw [Store.apply, Store.put] at h
  cases hk : Store.validateKey key with
  | some e => simp [hk] at h
  | none =>
    simp only [hk] at h
    split_ifs at h with hv hc
    · exact ⟨(validateKey_none hk).2, Nat.le_of_not_lt hv⟩

theorem delete_accepted {s : Store} {now : Int64} {key : Bytes} (h : (s.apply (.delete now key)).2 = none) :
    key.length ≤ maxKeySize := by
  rw [Store.apply, Store.delete] at h
  cases hk : Store.validateKey key with
  | some e => simp [hk] at h
  | none => exact (validateKey_none hk).2

/-- **The log spends 21 bytes more on a pair** than the request. -/
theorem length_encodeAll_batchRecords (now : Int64) (ps : List (Bytes × Bytes)) :
    (encodeAll (Store.batchRecords now ps)).length = (encPairs ps).length + 21 * ps.length := by
  have hmember (xs : List (Bytes × Bytes)) :
      (encodeAll (xs.map (memberRecord now))).length = (encPairs xs).length + 21 * xs.length := by
    induction xs with
    | nil => rfl
    | cons x rest ih =>
      rw [List.map_cons, encodeAll_cons, encPairs_cons, List.length_append, List.length_append, List.length_append, ih,
        Record.length_encode, length_encBytes, length_encBytes, List.length_cons, recordHeaderSize]
      show 29 + x.1.length + x.2.length + _ = _
      omega
  rcases ps.eq_nil_or_concat' with rfl | ⟨init, x, rfl⟩
  · rfl
  · have hlast : encPairs (init ++ [x]) = encPairs init ++ (encBytes x.1 ++ encBytes x.2) := by simp [encPairs]
    rw [batchRecords_concat, encodeAll_append, encodeAll_cons, encodeAll_nil, List.append_nil,
      List.length_append, hmember,
      hlast, Record.length_encode, List.length_append, List.length_append, length_encBytes, length_encBytes,
      List.length_append, List.length_singleton, recordHeaderSize]
    show _ + (29 + x.1.length + x.2.length) = _
    omega

omit [Checksum] in
theorem decBatch_exact {n : Nat} {b : Bytes} {ps : List (Bytes × Bytes)} (h : decBatch n b = some ps) :
    b = encPairs ps ∧ ps.length = n := by
  induction n generalizing b ps with
  | zero =>
    cases b with
    | nil =>
      cases h
      exact ⟨rfl, rfl⟩
    | cons c rest => cases h
  | succ n ih =>
    rw [decBatch] at h
    rcases hk : decBytes b with _ | ⟨k, rest⟩
    · simp [hk] at h
    rcases hv : decBytes rest with _ | ⟨v, more⟩
    · simp [hk, hv] at h
    simp only [hk, hv] at h
    obtain ⟨qs, hqs, rfl⟩ := Option.map_eq_some_iff.mp h
    obtain ⟨hrest, hlen⟩ := ih hqs
    refine ⟨?_, by rw [List.length_cons, hlen]⟩
    rw [(decBytes_exact hk).1, (decBytes_exact hv).1, hrest, encPairs_cons, List.append_assoc]

/-- How many pairs a request carries as a batch. -/
def batched : Op → Nat
  | .batchPut _ keys _ => keys.length
  | _ => 0

/-- A batch request and its records. -/
theorem length_batch (now : Int64) {b rest : Bytes} {count : Nat} {ps : List (Bytes × Bytes)}
    (hcount : decU32 b = some (count, rest))
    (hps : decBatch count rest = some ps) :
    (encodeAll (Store.batchRecords now ps)).length + 4 = b.length + 21 * ps.length := by
  have hb : b.length = rest.length + 4 := by
    rw [decU32] at hcount
    by_cases hshort : b.length < 4
    · rw [if_pos hshort] at hcount
      cases hcount
    · rw [if_neg hshort] at hcount
      cases hcount
      rw [List.length_drop]
      omega
  rw [length_encodeAll_batchRecords, hb, (decBatch_exact hps).1]
  omega

/-- A record within the limits fits a frame. -/
theorem single_fits {r : Record} (hk : r.key.length ≤ maxKeySize) (hv : r.value.length ≤ maxValueSize) (q : UInt64) :
    (encodeAll (Store.assignSeqs q [r])).length + 1 ≤ maxFrameSize := by
  rw [length_encodeAll_assignSeqs, encodeAll_cons, encodeAll_nil, List.append_nil, Record.length_encode,
    recordHeaderSize,
    maxFrameSize]
  rw [maxKeySize] at hk
  rw [maxValueSize] at hv
  omega

/-- **Which accepted requests can be forwarded**: those whose frame leaves 21 bytes for every
pair of a batch, less the four bytes of their number. A single put or delete always does. -/
theorem forward_iff {now : Int64} {frame : Bytes} {op : Op} {s : Store} (hdec : decWrite now frame = some op)
    (hsize : frame.length ≤ maxFrameSize) (hok : (s.apply op).2 = none) :
    Forwards s op ↔ frame.length + 21 * batched op ≤ maxFrameSize + 4 := by
  rw [forwards_iff hok]
  cases frame with
  | nil => cases hdec
  | cons code body =>
    rw [decWrite] at hdec
    split_ifs at hdec with hput hdel hbatch
    · rcases hk : decBytes body with _ | ⟨k, rest⟩
      · simp [hk] at hdec
      rcases hv : decBytes rest with _ | ⟨v, more⟩
      · simp [hk, hv] at hdec
      cases more with
      | cons c more => simp [hk, hv] at hdec
      | nil =>
        simp only [hk, hv, Option.some.injEq] at hdec
        subst hdec
        obtain ⟨hkey, hval⟩ := put_accepted hok
        exact ⟨fun _ => Nat.le_add_right_of_le hsize, fun _ => .inl (single_fits hkey hval _)⟩
    · rcases hk : decBytes body with _ | ⟨k, rest⟩
      · simp [hk] at hdec
      cases rest with
      | cons c more => simp [hk] at hdec
      | nil =>
        simp only [hk, Option.some.injEq] at hdec
        subst hdec
        have hkey := delete_accepted hok
        exact ⟨fun _ => Nat.le_add_right_of_le hsize, fun _ => .inl (single_fits hkey (Nat.zero_le _) _)⟩
    · rcases hcount : decU32 body with _ | ⟨count, rest⟩
      · simp [hcount] at hdec
      simp only [hcount] at hdec
      split_ifs at hdec
      obtain ⟨ps, hps, rfl⟩ := Option.map_eq_some_iff.mp hdec
      have hzip : (ps.map Prod.fst).zip (ps.map Prod.snd) = ps := by rw [List.zip_map', List.map_id']
      have hlen := length_batch now hcount hps
      have hnil : Store.batchRecords now ps = [] ↔ ps.length = 0 := by
        rw [← List.length_eq_zero_iff, length_batchRecords]
      rw [Op.records, hzip, length_encodeAll_assignSeqs, hnil, batched, List.length_map, List.length_cons]
      rw [List.length_cons] at hsize
      constructor
      · rintro (h | h) <;> omega
      · intro h
        exact .inl (by omega)

end Forward

/-- Two pairs, with plenty of room. -/
theorem forward_iff_batch : Forwards (Store.init ⟨0, .never⟩) (.batchPut 0 [[1], [2]] [[7], []]) :=
  (forward_iff (decWrite_encode 0 (r := .batchPut [[1], [2]] [[7], []]) rfl (fun keys values heq => by cases heq; rfl)
    (by decide)) (by decide) (by decide +kernel)).mpr (by decide)

/-! ### A batch that cannot be forwarded -/

/-- A request to put nothing under one key, `n` times. -/
def bulk (n : Nat) : Request := .batchPut (List.replicate n [0]) (List.replicate n [])

theorem zip_bulk (n : Nat) : (List.replicate n ([0] : Bytes)).zip (List.replicate n ([] : Bytes)) =
    List.replicate n ([0], []) := by
  rw [List.zip_replicate, Nat.min_self]

theorem length_bulk (n : Nat) : (bulk n).encode.length = 5 + 9 * n := by
  have hpairs : ∀ m, (encPairs (List.replicate m ([0], []))).length = 9 * m := by
    intro m
    induction m with
    | zero => rfl
    | succ m ih =>
      rw [List.replicate_succ, encPairs_cons, List.length_append, List.length_append, length_encBytes,
        length_encBytes, ih,
        List.length_singleton, List.length_nil]
      omega
  rw [bulk, Request.encode, Request.body, zip_bulk, List.length_cons, List.length_append, length_putBE]
  have := hpairs n
  rw [encPairs] at this
  omega

/-- The first store takes it. -/
theorem bulk_accepted {n : Nat} (hn : 0 < n) :
    ((Store.init ⟨0, .never⟩).apply (.batchPut 0 (List.replicate n [0]) (List.replicate n []))).2 = none := by
  have hvalid : Store.validateBatch (List.replicate n ([0], [])) = none := by
    have hmap : List.replicate n (([0] : Bytes), ([] : Bytes)) = (List.replicate n [0]).map fun k => (k, []) := by
      rw [List.map_replicate]
    rw [hmap]
    refine validateBatch_map (fun k hk => ?_) (Nat.zero_le _)
    rw [List.eq_of_mem_replicate hk]
    decide
  have hop : (Op.batchPut 0 (List.replicate n [0]) (List.replicate n [])).Valid := by
    refine ⟨by rw [List.length_replicate, List.length_replicate], ?_, ?_⟩
    · rw [List.length_replicate]
      omega
    · rw [zip_bulk]
      exact hvalid
  obtain ⟨s, hs, -⟩ := first_batchPut ⟨0, .never⟩ rfl 0 hop
  rw [Store.apply, hs]

/-- A request that fits a frame and whose records do not. -/
theorem bulk_overflows {n : Nat} (hn : 0 < n) (hrequest : 5 + 9 * n ≤ maxFrameSize)
    (hrecords : maxFrameSize < 30 * n + 1) :
    decWrite 0 (bulk n).encode = some (.batchPut 0 (List.replicate n [0]) (List.replicate n [])) ∧
      (bulk n).encode.length ≤ maxFrameSize ∧
      ((Store.init ⟨0, .never⟩).apply (.batchPut 0 (List.replicate n [0]) (List.replicate n []))).2 = none ∧
      ¬ Forwards (Store.init ⟨0, .never⟩) (.batchPut 0 (List.replicate n [0]) (List.replicate n [])) := by
  have hsize : (bulk n).encode.length ≤ maxFrameSize := by rwa [length_bulk]
  have hlen : (encodeAll (Store.assignSeqs (Store.init ⟨0, .never⟩).seq
      (Op.records (.batchPut 0 (List.replicate n [0]) (List.replicate n []))))).length = 30 * n := by
    have hpairs := length_bulk n
    rw [bulk, Request.encode, Request.body, zip_bulk, List.length_cons, List.length_append, length_putBE] at hpairs
    rw [length_encodeAll_assignSeqs, Op.records, zip_bulk, length_encodeAll_batchRecords, encPairs,
      List.length_replicate]
    omega
  refine ⟨decWrite_encode 0 rfl (fun keys values heq => ?_) hsize, hsize, bulk_accepted hn, fun hforward => ?_⟩
  · cases heq
    rw [List.length_replicate, List.length_replicate]
  · rcases (forwards_iff (bulk_accepted hn)).mp hforward with hfits | hnil
    · omega
    · rw [hnil] at hlen
      rw [show (encodeAll (Store.assignSeqs (Store.init ⟨0, .never⟩).seq [])).length = 0 from rfl] at hlen
      omega

/-- A request of 96 MiB whose records take a byte count just above the limit of a frame. -/
theorem bulk_not_forwarded :
    decWrite 0 (bulk 11184811).encode =
        some (.batchPut 0 (List.replicate 11184811 [0]) (List.replicate 11184811 [])) ∧
      (bulk 11184811).encode.length ≤ maxFrameSize ∧
      ((Store.init ⟨0, .never⟩).apply (.batchPut 0 (List.replicate 11184811 [0])
        (List.replicate 11184811 []))).2 = none ∧
      ¬ Forwards (Store.init ⟨0, .never⟩) (.batchPut 0 (List.replicate 11184811 [0]) (List.replicate 11184811 [])) :=
  bulk_overflows (by decide) (by decide) (by decide)

end Gokv.Proto
