import Gokv.Engine.Recover
import Gokv.Engine.Write

/-! What recovery rebuilds.

A file with a hint is replayed record for record, a file without one by a scan
that drops every batch that never ended: `Dir.reading` says which. Replays install by sequence number, so whatever the
order of the files the rebuilt index is an index of what recovery takes
(`Progress.run`), and the counter resumes from the highest number any intact
record carries, whether recovery takes the record or not. -/
namespace Gokv.Engine
open Base

/-! ### One scan -/

/-- A scanned record of file `id` as a version of its locator. -/
def Scanned.version (id : Nat) (x : Scanned) : Bytes × Nat × Entry :=
  (x.record.key, x.record.seq.toNat, x.entry id)

theorem settles_cons {α : Type*} {f : α → Record} (x : α) (xs : List α) :
    settles f (x :: xs) = ((f x).batch && (f x).batchEnd || settles f xs) := rfl

/-- What a scan of `xs` installs when `pending` is staged before it. -/
def installed (id : Nat) (pending : List (Bytes × Entry)) (xs : List Scanned) :
    Set (Bytes × Nat × Entry) :=
  {y | (settles Scanned.record xs = true ∧ ∃ p ∈ pending, y = (p.1, p.2.seq.toNat, p.2)) ∨
    ∃ x ∈ committed Scanned.record xs, y = x.version id}

theorem installed_unbatched (id : Nat) (pending : List (Bytes × Entry)) (x : Scanned)
    (rest : List Scanned) (hb : x.record.batch = false) :
    installed id pending (x :: rest) = insert (x.version id) (installed id pending rest) := by
  have hs : settles Scanned.record (x :: rest) = settles Scanned.record rest := by
    simp [settles_cons, hb]
  have hc : committed Scanned.record (x :: rest) = x :: committed Scanned.record rest := by
    simp [committed, hb]
  ext y
  simp only [installed, hs, hc, Set.mem_insert_iff, Set.mem_ofPred_eq, List.mem_cons]
  grind

theorem installed_open (id : Nat) (pending : List (Bytes × Entry)) (x : Scanned)
    (rest : List Scanned) (hb : x.record.batch = true) (he : x.record.batchEnd = false) :
    installed id pending (x :: rest) = installed id (pending ++ [(x.record.key, x.entry id)]) rest := by
  have hs : settles Scanned.record (x :: rest) = settles Scanned.record rest := by
    simp [settles_cons, he]
  have hc : committed Scanned.record (x :: rest) =
      if settles Scanned.record rest then x :: committed Scanned.record rest
      else committed Scanned.record rest := by
    rw [committed, hs, hb]
    cases settles Scanned.record rest <;> rfl
  ext y
  simp only [installed, hs, hc, Set.mem_ofPred_eq, List.mem_append, List.mem_singleton]
  cases settles Scanned.record rest with
  | false => simp
  | true =>
    simp only [true_and, if_true, List.mem_cons, Scanned.version, Scanned.entry]
    grind

theorem installed_end (id : Nat) (pending : List (Bytes × Entry)) (x : Scanned)
    (rest : List Scanned) (hb : x.record.batch = true) (he : x.record.batchEnd = true) :
    installed id pending (x :: rest) =
      {y | ∃ p ∈ pending ++ [(x.record.key, x.entry id)], y = (p.1, p.2.seq.toNat, p.2)} ∪
        installed id [] rest := by
  have hs : settles Scanned.record (x :: rest) = true := by simp [settles_cons, hb, he]
  have hc : committed Scanned.record (x :: rest) = x :: committed Scanned.record rest := by
    rw [committed, hs, hb]
    rfl
  ext y
  simp only [installed, hs, hc, Set.mem_union, Set.mem_ofPred_eq, List.mem_append, true_and,
    List.mem_cons, List.not_mem_nil, false_and, exists_false, and_false, false_or,
    Scanned.version, Scanned.entry]
  grind

/-- **A scan indexes what the list commits**, and the batch staged before it if the
list ends that one. -/
theorem replay_indexes (id : Nat) (xs : List Scanned) (st : Replay) {V : Set (Bytes × Nat × Entry)}
    (h : Newest.Indexes V (st.keys.versions fun e => e)) :
    Newest.Indexes (V ∪ installed id st.pending xs)
      ((xs.foldl (Replay.step id) st).keys.versions fun e => e) := by
  induction xs generalizing st V with
  | nil => simpa [installed, settles, committed] using h
  | cons x rest ih =>
    rw [List.foldl_cons]
    cases hb : x.record.batch with
    | false =>
      -- Outside a batch: installed at once, and staging goes on.
      have hkeys : (Replay.step id st x).keys = st.keys.install x.record.key (x.entry id) := by
        simp [Replay.step, hb]
      have hpend : (Replay.step id st x).pending = st.pending := by simp [Replay.step, hb]
      rw [installed_unbatched id _ x rest hb, Set.union_insert, ← Set.insert_union, ← hpend]
      refine ih _ ?_
      rw [hkeys, Index.versions_install]
      exact h.offer ..
    | true =>
      cases he : x.record.batchEnd with
      | false =>
        have hkeys : (Replay.step id st x).keys = st.keys := by simp [Replay.step, hb, he]
        have hpend : (Replay.step id st x).pending = st.pending ++ [(x.record.key, x.entry id)] := by
          simp [Replay.step, hb, he]
        rw [installed_open id _ x rest hb he, ← hpend]
        refine ih _ ?_
        rwa [hkeys]
      | true =>
        have hkeys : (Replay.step id st x).keys =
            st.keys.installAll (st.pending ++ [(x.record.key, x.entry id)]) := by
          simp [Replay.step, hb, he]
        have hpend : (Replay.step id st x).pending = [] := by simp [Replay.step, hb, he]
        rw [installed_end id _ x rest hb he, ← Set.union_assoc, ← hpend]
        refine ih _ ?_
        rw [hkeys, Index.versions_installAll]
        refine (h.offerAll _).congr ?_
        ext y
        simp only [Set.mem_union, Set.mem_ofPred_eq, List.mem_map]
        grind

/-! ### The highest sequence number -/

theorem toNat_maxSeqOf (a b : UInt64) : (maxSeqOf a b).toNat = max a.toNat b.toNat := by
  unfold maxSeqOf
  by_cases h : a < b
  · have := UInt64.lt_iff_toNat_lt.mp h
    rw [if_pos h]
    omega
  · have := UInt64.le_iff_toNat_le.mp (UInt64.not_lt.mp h)
    rw [if_neg h]
    omega

/-- The running maximum over a list of records. -/
def maxSeqAll (m : UInt64) (rs : List Record) : UInt64 := rs.foldl (fun m r => maxSeqOf m r.seq) m

theorem le_maxSeqAll (m : UInt64) (rs : List Record) :
    m.toNat ≤ (maxSeqAll m rs).toNat ∧ ∀ r ∈ rs, r.seq.toNat ≤ (maxSeqAll m rs).toNat := by
  induction rs generalizing m with
  | nil => exact ⟨le_rfl, fun _ hr => (by cases hr)⟩
  | cons r rest ih =>
    obtain ⟨hm, hrest⟩ := ih (maxSeqOf m r.seq)
    have hmax := toNat_maxSeqOf m r.seq
    refine ⟨?_, fun r' hr' => ?_⟩
    · show m.toNat ≤ (maxSeqAll (maxSeqOf m r.seq) rest).toNat
      omega
    · show r'.seq.toNat ≤ (maxSeqAll (maxSeqOf m r.seq) rest).toNat
      rcases List.mem_cons.mp hr' with rfl | hr'
      · omega
      · exact hrest r' hr'

theorem maxSeqAll_mem (m : UInt64) (rs : List Record) :
    maxSeqAll m rs = m ∨ ∃ r ∈ rs, maxSeqAll m rs = r.seq := by
  induction rs generalizing m with
  | nil => exact .inl rfl
  | cons r rest ih =>
    rcases ih (maxSeqOf m r.seq) with h | ⟨r', hr', h⟩
    · have hstep : maxSeqAll m (r :: rest) = maxSeqOf m r.seq := h
      rw [hstep, maxSeqOf]
      split
      · exact .inr ⟨r, List.mem_cons_self .., rfl⟩
      · exact .inl rfl
    · exact .inr ⟨r', List.mem_cons_of_mem _ hr', h⟩

theorem replay_maxSeq (id : Nat) (xs : List Scanned) (st : Replay) :
    (xs.foldl (Replay.step id) st).maxSeq = maxSeqAll st.maxSeq (xs.map Scanned.record) := by
  induction xs generalizing st with
  | nil => rfl
  | cons x rest ih =>
    have hstep : (Replay.step id st x).maxSeq = maxSeqOf st.maxSeq x.record.seq := by
      cases hb : x.record.batch <;> cases he : x.record.batchEnd <;> simp [Replay.step, hb, he]
    rw [List.foldl_cons, ih, hstep]
    rfl

/-! ### The commit point -/

section Commit
variable [Checksum]

/-- The record ends whatever it belongs to. -/
def Record.closes (r : Record) : Prop := r.batch = false ∨ r.batchEnd = true

omit [Checksum] in
theorem step_commit (id : Nat) (st : Replay) (x : Scanned) (h : x.record.closes) :
    (Replay.step id st x).commit = x.pos + (x.entry id).size := by
  cases hb : x.record.batch with
  | false => simp [Replay.step, hb]
  | true =>
    rcases h with h | h
    · rw [hb] at h
      cases h
    · simp [Replay.step, hb, h]

/-- The commit point of a scan stands behind its last closing record. -/
theorem replay_commit (id : Nat) (rs : List Record) (hs : ∀ r ∈ rs, r.Sized) (keys : Index)
    (maxSeq : UInt64) :
    ∃ kept tail, rs = kept ++ tail ∧ Open tail ∧ (∀ r ∈ kept.getLast?, r.closes) ∧
      ((layout 0 rs).foldl (Replay.step id) ⟨keys, maxSeq, [], 0⟩).commit = (encodeAll kept).length := by
  induction rs using List.reverseRecOn with
  | nil => exact ⟨[], [], rfl, fun _ hr => (by cases hr), fun _ hr => (by cases hr), rfl⟩
  | append_singleton rs r ih =>
    obtain ⟨kept, tail, hsplit, hopen, hlast, hcommit⟩ :=
      ih fun r' hr' => hs r' (List.mem_append_left _ hr')
    have hlt := (hs r (List.mem_append_right _ (List.mem_singleton_self r))).lt
    rw [layout_append, List.foldl_append]
    simp only [layout, List.foldl_cons, List.foldl_nil]
    by_cases hc : r.closes
    · refine ⟨rs ++ [r], [], (List.append_nil _).symm, fun _ hr => (by cases hr), ?_, ?_⟩
      · intro r' hr'
        rw [List.getLast?_concat] at hr'
        cases hr'
        exact hc
      · rw [step_commit id _ _ hc]
        show 0 + (encodeAll rs).length + r.encode.length % 2 ^ 32 = _
        rw [Nat.mod_eq_of_lt (by rw [r.length_encode]; omega), encodeAll_append, List.length_append]
        simp
    · simp only [Record.closes, not_or, Bool.not_eq_false, Bool.not_eq_true] at hc
      refine ⟨kept, tail ++ [r], by rw [hsplit, List.append_assoc], fun r' hr' => ?_, hlast, ?_⟩
      · rcases List.mem_append.mp hr' with hr' | hr'
        · exact hopen r' hr'
        · rw [List.mem_singleton.mp hr']
          exact hc
      · simp [Replay.step, hc, hcommit]

omit [Checksum] in
theorem Grouped.closes {g : List Record} (h : Grouped g) : ∀ r ∈ g.getLast?, r.closes := by
  induction h with
  | nil => exact fun _ hr => (by cases hr)
  | @cons g rest hg _ ih =>
    intro r hr
    rw [List.getLast?_append] at hr
    cases hrest : rest.getLast? with
    | some r' =>
      rw [hrest] at hr
      exact ih r (by rw [hrest]; exact hr)
    | none =>
      obtain ⟨body, e, rfl, _, ⟨_, he⟩ | ⟨_, hb⟩⟩ := hg
      · rw [hrest, List.getLast?_concat] at hr
        cases hr
        exact .inr he
      · rw [hrest, List.getLast?_concat] at hr
        cases hr
        exact .inl hb

omit [Checksum] in
/-- Behind its last closing record a list splits in one way. -/
theorem closed_split {g k t u : List Record} (heq : g ++ t = k ++ u) (ht : Open t) (hu : Open u)
    (hg : ∀ r ∈ g.getLast?, r.closes) (hk : ∀ r ∈ k.getLast?, r.closes) : g = k := by
  have hno {a : List Record} (ha : Open a) : ∀ r ∈ a.getLast?, ¬ r.closes := by
    intro r hr hc
    obtain ⟨h1, h2⟩ := ha r (List.mem_of_getLast? hr)
    rcases hc with hc | hc
    · rw [h1] at hc
      cases hc
    · rw [h2] at hc
      cases hc
  have hempty {a b c : List Record} (hb : b = a ++ c) (hc : Open c) (hlast : ∀ r ∈ b.getLast?, r.closes) :
      b = a := by
    cases hgl : c.getLast? with
    | none => rw [hb, List.getLast?_eq_none_iff.mp hgl, List.append_nil]
    | some r =>
      refine absurd (hlast r ?_) (hno hc r hgl)
      rw [hb, List.getLast?_append, hgl]
      rfl
  rcases List.append_eq_append_iff.mp heq with ⟨as, hk', rfl⟩ | ⟨bs, hg', rfl⟩
  · exact (hempty hk' (fun r hr => ht r (List.mem_append_left _ hr)) hk).symm
  · exact hempty hg' (fun r hr => hu r (List.mem_append_left _ hr)) hg

end Commit

/-! ### One file -/

/-- How recovery reads a file: a hint lists every record, a scan only commits some. -/
def Dir.reading (d : Dir) (id : Nat) : Reading := if id ∈ d.hints then .every else .committed

/-- The scanned records a reading takes. -/
def Reading.pick : Reading → List Scanned → List Scanned
  | .every, xs => xs
  | .committed, xs => Engine.committed Scanned.record xs

theorem Reading.pick_records (ρ : Reading) (xs : List Scanned) :
    (ρ.pick xs).map Scanned.record = ρ.take (xs.map Scanned.record) := by
  cases ρ with
  | every => rfl
  | committed => exact (committed_map (f := id) Scanned.record xs).symm

theorem Reading.pick_subset {ρ : Reading} {xs : List Scanned} {x : Scanned} (h : x ∈ ρ.pick xs) :
    x ∈ xs := by
  cases ρ with
  | every => exact h
  | committed => exact committed_subset xs x h

section File
variable [Checksum]

/-- What a reading takes from the file `b`, as versions of locators. -/
def taken (ρ : Reading) (id : Nat) (b : Bytes) : Set (Bytes × Nat × Entry) :=
  {y | ∃ x ∈ ρ.pick (scanFile b).1, y = x.version id}

variable {opts : Options} {isLast : Bool} {st : Recovery} {id : Nat} {f : DiskFile}

/-- **Replaying the hint of a file** offers every record of the file. -/
theorem replayHint_buildHint (id : Nat) {b : Bytes} (hlen : b.length < 2 ^ 64) (keys : Index) (maxSeq : UInt64) :
    replayHint id (buildHint id b) keys maxSeq =
      (keys.installAll ((scanFile b).1.map fun x => (x.record.key, x.entry id)), maxSeqAll maxSeq (records b),
        true) := by
  rw [replayHint, readHint_buildHint id b hlen]
  simp only [List.map_map, Option.isNone_none, records, maxSeqAll, List.foldl_map]
  rfl

theorem recoverFile_hinted (opts : Options) (isLast : Bool) (hf : st.dir.data[id]? = some f)
    (hh : st.dir.hints[id]? = some (buildHint id f.bytes)) (hlen : f.bytes.length < 2 ^ 64) :
    recoverFile opts isLast st id =
      { st with keys := st.keys.installAll ((scanFile f.bytes).1.map fun x => (x.record.key, x.entry id))
                files := st.files.insert id f.bytes.length
                nextID := if st.nextID ≤ id then Store.succID id else st.nextID
                maxSeq := maxSeqAll st.maxSeq (records f.bytes)
                total := st.total + f.bytes.length } := by
  simp only [recoverFile, hf, hh, replayHint_buildHint id hlen, Bool.not_true, Bool.and_false, Bool.false_and, if_true,
    Bool.false_eq_true, if_false]

theorem recoverFile_scanned (opts : Options) (isLast : Bool) (hf : st.dir.data[id]? = some f)
    (hh : st.dir.hints[id]? = none) :
    recoverFile opts isLast st id =
      (let rp := scanIntoIndex id f.bytes st.keys st.maxSeq
       let torn := isLast && rp.commit < f.bytes.length
       let size := if torn then rp.commit else f.bytes.length
       { dir := if torn then
            {st.dir with data := st.dir.data.insert id ⟨f.bytes.take rp.commit, rp.commit⟩} else st.dir
         keys := rp.keys, files := st.files.insert id size
         nextID := if st.nextID ≤ id then Store.succID id else st.nextID
         maxSeq := rp.maxSeq, total := st.total + size
         reuseActive := if isLast && size < opts.limit then some ⟨id, size⟩ else st.reuseActive }) := by
  simp only [recoverFile, hf, hh, Bool.not_false, Bool.and_true, if_false, Bool.false_eq_true]

/-- **Recovering a file** adds to the index what its reading takes. -/
theorem recoverFile_indexes (opts : Options) (isLast : Bool) (hf : st.dir.data[id]? = some f)
    (hlen : f.bytes.length < 2 ^ 64)
    (hh : ∀ h, st.dir.hints[id]? = some h → h = buildHint id f.bytes) {V : Set (Bytes × Nat × Entry)}
    (hV : Newest.Indexes V (st.keys.versions fun e => e)) :
    Newest.Indexes (V ∪ taken (st.dir.reading id) id f.bytes)
      ((recoverFile opts isLast st id).keys.versions fun e => e) ∧
    (recoverFile opts isLast st id).maxSeq = maxSeqAll st.maxSeq (records f.bytes) ∧
    (recoverFile opts isLast st id).nextID = if st.nextID ≤ id then Store.succID id else st.nextID := by
  cases hhint : st.dir.hints[id]? with
  | some h =>
    have hread : st.dir.reading id = .every := by
      rw [Dir.reading, if_pos (Std.ExtTreeMap.mem_iff_isSome_getElem?.mpr (by rw [hhint]; rfl))]
    rw [hh h hhint] at hhint
    rw [recoverFile_hinted _ _ hf hhint hlen, hread]
    refine ⟨?_, rfl, rfl⟩
    rw [Index.versions_installAll, List.map_map]
    refine (hV.offerAll _).congr ?_
    ext y
    simp only [taken, Reading.pick, Set.mem_union, Set.mem_ofPred_eq, List.mem_map, Function.comp_apply,
      Scanned.version, Scanned.entry]
    grind
  | none =>
    have hread : st.dir.reading id = .committed := by
      rw [Dir.reading, if_neg]
      rw [Std.ExtTreeMap.mem_iff_isSome_getElem?, hhint]
      exact Bool.false_ne_true
    rw [recoverFile_scanned _ _ hf hhint, hread]
    refine ⟨(replay_indexes id (scanFile f.bytes).1 ⟨st.keys, st.maxSeq, [], 0⟩ hV).congr ?_,
      replay_maxSeq .., rfl⟩
    congr 1
    simp [installed, taken, Reading.pick]

/-! ### All files -/

def entriesTaken (d : Dir) (ids : List Nat) : Set (Bytes × Nat × Entry) :=
  {y | ∃ id ∈ ids, ∃ b, d.bytes id = some b ∧ y ∈ taken (d.reading id) id b}

def recordsAt (d : Dir) (id : Nat) : List Record := ((d.bytes id).map records).getD []

/-- The walk after the files `done`, before the last. -/
structure Progress (d : Dir) (done : List Nat) (st : Recovery) : Prop where
  dir : st.dir = d
  index : Newest.Indexes (entriesTaken d done) (st.keys.versions fun e => e)
  files : ∀ id, st.files[id]? = if id ∈ done then (d.bytes id).map List.length else none
  nextID : st.nextID = (done.getLast?.map (· + 1)).getD 0
  maxSeq : st.maxSeq = maxSeqAll 0 (done.flatMap (recordsAt d))
  reuse : st.reuseActive = none

theorem entriesTaken_concat {d : Dir} {done : List Nat} {id : Nat} {b : Bytes} (hb : d.bytes id = some b) :
    entriesTaken d (done ++ [id]) = entriesTaken d done ∪ taken (d.reading id) id b := by
  ext y
  simp only [entriesTaken, Set.mem_union, Set.mem_ofPred_eq, List.mem_append, List.mem_singleton]
  constructor
  · rintro ⟨i, hi | rfl, c, hc, hy⟩
    · exact .inl ⟨i, hi, c, hc, hy⟩
    · rw [hb] at hc
      cases hc
      exact .inr hy
  · rintro (⟨i, hi, c, hc, hy⟩ | hy)
    · exact ⟨i, .inl hi, c, hc, hy⟩
    · exact ⟨id, .inr rfl, b, hb, hy⟩

omit [Checksum] in
theorem maxSeqAll_append (m : UInt64) (rs ss : List Record) :
    maxSeqAll m (rs ++ ss) = maxSeqAll (maxSeqAll m rs) ss := List.foldl_append

theorem recoverFile_step (opts : Options) (isLast : Bool) {d : Dir} {done : List Nat}
    (h : Progress d done st) (hd : DirOk .every d)
    {b : Bytes} (hb : d.bytes id = some b) (hlast : ∀ i ∈ done.getLast?, i < id) :
    let st' := recoverFile opts isLast st id
    Newest.Indexes (entriesTaken d (done ++ [id])) (st'.keys.versions fun e => e) ∧
      st'.maxSeq = maxSeqAll 0 ((done ++ [id]).flatMap (recordsAt d)) ∧ st'.nextID = Store.succID id := by
  obtain ⟨f, hf, rfl⟩ := Option.map_eq_some_iff.mp hb
  rw [← h.dir] at hf
  have hlen := hd.sizes id f.bytes hb
  have hhint : ∀ c, st.dir.hints[id]? = some c → c = buildHint id f.bytes := fun c hc => by
    rw [h.dir] at hc
    exact (hd.hints id c f.bytes hc hb).1
  obtain ⟨hindex, hmax, hnext⟩ := recoverFile_indexes opts isLast hf
    (by omega) hhint h.index
  refine ⟨?_, ?_, ?_⟩
  · rw [entriesTaken_concat hb]
    rw [h.dir] at hindex
    exact hindex
  · rw [hmax, h.maxSeq, List.flatMap_append, maxSeqAll_append]
    simp [recordsAt, hb]
  · rw [hnext, if_pos]
    rw [h.nextID]
    cases hl : done.getLast? with
    | none => exact Nat.zero_le _
    | some i => exact hlast i hl

/-- One file before the last. -/
theorem Progress.step {d : Dir} {done : List Nat} (h : Progress d done st) (hd : DirOk .every d)
    {b : Bytes} (hb : d.bytes id = some b) (hlast : ∀ i ∈ done.getLast?, i < id) (hid : id + 1 < 2 ^ 32) :
    Progress d (done ++ [id]) (recoverFile opts false st id) := by
  obtain ⟨hindex, hmax, hnext⟩ := recoverFile_step opts false h hd hb hlast
  obtain ⟨f, hf, rfl⟩ := Option.map_eq_some_iff.mp hb
  have hf' := hf
  rw [← h.dir] at hf'
  have hrest : (recoverFile opts false st id).dir = st.dir ∧
      (recoverFile opts false st id).files = st.files.insert id f.bytes.length ∧
      (recoverFile opts false st id).reuseActive = st.reuseActive := by
    cases hhint : st.dir.hints[id]? with
    | none =>
      rw [recoverFile_scanned _ _ hf' hhint]
      exact ⟨rfl, rfl, rfl⟩
    | some c =>
      have hc : c = buildHint id f.bytes := (hd.hints id c f.bytes (by rw [← h.dir, hhint]) hb).1
      rw [hc] at hhint
      have hlen := hd.sizes id f.bytes hb
      rw [recoverFile_hinted _ _ hf' hhint (by omega)]
      exact ⟨rfl, rfl, rfl⟩
  obtain ⟨hdir, hfiles, hreuse⟩ := hrest
  refine ⟨hdir.trans h.dir, hindex, fun i => ?_, ?_, hmax, hreuse.trans h.reuse⟩
  · rw [hfiles, Std.ExtTreeMap.getElem?_insert]
    by_cases hi : i = id
    · subst hi
      simp [hb]
    · simp [hi, Ne.symm hi, h.files]
  · rw [hnext, succID_eq hid, List.getLast?_concat]
    rfl

theorem Progress.run (opts : Options) {d : Dir} (hd : DirOk .every d) (ids : List Nat) {done : List Nat}
    (h : Progress d done st) (hasc : (done ++ ids).Pairwise (· < ·))
    (hids : ∀ id ∈ ids, id + 1 < 2 ^ 32 ∧ ∃ b, d.bytes id = some b) :
    Progress d (done ++ ids) (ids.foldl (recoverFile opts false) st) := by
  induction ids generalizing done st with
  | nil => rwa [List.append_nil]
  | cons id rest ih =>
    obtain ⟨hlt, b, hb⟩ := hids id (List.mem_cons_self ..)
    have hlast : ∀ i ∈ done.getLast?, i < id := fun i hi =>
      (List.pairwise_append.mp hasc).2.2 i (List.mem_of_getLast? hi) id (List.mem_cons_self ..)
    have hassoc : done ++ id :: rest = (done ++ [id]) ++ rest := by simp
    rw [hassoc] at hasc ⊢
    exact ih (h.step hd hb hlast hlt) hasc fun i hi => hids i (List.mem_cons_of_mem _ hi)

theorem recoverFiles_concat (opts : Options) (st : Recovery) (init : List Nat) (last : Nat) :
    recoverFiles opts st (init ++ [last]) =
      recoverFile opts true (init.foldl (recoverFile opts false) st) last := by
  induction init generalizing st with
  | nil => rfl
  | cons id rest ih =>
    have hne : rest ++ [last] ≠ [] := by simp
    obtain ⟨x, xs, hx⟩ := List.exists_cons_of_ne_nil hne
    rw [List.cons_append, hx, recoverFiles, ← hx, ih]
    · rfl
    · simp

end File

end Gokv.Engine
