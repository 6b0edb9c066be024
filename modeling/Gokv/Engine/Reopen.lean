import Gokv.Engine.Local
import Gokv.Engine.Recovery

/-! Opening a directory.

The last file is scanned unless it has a hint, and what stands behind its commit
point is cut off. The cut takes nothing a replay would have kept, at no cut point
(`Trimmed.committed_take`). `openStore_ok` puts recovery together: `Open` succeeds
on every directory in order, and the store it returns is well formed over an index
of exactly what recovery takes. On a directory of local writes that is what the
disk holds, and the store satisfies the invariant (`Reopened.inv`). -/
namespace Gokv.Engine
open Base

section Reopen
variable [Checksum]

/-! ### Cutting a file -/

/-- A beginning of a torn byte string is torn. -/
theorem Torn.take {t : Bytes} (h : Torn t) (n : Nat) : Torn (t.take n) := by
  unfold Torn at h ⊢
  cases hnext : nextRecord (t.take n) with
  | none => rfl
  | some x =>
    obtain ⟨r, raw, rest⟩ := x
    obtain ⟨hs, _, hb⟩ := nextRecord_some hnext
    have hfull : t = r.encode ++ (rest ++ t.drop n) := by
      rw [← List.append_assoc, ← hb, List.take_append_drop]
    rw [hfull, nextRecord_encode r hs] at h
    cases h

/-- Behind whole records the scan finds what it would find alone. -/
theorem Intact.records_append_any {b : Bytes} (h : Intact b) (c : Bytes) :
    records (b ++ c) = records b ++ records c := by
  obtain ⟨_, hsized, t, ht, hc⟩ := scanFile_spec c
  have hsplit : b ++ c = encodeAll (records b ++ records c) ++ t := by
    conv_lhs => rw [hc]
    rw [encodeAll_append, h, List.append_assoc]
  rw [hsplit, records_eq _ _ t ht]
  intro r hr
  rcases List.mem_append.mp hr with hr | hr
  · exact records_sized b r hr
  · exact hsized r hr

/-- Cutting a file keeps a beginning of its records. -/
theorem records_take (b : Bytes) (n : Nat) : ∃ dropped, records b = records (b.take n) ++ dropped := by
  obtain ⟨_, hsized, t, ht, hb⟩ := scanFile_spec b
  by_cases hn : n ≤ (encodeAll (records b)).length
  · obtain ⟨kept, dropped, u, hsplit, hu, htake, _⟩ := take_encodeAll (records b) hsized n
    refine ⟨dropped, ?_⟩
    have hcut : b.take n = encodeAll kept ++ u := by
      conv_lhs => rw [hb]
      rw [List.take_append_of_le_length hn, htake]
    rw [hcut, records_eq kept _ u hu, ← hsplit]
    intro r hr
    exact hsized r (hsplit ▸ List.mem_append_left _ hr)
  · refine ⟨[], ?_⟩
    have hcut : b.take n = encodeAll (records b) ++ t.take (n - (encodeAll (records b)).length) := by
      conv_lhs => rw [hb]
      rw [List.take_append, List.take_of_length_le (by omega)]
    rw [hcut, records_eq _ hsized _ (ht.take _), List.append_nil]

omit [Checksum] in
/-- An unfinished batch at the end adds nothing to what a replay keeps. -/
theorem committed_append_open {α : Type*} {f : α → Record} (xs ys : List α)
    (h : ∀ y ∈ ys, (f y).batch = true ∧ (f y).batchEnd = false) :
    committed f (xs ++ ys) = committed f xs := by
  have hys : settles f ys = false := by
    simp only [settles, List.any_eq_false, Bool.and_eq_true, not_and, Bool.not_eq_true]
    exact fun y hy _ => (h y hy).2
  induction xs with
  | nil => exact committed_open ys h
  | cons x rest ih =>
    have hs : settles f (x :: (rest ++ ys)) = settles f (x :: rest) := by
      rw [← List.cons_append, settles_append, hys, Bool.or_false]
    rw [List.cons_append, committed, committed, ih, hs]

/-- What a scan leaves of the last file. -/
def Trimmed (b b' : Bytes) : Prop :=
  ∃ kept tail, records b = kept ++ tail ∧ Open tail ∧ (∀ r ∈ kept.getLast?, r.closes) ∧
    b' = encodeAll kept

section Trimmed
variable {b b' : Bytes}

theorem Trimmed.intact (h : Trimmed b b') : Intact b' ∧ ∃ tail, Open tail ∧ records b = records b' ++ tail := by
  obtain ⟨kept, tail, hsplit, hopen, _, rfl⟩ := h
  have hs : ∀ r ∈ kept, r.Sized := fun r hr => records_sized b r (hsplit ▸ List.mem_append_left _ hr)
  exact ⟨intact_encodeAll kept hs, tail, hopen, by rw [records_encodeAll kept hs, hsplit]⟩

theorem Trimmed.append (h : Trimmed b b') : ∃ rest, b = b' ++ rest := by
  obtain ⟨hi, tail, _, hrec⟩ := h.intact
  obtain ⟨_, _, t, _, hb⟩ := scanFile_spec b
  refine ⟨encodeAll tail ++ t, ?_⟩
  conv_lhs => rw [hb]
  rw [hrec, encodeAll_append, hi, List.append_assoc]

/-- **Wherever the file is cut again**, a replay keeps the same of it trimmed and
untrimmed. -/
theorem Trimmed.committed_take (h : Trimmed b b') (n : Nat) :
    committed id (records (b'.take n)) = committed id (records (b.take n)) := by
  obtain ⟨hi, tail, hopen, hrec⟩ := h.intact
  obtain ⟨rest, hb⟩ := h.append
  by_cases hn : n ≤ b'.length
  · rw [hb, List.take_append_of_le_length hn]
  · have hcut : b.take n = b' ++ rest.take (n - b'.length) := by
      rw [hb, List.take_append, List.take_of_length_le (by omega)]
    have hrest : records rest = tail := by
      have := hi.records_append_any rest
      rw [← hb, hrec] at this
      exact (List.append_cancel_left this).symm
    obtain ⟨dropped, hdrop⟩ := records_take rest (n - b'.length)
    rw [List.take_of_length_le (by omega), hcut, hi.records_append_any,
      committed_append_open (f := id)]
    intro r hr
    exact hopen r (by rw [← hrest, hdrop]; exact List.mem_append_left _ hr)

theorem Trimmed.committed_eq (h : Trimmed b b') :
    committed id (records b') = committed id (records b) := by
  have := h.committed_take (max b.length b'.length)
  rwa [List.take_of_length_le (le_max_right ..), List.take_of_length_le (le_max_left ..)] at this

/-- Trimming a tidy file leaves its groups. -/
theorem Trimmed.grouped (h : Trimmed b b') (ht : Tidy (records b)) : Grouped (records b') := by
  obtain ⟨kept, tail, hsplit, hopen, hclosed, rfl⟩ := h
  obtain ⟨g, u, hg, hgrouped, hu⟩ := ht
  have hs : ∀ r ∈ kept, r.Sized := fun r hr => records_sized b r (hsplit ▸ List.mem_append_left _ hr)
  have heq := closed_split (hg.symm.trans hsplit) hu hopen hgrouped.closes hclosed
  rw [records_encodeAll kept hs, ← heq]
  exact hgrouped

/-- A whole grouped file is left as it is. -/
theorem Trimmed.eq_self (h : Trimmed b b') (hi : Intact b) (hg : Grouped (records b)) : b' = b := by
  obtain ⟨kept, tail, hsplit, hopen, hclosed, rfl⟩ := h
  have heq : records b = kept := closed_split (t := []) (by rw [List.append_nil, hsplit])
    (fun _ hr => (by cases hr)) hopen hg.closes hclosed
  rw [← heq, hi]

/-- What is cut off is decided by the records. -/
theorem Trimmed.unique {c : Bytes} (h : Trimmed b b') (h' : Trimmed b c) : b' = c := by
  obtain ⟨kept, tail, hsplit, hopen, hclosed, rfl⟩ := h
  obtain ⟨kept', tail', hsplit', hopen', hclosed', rfl⟩ := h'
  rw [closed_split (hsplit.symm.trans hsplit') hopen hopen' hclosed hclosed']

theorem Trimmed.taken (h : Trimmed b b') (id : Nat) : taken .committed id b' = taken .committed id b := by
  obtain ⟨hi, tail, hopen, hrec⟩ := h.intact
  have hpick : Reading.committed.pick (scanFile b').1 = Reading.committed.pick (scanFile b).1 := by
    rw [(scanFile_spec b).1, (scanFile_spec b').1, hrec, layout_append]
    refine (committed_append_open _ _ fun x hx => ?_).symm
    obtain ⟨before, after, hsplit, _⟩ := mem_layout hx
    exact hopen x.record (hsplit ▸ List.mem_append_right _ (List.mem_cons_self ..))
  rw [Engine.taken, Engine.taken, hpick]

end Trimmed

/-! ### The last file -/

/-- The directory a walk leaves: hints as they were, data files as they were or
trimmed. -/
structure Kept (d d' : Dir) : Prop where
  hints : d'.hints = d.hints
  manifest : d'.manifest = d.manifest
  same : ∀ (id : Nat) (f : DiskFile), d.data[id]? = some f → d'.data[id]? = some f ∨
    id ∉ d.hints ∧ ∃ b', Trimmed f.bytes b' ∧ d'.data[id]? = some ⟨b', b'.length⟩
  absent : ∀ id : Nat, d.data[id]? = none → d'.data[id]? = none

theorem Kept.refl (d : Dir) : Kept d d := ⟨rfl, rfl, fun _ _ h => .inl h, fun _ h => h⟩

theorem Kept.bytes {d d' : Dir} (h : Kept d d') {id : Nat} {b : Bytes} (hb : d.bytes id = some b) :
    ∃ b', d'.bytes id = some b' ∧ (b' = b ∨ id ∉ d.hints ∧ Trimmed b b') := by
  obtain ⟨f, hf, rfl⟩ := Option.map_eq_some_iff.mp hb
  rcases h.same id f hf with hf' | ⟨hno, b', ht, hf'⟩
  · exact ⟨f.bytes, by rw [Dir.bytes, hf']; rfl, .inl rfl⟩
  · exact ⟨b', by rw [Dir.bytes, hf']; rfl, .inr ⟨hno, ht⟩⟩

theorem Kept.bytes_none {d d' : Dir} (h : Kept d d') {id : Nat} (hb : d.bytes id = none) :
    d'.bytes id = none := by
  rw [Dir.bytes, h.absent id (Option.map_eq_none_iff.mp hb)]
  rfl

theorem Kept.entriesTaken {d d' : Dir} (h : Kept d d') (ids : List Nat) :
    entriesTaken d' ids = entriesTaken d ids := by
  have hread (id : Nat) : d'.reading id = d.reading id := by rw [Dir.reading, h.hints, Dir.reading]
  have htaken {id : Nat} {b b' : Bytes} (hb : b' = b ∨ id ∉ d.hints ∧ Trimmed b b') :
      taken (d.reading id) id b' = taken (d.reading id) id b := by
    rcases hb with rfl | ⟨hno, ht⟩
    · rfl
    · rw [Dir.reading, if_neg hno]
      exact ht.taken id
  ext y
  simp only [Engine.entriesTaken, Set.mem_ofPred_eq, hread]
  constructor
  · rintro ⟨id, hid, b', hb', hy⟩
    cases hb : d.bytes id with
    | none =>
      rw [h.bytes_none hb] at hb'
      cases hb'
    | some b =>
      obtain ⟨c, hc, hcb⟩ := h.bytes hb
      rw [hb'] at hc
      cases hc
      exact ⟨id, hid, b, hb, htaken hcb ▸ hy⟩
  · rintro ⟨id, hid, b, hb, hy⟩
    obtain ⟨b', hb', hbb⟩ := h.bytes hb
    exact ⟨id, hid, b', hb', htaken hbb ▸ hy⟩

/-- Everything the walk over all files leaves. -/
structure Walked (opts : Options) (d : Dir) (ids : List Nat) (st : Recovery) : Prop where
  kept : Kept d st.dir
  index : Newest.Indexes (entriesTaken d ids) (st.keys.versions fun e => e)
  files : ∀ id, id ∈ ids → st.files[id]? = (st.dir.bytes id).map List.length
  noFiles : ∀ id, id ∉ ids → st.files[id]? = none
  nextID : st.nextID = (ids.getLast?.map (· + 1)).getD 0
  maxSeq : st.maxSeq = maxSeqAll 0 (ids.flatMap (recordsAt d))
  /-- Only the last file is appended to again, and only if it was scanned. -/
  reuse : ∀ df ∈ st.reuseActive, df.id ∈ ids.getLast? ∧ df.id ∉ d.hints ∧
    ∃ b b', d.bytes df.id = some b ∧ Trimmed b b' ∧ st.dir.bytes df.id = some b' ∧ b'.length = df.size
  /-- Scanned, the last file loses what no complete write covers. -/
  last : ∀ id ∈ ids.getLast?, id ∉ d.hints → ∀ b, d.bytes id = some b →
    ∃ b', st.dir.bytes id = some b' ∧ Trimmed b b'

/-- What the walk leaves whatever the ids: the counter may have wrapped behind the last
file. -/
structure Traversed (opts : Options) (d : Dir) (ids : List Nat) (st : Recovery) : Prop where
  kept : Kept d st.dir
  index : Newest.Indexes (entriesTaken d ids) (st.keys.versions fun e => e)
  files : ∀ id, id ∈ ids → st.files[id]? = (st.dir.bytes id).map List.length
  noFiles : ∀ id, id ∉ ids → st.files[id]? = none
  nextID : st.nextID = (ids.getLast?.map Store.succID).getD 0
  maxSeq : st.maxSeq = maxSeqAll 0 (ids.flatMap (recordsAt d))
  reuse : ∀ df ∈ st.reuseActive, df.id ∈ ids.getLast? ∧ df.id ∉ d.hints ∧
    ∃ b b', d.bytes df.id = some b ∧ Trimmed b b' ∧ st.dir.bytes df.id = some b' ∧ b'.length = df.size
  last : ∀ id ∈ ids.getLast?, id ∉ d.hints → ∀ b, d.bytes id = some b →
    ∃ b', st.dir.bytes id = some b' ∧ Trimmed b b'
  /-- The last file is left closed if it has a hint or is full. -/
  full : st.reuseActive = none ↔ ∀ id ∈ ids.getLast?, id ∈ d.hints ∨
    ∀ b, st.dir.bytes id = some b → opts.limit ≤ b.length

theorem Progress.last {opts : Options} {d : Dir} {done : List Nat} {st : Recovery} {id : Nat} {b : Bytes}
    (h : Progress d done st) (hd : DirOk .every d) (hb : d.bytes id = some b) (hnew : id ∉ done)
    (hlast : ∀ i ∈ done.getLast?, i < id) :
    Traversed opts d (done ++ [id]) (recoverFile opts true st id) := by
  obtain ⟨hindex, hmax, hnext⟩ := recoverFile_step opts true h hd hb hlast
  obtain ⟨f, hf, rfl⟩ := Option.map_eq_some_iff.mp hb
  have hf' := hf
  rw [← h.dir] at hf'
  have hlen := hd.sizes id f.bytes hb
  have hnext' : (recoverFile opts true st id).nextID = ((done ++ [id]).getLast?.map Store.succID).getD 0 := by
    rw [hnext, List.getLast?_concat]
    rfl
  -- The file set, once it is known what became of the last file.
  have hfiles {size : Nat} (b' : Bytes) (hset : (recoverFile opts true st id).files = st.files.insert id size)
      (hdir : (recoverFile opts true st id).dir.bytes = Function.update d.bytes id (some b'))
      (hsize : b'.length = size) :
      (∀ i, i ∈ done ++ [id] → (recoverFile opts true st id).files[i]? =
        ((recoverFile opts true st id).dir.bytes i).map List.length) ∧
      ∀ i, i ∉ done ++ [id] → (recoverFile opts true st id).files[i]? = none := by
    rw [hset, hdir]
    refine ⟨fun i hi => ?_, fun i hi => ?_⟩
    · rw [Std.ExtTreeMap.getElem?_insert]
      by_cases hii : i = id
      · subst hii
        simp [hsize]
      · have : i ∈ done := by simpa [hii] using hi
        simp [hii, Ne.symm hii, h.files, this]
    · have hii : i ≠ id := fun he => hi (by simp [he])
      have : i ∉ done := fun he => hi (List.mem_append_left _ he)
      rw [Std.ExtTreeMap.getElem?_insert]
      simp [Ne.symm hii, h.files, this]
  cases hhint : st.dir.hints[id]? with
  | some c =>
    have hc : c = buildHint id f.bytes := (hd.hints id c f.bytes (by rw [← h.dir, hhint]) hb).1
    rw [hc] at hhint
    have heq := recoverFile_hinted opts true hf' hhint (by omega)
    have hdir : (recoverFile opts true st id).dir = d := by rw [heq]; exact h.dir
    obtain ⟨hin, hout⟩ := hfiles f.bytes (by rw [heq])
      (by rw [hdir]; exact (Function.update_eq_self_iff.mpr hb.symm).symm) rfl
    have hreuse : (recoverFile opts true st id).reuseActive = none := by rw [heq]; exact h.reuse
    have hmem : id ∈ d.hints := by
      rw [Std.ExtTreeMap.mem_iff_isSome_getElem?, ← h.dir, hhint]
      rfl
    refine ⟨hdir ▸ Kept.refl d, hindex, hin, hout, hnext', hmax, fun df hdf => ?_, fun i hi hno => ?_,
      iff_of_true hreuse fun i hi => .inl ?_⟩
    · rw [hreuse] at hdf
      cases hdf
    · rw [List.getLast?_concat, Option.mem_some_iff] at hi
      rw [← hi] at hno
      exact absurd hmem hno
    · rw [List.getLast?_concat, Option.mem_some_iff] at hi
      rw [← hi]
      exact hmem
  | none =>
    have heq := recoverFile_scanned opts true hf' hhint
    have hno : id ∉ d.hints := by
      rw [Std.ExtTreeMap.mem_iff_isSome_getElem?, ← h.dir, hhint]
      exact Bool.false_ne_true
    obtain ⟨kept, tail, hsplit, hopen, hclosed, hcommit⟩ :=
      replay_commit id (records f.bytes) (records_sized f.bytes) st.keys st.maxSeq
    rw [← (scanFile_spec f.bytes).1] at hcommit
    have htrim : Trimmed f.bytes (encodeAll kept) := ⟨kept, tail, hsplit, hopen, hclosed, rfl⟩
    obtain ⟨rest, hrest⟩ := htrim.append
    -- The two ways out differ only in whether the cut changes anything.
    obtain ⟨hfilesEq, hdata, hreuse⟩ : (recoverFile opts true st id).files =
          st.files.insert id (encodeAll kept).length ∧
        ((recoverFile opts true st id).dir = d ∧ encodeAll kept = f.bytes ∨
          (recoverFile opts true st id).dir =
            {d with data := d.data.insert id ⟨encodeAll kept, (encodeAll kept).length⟩}) ∧
        (recoverFile opts true st id).reuseActive =
          if (encodeAll kept).length < opts.limit then some ⟨id, (encodeAll kept).length⟩ else none := by
      have hcommit' : (scanIntoIndex id f.bytes st.keys st.maxSeq).commit = (encodeAll kept).length :=
        hcommit
      have hfull := congrArg List.length hrest
      rw [List.length_append] at hfull
      rw [heq]
      by_cases htorn : (encodeAll kept).length < f.bytes.length
      · have htake : f.bytes.take (encodeAll kept).length = encodeAll kept := by
          conv_lhs => rw [hrest]
          exact List.take_left' rfl
        simp only [hcommit', htorn, Bool.true_and, decide_true, if_true, htake, h.dir, h.reuse, decide_eq_true_eq]
        exact ⟨trivial, .inr trivial, trivial⟩
      · have hnil : rest = [] := List.length_eq_zero_iff.mp (by omega)
        have hsame : encodeAll kept = f.bytes := by rw [hrest, hnil, List.append_nil]
        simp only [hcommit', hsame, lt_irrefl, decide_false, Bool.true_and, Bool.false_eq_true, if_false,
          h.dir, h.reuse, decide_eq_true_eq]
        exact ⟨trivial, .inl ⟨trivial, trivial⟩, trivial⟩
    have hbytes : (recoverFile opts true st id).dir.bytes =
        Function.update d.bytes id (some (encodeAll kept)) := by
      rcases hdata with ⟨hdir, hsame⟩ | hdir
      · rw [hdir, hsame]
        exact (Function.update_eq_self_iff.mpr hb.symm).symm
      · rw [hdir, Dir.bytes_insert]
    obtain ⟨hin, hout⟩ := hfiles _ hfilesEq hbytes rfl
    refine ⟨?_, hindex, hin, hout, hnext', hmax, fun df hdf => ?_, fun i hi _ c hc => ?_, ?_⟩
    · rcases hdata with ⟨hdir, _⟩ | hdir
      · exact hdir ▸ Kept.refl d
      · rw [hdir]
        refine ⟨rfl, rfl, fun i g hg => ?_, fun i hi => ?_⟩
        · by_cases hii : i = id
          · subst hii
            rw [hf] at hg
            cases hg
            exact .inr ⟨hno, encodeAll kept, htrim, Std.ExtTreeMap.getElem?_insert_self⟩
          · exact .inl (by simp [Std.ExtTreeMap.getElem?_insert, Ne.symm hii, hg])
        · have hii : i ≠ id := fun he => by
            rw [he, hf] at hi
            cases hi
          simp [Std.ExtTreeMap.getElem?_insert, Ne.symm hii, hi]
    · have hdf : df = ⟨id, (encodeAll kept).length⟩ := by
        rw [hreuse] at hdf
        split at hdf
        · exact (Option.some.inj hdf).symm
        · cases hdf
      rw [hdf]
      refine ⟨List.getLast?_concat, hno, f.bytes, encodeAll kept, hb, htrim, ?_, rfl⟩
      rw [hbytes, Function.update_self]
    · rw [List.getLast?_concat, Option.mem_some_iff] at hi
      subst hi
      cases Option.some.inj (hb.symm.trans hc)
      exact ⟨encodeAll kept, by rw [hbytes, Function.update_self], htrim⟩
    · rw [hreuse, List.getLast?_concat, hbytes]
      simp [hno]

omit [Checksum] in
theorem listDataFiles_ascending (d : Dir) : (listDataFiles d).Pairwise (· < ·) :=
  keys_ascending d.data

omit [Checksum] in
theorem mem_listDataFiles {d : Dir} {id : Nat} : id ∈ listDataFiles d ↔ ∃ b, d.bytes id = some b := by
  rw [listDataFiles, Std.ExtTreeMap.mem_keys, Dir.mem_data]

omit [Checksum] in
/-- The last file has the highest id. -/
theorem le_last {ids : List Nat} (h : ids.Pairwise (· < ·)) {id : Nat} (hid : id ∈ ids) :
    ∃ last, ids.getLast? = some last ∧ id ≤ last := by
  rcases ids.eq_nil_or_concat with rfl | ⟨init, last, rfl⟩
  · cases hid
  · rw [List.concat_eq_append] at h hid ⊢
    refine ⟨last, List.getLast?_concat, ?_⟩
    rcases List.mem_append.mp hid with hid | hid
    · exact ((List.pairwise_append.mp h).2.2 id hid last (List.mem_singleton_self last)).le
    · rw [List.mem_singleton.mp hid]

/-- **The walk over all files**, whose ids have 32 bits. -/
theorem recoverFiles_traversed (opts : Options) {d : Dir} {st : Recovery} (hd : DirOk .every d)
    (h : Progress d [] st) (hids : ∀ id ∈ listDataFiles d, id < 2 ^ 32) :
    Traversed opts d (listDataFiles d) (recoverFiles opts st (listDataFiles d)) := by
  have hasc := listDataFiles_ascending d
  have hbytes : ∀ id ∈ listDataFiles d, ∃ b, d.bytes id = some b := fun id hid =>
    mem_listDataFiles.mp hid
  rcases (listDataFiles d).eq_nil_or_concat with hnil | ⟨init, last, hlist⟩
  · rw [hnil]
    refine ⟨h.dir.symm ▸ Kept.refl d, h.index, fun id hid => absurd hid List.not_mem_nil, fun id _ => ?_,
      h.nextID, h.maxSeq, fun df hdf => ?_, fun i hi => (by cases hi), iff_of_true h.reuse fun i hi => (by cases hi)⟩
    · exact h.files id
    · have : st.reuseActive = none := h.reuse
      rw [recoverFiles, this] at hdf
      cases hdf
  · rw [List.concat_eq_append] at hlist
    rw [hlist] at hasc hids hbytes ⊢
    rw [recoverFiles_concat]
    obtain ⟨hinit, _, hlt⟩ := List.pairwise_append.mp hasc
    have hlast := List.mem_append_right init (List.mem_singleton_self last)
    obtain ⟨b, hb⟩ := hbytes last hlast
    have hrun := h.run opts hd init (by rwa [List.nil_append]) fun id hid => by
      have hbelow := hlt id hid last (List.mem_singleton_self last)
      have := hids last hlast
      exact ⟨by omega, hbytes id (List.mem_append_left _ hid)⟩
    rw [List.nil_append] at hrun
    refine hrun.last hd hb (fun hmem => ?_) (fun i hi => ?_)
    · exact absurd (hlt last hmem last (List.mem_singleton_self last)) (lt_irrefl _)
    · exact hlt i (List.mem_of_getLast? hi) last (List.mem_singleton_self last)

theorem recoverFiles_walked (opts : Options) {d : Dir} {st : Recovery} (hd : DirOk .every d)
    (h : Progress d [] st) (hids : ∀ id ∈ listDataFiles d, id + 1 < 2 ^ 32) :
    Walked opts d (listDataFiles d) (recoverFiles opts st (listDataFiles d)) := by
  obtain ⟨hkept, hindex, hfiles, hno, hnext, hmax, hreuse, hlast, -⟩ := recoverFiles_traversed opts hd h
    fun id hid => by
      have := hids id hid
      omega
  refine ⟨hkept, hindex, hfiles, hno, ?_, hmax, hreuse, hlast⟩
  rw [hnext]
  cases hl : (listDataFiles d).getLast? with
  | none => rfl
  | some last => exact succID_eq (hids last (List.mem_of_getLast? hl))

/-! ### The opened store -/

/-- Recovery takes `r` from file `id`. -/
def Recovers (d : Dir) (id : Nat) (r : Record) : Prop := Holds (d.reading id) d.bytes id r

variable {ρ : Reading} {d d' : Dir}

theorem DirOk.toEvery (h : DirOk ρ d) : DirOk .every d :=
  ⟨h.sizes, fun _ _ _ => trivial, fun id c b hc hb => ⟨(h.hints id c b hc hb).1, trivial⟩⟩

theorem Trimmed.whole {b b' : Bytes} (h : Trimmed b b') (ht : ρ.Tidy (records b)) :
    ρ.Whole (records b') := by
  cases ρ with
  | every => trivial
  | committed => exact h.grouped ht

theorem DirOk.kept (h : DirOk ρ d) (hk : Kept d d') : DirOk ρ d' := by
  have hback {id : Nat} {b' : Bytes} (hb' : d'.bytes id = some b') :
      ∃ b, d.bytes id = some b ∧ (b' = b ∨ id ∉ d.hints ∧ Trimmed b b') := by
    cases hb : d.bytes id with
    | none =>
      rw [hk.bytes_none hb] at hb'
      cases hb'
    | some b =>
      obtain ⟨c, hc, hcb⟩ := hk.bytes hb
      rw [hb'] at hc
      cases hc
      exact ⟨b, rfl, hcb⟩
  refine ⟨fun id b' hb' => ?_, fun id b' hb' => ?_, fun id c b' hc hb' => ?_⟩
  · obtain ⟨b, hb, rfl | ⟨_, ht⟩⟩ := hback hb'
    · exact h.sizes id _ hb
    · obtain ⟨rest, hrest⟩ := ht.append
      have := h.sizes id b hb
      rw [hrest, List.length_append] at this
      omega
  · obtain ⟨b, hb, rfl | ⟨_, ht⟩⟩ := hback hb'
    · exact h.tidy id _ hb
    · exact (ht.whole (h.tidy id b hb)).tidy
  · rw [hk.hints] at hc
    obtain ⟨b, hb, rfl | ⟨hno, _⟩⟩ := hback hb'
    · exact h.hints id c _ hc hb
    · exact absurd (Std.ExtTreeMap.mem_iff_isSome_getElem?.mpr (by rw [hc]; rfl)) hno

/-- Recovery takes nothing from a directory in order that does not count. -/
theorem DirOk.reading_sub (h : DirOk ρ d) {id : Nat} {b : Bytes} (hb : d.bytes id = some b) {r : Record}
    (hr : r ∈ (d.reading id).take (records b)) : r ∈ ρ.take (records b) := by
  by_cases hh : id ∈ d.hints
  · obtain ⟨c, hc⟩ := Option.isSome_iff_exists.mp (Std.ExtTreeMap.mem_iff_isSome_getElem?.mp hh)
    rw [(h.hints id c b hc hb).2.take_eq]
    exact Reading.take_subset hr
  · rw [Dir.reading, if_neg hh] at hr
    cases ρ with
    | every => exact Reading.take_subset hr
    | committed => exact hr

theorem DirOk.recovers_committed (h : DirOk .committed d) {id : Nat} {r : Record} :
    Recovers d id r ↔ Holds .committed d.bytes id r := by
  constructor
  · rintro ⟨b, hb, hr⟩
    exact ⟨b, hb, h.reading_sub hb hr⟩
  · rintro ⟨b, hb, hr⟩
    refine ⟨b, hb, ?_⟩
    rw [Dir.reading]
    split
    · exact Reading.take_subset hr
    · exact hr

omit [Checksum] in
theorem hints_removeOrphanHints {d : Dir} {id : Nat} (h : id ∈ d.data) :
    (removeOrphanHints d).hints[id]? = d.hints[id]? := by
  rw [removeOrphanHints, Std.ExtTreeMap.getElem?_filter']
  cases d.hints[id]? <;> simp [h]

omit [Checksum] in
theorem mem_hints_removeOrphanHints {d : Dir} {id : Nat} (h : id ∈ d.data) :
    id ∈ (removeOrphanHints d).hints ↔ id ∈ d.hints := by
  rw [Std.ExtTreeMap.mem_iff_isSome_getElem?, hints_removeOrphanHints h,
    ← Std.ExtTreeMap.mem_iff_isSome_getElem?]

omit [Checksum] in
theorem mem_data_of_hint {d : Dir} {id : Nat} (h : id ∈ (removeOrphanHints d).hints) : id ∈ d.data := by
  rw [removeOrphanHints, Std.ExtTreeMap.mem_filter] at h
  obtain ⟨_, h⟩ := h
  simpa using h

theorem DirOk.removeOrphans (h : DirOk ρ d) : DirOk ρ (removeOrphanHints d) where
  sizes := h.sizes
  tidy := h.tidy
  hints id c b hc hb := by
    rw [hints_removeOrphanHints ((Dir.mem_data (d := d)).mpr ⟨b, hb⟩)] at hc
    exact h.hints id c b hc hb

theorem recovers_removeOrphanHints {id : Nat} {r : Record} :
    Recovers (removeOrphanHints d) id r ↔ Recovers d id r := by
  have hread {b : Bytes} (hb : d.bytes id = some b) : (removeOrphanHints d).reading id = d.reading id := by
    simp only [Dir.reading, mem_hints_removeOrphanHints (Dir.mem_data.mpr ⟨b, hb⟩)]
  constructor
  · rintro ⟨b, hb, hr⟩
    exact ⟨b, hb, hread hb ▸ hr⟩
  · rintro ⟨b, hb, hr⟩
    exact ⟨b, hb, (hread hb).symm ▸ hr⟩

/-- What `Open` returns. -/
structure Reopened (ρ : Reading) (opts : Options) (d : Dir) (s : Store) : Prop where
  wf : Wf ρ s []
  located : ∀ (k : Bytes) (e : Entry), s.keys[k]? = some e →
    ∃ r, Located ρ s.dir.bytes k e r ∧ Recovers d e.fileID r
  covers : ∀ id r, Recovers d id r → ∃ e, s.keys[r.key]? = some e ∧ r.seq ≤ e.seq
  opts : s.opts = opts.applyDefaults
  mergeSeq : s.mergeSeq = readManifest d.manifest
  manifest : s.dir.manifest = d.manifest
  /-- The counter resumes from the highest number on disk. -/
  seq_le : ∀ id b r, d.bytes id = some b → r ∈ records b → r.seq ≤ s.seq
  seq_mem : s.seq = 0 ∨ ∃ id b r, d.bytes id = some b ∧ r ∈ records b ∧ s.seq = r.seq
  hinting : s.hinting = []
  hints : ∀ id : Nat, id ∈ d.data → s.dir.hints[id]? = d.hints[id]?
  /-- The active file has the highest id. -/
  top : ∀ id b, s.dir.bytes id = some b → id ≤ s.active.id
  nextID : s.nextID = s.active.id + 1
  data : ∀ (id : Nat) (f : DiskFile), d.data[id]? = some f → s.dir.data[id]? = some f ∨
    id ∉ d.hints ∧ ∃ b', Trimmed f.bytes b' ∧ s.dir.data[id]? = some ⟨b', b'.length⟩
  fresh : ∀ id : Nat, d.data[id]? = none → s.dir.data[id]? = none ∨
    id = s.active.id ∧ s.dir.data[id]? = some ⟨[], 0⟩
  /-- The last file, where it has no hint, loses what no complete write covers. -/
  last : ∀ id b, d.bytes id = some b → id ∉ d.hints → (∀ i c, d.bytes i = some c → i ≤ id) →
    ∃ b', s.dir.bytes id = some b' ∧ Trimmed b b'

theorem mem_entriesTaken {ids : List Nat} {k : Bytes} {n : Nat} {e : Entry} (hd : DirOk ρ d)
    (h : (k, n, e) ∈ entriesTaken d ids) :
    ∃ r, Located ρ d.bytes k e r ∧ n = e.seq.toNat ∧ Recovers d e.fileID r := by
  obtain ⟨id, _, b, hb, x, hx, heq⟩ := h
  simp only [Scanned.version, Prod.mk.injEq] at heq
  obtain ⟨rfl, rfl, rfl⟩ := heq
  have hr : x.record ∈ (d.reading id).take (records b) := by
    rw [records, ← Reading.pick_records]
    exact List.mem_map_of_mem hx
  exact ⟨x.record, located_scanned hb (Reading.pick_subset hx) (hd.reading_sub hb hr), rfl, b, hb, hr⟩

theorem entriesTaken_of_recovers {ids : List Nat} {id : Nat} {r : Record} (h : Recovers d id r)
    (hid : id ∈ ids) : ∃ e, (r.key, r.seq.toNat, e) ∈ entriesTaken d ids := by
  obtain ⟨b, hb, hr⟩ := h
  rw [records, ← Reading.pick_records] at hr
  obtain ⟨x, hx, rfl⟩ := List.mem_map.mp hr
  exact ⟨x.entry id, id, hid, b, hb, x, hx, rfl⟩

theorem Kept.recovers (hk : Kept d d') {id : Nat} {r : Record} : Recovers d' id r ↔ Recovers d id r := by
  have hread : d'.reading id = d.reading id := by rw [Dir.reading, hk.hints, Dir.reading]
  have htake {b b' : Bytes} (hb : b' = b ∨ id ∉ d.hints ∧ Trimmed b b') :
      (d.reading id).take (records b') = (d.reading id).take (records b) := by
    rcases hb with rfl | ⟨hno, ht⟩
    · rfl
    · rw [Dir.reading, if_neg hno]
      exact ht.committed_eq
  rw [Recovers, Recovers, hread]
  cases hb : d.bytes id with
  | none =>
    have hb' := hk.bytes_none hb
    simp [Holds, hb, hb']
  | some b =>
    obtain ⟨b', hb', hbb⟩ := hk.bytes hb
    simp [Holds, hb, hb', htake hbb]

section Walked
variable {opts : Options} {st : Recovery}

/-- What the index of a walk holds leads to records recovery takes. -/
theorem Kept.located {ids : List Nat} (hk : Kept d d') (hd : DirOk ρ d) {keys : Index}
    (hi : Newest.Indexes (Engine.entriesTaken d ids) (keys.versions fun e => e)) {k : Bytes} {e : Entry}
    (he : keys[k]? = some e) : ∃ r, Located ρ d'.bytes k e r ∧ Recovers d e.fileID r := by
  have := hi.sound k (e.seq.toNat, e) (by rw [Index.versions, he, Option.map_some])
  rw [← hk.entriesTaken] at this
  obtain ⟨r, hr, _, hrec⟩ := mem_entriesTaken (hd.kept hk) this
  exact ⟨r, hr, hk.recovers.mp hrec⟩

theorem covers_of_recovers {keys : Index}
    (hi : Newest.Indexes (entriesTaken d (listDataFiles d)) (keys.versions fun e => e)) {id : Nat} {r : Record}
    (hr : Recovers d id r) : ∃ e, keys[r.key]? = some e ∧ r.seq ≤ e.seq := by
  have hr' := hr
  obtain ⟨b, hb, _⟩ := hr'
  obtain ⟨e, he⟩ := entriesTaken_of_recovers hr (mem_listDataFiles.mpr ⟨b, hb⟩)
  obtain ⟨y, hy, hle⟩ := hi.covers r.key _ he
  obtain ⟨e', he', rfl⟩ := Option.map_eq_some_iff.mp hy
  exact ⟨e', he', UInt64.le_iff_toNat_le.mpr hle⟩

theorem Walked.mem (hw : Walked opts d (listDataFiles d) st) {id : Nat} {b : Bytes}
    (hb : st.dir.bytes id = some b) : id ∈ listDataFiles d := by
  cases hc : d.bytes id with
  | none =>
    rw [hw.kept.bytes_none hc] at hb
    cases hb
  | some c => exact mem_listDataFiles.mpr ⟨c, hc⟩

theorem Walked.lt (hw : Walked opts d (listDataFiles d) st) {id : Nat} (hid : id ∈ listDataFiles d) :
    id < st.nextID := by
  obtain ⟨last, hlast, hle⟩ := le_last (listDataFiles_ascending d) hid
  rw [hw.nextID, hlast]
  exact Nat.lt_succ_of_le hle

theorem Walked.located (hw : Walked opts d (listDataFiles d) st) (hd : DirOk ρ d) {k : Bytes} {e : Entry}
    (he : st.keys[k]? = some e) :
    ∃ r, Located ρ st.dir.bytes k e r ∧ Recovers d e.fileID r := hw.kept.located hd hw.index he

theorem Walked.covers (hw : Walked opts d (listDataFiles d) st) {id : Nat} {r : Record}
    (hr : Recovers d id r) : ∃ e, st.keys[r.key]? = some e ∧ r.seq ≤ e.seq := covers_of_recovers hw.index hr

/-- The store a finished walk leaves has its files in order, whatever is to be its
active one. -/
theorem Walked.mounted (hw : Walked opts d (listDataFiles d) st) (hd : DirOk ρ d)
    (horphan : ∀ id, id ∈ d.hints → id ∈ d.data) (df : DataFile) : Mounted ρ (st.store opts df) [] where
  running := rfl
  dir := hd.kept hw.kept
  files id := by
    show st.files[id]? = (st.dir.bytes id).map List.length
    by_cases hid : id ∈ listDataFiles d
    · exact hw.files id hid
    · rw [hw.noFiles id hid]
      cases hb : st.dir.bytes id with
      | none => rfl
      | some b => exact absurd (hw.mem hb) hid
  fresh id b hb := hw.lt (hw.mem hb)
  hintIDs id hid := by
    rcases hid with hid | hid
    · exact hw.lt (Std.ExtTreeMap.mem_keys.mpr (horphan id (hw.kept.hints ▸ hid)))
    · cases hid
  hinting id b hid := absurd hid List.not_mem_nil
  located k e he := by
    obtain ⟨r, hr, _⟩ := hw.located hd he
    exact ⟨r, hr⟩
  pending x hx := absurd hx List.not_mem_nil

/-- The highest number over the files of a directory. -/
theorem maxSeqAll_files (d : Dir) :
    (∀ id b r, d.bytes id = some b → r ∈ records b → r.seq ≤ maxSeqAll 0 ((listDataFiles d).flatMap (recordsAt d))) ∧
      (maxSeqAll 0 ((listDataFiles d).flatMap (recordsAt d)) = 0 ∨ ∃ id b r, d.bytes id = some b ∧ r ∈ records b ∧
        maxSeqAll 0 ((listDataFiles d).flatMap (recordsAt d)) = r.seq) := by
  refine ⟨fun id b r hb hr => ?_, ?_⟩
  · refine UInt64.le_iff_toNat_le.mpr ((le_maxSeqAll 0 _).2 r ?_)
    refine List.mem_flatMap.mpr ⟨id, mem_listDataFiles.mpr ⟨b, hb⟩, ?_⟩
    rwa [recordsAt, hb]
  · rcases maxSeqAll_mem 0 ((listDataFiles d).flatMap (recordsAt d)) with h | ⟨r, hr, h⟩
    · exact .inl h
    · obtain ⟨id, hid, hr⟩ := List.mem_flatMap.mp hr
      obtain ⟨b, hb⟩ := mem_listDataFiles.mp hid
      rw [recordsAt, hb] at hr
      exact .inr ⟨id, b, r, hb, hr, h⟩

theorem Walked.seq (hw : Walked opts d (listDataFiles d) st) :
    (∀ id b r, d.bytes id = some b → r ∈ records b → r.seq ≤ st.maxSeq) ∧
      (st.maxSeq = 0 ∨ ∃ id b r, d.bytes id = some b ∧ r ∈ records b ∧ st.maxSeq = r.seq) := by
  rw [hw.maxSeq]
  exact maxSeqAll_files d

theorem Walked.trims (hw : Walked opts d (listDataFiles d) st) {id : Nat} {b : Bytes} (hb : d.bytes id = some b)
    (hno : id ∉ d.hints) (htop : ∀ i c, d.bytes i = some c → i ≤ id) :
    ∃ b', st.dir.bytes id = some b' ∧ Trimmed b b' := by
  obtain ⟨last, hlast, hle⟩ := le_last (listDataFiles_ascending d) (mem_listDataFiles.mpr ⟨b, hb⟩)
  obtain ⟨c, hc⟩ := mem_listDataFiles.mp (List.mem_of_getLast? hlast)
  cases le_antisymm hle (htop last c hc)
  exact hw.last id hlast hno b hb

end Walked

theorem progress_start (d : Dir) : Progress (removeOrphanHints d) [] (Recovery.start d) where
  dir := rfl
  index := by
    have hset : entriesTaken (removeOrphanHints d) [] = ∅ := by simp [entriesTaken]
    have hkeys : (Recovery.start d).keys.versions (fun e => e) = fun _ => none := by
      funext k
      simp [Index.versions, Recovery.start]
    rw [hset, hkeys]
    exact .empty
  files id := by simp [Recovery.start]
  nextID := rfl
  maxSeq := rfl
  reuse := rfl

omit [Checksum] in
theorem same_recount (s : Store) : Same s s.recountLocked := ⟨rfl, rfl, rfl, rfl, rfl, rfl, rfl⟩

/-- **`Open` succeeds on every directory in order.** -/
theorem openStore_ok (opts : Options) (hd : DirOk ρ d) (hids : ∀ id, id ∈ d.data → id + 2 < 2 ^ 32) :
    ∃ s, openStore opts d = .ok s ∧ Reopened ρ opts d s := by
  have hd0 := hd.removeOrphans
  have hw := recoverFiles_walked opts.applyDefaults hd0.toEvery (progress_start d)
    (fun id hid => by
      have := hids id (Std.ExtTreeMap.mem_keys.mp hid)
      omega)
  have horphan : ∀ id, id ∈ (removeOrphanHints d).hints → id ∈ (removeOrphanHints d).data :=
    fun id hid => mem_data_of_hint (d := d) hid
  have hseq := hw.seq
  -- What both ways out share: the walk's index, counter and files.
  have hcovers : ∀ id r, Recovers d id r → ∃ e, _ := fun id r hr =>
    hw.covers (recovers_removeOrphanHints.mpr hr)
  have hdata : ∀ (id : Nat) (f : DiskFile), d.data[id]? = some f → _ := fun id f hf => by
    have hmem : id ∈ d.data := Dir.mem_data.mpr ⟨f.bytes, by rw [Dir.bytes, hf]; rfl⟩
    have := hw.kept.same id f hf
    rwa [mem_hints_removeOrphanHints hmem] at this
  set st := recoverFiles opts.applyDefaults (Recovery.start d) (listDataFiles (removeOrphanHints d)) with hst
  have hmanifest : st.dir.manifest = d.manifest := hw.kept.manifest
  have hhints : ∀ id : Nat, id ∈ d.data → st.dir.hints[id]? = d.hints[id]? := fun id hid => by
    rw [hw.kept.hints]
    exact hints_removeOrphanHints hid
  have htrims : ∀ (id : Nat) (b : Bytes), d.bytes id = some b → id ∉ d.hints →
      (∀ i c, d.bytes i = some c → i ≤ id) → ∃ b', st.dir.bytes id = some b' ∧ Trimmed b b' :=
    fun id b hb hno htop => hw.trims (d := removeOrphanHints d) hb
      (fun hid => hno ((mem_hints_removeOrphanHints (Dir.mem_data.mpr ⟨b, hb⟩)).mp hid)) htop
  cases hreuse : st.reuseActive with
  | some df =>
    obtain ⟨hlast, hno, b, b', hb, htrim, hb', hsize⟩ := hw.reuse df hreuse
    have hm := hw.mounted hd0 horphan df
    have hwf : Wf ρ (st.store opts.applyDefaults df) [] := by
      refine {hm with
        active := ⟨b', hb', hsize, htrim.intact.1, htrim.whole (hd0.tidy _ b hb)⟩
        noHint := fun hh => ?_ }
      rcases hh with hh | hh
      · exact hno (hw.kept.hints ▸ hh)
      · cases hh
    refine ⟨_, openStore_reuse hreuse, ?_⟩
    refine ⟨hwf.same (same_recount _) rfl, fun k e he => ?_, hcovers, rfl, ?_, hmanifest, hseq.1, hseq.2, rfl,
      hhints, fun id c hc => ?_, ?_, hdata, fun id hid => .inl (hw.kept.absent id hid), htrims⟩
    · obtain ⟨r, hr, hrr⟩ := hw.located hd0 he
      exact ⟨r, hr, recovers_removeOrphanHints.mp hrr⟩
    · show readManifest st.dir.manifest = _
      rw [hmanifest]
    · obtain ⟨last, hl, hle⟩ := le_last (listDataFiles_ascending _) (hw.mem hc)
      rw [hl] at hlast
      cases hlast
      exact hle
    · show st.nextID = df.id + 1
      rw [hw.nextID, hlast]
      rfl
  | none =>
    have hm := hw.mounted hd0 horphan ⟨0, 0⟩
    have hnext : (st.store opts.applyDefaults ⟨0, 0⟩).nextID + 1 < 2 ^ 32 := by
      show st.nextID + 1 < 2 ^ 32
      rw [hw.nextID]
      cases hl : (listDataFiles (removeOrphanHints d)).getLast? with
      | none => decide
      | some last =>
        have := hids last (Std.ExtTreeMap.mem_keys.mp (List.mem_of_getLast? hl))
        simpa using this
    refine ⟨(st.store opts.applyDefaults ⟨0, 0⟩).withActive.recountLocked,
      openStore_create hreuse (hm.openNewActive hnext), ?_⟩
    refine ⟨hm.withActive.same (same_recount _) rfl, fun k e he => ?_, hcovers, rfl, ?_, hmanifest, hseq.1,
      hseq.2, rfl, hhints, fun id c hc => ?_, rfl, fun id f hf => ?_, fun id hid => ?_,
      fun id b hb hno htop => ?_⟩
    · obtain ⟨r, hr, hrr⟩ := hw.located hd0 he
      refine ⟨r, ?_, recovers_removeOrphanHints.mp hrr⟩
      show Located ρ (Store.withActive _).dir.bytes k e r
      rw [bytes_withActive]
      exact hr.create hm.notMem_nextID
    · show readManifest st.dir.manifest = _
      rw [hmanifest]
    · show id ≤ st.nextID
      rcases update_some (bytes_withActive _ ▸ hc) with ⟨rfl, _⟩ | ⟨_, hc⟩
      · exact le_rfl
      · exact (hw.lt (hw.mem hc)).le
    · have hid : id < st.nextID := hw.lt (mem_listDataFiles.mpr ⟨f.bytes, by
        show Option.map DiskFile.bytes d.data[id]? = _
        rw [hf]
        rfl⟩)
      show (st.dir.data.insert st.nextID ⟨[], 0⟩)[id]? = _ ∨ _ ∧ ∃ b', _ ∧
        (st.dir.data.insert st.nextID ⟨[], 0⟩)[id]? = _
      rw [Std.ExtTreeMap.getElem?_insert]
      simpa [Nat.ne_of_gt hid] using hdata id f hf
    · show (st.dir.data.insert st.nextID ⟨[], 0⟩)[id]? = none ∨ id = st.nextID ∧
        (st.dir.data.insert st.nextID ⟨[], 0⟩)[id]? = _
      rw [Std.ExtTreeMap.getElem?_insert]
      by_cases hi : id = st.nextID
      · exact .inr ⟨hi, by simp [hi]⟩
      · exact .inl (by simpa [Ne.symm hi] using hw.kept.absent id hid)
    · obtain ⟨b', hb', htrim⟩ := htrims id b hb hno htop
      refine ⟨b', ?_, htrim⟩
      show (Store.withActive _).dir.bytes id = some b'
      have hne : id ≠ st.nextID := (hw.lt (hw.mem hb')).ne
      rw [bytes_withActive]
      exact (Function.update_of_ne hne _ _).trans hb'

section Committed
variable {opts : Options} {s : Store}

theorem Reopened.bytes (h : Reopened ρ opts d s) {id : Nat} {b : Bytes} (hb : d.bytes id = some b) :
    ∃ b', s.dir.bytes id = some b' ∧ (b' = b ∨ id ∉ d.hints ∧ Trimmed b b') := by
  obtain ⟨f, hf, rfl⟩ := Option.map_eq_some_iff.mp hb
  rcases h.data id f hf with hf' | ⟨hno, b', ht, hf'⟩
  · exact ⟨f.bytes, by rw [Dir.bytes, hf']; rfl, .inl rfl⟩
  · exact ⟨b', by rw [Dir.bytes, hf']; rfl, .inr ⟨hno, ht⟩⟩

theorem Reopened.bytes_none (h : Reopened ρ opts d s) {id : Nat} (hb : d.bytes id = none) :
    s.dir.bytes id = none ∨ id = s.active.id ∧ s.dir.bytes id = some [] := by
  rcases h.fresh id (Option.map_eq_none_iff.mp hb) with h | ⟨hid, h⟩
  · exact .inl (by rw [Dir.bytes, h]; rfl)
  · exact .inr ⟨hid, by rw [Dir.bytes, h]; rfl⟩

/-- `Open` changes nothing of what a replay keeps. -/
theorem Reopened.holds (h : Reopened ρ opts d s) {id : Nat} {r : Record} :
    Holds .committed s.dir.bytes id r ↔ Holds .committed d.bytes id r := by
  cases hb : d.bytes id with
  | none =>
    rcases h.bytes_none hb with hb' | ⟨_, hb'⟩
    · simp [Holds, hb, hb']
    · have hnil : records ([] : Bytes) = [] := rfl
      simp [Holds, hb, hb', hnil, Reading.take, committed]
  | some b =>
    obtain ⟨b', hb', rfl | ⟨_, ht⟩⟩ := h.bytes hb
    · simp [Holds, hb, hb']
    · simp [Holds, hb, hb', Reading.take, ht.committed_eq]

/-- **Reopening a directory of local writes** restores the invariant. -/
theorem Reopened.inv (h : Reopened .committed opts d s) (hd : DirOk .committed d)
    (hagree : Agreeing .committed d.bytes) : Inv .committed s [] [] ∧ Bounded .committed s := by
  refine ⟨{h.wf with covers := fun id r hr _ => .inr ?_, agree := fun i j r r' hr hr' => ?_ },
    fun id r hr => ?_⟩
  · exact h.covers id r (hd.recovers_committed.mpr (h.holds.mp hr))
  · exact hagree i j r r' (h.holds.mp hr) (h.holds.mp hr')
  · obtain ⟨b, hb, hr⟩ := h.holds.mp hr
    exact h.seq_le id b r hb (Reading.take_subset hr)

/-- The live map of a store whose disk holds the same versions is the same. -/
theorem Inv.liveMap_eq {s s' : Store} (h : Inv ρ s [] []) (h' : Inv ρ s' [] [])
    (hv : versions ρ s'.dir.bytes = versions ρ s.dir.bytes) : s'.liveMap = s.liveMap := by
  have := h'.indexes
  rw [hv] at this
  exact this.live_eq h.shows

end Committed

end Reopen

end Gokv.Engine
