import Gokv.Engine.Replays

/-! A hint that cannot be read.

`readHint` hands out entries while it parses, so when it reports an error some have been
applied, and the scan that follows runs on top of them. `Dir.offers` lists what the
recovery of a file offers to the index, in order, whatever the bytes of its hint;
recovery as a whole is one list of offers (`recover_offers`).

`bad_hint_harmless_iff`: recovery builds what it would build without the hint exactly if
every key's newest parsed entry is outdone by what the files offer. -/
namespace Gokv.Engine
open Base

/-! ### What a recovery offers -/

/-- What the entries of a hint offer, up to the first problem. -/
def hintOffers (id : Nat) (hint : Bytes) : List (Bytes × Entry) :=
  (readHint id hint).1.map fun i => (i.key, i.recovered)

section Offers
variable [Checksum]

def scanOffers (id : Nat) (b : Bytes) : List (Bytes × Entry) :=
  (installOrder [] (scanFile b).1).map (Scanned.offer id)

/-- What the recovery of a file offers to the index, in order. -/
def Dir.offers (d : Dir) (id : Nat) : List (Bytes × Entry) :=
  match d.data[id]? with
  | none => []
  | some f =>
    match d.hints[id]? with
    | none => scanOffers id f.bytes
    | some hint => hintOffers id hint ++ if (readHint id hint).2.isNone then [] else scanOffers id f.bytes

/-- The numbers the recovery of a file sees. -/
def Dir.numbers (d : Dir) (id : Nat) : List UInt64 :=
  match d.data[id]? with
  | none => []
  | some f =>
    match d.hints[id]? with
    | none => (records f.bytes).map Record.seq
    | some hint =>
      (readHint id hint).1.map (fun i => i.entry.seq) ++
        if (readHint id hint).2.isNone then [] else (records f.bytes).map Record.seq

/-- The highest of a list of numbers and `m`. -/
def highest (m : UInt64) (qs : List UInt64) : UInt64 := qs.foldl maxSeqOf m

omit [Checksum] in
theorem highest_append (m : UInt64) (ps qs : List UInt64) : highest m (ps ++ qs) = highest (highest m ps) qs :=
  List.foldl_append

omit [Checksum] in
theorem toNat_highest (m : UInt64) (qs : List UInt64) :
    m.toNat ≤ (highest m qs).toNat ∧ (∀ q ∈ qs, q.toNat ≤ (highest m qs).toNat) ∧
      (highest m qs = m ∨ highest m qs ∈ qs) := by
  induction qs generalizing m with
  | nil => exact ⟨le_rfl, fun _ hq => absurd hq List.not_mem_nil, .inl rfl⟩
  | cons q rest ih =>
    obtain ⟨hm, hall, hmem⟩ := ih (maxSeqOf m q)
    have hmax := toNat_maxSeqOf m q
    have hstep : highest m (q :: rest) = highest (maxSeqOf m q) rest := rfl
    refine ⟨?_, fun p hp => ?_, ?_⟩
    · rw [hstep]
      omega
    · rw [hstep]
      rcases List.mem_cons.mp hp with rfl | hp
      · omega
      · exact hall p hp
    · rcases hmem with hmem | hmem
      · rw [hstep, hmem, maxSeqOf]
        split
        · exact .inr (List.mem_cons_self ..)
        · exact .inl rfl
      · exact .inr (List.mem_cons_of_mem _ hmem)

omit [Checksum] in
theorem highest_le {m : UInt64} {ps qs : List UInt64} (h : ∀ p ∈ ps, p.toNat ≤ (highest m qs).toNat) :
    (highest m ps).toNat ≤ (highest m qs).toNat := by
  rcases (toNat_highest m ps).2.2 with hm | hp
  · rw [hm]
    exact (toNat_highest m qs).1
  · exact h _ hp

omit [Checksum] in
/-- The highest number is the same of lists that match each other's numbers. -/
theorem highest_congr {m : UInt64} {ps qs : List UInt64} (h : ∀ p ∈ ps, p.toNat ≤ (highest m qs).toNat)
    (h' : ∀ q ∈ qs, q.toNat ≤ (highest m ps).toNat) : highest m ps = highest m qs :=
  UInt64.toNat_inj.mp (Nat.le_antisymm (highest_le h) (highest_le h'))

theorem scanIntoIndex_eq (id : Nat) (b : Bytes) (keys : Index) (m : UInt64) :
    (scanIntoIndex id b keys m).keys = keys.installAll (scanOffers id b) ∧
      (scanIntoIndex id b keys m).maxSeq = highest m ((records b).map Record.seq) := by
  refine ⟨scan_keys id _ [] _ rfl, ?_⟩
  rw [scanIntoIndex, replay_maxSeq, highest, List.foldl_map]
  rfl

omit [Checksum] in
theorem replayHint_eq (id : Nat) (hint : Bytes) (keys : Index) (m : UInt64) :
    replayHint id hint keys m = (keys.installAll (hintOffers id hint),
      highest m ((readHint id hint).1.map fun i => i.entry.seq), (readHint id hint).2.isNone) := by
  rw [replayHint, hintOffers, highest, List.foldl_map]

/-- **Recovering a file** offers its entries and takes its numbers. -/
theorem recoverFile_offers (opts : Options) (isLast : Bool) (st : Recovery) (id : Nat) :
    (recoverFile opts isLast st id).keys = st.keys.installAll (st.dir.offers id) ∧
      (recoverFile opts isLast st id).maxSeq = highest st.maxSeq (st.dir.numbers id) := by
  rw [recoverFile, Dir.offers, Dir.numbers]
  cases st.dir.data[id]? with
  | none => exact ⟨rfl, rfl⟩
  | some f =>
    cases st.dir.hints[id]? with
    | none => exact scanIntoIndex_eq id f.bytes st.keys st.maxSeq
    | some hint =>
      simp only [replayHint_eq]
      cases (readHint id hint).2.isNone with
      | true => simp only [if_true, List.append_nil, and_self]
      | false =>
        simp only [Bool.false_eq_true, if_false, Index.installAll_append, highest_append]
        exact scanIntoIndex_eq id f.bytes _ _

/-- A file before the last one is left as it is. -/
theorem recoverFile_dir (opts : Options) (st : Recovery) (id : Nat) : (recoverFile opts false st id).dir = st.dir := by
  rw [recoverFile]
  cases st.dir.data[id]? with
  | none => rfl
  | some f => simp

theorem foldl_recoverFile (opts : Options) (ids : List Nat) (st : Recovery) :
    (ids.foldl (recoverFile opts false) st).dir = st.dir ∧
      (ids.foldl (recoverFile opts false) st).keys = st.keys.installAll (ids.flatMap st.dir.offers) ∧
      (ids.foldl (recoverFile opts false) st).maxSeq = highest st.maxSeq (ids.flatMap st.dir.numbers) := by
  induction ids generalizing st with
  | nil => exact ⟨rfl, rfl, rfl⟩
  | cons id rest ih =>
    obtain ⟨hdir, hkeys, hmax⟩ := ih (recoverFile opts false st id)
    obtain ⟨hkeys₀, hmax₀⟩ := recoverFile_offers opts false st id
    rw [recoverFile_dir] at hdir hkeys hmax
    rw [List.foldl_cons, List.flatMap_cons, List.flatMap_cons, Index.installAll_append, highest_append]
    exact ⟨hdir, by rw [hkeys, hkeys₀], by rw [hmax, hmax₀]⟩

theorem recoverFiles_offers (opts : Options) (ids : List Nat) (st : Recovery) :
    (recoverFiles opts st ids).keys = st.keys.installAll (ids.flatMap st.dir.offers) ∧
      (recoverFiles opts st ids).maxSeq = highest st.maxSeq (ids.flatMap st.dir.numbers) := by
  rcases ids.eq_nil_or_concat' with rfl | ⟨init, last, rfl⟩
  · exact ⟨rfl, rfl⟩
  · obtain ⟨hdir, hkeys, hmax⟩ := foldl_recoverFile opts init st
    obtain ⟨hkeys', hmax'⟩ := recoverFile_offers opts true (init.foldl (recoverFile opts false) st) last
    rw [recoverFiles_concat, hkeys', hmax', hdir, hkeys, hmax]
    simp [Index.installAll_append, highest_append]

/-- A hint without its data file is not read. -/
theorem offers_removeOrphanHints (d : Dir) :
    (removeOrphanHints d).offers = d.offers ∧ (removeOrphanHints d).numbers = d.numbers := by
  have hhint {id : Nat} {f : DiskFile} (hf : d.data[id]? = some f) :
      (removeOrphanHints d).hints[id]? = d.hints[id]? :=
    hints_removeOrphanHints (Std.ExtTreeMap.mem_iff_isSome_getElem?.mpr (by rw [hf]; rfl))
  constructor
  · funext id
    rw [Dir.offers, Dir.offers]
    show (match d.data[id]? with | none => _ | some f => _) = _
    cases hf : d.data[id]? with
    | none => rfl
    | some f => simp only [hhint hf]
  · funext id
    rw [Dir.numbers, Dir.numbers]
    show (match d.data[id]? with | none => _ | some f => _) = _
    cases hf : d.data[id]? with
    | none => rfl
    | some f => simp only [hhint hf]

/-- **Recovery is one list of offers**, made to the empty index. -/
theorem recover_offers (opts : Options) (d : Dir) :
    (recover opts d).1.keys = (∅ : Index).installAll ((listDataFiles d).flatMap d.offers) ∧
      (recover opts d).1.seq = highest 0 ((listDataFiles d).flatMap d.numbers) := by
  have hst : (recover opts d).1.keys = (recoverFiles opts (Recovery.start d) (listDataFiles d)).keys ∧
      (recover opts d).1.seq = (recoverFiles opts (Recovery.start d) (listDataFiles d)).maxSeq := by
    rw [recover]
    cases (recoverFiles opts (Recovery.start d) (listDataFiles d)).reuseActive with
    | some df => exact ⟨rfl, rfl⟩
    | none =>
      simp only [Store.openNewActive]
      cases Dir.create _ _ <;> exact ⟨rfl, rfl⟩
  obtain ⟨hkeys, hmax⟩ := recoverFiles_offers opts (listDataFiles d) (Recovery.start d)
  obtain ⟨hoffers, hnumbers⟩ := offers_removeOrphanHints d
  have hdir : (Recovery.start d).dir = removeOrphanHints d := rfl
  rw [hdir, hoffers] at hkeys
  rw [hdir, hnumbers] at hmax
  exact ⟨hst.1.trans hkeys, hst.2.trans hmax⟩

/-! ### Offers and numbers -/

omit [Checksum] in
theorem mem_hintOffers {id : Nat} {hint : Bytes} {x : Bytes × Entry} (h : x ∈ hintOffers id hint) :
    ∃ i ∈ (readHint id hint).1, i.key = x.1 ∧ i.entry.seq = x.2.seq ∧ i.recovered = x.2 := by
  obtain ⟨i, hi, rfl⟩ := List.mem_map.mp h
  exact ⟨i, hi, rfl, rfl, rfl⟩

omit [Checksum] in
theorem readHintFrom_fileID {id fuel : Nat} {b : Bytes} : ∀ i ∈ (readHintFrom id fuel b).1, i.entry.fileID = id := by
  induction fuel generalizing b with
  | zero => exact fun i hi => absurd hi List.not_mem_nil
  | succ fuel ih =>
    intro i hi
    rw [readHintFrom] at hi
    split at hi
    · cases hi
    · split at hi
      · cases hi
      · simp only at hi
        split at hi
        · cases hi
        · split at hi
          · cases hi
          · rcases List.mem_cons.mp hi with rfl | hi
            · rfl
            · exact ih i hi

/-- What a file offers leads into the file, and its number is seen. -/
theorem mem_offers {d : Dir} {id : Nat} {x : Bytes × Entry} (h : x ∈ d.offers id) :
    x.2.fileID = id ∧ x.2.seq ∈ d.numbers id := by
  have hscan {b : Bytes} (hx : x ∈ scanOffers id b) : x.2.fileID = id ∧ x.2.seq ∈ (records b).map Record.seq := by
    obtain ⟨y, hy, rfl⟩ := List.mem_map.mp hx
    have hy := (mem_installOrder hy).resolve_left List.not_mem_nil
    exact ⟨rfl, List.mem_map.mpr ⟨y.record, List.mem_map_of_mem hy, rfl⟩⟩
  rw [Dir.offers] at h
  rw [Dir.numbers]
  cases hf : d.data[id]? with
  | none =>
    rw [hf] at h
    cases h
  | some f =>
    rw [hf] at h
    cases hh : d.hints[id]? with
    | none =>
      rw [hh] at h
      exact hscan h
    | some hint =>
      rw [hh] at h
      rcases List.mem_append.mp h with h | h
      · obtain ⟨i, hi, -, hseq, hrec⟩ := mem_hintOffers h
        have hid : i.entry.fileID = id := by
          rw [readHint] at hi
          split at hi
          · exact readHintFrom_fileID i hi
          · cases hi
        refine ⟨by rw [← hrec]; exact hid, List.mem_append_left _ (List.mem_map.mpr ⟨i, hi, hseq⟩)⟩
      · cases hok : (readHint id hint).2.isNone with
        | true =>
          rw [hok] at h
          cases h
        | false =>
          rw [hok] at h
          obtain ⟨hid, hseq⟩ := hscan h
          refine ⟨hid, List.mem_append_right _ ?_⟩
          rw [hok]
          exact hseq

/-! ### The unreadable hint -/

variable {d : Dir} {id : Nat}

/-- The directory with a hint placed beside a file, and without one. -/
def Dir.withHint (d : Dir) (id : Nat) (hint : Bytes) : Dir := {d with hints := d.hints.insert id hint}

omit [Checksum] in
theorem hints_withHint (hint : Bytes) (i : Nat) :
    (d.withHint id hint).hints[i]? = if i = id then some hint else d.hints[i]? := by
  rw [Dir.withHint, Std.ExtTreeMap.getElem?_insert]
  by_cases hi : i = id
  · simp [hi]
  · simp [hi, Ne.symm hi]

omit [Checksum] in
theorem hints_removeHint (i : Nat) : (d.removeHint id).hints[i]? = if i = id then none else d.hints[i]? := by
  rw [Dir.removeHint, Std.ExtTreeMap.getElem?_erase]
  by_cases hi : i = id
  · simp [hi]
  · simp [hi, Ne.symm hi]

/-- Beside the entries that were parsed, an unreadable hint changes nothing. -/
theorem offers_withHint {hint : Bytes} {f : DiskFile} (hf : d.data[id]? = some f)
    (herr : (readHint id hint).2 ≠ none) (i : Nat) :
    (d.withHint id hint).offers i = (if i = id then hintOffers id hint else []) ++ (d.removeHint id).offers i ∧
      (d.withHint id hint).numbers i =
        (if i = id then (readHint id hint).1.map (fun i => i.entry.seq) else []) ++ (d.removeHint id).numbers i := by
  have herr : (readHint id hint).2.isNone = false := by
    cases h : (readHint id hint).2 with
    | none => exact absurd h herr
    | some e => rfl
  rw [Dir.offers, Dir.offers, Dir.numbers, Dir.numbers, hints_withHint, hints_removeHint]
  show (match d.data[i]? with | none => _ | some f => _) = _ ++ (match d.data[i]? with | none => _ | some f => _) ∧
    (match d.data[i]? with | none => _ | some f => _) = _ ++ (match d.data[i]? with | none => _ | some f => _)
  by_cases hi : i = id
  · subst hi
    simp only [hf, if_true, herr, Bool.false_eq_true, if_false, and_self]
  · simp only [hi, if_false, List.nil_append, and_self]

omit [Checksum] in
theorem getElem?_installAll_append (es fs : List (Bytes × Entry)) (k : Bytes) :
    ((∅ : Index).installAll (es ++ fs))[k]? =
      newerOf ((∅ : Index).installAll es)[k]? ((∅ : Index).installAll fs)[k]? := by
  rw [Index.installAll_append, getElem?_installAll]

omit [Checksum] in
/-- An entry between an older and a later offer shows nowhere exactly if it is outdone, or
of the same number and no news or outdone by the older one. -/
theorem newerOf_between {older later : Option Entry} (x : Entry) (holder : ∀ n ∈ older, n.fileID < id)
    (hlater : ∀ n ∈ later, id ≤ n.fileID) :
    newerOf older (newerOf (some x) later) = newerOf older later ↔
      ∃ n, newerOf older later = some n ∧ (x.seq < n.seq ∨ x.seq = n.seq ∧ (x = n ∨ n.fileID < id)) := by
  cases older with
  | none =>
    cases later with
    | none => simp [newerOf]
    | some b =>
      have hb := hlater b rfl
      by_cases hle : b.seq ≤ x.seq
      · simp only [newerOf, if_pos hle, Option.some.injEq, exists_eq_left']
        grind
      · simp [newerOf, hle, UInt64.not_le.mp hle]
  | some a =>
    have ha := holder a rfl
    cases later with
    | none =>
      simp only [newerOf]
      grind
    | some b =>
      have hb := hlater b rfl
      simp only [newerOf]
      grind

omit [Checksum] in
/-- What is offered between older and later offers leaves no trace exactly if each key's
first newest one of it shows nowhere. -/
theorem installAll_between {older later : List (Bytes × Entry)} (parsed : List (Bytes × Entry))
    (holder : ∀ y ∈ older, y.2.fileID < id)
    (hlater : ∀ y ∈ later, id ≤ y.2.fileID) :
    (∅ : Index).installAll (older ++ (parsed ++ later)) = (∅ : Index).installAll (older ++ later) ↔
      ∀ k x, Leads parsed k x → ∃ n, Leads (older ++ later) k n ∧
        (x.seq < n.seq ∨ x.seq = n.seq ∧ (x = n ∨ n.fileID < id)) := by
  have hext {a b : Index} : a = b ↔ ∀ k : Bytes, a[k]? = b[k]? :=
    ⟨fun h k => by rw [h], Std.ExtTreeMap.ext_getElem?⟩
  have hmem {es : List (Bytes × Entry)} {P : Entry → Prop} (hes : ∀ y ∈ es, P y.2) (k : Bytes) :
      ∀ n ∈ ((∅ : Index).installAll es)[k]?, P n := by
    intro n hn
    rcases Index.mem_installAll hn with h | h
    · exact hes _ h
    · rw [Std.ExtTreeMap.getElem?_empty] at h
      cases h
  rw [hext]
  refine forall_congr' fun k => ?_
  simp only [← leads_iff, getElem?_installAll_append]
  cases hp : ((∅ : Index).installAll parsed)[k]? with
  | none =>
    refine iff_of_true ?_ fun x hx => (nomatch hx)
    cases ((∅ : Index).installAll later)[k]? <;> rfl
  | some x =>
    simp only [Option.some.injEq, forall_eq']
    exact newerOf_between x (hmem holder k) (hmem hlater k)

/-- **An unreadable hint is harmless** exactly if it is outdone: for every key, the newest
entry that was parsed is older than the newest the files offer, or carries the same number
and is the same entry or belongs to a key a file of a lower id has settled. -/
theorem bad_hint_harmless_iff (opts : Options) (d : Dir) (id : Nat) (f : DiskFile) (hint : Bytes)
    (hf : d.data[id]? = some f) (herr : (readHint id hint).2 ≠ none) :
    (recover opts (d.withHint id hint)).1.keys = (recover opts (d.removeHint id)).1.keys ∧
      (recover opts (d.withHint id hint)).1.seq = (recover opts (d.removeHint id)).1.seq ↔
      ∀ k x, Leads (hintOffers id hint) k x →
        ∃ n, Leads ((listDataFiles d).flatMap (d.removeHint id).offers) k n ∧
          (x.seq < n.seq ∨ x.seq = n.seq ∧ (x = n ∨ n.fileID < id)) := by
  have hids : listDataFiles (d.withHint id hint) = listDataFiles d ∧
      listDataFiles (d.removeHint id) = listDataFiles d := ⟨rfl, rfl⟩
  obtain ⟨hkeys₁, hseq₁⟩ := recover_offers opts (d.withHint id hint)
  obtain ⟨hkeys₀, hseq₀⟩ := recover_offers opts (d.removeHint id)
  rw [hids.1] at hkeys₁ hseq₁
  rw [hids.2] at hkeys₀ hseq₀
  -- The file with the hint has its place among the others.
  have hmem : id ∈ listDataFiles d :=
    Std.ExtTreeMap.mem_keys.mpr (Std.ExtTreeMap.mem_iff_isSome_getElem?.mpr (by rw [hf]; rfl))
  obtain ⟨before, after, hsplit⟩ := List.append_of_mem hmem
  have hasc := keys_ascending d.data
  rw [show d.data.keys = before ++ id :: after from hsplit] at hasc
  obtain ⟨-, hafter, hcross⟩ := List.pairwise_append.mp hasc
  have hbelow (i : Nat) (hi : i ∈ before) : i < id := hcross i hi id (List.mem_cons_self ..)
  have habove (i : Nat) (hi : i ∈ after) : id < i := (List.pairwise_cons.mp hafter).1 i hi
  have hothers {ids : List Nat} (hne : ∀ i ∈ ids, i ≠ id) :
      ids.flatMap (d.withHint id hint).offers = ids.flatMap (d.removeHint id).offers ∧
        ids.flatMap (d.withHint id hint).numbers = ids.flatMap (d.removeHint id).numbers := by
    refine ⟨List.flatMap_congr fun i hi => ?_, List.flatMap_congr fun i hi => ?_⟩
    · rw [(offers_withHint hf herr i).1, if_neg (hne i hi), List.nil_append]
    · rw [(offers_withHint hf herr i).2, if_neg (hne i hi), List.nil_append]
  obtain ⟨hob, hnb⟩ := hothers fun i hi => (hbelow i hi).ne
  obtain ⟨hoa, hna⟩ := hothers fun i hi => (habove i hi).ne'
  set older := before.flatMap (d.removeHint id).offers with holder
  set later := (id :: after).flatMap (d.removeHint id).offers with hlater
  have hall₀ : (listDataFiles d).flatMap (d.removeHint id).offers = older ++ later := by
    rw [hsplit, List.flatMap_append]
  have hall₁ : (listDataFiles d).flatMap (d.withHint id hint).offers = older ++ (hintOffers id hint ++ later) := by
    rw [hsplit, List.flatMap_append, hob, List.flatMap_cons, hoa, (offers_withHint hf herr id).1, if_pos rfl,
      List.append_assoc]
    rfl
  have hlow : ∀ y ∈ older, y.2.fileID < id := fun y hy => by
    obtain ⟨i, hi, hy⟩ := List.mem_flatMap.mp hy
    rw [(mem_offers hy).1]
    exact hbelow i hi
  have hhigh : ∀ y ∈ later, id ≤ y.2.fileID := fun y hy => by
    obtain ⟨i, hi, hy⟩ := List.mem_flatMap.mp hy
    rw [(mem_offers hy).1]
    rcases List.mem_cons.mp hi with rfl | hi
    · exact le_rfl
    · exact (habove i hi).le
  rw [hkeys₁, hkeys₀, hall₁, hall₀, installAll_between (hintOffers id hint) hlow hhigh]
  refine ⟨fun h => h.1, fun h => ⟨h, ?_⟩⟩
  -- Every number the hint carries is outdone by one the files carry.
  rw [hseq₁, hseq₀]
  have hnums : ∀ i ∈ listDataFiles d, ∀ q ∈ (d.removeHint id).numbers i,
      q ∈ (listDataFiles d).flatMap (d.withHint id hint).numbers := fun i hi q hq => by
    refine List.mem_flatMap.mpr ⟨i, hi, ?_⟩
    rw [(offers_withHint hf herr i).2]
    exact List.mem_append_right _ hq
  refine highest_congr (fun q hq => ?_) fun q hq => ?_
  · obtain ⟨i, hi, hq⟩ := List.mem_flatMap.mp hq
    rw [(offers_withHint hf herr i).2] at hq
    rcases List.mem_append.mp hq with hq | hq
    · by_cases hid : i = id
      · rw [if_pos hid] at hq
        obtain ⟨item, hitem, rfl⟩ := List.mem_map.mp hq
        obtain ⟨x, hx, hle⟩ := Index.covers_installAll (∅ : Index) (hintOffers id hint) (k := item.key)
          (e := item.recovered) (.inl (List.mem_map_of_mem hitem))
        obtain ⟨n, hn, hlt⟩ := h item.key x (leads_iff.mp hx)
        have hxn : x.seq ≤ n.seq := hlt.elim UInt64.le_of_lt fun heq => heq.1 ▸ UInt64.le_refl _
        have hmem : (item.key, n) ∈ (listDataFiles d).flatMap (d.removeHint id).offers := by
          obtain ⟨bs, as, heq, -⟩ := hn
          rw [hall₀, heq]
          exact List.mem_append_right _ (List.mem_cons_self ..)
        obtain ⟨j, hj, hoffer⟩ := List.mem_flatMap.mp hmem
        have hseen := (toNat_highest 0 _).2.1 n.seq (List.mem_flatMap.mpr ⟨j, hj, (mem_offers hoffer).2⟩)
        exact (UInt64.le_iff_toNat_le.mp (UInt64.le_trans hle hxn)).trans hseen
      · rw [if_neg hid] at hq
        cases hq
    · exact (toNat_highest 0 _).2.1 q (List.mem_flatMap.mpr ⟨i, hi, hq⟩)
  · obtain ⟨i, hi, hq⟩ := List.mem_flatMap.mp hq
    exact (toNat_highest 0 _).2.1 q (hnums i hi q hq)

end Offers

/-- A directory of one file, with one record. -/
def oneRecord : Dir :=
  {data := (∅ : Std.ExtTreeMap Nat DiskFile compare).insert 0 ⟨Record.encode ⟨0, 1, 0, [1], [7]⟩, 31⟩}

/-- The hint of that file, with one byte more. -/
def truncatedHint : Bytes := hintMagic ++ hintEntry [1] ⟨0, 1, 0, 31, false⟩ 0 ++ [0]

/-- A hint that ends inside its second entry, behind a true first one, does no harm. -/
theorem bad_hint_harmless_truncated :
    (recover ⟨0, .never⟩ (oneRecord.withHint 0 truncatedHint)).1.keys =
      (recover ⟨0, .never⟩ (oneRecord.removeHint 0)).1.keys := by
  refine ((bad_hint_harmless_iff ⟨0, .never⟩ oneRecord 0 ⟨Record.encode ⟨0, 1, 0, [1], [7]⟩, 31⟩ truncatedHint
    (by decide +kernel) (by decide +kernel)).mpr fun k x hx => ?_).1
  have hoffers : hintOffers 0 truncatedHint = [([1], ⟨0, 1, 0, 31, false⟩)] := by decide +kernel
  rw [hoffers] at hx
  obtain ⟨before, after, heq, -, -⟩ := hx
  cases before with
  | nil =>
    cases heq
    exact ⟨_, leads_iff.mp (by decide +kernel), .inr ⟨rfl, .inl rfl⟩⟩
  | cons y rest => simp at heq

/-- **A false entry before the error stays.** A hint of one entry for a key that no record
has, and one byte more: recovery reports the hint as unusable and keeps the key. -/
theorem bad_hint_kept : (readHint 0 (hintMagic ++ hintEntry [2] ⟨0, 9, 0, 31, false⟩ 0 ++ [0])).2 ≠ none ∧
    [2] ∈ (recover ⟨0, .never⟩ (oneRecord.withHint 0
      (hintMagic ++ hintEntry [2] ⟨0, 9, 0, 31, false⟩ 0 ++ [0]))).1.keys ∧
    [2] ∉ (recover ⟨0, .never⟩ (oneRecord.removeHint 0)).1.keys := by
  decide +kernel

end Gokv.Engine
