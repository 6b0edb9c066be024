import Gokv.Engine.Appending
import Gokv.Engine.Streamed

/-! Two ways to replay a file.

Recovery replays a file from its hint, which lists every record, or by a scan, which
stages the members of a batch until the batch ends. Both offer locators to the index; the
scan may drop some, and it offers the members of a batch later than the file has them.
What an index takes from a list of offers is, for every key, the first of the newest ones
(`leads_iff`), so the two replays agree on every index exactly if the scan offers those
records and offers them before any repetition of theirs (`Faithful`).

A store that appends whole groups writes files of that kind only. -/
namespace Gokv.Engine
open Base

/-! ### What an index takes from a list of offers -/

/-- The first of the newest offers for a key. -/
def Leads (es : List (Bytes × Entry)) (k : Bytes) (e : Entry) : Prop :=
  ∃ before after, es = before ++ (k, e) :: after ∧ (∀ y ∈ before, y.1 = k → y.2.seq < e.seq) ∧
    ∀ y ∈ after, y.1 = k → y.2.seq ≤ e.seq

theorem installAll_concat (keys : Index) (es : List (Bytes × Entry)) (x : Bytes × Entry) :
    keys.installAll (es ++ [x]) = (keys.installAll es).install x.1 x.2 := by
  rw [Index.installAll_append]
  rfl

/-- An empty index takes for every key the first of the newest offers. -/
theorem leads_iff {es : List (Bytes × Entry)} {k : Bytes} {e : Entry} :
    ((∅ : Index).installAll es)[k]? = some e ↔ Leads es k e := by
  induction es using List.reverseRecOn generalizing e with
  | nil =>
    refine ⟨fun h => ?_, fun ⟨before, after, h, _⟩ => ?_⟩
    · rw [show (∅ : Index).installAll [] = ∅ from rfl, Std.ExtTreeMap.getElem?_empty] at h
      cases h
    · simp at h
  | append_singleton es x ih =>
    obtain ⟨j, f⟩ := x
    rw [installAll_concat, Index.getElem?_install]
    constructor
    · intro h
      split at h
      case isTrue hc =>
        obtain ⟨rfl, hnew⟩ := hc
        cases h
        refine ⟨es, [], rfl, fun y hy hk => ?_, fun y hy => absurd hy List.not_mem_nil⟩
        obtain ⟨n, hn, hle⟩ := Index.covers_installAll (∅ : Index) es (k := y.1) (e := y.2) (.inl hy)
        rw [hk] at hn
        exact UInt64.lt_of_le_of_lt hle (hnew n hn)
      case isFalse hc =>
        obtain ⟨before, after, rfl, hbefore, hafter⟩ := ih.mp h
        refine ⟨before, after ++ [(j, f)], by simp, hbefore, fun y hy hk => ?_⟩
        rcases List.mem_append.mp hy with hy | hy
        · exact hafter y hy hk
        · rw [List.mem_singleton.mp hy] at hk ⊢
          refine UInt64.not_lt.mp fun hlt => hc ⟨hk.symm, fun n hn => ?_⟩
          rw [show j = k from hk, h] at hn
          cases hn
          exact hlt
    · rintro ⟨before, after, hsplit, hbefore, hafter⟩
      rcases after.eq_nil_or_concat' with rfl | ⟨init, last, rfl⟩
      · obtain ⟨rfl, hlast⟩ := List.append_inj' hsplit rfl
        cases hlast
        refine if_pos ⟨rfl, fun n hn => ?_⟩
        rcases Index.mem_installAll hn with hmem | hmem
        · exact hbefore _ hmem rfl
        · rw [Std.ExtTreeMap.getElem?_empty] at hmem
          cases hmem
      · rw [← List.cons_append, ← List.append_assoc] at hsplit
        obtain ⟨rfl, hlast⟩ := List.append_inj' hsplit rfl
        cases hlast
        have hk := ih.mpr ⟨before, init, rfl, hbefore, fun y hy => hafter y (List.mem_append_left _ hy)⟩
        rw [if_neg, hk]
        rintro ⟨rfl, hnew⟩
        exact UInt64.not_lt.mpr (hafter (k, f) (List.mem_append_right _ (List.mem_singleton_self _)) rfl) (hnew e hk)

/-- The newer of an entry and an offer; the entry stays if neither is. -/
def newerOf : Option Entry → Option Entry → Option Entry
  | old, none => old
  | none, some e => some e
  | some n, some e => if e.seq ≤ n.seq then some n else some e

/-- What offers do to an index, they do at once: each key's first newest one is offered. -/
theorem getElem?_installAll (keys : Index) (es : List (Bytes × Entry)) (k : Bytes) :
    (keys.installAll es)[k]? = newerOf keys[k]? ((∅ : Index).installAll es)[k]? := by
  induction es using List.reverseRecOn with
  | nil =>
    rw [show (∅ : Index).installAll [] = ∅ from rfl, Std.ExtTreeMap.getElem?_empty]
    rfl
  | append_singleton es x ih =>
    obtain ⟨j, f⟩ := x
    rw [installAll_concat, installAll_concat, Index.getElem?_install, Index.getElem?_install]
    by_cases hk : k = j
    · subst hk
      rw [ih]
      simp only [true_and]
      cases ((∅ : Index).installAll es)[k]? with
      | none =>
        cases keys[k]? with
        | none => simp [newerOf]
        | some n =>
          by_cases hlt : n.seq < f.seq
          · simp [newerOf, hlt, UInt64.not_le.mpr hlt]
          · simp [newerOf, hlt, UInt64.not_lt.mp hlt]
      | some e =>
        cases keys[k]? with
        | none => by_cases hlt : e.seq < f.seq <;> simp [newerOf, hlt]
        | some n =>
          by_cases hen : e.seq ≤ n.seq
          · by_cases hlt : n.seq < f.seq
            · have hef := UInt64.lt_of_le_of_lt hen hlt
              simp [newerOf, hen, hlt, hef, UInt64.not_le.mpr hlt]
            · have hfn := UInt64.not_lt.mp hlt
              by_cases hef : e.seq < f.seq <;> simp [newerOf, hen, hlt, hef, hfn]
          · have hne := UInt64.not_le.mp hen
            by_cases hef : e.seq < f.seq
            · have hnf := UInt64.lt_trans hne hef
              simp [newerOf, hen, hef, UInt64.not_le.mpr hnf]
            · simp [newerOf, hen, hef]
    · simp only [hk, false_and, if_false, ih]

/-- **Two lists of offers do the same to every index** as soon as they do the same to the
empty one. -/
theorem installAll_congr {es fs : List (Bytes × Entry)} :
    (∀ keys : Index, keys.installAll es = keys.installAll fs) ↔
      ∀ k e, Leads es k e ↔ Leads fs k e := by
  constructor
  · intro h k e
    rw [← leads_iff, ← leads_iff, h ∅]
  · intro h keys
    refine Std.ExtTreeMap.ext_getElem? fun k => ?_
    have hk : ((∅ : Index).installAll es)[k]? = ((∅ : Index).installAll fs)[k]? :=
      Option.ext fun e => leads_iff.trans ((h k e).trans leads_iff.symm)
    rw [getElem?_installAll, getElem?_installAll keys fs, hk]

/-! ### The order of a scan -/

/-- What a replay offers for a scanned record of file `id`. -/
def Scanned.offer (id : Nat) (x : Scanned) : Bytes × Entry := (x.record.key, x.entry id)

/-- The scanned records in the order the scan installs them, behind what it has staged. -/
def installOrder : List Scanned → List Scanned → List Scanned
  | _, [] => []
  | staged, x :: rest =>
    if x.record.batch then
      if x.record.batchEnd then staged ++ x :: installOrder [] rest else installOrder (staged ++ [x]) rest
    else x :: installOrder staged rest

/-- What is staged behind a list. -/
def stagedAfter : List Scanned → List Scanned → List Scanned
  | staged, [] => staged
  | staged, x :: rest =>
    if x.record.batch then
      if x.record.batchEnd then stagedAfter [] rest else stagedAfter (staged ++ [x]) rest
    else stagedAfter staged rest

theorem scan_keys (id : Nat) (xs staged : List Scanned) (st : Replay) (h : st.pending = staged.map (Scanned.offer id)) :
    (xs.foldl (Replay.step id) st).keys = st.keys.installAll ((installOrder staged xs).map (Scanned.offer id)) := by
  induction xs generalizing staged st with
  | nil => rfl
  | cons x rest ih =>
    rw [List.foldl_cons, installOrder]
    cases hb : x.record.batch with
    | false =>
      have hkeys : (Replay.step id st x).keys = st.keys.install x.record.key (x.entry id) := by
        simp [Replay.step, hb]
      have hpend : (Replay.step id st x).pending = staged.map (Scanned.offer id) := by simp [Replay.step, hb, h]
      rw [ih staged _ hpend, hkeys]
      rfl
    | true =>
      cases he : x.record.batchEnd with
      | false =>
        have hkeys : (Replay.step id st x).keys = st.keys := by simp [Replay.step, hb, he]
        have hpend : (Replay.step id st x).pending = (staged ++ [x]).map (Scanned.offer id) := by
          simp [Replay.step, hb, he, h, Scanned.offer]
        rw [ih (staged ++ [x]) _ hpend, hkeys]
        rfl
      | true =>
        have hkeys : (Replay.step id st x).keys = st.keys.installAll (st.pending ++ [x.offer id]) := by
          simp [Replay.step, hb, he, Scanned.offer]
        have hpend : (Replay.step id st x).pending = ([] : List Scanned).map (Scanned.offer id) := by
          simp [Replay.step, hb, he]
        rw [ih [] _ hpend, hkeys, h]
        simp only [if_true, List.map_append, List.map_cons, Index.installAll_append]
        rfl

theorem mem_stagedAfter {staged xs : List Scanned} {y : Scanned} (h : y ∈ stagedAfter staged xs) :
    y ∈ staged ∨ y ∈ xs := by
  induction xs generalizing staged with
  | nil => exact .inl h
  | cons x rest ih =>
    rw [stagedAfter] at h
    split at h
    · split at h
      · rcases ih h with hy | hy
        · cases hy
        · exact .inr (List.mem_cons_of_mem _ hy)
      · rcases ih h with hy | hy
        · rcases List.mem_append.mp hy with hy | hy
          · exact .inl hy
          · exact .inr (List.mem_cons.mpr (.inl (List.mem_singleton.mp hy)))
        · exact .inr (List.mem_cons_of_mem _ hy)
    · exact (ih h).imp_right (List.mem_cons_of_mem _)

theorem mem_installOrder {staged xs : List Scanned} {y : Scanned} (h : y ∈ installOrder staged xs) :
    y ∈ staged ∨ y ∈ xs := by
  induction xs generalizing staged with
  | nil => cases h
  | cons x rest ih =>
    rw [installOrder] at h
    split at h
    · split at h
      · rcases List.mem_append.mp h with hy | hy
        · exact .inl hy
        · rcases List.mem_cons.mp hy with rfl | hy
          · exact .inr (List.mem_cons_self ..)
          · exact .inr (List.mem_cons_of_mem _ ((ih hy).resolve_left List.not_mem_nil))
      · rcases ih h with hy | hy
        · rcases List.mem_append.mp hy with hy | hy
          · exact .inl hy
          · exact .inr (List.mem_cons.mpr (.inl (List.mem_singleton.mp hy)))
        · exact .inr (List.mem_cons_of_mem _ hy)
    · rcases List.mem_cons.mp h with rfl | hy
      · exact .inr (List.mem_cons_self ..)
      · exact (ih hy).imp_right (List.mem_cons_of_mem _)

theorem installOrder_append (staged xs ys : List Scanned) :
    installOrder staged (xs ++ ys) = installOrder staged xs ++ installOrder (stagedAfter staged xs) ys := by
  induction xs generalizing staged with
  | nil => rfl
  | cons x rest ih =>
    rw [List.cons_append, installOrder, installOrder, stagedAfter]
    cases x.record.batch with
    | false => simp [ih]
    | true => cases x.record.batchEnd <;> simp [ih]

/-- A list either never ends a batch or has a first end. -/
theorem settles_split {xs : List Scanned} (h : settles Scanned.record xs = true) :
    ∃ mid e tail, xs = mid ++ e :: tail ∧ settles Scanned.record mid = false ∧ e.record.batch = true ∧
      e.record.batchEnd = true := by
  induction xs with
  | nil => cases h
  | cons x rest ih =>
    by_cases hx : (x.record.batch && x.record.batchEnd) = true
    · obtain ⟨hb, he⟩ := Bool.and_eq_true_iff.mp hx
      exact ⟨[], x, rest, rfl, rfl, hb, he⟩
    · have hx := Bool.eq_false_of_not_eq_true hx
      rw [settles_cons, hx, Bool.false_or] at h
      obtain ⟨mid, e, tail, rfl, hmid, hend⟩ := ih h
      exact ⟨x :: mid, e, tail, rfl, by rw [settles_cons, hx, hmid]; rfl, hend⟩

/-- Up to the end of the batch the scan installs what is outside it. -/
theorem installOrder_open (staged : List Scanned) {mid : List Scanned} (h : settles Scanned.record mid = false) :
    installOrder staged mid = mid.filter (fun y => !y.record.batch) ∧
      stagedAfter staged mid = staged ++ mid.filter (fun y => y.record.batch) := by
  induction mid generalizing staged with
  | nil => exact ⟨rfl, (List.append_nil _).symm⟩
  | cons x rest ih =>
    rw [settles_cons, Bool.or_eq_false_iff] at h
    obtain ⟨hx, hrest⟩ := h
    rw [installOrder, stagedAfter]
    cases hb : x.record.batch with
    | false => simp [ih staged hrest, hb]
    | true =>
      have he : x.record.batchEnd = false := by simpa [hb] using hx
      simp [ih (staged ++ [x]) hrest, hb, he]

/-! ### Where the two orders agree -/

/-- The scan takes the record, and before any repetition of its number: it is outside a
batch, or ends one, or the end of its batch follows before any record outside a batch
repeats its number. -/
def TakenFirst (r : Record) (after : List Record) : Prop :=
  r.batch = true → r.batchEnd = false → ∃ mid e tail, after = mid ++ e :: tail ∧ e.batch = true ∧ e.batchEnd = true ∧
    ∀ y ∈ mid, y.batch = false → y.key = r.key → y.seq ≠ r.seq

/-- **The scan takes the first of the newest records of every key.** -/
def Faithful (rs : List Record) : Prop :=
  ∀ before r after, rs = before ++ r :: after → (∀ y ∈ before, y.key = r.key → y.seq < r.seq) →
    (∀ y ∈ after, y.key = r.key → y.seq ≤ r.seq) → TakenFirst r after

/-- The positions of a scan ascend. -/
theorem layout_ascending [Checksum] (pos : Nat) (rs : List Record) :
    (layout pos rs).Pairwise (fun x y => x.pos < y.pos) ∧ ∀ x ∈ layout pos rs, pos ≤ x.pos := by
  induction rs generalizing pos with
  | nil => exact ⟨.nil, fun _ hx => absurd hx List.not_mem_nil⟩
  | cons r rest ih =>
    obtain ⟨hasc, hge⟩ := ih (pos + r.encode.length)
    have hpos := r.encode_pos
    refine ⟨List.pairwise_cons.mpr ⟨fun y hy => ?_, hasc⟩, fun x hx => ?_⟩
    · have := hge y hy
      show pos < y.pos
      omega
    · rcases List.mem_cons.mp hx with rfl | hx
      · exact le_rfl
      · have := hge x hx
        omega

section Orders
variable {id : Nat} {xs before after : List Scanned} {x : Scanned}

/-- A list of offers, split at an offer that is a scanned record's own. -/
theorem Leads.split {k : Bytes} {e : Entry} (h : Leads (xs.map (Scanned.offer id)) k e) :
    ∃ before x after, xs = before ++ x :: after ∧ x.record.key = k ∧ x.entry id = e ∧
      (∀ y ∈ before, y.record.key = k → y.record.seq < e.seq) ∧ ∀ y ∈ after, y.record.key = k →
        y.record.seq ≤ e.seq := by
  obtain ⟨bs, as, heq, hb, ha⟩ := h
  obtain ⟨before, rest, rfl, rfl, hrest⟩ := List.map_eq_append_iff.mp heq
  obtain ⟨x, after, rfl, hx, rfl⟩ := List.map_eq_cons_iff.mp hrest
  cases hx
  exact ⟨before, x, after, rfl, rfl, rfl, fun y hy => hb _ (List.mem_map_of_mem hy),
    fun y hy => ha _ (List.mem_map_of_mem hy)⟩

theorem leads_of_split (hb : ∀ y ∈ before, y.record.key = x.record.key → y.record.seq < x.record.seq)
    (ha : ∀ y ∈ after, y.record.key = x.record.key → y.record.seq ≤ x.record.seq) :
    Leads ((before ++ x :: after).map (Scanned.offer id)) x.record.key (x.entry id) := by
  refine ⟨before.map (Scanned.offer id), after.map (Scanned.offer id), by rw [List.map_append]; rfl, ?_, ?_⟩
  · intro y hy
    obtain ⟨z, hz, rfl⟩ := List.mem_map.mp hy
    exact hb z hz
  · intro y hy
    obtain ⟨z, hz, rfl⟩ := List.mem_map.mp hy
    exact ha z hz

/-- **The scan installs the first newest record first** exactly if it keeps it. -/
theorem leads_installOrder (hpos : (before ++ x :: after).Pairwise fun y z => y.pos < z.pos)
    (hb : ∀ y ∈ before, y.record.key = x.record.key → y.record.seq < x.record.seq)
    (ha : ∀ y ∈ after, y.record.key = x.record.key → y.record.seq ≤ x.record.seq) :
    Leads ((installOrder [] (before ++ x :: after)).map (Scanned.offer id)) x.record.key (x.entry id) ↔
      TakenFirst x.record (after.map Scanned.record) := by
  have hdone : ∀ y ∈ installOrder [] before, y ∈ before := fun y hy =>
    (mem_installOrder hy).resolve_left List.not_mem_nil
  have hstaged : ∀ y ∈ stagedAfter [] before, y ∈ before := fun y hy =>
    (mem_stagedAfter hy).resolve_left List.not_mem_nil
  rw [installOrder_append, installOrder]
  cases hbatch : x.record.batch with
  | false =>
    refine iff_of_true ?_ fun hx => absurd hx (by rw [hbatch]; exact Bool.false_ne_true)
    simp only [Bool.false_eq_true, if_false]
    refine leads_of_split (fun y hy => hb y (hdone y hy)) fun y hy hk => ?_
    rcases mem_installOrder hy with hy | hy
    · exact UInt64.le_of_lt (hb y (hstaged y hy) hk)
    · exact ha y hy hk
  | true =>
    cases hend : x.record.batchEnd with
    | true =>
      refine iff_of_true ?_ fun _ hx => absurd hx (by rw [hend]; exact nofun)
      simp only [if_true]
      rw [← List.append_assoc]
      refine leads_of_split (fun y hy => ?_) fun y hy => ha y ((mem_installOrder hy).resolve_left List.not_mem_nil)
      rcases List.mem_append.mp hy with hy | hy
      · exact hb y (hdone y hy)
      · exact hb y (hstaged y hy)
    | false =>
      simp only [if_true, Bool.false_eq_true, if_false]
      -- No other record stands where `x` does.
      have hnot : x ∉ before ∧ x ∉ after := by
        obtain ⟨-, hafter, hcross⟩ := List.pairwise_append.mp hpos
        exact ⟨fun hx => lt_irrefl _ (hcross x hx x (List.mem_cons_self ..)),
          fun hx => lt_irrefl _ ((List.pairwise_cons.mp hafter).1 x hx)⟩
      have hsame {y : Scanned} (hy : y ∈ before ∨ y ∈ after) : y.pos ≠ x.pos := by
        obtain ⟨-, hafter, hcross⟩ := List.pairwise_append.mp hpos
        rcases hy with hy | hy
        · exact (hcross y hy x (List.mem_cons_self ..)).ne
        · exact ((List.pairwise_cons.mp hafter).1 y hy).ne'
      cases hs : settles Scanned.record after with
      | false =>
        refine iff_of_false (fun h => ?_) fun h => ?_
        · rw [(installOrder_open _ hs).1] at h
          obtain ⟨bs, z, as, heq, -, he, -⟩ := h.split
          have hz : z ∈ before ∨ z ∈ after := by
            have hz : z ∈ installOrder [] before ++ after.filter fun y => !y.record.batch := by
              rw [heq]
              exact List.mem_append_right _ (List.mem_cons_self ..)
            exact (List.mem_append.mp hz).imp (hdone z) List.mem_of_mem_filter
          exact hsame hz (congrArg Entry.pos he)
        · obtain ⟨mid, e, tail, heq, heb, hee, -⟩ := h hbatch hend
          have : settles (fun r : Record => r) (after.map Scanned.record) = true := by
            rw [heq, settles_append, settles_cons]
            simp [heb, hee]
          rw [settles, List.any_map] at this
          rw [settles] at hs
          exact Bool.false_ne_true (hs.symm.trans this)
      | true =>
        obtain ⟨mid, e, tail, rfl, hmid, heb, hee⟩ := settles_split hs
        have horder : installOrder (stagedAfter [] before ++ [x]) (mid ++ e :: tail) =
            mid.filter (fun y => !y.record.batch) ++ (stagedAfter [] before ++
              x :: (mid.filter (fun y => y.record.batch) ++ e :: installOrder [] tail)) := by
          rw [installOrder_append, (installOrder_open _ hmid).1, (installOrder_open _ hmid).2, installOrder]
          simp [heb, hee]
        have hmem : ∀ y ∈ mid.filter (fun y => y.record.batch) ++ e :: installOrder [] tail, y ∈ mid ++ e :: tail := by
          intro y hy
          rcases List.mem_append.mp hy with hy | hy
          · exact List.mem_append_left _ (List.mem_of_mem_filter hy)
          · rcases List.mem_cons.mp hy with rfl | hy
            · exact List.mem_append_right _ (List.mem_cons_self ..)
            · exact List.mem_append_right _ (List.mem_cons_of_mem _
                ((mem_installOrder hy).resolve_left List.not_mem_nil))
        rw [horder, ← List.append_assoc, ← List.append_assoc]
        set front := installOrder [] before ++ mid.filter (fun y => !y.record.batch) ++ stagedAfter
          [] before with hfront
        have hfrontMem {y : Scanned} (hy : y ∈ front) :
            y ∈ before ∨ y ∈ mid ∧ y.record.batch = false := by
          rcases List.mem_append.mp hy with hy | hy
          · rcases List.mem_append.mp hy with hy | hy
            · exact .inl (hdone y hy)
            · obtain ⟨hy, hf⟩ := List.mem_filter.mp hy
              exact .inr ⟨hy, by simpa using hf⟩
          · exact .inl (hstaged y hy)
        constructor
        · intro h _ _
          refine ⟨mid.map Scanned.record, e.record, tail.map Scanned.record, by simp, heb, hee, ?_⟩
          intro r hr hyb hk hseq
          obtain ⟨y, hy, rfl⟩ := List.mem_map.mp hr
          obtain ⟨bs, z, as, heq, -, he, hbs, -⟩ := h.split
          -- The two splits are at the same record.
          have hz : z = x := by
            have hzmem : z ∈ front ++ x :: (mid.filter (fun y => y.record.batch) ++ e :: installOrder [] tail) := by
              rw [heq]
              exact List.mem_append_right _ (List.mem_cons_self ..)
            rcases List.mem_append.mp hzmem with hz | hz
            · exact absurd (congrArg Entry.pos he)
                (hsame ((hfrontMem hz).imp_right fun hm => List.mem_append_left _ hm.1))
            · rcases List.mem_cons.mp hz with hz | hz
              · exact hz
              · exact absurd (congrArg Entry.pos he) (hsame (.inr (hmem z hz)))
          subst hz
          have hzfront : z ∉ front := fun hm => by
            rcases hfrontMem hm with hm | ⟨hm, -⟩
            · exact hnot.1 hm
            · exact hnot.2 (List.mem_append_left _ hm)
          obtain ⟨rfl, -⟩ := (List.append_cons_inj_of_notMem hzfront fun hm => hnot.2 (hmem z hm)).mp heq
          have hyfront : y ∈ front := by
            rw [hfront]
            exact List.mem_append_left _ (List.mem_append_right _ (List.mem_filter.mpr ⟨hy, by simp [hyb]⟩))
          have := hbs y hyfront hk
          rw [hseq] at this
          exact UInt64.lt_irrefl _ this
        · intro h
          obtain ⟨mid', e', tail', heq, heb', hee', hfree⟩ := h hbatch hend
          refine leads_of_split (fun y hy hk => ?_) fun y hy hk => ha y (hmem y hy) hk
          rcases hfrontMem hy with hy | ⟨hy, hyb⟩
          · exact hb y hy hk
          · -- `mid` ends no batch, so it is a beginning of `mid'`.
            have hy' : y.record ∈ mid' := by
              rw [List.map_append, List.map_cons] at heq
              rcases List.append_eq_append_iff.mp heq with ⟨as, rfl, -⟩ | ⟨bs, hbs, htail⟩
              · exact List.mem_append_left _ (List.mem_map_of_mem hy)
              · cases bs with
                | nil =>
                  rw [List.append_nil] at hbs
                  rw [← hbs]
                  exact List.mem_map_of_mem hy
                | cons b bs =>
                  have hend' : b = e' := (List.cons_eq_cons.mp htail.symm).1
                  have hin : e' ∈ mid.map Scanned.record := by
                    rw [hbs, hend']
                    exact List.mem_append_right _ (List.mem_cons_self ..)
                  obtain ⟨z, hz, rfl⟩ := List.mem_map.mp hin
                  have := List.any_eq_false.mp hmid z hz
                  simp [heb', hee'] at this
            refine UInt64.lt_of_le_of_ne (ha y (List.mem_append_left _ hy) hk) ?_
            exact hfree y.record hy' hyb hk

end Orders

/-! ### The two replays of a file -/

/-- Both orders lead with the same records exactly if the scan keeps the first newest
record of every key. -/
theorem leads_congr_iff (id : Nat) {xs : List Scanned} (hpos : xs.Pairwise fun y z => y.pos < z.pos) :
    (∀ k e, Leads (xs.map (Scanned.offer id)) k e ↔ Leads ((installOrder [] xs).map (Scanned.offer id)) k e) ↔
      Faithful (xs.map Scanned.record) := by
  constructor
  · intro h before r after heq hb ha
    obtain ⟨bs, rest, rfl, rfl, hrest⟩ := List.map_eq_append_iff.mp heq
    obtain ⟨x, as, rfl, rfl, rfl⟩ := List.map_eq_cons_iff.mp hrest
    have hb' : ∀ y ∈ bs, y.record.key = x.record.key → y.record.seq < x.record.seq :=
      fun y hy => hb _ (List.mem_map_of_mem hy)
    have ha' : ∀ y ∈ as, y.record.key = x.record.key → y.record.seq ≤ x.record.seq :=
      fun y hy => ha _ (List.mem_map_of_mem hy)
    exact (leads_installOrder hpos hb' ha').mp ((h _ _).mp (leads_of_split hb' ha'))
  · intro h k e
    have hforward {k : Bytes} {e : Entry} (hA : Leads (xs.map (Scanned.offer id)) k e) :
        Leads ((installOrder [] xs).map (Scanned.offer id)) k e := by
      obtain ⟨before, x, after, rfl, rfl, rfl, hb, ha⟩ := hA.split
      refine (leads_installOrder hpos hb ha).mpr (h (before.map Scanned.record) x.record (after.map Scanned.record)
        (by simp) ?_ ?_)
      · intro y hy
        obtain ⟨z, hz, rfl⟩ := List.mem_map.mp hy
        exact hb z hz
      · intro y hy
        obtain ⟨z, hz, rfl⟩ := List.mem_map.mp hy
        exact ha z hz
    refine ⟨hforward, fun hB => ?_⟩
    -- The key has a first newest record in file order, and the scan leads with it.
    have hmem : (k, e) ∈ xs.map (Scanned.offer id) := by
      obtain ⟨bs, x, as, heq, rfl, rfl, -⟩ := hB.split
      have hx : x ∈ installOrder [] xs := by
        rw [heq]
        exact List.mem_append_right _ (List.mem_cons_self ..)
      exact List.mem_map_of_mem ((mem_installOrder hx).resolve_left List.not_mem_nil)
    obtain ⟨e', he', -⟩ := Index.covers_installAll (∅ : Index) _ (.inl hmem)
    have hlead := hforward (leads_iff.mp he')
    rw [Option.some.inj ((leads_iff.mpr hB).symm.trans (leads_iff.mpr hlead))]
    exact leads_iff.mp he'

theorem Grouped.faithful {rs : List Record} (h : Grouped rs) : Faithful rs := by
  intro before r after heq hbefore hafter hb he
  clear hbefore hafter
  induction h generalizing before with
  | nil => simp at heq
  | @cons g rest hg _ ih =>
    rcases List.append_eq_append_iff.mp heq with ⟨as, rfl, hrest⟩ | ⟨bs, hg', hrest⟩
    · exact ih as hrest
    · cases bs with
      | nil => exact ih [] hrest.symm
      | cons b bs =>
        obtain ⟨rfl, hafter⟩ := List.cons_eq_cons.mp hrest
        obtain ⟨body, e, rfl, hopen, hlast⟩ := hg
        rcases bs.eq_nil_or_concat' with rfl | ⟨init, last, rfl⟩
        · -- The record closes its group.
          obtain ⟨-, hr⟩ := List.append_inj' hg' rfl
          cases hr
          rcases hlast with ⟨-, hend⟩ | ⟨-, hbatch⟩
          · exact absurd (he.symm.trans hend) Bool.false_ne_true
          · exact absurd (hbatch.symm.trans hb) Bool.false_ne_true
        · rw [← List.cons_append, ← List.append_assoc] at hg'
          obtain ⟨rfl, hr⟩ := List.append_inj' hg' rfl
          cases hr
          rcases hlast with ⟨hbatch, hend⟩ | ⟨hnil, -⟩
          · refine ⟨init, e, rest, hafter.trans (List.append_assoc ..), hbatch, hend, fun y hy hyb => ?_⟩
            have := (hopen y (List.mem_append_right _ (List.mem_cons_of_mem _ hy))).1
            exact absurd (hyb.symm.trans this) Bool.false_ne_true
          · simp at hnil

section Files
variable [Checksum] {s s' : Store}

/-- **The hint of a file and its scan** do the same to every index and every maximum
exactly if the scan keeps the first newest record of every key. -/
theorem replays_agree_iff (id : Nat) {b : Bytes} (hlen : b.length < 2 ^ 64) :
    (∀ keys m, replayHint id (buildHint id b) keys m =
      ((scanIntoIndex id b keys m).keys, (scanIntoIndex id b keys m).maxSeq, true)) ↔ Faithful (records b) := by
  have hpos : (scanFile b).1.Pairwise fun y z => y.pos < z.pos := by
    rw [(scanFile_spec b).1]
    exact (layout_ascending 0 _).1
  have hscan (keys : Index) (m : UInt64) : (scanIntoIndex id b keys m).keys =
      keys.installAll ((installOrder [] (scanFile b).1).map (Scanned.offer id)) := scan_keys id _ [] _ rfl
  have hmax (keys : Index) (m : UInt64) : (scanIntoIndex id b keys m).maxSeq = maxSeqAll m (records b) :=
    replay_maxSeq ..
  rw [records, ← leads_congr_iff id hpos, ← installAll_congr]
  constructor
  · intro h keys
    have := h keys 0
    rw [replayHint_buildHint id hlen, hscan] at this
    exact congrArg Prod.fst this
  · intro h keys m
    rw [replayHint_buildHint id hlen, hscan, hmax]
    exact congrArg (fun ks => (ks, maxSeqAll m (records b), true)) (h keys)

/-! ### The files of a store -/

/-- The calls that append to the log. -/
inductive Append where
  | put (now : Int64) (key value : Bytes)
  | batchPut (now : Int64) (keys values : List Bytes)
  | delete (now : Int64) (key : Bytes)
  | applyRaw (raw : Bytes)

def Store.append (s : Store) : Append → Store × Option Error
  | .put now key value => s.put now key value
  | .batchPut now keys values => s.batchPut now keys values
  | .delete now key => s.delete now key
  | .applyRaw raw =>
    match s.applyRaw raw with
    | (s, .ok _) => (s, none)
    | (s, .error e) => (s, some e)

/-- Replicated records come in whole batches. -/
def Append.Whole : Append → Prop
  | .applyRaw raw => ∀ recs, parseRaw raw.length raw = .ok recs → Grouped recs
  | _ => True

/-- The records of a call start within the width of the offsets. -/
def Append.Narrow : Append → Prop
  | .batchPut now keys values => Addressable (Store.batchRecords now (keys.zip values))
  | .applyRaw raw => ∀ recs, parseRaw raw.length raw = .ok recs → Addressable recs
  | _ => True

/-- The counter has numbers for the records of a call. -/
def Append.Numbers (s : Store) : Append → Prop
  | .put _ _ _ => s.seq.toNat + 1 < 2 ^ 64
  | .batchPut _ keys _ => s.seq.toNat + keys.length < 2 ^ 64
  | .delete _ _ => s.seq.toNat + 1 < 2 ^ 64
  | .applyRaw _ => True

/-- What a call assigns, in order; `none` removes the key. -/
def Append.updates : Append → List (Bytes × Option Bytes)
  | .put _ key value => [(key, some value)]
  | .batchPut _ keys values => (keys.zip values).map fun x => (x.1, some x.2)
  | .delete _ key => [(key, none)]
  | .applyRaw _ => []

def appendMachine : Machine Append Store (Option Error) := ⟨Store.append⟩

/-- A client's write that takes its numbers from the counter. -/
structure Append.Numbered (s : Store) (a : Append) (op : Op) : Prop where
  valid : op.Valid
  isLocal : op.Local
  updates : op.updates = a.updates
  narrow : a.Narrow → Addressable op.records
  numbers : a.Numbers s → s.seq.toNat + op.records.length < 2 ^ 64
  append : s.append a = s.appendLocked op.records

/-- **What a call can do**: nothing, and then it had nothing to assign or reports an error;
append a client's records; append the records it was given. -/
theorem append_forms (s : Store) (a : Append) :
    ((s.append a).1 = s ∧ ((s.append a).2 = none → a.updates = [])) ∨ (∃ op, a.Numbered s op) ∨
      ∃ raw recs, a = .applyRaw raw ∧ parseRaw raw.length raw = .ok recs ∧
        s.append a = match s.writeLocked recs with
          | (s', some e) => (s', some e)
          | (s', none) => ({s' with seq := topSeq s'.seq recs}, none) := by
  have hrefused {a : Append} {e : Error} (h : s.append a = (s, some e)) :
      (s.append a).1 = s ∧ ((s.append a).2 = none → a.updates = []) := by
    rw [h]
    exact ⟨rfl, nofun⟩
  cases a with
  | put now key value =>
    cases hk : Store.validateKey key with
    | some e => exact .inl (hrefused (e := e) (by simp only [Store.append, Store.put, hk]))
    | none =>
      by_cases hv : maxValueSize < value.length
      · exact .inl (hrefused (e := .valueTooLong) (by simp only [Store.append, Store.put, hk, if_pos hv]))
      · by_cases hc : s.closed = true
        · exact .inl (hrefused (e := .closed) (by simp only [Store.append, Store.put, hk, if_neg hv, if_pos hc]))
        · refine .inr (.inl ⟨.put now key value, ⟨hk, not_lt.mp hv⟩, trivial, rfl,
            fun _ => addressable_single _, id, ?_⟩)
          simp only [Store.append, Store.put, hk, if_neg hv, if_neg hc]
          rfl
  | batchPut now keys values =>
    by_cases hlen : keys.length = values.length
    · by_cases hnil : keys.length = 0
      · have heq : s.append (.batchPut now keys values) = (s, none) := by
          simp only [Store.append, Store.batchPut, if_neg (not_not.mpr hlen), if_pos hnil]
        refine .inl ⟨congrArg Prod.fst heq, fun _ => ?_⟩
        rw [Append.updates, List.eq_nil_of_length_eq_zero hnil]
        rfl
      · cases hv : Store.validateBatch (keys.zip values) with
        | some e =>
          refine .inl (hrefused (e := e) ?_)
          simp only [Store.append, Store.batchPut, if_neg (not_not.mpr hlen), if_neg hnil, hv]
        | none =>
          by_cases hc : s.closed = true
          · refine .inl (hrefused (e := .closed) ?_)
            simp only [Store.append, Store.batchPut, if_neg (not_not.mpr hlen), if_neg hnil, hv, if_pos hc]
          · have hpairs : (keys.zip values).length = keys.length := by rw [List.length_zip, hlen, Nat.min_self]
            refine .inr (.inl ⟨.batchPut now keys values, ⟨hlen, hnil, hv⟩, trivial, rfl, id, fun h => ?_, ?_⟩)
            · rw [Op.records, length_batchRecords, hpairs]
              exact h
            · simp only [Store.append, Store.batchPut, if_neg (not_not.mpr hlen), if_neg hnil, hv, if_neg hc]
              rfl
    · exact .inl (hrefused (e := .batchLen) (by simp only [Store.append, Store.batchPut, if_pos hlen]))
  | delete now key =>
    cases hk : Store.validateKey key with
    | some e => exact .inl (hrefused (e := e) (by simp only [Store.append, Store.delete, hk]))
    | none =>
      by_cases hl : (!s.isLive key) = true
      · exact .inl (hrefused (e := .keyNotFound) (by simp only [Store.append, Store.delete, hk, if_pos hl]))
      · by_cases hc : s.closed = true
        · exact .inl (hrefused (e := .closed) (by simp only [Store.append, Store.delete, hk, if_neg hl, if_pos hc]))
        · refine .inr (.inl ⟨.delete now key, hk, trivial, rfl, fun _ => addressable_single _, id, ?_⟩)
          simp only [Store.append, Store.delete, hk, if_neg hl, if_neg hc]
          rfl
  | applyRaw raw =>
    cases hp : parseRaw raw.length raw with
    | error e => exact .inl (hrefused (e := e) (by simp only [Store.append, Store.applyRaw, hp]))
    | ok recs =>
      cases recs with
      | nil => exact .inl ⟨by simp only [Store.append, Store.applyRaw, hp], fun _ => rfl⟩
      | cons r rest =>
        by_cases hc : s.closed = true
        · exact .inl (hrefused (e := .closed) (by simp only [Store.append, Store.applyRaw, hp, if_pos hc]))
        · refine .inr (.inr ⟨raw, r :: rest, rfl, hp, ?_⟩)
          simp only [Store.append, Store.applyRaw, hp, if_neg hc]
          cases hw : s.writeLocked (r :: rest) with
          | mk s' err => cases err <;> rfl

/-- Numbers apart, a call leaves the store alone or writes sized records. -/
theorem append_cases (s : Store) (a : Append) : (s.append a).1 = s ∨ ∃ recs q q', (∀ r ∈ recs, r.Sized) ∧
    (a.Whole → Grouped recs) ∧ (a.Narrow → Addressable recs) ∧
    (s.append a).1 = {(Store.writeLocked {s with seq := q} recs).1 with seq := q'} := by
  rcases append_forms s a with ⟨heq, -⟩ | ⟨op, hop⟩ | ⟨raw, recs, rfl, hp, heq⟩
  · exact .inl heq
  · refine .inr ⟨Store.assignSeqs s.seq op.records, s.seq + UInt64.ofNat op.records.length,
      (s.appendLocked op.records).1.seq, sized_assignSeqs hop.valid.sized,
      fun _ => (isGroup_assignSeqs hop.valid.isGroup).grouped, fun h => addressable_assignSeqs (hop.narrow h), ?_⟩
    rw [hop.append]
    rfl
  · refine .inr ⟨recs, s.seq, ?_⟩
    show ∃ q', _ ∧ _ ∧ _ ∧ _ = ({(s.writeLocked recs).1 with seq := q'} : Store)
    rw [heq]
    cases s.writeLocked recs with
    | mk s' err =>
      cases err with
      | some e => exact ⟨s'.seq, (parseRaw_ok hp).2, fun h => h _ hp, fun h => h _ hp, rfl⟩
      | none => exact ⟨_, (parseRaw_ok hp).2, fun h => h _ hp, fun h => h _ hp, rfl⟩

theorem Unbroken.grown (h : Unbroken s) (hp : Poised s) {recs : List Record} (hg : Grown s s' recs)
    (hs : ∀ r ∈ recs, r.Sized) (hrecs : Grouped recs) : Unbroken s' := by
  intro i b hb
  rw [hg.bytes] at hb
  rcases update_some hb with ⟨rfl, rfl⟩ | ⟨-, hb⟩
  · rw [(hg.intact hp).records_append recs hs]
    refine Grouped.append ?_ hrecs
    cases hc : s.dir.bytes s'.active.id with
    | none => exact .nil
    | some c => exact h _ c hc
  · exact h i b hb

/-- **Whole batches make unbroken files**, call by call. -/
theorem Poised.append (h : Poised s ∧ Unbroken s) {a : Append} (ha : a.Whole) :
    Poised (s.append a).1 ∧ Unbroken (s.append a).1 := by
  obtain ⟨hp, hu⟩ := h
  rcases append_cases s a with heq | ⟨recs, q, q', hs, hrecs, -, heq⟩
  · rw [heq]
    exact ⟨hp, hu⟩
  · have hq : Poised {s with seq := q} := hp.same rfl rfl rfl
    rw [heq]
    rcases hq.writeLocked hs with ⟨s', hw, hp', hg, -⟩ | ⟨s', hw, hp', hst⟩
    · rw [hw]
      have hu' : Unbroken s' := Unbroken.grown (s := {s with seq := q}) hu hq hg hs (hrecs ha)
      exact ⟨hp'.same rfl rfl rfl, hu'⟩
    · rw [hw]
      refine ⟨hp'.same rfl rfl rfl, fun i b hb => hu i b ?_⟩
      have : s'.dir.bytes i = some b := hb
      rwa [hst.bytes] at this

theorem poised_init (opts : Options) : Poised (Store.init opts) := by
  have hwf := (quiet_init opts).1.inv.toWf
  obtain ⟨b, hb, hsize, hi, -⟩ := hwf.active
  exact ⟨⟨b, hb, hsize, hi⟩, hwf.files⟩

/-- **A hint is worth a scan.** Whatever a store has been made to append, the replay of a
data file's hint and its scan do the same to every index and every maximum exactly if the
scan keeps the first newest record of every key; and if replicated records came in whole
batches, that is so for every file. -/
theorem hint_or_scan (opts : Options) (calls : List Append) (id : Nat) (b : Bytes)
    (hfile : (appendMachine.run (Store.init opts) calls).1.dir.bytes id = some b) (hlen : b.length < 2 ^ 64) :
    ((∀ keys m, replayHint id (buildHint id b) keys m =
      ((scanIntoIndex id b keys m).keys, (scanIntoIndex id b keys m).maxSeq, true)) ↔ Faithful (records b)) ∧
      ((∀ a ∈ calls, a.Whole) → Faithful (records b)) := by
  refine ⟨replays_agree_iff id hlen, fun hwhole => ?_⟩
  have hmeets : appendMachine.Meets (fun _ a => a.Whole) (Store.init opts) calls :=
    Machine.meets_of_forall fun a ha _ => hwhole a ha
  have hrun := hmeets.invariant (P := fun s => Poised s ∧ Unbroken s) (fun s a h ha => Poised.append h ha)
    ⟨poised_init opts, unbroken_init opts⟩
  exact (hrun.2 id b hfile).faithful

end Files

/-- A batch of two arrives whole and is replayed the same either way. -/
theorem hint_or_scan_batch : ∃ b, (appendMachine.run (Store.init ⟨0, .never⟩)
      [.batchPut 0 [[1], [2]] [[7], [8]]]).1.dir.bytes 0 = some b ∧
    ∀ keys m, replayHint 0 (buildHint 0 b) keys m =
      ((scanIntoIndex 0 b keys m).keys, (scanIntoIndex 0 b keys m).maxSeq, true) := by
  have hfile : (appendMachine.run (Store.init ⟨0, .never⟩) [.batchPut 0 [[1], [2]] [[7], [8]]]).1.dir.bytes 0 =
      some (encodeAll [⟨0, 1, flagBatch, [1], [7]⟩, ⟨0, 2, flagBatch ||| flagBatchEnd, [2], [8]⟩]) := by
    decide +kernel
  obtain ⟨hiff, hwhole⟩ := hint_or_scan ⟨0, .never⟩ [.batchPut 0 [[1], [2]] [[7], [8]]] 0 _ hfile (by decide +kernel)
  refine ⟨_, hfile, ?_⟩
  refine hiff.mpr (hwhole fun a ha => ?_)
  rw [List.mem_singleton.mp ha]
  trivial

/-- **One member of a batch arrives.** The hint of its file lists it and the scan drops
it: the empty index gets the key from the one and not from the other. -/
theorem hint_lists_lone_member : ∃ b, (appendMachine.run (Store.init ⟨0, .never⟩)
      [.applyRaw (Record.encode ⟨0, 1, flagBatch, [1], [7]⟩)]).1.dir.bytes 0 = some b ∧
    [1] ∈ (replayHint 0 (buildHint 0 b) ∅ 0).1 ∧ [1] ∉ (scanIntoIndex 0 b ∅ 0).keys :=
  ⟨Record.encode ⟨0, 1, flagBatch, [1], [7]⟩, by decide +kernel, by decide +kernel, by decide +kernel⟩

end Gokv.Engine
