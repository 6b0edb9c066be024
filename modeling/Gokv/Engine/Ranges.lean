import Gokv.Engine.Range
import Gokv.Engine.Source
import Gokv.Engine.Refinement

/-! What a range read reports.

A pass under the lock takes the nodes ahead of the cursor up to one of three stops: the end
of the range, a full chunk, or a long run of nodes (`collect_spec`). The passes follow each
other without a gap, so on a store that is left alone a scan comes to the same as reading all
live entries of the range in one go (`scan_eq`), wherever the stops fall. It reports the
pairs of the range, in order and cut to the limit, exactly if their records can be read
(`scan_reports`). -/
namespace Gokv.Engine
open Base

/-- The key does not lie behind the range. -/
def Within (endKey key : Bytes) : Prop := endKey = [] ∨ compare endKey key ≠ .lt

instance (endKey key : Bytes) : Decidable (Within endKey key) := inferInstanceAs (Decidable (_ ∨ _))

/-- In a list sorted by key, no key stands twice and what follows is higher. -/
abbrev KeysAscend (xs : List (Bytes × Entry)) : Prop := xs.Pairwise fun x y => compare x.1 y.1 = .lt

/-- The first `limit` of a list, all of it if there is no limit. -/
def cut {α : Type*} (limit : Int) (xs : List α) : List α := if 0 < limit then xs.take limit.toNat else xs

namespace Store

/-- The nodes ahead of a cursor. -/
def ahead (s : Store) (cursor : Bytes) (exclusive : Bool) : List (Bytes × Entry) :=
  s.keys.toList.filter fun x => if exclusive then compare cursor x.1 = .lt else compare x.1 cursor ≠ .lt

/-- The live entries of a range, in order. -/
def range (s : Store) (start endKey : Bytes) : List (Bytes × Entry) :=
  s.keys.toList.filter fun x => compare x.1 start ≠ .lt ∧ Within endKey x.1 ∧ x.2.tomb = false

end Store

/-! ### One pass -/

theorem within_mono {endKey j k : Bytes} (h : Within endKey k) (hlt : compare j k = .lt) : Within endKey j :=
  h.imp_right fun hk he => hk (Std.TransCmp.lt_trans he hlt)

/-- What a pass over the nodes `xs` makes of a chunk: it has looked at `pre`. -/
structure Collected (endKey : Bytes) (xs pre post : List (Bytes × Entry)) (c c' : Chunk) : Prop where
  split : xs = pre ++ post
  within : ∀ x ∈ pre, Within endKey x.1
  refs : c'.refs = c.refs ++ pre.filter fun x => x.2.tomb = false
  examined : c'.examined = c.examined + pre.length
  cursor : pre = [] ∧ c'.cursor = c.cursor ∧ c'.exclusive = c.exclusive ∨
    ∃ init x, pre = init ++ [x] ∧ c'.cursor = x.1 ∧ c'.exclusive = true
  stop : c'.atEnd = true → ∀ x ∈ post, ¬ Within endKey x.1
  more : c'.atEnd = false → post = [] ∨ pre ≠ []

theorem Chunk.push_refs (c : Chunk) (x : Bytes × Entry) :
    (c.push x).refs = c.refs ++ [x].filter fun y => y.2.tomb = false := by
  cases ht : x.2.tomb <;> simp [Chunk.push, ht]

theorem collect_spec (endKey : Bytes) {xs : List (Bytes × Entry)} {c : Chunk} (hsorted : KeysAscend xs)
    (hclear : ∀ x ∈ xs, ¬ (c.exclusive = true ∧ x.1 = c.cursor)) (hopen : c.atEnd = false) :
    ∃ pre post, Collected endKey xs pre post c (Store.collect endKey xs c) := by
  induction xs generalizing c with
  | nil =>
    exact ⟨[], [], rfl, fun _ hx => absurd hx List.not_mem_nil, by simp [Store.collect], by simp [Store.collect],
      .inl ⟨rfl, rfl, rfl⟩, fun _ _ hx => absurd hx List.not_mem_nil, fun _ => .inl rfl⟩
  | cons x rest ih =>
    obtain ⟨hx, hrest⟩ := List.pairwise_cons.mp hsorted
    rw [Store.collect, if_neg (hclear x (List.mem_cons_self ..))]
    by_cases hend : endKey ≠ [] ∧ compare endKey x.1 = .lt
    · rw [if_pos hend]
      have hout : ¬ Within endKey x.1 := fun h => h.elim hend.1 fun hle => hle hend.2
      refine ⟨[], x :: rest, rfl, fun _ hy => absurd hy List.not_mem_nil, by simp, by simp, .inl ⟨rfl, rfl, rfl⟩,
        fun _ y hy => ?_, (by rintro ⟨⟩)⟩
      rcases List.mem_cons.mp hy with rfl | hy
      · exact hout
      · exact fun h => hout (within_mono h (hx y hy))
    · rw [if_neg hend]
      have hin : Within endKey x.1 := by
        by_cases hnil : endKey = []
        · exact .inl hnil
        · exact .inr fun hlt => hend ⟨hnil, hlt⟩
      by_cases hfull : (c.push x).refs.length = scanChunk ∨ (c.push x).examined = scanChunk * 8
      · rw [if_pos hfull]
        refine ⟨[x], rest, rfl, fun y hy => List.mem_singleton.mp hy ▸ hin, c.push_refs x, rfl,
          .inr ⟨[], x, rfl, rfl, rfl⟩, fun hat => ?_, fun _ => .inr (List.cons_ne_nil _ _)⟩
        rw [show (c.push x).atEnd = c.atEnd from rfl, hopen] at hat
        cases hat
      · rw [if_neg hfull]
        have hclear' : ∀ y ∈ rest, ¬ ((c.push x).exclusive = true ∧ y.1 = (c.push x).cursor) := by
          rintro y hy ⟨-, heq⟩
          have hlt := hx y hy
          rw [show y.1 = x.1 from heq] at hlt
          have hself : compare x.1 x.1 = .eq := Std.ReflCmp.compare_self
          exact absurd (hself.symm.trans hlt) (by decide)
        obtain ⟨pre, post, h⟩ := ih hrest hclear' hopen
        refine ⟨x :: pre, post, by rw [h.split]; rfl, fun y hy => ?_, ?_, ?_, .inr ?_, h.stop,
          fun _ => .inr (List.cons_ne_nil _ _)⟩
        · rcases List.mem_cons.mp hy with rfl | hy
          · exact hin
          · exact h.within y hy
        · rw [h.refs, c.push_refs x, List.append_assoc, ← List.filter_append]
          rfl
        · rw [h.examined, List.length_cons]
          show c.examined + 1 + pre.length = _
          omega
        · rcases h.cursor with ⟨rfl, hcur, hex⟩ | ⟨init, y, rfl, hcur, hex⟩
          · exact ⟨[], x, rfl, hcur, hex⟩
          · exact ⟨x :: init, y, rfl, hcur, hex⟩

section Walk
variable {s : Store} {cursor endKey : Bytes}

theorem keysAscend_toList (s : Store) : KeysAscend s.keys.toList := Std.ExtTreeMap.ordered_keys_toList

/-- Dropping what satisfies a condition that is lost for good. -/
theorem dropWhile_eq_filter {α : Type*} {p : α → Bool} {xs : List α}
    (h : xs.Pairwise fun a b => p b = true → p a = true) : xs.dropWhile p = xs.filter fun a => !p a := by
  induction xs with
  | nil => rfl
  | cons x rest ih =>
    obtain ⟨hx, hrest⟩ := List.pairwise_cons.mp h
    cases hp : p x with
    | true => rw [List.dropWhile_cons_of_pos hp, ih hrest, List.filter_cons_of_neg (by simp [hp])]
    | false =>
      have hkeep : rest.filter (fun a => !p a) = rest := List.filter_eq_self.mpr fun a ha => by
        cases hpa : p a with
        | false => rfl
        | true => exact absurd (hx a ha hpa) (by simp [hp])
      rw [List.dropWhile_cons_of_neg (by simp [hp]), List.filter_cons_of_pos (by simp [hp]), hkeep]

theorem seek_eq (s : Store) (cursor : Bytes) : s.seek cursor = s.ahead cursor false := by
  rw [Store.seek, dropWhile_eq_filter, Store.ahead]
  · simp
  · refine (keysAscend_toList s).imp fun hlt hb => ?_
    exact decide_eq_true (Std.TransCmp.lt_trans hlt (of_decide_eq_true hb))

/-- What is ahead of a cursor ends the order. -/
theorem ahead_suffix (s : Store) (cursor : Bytes) (exclusive : Bool) :
    s.ahead cursor exclusive <:+ s.keys.toList := by
  cases exclusive with
  | false =>
    rw [← seek_eq]
    exact List.dropWhile_suffix _
  | true =>
    have hdrop : s.ahead cursor true = s.keys.toList.dropWhile fun x => compare cursor x.1 ≠ .lt := by
      rw [dropWhile_eq_filter, Store.ahead]
      · simp
      · refine (keysAscend_toList s).imp fun hlt hb => ?_
        simp only [ne_eq, decide_eq_true_eq] at hb ⊢
        exact fun ha => hb (Std.TransCmp.lt_trans ha hlt)
    rw [hdrop]
    exact List.dropWhile_suffix _

/-- A pass from the cursor on looks at what is ahead. -/
theorem collect_seek (s : Store) (cursor endKey : Bytes) (exclusive : Bool) :
    Store.collect endKey (s.seek cursor) ⟨[], cursor, exclusive, 0, false⟩ =
      Store.collect endKey (s.ahead cursor exclusive) ⟨[], cursor, exclusive, 0, false⟩ := by
  rw [seek_eq]
  cases exclusive with
  | false => rfl
  | true =>
    have hsub : s.ahead cursor true = (s.ahead cursor false).filter fun x => compare cursor x.1 = .lt := by
      rw [Store.ahead, Store.ahead, List.filter_filter]
      refine List.filter_congr fun x _ => ?_
      by_cases hlt : compare cursor x.1 = .lt
      · simp [hlt, Std.OrientedCmp.gt_of_lt hlt]
      · simp [hlt]
    have hsorted : KeysAscend (s.ahead cursor false) := (keysAscend_toList s).sublist List.filter_sublist
    have hge : ∀ x ∈ s.ahead cursor false, compare x.1 cursor ≠ .lt := fun x hx => by
      simpa [Store.ahead] using (List.mem_filter.mp hx).2
    rw [hsub]
    cases hlist : s.ahead cursor false with
    | nil => rfl
    | cons x rest =>
      rw [hlist] at hsorted hge
      obtain ⟨hx, -⟩ := List.pairwise_cons.mp hsorted
      have hkeep (h : compare cursor x.1 ≠ .gt) :
          rest.filter (fun y => compare cursor y.1 = .lt) = rest := List.filter_eq_self.mpr fun y hy => by
        have hlt := hx y hy
        refine decide_eq_true ?_
        cases hc : compare cursor x.1 with
        | lt => exact Std.TransCmp.lt_trans hc hlt
        | eq => rwa [Std.LawfulEqCmp.eq_of_compare hc]
        | gt => exact absurd hc h
      by_cases heq : x.1 = cursor
      · have hself : compare cursor x.1 = .eq := by
          rw [heq]
          exact Std.ReflCmp.compare_self
        rw [List.filter_cons_of_neg (by simp [hself]), hkeep (by simp [hself]), Store.collect, if_pos ⟨rfl, heq⟩]
      · have hlt : compare cursor x.1 = .lt := by
          cases hc : compare cursor x.1 with
          | lt => rfl
          | eq => exact absurd (Std.LawfulEqCmp.eq_of_compare hc).symm heq
          | gt => exact absurd (Std.OrientedCmp.lt_of_gt hc) (hge x (List.mem_cons_self ..))
        rw [List.filter_cons_of_pos (by simp [hlt]), hkeep (by simp [hlt])]

/-- **One pass of a scan** over what is ahead of its cursor. -/
theorem pass_spec (s : Store) (cursor endKey : Bytes) (exclusive : Bool) :
    ∃ pre post, Collected endKey (s.ahead cursor exclusive) pre post ⟨[], cursor, exclusive, 0, false⟩
      (Store.collect endKey (s.seek cursor) ⟨[], cursor, exclusive, 0, false⟩) := by
  rw [collect_seek]
  refine collect_spec endKey ((keysAscend_toList s).sublist List.filter_sublist) (fun x hx => ?_) rfl
  rintro ⟨hex, heq⟩
  have hlt := (List.mem_filter.mp hx).2
  rw [show exclusive = true from hex, show x.1 = cursor from heq] at hlt
  simp at hlt

/-- The next pass takes up where this one stopped. -/
theorem ahead_next {exclusive : Bool} {init post : List (Bytes × Entry)} {x : Bytes × Entry}
    (h : s.ahead cursor exclusive = init ++ [x] ++ post) : s.ahead x.1 true = post := by
  obtain ⟨before, hbefore⟩ := ahead_suffix s cursor exclusive
  have hsplit : s.keys.toList = (before ++ init) ++ x :: post := by
    rw [← hbefore, h]
    simp
  have hsorted := keysAscend_toList s
  rw [hsplit] at hsorted
  rw [Store.ahead, hsplit]
  exact filter_behind hsorted

/-! ### All passes -/

variable [Checksum] {limit : Int}

theorem visit_append (s : Store) (limit : Int) (xs ys : List (Bytes × Entry)) (out : List (Bytes × Bytes)) :
    s.visit limit (xs ++ ys) out =
      match s.visit limit xs out with
      | (out, some r) => (out, some r)
      | (out, none) => s.visit limit ys out := by
  induction xs generalizing out with
  | nil => rfl
  | cons x rest ih =>
    rw [List.cons_append, Store.visit, Store.visit]
    cases s.readRef x with
    | error e => cases e <;> first | exact ih out | rfl
    | ok v =>
      by_cases hl : 0 < limit ∧ limit ≤ (out ++ [(x.1, v)]).length
      · simp only [if_pos hl]
      · simp only [if_neg hl, ih]

/-- What is left to report ahead of a cursor. -/
def Store.remaining (s : Store) (cursor endKey : Bytes) (exclusive : Bool) : List (Bytes × Entry) :=
  (s.ahead cursor exclusive).filter fun x => Within endKey x.1 ∧ x.2.tomb = false

/-- The passes of a scan, one after the other, come to one walk over what is ahead. -/
theorem scanLoop_eq (fuel : Nat) (cursor : Bytes) (exclusive : Bool) (out : List (Bytes × Bytes))
    (hf : (s.ahead cursor exclusive).length < fuel) :
    s.scanLoop endKey limit fuel cursor exclusive out =
      ((s.visit limit (s.remaining cursor endKey exclusive) out).1,
        (s.visit limit (s.remaining cursor endKey exclusive) out).2.join) := by
  induction fuel generalizing cursor exclusive out with
  | zero => exact absurd hf (Nat.not_lt_zero _)
  | succ fuel ih =>
    obtain ⟨pre, post, h⟩ := pass_spec s cursor endKey exclusive
    have hpre : pre.filter (fun x => Within endKey x.1 ∧ x.2.tomb = false) = pre.filter fun x => x.2.tomb = false :=
      List.filter_congr fun x hx => by simp [h.within x hx]
    have hpost (hout : ∀ x ∈ post, ¬ Within endKey x.1) :
        post.filter (fun x => Within endKey x.1 ∧ x.2.tomb = false) = [] :=
      List.filter_eq_nil_iff.mpr fun x hx => by simp [hout x hx]
    have hremaining : s.remaining cursor endKey exclusive = pre.filter (fun x => x.2.tomb = false) ++
        post.filter fun x => Within endKey x.1 ∧ x.2.tomb = false := by
      rw [Store.remaining, h.split, List.filter_append, hpre]
    rw [Store.scanLoop]
    generalize Store.collect endKey (s.seek cursor) ⟨[], cursor, exclusive, 0, false⟩ = c at h ⊢
    have hexamined : c.examined = pre.length := h.examined.trans (Nat.zero_add _)
    have hrefs : c.refs = pre.filter fun x => x.2.tomb = false := h.refs
    rcases h.cursor with ⟨rfl, -, -⟩ | ⟨init, x, rfl, hcur, hex⟩
    · have hnil : s.remaining cursor endKey exclusive = [] := by
        rw [hremaining, List.filter_nil, List.nil_append]
        cases hat : c.atEnd with
        | true => exact hpost (h.stop hat)
        | false => rw [(h.more hat).resolve_right (not_not.mpr rfl), List.filter_nil]
      rw [if_pos (show c.examined = 0 from hexamined), hnil]
      rfl
    · have hlen : post.length < fuel := by
        rw [h.split] at hf
        simp only [List.length_append, List.length_cons, List.length_nil] at hf
        omega
      have hnext := ahead_next h.split
      rw [if_neg (by rw [hexamined]; simp), hremaining, visit_append, hrefs]
      cases hv : s.visit limit ((init ++ [x]).filter fun x => x.2.tomb = false) out with
      | mk out' r =>
        cases r with
        | some r => rfl
        | none =>
          simp only
          cases hat : c.atEnd with
          | true =>
            rw [hpost (h.stop hat)]
            rfl
          | false =>
            have := ih x.1 true out' (by rw [hnext]; exact hlen)
            rw [Store.remaining, hnext] at this
            rw [hcur, hex]
            exact this

/-- **A scan reads the live entries of its range** in one go, wherever its passes stop. -/
theorem scan_eq (s : Store) (start endKey : Bytes) (limit : Int) :
    s.scan start endKey limit =
      ((s.visit limit (s.range start endKey) []).1, (s.visit limit (s.range start endKey) []).2.join) := by
  have hrange : s.range start endKey = s.remaining start endKey false := by
    rw [Store.range, Store.remaining, Store.ahead, List.filter_filter]
    refine List.filter_congr fun x _ => ?_
    simp only [Bool.false_eq_true, if_false, Bool.decide_and, Bool.and_comm, Bool.and_left_comm]
  rw [Store.scan]
  split
  case isTrue hend =>
    have hnil : s.range start endKey = [] := List.filter_eq_nil_iff.mpr fun x _ => by
      simp only [decide_eq_true_eq, not_and]
      rintro hge (hnil | hle) -
      · exact hend.1 hnil
      · refine hle ?_
        cases hc : compare start x.1 with
        | lt => exact Std.TransCmp.lt_trans hend.2 hc
        | eq => exact (Std.LawfulEqCmp.eq_of_compare hc) ▸ hend.2
        | gt => exact absurd (Std.OrientedCmp.lt_of_gt hc) hge
    rw [hnil]
    rfl
  case isFalse =>
    rw [hrange]
    refine scanLoop_eq _ start false [] ?_
    have hle := (ahead_suffix s start false).length_le
    rw [Std.ExtTreeMap.length_toList] at hle
    omega

/-! ### What is reported -/

omit [Checksum] in
theorem mem_range {start : Bytes} {k : Bytes} {e : Entry} :
    (k, e) ∈ s.range start endKey ↔ s.lookup k = some e ∧ compare k start ≠ .lt ∧ Within endKey k := by
  rw [Store.range, List.mem_filter, Std.ExtTreeMap.mem_toList_iff_getElem?_eq_some, lookup_eq_some]
  simp only [decide_eq_true_eq]
  tauto

/-- With no one else at work, going back to the index finds what was collected. -/
theorem readRef_eq {x : Bytes × Entry} (hx : s.lookup x.1 = some x.2) : s.readRef x = s.readValue x.2 := by
  rw [Store.readRef]
  cases hr : s.readValue x.2 with
  | ok v => rfl
  | error e =>
    cases e <;> first | rfl | skip
    rw [Store.reread, hx]
    exact hr

theorem visit_sublist (s : Store) (limit : Int) (refs : List (Bytes × Entry)) (out : List (Bytes × Bytes)) :
    ∃ more, (s.visit limit refs out).1 = out ++ more ∧ (more.map Prod.fst).Sublist (refs.map Prod.fst) := by
  induction refs generalizing out with
  | nil => exact ⟨[], (List.append_nil _).symm, .slnil⟩
  | cons x rest ih =>
    rw [Store.visit]
    have hskip : ∃ more, (s.visit limit rest out).1 = out ++ more ∧
        (more.map Prod.fst).Sublist ((x :: rest).map Prod.fst) := by
      obtain ⟨more, heq, hsub⟩ := ih out
      exact ⟨more, heq, hsub.cons _⟩
    cases s.readRef x with
    | error e => cases e <;> first | exact hskip | exact ⟨[], (List.append_nil _).symm, List.nil_sublist _⟩
    | ok v =>
      simp only
      split
      · exact ⟨[(x.1, v)], rfl, (List.nil_sublist _).cons_cons _⟩
      · obtain ⟨more, heq, hsub⟩ := ih (out ++ [(x.1, v)])
        exact ⟨(x.1, v) :: more, by rw [heq, List.append_assoc]; rfl, hsub.cons_cons _⟩

/-- The entries a walk takes that has reported `n` pairs. -/
def takes (limit : Int) (n : Nat) (xs : List (Bytes × Entry)) : List (Bytes × Entry) :=
  if 0 < limit then xs.take (limit.toNat - n) else xs

/-- A pair the store answers with. -/
def Store.Shows (s : Store) (p : Bytes × Bytes) : Prop := ∃ e, s.lookup p.1 = some e ∧ s.readValue e = .ok p.2

/-- **A walk over live entries** reports all it takes exactly if it can read them. -/
theorem visit_iff {refs : List (Bytes × Entry)} {out : List (Bytes × Bytes)}
    (hrefs : ∀ x ∈ refs, s.lookup x.1 = some x.2) (hsorted : KeysAscend refs)
    (hroom : 0 < limit → out.length < limit.toNat) :
    ((s.visit limit refs out).2.join = none ∧
        (s.visit limit refs out).1.map Prod.fst = out.map Prod.fst ++ (takes limit out.length refs).map Prod.fst ∧
        ∀ p ∈ (s.visit limit refs out).1, p ∈ out ∨ s.Shows p) ↔
      ∀ x ∈ takes limit out.length refs, ∃ v, s.readValue x.2 = .ok v := by
  induction refs generalizing out with
  | nil =>
    have hnil : takes limit out.length [] = [] := by simp [takes]
    rw [hnil]
    simp only [Store.visit, Option.join_none, List.map_nil, List.append_nil, true_and]
    exact ⟨fun _ _ hx => absurd hx List.not_mem_nil, fun _ _ hp => .inl hp⟩
  | cons x rest ih =>
    obtain ⟨hx, hrest⟩ := List.pairwise_cons.mp hsorted
    have hlook := hrefs x (List.mem_cons_self ..)
    have hcons : takes limit out.length (x :: rest) = x :: takes limit (out.length + 1) rest := by
      unfold takes
      split
      case isTrue hl =>
        have := hroom hl
        obtain ⟨m, hm⟩ : ∃ m, limit.toNat - out.length = m + 1 := ⟨limit.toNat - out.length - 1, by omega⟩
        rw [hm, List.take_succ_cons, show limit.toNat - (out.length + 1) = m by omega]
      case isFalse => rfl
    rw [hcons, Store.visit, readRef_eq hlook]
    cases hr : s.readValue x.2 with
    | error e =>
      -- The entry is passed over or ends the walk; either way it is missing.
      have hfalse : ¬ ∀ y ∈ x :: takes limit (out.length + 1) rest, ∃ v, s.readValue y.2 = .ok v := fun hall => by
        obtain ⟨v, hv⟩ := hall x (List.mem_cons_self ..)
        rw [hr] at hv
        cases hv
      have hskip : ¬ (s.visit limit rest out).1.map Prod.fst =
          out.map Prod.fst ++ (x :: takes limit (out.length + 1) rest).map Prod.fst := fun heq => by
        obtain ⟨more, hmore, hsub⟩ := visit_sublist s limit rest out
        rw [hmore, List.map_append] at heq
        have hmem : x.1 ∈ more.map Prod.fst := by
          rw [List.append_cancel_left heq]
          exact List.mem_cons_self ..
        obtain ⟨y, hy, heq⟩ := List.mem_map.mp (hsub.subset hmem)
        have hlt := hx y hy
        rw [heq] at hlt
        have hself : compare x.1 x.1 = .eq := Std.ReflCmp.compare_self
        exact absurd (hself.symm.trans hlt) (by decide)
      refine iff_of_false (fun h => ?_) hfalse
      cases e <;> first | exact hskip h.2.1 | exact absurd h.1 (by rintro ⟨⟩)
    | ok v =>
      have hshow : s.Shows (x.1, v) := ⟨x.2, hlook, hr⟩
      have hhead : (∀ y ∈ x :: takes limit (out.length + 1) rest, ∃ v, s.readValue y.2 = .ok v) ↔
          ∀ y ∈ takes limit (out.length + 1) rest, ∃ v, s.readValue y.2 = .ok v :=
        ⟨fun h y hy => h y (List.mem_cons_of_mem _ hy), fun h => List.forall_mem_cons.mpr ⟨⟨v, hr⟩, h⟩⟩
      have hlen : (out ++ [(x.1, v)]).length = out.length + 1 := by simp
      rw [hhead]
      by_cases hl : 0 < limit ∧ limit ≤ (out ++ [(x.1, v)]).length
      · have hnone : takes limit (out.length + 1) rest = [] := by
          rw [takes, if_pos hl.1, show limit.toNat - (out.length + 1) = 0 by omega, List.take_zero]
        simp only [if_pos hl, hnone, List.map_cons, List.map_nil, List.map_append, Option.join_some, true_and]
        refine iff_of_true (fun p hp => ?_) fun _ hy => absurd hy List.not_mem_nil
        rcases List.mem_append.mp hp with hp | hp
        · exact .inl hp
        · exact .inr (List.mem_singleton.mp hp ▸ hshow)
      · have hroom' : 0 < limit → (out ++ [(x.1, v)]).length < limit.toNat := fun hpos => by
          have := not_and.mp hl hpos
          omega
        have hih := ih (fun y hy => hrefs y (List.mem_cons_of_mem _ hy)) hrest hroom'
        rw [hlen] at hih
        rw [← hih]
        simp only [if_neg hl, List.map_append, List.map_cons, List.map_nil, List.append_assoc, List.cons_append,
          List.nil_append]
        refine and_congr_right fun _ => and_congr_right fun _ => forall₂_congr fun p _ => ?_
        constructor
        · rintro (hp | hp)
          · exact .inl (List.mem_append_left _ hp)
          · exact .inr hp
        · rintro (hp | hp)
          · rcases List.mem_append.mp hp with hp | hp
            · exact .inl hp
            · exact .inr (List.mem_singleton.mp hp ▸ hshow)
          · exact .inr hp

omit [Checksum] in
theorem keysAscend_range (s : Store) (start endKey : Bytes) : KeysAscend (s.range start endKey) :=
  (keysAscend_toList s).sublist List.filter_sublist

/-- A scan reports its range, cut to the limit, exactly if it can read what it takes. -/
theorem scan_iff (s : Store) (start endKey : Bytes) (limit : Int) :
    ((s.scan start endKey limit).2 = none ∧
        (s.scan start endKey limit).1.map Prod.fst = (cut limit (s.range start endKey)).map Prod.fst ∧
        ∀ p ∈ (s.scan start endKey limit).1, s.Shows p) ↔
      ∀ x ∈ cut limit (s.range start endKey), ∃ v, s.readValue x.2 = .ok v := by
  have hroom : 0 < limit → ([] : List (Bytes × Bytes)).length < limit.toNat := fun hpos => by
    rw [List.length_nil]
    omega
  have hwalk := visit_iff (fun x hx => (mem_range.mp hx).1) (keysAscend_range s start endKey) hroom
  have htakes : takes limit ([] : List (Bytes × Bytes)).length (s.range start endKey) =
      cut limit (s.range start endKey) := by
    rw [takes, cut, List.length_nil, Nat.sub_zero]
  rw [htakes] at hwalk
  rw [scan_eq, ← hwalk]
  simp only [List.map_nil, List.nil_append, List.not_mem_nil, false_or]

/-- **What a range read reports.** The live entries of the range stand in ascending order,
every one once. A scan with no one else at work returns without an error, having reported
the keys of these entries, cut to the limit, each with the value the store answers with,
exactly if the records of the entries it takes can be read. -/
theorem scan_reports (s : Store) (start endKey : Bytes) (limit : Int) :
    KeysAscend (s.range start endKey) ∧
      (∀ k e, (k, e) ∈ s.range start endKey ↔
        s.lookup k = some e ∧ compare k start ≠ .lt ∧ (endKey = [] ∨ compare endKey k ≠ .lt)) ∧
      (((s.scan start endKey limit).2 = none ∧
          (s.scan start endKey limit).1.map Prod.fst = (cut limit (s.range start endKey)).map Prod.fst ∧
          ∀ p ∈ (s.scan start endKey limit).1, s.Shows p) ↔
        ∀ x ∈ cut limit (s.range start endKey), ∃ v, s.readValue x.2 = .ok v) :=
  ⟨keysAscend_range s start endKey, fun _ _ => mem_range, scan_iff s start endKey limit⟩

/-- **Where every locator leads to its record**, a scan reports the live map over its range. -/
theorem scan_of_located {ρ : Reading} (hfiles : ∀ id, s.files[id]? = (s.dir.bytes id).map List.length)
    (hloc : ∀ (k : Bytes) (e : Entry), s.keys[k]? = some e → ∃ r, Located ρ s.dir.bytes k e r) (start endKey : Bytes)
    (limit : Int) :
    (s.scan start endKey limit).2 = none ∧
      (s.scan start endKey limit).1.map Prod.fst = (cut limit (s.range start endKey)).map Prod.fst ∧
      ∀ p ∈ (s.scan start endKey limit).1, s.liveMap p.1 = some p.2 := by
  have hread {k : Bytes} {e : Entry} (he : s.lookup k = some e) :
      ∃ v, s.readValue e = .ok v ∧ s.liveMap k = some v := by
    obtain ⟨hk, ht⟩ := lookup_eq_some.mp he
    obtain ⟨r, hr⟩ := hloc k e hk
    have hval : r.payload = some r.value := by
      rw [Record.payload, hr.tomb, ht]
      rfl
    refine ⟨r.value, ?_, (hr.liveMap_eq hk).trans hval⟩
    rw [hr.readValue hfiles, hval, answer]
  obtain ⟨hnil, hkeys, hshows⟩ := (scan_iff s start endKey limit).mpr fun x hx => by
    have hx : x ∈ s.range start endKey := by
      unfold cut at hx
      split at hx
      · exact List.mem_of_mem_take hx
      · exact hx
    obtain ⟨v, hv, -⟩ := hread (mem_range.mp hx).1
    exact ⟨v, hv⟩
  refine ⟨hnil, hkeys, fun p hp => ?_⟩
  obtain ⟨e, he, hpe⟩ := hshows p hp
  obtain ⟨v, hv, hlive⟩ := hread he
  rw [hv] at hpe
  cases hpe
  exact hlive

/-- A read that reports a mismatch has found a live entry and another record behind it. -/
theorem readValue_of_get {k : Bytes} {a b : UInt64} (hk : Store.validateKey k = none)
    (h : s.get k = .error (.seqMismatch a b)) :
    ∃ e, s.lookup k = some e ∧ s.readValue e = .error (.seqMismatch a b) := by
  rw [Store.get, hk] at h
  simp only at h
  generalize Store.getAttempts = n at h
  induction n with
  | zero => cases h
  | succ n ih =>
    rw [Store.getLoop] at h
    cases hl : s.lookup k with
    | none =>
      rw [hl] at h
      cases h
    | some e =>
      rw [hl] at h
      simp only at h
      split at h
      · exact hl ▸ ih h
      · exact ⟨e, rfl, h⟩

/-- An unlimited walk that meets a record of another number does not end well. -/
theorem visit_mismatch {refs : List (Bytes × Entry)} {x : Bytes × Entry} {a b : UInt64} (hx : x ∈ refs)
    (hr : s.readRef x = .error (.seqMismatch a b)) (out : List (Bytes × Bytes)) :
    (s.visit 0 refs out).2.join ≠ none := by
  induction refs generalizing out with
  | nil => cases hx
  | cons y rest ih =>
    rw [Store.visit]
    rcases List.mem_cons.mp hx with rfl | hx
    · rw [hr]
      rintro ⟨⟩
    · cases s.readRef y with
      | error e => cases e <;> first | exact ih hx out | rintro ⟨⟩
      | ok v =>
        simp only [lt_irrefl, false_and, if_false]
        exact ih hx _

/-- A scan of the store the seventeen pairs were put in ends with an error. -/
theorem wide_scan {v : Bytes} (hv : v.length = 2 ^ 28 - 30) :
    ∃ s, (Store.init ⟨0, .never⟩).batchPut 0 wideKeys (wideKeys.map fun _ => v) = (s, none) ∧
      (∃ e, s.lookup [16] = some e) ∧ (s.scan [] [] 0).2 ≠ none := by
  obtain ⟨s, hput, hget⟩ := wide_batchPut v hv
  obtain ⟨e, hlook, hread⟩ := readValue_of_get (by decide) hget
  refine ⟨s, hput, ⟨e, hlook⟩, ?_⟩
  rw [scan_eq]
  have hmem : (([16] : Bytes), e) ∈ s.range [] [] := mem_range.mpr ⟨hlook, by decide, .inl rfl⟩
  exact visit_mismatch hmem ((readRef_eq (x := (([16] : Bytes), e)) hlook).trans hread) []

end Walk

/-- **The pairs of one large batch are not all reported**: the scan ends with an error, and
without a concurrent operation. -/
theorem scan_wrapped : ∃ s, (Store.init ⟨0, .never⟩).batchPut 0 wideKeys (wideKeys.map fun _ => wideValue) = (s, none) ∧
    (∃ e, s.lookup [16] = some e) ∧ (s.scan [] [] 0).2 ≠ none :=
  wide_scan (by rw [wideValue, List.length_replicate])

end Gokv.Engine
