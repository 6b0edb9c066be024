import Gokv.Base.Links
import Gokv.Base.Run
import Gokv.Base.Weight
import Gokv.Engine.Index

/-! The skip list.

The ordered half of the index: nodes of one to twenty levels, each level a list threaded
through the nodes that reach it. Nodes are named by their address on a heap, which only
grows; the head is not one of them. A read of a pointer a node does not have is a failure
here, as it is in the source, and an operation that fails returns `none`. `Ok` is the
invariant: the nodes of level 0 are in key order, and every other level runs through those
of them that are high enough. `calls_sound`: any run of insertions and removals, with any
levels, is a run on a map. -/
namespace Gokv.Engine
open Base

def slMaxLevel : Nat := 20

def slBranchMask : UInt64 := 3

structure SlNode where
  key : Bytes
  ent : Entry
  next : List (Option Nat)
  deriving DecidableEq, Repr

/-- A node but for where its pointers lead. -/
def SlNode.shape (nd : SlNode) : Bytes × Entry × Nat := (nd.key, nd.ent, nd.next.length)

structure SkipList where
  heap : List SlNode
  head : List (Option Nat)
  level : Nat
  n : Nat
  rnd : UInt64
  deriving DecidableEq, Repr

/-- The loop of `randomLevel`: promote while the low two bits are zero. -/
def promote : Nat → UInt64 → Nat → Nat
  | 0, _, lvl => lvl
  | room + 1, x, lvl => if x &&& slBranchMask = 0 then promote room (x >>> 2) (lvl + 1) else lvl

namespace SkipList

def newSkiplist : SkipList := ⟨[], List.replicate slMaxLevel none, 1, 0, 0x9E3779B97F4A7C15⟩

/-- The generator's next state, and the level it gives. -/
def randomLevel (s : SkipList) : UInt64 × Nat :=
  let x := s.rnd ^^^ s.rnd <<< 13
  let x := x ^^^ x >>> 7
  let x := x ^^^ x <<< 17
  (x, promote (slMaxLevel - 1) x 1)

/-- The pointer of level `i` of a node, or of the head. -/
def next (s : SkipList) (i : Nat) : Option Nat → Option (Option Nat)
  | none => s.head[i]?
  | some a => s.heap[a]?.bind fun nd => nd.next[i]?

def setNext (s : SkipList) (i : Nat) (x v : Option Nat) : SkipList :=
  match x with
  | none => {s with head := s.head.set i v}
  | some a => {s with heap := s.heap.modify a fun nd => {nd with next := nd.next.set i v} }

def keyOf (s : SkipList) (a : Nat) : Bytes := ((s.heap[a]?).map SlNode.key).getD []

def entOf (s : SkipList) (a : Nat) : Option Entry := (s.heap[a]?).map SlNode.ent

/-- The number of levels of a node. -/
def height (s : SkipList) (a : Nat) : Nat := ((s.heap[a]?).map fun nd => nd.next.length).getD 0

def setEnt (s : SkipList) (a : Nat) (e : Entry) : SkipList :=
  {s with heap := s.heap.modify a fun nd => {nd with ent := e} }

def below (s : SkipList) (key : Bytes) (a : Nat) : Bool := compare (s.keyOf a) key = .lt

/-- The descent every operation begins with, from level `i - 1` down: the last node before
`key` at each level, that of level 0 first. -/
def search (s : SkipList) (key : Bytes) : Nat → Option Nat → Option (List (Option Nat))
  | 0, _ => some []
  | i + 1, x =>
    match walk (s.next i) (s.below key) (s.n + 1) x with
    | none => none
    | some y => (s.search key i y).map (· ++ [y])

/-- The node, if it is the one of the key. -/
def matching (s : SkipList) (key : Bytes) (x : Option Nat) : Option Nat := x.filter fun a => s.keyOf a = key

/-- Thread node `a` in behind its predecessors, level `i` and up. -/
def link (a : Nat) : Nat → List (Option Nat) → SkipList → Option SkipList
  | _, [], s => some s
  | i, p :: ps, s =>
    match s.next i p with
    | none => none
    | some v => link a (i + 1) ps ((s.setNext i (some a) v).setNext i p (some a))

/-- `insert`, with the level `randomLevel` gives. -/
def insertAt (s : SkipList) (rnd : UInt64) (lvl : Nat) (key : Bytes) (e : Entry) : Option (SkipList × Nat) :=
  match s.search key s.level none with
  | none => none
  | some prev =>
    match s.next 0 (prev.headD none) with
    | none => none
    | some x =>
      match s.matching key x with
      | some a => some (s.setEnt a e, a)
      | none =>
        (link s.heap.length 0 ((prev ++ List.replicate (lvl - s.level) none).take lvl)
          { heap := s.heap ++ [⟨key, e, List.replicate lvl none⟩], head := s.head, level := max s.level lvl,
            n := s.n + 1, rnd := rnd }).map fun t => (t, s.heap.length)

def insert (s : SkipList) (key : Bytes) (e : Entry) : Option (SkipList × Nat) :=
  s.insertAt s.randomLevel.1 s.randomLevel.2 key e

/-- Take node `a` out where its predecessor points to it, level `i` and up. -/
def unlink (a : Nat) : Nat → List (Option Nat) → SkipList → Option SkipList
  | _, [], s => some s
  | i, p :: ps, s =>
    match s.next i p with
    | none => none
    | some v =>
      if v = some a then
        match s.next i (some a) with
        | none => none
        | some w => unlink a (i + 1) ps (s.setNext i p w)
      else unlink a (i + 1) ps s

/-- Drop the levels the head has nothing on. -/
def shrink (head : List (Option Nat)) : Nat → Option Nat
  | 0 => some 0
  | 1 => some 1
  | l + 2 =>
    match head[l + 1]? with
    | none => none
    | some none => shrink head (l + 1)
    | some (some _) => some (l + 2)

def remove (s : SkipList) (key : Bytes) : Option (SkipList × Bool) :=
  match s.search key s.level none with
  | none => none
  | some prev =>
    match s.next 0 (prev.headD none) with
    | none => none
    | some x =>
      match s.matching key x with
      | none => some (s, false)
      | some a =>
        match unlink a 0 prev s with
        | none => none
        | some t => (shrink t.head t.level).map fun l => ({t with level := l, n := t.n - 1}, true)

/-- The first node whose key is not below `key`. -/
def seek (s : SkipList) (key : Bytes) : Option (Option Nat) :=
  match s.search key s.level none with
  | none => none
  | some prev => s.next 0 (prev.headD none)

/-- The nodes of a level, by following its pointers. -/
def nodes (s : SkipList) (i : Nat) : List Nat := trace (s.next i) s.n none

/-! ### The invariant -/

/-- Those of the nodes that have level `i`. -/
def reaching (s : SkipList) (i : Nat) (as : List Nat) : List Nat := as.filter fun a => i < s.height a

structure Ok (s : SkipList) (order : List Nat) : Prop where
  head : s.head.length = slMaxLevel
  level : 1 ≤ s.level ∧ s.level ≤ slMaxLevel
  heights : ∀ a ∈ order, 0 < s.height a ∧ s.height a ≤ s.level
  sorted : order.Pairwise fun a b => compare (s.keyOf a) (s.keyOf b) = .lt
  links : ∀ i < slMaxLevel, Links (s.next i) none (s.reaching i order)
  n : s.n = order.length

variable {s t : SkipList} {order lo hi : List Nat} {key : Bytes} {e : Entry}

theorem ok_new : Ok newSkiplist [] where
  head := List.length_replicate ..
  level := by decide
  heights _ ha := absurd ha List.not_mem_nil
  sorted := List.Pairwise.nil
  links i hi := by
    refine ⟨trivial, ?_⟩
    show (List.replicate slMaxLevel none)[i]? = some none
    rw [List.getElem?_replicate, if_pos hi]
  n := rfl

theorem promote_le (room : Nat) (x : UInt64) (lvl : Nat) : lvl ≤ promote room x lvl ∧
    promote room x lvl ≤ lvl + room := by
  induction room generalizing x lvl with
  | zero => exact ⟨le_rfl, le_rfl⟩
  | succ room ih =>
    rw [promote]
    split
    · have := ih (x >>> 2) (lvl + 1)
      omega
    · omega

/-- A level is between 1 and the highest. -/
theorem randomLevel_le (s : SkipList) : 1 ≤ s.randomLevel.2 ∧ s.randomLevel.2 ≤ slMaxLevel := by
  have := promote_le (slMaxLevel - 1) s.randomLevel.1 1
  exact this

theorem mem_reaching {i a : Nat} {as : List Nat} : a ∈ s.reaching i as ↔ a ∈ as ∧ i < s.height a := by
  rw [reaching, List.mem_filter, decide_eq_true_eq]

theorem reaching_append (i : Nat) (as bs : List Nat) :
    s.reaching i (as ++ bs) = s.reaching i as ++ s.reaching i bs :=
  List.filter_append ..

theorem Ok.nodup (h : Ok s order) : order.Nodup := by
  refine h.sorted.imp fun {a b} hlt hab => ?_
  have heq : compare (s.keyOf b) (s.keyOf b) = .eq := Std.ReflCmp.compare_self
  rw [hab, heq] at hlt
  cases hlt

theorem Ok.reaching_nodup (h : Ok s order) (i : Nat) : (s.reaching i order).Nodup := h.nodup.filter _

/-- Level 0 has all nodes. -/
theorem Ok.reaching_zero (h : Ok s order) {as : List Nat} (hsub : as ⊆ order) : s.reaching 0 as = as :=
  List.filter_eq_self.mpr fun a ha => decide_eq_true (h.heights a (hsub ha)).1

/-- At its level and above a list has nothing. -/
theorem Ok.reaching_high (h : Ok s order) {i : Nat} (hi : s.level ≤ i) : s.reaching i order = [] :=
  List.filter_eq_nil_iff.mpr fun a ha => by
    have := (h.heights a ha).2
    simp only [decide_eq_true_eq]
    omega

/-! ### The descent -/

/-- A key cuts the nodes in two. -/
theorem Ok.split (h : Ok s order) (key : Bytes) : ∃ lo hi, order = lo ++ hi ∧ (∀ a ∈ lo, s.below key a = true) ∧
    ∀ b ∈ hi, s.below key b = false := by
  refine ⟨order.takeWhile (s.below key), order.dropWhile (s.below key), List.takeWhile_append_dropWhile.symm,
    fun a ha => List.mem_takeWhile_imp ha, ?_⟩
  have hsorted := h.sorted.sublist (List.dropWhile_sublist (s.below key))
  cases hd : order.dropWhile (s.below key) with
  | nil => exact fun b hb => absurd hb List.not_mem_nil
  | cons b rest =>
    have hb : s.below key b = false := by
      have := List.head_dropWhile_not (s.below key) (w := by rw [hd]; exact List.cons_ne_nil _ _)
      simpa [hd] using this
    rw [hd] at hsorted
    intro c hc
    rcases List.mem_cons.mp hc with rfl | hc
    · exact hb
    · have hbc := List.rel_of_pairwise_cons hsorted hc
      simp only [below, decide_eq_false_iff_not] at hb ⊢
      exact fun hlt => hb (Std.TransCmp.lt_trans hbc hlt)

theorem links_head {next : Option Nat → Option (Option Nat)} {x : Option Nat} {as : List Nat} (h : Links next x as) :
    next x = some as.head? := by
  cases as with
  | nil => exact h.2
  | cons a rest => exact (links_cons.mp h).1

/-- The last node before the key at each level. -/
def before (s : SkipList) (lo : List Nat) (i : Nat) : Option Nat := lastFrom none (s.reaching i lo)

/-- **The descent** finds the last node before the key at each level. -/
theorem Ok.search (h : Ok s (lo ++ hi)) (hlo : ∀ a ∈ lo, s.below key a = true) (hhi : ∀ b ∈ hi, s.below key b = false)
    {i : Nat} (hi' : i ≤ slMaxLevel) {x : Option Nat} (hx : x = none ∨ ∃ a ∈ lo, i ≤ s.height a ∧ x = some a) :
    s.search key i x = some ((List.range i).map (s.before lo)) := by
  induction i generalizing x with
  | zero => rfl
  | succ i ih =>
    have hlinks := h.links i (by omega)
    rw [reaching_append] at hlinks
    obtain ⟨hpath, hrest⟩ := links_append.mp hlinks
    have hstop : s.next i (s.before lo i) = some none ∨
        ∃ b, s.next i (s.before lo i) = some (some b) ∧ s.below key b = false := by
      have hnext := links_head hrest
      cases hr : s.reaching i hi with
      | nil =>
        rw [hr] at hnext
        exact .inl hnext
      | cons b rest =>
        rw [hr] at hnext
        exact .inr ⟨b, hnext, hhi b (mem_reaching.mp (hr ▸ List.mem_cons_self ..)).1⟩
    -- From where the level above stopped, the rest of the nodes before the key.
    obtain ⟨mid, hmid, hsub, hlast⟩ : ∃ mid, Path (s.next i) x mid ∧ mid.Sublist (s.reaching i lo) ∧
        lastFrom x mid = s.before lo i := by
      rcases hx with rfl | ⟨a, ha, hheight, rfl⟩
      · exact ⟨_, hpath, .refl _, rfl⟩
      · obtain ⟨pre, mid, hsplit⟩ := List.append_of_mem (mem_reaching.mpr ⟨ha, (by omega : i < s.height a)⟩)
        have hpath := hpath
        rw [hsplit] at hpath
        refine ⟨mid, (path_append.mp hpath).2.2, ?_, ?_⟩
        · rw [hsplit]
          exact (List.sublist_cons_self a mid).trans (List.sublist_append_right _ _)
        · rw [before, hsplit, lastFrom_append]
          rfl
    have hwalk : walk (s.next i) (s.below key) (s.n + 1) x = some (s.before lo i) := by
      rw [← hlast] at hstop ⊢
      refine walk_path hmid (fun a ha => hlo a (mem_reaching.mp (hsub.subset ha)).1) hstop ?_
      have h1 := hsub.length_le
      have h2 : (s.reaching i lo).length ≤ lo.length := List.length_filter_le ..
      have h3 := h.n
      rw [List.length_append] at h3
      omega
    have hdown : s.before lo i = none ∨ ∃ a ∈ lo, i ≤ s.height a ∧ s.before lo i = some a := by
      rcases lastFrom_cases none (s.reaching i lo) with ⟨hnone, -⟩ | ⟨a, ha, hsome⟩
      · exact .inl hnone
      · obtain ⟨hmem, hlt⟩ := mem_reaching.mp ha
        exact .inr ⟨a, hmem, hlt.le, hsome⟩
    rw [SkipList.search, hwalk]
    simp only
    rw [ih (by omega) hdown, List.range_succ, List.map_append]
    rfl

/-- Where an operation stands after its descent. -/
theorem Ok.arrive (h : Ok s (lo ++ hi)) (hlo : ∀ a ∈ lo, s.below key a = true) (hhi : ∀ b ∈ hi, s.below key b = false) :
    s.search key s.level none = some ((List.range s.level).map (s.before lo)) ∧
      ((List.range s.level).map (s.before lo)).headD none = lastFrom none lo ∧
        s.next 0 (lastFrom none lo) = some hi.head? := by
  have hzero : s.before lo 0 = lastFrom none lo := by
    rw [before, h.reaching_zero (List.subset_append_left _ _)]
  refine ⟨h.search hlo hhi h.level.2 (.inl rfl), ?_, ?_⟩
  · obtain ⟨l, hl⟩ : ∃ l, s.level = l + 1 := ⟨s.level - 1, by have := h.level.1; omega⟩
    rw [hl, List.range_succ_eq_map, List.map_cons, List.headD_cons, hzero]
  · have hlinks := h.links 0 (by decide)
    rw [h.reaching_zero (List.Subset.refl _)] at hlinks
    exact links_head (links_append.mp hlinks).2

/-- **`seek` returns the first node that is not below the key.** -/
theorem Ok.seek (h : Ok s (lo ++ hi)) (hlo : ∀ a ∈ lo, s.below key a = true) (hhi : ∀ b ∈ hi, s.below key b = false) :
    s.seek key = some hi.head? := by
  obtain ⟨hsearch, hhead, hnext⟩ := h.arrive hlo hhi
  rw [SkipList.seek, hsearch]
  simp only [hhead, hnext]

/-! ### Pointers and entries -/

/-- The lists have the same nodes; only pointers differ. -/
structure Rewired (s t : SkipList) : Prop where
  nodes : ∀ a : Nat, (t.heap[a]?).map SlNode.shape = (s.heap[a]?).map SlNode.shape
  head : t.head.length = s.head.length
  level : t.level = s.level
  n : t.n = s.n

theorem Rewired.trans {u : SkipList} (h : Rewired s t) (h' : Rewired t u) : Rewired s u :=
  ⟨fun a => (h'.nodes a).trans (h.nodes a), h'.head.trans h.head, h'.level.trans h.level, h'.n.trans h.n⟩

theorem Rewired.keyOf (h : Rewired s t) (a : Nat) : t.keyOf a = s.keyOf a := by
  have := congrArg (Option.map Prod.fst) (h.nodes a)
  rw [Option.map_map, Option.map_map] at this
  exact congrArg (·.getD []) this

theorem Rewired.entOf (h : Rewired s t) (a : Nat) : t.entOf a = s.entOf a := by
  have := congrArg (Option.map fun x => x.2.1) (h.nodes a)
  rw [Option.map_map, Option.map_map] at this
  exact this

theorem Rewired.height (h : Rewired s t) (a : Nat) : t.height a = s.height a := by
  have := congrArg (Option.map fun x => x.2.2) (h.nodes a)
  rw [Option.map_map, Option.map_map] at this
  exact congrArg (·.getD 0) this

theorem Rewired.reaching (h : Rewired s t) (i : Nat) (as : List Nat) : t.reaching i as = s.reaching i as := by
  simp only [SkipList.reaching, h.height]

theorem rewired_setNext (s : SkipList) (i : Nat) (x v : Option Nat) : Rewired s (s.setNext i x v) := by
  cases x with
  | none => exact ⟨fun _ => rfl, List.length_set .., rfl, rfl⟩
  | some p =>
    refine ⟨fun a => ?_, rfl, rfl, rfl⟩
    show ((s.heap.modify p _)[a]?).map _ = _
    rw [List.getElem?_modify]
    cases s.heap[a]? with
    | none => rfl
    | some nd => by_cases hp : p = a <;> simp [hp, SlNode.shape]

theorem next_setNext (s : SkipList) (i j : Nat) (x y v : Option Nat) :
    (s.setNext i x v).next j y = if y = x ∧ j = i then (s.next i x).map (fun _ => v) else s.next j y := by
  cases x with
  | none =>
    cases y with
    | none =>
      show (s.head.set i v)[j]? = _
      rw [List.getElem?_set]
      by_cases hij : i = j
      · subst hij
        by_cases hlt : i < s.head.length
        · simp [SkipList.next, hlt]
        · simp [SkipList.next, hlt]
      · simp [SkipList.next, hij, Ne.symm hij]
    | some b => simp [SkipList.setNext, SkipList.next]
  | some a =>
    cases y with
    | none => simp [SkipList.setNext, SkipList.next]
    | some b =>
      show ((s.heap.modify a _)[b]?).bind _ = _
      rw [List.getElem?_modify]
      by_cases hab : a = b
      · subst hab
        cases hnd : s.heap[a]? with
        | none => simp [SkipList.next, hnd]
        | some nd =>
          by_cases hij : i = j
          · subst hij
            by_cases hlt : i < nd.next.length
            · simp [SkipList.next, hnd, hlt]
            · simp [SkipList.next, hnd, hlt]
          · simp [SkipList.next, hnd, hij, Ne.symm hij]
      · cases hnd : s.heap[b]? with
        | none => simp [SkipList.next, hnd, Ne.symm hab]
        | some nd => simp [SkipList.next, hnd, hab, Ne.symm hab]

/-- Pointers a node has. -/
theorem next_isSome {i a : Nat} : (s.next i (some a)).isSome = true ↔ i < s.height a := by
  cases hnd : s.heap[a]? with
  | none => simp [SkipList.next, SkipList.height, hnd]
  | some nd => simp [SkipList.next, SkipList.height, hnd]

theorem head_isSome (h : s.head.length = slMaxLevel) {i : Nat} (hi : i < slMaxLevel) :
    (s.next i none).isSome = true := by
  show (s.head[i]?).isSome = true
  rw [List.getElem?_eq_getElem (h ▸ hi)]
  rfl

/-- The predecessors of a key have a pointer on their level. -/
theorem before_isSome (h : s.head.length = slMaxLevel) (lo : List Nat) {i : Nat} (hi : i < slMaxLevel) :
    (s.next i (s.before lo i)).isSome = true := by
  rcases lastFrom_cases none (s.reaching i lo) with ⟨hnone, -⟩ | ⟨a, ha, hsome⟩
  · rw [before, hnone]
    exact head_isSome h hi
  · rw [before, hsome]
    exact next_isSome.mpr (mem_reaching.mp ha).2

/-- **Threading a node in**: on each level `p` gives its predecessor. -/
theorem link_spec {a : Nat} (p : Nat → Option Nat) (m i : Nat) (s : SkipList)
    (hp : ∀ j, i ≤ j → j < i + m → p j ≠ some a ∧ (s.next j (p j)).isSome = true) (ha : i + m ≤ s.height a) :
    ∃ t, link a i ((List.range' i m).map p) s = some t ∧ Rewired s t ∧ ∀ j y, t.next j y =
      if i ≤ j ∧ j < i + m then
        if y = p j then some (some a) else if y = some a then s.next j (p j) else s.next j y
      else s.next j y := by
  induction m generalizing i s with
  | zero =>
    refine ⟨s, rfl, ⟨fun _ => rfl, rfl, rfl, rfl⟩, fun j y => ?_⟩
    rw [if_neg (by omega)]
  | succ m ih =>
    obtain ⟨hne, hsome⟩ := hp i (Nat.le_refl i) (by omega)
    obtain ⟨v, hv⟩ := Option.isSome_iff_exists.mp hsome
    obtain ⟨w, hw⟩ := Option.isSome_iff_exists.mp (next_isSome.mpr (show i < s.height a by omega))
    have hre : Rewired s ((s.setNext i (some a) v).setNext i (p i) (some a)) :=
      (rewired_setNext s i (some a) v).trans (rewired_setNext _ i (p i) (some a))
    have hset (j : Nat) (y : Option Nat) : (s.setNext i (some a) v).next j y =
        if y = some a ∧ j = i then some v else s.next j y := by
      rw [next_setNext, hw]
      rfl
    have hnext (j : Nat) (y : Option Nat) : ((s.setNext i (some a) v).setNext i (p i) (some a)).next j y =
        if j = i then if y = p i then some (some a) else if y = some a then s.next i (p i) else s.next i y
        else s.next j y := by
      have hold : (s.setNext i (some a) v).next i (p i) = some v := by
        rw [hset, if_neg (fun h => hne h.1), hv]
      rw [next_setNext, hold, hset j y, hv]
      by_cases hj : j = i
      · subst hj
        by_cases hy : y = p j
        · simp [hy]
        · simp [hy]
      · simp [hj]
    obtain ⟨t, ht, hret, hall⟩ := ih (i + 1) ((s.setNext i (some a) v).setNext i (p i) (some a))
      (fun j hj hlt => by
        obtain ⟨hja, hjs⟩ := hp j (by omega) (by omega)
        rw [hnext, if_neg (by omega)]
        exact ⟨hja, hjs⟩)
      (by rw [hre.height]; omega)
    refine ⟨t, ?_, hre.trans hret, fun j y => ?_⟩
    · rw [List.range'_succ, List.map_cons, link, hv]
      exact ht
    · rw [hall]
      by_cases hj : j = i
      · subst hj
        rw [if_neg (by omega), if_pos (by omega), hnext, if_pos rfl]
      · simp only [hnext, if_neg hj]
        refine if_congr ?_ rfl rfl
        omega

/-- **Taking a node out**: a pointer changes where it led to the node. -/
theorem unlink_spec {a : Nat} (p : Nat → Option Nat) (m i : Nat) (s : SkipList)
    (hp : ∀ j, i ≤ j → j < i + m → p j ≠ some a ∧ (s.next j (p j)).isSome = true ∧
      (s.next j (p j) = some (some a) → j < s.height a)) :
    ∃ t, unlink a i ((List.range' i m).map p) s = some t ∧ Rewired s t ∧ ∀ j y, t.next j y =
      if (i ≤ j ∧ j < i + m) ∧ y = p j ∧ s.next j (p j) = some (some a) then s.next j (some a) else s.next j y := by
  induction m generalizing i s with
  | zero =>
    refine ⟨s, rfl, ⟨fun _ => rfl, rfl, rfl, rfl⟩, fun j y => ?_⟩
    rw [if_neg (by omega)]
  | succ m ih =>
    obtain ⟨hne, hsome, hhigh⟩ := hp i (Nat.le_refl i) (by omega)
    obtain ⟨v, hv⟩ := Option.isSome_iff_exists.mp hsome
    rw [List.range'_succ, List.map_cons, unlink, hv]
    by_cases hva : v = some a
    · obtain ⟨w, hw⟩ := Option.isSome_iff_exists.mp (next_isSome.mpr (hhigh (by rw [hv, hva])))
      have hre := rewired_setNext s i (p i) w
      have hnext (j : Nat) (y : Option Nat) : (s.setNext i (p i) w).next j y =
          if y = p i ∧ j = i then some w else s.next j y := by
        rw [next_setNext, hv]
        rfl
      obtain ⟨t, ht, hret, hall⟩ := ih (i + 1) (s.setNext i (p i) w) fun j hj hlt => by
        rw [hnext, if_neg (by omega), hre.height]
        exact hp j (by omega) (by omega)
      refine ⟨t, ?_, hre.trans hret, fun j y => ?_⟩
      · simp only [hva, if_true, hw]
        exact ht
      · rw [hall, hnext, hnext, hnext]
        by_cases hj : j = i
        · subst hj
          rw [if_neg (by omega)]
          by_cases hy : y = p j
          · rw [if_pos ⟨hy, rfl⟩, if_pos ⟨by omega, hy, by rw [hv, hva]⟩, hw]
          · rw [if_neg (fun h => hy h.1), if_neg (fun h => hy h.2.1)]
        · simp only [hj, and_false, if_false]
          refine if_congr (and_congr_left fun _ => ?_) rfl rfl
          omega
    · obtain ⟨t, ht, hret, hall⟩ := ih (i + 1) s fun j hj hlt => hp j (by omega) (by omega)
      refine ⟨t, ?_, hret, fun j y => ?_⟩
      · simp only [hva, if_false]
        exact ht
      · rw [hall]
        by_cases hj : j = i
        · subst hj
          rw [if_neg (by omega), if_neg fun h => hva (Option.some.inj (hv.symm.trans h.2.2))]
        · refine if_congr (and_congr_left fun _ => ?_) rfl rfl
          omega

/-- What `shrink` stops at. -/
theorem shrink_spec {head : List (Option Nat)} {l : Nat} (hl : l ≤ head.length) (hpos : 1 ≤ l) :
    ∃ l', shrink head l = some l' ∧ 1 ≤ l' ∧ l' ≤ l ∧ ∀ i, l' ≤ i → i < l → head[i]? = some none := by
  induction l with
  | zero => omega
  | succ l ih =>
    cases l with
    | zero => exact ⟨1, rfl, le_rfl, le_rfl, fun i h1 h2 => by omega⟩
    | succ l =>
      rw [shrink, List.getElem?_eq_getElem (by omega)]
      cases hx : head[l + 1] with
      | none =>
        obtain ⟨l', hl', h1, h2, h3⟩ := ih (by omega) (by omega)
        refine ⟨l', hl', h1, by omega, fun i hi hlt => ?_⟩
        by_cases hil : i = l + 1
        · rw [hil, List.getElem?_eq_getElem (by omega), hx]
        · exact h3 i hi (by omega)
      | some b => exact ⟨l + 2, rfl, by omega, le_rfl, fun i h1 h2 => by omega⟩

/-! ### The operations -/

/-- The map a list of nodes stands for. -/
def Lists (s : SkipList) (order : List Nat) (m : Index) : Prop :=
  ∀ (k : Bytes) (e : Entry), m[k]? = some e ↔ ∃ a ∈ order, s.keyOf a = k ∧ s.entOf a = some e

theorem mem_heap {a : Nat} (h : 0 < s.height a) : a < s.heap.length := by
  by_contra hge
  rw [height, List.getElem?_eq_none (Nat.le_of_not_lt hge)] at h
  exact absurd h (Nat.lt_irrefl 0)

theorem entOf_isSome {a : Nat} (h : 0 < s.height a) : ∃ e, s.entOf a = some e := by
  rw [entOf, List.getElem?_eq_getElem (mem_heap h)]
  exact ⟨_, rfl⟩

/-- The key of a node of the list tells the node. -/
theorem Ok.keyOf_inj (h : Ok s order) {a b : Nat} (ha : a ∈ order) (hb : b ∈ order)
    (heq : s.keyOf a = s.keyOf b) : a = b := by
  have hnodup : (order.map s.keyOf).Nodup := List.pairwise_map.mpr <| h.sorted.imp fun {a b} hlt hkey => by
    have hself : compare (s.keyOf b) (s.keyOf b) = .eq := Std.ReflCmp.compare_self
    rw [hkey, hself] at hlt
    cases hlt
  exact List.inj_on_of_nodup_map hnodup ha hb heq

section SetEnt
variable (s) (a : Nat) (e : Entry)

theorem heap_setEnt (b : Nat) :
    (s.setEnt a e).heap[b]? = (s.heap[b]?).map fun nd => if a = b then {nd with ent := e} else nd := by
  show (s.heap.modify a _)[b]? = _
  rw [List.getElem?_modify]
  cases s.heap[b]? with
  | none => rfl
  | some nd => by_cases hab : a = b <;> simp [hab]

theorem height_setEnt (b : Nat) : (s.setEnt a e).height b = s.height b := by
  rw [height, height, heap_setEnt]
  cases s.heap[b]? with
  | none => rfl
  | some nd => by_cases hab : a = b <;> simp [hab]

theorem keyOf_setEnt (b : Nat) : (s.setEnt a e).keyOf b = s.keyOf b := by
  rw [keyOf, keyOf, heap_setEnt]
  cases s.heap[b]? with
  | none => rfl
  | some nd => by_cases hab : a = b <;> simp [hab]

theorem entOf_setEnt (b : Nat) : (s.setEnt a e).entOf b = if a = b then (s.entOf b).map fun _ => e else s.entOf b := by
  rw [entOf, entOf, heap_setEnt]
  cases s.heap[b]? with
  | none => simp
  | some nd => by_cases hab : a = b <;> simp [hab]

theorem next_setEnt (i : Nat) : (s.setEnt a e).next i = s.next i := by
  funext y
  cases y with
  | none => rfl
  | some b =>
    show ((s.setEnt a e).heap[b]?).bind _ = _
    rw [heap_setEnt, next]
    cases s.heap[b]? with
    | none => rfl
    | some nd => by_cases hab : a = b <;> simp [hab]

end SetEnt

/-- An entry is overwritten. -/
theorem Ok.setEnt (h : Ok s order) (a : Nat) (e : Entry) : Ok (s.setEnt a e) order where
  head := h.head
  level := h.level
  heights b hb := by
    rw [height_setEnt]
    exact h.heights b hb
  sorted := by
    simp only [keyOf_setEnt]
    exact h.sorted
  links i hi := by
    have hreach : (s.setEnt a e).reaching i order = s.reaching i order := by simp only [reaching, height_setEnt]
    rw [next_setEnt, hreach]
    exact h.links i hi
  n := h.n

theorem Lists.setEnt {m : Index} (hm : Lists s order m) (h : Ok s order) {a : Nat} (ha : a ∈ order) (e : Entry) :
    Lists (s.setEnt a e) order (m.insert (s.keyOf a) e) := by
  intro k x
  have hself : (s.setEnt a e).entOf a = some e := by
    obtain ⟨y, hy⟩ := entOf_isSome (h.heights a ha).1
    rw [entOf_setEnt, if_pos rfl, hy]
    rfl
  rw [Std.ExtTreeMap.getElem?_insert]
  simp only [keyOf_setEnt, Std.LawfulEqCmp.compare_eq_iff_eq]
  by_cases hk : s.keyOf a = k
  · rw [if_pos hk]
    constructor
    · rintro ⟨⟩
      exact ⟨a, ha, hk, hself⟩
    · rintro ⟨b, hb, hbk, hx⟩
      rw [h.keyOf_inj hb ha (hbk.trans hk.symm), hself] at hx
      exact hx
  · rw [if_neg hk, hm]
    refine exists_congr fun b => and_congr_right fun _ => and_congr_right fun hbk => ?_
    rw [entOf_setEnt, if_neg fun hab : a = b => hk (hab ▸ hbk)]

/-- Behind a key that no node has, the nodes are above it. -/
theorem Ok.above (h : Ok s (lo ++ hi)) (hhi : ∀ b ∈ hi, s.below key b = false) (hno : s.matching key hi.head? = none) :
    ∀ b ∈ hi, compare key (s.keyOf b) = .lt := by
  have hsorted := (List.pairwise_append.mp h.sorted).2.1
  cases hi with
  | nil => exact fun b hb => absurd hb List.not_mem_nil
  | cons c rest =>
    have hne : s.keyOf c ≠ key := by simpa [matching, Option.filter] using hno
    have hc : compare key (s.keyOf c) = .lt := by
      have hnot := hhi c (List.mem_cons_self ..)
      rw [below, decide_eq_false_iff_not] at hnot
      cases hcmp : compare (s.keyOf c) key with
      | lt => exact absurd hcmp hnot
      | eq => exact absurd (Std.LawfulEqCmp.eq_of_compare hcmp) hne
      | gt => exact Std.OrientedCmp.lt_of_gt hcmp
    intro b hb
    rcases List.mem_cons.mp hb with rfl | hb
    · exact hc
    · exact Std.TransCmp.lt_trans hc (List.rel_of_pairwise_cons hsorted hb)

/-- The list with room for a node at the next address. -/
def alloc (s : SkipList) (rnd : UInt64) (lvl : Nat) (key : Bytes) (e : Entry) : SkipList :=
  { heap := s.heap ++ [⟨key, e, List.replicate lvl none⟩], head := s.head, level := max s.level lvl,
    n := s.n + 1, rnd := rnd }

section Alloc
variable (s) (rnd : UInt64) (lvl : Nat) (key : Bytes) (e : Entry)

theorem heap_alloc {b : Nat} (hb : b ≠ s.heap.length) : (s.alloc rnd lvl key e).heap[b]? = s.heap[b]? := by
  show (s.heap ++ [_])[b]? = _
  rcases Nat.lt_or_gt_of_ne hb with hlt | hgt
  · exact List.getElem?_append_left hlt
  · rw [List.getElem?_eq_none (by rw [List.length_append, List.length_singleton]; omega),
      List.getElem?_eq_none (by omega)]

theorem heap_alloc_self : (s.alloc rnd lvl key e).heap[s.heap.length]? = some ⟨key, e, List.replicate lvl none⟩ :=
  List.getElem?_concat_length

theorem next_alloc (i : Nat) {y : Option Nat} (hy : y ≠ some s.heap.length) :
    (s.alloc rnd lvl key e).next i y = s.next i y := by
  cases y with
  | none => rfl
  | some b =>
    show ((s.alloc rnd lvl key e).heap[b]?).bind _ = _
    rw [heap_alloc s rnd lvl key e fun hb => hy (congrArg some hb)]
    rfl

end Alloc

theorem Ok.fresh (h : Ok s order) : s.heap.length ∉ order := fun hm =>
  absurd (mem_heap (h.heights _ hm).1) (Nat.lt_irrefl _)

/-- The predecessors `insert` uses, as far up as the node reaches. -/
theorem Ok.predecessors (h : Ok s (lo ++ hi)) (lvl : Nat) :
    ((List.range s.level).map (s.before lo) ++ List.replicate (lvl - s.level) none).take lvl =
      (List.range' 0 lvl).map (s.before lo) := by
  have hhigh (x : Nat) : s.before lo (s.level + x) = none := by
    have hnil := h.reaching_high (Nat.le_add_right s.level x)
    rw [reaching_append, List.append_eq_nil_iff] at hnil
    rw [before, hnil.1]
    rfl
  have hrep : List.replicate (lvl - s.level) none = (List.range (lvl - s.level)).map fun x =>
      s.before lo (s.level + x) := by
    simp only [hhigh, List.map_const', List.length_range]
  have hall : (List.range s.level).map (s.before lo) ++ List.replicate (lvl - s.level) none =
      (List.range (s.level + (lvl - s.level))).map (s.before lo) := by
    rw [hrep, List.range_add, List.map_append, List.map_map]
    rfl
  rw [hall, ← List.map_take, List.take_range, ← List.range_eq_range']
  congr 2
  omega

/-- **A new node**, threaded in between the nodes below its key and those above. -/
theorem Ok.link (h : Ok s (lo ++ hi)) (hlo : ∀ a ∈ lo, s.below key a = true)
    (hhi : ∀ b ∈ hi, compare key (s.keyOf b) = .lt)
    (rnd : UInt64) {lvl : Nat} (hlvl : 1 ≤ lvl ∧ lvl ≤ slMaxLevel) (e : Entry) :
    ∃ t, SkipList.link s.heap.length 0 ((List.range' 0 lvl).map (s.before lo)) (s.alloc rnd lvl key e) = some t ∧
      Ok t (lo ++ s.heap.length :: hi) ∧ t.keyOf s.heap.length = key ∧ t.entOf s.heap.length = some e ∧
      ∀ b ∈ lo ++ hi, t.keyOf b = s.keyOf b ∧ t.entOf b = s.entOf b := by
  have hfresh := h.fresh
  have hne {b : Nat} (hb : b ∈ lo ++ hi) : b ≠ s.heap.length := fun heq => hfresh (heq ▸ hb)
  have hbefore (i : Nat) : s.before lo i ≠ some s.heap.length := fun heq => by
    rcases lastFrom_cases none (s.reaching i lo) with ⟨hnone, -⟩ | ⟨a, ha, hsome⟩
    · rw [before, hnone] at heq
      cases heq
    · rw [before, hsome] at heq
      exact hne (List.mem_append_left _ (mem_reaching.mp ha).1) (Option.some.inj heq)
  have hself : (s.alloc rnd lvl key e).height s.heap.length = lvl := by
    rw [height, heap_alloc_self]
    exact List.length_replicate
  have hheight {b : Nat} (hb : b ≠ s.heap.length) : (s.alloc rnd lvl key e).height b = s.height b := by
    rw [height, heap_alloc s rnd lvl key e hb]
    rfl
  obtain ⟨t, ht, hre, hnext⟩ := link_spec (a := s.heap.length) (s.before lo) lvl 0 (s.alloc rnd lvl key e)
    (fun j _ hj => by
      rw [next_alloc s rnd lvl key e j (hbefore j)]
      exact ⟨hbefore j, before_isSome h.head lo (by omega)⟩)
    (by rw [hself]; omega)
  have hkey {b : Nat} (hb : b ∈ lo ++ hi) : t.keyOf b = s.keyOf b := by
    rw [hre.keyOf, keyOf, heap_alloc s rnd lvl key e (hne hb)]
    rfl
  have hnew : t.keyOf s.heap.length = key := by
    rw [hre.keyOf, keyOf, heap_alloc_self]
    rfl
  have hreach (i : Nat) {as : List Nat} (has : as ⊆ lo ++ hi) : t.reaching i as = s.reaching i as :=
    List.filter_congr fun b hb => by rw [hre.height, hheight (hne (has hb))]
  refine ⟨t, ht, ⟨?_, ?_, fun b hb => ?_, ?_, fun i hi' => ?_, ?_⟩, hnew, ?_, fun b hb => ⟨hkey hb, ?_⟩⟩
  · exact hre.head.trans h.head
  · have := h.level
    rw [hre.level]
    show 1 ≤ max s.level lvl ∧ max s.level lvl ≤ slMaxLevel
    omega
  · have hlevel : t.level = max s.level lvl := hre.level
    rw [hre.height, hlevel]
    by_cases hb' : b = s.heap.length
    · rw [hb', hself]
      omega
    · rw [hheight hb']
      have := h.heights b (by simpa [hb'] using hb)
      omega
  · obtain ⟨hslo, hshi, hapart⟩ := List.pairwise_append.mp h.sorted
    refine List.pairwise_append.mpr ⟨?_, List.pairwise_cons.mpr ⟨fun b hb => ?_, ?_⟩, fun a ha b hb => ?_⟩
    · refine hslo.imp_of_mem fun ha hb hlt => ?_
      rwa [hkey (List.mem_append_left _ ha), hkey (List.mem_append_left _ hb)]
    · rw [hnew, hkey (List.mem_append_right _ hb)]
      exact hhi b hb
    · refine hshi.imp_of_mem fun ha hb hlt => ?_
      rwa [hkey (List.mem_append_right _ ha), hkey (List.mem_append_right _ hb)]
    · rw [hkey (List.mem_append_left _ ha)]
      rcases List.mem_cons.mp hb with rfl | hb
      · rw [hnew]
        exact of_decide_eq_true (hlo a ha)
      · rw [hkey (List.mem_append_right _ hb)]
        exact hapart a ha b hb
  · have hlinks := h.links i hi'
    have hnodup := h.reaching_nodup i
    rw [reaching_append] at hlinks hnodup
    have hout : s.heap.length ∉ s.reaching i lo ++ s.reaching i hi := fun hm => by
      rw [← reaching_append] at hm
      exact hfresh (mem_reaching.mp hm).1
    have hold (y : Option Nat) (hy : y ≠ some s.heap.length) : (s.alloc rnd lvl key e).next i y = s.next i y :=
      next_alloc s rnd lvl key e i hy
    rw [reaching_append, hreach i (List.subset_append_left ..)]
    by_cases hil : i < lvl
    · -- The node is on this level.
      have hmid : t.reaching i (s.heap.length :: hi) = s.heap.length :: s.reaching i hi := by
        have hhas : t.height s.heap.length = lvl := by rw [hre.height, hself]
        rw [← hreach i (List.subset_append_right ..)]
        exact List.filter_cons_of_pos (by rw [hhas]; exact decide_eq_true hil)
      rw [hmid]
      refine hlinks.insert hnodup hout ?_ ?_ fun y hy hyc => ?_
      · exact (hnext i (s.before lo i)).trans (by rw [if_pos (by omega), if_pos rfl])
      · rw [hnext, if_pos (by omega), if_neg (hbefore i).symm, if_pos rfl, hold _ (hbefore i)]
        rfl
      · have hy : y ≠ s.before lo i := hy
        rw [hnext, if_pos (by omega), if_neg hy, if_neg hyc, hold y hyc]
    · have hmid : t.reaching i (s.heap.length :: hi) = s.reaching i hi := by
        have hhas : t.height s.heap.length = lvl := by rw [hre.height, hself]
        rw [← hreach i (List.subset_append_right ..)]
        exact List.filter_cons_of_neg (by rw [hhas]; simpa using hil)
      rw [hmid]
      have hsame (y : Option Nat) (hy : y ≠ some s.heap.length) : t.next i y = s.next i y := by
        rw [hnext, if_neg (by omega), hold y hy]
      refine hlinks.rehang (hsame none (Option.some_ne_none _).symm) fun b hb => hsame _ fun heq => ?_
      exact hout (Option.some.inj heq ▸ hb)
  · have hn : t.n = s.n + 1 := hre.n
    rw [hn, h.n]
    simp only [List.length_append, List.length_cons]
    omega
  · rw [hre.entOf, entOf, heap_alloc_self]
    rfl
  · rw [hre.entOf, entOf, heap_alloc s rnd lvl key e (hne hb)]
    rfl

/-- **`insert` overwrites the entry of the key or adds a node**, whatever level it is given. -/
theorem Ok.insertAt {m : Index} (h : Ok s order) (hm : Lists s order m) (rnd : UInt64) {lvl : Nat}
    (hlvl : 1 ≤ lvl ∧ lvl ≤ slMaxLevel) (key : Bytes) (e : Entry) :
    ∃ t a order', s.insertAt rnd lvl key e = some (t, a) ∧ Ok t order' ∧ Lists t order' (m.insert key e) ∧
      a ∈ order' ∧ t.keyOf a = key ∧ t.entOf a = some e := by
  obtain ⟨lo, hi, rfl, hlo, hhi⟩ := h.split key
  obtain ⟨hsearch, hhead, hnext⟩ := h.arrive hlo hhi
  rw [SkipList.insertAt, hsearch]
  simp only [hhead, hnext]
  cases hmatch : s.matching key hi.head? with
  | some a =>
    obtain ⟨ha, hkey⟩ : hi.head? = some a ∧ s.keyOf a = key := by
      simpa [matching, Option.filter_eq_some_iff] using hmatch
    have hmem : a ∈ lo ++ hi := List.mem_append_right _ (List.mem_of_mem_head? ha)
    obtain ⟨x, hx⟩ := entOf_isSome (h.heights a hmem).1
    refine ⟨s.setEnt a e, a, lo ++ hi, rfl, h.setEnt a e, ?_, hmem, ?_, ?_⟩
    · rw [← hkey]
      exact hm.setEnt h hmem e
    · rw [keyOf_setEnt, hkey]
    · rw [entOf_setEnt, if_pos rfl, hx]
      rfl
  | none =>
    have habove := h.above hhi hmatch
    obtain ⟨t, ht, hok, hkey, hent, hold⟩ := h.link hlo habove rnd hlvl e
    refine ⟨t, s.heap.length, lo ++ s.heap.length :: hi, ?_, hok, fun k x => ?_, by simp, hkey, hent⟩
    · rw [h.predecessors]
      exact congrArg (Option.map _) ht
    · have hnone {b : Nat} (hb : b ∈ lo ++ hi) : s.keyOf b ≠ key := fun heq => by
        have hself : compare key key = .eq := Std.ReflCmp.compare_self
        rcases List.mem_append.mp hb with hb | hb
        · have hlt := of_decide_eq_true (hlo b hb)
          rw [heq, hself] at hlt
          cases hlt
        · have hlt := habove b hb
          rw [heq, hself] at hlt
          cases hlt
      rw [Std.ExtTreeMap.getElem?_insert]
      simp only [Std.LawfulEqCmp.compare_eq_iff_eq]
      have hsplit : (∃ a ∈ lo ++ s.heap.length :: hi, t.keyOf a = k ∧ t.entOf a = some x) ↔
          (key = k ∧ e = x) ∨ ∃ a ∈ lo ++ hi, s.keyOf a = k ∧ s.entOf a = some x := by
        constructor
        · rintro ⟨b, hb, hbk, hbx⟩
          by_cases hb' : b = s.heap.length
          · rw [hb', hkey] at hbk
            rw [hb', hent] at hbx
            exact .inl ⟨hbk, Option.some.inj hbx⟩
          · have hb : b ∈ lo ++ hi := by simpa [hb'] using hb
            rw [(hold b hb).1] at hbk
            rw [(hold b hb).2] at hbx
            exact .inr ⟨b, hb, hbk, hbx⟩
        · rintro (⟨rfl, rfl⟩ | ⟨b, hb, hbk, hbx⟩)
          · exact ⟨s.heap.length, by simp, hkey, hent⟩
          · refine ⟨b, ?_, (hold b hb).1.trans hbk, (hold b hb).2.trans hbx⟩
            rcases List.mem_append.mp hb with hb | hb
            · exact List.mem_append_left _ hb
            · exact List.mem_append_right _ (List.mem_cons_of_mem _ hb)
      rw [hsplit]
      by_cases hk : key = k
      · subst hk
        rw [if_pos rfl]
        refine ⟨fun heq => .inl ⟨rfl, Option.some.inj heq⟩, ?_⟩
        rintro (⟨-, rfl⟩ | ⟨b, hb, hbk, -⟩)
        · rfl
        · exact absurd hbk (hnone hb)
      · rw [if_neg hk, hm]
        simp [hk]

/-- **A node is taken out** on every level it is on. -/
theorem Ok.unlink {a : Nat} {rest : List Nat} (h : Ok s (lo ++ a :: rest)) :
    ∃ t, SkipList.unlink a 0 ((List.range s.level).map (s.before lo)) s = some t ∧ Rewired s t ∧
      ∀ i < slMaxLevel, Links (t.next i) none (s.reaching i (lo ++ rest)) := by
  have hnodup := h.nodup
  have hne (i : Nat) : s.before lo i ≠ some a := fun heq => by
    rcases lastFrom_cases none (s.reaching i lo) with ⟨hnone, -⟩ | ⟨b, hb, hsome⟩
    · rw [before, hnone] at heq
      cases heq
    · rw [before, hsome] at heq
      exact (List.nodup_append.mp hnodup).2.2 b (mem_reaching.mp hb).1 a (List.mem_cons_self ..) (Option.some.inj heq)
  -- What the predecessors point to.
  have hahead {i : Nat} (hi' : i < slMaxLevel) : s.next i (s.before lo i) = some (s.reaching i (a :: rest)).head? := by
    have hlinks := h.links i hi'
    rw [reaching_append] at hlinks
    exact links_head (links_append.mp hlinks).2
  have htop {i : Nat} (hi' : i < slMaxLevel) (hto : s.next i (s.before lo i) = some (some a)) : i < s.height a := by
    rw [hahead hi'] at hto
    exact (mem_reaching.mp (List.mem_of_mem_head? (Option.some.inj hto))).2
  have hlevel := h.level.2
  obtain ⟨t, ht, hre, hnext⟩ := unlink_spec (a := a) (s.before lo) s.level 0 s fun j _ hj =>
    ⟨hne j, before_isSome h.head lo (by omega), htop (by omega)⟩
  refine ⟨t, by rw [List.range_eq_range']; exact ht, hre, fun i hi' => ?_⟩
  have hlinks := h.links i hi'
  have hlevelNodup := h.reaching_nodup i
  rw [reaching_append] at hlinks hlevelNodup ⊢
  by_cases hil : i < s.height a
  · have hmid : s.reaching i (a :: rest) = a :: s.reaching i rest := List.filter_cons_of_pos (decide_eq_true hil)
    have hto : s.next i (s.before lo i) = some (some a) := by
      rw [hahead hi', hmid]
      rfl
    have hlow : i < s.level := lt_of_lt_of_le hil (h.heights a (by simp)).2
    rw [hmid] at hlinks hlevelNodup
    refine hlinks.remove hlevelNodup ?_ fun y hy => ?_
    · exact (hnext i (s.before lo i)).trans (if_pos ⟨by omega, rfl, hto⟩)
    · rw [hnext, if_neg fun hc => hy hc.2.1]
  · have hmid : s.reaching i (a :: rest) = s.reaching i rest := List.filter_cons_of_neg (by simpa using hil)
    have hsame (y : Option Nat) : t.next i y = s.next i y := by
      rw [hnext, if_neg fun hc => hil (htop hi' hc.2.2)]
    rw [hmid] at hlinks
    exact hlinks.rehang (hsame none) fun b _ => hsame _

/-- **`remove` reports whether the key was there**, and it is not there afterwards. -/
theorem Ok.remove {m : Index} (h : Ok s order) (hm : Lists s order m) (key : Bytes) :
    ∃ t order', s.remove key = some (t, decide (key ∈ m)) ∧ Ok t order' ∧ Lists t order' (m.erase key) := by
  obtain ⟨lo, hi, rfl, hlo, hhi⟩ := h.split key
  obtain ⟨hsearch, hhead, hnext⟩ := h.arrive hlo hhi
  have hself : compare key key = .eq := Std.ReflCmp.compare_self
  have hlow {b : Nat} (hb : b ∈ lo) : s.keyOf b ≠ key := fun heq => by
    have hlt := of_decide_eq_true (hlo b hb)
    rw [heq, hself] at hlt
    cases hlt
  rw [SkipList.remove, hsearch]
  simp only [hhead, hnext]
  cases hmatch : s.matching key hi.head? with
  | none =>
    have hout : key ∉ m := fun hmem => by
      obtain ⟨x, hx⟩ := Option.isSome_iff_exists.mp (Std.ExtTreeMap.mem_iff_isSome_getElem?.mp hmem)
      obtain ⟨b, hb, hbk, -⟩ := (hm key x).mp hx
      rcases List.mem_append.mp hb with hb | hb
      · exact hlow hb hbk
      · have hlt := h.above hhi hmatch b hb
        rw [hbk, hself] at hlt
        cases hlt
    refine ⟨s, lo ++ hi, by rw [decide_eq_false hout], h, ?_⟩
    rwa [erase_eq_self (Std.ExtTreeMap.getElem?_eq_none hout)]
  | some a =>
    obtain ⟨ha, hkey⟩ : hi.head? = some a ∧ s.keyOf a = key := by
      simpa [matching, Option.filter_eq_some_iff] using hmatch
    obtain ⟨rest, rfl⟩ := List.head?_eq_some_iff.mp ha
    have hmem : a ∈ lo ++ a :: rest := by simp
    have hin : key ∈ m := by
      obtain ⟨x, hx⟩ := entOf_isSome (h.heights a hmem).1
      rw [Std.ExtTreeMap.mem_iff_isSome_getElem?, (hm key x).mpr ⟨a, hmem, hkey, hx⟩]
      rfl
    obtain ⟨t, ht, hre, hlinks⟩ := h.unlink
    have hlevel : t.level = s.level := hre.level
    have hroom : t.level ≤ t.head.length := by
      rw [hre.head, hlevel, h.head]
      exact h.level.2
    obtain ⟨l, hl, hpos, hle, hnil⟩ := shrink_spec hroom (by rw [hlevel]; exact h.level.1)
    have hsub : lo ++ rest ⊆ lo ++ a :: rest :=
      (List.Sublist.append_left (List.sublist_cons_self a rest) lo).subset
    have hreach (i : Nat) : ({t with level := l, n := t.n - 1} : SkipList).reaching i
        (lo ++ rest) = s.reaching i (lo ++ rest) :=
      hre.reaching i _
    refine ⟨{t with level := l, n := t.n - 1}, lo ++ rest, ?_,
      ⟨?_, ?_, fun b hb => ?_, ?_, fun i hi' => ?_, ?_⟩, fun k x => ?_⟩
    · simp only [ht, hl, Option.map_some, hin, decide_true]
    · exact hre.head.trans h.head
    · have := h.level.2
      show 1 ≤ l ∧ l ≤ slMaxLevel
      omega
    · obtain ⟨hb1, hb2⟩ := h.heights b (hsub hb)
      have hbt : t.height b = s.height b := hre.height b
      show 0 < t.height b ∧ t.height b ≤ l
      refine ⟨by omega, ?_⟩
      -- A node above the new level would hang from the head there.
      by_contra hgt
      have hlevels := h.level.2
      have hhang := hlinks (s.height b - 1) (by omega)
      have hin : b ∈ s.reaching (s.height b - 1) (lo ++ rest) := mem_reaching.mpr ⟨hb, by omega⟩
      have hfirst := links_head hhang
      have hzero : t.next (s.height b - 1) none = some none := hnil _ (by omega) (by omega)
      rw [hzero] at hfirst
      rw [List.head?_eq_none_iff.mp (Option.some.inj hfirst).symm] at hin
      exact absurd hin List.not_mem_nil
    · show (lo ++ rest).Pairwise fun a b => compare (t.keyOf a) (t.keyOf b) = .lt
      simp only [hre.keyOf]
      exact h.sorted.sublist (List.Sublist.append_left (List.sublist_cons_self a rest) lo)
    · rw [hreach]
      exact hlinks i hi'
    · have hn : t.n = s.n := hre.n
      show t.n - 1 = _
      rw [hn, h.n]
      simp only [List.length_append, List.length_cons]
      omega
    · rw [Std.ExtTreeMap.getElem?_erase]
      simp only [Std.LawfulEqCmp.compare_eq_iff_eq]
      show _ ↔ ∃ b ∈ lo ++ rest, t.keyOf b = k ∧ t.entOf b = some x
      simp only [hre.keyOf, hre.entOf]
      have hnot : a ∉ lo ++ rest := (List.nodup_middle.mp h.nodup |> List.nodup_cons.mp).1
      by_cases hk : key = k
      · rw [if_pos hk]
        refine ⟨fun hbad => (by cases hbad), fun ⟨b, hb, hbk, _⟩ => absurd hb ?_⟩
        rwa [h.keyOf_inj (hsub hb) hmem (hbk.trans (hk.symm.trans hkey.symm))]
      · rw [if_neg hk, hm]
        refine exists_congr fun b => and_congr_left fun ⟨hbk, _⟩ => ?_
        have hba : b ≠ a := fun heq => hk (hkey.symm.trans (heq ▸ hbk))
        simp [hba]

/-! ### Whole runs -/

/-- A call on the list. An insertion comes with what the generator gives it: its next state, and
a level of one to twenty. -/
inductive Call where
  | insert (key : Bytes) (e : Entry) (rnd : UInt64) (level : Fin slMaxLevel)
  | remove (key : Bytes)

/-- The list after a call, and what `remove` reports. -/
def call (s : SkipList) : Call → Option (SkipList × Option Bool)
  | .insert key e rnd level => (s.insertAt rnd (level + 1) key e).map fun x => (x.1, none)
  | .remove key => (s.remove key).map fun x => (x.1, some x.2)

def calls (s : SkipList) : List Call → Option (SkipList × List (Option Bool))
  | [] => some (s, [])
  | c :: rest =>
    match s.call c with
    | none => none
    | some (t, out) => (t.calls rest).map fun x => (x.1, out :: x.2)

/-- The same calls on a map. -/
def indexCall (m : Index) : Call → Index × Option Bool
  | .insert key e _ _ => (m.insert key e, none)
  | .remove key => (m.erase key, some (decide (key ∈ m)))

/-- The pairs of level 0. -/
def contents (s : SkipList) : List (Bytes × Entry) :=
  (s.nodes 0).filterMap fun a => (s.heap[a]?).map fun nd => (nd.key, nd.ent)

/-- What a skip list is to be. -/
structure Sound (s : SkipList) (m : Index) : Prop where
  /-- On each level the pointers run through its nodes and end there. -/
  links : ∀ i < slMaxLevel, Links (s.next i) none (s.nodes i)
  sorted : ∀ i < slMaxLevel, (s.nodes i).Pairwise fun a b => compare (s.keyOf a) (s.keyOf b) = .lt
  sublist : ∀ i, i + 1 < slMaxLevel → (s.nodes (i + 1)).Sublist (s.nodes i)
  empty : ∀ i < slMaxLevel, s.level ≤ i → s.next i none = some none
  n : s.n = (s.nodes 0).length
  contents : s.contents = m.toList
  seek : ∀ key, s.seek key = some ((s.nodes 0).find? fun a => !s.below key a)

theorem Ok.nodes_eq (h : Ok s order) {i : Nat} (hi' : i < slMaxLevel) : s.nodes i = s.reaching i order := by
  refine (h.links i hi').trace_eq ?_
  rw [h.n]
  exact List.length_filter_le ..

theorem Ok.sound {m : Index} (h : Ok s order) (hm : Lists s order m) : Sound s m := by
  have hzero : s.nodes 0 = order := (h.nodes_eq (by decide)).trans (h.reaching_zero (List.Subset.refl _))
  refine ⟨fun i hi' => ?_, fun i hi' => ?_, fun i hi' => ?_, fun i hi' hlevel => ?_, ?_, ?_, fun key => ?_⟩
  · rw [h.nodes_eq hi']
    exact h.links i hi'
  · rw [h.nodes_eq hi']
    exact h.sorted.sublist List.filter_sublist
  · rw [h.nodes_eq hi', h.nodes_eq (by omega)]
    refine List.monotone_filter_right order fun a ha => ?_
    simp only [decide_eq_true_eq] at ha ⊢
    omega
  · have := links_head (h.links i hi')
    rwa [h.reaching_high hlevel] at this
  · rw [hzero, h.n]
  · have hnode {a : Nat} (ha : a ∈ order) : (s.heap[a]?).map (fun nd => (nd.key, nd.ent)) =
        (s.entOf a).map fun e => (s.keyOf a, e) := by
      rw [entOf, keyOf, List.getElem?_eq_getElem (mem_heap (h.heights a ha).1)]
      rfl
    have hlist : s.contents = order.filterMap fun a => (s.entOf a).map fun e => (s.keyOf a, e) := by
      rw [SkipList.contents, hzero]
      exact List.filterMap_congr fun a ha => hnode ha
    rw [hlist]
    refine (toList_eq_of_mem ?_ fun k e => ?_).symm
    · refine List.pairwise_filterMap.mpr (h.sorted.imp fun {a b} hlt x hx y hy => ?_)
      obtain ⟨_, _, rfl⟩ := Option.map_eq_some_iff.mp hx
      obtain ⟨_, _, rfl⟩ := Option.map_eq_some_iff.mp hy
      exact hlt
    · rw [hm, List.mem_filterMap]
      refine exists_congr fun a => and_congr_right fun _ => ?_
      simp only [Option.map_eq_some_iff, Prod.mk.injEq]
      exact ⟨fun ⟨hk, he⟩ => ⟨e, he, hk, rfl⟩, fun ⟨x, hx, hk, hxe⟩ => ⟨hk, hxe ▸ hx⟩⟩
  · obtain ⟨lo, hi, rfl, hlo, hhi⟩ := h.split key
    rw [h.seek hlo hhi, hzero, List.find?_append]
    have hskip : lo.find? (fun a => !s.below key a) = none :=
      List.find?_eq_none.mpr fun a ha => by simp [hlo a ha]
    rw [hskip, Option.none_or]
    cases hi with
    | nil => rfl
    | cons b rest =>
      rw [List.find?_cons_of_pos (by simp [hhi b (List.mem_cons_self ..)])]
      rfl

/-- **One call** keeps the list in step with the map. -/
theorem Ok.call {m : Index} (h : Ok s order) (hm : Lists s order m) (c : Call) :
    ∃ t order', s.call c = some (t, (indexCall m c).2) ∧ Ok t order' ∧ Lists t order' (indexCall m c).1 := by
  cases c with
  | insert key e rnd level =>
    have hlvl : 1 ≤ level.val + 1 ∧ level.val + 1 ≤ slMaxLevel := ⟨by omega, level.isLt⟩
    obtain ⟨t, a, order', ht, hok, hlists, -⟩ := h.insertAt hm rnd hlvl key e
    exact ⟨t, order', by rw [SkipList.call, ht]; rfl, hok, hlists⟩
  | remove key =>
    obtain ⟨t, order', ht, hok, hlists⟩ := h.remove hm key
    exact ⟨t, order', by rw [SkipList.call, ht]; rfl, hok, hlists⟩

/-- The calls one after the other on a map. -/
def indexMachine : Machine Call Index (Option Bool) := ⟨indexCall⟩

theorem Ok.calls {m : Index} (h : Ok s order) (hm : Lists s order m) (cs : List Call) :
    ∃ t order', s.calls cs = some (t, (indexMachine.run m cs).2) ∧ Ok t order' ∧
      Lists t order' (indexMachine.run m cs).1 := by
  induction cs generalizing s order m with
  | nil => exact ⟨s, order, rfl, h, hm⟩
  | cons c rest ih =>
    obtain ⟨t, order', ht, hok, hlists⟩ := h.call hm c
    obtain ⟨u, order'', hu, hok', hlists'⟩ := ih hok hlists
    refine ⟨u, order'', ?_, hok', hlists'⟩
    rw [SkipList.calls, ht]
    simp only
    have hu : t.calls rest = some (u, (indexMachine.run (indexCall m c).1 rest).2) := hu
    rw [hu]
    rfl

/-- **Every run of insertions and removals**, whatever levels the generator gives, goes through
without a pointer out of range, reports what a map would, and leaves a skip list of the map. -/
theorem calls_sound (cs : List Call) :
    ∃ t, newSkiplist.calls cs = some (t, (indexMachine.run ∅ cs).2) ∧ Sound t (indexMachine.run ∅ cs).1 := by
  have hempty : Lists newSkiplist [] ∅ := fun k e => by simp
  obtain ⟨t, order, ht, hok, hlists⟩ := ok_new.calls hempty cs
  exact ⟨t, ht, hok.sound hlists⟩

/-- What `randomLevel` gives is among the levels of a call. -/
theorem insert_call (s : SkipList) (key : Bytes) (e : Entry) : ∃ rnd level,
    s.call (.insert key e rnd level) = (s.insert key e).map fun x => (x.1, none) := by
  obtain ⟨h1, h2⟩ := s.randomLevel_le
  refine ⟨s.randomLevel.1, ⟨s.randomLevel.2 - 1, by omega⟩, ?_⟩
  rw [SkipList.call, SkipList.insert]
  congr 2
  exact Nat.sub_add_cancel h1

end SkipList

end Gokv.Engine
