import Gokv.Engine.Midway
import Gokv.Engine.ScanRace

/-! `SnapshotRecords` beside any number of merges.

The call collects a chunk of locators under the index lock and then fetches record by record,
each with up to three attempts and a look at the index in between. A courier is where the call
stands; it takes turns with the steps of one `Compact` after another. Whether a live key is sent
is decided by its record alone: a key whose record cannot be read is left out and the call still
returns nil, one whose record can be read is sent unless merges take the file of its last locator
away (`shipped_iff`). -/
namespace Gokv.Engine
open Base

/-- Where a call of `SnapshotRecords` stands. -/
inductive Courier where
  | collect (cursor : Option Bytes)
  /-- `rawRecord` is about to read, with so many attempts after this one. -/
  | attempt (key : Bytes) (e : Entry) (left : Nat) (refs : List (Bytes × Entry)) (cursor : Bytes)
  /-- It has not got the record and is about to look the key up again. -/
  | resolve (key : Bytes) (left : Nat) (refs : List (Bytes × Entry)) (cursor : Bytes)
  | done
  deriving DecidableEq

namespace Courier

/-- On to the next record of the chunk, or to the next chunk. -/
def resume (cursor : Bytes) : List (Bytes × Entry) → Courier
  | [] => .collect (some cursor)
  | x :: refs => .attempt x.1 x.2 2 refs cursor

section Next
variable [Checksum]

/-- The next step of the call, and what it passes to the callback. A key that is gone and a
record that was not got in three attempts are both skipped. -/
def next (s : Store) : Courier → Courier × List Bytes
  | .collect cursor =>
    let chunk := Store.takeChunk 512 4096 (s.behind cursor)
    match chunk.getLast? with
    | none => (.done, [])
    | some last => (resume last.1 (chunk.filter fun x => !x.2.tomb), [])
  | .attempt key e left refs cursor =>
    match s.readRaw e with
    | some raw => (resume cursor refs, [raw])
    | none => (.resolve key left refs cursor, [])
  | .resolve key left refs cursor =>
    match s.keys[key]?, left with
    | some n, left + 1 => (.attempt key n left refs cursor, [])
    | some _, 0 | none, _ => (resume cursor refs, [])
  | .done => (.done, [])

end Next

/-- The locators in hand. -/
def held : Courier → List (Bytes × Entry)
  | .attempt key e _ refs _ => (key, e) :: refs
  | .resolve _ _ refs _ => refs
  | .collect _ | .done => []

/-- The locator of an attempt that is the last one. -/
def final : Courier → List (Bytes × Entry)
  | .attempt key e 0 _ _ => [(key, e)]
  | _ => []

end Courier

/-- A store, the `Compact` that runs on it or was the last to, and a call of `SnapshotRecords`. -/
structure Shipping where
  store : Store
  merge : Option Merge
  courier : Courier
  sent : List Bytes

section Shipping
variable [Checksum]

/-- A step of either side. -/
def Shipping.step (o : Shipping) : Side → Shipping
  | .compact => {o with
      store := (o.store.advance o.merge).1
      merge := some (o.store.advance o.merge).2}
  | .read => {o with
      courier := (o.courier.next o.store).1
      sent := o.sent ++ (o.courier.next o.store).2}

def shippingMachine : Machine Side Shipping Unit := ⟨fun o i => (o.step i, ())⟩

/-- A merge does not remove the file a last attempt is about to read, and no file that a locator
in hand names comes back under its id. -/
def Considerate (o : Shipping) : Side → Prop
  | .compact =>
    (∀ x ∈ o.courier.final, x.2.fileID ∈ o.store.files → x.2.fileID ∈ (o.store.advance o.merge).1.files) ∧
      ∀ x ∈ o.courier.held, x.2.fileID ∈ (o.store.advance o.merge).1.files → x.2.fileID ∈ o.store.files
  | .read => True

instance decidableConsiderate (o : Shipping) : (i : Side) → Decidable (Considerate o i)
  | .compact => inferInstanceAs (Decidable ((∀ x ∈ o.courier.final,
      x.2.fileID ∈ o.store.files → x.2.fileID ∈ (o.store.advance o.merge).1.files) ∧
      ∀ x ∈ o.courier.held, x.2.fileID ∈ (o.store.advance o.merge).1.files → x.2.fileID ∈ o.store.files))
  | .read => isTrue trivial

/-- A record of the key has been passed to the callback. -/
def Shipping.Shipped (o : Shipping) (k : Bytes) : Prop := ∃ raw ∈ o.sent, ∃ r, decodeRecord raw = .ok r ∧ r.key = k

/-! ### Locators in hand -/

variable {K R : Set Bytes} {s : Store} {merge : Option Merge} {x : Bytes × Entry}

/-- What a locator in hand is worth: as long as its file is there, it leads where it led. -/
structure InHand (K R : Set Bytes) (s : Store) (merge : Option Merge) (x : Bytes × Entry) : Prop where
  live : x.1 ∈ K
  draft : x.2.fileID ∈ s.files → x.2.fileID ∉ draftsOf merge
  finds : x.2.fileID ∈ s.files → x.1 ∈ R → s.Finds x
  lost : x.2.fileID ∈ s.files → x.1 ∉ R → ∃ err, Store.readRecord s.dir x.2 = .error err

/-- A locator of the index is good. -/
theorem Tending.kept (h : Tending K R s merge) (hx : x ∈ s.liveEntries) : InHand K R s merge x where
  live := (h.standing.live x.1).mpr ⟨x.2, mem_liveEntries.mp hx⟩
  draft _ := by
    cases merge with
    | none => exact List.not_mem_nil
    | some m => exact h.drafts_apart hx
  finds _ := h.standing.finds x hx
  lost _ := h.standing.lost x hx

/-- A merge may take its file away, nothing else. -/
theorem InHand.advance (hk : InHand K R s merge x) (h : Tending K R s merge)
    (hback : x.2.fileID ∈ (s.advance merge).1.files → x.2.fileID ∈ s.files) :
    InHand K R (s.advance merge).1 (some (s.advance merge).2) x := by
  have hframe (hfile : x.2.fileID ∈ (s.advance merge).1.files) :
      (s.advance merge).1.dir.bytes x.2.fileID = s.dir.bytes x.2.fileID ∧ x.2.fileID ∉ (s.advance merge).2.drafts := by
    have hold := hback hfile
    have hdata := Dir.mem_data.mpr ((Store.mem_files h.standing.files).mp hold)
    refine (h.frame hdata (hk.draft hold)).resolve_left fun hgone => ?_
    obtain ⟨b, hb⟩ := (Store.mem_files h.advance.standing.files).mp hfile
    rw [hgone] at hb
    cases hb
  constructor
  case live => exact hk.live
  case draft => exact fun hfile => (hframe hfile).2
  case finds => exact fun hfile hr => (hk.finds (hback hfile) hr).congr (hframe hfile).1
  case lost =>
    intro hfile hr
    obtain ⟨err, herr⟩ := hk.lost (hback hfile) hr
    exact ⟨err, (readRecord_congr (hframe hfile).1).trans herr⟩

/-- What an attempt gets is a record of its key, and of a key that can be read. -/
theorem InHand.readRaw (hk : InHand K R s merge x) (hst : Standing K R s) {raw : Bytes}
    (hraw : s.readRaw x.2 = some raw) :
    x.1 ∈ R ∧ ∃ r, decodeRecord raw = .ok r ∧ r.key = x.1 := by
  have hfile : x.2.fileID ∈ s.files := by
    by_contra hgone
    rw [Store.readRaw, if_pos hgone] at hraw
    cases hraw
  rw [readRaw_eq hst.files] at hraw
  obtain ⟨r, hr, rfl⟩ := Option.map_eq_some_iff.mp hraw
  have hR : x.1 ∈ R := by
    by_contra hlost
    obtain ⟨err, herr⟩ := hk.lost hfile hlost
    rw [Store.recordAt, herr] at hr
    cases hr
  obtain ⟨r₀, hread, hkey, -⟩ := hk.finds hfile hR
  rw [Store.recordAt, hread] at hr
  cases hr
  obtain ⟨buf, hbuf⟩ := decode_of_read hread
  exact ⟨hR, r₀.lifted, decodeRecord_lifted hbuf, hkey⟩

theorem bytes_of_read {d : Dir} {e : Entry} {r : Record} (h : Store.readRecord d e = .ok r) :
    ∃ b, d.bytes e.fileID = some b := by
  cases hb : d.bytes e.fileID with
  | some b => exact ⟨b, rfl⟩
  | none =>
    have hgone : d.data[e.fileID]? = none := Option.map_eq_none_iff.mp hb
    rw [Store.readRecord, Dir.readAt, hgone] at h
    cases h

/-- An attempt at a readable key fails only if the file is gone. -/
theorem InHand.gone (hk : InHand K R s merge x) (hst : Standing K R s) (hR : x.1 ∈ R) (hraw : s.readRaw x.2 = none) :
    x.2.fileID ∉ s.files := by
  intro hfile
  obtain ⟨r₀, hread, -⟩ := hk.finds hfile hR
  rw [readRaw_eq hst.files, Store.recordAt, hread] at hraw
  cases hraw

/-! ### What is still to come -/

/-- The call has the key before it. -/
def Courier.Ahead (k : Bytes) : Courier → Prop
  | .collect none => True
  | .collect (some cursor) => compare cursor k = .lt
  | .attempt key _ _ refs cursor | .resolve key _ refs cursor =>
    k = key ∨ k ∈ refs.map Prod.fst ∨ compare cursor k = .lt
  | .done => False

omit [Checksum] in
theorem Courier.ahead_resume {k cursor : Bytes} {refs : List (Bytes × Entry)} :
    (Courier.resume cursor refs).Ahead k ↔ k ∈ refs.map Prod.fst ∨ compare cursor k = .lt := by
  cases refs with
  | nil => simp [resume, Ahead]
  | cons x refs => simp [resume, Ahead, or_assoc]

omit [Checksum] in
theorem Courier.held_resume (cursor : Bytes) (refs : List (Bytes × Entry)) :
    (Courier.resume cursor refs).held = refs := by
  cases refs <;> rfl

omit [Checksum] in
theorem Courier.final_resume (cursor : Bytes) (refs : List (Bytes × Entry)) :
    (Courier.resume cursor refs).final = [] := by
  cases refs <;> rfl

omit [Checksum] in
theorem takeChunk_nil {xs : List (Bytes × Entry)} (h : Store.takeChunk 512 4096 xs = []) : xs = [] := by
  cases xs with
  | nil => rfl
  | cons x rest => cases h

omit [Checksum] in
theorem mem_behind {cursor : Option Bytes} (hx : s.keys[x.1]? = some x.2) (ha : (Courier.collect cursor).Ahead x.1) :
    x ∈ s.behind cursor := by
  have hmem := Std.ExtTreeMap.mem_toList_iff_getElem?_eq_some.mpr hx
  cases cursor with
  | none => exact hmem
  | some c => exact List.mem_filter.mpr ⟨hmem, decide_eq_true ha⟩

omit [Checksum] in
theorem behind_sublist (s : Store) (cursor : Option Bytes) : (s.behind cursor).Sublist s.keys.toList := by
  cases cursor with
  | none => exact List.Sublist.refl _
  | some c => exact List.filter_sublist

omit [Checksum] in
/-- A key before the call is in the chunk it collects, or behind it. -/
theorem Courier.ahead_collect {cursor : Option Bytes} {last : Bytes × Entry}
    (hlast : (Store.takeChunk 512 4096 (s.behind cursor)).getLast? = some last) (hx : x ∈ s.liveEntries)
    (ha : (Courier.collect cursor).Ahead x.1) :
    (Courier.resume last.1 ((Store.takeChunk 512 4096 (s.behind cursor)).filter fun x => !x.2.tomb)).Ahead x.1 := by
  obtain ⟨hkey, hlive⟩ := lookup_eq_some.mp (mem_liveEntries.mp hx)
  obtain ⟨rest, hrest⟩ := takeChunk_isInit 512 4096 (s.behind cursor)
  obtain ⟨init, hinit⟩ := List.getLast?_eq_some_iff.mp hlast
  have hmem := mem_behind hkey ha
  rw [Courier.ahead_resume]
  rw [← hrest] at hmem
  rcases List.mem_append.mp hmem with hchunk | hafter
  · exact .inl (List.mem_map_of_mem (List.mem_filter.mpr ⟨hchunk, by rw [hlive]; rfl⟩))
  · have hsorted := (Std.ExtTreeMap.ordered_keys_toList (t := s.keys)).sublist (behind_sublist s cursor)
    rw [← hrest, hinit, List.append_assoc] at hsorted
    obtain ⟨-, htail, -⟩ := List.pairwise_append.mp hsorted
    exact .inr ((List.pairwise_cons.mp htail).1 x hafter)

/-! ### A call beside the merges -/

/-- What every step of either side keeps. -/
structure Delivering (K R : Set Bytes) (o : Shipping) : Prop where
  tending : Tending K R o.store o.merge
  kept : ∀ x ∈ o.courier.held, InHand K R o.store o.merge x
  /-- A last attempt has its file. -/
  final : ∀ x ∈ o.courier.final, x.1 ∈ R → x.2.fileID ∈ o.store.files
  /-- A readable key is looked up again only with an attempt left. -/
  spare : ∀ key left refs cursor, o.courier = .resolve key left refs cursor → key ∈ K ∧ (key ∈ R → 0 < left)
  reaches : ∀ k ∈ K, k ∈ R → o.Shipped k ∨ o.courier.Ahead k
  sent : ∀ k, o.Shipped k → k ∈ R

theorem Delivering.compact {o : Shipping} (h : Delivering K R o) (hrule : Considerate o .compact) :
    Delivering K R (o.step .compact) where
  tending := h.tending.advance
  kept x hx := (h.kept x hx).advance h.tending (hrule.2 x hx)
  final x hx hr := hrule.1 x hx (h.final x hx hr)
  spare := h.spare
  reaches := h.reaches
  sent := h.sent

/-- On to the next record, with nothing lost on the way. -/
theorem Delivering.resume {o : Shipping} (h : Delivering K R o) {cursor : Bytes} {refs : List (Bytes × Entry)}
    {raws : List Bytes}
    (hkept : ∀ x ∈ refs, InHand K R o.store o.merge x)
    (hraws : ∀ raw ∈ raws, ∀ r, decodeRecord raw = .ok r → r.key ∈ R)
    (hreach : ∀ k ∈ K, k ∈ R → o.courier.Ahead k → (∃ raw ∈ raws, ∃ r, decodeRecord raw = .ok r ∧ r.key = k) ∨
      k ∈ refs.map Prod.fst ∨ compare cursor k = .lt) :
    Delivering K R {o with courier := .resume cursor refs, sent := o.sent ++ raws} where
  tending := h.tending
  kept x hx := hkept x (by rwa [← Courier.held_resume cursor refs])
  final x hx := by
    rw [Courier.final_resume] at hx
    cases hx
  spare key left refs' cursor' heq := by cases refs <;> cases heq
  reaches k hk hr := by
    rcases h.reaches k hk hr with ⟨raw, hraw, hrec⟩ | ha
    · exact .inl ⟨raw, List.mem_append_left _ hraw, hrec⟩
    · rcases hreach k hk hr ha with ⟨raw, hraw, hrec⟩ | ha'
      · exact .inl ⟨raw, List.mem_append_right _ hraw, hrec⟩
      · exact .inr (Courier.ahead_resume.mpr ha')
  sent k hk := by
    obtain ⟨raw, hraw, r, hr, rfl⟩ := hk
    rcases List.mem_append.mp hraw with hold | hnew
    · exact h.sent _ ⟨raw, hold, r, hr, rfl⟩
    · exact hraws raw hnew r hr

theorem Delivering.collect {merge : Option Merge} {cursor : Option Bytes} {sent : List Bytes}
    (h : Delivering K R ⟨s, merge, .collect cursor, sent⟩) :
    Delivering K R (Shipping.step ⟨s, merge, .collect cursor, sent⟩ .read) := by
  have hst := h.tending.standing
  show Delivering K R ⟨s, merge, ((Courier.collect cursor).next s).1, sent ++ ((Courier.collect cursor).next s).2⟩
  dsimp only [Courier.next]
  cases hlast : (Store.takeChunk 512 4096 (s.behind cursor)).getLast? with
  | none =>
    have hnil := takeChunk_nil (List.getLast?_eq_none_iff.mp hlast)
    dsimp only
    rw [List.append_nil]
    refine ⟨h.tending, ?_, ?_, ?_, fun k hk hr => ?_, h.sent⟩
    · rintro x ⟨⟩
    · rintro x ⟨⟩
    · rintro _ _ _ _ ⟨⟩
    refine (h.reaches k hk hr).imp_right fun ha => ?_
    obtain ⟨e, he⟩ := (hst.live k).mp hk
    have hmem := mem_behind (x := (k, e)) (lookup_eq_some.mp he).1 ha
    rw [hnil] at hmem
    cases hmem
  | some last =>
    refine h.resume (fun x hx => ?_) (fun raw hraw => by cases hraw) fun k hk hr ha => .inr ?_
    · obtain ⟨hchunk, hlive⟩ := List.mem_filter.mp hx
      have hchunk := List.IsPrefix.subset (takeChunk_isInit 512 4096 _) hchunk
      have hkeys := (behind_sublist s cursor).subset hchunk
      exact h.tending.kept (List.mem_filter.mpr ⟨hkeys, hlive⟩)
    · obtain ⟨e, he⟩ := (hst.live k).mp hk
      exact Courier.ahead_resume.mp (Courier.ahead_collect hlast (x := (k, e)) (mem_liveEntries.mpr he) ha)

theorem Delivering.attempt {merge : Option Merge} {key cursor : Bytes} {e : Entry} {left : Nat}
    {refs : List (Bytes × Entry)}
    {sent : List Bytes} (h : Delivering K R ⟨s, merge, .attempt key e left refs cursor, sent⟩) :
    Delivering K R (Shipping.step ⟨s, merge, .attempt key e left refs cursor, sent⟩ .read) := by
  have hst := h.tending.standing
  have hhand : InHand K R s merge (key, e) := h.kept _ (List.mem_cons_self ..)
  have hrefs : ∀ x ∈ refs, InHand K R s merge x := fun x hx => h.kept x (List.mem_cons_of_mem _ hx)
  show Delivering K R ⟨s, merge, ((Courier.attempt key e left refs cursor).next s).1,
    sent ++ ((Courier.attempt key e left refs cursor).next s).2⟩
  dsimp only [Courier.next]
  cases hraw : s.readRaw e with
  | some raw =>
    obtain ⟨hR, r, hr, hkey⟩ := hhand.readRaw hst hraw
    refine h.resume hrefs (fun raw' hmem r' hr' => ?_) fun k hk hkR ha => ?_
    · rw [List.mem_singleton.mp hmem] at hr'
      cases Except.ok.inj (hr.symm.trans hr')
      exact hkey ▸ hR
    · rcases ha with rfl | ha
      · exact .inl ⟨raw, List.mem_singleton_self _, r, hr, hkey⟩
      · exact .inr ha
  | none =>
    dsimp only
    rw [List.append_nil]
    refine ⟨h.tending, hrefs, ?_, ?_, h.reaches, h.sent⟩
    · rintro x ⟨⟩
    rintro _ _ _ _ ⟨⟩
    refine ⟨hhand.live, fun hR => Nat.pos_of_ne_zero ?_⟩
    -- the rule has kept the file of a last attempt, so a readable record was read
    rintro rfl
    exact hhand.gone hst hR hraw (h.final (key, e) (List.mem_singleton_self _) hR)

theorem Delivering.resolve {merge : Option Merge} {key cursor : Bytes} {left : Nat} {refs : List (Bytes × Entry)}
    {sent : List Bytes} (h : Delivering K R ⟨s, merge, .resolve key left refs cursor, sent⟩) :
    Delivering K R (Shipping.step ⟨s, merge, .resolve key left refs cursor, sent⟩ .read) := by
  have hst := h.tending.standing
  obtain ⟨hK, hspare⟩ := h.spare key left refs cursor rfl
  obtain ⟨n, hn⟩ := (hst.live key).mp hK
  have hmem : (key, n) ∈ s.liveEntries := mem_liveEntries.mpr hn
  have hkey := (lookup_eq_some.mp hn).1
  show Delivering K R ⟨s, merge, ((Courier.resolve key left refs cursor).next s).1,
    sent ++ ((Courier.resolve key left refs cursor).next s).2⟩
  cases left with
  | zero =>
    simp only [Courier.next, hkey]
    refine h.resume h.kept (fun raw hraw => by cases hraw) fun k hk hR ha => .inr ?_
    rcases ha with rfl | ha
    · exact absurd (hspare hR) (Nat.lt_irrefl 0)
    · exact ha
  | succ left =>
    simp only [Courier.next, hkey, List.append_nil]
    refine ⟨h.tending, fun x hx => ?_, fun x hx hR => ?_, ?_, h.reaches, h.sent⟩
    · rcases List.mem_cons.mp hx with rfl | hx
      · exact h.tending.kept hmem
      · exact h.kept x hx
    · have heq : x = (key, n) := by
        cases left with
        | zero => exact List.mem_singleton.mp hx
        | succ left => cases hx
      rw [heq] at hR ⊢
      obtain ⟨r, hr, -⟩ := hst.finds _ hmem hR
      exact (Store.mem_files hst.files).mpr (bytes_of_read hr)
    · rintro _ _ _ _ ⟨⟩

/-- **A step of either side** keeps it. -/
theorem Delivering.step {o : Shipping} {i : Side} (h : Delivering K R o) (hrule : Considerate o i) :
    Delivering K R (o.step i) := by
  cases i with
  | compact => exact h.compact hrule
  | read =>
    obtain ⟨s, merge, courier, sent⟩ := o
    cases courier with
    | collect cursor => exact h.collect
    | attempt key e left refs cursor => exact h.attempt
    | resolve key left refs cursor => exact h.resolve
    | done =>
      show Delivering K R ⟨s, merge, .done, sent ++ []⟩
      rw [List.append_nil]
      exact h

/-- The call has begun on a store that no `Compact` runs on. -/
def Store.ship (s : Store) : Shipping := ⟨s, none, .collect none, []⟩

theorem Delivering.start (hs : Placed s) (hsize : ∀ x ∈ s.liveEntries, x.2.size < 2 ^ 32)
    (hown : ∀ x ∈ s.liveEntries, s.Finds x ∨ ∃ err, Store.readRecord s.dir x.2 = .error err) :
    Delivering {k | ∃ e, s.lookup k = some e} {k | ∃ e, s.lookup k = some e ∧ s.Finds (k, e)} s.ship := by
  have hlook {x : Bytes × Entry} (hx : x ∈ s.liveEntries) := mem_liveEntries.mp hx
  have hst : Standing {k | ∃ e, s.lookup k = some e} {k | ∃ e, s.lookup k = some e ∧ s.Finds (k, e)} s := by
    constructor
    case files => exact hs.files
    case live => exact fun k => Iff.rfl
    case finds =>
      rintro x hx ⟨e, he, hf⟩
      cases Option.some.inj ((hlook hx).symm.trans he)
      exact hf
    case lost => exact fun x hx hr => (hown x hx).resolve_left fun hf => hr ⟨x.2, hlook hx, hf⟩
    case sizes => exact hsize
  constructor
  case tending => exact .rest hs hst (by rintro m ⟨⟩)
  case kept => rintro x ⟨⟩
  case final => rintro x ⟨⟩
  case spare => rintro _ _ _ _ ⟨⟩
  case reaches => exact fun _ _ _ => .inr trivial
  case sent => rintro k ⟨raw, ⟨⟩, -⟩

/-- **A call of `SnapshotRecords` that returns nil** has sent exactly the live keys whose records
can be read, whatever merges run beside it, if they leave its last attempts their files. -/
theorem shipped_iff (hs : Placed s) (hsize : ∀ x ∈ s.liveEntries, x.2.size < 2 ^ 32)
    (hown : ∀ x ∈ s.liveEntries, s.Finds x ∨ ∃ err, Store.readRecord s.dir x.2 = .error err) {is : List Side}
    (hrule : shippingMachine.Meets Considerate s.ship is) (hdone : (shippingMachine.run s.ship is).1.courier = .done) :
    ∀ x ∈ s.liveEntries, (shippingMachine.run s.ship is).1.Shipped x.1 ↔ s.Finds x := by
  intro x hx
  have hlook := mem_liveEntries.mp hx
  have h := hrule.invariant (P := Delivering {k | ∃ e, s.lookup k = some e}
    {k | ∃ e, s.lookup k = some e ∧ s.Finds (k, e)})
    (fun o i ho hi => ho.step hi) (.start hs hsize hown)
  constructor
  · intro hsent
    obtain ⟨e, he, hf⟩ := h.sent x.1 hsent
    cases Option.some.inj (hlook.symm.trans he)
    exact hf
  · intro hf
    refine (h.reaches x.1 ⟨x.2, hlook⟩ ⟨x.2, hlook, hf⟩).resolve_right fun ha => ?_
    rw [hdone] at ha
    exact ha

/-- Whether a record of the key was sent can be read off what was sent. -/
instance decidableShipped (o : Shipping) (k : Bytes) : Decidable (o.Shipped k) :=
  decidable_of_iff (∃ raw ∈ o.sent, (decodeRecord raw).toOption.any (fun r => r.key = k) = true) <| by
    refine exists_congr fun raw => and_congr_right fun _ => ?_
    cases decodeRecord raw with
    | error err => simp [Except.toOption]
    | ok r => simp [Except.toOption]

end Shipping

/-- A whole `Compact` of a store with two live keys. -/
def wholeMerge : List Side := List.replicate 22 .compact

/-- Two merges end between the chunk and its first record, and a third is under way behind it. -/
theorem shipped_iff_revised :
    (shippingMachine.run revised.ship (.read :: List.replicate 50 .compact ++ List.replicate 3 .read ++ wholeMerge ++
      List.replicate 5 .read)).1.Shipped [3] := by
  have hledger : Ledger revised := (((ledger_init ⟨0, .never⟩).append _).append _).append _
  have hfinds : ∀ x ∈ revised.liveEntries, revised.Finds x := by decide +kernel
  have hmem : ([3], ⟨62, 3, 0, 31, false⟩) ∈ revised.liveEntries := by decide +kernel
  exact (shipped_iff hledger.placed (by decide +kernel) (fun x hx => .inl (hfinds x hx)) (by decide +kernel)
    (by decide +kernel)
    _ hmem).mpr (hfinds _ hmem)

/-- A byte of a data file goes bad. -/
def Store.scratched (s : Store) (id i : Nat) (b : UInt8) : Store :=
  {s with dir := {s.dir with data := s.dir.data.alter id (Option.map fun f => {f with bytes := f.bytes.set i b})}}

/-- Two keys in the first file. -/
def pair : Store := ((((Store.init ⟨0, .never⟩).append (.put 0 [1] [7])).1).append (.put 0 [2] [8])).1

-- a live key is left out of a snapshot that returns nil, since its record has a bad byte
example : ∃ s o e, s = pair.scratched 0 30 0 ∧ o = (shippingMachine.run s.ship (List.replicate 9 .read)).1 ∧
    s.lookup [1] = some e ∧ Store.readRecord s.dir e = .error .corrupt ∧ o.courier = .done ∧ ¬ o.Shipped [1] ∧
      o.Shipped [2] := by
  refine ⟨_, _, ⟨0, 1, 0, 31, false⟩, rfl, rfl, ?_⟩
  decide +kernel

-- or since three merges in a row take its file away between the look at the index and the read
example : ∃ o, o = (shippingMachine.run pair.ship
    (.read :: wholeMerge ++ [.read, .read] ++ wholeMerge ++ [.read, .read] ++
      wholeMerge ++ [.read, .read] ++ List.replicate 4 .read)).1 ∧
    (∀ x ∈ pair.liveEntries, pair.Finds x) ∧ o.courier = .done ∧ ¬ o.Shipped [1] ∧ o.Shipped [2] := by
  refine ⟨_, rfl, ?_⟩
  decide +kernel

end Gokv.Engine
