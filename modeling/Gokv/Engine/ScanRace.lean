import Gokv.Engine.Chronicle

/-! `RecordsSince` against a `Compact` of the same store.

The reader checks the watermark, lists the files and scans them one by one, holding no
lock from one step to the next; a file that is gone when its turn comes is skipped. In
between the merge may list, copy, move the watermark and remove.

Until the watermark moves the files hold whatever was above the old one, and a file that
is still there is as it was (`Underway`). A file that goes is missed by a reader that
has passed its check and not yet scanned it. `Spared` rules that out, and under it the
reader sends every record above its position (`Sends.step`), so a replica that stood
there ends up with the leader's map (`scan_beside_compact`). -/
namespace Gokv.Engine
open Base

/-- A call of `RecordsSince`, between its steps. -/
inductive Reader where
  | start
  | checked
  | scanning (ids : List Nat) (sent : List Bytes)
  | done (sent : List Bytes)
  | failed
  deriving DecidableEq

namespace Reader

/-- The reader has no use for the file any more, or has not begun. -/
def Past (id : Nat) : Reader → Prop
  | .checked => False
  | .scanning ids _ => id ∉ ids
  | _ => True

instance decidablePast (id : Nat) : (r : Reader) → Decidable (r.Past id)
  | .checked => isFalse fun h => h
  | .scanning ids _ => inferInstanceAs (Decidable (id ∉ ids))
  | .start => isTrue trivial
  | .done _ => isTrue trivial
  | .failed => isTrue trivial

/-- The call has returned. -/
def Ended : Reader → Prop
  | .done _ | .failed => True
  | _ => False

end Reader

section ScanRace
variable [Checksum]

/-- One step of `RecordsSince`: the watermark check, the listing, or the scan of one
file. -/
def Reader.next (fromSeq : UInt64) (s : Store) : Reader → Reader
  | .start => if fromSeq < s.mergeSeq then .failed else .checked
  | .checked => .scanning s.files.keys []
  | .scanning [] sent => .done sent
  | .scanning (id :: rest) sent => .scanning rest (sent ++ s.dir.scanSince fromSeq id)
  | .done sent => .done sent
  | .failed => .failed

/-- A store, the `Compact` that runs on it, if it has begun, and a reader. -/
structure Overlap where
  store : Store
  merge : Option Merge
  reader : Reader

inductive Side where
  | compact
  | read
  deriving DecidableEq

/-- A step of either side. -/
def Overlap.step (fromSeq : UInt64) (o : Overlap) : Side → Overlap
  | .compact =>
    match o.merge with
    | none => {o with store := o.store.sealActive.1, merge := some o.store.sealActive.2}
    | some m => {o with store := (Merge.step o.store m).1, merge := some (Merge.step o.store m).2}
  | .read => {o with reader := o.reader.next fromSeq o.store}

def overlapMachine (fromSeq : UInt64) : Machine Side Overlap Unit := ⟨fun o i => (o.step fromSeq i, ())⟩

/-- The merge fits the widths, and a file it removes is none that a reader from below the
barrier still needs. -/
def Spared (fromSeq : UInt64) (o : Overlap) : Side → Prop
  | .compact =>
    match o.merge with
    | none => Fits o.store .compact
    | some m => ∀ id ∈ o.store.files.keys,
      id ∈ (Merge.step o.store m).1.files.keys ∨ m.barrier ≤ fromSeq ∨ o.reader.Past id
  | .read => True

instance decidableSpared (fromSeq : UInt64) (o : Overlap) : (i : Side) → Decidable (Spared fromSeq o i)
  | .compact =>
    match o with
    | ⟨s, none, _⟩ => inferInstanceAs (Decidable (Fits s .compact))
    | ⟨s, some m, r⟩ => inferInstanceAs (Decidable (∀ id ∈ s.files.keys,
        id ∈ (Merge.step s m).1.files.keys ∨ m.barrier ≤ fromSeq ∨ r.Past id))
  | .read => isTrue trivial

/-! ### The store during a merge -/

variable {s₀ s : Store} {log : List Record} {m : Merge} {n : Nat} {q : UInt64}

/-- What a merge with nothing in between leaves of the store it began on. -/
structure Underway (s₀ : Store) (log : List Record) (s : Store) : Prop where
  mounted : Mounted .every s []
  liveMap : s.liveMap = s₀.liveMap
  origin : ∀ i r, Holds .every s.dir.bytes i r → r.version ∈ log.map Record.version
  watermark : s.mergeSeq = s₀.mergeSeq ∨ s.mergeSeq = s₀.seq
  /-- A file that is still there is as it was. -/
  present : ∀ i r, Holds .every s₀.dir.bytes i r → i ∈ s.files → Holds .every s.dir.bytes i r
  /-- Until the watermark moves, none is removed. -/
  early : ∀ i r, Holds .every s₀.dir.bytes i r → s.mergeSeq ≠ s₀.seq → i ∈ s.files

theorem Chronicled.underway_start (h : Chronicled ⟨s₀, log⟩) : Underway s₀ log s₀ := by
  have hm := (h.quiet.inv.every h.unbroken).toMounted
  refine ⟨hm, rfl, h.origin, .inl rfl, fun i r hr _ => hr, fun i r ⟨b, hb, _⟩ _ => hm.mem_files.mpr ⟨b, hb⟩⟩

theorem Chronicled.sealed (h : Chronicled ⟨s₀, log⟩) (hf : Fits s₀ .compact) :
    Sealed .every s₀ s₀.sealActive.1 s₀.sealActive.2 := by
  have hf : s₀.nextID + s₀.keys.size + 2 < 2 ^ 32 := hf
  have hinv : Inv .every s₀ [] [] := h.quiet.inv.every h.unbroken
  exact hinv.sealActive (fun i r hr => h.held hr) (by omega)

/-- **Every state of a merge** past its seal. -/
theorem Chronicled.underway (h : Chronicled ⟨s₀, log⟩) (hf : Fits s₀ .compact) (n : Nat) :
    Underway s₀ log (Merge.run n s₀.sealActive.1 s₀.sealActive.2).1 ∧
      (Merge.run n s₀.sealActive.1 s₀.sealActive.2).2.barrier = s₀.seq := by
  have hs := h.sealed hf
  obtain ⟨hm, hun, hbar, -, hwater, -⟩ := hs.run h.quiet.marked hf n
  have hmounted : Mounted .every (Merge.run n s₀.sealActive.1 s₀.sealActive.2).1 [] := by
    rcases hm with ⟨a, hl⟩ | ⟨hM, -⟩
    · exact hl.inv.toMounted
    · exact hM.inv.toMounted
  have hphase : s₀.sealActive.2.phase = .list s₀.sealActive.1.active.id := by
    rw [hs.listing.fresh]
    rfl
  have hstamp : Stamped s₀.sealActive.1 s₀.sealActive.2 := by
    rw [Stamped, hphase]
    trivial
  have hstamp := hstamp.run n
  -- What the store held is in the merge set: the active file was sealed empty.
  have hnotActive {i : Nat} {r : Record} (hr : Holds .every s₀.dir.bytes i r) : i ≠ s₀.sealActive.1.active.id := by
    rintro rfl
    obtain ⟨b, hb, hmem⟩ := (hs.holds _ r).mpr hr
    obtain ⟨f, hfile, hnil⟩ := hs.empty
    rw [Dir.bytes, hfile, Option.map_some, hnil] at hb
    cases hb
    exact absurd hmem List.not_mem_nil
  -- From the listing on, the trail tells which files are left.
  have hfiles {i : Nat} {r : Record} (hr : Holds .every s₀.dir.bytes i r) :
      (i ∈ (Merge.run n s₀.sealActive.1 s₀.sealActive.2).1.files →
        Holds .every (Merge.run n s₀.sealActive.1 s₀.sealActive.2).1.dir.bytes i r) ∧
      ((Merge.run n s₀.sealActive.1 s₀.sealActive.2).1.mergeSeq ≠ s₀.seq →
        i ∈ (Merge.run n s₀.sealActive.1 s₀.sealActive.2).1.files) := by
    have hsealed := (hs.holds i r).mpr hr
    cases n with
    | zero =>
      refine ⟨fun _ => hsealed, fun _ => ?_⟩
      obtain ⟨b, hb, -⟩ := hsealed
      exact hs.listing.inv.mem_files.mpr ⟨b, hb⟩
    | succ n =>
      obtain ⟨htrail, hinv1, hroom1⟩ := hs.trail h.quiet.marked hf
      have htrail : Trail s₀.sealActive.1 (Merge.run (n + 1) s₀.sealActive.1 s₀.sealActive.2).1
          (Merge.run (n + 1) s₀.sealActive.1 s₀.sealActive.2).2 := htrail.run hinv1 hroom1 n
      generalize Merge.run (n + 1) s₀.sealActive.1 s₀.sealActive.2 = out at *
      obtain ⟨b, hb, hmem⟩ := hsealed
      have hin := (htrail.mem_ids hs.listing.inv.toMounted).mpr ⟨hnotActive hr, b, hb⟩
      obtain ⟨before, hsplit, hgone, hsame⟩ := htrail.left
      have hcase := List.mem_append.mp (hsplit ▸ Merge.mem_removals.mpr hin)
      refine ⟨fun hi => ?_, fun hne => ?_⟩
      · obtain ⟨c, hc⟩ := hmounted.mem_files.mp hi
        rcases hcase with hdone | hleft
        · rw [hgone i hdone] at hc
          cases hc
        · exact ⟨b, (hsame i hleft).trans hb, hmem⟩
      · have hleft : .data i ∈ out.2.left := by
          rw [← hs.barrier, ← hbar] at hne
          rcases hstamp.left hne with hnil | hall
          · rw [hnil] at hin
            cases hin
          · rw [hall]
            exact Merge.mem_removals.mpr hin
        exact hmounted.mem_files.mpr ⟨b, (hsame i hleft).trans hb⟩
  refine ⟨⟨hmounted, hun.liveMap.trans hs.liveMap, fun i r hr => ?_, hwater, fun i r hr => (hfiles hr).1,
    fun i r hr => (hfiles hr).2⟩, hbar.trans hs.barrier⟩
  rcases hun.back i r hr with hr | ⟨-, j, r₀, hr₀, hk, hseq, hpay⟩
  · exact h.origin i r ((hs.holds i r).mp hr)
  · have hver : r₀.version = r.version := by rw [Record.version, Record.version, hk, hseq, hpay]
    exact hver ▸ h.origin j r₀ ((hs.holds j r₀).mp hr₀)

/-! ### The reader -/

/-- What the reader has sent, and what it can still send. -/
def Sends (s₀ : Store) (log : List Record) (q : UInt64) (s : Store) : Reader → Prop
  | .start | .failed => True
  | .checked => s₀.mergeSeq ≤ q ∧ (q < s₀.seq → ∀ i r, Holds .every s₀.dir.bytes i r → i ∈ s.files)
  | .scanning ids sent => s₀.mergeSeq ≤ q ∧ ∃ recs : List Record, sent = recs.map Record.encode ∧
    (∀ r ∈ recs, r.Sized ∧ r.version ∈ log.map Record.version ∧ q < r.seq) ∧
    (q < s₀.seq → ∀ i r, Holds .every s₀.dir.bytes i r → q < r.seq →
      r.version ∈ recs.map Record.version ∨ i ∈ ids ∧ i ∈ s.files)
  | .done sent => s₀.mergeSeq ≤ q ∧ ∃ recs : List Record, sent = recs.map Record.encode ∧
    (∀ r ∈ recs, r.Sized ∧ r.version ∈ log.map Record.version ∧ q < r.seq) ∧
    (q < s₀.seq → ∀ i r, Holds .every s₀.dir.bytes i r → q < r.seq → r.version ∈ recs.map Record.version)

/-- **A step of the reader.** -/
theorem Sends.next (hwater : s₀.mergeSeq ≤ s₀.seq) (hu : Underway s₀ log s) {r : Reader} (h : Sends s₀ log q s r) :
    Sends s₀ log q s (r.next q s) := by
  cases r with
  | start =>
    rw [Reader.next]
    split
    · trivial
    case isFalse hq =>
      have hle := UInt64.not_lt.mp hq
      have hmerge : s₀.mergeSeq ≤ s.mergeSeq := by
        rcases hu.watermark with heq | heq
        · exact heq ▸ UInt64.le_refl _
        · exact heq ▸ hwater
      refine ⟨UInt64.le_trans hmerge hle, fun hlt i r hr => hu.early i r hr fun heq => ?_⟩
      exact absurd (heq ▸ hle) (UInt64.not_le.mpr hlt)
  | checked =>
    obtain ⟨hle, hall⟩ := h
    exact ⟨hle, [], rfl, fun r hr => absurd hr List.not_mem_nil, fun hlt i r hr _ =>
      .inr ⟨Std.ExtTreeMap.mem_keys.mpr (hall hlt i r hr), hall hlt i r hr⟩⟩
  | scanning ids sent =>
    obtain ⟨hle, recs, rfl, hrecs, hall⟩ := h
    cases ids with
    | nil =>
      exact ⟨hle, recs, rfl, hrecs, fun hlt i r hr hq => (hall hlt i r hr hq).resolve_right fun ⟨hi, _⟩ =>
        absurd hi List.not_mem_nil⟩
    | cons id rest =>
      refine ⟨hle, recs ++ s.dir.since q id, ?_, fun r hr => ?_, fun hlt i r hr hq => ?_⟩
      · rw [scanSince_eq, List.map_append]
      · rcases List.mem_append.mp hr with hr | hr
        · exact hrecs r hr
        · obtain ⟨hold, hq⟩ := mem_dir_since.mp hr
          exact ⟨hold.sized, hu.origin id r hold, hq⟩
      · rw [List.map_append]
        rcases hall hlt i r hr hq with hsent | ⟨hi, hfile⟩
        · exact .inl (List.mem_append_left _ hsent)
        · rcases List.mem_cons.mp hi with rfl | hi
          · have hold := hu.present i r hr hfile
            exact .inl (List.mem_append_right _ (List.mem_map_of_mem (mem_dir_since.mpr ⟨hold, hq⟩)))
          · exact .inr ⟨hi, hfile⟩
  | done sent => exact h
  | failed => exact h

/-- **A step of the merge** that spares the reader. -/
theorem Sends.merged {s' : Store} {r : Reader} (h : Sends s₀ log q s r)
    (hspared : ∀ i x, Holds .every s₀.dir.bytes i x → i ∈ s.files → i ∈ s'.files ∨ s₀.seq ≤ q ∨ r.Past i) :
    Sends s₀ log q s' r := by
  have hkeep {i : Nat} {x : Record} (hlt : q < s₀.seq) (hx : Holds .every s₀.dir.bytes i x) (hi : i ∈ s.files) :
      i ∈ s'.files ∨ r.Past i :=
    (hspared i x hx hi).imp_right fun hc => hc.resolve_left (UInt64.not_le.mpr hlt)
  cases r with
  | start => trivial
  | checked => exact ⟨h.1, fun hlt i r hr => (hkeep hlt hr (h.2 hlt i r hr)).resolve_right fun hc => hc⟩
  | scanning ids sent =>
    obtain ⟨hle, recs, hsent, hrecs, hall⟩ := h
    refine ⟨hle, recs, hsent, hrecs, fun hlt i r hr hq => (hall hlt i r hr hq).imp_right fun ⟨hi, hfile⟩ => ⟨hi, ?_⟩⟩
    exact (hkeep hlt hr hfile).resolve_right fun hpast => hpast hi
  | done sent => exact h
  | failed => trivial

/-- The two sides together: the store is somewhere on the way of a `Compact`. -/
structure Racing (s₀ : Store) (log : List Record) (q : UInt64) (o : Overlap) : Prop where
  way : o.merge = none ∧ o.store = s₀ ∨ Fits s₀ .compact ∧ ∃ n,
    o.store = (Merge.run n s₀.sealActive.1 s₀.sealActive.2).1 ∧
    o.merge = some (Merge.run n s₀.sealActive.1 s₀.sealActive.2).2
  reader : Sends s₀ log q o.store o.reader

theorem Racing.underway {o : Overlap} (h : Racing s₀ log q o) (hc : Chronicled ⟨s₀, log⟩) :
    Underway s₀ log o.store := by
  rcases h.way with ⟨-, hs⟩ | ⟨hf, n, hs, -⟩
  · exact hs ▸ hc.underway_start
  · exact hs ▸ (hc.underway hf n).1

theorem merge_run_succ (n : Nat) (s : Store) (m : Merge) :
    Merge.run (n + 1) s m = Merge.step (Merge.run n s m).1 (Merge.run n s m).2 := by
  induction n generalizing s m with
  | zero => rfl
  | succ n ih => exact ih (Merge.step s m).1 (Merge.step s m).2

theorem Racing.step {o : Overlap} (hc : Chronicled ⟨s₀, log⟩) (h : Racing s₀ log q o) {i : Side}
    (hsp : Spared q o i) : Racing s₀ log q (o.step q i) := by
  obtain ⟨s, merge, reader⟩ := o
  cases i with
  | read => exact ⟨h.way, h.reader.next hc.watermark (h.underway hc)⟩
  | compact =>
    rcases h.way with ⟨rfl, rfl⟩ | ⟨hf, n, hs, rfl⟩
    · have hf : Fits s .compact := hsp
      refine ⟨.inr ⟨hf, 0, rfl, rfl⟩, h.reader.merged fun i x hx hi => .inl ?_⟩
      have hs := hc.sealed hf
      obtain ⟨b, hb, -⟩ := (hs.holds i x).mpr hx
      exact hs.listing.inv.mem_files.mpr ⟨b, hb⟩
    · obtain ⟨-, hbar⟩ := hc.underway hf n
      refine ⟨.inr ⟨hf, n + 1, ?_, ?_⟩, h.reader.merged fun i x _ hi => ?_⟩
      · rw [merge_run_succ, ← hs]
        rfl
      · rw [merge_run_succ, ← hs]
        rfl
      · rcases hsp i (Std.ExtTreeMap.mem_keys.mpr hi) with hkept | hle | hpast
        · exact .inl (Std.ExtTreeMap.mem_keys.mp hkept)
        · exact .inr (.inl (hbar ▸ hle))
        · exact .inr (.inr hpast)

/-- A call of `RecordsSince` returns. -/
theorem Reader.ends (q : UInt64) (s : Store) (merge : Option Merge) (r : Reader) :
    ∃ k, ((overlapMachine q).run ⟨s, merge, r⟩ (List.replicate k .read)).1.reader.Ended := by
  have hscan (ids : List Nat) (sent : List Bytes) : ((overlapMachine q).run ⟨s, merge, .scanning ids sent⟩
      (List.replicate (ids.length + 1) .read)).1.reader.Ended := by
    induction ids generalizing sent with
    | nil => trivial
    | cons id rest ih => exact ih (sent ++ s.dir.scanSince q id)
  cases r with
  | start =>
    by_cases hq : q < s.mergeSeq
    · refine ⟨1, ?_⟩
      simp [overlapMachine, Machine.run, Overlap.step, Reader.next, hq, Reader.Ended]
    · refine ⟨s.files.keys.length + 3, ?_⟩
      rw [List.replicate_succ, Machine.run]
      simp only [overlapMachine, Overlap.step, Reader.next, hq, if_false]
      exact hscan s.files.keys []
  | checked => exact ⟨s.files.keys.length + 2, hscan s.files.keys []⟩
  | scanning ids sent => exact ⟨ids.length + 1, hscan ids sent⟩
  | done sent => exact ⟨0, trivial⟩
  | failed => exact ⟨0, trivial⟩

/-- **`RecordsSince` beside a `Compact`.** A leader with a steady history is merged while
a reader goes through its files; as long as every file the merge removes is spared, what
the reader has sent when it returns brings a replica from its position to the leader's
map. The call returns after so many steps of its own. -/
theorem scan_beside_compact (opts : Options) (ops : List Op) (s₀ : Store) (c : Chronicle) (q : UInt64) (is : List Side)
    (o : Overlap) (hopen : openStore opts {} = .ok s₀) (hsteady : chronicleMachine.Meets Steady ⟨s₀, []⟩ ops)
    (hrun : (chronicleMachine.run ⟨s₀, []⟩ ops).1 = c)
    (hspared : (overlapMachine q).Meets (Spared q) ⟨c.store, none, .start⟩ is)
    (hover : ((overlapMachine q).run ⟨c.store, none, .start⟩ is).1 = o) :
    (∃ k, ((overlapMachine q).run o (List.replicate k .read)).1.reader.Ended) ∧
    ∀ sent, o.reader = .done sent → ∀ f : Store, Wf .every f [] → f.liveMap = latest (upTo q c.log) →
      (∀ (k : Bytes) (e : Entry), f.keys[k]? = some e → e.seq ≤ q) → f.nextID + sent.length < 2 ^ 32 →
      ∃ f', f.applyAll sent = (f', none) ∧ f'.liveMap = o.store.liveMap := by
  cases Except.ok.inj (hopen.symm.trans (openStore_empty opts))
  have hc : Chronicled c := hrun ▸ Chronicled.run hsteady
  obtain ⟨s, log⟩ := c
  have hrace : Racing s log q o := by
    rw [← hover]
    exact hspared.invariant (P := Racing s log q) (fun _ _ h hsp => h.step hc hsp) ⟨.inl ⟨rfl, rfl⟩, trivial⟩
  refine ⟨Reader.ends q o.store o.merge o.reader, fun sent hdone f hf hlive hentries hid => ?_⟩
  have hsends := hrace.reader
  rw [hdone] at hsends
  obtain ⟨hle, recs, rfl, hrecs, hall⟩ := hsends
  rw [List.length_map] at hid
  obtain ⟨f', happly, hrec⟩ := hf.applySingly (fun r hr => (hrecs r hr).1) hid
  have hpassed {r : Record} (hr : r ∈ recs) : r.seq ≤ s.seq := by
    obtain ⟨r₀, hr₀, heq⟩ := List.mem_map.mp (hrecs r hr).2.1
    have hseq : r₀.seq = r.seq := UInt64.toNat_inj.mp (congrArg (·.2.1) heq)
    exact hseq ▸ hc.passed r₀ hr₀
  refine ⟨f', happly, ?_⟩
  have hlatest : f'.liveMap = latest log := by
    by_cases hq : q ≤ s.seq
    · have hfed := hrec.latest hc.ascending hlive hentries hq (fun r hr => ⟨(hrecs r hr).2.1, hpassed hr⟩)
        (fun r hr hlt _ => ?_) fun r hr hrq => absurd hrq (UInt64.not_le.mpr (hrecs r hr).2.2)
      · rwa [upTo_all hc.passed] at hfed
      · obtain ⟨i, hi⟩ := hc.kept r hr (UInt64.lt_of_le_of_lt hle hlt)
        exact hall (UInt64.lt_of_lt_of_le hlt (hc.passed r hr)) i r hi hlt
    · have hlt := UInt64.not_le.mp hq
      have hnil : recs = [] := List.eq_nil_iff_forall_not_mem.mpr fun r hr =>
        absurd (UInt64.le_trans (hpassed hr) (UInt64.le_of_lt hlt)) (UInt64.not_le.mpr (hrecs r hr).2.2)
      have hview : f'.liveMap = f.liveMap := by
        rw [Store.liveMap, hrec.view, hnil]
        rfl
      rw [hview, hlive, upTo_all fun r hr => UInt64.le_trans (hc.passed r hr) (UInt64.le_of_lt hlt)]
  rw [hlatest, (hrace.underway hc).liveMap]
  exact hc.liveMap.symm

end ScanRace

/-- A leader that has written a key and deleted it. -/
def emptied : Chronicle := (chronicleMachine.run ⟨Store.init ⟨0, .never⟩, []⟩ [.put 0 [1] [7], .delete 0 [1]]).1

/-- A replica from before the deletion. -/
def behindOne : Store := (storeMachine.run (Store.init ⟨0, .never⟩) [.put 0 [1] [7]]).1

theorem behindOne_stands : Wf .every behindOne [] ∧ behindOne.liveMap = latest (upTo 1 emptied.log) ∧
    ∀ (k : Bytes) (e : Entry), behindOne.keys[k]? = some e → e.seq ≤ 1 := by
  have hf := steady_store ⟨0, .never⟩ [.put 0 [1] [7]] (upTo 1 emptied.log) (by decide +kernel)
    (by decide +kernel)
  have hseq : behindOne.seq = 1 := by decide +kernel
  exact ⟨hf.quiet.inv.toWf.every, hf.liveMap, fun k e he => hseq ▸ hf.quiet.bounded.entry hf.quiet.inv.toWf he⟩

/-- The merge comes as far as its copies, the reader goes through the files, the merge
goes on. -/
def scanFirst : List Side := List.replicate 4 .compact ++ List.replicate 5 .read ++ List.replicate 20 .compact

theorem scan_beside_compact_early : ∃ o f', o = ((overlapMachine 1).run ⟨emptied.store, none, .start⟩ scanFirst).1 ∧
    o.reader = .done [Record.encode ⟨0, 2, flagTombstone, [1], []⟩] ∧
    behindOne.applyAll [Record.encode ⟨0, 2, flagTombstone, [1], []⟩] = (f', none) ∧ f'.liveMap = o.store.liveMap := by
  obtain ⟨hwf, hlive, hentries⟩ := behindOne_stands
  have hdone : ((overlapMachine 1).run ⟨emptied.store, none, .start⟩ scanFirst).1.reader =
      .done [Record.encode ⟨0, 2, flagTombstone, [1], []⟩] := by decide +kernel
  have hspared : (overlapMachine 1).Meets (Spared 1) ⟨emptied.store, none, .start⟩ scanFirst := by decide +kernel
  obtain ⟨f', hall, heq⟩ := (scan_beside_compact ⟨0, .never⟩ [.put 0 [1] [7], .delete 0 [1]] (Store.init ⟨0, .never⟩)
    emptied 1 scanFirst _ (openStore_empty _) (by decide +kernel) rfl hspared rfl).2 _ hdone behindOne hwf hlive
      hentries
    (by decide +kernel)
  exact ⟨_, f', rfl, hdone, hall, heq⟩

/-- The check passes, the merge drops the tombstone and its file, and the listing comes
after: the reader reports success, has sent nothing, and the replica keeps the key. -/
theorem scan_misses_tombstone : ∃ o, o = ((overlapMachine 1).run ⟨emptied.store, none, .start⟩
      ([.read] ++ List.replicate 20 .compact ++ List.replicate 4 .read)).1 ∧
    o.reader = .done [] ∧ behindOne.liveMap = latest (upTo 1 emptied.log) ∧
    (behindOne.applyAll []).1.get [1] = .ok [7] ∧ o.store.get [1] = .error .keyNotFound :=
  ⟨_, rfl, by decide +kernel, behindOne_stands.2.1, by decide +kernel, by decide +kernel⟩

end Gokv.Engine
