import Gokv.Engine.Local

/-! A store as a replica.

`applyRaw` appends the records it is given as they are and offers them to the index;
`reset` drops everything. So a replica is seen through its view alone: applying
frames is offering their records, one after the other (`Wf.applyAll`), whatever else
the replica holds, and a reset leaves nothing in view (`Wf.reset`). -/
namespace Gokv.Engine
open Base

section Replica
variable [Checksum]

/-- The loop of `ApplyRaw` over the bytes it was given. -/
def parseRaw : Nat → Bytes → Except Error (List Record)
  | _, [] => .ok []
  | 0, _ :: _ => .error .corrupt
  | fuel + 1, x :: xs =>
    let raw := x :: xs
    if raw.length < recordHeaderSize then .error .corrupt
    else
      let keyLen := getLE (slice raw 21 25)
      let valLen := getLE (slice raw 25 29)
      if keyLen = 0 ∨ maxKeySize < keyLen ∨ maxValueSize < valLen then .error .corrupt
      else
        let size := recordHeaderSize + keyLen + valLen
        if raw.length < size then .error .corrupt
        else
          match decodeRecord (raw.take size) with
          | .error e => .error e
          | .ok r =>
            match parseRaw fuel (raw.drop size) with
            | .error e => .error e
            | .ok rest => .ok (r :: rest)

/-- The highest number among records. -/
def maxSeq (recs : List Record) : UInt64 := recs.foldl (fun m r => if r.seq > m then r.seq else m) 0

namespace Store

def applyRaw (s : Store) (raw : Bytes) : Store × Except Error UInt64 :=
  match parseRaw raw.length raw with
  | .error e => (s, .error e)
  | .ok [] => (s, .ok 0)
  | .ok recs =>
    if s.closed then (s, .error .closed)
    else
      match s.writeLocked recs with
      | (s, some e) => (s, .error e)
      | (s, none) =>
        ({s with seq := if maxSeq recs > s.seq then maxSeq recs else s.seq}, .ok (maxSeq recs))

end Store

/-- One file goes, then its hint. -/
def Dir.removeFile (d : Dir) (id : Nat) : Dir := (d.removeData id).removeHint id

def Dir.removeFiles (d : Dir) (ids : List Nat) : Dir := ids.foldl Dir.removeFile d

namespace Store

/-- What `Reset` drops; it takes the open files in no particular order. -/
def cleared (s : Store) : Store :=
  {s with
    keys := ∅
    files := ∅
    dir := {s.dir.removeFiles s.files.keys with manifest := some (manifestText 0)}
    live := 0
    total := 0
    nLive := 0
    seq := 0
    mergeSeq := 0 }

def reset (s : Store) : Store × Option Error :=
  if s.closed then (s, some .closed)
  else
    match s.cleared.openNewActive with
    | (s, some e) => (s, some e)
    | (s, none) => ({s with dirty := false}, none)

end Store

/-! ### Applying records -/

theorem parseRaw_encodeAll (recs : List Record) (hs : ∀ r ∈ recs, r.Sized) {fuel : Nat}
    (hf : recs.length ≤ fuel) : parseRaw fuel (encodeAll recs) = .ok recs := by
  induction recs generalizing fuel with
  | nil => cases fuel <;> rfl
  | cons r rest ih =>
    obtain ⟨fuel, rfl⟩ : ∃ n, fuel = n + 1 := ⟨fuel - 1, by rw [List.length_cons] at hf; omega⟩
    have hr := hs r (List.mem_cons_self ..)
    obtain ⟨hk, hv⟩ := r.header_lengths (encodeAll rest) hr
    have hlen := r.length_encode
    have hsized : ¬ (r.key.length = 0 ∨ maxKeySize < r.key.length ∨ maxValueSize < r.value.length) := by
      obtain ⟨h1, h2, h3⟩ := hr
      omega
    have hall : (r.encode ++ encodeAll rest).length =
        recordHeaderSize + r.key.length + r.value.length + (encodeAll rest).length := by
      rw [List.length_append, hlen]
    obtain ⟨x, xs, hcons⟩ : ∃ x xs, r.encode ++ encodeAll rest = x :: xs := by
      refine List.exists_cons_of_length_pos ?_
      rw [hall, recordHeaderSize]
      omega
    rw [encodeAll_cons, hcons, parseRaw]
    simp only [← hcons, hk, hv, List.take_left' hlen, List.drop_left' hlen, decodeRecord_encode r hr,
      ih (fun r' hr' => hs r' (List.mem_cons_of_mem _ hr'))
        (by rw [List.length_cons] at hf; omega : rest.length ≤ fuel)]
    rw [if_neg (by omega), if_neg hsized, if_neg (by omega)]

/-- **What `ApplyRaw` accepts is the encoding of sized records.** -/
theorem parseRaw_ok {fuel : Nat} {raw : Bytes} {recs : List Record} (h : parseRaw fuel raw = .ok recs) :
    raw = encodeAll recs ∧ ∀ r ∈ recs, r.Sized := by
  induction fuel generalizing raw recs with
  | zero =>
    cases raw with
    | nil =>
      cases h
      exact ⟨rfl, fun _ hr => absurd hr List.not_mem_nil⟩
    | cons x xs => cases h
  | succ fuel ih =>
    cases raw with
    | nil =>
      cases h
      exact ⟨rfl, fun _ hr => absurd hr List.not_mem_nil⟩
    | cons x xs =>
      -- The loop reads records as a scan does.
      have hnext : parseRaw (fuel + 1) (x :: xs) = .ok recs → ∃ r rest recs', recs = r :: recs' ∧
          nextRecord (x :: xs) = some (r, r.encode, rest) ∧ parseRaw fuel rest = .ok recs' := by
        rw [parseRaw]
        intro h
        split at h
        · cases h
        case isFalse hshort =>
          simp only at h
          split at h
          · cases h
          case isFalse hbad =>
            split at h
            · cases h
            case isFalse hsize =>
              split at h
              · cases h
              case h_2 r hr =>
                split at h
                · cases h
                case h_2 rest hrest =>
                  cases h
                  refine ⟨r, _, rest, rfl, ?_, hrest⟩
                  rw [nextRecord, if_neg hshort]
                  simp only [if_neg hbad, if_neg hsize, hr]
                  rw [encode_of_decode _ _ hr]
      obtain ⟨r, rest, recs', rfl, hsome, hrest⟩ := hnext h
      obtain ⟨hr, -, hraw⟩ := nextRecord_some hsome
      obtain ⟨rfl, hs⟩ := ih hrest
      refine ⟨hraw, fun r' hr' => ?_⟩
      rcases List.mem_cons.mp hr' with rfl | hr'
      · exact hr
      · exact hs r' hr'

/-- The counter of a replica at `q` after it has applied records. -/
def topSeq (q : UInt64) (recs : List Record) : UInt64 := if maxSeq recs > q then maxSeq recs else q

omit [Checksum] in
private theorem foldl_max (recs : List Record) (m : UInt64) :
    let top := recs.foldl (fun m r => if r.seq > m then r.seq else m) m
    m ≤ top ∧ (∀ r ∈ recs, r.seq ≤ top) ∧ (top = m ∨ ∃ r ∈ recs, r.seq = top) := by
  induction recs generalizing m with
  | nil => exact ⟨UInt64.le_refl _, fun _ hr => absurd hr List.not_mem_nil, .inl rfl⟩
  | cons r rest ih =>
    obtain ⟨hle, hall, htop⟩ := ih (if r.seq > m then r.seq else m)
    have hm : m ≤ (if r.seq > m then r.seq else m) ∧ r.seq ≤ (if r.seq > m then r.seq else m) := by
      split
      case isTrue hlt => exact ⟨UInt64.le_of_lt hlt, UInt64.le_refl _⟩
      case isFalse hnl => exact ⟨UInt64.le_refl _, UInt64.not_lt.mp hnl⟩
    refine ⟨UInt64.le_trans hm.1 hle, fun r' hr' => ?_, ?_⟩
    · rcases List.mem_cons.mp hr' with rfl | hr'
      · exact UInt64.le_trans hm.2 hle
      · exact hall r' hr'
    · rcases htop with htop | ⟨r', hr', htop⟩
      · rw [List.foldl_cons, htop]
        split
        · exact .inr ⟨r, List.mem_cons_self .., rfl⟩
        · exact .inl rfl
      · exact .inr ⟨r', List.mem_cons_of_mem _ hr', htop⟩

omit [Checksum] in
/-- The counter never falls, passes every record, and is the old one or a record's. -/
theorem topSeq_spec (q : UInt64) (recs : List Record) :
    q ≤ topSeq q recs ∧ (∀ r ∈ recs, r.seq ≤ topSeq q recs) ∧
      (topSeq q recs = q ∨ ∃ r ∈ recs, r.seq = topSeq q recs) := by
  obtain ⟨-, hall, htop⟩ := foldl_max recs 0
  unfold topSeq
  split
  case isTrue hlt =>
    refine ⟨UInt64.le_of_lt hlt, hall, .inr ?_⟩
    rcases htop with htop | htop
    · rw [maxSeq, htop] at hlt
      exact absurd hlt (UInt64.not_lt.mpr (UInt64.le_iff_toNat_le.mpr (Nat.zero_le _)))
    · exact htop
  case isFalse hnl =>
    exact ⟨UInt64.le_refl _, fun r hr => UInt64.le_trans (hall r hr) (UInt64.not_lt.mp hnl), .inl rfl⟩

omit [Checksum] in
theorem topSeq_unique {q x : UInt64} {recs : List Record} (hq : q ≤ x) (hall : ∀ r ∈ recs, r.seq ≤ x)
    (htop : x = q ∨ ∃ r ∈ recs, r.seq = x) : x = topSeq q recs := by
  obtain ⟨hq', hall', htop'⟩ := topSeq_spec q recs
  refine UInt64.le_antisymm ?_ ?_
  · rcases htop with rfl | ⟨r, hr, rfl⟩
    · exact hq'
    · exact hall' r hr
  · rcases htop' with h | ⟨r, hr, h⟩
    · rw [h]
      exact hq
    · rw [← h]
      exact hall r hr

omit [Checksum] in
theorem topSeq_append (q : UInt64) (recs more : List Record) :
    topSeq q (recs ++ more) = topSeq (topSeq q recs) more := by
  obtain ⟨hq, hall, htop⟩ := topSeq_spec q recs
  obtain ⟨hq', hall', htop'⟩ := topSeq_spec (topSeq q recs) more
  refine (topSeq_unique (UInt64.le_trans hq hq') (fun r hr => ?_) ?_).symm
  · rcases List.mem_append.mp hr with hr | hr
    · exact UInt64.le_trans (hall r hr) hq'
    · exact hall' r hr
  · rcases htop' with h | ⟨r, hr, h⟩
    · rw [h]
      exact htop.imp_right fun ⟨r, hr, hseq⟩ => ⟨r, List.mem_append_left _ hr, hseq⟩
    · exact .inr ⟨r, List.mem_append_right _ hr, h⟩

/-- Whatever a reader counts, a session counts. -/
theorem Wf.every {ρ : Reading} {s : Store} {pend : Pending} (h : Wf ρ s pend) : Wf .every s pend := by
  have hloc {k : Bytes} {e : Entry} {r : Record} (hr : Located ρ s.dir.bytes k e r) :
      Located .every s.dir.bytes k e r := by
    obtain ⟨b, before, after, hb, hrec, hpos, htake⟩ := hr.place
    exact ⟨⟨b, before, after, hb, hrec, hpos, Reading.take_subset htake⟩, hr.key, hr.seq, hr.tomb, hr.size⟩
  obtain ⟨b, hb, hsize, hi, -⟩ := h.active
  exact { running := h.running
          dir := ⟨h.dir.sizes, fun _ _ _ => trivial, fun id c b hc hb => ⟨(h.dir.hints id c b hc hb).1, trivial⟩⟩
          files := h.files
          fresh := h.fresh
          hintIDs := h.hintIDs
          hinting := fun _ _ _ _ => trivial
          located := fun k e he => (h.located k e he).imp fun r hr => hloc hr
          pending := fun x hx => hloc (h.pending x hx)
          active := ⟨b, hb, hsize, hi, trivial⟩
          noHint := h.noHint }

/-- What applying records does to a replica. -/
structure Received (s s' : Store) (recs : List Record) : Prop where
  wf : Wf .every s' []
  view : s'.view = Newest.offerAll s.view (recs.map Record.version)
  seq : s'.seq = topSeq s.seq recs
  mergeSeq : s'.mergeSeq = s.mergeSeq
  manifest : s'.dir.manifest = s.dir.manifest
  holds : ∀ i r, Holds .every s'.dir.bytes i r → Holds .every s.dir.bytes i r ∨ r ∈ recs

/-- **Applying the records of one frame** offers them to the view. -/
theorem Wf.applyRaw {s : Store} (h : Wf .every s []) {recs : List Record} (hs : ∀ r ∈ recs, r.Sized)
    (ha : Addressable recs) (hid : s.nextID + 1 < 2 ^ 32) :
    ∃ s' top, s.applyRaw (encodeAll recs) = (s', .ok top) ∧ Received s s' recs ∧ s'.nextID ≤ s.nextID + 1 := by
  have hparse := parseRaw_encodeAll recs hs (length_le_encodeAll recs)
  by_cases hnil : recs = []
  · subst hnil
    refine ⟨s, 0, by rw [Store.applyRaw, hparse], ⟨h, rfl, ?_, rfl, rfl, fun _ _ hr => .inl hr⟩, Nat.le_succ _⟩
    exact topSeq_unique (UInt64.le_refl _) (fun _ hr => absurd hr List.not_mem_nil) (.inl rfl)
  · obtain ⟨s₁, base, hlog, hwf, happ, hkeys, -⟩ := h.logWrite hs trivial ha hid
    obtain ⟨l, n, heq⟩ := indexWrite_eq s₁ (placed s₁.active.id base recs).entries
    have hindexed := hwf.indexWrite
    have hview := hwf.view_indexWrite
    rw [placed_records, h.toMounted.view_eq hkeys fun _ _ _ hr _ => happ.located h hs trivial hr] at hview
    rw [heq] at hindexed hview
    have hwrite : s.writeLocked recs = (s₁.indexWrite (placed s₁.active.id base recs).entries, none) := by
      rw [Store.writeLocked, hlog]
    obtain ⟨r, rest, hcons⟩ := List.exists_cons_of_ne_nil hnil
    have hnext : s₁.nextID ≤ s.nextID + 1 := by
      rcases happ.active with ⟨-, hn, -⟩ | ⟨-, hn, -⟩ <;> omega
    refine ⟨{s₁ with keys := s₁.keys.installAll (placed s₁.active.id base recs).entries, live := l, nLive := n,
                     seq := if maxSeq recs > s₁.seq then maxSeq recs else s₁.seq}, maxSeq recs, ?_, ?_, hnext⟩
    · rw [Store.applyRaw, hparse, hcons]
      simp only [h.running, Bool.false_eq_true, if_false, ← hcons, hwrite, heq]
    · refine ⟨hindexed.same ⟨rfl, rfl, rfl, rfl, rfl, rfl, rfl⟩ rfl, hview, ?_, happ.mergeSeq, happ.manifest,
        fun i r hr => ?_⟩
      · show (if maxSeq recs > s₁.seq then maxSeq recs else s₁.seq) = topSeq s.seq recs
        rw [happ.seq, topSeq]
      · exact ((happ.holds h hs trivial).mp hr).imp_right And.right

/-- Records above everything a store shows are shown before what it showed. -/
theorem Received.above {s s' : Store} {recs : List Record} (h : Received s s' recs) {q : UInt64}
    (hq : ∀ (k : Bytes) (e : Entry), s.keys[k]? = some e → e.seq ≤ q) (habove : ∀ r ∈ recs, q < r.seq) (k : Bytes) :
    s'.view k = (Newest.offerAll (fun _ => none) (recs.map Record.version) k).or (s.view k) := by
  rw [h.view, Newest.offerAll_newer]
  intro x hx _ y hy
  obtain ⟨r, hmem, rfl⟩ := List.mem_map.mp hx
  obtain ⟨e, he, rfl⟩ := Option.map_eq_some_iff.mp hy
  have hlt := habove r hmem
  have hle := hq k e he
  rw [UInt64.lt_iff_toNat_lt] at hlt
  rw [UInt64.le_iff_toNat_le] at hle
  show e.seq.toNat < r.seq.toNat
  omega

theorem Received.refl {s : Store} (h : Wf .every s []) : Received s s [] :=
  ⟨h, rfl, topSeq_unique (UInt64.le_refl _) (fun _ hr => absurd hr List.not_mem_nil) (.inl rfl), rfl, rfl,
    fun _ _ hr => .inl hr⟩

theorem Received.trans {s s' s'' : Store} {recs more : List Record} (h : Received s s' recs)
    (h' : Received s' s'' more) : Received s s'' (recs ++ more) where
  wf := h'.wf
  view := by rw [h'.view, h.view, List.map_append, Newest.offerAll_append]
  seq := by rw [h'.seq, h.seq, topSeq_append]
  mergeSeq := h'.mergeSeq.trans h.mergeSeq
  manifest := h'.manifest.trans h.manifest
  holds i r hr := by
    rcases h'.holds i r hr with hr | hr
    · exact (h.holds i r hr).imp_right (List.mem_append_left _)
    · exact .inr (List.mem_append_right _ hr)

/-- A replica's index covers what it was sent. -/
theorem Inv.received {s f : Store} {recs : List Record} (h : Inv .every s [] [])
    (hr : Received s f recs)
    (hagree : ∀ r r' : Record, (∃ i, Holds .every s.dir.bytes i r) ∨ r ∈ recs →
      (∃ i, Holds .every s.dir.bytes i r') ∨ r' ∈ recs → r.key = r'.key → r.seq = r'.seq → r.payload = r'.payload) :
    Inv .every f [] [] := by
  have hfrom {i : Nat} {r : Record} (hi : Holds .every f.dir.bytes i r) :
      (∃ i, Holds .every s.dir.bytes i r) ∨ r ∈ recs :=
    (hr.holds i r hi).imp_left fun hi => ⟨i, hi⟩
  have hcovers := h.indexes.covers.offerAll (recs.map Record.version)
  rw [← hr.view] at hcovers
  refine {hr.wf with
    covers := fun i r hi _ => .inr ?_
    agree := fun i j r r' hi hj hk hq => hagree r r' (hfrom hi) (hfrom hj) hk hq }
  obtain ⟨x, hx, hle⟩ := hcovers r.key (r.seq.toNat, r.payload) <| by
    rcases hfrom hi with ⟨j, hj⟩ | hmem
    · exact .inl ⟨j, r, hj, rfl⟩
    · exact .inr (List.mem_map.mpr ⟨r, hmem, rfl⟩)
  obtain ⟨e, he, rfl⟩ := Option.map_eq_some_iff.mp hx
  exact ⟨e, he, UInt64.le_iff_toNat_le.mpr hle⟩

/-- Frames applied one after the other, as long as they succeed. -/
def Store.applyAll (s : Store) : List Bytes → Store × Option Error
  | [] => (s, none)
  | raw :: rest =>
    match s.applyRaw raw with
    | (s, .error e) => (s, some e)
    | (s, .ok _) => s.applyAll rest

/-- **Applying frames** offers their records to the view, one after the other. -/
theorem Wf.applyAll {s : Store} (h : Wf .every s []) {groups : List (List Record)}
    (hs : ∀ recs ∈ groups, (∀ r ∈ recs, r.Sized) ∧ Addressable recs)
    (hid : s.nextID + groups.length < 2 ^ 32) :
    ∃ s', s.applyAll (groups.map encodeAll) = (s', none) ∧ Received s s' groups.flatten ∧
      s'.nextID ≤ s.nextID + groups.length := by
  induction groups generalizing s with
  | nil =>
    refine ⟨s, rfl, ⟨h, rfl, ?_, rfl, rfl, fun _ _ hr => .inl hr⟩, Nat.le_refl _⟩
    exact topSeq_unique (UInt64.le_refl _) (fun _ hr => absurd hr List.not_mem_nil) (.inl rfl)
  | cons recs rest ih =>
    rw [List.length_cons] at hid
    obtain ⟨hsized, haddr⟩ := hs recs (List.mem_cons_self ..)
    obtain ⟨s₁, top, hraw, happ, hnext⟩ := h.applyRaw hsized haddr (by omega)
    obtain ⟨s₂, hall, happ', hnext'⟩ :=
      ih happ.wf (fun g hg => hs g (List.mem_cons_of_mem _ hg)) (by omega)
    refine ⟨s₂, ?_, happ.trans happ', ?_⟩
    · rw [List.map_cons, Store.applyAll, hraw]
      exact hall
    · rw [List.length_cons]
      omega

/-- Records in frames of their own. -/
theorem Wf.applySingly {s : Store} (h : Wf .every s []) {recs : List Record} (hs : ∀ r ∈ recs, r.Sized)
    (hid : s.nextID + recs.length < 2 ^ 32) :
    ∃ s', s.applyAll (recs.map Record.encode) = (s', none) ∧ Received s s' recs := by
  have hgroups : ∀ g ∈ recs.map fun r => [r], (∀ r ∈ g, r.Sized) ∧ Addressable g := by
    intro g hg
    obtain ⟨r, hr, rfl⟩ := List.mem_map.mp hg
    refine ⟨fun r' hr' => ?_, addressable_single r⟩
    rw [List.mem_singleton.mp hr']
    exact hs r hr
  obtain ⟨s', hall, happ, -⟩ := h.applyAll hgroups (by rwa [List.length_map])
  have hflat : (recs.map fun r => [r]).flatten = recs := by
    rw [← List.flatMap_def, List.flatMap_singleton']
  rw [hflat] at happ
  refine ⟨s', ?_, happ⟩
  rw [← hall, List.map_map]
  refine congrArg s.applyAll (List.map_congr_left fun r _ => ?_)
  exact (List.append_nil r.encode).symm

/-! ### Dropping everything -/

omit [Checksum] in
theorem Dir.bytes_removeFile (d : Dir) (id : Nat) :
    (d.removeFile id).bytes = Function.update d.bytes id none := Dir.bytes_removeData d id

omit [Checksum] in
theorem Dir.removeFiles_spec (d : Dir) (ids : List Nat) :
    (∀ i, (d.removeFiles ids).bytes i = if i ∈ ids then none else d.bytes i) ∧
      ∀ i : Nat, (d.removeFiles ids).hints[i]? = if i ∈ ids then none else d.hints[i]? := by
  induction ids generalizing d with
  | nil => exact ⟨fun i => (if_neg List.not_mem_nil).symm, fun i => (if_neg List.not_mem_nil).symm⟩
  | cons id rest ih =>
    obtain ⟨hbytes, hhints⟩ := ih (d.removeFile id)
    refine ⟨fun i => ?_, fun i => ?_⟩
    · refine (hbytes i).trans ?_
      rw [Dir.bytes_removeFile]
      by_cases hr : i ∈ rest
      · rw [if_pos hr, if_pos (List.mem_cons_of_mem _ hr)]
      · rw [if_neg hr]
        by_cases hid : i = id
        · subst hid
          rw [Function.update_self, if_pos (List.mem_cons_self ..)]
        · rw [Function.update_of_ne hid, if_neg fun hm => (List.mem_cons.mp hm).elim hid hr]
    · refine (hhints i).trans ?_
      show (if i ∈ rest then none else (d.hints.erase id)[i]?) = _
      rw [Std.ExtTreeMap.getElem?_erase]
      by_cases hr : i ∈ rest
      · rw [if_pos hr, if_pos (List.mem_cons_of_mem _ hr)]
      · by_cases hid : i = id
        · simp [hid]
        · simp [hr, hid, Ne.symm hid]

omit [Checksum] in
theorem Dir.hint_removeFiles {d : Dir} {ids : List Nat} {i : Nat} {h : Bytes}
    (hi : (d.removeFiles ids).hints[i]? = some h) : i ∉ ids ∧ d.hints[i]? = some h := by
  rw [(d.removeFiles_spec ids).2] at hi
  split at hi
  · cases hi
  · rename_i hm
    exact ⟨hm, hi⟩

omit [Checksum] in
/-- Every data file is an open one, so none is left. -/
theorem bytes_cleared {s : Store} (h : ∀ id, s.files[id]? = (s.dir.bytes id).map List.length) :
    s.cleared.dir.bytes = fun _ => none := by
  funext i
  refine ((s.dir.removeFiles_spec s.files.keys).1 i).trans ?_
  by_cases hi : i ∈ s.files.keys
  · rw [if_pos hi]
  · rw [if_neg hi]
    cases hb : s.dir.bytes i with
    | none => rfl
    | some b => exact absurd (Std.ExtTreeMap.mem_keys.mpr ((Store.mem_files h).mpr ⟨b, hb⟩)) hi

/-- What `Reset` leaves: nothing in view, and a counter at zero. -/
structure Cleared (s s' : Store) : Prop where
  wf : Wf .every s' []
  view : s'.view = fun _ => none
  seq : s'.seq = 0
  mergeSeq : s'.mergeSeq = 0
  manifest : s'.dir.manifest = some (manifestText 0)
  nextID : s'.nextID = s.nextID + 1
  empty : ∀ i r, ¬ Holds .every s'.dir.bytes i r

/-- **A reset drops everything.** -/
theorem Wf.reset {s : Store} (h : Wf .every s []) (hid : s.nextID + 1 < 2 ^ 32) :
    ∃ s', s.reset = (s', none) ∧ Cleared s s' := by
  have hgone := bytes_cleared h.files
  have hnone (i : Nat) {b : Bytes} (hb : s.cleared.dir.bytes i = some b) : False := by
    rw [hgone] at hb
    cases hb
  have hmounted : Mounted .every s.cleared [] :=
    { running := h.running
      dir := ⟨fun i _ hb => (hnone i hb).elim, fun _ _ _ => trivial, fun i _ _ _ hb => (hnone i hb).elim⟩
      files := fun i => (congrArg (Option.map List.length) (congrFun hgone i)).symm
      fresh := fun i _ hb => (hnone i hb).elim
      hintIDs := fun i hi => h.hintIDs i (hi.imp_left fun hm => by
        obtain ⟨c, hc⟩ := Option.isSome_iff_exists.mp (Std.ExtTreeMap.mem_iff_isSome_getElem?.mp hm)
        exact Std.ExtTreeMap.mem_iff_isSome_getElem?.mpr (by rw [(Dir.hint_removeFiles hc).2]; rfl))
      hinting := fun _ _ _ _ => trivial
      located := fun k e he => by simp [Store.cleared] at he
      pending := fun x hx => absurd hx List.not_mem_nil }
  refine ⟨{s.cleared.withActive with dirty := false}, ?_,
    hmounted.withActive.same ⟨rfl, rfl, rfl, rfl, rfl, rfl, rfl⟩ rfl,
    ?_, rfl, rfl, rfl, rfl, fun i r hr => ?_⟩
  · rw [Store.reset, if_neg (by rw [h.running]; decide), hmounted.openNewActive hid]
  · funext k
    simp [Store.view, Index.versions, Store.withActive, Store.created, Store.cleared]
  · rw [show ({s.cleared.withActive with dirty := false} : Store).dir.bytes = _ from bytes_withActive s.cleared] at hr
    obtain ⟨b, hb, -⟩ := (holds_create hmounted.notMem_nextID).mp hr
    exact hnone i hb

end Replica

end Gokv.Engine
