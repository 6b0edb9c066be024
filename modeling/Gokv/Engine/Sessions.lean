import Gokv.Engine.Tidied

/-! The counters over whole sessions.

Every call keeps the ledger (`Ledger.execute`), a merge as long as no record it copies is beyond
the limits of the format. So in every run whose merges meet that, the counters are what the index
and the files say, and the dead bytes need no clamp (`session_accounted`). The limits bind what is
written, but a locator that has lost its upper bits can lead into a value, and there anything may
stand: a record too long for a scan, and one without a key, at which the replay of the merge's own
hint gives up after it has taken the first (`forged_session`). -/
namespace Gokv.Engine
open Base

section Sessions
variable [Checksum] {s : Store}

/-- What can be asked of a store, one at a time, and what its background does. -/
inductive Command where
  | append (a : Append)
  | compact
  | reset
  | reopen (opts : Options)
  | sync
  | hint (id : Nat)

def Store.execute (s : Store) : Command → Store × Option Error
  | .append a => s.append a
  | .compact => s.compact
  | .reset => s.reset
  | .reopen opts =>
    match openStore opts s.close with
    | .ok s => (s, none)
    | .error e => (s, some e)
  | .sync => s.sync
  | .hint id => (s.finishHint id, none)

def sessionMachine : Machine Command Store (Option Error) := ⟨Store.execute⟩

/-- A merge finds no record beyond the limits. -/
def Modest (s : Store) : Command → Prop
  | .compact => s.Legible
  | _ => True

instance (d : Dir) (e : Entry) : Decidable (∀ r, Store.readRecord d e = .ok r → r.Sized) :=
  match h : Store.readRecord d e with
  | .error _ => isTrue fun r hr => by cases hr
  | .ok r => decidable_of_iff r.Sized ⟨fun hs r' hr' => by cases hr'; exact hs, fun hall => hall r rfl⟩

instance (s : Store) : Decidable s.Legible :=
  inferInstanceAs (Decidable (∀ x ∈ s.liveEntries, ∀ r, Store.readRecord s.dir x.2 = .ok r → r.Sized))

instance (s : Store) : (c : Command) → Decidable (Modest s c)
  | .compact => inferInstanceAs (Decidable s.Legible)
  | .append _ | .reset | .reopen _ | .sync | .hint _ => isTrue trivial

/-- **One call keeps the ledger.** -/
theorem Ledger.execute (h : Ledger s) (c : Command) (hc : Modest s c) : Ledger (s.execute c).1 := by
  cases c with
  | append a => exact h.append a
  | compact => exact h.compact hc
  | reset => exact h.reset
  | sync => exact h.sync
  | hint id => exact h.finishHint id
  | reopen opts =>
    rw [Store.execute]
    cases ho : openStore opts s.close with
    | error e => exact h
    | ok s' => exact h.reopen ho

omit [Checksum] in
theorem Store.Accounted.deadBytes (h : s.Accounted) : s.deadBytes = s.total - s.live := by
  have := h.within
  rw [Store.deadBytes]
  split <;> omega

/-- **The counters of every state** of a run whose merges meet the limits. -/
theorem session_accounted (opts : Options) (cs : List Command) (hcs : sessionMachine.Meets Modest (Store.init opts) cs)
    (before after : List Command) (hsplit : cs = before ++ after) :
    let s := (sessionMachine.run (Store.init opts) before).1
    s.Accounted ∧ s.deadBytes = s.total - s.live := by
  rw [hsplit, Machine.meets_append] at hcs
  have hledger := hcs.1.invariant (P := Ledger) (fun s c h hc => h.execute c hc) (ledger_init opts)
  exact ⟨hledger.accounted, hledger.accounted.deadBytes⟩

/-! ### Opening behind a hint that breaks off -/

theorem torn_of_not_sized {r : Record} (hr : decodeRecord r.encode = .ok r) (hs : ¬ r.Sized) (rest : Bytes) :
    Torn (r.encode ++ rest) := by
  rw [Torn, Option.eq_none_iff_forall_ne_some]
  rintro ⟨r', raw, rest'⟩ hnext
  obtain ⟨hs', -, heq⟩ := nextRecord_some hnext
  exact hs ((encode_append_inj hr (decodeRecord_encode r' hs') heq).1 ▸ hs')

theorem scanFile_torn {b : Bytes} (h : Torn b) : scanFile b = ([], 0) := by
  have := scanFile_eq [] (fun r hr => absurd hr List.not_mem_nil) b h
  simpa [layout] using this

/-- What a hint gave before it broke off stays, and the file behind it is cut away. -/
theorem open_cut (opts : Options) {d : Dir} {b hint : Bytes} {item : HintItem} {err : Error}
    (hids : listDataFiles d = [1, 2])
    (hb₁ : d.bytes 1 = some []) (hb₂ : d.bytes 2 = some b) (hh₁ : d.hints[1]? = none) (hh₂ : d.hints[2]? = some hint)
    (hread : readHint 2 hint = ([item], some err)) (htorn : Torn b) (hne : 0 < b.length)
    (hlive : item.recovered.tomb = false) (hlimit : 0 < opts.applyDefaults.limit) :
    ∃ s, openStore opts d = .ok s ∧ s.total = 0 ∧ s.live = item.entry.size := by
  obtain ⟨f₁, hf₁, hfb₁⟩ := Option.map_eq_some_iff.mp hb₁
  obtain ⟨f₂, hf₂, hfb₂⟩ := Option.map_eq_some_iff.mp hb₂
  have hmem₁ : 1 ∈ d.data := Dir.mem_data.mpr ⟨_, hb₁⟩
  have hmem₂ : 2 ∈ d.data := Dir.mem_data.mpr ⟨_, hb₂⟩
  have hdata : (removeOrphanHints d).data = d.data := rfl
  have hempty : scanFile ([] : Bytes) = ([], 0) := scanFile_torn torn_nil
  have hfirst : recoverFile opts.applyDefaults false (Recovery.start d) 1 =
      ⟨removeOrphanHints d, ∅, (∅ : Std.ExtTreeMap Nat Nat compare).insert 1 0, 2, 0, 0, none⟩ := by
    simp only [recoverFile, Recovery.start, hdata, hf₁, hfb₁, hints_removeOrphanHints hmem₁, hh₁, scanIntoIndex, hempty]
    rfl
  have hlast : recoverFiles opts.applyDefaults (Recovery.start d) (listDataFiles d) =
      ⟨{removeOrphanHints d with data := d.data.insert 2 ⟨[], 0⟩}, (∅ : Index).install item.key item.recovered,
        ((∅ : Std.ExtTreeMap Nat Nat compare).insert 1 0).insert 2 0, 3, maxSeqOf 0 item.entry.seq, 0,
          some ⟨2, 0⟩⟩ := by
    rw [hids]
    show recoverFile _ true (recoverFile _ false (Recovery.start d) 1) 2 = _
    rw [hfirst]
    simp only [recoverFile, hdata, hf₂, hfb₂, hints_removeOrphanHints hmem₂, hh₂, replayHint, hread,
      scanIntoIndex, scanFile_torn htorn]
    simp only [Option.isNone_some, Bool.false_eq_true, if_false, List.foldl_nil, hne, Bool.not_false,
      Bool.true_and, decide_true,
      if_true, List.take_zero, hlimit]
    rfl
  have hreuse : (recoverFiles opts.applyDefaults (Recovery.start d) (listDataFiles d)).reuseActive =
    some ⟨2, 0⟩ := by rw [hlast]
  refine ⟨_, openStore_reuse hreuse, ?_, ?_⟩
  · rw [hlast]
    rfl
  · have hkeys : ((∅ : Index).install item.key item.recovered).toList = [(item.key, item.recovered)] := by
      refine toList_eq_of_mem (List.pairwise_singleton _ _) fun k e => ?_
      rw [Index.getElem?_install]
      simp [eq_comm]
    rw [hlast]
    show ((((∅ : Index).install item.key item.recovered).toList.filter fun x => !x.2.tomb).map fun x =>
      (x.2.size : Int)).sum = _
    rw [hkeys, List.filter_cons_of_pos (by rw [hlive]; rfl)]
    exact Int.add_zero _

omit [Checksum] in
theorem readHintFrom_keyless (id fuel : Nat) (e : Entry) (flags : UInt8) (rest : Bytes) :
    readHintFrom id (fuel + 1) (hintEntry [] e flags ++ rest) = ([], some .badHint) := by
  have hfields : hintEntry [] e flags ++ rest =
    (putLE 8 e.seq.toNat ++ ([flags] ++ (putLE 8 e.pos ++ putLE 4 e.size))) ++
      (putLE 4 0 ++ rest) := by
    simp [hintEntry]
  have hlen : (hintEntry [] e flags ++ rest).length = 25 + rest.length := by
    rw [List.length_append, length_hintEntry, hintHeaderSize]
    rfl
  have hkl : slice (hintEntry [] e flags ++ rest) 21 25 = putLE 4 0 := by
    rw [hfields]
    exact slice_mid _ _ _ (by simp) (by simp)
  have hne : hintEntry [] e flags ++ rest ≠ [] := by
    intro h
    rw [h, List.length_nil] at hlen
    omega
  rw [readHintFrom, if_neg hne, hintHeaderSize, if_neg (by omega)]
  simp only [hkl, getLE_putLE_of_lt (show 0 < 256 ^ 4 by decide), true_or, if_true]

/-- The replay of a hint stops at a record without a key. -/
theorem readHint_keyless (id : Nat) {r g : Record} (rs : List Record) (hk : 0 < r.key.length)
    (hk' : r.key.length ≤ maxKeySize)
    (hlen : r.encode.length < 2 ^ 32) (hg : g.key = []) : ∃ item, readHint id (hintOf id (layout 0 (r :: g :: rs))) =
      ([item], some .badHint) ∧ item.entry.size = r.encode.length ∧ item.flags = r.flags := by
  obtain ⟨hmagic, hdrop, hitems⟩ := hintOf_shape id (r :: g :: rs)
  obtain ⟨fuel, hfuel⟩ : ∃ fuel, (hintOf id (layout 0 (r :: g :: rs))).length = fuel + 1 + 1 := by
    rw [List.length_cons, List.length_cons] at hitems
    exact ⟨(hintOf id (layout 0 (r :: g :: rs))).length - 2, by omega⟩
  have hr : Scanned.hintEntry id ⟨0, r.encode, r⟩ = hintEntry r.key (Scanned.entry id ⟨0, r.encode, r⟩) r.flags := rfl
  have hg' (pos : Nat) : Scanned.hintEntry id ⟨pos, g.encode, g⟩ =
      hintEntry [] (Scanned.entry id ⟨pos, g.encode, g⟩) g.flags := by
    rw [Scanned.hintEntry, hg]
  refine ⟨⟨r.key, ⟨getLE (putLE 8 0), r.seq, id, getLE (putLE 4 (r.encode.length % 2 ^ 32)), false⟩, r.flags⟩,
    ?_, ?_, rfl⟩
  · rw [readHint, if_pos hmagic, hdrop, hfuel]
    simp only [layout, List.flatMap_cons]
    rw [hr, readHintFrom_fields id _ _ _ _ _ hk hk', hg', readHintFrom_keyless]
    rfl
  · rw [Nat.mod_eq_of_lt hlen, getLE_putLE_of_lt (show r.encode.length < 256 ^ 4 by omega)]

/-! ### A forged record -/

def zeros (n : Nat) : Bytes := List.replicate n 0

omit [Checksum] in
@[simp] theorem length_zeros (n : Nat) : (zeros n).length = n := List.length_replicate

def keyless : Record := ⟨0, 18, 0, [], [0]⟩

/-- The second record of the batch, with a record inside. -/
def carrier (n : Nat) : Record := ⟨0, 2, 2, [3], zeros 451 ++ (keyless.encode ++ zeros (n - 481))⟩

/-- A record that ends within the second one of the batch. -/
def oversize (n : Nat) : Record := ⟨0, 17, 0, [9], zeros (n - 480) ++ (carrier n).encode.take 481⟩

/-- The first record of the batch, with the start of that record inside. -/
def opening (n : Nat) : Record := ⟨0, 1, 2, [2], zeros 450 ++ (oversize n).encode.take (n - 450)⟩

/-- Sixteen long values, so that the two last records lie where their offsets do not reach. -/
def forgedPairs (n : Nat) : List (Bytes × Bytes) :=
  ([2], (opening n).value) :: ([3], (carrier n).value) :: (List.range 14).map
    (fun i => ([UInt8.ofNat (i + 4)], zeros n)) ++
    [([0, 0], zeros n), ([1], [])]

def forgedRecords (n : Nat) : List Record := Store.assignSeqs 0 (Store.batchRecords 0 (forgedPairs n))

section Forged
variable {n : Nat}

theorem length_carrier (hn : 481 ≤ n) : (carrier n).value.length = n := by
  have hg : keyless.encode.length = 30 := by rw [Record.length_encode]; rfl
  show (zeros 451 ++ (keyless.encode ++ zeros (n - 481))).length = n
  simp only [List.length_append, length_zeros, hg]
  omega

theorem length_oversize (hn : 481 ≤ n) : (oversize n).value.length = n + 1 := by
  have hc : (carrier n).encode.length = 30 + n := by
    rw [Record.length_encode, length_carrier hn]
    rfl
  show (zeros (n - 480) ++ (carrier n).encode.take 481).length = n + 1
  simp only [List.length_append, length_zeros, List.length_take, hc]
  omega

theorem length_opening (hn : 481 ≤ n) : (opening n).value.length = n := by
  have hf : (oversize n).encode.length = 30 + (n + 1) := by
    rw [Record.length_encode, length_oversize hn]
    rfl
  show (zeros 450 ++ (oversize n).encode.take (n - 450)).length = n
  simp only [List.length_append, length_zeros, List.length_take, hf]
  omega

omit [Checksum] in
theorem Record.lifted_of_flags {r : Record} (h : r.flags = 0) : r.lifted = r := by
  rw [Record.lifted, h, UInt8.zero_and, ← h]

/-- Header and key, then the value. -/
theorem Record.encode_split (r : Record) :
    ∃ h, h.length = recordHeaderSize + r.key.length ∧ r.encode = h ++ r.value := by
  refine ⟨r.encode.take (recordHeaderSize + r.key.length), ?_, ?_⟩
  · rw [List.length_take, r.length_encode]
    omega
  · conv_lhs => rw [← List.take_append_drop (recordHeaderSize + r.key.length) r.encode, r.drop_key]

/-- A long value under a one-byte key. -/
structure Filler (n : Nat) (r : Record) : Prop where
  key : r.key.length = 1
  value : r.value.length = n
  other : r.key ≠ [1]
  put : r.tombstone = false

theorem Filler.length_encode {r : Record} (h : Filler n r) : r.encode.length = n + 30 := by
  rw [Record.length_encode, h.key, h.value, recordHeaderSize]
  omega

theorem forgedRecords_split (hn : 481 ≤ n) : ∃ mid, mid.length = 14 ∧
    (∀ r ∈ opening n :: carrier n :: mid, Filler n r) ∧
    forgedRecords n = (opening n :: carrier n :: mid) ++ [⟨0, 17, 2, [0, 0], zeros n⟩, ⟨0, 18, 6, [1], []⟩] := by
  refine ⟨Store.assignSeqs 2 (((List.range 14).map fun i => ([UInt8.ofNat (i + 4)], zeros n)).map
    (memberRecord 0)), rfl, ?_, rfl⟩
  have hmember : ((2 : UInt8) &&& flagTombstone != 0) = false := by decide
  rw [List.forall_mem_cons, List.forall_mem_cons]
  refine ⟨⟨rfl, length_opening hn, show ([2] : Bytes) ≠ [1] by decide, hmember⟩,
    ⟨rfl, length_carrier hn, show ([3] : Bytes) ≠ [1] by decide, hmember⟩, fun r hr => ?_⟩
  obtain ⟨r₀, hr₀, heq⟩ := mem_assignSeqs hr
  obtain ⟨x, hx, rfl⟩ := List.mem_map.mp hr₀
  obtain ⟨i, hi, rfl⟩ := List.mem_map.mp hx
  have hother : ∀ i ∈ List.range 14, ([UInt8.ofNat (i + 4)] : Bytes) ≠ [1] := by decide
  rw [heq]
  exact ⟨rfl, length_zeros n, hother i hi, hmember⟩

/-- 480 bytes into the batch stands a record that is too long. -/
theorem oversize_at (hn : 481 ≤ n) (rest : Bytes) : ∃ a c, a.length = 480 ∧
    (opening n).encode ++ ((carrier n).encode ++ rest) = a ++ ((oversize n).encode ++ c) := by
  obtain ⟨h, hlen, hopening⟩ := (opening n).encode_split
  obtain ⟨h', hlen', hoversize⟩ := (oversize n).encode_split
  have hlen : h.length = 30 := hlen
  have hlen' : h'.length = 30 := hlen'
  have htail : (oversize n).encode.drop (n - 450) = (carrier n).encode.take 481 := by
    have hsplit : (oversize n).encode = (h' ++ zeros (n - 480)) ++ (carrier n).encode.take 481 := by
      rw [hoversize, List.append_assoc]
      rfl
    rw [hsplit]
    refine List.drop_left' ?_
    rw [List.length_append, hlen', length_zeros]
    omega
  refine ⟨h ++ zeros 450, (carrier n).encode.drop 481 ++ rest, by simp [hlen], ?_⟩
  calc (opening n).encode ++ ((carrier n).encode ++ rest)
      = h ++ (zeros 450 ++ (oversize n).encode.take (n - 450)) ++
          ((carrier n).encode.take 481 ++ (carrier n).encode.drop 481 ++ rest) := by
        rw [List.take_append_drop, hopening]
        rfl
    _ = h ++ zeros 450 ++ ((oversize n).encode.take (n - 450) ++ (oversize n).encode.drop (n - 450) ++
          ((carrier n).encode.drop 481 ++ rest)) := by
        rw [htail]
        simp only [List.append_assoc]
    _ = h ++ zeros 450 ++ ((oversize n).encode ++ ((carrier n).encode.drop 481 ++ rest)) := by
      rw [List.take_append_drop]

/-- Behind it stands one without a key. -/
theorem keyless_at (hn : 481 ≤ n) (rest : Bytes) : ∃ a c, a.length = n + 511 ∧
    (opening n).encode ++ ((carrier n).encode ++ rest) = a ++ (keyless.encode ++ c) := by
  obtain ⟨h, hlen, hcarrier⟩ := (carrier n).encode_split
  have hlen : h.length = 30 := hlen
  have hopening : (opening n).encode.length = 30 + n := by
    rw [Record.length_encode, length_opening hn]
    rfl
  refine ⟨(opening n).encode ++ (h ++ zeros 451), zeros (n - 481) ++ rest, ?_, ?_⟩
  · simp only [List.length_append, hopening, hlen, length_zeros]
    omega
  · rw [hcarrier]
    show _ ++ (h ++ (zeros 451 ++ (keyless.encode ++ zeros (n - 481))) ++ rest) = _
    simp only [List.append_assoc]

/-- Where a record of the batch stands: among the fillers, or as one of the last two. -/
theorem forged_places (hn : 481 ≤ n) {before after : List Record} {r : Record}
    (hsplit : forgedRecords n = before ++ r :: after) :
    (Filler n r ∧ before.length < 16 ∧ (encodeAll before).length = before.length * (n + 30)) ∨
      (r = ⟨0, 17, 2, [0, 0], zeros n⟩ ∧ (encodeAll before).length = 16 * (n + 30)) ∨
      r = ⟨0, 18, 6, [1], []⟩ ∧ (encodeAll before).length = 16 * (n + 30) + (n + 31) := by
  obtain ⟨mid, hmid, hfill, heq⟩ := forgedRecords_split hn
  have hlong {rs : List Record} (hrs : ∀ r ∈ rs, Filler n r) : (encodeAll rs).length = rs.length * (n + 30) :=
    length_encodeAll_of_forall fun r hr => (hrs r hr).length_encode
  have hall : (encodeAll (opening n :: carrier n :: mid)).length = 16 * (n + 30) := by
    rw [hlong hfill, List.length_cons, List.length_cons, hmid]
  have hcount : (opening n :: carrier n :: mid).length = 16 := by rw [List.length_cons, List.length_cons, hmid]
  generalize opening n :: carrier n :: mid = fillers at hfill heq hall hcount
  rcases List.append_eq_append_iff.mp (hsplit.symm.trans heq) with ⟨rest, hf, hr⟩ | ⟨rest, hb, hr⟩
  · cases rest with
    | nil =>
      rw [List.nil_append, List.cons.injEq] at hr
      rw [List.append_nil] at hf
      exact .inr (.inl ⟨hr.1, hf ▸ hall⟩)
    | cons x rest =>
      rw [List.cons_append, List.cons.injEq] at hr
      obtain ⟨rfl, -⟩ := hr
      rw [hf, List.length_append, List.length_cons] at hcount
      refine .inl ⟨hfill r (by rw [hf]; simp), by omega, hlong fun r' hr' => hfill r' ?_⟩
      rw [hf]
      exact List.mem_append_left _ hr'
  · cases rest with
    | nil =>
      rw [List.nil_append, List.cons.injEq] at hr
      rw [List.append_nil] at hb
      exact .inr (.inl ⟨hr.1.symm, hb ▸ hall⟩)
    | cons x rest =>
      rw [List.cons_append, List.cons.injEq] at hr
      obtain ⟨rfl, hr⟩ := hr
      cases rest with
      | nil =>
        rw [List.nil_append, List.cons.injEq] at hr
        refine .inr (.inr ⟨hr.1.symm, ?_⟩)
        rw [hb, encodeAll_append, encodeAll_cons, List.length_append, hall, List.length_append, Record.length_encode]
        show 16 * (n + 30) + (recordHeaderSize + 2 + (zeros n).length + 0) = _
        rw [length_zeros, recordHeaderSize]
        omega
      | cons y rest =>
        have := congrArg List.length hr
        simp at this

/-- **What the locators read**: the fillers themselves, and for the last two keys what stands in the values. -/
theorem First.forged_reads {opts : Options} (h : First s opts (forgedRecords n)) (hn : n = 2 ^ 28) {k : Bytes}
    {e : Entry}
    (he : s.keys[k]? = some e) : e.tomb = false ∧ e.size ≤ n + 31 ∧ ∃ r, Store.readRecord s.dir e = .ok r ∧
      (k = [0, 0] → r = oversize n) ∧ (k = [1] → r = keyless) := by
  have hn' : 481 ≤ n := by omega
  obtain ⟨before, r, after, hsplit, rfl, rfl⟩ := h.entry he
  obtain ⟨mid, -, -, heq⟩ := forgedRecords_split hn'
  have hfront : encodeAll (forgedRecords n) =
      (opening n).encode ++ ((carrier n).encode ++ encodeAll
        (mid ++ [⟨0, 17, 2, [0, 0], zeros n⟩, ⟨0, 18, 6, [1], []⟩])) := by
    rw [heq, List.cons_append, List.cons_append, encodeAll_cons, encodeAll_cons]
  rcases forged_places hn' hsplit with ⟨hfill, hlt, hlen⟩ | ⟨rfl, hlen⟩ | ⟨rfl, hlen⟩
  · have hsize : (wrapped before r).size = r.encode.length := by
      show (recordHeaderSize + r.key.length + r.value.length) % 2 ^ 32 = _
      rw [← Record.length_encode, hfill.length_encode]
      omega
    have hs : r.Sized := by
      rw [Record.Sized, hfill.key, hfill.value, maxKeySize, maxValueSize]
      omega
    refine ⟨hfill.put, ?_, r, ?_, ?_, ?_⟩
    · rw [hsize, hfill.length_encode]
      omega
    · refine h.read (a := encodeAll before) (c := encodeAll after) rfl ?_ ?_ hsize (decodeRecord_encode r hs)
      · rw [hsplit, encodeAll_append, encodeAll_cons]
      · refine Nat.mod_eq_of_lt ?_
        rw [hlen]
        calc before.length * (n + 30) ≤ 15 * (n + 30) := Nat.mul_le_mul_right _ (by omega)
          _ < 2 ^ 32 := by omega
    · intro hkey
      have := hfill.key
      rw [hkey] at this
      cases this
    · exact fun hkey => absurd hkey hfill.other
  · obtain ⟨a, c, ha, hbytes⟩ := oversize_at hn' (encodeAll (mid ++ [⟨0, 17, 2, [0, 0], zeros n⟩, ⟨0, 18, 6, [1], []⟩]))
    have hsize : (wrapped before ⟨0, 17, 2, [0, 0], zeros n⟩).size = n + 31 := by
      show (recordHeaderSize + 2 + (zeros n).length) % 2 ^ 32 = _
      rw [length_zeros, recordHeaderSize]
      omega
    have hlong : (oversize n).encode.length = n + 31 := by
      rw [Record.length_encode, length_oversize hn']
      show recordHeaderSize + 1 + (n + 1) = _
      rw [recordHeaderSize]
      omega
    have hput : (⟨0, 17, 2, [0, 0], zeros n⟩ : Record).tombstone = false :=
      show ((2 : UInt8) &&& flagTombstone != 0) = false by decide
    refine ⟨hput, hsize.le, oversize n, ?_, fun _ => rfl, fun hk => ?_⟩
    · refine h.read (a := a) (c := c) rfl (hfront.trans hbytes) ?_ (hsize.trans hlong.symm) ?_
      · show (encodeAll before).length % 2 ^ 32 = _
        rw [hlen, ha]
        omega
      · refine decode_of_lengths _ (getLE_putLE_of_lt (show 1 < 256 ^ 4 by decide)) (getLE_putLE_of_lt ?_)
        rw [length_oversize hn']
        omega
    · exact absurd hk (show ([0, 0] : Bytes) ≠ [1] by decide)
  · obtain ⟨a, c, ha, hbytes⟩ := keyless_at hn' (encodeAll (mid ++ [⟨0, 17, 2, [0, 0], zeros n⟩, ⟨0, 18, 6, [1], []⟩]))
    have hsize : (wrapped before ⟨0, 18, 6, [1], []⟩).size = 30 := rfl
    have hlong : keyless.encode.length = 30 := by
      rw [Record.length_encode]
      rfl
    refine ⟨show ((6 : UInt8) &&& flagTombstone != 0) = false by decide, by rw [hsize]; omega, keyless, ?_,
      fun hk => ?_,
      fun _ => rfl⟩
    · refine h.read (a := a) (c := c) rfl (hfront.trans hbytes) ?_ (hsize.trans hlong.symm) ?_
      · show (encodeAll before).length % 2 ^ 32 = _
        rw [hlen, ha]
        omega
      · exact decode_of_lengths _ (getLE_putLE_of_lt (show 0 < 256 ^ 4 by decide))
          (getLE_putLE_of_lt (show 1 < 256 ^ 4 by decide))
    · exact absurd hk (show ([1] : Bytes) ≠ [0, 0] by decide)

/-- The keys of the batch in order: the last two come first. -/
theorem First.forged_order {opts : Options} (h : First s opts (forgedRecords n)) (hn : n = 2 ^ 28) :
    s.liveEntries.map Prod.fst = [0, 0] :: [1] :: (List.range 16).map fun i => [UInt8.ofNat (i + 2)] := by
  have hkeys : (forgedRecords n).map Record.key = ((List.range 16).map fun i => [UInt8.ofNat (i + 2)]) ++
    [[0, 0], [1]] := rfl
  have hnodup : ((forgedRecords n).map Record.key).Nodup := by
    rw [hkeys]
    decide
  have hmem (k : Bytes) : k ∈ s.liveEntries.map Prod.fst ↔ k ∈ (forgedRecords n).map Record.key := by
    constructor
    · intro hk
      obtain ⟨x, hx, rfl⟩ := List.mem_map.mp hk
      obtain ⟨before, r, after, hsplit, hr, -⟩ := h.entry (lookup_eq_some.mp (mem_liveEntries.mp hx)).1
      rw [hr, hsplit]
      exact List.mem_map_of_mem (by simp)
    · intro hk
      obtain ⟨r, hr, rfl⟩ := List.mem_map.mp hk
      obtain ⟨before, after, hsplit⟩ := List.append_of_mem hr
      have hindexed := h.indexed hnodup hsplit
      have hlive := lookup_eq_some.mpr ⟨hindexed, (h.forged_reads hn hindexed).1⟩
      exact List.mem_map_of_mem (f := Prod.fst) (mem_liveEntries (x := (r.key, wrapped before r)).mpr hlive)
  have hperm : (s.liveEntries.map Prod.fst).Perm
      ([0, 0] :: [1] :: (List.range 16).map fun i => [UInt8.ofNat (i + 2)]) := by
    refine ((List.perm_ext_iff_of_nodup (liveEntries_distinct s) hnodup).mpr hmem).trans ?_
    rw [hkeys]
    exact List.perm_append_comm
  refine hperm.eq_of_pairwise (fun j k _ _ hjk hkj => ?_) (liveEntries_ascending s) (by decide)
  exact absurd hkj (Std.OrientedCmp.not_lt_of_lt hjk)

/-- The merge of the batch: one output, which starts with the two forged records. -/
theorem First.forged_merge (h : First s ⟨2 ^ 40, .never⟩ (forgedRecords n)) (hn : n = 2 ^ 28) :
    ∃ s' records, s.compact = (s', none) ∧ s'.active.id = 1 ∧ s'.dir.bytes 1 = some [] ∧
      s'.dir.bytes 2 = some (encodeAll (oversize n :: keyless :: records)) ∧
      (∀ id b, s'.dir.bytes id = some b → id = 1 ∨ id = 2) ∧ s'.dir.hints[1]? = none ∧
      s'.dir.hints[2]? = some (hintOf 2 (layout 0 (oversize n :: keyless :: records))) := by
  have hkey {x : Bytes × Entry} (hx : x ∈ s.liveEntries) : s.keys[x.1]? = some x.2 :=
    (lookup_eq_some.mp (mem_liveEntries.mp hx)).1
  have horder := h.forged_order hn
  have hcount : s.liveEntries.length = 18 := by
    have := congrArg List.length horder
    rwa [List.length_map] at this
  have hne : encodeAll (forgedRecords n) ≠ [] := fun hnil => by
    obtain ⟨mid, -, -, heq⟩ := forgedRecords_split (n := n) (by omega)
    rw [heq, List.cons_append, encodeAll_cons, List.append_eq_nil_iff] at hnil
    have := (opening n).encode_pos
    rw [hnil.1] at this
    exact Nat.lt_irrefl _ this
  obtain ⟨s', s₀, shelves, hcompact, hm, hlive, hhints, hactive, hnext, hopts, hempty, hsame⟩ :=
    h.compact hne (by rw [hcount]; decide) fun x hx => by
      obtain ⟨-, -, r, hr, -⟩ := h.forged_reads hn (hkey hx)
      exact ⟨r, hr⟩
  have hbound : s₀.liveBytes ≤ 18 * (n + 31) := by
    rw [Store.liveBytes, hlive, ← hcount]
    have := List.sum_le_card_nsmul (s.liveEntries.map fun x => x.2.size) (n + 31) fun m hmem => by
      obtain ⟨x, hx, rfl⟩ := List.mem_map.mp hmem
      exact (h.forged_reads hn (hkey hx)).2.1
    rwa [List.length_map, smul_eq_mul] at this
  have hlimit : s₀.opts.limit = 2 ^ 40 := by
    rw [hopts, h.opts]
    decide
  obtain ⟨sh, rfl⟩ : ∃ sh, shelves = [sh] := by
    have hone : ¬ 1 < shelves.length := fun hlt => by
      have := Store.limit_lt_liveBytes (hm.count ▸ hlt)
      omega
    cases shelves with
    | nil =>
      have hnone := hm.rows
      rw [hlive] at hnone
      rw [← hnone] at hcount
      cases hcount
    | cons sh rest =>
      cases rest with
      | nil => exact ⟨sh, rfl⟩
      | cons => exact absurd (by simp) hone
  have hid : sh.id = 2 := by
    have := hm.ids
    rw [hnext] at this
    exact (List.cons.inj this).1
  have hrows : sh.rows.map Row.key = [0, 0] :: [1] :: (List.range 16).map fun i => [UInt8.ofNat (i + 2)] := by
    have hall : shelved [sh] = sh.rows := by simp [shelved]
    rw [← horder, ← hlive, ← hm.rows, hall, List.map_map]
    rfl
  -- The rows of the first two keys.
  obtain ⟨r₀, rows, hr₀, hk₀, hrows⟩ := List.map_eq_cons_iff.mp hrows
  obtain ⟨r₁, rows, rfl, hk₁, -⟩ := List.map_eq_cons_iff.mp hrows
  have hrecord {r : Row} (hr : r ∈ sh.rows) : Store.readRecord s.dir r.entry = .ok r.record ∧
      s.keys[r.key]? = some r.entry := by
    have hmem : r ∈ shelved [sh] := List.mem_flatMap.mpr ⟨sh, List.mem_singleton_self _, hr⟩
    have hx : (r.key, r.entry) ∈ s.liveEntries := hlive ▸ hm.row_live hmem
    exact ⟨(hsame _ hx).symm.trans (hm.reads r hmem), hkey hx⟩
  have hrec₀ : r₀.record = oversize n := by
    obtain ⟨hread, hx⟩ := hrecord (r := r₀) (by rw [hr₀]; simp)
    obtain ⟨-, -, r, hr, hfirst, -⟩ := h.forged_reads hn hx
    exact (Except.ok.inj (hread.symm.trans hr)).trans (hfirst hk₀)
  have hrec₁ : r₁.record = keyless := by
    obtain ⟨hread, hx⟩ := hrecord (r := r₁) (by rw [hr₀]; simp)
    obtain ⟨-, -, r, hr, -, hsecond⟩ := h.forged_reads hn hx
    exact (Except.ok.inj (hread.symm.trans hr)).trans (hsecond hk₁)
  have hrecords : sh.records = oversize n :: keyless :: rows.map fun r => r.record.lifted := by
    rw [Shelf.records, hr₀, List.map_cons, List.map_cons, hrec₀, hrec₁, Record.lifted_of_flags rfl,
      Record.lifted_of_flags rfl]
  have hmem {id : Nat} : id ∈ [sh].map Shelf.id ↔ id = 2 := by simp [hid]
  have hstore : s'.active.id = 1 := by
    rw [hm.store]
    show s₀.active.id = 1
    rw [hactive]
  refine ⟨s', rows.map fun r => r.record.lifted, hcompact, hstore, ?_, ?_, fun id b hb => ?_, ?_, ?_⟩
  · rw [hm.others 1 (by rw [hmem]; decide), hactive, if_pos rfl, hempty]
  · rw [← hrecords, ← hid]
    exact hm.bytes sh (List.mem_singleton_self _)
  · by_contra hno
    rw [not_or] at hno
    rw [hm.others id (by rw [hmem]; exact hno.2), hactive, if_neg hno.1] at hb
    cases hb
  · rw [hm.otherHints 1 (by rw [hmem]; decide), hhints]
    simp
  · rw [← hrecords, ← hid]
    exact hm.hints sh (List.mem_singleton_self _)

/-- The batch, a merge and a reopening. -/
def forgedSession (n : Nat) : List Command :=
  [.append (.batchPut 0 ((forgedPairs n).map Prod.fst) ((forgedPairs n).map Prod.snd)), .compact,
    .reopen ⟨2 ^ 40, .never⟩]

theorem forged_run (hn : n = 2 ^ 28) :
    (sessionMachine.run (Store.init ⟨2 ^ 40, .never⟩) (forgedSession n)).2 = [none, none, none] ∧
      (sessionMachine.run (Store.init ⟨2 ^ 40, .never⟩) (forgedSession n)).1.total = 0 ∧
      (sessionMachine.run (Store.init ⟨2 ^ 40, .never⟩) (forgedSession n)).1.live = n + 31 ∧
      ¬ (sessionMachine.run (Store.init ⟨2 ^ 40, .never⟩) (forgedSession n)).1.Accounted := by
  have hn' : 481 ≤ n := by omega
  have hzip : ((forgedPairs n).map Prod.fst).zip ((forgedPairs n).map Prod.snd) = forgedPairs n :=
    (List.zip_of_prod rfl rfl).symm
  have hop : (Op.batchPut 0 ((forgedPairs n).map Prod.fst) ((forgedPairs n).map Prod.snd)).Valid := by
    refine ⟨by rw [List.length_map, List.length_map], by rw [List.length_map]; exact Nat.succ_ne_zero _, ?_⟩
    rw [hzip]
    refine validateBatch_of_forall ?_
    have hmax : n ≤ maxValueSize := by
      rw [maxValueSize]
      omega
    have hmid : ∀ x ∈ (List.range 14).map (fun i => ([UInt8.ofNat (i + 4)], zeros n)),
        Store.validateKey x.1 = none ∧ x.2.length ≤ maxValueSize := fun x hx => by
      obtain ⟨i, -, rfl⟩ := List.mem_map.mp hx
      exact ⟨rfl, by rwa [length_zeros]⟩
    rw [forgedPairs, List.cons_append, List.cons_append, List.forall_mem_cons, List.forall_mem_cons,
      List.forall_mem_append,
      List.forall_mem_cons, List.forall_mem_singleton]
    exact ⟨⟨rfl, by rwa [length_opening hn']⟩, ⟨rfl, by rwa [length_carrier hn']⟩, hmid,
      ⟨rfl, by rwa [length_zeros]⟩, rfl,
      Nat.zero_le _⟩
  obtain ⟨s, hput, hfirst⟩ := first_batchPut ⟨2 ^ 40, .never⟩ rfl 0 hop
  rw [hzip] at hfirst
  have h : First s ⟨2 ^ 40, .never⟩ (forgedRecords n) := hfirst
  obtain ⟨s', records, hcompact, hactive, hb₁, hb₂, honly, hh₁, hh₂⟩ := h.forged_merge hn
  obtain ⟨hbytes, hhints⟩ := Store.close_same (u := s') (b := []) (by rw [hactive, hb₁])
  have hids : listDataFiles s'.close = [1, 2] := by
    have hascending := listDataFiles_ascending s'.close
    have hmem (id : Nat) : id ∈ listDataFiles s'.close ↔ id ∈ [1, 2] := by
      rw [mem_listDataFiles, hbytes, List.mem_pair]
      constructor
      · rintro ⟨b, hb⟩
        exact honly id b hb
      · rintro (rfl | rfl)
        · exact ⟨_, hb₁⟩
        · exact ⟨_, hb₂⟩
    have hperm := (List.perm_ext_iff_of_nodup (hascending.imp fun hlt => Nat.ne_of_lt hlt) (by decide)).mpr hmem
    exact hperm.eq_of_pairwise (fun i j _ _ hij hji => absurd hji (Nat.lt_asymm hij)) hascending (by decide)
  have hlong : (oversize n).encode.length = n + 31 := by
    rw [Record.length_encode, length_oversize hn']
    show recordHeaderSize + 1 + (n + 1) = _
    rw [recordHeaderSize]
    omega
  obtain ⟨item, hread, hsize, hflags⟩ := readHint_keyless 2 (r := oversize n) (g := keyless) records
    (show 0 < ([9] : Bytes).length by decide) (show ([9] : Bytes).length ≤ maxKeySize by decide) (by omega) rfl
  have htorn : Torn (encodeAll (oversize n :: keyless :: records)) := by
    rw [encodeAll_cons]
    refine torn_of_not_sized ?_ (fun hs => ?_) _
    · refine decode_of_lengths _ (getLE_putLE_of_lt (show 1 < 256 ^ 4 by decide)) (getLE_putLE_of_lt ?_)
      rw [length_oversize hn']
      omega
    · have := hs.2.2
      rw [length_oversize hn', maxValueSize] at this
      omega
  have htomb : item.recovered.tomb = false := by
    show (item.flags &&& flagTombstone != 0) = false
    rw [hflags, show (oversize n).flags = 0 from rfl]
    decide
  obtain ⟨t, hopen, htotal, hliving⟩ := open_cut ⟨2 ^ 40, .never⟩ (d := s'.close) hids (hbytes ▸ hb₁) (hbytes ▸ hb₂)
    (hhints ▸ hh₁) (hhints ▸ hh₂) hread htorn (by rw [encodeAll_cons, List.length_append, hlong]; omega)
    htomb (by decide)
  have hrun : sessionMachine.run (Store.init ⟨2 ^ 40, .never⟩) (forgedSession n) = (t, [none, none, none]) := by
    simp only [forgedSession, Machine.run, sessionMachine, Store.execute, Store.append, hput, hcompact, hopen]
  have hlive : t.live = n + 31 := by
    rw [hliving, hsize, hlong]
    rfl
  rw [hrun]
  refine ⟨rfl, htotal, hlive, fun haccount => ?_⟩
  have := haccount.within
  rw [htotal, hlive] at this
  omega

end Forged

end Sessions

/-- Overwrites, a deletion, a repeated delivery, a merge and a reopening; the counters halfway and in the end. -/
theorem session_accounted_run :
    let opts : Options := ⟨90, .never⟩
    let before : List Command := [.append (.batchPut 0 [[1], [2]] [[7], [8]]), .append (.put 0 [1] [9]),
      .append (.delete 0 [2]),
      .append (.applyRaw (Record.encode ⟨0, 9, 0, [3], [4]⟩)), .append (.applyRaw (Record.encode ⟨0, 9, 0, [3], [4]⟩))]
    let after : List Command := [.compact, .append (.put 0 [2] [5]), .reopen ⟨0, .always⟩, .reset,
      .append (.put 0 [1] [1])]
    (sessionMachine.run (Store.init opts) before).1.Accounted ∧
      (sessionMachine.run (Store.init opts) (before ++ after)).1.Accounted := by
  intro opts before after
  have hmeets : sessionMachine.Meets Modest (Store.init opts) (before ++ after) := by decide +kernel
  exact ⟨(session_accounted opts _ hmeets before after rfl).1,
    (session_accounted opts _ hmeets (before ++ after) [] (List.append_nil _).symm).1⟩

/-- **The counters fail** behind a forged record: 2^28 + 31 live bytes in files of none. -/
theorem forged_session :
    (sessionMachine.run (Store.init ⟨2 ^ 40, .never⟩) (forgedSession (2 ^ 28))).2 = [none, none, none] ∧
      (sessionMachine.run (Store.init ⟨2 ^ 40, .never⟩) (forgedSession (2 ^ 28))).1.total = 0 ∧
      (sessionMachine.run (Store.init ⟨2 ^ 40, .never⟩) (forgedSession (2 ^ 28))).1.live = 2 ^ 28 + 31 ∧
      ¬ (sessionMachine.run (Store.init ⟨2 ^ 40, .never⟩) (forgedSession (2 ^ 28))).1.Accounted :=
  forged_run rfl

end Gokv.Engine
