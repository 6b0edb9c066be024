import Gokv.Engine.Refinement

/-! The sequence counter across a reopen.

`Seq` is not stored: `Open` takes the highest number it finds on disk. The record
that carries the counter's value is on disk as long as it is a value, since the
newest value of a key survives every merge; a tombstone survives until the next
`Compact`. A `Tally` follows a history by what it means alone: the map, how many
numbers were given out, and what became of the last one. `reopen_seq`: the counter
comes back from a clean close exactly if the last write was not a `Delete` with a
`Compact` behind it. -/
namespace Gokv.Engine
open Base

/-- What became of the record with the highest number. -/
inductive Top where
  | kept
  | tombstone
  | dropped
  deriving DecidableEq, Repr

structure Tally where
  map : Map
  given : Nat
  top : Top

def Tally.start : Tally := ⟨Map.empty, 0, .kept⟩

def Top.after (top : Top) : Op → Top
  | .put _ _ _ => .kept
  | .batchPut _ keys values => if keys.zip values = [] then top else .kept
  | .delete _ _ => .tombstone
  | .compact => if top = .tombstone then .dropped else top
  | _ => top

def Tally.step (t : Tally) (op : Op) : Tally :=
  match op.refusal t.map with
  | some _ => t
  | none => ⟨t.map.update op.updates, t.given + op.records.length, t.top.after op⟩

theorem Top.after_of_write {op : Op} (top : Top) (h : op.records ≠ []) :
    top.after op = .kept ∧ (∀ r ∈ op.records, r.tombstone = false) ∨
      top.after op = .tombstone ∧ ∀ r ∈ op.records, r.tombstone = true := by
  cases op with
  | put now key value =>
    refine .inl ⟨rfl, fun r hr => ?_⟩
    rw [List.mem_singleton.mp hr]
    exact Bool.eq_false_iff.mpr fun ht => by
      have := (putRecord_payload now key value).1
      rw [payload_eq_none.mpr ht] at this
      cases this
  | batchPut now keys values =>
    have hne : keys.zip values ≠ [] := fun hnil => h (by rw [Op.records, hnil]; rfl)
    refine .inl ⟨if_neg hne, fun r hr => Bool.eq_false_iff.mpr fun ht => ?_⟩
    obtain ⟨init, x, hsplit⟩ := (keys.zip values).eq_nil_or_concat'.resolve_left hne
    rw [Op.records, hsplit, batchRecords_concat] at hr
    have hpay : r.payload ≠ none := by
      rcases List.mem_append.mp hr with hr | hr
      · obtain ⟨y, _, rfl⟩ := List.mem_map.mp hr
        rw [(memberRecord_flags now y).2.2]
        exact Option.some_ne_none _
      · rw [List.mem_singleton.mp hr, (lastRecord_flags now x).2.2]
        exact Option.some_ne_none _
    exact hpay (payload_eq_none.mpr ht)
  | delete now key =>
    refine .inr ⟨rfl, fun r hr => ?_⟩
    rw [List.mem_singleton.mp hr]
    exact payload_eq_none.mp (deleteRecord_payload now key).1
  | compact | reopen _ | sync | hint _ => exact absurd rfl h

theorem Top.after_idle {op : Op} (top : Top) (h : op.records = []) (hc : op ≠ .compact) : top.after op = top := by
  cases op with
  | put now key value => cases h
  | delete now key => cases h
  | batchPut now keys values =>
    refine if_pos ?_
    rcases (keys.zip values).eq_nil_or_concat' with hnil | ⟨init, x, hsplit⟩
    · exact hnil
    · rw [Op.records, hsplit, batchRecords_concat] at h
      exact absurd h (List.append_ne_nil_of_right_ne_nil _ (List.cons_ne_nil _ _))
  | compact => exact absurd rfl hc
  | reopen _ | sync | hint _ => rfl

section Sequence
variable [Checksum]

/-- A store with the tally of its history beside it. -/
def talliedMachine : Machine Op (Store × Tally) (Option Error) :=
  ⟨fun st op => (((st.1.apply op).1, st.2.step op), (st.1.apply op).2)⟩

/-- A step that fits; a close strikes while the last number is on disk. -/
def Orderly (st : Store × Tally) (op : Op) : Prop :=
  Fits st.1 op ∧ match op with
    | .reopen _ => st.2.top ≠ .dropped
    | _ => True

instance decidableOrderly (st : Store × Tally) : (op : Op) → Decidable (Orderly st op)
  | .reopen _ => inferInstanceAs (Decidable (_ ∧ _ ≠ _))
  | .put _ _ _ | .batchPut _ _ _ | .delete _ _ | .compact | .sync | .hint _ =>
    inferInstanceAs (Decidable (_ ∧ True))

/-- What the tally says of the record that carries the counter's value. -/
def TopOk (s : Store) : Top → Prop
  | .kept => s.seq = 0 ∨ ∃ (k : Bytes) (e : Entry), s.keys[k]? = some e ∧ e.seq = s.seq ∧ e.tomb = false
  | .tombstone => 0 < s.seq ∧ (∃ i r, Holds .committed s.dir.bytes i r ∧ r.seq = s.seq) ∧
      ∀ i r, Holds .committed s.dir.bytes i r → r.seq = s.seq → r.tombstone = true
  | .dropped => 0 < s.seq ∧ ∀ i r, Holds .committed s.dir.bytes i r → r.seq < s.seq

structure Numbered (st : Store × Tally) : Prop where
  quiet : Quiet st.1
  map : st.1.liveMap = st.2.map
  /-- No file ends in an open batch. -/
  whole : ∀ i b, st.1.dir.bytes i = some b → Grouped (records b)
  given : st.1.seq.toNat = st.2.given
  top : TopOk st.1 st.2.top
  watermark : st.1.mergeSeq ≤ st.1.seq

variable {s s' : Store} {t : Tally} {op : Op}

/-! ### One operation -/

/-- The newest record of all is indexed. -/
theorem Quiet.indexed_top (h : Quiet s) {i : Nat} {r : Record} (hr : Holds .committed s.dir.bytes i r)
    (hseq : r.seq = s.seq) : ∃ e, s.keys[r.key]? = some e ∧ e.seq = s.seq ∧ e.tomb = r.tombstone := by
  rcases h.inv.covers i r hr List.not_mem_nil with ⟨x, hx, _⟩ | ⟨e, he, hle⟩
  · cases hx
  · obtain ⟨r', hr'⟩ := h.inv.located r.key e he
    have hle' := h.bounded.entry h.inv.toWf he
    have heq : e.seq = s.seq := UInt64.le_antisymm hle' (hseq ▸ hle)
    have hpay := h.inv.agree i e.fileID r r' hr hr'.holds hr'.key.symm (by rw [hseq, hr'.seq, heq])
    refine ⟨e, he, heq, ?_⟩
    rw [← hr'.tomb]
    cases hv : r.tombstone with
    | true => exact payload_eq_none.mp (hpay ▸ payload_eq_none.mpr hv)
    | false =>
      refine Bool.eq_false_iff.mpr fun ht => ?_
      rw [payload_eq_none.mpr ht, payload_eq_none, hv] at hpay
      cases hpay

theorem TopOk.wrote (top : Top) (hq : Quiet s) (hq' : Quiet s') (hne : op.records ≠ [])
    (hw : Written .committed s s' op.records) : TopOk s' (top.after op) := by
  have hseq : s'.seq = s.seq + UInt64.ofNat op.records.length := hw.appended.seq
  obtain ⟨r, hr, hrseq⟩ := mem_assignSeqs_last s.seq hne
  have hheld : Holds .committed s'.dir.bytes s'.active.id r := (hw.holds _ _).mpr (.inr ⟨rfl, hr⟩)
  obtain ⟨r₀, hr₀, heq⟩ := mem_assignSeqs hr
  rcases top.after_of_write hne with ⟨htop, hval⟩ | ⟨htop, htomb⟩
  · rw [htop]
    obtain ⟨e, he, heseq, htomb⟩ := hq'.indexed_top hheld (hrseq.trans hseq.symm)
    refine .inr ⟨r.key, e, he, heseq, htomb.trans ?_⟩
    rw [heq]
    exact hval r₀ hr₀
  · rw [htop]
    have hpos : s.seq < s'.seq := by
      have h1 := toNat_advance hw.room
      have h2 := List.length_pos_of_ne_nil hne
      rw [UInt64.lt_iff_toNat_lt, hseq]
      omega
    refine ⟨UInt64.lt_iff_toNat_lt.mpr (lt_of_le_of_lt (Nat.zero_le _) (UInt64.lt_iff_toNat_lt.mp hpos)),
      ⟨_, r, hheld, hrseq.trans hseq.symm⟩, fun i r' hr' hr'seq => ?_⟩
    rcases (hw.holds i r').mp hr' with hold | ⟨_, hnew⟩
    · exact absurd (hr'seq ▸ hq.bounded i r' hold) (UInt64.not_le.mpr hpos)
    · obtain ⟨r₁, hr₁, heq'⟩ := mem_assignSeqs hnew
      rw [heq']
      exact htomb r₁ hr₁

theorem TopOk.compacted {top : Top} (h : TopOk s top) (hc : Compacted .committed s s') :
    TopOk s' (top.after .compact) := by
  cases top with
  | kept =>
    refine h.imp (fun h0 => hc.seq.trans h0) fun ⟨k, e, he, hseq, ht⟩ => ?_
    obtain ⟨e', he', hseq', ht'⟩ := hc.kept k e he ht
    exact ⟨k, e', he', by rw [hseq', hseq, hc.seq], ht'⟩
  | tombstone =>
    obtain ⟨hpos, _, htomb⟩ := h
    refine ⟨hc.seq ▸ hpos, fun i r hr => ?_⟩
    obtain ⟨j, r₀, hr₀, _, hseq, hpay⟩ := hc.back i r hr
    refine UInt64.lt_of_le_of_ne (hc.bounded i r hr) fun heq => ?_
    -- The record with that number was a tombstone, and none is left.
    have ht := payload_eq_none.mpr (htomb j r₀ hr₀ (by rw [hseq, heq, hc.seq]))
    rw [hpay, payload_eq_none, hc.values i r hr] at ht
    cases ht
  | dropped =>
    refine ⟨hc.seq ▸ h.1, fun i r hr => ?_⟩
    obtain ⟨j, r₀, hr₀, _, hseq, _⟩ := hc.back i r hr
    rw [hc.seq, ← hseq]
    exact h.2 j r₀ hr₀

/-- The counter `Open` comes back with. -/
theorem Numbered.reopened {opts : Options} (h : Numbered (s, t)) (hr : Reopened .committed opts s.close s') :
    s'.seq ≤ s.seq ∧ (s'.seq = s.seq ↔ t.top ≠ .dropped) := by
  obtain ⟨hbytes, _, _⟩ := h.quiet.inv.toWf.close
  have hheld {i : Nat} {b : Bytes} {r : Record} (hb : s.close.bytes i = some b) (hmem : r ∈ records b) :
      Holds .committed s.dir.bytes i r := by
    have hb : s.dir.bytes i = some b := hbytes ▸ hb
    refine ⟨b, hb, ?_⟩
    rwa [Reading.Whole.take_eq (ρ := .committed) (h.whole i b hb)]
  have hfound {i : Nat} {r : Record} (hr' : Holds .committed s.dir.bytes i r) : r.seq ≤ s'.seq := by
    obtain ⟨b, hb, hmem⟩ := hr'
    exact hr.seq_le i b r (hbytes ▸ hb) (Reading.take_subset hmem)
  have hle : s'.seq ≤ s.seq := by
    rcases hr.seq_mem with h0 | ⟨i, b, r, hb, hmem, heq⟩
    · rw [h0]
      exact UInt64.le_iff_toNat_le.mpr (Nat.zero_le _)
    · rw [heq]
      exact h.quiet.bounded i r (hheld hb hmem)
  refine ⟨hle, ?_⟩
  have htop := h.top
  cases htop' : t.top with
  | kept =>
    rw [htop'] at htop
    refine ⟨fun _ => Top.noConfusion, fun _ => ?_⟩
    rcases htop with h0 | ⟨k, e, he, heseq, _⟩
    · have h0 : s.seq = 0 := h0
      rw [h0] at hle ⊢
      exact UInt64.le_antisymm hle (UInt64.le_iff_toNat_le.mpr (Nat.zero_le _))
    · obtain ⟨r, hr'⟩ := h.quiet.inv.located k e he
      have hge := hfound hr'.holds
      rw [hr'.seq, heseq] at hge
      exact UInt64.le_antisymm hle hge
  | tombstone =>
    rw [htop'] at htop
    obtain ⟨_, ⟨i, r, hr', hseq⟩, _⟩ := htop
    refine ⟨fun _ => Top.noConfusion, fun _ => UInt64.le_antisymm hle ?_⟩
    have := hfound hr'
    rwa [hseq] at this
  | dropped =>
    rw [htop'] at htop
    obtain ⟨hpos, hlt⟩ := htop
    refine ⟨fun heq => ?_, fun hne => absurd rfl hne⟩
    have heq : s'.seq = s.seq := heq
    rcases hr.seq_mem with h0 | ⟨i, b, r, hb, hmem, hseq⟩
    · have hpos : 0 < s.seq := hpos
      rw [← heq, h0] at hpos
      exact absurd hpos (UInt64.lt_irrefl _)
    · have := hlt i r (hheld hb hmem)
      rw [← hseq, heq] at this
      exact absurd this (UInt64.lt_irrefl _)

/-- **An orderly step keeps the count.** -/
theorem Numbered.step (h : Numbered (s, t)) (ho : Orderly (s, t) op) :
    Numbered (talliedMachine.step (s, t) op).1 := by
  obtain ⟨hf, hclose⟩ := ho
  obtain ⟨s', hs', hq', hlive, heff⟩ := Quiet.apply h.quiet hf
  have hmap : s.liveMap = t.map := h.map
  have hgiven : s.seq.toNat = t.given := h.given
  have htop : TopOk s t.top := h.top
  have hmark : s.mergeSeq ≤ s.seq := h.watermark
  have hwhole := heff.whole h.quiet hq' h.whole
  have hs' : s.apply op = (s', op.refusal s.liveMap) := hs'
  have hlive : s'.liveMap = (Map.apply s.liveMap op).1 := hlive
  show Numbered ((s.apply op).1, t.step op)
  rw [hs']
  cases hop : op.refusal s.liveMap with
  | some e =>
    -- A refused operation changes nothing.
    have hstay : t.step op = t := by rw [Tally.step, ← hmap, hop]
    have hidle : Background s s' := by
      cases heff with
      | idle hb _ => exact hb
      | wrote _ _ _ hok =>
        rw [hop] at hok
        cases hok
      | compacted _ => cases hop
      | reopened _ => cases hop
    rw [Map.apply, hop] at hlive
    rw [hstay]
    refine ⟨hq', hlive.trans hmap, hwhole, ?_, ?_, ?_⟩
    · show s'.seq.toNat = _
      rw [hidle.seq, hgiven]
    · show TopOk s' t.top
      unfold TopOk at htop ⊢
      rwa [hidle.seq, hidle.keys, hidle.bytes]
    · show s'.mergeSeq ≤ s'.seq
      rwa [hidle.mergeSeq, hidle.seq]
  | none =>
    have hnext : t.step op = ⟨t.map.update op.updates, t.given + op.records.length, t.top.after op⟩ := by
      rw [Tally.step, ← hmap, hop]
    rw [Map.apply, hop, hmap] at hlive
    rw [hnext]
    cases heff with
    | idle hb hidle =>
      obtain ⟨hnil, hne⟩ := hidle.resolve_left (not_not.mpr hop)
      refine ⟨hq', hlive, hwhole, ?_, ?_, ?_⟩
      · show s'.seq.toNat = t.given + op.records.length
        rw [hb.seq, hgiven, hnil]
        rfl
      · show TopOk s' (t.top.after op)
        rw [t.top.after_idle hnil hne]
        unfold TopOk at htop ⊢
        rwa [hb.seq, hb.keys, hb.bytes]
      · show s'.mergeSeq ≤ s'.seq
        rwa [hb.mergeSeq, hb.seq]
    | wrote hg _ hw _ =>
      have hseq : s'.seq = s.seq + UInt64.ofNat op.records.length := hw.appended.seq
      have hadv := toNat_advance hw.room
      refine ⟨hq', hlive, hwhole, ?_, .wrote t.top h.quiet hq' hg.ne_nil hw, ?_⟩
      · show s'.seq.toNat = t.given + op.records.length
        rw [hseq, hadv, hgiven]
      · show s'.mergeSeq ≤ s'.seq
        rw [hw.appended.mergeSeq, hseq, UInt64.le_iff_toNat_le, hadv]
        exact (UInt64.le_iff_toNat_le.mp hmark).trans (Nat.le_add_right ..)
    | compacted hc =>
      refine ⟨hq', hlive, hwhole, ?_, htop.compacted hc, ?_⟩
      · show s'.seq.toNat = t.given
        rw [hc.seq, hgiven]
      · show s'.mergeSeq ≤ s'.seq
        rw [hc.seq]
        rcases hc.watermark with hw | hw
        · rwa [hw]
        · rw [hw]
          exact UInt64.le_refl _
    | reopened hr =>
      have hseq : s'.seq = s.seq := (h.reopened hr).2.mpr hclose
      obtain ⟨hbytes, _, hman⟩ := h.quiet.inv.toWf.close
      refine ⟨hq', hlive, hwhole, ?_, ?_, ?_⟩
      · show s'.seq.toNat = t.given
        rw [hseq, hgiven]
      · show TopOk s' t.top
        have hholds (i : Nat) (r : Record) :
            Holds .committed s'.dir.bytes i r ↔ Holds .committed s.dir.bytes i r := by
          rw [hr.holds, hbytes]
        cases htop' : t.top with
        | kept =>
          rw [htop'] at htop
          refine htop.imp hseq.trans fun ⟨k, e, he, heseq, ht⟩ => ?_
          obtain ⟨r, hr'⟩ := h.quiet.inv.located k e he
          obtain ⟨e', he', heseq', ht'⟩ := hq'.indexed_top ((hholds _ _).mpr hr'.holds)
            (by rw [hr'.seq, heseq, hseq])
          exact ⟨r.key, e', he', heseq', by rw [ht', hr'.tomb, ht]⟩
        | tombstone =>
          rw [htop'] at htop
          obtain ⟨hpos, ⟨i, r, hr', hrseq⟩, hall⟩ := htop
          rw [TopOk, hseq]
          exact ⟨hpos, ⟨i, r, (hholds i r).mpr hr', hrseq⟩, fun i r hr' => hall i r ((hholds i r).mp hr')⟩
        | dropped => exact absurd htop' hclose
      · show s'.mergeSeq ≤ s'.seq
        have : s.mergeSeq = readManifest s.dir.manifest := h.quiet.marked.symm
        rwa [hr.mergeSeq, hman, hseq, ← this]

theorem numbered_init (opts : Options) : Numbered (Store.init opts, Tally.start) := by
  obtain ⟨hq, hlive⟩ := quiet_init opts
  refine ⟨hq, hlive, fun i b hb => ?_, rfl, .inl rfl, UInt64.le_refl _⟩
  have hb : (Store.init opts).dir.bytes i = some b := hb
  rw [Dir.bytes, Store.init] at hb
  simp only [Std.ExtTreeMap.getElem?_insert] at hb
  split at hb
  · cases hb
    exact .nil
  · simp at hb

/-- **The counter across a clean close.** After an orderly history `Seq` is the number of
records ever written. `Open` brings it back, at or above the watermark, exactly if
the last write was not a `Delete` that a `Compact` has followed. -/
theorem reopen_seq (opts opts' : Options) (ops : List Op) (s₀ s : Store) (t : Tally)
    (hopen : openStore opts {} = .ok s₀) (horder : talliedMachine.Meets Orderly (s₀, Tally.start) ops)
    (hrun : (talliedMachine.run (s₀, Tally.start) ops).1 = (s, t)) (hfits : Fits s (.reopen opts')) :
    s.seq.toNat = t.given ∧ ∃ s', openStore opts' s.close = .ok s' ∧
      ((s.seq ≤ s'.seq ∧ s'.mergeSeq ≤ s'.seq) ↔ t.top ≠ .dropped) := by
  cases Except.ok.inj (hopen.symm.trans (openStore_empty opts))
  have hnum : Numbered (s, t) :=
    hrun ▸ Machine.Meets.invariant (fun _ _ h ho => Numbered.step h ho) (numbered_init opts) horder
  obtain ⟨s', hs', _, _, hr⟩ := hnum.quiet.reopen hfits
  obtain ⟨hle, hiff⟩ := hnum.reopened hr
  refine ⟨hnum.given, s', hs', ?_⟩
  rw [← hiff]
  constructor
  · exact fun hge => UInt64.le_antisymm hle hge.1
  · intro heq
    obtain ⟨_, _, hman⟩ := hnum.quiet.inv.toWf.close
    have hmark : s.mergeSeq = readManifest s.dir.manifest := hnum.quiet.marked.symm
    refine ⟨heq ▸ UInt64.le_refl _, ?_⟩
    rw [hr.mergeSeq, hman, ← hmark, heq]
    exact hnum.watermark

end Sequence

/-- A deletion that is not the last word comes to no harm. -/
theorem reopen_seq_run : ∃ s', openStore ⟨0, .never⟩
      ((talliedMachine.run (Store.init ⟨0, .never⟩, Tally.start) [.put 0 [1] [7], .delete 0 [1], .compact,
        .put 0 [2] [8], .compact]).1.1).close = .ok s' ∧ 3 ≤ s'.seq := by
  have horder : talliedMachine.Meets Orderly (Store.init ⟨0, .never⟩, Tally.start) [.put 0 [1] [7],
      .delete 0 [1], .compact, .put 0 [2] [8], .compact] := by decide +kernel
  obtain ⟨_, s', hs', hiff⟩ := reopen_seq ⟨0, .never⟩ ⟨0, .never⟩ _ _ _ _ (openStore_empty _) horder
    (Prod.mk.eta).symm (by decide +kernel)
  have hseq : (3 : UInt64) ≤ ((talliedMachine.run (Store.init ⟨0, .never⟩, Tally.start) [.put 0 [1] [7],
      .delete 0 [1], .compact, .put 0 [2] [8], .compact]).1.1).seq := by decide +kernel
  exact ⟨s', hs', UInt64.le_trans hseq (hiff.mpr (by decide +kernel)).1⟩

/-- A deletion, a merge and a clean close: the counter starts over, below the watermark. -/
theorem dropped_seq : ∃ s₀ s s', openStore ⟨0, .never⟩ {} = .ok s₀ ∧
    (storeMachine.run s₀ [.put 0 [1] [7], .delete 0 [1], .compact]) = (s, [none, none, none]) ∧
    openStore ⟨0, .never⟩ s.close = .ok s' ∧ s.seq = 2 ∧ s'.seq = 0 ∧ s'.mergeSeq = 2 := by
  refine ⟨_, _, _, openStore_empty _, rfl, rfl, ?_⟩
  decide +kernel

end Gokv.Engine
