import Gokv.Engine.Streamed

/-! A replica that is closed and opened again.

`ApplyRaw` indexes every record it is sent, whatever its batch markers say; `Open`
replays a file without a hint batch by batch and drops a batch that does not end in
that file. The log replay ships the members of a batch one by one, so a cut, or a
rotation between two of them, leaves a batch that the session shows and the next
`Open` drops, while the sequence counter keeps the dropped numbers.
`replica_reopens`: the two agree exactly if recovery takes a copy of every live
record. -/
namespace Gokv.Engine
open Base

/-- `MaxFrameSize`, the most `WriteFrame` sends in one frame, its status byte included. -/
def maxFrameSize : Nat := 320 * 2 ^ 20

/-- Records a leader has numbered: a number and a key fix what is stored, and no member
of a batch is a tombstone. -/
structure Coherent (R : Set Record) : Prop where
  agree : ∀ r ∈ R, ∀ r' ∈ R, r.key = r'.key → r.seq = r'.seq → r.payload = r'.payload
  puts : ∀ r ∈ R, r.batch = true → r.payload ≠ none

theorem mem_committed_of_single {xs : List Record} {r : Record} (hr : r ∈ xs) (hb : r.batch = false) :
    r ∈ committed id xs := by
  induction xs with
  | nil => exact absurd hr List.not_mem_nil
  | cons x rest ih =>
    rw [committed]
    split
    case isTrue hx =>
      rcases List.mem_cons.mp hr with rfl | hr
      · simp [hb] at hx
      · exact ih hr
    case isFalse =>
      rcases List.mem_cons.mp hr with rfl | hr
      · exact List.mem_cons_self ..
      · exact List.mem_cons_of_mem _ (ih hr)

section Restart
variable [Checksum]
variable {s f f' : Store} {recs : List Record}

theorem addressable_of_frame (h : (encodeAll recs).length < maxFrameSize) : Addressable recs := by
  refine addressable_of_length (h.trans ?_)
  unfold maxFrameSize
  omega

/-- A hint is that of the file it stands beside. -/
def HintsOf (s : Store) (hints : Std.ExtTreeMap Nat Bytes compare) : Prop :=
  ∀ (id : Nat) (c : Bytes), hints[id]? = some c → ∃ b, s.dir.bytes id = some b ∧ c = buildHint id b

/-- Every live record was restored with its number, and nothing else is live. -/
def Restored (f f' : Store) : Prop :=
  f'.liveMap = f.liveMap ∧ ∀ (k : Bytes) (e : Entry), f.keys[k]? = some e → e.tomb = false →
    ∃ e', f'.keys[k]? = some e' ∧ e'.seq = e.seq ∧ e'.tomb = false

/-- Recovery takes a copy of every live record of `f` from the directory. -/
def Complete (f : Store) (d : Dir) : Prop :=
  ∀ (k : Bytes) (e : Entry), f.keys[k]? = some e → e.tomb = false →
    ∃ i r, Recovers d i r ∧ r.key = k ∧ r.seq = e.seq

section Open
variable {d : Dir} {opts : Options}

theorem Reopened.held (h : Reopened .every opts d f') {k : Bytes} {e : Entry} (he : f'.keys[k]? = some e) :
    ∃ r, Recovers d e.fileID r ∧ r.key = k ∧ r.seq = e.seq ∧ r.tombstone = e.tomb ∧ f'.liveMap k = r.payload := by
  obtain ⟨r, hr, hrec⟩ := h.located k e he
  refine ⟨r, hrec, hr.key, hr.seq, hr.tomb, ?_⟩
  rw [Store.liveMap, Newest.live, Store.view, Index.versions, he]
  exact hr.valueAt_eq

/-- What recovery takes is on disk. -/
theorem Recovers.holds {i : Nat} {r : Record} (h : Recovers d i r) : Holds .every d.bytes i r := by
  obtain ⟨b, hb, hr⟩ := h
  exact ⟨b, hb, Reading.take_subset hr⟩

/-- A record outside every batch is always taken. -/
theorem recovers_of_single {i : Nat} {r : Record} (h : Holds .every d.bytes i r) (hb : r.batch = false) :
    Recovers d i r := by
  obtain ⟨b, hb', hr⟩ := h
  refine ⟨b, hb', ?_⟩
  cases d.reading i with
  | every => exact hr
  | committed => exact mem_committed_of_single hr hb

/-- **A key whose newest record is taken** is shown as before. -/
theorem Reopened.restores (h : Reopened .every opts d f') (hf : Inv .every f [] []) (hd : d.bytes = f.dir.bytes)
    {k : Bytes} {e : Entry} (he : f.keys[k]? = some e) {i : Nat} {r : Record} (hr : Recovers d i r)
    (hk : r.key = k) (hq : r.seq = e.seq) :
    f'.liveMap k = f.liveMap k ∧ ∃ e', f'.keys[k]? = some e' ∧ e'.seq = e.seq ∧ e'.tomb = e.tomb := by
  subst hk
  obtain ⟨e', he', hle⟩ := h.covers i r hr
  obtain ⟨r', hr', hk', hq', htomb', hlive'⟩ := h.held he'
  have hheld : Holds .every f.dir.bytes e'.fileID r' := hd ▸ hr'.holds
  obtain ⟨r₀, hr₀, hlive₀⟩ := hf.toWf.liveMap_some he
  -- The old index covers what the new one found.
  have hback : r'.seq ≤ e.seq := by
    rcases hf.covers _ r' hheld List.not_mem_nil with ⟨x, hx, -⟩ | ⟨e₁, he₁, hle₁⟩
    · cases hx
    · rw [hk', he] at he₁
      exact Option.some.inj he₁ ▸ hle₁
  have hseq : e'.seq = e.seq := UInt64.le_antisymm (hq' ▸ hback) (hq ▸ hle)
  have hpay : r'.payload = r₀.payload :=
    hf.agree _ _ r' r₀ hheld hr₀.holds (hk'.trans hr₀.key.symm) (by rw [hq', hseq, hr₀.seq])
  refine ⟨by rw [hlive', hlive₀, hpay], e', he', hseq, ?_⟩
  rw [← htomb', ← hr₀.tomb, Bool.eq_iff_iff, ← payload_eq_none, ← payload_eq_none, hpay]

theorem Reopened.restored_iff (h : Reopened .every opts d f') (hf : Inv .every f [] []) (hd : d.bytes = f.dir.bytes)
    (hputs : ∀ i r, Holds .every f.dir.bytes i r → r.batch = true → r.payload ≠ none) :
    Restored f f' ↔ Complete f d := by
  constructor
  · rintro ⟨-, hkept⟩ k e he ht
    obtain ⟨e', he', hseq, -⟩ := hkept k e he ht
    obtain ⟨r, hr, hk, hq, -⟩ := h.held he'
    exact ⟨_, r, hr, hk, hq.trans hseq⟩
  · intro hc
    -- A tombstone is in no batch, so recovery takes it.
    have htaken {k : Bytes} {e : Entry} (he : f.keys[k]? = some e) :
        ∃ i r, Recovers d i r ∧ r.key = k ∧ r.seq = e.seq := by
      cases ht : e.tomb with
      | false => exact hc k e he ht
      | true =>
        obtain ⟨r, hr⟩ := hf.located k e he
        refine ⟨e.fileID, r, recovers_of_single (hd ▸ hr.holds) ?_, hr.key, hr.seq⟩
        cases hb : r.batch with
        | false => rfl
        | true => exact absurd (payload_eq_none.mpr (hr.tomb ▸ ht)) (hputs _ r hr.holds hb)
    refine ⟨funext fun k => ?_, fun k e he ht => ?_⟩
    · cases he : f.keys[k]? with
      | some e =>
        obtain ⟨i, r, hr, hk, hq⟩ := htaken he
        exact (h.restores hf hd he hr hk hq).1
      | none =>
        rw [Store.liveMap_none he]
        cases he' : f'.keys[k]? with
        | none => exact Store.liveMap_none he'
        | some e' =>
          obtain ⟨r, hr, rfl, -⟩ := h.held he'
          rcases hf.covers _ r (hd ▸ hr.holds) List.not_mem_nil with ⟨x, hx, -⟩ | ⟨e, hsome, -⟩
          · cases hx
          · rw [he] at hsome
            cases hsome
    · obtain ⟨i, r, hr, hk, hq⟩ := htaken he
      obtain ⟨-, e', he', hseq, htomb⟩ := h.restores hf hd he hr hk hq
      exact ⟨e', he', hseq, htomb.trans ht⟩

end Open

/-- **A replica closed and opened again** shows what it showed, no live record missing,
exactly if recovery takes a copy of every live record: one outside every batch, or of a
batch that ends in its file, or in a file whose hint is there. -/
theorem replica_reopens (s f : Store) (frames : List (List Record)) (hints : Std.ExtTreeMap Nat Bytes compare)
    (opts : Options) (hs : Inv .every s [] []) (hsized : ∀ g ∈ frames, ∀ r ∈ g, r.Sized)
    (hframe : ∀ g ∈ frames, (encodeAll g).length < maxFrameSize)
    (hco : Coherent {r | (∃ i, Holds .every s.dir.bytes i r) ∨ r ∈ frames.flatten})
    (hall : s.applyAll (frames.map encodeAll) = (f, none)) (hhints : HintsOf f hints)
    (hid : s.nextID + frames.length + 1 < 2 ^ 32) :
    ∃ f', openStore opts {f.close with hints := hints} = .ok f' ∧
      (Restored f f' ↔ Complete f {f.close with hints := hints}) := by
  have hsent : ∀ g ∈ frames, (∀ r ∈ g, r.Sized) ∧ Addressable g := fun g hg =>
    ⟨hsized g hg, addressable_of_frame (hframe g hg)⟩
  obtain ⟨f₁, hall₁, hr, hnext⟩ := hs.toWf.applyAll hsent (by omega)
  cases (Prod.mk.inj (hall.symm.trans hall₁)).1
  have hf := hs.received hr fun r r' h h' => hco.agree r h r' h'
  obtain ⟨hbytes, -⟩ := hf.toWf.close
  have hd : DirOk .every {f.close with hints := hints} := by
    refine ⟨fun i b hb => hf.dir.sizes i b (hbytes ▸ hb), fun _ _ _ => trivial, fun i c b hc hb => ⟨?_, trivial⟩⟩
    obtain ⟨b', hb', rfl⟩ := hhints i c hc
    have hb : f.close.bytes i = some b := hb
    rw [hbytes, hb'] at hb
    rw [Option.some.inj hb]
  obtain ⟨f', hopen, hre⟩ := openStore_ok opts hd fun i hi => by
    obtain ⟨b, hb⟩ := Dir.mem_data.mp hi
    have := hf.fresh i b (hbytes ▸ hb)
    omega
  refine ⟨f', hopen, hre.restored_iff hf hbytes fun i r hi => hco.puts r ?_⟩
  exact (hr.holds i r hi).imp_left fun hi => ⟨i, hi⟩

end Restart

/-- A put and the two members of a batch, sent one by one. -/
def singly : List (List Record) :=
  [[⟨0, 1, 0, [3], [7]⟩], [⟨0, 2, flagBatch, [1], [8]⟩], [⟨0, 3, flagBatch ||| flagBatchEnd, [2], [9]⟩]]

theorem replica_reopens_singly : ∃ f f', (Store.init ⟨0, .never⟩).applyAll (singly.map encodeAll) = (f, none) ∧
    openStore ⟨0, .never⟩ {f.close with hints := ∅} = .ok f' ∧
      (Restored f f' ↔ Complete f {f.close with hints := ∅}) := by
  have herr : ((Store.init ⟨0, .never⟩).applyAll (singly.map encodeAll)).2 = none := by decide +kernel
  obtain ⟨f, hall⟩ : ∃ f, (Store.init ⟨0, .never⟩).applyAll (singly.map encodeAll) = (f, none) := by
    generalize (Store.init ⟨0, .never⟩).applyAll (singly.map encodeAll) = x at herr
    exact ⟨x.1, Prod.ext rfl herr⟩
  have hco : Coherent {r | (∃ i, Holds .every (Store.init ⟨0, .never⟩).dir.bytes i r) ∨ r ∈ singly.flatten} := by
    have hmem {r : Record} (hr : (∃ i, Holds .every (Store.init ⟨0, .never⟩).dir.bytes i r) ∨ r ∈ singly.flatten) :
        r ∈ singly.flatten := by
      refine hr.resolve_left ?_
      rintro ⟨i, b, hb, hr⟩
      rw [bytes_init hb] at hr
      cases hr
    have hagree : ∀ r ∈ singly.flatten, ∀ r' ∈ singly.flatten, r.key = r'.key → r.seq = r'.seq →
      r.payload = r'.payload := by decide
    have hputs : ∀ r ∈ singly.flatten, r.batch = true → r.payload ≠ none := by decide
    exact ⟨fun r hr r' hr' => hagree r (hmem hr) r' (hmem hr'), fun r hr => hputs r (hmem hr)⟩
  obtain ⟨f', hopen, hiff⟩ := replica_reopens (Store.init ⟨0, .never⟩) f singly ∅ ⟨0, .never⟩
    ((quiet_init _).1.inv.every (unbroken_init _)) (by decide) (by decide +kernel) hco hall
    (fun id c hc => by simp at hc) (by decide)
  exact ⟨f, f', hall, hopen, hiff⟩

/-- A batch cut after its first member: the replica serves the member until it is
closed, and never again. Its position has passed the member, so the leader does not
send it a second time. -/
theorem split_batch_dropped :
    ∃ l f f', l = (storeMachine.run (Store.init ⟨0, .never⟩)
        [.put 0 [3] [7], .batchPut 0 [[1], [2]] [[8], [9]]]).1 ∧
      l.recordsSince 1 = .ok [Record.encode ⟨0, 2, flagBatch, [1], [8]⟩,
        Record.encode ⟨0, 3, flagBatch ||| flagBatchEnd, [2], [9]⟩] ∧
      f = (Store.init ⟨0, .never⟩).applyAll [Record.encode ⟨0, 1, 0, [3], [7]⟩,
        Record.encode ⟨0, 2, flagBatch, [1], [8]⟩] ∧ f.2 = none ∧ f.1.get [1] = .ok [8] ∧ f.1.seq = 2 ∧
      f' = f.1.apply (.reopen ⟨0, .never⟩) ∧ f'.2 = none ∧ f'.1.get [1] = .error .keyNotFound ∧ f'.1.seq = 2 ∧
      l.recordsSince 2 = .ok [Record.encode ⟨0, 3, flagBatch ||| flagBatchEnd, [2], [9]⟩] :=
  ⟨_, _, _, rfl, by decide +kernel, rfl, by decide +kernel, by decide +kernel, by decide +kernel, rfl,
    by decide +kernel, by decide +kernel, by decide +kernel, by decide +kernel⟩

end Gokv.Engine
