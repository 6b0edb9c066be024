import Gokv.Base.Newest
import Gokv.Engine.Scan

/-! The in-memory index.

The store keeps a hash map for point lookups and a skip list for ordered walks,
both over the same nodes. Here the pair is one map ordered by the bytes of the
key: a lookup reads it, an ordered walk lists it. `install` is the rule both
`applyRecovered` and `indexApplyLocked` follow: an entry goes in unless the index
holds one for the key that is at least as new. Read through any function of its
entries, an install is an offer of the newest-wins library (`versions_install`). -/
namespace Gokv.Engine
open Base

/-- What the index stores for a key: where its newest record is. -/
structure Entry where
  pos : Nat
  seq : UInt64
  fileID : Nat
  size : Nat
  tomb : Bool
  deriving DecidableEq, Repr

abbrev Index := Std.ExtTreeMap Bytes Entry compare

/-- The locator of a scanned record of file `id`. -/
def Scanned.entry (id : Nat) (x : Scanned) : Entry :=
  { pos := x.pos, seq := x.record.seq, fileID := id, size := x.raw.length % 2 ^ 32,
    tomb := x.record.tombstone }

namespace Index

variable {α : Type*}

def install (keys : Index) (key : Bytes) (e : Entry) : Index :=
  match keys[key]? with
  | some n => if e.seq ≤ n.seq then keys else keys.insert key e
  | none => keys.insert key e

def installAll (keys : Index) (es : List (Bytes × Entry)) : Index :=
  es.foldl (fun ks x => ks.install x.1 x.2) keys

/-- The index as versions: each key's sequence number and what `read` finds at its
entry. -/
def versions (read : Entry → α) (keys : Index) (k : Bytes) : Option (Nat × α) :=
  keys[k]?.map fun e => (e.seq.toNat, read e)

theorem getElem?_install (keys : Index) (k j : Bytes) (e : Entry) :
    (keys.install k e)[j]? =
      if j = k ∧ ∀ n, keys[k]? = some n → n.seq < e.seq then some e else keys[j]? := by
  unfold install
  cases hk : keys[k]? with
  | none =>
    by_cases hj : j = k
    · subst hj
      simp
    · simp [Std.ExtTreeMap.getElem?_insert, hj, Ne.symm hj]
  | some n =>
    by_cases hle : e.seq ≤ n.seq
    · have : ¬ n.seq < e.seq := UInt64.not_lt.mpr hle
      simp [hle, this]
    · have hlt : n.seq < e.seq := UInt64.not_le.mp hle
      by_cases hj : j = k
      · subst hj
        simp [hle, hlt]
      · simp [hle, Std.ExtTreeMap.getElem?_insert, hj, Ne.symm hj]

/-- **An install is an offer**, however entries are read. -/
theorem versions_install (read : Entry → α) (keys : Index) (k : Bytes) (e : Entry) :
    (keys.install k e).versions read =
      Newest.offer (keys.versions read) k (e.seq.toNat, read e) := by
  classical
  funext j
  rw [Newest.offer_apply]
  unfold versions
  rw [getElem?_install]
  have hiff : (j = k ∧ ∀ n, keys[k]? = some n → n.seq < e.seq) ↔
      (j = k ∧ ∀ y, keys[k]?.map (fun e => (e.seq.toNat, read e)) = some y →
        y.1 < (e.seq.toNat, read e).1) := by
    cases keys[k]? with
    | none => simp
    | some n => simp [UInt64.lt_iff_toNat_lt]
  by_cases hc : j = k ∧ ∀ n, keys[k]? = some n → n.seq < e.seq
  · rw [if_pos hc, if_pos (hiff.mp hc), Option.map_some]
  · rw [if_neg hc, if_neg fun h => hc (hiff.mpr h)]

theorem versions_installAll (read : Entry → α) (keys : Index)
    (es : List (Bytes × Entry)) :
    (keys.installAll es).versions read =
      Newest.offerAll (keys.versions read) (es.map fun x => (x.1, x.2.seq.toNat, read x.2)) := by
  induction es generalizing keys with
  | nil => rfl
  | cons x rest ih =>
    show ((keys.install x.1 x.2).installAll rest).versions read = _
    rw [ih, versions_install]
    rfl

theorem versions_congr {read read' : Entry → α} (keys : Index)
    (h : ∀ (k : Bytes) (e : Entry), keys[k]? = some e → read e = read' e) :
    keys.versions read = keys.versions read' := by
  funext k
  unfold versions
  cases hk : keys[k]? with
  | none => rfl
  | some e => simp [h k e hk]

/-- An entry of the index after an install is the installed one or was there. -/
theorem mem_install {keys : Index} {k j : Bytes} {e e' : Entry}
    (h : (keys.install k e)[j]? = some e') : (j = k ∧ e' = e) ∨ keys[j]? = some e' := by
  rw [getElem?_install] at h
  split at h
  · rename_i hc
    exact .inl ⟨hc.1, (Option.some.inj h).symm⟩
  · exact .inr h

theorem mem_installAll {keys : Index} {es : List (Bytes × Entry)} {j : Bytes} {e : Entry}
    (h : (keys.installAll es)[j]? = some e) : (j, e) ∈ es ∨ keys[j]? = some e := by
  induction es generalizing keys with
  | nil => exact .inr h
  | cons x rest ih =>
    rcases ih (show ((keys.install x.1 x.2).installAll rest)[j]? = some e from h) with hmem | hold
    · exact .inl (List.mem_cons_of_mem _ hmem)
    · rcases mem_install hold with ⟨rfl, rfl⟩ | hold
      · exact .inl (List.mem_cons_self ..)
      · exact .inr hold

/-- What was in the index, and what is installed, is outdone or matched afterwards. -/
theorem covers_installAll (keys : Index) (es : List (Bytes × Entry)) {k : Bytes} {e : Entry}
    (h : (k, e) ∈ es ∨ keys[k]? = some e) : ∃ e', (keys.installAll es)[k]? = some e' ∧ e.seq ≤ e'.seq := by
  have hself : Newest.Covers {x | keys.versions (fun _ => ()) x.1 = some x.2}
      (keys.versions fun _ => ()) := fun j x hx => ⟨x, hx, le_rfl⟩
  obtain ⟨y, hy, hle⟩ := hself.offerAll (es.map fun x => (x.1, x.2.seq.toNat, ())) k
    (e.seq.toNat, ()) (by
      rcases h with hmem | hold
      · exact .inr (List.mem_map.mpr ⟨(k, e), hmem, rfl⟩)
      · exact .inl (by simp [versions, hold]))
  rw [← versions_installAll (fun _ => ()), versions, Option.map_eq_some_iff] at hy
  obtain ⟨e', he', rfl⟩ := hy
  exact ⟨e', he', UInt64.le_iff_toNat_le.mpr hle⟩

theorem installAll_append (keys : Index) (es fs : List (Bytes × Entry)) :
    keys.installAll (es ++ fs) = (keys.installAll es).installAll fs :=
  List.foldl_append

end Index

end Gokv.Engine
