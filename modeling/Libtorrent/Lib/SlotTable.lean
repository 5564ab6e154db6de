import Mathlib.Algebra.BigOperators.Group.Finset.Basic
import Mathlib.Algebra.Order.Ring.Int
import Libtorrent.Lib.Vec

/-!
# Direct-mapped tables

A table keeps the values of a finite map in a vector, each in the slot of its key (`Holds`). Nothing is kept about the
keys, so a read is right only for a key that shares its slot with no other stored key (`Alone`).
-/

namespace Libtorrent.SlotTable

open Function List

variable {κ V : Type} {slot : κ → Nat} {m : κ → Option V} {st : List (Option V)} {k : κ}

/-- The vector has the values of the map in the slots of their keys, and nothing else. -/
structure Holds (slot : κ → Nat) (m : κ → Option V) (st : List (Option V)) : Prop where
  stored : ∀ k, m k ≠ none → st.getD (slot k) none = m k
  owned : ∀ j, st.getD j none ≠ none → ∃ k, m k ≠ none ∧ slot k = j

def Alone (slot : κ → Nat) (m : κ → Option V) (k : κ) : Prop := ∀ j, m j ≠ none → slot j = slot k → j = k

namespace Holds

section

variable (H : Holds slot m st)
include H

theorem lookup (A : Alone slot m k) : st.getD (slot k) none = m k := by
  by_cases h : m k = none
  · rw [h]
    by_contra hne
    obtain ⟨j, hj, he⟩ := H.owned _ hne
    rw [A j hj he] at hj
    exact hj h
  · exact H.stored k h

theorem free (h : ∀ k, m k = none) (j : Nat) : st.getD j none = none := by
  by_contra hne
  obtain ⟨k, hk, -⟩ := H.owned j hne
  exact hk (h k)

theorem exists_of_mem {v : V} (hv : some v ∈ st) : ∃ k, m k = some v := by
  obtain ⟨j, hj, he⟩ := getElem_of_mem hv
  have hg : st.getD j none = some v := by rw [getD_eq_getElem _ _ hj, he]
  obtain ⟨k, hk, rfl⟩ := H.owned j (by rw [hg]; exact Option.some_ne_none v)
  exact ⟨k, (H.stored k hk).symm.trans hg⟩

theorem write [DecidableEq κ] (A : Alone slot m k) (hk : slot k < st.length) (v : Option V) :
    Holds slot (update m k v) (st.set (slot k) v) := by
  constructor
  · intro j hj
    rw [Vec.getD_set]
    by_cases e : j = k
    · subst e
      rw [if_pos ⟨rfl, hk⟩, update_self]
    · rw [update_of_ne e] at hj ⊢
      rw [if_neg fun h => e (A j hj h.1.symm)]
      exact H.stored j hj
  intro j hj
  rw [Vec.getD_set] at hj
  by_cases e : slot k = j
  · rw [if_pos ⟨e, e ▸ hk⟩] at hj
    exact ⟨k, by rw [update_self]; exact hj, e⟩
  rw [if_neg fun h => e h.1] at hj
  obtain ⟨i, hi, he⟩ := H.owned j hj
  have hik : i ≠ k := fun h => e (h ▸ he)
  exact ⟨i, by rw [update_of_ne hik]; exact hi, he⟩

end

end Holds

/-! ## Sums over the stored values -/

def slotSum (f : V → Nat) (st : List (Option V)) : Nat := (st.map fun v => v.elim 0 f).sum

/-- The sum of `f` over the values stored under the numbers below `n`. -/
def mapSum (n : Nat) (f : V → Nat) (m : Nat → Option V) : Nat := ∑ k ∈ Finset.range n, (m k).elim 0 f

theorem slotSum_eq (f : V → Nat) : ∀ st : List (Option V),
    slotSum f st = ∑ j ∈ Finset.range st.length, (st.getD j none).elim 0 f
  | [] => rfl
  | v :: st => by
    rw [length_cons, Finset.sum_range_succ', slotSum, map_cons, sum_cons]
    have ih := slotSum_eq f st
    rw [slotSum] at ih
    rw [ih, Nat.add_comm]
    rfl

variable {m : Nat → Option V}

theorem Holds.slotSum_eq_mapSum {slot : Nat → Nat} {n : Nat} (H : Holds slot m st)
    (hn : ∀ k, m k ≠ none → k < n ∧ Alone slot m k) (f : V → Nat) : slotSum f st = mapSum n f m := by
  rw [slotSum_eq, mapSum]
  symm
  have hstored : ∀ k, (m k).elim 0 f ≠ 0 → m k ≠ none := fun k h e => h (by rw [e]; rfl)
  refine Finset.sum_bij_ne_zero (fun k _ _ => slot k) (fun k _ hk => ?_) (fun k _ hk j _ hj he => ?_)
    (fun j _ hj => ?_) fun k _ hk => ?_
  · rw [Finset.mem_range]
    by_contra hge
    have := H.stored k (hstored k hk)
    rw [Vec.getD_of_le _ (Nat.le_of_not_lt hge)] at this
    exact hstored k hk this.symm
  · exact (hn j (hstored j hj)).2 k (hstored k hk) he
  · obtain ⟨k, hk, rfl⟩ := H.owned j fun e => hj (by rw [e]; rfl)
    rw [H.stored k hk] at hj
    exact ⟨k, Finset.mem_range.mpr (hn k hk).1, hj, rfl⟩
  · rw [H.stored k (hstored k hk)]

theorem mapSum_update {n k : Nat} (hk : k < n) (f : V → Nat) (v : Option V) :
    mapSum n f (update m k v) + (m k).elim 0 f = mapSum n f m + v.elim 0 f := by
  have hmem : k ∈ Finset.range n := Finset.mem_range.mpr hk
  rw [mapSum, mapSum, ← Finset.add_sum_erase _ _ hmem, ← Finset.add_sum_erase _ _ hmem, update_self]
  have : ∑ x ∈ (Finset.range n).erase k, (update m k v x).elim 0 f = ∑ x ∈ (Finset.range n).erase k, (m x).elim 0 f :=
    Finset.sum_congr rfl fun x hx => by rw [update_of_ne (Finset.ne_of_mem_erase hx)]
  rw [this]
  omega

theorem slotSum_le {f : V → Nat} {b : Nat} : ∀ {st : List (Option V)}, (∀ v, some v ∈ st → f v ≤ b) →
    slotSum f st ≤ st.length * b
  | [], _ => Nat.zero_le _
  | v :: st, h => by
    have ih := slotSum_le fun u hu => h u (mem_cons_of_mem v hu)
    have hv : v.elim 0 f ≤ b := by
      cases v with
      | none => exact Nat.zero_le b
      | some u => exact h u mem_cons_self
    rw [length_cons, Nat.succ_mul]
    unfold slotSum at *
    rw [map_cons, sum_cons]
    omega

end Libtorrent.SlotTable
