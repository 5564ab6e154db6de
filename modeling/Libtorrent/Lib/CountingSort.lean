import Libtorrent.Lib.Buckets

/-!
# Counting sort

The elements `0, …, n - 1` are sorted into the buckets that `prio` gives them. `count prio q i` is the number of
elements of bucket `q` before `i`, `total prio n q` the number of elements in the buckets before `q`, and
`slot prio n i r` the place of element `i` of bucket `r`. `layout_of_slots`: an array that has every element at its
place is sorted into buckets.
-/

namespace Libtorrent.CountingSort

open Buckets Nat

variable {prio : Nat → Option Nat} {n : Nat}

def count (prio : Nat → Option Nat) (q : Nat) : Nat → Nat
  | 0 => 0
  | i + 1 => count prio q i + if prio i = some q then 1 else 0

def total (prio : Nat → Option Nat) (n : Nat) : Nat → Nat
  | 0 => 0
  | q + 1 => total prio n q + count prio q n

/-- The place of element `i`, of bucket `r`. -/
def slot (prio : Nat → Option Nat) (n i r : Nat) : Nat := total prio n r + count prio r i

variable {q i j r : Nat}

theorem count_mono (h : i ≤ j) : count prio q i ≤ count prio q j :=
  monotone_nat_of_le_succ (fun _ => le_add_right _ _) h

theorem count_le (prio : Nat → Option Nat) (q : Nat) : ∀ i, count prio q i ≤ i
  | 0 => le_refl 0
  | i + 1 => by
    have := count_le prio q i
    rw [count]
    split <;> omega

theorem count_lt (hi : prio i = some q) (h : i < j) : count prio q i < count prio q j := by
  have : count prio q (i + 1) ≤ count prio q j := count_mono h
  rw [count, if_pos hi] at this
  omega

theorem exists_count : ∀ {m k : Nat}, k < count prio q m → ∃ i < m, prio i = some q ∧ count prio q i = k
  | 0, k, h => by simp [count] at h
  | m + 1, k, h => by
    by_cases hk : k < count prio q m
    · obtain ⟨i, hi, h1, h2⟩ := exists_count hk
      exact ⟨i, by omega, h1, h2⟩
    rw [count] at h
    split at h
    · rename_i hm
      exact ⟨m, by omega, hm, by omega⟩
    · omega

theorem total_mono (prio : Nat → Option Nat) (n : Nat) (h : q ≤ r) : total prio n q ≤ total prio n r :=
  monotone_nat_of_le_succ (fun _ => le_add_right _ _) h

theorem exists_bucket : ∀ {q k : Nat}, k < total prio n q → ∃ r < q, total prio n r ≤ k ∧ k < total prio n (r + 1)
  | 0, k, h => by simp [total] at h
  | q + 1, k, h => by
    by_cases hk : k < total prio n q
    · obtain ⟨r, hr, h1, h2⟩ := exists_bucket hk
      exact ⟨r, by omega, h1, h2⟩
    · exact ⟨q, by omega, by omega, h⟩

theorem slot_bounds (hi : i < n) (hr : prio i = some r) :
    total prio n r ≤ slot prio n i r ∧ slot prio n i r < total prio n (r + 1) := by
  have := count_lt hr hi
  simp only [slot, total]
  omega

theorem slot_lt_total (hi : i < n) (hr : prio i = some r) : slot prio n i r < total prio n (q + 1) ↔ r ≤ q := by
  have hb := slot_bounds hi hr
  constructor
  · intro h
    by_contra hc
    have := total_mono prio n (show q + 1 ≤ r by omega)
    omega
  · intro h
    have := total_mono prio n (show r + 1 ≤ q + 1 by omega)
    omega

theorem slot_inj {r' : Nat} (hi : i < n) (hj : j < n) (hr : prio i = some r) (hr' : prio j = some r')
    (h : slot prio n i r = slot prio n j r') : i = j := by
  have h1 := (slot_lt_total (q := r') hi hr).mp (by rw [h]; exact (slot_bounds hj hr').2)
  have h2 := (slot_lt_total (q := r) hj hr').mp (by rw [← h]; exact (slot_bounds hi hr).2)
  obtain rfl : r = r' := le_antisymm h1 h2
  rcases lt_trichotomy i j with hlt | rfl | hlt
  · have := count_lt hr hlt
    simp only [slot] at h
    omega
  · rfl
  · have := count_lt hr' hlt
    simp only [slot] at h
    omega

theorem exists_slot {k : Nat} (h : k < total prio n q) : ∃ i < n, ∃ r < q, prio i = some r ∧ slot prio n i r = k := by
  obtain ⟨r, hr, h1, h2⟩ := exists_bucket h
  rw [total] at h2
  obtain ⟨i, hi, h3, h4⟩ := exists_count (show k - total prio n r < count prio r n by omega)
  exact ⟨i, hi, r, hr, h3, by simp only [slot]; omega⟩

/-- **An array with every element at its place is sorted into buckets.** -/
theorem layout_of_slots {arr bnd : Nat → Nat} {m : Nat} (hrange : ∀ i r, prio i = some r → i < n ∧ r < m)
    (harr : ∀ i r, prio i = some r → arr (slot prio n i r) = i)
    (hbnd : ∀ q, bnd q = total prio n (min (q + 1) m)) : Layout prio (total prio n m) arr bnd := by
  refine ⟨?_, ?_, ?_, ?_, ?_⟩
  · intro k hk k' hk' e
    obtain ⟨i, hi, r, -, hr, rfl⟩ := exists_slot hk
    obtain ⟨j, hj, r', -, hr', rfl⟩ := exists_slot hk'
    rw [harr i r hr, harr j r' hr'] at e
    subst e
    rw [hr] at hr'
    injection hr' with hr'
    rw [hr']
  · intro k hk
    obtain ⟨i, hi, r, -, hr, rfl⟩ := exists_slot hk
    exact ⟨r, by rw [harr i r hr, hr]⟩
  · intro i r hr
    obtain ⟨hi, hrm⟩ := hrange i r hr
    obtain ⟨m, rfl⟩ : ∃ x, m = x + 1 := ⟨m - 1, by omega⟩
    exact ⟨slot prio n i r, (slot_lt_total hi hr).mpr (by omega), harr i r hr⟩
  · intro q
    rw [hbnd]
    exact total_mono _ _ (min_le_right _ _)
  · intro k hk r hr q
    obtain ⟨i, hi, r', hr'm, hr', rfl⟩ := exists_slot hk
    rw [harr i r' hr', hr'] at hr
    injection hr with hr
    obtain ⟨x, hx⟩ : ∃ x, min (q + 1) m = x + 1 := ⟨min (q + 1) m - 1, by omega⟩
    rw [hbnd, hx, slot_lt_total hi hr']
    omega

end Libtorrent.CountingSort
