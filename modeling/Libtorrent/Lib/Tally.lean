import Mathlib.Data.List.Basic

/-!
# Counting over an initial segment

`tally n f` is the number of indices below `n` with `f`. A change at one index changes it by that index only.
-/

namespace Libtorrent.Tally

open List

/-- The number of `i < n` with `f i`. -/
def tally (n : Nat) (f : Nat → Bool) : Nat := (List.range n).countP f

variable {n p : Nat} {f g : Nat → Bool}

@[simp] theorem tally_zero (f : Nat → Bool) : tally 0 f = 0 := rfl

theorem tally_succ (n : Nat) (f : Nat → Bool) : tally (n + 1) f = tally n f + (f n).toNat := by
  simp only [tally, range_succ, countP_append, countP_singleton]
  cases f n <;> rfl

theorem tally_congr (h : ∀ i < n, f i = g i) : tally n f = tally n g :=
  countP_congr fun i hi => by rw [h i (mem_range.mp hi)]

/-- **A change at one index.** -/
theorem tally_change : ∀ {n : Nat}, p < n → (∀ i < n, i ≠ p → f i = g i) →
    tally n f + (g p).toNat = tally n g + (f p).toNat
  | 0, hp, _ => by omega
  | n + 1, hp, h => by
    rw [tally_succ, tally_succ]
    by_cases e : p = n
    · rw [tally_congr fun i hi => h i (by omega) (by omega), e]
      omega
    · have ih := tally_change (n := n) (by omega) fun i hi => h i (by omega)
      rw [h n (by omega) (by omega)]
      omega

theorem tally_eq_zero : tally n f = 0 ↔ ∀ i < n, f i = false := by
  rw [tally, countP_eq_zero]
  simp

theorem tally_pos : 0 < tally n f ↔ ∃ i < n, f i = true := by
  rw [tally, countP_pos_iff]
  simp

theorem tally_le (n : Nat) (f : Nat → Bool) : tally n f ≤ n := by
  have := countP_le_length (p := f) (l := range n)
  simpa [tally] using this

theorem tally_eq_self : tally n f = n ↔ ∀ i < n, f i = true := by
  have := countP_eq_length (p := f) (l := range n)
  simpa [tally] using this

theorem tally_le_of {m : Nat} (h : ∀ i, m ≤ i → f i = false) : ∀ n, tally n f ≤ m
  | 0 => Nat.zero_le m
  | n + 1 => by
    rw [tally_succ]
    have ih := tally_le_of h n
    have hn := tally_le n f
    by_cases hm : m ≤ n
    · rw [h n hm]
      simpa using ih
    · have := Bool.toNat_le (f n)
      omega

theorem tally_split (n : Nat) (f g : Nat → Bool) :
    tally n (fun i => f i && !g i) + tally n (fun i => f i && g i) = tally n f := by
  induction n with
  | zero => rfl
  | succ n ih =>
    rw [tally_succ, tally_succ, tally_succ, ← ih]
    cases f n <;> cases g n <;> simp <;> omega

end Libtorrent.Tally
