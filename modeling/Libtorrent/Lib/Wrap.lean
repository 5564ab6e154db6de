import Mathlib.Algebra.Order.Ring.Int

/-!
# Signed machine integers

The value of an `int32_t` or `int64_t` after arithmetic that wraps.
-/

namespace Libtorrent

def int32 (x : Int) : Int := x.bmod (2 ^ 32)

def int64 (x : Int) : Int := x.bmod (2 ^ 64)

theorem int32_zero : int32 0 = 0 := rfl

theorem int32_add (x y : Int) : int32 (int32 x + y) = int32 (x + y) := Int.bmod_add_bmod

theorem int32_add_right (x y : Int) : int32 (x + int32 y) = int32 (x + y) := Int.add_bmod_bmod

variable {n : Nat} {x : Int}

theorem int32_eq (h : n < 2 ^ 31) : int32 n = n := by
  exact Int.bmod_eq_of_le (by omega) (by omega)

theorem int32_of_range (h1 : -2 ^ 31 ≤ x) (h2 : x < 2 ^ 31) : int32 x = x := by
  rw [int32]
  exact Int.bmod_eq_of_le (by omega) (by omega)

theorem int32_lt (x : Int) : int32 x < 2 ^ 31 := Int.bmod_lt (by decide)

theorem int32_eq_iff : int32 n = n ↔ n < 2 ^ 31 := by
  refine ⟨fun h => ?_, int32_eq⟩
  have := int32_lt n
  omega

theorem int64_eq (h1 : -2 ^ 63 ≤ x) (h2 : x < 2 ^ 63) : int64 x = x := by
  exact Int.bmod_eq_of_le (by omega) (by omega)

end Libtorrent
