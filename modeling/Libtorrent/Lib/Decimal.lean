import Mathlib.Data.Nat.Digits.Lemmas

/-!
# Decimal text

`decimal n` is the decimal representation of `n` in ASCII, most significant digit first; `value` reads digits back
(`value_decimal`).
-/

namespace Libtorrent.Decimal

open List Nat

def isDigit (c : UInt8) : Bool := 48 ≤ c && c ≤ 57

def digitChar (d : Nat) : UInt8 := UInt8.ofNat (48 + d)

def decimal (n : Nat) : List UInt8 := if n = 0 then [48] else (Nat.digits 10 n).reverse.map digitChar

/-- What the digits after a prefix with value `a` stand for. -/
def value (a : Nat) (ds : List UInt8) : Nat := ds.foldl (fun a c => 10 * a + (c.toNat - 48)) a

variable {d n : Nat}

theorem toNat_digitChar (h : d < 10) : (digitChar d).toNat = 48 + d := by
  unfold digitChar
  rw [UInt8.toNat_ofNat']
  omega

theorem isDigit_iff {c : UInt8} : isDigit c = true ↔ 48 ≤ c.toNat ∧ c.toNat ≤ 57 := by
  rw [isDigit, Bool.and_eq_true, decide_eq_true_eq, decide_eq_true_eq, UInt8.le_iff_toNat_le, UInt8.le_iff_toNat_le]
  rfl

theorem isDigit_digitChar (h : d < 10) : isDigit (digitChar d) = true := by
  rw [isDigit_iff, toNat_digitChar h]
  omega

theorem decimal_of_pos (h : 0 < n) :
    decimal n = (if n / 10 = 0 then [] else decimal (n / 10)) ++ [digitChar (n % 10)] := by
  have hd : decimal n = ((digits 10 (n / 10)).reverse.map digitChar) ++ [digitChar (n % 10)] := by
    rw [decimal, if_neg (pos_iff_ne_zero.mp h), digits_def' (by decide) h, reverse_cons, map_append, map_singleton]
  rw [hd]
  by_cases hz : n / 10 = 0
  · rw [if_pos hz, hz]
    rfl
  · rw [if_neg hz, decimal, if_neg hz]

theorem decimal_digits (n : Nat) : ∀ c ∈ decimal n, isDigit c = true := by
  intro c hc
  unfold decimal at hc
  split at hc
  · rw [mem_singleton.mp hc]
    rfl
  · obtain ⟨d, hd, rfl⟩ := mem_map.mp hc
    exact isDigit_digitChar (digits_lt_base (by decide) (mem_reverse.mp hd))

theorem value_append (a : Nat) (l1 l2 : List UInt8) : value a (l1 ++ l2) = value (value a l1) l2 := foldl_append

theorem value_decimal (n : Nat) : value 0 (decimal n) = n := by
  induction n using Nat.strongRecOn with
  | ind n ih =>
    by_cases hz : n = 0
    · rw [hz]
      rfl
    rw [decimal_of_pos (pos_of_ne_zero hz), value_append]
    have hlast : ∀ a, value a [digitChar (n % 10)] = 10 * a + n % 10 := by
      intro a
      change 10 * a + ((digitChar (n % 10)).toNat - 48) = _
      rw [toNat_digitChar (Nat.mod_lt _ (by decide)), Nat.add_sub_cancel_left]
    rw [hlast]
    split
    · change 10 * 0 + n % 10 = n
      omega
    · rw [ih (n / 10) (by omega)]
      omega

theorem decimal_ne_nil (n : Nat) : decimal n ≠ [] := by
  by_cases hz : n = 0
  · rw [hz]
    decide
  · rw [decimal_of_pos (pos_of_ne_zero hz)]
    simp

theorem length_decimal_le : ∀ {k : Nat}, 0 < k → n < 10 ^ k → (decimal n).length ≤ k := by
  intro k
  induction k generalizing n with
  | zero => intro h; omega
  | succ k ih =>
    intro _ hn
    by_cases hz : n = 0
    · rw [hz]
      exact succ_le_succ (zero_le k)
    rw [decimal_of_pos (pos_of_ne_zero hz), length_append, length_singleton]
    split
    · exact succ_le_succ (zero_le k)
    rw [pow_succ] at hn
    have hk : 0 < k := by
      by_contra h0
      obtain rfl : k = 0 := by omega
      simp at hn
      omega
    have := ih (n := n / 10) hk (by omega)
    omega

end Libtorrent.Decimal
