import Mathlib.Data.Nat.ModEq

/-!
# 16-bit serial numbers

Serial numbers are numbers below `2 ^ 16` on a circle. `gap a b` is the way from `a` up to `b`. A vector whose length
divides the circle can be indexed by serial numbers: those that lie within one length of each other have different
slots (`eq_of_mod_eq`).
-/

namespace Libtorrent.Serial

open List

/-- The way from `a` up to `b`. -/
def gap (a b : Nat) : Nat := (b + 65536 - a) % 65536

def numbers (a b : Nat) : List Nat := (List.range (gap a b)).map fun d => (a + d) % 65536

theorem gap_lt (a b : Nat) : gap a b < 65536 := Nat.mod_lt _ (by decide)

theorem gap_self (a : Nat) : gap a a = 0 := by
  unfold gap
  omega

variable {a b c : Nat}

section

variable (ha : a < 65536)
include ha

theorem add_gap (hb : b < 65536) : (a + gap a b) % 65536 = b := by
  unfold gap
  omega

theorem gap_inj (hb : b < 65536) (hc : c < 65536) (h : gap a b = gap a c) : b = c := by
  unfold gap at h
  omega

theorem gap_add {d : Nat} (hd : d < 65536) : gap a ((a + d) % 65536) = d := by
  unfold gap
  omega

theorem mem_numbers {k : Nat} : k ∈ numbers a b ↔ k < 65536 ∧ gap a k < gap a b := by
  unfold numbers
  rw [mem_map]
  constructor
  · rintro ⟨d, hd, rfl⟩
    have hd := mem_range.mp hd
    refine ⟨Nat.mod_lt _ (by decide), ?_⟩
    rwa [gap_add ha (hd.trans (gap_lt a b))]
  · rintro ⟨hk, hlt⟩
    exact ⟨gap a k, mem_range.mpr hlt, add_gap ha hk⟩

theorem numbers_succ (hb : b < 65536) (h : gap a b + 1 < 65536) : numbers a ((b + 1) % 65536) = numbers a b ++ [b] := by
  have hg : gap a ((b + 1) % 65536) = gap a b + 1 := by
    unfold gap at *
    omega
  unfold numbers
  rw [hg, range_succ, map_append, map_singleton, add_gap ha hb]

end

theorem mod_eq (hc : c ∣ 65536) (ha : a < 65536) (hb : b < 65536) : b % c = (a + gap a b) % c := by
  rw [← Nat.mod_mod_of_dvd (a + gap a b) hc, add_gap ha hb]

theorem eq_of_mod_eq {first : Nat} (hc : c ∣ 65536) (hf : first < 65536) (ha : a < 65536) (hb : b < 65536)
    (hda : gap first a < c) (hdb : gap first b < c) (h : a % c = b % c) : a = b := by
  rw [mod_eq hc hf ha, mod_eq hc hf hb] at h
  have hd : gap first a ≡ gap first b [MOD c] := Nat.ModEq.add_left_cancel' first h
  exact gap_inj hf ha hb (Nat.ModEq.eq_of_lt_of_lt hd hda hdb)

end Libtorrent.Serial
