import Mathlib.Algebra.Order.Ring.Int

/-!
# Node ids and addresses

A node id is a number of 160 bits, the distance of two ids is their exclusive or. Comparing the 20 bytes one after the
other is comparing the numbers.
-/

namespace Libtorrent.Dht

open Nat

abbrev NodeId := BitVec 160

def distance (n₁ n₂ : NodeId) : NodeId := n₁ ^^^ n₂

def compareRef (n₁ n₂ ref : NodeId) : Bool := distance n₁ ref < distance n₂ ref

/-- The bit of a byte that `distance_exp` looks for, from bit `b` down. -/
def topBit (t : Nat) : Nat → Nat
  | 0 => 0
  | b + 1 => if 2 ^ (b + 1) ≤ t then b + 1 else topBit t b

/-- The loop of `distance_exp` over the bytes in front of `byte`, given the exclusive or of the two ids. -/
def distanceExpLoop (x : NodeId) : Nat → Nat
  | 0 => 0
  | byte + 1 =>
    let t := x.toNat / 256 ^ byte % 256
    if t = 0 then distanceExpLoop x byte else byte * 8 + topBit t 7

def distanceExp (n₁ n₂ : NodeId) : Nat := distanceExpLoop (n₁ ^^^ n₂) 20

inductive Address where
  | v4 (bits : BitVec 32)
  | v6 (bits : BitVec 128)
deriving DecidableEq

structure Endpoint where
  addr : Address
  port : UInt16
deriving DecidableEq

namespace Address

def isV4 : Address → Bool
  | v4 _ => true
  | v6 _ => false

/-- The bytes of an IPv6 address, or of the IPv4 address mapped to IPv6. -/
def toV6 : Address → BitVec 128
  | v4 bits => 0xffff00000000#128 ||| bits.zeroExtend 128
  | v6 bits => bits

/-- The number of bits behind those that two addresses have in common. -/
def differing {w : Nat} (a b : BitVec w) : Nat := if a = b then 0 else Nat.log2 (a ^^^ b).toNat + 1

def cidrDistance : Address → Address → Nat
  | v4 a, v4 b => differing a b
  | a, b => differing a.toV6 b.toV6

end Address

theorem topBit_le (t : Nat) : ∀ b, topBit t b ≤ b
  | 0 => le_refl 0
  | b + 1 => by
    have := topBit_le t b
    unfold topBit
    split <;> omega

theorem distanceExpLoop_le (x : NodeId) : ∀ byte, distanceExpLoop x byte ≤ byte * 8 - 1
  | 0 => le_refl 0
  | byte + 1 => by
    have hrest := distanceExpLoop_le x byte
    have htop := topBit_le (x.toNat / 256 ^ byte % 256) 7
    simp only [distanceExpLoop]
    split <;> omega

theorem distanceExp_le (n₁ n₂ : NodeId) : distanceExp n₁ n₂ ≤ 159 := distanceExpLoop_le _ 20

theorem topBit_bounds {t : Nat} (ht : t ≠ 0) : ∀ {b : Nat}, t < 2 ^ (b + 1) → 2 ^ topBit t b ≤ t ∧
    t < 2 ^ (topBit t b + 1)
  | 0, h => ⟨Nat.pos_of_ne_zero ht, h⟩
  | b + 1, h => by
    unfold topBit
    split
    · exact ⟨‹_›, h⟩
    · exact topBit_bounds ht (Nat.lt_of_not_le ‹_›)

theorem distanceExpLoop_bounds (x : NodeId) : ∀ byte, x.toNat < 256 ^ byte →
    x.toNat < 2 ^ (distanceExpLoop x byte + 1) ∧
    (0 < distanceExpLoop x byte → 2 ^ distanceExpLoop x byte ≤ x.toNat)
  | 0, h => ⟨by simpa [distanceExpLoop] using lt_succ_of_lt h, fun h => absurd h (lt_irrefl 0)⟩
  | byte + 1, h => by
    have hdiv : x.toNat / 256 ^ byte < 256 := Nat.div_lt_of_lt_mul (by rwa [← Nat.pow_succ])
    simp only [distanceExpLoop, Nat.mod_eq_of_lt hdiv]
    split
    · rename_i hzero
      exact distanceExpLoop_bounds x byte ((Nat.div_eq_zero_iff_lt (Nat.pow_pos (by decide))).mp hzero)
    rename_i hne
    obtain ⟨hlow, hhigh⟩ := topBit_bounds hne (b := 7) hdiv
    have hpow : 256 ^ byte = 2 ^ (byte * 8) := by rw [Nat.mul_comm, Nat.pow_mul]
    rw [hpow] at hlow hhigh ⊢
    refine ⟨?_, fun _ => ?_⟩
    · rw [add_assoc, Nat.pow_add, Nat.mul_comm]
      exact (Nat.div_lt_iff_lt_mul (Nat.two_pow_pos _)).mp hhigh
    · rw [Nat.pow_add, Nat.mul_comm]
      exact (Nat.le_div_iff_mul_le (Nat.two_pow_pos _)).mp hlow

variable {ref a b : NodeId} {m : Nat}

theorem distanceExp_eq_iff {n : NodeId} (hm : 0 < m) (h : distanceExp ref n ≤ m) :
    (ref ^^^ n).toNat < 2 ^ (m + 1) ∧ (2 ^ m ≤ (ref ^^^ n).toNat ↔ distanceExp ref n = m) := by
  obtain ⟨hlt, hle⟩ : (ref ^^^ n).toNat < 2 ^ (distanceExp ref n + 1) ∧ (0 < distanceExp ref n → _) :=
    distanceExpLoop_bounds (ref ^^^ n) 20 (ref ^^^ n).isLt
  have hpow : 2 ^ (distanceExp ref n + 1) ≤ 2 ^ (m + 1) := Nat.pow_le_pow_right (by decide) (by omega)
  refine ⟨hlt.trans_le hpow, fun hge => ?_, fun he => by rw [← he] at hm ⊢; exact hle hm⟩
  have := (Nat.pow_lt_pow_iff_right (by decide)).mp (hge.trans_lt hlt)
  omega

theorem xor_lt_iff {a b : Nat} (ha : a < 2 ^ (m + 1)) (hb : b < 2 ^ (m + 1)) : a ^^^ b < 2 ^ m ↔
    (2 ^ m ≤ a ↔ 2 ^ m ≤ b) := by
  have htop : ∀ {c : Nat}, c < 2 ^ (m + 1) → (c.testBit m = true ↔ 2 ^ m ≤ c) := fun hc =>
    ⟨ge_two_pow_of_testBit, fun h => testBit_of_two_pow_le_and_two_pow_add_one_gt h hc⟩
  rw [← not_le, ← htop (xor_lt_two_pow ha hb), ← htop ha, ← htop hb, testBit_xor]
  cases a.testBit m <;> cases b.testBit m <;> simp

/-- `y` is nearer to `t` than `x` is, if only one of the two is on the other side of `ref` at the exponent `m`. -/
theorem compareRef_of_exp (ref : NodeId) {x y t : NodeId} (hm : 0 < m) (hx : distanceExp ref x ≤ m)
    (hy : distanceExp ref y ≤ m) (ht : distanceExp ref t ≤ m) (hyt : distanceExp ref y = m ↔ distanceExp ref t = m)
    (hxt : ¬ (distanceExp ref x = m ↔ distanceExp ref t = m)) : compareRef x y t = false := by
  have hdist : ∀ n, (distance n t).toNat = (ref ^^^ n).toNat ^^^ (ref ^^^ t).toNat := fun n => by
    have : (ref ^^^ n) ^^^ (ref ^^^ t) = (ref ^^^ ref) ^^^ (n ^^^ t) := by ac_rfl
    rw [← BitVec.toNat_xor, this, distance]
    simp
  obtain ⟨hx1, hx2⟩ := distanceExp_eq_iff hm hx
  obtain ⟨hy1, hy2⟩ := distanceExp_eq_iff hm hy
  obtain ⟨ht1, ht2⟩ := distanceExp_eq_iff hm ht
  have hnear := (xor_lt_iff hy1 ht1).mpr (by rw [hy2, ht2, hyt])
  have hfar := (xor_lt_iff hx1 ht1).not.mpr (by rwa [hx2, ht2])
  simp only [compareRef, decide_eq_false_iff_not, BitVec.lt_def, hdist]
  omega

theorem compareRef_irrefl (n ref : NodeId) : compareRef n n ref = false := by simp [compareRef]

theorem compareRef_trans {c : NodeId} (h1 : compareRef a b ref = true) (h2 : compareRef b c ref = true) :
    compareRef a c ref = true := by
  simp only [compareRef, decide_eq_true_eq] at *
  exact BitVec.lt_trans h1 h2

theorem eq_of_not_compareRef (h1 : compareRef a b ref = false) (h2 : compareRef b a ref = false) : a = b := by
  have heq : a ^^^ ref = b ^^^ ref :=
    BitVec.le_antisymm (BitVec.not_lt.mp (of_decide_eq_false h2)) (BitVec.not_lt.mp (of_decide_eq_false h1))
  have := congrArg (· ^^^ ref) heq
  simpa [BitVec.xor_assoc] using this

end Libtorrent.Dht
