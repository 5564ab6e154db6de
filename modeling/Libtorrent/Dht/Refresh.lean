import Libtorrent.Dht.RoutingTable

/-!
# Refreshing a bucket

The id that `need_refresh` makes up for a bucket lies in that bucket (`refresh_hits_bucket`). Byte 0 of an id is the
most significant one.
-/

namespace Libtorrent.Dht

open Nat BitVec

/-- `0x80 >> (i & 7)` in byte `i / 8`. -/
def bitAt (i : Nat) : NodeId := (0x80#8 >>> (i % 8)).zeroExtend 160 <<< (8 * (19 - i / 8))

def refreshMask (numBits : Nat) : NodeId := (List.range numBits).foldl (fun mask i => mask ||| bitAt i) 0

/-- The target of `need_refresh` for bucket `k`. -/
def refreshTarget (id random : NodeId) (k : Nat) : NodeId :=
  let numBits := k + 1
  let mask := refreshMask numBits
  let target := (random &&& ~~~mask) ||| (id &&& mask)
  -- make sure this is in another subtree than the own id
  (target &&& ~~~bitAt (numBits - 1)) ||| (~~~id &&& bitAt (numBits - 1))

/-- The loop of `compare_ref` over the bytes in front of `byte`, given the exclusive ors with the reference. -/
def compareRefLoop (x y : NodeId) : Nat → Bool
  | 0 => false
  | byte + 1 =>
    let lhs := x.toNat / 256 ^ byte % 256
    let rhs := y.toNat / 256 ^ byte % 256
    if lhs < rhs then true else if rhs < lhs then false else compareRefLoop x y byte

theorem compareRefLoop_iff (x y : NodeId) : ∀ byte,
    compareRefLoop x y byte = true ↔ x.toNat % 256 ^ byte < y.toNat % 256 ^ byte
  | 0 => by simp [compareRefLoop, Nat.mod_one]
  | byte + 1 => by
    have hx := Nat.mod_lt x.toNat (Nat.pow_pos (n := byte) (show 0 < 256 by decide))
    have hy := Nat.mod_lt y.toNat (Nat.pow_pos (n := byte) (show 0 < 256 by decide))
    rw [compareRefLoop, Nat.mod_pow_succ, Nat.mod_pow_succ]
    generalize x.toNat / 256 ^ byte % 256 = l
    generalize y.toNat / 256 ^ byte % 256 = r
    rcases Nat.lt_trichotomy l r with h | rfl | h
    · have := Nat.mul_le_mul_left (256 ^ byte) h
      rw [Nat.mul_succ] at this
      rw [if_pos h, eq_self, true_iff]
      omega
    · rw [if_neg (lt_irrefl l), if_neg (lt_irrefl l), compareRefLoop_iff x y byte]
      omega
    · have := Nat.mul_le_mul_left (256 ^ byte) h
      rw [Nat.mul_succ] at this
      rw [if_neg (lt_asymm h), if_pos h, Bool.false_eq_true, false_iff]
      omega

/-- The loop decides which of two ids is nearer to the reference. -/
theorem compareRefLoop_eq (n₁ n₂ ref : NodeId) :
    compareRefLoop (n₁ ^^^ ref) (n₂ ^^^ ref) 20 = compareRef n₁ n₂ ref := by
  rw [Bool.eq_iff_iff, compareRefLoop_iff, Nat.mod_eq_of_lt (b := 256 ^ 20) (n₁ ^^^ ref).isLt,
    Nat.mod_eq_of_lt (b := 256 ^ 20) (n₂ ^^^ ref).isLt, compareRef, decide_eq_true_eq]
  rfl

theorem distanceExp_eq_log2 {a b : NodeId} (h : a ≠ b) : distanceExp a b = log2 (a ^^^ b).toNat := by
  have hne : (a ^^^ b).toNat ≠ 0 := fun h0 => h (BitVec.xor_eq_zero_iff.mp (eq_of_toNat_eq h0))
  obtain ⟨hlt, hle⟩ := distanceExpLoop_bounds (a ^^^ b) 20 (a ^^^ b).isLt
  refine ((log2_eq_iff hne).mpr ⟨?_, hlt⟩).symm
  rcases Nat.eq_zero_or_pos (distanceExpLoop (a ^^^ b) 20) with h0 | hpos
  · rw [h0]
    omega
  · exact hle hpos

theorem bitAt_eq : ∀ i < 160, bitAt i = twoPow 160 (159 - i) := by decide +kernel

theorem refreshMask_bit (j : Nat) : ∀ {n : Nat}, n ≤ 160 →
    (refreshMask n).getLsbD j = (decide (160 - n ≤ j) && decide (j < 160))
  | 0, _ => by simp [refreshMask]
  | n + 1, hn => by
    have hstep : refreshMask (n + 1) = refreshMask n ||| bitAt n := by simp [refreshMask, List.range_succ]
    rw [hstep, getLsbD_or, refreshMask_bit j (by omega), bitAt_eq n (by omega), getLsbD_twoPow]
    grind

/-- From bit `159 - k` up, the target differs from the own id in that bit only. -/
theorem refreshTarget_bit (id random : NodeId) {k j : Nat} (hk : k < 160) (hj : 159 - k ≤ j) :
    (id ^^^ refreshTarget id random k).toNat.testBit j = decide (j = 159 - k) := by
  rw [← getLsbD, refreshTarget]
  simp only [Nat.add_sub_cancel, bitAt_eq k hk, getLsbD_xor, getLsbD_or, getLsbD_and, getLsbD_not,
    refreshMask_bit j (show k + 1 ≤ 160 from hk), getLsbD_twoPow]
  grind

theorem log2_refreshTarget (id random : NodeId) {k : Nat} (hk : k < 160) :
    id ≠ refreshTarget id random k ∧ log2 (id ^^^ refreshTarget id random k).toNat = 159 - k := by
  have hbit := (refreshTarget_bit id random hk (le_refl _)).trans (decide_eq_true rfl)
  have hle := ge_two_pow_of_testBit hbit
  have hpos := Nat.two_pow_pos (159 - k)
  refine ⟨fun h => ?_, (log2_eq_iff (by omega)).mpr ⟨hle, lt_pow_two_of_testBit _ fun j hj => ?_⟩⟩
  · rw [← h, BitVec.xor_self] at hbit
    simp at hbit
  · rw [refreshTarget_bit id random hk (by omega)]
    exact decide_eq_false (by omega)

/-- **Bucket refresh**: the target for a bucket is found in that bucket, `distance_exp` is the logarithm of the
distance, and `compare_ref` compares distances. -/
theorem refresh_hits_bucket (cfg : TableConfig) :
    (∀ (t : RoutingTable) (random : NodeId) (k : Nat), t.buckets.length ≤ 160 → k < t.buckets.length →
      t.findBucket cfg (refreshTarget cfg.id random k) = (t, k)) ∧
    (∀ a b : NodeId, a ≠ b → distanceExp a b = log2 (distance a b).toNat) ∧
    ∀ a b ref : NodeId, compareRefLoop (a ^^^ ref) (b ^^^ ref) 20 = true ↔
      (distance a ref).toNat < (distance b ref).toNat := by
  refine ⟨fun t random k hn hk => ?_, fun a b => distanceExp_eq_log2, fun a b ref => ?_⟩
  · obtain ⟨hne, hlog⟩ := log2_refreshTarget cfg.id random (lt_of_lt_of_le hk hn)
    have hwith : t.withBucket = t := if_neg fun h => by simp [h] at hk
    rw [RoutingTable.findBucket, hwith, RoutingTable.bucketIndex, distanceExp_eq_log2 hne, hlog, Prod.mk.injEq]
    exact ⟨rfl, by omega⟩
  · rw [compareRefLoop_eq, compareRef, decide_eq_true_eq]
    rfl

/-- Five buckets without nodes, of the node with the id 0. -/
theorem refresh_hits_bucket_third :
    let cfg : TableConfig := ⟨0, 8, by decide, true, 20, []⟩
    let t : RoutingTable := ⟨List.replicate 5 ⟨[], []⟩, ∅⟩
    t.findBucket cfg (refreshTarget 0 7 2) = (t, 2) ∧ distanceExp 0 (refreshTarget 0 7 2) = 157 := by
  intro cfg t
  have h := refresh_hits_bucket cfg
  exact ⟨h.1 t 7 2 (by decide) (by decide), (h.2.1 _ _ (by decide)).trans (by decide)⟩

end Libtorrent.Dht
