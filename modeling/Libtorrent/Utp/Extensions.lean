import Libtorrent.Lib.Wrap

/-!
# Extension headers of a uTP packet

The loop of `incoming_packet` over the extension headers. The length of an extension is read through a `char`, so
lengths from 128 on are negative. The cursor stays inside the packet all the same, but it may go back: then the loop
need not end, and `parse_sack` may get a negative length (`looping_not_safe`). A chain of extensions with shorter
lengths is read safely (`extensions_safe`).
-/

namespace Libtorrent.Utp

open Option

/-- A datagram of at least `sizeof(utp_header)` bytes; its size is an `int`. -/
structure Datagram where
  bytes : List UInt8
  header_le : 20 ≤ bytes.length
  length_lt : bytes.length < 2 ^ 31

namespace Datagram

variable (d : Datagram)

def charAt (ptr : Int) : Int := ((d.bytes.getD ptr.toNat 0).toNat : Int).bmod 256

/-- `len`, read at the second byte of the extension header at `ptr`. -/
def len (ptr : Int) : Int := d.charAt (ptr + 1)

/-- The checks of an extension header: the header and the extension end inside the packet. The sum of `ptr - buf` and
`len` is converted to `size_t` by the comparison. -/
def fits (ptr : Int) : Bool :=
  !(ptr + 2 > d.bytes.length) && !((ptr + 2 + d.len ptr) % 2 ^ 64 > d.bytes.length)

/-- A round of the loop for `ptr - buf` and `extension`; `none` when the loop or the function is left. -/
def round : Int × Nat → Option (Int × Nat)
  | (ptr, extension) =>
    if extension = 0 ∨ d.fits ptr = false then none
    else some (ptr + 2 + d.len ptr, (d.charAt ptr % 2 ^ 32).toNat)

/-- The arguments `ptr - buf` and `size` of the call of `parse_sack` in a round. -/
def sackCall : Int × Nat → Option (Int × Int)
  | (ptr, extension) => if extension = 1 ∧ d.fits ptr = true then some (ptr + 2, d.len ptr) else none

def visited : (n : Nat) → Option (Int × Nat)
  | 0 => some (20, (d.bytes.getD 1 0).toNat)
  | n + 1 => (visited n).bind d.round

/-- The loop ends, its cursor stays inside the packet, `parse_sack` gets ranges inside the packet, and the payload is a
part of the packet. -/
structure Safe : Prop where
  ends : ∃ n, d.visited n = none
  inside : ∀ n ptr ext, d.visited n = some (ptr, ext) → 0 ≤ ptr ∧ ptr ≤ d.bytes.length
  sacks : ∀ n x ptr len, d.visited n = some x → d.sackCall x = some (ptr, len) →
    0 ≤ len ∧ 0 ≤ ptr ∧ ptr + len ≤ d.bytes.length
  payload : ∀ n ptr, d.visited n = some (ptr, 0) →
    0 ≤ (d.bytes.length : Int) - ptr ∧ (d.bytes.length : Int) - ptr ≤ d.bytes.length

variable {d} {n : Nat} {ptr : Int} {ext : Nat}

theorem fits_iff (h : 0 ≤ ptr) : d.fits ptr = true ↔
    ptr + 2 ≤ d.bytes.length ∧ 0 ≤ ptr + 2 + d.len ptr ∧ ptr + 2 + d.len ptr ≤ d.bytes.length := by
  have hlen := d.length_lt
  have h1 := Int.le_bmod (x := ((d.bytes.getD (ptr + 1).toNat 0).toNat : Int)) (m := 256) (by decide)
  have h2 := Int.bmod_lt (x := ((d.bytes.getD (ptr + 1).toNat 0).toNat : Int)) (m := 256) (by decide)
  rw [show ((d.bytes.getD (ptr + 1).toNat 0).toNat : Int).bmod 256 = d.len ptr from rfl] at h1 h2
  simp only [fits, gt_iff_lt, Bool.and_eq_true, Bool.not_eq_true', decide_eq_false_iff_not, Int.not_lt]
  omega

theorem visited_inside : ∀ (n : Nat) {ptr : Int} {ext : Nat}, d.visited n = some (ptr, ext) →
    0 ≤ ptr ∧ ptr ≤ d.bytes.length ∧ ext < 2 ^ 32
  | 0, ptr, ext, h => by
    have hb := (d.bytes.getD 1 0).toNat_lt
    have := d.header_le
    simp only [visited, some.injEq, Prod.mk.injEq] at h
    omega
  | n + 1, ptr, ext, h => by
    obtain ⟨⟨p, e⟩, hp, hr⟩ := bind_eq_some_iff.mp h
    have hin := visited_inside n hp
    simp only [round, ite_none_left_eq_some, some.injEq, Prod.mk.injEq, not_or, Bool.not_eq_false, fits_iff hin.1] at hr
    omega

/-- The chain of extension headers as it is meant: where a header starts, and its type. Lengths are 0 to 255. -/
inductive OnChain (d : Datagram) : Nat → UInt8 → Prop
  | first : OnChain d 20 (d.bytes.getD 1 0)
  | next {p : Nat} {ext : UInt8} : OnChain d p ext → ext ≠ 0 →
      OnChain d (p + 2 + (d.bytes.getD (p + 1) 0).toNat) (d.bytes.getD p 0)

theorem char_eq_zero {b : Nat} (hb : b < 256) : ((b : Int).bmod 256 % 2 ^ 32).toNat = 0 ↔ b = 0 := by
  have h := Int.bmod_def (b : Int) 256
  simp only [Nat.cast_ofNat] at h
  split at h <;> omega

theorem charAt_eq_zero (p : Nat) : (d.charAt p % 2 ^ 32).toNat = 0 ↔ d.bytes.getD p 0 = 0 :=
  (char_eq_zero (d.bytes.getD p 0).toNat_lt).trans (UInt8.toNat_inj (b := 0))

theorem len_eq {p : Nat} (h : d.bytes.getD (p + 1) 0 < 128) : d.len p = (d.bytes.getD (p + 1) 0).toNat := by
  have hlt : (d.bytes.getD (p + 1) 0).toNat < 128 := UInt8.lt_iff_toNat_lt.mp h
  have hat : ((p : Int) + 1).toNat = p + 1 := by omega
  unfold Datagram.len charAt
  rewrite [hat]
  exact Int.bmod_eq_of_le (by omega) (by omega)

section

variable (h : ∀ p ext, d.OnChain p ext → ext ≠ 0 → d.bytes.getD (p + 1) 0 < 128)
include h

/-- The loop follows the chain, and goes on by two bytes at least. -/
theorem visited_onChain : ∀ (n : Nat) {ptr : Int} {ext : Nat}, d.visited n = some (ptr, ext) →
    ∃ p e, ptr = (p : Nat) ∧ (ext = 0 ↔ e = 0) ∧ d.OnChain p e ∧ 20 + 2 * n ≤ p
  | 0, ptr, ext, hv => by
    cases hv
    exact ⟨20, _, rfl, by rw [← UInt8.toNat_inj]; rfl, .first, le_rfl⟩
  | n + 1, ptr, ext, hv => by
    obtain ⟨⟨ptr', ext'⟩, hv', hr⟩ := bind_eq_some_iff.mp hv
    obtain ⟨p, e, rfl, he, hchain, hle⟩ := visited_onChain n hv'
    simp only [round, ite_none_left_eq_some, some.injEq, Prod.mk.injEq, not_or] at hr
    obtain ⟨⟨hext, -⟩, rfl, rfl⟩ := hr
    have hne : e ≠ 0 := fun h0 => hext (he.mpr h0)
    refine ⟨_, _, ?_, charAt_eq_zero p, hchain.next hne, by omega⟩
    rw [len_eq (h p e hchain hne)]
    omega

/-- **Extension headers are parsed inside the packet** if all length bytes of the chain are below 128. -/
theorem extensions_safe : d.Safe := by
  refine ⟨⟨d.bytes.length, ?_⟩, fun n ptr ext hn => ?_, fun n x ptr len hn hx => ?_, fun n ptr hn => ?_⟩
  · cases hv : d.visited d.bytes.length with
    | none => rfl
    | some x =>
      obtain ⟨p, e, hp, -, -, hle⟩ := visited_onChain h _ hv
      have := visited_inside _ hv
      omega
  · exact ⟨(visited_inside n hn).1, (visited_inside n hn).2.1⟩
  · obtain ⟨p, e⟩ := x
    simp only [sackCall, ite_none_right_eq_some, some.injEq, Prod.mk.injEq] at hx
    obtain ⟨⟨rfl, hfit⟩, rfl, rfl⟩ := hx
    obtain ⟨q, e, rfl, he, hchain, -⟩ := visited_onChain h n hn
    have hlen := len_eq (h q e hchain fun h0 => absurd (he.mpr h0) (by decide))
    have := (fits_iff (visited_inside n hn).1).mp hfit
    omega
  · have := visited_inside n hn
    omega

end

/-- A header and a selective ack of four bytes. -/
def oneSack : Datagram := ⟨1 :: 1 :: List.replicate 18 0 ++ [0, 4, 1, 0, 0, 0], by decide, by decide⟩

theorem extensions_safe_oneSack : oneSack.Safe := by
  have hchain : ∀ p ext, oneSack.OnChain p ext → ext = 0 ∨ p = 20 := by
    intro p ext hc
    induction hc with
    | first => exact .inr rfl
    | next _ hne ih =>
      obtain rfl := ih.resolve_left hne
      exact .inl rfl
  refine extensions_safe fun p ext hc hne => ?_
  obtain rfl := (hchain p ext hc).resolve_left hne
  decide

/-- A header and an unknown extension of -2 bytes that is followed by another one of its kind. -/
def looping : Datagram := ⟨1 :: 2 :: List.replicate 18 0 ++ [2, 254], by decide, by decide⟩

theorem looping_not_safe : ¬ looping.Safe := by
  have hround : looping.round (20, 2) = some (20, 2) := by decide
  have hall : ∀ n, looping.visited n = some (20, 2) := by
    intro n
    induction n with
    | zero => rfl
    | succ n ih => rw [visited, ih, bind_some, hround]
  rintro ⟨⟨n, hn⟩, -, -, -⟩
  rw [hall] at hn
  cases hn

end Datagram

end Libtorrent.Utp
