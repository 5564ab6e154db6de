import Libtorrent.Utp.Refinement
import Libtorrent.Utp.Send

/-!
# Writing selective acks

`send_pkt` gives the selective ack as many bytes as the span of the reorder buffer needs, and `write_sack` fills them
with the bits of the numbers from `m_ack_nr + 2` on. The bits are right, read as `parse_sack` reads them, but the span
is measured from the first packet in the buffer: packets behind the mask are left out (`sack_describes_iff`).
-/

namespace Libtorrent.Utp.PacketBuffer

open Function Serial Utp.Sender List Nat

variable {V : Type} {s : PacketBuffer V} {m : Nat → Option V} {a : Nat}

/-- The inner loop of `write_sack`: a byte, and the next number. -/
def writeByte (s : PacketBuffer V) (ackNr : Nat) : UInt8 × Nat :=
  (List.range 8).foldl (fun (b, nr) i =>
    (if (s.atIdx nr).isSome then b ||| 1 <<< UInt8.ofNat i else b, (nr + 1) &&& 0xffff)) (0, ackNr)

/-- The outer loop of `write_sack`. -/
def writeBytes (s : PacketBuffer V) : (size ackNr : Nat) → List UInt8
  | 0, _ => []
  | size + 1, ackNr => (s.writeByte ackNr).1 :: writeBytes s size (s.writeByte ackNr).2

/-- The selective ack of `send_pkt`: `write_sack(ptr, sack)`. -/
def writeSack (s : PacketBuffer V) (ackNr : Nat) : List UInt8 :=
  s.writeBytes (sackSize s.span) ((ackNr + 2) &&& 0xffff)

theorem foldl_bits (s : PacketBuffer V) (ha : a < 65536) : ∀ k ≤ 8, let r := (range k).foldl (fun (b, nr) i =>
      (if (s.atIdx nr).isSome then b ||| 1 <<< UInt8.ofNat i else b, (nr + 1) &&& 0xffff)) ((0 : UInt8), a)
    r.2 = (a + k) % 65536 ∧ ∀ i, r.1.toNat.testBit i = (decide (i < k) && (s.atIdx ((a + i) % 65536)).isSome)
  | 0, _ => by simp [mod_eq_of_lt ha]
  | k + 1, hk => by
    obtain ⟨h1, h2⟩ := foldl_bits s ha k (by omega)
    have hone : ((1 : UInt8) <<< UInt8.ofNat k).toNat = 2 ^ k := by
      have hall : ∀ j < 8, ((1 : UInt8) <<< UInt8.ofNat j).toNat = 2 ^ j := by decide
      exact hall k hk
    dsimp only at h1 h2 ⊢
    rw [range_succ, foldl_append, foldl_cons, foldl_nil]
    refine ⟨by rw [and_ffff, h1, mod_add_mod, add_assoc], fun i => ?_⟩
    rw [h1]
    split <;> rename_i hat
    · rw [UInt8.toNat_or, testBit_or, h2, hone, testBit_two_pow]
      rcases Nat.lt_trichotomy i k with h | rfl | h
      · simp [h, lt_succ_of_lt h, ne_of_gt h]
      · simp [hat]
      · simp [Nat.not_lt.mpr h, Nat.not_lt.mpr h.le, Nat.ne_of_lt h]
    rw [h2]
    rcases Nat.lt_trichotomy i k with h | rfl | h
    · simp [h, lt_succ_of_lt h]
    · simpa using hat
    · simp [Nat.not_lt.mpr h, Nat.not_lt.mpr h.le]

/-- **The bits that are written**, in the order of `parse_sack`. -/
theorem sackBits_writeBytes (s : PacketBuffer V) : ∀ (size : Nat) {a : Nat}, a < 65536 →
    sackBits (s.writeBytes size a) = (List.range (8 * size)).map fun i => (s.atIdx ((a + i) % 65536)).isSome
  | 0, _, _ => rfl
  | size + 1, a, ha => by
    obtain ⟨h1, h2⟩ := foldl_bits s ha 8 (le_refl 8)
    have hbyte : (range 8).map (fun i => (s.writeByte a).1.toNat.testBit i) =
        (range 8).map fun i => (s.atIdx ((a + i) % 65536)).isSome := by
      refine map_congr_left fun i hi => ?_
      rw [writeByte, h2, decide_eq_true (mem_range.mp hi), Bool.true_and]
    have hnr : (s.writeByte a).2 = (a + 8) % 65536 := h1
    have hnext := sackBits_writeBytes s size (a := (a + 8) % 65536) (mod_lt _ (by decide))
    rw [writeBytes, sackBits, flatMap_cons, ← sackBits, hbyte, hnr, hnext, mul_succ, add_comm (8 * size),
      range_add, map_append, map_map]
    simp [Function.comp_def, add_assoc]

/-! ## The selective ack -/

/-- Numbers within the mask are not aliased: the capacity is a multiple of 8, and not less than the span. -/
theorem not_aliased_of_mask (h : Valid s m) (hs : s.size ≠ 0) (hcap : 8 ∣ s.capacity) {b i : Nat} (hb : b < 65536)
    (hfirst : gap b s.first < 512) (hi : i < 8 * sackSize s.span) : ¬ s.Aliased ((b + i) % 65536) := by
  have T := h.tabled hs
  have hf := T.first_lt
  obtain ⟨-, l, hl, hspan, -⟩ := (Twin.agrees_of_valid (t := ⟨s, m⟩) h).ends (by rw [← h.size]; exact hs)
  have hnear := T.near l hl
  rintro ⟨h1, h2, h3, -⟩
  -- a number in front of the first one is less than it
  have hup : ¬ (0 < gap ((b + i) % 65536) s.first ∧ gap ((b + i) % 65536) s.first < 32768) := by
    rw [← compareLessWrap_iff (mod_lt _ (by decide)) hf, h2]
    decide
  dsimp only [cursor] at hspan
  unfold sackSize at hi
  unfold gap at *
  omega

/-- The selective ack describes the reorder buffer: its bits tell which numbers from `m_ack_nr + 2` on are in the
buffer, and it has a bit for each of these up to the 256th number. -/
structure Describes (ackNr : Nat) (m : Nat → Option V) (bits : List Bool) : Prop where
  tells : ∀ i (h : i < bits.length), bits[i] = (m ((ackNr + 2 + i) % 65536)).isSome
  covers : ∀ k, m k ≠ none → gap ((ackNr + 2) % 65536) k ≤ 255 → gap ((ackNr + 2) % 65536) k < bits.length

/-- **Selective acks** describe the reorder buffer exactly if no number among the first 256 lies behind the bits that
the span of the buffer gives room for. -/
theorem sack_describes_iff (h : Valid s m) (hcap : 8 ∣ s.capacity) {ackNr : Nat} (hs : s.size ≠ 0)
    (hwin : ∀ k, m k ≠ none → 2 ≤ gap ackNr k ∧ gap ackNr k ≤ 512) :
    Describes ackNr m (sackBits (s.writeSack ackNr)) ↔
      ∀ k, m k ≠ none → gap ((ackNr + 2) % 65536) k ≤ 255 → gap ((ackNr + 2) % 65536) k < 8 * sackSize s.span := by
  have hb : (ackNr + 2) % 65536 < 65536 := mod_lt _ (by decide)
  have hbits := sackBits_writeBytes s (sackSize s.span) hb
  rw [writeSack, and_ffff, hbits]
  refine ⟨fun D k hk h255 => by simpa using D.covers k hk h255, fun hcov => ⟨fun i hi => ?_, by simpa using hcov⟩⟩
  rw [length_map, length_range] at hi
  have hfirst : gap ((ackNr + 2) % 65536) s.first < 512 := by
    have hw := hwin s.first ((Twin.agrees_of_valid (t := ⟨s, m⟩) h).ends (by rw [← h.size]; exact hs)).1
    unfold gap at *
    omega
  have hna := not_aliased_of_mask h hs hcap hb hfirst hi
  rw [getElem_map, getElem_range, atIdx_eq h (mod_lt _ (by decide)) hna, mod_add_mod]

theorem valid_ten : Valid (new.insert 10 (some ())).1 (update (fun _ => none) 10 (some ())) :=
  (insert_spec valid_new (by decide) ⟨10, by decide, fun k h => by simp_all [gap]⟩
    (fun h => absurd h.1 (by decide)) ()).1

theorem eq_ten {k : Nat} (h : update (fun _ => none) 10 (some ()) k ≠ none) : k = 10 := by
  by_contra hne
  exact h (update_of_ne hne _ _)

theorem sack_describes_ten :
    Describes 8 (update (fun _ => none) 10 (some ())) (sackBits ((new.insert 10 (some ())).1.writeSack 8)) :=
  (sack_describes_iff valid_ten (by decide) (by decide) fun k h => eq_ten h ▸ by decide).mpr fun k h _ => by
    rw [eq_ten h]
    decide

theorem sack_misses_ten : Valid (new.insert 10 (some ())).1 (update (fun _ => none) 10 (some ())) ∧
      ¬ Describes 0 (update (fun _ => none) 10 (some ())) (sackBits ((new.insert 10 (some ())).1.writeSack 0)) :=
  ⟨valid_ten, fun D => absurd (D.covers 10 (by decide) (by decide)) (by decide)⟩

end Libtorrent.Utp.PacketBuffer
