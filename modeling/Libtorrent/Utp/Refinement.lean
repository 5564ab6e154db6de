import Libtorrent.Lib.Run
import Libtorrent.Lib.Serial
import Libtorrent.Lib.SlotTable
import Libtorrent.Lib.Tally
import Libtorrent.Utp.PacketBuffer

/-!
# The storage of the packet buffer

The storage is a direct-mapped table: the slot of a sequence number is its remainder modulo the capacity, a power of two
(`Tabled`). Growing keeps the map (`Tabled.reserve`), and the loops that look for free space and for the next and the
previous element find what lies between the stored numbers (`freeSpace_spec`, `scanUp_spec`, `scanDown_spec`).
-/

namespace Libtorrent.Utp

open Serial SlotTable List Function Nat

/-! ## Masks -/

theorem and_ffff (x : Nat) : x &&& 0xffff = x % 65536 := and_two_pow_sub_one_eq_mod x 16

theorem sub32_and_ffff {a b : Nat} (ha : a < 65536) (hb : b < 65536) : sub32 b a &&& 0xffff = gap a b := by
  rw [and_ffff]
  unfold sub32 gap
  omega

theorem compareLessWrap_iff {a b : Nat} (ha : a < 65536) (hb : b < 65536) :
    compareLessWrap a b 0xffff = true ↔ 0 < gap a b ∧ gap a b < 32768 := by
  unfold compareLessWrap
  rw [sub32_and_ffff ha hb, sub32_and_ffff hb ha, decide_eq_true_eq]
  unfold gap
  omega

theorem sub32_one_modEq {c i x : Nat} (hc : c ∣ 2 ^ 32) (hx : 0 < x) (h : i ≡ x [MOD c]) :
    sub32 i 1 ≡ x - 1 [MOD c] := by
  have h1 : sub32 i 1 ≡ i + 2 ^ 32 - 1 [MOD c] := mod_mod_of_dvd _ hc
  have h2 : i + 2 ^ 32 - 1 + 1 ≡ x - 1 + 1 [MOD c] := by
    rw [Nat.sub_add_cancel (by omega), Nat.sub_add_cancel hx]
    have := h.add ((Nat.modEq_zero_iff_dvd).mpr hc)
    simpa using this
  exact h1.trans (Nat.ModEq.add_right_cancel' 1 h2)

namespace PacketBuffer

variable {V : Type} {s : PacketBuffer V} {m : Nat → Option V} {idx k : Nat}

/-! ## The table -/

/-- A buffer with storage whose slots are those of the map; the stored numbers lie within one capacity. -/
structure Tabled (s : PacketBuffer V) (m : Nat → Option V) : Prop where
  capacity : ∃ e ≤ 15, s.capacity = 2 ^ e
  length : s.storage.length = s.capacity
  first_lt : s.first < 65536
  bound : ∀ k, m k ≠ none → k < 65536
  holds : Holds (· % s.capacity) m s.storage
  near : ∀ k, m k ≠ none → gap s.first k < s.capacity

variable {c : Nat}

section

variable (h : ∃ e ≤ 15, c = 2 ^ e)
include h

theorem mask (x : Nat) : x &&& (c - 1) = x % c := by
  obtain ⟨e, -, rfl⟩ := h
  exact and_two_pow_sub_one_eq_mod x e

theorem pow_dvd : c ∣ 65536 := by
  obtain ⟨e, he, rfl⟩ := h
  exact pow_dvd_pow 2 (show e ≤ 16 by omega)

theorem pow_le : 0 < c ∧ c ≤ 32768 := by
  obtain ⟨e, he, rfl⟩ := h
  exact ⟨Nat.two_pow_pos e, Nat.pow_le_pow_right (by decide) he⟩

end

namespace Tabled

section

variable (T : Tabled s m)
include T

theorem pos : 0 < s.capacity := (pow_le T.capacity).1

theorem le : s.capacity ≤ 32768 := (pow_le T.capacity).2

theorem dvd : s.capacity ∣ 65536 := pow_dvd T.capacity

theorem cell_eq (i : Nat) : s.cell i = s.storage.getD (i % s.capacity) none := by
  rw [cell, mask T.capacity]

theorem cell_congr {i j : Nat} (h : i ≡ j [MOD 65536]) : s.cell i = s.cell j := by
  rw [T.cell_eq, T.cell_eq, show i % s.capacity = j % s.capacity from h.of_dvd T.dvd]

theorem alone (hk : k < 65536) (hd : gap s.first k < s.capacity) : Alone (· % s.capacity) m k :=
  fun j hj he => eq_of_mod_eq T.dvd T.first_lt (T.bound j hj) hk (T.near j hj) hd he

theorem cell_of_near (hk : k < 65536) (hd : gap s.first k < s.capacity) : s.cell k = m k := by
  rw [T.cell_eq]
  exact T.holds.lookup (T.alone hk hd)

theorem cell_add {d : Nat} (hd : d < s.capacity) : s.cell (s.first + d) = m ((s.first + d) % 65536) := by
  have hlt : (s.first + d) % 65536 < 65536 := mod_lt _ (by decide)
  have hle := T.le
  have hf := T.first_lt
  rw [← T.cell_congr (mod_modEq _ _)]
  refine T.cell_of_near hlt ?_
  unfold gap
  omega

theorem write (hk : k < 65536) (hd : gap s.first k < s.capacity) (v : Option V) :
    Tabled { s with storage := s.storage.set (k &&& (s.capacity - 1)) v } (update m k v) := by
  refine ⟨T.capacity, ?_, T.first_lt, fun j hj => ?_, ?_, fun j hj => ?_⟩
  · rw [length_set]
    exact T.length
  · by_cases e : j = k
    · rw [e]
      exact hk
    · rw [update_of_ne e] at hj
      exact T.bound j hj
  · rw [mask T.capacity]
    refine T.holds.write (T.alone hk hd) ?_ v
    rw [T.length]
    exact mod_lt _ T.pos
  · by_cases e : j = k
    · rw [e]
      exact hd
    · rw [update_of_ne e] at hj
      exact T.near j hj

theorem move {f : Nat} (hf : f < 65536) (h : ∀ k, m k ≠ none → gap f k < s.capacity) : Tabled { s with first := f } m :=
  ⟨T.capacity, T.length, hf, T.bound, T.holds, h⟩

end

end Tabled

/-! ## `reserve` -/

theorem doubled_spec {size : Nat} (hs : size ≤ 32768) : ∀ fuel {e : Nat}, e ≤ 15 → size ≤ 2 ^ e + fuel →
    (∃ e' ≤ 15, doubled fuel (2 ^ e) size = 2 ^ e') ∧ 2 ^ e ≤ doubled fuel (2 ^ e) size ∧
      size ≤ doubled fuel (2 ^ e) size
  | 0, e, he, h => ⟨⟨e, he, rfl⟩, le_refl _, h⟩
  | fuel + 1, e, he, h => by
    have hpos := Nat.two_pow_pos e
    rw [doubled]
    by_cases hlt : 2 ^ e < size
    · have he' : e < 15 := by
        by_contra hge
        have : e = 15 := by omega
        subst this
        omega
      have hshift : 2 ^ e <<< 1 = 2 ^ (e + 1) := by rw [shiftLeft_eq, pow_one, pow_succ]
      rw [if_pos hlt, hshift]
      have hdouble : 2 ^ (e + 1) = 2 ^ e + 2 ^ e := by rw [pow_succ]; omega
      obtain ⟨h1, h2, h3⟩ := doubled_spec hs fuel (e := e + 1) he' (by omega)
      exact ⟨h1, by omega, h3⟩
    · rw [if_neg hlt]
      exact ⟨⟨e, he, rfl⟩, le_refl _, by omega⟩

theorem Tabled.reserve (T : Tabled s m) (size : Nat) (hs : size ≤ 32768) :
    Tabled (s.reserve size) m ∧ size ≤ (s.reserve size).capacity ∧ s.capacity ≤ (s.reserve size).capacity := by
  obtain ⟨hn, hle, hsize⟩ : (∃ e' ≤ 15, (s.reserve size).capacity = 2 ^ e') ∧
      s.capacity ≤ (s.reserve size).capacity ∧ size ≤ (s.reserve size).capacity := by
    obtain ⟨e, he, hc⟩ := T.capacity
    have hcap : (s.reserve size).capacity = doubled size (2 ^ e) size := by
      rw [PacketBuffer.reserve]
      rw [if_neg (Nat.pos_iff_ne_zero.mp T.pos), hc]
    rw [hcap, hc]
    exact doubled_spec hs size he (Nat.le_add_left _ _)
  refine ⟨⟨hn, ?_, T.first_lt, T.bound, ?_, fun k hk => lt_of_lt_of_le (T.near k hk) hle⟩, hsize, hle⟩
  · exact (Vec.length_foldl_set _ _ _ _).trans (length_replicate ..)
  -- the storage is written at the slots of `first`, …, `first + capacity - 1`
  generalize hN : (s.reserve size).capacity = n at *
  have hst : (s.reserve size).storage = (range s.capacity).foldl
      (fun st d => st.set ((s.first + d) % n) (s.cell (s.first + d))) (replicate n none) := by
    rw [← hN]
    simp only [← mask (hN.symm ▸ hn)]
    rfl
  have hpos := (pow_le hn).1
  have hinj : ∀ d < s.capacity, ∀ i < s.capacity, (s.first + i) % n = (s.first + d) % n → i = d := by
    intro d hd i hi he
    exact Nat.ModEq.eq_of_lt_of_lt (Nat.ModEq.add_left_cancel' s.first he) (by omega) (by omega)
  have hread : ∀ d < s.capacity,
    (s.reserve size).storage.getD ((s.first + d) % n) none = m ((s.first + d) % 65536) := by
    intro d hd
    rw [hst, Vec.getD_foldl_set (fun d => (s.first + d) % n) _ _ _ (by simpa using mod_lt _ hpos) hd (hinj d hd)]
    exact T.cell_add hd
  constructor
  · intro k hk
    have hd := T.near k hk
    have hkey := add_gap T.first_lt (T.bound k hk)
    have := hread _ hd
    rw [hkey] at this
    rw [← this, mod_eq (pow_dvd hn) T.first_lt (T.bound k hk)]
  intro j hj
  by_cases hex : ∃ d < s.capacity, (s.first + d) % n = j
  · obtain ⟨d, hd, rfl⟩ := hex
    rw [hread d hd] at hj
    exact ⟨_, hj, mod_mod_of_dvd _ (pow_dvd hn)⟩
  refine absurd ?_ hj
  rw [hst, Vec.getD_foldl_set_of_ne (fun d => (s.first + d) % n) _ _ _ fun d hd he => hex ⟨d, hd, he⟩]
  simp [getD_eq_getElem?_getD, getElem?_replicate]
  split <;> rfl

theorem tabled_reserve_empty (h : s.capacity = 0) (hf : s.first < 65536) (hm : ∀ k, m k = none) :
    Tabled (s.reserve 16) m := by
  have hcap : (s.reserve 16).capacity = 2 ^ 4 := by
    rw [PacketBuffer.reserve, h]
    rfl
  have hst : (s.reserve 16).storage = replicate 16 none := by
    rw [PacketBuffer.reserve, h]
    rfl
  refine ⟨⟨4, by decide, hcap⟩, by rw [hst, hcap]; rfl, hf, fun k hk => absurd (hm k) hk, ?_, fun k hk =>
    absurd (hm k) hk⟩
  refine ⟨fun k hk => absurd (hm k) hk, fun j hj => absurd ?_ hj⟩
  rw [hst, getD_eq_getElem?_getD, getElem?_replicate]
  split <;> rfl

/-! ## The ends -/

structure Ends (s : PacketBuffer V) (m : Nat → Option V) (l : Nat) : Prop where
  first : m s.first ≠ none
  stored : m l ≠ none
  last : s.last = (l + 1) % 65536
  le : ∀ k, m k ≠ none → gap s.first k ≤ gap s.first l

theorem freeSpace_eq (T : Tabled s m) {l : Nat} (E : Ends s m l) : ∀ {r fuel : Nat}, r < fuel →
    gap s.first l + 1 + r ≤ s.capacity → s.freeSpace fuel ((s.first + gap s.first l + r) % s.capacity) = r
  | 0, fuel + 1, _, _ => by
    have hc : (s.cell ((s.first + gap s.first l) % s.capacity)).isSome = true := by
      rw [T.cell_eq, mod_mod, ← mod_eq T.dvd T.first_lt (T.bound l E.stored), ← T.cell_eq,
        T.cell_of_near (T.bound l E.stored) (T.near l E.stored)]
      exact Option.isSome_iff_ne_none.mpr E.stored
    rw [freeSpace, add_zero, if_pos hc, ite_self]
  | r + 1, fuel + 1, hr, hle => by
    have hf := T.first_lt
    have hcap := T.le
    have hd : gap s.first l + (r + 1) < s.capacity := by omega
    have hne : (s.first + gap s.first l + (r + 1)) % s.capacity ≠ s.first &&& (s.capacity - 1) := by
      rw [mask T.capacity, add_assoc]
      intro he
      have he : s.first + (gap s.first l + (r + 1)) ≡ s.first + 0 [MOD s.capacity] := he
      have := Nat.ModEq.eq_of_lt_of_lt (Nat.ModEq.add_left_cancel' s.first he) hd T.pos
      omega
    have hc : s.cell ((s.first + gap s.first l + (r + 1)) % s.capacity) = none := by
      rw [T.cell_eq, mod_mod, ← T.cell_eq, add_assoc, T.cell_add hd]
      by_contra hk
      have := E.le _ hk
      unfold gap at this hd
      omega
    have hnext : sub32 ((s.first + gap s.first l + (r + 1)) % s.capacity) 1 &&& (s.capacity - 1) =
        (s.first + gap s.first l + r) % s.capacity := by
      rw [mask T.capacity]
      exact sub32_one_modEq (T.dvd.trans (by decide)) (by omega) (mod_modEq _ _)
    rw [freeSpace, if_neg hne, hc, hnext, freeSpace_eq T E (by omega) (by omega)]
    rfl

/-- The loop in `insert` counts what the stored numbers leave of the capacity. -/
theorem freeSpace_spec (T : Tabled s m) {l : Nat} (E : Ends s m l) :
    s.freeSpace s.capacity (sub32 s.first 1 &&& (s.capacity - 1)) + (gap s.first l + 1) = s.capacity := by
  have hlt := T.near l E.stored
  have hstart : sub32 s.first 1 &&& (s.capacity - 1) =
      (s.first + gap s.first l + (s.capacity - (gap s.first l + 1))) % s.capacity := by
    rw [mask T.capacity, show s.first + gap s.first l + (s.capacity - (gap s.first l + 1)) = s.first + s.capacity - 1 by
      omega]
    refine sub32_one_modEq (T.dvd.trans (by decide)) (by omega) ?_
    exact (add_modEq_right).symm
  rw [hstart, freeSpace_eq T E (by omega) (by omega)]
  omega

theorem scanUp_spec : ∀ rounds i d : Nat, d < rounds → s.cell (i + d) ≠ none →
    ∃ j ≤ d, s.scanUp rounds i = i + j ∧ s.cell (i + j) ≠ none ∧ ∀ j' < j, s.cell (i + j') = none
  | rounds + 1, i, d, hd, h => by
    by_cases hi : s.cell i = none
    · cases d with
      | zero => exact absurd hi h
      | succ d =>
        rw [← add_assoc, add_right_comm] at h
        obtain ⟨j, hj, he, hs, hn⟩ := scanUp_spec rounds (i + 1) d (Nat.lt_of_succ_lt_succ hd) h
        refine ⟨j + 1, by omega, ?_, ?_, fun j' hj' => ?_⟩
        · rw [scanUp, hi, if_neg (by simp), he]
          omega
        · rw [← add_assoc, add_right_comm]
          exact hs
        cases j' with
        | zero => exact hi
        | succ j' =>
          rw [← add_assoc, add_right_comm]
          exact hn j' (by omega)
    · refine ⟨0, zero_le _, ?_, hi, fun j' hj' => by omega⟩
      rw [scanUp, if_pos (Option.isSome_iff_ne_none.mpr hi)]
      rfl

/-- The index of `scanDown` can pass below zero; `x` is what it is modulo `2 ^ 16`. -/
theorem scanDown_spec (T : Tabled s m) : ∀ rounds {i x d : Nat}, i ≡ x [MOD 65536] → d < rounds → d ≤ x →
    s.cell (x - d) ≠ none →
      ∃ j ≤ d, s.scanDown rounds i ≡ x - j [MOD 65536] ∧ s.cell (x - j) ≠ none ∧ ∀ j' < j, s.cell (x - j') = none
  | rounds + 1, i, x, d, hix, hd, hx, h => by
    have hcell := T.cell_congr hix
    by_cases hi : s.cell x = none
    · cases d with
      | zero => exact absurd hi h
      | succ d =>
        rw [Nat.add_comm, ← Nat.sub_sub] at h
        have hnext : sub32 i 1 ≡ x - 1 [MOD 65536] := sub32_one_modEq (by decide) (by omega) hix
        obtain ⟨j, hj, he, hs, hn⟩ := scanDown_spec T rounds hnext (Nat.lt_of_succ_lt_succ hd) (by omega) h
        refine ⟨j + 1, by omega, ?_, ?_, fun j' hj' => ?_⟩
        · rw [scanDown, hcell, hi, if_neg (by simp), Nat.add_comm, ← Nat.sub_sub]
          exact he
        · rw [Nat.add_comm, ← Nat.sub_sub]
          exact hs
        cases j' with
        | zero => exact hi
        | succ j' =>
          rw [Nat.add_comm, ← Nat.sub_sub]
          exact hn j' (by omega)
    · refine ⟨0, zero_le _, ?_, hi, fun j' hj' => by omega⟩
      rw [scanDown, hcell, if_pos (Option.isSome_iff_ne_none.mpr hi)]
      exact hix

/-!
## The packet buffer is a map

`Valid s m` says that the buffer `s` stands for the map `m` from sequence numbers to values. Each call keeps it for the
map after the call and answers what the map has, as long as it is not misled by a slot that belongs to another number:
`at` and `remove` look into the slot of a number that has wrapped without asking whether it lies within the capacity,
and `insert` does not grow the buffer for such a number if the buffer itself does not reach the wrap (`Plain`). Along
every run of plain calls the buffer is the map (`packet_buffer_refines`).
-/

open Tally Run Option

/-! ## The buffer and its map -/

def stored (m : Nat → Option V) : Nat := tally 65536 fun k => (m k).isSome

/-- The buffer stands for the map. -/
structure Valid (s : PacketBuffer V) (m : Nat → Option V) : Prop where
  table : s.capacity = 0 ∧ s.storage = [] ∧ s.first = 0 ∧ (∀ k, m k = none) ∨ Tabled s m
  size : s.size = stored m
  ends : s.size ≠ 0 → ∃ l, Ends s m l

theorem valid_new : Valid (new : PacketBuffer V) fun _ => none :=
  ⟨Or.inl ⟨rfl, rfl, rfl, fun _ => rfl⟩, (tally_eq_zero.mpr fun _ _ => rfl).symm, fun h => absurd rfl h⟩

namespace Valid

section

variable (h : Valid s m)
include h

theorem bound (k : Nat) (hk : m k ≠ none) : k < 65536 := by
  rcases h.table with ⟨-, -, -, hm⟩ | T
  · exact absurd (hm k) hk
  · exact T.bound k hk

theorem first_lt : s.first < 65536 := by
  rcases h.table with ⟨-, -, hf, -⟩ | T
  · omega
  · exact T.first_lt

theorem eq_none (hs : s.size = 0) (k : Nat) : m k = none := by
  by_contra hk
  have := tally_eq_zero.mp (h.size.symm.trans hs) k (h.bound k hk)
  exact hk (by simpa using this)

theorem tabled (hs : s.size ≠ 0) : Tabled s m := by
  rcases h.table with ⟨-, -, -, hm⟩ | T
  · refine absurd ?_ hs
    rw [h.size]
    exact tally_eq_zero.mpr fun k _ => by rw [hm k]; rfl
  · exact T

theorem cell_eq_none (hs : s.size = 0) (i : Nat) : s.cell i = none := by
  rcases h.table with ⟨-, hst, -, -⟩ | T
  · rw [cell, hst]
    rfl
  · rw [T.cell_eq]
    exact T.holds.free (h.eq_none hs) _

theorem slotSum_eq (f : V → Nat) : slotSum f s.storage = mapSum 65536 f m := by
  rcases h.table with ⟨-, hst, -, hm⟩ | T
  · rw [hst, mapSum, Finset.sum_eq_zero fun k _ => by rw [hm k]; rfl]
    rfl
  · exact T.holds.slotSum_eq_mapSum (fun k hk => ⟨T.bound k hk, T.alone (T.bound k hk) (T.near k hk)⟩) f

theorem slotSum_le {f : V → Nat} {b : Nat} (hf : ∀ k v, m k = some v → f v ≤ b) : slotSum f s.storage ≤ 32768 * b := by
  rcases h.table with ⟨-, hst, -, -⟩ | T
  · rw [hst]
    exact zero_le _
  · refine le_trans (SlotTable.slotSum_le fun v hv => ?_) (mul_le_mul_right b (T.length ▸ T.le))
    obtain ⟨k, hk⟩ := T.holds.exists_of_mem hv
    exact hf k v hk

end

end Valid

theorem stored_update (hk : k < 65536) (v : Option V) :
    stored (update m k v) + (m k).isSome.toNat = stored m + v.isSome.toNat := by
  have := tally_change (f := fun j => (update m k v j).isSome) hk
    fun j _ hj => by rw [update_of_ne hj]
  rw [update_self] at this
  exact this

/-- The slot of the index belongs to another number: the index has wrapped, lies behind the capacity, and its slot is
taken. -/
def Aliased (s : PacketBuffer V) (idx : Nat) : Prop :=
  idx < s.first ∧ compareLessWrap idx s.first 0xffff = false ∧ s.capacity ≤ gap s.first idx ∧ s.cell idx ≠ none

section

variable (h : Valid s m) (hi : idx < 65536) (hp : ¬ s.Aliased idx)
include h hi hp

/-- The tests at the beginning of `at` and `remove`, with the slot if they pass. -/
theorem lookup_spec : (idx ≥ s.first + s.capacity → m idx = none) ∧
      (compareLessWrap idx s.first 0xffff = true → m idx = none) ∧
      (¬ idx ≥ s.first + s.capacity → ¬ compareLessWrap idx s.first 0xffff = true → s.cell idx = m idx) := by
  have hf := h.first_lt
  rcases h.table with ⟨hc, hst, -, hm⟩ | T
  · refine ⟨fun _ => hm idx, fun _ => hm idx, fun _ _ => ?_⟩
    rw [cell, hst, hm idx]
    rfl
  have hnear : s.capacity ≤ gap s.first idx → m idx = none := by
    intro hle
    by_contra hk
    exact absurd (T.near idx hk) (not_lt.mpr hle)
  have hle := T.le
  refine ⟨fun hge => hnear ?_, fun hlt => hnear ?_, fun hge hlt => ?_⟩
  · unfold gap
    omega
  · rw [compareLessWrap_iff hi hf] at hlt
    unfold gap at hlt ⊢
    omega
  by_cases hd : gap s.first idx < s.capacity
  · exact T.cell_of_near hi hd
  have hd : s.capacity ≤ gap s.first idx := Nat.le_of_not_lt hd
  have hw : idx < s.first := by
    unfold gap at hd
    omega
  rw [hnear hd]
  by_contra hne
  exact hp ⟨hw, Bool.not_eq_true _ ▸ hlt, hd, hne⟩

theorem atIdx_eq : s.atIdx idx = m idx := by
  obtain ⟨h1, h2, h3⟩ := lookup_spec h hi hp
  unfold atIdx
  by_cases hge : idx ≥ s.first + s.capacity
  · rw [if_pos hge, h1 hge]
  rw [if_neg hge]
  by_cases hlt : compareLessWrap idx s.first 0xffff = true
  · rw [if_pos hlt, h2 hlt]
  · rw [if_neg hlt, h3 hge hlt]

end

theorem not_aliased_of_stored (h : Valid s m) (hk : m k ≠ none) : ¬ s.Aliased k := by
  rintro ⟨-, -, hle, -⟩
  rcases h.table with ⟨-, -, -, hm⟩ | T
  · exact hk (hm k)
  · exact absurd (T.near k hk) (not_lt.mpr hle)

/-! ## `remove` -/

section Remove

variable {l : Nat}

theorem gap_eq_sub {a b c : Nat} (ha : a < 65536) (hb : b < 65536) (hc : c < 65536) (h : gap a b ≤ gap a c) :
    gap b c = gap a c - gap a b := by
  unfold gap at h ⊢
  omega

theorem advanceFirst_spec (T : Tabled s m) (hm : m s.first = none) (hk : m k ≠ none) (hl : m l ≠ none)
    (hle : ∀ k, m k ≠ none → gap s.first k ≤ gap s.first l) : Tabled s.advanceFirst m ∧ m s.advanceFirst.first ≠ none ∧
      ∀ k, m k ≠ none → gap s.advanceFirst.first k ≤ gap s.advanceFirst.first l := by
  have hf := T.first_lt
  have hcap := T.le
  have hkd := T.near k hk
  have hkey := add_gap hf (T.bound k hk)
  have hpos : gap s.first k ≠ 0 := by
    intro e
    rw [e, Nat.add_zero, Nat.mod_eq_of_lt hf] at hkey
    exact hk (hkey ▸ hm)
  obtain ⟨j, hj, he, hs, hn⟩ := scanUp_spec s.capacity (s.first + 1) (gap s.first k - 1) (by omega) (by
      rw [show s.first + 1 + (gap s.first k - 1) = s.first + gap s.first k by omega, T.cell_add hkd, hkey]
      exact hk)
  have hfirst : s.advanceFirst.first = (s.first + (j + 1)) % 65536 := by
    rw [advanceFirst, he, and_ffff, add_right_comm, add_assoc]
  have hlt : s.advanceFirst.first < 65536 := hfirst ▸ mod_lt _ (by decide)
  have hd : gap s.first s.advanceFirst.first = j + 1 := by
    rw [hfirst]
    unfold gap
    omega
  -- no stored number is skipped
  have hskip : ∀ k, m k ≠ none → gap s.first s.advanceFirst.first ≤ gap s.first k := by
    intro k hk
    rw [hd]
    by_contra hlt'
    have hkd := T.near k hk
    have hkey := add_gap hf (T.bound k hk)
    cases hdk : gap s.first k with
    | zero =>
      rw [hdk, Nat.add_zero, Nat.mod_eq_of_lt hf] at hkey
      exact hk (hkey ▸ hm)
    | succ d =>
      have := hn d (by omega)
      rw [show s.first + 1 + d = s.first + gap s.first k by omega, T.cell_add hkd, hkey] at this
      exact hk this
  refine ⟨T.move hlt fun k hk => ?_, ?_, fun k hk => ?_⟩
  · have h := gap_eq_sub hf hlt (T.bound k hk) (hskip k hk)
    have := T.near k hk
    change gap s.advanceFirst.first k < s.capacity
    omega
  · rw [show s.first + 1 + j = s.first + (j + 1) by omega, T.cell_add (by omega), ← hfirst] at hs
    exact hs
  · rw [gap_eq_sub hf hlt (T.bound k hk) (hskip k hk), gap_eq_sub hf hlt (T.bound l hl) (hskip l hl)]
    have := hle k hk
    omega

theorem retreatLast_spec (T : Tabled s m) (hlast : s.last = (idx + 1) % 65536) (hi : idx < 65536)
    (hfirst : m s.first ≠ none) (hle : ∀ k, m k ≠ none → gap s.first k ≤ gap s.first idx)
    (hd : gap s.first idx < s.capacity) :
    ∃ l, m l ≠ none ∧ s.retreatLast.last = (l + 1) % 65536 ∧ ∀ k, m k ≠ none → gap s.first k ≤ gap s.first l := by
  have hf := T.first_lt
  have hcap := T.le
  have hidx : (s.first + gap s.first idx) % 65536 = idx := add_gap hf hi
  have hstart : sub32 s.last 1 ≡ s.first + gap s.first idx [MOD 65536] := by
    change sub32 s.last 1 % 65536 = _
    rw [hlast, hidx]
    unfold sub32
    omega
  obtain ⟨j, hj, he, hs, hn⟩ := scanDown_spec T s.capacity hstart hd (le_add_left _ _) (by
      rw [Nat.add_sub_cancel, ← Nat.add_zero s.first, T.cell_add T.pos, Nat.add_zero, Nat.mod_eq_of_lt hf]
      exact hfirst)
  have hoff : s.first + gap s.first idx - j = s.first + (gap s.first idx - j) := by omega
  rw [hoff, T.cell_add (by omega)] at hs
  refine ⟨_, hs, ?_, fun k hk => ?_⟩
  · rw [retreatLast, and_ffff, ← hoff]
    exact (he.add_right 1).trans ((mod_modEq _ _).symm.add_right 1)
  have hkd := T.near k hk
  have hkey := add_gap hf (T.bound k hk)
  have hidxle := hle k hk
  have hval : gap s.first ((s.first + (gap s.first idx - j)) % 65536) = gap s.first idx - j := by
    generalize gap s.first idx - j = d at *
    have : d < 65536 := by omega
    unfold gap
    omega
  rw [hval]
  by_contra hgt
  have := hn (gap s.first idx - gap s.first k) (by omega)
  rw [show s.first + gap s.first idx - (gap s.first idx - gap s.first k) = s.first + gap s.first k by omega,
    T.cell_add hkd, hkey] at this
  exact hk this

/-- The buffer after a stored value has been taken out, before the ends are looked after. -/
def cleared (s : PacketBuffer V) (idx : Nat) : PacketBuffer V :=
  { s with storage := s.storage.set (idx &&& (s.capacity - 1)) none, size := s.size - 1 }

theorem cleared_ends (h : Valid s m) (hk : m idx ≠ none) (hs : s.size - 1 ≠ 0) :
    Valid (let s := if idx = s.first then (s.cleared idx).advanceFirst else s.cleared idx
      if (idx + 1) &&& 0xffff = s.last ∧ s.size ≠ 0 then s.retreatLast else s) (update m idx none) := by
  have hi := h.bound idx hk
  have T := h.tabled (by omega)
  obtain ⟨l, E⟩ := h.ends (by omega)
  have hf := T.first_lt
  have hd := T.near idx hk
  have T' : Tabled (s.cleared idx) (update m idx none) := by
    have := T.write hi hd none
    exact ⟨this.capacity, this.length, this.first_lt, this.bound, this.holds, this.near⟩
  have hold : ∀ k, update m idx none k ≠ none → k ≠ idx ∧ m k ≠ none := by
    intro k hk'
    have hne : k ≠ idx := by
      rintro rfl
      rw [update_self] at hk'
      exact hk' rfl
    rw [update_of_ne hne] at hk'
    exact ⟨hne, hk'⟩
  have hnew : ∀ k, k ≠ idx → m k ≠ none → update m idx none k ≠ none := fun k hne hk' => by
    rw [update_of_ne hne]
    exact hk'
  have hsize : s.size - 1 = stored (update m idx none) := by
    have := stored_update (m := m) hi none
    rw [isSome_iff_ne_none.mpr hk, ← h.size] at this
    simp at this
    omega
  obtain ⟨k, hk'⟩ : ∃ k, update m idx none k ≠ none := by
    obtain ⟨k, -, hk'⟩ := tally_pos.mp (Nat.pos_of_ne_zero (hsize ▸ hs))
    exact ⟨k, isSome_iff_ne_none.mp hk'⟩
  have hll : l < 65536 := T.bound l E.stored
  have hlast : (idx + 1) &&& 0xffff = s.last ↔ idx = l := by
    rw [and_ffff, E.last]
    omega
  by_cases hfirst : idx = s.first
  · subst hfirst
    have hl : l ≠ s.first := by
      rintro rfl
      have h1 := E.le k (hold k hk').2
      rw [gap_self] at h1
      exact (hold k hk').1 (gap_inj hf (T.bound k (hold k hk').2) hf (by rw [gap_self]; omega))
    obtain ⟨hT, h1, h2⟩ := advanceFirst_spec T' (update_self ..) hk' (hnew l hl E.stored)
      fun k hk => E.le k (hold k hk).2
    rw [if_pos rfl, if_neg fun he => hl (hlast.mp he.1).symm]
    exact ⟨Or.inr hT, hsize, fun _ => ⟨l, h1, hnew l hl E.stored, E.last, h2⟩⟩
  rw [if_neg hfirst]
  have hf' : update m idx none s.first ≠ none := hnew _ (Ne.symm hfirst) E.first
  by_cases hl : idx = l
  · subst hl
    obtain ⟨l', h1, h2, h3⟩ := retreatLast_spec T' E.last hi hf' (fun k hk => E.le k (hold k hk).2) hd
    rw [if_pos ⟨hlast.mpr rfl, hs⟩]
    exact ⟨Or.inr ⟨T'.capacity, T'.length, T'.first_lt, T'.bound, T'.holds, T'.near⟩, hsize,
      fun _ => ⟨l', hf', h1, h2, h3⟩⟩
  · rw [if_neg fun he => hl (hlast.mp he.1)]
    exact ⟨Or.inr T', hsize, fun _ => ⟨l, hf', hnew l (Ne.symm hl) E.stored, E.last, fun k hk => E.le k (hold k hk).2⟩⟩

/-- **`remove`** takes the number out of the map and answers its value. -/
theorem remove_spec (h : Valid s m) (hi : idx < 65536) (hp : ¬ s.Aliased idx) :
    Valid (s.remove idx).1 (update m idx none) ∧ (s.remove idx).2 = m idx := by
  obtain ⟨h1, h2, h3⟩ := lookup_spec h hi hp
  have hself : m idx = none → update m idx none = m := fun he => by
    rw [← he]
    exact update_eq_self idx m
  unfold remove
  by_cases hge : idx ≥ s.first + s.capacity
  · rw [if_pos hge, hself (h1 hge), h1 hge]
    exact ⟨h, rfl⟩
  rw [if_neg hge]
  by_cases hlt : compareLessWrap idx s.first 0xffff = true
  · rw [if_pos hlt, hself (h2 hlt), h2 hlt]
    exact ⟨h, rfl⟩
  rw [if_neg hlt, h3 hge hlt]
  dsimp only
  by_cases hk : m idx = none
  · have hst : s.storage.set (idx &&& (s.capacity - 1)) none = s.storage := by
      have := Vec.set_getD_self s.storage (idx &&& (s.capacity - 1)) none
      rwa [show s.storage.getD (idx &&& (s.capacity - 1)) none = none from (h3 hge hlt).trans hk] at this
    have hne1 : ¬ (idx = s.first ∧ s.size ≠ 0) := by
      rintro ⟨rfl, hs⟩
      obtain ⟨l, E⟩ := h.ends hs
      exact E.first hk
    have hne2 : ¬ ((idx + 1) &&& 0xffff = s.last ∧ s.size ≠ 0) := by
      rintro ⟨he, hs⟩
      obtain ⟨l, E⟩ := h.ends hs
      rw [and_ffff, E.last] at he
      have := h.bound l E.stored
      have : idx = l := by omega
      exact E.stored (this ▸ hk)
    simp only [hk, hst, isSome_none, Bool.false_eq_true, if_false, hne1, hne2, hself hk, and_true]
    exact h
  · have hsome : (m idx).isSome = true := isSome_iff_ne_none.mpr hk
    refine ⟨?_, rfl⟩
    rw [hsome]
    simp only [if_true]
    by_cases hs : s.size - 1 = 0
    · simp only [hs, if_true, ne_eq, not_true_eq_false, and_false, if_false]
      have T := h.tabled (by rw [h.size]; exact fun he => hk (by simpa using tally_eq_zero.mp he idx hi))
      have hT := T.write hi (T.near idx hk) none
      have hcount := stored_update (m := m) hi none
      rw [hsome, ← h.size] at hcount
      simp at hcount
      refine ⟨Or.inr ⟨hT.capacity, hT.length, hT.first_lt, hT.bound, hT.holds, hT.near⟩, ?_, fun hne => absurd rfl hne⟩
      change 0 = _
      omega
    · simp only [hs, if_false, ne_eq, not_false_eq_true, and_true]
      exact cleared_ends h hk hs

theorem capacity_remove (s : PacketBuffer V) (idx : Nat) : (s.remove idx).1.capacity = s.capacity := by
  unfold remove
  split
  · rfl
  split
  · rfl
  · dsimp only [advanceFirst, retreatLast]
    repeat' split
    all_goals rfl

end Remove

/-! ## `insert` -/

/-- The stored numbers and the index lie within fewer than `2 ^ 15` consecutive sequence numbers. -/
def InWindow (m : Nat → Option V) (idx : Nat) : Prop :=
  ∃ w < 65536, ∀ k, k = idx ∨ m k ≠ none → gap w k < 0x7fff

/-- The index has wrapped and the buffer does not reach the wrap: `insert` does not see that the index may lie behind
the capacity. -/
def Overrun (s : PacketBuffer V) (idx : Nat) : Prop :=
  s.size ≠ 0 ∧ idx < s.first ∧ compareLessWrap idx s.first 0xffff = false ∧ s.first + s.capacity ≤ 0xffff

/-- A buffer with a slot for `idx`, whose first number is the first of the stored ones and `idx`. -/
structure Roomy (s : PacketBuffer V) (m : Nat → Option V) (idx l : Nat) : Prop where
  tabled : Tabled s m
  first : s.first = idx ∨ m s.first ≠ none
  idx_lt : gap s.first idx < s.capacity
  window : gap s.first idx < 0x7fff ∧ gap s.first l < 0x7fff
  le : ∀ k, m k ≠ none → gap s.first k ≤ gap s.first l

theorem makeRoom_spec {l : Nat} (T : Tabled s m) (E : Ends s m l) (hi : idx < 65536) (hw : InWindow m idx)
    (hp : idx < s.first → compareLessWrap idx s.first 0xffff = false → 0xffff < s.first + s.capacity) :
    Roomy (s.makeRoom idx) m idx l := by
  obtain ⟨w, hw, hwin⟩ := hw
  have hf := T.first_lt
  have hl := T.bound l E.stored
  have hcap := T.le
  have hdl := T.near l E.stored
  have hwi := hwin idx (Or.inl rfl)
  have hwf := hwin s.first (Or.inr E.first)
  have hwl := hwin l (Or.inr E.stored)
  have hdl' : gap s.first l < 0x7fff := by
    unfold gap at *
    omega
  unfold makeRoom
  by_cases hlt : compareLessWrap idx s.first 0xffff = true
  · rw [if_pos hlt, sub32_and_ffff hi hf]
    rw [compareLessWrap_iff hi hf] at hlt
    have hfree := freeSpace_spec T E
    have hil : gap idx l = gap idx s.first + gap s.first l ∧ gap idx l < 0x7fff := by
      unfold gap at *
      omega
    -- seen from the index every stored number is as much farther as the first one is away
    have hfar : ∀ k, m k ≠ none → gap idx k = gap idx s.first + gap s.first k := by
      intro k hk
      have := T.bound k hk
      have := E.le k hk
      unfold gap at *
      omega
    have hroom : ∀ t : PacketBuffer V, Tabled t m → gap idx l < t.capacity → Roomy { t with first := idx } m idx l := by
      intro t hT hc
      have hle : ∀ k, m k ≠ none → gap idx k ≤ gap idx l := by
        intro k hk
        have := E.le k hk
        have := hfar k hk
        omega
      refine ⟨hT.move hi fun k hk => lt_of_le_of_lt (hle k hk) hc, Or.inl rfl, ?_, ⟨?_, hil.2⟩, hle⟩
      · rw [gap_self]
        exact hT.pos
      · rw [gap_self]
        decide
    generalize s.freeSpace s.capacity (sub32 s.first 1 &&& (s.capacity - 1)) = free at *
    dsimp only
    by_cases hgt : gap idx s.first > free
    · obtain ⟨hT, hsize, -⟩ := T.reserve (gap idx s.first + s.capacity - free) (by omega)
      rw [if_pos hgt]
      exact hroom _ hT (by omega)
    · rw [if_neg hgt]
      exact hroom s T (by omega)
  · have hlt' := (compareLessWrap_iff hi hf).not.mp hlt
    have hwid : gap s.first idx < 0x7fff := by
      unfold gap at *
      omega
    have hroom : ∀ t : PacketBuffer V, Tabled t m → t.first = s.first → gap s.first idx < t.capacity →
      Roomy t m idx l := by
      intro t hT he hc
      refine ⟨hT, Or.inr ?_, ?_, ?_, ?_⟩
      · rw [he]
        exact E.first
      · rw [he]
        exact hc
      · rw [he]
        exact ⟨hwid, hdl'⟩
      · rw [he]
        exact E.le
    rw [if_neg hlt]
    by_cases hge : idx ≥ s.first + s.capacity
    · rw [if_pos hge]
      have hd : gap s.first idx = idx - s.first := by
        unfold gap
        omega
      obtain ⟨hT, hsize, -⟩ := T.reserve (idx - s.first + 1) (by omega)
      exact hroom _ hT rfl (by omega)
    rw [if_neg hge]
    by_cases hwrap : idx < s.first
    · rw [if_pos hwrap, and_ffff]
      have hreach := hp hwrap (by simpa using hlt)
      have hd : gap s.first idx + s.first = idx + 65536 := by
        unfold gap
        omega
      by_cases hout : idx ≥ (s.first + s.capacity) % 65536 ∧ s.capacity < 0xffff
      · rw [if_pos hout]
        obtain ⟨hT, hsize, -⟩ := T.reserve (s.capacity + (idx + 1 - (s.first + s.capacity) % 65536)) (by omega)
        exact hroom _ hT rfl (by omega)
      · rw [if_neg hout]
        exact hroom s T rfl (by omega)
    · rw [if_neg hwrap]
      refine hroom s T rfl ?_
      unfold gap
      omega

theorem makeRoom_last (s : PacketBuffer V) (idx : Nat) : (s.makeRoom idx).last = s.last ∧
    (s.makeRoom idx).size = s.size := by
  unfold makeRoom
  dsimp only
  split_ifs <;> exact ⟨rfl, rfl⟩

theorem store_spec {l : Nat} (T : Tabled s m) (hi : idx < 65536) (hd : gap s.first idx < s.capacity)
    (hs : s.size = stored m) (hf : s.size = 0 → s.first = idx) (v : V) (E : Ends s (update m idx (some v)) l) :
    Valid (s.store idx v).1 (update m idx (some v)) ∧ (s.store idx v).2 = m idx := by
  have hT := T.write hi hd (some v)
  have hcell := T.cell_of_near hi hd
  have hcount := stored_update (m := m) hi (some v)
  have hfirst : (if s.size = 0 then
      { s with storage := s.storage.set (idx &&& (s.capacity - 1)) (some v), first := idx }
      else { s with storage := s.storage.set (idx &&& (s.capacity - 1)) (some v) }) =
        { s with storage := s.storage.set (idx &&& (s.capacity - 1)) (some v) } := by
    split
    · rename_i h
      rw [← hf h]
    · rfl
  unfold store
  dsimp only
  rw [hcell, hfirst]
  refine ⟨?_, rfl⟩
  cases hk : m idx with
  | none =>
    rw [hk] at hcount
    simp at hcount
    refine ⟨Or.inr ⟨hT.capacity, hT.length, hT.first_lt, hT.bound, hT.holds, hT.near⟩, ?_, fun _ =>
      ⟨l, E.first, E.stored, E.last, E.le⟩⟩
    change s.size + 1 = _
    omega
  | some =>
    rw [hk] at hcount
    simp at hcount
    refine ⟨Or.inr hT, ?_, fun _ => ⟨l, E.first, E.stored, E.last, E.le⟩⟩
    change s.size = _
    omega

theorem update_ne_none {v : V} (hk : m k ≠ none) : update m idx (some v) k ≠ none := by
  by_cases e : k = idx
  · rw [e, update_self]
    exact some_ne_none v
  · rw [update_of_ne e]
    exact hk

theorem Roomy.extendLast {l : Nat} (R : Roomy s m idx l) (hi : idx < 65536) (hl : m l ≠ none)
    (hlast : s.last = (l + 1) % 65536) (v : V) : ∃ l', Ends (s.extendLast idx) (update m idx (some v)) l' := by
  have hf := R.tabled.first_lt
  have hll := R.tabled.bound l hl
  obtain ⟨hwi, hwl⟩ := R.window
  have hidx : update m idx (some v) idx ≠ none := by
    rw [update_self]
    exact some_ne_none v
  have hfirst : update m idx (some v) s.first ≠ none := by
    rcases R.first with he | hne
    · rw [he]
      exact hidx
    · exact update_ne_none hne
  have hle : ∀ l', gap s.first idx ≤ gap s.first l' → gap s.first l ≤ gap s.first l' →
      ∀ k, update m idx (some v) k ≠ none → gap s.first k ≤ gap s.first l' := by
    intro l' h1 h2 k hk
    by_cases e : k = idx
    · rw [e]
      exact h1
    · rw [update_of_ne e] at hk
      exact le_trans (R.le k hk) h2
  have hless : compareLessWrap s.last ((idx + 1) &&& 0xffff) 0xffff = true ↔ gap s.first l < gap s.first idx := by
    rw [and_ffff, hlast, compareLessWrap_iff (mod_lt _ (by decide)) (mod_lt _ (by decide))]
    unfold gap at *
    omega
  unfold PacketBuffer.extendLast
  by_cases h : gap s.first l < gap s.first idx
  · rw [if_pos (hless.mpr h)]
    exact ⟨idx, hfirst, hidx, and_ffff _, hle idx (Nat.le_refl _) (le_of_lt h)⟩
  · rw [if_neg (mt hless.mp h)]
    exact ⟨l, hfirst, update_ne_none hl, hlast, hle l (Nat.le_of_not_lt h) (Nat.le_refl _)⟩

theorem extendLast_fields (s : PacketBuffer V) (idx : Nat) : (s.extendLast idx).first = s.first ∧
    (s.extendLast idx).capacity = s.capacity ∧ (s.extendLast idx).size = s.size := by
  unfold PacketBuffer.extendLast
  split <;> exact ⟨rfl, rfl, rfl⟩

theorem Tabled.extendLast (T : Tabled s m) (idx : Nat) : Tabled (s.extendLast idx) m := by
  unfold PacketBuffer.extendLast
  split
  · exact ⟨T.capacity, T.length, T.first_lt, T.bound, T.holds, T.near⟩
  · exact T

/-- **`insert`** puts the number into the map and answers its old value. -/
theorem insert_spec (h : Valid s m) (hi : idx < 65536) (hw : InWindow m idx) (hp : ¬ s.Overrun idx) (v : V) :
    Valid (s.insert idx (some v)).1 (update m idx (some v)) ∧ (s.insert idx (some v)).2 = m idx := by
  unfold insert
  dsimp only
  by_cases hs : s.size = 0
  · -- an empty buffer starts at the index
    have hm := h.eq_none hs
    rw [if_neg (not_not.mpr hs)]
    have hends : ∀ t : PacketBuffer V, t.first = idx → t.last = (idx + 1) &&& 0xffff →
        Ends t (update m idx (some v)) idx := by
      intro t hf hl
      have hidx : update m idx (some v) idx ≠ none := by
        rw [update_self]
        exact some_ne_none v
      refine ⟨hf ▸ hidx, hidx, hl.trans (and_ffff _), fun k hk => ?_⟩
      by_cases e : k = idx
      · rw [e]
      · rw [update_of_ne e] at hk
        exact absurd (hm k) hk
    have hready : ∀ t : PacketBuffer V, Tabled t m → t.first = idx → t.last = (idx + 1) &&& 0xffff → t.size = s.size →
        Valid (t.store idx v).1 (update m idx (some v)) ∧ (t.store idx v).2 = m idx := by
      intro t T hf hl ht
      refine store_spec T hi ?_ (ht.trans h.size) (fun _ => hf) v (hends t hf hl)
      rw [hf, gap_self]
      exact T.pos
    rcases h.table with ⟨hc, -, -, -⟩ | T
    · rw [if_pos (show (_ : PacketBuffer V).capacity = 0 from hc)]
      exact hready _ (tabled_reserve_empty hc hi hm) rfl rfl rfl
    · rw [if_neg (show ¬ (_ : PacketBuffer V).capacity = 0 from Nat.pos_iff_ne_zero.mp T.pos)]
      exact hready _ ⟨T.capacity, T.length, hi, T.bound, T.holds, fun k hk => absurd (hm k) hk⟩ rfl rfl rfl
  · rw [if_pos hs]
    obtain ⟨l, E⟩ := h.ends hs
    have R := makeRoom_spec (h.tabled hs) E hi hw fun h1 h2 => by
      by_contra hle
      exact hp ⟨hs, h1, h2, Nat.le_of_not_lt hle⟩
    obtain ⟨hlast, hsize⟩ := makeRoom_last s idx
    obtain ⟨l', E'⟩ := R.extendLast hi E.stored (hlast.trans E.last) v
    obtain ⟨hf, hc, hz⟩ := extendLast_fields (s.makeRoom idx) idx
    have T := R.tabled.extendLast idx
    rw [if_neg (Nat.pos_iff_ne_zero.mp T.pos)]
    refine store_spec T hi ?_ ?_ (fun he => absurd (hz.symm.trans he) (hsize ▸ hs)) v E'
    · rw [hf, hc]
      exact R.idx_lt
    · rw [hz, hsize, h.size]

/-! ## Runs -/

inductive Call (V : Type) where
  | insert (idx : Nat) (v : V)
  | remove (idx : Nat)
  | atIdx (idx : Nat)
  deriving DecidableEq, Repr

namespace Call

def index : Call V → Nat
  | .insert idx _ | .remove idx | .atIdx idx => idx

def run (s : PacketBuffer V) : Call V → PacketBuffer V × Option V
  | .insert idx v => s.insert idx (some v)
  | .remove idx => s.remove idx
  | .atIdx idx => (s, s.atIdx idx)

def apply (m : Nat → Option V) : Call V → Nat → Option V
  | .insert idx v => update m idx (some v)
  | .remove idx => update m idx none
  | .atIdx _ => m

theorem apply_of_ne (c : Call V) (m : Nat → Option V) (h : k ≠ c.index) : c.apply m k = m k := by
  cases c with
  | insert idx v | remove idx => exact update_of_ne h ..
  | atIdx => rfl

end Call

/-- A buffer beside the map that it should be. -/
structure Twin (V : Type) where
  buffer : PacketBuffer V
  map : Nat → Option V

namespace Twin

def new : Twin V := ⟨PacketBuffer.new, fun _ => none⟩

def step (t : Twin V) (c : Call V) : Twin V := ⟨(c.run t.buffer).1, c.apply t.map⟩

/-- The call has an index below `2 ^ 16` and within a window with the stored ones. -/
def Pre (t : Twin V) (c : Call V) : Prop := c.index ≤ 0xffff ∧ InWindow t.map c.index

/-- The call does not look into the slot of another number. -/
def Plain (t : Twin V) : Call V → Prop
  | .insert idx _ => ¬ t.buffer.Overrun idx
  | .remove idx | .atIdx idx => ¬ t.buffer.Aliased idx

def Answers (t : Twin V) (c : Call V) : Prop := (c.run t.buffer).2 = t.map c.index

instance (t : Twin V) (c : Call V) : Decidable (Plain t c) := by
  cases c <;> (dsimp only [Plain, Overrun, Aliased]; infer_instance)

instance [DecidableEq V] (t : Twin V) (c : Call V) : Decidable (Answers t c) :=
  inferInstanceAs (Decidable (_ = _))

/-- What the buffer shows between calls: the values under the stored indices, their number, the first of them, and the
distance to one past the last. -/
structure Agrees (t : Twin V) : Prop where
  atIdx : ∀ k, t.map k ≠ none → t.buffer.atIdx k = t.map k
  size : t.buffer.size = stored t.map
  ends : stored t.map ≠ 0 → t.map t.buffer.cursor ≠ none ∧ ∃ l, t.map l ≠ none ∧
    t.buffer.span = gap t.buffer.cursor l + 1 ∧
      ∀ k, t.map k ≠ none → gap t.buffer.cursor k ≤ gap t.buffer.cursor l ∧ gap t.buffer.cursor k < 0x8000

theorem step_spec {t : Twin V} {c : Call V} (h : Valid t.buffer t.map) (hp : Pre t c) (hc : Plain t c) :
    Valid (t.step c).buffer (t.step c).map ∧ Answers t c := by
  have hi : c.index < 65536 := lt_succ_of_le hp.1
  cases c with
  | insert idx v => exact insert_spec h hi hp.2 hc v
  | remove => exact remove_spec h hi hc
  | atIdx => exact ⟨h, atIdx_eq h hi hc⟩

theorem agrees_of_valid {t : Twin V} (h : Valid t.buffer t.map) : Agrees t := by
  refine ⟨fun k hk => atIdx_eq h (h.bound k hk) (not_aliased_of_stored h hk), h.size, fun hs => ?_⟩
  rw [← h.size] at hs
  have T := h.tabled hs
  obtain ⟨l, E⟩ := h.ends hs
  refine ⟨E.first, l, E.stored, ?_, fun k hk => ⟨E.le k hk, lt_of_lt_of_le (T.near k hk) T.le⟩⟩
  have hf := T.first_lt
  have hl := T.near l E.stored
  have hle := T.le
  have hll := T.bound l E.stored
  unfold span cursor
  rw [E.last, sub32_and_ffff hf (mod_lt _ (by decide))]
  unfold gap at *
  omega

/-- **The packet buffer.** Along every run of calls within a window that do not look into the slot of another number,
the buffer answers every call as a map does, and shows the map between the calls. -/
theorem packet_buffer_refines (calls : List (Call V)) (hl : Legal step Pre new calls)
    (hc : Legal step Plain new calls) :
    Legal step Answers new calls ∧ Always step Agrees new calls := by
  have hstep : ∀ (t : Twin V) c, Valid t.buffer t.map → Pre t c ∧ Plain t c → Valid (t.step c).buffer (t.step c).map :=
    fun t c h hp => (step_spec h hp.1 hp.2).1
  have hboth := hl.and hc
  exact ⟨hboth.strengthen hstep (fun t c h hp => (step_spec h hp.1 hp.2).2) valid_new,
    (always_of_step hstep valid_new hboth).mono fun t => agrees_of_valid⟩

theorem legal_of_window {w : Nat} (hw : w < 65536) : ∀ {calls : List (Call V)} {t : Twin V},
    (∀ c ∈ calls, c.index ≤ 0xffff ∧ gap w c.index < 0x7fff) → (∀ k, t.map k ≠ none → gap w k < 0x7fff) →
      Legal step Pre t calls
  | [], _, _, _ => trivial
  | c :: calls, t, hc, ht => by
    have hi := hc c List.mem_cons_self
    refine ⟨⟨hi.1, w, hw, fun k hk => ?_⟩,
      legal_of_window hw (fun c' h => hc c' (List.mem_cons_of_mem c h)) fun k hk => ?_⟩
    · rcases hk with rfl | hk
      · exact hi.2
      · exact ht k hk
    by_cases e : k = c.index
    · rw [e]
      exact hi.2
    · exact ht k (c.apply_of_ne t.map e ▸ hk)

/-- Two numbers around the wrap, the later one first. -/
def wrapRun : List (Call Nat) := [.insert 2 20, .insert 0xfff9 10, .atIdx 2, .remove 0xfff9]

theorem packet_buffer_refines_wrapRun : Legal step Answers new wrapRun ∧ Always step Agrees new wrapRun :=
  packet_buffer_refines wrapRun
    (legal_of_window (w := 0xfff9) (by decide) (by decide) fun _ h => absurd rfl h) (by decide +kernel)

/-- `at(0)` finds the value of `0xfff0`, which has the same slot. -/
theorem at_finds_other_number : ∃ calls : List (Call Nat), Legal step Pre new calls ∧ ¬ Legal step Answers new calls :=
  ⟨[.insert 0xfff0 1, .atIdx 0], legal_of_window (w := 0xfff0) (by decide) (by decide) fun _ h => absurd rfl h,
    by decide +kernel⟩

end Twin

end PacketBuffer

end Libtorrent.Utp
