import Libtorrent.Lib.Vec
import Mathlib.Data.Fintype.EquivFin

/-!
# Slabs: a sorted directory of equally long rows of one array

The entries `ds` are sorted by `key`; each owns the `w` cells from `base` on, and together they own the first
`ds.length` rows of an array with `room` cells (`Slab`). A new entry takes the row behind all others (`Slab.insert`);
when an entry goes, the owner of the last row moves into the row that becomes free (`Slab.erase`).
-/

namespace Libtorrent

open List Nat

variable {ε : Type} [Inhabited ε]

/-- The directory owns rows of its own among the first `ds.length`. -/
structure Slab (key base : ε → Nat) (w : Nat) (ds : List ε) (room : Nat) : Prop where
  sorted : ∀ i j, i < j → j < ds.length → key (ds.getD i default) < key (ds.getD j default)
  row : ∀ i < ds.length, ∃ k < ds.length, base (ds.getD i default) = k * w
  distinct : ∀ i < ds.length, ∀ j < ds.length, base (ds.getD i default) = base (ds.getD j default) → i = j
  room : ds.length * w ≤ room

namespace Slab

variable {key base : ε → Nat} {w room : Nat} {ds : List ε}

theorem nil (key base : ε → Nat) (w room : Nat) : Slab key base w [] room where
  sorted := fun _ _ _ hj => absurd hj (not_lt_zero _)
  row := fun _ hi => absurd hi (not_lt_zero _)
  distinct := fun _ hi => absurd hi (not_lt_zero _)
  room := by simp

section

variable (S : Slab key base w ds room)
include S

variable {i j k a : Nat}

theorem position_unique (hi : i < ds.length) (hj : j < ds.length)
    (h : key (ds.getD i default) = key (ds.getD j default)) : i = j := by
  rcases lt_trichotomy i j with hlt | heq | hgt
  · have := S.sorted i j hlt hj
    omega
  · exact heq
  · have := S.sorted j i hgt hi
    omega

/-- The lower bound of `k`: smaller keys are before it, other keys are not. -/
theorem lowerBound_spec (h : (ds.findIdx fun d => decide (k ≤ key d)) = i) :
    i ≤ ds.length ∧ (∀ j < i, key (ds.getD j default) < k) ∧
      ∀ j, i ≤ j → j < ds.length → k ≤ key (ds.getD j default) := by
  have hget : ∀ j (hj : j < ds.length), ds.getD j default = ds[j] := fun j hj => by
    rw [getD_eq_getElem?_getD, getElem?_eq_getElem hj]
    rfl
  have hle : i ≤ ds.length := h ▸ findIdx_le_length
  refine ⟨hle, fun j hj => ?_, fun j hj hlen => ?_⟩
  · have := not_of_lt_findIdx (h ▸ hj)
    rw [hget j (by omega)]
    simpa using this
  have hi : k ≤ key (ds.getD i default) := by
    rw [hget i (by omega)]
    subst h
    have hlt : (ds.findIdx fun d => decide (k ≤ key d)) < ds.length := by omega
    have := findIdx_getElem (w := hlt)
    simpa using this
  rcases eq_or_lt_of_le hj with rfl | hlt
  · exact hi
  · exact le_of_lt (lt_of_le_of_lt hi (S.sorted i j hlt hlen))

theorem find_iff : ((ds.findIdx fun d => decide (k ≤ key d)) = i ∧ i < ds.length ∧ key (ds.getD i default) = k) ↔
      i < ds.length ∧ key (ds.getD i default) = k := by
  refine ⟨fun h => h.2, fun h => ⟨?_, h⟩⟩
  obtain ⟨h1, h2, h3⟩ := S.lowerBound_spec rfl
  generalize (ds.findIdx fun d => decide (k ≤ key d)) = m at *
  by_contra hne
  rcases lt_or_gt_of_ne hne with hlt | hgt
  · have h4 := h3 m (le_refl m) (by omega)
    have h5 := S.sorted m i hlt h.1
    omega
  · have h4 := h2 i hgt
    omega

theorem disjoint {b : Nat} (hi : i < ds.length) (hj : j < ds.length) (hne : i ≠ j)
    (ha : a < w) (hb : b < w) : base (ds.getD i default) + a ≠ base (ds.getD j default) + b := by
  obtain ⟨k, -, hk⟩ := S.row i hi
  obtain ⟨l, -, hl⟩ := S.row j hj
  have hkl : k ≠ l := fun e => hne (S.distinct i hi j hj (by rw [hk, hl, e]))
  rw [hk, hl]
  intro he
  rcases lt_or_gt_of_ne hkl with h | h
  · have := Nat.mul_le_mul_right w (show k + 1 ≤ l from h)
    rw [Nat.add_mul] at this
    omega
  · have := Nat.mul_le_mul_right w (show l + 1 ≤ k from h)
    rw [Nat.add_mul] at this
    omega

theorem cell_lt (hi : i < ds.length) (ha : a < w) : base (ds.getD i default) + a < ds.length * w := by
  obtain ⟨k, hk, he⟩ := S.row i hi
  have := Nat.mul_le_mul_right w (show k + 1 ≤ ds.length from hk)
  rw [Nat.add_mul] at this
  omega

/-- **Every row is owned**: the rows are a permutation of the first `ds.length`. -/
theorem exists_row (hk : k < ds.length) : ∃ i < ds.length, base (ds.getD i default) = k * w := by
  -- an injection of a finite set into itself is onto
  have hrow : ∀ i : Fin ds.length, ∃ l : Fin ds.length, base (ds.getD i default) = l * w := fun i => by
    obtain ⟨l, hl, he⟩ := S.row i i.2
    exact ⟨⟨l, hl⟩, he⟩
  choose f hf using hrow
  have hinj : Function.Injective f := fun i j h => by
    have : base (ds.getD i default) = base (ds.getD j default) := by rw [hf, hf, h]
    exact Fin.ext (S.distinct i i.2 j j.2 this)
  obtain ⟨i, hi⟩ := Finite.injective_iff_surjective.mp hinj ⟨k, hk⟩
  refine ⟨i, i.2, ?_⟩
  rw [hf, hi]

theorem insert {room' : Nat} {d : ε} (hi : (ds.findIdx fun d => decide (k ≤ key d)) = i)
    (hk : ∀ j < ds.length, key (ds.getD j default) ≠ k) (hd : key d = k) (hb : base d = ds.length * w)
    (hr : (ds.length + 1) * w ≤ room') (hw : 0 < w) : Slab key base w (ds.insertIdx i d) room' := by
  obtain ⟨hle, hlt, hge⟩ := S.lowerBound_spec hi
  have hlen : (ds.insertIdx i d).length = ds.length + 1 := length_insertIdx_of_le_length hle d
  have hget := Vec.getD_insertIdx ds hle d default
  have hfresh : ∀ j < ds.length, base (ds.getD j default) ≠ ds.length * w := by
    intro j hj he
    have := S.cell_lt hj hw
    omega
  refine ⟨fun a b hab hb' => ?_, fun a ha => ?_, fun a ha b hb' h => ?_, by rw [hlen]; exact hr⟩
  · rw [hlen] at hb'
    rw [hget, hget]
    rcases lt_trichotomy b i with h1 | h1 | h1
    · rw [if_pos (by omega), if_pos h1]
      exact S.sorted a b hab (by omega)
    · rw [if_pos (by omega), if_neg (by omega), if_pos h1, hd]
      exact hlt a (by omega)
    rw [if_neg (c := b < i) (by omega), if_neg (c := b = i) (by omega)]
    rcases lt_trichotomy a i with h2 | h2 | h2
    · rw [if_pos h2]
      exact S.sorted a (b - 1) (by omega) (by omega)
    · rw [if_neg (by omega), if_pos h2, hd]
      have h3 := hge (b - 1) (by omega) (by omega)
      have h4 := hk (b - 1) (by omega)
      omega
    · rw [if_neg (by omega), if_neg (by omega)]
      exact S.sorted (a - 1) (b - 1) (by omega) (by omega)
  · rw [hlen] at ha ⊢
    rw [hget]
    split_ifs with h1 h2
    · obtain ⟨l, hl, he⟩ := S.row a (by omega)
      exact ⟨l, by omega, he⟩
    · exact ⟨ds.length, by omega, hb⟩
    · obtain ⟨l, hl, he⟩ := S.row (a - 1) (by omega)
      exact ⟨l, by omega, he⟩
  · rw [hlen] at ha hb'
    rw [hget, hget] at h
    by_cases ea : a = i
    · by_cases eb : b = i
      · omega
      · exfalso
        rw [if_neg (by omega), if_pos ea, hb] at h
        split_ifs at h
        · exact hfresh b (by omega) h.symm
        · exact hfresh (b - 1) (by omega) h.symm
    by_cases eb : b = i
    · exfalso
      rw [if_neg (c := b < i) (by omega), if_pos eb, hb] at h
      split_ifs at h
      · exact hfresh a (by omega) h
      · exact hfresh (a - 1) (by omega) h
    split_ifs at h
    · exact S.distinct a (by omega) b (by omega) h
    · have := S.distinct a (by omega) (b - 1) (by omega) h
      omega
    · have := S.distinct (a - 1) (by omega) b (by omega) h
      omega
    · have := S.distinct (a - 1) (by omega) (b - 1) (by omega) h
      omega

end

/-- The position that the entry at `j` had before the one at `i` was removed. -/
def skip (i j : Nat) : Nat := if j < i then j else j + 1

theorem skip_ne (i j : Nat) : skip i j ≠ i := by
  unfold skip
  split <;> omega

variable {i j n : Nat} {ds' : List ε}

theorem skip_lt (hj : j + 1 < n) : skip i j < n := by
  unfold skip
  split <;> omega

theorem skip_mono {a b : Nat} (h : a < b) : skip i a < skip i b := by
  unfold skip
  split <;> split <;> omega

theorem exists_skip (hj : j < n) (hi : i < n) (hne : j ≠ i) : ∃ k, k + 1 < n ∧ skip i k = j := by
  by_cases h : j < i
  · exact ⟨j, by omega, if_pos h⟩
  · exact ⟨j - 1, by omega, by unfold skip; rw [if_neg (by omega)]; omega⟩

/-- The entry at `i` goes and the owner `o` of the last row moves into its row. -/
theorem erase (S : Slab key base w ds room) {o : Nat} (hi : i < ds.length) (ho : o < ds.length)
    (hlast : base (ds.getD o default) = (ds.length - 1) * w) (hlen : ds'.length + 1 = ds.length)
    (hkey : ∀ j < ds'.length, key (ds'.getD j default) = key (ds.getD (skip i j) default))
    (hbase : ∀ j < ds'.length, base (ds'.getD j default) =
      if skip i j = o then base (ds.getD i default) else base (ds.getD (skip i j) default)) :
    Slab key base w ds' room := by
  -- an entry other than `o` is not in the last row
  have hrow : ∀ j < ds.length, j ≠ o → ∃ k < ds'.length, base (ds.getD j default) = k * w := by
    intro j hj hne
    obtain ⟨k, hk, he⟩ := S.row j hj
    refine ⟨k, ?_, he⟩
    by_contra hlt
    have hk' : k = ds.length - 1 := by omega
    exact hne (S.distinct j hj o ho (by rw [he, hlast, hk']))
  refine ⟨fun a b hab hb => ?_, fun a ha => ?_, fun a ha b hb h => ?_, ?_⟩
  · rw [hkey a (by omega), hkey b hb]
    exact S.sorted _ _ (skip_mono hab) (skip_lt (by omega))
  · rw [hbase a ha]
    split_ifs with e
    · exact hrow i hi fun h => skip_ne i a (e.trans h.symm)
    · exact hrow _ (skip_lt (by omega)) e
  · rw [hbase a ha, hbase b hb] at h
    have hla : skip i a < ds.length := skip_lt (by omega)
    have hlb : skip i b < ds.length := skip_lt (by omega)
    have hsame : skip i a = skip i b := by
      split_ifs at h with h1 h2 h2
      · rw [h1, h2]
      · exact absurd (S.distinct _ hi _ hlb h).symm (skip_ne i b)
      · exact absurd (S.distinct _ hla _ hi h) (skip_ne i a)
      · exact S.distinct _ hla _ hlb h
    rcases lt_trichotomy a b with hlt | heq | hgt
    · have := skip_mono (i := i) hlt
      omega
    · exact heq
    · have := skip_mono (i := i) hgt
      omega
  · have := S.room
    exact le_trans (Nat.mul_le_mul_right w (by omega)) this

theorem congr (S : Slab key base w ds room) {room' : Nat} (hlen : ds'.length = ds.length)
    (hkey : ∀ j, key (ds'.getD j default) = key (ds.getD j default))
    (hbase : ∀ j, base (ds'.getD j default) = base (ds.getD j default)) (hr : room ≤ room') :
    Slab key base w ds' room' where
  sorted := fun i j hij hj => by rw [hkey, hkey]; exact S.sorted i j hij (by omega)
  row := fun i hi => by rw [hbase, hlen]; exact S.row i (by omega)
  distinct := fun i hi j hj h => by rw [hbase, hbase] at h; exact S.distinct i (by omega) j (by omega) h
  room := by rw [hlen]; exact le_trans S.room hr

end Slab

end Libtorrent
