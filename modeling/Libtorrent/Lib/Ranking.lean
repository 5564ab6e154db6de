import Libtorrent.Lib.Vec
import Mathlib.Data.List.Perm.Basic

/-!
# Ranks in a list

The rank of an element is its position in a list, `-1` if it is not there. How ranks change when an element leaves the
list (`rank_erase`), when one is put in (`rank_insertIdx`), and when one is moved (`place`).
-/

namespace Libtorrent.Ranking

open List Nat Vec

variable {α : Type} [DecidableEq α] {q : List α} {x y t a : α}

def rank (q : List α) (x : α) : Int := if x ∈ q then (q.idxOf x : Int) else -1

theorem rank_of_notMem (h : x ∉ q) : rank q x = -1 := if_neg h

theorem rank_cons_self (a : α) (q : List α) : rank (a :: q) a = 0 := by
  rw [rank, if_pos mem_cons_self, idxOf_cons_self]
  rfl

theorem rank_cons_of_ne (h : x ≠ a) : rank (a :: q) x = if x ∈ q then rank q x + 1 else -1 := by
  unfold rank
  by_cases hx : x ∈ q
  · rw [if_pos (mem_cons_of_mem a hx), if_pos hx, if_pos hx, idxOf_cons_ne q (Ne.symm h)]
    rfl
  · rw [if_neg hx, if_neg (by simp [h, hx])]

theorem rank_lt_length (q : List α) (x : α) : rank q x < q.length := by
  unfold rank
  split_ifs with h
  · exact Int.ofNat_lt.mpr (idxOf_lt_length_of_mem h)
  · omega

theorem rank_nonneg_iff : 0 ≤ rank q x ↔ x ∈ q := by
  unfold rank
  split_ifs with h
  · exact ⟨fun _ => h, fun _ => Int.natCast_nonneg _⟩
  · exact ⟨fun hn => absurd hn (by decide), fun hx => absurd hx h⟩

theorem neg_one_le_rank (q : List α) (x : α) : -1 ≤ rank q x := by
  unfold rank
  split
  · omega
  · exact Int.le_refl _

theorem rank_inj (hx : x ∈ q) (h : rank q x = rank q y) : x = y := by
  have hy : y ∈ q := rank_nonneg_iff.mp (h ▸ rank_nonneg_iff.mpr hx)
  rw [rank, rank, if_pos hx, if_pos hy] at h
  exact (idxOf_inj hx).mp (Int.ofNat_inj.mp h)

theorem exists_rank (hq : q.Nodup) {i : Nat} (hi : i < q.length) : ∃ x ∈ q, rank q x = i := by
  refine ⟨q[i], getElem_mem hi, ?_⟩
  rw [rank, if_pos (getElem_mem hi), hq.idxOf_getElem i hi]

theorem rank_append (l r : List α) (x : α) :
    rank (l ++ r) x = if x ∈ l then rank l x else if x ∈ r then l.length + rank r x else -1 := by
  unfold rank
  by_cases hl : x ∈ l
  · rw [if_pos (mem_append_left r hl), if_pos hl, if_pos hl, idxOf_append_of_mem hl]
  by_cases hr : x ∈ r
  · rw [if_pos (mem_append_right l hr), if_neg hl, if_pos hr, if_pos hr, idxOf_append_of_notMem hl]
    rfl
  · rw [if_neg (by simp [hl, hr]), if_neg hl, if_neg hr]

theorem rank_middle {l : List α} (h : t ∉ l) (r : List α) : rank (l ++ t :: r) t = l.length := by
  rw [rank_append, if_neg h, if_pos mem_cons_self, rank_cons_self, Int.add_zero]

theorem rank_middle_of_ne (hx : x ≠ t) (l r : List α) :
    rank (l ++ t :: r) x = if l.length ≤ rank (l ++ r) x then rank (l ++ r) x + 1 else rank (l ++ r) x := by
  have hmem : x ∈ t :: r ↔ x ∈ r := by simp [hx]
  simp only [rank_append, rank_cons_of_ne hx, hmem]
  by_cases hl : x ∈ l
  · have := rank_lt_length l x
    rw [if_pos hl, if_pos hl, if_neg (by omega)]
  by_cases hr : x ∈ r
  · have := rank_nonneg_iff.mpr hr
    simp only [hl, hr, if_true, if_false]
    rw [if_pos (by omega)]
    omega
  · simp only [hl, hr, if_false]
    rw [if_neg (by omega)]

theorem rank_append_of_ne (h : x ≠ a) : rank (q ++ [a]) x = rank q x := by
  have := rank_lt_length q x
  rw [rank_middle_of_ne h, append_nil, if_neg (by omega)]

theorem rank_erase (q : List α) (hx : x ≠ t) :
    rank (q.erase t) x = if t ∈ q ∧ rank q t < rank q x then rank q x - 1 else rank q x := by
  by_cases ht : t ∈ q
  · obtain ⟨l, r, hl, rfl, he⟩ := exists_erase_eq ht
    rw [he, rank_middle hl, rank_middle_of_ne hx]
    simp only [ht, true_and]
    split
    · rw [if_pos (by omega)]
      omega
    · rw [if_neg (by omega)]
  · rw [erase_of_not_mem ht, if_neg fun h => ht h.1]

theorem rank_insertIdx (hx : x ≠ t) {i : Nat} (hi : i ≤ q.length) :
    rank (q.insertIdx i t) x = if (i : Int) ≤ rank q x then rank q x + 1 else rank q x := by
  obtain ⟨l, r, rfl, rfl, he⟩ := exists_insertIdx hi t
  rw [he, rank_middle_of_ne hx]

theorem rank_insertIdx_self {i : Nat} (ht : t ∉ q) (hi : i ≤ q.length) : rank (q.insertIdx i t) t = i := by
  obtain ⟨l, r, rfl, rfl, he⟩ := exists_insertIdx hi t
  rw [he, rank_middle fun h => ht (mem_append_left r h)]

/-! ## Moving an element -/

/-- The list after an element has been put at position `p`, or taken out if `p` is negative. -/
def place (q : List α) (t : α) (p : Int) : List α :=
  if p < 0 then q.erase t else (q.erase t).insertIdx (min p.toNat (q.erase t).length) t

variable {p : Int}

theorem place_perm (hp : 0 ≤ p) (q : List α) (t : α) : (place q t p).Perm (t :: q.erase t) := by
  rw [place, if_neg (Int.not_lt.mpr hp)]
  exact perm_insertIdx _ _ (Nat.min_le_right _ _)

theorem nodup_place (hq : q.Nodup) (t : α) (p : Int) : (place q t p).Nodup := by
  by_cases hp : p < 0
  · rw [place, if_pos hp]
    exact hq.erase t
  · refine (place_perm (Int.not_lt.mp hp) q t).nodup_iff.mpr (nodup_cons.mpr ⟨?_, hq.erase t⟩)
    exact hq.not_mem_erase

theorem mem_place_of_ne (hx : x ≠ t) : x ∈ place q t p ↔ x ∈ q := by
  by_cases hp : p < 0
  · rw [place, if_pos hp, mem_erase_of_ne hx]
  · rw [(place_perm (Int.not_lt.mp hp) q t).mem_iff, mem_cons, mem_erase_of_ne hx]
    simp [hx]

theorem length_erase_eq (q : List α) (t : α) :
    ((q.erase t).length : Int) = if t ∈ q then (q.length : Int) - 1 else q.length := by
  split_ifs with ht
  · have := length_pos_of_mem ht
    rw [length_erase_of_mem ht]
    omega
  · rw [erase_of_not_mem ht]

theorem rank_place_self (hq : q.Nodup) (hp : 0 ≤ p) :
    rank (place q t p) t = min p (if t ∈ q then (q.length : Int) - 1 else q.length) := by
  rw [place, if_neg (Int.not_lt.mpr hp), rank_insertIdx_self hq.not_mem_erase (Nat.min_le_right _ _), ← length_erase_eq]
  omega

theorem rank_place_of_ne (hp : 0 ≤ p) (hx : x ≠ t) : rank (place q t p) x =
      if min p (if t ∈ q then (q.length : Int) - 1 else q.length) ≤ rank (q.erase t) x then rank (q.erase t) x + 1
      else rank (q.erase t) x := by
  rw [place, if_neg (Int.not_lt.mpr hp), rank_insertIdx hx (Nat.min_le_right _ _), ← length_erase_eq]
  congr 1
  rw [eq_iff_iff]
  omega

theorem length_place (hp : 0 ≤ p) : (place q t p).length = (q.erase t).length + 1 := by
  rw [place, if_neg (Int.not_lt.mpr hp), length_insertIdx_of_le_length (Nat.min_le_right _ _)]

theorem rank_place_self_eq_min (hq : q.Nodup) (hp : 0 ≤ p) :
    rank (place q t p) t = min p ((place q t p).length - 1) := by
  rw [rank_place_self hq hp, ← length_erase_eq, length_place hp]
  omega

theorem erase_place (hq : q.Nodup) (t : α) (p : Int) : (place q t p).erase t = q.erase t := by
  unfold place
  split
  · exact erase_of_not_mem hq.not_mem_erase
  obtain ⟨l, r, hlr, -, he⟩ := exists_insertIdx (Nat.min_le_right p.toNat (q.erase t).length) t
  have hnot := hq.not_mem_erase (a := t)
  rw [hlr] at hnot
  rw [he, hlr, erase_append_right _ fun h => hnot (mem_append_left r h), erase_cons_head]

theorem rank_erase_lt_iff (hx : x ≠ t) (hy : y ≠ t) (hxq : x ∈ q) (hyq : y ∈ q) :
    rank (q.erase t) x < rank (q.erase t) y ↔ rank q x < rank q y := by
  have hxt : rank q x ≠ rank q t := fun h => hx (rank_inj hxq h)
  have hyt : rank q y ≠ rank q t := fun h => hy (rank_inj hyq h)
  rw [rank_erase q hx, rank_erase q hy]
  by_cases ht : t ∈ q
  · simp only [ht, true_and]
    split <;> split <;> omega
  · simp only [ht, false_and, if_false]

theorem map_rank (hq : q.Nodup) : q.map (rank q) = (List.range q.length).map Int.ofNat := by
  apply ext_getElem
  · simp
  intro i hi _
  have hiq : i < q.length := by simpa using hi
  rw [getElem_map, getElem_map, getElem_range, rank, if_pos (getElem_mem hiq), hq.idxOf_getElem i hiq]
  rfl

end Libtorrent.Ranking
