import Mathlib.Data.List.GetD
import Mathlib.Data.List.Basic

/-!
# Lists as vectors

A `std::vector` is a list; `v[i]` is `getD` with a default that is only read out of range. The lemmas below say what
an element access sees after a write, an append, an insertion, a removal and a `resize`.
-/

namespace Libtorrent.Vec

open List

variable {α : Type}

def resize (l : List α) (n : Nat) (x : α) : List α := l.take n ++ List.replicate (n - l.length) x

def update (l : List α) (i : Nat) (f : α → α) : List α := l.modify i f

def fill (l : List α) (lo hi : Nat) (f : Nat → α) : List α := l.mapIdx fun k x => if lo ≤ k ∧ k < hi then f k else x

section

variable (l : List α)
include l

@[simp] theorem length_fill (lo hi : Nat) (f : Nat → α) : (fill l lo hi f).length = l.length := by
  simp [fill]

@[simp] theorem length_resize (n : Nat) (x : α) : (resize l n x).length = n := by
  simp only [resize, length_append, length_take, length_replicate]
  omega

@[simp] theorem length_update (i : Nat) (f : α → α) : (update l i f).length = l.length := by
  simp [update]

theorem getD_set (i j : Nat) (a d : α) : (l.set i a).getD j d = if i = j ∧ j < l.length then a else l.getD j d := by
  by_cases h : i = j
  · subst h
    by_cases hi : i < l.length
    · simp [hi]
    · simp [hi]
  · simp [h]

theorem getD_update (i j : Nat) (f : α → α) (d : α) :
    (update l i f).getD j d = if i = j ∧ j < l.length then f (l.getD j d) else l.getD j d := by
  simp only [update, getD_eq_getElem?_getD, List.getElem?_modify]
  by_cases h : i = j
  · subst h
    by_cases hi : i < l.length
    · simp [hi]
    · simp [hi]
  · simp [h]

theorem getD_map (f : α → α) (d : α) (j : Nat) :
    (l.map f).getD j d = if j < l.length then f (l.getD j d) else l.getD j d := by
  by_cases h : j < l.length <;> simp [h]

theorem getD_mapIdx (f : Nat → α → α) (d : α) (j : Nat) :
    (l.mapIdx f).getD j d = if j < l.length then f j (l.getD j d) else l.getD j d := by
  by_cases h : j < l.length <;> simp [h]

theorem getD_fill (lo hi : Nat) (f : Nat → α) (j : Nat) (d : α) :
    (fill l lo hi f).getD j d = if (lo ≤ j ∧ j < hi) ∧ j < l.length then f j else l.getD j d := by
  rw [fill, getD_mapIdx]
  by_cases hj : j < l.length
  · by_cases h : lo ≤ j ∧ j < hi <;> simp [hj, h]
  · simp [hj]

theorem getD_concat (a d : α) (j : Nat) :
    (l ++ [a]).getD j d = if j < l.length then l.getD j d else if j = l.length then a else d := by
  simp only [getD_eq_getElem?_getD, List.getElem?_append]
  split
  · rfl
  by_cases hj : j = l.length
  · simp [hj]
  · have : [a][j - l.length]? = none := List.getElem?_eq_none (by simp; omega)
    simp [hj, this]

theorem getD_dropLast (d : α) (j : Nat) : l.dropLast.getD j d = if j < l.length - 1 then l.getD j d else d := by
  simp only [getD_eq_getElem?_getD, List.getElem?_dropLast]
  split <;> rfl

theorem getD_resize (n j : Nat) (x d : α) :
    (resize l n x).getD j d = if j < n then (if j < l.length then l.getD j d else x) else d := by
  simp only [resize, getD_eq_getElem?_getD, List.getElem?_append, List.getElem?_take, List.getElem?_replicate,
    length_take]
  split_ifs <;> first | omega | rfl

theorem getD_insertIdx {i : Nat} (hi : i ≤ l.length) (a d : α) (j : Nat) :
    (l.insertIdx i a).getD j d = if j < i then l.getD j d else if j = i then a else l.getD (j - 1) d := by
  simp only [getD_eq_getElem?_getD, List.getElem?_insertIdx]
  split_ifs <;> first | omega | rfl

theorem getD_eraseIdx (i : Nat) (d : α) (j : Nat) :
    (l.eraseIdx i).getD j d = if j < i then l.getD j d else l.getD (j + 1) d := by
  simp only [getD_eq_getElem?_getD, List.getElem?_eraseIdx]
  split_ifs <;> rfl

theorem getD_of_le {j : Nat} (h : l.length ≤ j) (d : α) : l.getD j d = d := by
  rw [getD_eq_getElem?_getD, List.getElem?_eq_none h]
  rfl

end

theorem findIdx_append {p : α → Bool} {l2 : List α} (h2 : ∀ x ∈ l2.head?, p x = true) :
    ∀ {l1 : List α}, (∀ x ∈ l1, p x = false) → (l1 ++ l2).findIdx p = l1.length
  | [], _ => by
    cases l2 with
    | nil => rfl
    | cons x l2 => simp [findIdx_cons, h2 x rfl]
  | x :: l1, h1 => by
    have ih := findIdx_append h2 fun y hy => h1 y (mem_cons_of_mem x hy)
    rw [cons_append, findIdx_cons, h1 x mem_cons_self, ih]
    rfl

theorem getD_append_length (l1 l2 : List α) (x d : α) : (l1 ++ x :: l2).getD l1.length d = x := by
  simp [getD_eq_getElem?_getD]

theorem insertIdx_append_length (l2 : List α) (a : α) : ∀ l1 : List α, (l1 ++ l2).insertIdx l1.length a = l1 ++ a :: l2
  | [] => by simp
  | x :: l1 => by
    rw [cons_append, length_cons, insertIdx_succ_cons, insertIdx_append_length l2 a l1]
    rfl

theorem exists_insertIdx {l : List α} {i : Nat} (hi : i ≤ l.length) (a : α) :
    ∃ l1 l2, l = l1 ++ l2 ∧ l1.length = i ∧ l.insertIdx i a = l1 ++ a :: l2 := by
  have hlen : (l.take i).length = i := length_take_of_le hi
  have := insertIdx_append_length (l.drop i) a (l.take i)
  rw [take_append_drop, hlen] at this
  exact ⟨_, _, (take_append_drop i l).symm, hlen, this⟩

theorem eraseIdx_append_length (l1 l2 : List α) (x : α) : (l1 ++ x :: l2).eraseIdx l1.length = l1 ++ l2 := by
  rw [eraseIdx_append_of_length_le (Nat.le_refl _), Nat.sub_self]
  rfl

theorem set_append_length (l1 l2 : List α) (x y : α) : (l1 ++ x :: l2).set l1.length y = l1 ++ y :: l2 := by
  simp

theorem set_getD_self (l : List α) (i : Nat) (d : α) : l.set i (l.getD i d) = l := by
  by_cases h : i < l.length
  · rw [getD_eq_getElem _ _ h, set_getElem_self]
  · exact set_eq_of_length_le (Nat.le_of_not_lt h)

section Writes

variable (f : Nat → Nat) (g : Nat → α) (l : List α) (d : α)

@[simp] theorem length_foldl_set : ∀ n : Nat, ((List.range n).foldl (fun l i => l.set (f i) (g i)) l).length = l.length
  | 0 => rfl
  | n + 1 => by
    rw [range_succ, foldl_concat, length_set, length_foldl_set n]

theorem getD_foldl_set_of_ne {j : Nat} : ∀ {n : Nat}, (∀ i < n, f i ≠ j) →
    ((List.range n).foldl (fun l i => l.set (f i) (g i)) l).getD j d = l.getD j d
  | 0, _ => rfl
  | n + 1, h => by
    rw [range_succ, foldl_concat, getD_set, if_neg fun e => h n (Nat.lt_succ_self n) e.1]
    exact getD_foldl_set_of_ne fun i hi => h i (Nat.lt_succ_of_lt hi)

theorem getD_foldl_set {i : Nat} (hl : f i < l.length) : ∀ {n : Nat}, i < n → (∀ k < n, f k = f i → k = i) →
    ((List.range n).foldl (fun l i => l.set (f i) (g i)) l).getD (f i) d = g i
  | 0, hi, _ => by omega
  | n + 1, hi, h => by
    rw [range_succ, foldl_concat, getD_set, length_foldl_set]
    by_cases e : f n = f i
    · rw [if_pos ⟨e, hl⟩, h n (Nat.lt_succ_self n) e]
    rw [if_neg fun e' => e e'.1]
    have hi' : i < n := by
      rcases Nat.lt_succ_iff_lt_or_eq.mp hi with hi | rfl
      · exact hi
      · exact absurd rfl e
    exact getD_foldl_set hl hi' fun k hk => h k (Nat.lt_succ_of_lt hk)

end Writes

end Libtorrent.Vec
