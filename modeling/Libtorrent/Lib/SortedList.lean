import Libtorrent.Lib.Vec
import Mathlib.Data.List.Perm.Basic
import Mathlib.Data.List.TakeWhile
import Mathlib.Order.Lattice

/-!
# Lists sorted by a key

Binary search in a list that is sorted by a key gives the end of a `takeWhile`. What such a place means (`Splits`,
`splits_lower`, `splits_upper`, `mem_equalRange`), that inserting at it keeps the order (`pairwise_insertIdx`), and how
counts change when an element is inserted, erased or changed.
-/

namespace Libtorrent.SortedList

open Function List Nat

section Search

variable {α β : Type} [LinearOrder β] {f : α → β} {l : List α} {a : β}

/-- The elements before the place `i` have at most the key `a`, the others at least. -/
def Splits (f : α → β) (l : List α) (i : Nat) (a : β) : Prop :=
  (∀ x ∈ l.take i, f x ≤ a) ∧ ∀ x ∈ l.drop i, a ≤ f x

theorem take_takeWhile (p : α → Bool) (l : List α) : l.take (l.takeWhile p).length = l.takeWhile p :=
  (prefix_iff_eq_take.mp <| takeWhile_prefix p).symm

theorem drop_takeWhile (p : α → Bool) (l : List α) : l.drop (l.takeWhile p).length = l.dropWhile p := by
  have h : l.take (l.takeWhile p).length ++ l.drop (l.takeWhile p).length = l.takeWhile p ++ l.dropWhile p := by
    rw [take_append_drop, takeWhile_append_dropWhile]
  rw [take_takeWhile] at h
  exact append_cancel_left h

section

variable (hl : l.Pairwise fun x y => f x ≤ f y)
include hl

/-- In a sorted list nothing behind the end of a `takeWhile` has the property, if smaller keys have it too. -/
theorem not_of_mem_dropWhile {p : α → Bool} (hp : ∀ x y, f x ≤ f y → p y → p x) : ∀ x ∈ l.dropWhile p, p x = false := by
  induction l with
  | nil => exact fun x hx => absurd hx not_mem_nil
  | cons b l ih =>
    obtain ⟨hb, hl⟩ := pairwise_cons.mp hl
    rw [dropWhile_cons]
    split
    · exact ih hl
    rename_i hpb
    intro x hx
    cases hpx : p x with
    | false => rfl
    | true =>
      rcases mem_cons.mp hx with rfl | hx
      · exact absurd hpx hpb
      · exact absurd (hp b x (hb x hx) hpx) hpb

theorem splits_takeWhile {p : α → Bool} (hp : ∀ x y, f x ≤ f y → p y → p x) (hle : ∀ x, p x = true → f x ≤ a)
    (hge : ∀ x, p x = false → a ≤ f x) : Splits f l (l.takeWhile p).length a := by
  refine ⟨fun x hx => ?_, fun x hx => ?_⟩
  · rw [take_takeWhile] at hx
    exact hle x (mem_takeWhile_imp hx)
  · rw [drop_takeWhile] at hx
    exact hge x (not_of_mem_dropWhile hl hp x hx)

theorem splits_lower (a : β) : Splits f l (l.takeWhile fun x => f x < a).length a := by
  refine splits_takeWhile hl (fun x y hxy hy => ?_) (fun x hx => ?_) fun x hx => ?_
  · exact decide_eq_true (lt_of_le_of_lt hxy (of_decide_eq_true hy))
  · exact le_of_lt (of_decide_eq_true hx)
  · exact not_lt.mp (of_decide_eq_false hx)

theorem splits_upper (a : β) : Splits f l (l.takeWhile fun x => !decide (a < f x)).length a := by
  refine splits_takeWhile hl (fun x y hxy hy => ?_) (fun x hx => by simpa using hx) fun x hx => ?_
  · simp only [Bool.not_eq_true', decide_eq_false_iff_not, not_lt] at hy ⊢
    exact le_trans hxy hy
  · exact le_of_lt (by simpa using hx)

end

theorem takeWhile_upper (f : α → β) (l : List α) (a : β) : l.takeWhile (fun x => !decide (a < f x)) =
    l.takeWhile (fun x => f x < a) ++ (l.dropWhile fun x => f x < a).takeWhile fun x => !decide (a < f x) := by
  induction l with
  | nil => rfl
  | cons b l ih =>
    by_cases hb : f b < a
    · have hnot : ¬ a < f b := not_lt.mpr (le_of_lt hb)
      simp [hb, hnot, ih]
    · simp [hb]

theorem lower_le_upper (f : α → β) (l : List α) (a : β) :
    (l.takeWhile fun x => f x < a).length ≤ (l.takeWhile fun x => !decide (a < f x)).length := by
  rw [takeWhile_upper, length_append]
  exact le_add_right _ _

theorem equalRange_eq (f : α → β) (l : List α) (a : β) : ((l.drop (l.takeWhile fun x => f x < a).length).take
      ((l.takeWhile fun x => !decide (a < f x)).length - (l.takeWhile fun x => f x < a).length)) =
    (l.dropWhile fun x => f x < a).takeWhile fun x => !decide (a < f x) := by
  rw [drop_takeWhile, takeWhile_upper, length_append, Nat.add_sub_cancel_left, take_takeWhile]

theorem mem_equalRange (hl : l.Pairwise fun x y => f x ≤ f y) {x : α} :
    x ∈ ((l.drop (l.takeWhile fun x => f x < a).length).take
      ((l.takeWhile fun x => !decide (a < f x)).length - (l.takeWhile fun x => f x < a).length)) ↔ x ∈ l ∧ f x = a := by
  have hlow := splits_lower hl a
  rw [equalRange_eq]
  constructor
  · intro hx
    have hup := mem_takeWhile_imp hx
    simp only [Bool.not_eq_true', decide_eq_false_iff_not, not_lt] at hup
    have hdrop := (takeWhile_sublist _).subset hx
    rw [← drop_takeWhile] at hdrop
    exact ⟨mem_of_mem_drop hdrop, le_antisymm hup (hlow.2 x hdrop)⟩
  rintro ⟨hx, rfl⟩
  have hdrop : x ∈ l.dropWhile fun y => f y < f x := by
    rw [← takeWhile_append_dropWhile (l := l)] at hx
    refine (mem_append.mp hx).resolve_left fun hxt => ?_
    have := mem_takeWhile_imp hxt
    exact absurd (of_decide_eq_true this) (lt_irrefl _)
  have hrest : (l.dropWhile fun y => f y < f x).Pairwise fun x y => f x ≤ f y :=
    hl.sublist (dropWhile_sublist _)
  rw [← takeWhile_append_dropWhile (l := l.dropWhile fun y => f y < f x)] at hdrop
  refine (mem_append.mp hdrop).resolve_right fun hxd => ?_
  have := not_of_mem_dropWhile hrest (fun y z hyz hz => by
    simp only [Bool.not_eq_true', decide_eq_false_iff_not, not_lt] at hz ⊢
    exact le_trans hyz hz) x hxd
  simp at this

theorem getElem_lower (hl : l.Pairwise fun x y => f x ≤ f y) {x : α} (hx : x ∈ l) :
    ∃ y, l[(l.takeWhile fun y => f y < f x).length]? = some y ∧ f y = f x := by
  have hmem := (mem_equalRange hl).mpr ⟨hx, rfl⟩
  obtain ⟨y, rest, he⟩ := exists_cons_of_ne_nil (ne_nil_of_mem hmem)
  have hy := (mem_equalRange hl).mp (he ▸ mem_cons_self : y ∈ _)
  have hpos := length_pos_of_mem hmem
  rw [length_take] at hpos
  refine ⟨y, ?_, hy.2⟩
  have hget : _ = some y := congrArg (·[0]?) he
  rwa [List.getElem?_take_of_lt (by omega), List.getElem?_drop] at hget

theorem findIdx_range {lo hi : Nat} (p : α → Bool) (hle : lo ≤ hi) (hhi : hi ≤ l.length) :
    lo + ((l.drop lo).take (hi - lo)).findIdx p = hi ∧ (∀ x ∈ (l.drop lo).take (hi - lo), p x = false) ∨
      lo + ((l.drop lo).take (hi - lo)).findIdx p < hi ∧
        ∃ x, l[lo + ((l.drop lo).take (hi - lo)).findIdx p]? = some x ∧ p x = true := by
  have hlen : ((l.drop lo).take (hi - lo)).length = hi - lo := by
    rw [length_take, length_drop]
    omega
  rcases lt_or_ge (((l.drop lo).take (hi - lo)).findIdx p) ((l.drop lo).take (hi - lo)).length with hlt | hge
  · refine .inr ⟨by omega, _, ?_, findIdx_getElem (w := hlt)⟩
    rw [← List.getElem?_drop, ← List.getElem?_take_of_lt (by omega : _ < hi - lo)]
    exact List.getElem?_eq_getElem hlt
  have heq := le_antisymm findIdx_le_length hge
  refine .inl ⟨by omega, fun x hx => ?_⟩
  cases hpx : p x with
  | false => rfl
  | true => exact absurd (findIdx_lt_length_of_exists ⟨x, hx, hpx⟩) (by omega)

end Search

section Insert

variable {α : Type} {l : List α} {i : Nat} {a : α}

theorem pairwise_insertIdx {R : α → α → Prop} (hl : l.Pairwise R) (hi : i ≤ l.length)
    (hbefore : ∀ x ∈ l.take i, R x a) (hbehind : ∀ x ∈ l.drop i, R a x) : (l.insertIdx i a).Pairwise R := by
  obtain ⟨l1, l2, rfl, rfl, he⟩ := Vec.exists_insertIdx hi a
  rw [take_left] at hbefore
  rw [drop_left] at hbehind
  obtain ⟨h1, h2, h12⟩ := pairwise_append.mp hl
  rw [he, pairwise_append, pairwise_cons]
  refine ⟨h1, ⟨hbehind, h2⟩, fun x hx y hy => ?_⟩
  rcases mem_cons.mp hy with rfl | hy
  · exact hbefore x hx
  · exact h12 x hx y hy

theorem countP_insertIdx (p : α → Bool) (hi : i ≤ l.length) :
    (l.insertIdx i a).countP p = l.countP p + (p a).toNat := by
  rw [(perm_insertIdx a l hi).countP_eq p, countP_cons]
  cases p a <;> rfl

theorem countP_eraseIdx (p : α → Bool) (ha : l[i]? = some a) : (l.eraseIdx i).countP p + (p a).toNat = l.countP p := by
  obtain ⟨hi, rfl⟩ := List.getElem?_eq_some_iff.mp ha
  rw [← (getElem_cons_eraseIdx_perm hi).countP_eq p, countP_cons]
  cases p l[i] <;> rfl

theorem mem_eraseIdx (hl : l.Nodup) (ha : l[i]? = some a) {x : α} : x ∈ l.eraseIdx i ↔ x ∈ l ∧ x ≠ a := by
  obtain ⟨hi, rfl⟩ := List.getElem?_eq_some_iff.mp ha
  have hperm := getElem_cons_eraseIdx_perm hi
  have hnot : l[i] ∉ l.eraseIdx i := (nodup_cons.mp (hperm.nodup_iff.mpr hl)).1
  rw [← hperm.mem_iff, mem_cons]
  constructor
  · intro hx
    exact ⟨.inr hx, fun he => hnot (he ▸ hx)⟩
  · rintro ⟨hx, hne⟩
    exact hx.resolve_left hne

end Insert

section Update

variable {α β : Type} [DecidableEq α] {l : List α} {h : α → β} {a : α}

theorem countP_update_of_notMem (p : β → Bool) (ha : a ∉ l) (x : β) :
    (l.countP fun b => p (update h a x b)) = l.countP fun b => p (h b) :=
  countP_congr fun c hc => by
    have hne : c ≠ a := fun he => ha (he ▸ hc)
    rw [update_of_ne hne]

theorem countP_update (p : β → Bool) (hl : l.Nodup) (ha : a ∈ l) (x : β) :
    (l.countP fun b => p (update h a x b)) + (p (h a)).toNat = (l.countP fun b => p (h b)) + (p x).toNat := by
  induction l with
  | nil => exact absurd ha not_mem_nil
  | cons b l ih =>
    obtain ⟨hb, hl⟩ := nodup_cons.mp hl
    rcases mem_cons.mp ha with rfl | ha
    · have hrest : (l.countP fun b => p (update h a x b)) = l.countP fun b => p (h b) :=
        countP_update_of_notMem p hb x
      simp only [countP_cons, update_self, hrest]
      cases p x <;> cases p (h a) <;> simp
    have hne : b ≠ a := fun he => hb (he ▸ ha)
    have := ih hl ha
    simp only [countP_cons, update_of_ne hne]
    omega

end Update

end Libtorrent.SortedList
