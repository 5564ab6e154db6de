import Mathlib.Data.List.Chain

/-!
# Piecewise constant functions

A list of break points stands for a function that has the value of a break point from its key up to the next key
(`valueAt`). The lemmas say which part of a list that is put together decides the value at a point.
-/

namespace Libtorrent.Steps

open List

variable {ρ β : Type} (key : ρ → Nat) (value : ρ → β)

/-- The value at `a`; `d` is the value before the first break point. -/
def valueAt : List ρ → β → Nat → β
  | [], d, _ => d
  | r :: l, d, a => if key r ≤ a then valueAt l (value r) a else d

/-- The keys increase and every break point changes the value. -/
def Canonical (l : List ρ) : Prop := l.IsChain fun x y => key x < key y ∧ value x ≠ value y

variable {key value} {l l₁ l₂ : List ρ} {d : β} {a : Nat}

theorem valueAt_append_of_lt (h : ∀ r ∈ l₂.head?, a < key r) :
    ∀ {l₁ : List ρ} {d : β}, valueAt key value (l₁ ++ l₂) d a = valueAt key value l₁ d a
  | [], d => by
    cases l₂ with
    | nil => rfl
    | cons r l₂ => exact if_neg (Nat.not_le.mpr (h r rfl))
  | r :: l₁, d => by
    rw [cons_append, valueAt, valueAt, valueAt_append_of_lt h]

/-- The break points at or below `a` set the value that the later ones start from. -/
theorem valueAt_append_of_le : ∀ {l₁ : List ρ} {d : β}, (∀ r ∈ l₁, key r ≤ a) →
    valueAt key value (l₁ ++ l₂) d a = valueAt key value l₂ (valueAt key value l₁ d a) a
  | [], _, _ => rfl
  | r :: l₁, d, h => by
    have hr := h r mem_cons_self
    rw [cons_append, valueAt, valueAt, if_pos hr, if_pos hr,
      valueAt_append_of_le fun x hx => h x (mem_cons_of_mem _ hx)]

theorem valueAt_concat {r : ρ} (h : ∀ x ∈ l, key x ≤ a) (hr : key r ≤ a) :
    valueAt key value (l ++ [r]) d a = value r := by
  rw [valueAt_append_of_le h]
  exact if_pos hr

theorem valueAt_concat_of_lt {r : ρ} (h : a < key r) : valueAt key value (l ++ [r]) d a = valueAt key value l d a :=
  valueAt_append_of_lt fun x hx => by
    cases hx
    exact h

theorem Canonical.concat {r : ρ} (h : Canonical key value l)
    (hr : ∀ x ∈ l.getLast?, key x < key r ∧ value x ≠ value r) :
    Canonical key value (l ++ [r]) :=
  isChain_append.mpr ⟨h, isChain_singleton _, fun x hx y hy => by
    cases hy
    exact hr x hx⟩

theorem Canonical.pairwise (h : Canonical key value l) : l.Pairwise fun x y => key x < key y :=
  (h.imp fun _ _ h => h.1).pairwise

theorem exists_split : ∀ {l : List ρ}, l.Pairwise (fun x y => key x < key y) → ∀ a,
    ∃ l₁ l₂, l = l₁ ++ l₂ ∧ (∀ r ∈ l₁, key r ≤ a) ∧ ∀ r ∈ l₂, a < key r
  | [], _, _ => ⟨[], [], rfl, fun _ h => (by cases h), fun _ h => (by cases h)⟩
  | r :: l, h, a => by
    obtain ⟨hr, hl⟩ := pairwise_cons.mp h
    by_cases hle : key r ≤ a
    · obtain ⟨l₁, l₂, rfl, h1, h2⟩ := exists_split hl a
      refine ⟨r :: l₁, l₂, rfl, fun x hx => ?_, h2⟩
      rcases mem_cons.mp hx with rfl | hx
      · exact hle
      · exact h1 x hx
    refine ⟨[], r :: l, rfl, fun _ h => (by cases h), fun x hx => ?_⟩
    rcases mem_cons.mp hx with rfl | hx
    · omega
    · have := hr x hx
      omega

end Libtorrent.Steps
