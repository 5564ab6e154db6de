import Mathlib.Data.List.Count
import Mathlib.Algebra.Order.BigOperators.Group.List
import Mathlib.Tactic.Ring
import Mathlib.Tactic.Linarith

/-!
# Stores and shares

A store maps addresses to objects. `touch f m js` applies `f` to the objects at the addresses `js`, one after the other
(`touch_apply`). `share_le`: whoever takes no more than the part of an amount that corresponds to their weight leaves
something for the others.
-/

namespace Libtorrent.Store

open Function

variable {α β : Type} [DecidableEq α]

/-- Apply `f` at every address of the list. -/
def touch (f : β → β) (m : α → β) (js : List α) : α → β := js.foldl (fun m j => Function.update m j (f (m j))) m

theorem touch_apply (f : β → β) (m : α → β) (js : List α) (j : α) : touch f m js j = f^[js.count j] (m j) := by
  induction js generalizing m with
  | nil => rfl
  | cons i js ih =>
    have hstep : touch f m (i :: js) = touch f (update m i (f (m i))) js := rfl
    rw [hstep, ih, List.count_cons]
    by_cases h : i = j
    · subst h
      simp
    · rw [update_of_ne (Ne.symm h)]
      simp [h]

theorem touch_field {γ : Type} {g : β → γ} {f : β → β} (h : ∀ b, g (f b) = g b) (m : α → β) (js : List α) (j : α) :
    g (touch f m js j) = g (m j) := by
  rw [touch_apply]
  induction js.count j with
  | zero => rfl
  | succ n ih => rw [iterate_succ_apply', h, ih]

theorem touch_add {g : β → Int} {f : β → β} {a : Int} (h : ∀ b, g (f b) = g b + a) (m : α → β) (js : List α) (j : α) :
    g (touch f m js j) = g (m j) + a * js.count j := by
  rw [touch_apply]
  induction js.count j with
  | zero => simp
  | succ n ih =>
    rw [iterate_succ_apply', h, ih]
    push_cast
    ring

theorem share_le {ρ : Type} {p w q : ρ → Int} {total whole : Int} {l : List ρ} (hpos : 0 < total)
    (htotal : total = (l.map fun r => p r * w r).sum) (hw : ∀ r ∈ l, 0 ≤ w r)
    (hq : ∀ r ∈ l, 0 < w r → q r * total ≤ whole * p r) : (l.map fun r => q r * w r).sum ≤ whole := by
  have hterm : ∀ l' : List ρ, (∀ r ∈ l', r ∈ l) →
      (l'.map fun r => q r * w r).sum * total ≤ whole * (l'.map fun r => p r * w r).sum := by
    intro l' hsub
    induction l' with
    | nil => simp
    | cons r l' ih =>
      have hr : r ∈ l := hsub r List.mem_cons_self
      have hone : q r * w r * total ≤ whole * (p r * w r) := by
        rcases (hw r hr).lt_or_eq with h | h
        · nlinarith [hq r hr h]
        · rw [← h]
          simp
      have hrest := ih fun x hx => hsub x (List.mem_cons_of_mem _ hx)
      simp only [List.map_cons, List.sum_cons]
      linarith
  have hall := hterm l fun _ h => h
  rw [← htotal] at hall
  exact le_of_mul_le_mul_right hall hpos

end Libtorrent.Store
