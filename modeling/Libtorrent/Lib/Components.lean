import Mathlib.Data.List.Basic

/-!
# The components of a text

A text is split at a separator. `All Q [] s` says that every component of `s` satisfies `Q` (`all_iff`); read from the
left it has, besides the rest of the text, only what the current component already has, so that it goes well with texts
that are put together from parts (`all_append`).
-/

namespace Libtorrent.Components

open List

variable {α : Type} [DecidableEq α] {sep : α} {Q : List α → Prop}

variable (sep Q) in
/-- Every component satisfies `Q`, where `pre` is what the first one has before the text. -/
def All : List α → List α → Prop
  | pre, [] => Q pre
  | pre, x :: s => if x = sep then Q pre ∧ All [] s else All (pre ++ [x]) s

variable (sep Q) in
/-- Every component that a separator ends satisfies `Q`. -/
def Closed : List α → List α → Prop
  | _, [] => True
  | pre, x :: s => if x = sep then Q pre ∧ Closed [] s else Closed (pre ++ [x]) s

variable (sep) in
def rest : List α → List α → List α
  | pre, [] => pre
  | pre, x :: s => if x = sep then rest [] s else rest (pre ++ [x]) s

theorem all_modifyHead (pre s : List α) : All sep Q pre s ↔ ∀ c ∈ (s.splitOn sep).modifyHead (pre ++ ·), Q c := by
  induction s generalizing pre with
  | nil => simp [All, List.splitOn]
  | cons x s ih =>
    rw [All, List.splitOn, splitOnP_cons_eq_if_modifyHead]
    by_cases hx : x = sep
    · rw [if_pos hx, if_pos (beq_iff_eq.mpr hx), ih, modifyHead_cons, forall_mem_cons, append_nil]
      simp only [nil_append]
      rw [show (fun c : List α => c) = id from rfl, modifyHead_id]
      rfl
    rw [if_neg hx, if_neg (by simpa using hx), ih, modifyHead_modifyHead]
    have hfun : (fun c => pre ++ [x] ++ c) = (pre ++ ·) ∘ List.cons x := by
      funext c
      simp
    rw [hfun]
    rfl

variable {s pre : List α}

theorem all_iff : All sep Q [] s ↔ ∀ c ∈ s.splitOn sep, Q c := by
  rw [all_modifyHead]
  simp only [nil_append]
  rw [show (fun c : List α => c) = id from rfl, modifyHead_id]
  rfl

theorem all_append (pre a b : List α) : All sep Q pre (a ++ b) ↔ Closed sep Q pre a ∧ All sep Q (rest sep pre a) b := by
  induction a generalizing pre with
  | nil => simp [Closed, rest]
  | cons x a ih =>
    rw [cons_append, All, Closed, rest]
    by_cases hx : x = sep
    · simp only [if_pos hx, ih, and_assoc]
    · simp only [if_neg hx, ih]

theorem all_iff_closed (pre a : List α) : All sep Q pre a ↔ Closed sep Q pre a ∧ Q (rest sep pre a) := by
  rw [← append_nil a, all_append, append_nil, All]

theorem all_append_of_not_mem {a b : List α} (h : sep ∉ a) : All sep Q pre (a ++ b) ↔ All sep Q (pre ++ a) b := by
  induction a generalizing pre with
  | nil => simp
  | cons x a ih =>
    have hx : x ≠ sep := fun e => h (e ▸ mem_cons_self)
    rw [cons_append, All, if_neg hx, ih fun ha => h (mem_cons_of_mem x ha), append_assoc]
    rfl

theorem all_of_not_mem (h : sep ∉ s) : All sep Q pre s ↔ Q (pre ++ s) := by
  rw [← append_nil s, all_append_of_not_mem h, append_nil, All]

theorem all_mem (hpre : sep ∉ pre) : All sep (fun c => sep ∉ c ∧ c ⊆ pre ++ s) pre s := by
  suffices h : ∀ t, pre ++ s ⊆ t → All sep (fun c => sep ∉ c ∧ c ⊆ t) pre s from h _ (List.Subset.refl _)
  intro t
  induction s generalizing pre with
  | nil => exact fun ht => ⟨hpre, by simpa using ht⟩
  | cons x s ih =>
    intro ht
    rw [All]
    split
    · refine ⟨⟨hpre, fun y hy => ht (mem_append_left _ hy)⟩, ih (by simp) fun y hy => ht ?_⟩
      exact mem_append_right _ (mem_cons_of_mem x hy)
    rename_i hx
    refine ih ?_ (by simpa using ht)
    simp only [mem_append, mem_singleton, not_or]
    exact ⟨hpre, fun e => hx e.symm⟩

theorem rest_concat (pre s : List α) (x : α) :
    rest sep pre (s ++ [x]) = if x = sep then [] else rest sep pre s ++ [x] := by
  induction s generalizing pre with
  | nil => simp [rest]
  | cons y s ih =>
    rw [cons_append, rest, rest]
    split
    · exact ih []
    · exact ih (pre ++ [y])

/-- Characters that make good components only, behind a first component that they may go on with. -/
theorem all_of_subset (hpre : ∀ c, c ⊆ s → Q (pre ++ c)) (hs : ∀ c, c ⊆ s → Q c) : All sep Q pre s := by
  induction s generalizing pre with
  | nil => simpa [All] using hpre [] (nil_subset [])
  | cons x s ih =>
    have hs' : ∀ c, c ⊆ s → Q c := fun c hc => hs c (subset_cons_of_subset x hc)
    rw [All]
    split
    · exact ⟨by simpa using hpre [] (nil_subset _), ih hs' hs'⟩
    · refine ih (fun c hc => ?_) hs'
      simpa using hpre (x :: c) (cons_subset_cons x hc)

end Libtorrent.Components
