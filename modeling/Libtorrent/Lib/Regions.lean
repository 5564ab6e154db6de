import Mathlib.Algebra.Order.Ring.Int
import Mathlib.Data.Finset.Prod
import Libtorrent.Lib.Tally

/-!
# Maximal runs

`regions n f` are the maximal runs `[a, b)` of indices below `n` with `f`. A run is determined by its first index, so
the regions are counted by the indices that start one (`card_regions`). When `f` changes at one index, the number of
regions changes by what the two neighbours say (`card_regions_insert`).
-/

namespace Libtorrent.Regions

open Tally Function Nat Finset

variable {n k : Nat} {f g : Nat → Bool}

def IsRegion (n : Nat) (f : Nat → Bool) (r : Nat × Nat) : Prop :=
  r.1 < r.2 ∧ (∀ i < r.2, r.1 ≤ i → f i = true) ∧ (0 < r.1 → f (r.1 - 1) = false) ∧ (r.2 < n → f r.2 = false)

instance (n : Nat) (f : Nat → Bool) : DecidablePred (IsRegion n f) := fun _ =>
    inferInstanceAs (Decidable (_ ∧ _ ∧ _ ∧ _))

def regions (n : Nat) (f : Nat → Bool) : Finset (Nat × Nat) :=
  (Finset.range (n + 1) ×ˢ Finset.range (n + 1)).filter (IsRegion n f)

def starts (f : Nat → Bool) (i : Nat) : Bool := f i && (i == 0 || !f (i - 1))

def before (f : Nat → Bool) (k : Nat) : Bool := decide (0 < k) && f (k - 1)

def after (n : Nat) (f : Nat → Bool) (k : Nat) : Bool := decide (k + 1 < n) && f (k + 1)

theorem mem_regions {r : Nat × Nat} : r ∈ regions n f ↔ r.2 ≤ n ∧ IsRegion n f r := by
  simp only [regions, mem_filter, mem_product, mem_range]
  constructor
  · rintro ⟨⟨-, h⟩, hr⟩
    exact ⟨by omega, hr⟩
  · rintro ⟨h, hr⟩
    have := hr.1
    exact ⟨⟨by omega, by omega⟩, hr⟩

theorem exists_end (hk : k < n) (hf : f k = true) :
    ∃ b, k < b ∧ b ≤ n ∧ (∀ i < b, k ≤ i → f i = true) ∧ (b < n → f b = false) := by
  induction h : n - (k + 1) generalizing k with
  | zero =>
    refine ⟨n, hk, le_refl n, fun i hi hki => ?_, fun hlt => absurd hlt (lt_irrefl n)⟩
    rwa [show i = k by omega]
  | succ m ih =>
    cases hnext : f (k + 1) with
    | false =>
      refine ⟨k + 1, by omega, by omega, fun i hi hki => ?_, fun _ => hnext⟩
      rwa [show i = k by omega]
    | true =>
      obtain ⟨b, hb, hbn, hall, hstop⟩ := ih (by omega) hnext (by omega)
      refine ⟨b, by omega, hbn, fun i hi hki => ?_, hstop⟩
      by_cases he : i = k
      · rwa [he]
      · exact hall i hi (by omega)

theorem starts_of_region {r : Nat × Nat} (h : IsRegion n f r) : starts f r.1 = true := by
  obtain ⟨hlt, hall, hleft, -⟩ := h
  rw [starts, hall r.1 hlt (le_refl _), Bool.true_and]
  by_cases h0 : r.1 = 0
  · simp [h0]
  · simp [hleft (by omega)]

theorem region_ext {r t : Nat × Nat} (hr : r ∈ regions n f) (ht : t ∈ regions n f) (h : r.1 = t.1) : r = t := by
  obtain ⟨hrn, hr1, hrall, -, hrstop⟩ := mem_regions.mp hr
  obtain ⟨htn, ht1, htall, -, htstop⟩ := mem_regions.mp ht
  refine Prod.ext h ?_
  by_contra hne
  rcases lt_or_gt_of_ne hne with hlt | hlt
  · have := hrstop (by omega)
    rw [htall r.2 hlt (by omega)] at this
    cases this
  · have := htstop (by omega)
    rw [hrall t.2 hlt (by omega)] at this
    cases this

/-- **The regions are counted by their first indices.** -/
theorem card_regions (n : Nat) (f : Nat → Bool) : (regions n f).card = tally n (starts f) := by
  have himage : (regions n f).image Prod.fst = (range n).filter fun i => starts f i = true := by
    ext i
    simp only [mem_image, mem_filter, mem_range]
    constructor
    · rintro ⟨r, hr, rfl⟩
      obtain ⟨hn, h⟩ := mem_regions.mp hr
      have := h.1
      exact ⟨by omega, starts_of_region h⟩
    rintro ⟨hi, hs⟩
    obtain ⟨hfi, hleft⟩ := Bool.and_eq_true_iff.mp hs
    obtain ⟨b, hb, hbn, hall, hstop⟩ := exists_end hi hfi
    refine ⟨(i, b), mem_regions.mpr ⟨hbn, hb, hall, fun h0 => ?_, hstop⟩, rfl⟩
    have hne : i ≠ 0 := Nat.pos_iff_ne_zero.mp h0
    simpa [hne] using hleft
  have hcard : (regions n f).card = ((regions n f).image Prod.fst).card :=
    (Finset.card_image_of_injOn fun r hr t ht h => region_ext hr ht h).symm
  rw [hcard, himage, tally, List.countP_eq_length_filter]
  simp only [card, filter_val, range_val, Multiset.range, Multiset.filter_coe, Multiset.coe_card, Bool.decide_eq_true]

theorem starts_insert (hk : f k = false) (hg : g k = true) (hsame : ∀ i, i ≠ k → g i = f i) :
    starts f k = false ∧ starts g k = !before f k ∧ starts f (k + 1) = f (k + 1) ∧ starts g (k + 1) = false ∧
      ∀ i, i ≠ k → i ≠ k + 1 → starts g i = starts f i := by
  refine ⟨by simp [starts, hk], ?_, by simp [starts, hk], by simp [starts, hg], fun i h1 h2 => ?_⟩
  · by_cases h0 : k = 0
    · subst h0
      simp [starts, before, hg]
    · have hpos : 0 < k := Nat.pos_of_ne_zero h0
      simp [starts, before, hg, h0, hpos, hsame (k - 1) (by omega)]
  · by_cases h0 : i = 0
    · simp [starts, h0, hsame 0 (by omega)]
    · simp [starts, hsame i h1, hsame (i - 1) (by omega)]

/-- **One index joins**: it closes a gap between two regions, extends one, or is a region of its own. -/
theorem card_regions_insert (hkn : k < n) (hk : f k = false) (hg : g k = true) (hsame : ∀ i, i ≠ k → g i = f i) :
    (regions n g).card + (before f k).toNat + (after n f k).toNat = (regions n f).card + 1 := by
  rw [card_regions, card_regions]
  obtain ⟨hfk, hgk, hfk', hgk', hother⟩ := starts_insert hk hg hsame
  -- first the run that started behind `k`, then the one that starts at `k`
  have hbehind : tally n (update (starts f) (k + 1) false) + (after n f k).toNat = tally n (starts f) := by
    by_cases hlast : k + 1 < n
    · have := tally_change (f := update (starts f) (k + 1) false) hlast fun i _ hi =>
        update_of_ne hi _ _
      simpa [after, hlast, hfk'] using this
    · rw [tally_congr fun i hi => update_of_ne (by omega) _ _]
      simp [after, hlast]
  have hat := tally_change (f := starts g) (g := update (starts f) (k + 1) false) hkn fun i _ hi => by
    by_cases hi' : i = k + 1
    · rw [hi', hgk', update_self]
    · rw [update_of_ne hi', hother i hi hi']
  have hold : update (starts f) (k + 1) false k = false := by
    rw [update_of_ne (by omega), hfk]
  rw [hold, hgk] at hat
  cases hb : before f k <;> rw [hb] at hat <;> simp at hat ⊢ <;> omega

theorem card_regions_all (hn : 0 < n) (h : ∀ i < n, f i = true) : (regions n f).card = 1 := by
  refine card_eq_one.mpr ⟨(0, n), eq_singleton_iff_unique_mem.mpr ⟨?_, fun r hr => ?_⟩⟩
  · exact mem_regions.mpr ⟨le_refl n, hn, fun i hi _ => h i hi, fun h0 => absurd h0 (lt_irrefl 0),
      fun hlt => absurd hlt (lt_irrefl n)⟩
  obtain ⟨hrn, hlt, -, hleft, hright⟩ := mem_regions.mp hr
  have h1 : r.1 = 0 := by
    by_contra hne
    have := hleft (by omega)
    rw [h _ (by omega)] at this
    cases this
  have h2 : r.2 = n := by
    by_contra hne
    have := hright (by omega)
    rw [h _ (by omega)] at this
    cases this
  exact Prod.ext h1 h2

end Libtorrent.Regions
