import Libtorrent.Lib.Regions
import Libtorrent.Picker.Cursors

/-!
# The number of sparse regions

`m_sparse_regions` is to be the number of maximal runs of pieces that we do not have. `we_have` keeps the count
(`weHave_counted`); `we_dont_have` and another `init` do not touch the counter, so they keep the count only if the
number of runs stays what it is. `sparse_regions_iff`: over a run, the counter is right in every state exactly if every
`we_dont_have` gives up a piece next to exactly one missing piece, and every `init` happens while the missing pieces
form one run.
-/

namespace Libtorrent.Picker.PiecePicker

open Run Regions

variable {s s' : PiecePicker} {p : Nat}

def missing (s : PiecePicker) (i : Nat) : Bool := !(s.pos i).have

def missingRuns (s : PiecePicker) : Finset (Nat × Nat) := regions s.numPieces s.missing

/-- `m_sparse_regions` counts the maximal runs of missing pieces. -/
def RegionsCounted (s : PiecePicker) : Prop := s.sparseRegions = (s.missingRuns.card : Int)

/-- A call under which the counter stays right: a piece that we give up has exactly one missing neighbour, and the
missing pieces form one run when `init` is called again. -/
def KeepsRegions (s : PiecePicker) : Op → Prop
  | .weDontHave index _ =>
    (s.pos index).have = true → before s.missing index ≠ after s.numPieces s.missing index
  | .init _ _ _ => s.missingRuns.card = 1
  | _ => True

instance (s : PiecePicker) (op : Op) : Decidable (s.KeepsRegions op) := by
  apply Op.casesOn (motive := fun op => Decidable (s.KeepsRegions op)) op <;> intros <;>
    (dsimp only [KeepsRegions]; infer_instance)

/-! ## Calls that do not concern the regions -/

structure SameRegions (s s' : PiecePicker) : Prop where
  num : s'.numPieces = s.numPieces
  «have» : ∀ i, (s'.pos i).have = (s.pos i).have
  counter : s'.sparseRegions = s.sparseRegions

namespace SameRegions

theorem of_counts (h : SameCounts s s') (hc : s'.sparseRegions = s.sparseRegions) : SameRegions s s' :=
  ⟨h.num, h.have, hc⟩

theorem of_refiled (h : Refiled s s') : SameRegions s s' := by
  refine ⟨h.numPieces, h.2, ?_⟩
  obtain ⟨⟨ps, bs, m, d, rfl, -⟩, -⟩ := h
  rfl

theorem missingRuns (h : SameRegions s s') : s'.missingRuns = s.missingRuns := by
  have hm : s'.missing = s.missing := funext fun i => by rw [missing, missing, h.have]
  rw [PiecePicker.missingRuns, PiecePicker.missingRuns, h.num, hm]

theorem counted_iff (h : SameRegions s s') : RegionsCounted s' ↔ RegionsCounted s := by
  rw [RegionsCounted, RegionsCounted, h.missingRuns, h.counter]

end SameRegions

/-! ## The calls that change what we have -/

theorem sparseChange_eq (s : PiecePicker) (hp : p < s.numPieces) :
    s.sparseChange p = (before s.missing p).toNat + (after s.numPieces s.missing p).toNat - 1 := by
  unfold sparseChange
  by_cases h0 : p = 0
  · rw [if_pos h0]
    by_cases hlast : p + 1 = s.numPieces
    · simp [before, after, h0, ← hlast]
    · have hlt : 0 + 1 < s.numPieces := by omega
      cases hh : (s.pos (0 + 1)).have <;> simp_all [before, after, missing]
  have hpos : 0 < p := Nat.pos_of_ne_zero h0
  rw [if_neg h0]
  by_cases hlast : p + 1 = s.numPieces
  · rw [if_pos hlast]
    cases hh : (s.pos (p - 1)).have <;> simp [before, after, missing, hpos, ← hlast, hh]
  have hlt : p + 1 < s.numPieces := by omega
  rw [if_neg hlast]
  cases hl : (s.pos (p - 1)).have <;> cases hr : (s.pos (p + 1)).have <;>
    simp [before, after, missing, hpos, hlt, hl, hr]

theorem gainPiece_counted (hp : p < s.numPieces) (hh : (s.pos p).have = false) (hc : RegionsCounted s) :
    RegionsCounted (s.gainPiece p) := by
  obtain ⟨T, hpos⟩ := gainPiece_eq s p
  have hcounter : (s.gainPiece p).sparseRegions = s.sparseRegions + s.sparseChange p := by
    obtain ⟨c, r, hcur⟩ := closeCursors_eq ((s.countGain p).modifyPos p PiecePos.setHave) p
    rw [gainPiece, hcur]
    rfl
  have hgone : (s.gainPiece p).missing p = false := by
    rw [missing, hpos, pos_modifyPos, if_pos ⟨rfl, hp⟩, have_setHave]
    rfl
  have hsame : ∀ i, i ≠ p → s.missing i = (s.gainPiece p).missing i := by
    intro i hi
    rw [missing, missing, hpos, pos_modifyPos, if_neg fun e => hi e.1.symm]
  have hcard := card_regions_insert hp hgone (by rw [missing, hh]; rfl) hsame
  have hnum : (s.gainPiece p).numPieces = s.numPieces := T.num
  have hbefore : before (s.gainPiece p).missing p = before s.missing p := by
    unfold before
    by_cases h0 : 0 < p
    · rw [hsame (p - 1) (by omega)]
    · simp [h0]
  have hafter : after s.numPieces (s.gainPiece p).missing p = after s.numPieces s.missing p := by
    rw [after, after, hsame (p + 1) (by omega)]
  rw [hbefore, hafter] at hcard
  have hdelta := sparseChange_eq s hp
  rw [RegionsCounted, missingRuns] at hc ⊢
  rw [hcounter, hc, hdelta, hnum]
  omega

theorem weHave_counted (hp : p < s.numPieces) (hc : RegionsCounted s) : RegionsCounted (s.weHaveCore p) := by
  have hd : SameRegions s (s.dropEntry p) := .of_counts (SameCounts.dropEntry s p) ((rest_dropEntry s p).1)
  have hc' := hd.counted_iff.mpr hc
  unfold weHaveCore
  split_ifs with hh
  · exact hc'
  · exact gainPiece_counted (by rw [hd.num]; exact hp) (by simpa using hh) hc'

/-- `we_dont_have` keeps the count exactly if the piece has one missing neighbour. -/
theorem losePiece_counted_iff (hp : p < s.numPieces) (hh : (s.pos p).have = true) (hc : RegionsCounted s) :
    RegionsCounted (s.losePiece p) ↔ before s.missing p ≠ after s.numPieces s.missing p := by
  obtain ⟨T, hpos⟩ := losePiece_eq s p
  have hback : (s.losePiece p).missing p = true := by
    rw [missing, hpos, pos_modifyPos, if_pos ⟨rfl, hp⟩]
    rfl
  have hsame : ∀ i, i ≠ p → (s.losePiece p).missing i = s.missing i := by
    intro i hi
    rw [missing, missing, hpos, pos_modifyPos, if_neg fun e => hi e.1.symm]
  have hcard := card_regions_insert hp (by rw [missing, hh]; rfl) hback hsame
  rw [RegionsCounted, missingRuns] at hc ⊢
  rw [(rest_losePiece s p).1, hc, T.num]
  cases hb : before s.missing p <;> cases ha : after s.numPieces s.missing p <;> rw [hb, ha] at hcard <;>
    simp at hcard ⊢ <;> omega

theorem init_missingRuns (s : PiecePicker) (b l : Nat) {n : Nat} (hn : 0 < n) :
    (s.init b l n).missingRuns.card = 1 := by
  have hnum : (s.init b l n).numPieces = n := by simp [init, numPieces]
  rw [missingRuns, hnum]
  refine card_regions_all hn fun i _ => ?_
  simp only [missing, pos, init, List.getD_eq_getElem?_getD, List.getElem?_map]
  cases (Vec.resize s.pieceMap n {})[i]? <;> rfl

/-- **One call** keeps the counter right exactly if it is one of those that may. -/
theorem coreStep_counted_iff {op : Op} (hpre : s.Pre op) (hc : RegionsCounted s) :
    RegionsCounted (s.coreStep op) ↔ s.KeepsRegions op := by
  cases op with
  | init b l n =>
    have hcounter : (s.init b l n).sparseRegions = s.sparseRegions := rfl
    rw [RegionsCounted] at hc
    show RegionsCounted (s.init b l n) ↔ s.missingRuns.card = 1
    rw [RegionsCounted, init_missingRuns s b l hpre.2.2.1, hcounter, hc]
    omega
  | weHave => exact iff_true_intro (weHave_counted hpre hc)
  | weDontHave =>
    simp only [coreStep, KeepsRegions]
    split_ifs with hh
    · rw [losePiece_counted_iff hpre.1 hh hc]
      exact ⟨fun h _ => h, fun h => h hh⟩
    · exact iff_of_true hc fun h => absurd h hh
  | setPiecePriority index prio rnd =>
    refine iff_true_intro (SameRegions.counted_iff ⟨@numPieces_coreStep s (.setPiecePriority index prio rnd) (by simp),
      fun i => ?_, (rest_coreStep s (.setPiecePriority index prio rnd)).1 (by simp)⟩ |>.mpr hc)
    obtain ⟨nf, nhf, c, r, he⟩ := changePriority_eq s index prio
    simp only [coreStep, he]
    split
    · rfl
    · rw [pos_modifyPos]
      split <;> rfl
  | _ =>
    exact iff_true_intro ((SameRegions.of_counts (sameCounts_coreStep s _ id)
      ((rest_coreStep s _).1 (by simp))).counted_iff.mpr hc)

/-! ## Runs -/

/-- **Sparse regions.** After the first `init`, a run under the preconditions keeps `m_sparse_regions` equal to the
number of maximal runs of missing pieces, in every state it passes through, exactly if every `we_dont_have` gives up a
piece with one missing neighbour and every further `init` finds the missing pieces in one run. -/
theorem sparse_regions_iff (b l n : Nat) (ops : List Op) (h₀ : new.Pre (.init b l n))
    (hl : Legal step Pre (new.init b l n) ops) :
    Always step RegionsCounted (new.init b l n) ops ↔ Legal step KeepsRegions (new.init b l n) ops := by
  have hsound : Sound (new.init b l n) := (step_sound sound_new h₀).1
  have hc : RegionsCounted (new.init b l n) := by
    rw [RegionsCounted, init_missingRuns new b l h₀.2.2.1]
    rfl
  refine always_iff_legal (Q := Sound) (fun s op h _ hpre => (step_sound h hpre).1) (fun s op h hc hpre => ?_) hsound hc
    hl
  rw [(SameRegions.of_refiled (step_sound h hpre).2).counted_iff, coreStep_counted_iff hpre hc]

/-- Pieces come in the middle and at the border, and the one at the border goes again. -/
def borderRun : List Op := [.weHave 2, .weHave 0, .weHave 3, .weDontHave 0 0, .init 2 1 5]

theorem sparse_regions_iff_borderRun : ¬ Always step RegionsCounted (new.init 2 1 5) borderRun ∧
    Always step RegionsCounted (new.init 2 1 5) (borderRun.take 4) :=
  ⟨fun h => absurd ((sparse_regions_iff 2 1 5 borderRun (by decide) (by decide +kernel)).mp h) (by decide +kernel),
    (sparse_regions_iff 2 1 5 (borderRun.take 4) (by decide) (by decide +kernel)).mpr (by decide +kernel)⟩

/-- The only piece comes and fails its check later: one region, of which the counter does not know. -/
theorem lost_piece_not_counted : Legal step Pre (new.init 1 1 1) [.weHave 0, .weDontHave 0 0] ∧
    (run step (new.init 1 1 1) [.weHave 0, .weDontHave 0 0]).sparseRegions = 0 ∧
    (run step (new.init 1 1 1) [.weHave 0, .weDontHave 0 0]).missingRuns.card = 1 := by
  decide +kernel

end Libtorrent.Picker.PiecePicker
