import Libtorrent.Lib.CountingSort
import Libtorrent.Picker.Layout

/-!
# Rebuilding the index: `update_pieces`

`update_pieces` is a counting sort of the pieces that have a priority, followed by a shuffle of every range.
`updatePieces_indexed`: it gives a filed index in any state.
-/

namespace Libtorrent.Picker.PiecePicker

open Buckets CountingSort Nat

variable {s s₀ : PiecePicker} {prio : Nat → Option Nat}

/-! ## Counting -/

/-- The state of the first loop before piece `i`: the ranges are counted, and the pieces numbered, up to `i`. -/
structure Counted (s₀ s : PiecePicker) (i : Nat) : Prop where
  frame : Frame s₀ s
  same : SameHave s₀ s
  nonempty : 0 < s.priorityBoundries.length
  size : ∀ q, s.boundry q = count s₀.priority q i
  fits : ∀ j < i, ∀ q, s₀.priority j = some q → q < s.priorityBoundries.length
  number : ∀ j < i, ∀ q, s₀.priority j = some q → (s.pos j).index = count s₀.priority q j

section

variable (s)

theorem boundry_growCounts (r q : Nat) : (s.growCounts r).boundry q = s.boundry q := by
  unfold growCounts
  split
  · simp only [boundry, Vec.getD_resize]
    by_cases hq : q < s.priorityBoundries.length
    · simp [hq, show q < r + 1 by omega]
    · rw [Vec.getD_of_le _ (by omega)]
      simp [hq]
  · rfl

theorem length_growCounts (r : Nat) : r < (s.growCounts r).priorityBoundries.length ∧
    s.priorityBoundries.length ≤ (s.growCounts r).priorityBoundries.length := by
  unfold growCounts
  split
  · simp only [Vec.length_resize]; omega
  · omega

theorem frame_growCounts (r : Nat) : Frame s (s.growCounts r) ∧ (s.growCounts r).pos = s.pos := by
  unfold growCounts
  split
  · exact ⟨⟨rfl, _, _, _, rfl⟩, rfl⟩
  · exact ⟨Frame.refl s, rfl⟩

theorem counted_clearRanges : Counted s s.clearRanges 0 where
  frame := ⟨rfl, _, _, _, rfl⟩
  same _ := rfl
  nonempty := by
    simp only [clearRanges]
    split_ifs with h
    · simp
    · simpa using List.length_pos_iff.mpr h
  size q := by
    simp only [boundry, clearRanges, CountingSort.count, List.getD_eq_getElem?_getD, List.getElem?_map]
    cases (if s.priorityBoundries = [] then [0] else s.priorityBoundries)[q]? <;> rfl
  fits _ h := by omega
  number _ h := by omega

end

theorem Counted.skip {i : Nat} (C : Counted s₀ s i) (hp : s₀.priority i = none) : Counted s₀ s (i + 1) := by
  have hcases : ∀ j < i + 1, ∀ q, s₀.priority j = some q → j < i := by
    intro j hj q hq
    by_contra h
    rw [show j = i by omega, hp] at hq
    cases hq
  refine ⟨C.frame, C.same, C.nonempty, ?_, ?_, ?_⟩
  · intro q
    rw [C.size, CountingSort.count, hp]
    simp
  · exact fun j hj q hq => C.fits j (hcases j hj q hq) q hq
  · exact fun j hj q hq => C.number j (hcases j hj q hq) q hq

/-- A piece of priority `r` gets the number of pieces of its range before it. -/
theorem Counted.number_next {i r : Nat} (C : Counted s₀ s i) (hp : s₀.priority i = some r) (hi : i < s₀.numPieces)
    (hn : s₀.numPieces ≤ weHaveIndex) :
    Counted s₀ (((s.growCounts r).setIndex i ((s.growCounts r).boundry r)).setBoundry r
      ((s.growCounts r).boundry r + 1)) (i + 1) := by
  obtain ⟨hr, hlen⟩ := length_growCounts s r
  obtain ⟨hframe, hpos⟩ := frame_growCounts s r
  have hnum : (s.growCounts r).numPieces = s₀.numPieces := by rw [hframe.numPieces, C.frame.numPieces]
  have hb : (s.growCounts r).boundry r = count s₀.priority r i := by rw [boundry_growCounts, C.size]
  rw [hb]
  refine ⟨((C.frame.trans hframe).trans (Frame.setIndex _ _ _)).trans (Frame.setBoundry _ _ _), ?_, ?_, ?_, ?_, ?_⟩
  · have h1 : SameHave s₀ (s.growCounts r) := fun j => by rw [hpos, C.same]
    refine h1.trans (sameHave_setIndex ?_ ?_)
    · rw [h1]; exact have_of_priority hp
    · have := count_le s₀.priority r i
      omega
  · rw [length_setBoundry, boundries_setIndex]; omega
  · intro q
    have hset : (((s.growCounts r).setIndex i (count s₀.priority r i)).setBoundry r
      (count s₀.priority r i + 1)).boundry q
        = if r = q then count s₀.priority r i + 1 else s.boundry q := by
      rw [← boundry_growCounts s r q]
      simp only [boundry, setBoundry, Vec.getD_set, boundries_setIndex]
      by_cases e : r = q
      · subst e; simp [hr]
      · simp [e]
    rw [hset, CountingSort.count, hp, C.size]
    by_cases e : r = q
    · simp [e]
    · simp [e]
  · intro j hj q hq
    rw [length_setBoundry, boundries_setIndex]
    by_cases e : j = i
    · rw [e, hp] at hq
      injection hq with hq
      omega
    · have := C.fits j (by omega) q hq
      omega
  · intro j hj q hq
    rw [pos_setBoundry, pos_setIndex, hnum, hpos]
    by_cases e : j = i
    · subst e
      rw [hp] at hq
      injection hq with hq
      simp [hi, hq]
    · rw [if_neg (by omega)]
      exact C.number j (by omega) q hq

theorem countRanges_counted (hn : s₀.numPieces ≤ weHaveIndex) : ∀ (fuel : Nat) {s : PiecePicker} {i : Nat},
    Counted s₀ s i → i + fuel = s₀.numPieces → Counted s₀ (countRanges fuel s i) s₀.numPieces
  | 0, s, i, C, h => by rwa [← show i = s₀.numPieces by omega]
  | fuel + 1, s, i, C, h => by
    simp only [countRanges]
    have hpr := C.frame.priority C.same i
    split
    · rename_i hnone
      exact countRanges_counted hn fuel (C.skip (hpr.symm.trans hnone)) (by omega)
    · rename_i hr
      exact countRanges_counted hn fuel (C.number_next (hpr.symm.trans hr) (by omega) hn) (by omega)

/-! ## Running sums -/

@[simp] theorem length_sumRanges : ∀ (a : Nat) (bs : List Nat), (sumRanges a bs).length = bs.length
  | _, [] => rfl
  | a, b :: bs => by simp [sumRanges, length_sumRanges (b + a) bs]

theorem sumRanges_getD (prio : Nat → Option Nat) (n : Nat) : ∀ (bs : List Nat) (q a x d : Nat),
    (∀ y, bs.getD y 0 = count prio (q + y) n) → a = total prio n q → x < bs.length →
      (sumRanges a bs).getD x d = total prio n (q + x + 1)
  | [], _, _, _, _, _, _, hx => by simp at hx
  | b :: bs, q, a, x, d, hbs, ha, hx => by
    have hb : b + a = total prio n (q + 1) := by
      have : b = count prio q n := by simpa using hbs 0
      rw [total, ← ha, this]
      omega
    cases x with
    | zero => simpa [sumRanges] using hb
    | succ x =>
      have := sumRanges_getD prio n bs (q + 1) (b + a) x d (fun y => by
        have := hbs (y + 1)
        rwa [List.getD_cons_succ, show q + (y + 1) = q + 1 + y by omega] at this) hb (by simpa using hx)
      rw [sumRanges, List.getD_cons_succ, this]
      congr 1
      omega

theorem bnd_closeRanges (hpos : 0 < s.priorityBoundries.length) {n : Nat} (hsize : ∀ q, s.boundry q = count prio q n) :
    s.closeRanges.pieces.length = total prio n s.priorityBoundries.length ∧
      s.closeRanges.priorityBoundries.length = s.priorityBoundries.length ∧
      ∀ q, s.closeRanges.bnd q = total prio n (min (q + 1) s.priorityBoundries.length) := by
  have hget : ∀ x d, x < s.priorityBoundries.length →
      (sumRanges 0 s.priorityBoundries).getD x d = total prio n (x + 1) := by
    intro x d hx
    have := sumRanges_getD prio n s.priorityBoundries 0 0 x d (fun y => by
      rw [zero_add]; exact hsize y) rfl hx
    rwa [zero_add] at this
  have hlast : (sumRanges 0 s.priorityBoundries).getLastD 0 = total prio n s.priorityBoundries.length := by
    have := hget (s.priorityBoundries.length - 1) 0 (by omega)
    rw [show s.priorityBoundries.length - 1 + 1 = s.priorityBoundries.length by omega] at this
    rw [← this, List.getLastD_eq_getLast?, List.getLast?_eq_getElem?, length_sumRanges, List.getD_eq_getElem?_getD]
  have hl : s.closeRanges.pieces.length = total prio n s.priorityBoundries.length := by
    simp only [closeRanges, Vec.length_resize, hlast]
  refine ⟨hl, by simp [closeRanges], ?_⟩
  intro q
  by_cases hq : q < s.priorityBoundries.length
  · rw [show min (q + 1) s.priorityBoundries.length = q + 1 by omega]
    exact hget q _ hq
  · rw [bnd_of_le _ (by simp [closeRanges]; omega), hl]
    congr 1
    omega

/-! ## Filing -/

/-- Only the content of `m_pieces` differs. -/
def Rearranged (s s' : PiecePicker) : Prop := ∃ ps, s' = { s with pieces := ps } ∧ ps.length = s.pieces.length

namespace Rearranged

variable {s s' s'' : PiecePicker}

theorem refl (s : PiecePicker) : Rearranged s s := ⟨_, rfl, rfl⟩

theorem trans (h1 : Rearranged s s') (h2 : Rearranged s' s'') : Rearranged s s'' := by
  obtain ⟨_, rfl, e1⟩ := h1
  obtain ⟨_, rfl, e2⟩ := h2
  exact ⟨_, rfl, e2.trans e1⟩

theorem setPiece (s : PiecePicker) (k p : Nat) : Rearranged s (s.setPiece k p) := ⟨_, rfl, length_setPiece s k p⟩

section

variable (h : Rearranged s s')
include h

theorem length : s'.pieces.length = s.pieces.length := by
  obtain ⟨_, rfl, e⟩ := h
  exact e

theorem boundries : s'.priorityBoundries = s.priorityBoundries := by
  obtain ⟨_, rfl, -⟩ := h
  rfl

theorem pos : s'.pos = s.pos := by
  obtain ⟨_, rfl, -⟩ := h
  rfl

theorem bnd : s'.bnd = s.bnd := by
  funext q
  rw [PiecePicker.bnd, PiecePicker.bnd, h.length, h.boundries]

theorem frame : Frame s s' := by
  obtain ⟨_, rfl, -⟩ := h
  exact ⟨rfl, _, _, _, rfl⟩

end

end Rearranged

theorem rearranged_filePieces : ∀ (fuel : Nat) (s : PiecePicker) (i : Nat), Rearranged s (filePieces fuel s i)
  | 0, s, _ => Rearranged.refl s
  | fuel + 1, s, i => by
    simp only [filePieces]
    split
    · exact rearranged_filePieces fuel s (i + 1)
    · exact (Rearranged.setPiece s _ i).trans (rearranged_filePieces fuel _ _)

theorem filePieces_piece {n : Nat} (hrange : ∀ j q, prio j = some q → j < n) :
    ∀ (fuel : Nat) {s : PiecePicker} {i : Nat},
    i + fuel = n → s.priority = prio → (∀ j q, prio j = some q → s.rangeStart q + (s.pos j).index = slot prio n j q) →
    (∀ j q, prio j = some q → slot prio n j q < s.pieces.length) →
    (∀ j < i, ∀ q, prio j = some q → s.piece (slot prio n j q) = j) →
    ∀ j q, prio j = some q → (filePieces fuel s i).piece (slot prio n j q) = j
  | 0, s, i, hi, _, _, _, hdone => fun j q hj => hdone j (by have := hrange j q hj; omega) q hj
  | fuel + 1, s, i, hi, hp, hslot, hlen, hdone => by
    simp only [filePieces, hp]
    split
    · rename_i hnone
      refine filePieces_piece hrange fuel (by omega) hp hslot hlen ?_
      intro j hj q hq
      refine hdone j ?_ q hq
      by_contra h
      rw [show j = i by omega, hnone] at hq
      cases hq
    rename_i r hr
    rw [hslot i r hr]
    refine filePieces_piece hrange fuel (by omega) hp hslot (by simpa using hlen) ?_
    intro j hj q hq
    rw [piece_setPiece s (hlen i r hr)]
    by_cases e : j = i
    · subst e
      rw [hr] at hq
      injection hq with hq
      rw [hq, Function.update_self]
    -- the places of different pieces differ
    have hne : slot prio n j q ≠ slot prio n i r := fun h =>
      e (slot_inj (hrange j q hq) (by omega) hq hr h)
    rw [Function.update_of_ne hne]
    exact hdone j (by omega) q hq

/-! ## Shuffling -/

def startOf (s : PiecePicker) (q : Nat) : Nat := if q = 0 then 0 else s.bnd (q - 1)

theorem priority_of_mem_range (L : Layout prio s.pieces.length s.piece s.bnd) {q k : Nat} (h1 : s.startOf q ≤ k)
    (h2 : k < s.bnd q) : prio (s.piece k) = some q := by
  refine L.mem_bucket ?_ h2
  unfold startOf at h1
  split at h1
  · exact Or.inl ‹_›
  · exact Or.inr h1

theorem randomShuffle_layout (rnd : Nat → Nat) {q : Nat} : ∀ (fuel : Nat) {s : PiecePicker} {k : Nat},
    Layout prio s.pieces.length s.piece s.bnd → s.startOf q + k + fuel ≤ s.bnd q →
    Rearranged s (randomShuffle rnd (s.startOf q) fuel s k) ∧
      Layout prio (randomShuffle rnd (s.startOf q) fuel s k).pieces.length
        (randomShuffle rnd (s.startOf q) fuel s k).piece (randomShuffle rnd (s.startOf q) fuel s k).bnd
  | 0, s, k, L, _ => ⟨Rearranged.refl s, L⟩
  | fuel + 1, s, k, L, h => by
    simp only [randomShuffle]
    generalize hj : s.startOf q + rnd (s.startOf q + k) % (k + 1) = j
    have hmod := mod_lt (rnd (s.startOf q + k)) (show 0 < k + 1 by omega)
    have hle := L.le q
    have hk : s.startOf q + k < s.pieces.length := by omega
    have hjl : j < s.pieces.length := by omega
    generalize hs' : (s.setPiece (s.startOf q + k) (s.piece j)).setPiece j (s.piece (s.startOf q + k)) = s'
    have hre : Rearranged s s' := by rw [← hs']; exact (Rearranged.setPiece s _ _).trans (Rearranged.setPiece _ _ _)
    have hpiece : s'.piece = Layout.swapped s.piece (s.startOf q + k) j := by
      rw [← hs', piece_setPiece _ (by simpa using hjl), piece_setPiece _ hk]
      rfl
    have hstart : s'.startOf q = s.startOf q := by unfold startOf; rw [hre.bnd]
    have L' : Layout prio s'.pieces.length s'.piece s'.bnd := by
      rw [hre.length, hre.bnd, hpiece]
      refine L.swap hk hjl ?_
      rw [priority_of_mem_range L (q := q) (by omega) (by omega),
        priority_of_mem_range L (q := q) (by omega) (by omega)]
    have ih := randomShuffle_layout rnd fuel (k := k + 1) L' (by rw [hstart, hre.bnd]; omega)
    rw [hstart] at ih
    exact ⟨hre.trans ih.1, ih.2⟩

theorem shuffleRanges_layout (rnd : Nat → Nat) : ∀ (bs : List Nat) {s : PiecePicker} {q : Nat},
    Layout prio s.pieces.length s.piece s.bnd → bs = s.priorityBoundries.drop q →
    Rearranged s (shuffleRanges rnd s (s.startOf q) bs) ∧
      Layout prio (shuffleRanges rnd s (s.startOf q) bs).pieces.length
        (shuffleRanges rnd s (s.startOf q) bs).piece (shuffleRanges rnd s (s.startOf q) bs).bnd
  | [], s, q, L, _ => ⟨Rearranged.refl s, L⟩
  | b :: bs, s, q, L, hbs => by
    have hq : q < s.priorityBoundries.length := by
      by_contra h
      rw [List.drop_eq_nil_of_le (by omega)] at hbs
      cases hbs
    have hb : b = s.bnd q ∧ bs = s.priorityBoundries.drop (q + 1) := by
      rw [List.drop_eq_getElem_cons hq] at hbs
      injection hbs with h1 h2
      refine ⟨?_, h2⟩
      rw [h1, ← boundry_eq_bnd s hq, boundry, List.getD_eq_getElem _ _ hq]
    have hnext : ∀ s' : PiecePicker, s'.bnd = s.bnd → s'.startOf (q + 1) = b := by
      intro s' h
      rw [hb.1, ← h]
      rfl
    simp only [shuffleRanges]
    split_ifs with e
    · rw [e, ← hnext s rfl]
      exact shuffleRanges_layout rnd bs L hb.2
    have hlt : s.startOf q ≤ s.bnd q := by
      unfold startOf
      split
      · omega
      · exact L.mono (by omega)
    obtain ⟨h1, h2⟩ := randomShuffle_layout rnd (q := q) (b - s.startOf q - 1) (k := 1) L (by omega)
    have ih := shuffleRanges_layout rnd bs h2 (by rw [h1.boundries]; exact hb.2)
    rw [hnext _ h1.bnd] at ih
    exact ⟨h1.trans ih.1, ih.2⟩

/-! ## The back pointers -/

theorem indexPieces_back (hn : s.pieces.length ≤ weHaveIndex)
    (hinj : ∀ i < s.pieces.length, ∀ j < s.pieces.length, s.piece i = s.piece j → i = j)
    (hrange : ∀ k < s.pieces.length, s.piece k < s.numPieces) : ∀ (fuel : Nat) {t : PiecePicker} {k : Nat},
    Frame s t → t.pieces = s.pieces → t.priorityBoundries = s.priorityBoundries → k + fuel = s.pieces.length →
    (∀ j < s.pieces.length, (t.pos (s.piece j)).have = false) → (∀ j < k, (t.pos (s.piece j)).index = j) →
    Frame s (indexPieces fuel t k) ∧ (indexPieces fuel t k).pieces = s.pieces ∧
      (indexPieces fuel t k).priorityBoundries = s.priorityBoundries ∧ SameHave t (indexPieces fuel t k) ∧
      ∀ j < s.pieces.length, ((indexPieces fuel t k).pos (s.piece j)).index = j
  | 0, t, k, hf, hp, hb, hk, _, hdone => ⟨hf, hp, hb, fun _ => rfl, fun j hj => hdone j (by omega)⟩
  | fuel + 1, t, k, hf, hp, hb, hk, hhave, hdone => by
    simp only [indexPieces]
    have hpk : t.piece k = s.piece k := by simp only [piece, hp]
    have hsame : SameHave t (t.setIndex (s.piece k) k) := sameHave_setIndex (hhave k (by omega)) (by omega)
    rw [hpk]
    obtain ⟨h1, h2, h3, h4, h5⟩ := indexPieces_back hn hinj hrange fuel (k := k + 1)
      (hf.trans (Frame.setIndex _ _ _)) hp hb (by omega) (fun j hj => by rw [hsame]; exact hhave j hj) (by
        intro j hj
        rw [pos_setIndex, hf.numPieces]
        by_cases e : j = k
        · subst e; simp [hrange j (by omega)]
        · have hne : s.piece k ≠ s.piece j := fun h => e (hinj k (by omega) j (by omega) h).symm
          rw [if_neg (fun h => hne h.1)]
          exact hdone j (by omega))
    exact ⟨h1, h2, h3, hsame.trans h4, h5⟩

theorem layout_filePieces {t : PiecePicker} (C : Counted s t s.numPieces) :
    Layout s.priority (filePieces t.closeRanges.numPieces t.closeRanges 0).pieces.length
      (filePieces t.closeRanges.numPieces t.closeRanges 0).piece
      (filePieces t.closeRanges.numPieces t.closeRanges 0).bnd := by
  obtain ⟨hlen, hbl, hbnd⟩ := bnd_closeRanges C.nonempty C.size
  have hframe : Frame s t.closeRanges := C.frame.trans ⟨rfl, _, _, _, rfl⟩
  have hrange : ∀ j q, s.priority j = some q → j < s.numPieces ∧ q < t.priorityBoundries.length := by
    intro j q hj
    have hjn : j < s.numPieces := by
      by_contra h
      rw [priority_of_not_lt h] at hj
      cases hj
    exact ⟨hjn, C.fits j hjn q hj⟩
  have hre := rearranged_filePieces t.closeRanges.numPieces t.closeRanges 0
  rw [hre.length, hre.bnd, hlen]
  refine layout_of_slots hrange ?_ hbnd
  rw [hframe.numPieces]
  refine filePieces_piece (fun j q h => (hrange j q h).1) s.numPieces (by omega) (hframe.priority_eq C.same) ?_ ?_
    (fun j hj => by omega)
  · intro j q hj
    obtain ⟨hjn, hq⟩ := hrange j q hj
    have hindex : (t.closeRanges.pos j).index = count s.priority q j := C.number j hjn q hj
    have hstart : t.closeRanges.rangeStart q = total s.priority s.numPieces q := by
      unfold rangeStart
      split
      · rename_i h; rw [h]; rfl
      · rw [boundry_eq_bnd _ (by omega), hbnd]
        congr 1
        omega
    rw [hindex, hstart]
    rfl
  · intro j q hj
    obtain ⟨hjn, hq⟩ := hrange j q hj
    have := (slot_lt_total (q := t.priorityBoundries.length - 1) hjn hj).mpr (by omega)
    rwa [show t.priorityBoundries.length - 1 + 1 = t.priorityBoundries.length by omega, ← hlen] at this

/-- **`update_pieces`** files every piece under its priority. -/
theorem updatePieces_indexed (hn : s.numPieces ≤ weHaveIndex) (rnd : Nat → Nat) :
    Indexed (s.updatePieces rnd) ∧ SameHave s (s.updatePieces rnd) ∧
      Frame { s with dirty := false } (s.updatePieces rnd) := by
  have C := countRanges_counted hn s.numPieces (counted_clearRanges s) (by omega)
  have L := layout_filePieces C
  obtain ⟨-, hbl, hbnd⟩ := bnd_closeRanges C.nonempty C.size
  unfold updatePieces
  dsimp only
  generalize countRanges s.numPieces s.clearRanges 0 = t at *
  have hre1 := rearranged_filePieces t.closeRanges.numPieces t.closeRanges 0
  generalize filePieces t.closeRanges.numPieces t.closeRanges 0 = u at *
  have hshuffle := shuffleRanges_layout rnd u.priorityBoundries (q := 0) L rfl
  rw [show u.startOf 0 = 0 from rfl] at hshuffle
  generalize shuffleRanges rnd u 0 u.priorityBoundries = v at *
  obtain ⟨hre2, L⟩ := hshuffle
  have hre := hre1.trans hre2
  have hframe : Frame s v := (C.frame.trans ⟨rfl, _, _, _, rfl⟩).trans hre.frame
  have hsame : SameHave s v := by
    intro i
    rw [hre.pos]
    exact C.same i
  have hrange : ∀ x r, s.priority x = some r → x < s.numPieces := by
    intro x r hx
    by_contra h
    rw [priority_of_not_lt h] at hx
    cases hx
  have hpiece : ∀ k < v.pieces.length, v.piece k < s.numPieces := by
    intro k hk
    obtain ⟨r, hr⟩ := L.mem k hk
    exact hrange _ r hr
  have hlen : v.pieces.length ≤ weHaveIndex := le_trans (Layout.length_le L hpiece) hn
  obtain ⟨h1, h2, h3, h4, h5⟩ := indexPieces_back hlen L.inj (by rw [hframe.numPieces]; exact hpiece) v.pieces.length
    (Frame.refl v) rfl rfl (zero_add _) (fun j hj => by
      obtain ⟨r, hr⟩ := L.mem j hj
      rw [hsame]
      exact have_of_priority hr) (fun j hj => by omega)
  generalize indexPieces v.pieces.length v 0 = w at *
  have hsame' : SameHave s w := hsame.trans h4
  have hframe' : Frame s w := hframe.trans h1
  have hfinal : Frame { s with dirty := false } { w with dirty := false } := by
    obtain ⟨e, _, _, _, rfl⟩ := hframe'
    exact ⟨e, _, _, _, rfl⟩
  have hpr : ({ w with dirty := false } : PiecePicker).priority = s.priority := hframe'.priority_eq hsame'
  refine ⟨?_, hsame', hfinal⟩
  unfold Indexed
  rw [hpr]
  have hbw : w.bnd = v.bnd := by
    funext q
    rw [bnd, bnd, h2, h3]
  have hpw : w.piece = v.piece := by
    funext k
    simp only [piece, h2]
  refine ⟨?_, ?_, ⟨?_, ?_⟩, ?_⟩
  · show Layout s.priority w.pieces.length w.piece w.bnd
    rw [h2, hpw, hbw]
    exact L
  · show ∀ k < w.pieces.length, (w.pos (w.piece k)).index = k
    rw [h2, hpw]
    exact h5
  · rw [h3, hre.boundries, hbl]
    exact C.nonempty
  · show w.bnd (w.priorityBoundries.length - 1) = w.pieces.length
    have hpos := C.nonempty
    rw [hbw, h3, h2, hre.bnd, hre.boundries, hbl, hre.length, hbnd]
    rw [(bnd_closeRanges C.nonempty C.size).1]
    congr 1
    omega
  · intro x r hx
    show x < w.numPieces
    rw [hframe'.numPieces]
    exact hrange x r hx

end Libtorrent.Picker.PiecePicker
