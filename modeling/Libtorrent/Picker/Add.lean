import Libtorrent.Picker.Layout

/-!
# `remove`, `update` and `shuffle` keep the index

* `remove_filed`: `remove` takes the piece out of the index;
* `update_indexed`: when every piece but one is filed under its priority and that one under `q`, `update q` files it
  under its new priority, or removes it if it has none;
* `shuffle_filed`: `shuffle` swaps two pieces of one range.

All keep `have()` of every piece.
-/

namespace Libtorrent.Picker.PiecePicker

open Buckets List Nat Holed
open Function (update_eq_self update_idem update_of_ne update_self)

variable {s : PiecePicker} {prio : Nat → Option Nat} {p h q : Nat}

/-! ## `remove` -/

theorem removeLoop_succ (fuel : Nat) (s : PiecePicker) (q h : Nat) : removeLoop (fuel + 1) s q h =
      removeLoop fuel (shifted s h (s.boundry q - 1) q (s.boundry q - 1)) (q + 1) (s.boundry q - 1) := by
  simp only [removeLoop, shifted]
  by_cases e : s.boundry q - 1 = h
  · simp [e]
  · simp [e, piece_setBoundry]

theorem removeLoop_holed : ∀ (fuel : Nat) {s : PiecePicker} {prio : Nat → Option Nat} {q h : Nat}, Holed s prio p h →
    prio p = some q → q + (fuel + 1) = s.priorityBoundries.length → s.Closed → s.pieces.length ≤ weHaveIndex →
    Holed (removeLoop (fuel + 1) s q h) (Function.update prio p (some s.priorityBoundries.length)) p
        (s.pieces.length - 1) ∧ (removeLoop (fuel + 1) s q h).pieces.length = s.pieces.length ∧
      (removeLoop (fuel + 1) s q h).priorityBoundries.length = s.priorityBoundries.length ∧
      (removeLoop (fuel + 1) s q h).bnd (s.priorityBoundries.length - 1) = s.pieces.length - 1 ∧
      SameHave s (removeLoop (fuel + 1) s q h)
  | 0, s, prio, q, h, H, hp, hlen, hc, hn => by
    have hq : q < s.priorityBoundries.length := by omega
    obtain ⟨H', -, ht⟩ := H.up hp hq
    have hb : s.bnd q = s.pieces.length := by rw [← hc.2]; congr 1; omega
    rw [removeLoop_succ, boundry_eq_bnd s hq]
    rw [hb] at H' ht ⊢
    simp only [removeLoop]
    refine ⟨?_, shifted_length _ _ _ _ _, ?_, ?_, H.shift_sameHave ht hn⟩
    · rwa [show q + 1 = s.priorityBoundries.length by omega] at H'
    · rw [shifted_boundries, length_set]
    · rw [shifted_bnd hq, show s.priorityBoundries.length - 1 = q by omega, update_self]
  | fuel + 1, s, prio, q, h, H, hp, hlen, hc, hn => by
    have hq : q < s.priorityBoundries.length := by omega
    obtain ⟨H', -, ht⟩ := H.up hp hq
    have hsame := H.shift_sameHave (q := q) (b := s.bnd q - 1) ht hn
    rw [removeLoop_succ, boundry_eq_bnd s hq]
    generalize hs' : shifted s h (s.bnd q - 1) q (s.bnd q - 1) = s' at H' hsame ⊢
    have hl : s'.pieces.length = s.pieces.length := by rw [← hs', shifted_length]
    have hbl : s'.priorityBoundries.length = s.priorityBoundries.length := by
      rw [← hs', shifted_boundries, length_set]
    have hc' : s'.Closed := by
      refine ⟨by omega, ?_⟩
      rw [hbl, hl, ← hs', shifted_bnd hq, update_of_ne (by omega)]
      exact hc.2
    obtain ⟨h1, h2, h3, h4, h5⟩ := removeLoop_holed fuel H' (update_self p _ prio) (by omega) hc' (by omega)
    rw [hl, hbl, update_idem] at h1
    exact ⟨h1, h2.trans hl, h3.trans hbl, by rw [← hbl, h4, hl], hsame.trans h5⟩

/-- **`remove`** takes the piece with the free slot out of the index. -/
theorem remove_filed (H : Holed s prio p h) (hp : prio p = some q) (hq : q < s.priorityBoundries.length)
    (hc : s.Closed) (hn : s.pieces.length ≤ weHaveIndex) :
    Filed (s.remove q h) (Function.update prio p none) ∧ SameHave s (s.remove q h) := by
  have hfuel : s.priorityBoundries.length - q = (s.priorityBoundries.length - q - 1) + 1 := by omega
  obtain ⟨H', hl, hbl, hb, hsame⟩ := removeLoop_holed (s.priorityBoundries.length - q - 1) H hp (by omega) hc hn
  rw [← hfuel] at H' hl hbl hb hsame
  unfold remove
  generalize removeLoop (s.priorityBoundries.length - q) s q h = r at H' hl hbl hb hsame ⊢
  refine ⟨?_, hsame⟩
  have hpos := H.slot
  have hL := H'.layout
  rw [hl, show s.pieces.length = s.pieces.length - 1 + 1 by omega] at hL
  have hL := hL.pop
  rw [show s.pieces.length - 1 + 1 - 1 = s.pieces.length - 1 by omega, update_self, update_idem] at hL
  have hlen : r.popPiece.pieces.length = s.pieces.length - 1 := by simp [popPiece, hl]
  have hpiece : ∀ k < s.pieces.length - 1, r.popPiece.piece k = r.piece k := by
    intro k hk
    simp only [popPiece, piece, Vec.getD_dropLast]
    rw [if_pos (by omega)]
  have hbnd : ∀ x, r.popPiece.bnd x = min (r.bnd x) (s.pieces.length - 1) := by
    intro x
    by_cases hx : x < r.priorityBoundries.length
    · have h1 : r.popPiece.bnd x = r.bnd x := by simp [bnd, popPiece, getD_eq_getElem?_getD, hx]
      have h2 := H'.layout.mono (show x ≤ s.priorityBoundries.length - 1 by omega)
      omega
    · have h1 := bnd_of_le r.popPiece (by simpa [popPiece] using hx)
      have h2 := bnd_of_le r (q := x) (by omega)
      omega
  refine ⟨?_, ?_, ⟨by simpa [popPiece, hbl] using hc.1, ?_⟩, ?_⟩
  · rw [hlen]
    refine hL.congr (fun _ => rfl) ?_ hbnd
    intro k hk
    rw [hpiece k hk, update_of_ne (by omega)]
  · intro k hk
    rw [hlen] at hk
    rw [hpiece k hk]
    exact H'.back k (by omega) (by omega)
  · rw [hbnd, hlen]
    show min (r.bnd (r.priorityBoundries.length - 1)) _ = _
    rw [hbl, hb, min_self]
  · intro x y hx
    by_cases e : x = p
    · rw [e, update_self] at hx
      cases hx
    · rw [update_of_ne e] at hx
      exact H'.range x y (by rw [update_of_ne e, hx])

/-! ## The loops of `update` -/

structure Moved (s : PiecePicker) (prio : Nat → Option Nat) (p q : Nat) (r : PiecePicker × Nat) : Prop where
  holed : Holed r.1 (Function.update prio p (some q)) p r.2
  closed : r.1.Closed
  length : r.1.pieces.length = s.pieces.length
  boundries : r.1.priorityBoundries.length = s.priorityBoundries.length
  same : SameHave s r.1

theorem closed_shifted {t b : Nat} (hc : s.Closed) (hq : q + 1 < s.priorityBoundries.length) :
    (shifted s h t q b).Closed := by
  have hbl : (shifted s h t q b).priorityBoundries.length = s.priorityBoundries.length := by
    rw [shifted_boundries, length_set]
  refine ⟨by omega, ?_⟩
  rw [hbl, shifted_length, shifted_bnd (by omega), update_of_ne (by omega)]
  exact hc.2

theorem Moved.of_shifted {t b q' : Nat} {v : Option Nat} {r : PiecePicker × Nat}
    (hsame : SameHave s (shifted s h t q b))
    (m : Moved (shifted s h t q b) (Function.update prio p v) p q' r) : Moved s prio p q' r where
  holed := by have := m.holed; rwa [update_idem] at this
  closed := m.closed
  length := m.length.trans (shifted_length _ _ _ _ _)
  boundries := m.boundries.trans (by rw [shifted_boundries, length_set])
  same := hsame.trans m.same

/-- The test on pieces of `update` is a test on slots: the stale piece of the free slot `h` is not in slot `t`. -/
theorem updateUp_succ (n : Nat) {s : PiecePicker} {q h : Nat}
    (hne : s.boundry q - 1 ≠ h → s.piece (s.boundry q - 1) ≠ s.piece h) : updateUp (n + 1) s q h (s.piece h) =
      updateUp n (shifted s h (s.boundry q - 1) q (s.boundry q - 1)) (q + 1) (s.boundry q - 1)
        (s.piece (s.boundry q - 1)) := by
  simp only [updateUp, shifted, piece_setBoundry]
  by_cases e : s.boundry q - 1 = h
  · simp [e]
  · simp [e, (hne e).symm]

theorem updateDown_succ (n : Nat) {s : PiecePicker} {q h : Nat}
    (hne : s.boundry q ≠ h → s.piece (s.boundry q) ≠ s.piece h) : updateDown (n + 1) s (q + 1) h (s.piece h) =
      updateDown n (shifted s h (s.boundry q) q (s.boundry q + 1)) q (s.boundry q) (s.piece (s.boundry q)) := by
  simp only [updateDown, shifted, piece_setBoundry, Nat.add_sub_cancel]
  by_cases e : s.boundry q = h
  · simp [e]
  · simp [e, (hne e).symm]

theorem stale_shifted {t b : Nat} : (shifted s h t q b).piece t = s.piece t := by
  by_cases e : t = h
  · unfold shifted
    rw [if_pos e]
    rfl
  · exact shifted_piece_of_ne e

theorem updateUp_moved : ∀ (n : Nat) {s : PiecePicker} {prio : Nat → Option Nat} {q h : Nat}, Holed s prio p h →
    prio p = some q → q + n < s.priorityBoundries.length → s.Closed → s.pieces.length ≤ weHaveIndex →
    (∀ k, h < k → k < s.pieces.length → s.piece k ≠ s.piece h) → Moved s prio p (q + n) (updateUp n s q h (s.piece h))
  | 0, s, prio, q, h, H, hp, _, hc, _, _ => by
    refine ⟨?_, hc, rfl, rfl, fun _ => rfl⟩
    show Holed s (Function.update prio p (some q)) p h
    rwa [← hp, update_eq_self]
  | n + 1, s, prio, q, h, H, hp, hlen, hc, hn, hstale => by
    have hq : q < s.priorityBoundries.length := by omega
    obtain ⟨H', hle, ht⟩ := H.up hp hq
    have hbl : (shifted s h (s.bnd q - 1) q (s.bnd q - 1)).priorityBoundries.length
        = s.priorityBoundries.length := by rw [shifted_boundries, length_set]
    have hne : s.bnd q - 1 ≠ h → s.piece (s.bnd q - 1) ≠ s.piece h := fun e => hstale _ (by omega) ht
    rw [updateUp_succ n (by rwa [boundry_eq_bnd s hq]), boundry_eq_bnd s hq]
    have hst := stale_shifted (s := s) (h := h) (t := s.bnd q - 1) (q := q) (b := s.bnd q - 1)
    have ih := updateUp_moved n H' (update_self p _ prio) (by omega) (closed_shifted hc (by omega))
      (by rw [shifted_length]; exact hn) ?_
    · rw [hst, show q + 1 + n = q + (n + 1) by omega] at ih
      exact Moved.of_shifted (H.shift_sameHave ht hn) ih
    intro k hk hkl
    rw [shifted_length] at hkl
    rw [hst, shifted_piece_of_ne (by omega)]
    by_cases e : s.bnd q - 1 = h
    · rw [e]; exact hstale k (by omega) hkl
    · intro e'
      have := H.piece_inj hkl (by omega) ht e e'
      omega

theorem updateDown_moved : ∀ (n : Nat) {s : PiecePicker} {prio : Nat → Option Nat} {q h : Nat}, Holed s prio p h →
    prio p = some (q + n) → q + n < s.priorityBoundries.length → s.Closed → s.pieces.length ≤ weHaveIndex →
    (∀ k < h, s.piece k ≠ s.piece h) → Moved s prio p q (updateDown n s (q + n) h (s.piece h))
  | 0, s, prio, q, h, H, hp, _, hc, _, _ => by
    refine ⟨?_, hc, rfl, rfl, fun _ => rfl⟩
    rw [add_zero] at hp
    rwa [← hp, update_eq_self]
  | n + 1, s, prio, q, h, H, hp, hlen, hc, hn, hstale => by
    have hq : q + n < s.priorityBoundries.length := by omega
    have hslot := H.slot
    obtain ⟨H', hle⟩ := H.down (q := q + n) hp hq
    have hbl : (shifted s h (s.bnd (q + n)) (q + n) (s.bnd (q + n) + 1)).priorityBoundries.length
        = s.priorityBoundries.length := by rw [shifted_boundries, length_set]
    have hne : s.bnd (q + n) ≠ h → s.piece (s.bnd (q + n)) ≠ s.piece h := fun e => hstale _ (by omega)
    rw [show q + (n + 1) = q + n + 1 by omega, updateDown_succ n (by rwa [boundry_eq_bnd s hq]), boundry_eq_bnd s hq]
    have hst := stale_shifted (s := s) (h := h) (t := s.bnd (q + n)) (q := q + n) (b := s.bnd (q + n) + 1)
    have ih := updateDown_moved n H' (update_self p _ prio) (by omega) (closed_shifted hc (by omega))
      (by rw [shifted_length]; exact hn) ?_
    · rw [hst] at ih
      exact Moved.of_shifted (H.shift_sameHave (by omega) hn) ih
    intro k hk
    rw [hst, shifted_piece_of_ne (by omega)]
    by_cases e : s.bnd (q + n) = h
    · rw [e]; exact hstale k (by omega)
    · intro e'
      have := H.piece_inj (by omega) (by omega) (by omega) e e'
      omega

/-! ## `update` -/

theorem Holed.place (H : Holed s prio p h) (hp : p < s.numPieces) (hc : s.Closed) : Filed (s.place h p) prio := by
  have hlen : (s.place h p).pieces.length = s.pieces.length := by simp [PiecePicker.place]
  have hpiece : (s.place h p).piece = Function.update s.piece h p := piece_setPiece s H.slot p
  have hbnd : (s.place h p).bnd = s.bnd := by simp [PiecePicker.place]
  refine ⟨?_, ?_, ⟨hc.1, ?_⟩, ?_⟩
  · rw [hlen, hpiece, hbnd]; exact H.layout
  · intro k hk
    rw [hlen] at hk
    rw [hpiece]
    simp only [PiecePicker.place, pos_setIndex, pos_setPiece, numPieces_setPiece]
    by_cases e : k = h
    · subst e; simp [hp]
    · rw [update_of_ne e]
      simp [(H.piece_ne hk e).symm, H.back k hk e]
  · rw [hlen, hbnd]; exact hc.2
  · intro x r hx
    simpa [PiecePicker.place] using H.range x r hx

theorem Filed.lt_boundries (F : Filed s prio) {x r : Nat} (hx : prio x = some r) : r < s.priorityBoundries.length := by
  obtain ⟨k, hk, rfl⟩ := F.layout.surj x r hx
  have hc := F.closed
  have := (F.layout.file k hk r hx (s.priorityBoundries.length - 1)).mp (by rw [hc.2]; exact hk)
  have := hc.1
  omega

/-- **`shuffle`** swaps two pieces of a range. -/
theorem shuffle_filed (F : Filed s prio) {k : Nat} (hk : k < s.pieces.length) (hq : prio (s.piece k) = some q)
    (hn : s.pieces.length ≤ weHaveIndex) (rnd : Nat) :
    Filed (s.shuffle q k rnd) prio ∧ SameHave s (s.shuffle q k rnd) := by
  have hlt := F.lt_boundries hq
  have hb := F.layout.bucket_bounds hk hq
  have hstop : s.rangeEnd q = s.bnd q := boundry_eq_bnd s hlt
  have hstart : s.rangeStart q = if q = 0 then 0 else s.bnd (q - 1) := by
    unfold rangeStart
    split
    · rfl
    · exact boundry_eq_bnd s (by omega)
  have hne : s.rangeStart q < s.rangeEnd q := by
    rw [hstart, hstop]
    split <;> omega
  generalize ho : rnd % (s.rangeEnd q - s.rangeStart q) + s.rangeStart q = o
  have hmod := mod_lt rnd (show 0 < s.rangeEnd q - s.rangeStart q by omega)
  have hlo : q = 0 ∨ s.bnd (q - 1) ≤ o := by
    rw [hstart] at ho
    split at ho
    · left; assumption
    · right; omega
  have hhi : o < s.bnd q := by omega
  have holt : o < s.pieces.length := lt_of_lt_of_le hhi (F.layout.le q)
  have hpo : prio (s.piece o) = some q := F.layout.mem_bucket hlo hhi
  unfold shuffle
  simp only [ho]
  split
  · exact ⟨F, fun _ => rfl⟩
  rename_i e
  have hpne : s.piece o ≠ s.piece k := fun e' => e (F.layout.inj o holt k hk e')
  have hro := F.range _ _ hpo
  have hrk := F.range _ _ hq
  rw [F.back o holt, F.back k hk]
  generalize hs' : (((s.setIndex (s.piece o) k).setIndex (s.piece k) o).setPiece o (s.piece k)).setPiece k
    (s.piece o) = s'
  have hpos : ∀ x, s'.pos x = ((s.setIndex (s.piece o) k).setIndex (s.piece k) o).pos x := by
    intro x; rw [← hs']; rfl
  have hlen : s'.pieces.length = s.pieces.length := by rw [← hs']; simp
  have hbnd : s'.bnd = s.bnd := by rw [← hs']; simp
  have hpiece : s'.piece = Layout.swapped s.piece o k := by
    rw [← hs', piece_setPiece _ (by simpa using hk), piece_setPiece _ (by simpa using holt)]
    simp [Layout.swapped]
  refine ⟨⟨?_, ?_, ?_, ?_⟩, ?_⟩
  · rw [hlen, hbnd, hpiece]
    exact F.layout.swap holt hk (hpo.trans hq.symm)
  · intro j hj
    rw [hlen] at hj
    rw [hpos, hpiece]
    simp only [pos_setIndex, numPieces_setIndex]
    by_cases h1 : j = k
    · subst h1
      rw [Layout.swapped_right]
      simp [hpne.symm, hro]
    by_cases h2 : j = o
    · subst h2
      rw [Layout.swapped_left]
      simp [hrk]
    rw [Layout.swapped_of_ne _ h2 h1]
    have h3 : s.piece k ≠ s.piece j := fun e' => h1 (F.layout.inj k hk j hj e').symm
    have h4 : s.piece o ≠ s.piece j := fun e' => h2 (F.layout.inj o holt j hj e').symm
    simp [h3, h4, F.back j hj]
  · have hbs : s'.priorityBoundries = s.priorityBoundries := by rw [← hs']; rfl
    refine ⟨by rw [hbs]; exact F.closed.1, ?_⟩
    rw [hbs, hlen, hbnd]
    exact F.closed.2
  · intro x r hx
    have : s'.numPieces = s.numPieces := by rw [← hs']; simp
    rw [this]
    exact F.range x r hx
  · have h1 : SameHave s (s.setIndex (s.piece o) k) :=
      sameHave_setIndex (have_of_index_lt (F.back o holt) (by omega)) (by omega)
    have h2 : SameHave (s.setIndex (s.piece o) k) ((s.setIndex (s.piece o) k).setIndex (s.piece k) o) := by
      apply sameHave_setIndex
      · rw [h1]; exact have_of_index_lt (F.back k hk) (by omega)
      · omega
    intro x
    rw [hpos]
    exact (h1.trans h2) x

section Grow

variable (s : PiecePicker) (q : Nat)

@[simp] theorem pieces_growBoundries : (s.growBoundries q).pieces = s.pieces := by
  unfold growBoundries; split <;> rfl

@[simp] theorem pieceMap_growBoundries : (s.growBoundries q).pieceMap = s.pieceMap := by
  unfold growBoundries; split <;> rfl

@[simp] theorem bnd_growBoundries : (s.growBoundries q).bnd = s.bnd := by
  funext x
  unfold growBoundries
  split
  · rename_i hq
    simp only [bnd, Vec.getD_resize]
    by_cases hx : x < s.priorityBoundries.length
    · simp [hx, show x < q + 1 by omega]
    · rw [Vec.getD_of_le s.priorityBoundries (by omega)]
      simp [hx]
  · rfl

theorem lt_growBoundries : q < (s.growBoundries q).priorityBoundries.length := by
  unfold growBoundries
  split
  · simp
  · omega

theorem le_growBoundries : s.priorityBoundries.length ≤ (s.growBoundries q).priorityBoundries.length := by
  unfold growBoundries
  split
  · rw [Vec.length_resize]; omega
  · exact le_refl _

variable {s}

theorem Closed.growBoundries (hc : s.Closed) : (s.growBoundries q).Closed := by
  refine ⟨by have := lt_growBoundries s q; omega, ?_⟩
  rw [bnd_growBoundries, pieces_growBoundries]
  unfold PiecePicker.growBoundries
  split
  · rw [Vec.length_resize]
    exact bnd_of_le s (by omega)
  · exact hc.2

theorem Holed.growBoundries (H : Holed s prio p h) : Holed (s.growBoundries q) prio p h where
  layout := by
    have : (s.growBoundries q).piece = s.piece := by funext k; simp [piece]
    rw [pieces_growBoundries, bnd_growBoundries, this]
    exact H.layout
  slot := by rw [pieces_growBoundries]; exact H.slot
  back k hk hne := by
    rw [pieces_growBoundries] at hk
    have h1 : (s.growBoundries q).piece = s.piece := by funext k; simp [piece]
    have h2 : (s.growBoundries q).pos = s.pos := by funext k; simp [pos]
    rw [h1, h2]
    exact H.back k hk hne
  range x r hx := by
    have : (s.growBoundries q).numPieces = s.numPieces := by simp [numPieces]
    rw [this]
    exact H.range x r hx

end Grow

/-- **`update`**: the piece in slot `h` is filed under `q`, every other piece under its priority. -/
theorem update_indexed (H : Holed s (Function.update s.priority p (some q)) p h) (hpiece : s.piece h = p)
    (hback : (s.pos p).index = h) (hq : q < s.priorityBoundries.length) (hc : s.Closed)
    (hn : s.pieces.length ≤ weHaveIndex) (rnd : Nat) : Indexed (s.update q h rnd) ∧ SameHave s (s.update q h rnd) := by
  have hself : Function.update s.piece h p = s.piece := by rw [← hpiece, update_eq_self]
  have hframe := frame_update s q h rnd
  suffices hmain : Filed (s.update q h rnd) s.priority ∧ SameHave s (s.update q h rnd) by
    refine ⟨?_, hmain.2⟩
    unfold Indexed
    rw [hframe.priority_eq hmain.2]
    exact hmain.1
  unfold update
  dsimp only
  rw [hpiece]
  split
  · rename_i hnone
    have := remove_filed H (update_self p _ _) hq hc hn
    rwa [update_idem, ← hnone, update_eq_self] at this
  rename_i q' hq'
  have hidem : Function.update (Function.update s.priority p (some q)) p (some q') = s.priority := by
    rw [update_idem, ← hq', update_eq_self]
  split
  · rename_i e
    subst e
    rw [← hq', update_eq_self] at H
    have hL := H.layout
    rw [hself] at hL
    refine ⟨⟨hL, ?_, hc, H.range⟩, fun _ => rfl⟩
    intro k hk
    by_cases e : k = h
    · rw [e, hpiece, hback]
    · exact H.back k hk e
  have H' := H.growBoundries (q := q')
  have hc' := hc.growBoundries q'
  have hlt := lt_growBoundries s q'
  have hle := le_growBoundries s q'
  have hpieces : (s.growBoundries q').piece = s.piece := by funext k; simp [piece]
  have hinj : ∀ k < s.pieces.length, k ≠ h → s.piece k ≠ s.piece h := by
    intro k hk hkh
    rw [hpiece]
    exact H.piece_ne hk hkh
  -- both loops leave the piece's slot free in the range of its new priority
  have hm : Moved (s.growBoundries q') (Function.update s.priority p (some q)) p q'
      ((s.growBoundries q').updateLoop q q' h p) := by
    unfold updateLoop
    have hp : p = (s.growBoundries q').piece h := by rw [hpieces, hpiece]
    split
    · rename_i hlt'
      have := updateDown_moved (q - q') (q := q') H' (by rw [update_self]; congr 1; omega) (by omega) hc'
        (by simpa using hn) (fun k hk => by
          rw [hpieces]; exact hinj k (by have := H.slot; omega) (by omega))
      rwa [← hp, show q' + (q - q') = q by omega] at this
    · have := updateUp_moved (q' - q) H' (update_self p _ _) (by omega) hc' (by simpa using hn) (fun k hk hkl => by
          rw [hpieces]; exact hinj k (by simpa using hkl) (by omega))
      rwa [← hp, show q + (q' - q) = q' by omega] at this
  have hsame0 : SameHave s (s.growBoundries q') := by
    intro i
    have : (s.growBoundries q').pos = s.pos := by funext k; simp [pos]
    rw [this]
  generalize (s.growBoundries q').updateLoop q q' h p = r at hm ⊢
  have hsame1 := hsame0.trans hm.same
  have hholed := hm.holed
  rw [hidem] at hholed
  have hlen : r.1.pieces.length ≤ weHaveIndex := by rw [hm.length]; simpa using hn
  have hprange : p < r.1.numPieces := hholed.range p q' hq'
  have hphave : (r.1.pos p).have = false := by rw [hsame1]; exact have_of_priority hq'
  have hfiled := hholed.place hprange hm.closed
  have hsame2 := hsame1.trans (sameHave_place hphave (by have := hholed.slot; omega) : SameHave r.1 (r.1.place r.2 p))
  have hslot : r.2 < (r.1.place r.2 p).pieces.length := by simpa [PiecePicker.place] using hholed.slot
  have hat : (r.1.place r.2 p).piece r.2 = p := by
    show (r.1.setPiece r.2 p).piece r.2 = p
    rw [piece_setPiece _ hholed.slot, update_self]
  obtain ⟨h1, h2⟩ := shuffle_filed hfiled hslot (by rw [hat]; exact hq')
    (by simpa [PiecePicker.place] using hlen) rnd
  exact ⟨h1, hsame2.trans h2⟩

/-!
## Filing a new piece: `add`

The loop of `add` carries one piece in hand. `Filed t (update prio c none)` says that everything but the piece `c` in
hand is filed; the loop puts `c` into the slot after its range, takes what was there, and shifts the boundaries up to
the range of the piece taken. `add_indexed`: at the end everything is filed.
-/

open Function (update_apply update_comm)

variable {t : PiecePicker} {c m k : Nat}

/-! ## Shifting a run of boundaries -/

/-- The boundaries of the priorities in `[a, b)` shift up by one. -/
def bump (s : PiecePicker) (a b : Nat) : PiecePicker :=
  { s with priorityBoundries := s.priorityBoundries.mapIdx fun x y => if a ≤ x ∧ x < b then y + 1 else y }

section

variable (s) (a b)

@[simp] theorem length_bump : (s.bump a b).priorityBoundries.length = s.priorityBoundries.length := by
  simp [bump]

@[simp] theorem pieces_bump : (s.bump a b).pieces = s.pieces := rfl

@[simp] theorem piece_bump : (s.bump a b).piece = s.piece := rfl

@[simp] theorem pos_bump : (s.bump a b).pos = s.pos := rfl

@[simp] theorem numPieces_bump : (s.bump a b).numPieces = s.numPieces := rfl

end

variable {a b x fuel : Nat}

section

variable (s)

theorem boundry_bump (hx : x < s.priorityBoundries.length) :
    (s.bump a b).boundry x = if a ≤ x ∧ x < b then s.boundry x + 1 else s.boundry x := by
  simp only [boundry, bump, getD_eq_getElem?_getD, getElem?_mapIdx]
  rw [getElem?_eq_getElem hx]
  rfl

theorem bnd_bump (hb : b ≤ s.priorityBoundries.length) (x : Nat) :
    (s.bump a b).bnd x = if a ≤ x ∧ x < b then s.bnd x + 1 else s.bnd x := by
  by_cases hx : x < s.priorityBoundries.length
  · rw [← boundry_eq_bnd _ (by simpa using hx), boundry_bump s hx, boundry_eq_bnd s hx]
  · rw [bnd_of_le _ (by simpa using hx), bnd_of_le s (by omega), if_neg (by omega), pieces_bump]

@[simp] theorem bump_self (a : Nat) : s.bump a a = s := by
  unfold bump
  congr 1
  apply ext_getElem?
  intro x
  rw [getElem?_mapIdx]
  have hx : ¬ (a ≤ x ∧ x < a) := by omega
  simp [hx]

theorem setBoundry_eq_bump {q : Nat} (hq : q < s.priorityBoundries.length) :
    s.setBoundry q (s.boundry q + 1) = s.bump q (q + 1) := by
  unfold setBoundry bump
  congr 1
  apply ext_getElem?
  intro x
  simp only [getElem?_set, getElem?_mapIdx, boundry, getD_eq_getElem?_getD]
  by_cases e : q = x
  · subst e
    simp [hq]
  · have hx : ¬ (q ≤ x ∧ x < q + 1) := by omega
    simp only [if_neg e, if_neg hx, Option.map_id']

theorem bump_bump {d : Nat} (h1 : a ≤ b) (h2 : b ≤ d) : (s.bump a b).bump b d = s.bump a d := by
  unfold bump
  congr 1
  apply ext_getElem?
  intro x
  simp only [getElem?_mapIdx, Option.map_map]
  congr 1
  funext y
  simp only [Function.comp]
  split_ifs <;> omega

end

theorem addShift_eq : ∀ (fuel : Nat) {s : PiecePicker} {q k r : Nat}, q ≤ r → r < s.priorityBoundries.length →
    s.priorityBoundries.length ≤ q + fuel → (∀ x, q ≤ x → x < r → s.boundry x = k) →
    (r + 1 < s.priorityBoundries.length → s.boundry r ≠ k) →
    addShift fuel s q k = (s.bump q (r + 1), r + 1, s.boundry r)
  | 0, s, q, k, r, _, _, _, _, _ => by omega
  | fuel + 1, s, q, k, r, hqr, hr, hf, hempty, hlast => by
    have hq : q < s.priorityBoundries.length := by omega
    simp only [addShift, setBoundry_eq_bump s hq, length_bump]
    by_cases e : q = r
    · subst e
      rw [if_neg fun h => hlast h.2 h.1]
    have hlt : q < r := by omega
    rw [if_pos ⟨hempty q (le_refl q) hlt, by omega⟩]
    have hkeep : ∀ x, q + 1 ≤ x → x ≤ r → (s.bump q (q + 1)).boundry x = s.boundry x := by
      intro x h1 h2
      rw [boundry_bump s (by omega), if_neg (by omega)]
    rw [addShift_eq fuel (r := r) (by omega) (by simpa using hr) (by simp; omega)
        (fun x h1 h2 => by rw [hkeep x h1 (by omega)]; exact hempty x (by omega) h2)
        (fun h => by rw [hkeep r (by omega) (le_refl r)]; exact hlast (by simpa using h)),
      bump_bump s (by omega) (by omega), hkeep r (by omega) (le_refl r)]

/-! ## The piece in hand goes down -/

theorem range_of_missing (F : Filed t (Function.update prio c none)) (hc : c < t.numPieces) :
    ∀ x r, prio x = some r → x < t.numPieces := by
  intro x r hx
  by_cases e : x = c
  · rw [e]; exact hc
  · exact F.range x r (by rwa [update_of_ne e])

theorem piece_ne_missing (F : Filed t (Function.update prio c none)) {j : Nat} (hj : j < t.pieces.length) :
    t.piece j ≠ c := by
  intro e
  obtain ⟨r, hr⟩ := F.layout.mem j hj
  rw [e, update_self] at hr
  cases hr

theorem ne_noPiece (hc : c < t.numPieces) (hnum : t.numPieces ≤ weHaveIndex) : c ≠ noPiece := by
  have : noPiece = weHaveIndex := rfl
  omega

theorem missing_exchange (hm : prio c = some m) (hne : x ≠ c) :
    Function.update (Function.update (Function.update prio c none) x none) c (some m) =
      Function.update prio x none := by
  rw [update_comm hne, update_idem, ← hm, update_eq_self]

theorem Filed.exchange (F : Filed t (Function.update prio c none)) (hk : k < t.pieces.length)
    (hc : c < t.numPieces) (hclosed : (t.bump a b).Closed)
    (L : Layout (Function.update prio (t.piece k) none) t.pieces.length (Function.update t.piece k c)
      (t.bump a b).bnd) :
    Filed ((t.bump a b).place k c) (Function.update prio (t.piece k) none) := by
  have hlen : ((t.bump a b).place k c).pieces.length = t.pieces.length := by simp [place]
  have hpiece : ((t.bump a b).place k c).piece = Function.update t.piece k c := piece_setPiece (t.bump a b) hk c
  have hbnd : ((t.bump a b).place k c).bnd = (t.bump a b).bnd := by simp [place]
  refine ⟨?_, ?_, ⟨hclosed.1, ?_⟩, ?_⟩
  · rw [hlen, hpiece, hbnd]; exact L
  · intro j hj
    rw [hlen] at hj
    rw [hpiece]
    simp only [place, pos_setIndex, pos_setPiece, numPieces_setPiece, pos_bump, numPieces_bump]
    by_cases e : j = k
    · subst e; simp [hc]
    · rw [update_of_ne e]
      simp [(piece_ne_missing F hj).symm, F.back j hj]
  · rw [hlen, hbnd]; exact hclosed.2
  · intro x r hx
    have hn : ((t.bump a b).place k c).numPieces = t.numPieces := by simp [place]
    rw [hn]
    by_cases e : x = t.piece k
    · rw [e, update_self] at hx; cases hx
    · rw [update_of_ne e] at hx
      exact range_of_missing F hc x r hx

theorem Filed.append (F : Filed t (Function.update prio c none)) (hm : prio c = some m) (hc : c < t.numPieces)
    (hlen : m < t.priorityBoundries.length) (hlast : t.bnd m = t.pieces.length) :
    Filed (((t.bump m t.priorityBoundries.length).pushPiece c).setIndex c t.pieces.length) prio := by
  generalize hs : ((t.bump m t.priorityBoundries.length).pushPiece c).setIndex c t.pieces.length = s
  have hl : s.pieces.length = t.pieces.length + 1 := by rw [← hs]; simp [pushPiece]
  have hbl : s.priorityBoundries.length = t.priorityBoundries.length := by rw [← hs]; simp [pushPiece]
  have hpiece : ∀ j < t.pieces.length + 1, s.piece j = Function.update t.piece t.pieces.length c j := by
    intro j hj
    rw [← hs]
    show (t.pieces ++ [c]).getD j 0 = _
    rw [Vec.getD_concat, update_apply]
    by_cases e : j = t.pieces.length
    · simp [e]
    · simp [e, show j < t.pieces.length by omega, piece]
  have hbnd : ∀ x, s.bnd x = if m ≤ x then t.bnd x + 1 else t.bnd x := by
    intro x
    by_cases hx : x < t.priorityBoundries.length
    · have h1 : s.bnd x = (t.bump m t.priorityBoundries.length).bnd x := by
        rw [← boundry_eq_bnd s (by omega), ← boundry_eq_bnd _ (by simpa using hx), ← hs]
        rfl
      rw [h1, bnd_bump t (le_refl _)]
      simp [hx]
    · rw [bnd_of_le s (by omega), bnd_of_le t (by omega), if_pos (by omega), hl]
  have hpos : ∀ x, s.pos x = if c = x ∧
    x < t.numPieces then { t.pos x with index := t.pieces.length } else t.pos x := by
    intro x
    rw [← hs, pos_setIndex]
    rfl
  have L := F.layout.push hlast (update_self c none prio)
  rw [update_idem, ← hm, update_eq_self] at L
  refine ⟨?_, ?_, ⟨by omega, ?_⟩, ?_⟩
  · rw [hl]
    exact L.congr (fun _ => rfl) hpiece hbnd
  · intro j hj
    rw [hl] at hj
    rw [hpiece j hj, hpos]
    by_cases e : j = t.pieces.length
    · subst e; simp [hc]
    · rw [update_of_ne e]
      have hj' : j < t.pieces.length := by omega
      simp [(piece_ne_missing F hj').symm, F.back j hj']
  · rw [hbl, hbnd, hl, if_pos (by omega), F.closed.2]
  · intro x r hx
    have hn : s.numPieces = t.numPieces := by rw [← hs, numPieces_setIndex]; rfl
    rw [hn]
    exact range_of_missing F hc x r hx

/-! ## The loop -/

theorem place_pushPiece (hk : k < t.pieces.length) : (t.pushPiece q).place k c = (t.place k c).pushPiece q := by
  simp only [place, setPiece, setIndex, modifyPos, pushPiece, set_append_left _ _ hk]

theorem place_pushPiece_last :
    (t.pushPiece q).place t.pieces.length c = (t.pushPiece c).setIndex c t.pieces.length := by
  simp only [place, setPiece, setIndex, modifyPos, pushPiece]
  rw [set_append_right _ _ (le_refl _)]
  simp

theorem piece_pushPiece (hk : k < t.pieces.length) : (t.pushPiece q).piece k = t.piece k := by
  simp only [piece, pushPiece, getD_append _ _ _ _ hk]

theorem piece_pushPiece_last : (t.pushPiece q).piece t.pieces.length = q := by
  simp only [piece, pushPiece, Vec.getD_concat]
  simp

/-- What is left of `add` with `c` in hand, which goes behind its range; the boundaries of `[m, q)` are shifted. -/
def addRest (fuel : Nat) (t : PiecePicker) (m q c : Nat) : PiecePicker :=
  let s := (t.bump m q).pushPiece noPiece
  addLast (if s.priorityBoundries.length ≤ q then (s, t.bnd m, c) else addLoop fuel s q (t.bnd m) c)

/-- No range behind that of `c` has a piece: `c` goes last and the loop ends. -/
theorem addRest_append (F : Filed t (Function.update prio c none)) (hlen : m < t.priorityBoundries.length)
    (hmq : m ≤ q) (hqm : q ≤ m + 1) (hfuel : t.priorityBoundries.length ≤ q + fuel) (hne : c ≠ noPiece)
    (hlast : t.bnd m = t.pieces.length) :
    addRest fuel t m q c = ((t.bump m t.priorityBoundries.length).pushPiece c).setIndex c t.pieces.length := by
  have hl : ((t.bump m q).pushPiece noPiece).priorityBoundries.length = t.priorityBoundries.length := length_bump t m q
  have hplace : ((t.bump m q).pushPiece noPiece).place t.pieces.length c =
      ((t.bump m q).pushPiece c).setIndex c t.pieces.length := place_pushPiece_last
  simp only [addRest, hl, hlast]
  split_ifs with hq
  · rw [show q = t.priorityBoundries.length by omega] at hplace ⊢
    simp only [addLast, if_pos hne, hplace]
  obtain ⟨fuel, rfl⟩ : ∃ f, fuel = f + 1 := ⟨fuel - 1, by omega⟩
  have htemp : ((t.bump m q).pushPiece noPiece).piece t.pieces.length = noPiece := piece_pushPiece_last
  have hbnd : ∀ x, q ≤ x → x < t.priorityBoundries.length - 1 →
      (((t.bump m q).pushPiece c).setIndex c t.pieces.length).boundry x = t.pieces.length := by
    intro x h1 h2
    show (t.bump m q).boundry x = _
    have h3 := F.layout.mono (show m ≤ x by omega)
    have h4 := F.layout.le x
    rw [boundry_bump t (by omega), if_neg (by omega), boundry_eq_bnd t (by omega)]
    omega
  have hl' : (((t.bump m q).pushPiece c).setIndex c t.pieces.length).priorityBoundries.length =
      t.priorityBoundries.length := length_bump t m q
  have hshift := addShift_eq (t.priorityBoundries.length - q)
    (by omega) (by omega) (by omega) hbnd (by omega)
  rw [show t.priorityBoundries.length - 1 + 1 = t.priorityBoundries.length by omega] at hshift
  simp only [addLoop, htemp, hplace, hl', hshift, length_bump, le_refl, if_true, addLast, ne_eq, not_true_eq_false,
    if_false]
  show (((t.bump m q).bump q t.priorityBoundries.length).pushPiece c).setIndex c t.pieces.length = _
  rw [bump_bump t hmq (by omega)]

/-- Otherwise `c` takes the first slot of the next range that has a piece, and that piece is in hand. -/
theorem addRest_exchange {r : Nat} (fuel : Nat) (F : Filed t (Function.update prio c none)) (hmq : m ≤ q)
    (hqm : q ≤ m + 1) (hlast : t.bnd m < t.pieces.length) (hr : prio (t.piece (t.bnd m)) = some r) :
    addRest (fuel + 1) t m q c = addRest fuel ((t.bump m r).place (t.bnd m) c) r (r + 1) (t.piece (t.bnd m)) ∧
      m < r ∧ r < t.priorityBoundries.length := by
  have hr' : Function.update prio c none (t.piece (t.bnd m)) = some r := by
    rwa [update_of_ne (piece_ne_missing F hlast)]
  have hfile := F.layout.file _ hlast r hr'
  have hrlen := F.lt_boundries hr'
  have hmr : m < r := by
    by_contra h
    have := (hfile m).mpr (by omega)
    omega
  refine ⟨?_, hmr, hrlen⟩
  have hl : ((t.bump m q).pushPiece noPiece).priorityBoundries.length = t.priorityBoundries.length := length_bump t m q
  have hpiece : ((t.bump m q).pushPiece noPiece).piece (t.bnd m) = t.piece (t.bnd m) := piece_pushPiece hlast
  have hplace : ((t.bump m q).pushPiece noPiece).place (t.bnd m) c =
      ((t.bump m q).place (t.bnd m) c).pushPiece noPiece := place_pushPiece hlast
  have hboundry : ∀ x, q ≤ x → x < t.priorityBoundries.length →
      (((t.bump m q).place (t.bnd m) c).pushPiece noPiece).boundry x = t.bnd x := by
    intro x h1 h2
    show (t.bump m q).boundry x = _
    rw [boundry_bump t h2, if_neg (by omega), boundry_eq_bnd t h2]
  have hl' : (((t.bump m q).place (t.bnd m) c).pushPiece noPiece).priorityBoundries.length =
      t.priorityBoundries.length := length_bump t m q
  -- the ranges between `m` and `r` are empty
  have hempty : ∀ x, q ≤ x → x < r → (((t.bump m q).place (t.bnd m) c).pushPiece noPiece).boundry x = t.bnd m := by
    intro x h1 h2
    rw [hboundry x h1 (by omega)]
    have h3 := F.layout.mono (show m ≤ x by omega)
    have h4 : ¬ t.bnd m < t.bnd x := fun h => by have := (hfile x).mp h; omega
    omega
  have hstop : (((t.bump m q).place (t.bnd m) c).pushPiece noPiece).boundry r ≠ t.bnd m := by
    rw [hboundry r (by omega) hrlen]
    have := (hfile r).mpr (le_refl r)
    omega
  have hshift := addShift_eq (t.priorityBoundries.length - q) (by omega) (by omega) (by omega) hempty
    (fun _ => hstop)
  have hbump : (((t.bump m q).place (t.bnd m) c).pushPiece noPiece).bump q (r + 1) =
      (((t.bump m r).place (t.bnd m) c).bump r (r + 1)).pushPiece noPiece := by
    show (((t.bump m q).bump q (r + 1)).place (t.bnd m) c).pushPiece noPiece =
      (((t.bump m r).bump r (r + 1)).place (t.bnd m) c).pushPiece noPiece
    rw [bump_bump t hmq (by omega), bump_bump t (by omega) (by omega)]
  have hbndr : ((t.bump m r).place (t.bnd m) c).bnd r = t.bnd r := by
    simp only [place, bnd_setIndex, bnd_setPiece]
    rw [bnd_bump t (by omega), if_neg (by omega)]
  have hl'' : (((t.bump m r).place (t.bnd m) c).bump r (r + 1)).priorityBoundries.length =
      t.priorityBoundries.length := by simp [place]
  have hq : ¬ t.priorityBoundries.length ≤ q := by omega
  simp only [addRest, hl, if_neg hq, addLoop, hpiece, hplace, hl', hshift, hbump, hboundry r (by omega) hrlen, hbndr]

theorem sameHave_append (hhave : (t.pos c).have = false) (hn : t.pieces.length < weHaveIndex) {l : Nat} :
    SameHave t (((t.bump m l).pushPiece c).setIndex c t.pieces.length) :=
  sameHave_setIndex hhave hn

/-- **The loop of `add`** files the piece in hand; each round files one piece and takes one of a later range. -/
theorem addRest_filed : ∀ (fuel : Nat) {t : PiecePicker} {c m q : Nat}, Filed t (Function.update prio c none) →
    prio c = some m → c < t.numPieces → m < t.priorityBoundries.length → m ≤ q → q ≤ m + 1 →
    t.priorityBoundries.length ≤ q + fuel → (t.pos c).have = false → t.pieces.length < weHaveIndex →
    t.numPieces ≤ weHaveIndex → Filed (addRest fuel t m q c) prio ∧ SameHave t (addRest fuel t m q c) := by
  intro fuel
  induction fuel with
  | zero =>
    intro t c m q F hm hc hlen hmq hqm hfuel hhave hn hnum
    have hlast : t.bnd m = t.pieces.length := by
      rw [← F.closed.2]
      congr 1
      omega
    rw [addRest_append F hlen hmq hqm hfuel (ne_noPiece hc hnum) hlast]
    exact ⟨F.append hm hc hlen hlast, sameHave_append hhave hn⟩
  | succ fuel ih =>
    intro t c m q F hm hc hlen hmq hqm hfuel hhave hn hnum
    have hle := F.layout.le m
    by_cases hlast : t.bnd m = t.pieces.length
    · rw [addRest_append F hlen hmq hqm hfuel (ne_noPiece hc hnum) hlast]
      exact ⟨F.append hm hc hlen hlast, sameHave_append hhave hn⟩
    have hlt : t.bnd m < t.pieces.length := by omega
    obtain ⟨r, hr⟩ := F.layout.mem _ hlt
    have hne := piece_ne_missing F hlt
    have hr' : prio (t.piece (t.bnd m)) = some r := by rwa [update_of_ne hne] at hr
    obtain ⟨he, hmr, hrlen⟩ := addRest_exchange fuel F hmq hqm hlt hr'
    -- the displaced piece `t.piece (t.bnd m)` is the next one in hand
    have hclosed : (t.bump m r).Closed := by
      refine ⟨by simpa using F.closed.1, ?_⟩
      rw [length_bump, bnd_bump t (by omega), if_neg (by omega)]
      exact F.closed.2
    have L := F.layout.displace hlt (update_self c none prio) hr
    rw [missing_exchange hm hne] at L
    have F' : Filed ((t.bump m r).place (t.bnd m) c) (Function.update prio (t.piece (t.bnd m)) none) :=
      F.exchange hlt hc hclosed (L.congr (fun _ => rfl) (fun _ _ => rfl) (bnd_bump t (by omega)))
    have hsame : SameHave t ((t.bump m r).place (t.bnd m) c) := sameHave_place hhave (by omega)
    have hhave' : (((t.bump m r).place (t.bnd m) c).pos (t.piece (t.bnd m))).have = false := by
      rw [hsame]
      exact have_of_index_lt (F.back _ hlt) (by omega)
    have hl : ((t.bump m r).place (t.bnd m) c).priorityBoundries.length = t.priorityBoundries.length :=
      length_bump t m r
    have hnum' : ((t.bump m r).place (t.bnd m) c).numPieces = t.numPieces := by simp [place]
    obtain ⟨h1, h2⟩ := ih F' hr' (by rw [hnum']; exact F.range _ _ hr) (by omega) (by omega) (le_refl _)
      (by omega) hhave' (by simpa [place] using hn) (by omega)
    rw [he]
    exact ⟨h1, hsame.trans h2⟩

theorem Filed.growBoundries (F : Filed s prio) (q : Nat) : Filed (s.growBoundries q) prio := by
  have h1 : (s.growBoundries q).piece = s.piece := by funext k; simp [piece]
  have h2 : (s.growBoundries q).pos = s.pos := by funext k; simp [pos]
  refine ⟨?_, ?_, F.closed.growBoundries q, ?_⟩
  · rw [pieces_growBoundries, bnd_growBoundries, h1]; exact F.layout
  · rw [pieces_growBoundries, h1, h2]; exact F.back
  · simpa [numPieces] using F.range

theorem newSlot_bounds (F : Filed s prio) (hq : q < s.priorityBoundries.length) (rnd : Nat) :
    s.newSlot q rnd ≤ s.bnd q ∧ (q = 0 ∨ s.bnd (q - 1) ≤ s.newSlot q rnd) := by
  have hstop : s.rangeEnd q = s.bnd q := boundry_eq_bnd s hq
  have hstart : q = 0 ∧ s.rangeStart q = 0 ∨ s.rangeStart q = s.bnd (q - 1) := by
    unfold rangeStart
    split
    · exact Or.inl ⟨by assumption, rfl⟩
    · exact Or.inr (boundry_eq_bnd s (by omega))
  have hmono := F.layout.mono (show q - 1 ≤ q by omega)
  unfold newSlot
  dsimp only
  have hmod := mod_lt rnd (show 0 < s.rangeEnd q - s.rangeStart q + 1 by omega)
  split <;> omega

theorem addLoop_inside (hq : q < s.priorityBoundries.length) (hk : k < s.bnd q) (hkl : k < s.pieces.length) :
    addLast (addLoop (fuel + 1) (s.pushPiece noPiece) q k c) = addRest fuel (s.place k c) q (q + 1) (s.piece k) := by
  have hshift := addShift_eq (s.priorityBoundries.length - q) (s := (s.place k c).pushPiece noPiece)
    (le_refl q) hq (by show s.priorityBoundries.length ≤ _; omega) (fun x _ _ => by omega)
    (fun _ => by show s.boundry q ≠ k; rw [boundry_eq_bnd s hq]; omega)
  have hboundry : ((s.place k c).pushPiece noPiece).boundry q = s.bnd q := boundry_eq_bnd s hq
  have hbnd : (s.place k c).bnd q = s.bnd q := by simp [place]
  have hl : ((s.place k c).pushPiece noPiece).priorityBoundries.length = s.priorityBoundries.length := rfl
  have hbump : ((s.place k c).pushPiece noPiece).bump q (q + 1) = ((s.place k c).bump q (q + 1)).pushPiece
    noPiece := rfl
  simp only [addLoop, addRest, place_pushPiece hkl, piece_pushPiece hkl, hl, hshift, hboundry, hbnd, hbump]

/-- **`add`**: a piece that has a priority and is not filed yet gets filed. -/
theorem add_indexed {p : Nat} (F : Filed s (Function.update s.priority p none)) (hp : s.priority p = some q)
    (hn : s.pieces.length < weHaveIndex) (hnum : s.numPieces ≤ weHaveIndex) (rnd : Nat) :
    Indexed (s.add p rnd) ∧ SameHave s (s.add p rnd) := by
  suffices hmain : Filed (s.add p rnd) s.priority ∧ SameHave s (s.add p rnd) by
    refine ⟨?_, hmain.2⟩
    unfold Indexed
    rw [(frame_add s p rnd).priority_eq hmain.2]
    exact hmain.1
  have hprange : p < s.numPieces := by
    by_contra h
    rw [priority_of_not_lt h] at hp
    cases hp
  have hadd : s.add p rnd = addLast (addLoop ((s.growBoundries q).priorityBoundries.length - q)
      ((s.growBoundries q).pushPiece noPiece) q ((s.growBoundries q).newSlot q rnd) p) := by
    simp only [add, hp]
    rfl
  have hnum' : (s.growBoundries q).numPieces = s.numPieces := by simp [numPieces]
  have hsame : SameHave s (s.growBoundries q) := by
    intro i
    have : (s.growBoundries q).pos = s.pos := by funext k; simp [pos]
    rw [this]
  have hhave : ((s.growBoundries q).pos p).have = false := by
    rw [hsame]
    exact have_of_priority hp
  have hlen := lt_growBoundries s q
  have hlg : (s.growBoundries q).pieces.length < weHaveIndex := by rwa [pieces_growBoundries]
  have F' := F.growBoundries q
  rw [hadd]
  generalize s.growBoundries q = g at *
  obtain ⟨hk, hlo⟩ := newSlot_bounds F' hlen rnd
  generalize g.newSlot q rnd = k at *
  by_cases e : k = g.bnd q
  · -- the slot behind the range: the loop starts with `p` in hand
    subst e
    have he : addLast (addLoop (g.priorityBoundries.length - q) (g.pushPiece noPiece) q (g.bnd q) p) =
        addRest (g.priorityBoundries.length - q) g q q p := by
      have hnq : ¬ (g.pushPiece noPiece).priorityBoundries.length ≤ q := by
        show ¬ g.priorityBoundries.length ≤ q
        omega
      simp only [addRest, bump_self, if_neg hnq]
    rw [he]
    obtain ⟨h1, h2⟩ := addRest_filed (g.priorityBoundries.length - q) F' hp (by omega) hlen (le_refl q) (by omega)
      (by omega) hhave hlg (by omega)
    exact ⟨h1, hsame.trans h2⟩
  -- a slot of the range: `p` takes it from a piece of its own priority
  have hkb : k < g.bnd q := by omega
  have hkl : k < g.pieces.length := lt_of_lt_of_le hkb (F'.layout.le q)
  have hne := piece_ne_missing F' hkl
  have hpk := F'.layout.mem_bucket hlo hkb
  have L := F'.layout.replace hkl (update_self p none s.priority) hpk
  rw [missing_exchange hp hne] at L
  have hb : g.bump 0 0 = g := bump_self g 0
  have F'' : Filed (g.place k p) (Function.update s.priority (g.piece k) none) := by
    have := F'.exchange hkl (by omega) (by rw [hb]; exact F'.closed) (by rw [hb]; exact L)
    rwa [hb] at this
  have hsame' : SameHave g (g.place k p) := sameHave_place hhave (by omega)
  have hhave' : ((g.place k p).pos (g.piece k)).have = false := by
    rw [hsame']
    exact have_of_index_lt (F'.back k hkl) (by omega)
  have hnum'' : (g.place k p).numPieces = g.numPieces := by simp [place]
  have hl : (g.place k p).priorityBoundries.length = g.priorityBoundries.length := rfl
  obtain ⟨f, hf⟩ : ∃ f, g.priorityBoundries.length - q = f + 1 := ⟨g.priorityBoundries.length - q - 1, by omega⟩
  rw [hf, addLoop_inside hlen hkb hkl]
  rw [update_of_ne hne] at hpk
  obtain ⟨h1, h2⟩ := addRest_filed f F'' hpk (by rw [hnum'']; exact range_of_missing F' (by omega) _ _ hpk)
    (by omega) (by omega) (le_refl _) (by omega) hhave' (by simpa [place] using hlg) (by omega)
  exact ⟨h1, (hsame.trans hsame').trans h2⟩

end Libtorrent.Picker.PiecePicker
