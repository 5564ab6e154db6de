import Libtorrent.Lib.Buckets
import Libtorrent.Picker.Index

/-!
# The index as a bucket layout: `remove` and `update`

`Filed s prio` says that `m_pieces`, `m_priority_boundries` and the back pointers file every piece under `prio`;
`Indexed s` that they file it under its own priority. While `remove` and `update` run, the piece `p` that moves is in
no slot: `Holed s prio p h` files all pieces with `p` in the free slot `h`, whose content in `m_pieces` is stale.

`Frame s s'`: only the index (`m_pieces`, `m_priority_boundries`, the back pointers) changes.
-/

namespace Libtorrent.Picker

open Buckets List
open Function (update_apply update_idem update_of_ne update_self)

/-- A `piece_pos` without its back pointer. -/
def PiecePos.tag (p : PiecePos) : PiecePos := { p with index := 0 }

namespace PiecePicker

variable (s : PiecePicker)

/-- The end of the range of priority `q`, whether or not it has an entry. -/
def bnd (q : Nat) : Nat := s.priorityBoundries.getD q s.pieces.length

/-! ## Reading the state after a write -/

section Access

variable (s : PiecePicker)

@[simp] theorem piece_setIndex (p k : Nat) : (s.setIndex p k).piece = s.piece := rfl

@[simp] theorem piece_setBoundry (q b : Nat) : (s.setBoundry q b).piece = s.piece := rfl

@[simp] theorem pieces_setIndex (p k : Nat) : (s.setIndex p k).pieces = s.pieces := rfl

@[simp] theorem pieces_setBoundry (q b : Nat) : (s.setBoundry q b).pieces = s.pieces := rfl

@[simp] theorem length_setPiece (k p : Nat) : (s.setPiece k p).pieces.length = s.pieces.length := by simp [setPiece]

@[simp] theorem boundries_setPiece (k p : Nat) : (s.setPiece k p).priorityBoundries = s.priorityBoundries := rfl

@[simp] theorem boundries_setIndex (p k : Nat) : (s.setIndex p k).priorityBoundries = s.priorityBoundries := rfl

@[simp] theorem length_setBoundry (q b : Nat) :
    (s.setBoundry q b).priorityBoundries.length = s.priorityBoundries.length := by simp [setBoundry]

@[simp] theorem pos_setPiece (k p : Nat) : (s.setPiece k p).pos = s.pos := rfl

@[simp] theorem pos_setBoundry (q b : Nat) : (s.setBoundry q b).pos = s.pos := rfl

@[simp] theorem numPieces_setPiece (k p : Nat) : (s.setPiece k p).numPieces = s.numPieces := rfl

@[simp] theorem numPieces_setBoundry (q b : Nat) : (s.setBoundry q b).numPieces = s.numPieces := rfl

@[simp] theorem numPieces_modifyPos (i : Nat) (f : PiecePos → PiecePos) :
    (s.modifyPos i f).numPieces = s.numPieces := by
  simp [modifyPos, numPieces]

@[simp] theorem numPieces_setIndex (p k : Nat) : (s.setIndex p k).numPieces = s.numPieces := by simp [setIndex]

theorem pos_modifyPos (i j : Nat) (f : PiecePos → PiecePos) :
    (s.modifyPos i f).pos j = if i = j ∧ j < s.numPieces then f (s.pos j) else s.pos j :=
  Vec.getD_update _ _ _ _ _

theorem pos_setIndex (p k x : Nat) :
    (s.setIndex p k).pos x = if p = x ∧ x < s.numPieces then { s.pos x with index := k } else s.pos x :=
  pos_modifyPos s p x _

variable {k q : Nat}

theorem piece_setPiece (hk : k < s.pieces.length) (p : Nat) : (s.setPiece k p).piece = Function.update s.piece k p := by
  funext j
  simp only [piece, setPiece, Vec.getD_set, update_apply]
  by_cases h : k = j
  · subst h; simp [hk]
  · simp [h, Ne.symm h]

theorem piece_setPiece_of_ne {j : Nat} (h : j ≠ k) (p : Nat) : (s.setPiece k p).piece j = s.piece j := by
  simp only [piece, setPiece, Vec.getD_set]
  simp [Ne.symm h]

theorem bnd_setBoundry (hq : q < s.priorityBoundries.length) (b : Nat) :
    (s.setBoundry q b).bnd = Function.update s.bnd q b := by
  funext r
  simp only [bnd, setBoundry, Vec.getD_set, update_apply]
  by_cases h : q = r
  · subst h; simp [hq]
  · simp [h, Ne.symm h]

@[simp] theorem bnd_setPiece (k p : Nat) : (s.setPiece k p).bnd = s.bnd := by
  funext r
  simp [bnd]

@[simp] theorem bnd_setIndex (p k : Nat) : (s.setIndex p k).bnd = s.bnd := rfl

theorem boundry_eq_bnd (hq : q < s.priorityBoundries.length) : s.boundry q = s.bnd q := by
  simp [boundry, bnd, getD_eq_getElem?_getD, hq]

theorem bnd_of_le (hq : s.priorityBoundries.length ≤ q) : s.bnd q = s.pieces.length :=
  Vec.getD_of_le _ hq _

end Access

/-! ## What the index operations leave alone -/

def Frame (s s' : PiecePicker) : Prop :=
  s'.pieceMap.map PiecePos.tag = s.pieceMap.map PiecePos.tag ∧
    ∃ ps bs m, s' = { s with pieces := ps, priorityBoundries := bs, pieceMap := m }

namespace Frame

variable {s s' s'' : PiecePicker}

theorem refl (s : PiecePicker) : Frame s s := ⟨rfl, _, _, _, rfl⟩

theorem trans (h1 : Frame s s') (h2 : Frame s' s'') : Frame s s'' := by
  obtain ⟨e1, _, _, _, rfl⟩ := h1
  obtain ⟨e2, _, _, _, rfl⟩ := h2
  exact ⟨e2.trans e1, _, _, _, rfl⟩

theorem numPieces (h : Frame s s') : s'.numPieces = s.numPieces := by
  have := congrArg length h.1
  simpa [PiecePicker.numPieces] using this

theorem tag (h : Frame s s') (i : Nat) : (s'.pos i).tag = (s.pos i).tag := by
  have := congrArg (fun l => l.getD i (PiecePos.tag default)) h.1
  simpa only [getD_map, pos] using this

section

variable (s)

theorem setPiece (k p : Nat) : Frame s (s.setPiece k p) := ⟨rfl, _, _, _, rfl⟩

theorem setBoundry (q b : Nat) : Frame s (s.setBoundry q b) := ⟨rfl, _, _, _, rfl⟩

theorem setIndex (p k : Nat) : Frame s (s.setIndex p k) := by
  refine ⟨?_, _, _, _, rfl⟩
  apply ext_getElem?
  intro i
  simp only [PiecePicker.setIndex, modifyPos, Vec.update, getElem?_map, getElem?_modify]
  by_cases h : p = i
  · subst h
    cases s.pieceMap[p]? <;> simp [PiecePos.tag]
  · simp [h]

theorem place (k p : Nat) : Frame s (s.place k p) :=
  (setPiece s k p).trans (setIndex _ p k)

theorem pushPiece (p : Nat) : Frame s (s.pushPiece p) := ⟨rfl, _, _, _, rfl⟩

theorem popPiece : Frame s s.popPiece := ⟨rfl, _, _, _, rfl⟩

theorem growBoundries (q : Nat) : Frame s (s.growBoundries q) := by
  unfold PiecePicker.growBoundries
  split
  · exact ⟨rfl, _, _, _, rfl⟩
  · exact refl s

end

end Frame

theorem frame_addShift : ∀ (fuel : Nat) (s : PiecePicker) (q k : Nat), Frame s (addShift fuel s q k).1
  | 0, s, _, _ => Frame.refl s
  | fuel + 1, s, q, k => by
    simp only [addShift]
    split
    · exact (Frame.setBoundry s _ _).trans (frame_addShift fuel _ _ _)
    · exact Frame.setBoundry s _ _

theorem frame_addLoop : ∀ (fuel : Nat) (s : PiecePicker) (q k p : Nat), Frame s (addLoop fuel s q k p).1
  | 0, s, _, _, _ => Frame.refl s
  | fuel + 1, s, q, k, p => by
    simp only [addLoop]
    have h := (Frame.place s k p).trans (frame_addShift ((s.place k p).priorityBoundries.length - q) _ q k)
    split
    · exact h
    · exact h.trans (frame_addLoop fuel _ _ _ _)

theorem frame_add (index rnd : Nat) : Frame s (s.add index rnd) := by
  unfold add
  split
  · exact Frame.refl s
  rename_i q _
  refine ((Frame.growBoundries s q).trans (Frame.pushPiece _ noPiece)).trans ?_
  unfold addLast
  dsimp only
  split
  · exact (frame_addLoop _ _ _ _ _).trans (Frame.place _ _ _)
  · exact frame_addLoop _ _ _ _ _

theorem frame_removeLoop : ∀ (fuel : Nat) (s : PiecePicker) (q h : Nat), Frame s (removeLoop fuel s q h)
  | 0, s, _, _ => Frame.refl s
  | fuel + 1, s, q, h => by
    simp only [removeLoop]
    split
    · exact (Frame.setBoundry s _ _).trans (frame_removeLoop fuel _ _ _)
    · exact ((Frame.setBoundry s _ _).trans (Frame.place _ _ _)).trans (frame_removeLoop fuel _ _ _)

theorem frame_remove (q h : Nat) : Frame s (s.remove q h) :=
  (frame_removeLoop _ s q h).trans (Frame.popPiece _)

theorem frame_shuffle (q k rnd : Nat) : Frame s (s.shuffle q k rnd) := by
  unfold shuffle
  dsimp only
  split
  · exact Frame.refl s
  · exact (((Frame.setIndex s _ _).trans (Frame.setIndex _ _ _)).trans (Frame.setPiece _ _ _)).trans
      (Frame.setPiece _ _ _)

theorem frame_updateDown : ∀ (n : Nat) (s : PiecePicker) (q k temp : Nat), Frame s (updateDown n s q k temp).1
  | 0, s, _, _, _ => Frame.refl s
  | n + 1, s, q, k, temp => by
    simp only [updateDown]
    split
    · exact ((Frame.setBoundry s _ _).trans (Frame.place _ _ _)).trans (frame_updateDown n _ _ _ _)
    · exact (Frame.setBoundry s _ _).trans (frame_updateDown n _ _ _ _)

theorem frame_updateUp : ∀ (n : Nat) (s : PiecePicker) (q k temp : Nat), Frame s (updateUp n s q k temp).1
  | 0, s, _, _, _ => Frame.refl s
  | n + 1, s, q, k, temp => by
    simp only [updateUp]
    split
    · exact ((Frame.setBoundry s _ _).trans (Frame.place _ _ _)).trans (frame_updateUp n _ _ _ _)
    · exact (Frame.setBoundry s _ _).trans (frame_updateUp n _ _ _ _)

theorem frame_updateLoop (q q' k p : Nat) : Frame s (s.updateLoop q q' k p).1 := by
  unfold updateLoop
  split
  · exact frame_updateDown _ _ _ _ _
  · exact frame_updateUp _ _ _ _ _

theorem frame_update (q k rnd : Nat) : Frame s (s.update q k rnd) := by
  unfold update
  dsimp only
  split
  · exact frame_remove s q k
  rename_i newPriority _
  split
  · exact Frame.refl s
  · refine (Frame.growBoundries s newPriority).trans ?_
    exact ((frame_updateLoop _ _ _ _ _).trans (Frame.place _ _ _)).trans (frame_shuffle _ _ _ _)

/-! ## Pieces filed under a priority -/

/-- The last entry of `m_priority_boundries` is the size of `m_pieces`. -/
def Closed : Prop :=
  0 < s.priorityBoundries.length ∧ s.bnd (s.priorityBoundries.length - 1) = s.pieces.length

structure Filed (s : PiecePicker) (prio : Nat → Option Nat) : Prop where
  layout : Layout prio s.pieces.length s.piece s.bnd
  back : ∀ k < s.pieces.length, (s.pos (s.piece k)).index = k
  closed : s.Closed
  range : ∀ x r, prio x = some r → x < s.numPieces

/-- The index files every piece under its own priority. -/
def Indexed : Prop := s.Filed s.priority

variable {s : PiecePicker}

theorem Filed.length_le {prio : Nat → Option Nat} (F : Filed s prio) : s.pieces.length ≤ s.numPieces :=
  F.layout.length_le fun k hk => by
    obtain ⟨r, hr⟩ := F.layout.mem k hk
    exact F.range _ r hr

/-- Slot `h` is free for `p`; with `p` in it, the index files every piece under `prio`. -/
structure Holed (s : PiecePicker) (prio : Nat → Option Nat) (p h : Nat) : Prop where
  layout : Layout prio s.pieces.length (Function.update s.piece h p) s.bnd
  slot : h < s.pieces.length
  back : ∀ k < s.pieces.length, k ≠ h → (s.pos (s.piece k)).index = k
  range : ∀ x r, prio x = some r → x < s.numPieces

def SameHave (s s' : PiecePicker) : Prop := ∀ i, (s'.pos i).have = (s.pos i).have

theorem SameHave.trans {s s' s'' : PiecePicker} (h1 : SameHave s s') (h2 : SameHave s' s'') : SameHave s s'' :=
  fun i => (h2 i).trans (h1 i)

variable {p k : Nat}

theorem sameHave_setIndex (hp : (s.pos p).have = false) (hk : k < weHaveIndex) : SameHave s (s.setIndex p k) := by
  intro i
  rw [pos_setIndex]
  split_ifs with h
  · rw [← h.1, hp]
    simp only [PiecePos.have, beq_eq_false_iff_ne]
    omega
  · rfl

theorem sameHave_place (hp : (s.pos p).have = false) (hk : k < weHaveIndex) : SameHave s (s.place k p) :=
  sameHave_setIndex hp hk

theorem have_of_index_lt (h : (s.pos p).index = k) (hk : k < weHaveIndex) : (s.pos p).have = false := by
  simp only [PiecePos.have, h, beq_eq_false_iff_ne]
  omega

theorem priority_tag (p p' : PiecePos) (ht : p'.tag = p.tag) (hh : p'.have = p.have) (seeds : Nat) :
    p'.priority seeds = p.priority seeds := by
  cases p
  cases p'
  obtain ⟨rfl, rfl, rfl, rfl⟩ := ht
  simp only [PiecePos.priority, PiecePos.filtered, hh]

theorem Frame.priority {s s' : PiecePicker} (h : Frame s s') (hh : SameHave s s') (i : Nat) :
    s'.priority i = s.priority i := by
  have hs : s'.seeds = s.seeds := by obtain ⟨-, _, _, _, rfl⟩ := h; rfl
  unfold PiecePicker.priority
  rw [hs]
  exact priority_tag _ _ (h.tag i) (hh i) _

theorem Frame.priority_eq {s s' : PiecePicker} (h : Frame s s') (hh : SameHave s s') : s'.priority = s.priority :=
  funext (h.priority hh)

theorem have_of_priority {p q : Nat} (h : s.priority p = some q) : (s.pos p).have = false := by
  unfold PiecePicker.priority PiecePos.priority at h
  split at h
  · cases h
  · rename_i hn
    simp only [Bool.or_eq_true, not_or, Bool.not_eq_true] at hn
    exact hn.1.2

theorem priority_of_not_lt {p : Nat} (h : ¬ p < s.numPieces) : s.priority p = none := by
  have hd : s.pos p = default := Vec.getD_of_le _ (by simpa [numPieces] using h) _
  unfold PiecePicker.priority
  rw [hd]
  rfl

/-! ## The free slot moves -/

namespace Holed

variable {s : PiecePicker} {prio prio' : Nat → Option Nat} {p h t q b : Nat}

variable {k : Nat}

section

variable (H : Holed s prio p h) (hk : k < s.pieces.length) (hne : k ≠ h)
include H hk hne

theorem piece_mem : ∃ r, prio (s.piece k) = some r := by
  have := H.layout.mem k hk
  rwa [update_of_ne hne] at this

theorem piece_ne : s.piece k ≠ p := by
  intro e
  have := H.layout.inj k hk h H.slot (by rw [update_of_ne hne, update_self, e])
  exact hne this

end

theorem piece_inj (H : Holed s prio p h) {j : Nat} (hj : j < s.pieces.length) (hjh : j ≠ h)
    (hk : k < s.pieces.length) (hkh : k ≠ h) (e : s.piece j = s.piece k) : j = k :=
  H.layout.inj j hj k hk (by rw [update_of_ne hjh, update_of_ne hkh, e])

/-- Boundary `q` becomes `b` and, unless the slot `t` is free already, the piece in it moves to the free slot. -/
def shifted (s : PiecePicker) (h t q b : Nat) : PiecePicker :=
  if t = h then s.setBoundry q b else (s.setBoundry q b).place h (s.piece t)

theorem shifted_length (s : PiecePicker) (h t q b : Nat) : (shifted s h t q b).pieces.length = s.pieces.length := by
  unfold shifted
  split
  · rfl
  · simp [place]

theorem shifted_boundries (s : PiecePicker) (h t q b : Nat) :
    (shifted s h t q b).priorityBoundries = s.priorityBoundries.set q b := by
  unfold shifted
  split
  · rfl
  · rfl

theorem shifted_bnd (hq : q < s.priorityBoundries.length) : (shifted s h t q b).bnd = Function.update s.bnd q b := by
  unfold shifted
  split
  · exact bnd_setBoundry s hq b
  · simp only [place, bnd_setIndex, bnd_setPiece]
    exact bnd_setBoundry s hq b

theorem shifted_numPieces (s : PiecePicker) (h t q b : Nat) : (shifted s h t q b).numPieces = s.numPieces := by
  unfold shifted
  split
  · rfl
  · simp [place]

theorem shifted_piece (hh : h < s.pieces.length) :
    Function.update (shifted s h t q b).piece t p = Layout.swapped (Function.update s.piece h p) h t := by
  unfold shifted
  split_ifs with e
  · subst e
    simp [Layout.swapped]
  have hpl : ((s.setBoundry q b).place h (s.piece t)).piece = Function.update s.piece h (s.piece t) :=
    piece_setPiece (s.setBoundry q b) hh _
  rw [hpl]
  simp only [Layout.swapped, update_self, update_of_ne e, update_idem]

theorem shifted_piece_of_ne (hk : k ≠ h) : (shifted s h t q b).piece k = s.piece k := by
  unfold shifted
  split
  · rfl
  · exact piece_setPiece_of_ne (s.setBoundry q b) hk _

section

variable (H : Holed s prio p h)
include H

theorem shift (hq : q < s.priorityBoundries.length) (ht : t < s.pieces.length)
    (hp : ∀ x r, prio' x = some r → ∃ r', prio x = some r')
    (L : Layout prio' s.pieces.length (Layout.swapped (Function.update s.piece h p) h t)
      (Function.update s.bnd q b)) : Holed (shifted s h t q b) prio' p t := by
  refine ⟨?_, ?_, ?_, ?_⟩
  · rw [shifted_length, shifted_bnd hq, shifted_piece H.slot]
    exact L
  · rwa [shifted_length]
  · intro k hk hkt
    rw [shifted_length] at hk
    unfold shifted
    split_ifs with e
    · subst e
      exact H.back k hk hkt
    obtain ⟨r, hr⟩ := H.piece_mem ht e
    have hr := H.range _ _ hr
    simp only [place, piece_setIndex, pos_setIndex, pos_setPiece, pos_setBoundry, numPieces_setPiece,
      numPieces_setBoundry]
    by_cases hkh : k = h
    · subst hkh
      rw [piece_setPiece (s.setBoundry q b) H.slot, update_self]
      simp [hr]
    · rw [piece_setPiece (s.setBoundry q b) H.slot, update_of_ne hkh]
      have hne : s.piece t ≠ s.piece k := fun e' => hkt (H.piece_inj ht e hk hkh e').symm
      simp [hne, H.back k hk hkh]
  · intro x r hx
    rw [shifted_numPieces]
    obtain ⟨r', hr'⟩ := hp x r hx
    exact H.range x r' hr'

theorem shift_sameHave (ht : t < s.pieces.length) (hn : s.pieces.length ≤ weHaveIndex) :
    SameHave s (shifted s h t q b) := by
  unfold shifted
  split_ifs with e
  · exact fun _ => rfl
  · refine sameHave_place ?_ (by have := H.slot; omega)
    exact have_of_index_lt (H.back t ht e) (by omega)

theorem up (hp : prio p = some q) (hq : q < s.priorityBoundries.length) :
    Holed (shifted s h (s.bnd q - 1) q (s.bnd q - 1)) (Function.update prio p (some (q + 1))) p (s.bnd q - 1) ∧
      h ≤ s.bnd q - 1 ∧ s.bnd q - 1 < s.pieces.length := by
  have hpos : prio (Function.update s.piece h p h) = some q := by rw [update_self]; exact hp
  have hb := H.layout.bucket_bounds H.slot hpos
  have hle := H.layout.le q
  have L := H.layout.up H.slot hpos
  rw [update_self] at L
  refine ⟨H.shift hq (by omega) ?_ L, by omega, by omega⟩
  intro x r hx
  by_cases e : x = p
  · exact ⟨q, by rw [e, hp]⟩
  · rw [update_of_ne e] at hx
    exact ⟨r, hx⟩

theorem down (hp : prio p = some (q + 1)) (hq : q < s.priorityBoundries.length) :
    Holed (shifted s h (s.bnd q) q (s.bnd q + 1)) (Function.update prio p (some q)) p (s.bnd q) ∧ s.bnd q ≤ h := by
  have hpos : prio (Function.update s.piece h p h) = some (q + 1) := by rw [update_self]; exact hp
  have hb := H.layout.bucket_bounds H.slot hpos
  have hle : s.bnd q ≤ h := by
    rcases hb.2 with h0 | h0
    · omega
    · simpa using h0
  have hslot := H.slot
  have L := H.layout.down H.slot hpos
  rw [update_self] at L
  refine ⟨H.shift hq (by omega) ?_ L, hle⟩
  intro x r hx
  by_cases e : x = p
  · exact ⟨q + 1, by rw [e, hp]⟩
  · rw [update_of_ne e] at hx
    exact ⟨r, hx⟩

end

end Holed

end PiecePicker

end Libtorrent.Picker
