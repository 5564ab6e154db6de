import Libtorrent.Lib.Tally
import Libtorrent.Picker.Sound

/-!
# Counters and cursors

A piece is settled when we have it or it is filtered. `m_cursor` ends the longest settled prefix of the pieces,
`m_reverse_cursor` starts the longest settled suffix; `m_num_have`, `m_num_filtered` and `m_num_have_filtered` count
pieces. `counters_and_cursors` is the statement about runs.
-/

namespace Libtorrent.Picker.PiecePicker

open Run Tally List Nat PiecePos
open Function (update_eq_self update_of_ne update_self)

variable {s s' : PiecePicker} {p n c r : Nat} {σ : Nat → Bool}

/-! ## Cursors over a set of settled pieces -/

/-- `[0, c)` is the longest settled prefix of `[0, n)`, and `[r, n)` the longest settled suffix. -/
structure Bracket (n : Nat) (σ : Nat → Bool) (c r : Nat) : Prop where
  fwd_le : c ≤ n
  fwd : ∀ i < c, σ i = true
  fwd_stop : c < n → σ c = false
  bwd_le : r ≤ n
  bwd : ∀ i, r ≤ i → i < n → σ i = true
  bwd_stop : 0 < r → σ (r - 1) = false

theorem Bracket.congr {σ' : Nat → Bool} (h : Bracket n σ c r) (hσ : ∀ i < n, σ' i = σ i) : Bracket n σ' c r where
  fwd_le := h.fwd_le
  fwd i hi := by rw [hσ i (by have := h.fwd_le; omega)]; exact h.fwd i hi
  fwd_stop hc := by rw [hσ c hc]; exact h.fwd_stop hc
  bwd_le := h.bwd_le
  bwd i hr hi := by rw [hσ i hi]; exact h.bwd i hr hi
  bwd_stop hr := by rw [hσ _ (by have := h.bwd_le; omega)]; exact h.bwd_stop hr

theorem scanForward_spec (s : PiecePicker) : ∀ (fuel c : Nat), c ≤ s.numPieces → s.numPieces ≤ c + fuel →
    c ≤ s.scanForward fuel c ∧ s.scanForward fuel c ≤ s.numPieces ∧
      (∀ i, c ≤ i → i < s.scanForward fuel c → s.settled i = true) ∧
      (s.scanForward fuel c < s.numPieces → s.settled (s.scanForward fuel c) = false)
  | 0, c, hc, hf => ⟨le_refl c, hc, fun i h1 h2 => by simp only [scanForward] at h2; omega,
      fun h => by simp only [scanForward] at h; omega⟩
  | fuel + 1, c, hc, hf => by
    simp only [scanForward]
    by_cases h : (c < s.numPieces && s.settled c) = true
    · rw [if_pos h]
      simp only [Bool.and_eq_true, decide_eq_true_eq] at h
      obtain ⟨h1, h2, h3, h4⟩ := scanForward_spec s fuel (c + 1) (by omega) (by omega)
      refine ⟨by omega, h2, fun i hi hi' => ?_, h4⟩
      by_cases e : i = c
      · rw [e]; exact h.2
      · exact h3 i (by omega) hi'
    · rw [if_neg h]
      refine ⟨le_refl c, hc, fun i h1 h2 => by omega, fun hlt => ?_⟩
      simpa [hlt] using h

theorem scanBackward_spec (s : PiecePicker) : ∀ r : Nat,
    s.scanBackward r ≤ r ∧ (∀ i, s.scanBackward r ≤ i → i < r → s.settled i = true) ∧
      (0 < s.scanBackward r → s.settled (s.scanBackward r - 1) = false)
  | 0 => ⟨le_refl 0, fun i _ h => by omega, fun h => by simp [scanBackward] at h⟩
  | r + 1 => by
    simp only [scanBackward]
    by_cases h : s.settled r = true
    · rw [if_pos h]
      obtain ⟨h1, h2, h3⟩ := scanBackward_spec s r
      refine ⟨by omega, fun i hi hi' => ?_, h3⟩
      by_cases e : i = r
      · rw [e]; exact h
      · exact h2 i hi (by omega)
    · rw [if_neg h]
      exact ⟨le_refl _, fun i h1 h2 => by omega, fun _ => by simpa using h⟩

section

variable (h : Bracket s.numPieces σ s.cursor s.reverseCursor) (hp : p < s.numPieces)
include h hp

/-- **One more piece is settled.** The scans do not look at the piece itself. -/
theorem Bracket.close (hσ : ∀ i, i ≠ p → σ i = s.settled i) :
    Bracket s.numPieces (Function.update σ p true) (s.closeCursors p).cursor (s.closeCursors p).reverseCursor := by
  have hself : Function.update σ p true p = true := update_self p true σ
  have hne : ∀ i, i ≠ p → Function.update σ p true i = σ i := fun i hi => update_of_ne hi true σ
  have hup : ∀ i, σ i = true → Function.update σ p true i = true := by
    intro i hi
    by_cases e : i = p
    · rw [e]; exact hself
    · rw [hne i e]; exact hi
  have hfl := h.fwd_le
  have hbl := h.bwd_le
  unfold closeCursors
  by_cases h1 : s.cursor + 1 = s.reverseCursor ∧ s.cursor = p
  · rw [if_pos h1]
    -- everything else is settled already
    have hall : ∀ i < s.numPieces, Function.update σ p true i = true := by
      intro i hi
      by_cases e : i = p
      · rw [e]; exact hself
      · by_cases hlt : i < p
        · exact hup i (h.fwd i (by omega))
        · exact hup i (h.bwd i (by omega) hi)
    exact ⟨le_refl _, hall, fun hlt => absurd hlt (lt_irrefl _), zero_le _, fun i _ hi => hall i hi,
      fun hlt => absurd hlt (lt_irrefl _)⟩
  rw [if_neg h1]
  by_cases h2 : s.cursor = p
  · rw [if_pos h2]
    obtain ⟨k1, k2, k3, k4⟩ := scanForward_spec s s.numPieces (s.cursor + 1) (by omega) (by omega)
    refine ⟨k2, ?_, ?_, hbl, ?_, ?_⟩
    · intro i hi
      by_cases e : i = p
      · rw [e]; exact hself
      by_cases hlt : i < s.cursor
      · exact hup i (h.fwd i hlt)
      · rw [hne i e, hσ i e]
        exact k3 i (by omega) hi
    · intro hlt
      have e : s.scanForward s.numPieces (s.cursor + 1) ≠ p := by omega
      rw [hne _ e, hσ _ e]
      exact k4 hlt
    · exact fun i hi hi' => hup i (h.bwd i hi hi')
    · intro hr
      have hr' : 0 < s.reverseCursor := hr
      show Function.update σ p true (s.reverseCursor - 1) = false
      rw [hne _ (by omega)]
      exact h.bwd_stop hr
  · rw [if_neg h2]
    have hstop : s.cursor < s.numPieces → Function.update σ p true s.cursor = false := by
      intro hlt
      rw [hne _ h2]
      exact h.fwd_stop hlt
    by_cases h3 : s.reverseCursor = p + 1
    · rw [if_pos h3]
      obtain ⟨k1, k2, k3⟩ := scanBackward_spec s (s.reverseCursor - 1)
      refine ⟨hfl, fun i hi => hup i (h.fwd i hi), hstop, ?_, ?_, ?_⟩
      · show s.scanBackward (s.reverseCursor - 1) ≤ s.numPieces
        omega
      · intro i hi hi'
        have hi : s.scanBackward (s.reverseCursor - 1) ≤ i := hi
        by_cases e : i = p
        · rw [e]; exact hself
        by_cases hlt : i < p
        · rw [hne i e, hσ i e]
          exact k2 i hi (by omega)
        · exact hup i (h.bwd i (by omega) hi')
      · intro hr
        have hr : 0 < s.scanBackward (s.reverseCursor - 1) := hr
        have e : s.scanBackward (s.reverseCursor - 1) - 1 ≠ p := by omega
        rw [hne _ e, hσ _ e]
        exact k3 hr
    · rw [if_neg h3]
      refine ⟨hfl, fun i hi => hup i (h.fwd i hi), hstop, hbl, fun i hi hi' => hup i (h.bwd i hi hi'), ?_⟩
      intro hr
      rw [hne _ (by omega)]
      exact h.bwd_stop hr

/-- **A piece is wanted again.** -/
theorem Bracket.reopen :
    Bracket s.numPieces (Function.update σ p false) (s.reopenCursors p).cursor (s.reopenCursors p).reverseCursor := by
  have hself : Function.update σ p false p = false := update_self p false σ
  have hne : ∀ i, i ≠ p → Function.update σ p false i = σ i := fun i hi => update_of_ne hi false σ
  have hfl := h.fwd_le
  have hbl := h.bwd_le
  unfold reopenCursors
  rw [if_neg (by omega)]
  show Bracket _ _ (min p s.cursor) (max (p + 1) s.reverseCursor)
  refine ⟨by omega, ?_, ?_, by omega, ?_, ?_⟩
  · intro i hi
    rw [hne i (by omega)]
    exact h.fwd i (by omega)
  · intro hlt
    by_cases e : min p s.cursor = p
    · rw [e]; exact hself
    · rw [hne _ e, show min p s.cursor = s.cursor by omega]
      exact h.fwd_stop (by omega)
  · intro i hi hi'
    rw [hne i (by omega)]
    exact h.bwd i (by omega) hi'
  · intro hr
    by_cases e : max (p + 1) s.reverseCursor - 1 = p
    · rw [e]; exact hself
    · rw [hne _ e, show max (p + 1) s.reverseCursor - 1 = s.reverseCursor - 1 by omega]
      exact h.bwd_stop (by omega)

end

/-! ## The invariant -/

def howMany (s : PiecePicker) (f : PiecePos → Bool) : Nat := tally s.numPieces fun i => f (s.pos i)

/-- The counters count and the cursors bracket the pieces that are still wanted. -/
structure Balanced (s : PiecePicker) : Prop where
  numHave : s.numHave = s.howMany PiecePos.have
  numFiltered : s.numFiltered = s.howMany fun x => x.filtered && !x.have
  numHaveFiltered : s.numHaveFiltered = s.howMany fun x => x.filtered && x.have
  bracket : Bracket s.numPieces s.settled s.cursor s.reverseCursor

structure SameCounts (s s' : PiecePicker) : Prop where
  num : s'.numPieces = s.numPieces
  rest : (s'.numHave, s'.numFiltered, s'.numHaveFiltered, s'.cursor, s'.reverseCursor) =
    (s.numHave, s.numFiltered, s.numHaveFiltered, s.cursor, s.reverseCursor)
  «have» : ∀ i, (s'.pos i).have = (s.pos i).have
  filtered : ∀ i, (s'.pos i).filtered = (s.pos i).filtered

namespace SameCounts

theorem refl (s : PiecePicker) : SameCounts s s := ⟨rfl, rfl, fun _ => rfl, fun _ => rfl⟩

theorem trans {s'' : PiecePicker} (h1 : SameCounts s s') (h2 : SameCounts s' s'') : SameCounts s s'' :=
  ⟨h2.num.trans h1.num, h2.rest.trans h1.rest, fun i => (h2.have i).trans (h1.have i),
    fun i => (h2.filtered i).trans (h1.filtered i)⟩

theorem balanced (h : SameCounts s s') (hb : Balanced s) : Balanced s' := by
  have hmany : ∀ f : Bool → Bool → Bool, (s'.howMany fun x => f x.filtered x.have) =
      s.howMany fun x => f x.filtered x.have := by
    intro f
    unfold howMany
    rw [h.num]
    exact tally_congr fun i _ => by simp only [h.have, h.filtered]
  obtain ⟨e1, e2, e3, e4, e5⟩ : s'.numHave = s.numHave ∧ s'.numFiltered = s.numFiltered ∧
      s'.numHaveFiltered = s.numHaveFiltered ∧ s'.cursor = s.cursor ∧ s'.reverseCursor = s.reverseCursor := by
    have := h.rest
    simpa only [Prod.mk.injEq] using this
  refine ⟨?_, ?_, ?_, ?_⟩
  · rw [e1, hb.numHave]; exact congrArg _ (hmany fun _ b => b).symm
  · rw [e2, hb.numFiltered]; exact congrArg _ (hmany fun a b => a && !b).symm
  · rw [e3, hb.numHaveFiltered]; exact congrArg _ (hmany fun a b => a && b).symm
  · rw [e4, e5, h.num]
    exact hb.bracket.congr fun i _ => by rw [settled, settled, h.have, h.filtered]

theorem of_refiled (h : Refiled s s') : SameCounts s s' := by
  have hpos := h.pos
  have hnum := h.numPieces
  obtain ⟨⟨ps, bs, m, d, rfl, ht⟩, hh⟩ := h
  refine ⟨hnum, rfl, hh, fun i => ?_⟩
  have := congrArg PiecePos.piecePriority (hpos i).1
  simp only [PiecePos.tag] at this
  simp only [PiecePos.filtered, this]

theorem of_neutral (h : Neutral s s') : SameCounts s s' := by
  obtain ⟨⟨m, ds, bi, rfl⟩, hn, hk⟩ := h
  refine ⟨hn, rfl, fun i => ?_, fun i => ?_⟩
  · simp only [PiecePos.have, PiecePos.key_index (hk i)]
  · have := congrArg PiecePos.piecePriority (hk i)
    simp only [key] at this
    simp only [PiecePos.filtered, this]

variable {f : PiecePos → PiecePos}

section

variable (s)

theorem modifyPos (p : Nat) (hh : ∀ x, (f x).have = x.have)
    (hf : ∀ x, (f x).filtered = x.filtered) : SameCounts s (s.modifyPos p f) where
  num := numPieces_modifyPos s p f
  rest := rfl
  «have» i := by
    rw [pos_modifyPos]
    split
    · exact hh _
    · rfl
  filtered i := by
    rw [pos_modifyPos]
    split
    · exact hf _
    · rfl

theorem flag (p : Nat) : SameCounts s (s.flag p) :=
  modifyPos s p (by intro x; rfl) (by intro x; rfl)

theorem eraseDownloadPiece (i : Nat) : SameCounts s (s.eraseDownloadPiece i) := by
  obtain ⟨bi, ds, hv⟩ := vacate_eq s i
  have h : SameCounts s { s with blockInfo := bi, downloads := ds } := ⟨rfl, rfl, fun _ => rfl, fun _ => rfl⟩
  have h' := h.trans (modifyPos _ (s.dl i).index (f := fun x => { x with downloading := false }) (by intro x; rfl)
    (by intro x; rfl))
  unfold PiecePicker.eraseDownloadPiece
  rw [hv]
  exact ⟨h'.num, h'.rest, h'.have, h'.filtered⟩

theorem decRefcountAll : SameCounts s s.decRefcountAll := by
  unfold PiecePicker.decRefcountAll
  split
  · exact ⟨rfl, rfl, fun _ => rfl, fun _ => rfl⟩
  refine ⟨by simp [numPieces], rfl, fun i => ?_, fun i => ?_⟩
  · refine (congrArg PiecePos.have (pos_mapPos s PiecePos.decPeerCount i)).trans ?_
    split <;> rfl
  · refine (congrArg PiecePos.filtered (pos_mapPos s PiecePos.decPeerCount i)).trans ?_
    split <;> rfl

theorem modifyBits (bits : Bitfield) (hh : ∀ x, (f x).have = x.have)
    (hf : ∀ x, (f x).filtered = x.filtered) : SameCounts s (s.modifyBits bits f) := by
  refine ⟨numPieces_modifyBits s bits f, rfl, fun i => ?_, fun i => ?_⟩
  · rw [pos_modifyBits]
    split
    · exact hh _
    · rfl
  rw [pos_modifyBits]
  split
  · exact hf _
  · rfl

section

variable (block : PieceBlock)
include block

theorem markAsDownloadingCore (peer : PeerPtr) (state : PieceState) :
    SameCounts s (s.markAsDownloadingCore block peer state) := by
  unfold PiecePicker.markAsDownloadingCore
  split
  · split
    · exact refl s
    · exact of_neutral (Neutral.requestBlock _ _ _ _ _)
  · exact (flag s _).trans (of_neutral (Neutral.openRequested _ _ _ _ _))

theorem markAsWritingCore (peer : PeerPtr) : SameCounts s (s.markAsWritingCore block peer) := by
  unfold PiecePicker.markAsWritingCore
  split
  · split
    · exact refl s
    · exact of_neutral (Neutral.writeBlock _ _ _ _)
  · split
    · exact refl s
    · exact (flag s _).trans (of_neutral (Neutral.openWriting _ _ _ _))

theorem markAsFinishedCore (peer : PeerPtr) : SameCounts s (s.markAsFinishedCore block peer) := by
  unfold PiecePicker.markAsFinishedCore
  split
  · split
    · exact refl s
    · exact of_neutral (Neutral.finishBlock _ _ _ _)
  · split
    · exact refl s
    · exact (flag s _).trans (of_neutral (Neutral.openFinished _ _ _ _))

theorem writeFailedCore : SameCounts s (s.writeFailedCore block) := by
  unfold PiecePicker.writeFailedCore dropIfUnused
  split
  · exact refl s
  rename_i i _
  split
  · exact refl s
  have h := of_neutral (Neutral.failBlock s i block.blockIndex)
  split
  · exact h.trans (eraseDownloadPiece _ _)
  · exact h

theorem abortDownloadCore (peer : PeerPtr) : SameCounts s (s.abortDownloadCore block peer) := by
  unfold PiecePicker.abortDownloadCore
  split
  · split
    · exact refl s
    · rename_i i _
      split
      · exact refl s
      have h1 : SameCounts s (s.withdrawPeer i block.blockIndex peer) := of_neutral (Neutral.modifyBlock _ _ _ _)
      dsimp only
      split
      · exact h1
      have h2 := h1.trans (of_neutral (Neutral.freeBlock _ i block.blockIndex))
      split
      · exact h2.trans (eraseDownloadPiece _ _)
      · exact h2.trans (of_neutral (Neutral.modifyDl _ _ _))
  · exact refl s

end

theorem restorePieceCore (p : Nat) : SameCounts s (s.restorePieceCore p) := by
  unfold PiecePicker.restorePieceCore
  split
  · exact refl s
  · exact eraseDownloadPiece _ _

theorem dropEntry (p : Nat) : SameCounts s (s.dropEntry p) := by
  unfold PiecePicker.dropEntry
  split
  · split
    · exact eraseDownloadPiece _ _
    · exact refl s
  · exact refl s

end

end SameCounts

/-! ## The operations that count -/

theorem howMany_change (hp : p < s.numPieces) (hnum : s'.numPieces = s.numPieces)
    (hother : ∀ i, i ≠ p → s'.pos i = s.pos i) (f : PiecePos → Bool) :
    s'.howMany f + (f (s.pos p)).toNat = s.howMany f + (f (s'.pos p)).toNat := by
  unfold howMany
  rw [hnum]
  exact tally_change (g := fun i => f (s.pos i)) hp fun i _ hi => by simp only [hother i hi]

theorem settled_eq_update (hother : ∀ i, i ≠ p → s'.pos i = s.pos i) :
    s'.settled = Function.update s.settled p (s'.settled p) := by
  funext i
  by_cases e : i = p
  · rw [e, update_self]
  · rw [update_of_ne e, settled, settled, hother i e]

/-- **One piece changes.** The counters follow its flags, and the cursors bracket the pieces that are then settled. -/
theorem Balanced.change (h : Balanced s) (hp : p < s.numPieces) (hnum : s'.numPieces = s.numPieces)
    (hother : ∀ i, i ≠ p → s'.pos i = s.pos i)
    (h1 : s'.numHave + (s.pos p).have.toNat = s.numHave + (s'.pos p).have.toNat)
    (h2 : s'.numFiltered + ((s.pos p).filtered && !(s.pos p).have).toNat =
      s.numFiltered + ((s'.pos p).filtered && !(s'.pos p).have).toNat)
    (h3 : s'.numHaveFiltered + ((s.pos p).filtered && (s.pos p).have).toNat =
      s.numHaveFiltered + ((s'.pos p).filtered && (s'.pos p).have).toNat)
    (hb : Bracket s.numPieces (Function.update s.settled p (s'.settled p)) s'.cursor s'.reverseCursor) :
    Balanced s' := by
  have hcount := howMany_change hp hnum hother
  have c1 := hcount PiecePos.have
  have c2 := hcount fun x => x.filtered && !x.have
  have c3 := hcount fun x => x.filtered && x.have
  have := h.numHave
  have := h.numFiltered
  have := h.numHaveFiltered
  refine ⟨by omega, by omega, by omega, ?_⟩
  rw [hnum, settled_eq_update hother]
  exact hb

theorem Bracket.same {b : Bool} (h : Bracket n s.settled c r) (hb : b = s.settled p) :
    Bracket n (Function.update s.settled p b) c r := by
  rw [hb, update_eq_self]
  exact h

theorem pos_modified {f : PiecePos → PiecePos} (hp : p < s.numPieces) (h : ∀ i, s'.pos i = (s.modifyPos p f).pos i) :
    s'.pos p = f (s.pos p) ∧ ∀ i, i ≠ p → s'.pos i = s.pos i := by
  refine ⟨?_, fun i hi => ?_⟩
  · rw [h, pos_modifyPos, if_pos ⟨rfl, hp⟩]
  · rw [h, pos_modifyPos, if_neg fun h => hi h.1.symm]

theorem gainPiece_balanced (h : Balanced s) (hp : p < s.numPieces) (hhave : (s.pos p).have = false) :
    Balanced (s.gainPiece p) := by
  obtain ⟨T, hpos⟩ := gainPiece_eq s p
  obtain ⟨hself, hother⟩ := pos_modified hp hpos
  have hhave' : (s.pos p).setHave.have = true := have_setHave _
  have hfilt : (s.pos p).setHave.filtered = (s.pos p).filtered := rfl
  obtain ⟨e1, e2, e3⟩ : (s.gainPiece p).numHave = s.numHave + 1 ∧
      (s.gainPiece p).numFiltered = s.numFiltered - (if (s.pos p).filtered then 1 else 0) ∧
      (s.gainPiece p).numHaveFiltered = s.numHaveFiltered + (if (s.pos p).filtered then 1 else 0) := by
    obtain ⟨c, r, hc⟩ := closeCursors_eq ((s.countGain p).modifyPos p setHave) p
    unfold gainPiece
    rw [hc]
    exact ⟨rfl, rfl, rfl⟩
  refine h.change hp T.num hother ?_ ?_ ?_ ?_
  · simp [e1, hself, hhave, hhave']
  · cases hf : (s.pos p).filtered <;> simp [e2, hself, hhave, hhave', hfilt, hf]
  · cases hf : (s.pos p).filtered <;> simp [e3, hself, hhave, hhave', hfilt, hf]
  rw [show (s.gainPiece p).settled p = true by simp [settled, hself, hhave']]
  -- the cursors are moved in a state in which we have the piece already
  have hnum : ((s.countGain p).modifyPos p setHave).numPieces = s.numPieces := numPieces_modifyPos _ _ _
  rw [← hnum] at hp ⊢
  refine Bracket.close (by rw [hnum]; exact h.bracket) hp fun i hi => ?_
  rw [settled, settled, pos_modifyPos, if_neg fun h => hi h.1.symm]
  rfl

theorem losePiece_balanced (h : Balanced s) (hp : p < s.numPieces) (hhave : (s.pos p).have = true) :
    Balanced (s.losePiece p) := by
  obtain ⟨T, hpos⟩ := losePiece_eq s p
  obtain ⟨hself, hother⟩ := pos_modified hp hpos
  have hhave' : (s.pos p).setNotHave.have = false := rfl
  have hfilt : (s.pos p).setNotHave.filtered = (s.pos p).filtered := rfl
  cases hf : (s.pos p).filtered with
  | true =>
    obtain ⟨e1, e2, e3, e4, e5⟩ : (s.losePiece p).numHave = s.numHave - 1 ∧
        (s.losePiece p).numFiltered = s.numFiltered + 1 ∧
        (s.losePiece p).numHaveFiltered = s.numHaveFiltered - 1 ∧ (s.losePiece p).cursor = s.cursor ∧
        (s.losePiece p).reverseCursor = s.reverseCursor := by
      unfold losePiece
      rw [if_pos hf]
      exact ⟨rfl, rfl, rfl, rfl, rfl⟩
    refine h.change hp T.num hother ?_ ?_ ?_ ?_
    all_goals try simp [e1, e2, e3, hself, hhave, hhave', hfilt, hf]
    -- the piece is settled as before, since it is filtered
    rw [e4, e5]
    exact h.bracket.same (by simp [settled, hself, hfilt, hf])
  | false =>
    obtain ⟨c, r, hc⟩ := reopenCursors_eq s p
    obtain ⟨e1, e2, e3, e4, e5⟩ : (s.losePiece p).numHave = s.numHave - 1 ∧
        (s.losePiece p).numFiltered = s.numFiltered ∧
        (s.losePiece p).numHaveFiltered = s.numHaveFiltered ∧ (s.losePiece p).cursor = (s.reopenCursors p).cursor ∧
        (s.losePiece p).reverseCursor = (s.reopenCursors p).reverseCursor := by
      unfold losePiece
      rw [if_neg (by simp [hf]), hc]
      exact ⟨rfl, rfl, rfl, rfl, rfl⟩
    refine h.change hp T.num hother ?_ ?_ ?_ ?_
    all_goals try simp [e1, e2, e3, hself, hhave, hhave', hfilt, hf]
    rw [e4, e5, show (s.losePiece p).settled p = false by simp [settled, hself, hhave', hfilt, hf]]
    exact h.bracket.reopen hp

section

variable (h : Balanced s) (hp : p < s.numPieces)
include h hp

variable {prio : Nat}

/-- A new priority changes one piece; `t` has the new counters and cursors already. -/
theorem priority_balanced {t : PiecePicker} {nf nhf : Int} (ht : t = { s with
      numFiltered := nf, numHaveFiltered := nhf, cursor := c, reverseCursor := r })
    (h1 : nf + ((s.pos p).filtered && !(s.pos p).have).toNat = s.numFiltered + (prio == 0 && !(s.pos p).have).toNat)
    (h2 : nhf + ((s.pos p).filtered && (s.pos p).have).toNat = s.numHaveFiltered + (prio == 0 && (s.pos p).have).toNat)
    (hb : Bracket s.numPieces (Function.update s.settled p ((s.pos p).have || prio == 0)) c r) :
    Balanced (t.modifyPos p fun x => { x with piecePriority := prio }) := by
  subst ht
  have hpos (i : Nat) :
      ({ s with numFiltered := nf, numHaveFiltered := nhf, cursor := c, reverseCursor := r }.modifyPos p
        fun x => { x with piecePriority := prio }).pos i =
      (s.modifyPos p fun x => { x with piecePriority := prio }).pos i := rfl
  obtain ⟨hself, hother⟩ := pos_modified hp hpos
  refine h.change hp (numPieces_modifyPos _ _ _) hother ?_ ?_ ?_ ?_
  · rw [hself]
    rfl
  · rw [hself]
    exact h1
  · rw [hself]
    exact h2
  · rw [settled, hself]
    exact hb

theorem filter_balanced (hprio : prio = 0) (hcur : (s.pos p).filtered = false) :
    Balanced ((s.filterPiece p).modifyPos p fun x => { x with piecePriority := prio }) := by
  unfold filterPiece
  split
  · rename_i hh
    exact priority_balanced h hp rfl (by simp [hcur, hh]) (by simp [hprio, hcur, hh])
      (h.bracket.same (by simp [settled, hh]))
  · rename_i hh
    have hb := Bracket.close (s := { s with numFiltered := s.numFiltered + 1 }) h.bracket hp fun _ _ => rfl
    obtain ⟨c, r, hc⟩ := closeCursors_eq { s with numFiltered := s.numFiltered + 1 } p
    rw [hc] at hb
    refine priority_balanced h hp hc (by simp [hprio, hcur, hh]) (by simp [hh]) ?_
    rw [show ((s.pos p).have || prio == 0) = true by simp [hprio]]
    exact hb

theorem unfilter_balanced (hprio : prio ≠ 0) (hcur : (s.pos p).filtered = true) :
    Balanced ((s.unfilterPiece p).modifyPos p fun x => { x with piecePriority := prio }) := by
  unfold unfilterPiece
  split
  · rename_i hh
    exact priority_balanced h hp rfl (by simp [hcur, hh]) (by simp [hprio, hcur, hh])
      (h.bracket.same (by simp [settled, hh]))
  · rename_i hh
    have hb := Bracket.reopen (s := { s with numFiltered := s.numFiltered - 1 }) h.bracket hp
    obtain ⟨c, r, hc⟩ := reopenCursors_eq { s with numFiltered := s.numFiltered - 1 } p
    rw [hc] at hb
    refine priority_balanced h hp hc (by simp [hprio, hcur, hh]) (by simp [hh]) ?_
    rw [show ((s.pos p).have || prio == 0) = false by simp [hprio, hh]]
    exact hb

theorem changePriority_balanced : Balanced (s.changePriority p prio).1 := by
  unfold changePriority
  dsimp only
  split
  · rename_i hc
    exact filter_balanced h hp hc.1 (by simpa [PiecePos.filtered] using hc.2)
  split
  · rename_i hc
    exact unfilter_balanced h hp hc.1 (by simpa [PiecePos.filtered] using hc.2)
  -- the piece stays filtered, or stays unfiltered
  rename_i h1 h2
  refine SameCounts.balanced ⟨numPieces_modifyPos _ _ _, rfl, fun i => ?_, fun i => ?_⟩ h
  · rw [pos_modifyPos]
    split <;> rfl
  rw [pos_modifyPos]
  split_ifs with e
  · obtain ⟨rfl, -⟩ := e
    simp only [PiecePos.filtered]
    by_cases hz : prio = 0
    · have : (s.pos p).piecePriority = 0 := by
        by_contra hne
        exact h1 ⟨hz, hne⟩
      rw [hz, this]
    · have : (s.pos p).piecePriority ≠ 0 := fun he => h2 ⟨hz, he⟩
      simp [hz, this]
  · rfl

end

/-! ## Initialisation -/

/-- Another `init` keeps the number of pieces. -/
def SameSize (s : PiecePicker) : Op → Prop
  | .init _ _ n => s.numPieces = 0 ∨ n = s.numPieces
  | _ => True

instance (s : PiecePicker) (op : Op) : Decidable (s.SameSize op) := by
  apply Op.casesOn (motive := fun op => Decidable (s.SameSize op)) op <;> intros <;>
    (dsimp only [SameSize]; infer_instance)

theorem init_balanced {b l n : Nat} (h : Balanced s) (hn : s.numPieces = 0 ∨ n = s.numPieces) :
    Balanced (s.init b l n) := by
  generalize hs' : s.init b l n = s'
  have hnum : s'.numPieces = n := by rw [← hs']; simp [init, numPieces]
  have hhave : ∀ i, (s'.pos i).have = false := by
    intro i
    rw [← hs']
    simp only [pos, init, getD_eq_getElem?_getD, getElem?_map]
    cases (Vec.resize s.pieceMap n {})[i]? <;> rfl
  -- a fresh piece is not filtered, an old one keeps its priority
  have hfilt : ∀ i < n, (s'.pos i).filtered = (decide (i < s.numPieces) && (s.pos i).filtered) := by
    intro i hi
    have hget : (Vec.resize s.pieceMap n {}).getD i default = if i < s.pieceMap.length then s.pos i else {} := by
      rw [Vec.getD_resize, if_pos hi]
      rfl
    have hpos : s'.pos i =
        { (if i < s.pieceMap.length then s.pos i else {}) with peerCount := 0, downloading := false, index := 0 } := by
      rw [← hget, ← hs']
      simp only [pos, init, getD_eq_getElem?_getD, getElem?_map]
      rw [getElem?_eq_getElem (by simpa using hi)]
      rfl
    rw [hpos]
    by_cases hlt : i < s.pieceMap.length
    · simp [hlt, PiecePos.filtered, numPieces]
    · simp [hlt, PiecePos.filtered, numPieces]
  have hall : s'.howMany (fun x => x.filtered) = s.howMany fun x => x.filtered := by
    unfold howMany
    rw [hnum]
    rcases hn with h0 | h0
    · rw [h0, tally_zero, tally_eq_zero]
      intro i hi
      simp only [hfilt i hi, h0]
      simp
    rw [← h0]
    refine tally_congr fun i hi => ?_
    simp only [hfilt i hi]
    simp [h0 ▸ hi]
  have hnone : ∀ f : PiecePos → Bool, s'.howMany (fun x => f x && x.have) = 0 := by
    intro f
    rw [howMany, tally_eq_zero]
    intro i _
    rw [hhave, Bool.and_false]
  have hfields : s'.numHave = 0 ∧ s'.numFiltered = s.numFiltered + s.numHaveFiltered ∧ s'.numHaveFiltered = 0 := by
    rw [← hs']
    exact ⟨rfl, rfl, rfl⟩
  obtain ⟨e1, e2, e3⟩ := hfields
  refine ⟨?_, ?_, ?_, ?_⟩
  · have := hnone fun _ => true
    rw [e1, show s'.howMany PiecePos.have = 0 from this]
    rfl
  · have h1 := tally_split s.numPieces (fun i => (s.pos i).filtered) (fun i => (s.pos i).have)
    have h2 := tally_split s'.numPieces (fun i => (s'.pos i).filtered) (fun i => (s'.pos i).have)
    have h3 := hnone PiecePos.filtered
    have h4 := h.numFiltered
    have h5 := h.numHaveFiltered
    simp only [howMany] at hall h3 h4 h5 ⊢
    rw [e2]
    omega
  · rw [e3, hnone]
    rfl
  · obtain ⟨t, ht, htn⟩ : ∃ t : PiecePicker,
      s' = { t with cursor := t.scanForward n 0, reverseCursor := t.scanBackward n } ∧
        t.numPieces = n := by
      refine ⟨_, hs'.symm, ?_⟩
      simp [numPieces]
    obtain ⟨k1, k2, k3, k4⟩ := scanForward_spec t n 0 (by omega) (by omega)
    obtain ⟨l1, l2, l3⟩ := scanBackward_spec t n
    rw [htn] at k2 k4
    have hset : s'.settled = t.settled := by rw [ht]; rfl
    rw [hnum, hset, show s'.cursor = t.scanForward n 0 by rw [ht], show s'.reverseCursor = t.scanBackward n by rw [ht]]
    exact ⟨k2, fun i hi => k3 i (zero_le i) hi, k4, l1, l2, l3⟩

/-! ## What the calls leave alone -/

section

variable (s)

theorem rest_eraseDownloadPiece (i : Nat) : (s.eraseDownloadPiece i).sparseRegions = s.sparseRegions ∧
      (s.eraseDownloadPiece i).blocksPerPiece = s.blocksPerPiece ∧
      (s.eraseDownloadPiece i).blocksInLastPiece = s.blocksInLastPiece := by
  obtain ⟨bi, ds, hv⟩ := vacate_eq s i
  rw [eraseDownloadPiece, hv]
  exact ⟨rfl, rfl, rfl⟩

theorem rest_dropEntry (p : Nat) : (s.dropEntry p).sparseRegions = s.sparseRegions ∧
    (s.dropEntry p).blocksPerPiece = s.blocksPerPiece ∧ (s.dropEntry p).blocksInLastPiece = s.blocksInLastPiece := by
  unfold dropEntry
  split
  · split
    · exact rest_eraseDownloadPiece s _
    · exact ⟨rfl, rfl, rfl⟩
  · exact ⟨rfl, rfl, rfl⟩

theorem rest_losePiece (p : Nat) : (s.losePiece p).sparseRegions = s.sparseRegions ∧
    (s.losePiece p).blocksPerPiece = s.blocksPerPiece ∧ (s.losePiece p).blocksInLastPiece = s.blocksInLastPiece := by
  obtain ⟨c, r, hcur⟩ := reopenCursors_eq s p
  unfold losePiece
  split
  · exact ⟨rfl, rfl, rfl⟩
  · rw [hcur]
    exact ⟨rfl, rfl, rfl⟩

/-- Only `we_have` touches `m_sparse_regions`, and only `init` the numbers of blocks. -/
theorem rest_coreStep (op : Op) : ((∀ index, op ≠ .weHave index) → (s.coreStep op).sparseRegions = s.sparseRegions) ∧
      ((∀ b l n, op ≠ .init b l n) → (s.coreStep op).blocksPerPiece = s.blocksPerPiece ∧
        (s.coreStep op).blocksInLastPiece = s.blocksInLastPiece) := by
  have hall : ∀ {s' : PiecePicker}, s'.sparseRegions = s.sparseRegions ∧ s'.blocksPerPiece = s.blocksPerPiece ∧
      s'.blocksInLastPiece = s.blocksInLastPiece →
      ((∀ index, op ≠ .weHave index) → s'.sparseRegions = s.sparseRegions) ∧
        ((∀ b l n, op ≠ .init b l n) → s'.blocksPerPiece = s.blocksPerPiece ∧
          s'.blocksInLastPiece = s.blocksInLastPiece) := fun h => ⟨fun _ => h.1, fun _ => h.2⟩
  cases op with
  | init b l n => exact ⟨fun _ => rfl, fun h => absurd rfl (h b l n)⟩
  | weHave index =>
    refine ⟨fun h => absurd rfl (h index), fun _ => ?_⟩
    simp only [coreStep, weHaveCore]
    split
    · exact (rest_dropEntry s index).2
    · obtain ⟨c, r, hc⟩ := closeCursors_eq (((s.dropEntry index).countGain index).modifyPos index setHave) index
      rw [gainPiece, hc]
      exact (rest_dropEntry s index).2
  | decRefcountAll =>
    refine hall ?_
    simp only [coreStep, step, decRefcountAll]
    split <;> exact ⟨rfl, rfl, rfl⟩
  | weDontHave index =>
    refine hall ?_
    simp only [coreStep]
    split
    · exact rest_losePiece s index
    · exact ⟨rfl, rfl, rfl⟩
  | setPiecePriority index prio =>
    refine hall ?_
    obtain ⟨nf, nhf, c, r, he⟩ := changePriority_eq s index prio
    simp only [coreStep, he]
    split <;> exact ⟨rfl, rfl, rfl⟩
  | markAsDownloading block peer state rnd | markAsWriting block peer rnd | markAsFinished block peer rnd =>
    refine hall ?_
    simp only [coreStep, PiecePicker.markAsDownloadingCore, requestBlock, PiecePicker.markAsWritingCore, writeBlock,
      PiecePicker.markAsFinishedCore, finishBlock]
    repeat' split
    all_goals exact ⟨rfl, rfl, rfl⟩
  | abortDownload block peer rnd | writeFailed block rnd | restorePiece index rnd =>
    refine hall ?_
    simp only [coreStep, PiecePicker.abortDownloadCore, PiecePicker.writeFailedCore, dropIfUnused,
      PiecePicker.restorePieceCore]
    repeat' split
    all_goals first
      | exact ⟨rfl, rfl, rfl⟩
      | exact rest_eraseDownloadPiece _ _
  | _ => exact hall ⟨rfl, rfl, rfl⟩

/-- The calls that change what is counted. -/
def Recounts : Op → Prop
  | .init _ _ _ | .weHave _ | .weDontHave _ _ | .setPiecePriority _ _ _ => True
  | _ => False

theorem sameCounts_coreStep (op : Op) (h : ¬ Recounts op) : SameCounts s (s.coreStep op) := by
  cases op with
  | init b l n | weHave index | weDontHave index rnd | setPiecePriority index prio rnd => exact absurd trivial h
  | incRefcount index rnd | decRefcount index rnd => exact .modifyPos s index (by intro x; rfl) (by intro x; rfl)
  | incRefcountBits bits | decRefcountBits bits => exact .modifyBits s bits (by intro x; rfl) (by intro x; rfl)
  | incRefcountAll => exact ⟨rfl, rfl, fun _ => rfl, fun _ => rfl⟩
  | decRefcountAll => exact .decRefcountAll s
  | markAsDownloading block peer state => exact .markAsDownloadingCore s block peer state
  | markAsWriting block peer => exact .markAsWritingCore s block peer
  | markAsFinished block peer => exact .markAsFinishedCore s block peer
  | abortDownload block peer => exact .abortDownloadCore s block peer
  | writeFailed block => exact .writeFailedCore s block
  | restorePiece index => exact .restorePieceCore s index
  | clearPeer peer => exact .of_neutral (Neutral.clearPeer s peer)
  | pickPieces => exact .refl s

theorem numPieces_coreStep {op : Op} (h : ∀ b l n, op ≠ .init b l n) : (s.coreStep op).numPieces = s.numPieces := by
  cases op with
  | init b l n => exact absurd rfl (h b l n)
  | weHave index =>
    have hd := (SameCounts.dropEntry s index).num
    simp only [coreStep, weHaveCore]
    split
    · exact hd
    · exact (gainPiece_eq (s.dropEntry index) index).1.num.trans hd
  | weDontHave index =>
    simp only [coreStep]
    split
    · exact (losePiece_eq s index).1.num
    · rfl
  | setPiecePriority index prio =>
    obtain ⟨nf, nhf, c, r, he⟩ := changePriority_eq s index prio
    simp only [coreStep, he]
    split
    · rfl
    · exact numPieces_modifyPos _ _ _
  | _ => exact (sameCounts_coreStep s _ id).num

end

/-! ## Runs -/

theorem coreStep_balanced {op : Op} (h : Balanced s) (hpre : s.Pre op) (hsize : s.SameSize op) :
    Balanced (s.coreStep op) := by
  cases op with
  | init => exact init_balanced h hsize
  | weHave index =>
    have hd := SameCounts.dropEntry s index
    have hb := hd.balanced h
    simp only [coreStep, weHaveCore]
    split_ifs with hh
    · exact hb
    · exact gainPiece_balanced hb (by rw [hd.num]; exact hpre) (by simpa using hh)
  | weDontHave =>
    simp only [coreStep]
    split_ifs with hh
    · exact losePiece_balanced h hpre.1 hh
    · exact h
  | setPiecePriority =>
    simp only [coreStep]
    split
    · exact h
    · exact changePriority_balanced h hpre.1
  | _ => exact (sameCounts_coreStep s _ id).balanced h

theorem balanced_new : Balanced new where
  numHave := rfl
  numFiltered := rfl
  numHaveFiltered := rfl
  bracket := ⟨le_refl 0, fun i hi => absurd hi (not_lt_zero i), fun h => absurd h (lt_irrefl 0),
    le_refl 0, fun i _ hi => absurd hi (not_lt_zero i), fun h => absurd h (lt_irrefl 0)⟩

theorem balanced_run {ops : List Op} (hl : Legal step (fun s op => s.Pre op ∧ s.SameSize op) new ops) :
    Balanced (run step new ops) := by
  refine (inv_run (P := fun s => Sound s ∧ Balanced s) (fun s op h hp => ?_) ⟨sound_new, balanced_new⟩ hl).2
  obtain ⟨h1, h2⟩ := step_sound h.1 hp.1
  exact ⟨h1, (SameCounts.of_refiled h2).balanced (coreStep_balanced h.2 hp.1 hp.2)⟩

/-- **Counters and cursors.** In every state reachable by calls under their preconditions, `init` being repeated with
the same number of pieces only: the counters count the pieces we have, the filtered ones we do not have and the
filtered ones we have; `m_cursor` is the longest settled prefix and `m_reverse_cursor` the start of the longest settled
suffix. So the pieces still wanted lie between the cursors, and if there is none the cursors are at opposite ends. -/
theorem counters_and_cursors (ops : List Op) (hl : Legal step (fun s op => s.Pre op ∧ s.SameSize op) new ops) :
    let s := run step new ops
    s.numHave = s.howMany PiecePos.have ∧ (s.numFiltered = s.howMany fun x => x.filtered && !x.have) ∧
      (s.numHaveFiltered = s.howMany fun x => x.filtered && x.have) ∧
      (s.cursor ≤ s.numPieces ∧ (∀ i < s.cursor, s.settled i) ∧
        ∀ c ≤ s.numPieces, (∀ i < c, s.settled i) → c ≤ s.cursor) ∧
      ((∀ i, s.reverseCursor ≤ i → i < s.numPieces → s.settled i) ∧
        ∀ r, (∀ i, r ≤ i → i < s.numPieces → s.settled i) → s.reverseCursor ≤ r) ∧
      (∀ i < s.numPieces, ¬ s.settled i → s.cursor ≤ i ∧ i < s.reverseCursor) ∧
      ((∀ i < s.numPieces, s.settled i) → s.cursor = s.numPieces ∧ s.reverseCursor = 0) := by
  intro s
  have hb : Balanced s := balanced_run hl
  have B := hb.bracket
  have hlongest : ∀ c ≤ s.numPieces, (∀ i < c, s.settled i = true) → c ≤ s.cursor := by
    intro c hc hall
    by_contra hlt
    have h₁ := B.fwd_stop (by omega)
    rw [hall _ (by omega)] at h₁
    cases h₁
  have hsmallest : ∀ r, (∀ i, r ≤ i → i < s.numPieces → s.settled i = true) → s.reverseCursor ≤ r := by
    intro r hall
    by_contra hlt
    have hle := B.bwd_le
    have h₁ := B.bwd_stop (by omega)
    rw [hall _ (by omega) (by omega)] at h₁
    cases h₁
  refine ⟨hb.numHave, hb.numFiltered, hb.numHaveFiltered, ⟨B.fwd_le, B.fwd, hlongest⟩, ⟨B.bwd, hsmallest⟩, ?_, ?_⟩
  · intro i hi hns
    constructor
    · by_contra h
      exact hns (B.fwd i (by omega))
    · by_contra h
      exact hns (B.bwd i (by omega) hi)
  · intro hall
    have h₁ := hlongest s.numPieces (le_refl _) hall
    have h₂ := hsmallest 0 fun i _ hi => hall i hi
    have h₃ := B.fwd_le
    omega

/-- Five pieces: the last is filtered, three others come and one of them is lost; a second `init` forgets what we
have. -/
def cursorRun : List Op :=
  [.init 2 1 5, .setPiecePriority 4 0 0, .weHave 0, .weHave 1, .markAsDownloading (.of 3 0) (some 1) .fast 0, .weHave 3,
    .weDontHave 1 0, .init 2 1 5, .weHave 3, .weHave 0, .setPiecePriority 3 0 0]

theorem counters_and_cursors_cursorRun : let s := run step new cursorRun
    (s.cursor = 1 ∧ s.reverseCursor = 3 ∧ s.numHaveFiltered = 1) ∧ s.numHave = s.howMany PiecePos.have ∧
      ∀ i < s.numPieces, ¬ s.settled i → s.cursor ≤ i ∧ i < s.reverseCursor := by
  obtain ⟨h₁, -, -, -, -, h₂, -⟩ := counters_and_cursors cursorRun (by decide +kernel)
  exact ⟨by decide +kernel, h₁, h₂⟩

end Libtorrent.Picker.PiecePicker
