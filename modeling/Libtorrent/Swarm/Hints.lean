import Libtorrent.Swarm.Torrent

/-!
# Hints before the metadata

A peer of a torrent without metadata: its ALLOWED_FAST and SUGGEST_PIECE messages, and the first part of
`peer_connection::on_metadata_impl`, which checks them once the number of pieces is known. The rest of that function
does not reach the hints. It compares them with `m_num_pieces`, the number of pieces that the peer has.
-/

namespace Libtorrent.Swarm

open Picker List

/-- `peer_connection`, as far as these messages go. -/
structure HintingPeer extends Peer where
  haveAll : Bool := false
  allowedFast : List Int := []
  suggestedPieces : List Int := []

inductive Hint where
  | allowedFast (index : Int)
  | suggest (index : Int)

namespace HintingPeer

def incomingAllowedFast (p : HintingPeer) (index : Int) : HintingPeer :=
  if index < 0 then p else { p with allowedFast := p.allowedFast ++ [index] }

def incomingSuggest (maxSuggestPieces : Int) (p : HintingPeer) (index : Int) : HintingPeer :=
  if index < 0 then p
  else
    let suggested :=
      if (p.suggestedPieces.length : Int) > maxSuggestPieces then p.suggestedPieces.tail else p.suggestedPieces
    { p with suggestedPieces := suggested ++ [index] }

def incoming (maxSuggestPieces : Int) (p : HintingPeer) : Hint → HintingPeer
  | .allowedFast index => p.incomingAllowedFast index
  | .suggest index => p.incomingSuggest maxSuggestPieces index

end HintingPeer

/-- `bitfield::resize(bits, val)`. -/
def resize (bits : Bitfield) (size : Nat) (val : Bool) : Bitfield :=
  bits.take size ++ replicate (size - bits.length) val

/-- The loop that erases what is not below `numPieces`. -/
def eraseInvalid (numPieces : Int) : List Int → List Int
  | [] => []
  | i :: rest => if i < numPieces then i :: eraseInvalid numPieces rest else eraseInvalid numPieces rest

/-- `on_metadata_impl`, for a torrent of `n` pieces. -/
def HintingPeer.onMetadata (p : HintingPeer) (n : Nat) : HintingPeer :=
  let havePiece := resize p.havePiece n p.haveAll
  let numPieces := count havePiece
  { p with
    havePiece, numPieces
    allowedFast := eraseInvalid numPieces p.allowedFast
    suggestedPieces := eraseInvalid numPieces p.suggestedPieces }

theorem eraseInvalid_eq_filter (n : Int) (hints : List Int) : eraseInvalid n hints = hints.filter (· < n) := by
  induction hints with
  | nil => rfl
  | cons i rest ih =>
    rw [eraseInvalid, ih, filter_cons]
    simp only [decide_eq_true_eq]

theorem count_resize_le (bits : Bitfield) (n : Nat) (val : Bool) : count (resize bits n val) ≤ n := by
  refine countP_le_length.trans ?_
  simp only [resize, length_append, length_take, length_replicate]
  omega

/-- Erasing what is not below `m` keeps the entries below `n` if there are none in between. -/
theorem eraseInvalid_eq_iff {m n : Int} (h : m ≤ n) (hints : List Int) :
    eraseInvalid m hints = hints.filter (· < n) ↔ ∀ i ∈ hints, i < n → i < m := by
  rw [eraseInvalid_eq_filter]
  constructor
  · intro he i hi hn
    have hmem : i ∈ hints.filter (· < m) := he ▸ mem_filter.mpr ⟨hi, decide_eq_true hn⟩
    exact of_decide_eq_true (mem_filter.mp hmem).2
  · intro hall
    refine filter_congr fun i hi => decide_eq_decide.mpr ⟨fun hm => ?_, hall i hi⟩
    omega

/-- **Which hints outlive the metadata**: those below the number of pieces do, exactly if they are below the number of
pieces that the peer has. -/
theorem hints_kept_iff (maxSuggestPieces : Int) (start : HintingPeer) (hints : List Hint) (n : Nat) :
    let p := hints.foldl (HintingPeer.incoming maxSuggestPieces) start
    ((p.onMetadata n).allowedFast = p.allowedFast.filter (· < (n : Int)) ∧
        (p.onMetadata n).suggestedPieces = p.suggestedPieces.filter (· < (n : Int))) ↔
      ∀ i ∈ p.allowedFast ++ p.suggestedPieces, i < n → i < count (resize p.havePiece n p.haveAll) := by
  intro p
  have hle : (count (resize p.havePiece n p.haveAll) : Int) ≤ n := by exact_mod_cast count_resize_le _ _ _
  simp only [mem_append, or_imp, forall_and]
  exact and_congr (eraseInvalid_eq_iff hle _) (eraseInvalid_eq_iff hle _)

/-- A peer without pieces that offers the first piece and suggests it. -/
def generousPeer : HintingPeer := [.allowedFast 0, .suggest 0].foldl (HintingPeer.incoming 10) { havePiece := [] }

/-- Both hints are lost if the torrent has one piece. -/
theorem generousPeer_hints_lost :
    generousPeer.allowedFast.filter (· < 1) = [0] ∧ (generousPeer.onMetadata 1).allowedFast = [] ∧
      generousPeer.suggestedPieces.filter (· < 1) = [0] ∧ (generousPeer.onMetadata 1).suggestedPieces = [] := by
  decide

end Libtorrent.Swarm
