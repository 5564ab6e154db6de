import Libtorrent.Picker.Confined

/-!
# The sizes of a torrent

Pieces and blocks of a torrent, and the picker that `torrent::init` sets up for them (`Shaped`). Runs keep its shape
(`shaped_run`).
-/

namespace Libtorrent.Torrent

open Picker Picker.PiecePicker Run

/-- The sizes that the torrent file gives, and `block_size()`. -/
structure Sizes where
  pieceLength : Nat
  blockSize : Nat
  totalSize : Nat
  pieceLength_pos : 0 < pieceLength
  blockSize_pos : 0 < blockSize
  totalSize_pos : 0 < totalSize

namespace Sizes

variable (z : Sizes)

def numPieces : Nat := (z.totalSize + z.pieceLength - 1) / z.pieceLength

def pieceSize (index : Nat) : Nat :=
  if index + 1 = z.numPieces then z.totalSize - (z.numPieces - 1) * z.pieceLength else z.pieceLength

def blocksPerPiece : Nat := (z.pieceLength + z.blockSize - 1) / z.blockSize

def blocksInLastPiece : Nat := (z.totalSize % z.pieceLength + z.blockSize - 1) / z.blockSize

def initPicker : PiecePicker := PiecePicker.new.init z.blocksPerPiece z.blocksInLastPiece z.numPieces

end Sizes

/-- The picker has the pieces and blocks of the torrent, and a `piece_block` can name them. -/
structure Shaped (z : Sizes) (s : PiecePicker) : Prop where
  numPieces : s.numPieces = z.numPieces
  blocksPerPiece : s.blocksPerPiece = z.blocksPerPiece
  blocksInLastPiece : s.blocksInLastPiece =
    if z.blocksInLastPiece = 0 then z.blocksPerPiece else z.blocksInLastPiece
  piece_lt : z.numPieces ≤ 2 ^ 19
  block_lt : z.blocksPerPiece ≤ 2 ^ 13

variable {z : Sizes} {s : PiecePicker}

theorem Sizes.numPieces_pos (z : Sizes) : 0 < z.numPieces := by
  have h1 := z.pieceLength_pos
  have h2 := z.totalSize_pos
  exact Nat.div_pos (by omega) h1

def NoInit : Op → Prop
  | .init _ _ _ => False
  | _ => True

instance (op : Op) : Decidable (NoInit op) := by
  apply Op.casesOn (motive := fun op => Decidable (NoInit op)) op <;> intros <;> (dsimp only [NoInit]; infer_instance)

section

variable (hp : z.numPieces ≤ 2 ^ 19)
include hp

theorem initPicker_intact : Intact z.initPicker := by
  have hb : z.blocksInLastPiece ≤ z.blocksPerPiece := by
    refine Nat.div_le_div_right ?_
    have := Nat.mod_lt z.totalSize z.pieceLength_pos
    omega
  have hpos : 0 < z.blocksPerPiece := by
    have h1 := z.pieceLength_pos
    exact Nat.div_pos (by omega) z.blockSize_pos
  have hn : z.numPieces < weHaveIndex := Nat.lt_of_le_of_lt hp (by decide)
  exact step_intact (.init _ _ _) intact_new ⟨hpos, hb, z.numPieces_pos, hn⟩ (Or.inl rfl)

theorem initPicker_shaped (hb : z.blocksPerPiece ≤ 2 ^ 13) : Shaped z z.initPicker :=
  ⟨by simp [Sizes.initPicker, PiecePicker.init, PiecePicker.numPieces], rfl, rfl, hp, hb⟩

theorem shaped_run {ops : List Op} (hb : z.blocksPerPiece ≤ 2 ^ 13)
    (hl : Legal step (fun s op => s.Pre op ∧ NoInit op) z.initPicker ops) :
    Intact (run step z.initPicker ops) ∧ Shaped z (run step z.initPicker ops) := by
  refine inv_run (P := fun s => Intact s ∧ Shaped z s) (fun s op h hop => ?_)
    ⟨initPicker_intact hp, initPicker_shaped hp hb⟩ hl
  obtain ⟨hpre, hno⟩ := hop
  have hinit : ∀ b l n, op ≠ .init b l n := by
    rintro b l n rfl
    exact hno
  have hsize : s.SameSize op := by
    unfold SameSize
    split
    · exact hno.elim
    · trivial
  obtain ⟨-, R⟩ := step_sound h.1.orderly.1 hpre
  obtain ⟨h1, h2, h3⟩ := (SameBook.of_refiled R).shape
  obtain ⟨h4, h5⟩ := (rest_coreStep s op).2 hinit
  exact ⟨step_intact op h.1 hpre hsize, (h1.trans (numPieces_coreStep s hinit)).trans h.2.numPieces,
    (h2.trans h4).trans h.2.blocksPerPiece, (h3.trans h5).trans h.2.blocksInLastPiece, hp, hb⟩

end

end Libtorrent.Torrent
