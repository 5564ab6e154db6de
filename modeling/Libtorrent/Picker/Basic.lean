import Mathlib.Algebra.Order.Ring.Int
import Libtorrent.Lib.Vec

/-!
# The piece picker: data model

`PiecePicker` carries the members of `piece_picker`, with the default build's field widths (`TORRENT_COMPACT_PICKER`
is 0): `peer_count` has 16 bits, `index` 32 bits, `num_peers` 14 bits. Vectors are lists, a `block_info*` is its
offset in `m_block_info`, a `void* peer` is an identifier or null. `priority` returns `none` where the source returns
`-1`.
-/

namespace Libtorrent.Picker

def weHaveIndex : Nat := 0xffffffff

def maxPeerCount : Nat := 0xffff

/-- The bits of the `int` `-1`, which `add` stores in a slot of `m_pieces` that is not filled yet. -/
def noPiece : Nat := 0xffffffff

def priorityLevels : Nat := 8

def prioFactor : Nat := priorityLevels - 4

/-- A `policy::peer*`; `none` is the null pointer. -/
abbrev PeerPtr := Option Nat

abbrev Bitfield := List Bool

/-- `piece_block`: a 19-bit piece index and a 13-bit block index. -/
structure PieceBlock where
  pieceIndex : Fin (2 ^ 19)
  blockIndex : Fin (2 ^ 13)
  deriving DecidableEq, Repr

def PieceBlock.of (pIndex bIndex : Nat) : PieceBlock := ⟨Fin.ofNat _ pIndex, Fin.ofNat _ bIndex⟩

theorem PieceBlock.pieceIndex_of {p j : Nat} (hp : p < 2 ^ 19) : ((PieceBlock.of p j).pieceIndex : Nat) = p :=
  Nat.mod_eq_of_lt hp

theorem PieceBlock.blockIndex_of {p j : Nat} (hj : j < 2 ^ 13) : ((PieceBlock.of p j).blockIndex : Nat) = j :=
  Nat.mod_eq_of_lt hj

theorem PieceBlock.of_eq (b : PieceBlock) : PieceBlock.of b.pieceIndex b.blockIndex = b := by
  obtain ⟨p, j⟩ := b
  simp only [PieceBlock.of, PieceBlock.mk.injEq]
  exact ⟨Fin.ext (Nat.mod_eq_of_lt p.isLt), Fin.ext (Nat.mod_eq_of_lt j.isLt)⟩

inductive BlockState where
  | none | requested | writing | finished
  deriving DecidableEq, Repr, Inhabited

/-- `piece_state_t`: the speed category of a downloading piece. -/
inductive PieceState where
  | none | slow | medium | fast
  deriving DecidableEq, Repr, Inhabited

structure BlockInfo where
  peer : PeerPtr := .none
  numPeers : Nat := 0
  state : BlockState := .none
  deriving DecidableEq, Repr, Inhabited

/-- `downloading_piece`; `info` is the offset of its first block in `m_block_info`. -/
structure DownloadingPiece where
  state : PieceState := .none
  index : Nat
  info : Nat
  finished : Int := 0
  writing : Int := 0
  requested : Int := 0
  deriving DecidableEq, Repr, Inhabited

structure PiecePos where
  peerCount : Nat := 0
  downloading : Bool := false
  full : Bool := false
  piecePriority : Nat := 1
  index : Nat := 0
  deriving DecidableEq, Repr

/-- What a read out of range gives: a piece that is never picked. -/
instance : Inhabited PiecePos := ⟨{ piecePriority := 0 }⟩

namespace PiecePos

variable (p : PiecePos)

def «have» : Bool := p.index == weHaveIndex

def filtered : Bool := p.piecePriority == 0

def setHave : PiecePos := { p with index := weHaveIndex }

def setNotHave : PiecePos := { p with index := 0 }

def incPeerCount : PiecePos := { p with peerCount := (p.peerCount + 1) % (maxPeerCount + 1) }

def decPeerCount : PiecePos :=
  { p with peerCount := if p.peerCount = 0 then maxPeerCount else p.peerCount - 1 }

/-- `priority(picker)`, with `seeds` for `picker->m_seeds`. -/
def priority (p : PiecePos) (seeds : Nat) : Option Nat :=
  if p.filtered || p.have || p.peerCount + seeds == 0 then none
  -- priority 7 disregards availability
  else if p.piecePriority == priorityLevels - 1 then some (if p.downloading then 0 else 1)
  else
    -- priorities 4, 5 and 6 halve the availability
    let high := priorityLevels / 2 ≤ p.piecePriority
    let availability := if high then p.peerCount / 2 else p.peerCount
    let prio := if high then p.piecePriority - (priorityLevels - 2) / 2 else p.piecePriority
    if p.downloading then some (availability * prioFactor)
    else some (availability * prioFactor + priorityLevels / 2 - prio)

end PiecePos

structure PiecePicker where
  seeds : Nat := 0
  pieces : List Nat := []
  priorityBoundries : List Nat := [0]
  pieceMap : List PiecePos := []
  downloads : List DownloadingPiece := []
  blockInfo : List BlockInfo := []
  blocksPerPiece : Nat := 0
  blocksInLastPiece : Nat := 0
  numFiltered : Int := 0
  numHaveFiltered : Int := 0
  numHave : Int := 0
  cursor : Nat := 0
  reverseCursor : Nat := 0
  sparseRegions : Int := 1
  dirty : Bool := false
  deriving DecidableEq, Repr

namespace PiecePicker

def new : PiecePicker := {}

variable (s : PiecePicker)

def numPieces : Nat := s.pieceMap.length

def pos (i : Nat) : PiecePos := s.pieceMap.getD i default

def priority (s : PiecePicker) (i : Nat) : Option Nat := (s.pos i).priority s.seeds

def modifyPos (i : Nat) (f : PiecePos → PiecePos) : PiecePicker :=
  { s with pieceMap := Vec.update s.pieceMap i f }

def blocksInPiece (index : Nat) : Nat :=
  if index + 1 = s.numPieces then s.blocksInLastPiece else s.blocksPerPiece

/-- A piece that is not to be downloaded any more: `have() || filtered()`. -/
def settled (i : Nat) : Bool := (s.pos i).have || (s.pos i).filtered

/-- The forward cursor scan: past every settled piece from `c` on. -/
def scanForward (s : PiecePicker) : Nat → Nat → Nat
  | 0, c => c
  | fuel + 1, c => if c < s.numPieces && s.settled c then scanForward s fuel (c + 1) else c

/-- The backward cursor scan: below every settled piece from `r - 1` down. -/
def scanBackward (s : PiecePicker) : Nat → Nat
  | 0 => 0
  | r + 1 => if s.settled r then scanBackward s r else r + 1

/-- `init(blocks_per_piece, blocks_in_last_piece, total_num_pieces)`. The `full` flags, the piece priorities,
`m_pieces`, `m_seeds` and `m_sparse_regions` keep their values. -/
def init (blocksPerPiece blocksInLastPiece totalNumPieces : Nat) : PiecePicker :=
  let s₁ : PiecePicker :=
    { s with
      pieceMap := (Vec.resize s.pieceMap totalNumPieces {}).map fun p =>
        { p with peerCount := 0, downloading := false, index := 0 }
      downloads := []
      blockInfo := []
      numFiltered := s.numFiltered + s.numHaveFiltered
      numHaveFiltered := 0
      numHave := 0
      dirty := true
      blocksPerPiece := blocksPerPiece
      blocksInLastPiece := if blocksInLastPiece = 0 then blocksPerPiece else blocksInLastPiece }
  { s₁ with
    cursor := s₁.scanForward totalNumPieces 0
    reverseCursor := s₁.scanBackward totalNumPieces }

/-!
## The download queue

`m_downloads` is sorted by piece index; each entry owns `m_blocks_per_piece` consecutive blocks of `m_block_info`. A new
entry takes the blocks behind all others; when an entry goes, the entry that owns the last blocks moves into its
place.
-/

/-- `std::lower_bound(m_downloads.begin(), m_downloads.end(), index)`. -/
def lowerBound (index : Nat) : Nat := s.downloads.findIdx fun dp => decide (index ≤ dp.index)

/-- The position of `find_dl_piece(index)` in `m_downloads`; `none` is `m_downloads.end()`. -/
def findDlPiece (index : Nat) : Option Nat :=
  let i := s.lowerBound index
  if i < s.downloads.length ∧ (s.downloads.getD i default).index = index then some i else none

def dl (i : Nat) : DownloadingPiece := s.downloads.getD i default

def block (i j : Nat) : BlockInfo := s.blockInfo.getD ((s.dl i).info + j) default

def modifyDl (i : Nat) (f : DownloadingPiece → DownloadingPiece) : PiecePicker :=
  { s with downloads := Vec.update s.downloads i f }

/-- A write to the fields of `m_downloads[i].info[j]`. -/
def modifyBlock (i j : Nat) (f : BlockInfo → BlockInfo) : PiecePicker :=
  { s with blockInfo := Vec.update s.blockInfo ((s.dl i).info + j) f }

def updateFull (i : Nat) : PiecePicker :=
  let dp := s.dl i
  s.modifyPos dp.index fun p =>
    { p with full := decide (dp.requested + dp.finished + dp.writing = s.blocksInPiece dp.index) }

/-- `add_download_piece(piece)`. Returns the position of the new entry. -/
def addDownloadPiece (piece : Nat) : PiecePicker × Nat :=
  let blockIndex := s.downloads.length * s.blocksPerPiece
  let blocks :=
    if s.blockInfo.length < blockIndex + s.blocksPerPiece
    then Vec.resize s.blockInfo (blockIndex + s.blocksPerPiece) {} else s.blockInfo
  let i := s.lowerBound piece
  ({ s with
      blockInfo := Vec.fill blocks blockIndex (blockIndex + s.blocksPerPiece) fun _ => {}
      downloads := s.downloads.insertIdx i { index := piece, info := blockIndex } }, i)

/-- The entry at `other` copies its blocks over those of the entry at `i`, and owns these from now on. -/
def takeOver (i other : Nat) : PiecePicker :=
  let src := (s.dl other).info
  let dst := (s.dl i).info
  { s with
    blockInfo := Vec.fill s.blockInfo dst (dst + s.blocksPerPiece) fun k => s.blockInfo.getD (src + (k - dst)) default
    downloads := Vec.update s.downloads other fun dp => { dp with info := dst } }

/-- The first part of `erase_download_piece(i)`: the last blocks in use become those that nobody needs. -/
def vacate (i : Nat) : PiecePicker :=
  let last := (s.downloads.length - 1) * s.blocksPerPiece
  let other := s.downloads.findIdx fun dp => dp.info == last
  if i = other then s else s.takeOver i other

def eraseDl (i : Nat) : PiecePicker := { s with downloads := s.downloads.eraseIdx i }

def eraseDownloadPiece (i : Nat) : PiecePicker :=
  ((s.vacate i).modifyPos (s.dl i).index fun p => { p with downloading := false }).eraseDl i

def clearPeer (peer : PeerPtr) : PiecePicker :=
  { s with blockInfo := s.blockInfo.map fun b => if b.peer = peer then { b with peer := .none } else b }

/-! ## What the connections ask about blocks and pieces -/

def blockInfo? (block : PieceBlock) : Option BlockInfo :=
  if (s.pos block.pieceIndex).downloading then
    (s.findDlPiece block.pieceIndex).map fun i => s.block i block.blockIndex
  else none

def numPeers (s : PiecePicker) (block : PieceBlock) : Nat := (s.blockInfo? block).elim 0 (·.numPeers)

def isRequested (block : PieceBlock) : Bool :=
  (s.blockInfo? block).any fun b => b.state == .requested

def isDownloaded (block : PieceBlock) : Bool :=
  (s.pos block.pieceIndex).have || (s.blockInfo? block).any fun b => b.state == .finished || b.state == .writing

def isFinished (block : PieceBlock) : Bool :=
  (s.pos block.pieceIndex).have || (s.blockInfo? block).any fun b => b.state == .finished

def isPieceFinished (index : Nat) : Bool :=
  (s.pos index).downloading &&
    (s.findDlPiece index).any fun i => decide (s.blocksInPiece index ≤ (s.dl i).finished + (s.dl i).writing)

/-- `blocks_in_piece(index) - p.finished - p.writing - p.requested`, with `p` from `piece_info(index, p)`. -/
def numFreeBlocks (index : Nat) : Int :=
  if (s.pos index).downloading then
    (s.findDlPiece index).elim 0 fun i =>
      s.blocksInPiece index - (s.dl i).finished - (s.dl i).writing - (s.dl i).requested
  else if (s.pos index).have then 0
  else s.blocksInPiece index

end PiecePicker

end Libtorrent.Picker
