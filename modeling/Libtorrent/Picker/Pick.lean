import Libtorrent.Picker.Index

/-!
# Picking blocks: `pick_pieces`

The picker goes over the partial pieces, the suggested pieces and then all pieces in one of three orders, and collects
blocks until it has `num_blocks` of them. The index is rebuilt when it is needed and stale.
-/

namespace Libtorrent.Picker

structure PickOptions where
  rarestFirst : Bool := false
  reverse : Bool := false
  onParole : Bool := false
  prioritizePartials : Bool := false
  sequential : Bool := false
  speedAffinity : Bool := false
  ignoreWholePieces : Bool := false
  deriving DecidableEq, Repr

structure PickArgs where
  pieces : Bitfield
  numBlocks : Int
  preferWholePieces : Nat
  peer : PeerPtr
  speed : PieceState
  options : PickOptions
  suggestedPieces : List Nat
  numPeers : Nat
  deriving DecidableEq, Repr

structure Picks where
  interesting : List PieceBlock
  backup : List PieceBlock := []
  backup2 : List PieceBlock := []
  numBlocks : Int
  deriving DecidableEq, Repr

def PieceState.toInt : PieceState → Int
  | .none => 0
  | .slow => 1
  | .medium => 2
  | .fast => 3

def Picks.appendBackup (a : Picks) : Picks :=
  let toCopy := min (a.backup.length : Int) a.numBlocks
  { a with
    interesting := a.interesting ++ a.backup.take toCopy.toNat, backup := [], numBlocks := a.numBlocks - toCopy }

def Picks.appendBackup2 (a : Picks) : Picks :=
  let toCopy := min (a.backup2.length : Int) a.numBlocks
  { a with
    interesting := a.interesting ++ a.backup2.take toCopy.toNat, backup2 := [], numBlocks := a.numBlocks - toCopy }

namespace PiecePicker

variable (s : PiecePicker)

def isPieceFree (piece : Nat) (bitmask : Bitfield) : Bool :=
  bitmask.getD piece false && !(s.pos piece).have && !(s.pos piece).filtered

def canPick (piece : Nat) (bitmask : Bitfield) : Bool :=
  bitmask.getD piece false && !(s.pos piece).have && !(s.pos piece).downloading && !(s.pos piece).filtered

def blockOf (dp : DownloadingPiece) (j : Nat) : BlockInfo := s.blockInfo.getD (dp.info + j) default

def freeBlocks (dp : DownloadingPiece) : List Nat :=
  (List.range (s.blocksInPiece dp.index)).filter fun j => (s.blockOf dp j).state = .none

/-- `requested_from(p, num_blocks_in_piece, peer)`, over the blocks `js`. -/
def requestedFrom (s : PiecePicker) (dp : DownloadingPiece) (peer : PeerPtr) : List Nat → Bool → Bool × Bool
  | [], exclusive => (exclusive, true)
  | j :: js, exclusive =>
    let info := s.blockOf dp j
    if info.state ≠ .none ∧ info.peer ≠ peer then
      if info.state = .requested ∧ info.peer ≠ .none then (false, false) else requestedFrom s dp peer js false
    else requestedFrom s dp peer js exclusive

/-- The last loop of `add_blocks_downloading`, over the free blocks; `exclusiveActive` is as in the source. -/
def pickFreeBlocks (dp : DownloadingPiece) (args : PickArgs) (prefer : Nat) (exclusiveActive : Bool) :
    List Nat → Picks → Picks
  | [], a => { a with numBlocks := max a.numBlocks 0 }
  | j :: js, a =>
    let b := PieceBlock.of dp.index j
    if dp.state ≠ .none ∧ dp.state ≠ args.speed ∧ !exclusiveActive ∧ args.options.speedAffinity then
      -- do not pick too many back-up blocks
      if (dp.state.toInt - args.speed.toInt).natAbs = 1 then
        if a.numBlocks ≤ a.backup.length then a
        else pickFreeBlocks dp args prefer exclusiveActive js { a with backup := a.backup ++ [b] }
      else if a.numBlocks ≤ a.backup2.length then a
      else pickFreeBlocks dp args prefer exclusiveActive js { a with backup2 := a.backup2 ++ [b] }
    else
      let a := { a with interesting := a.interesting ++ [b], numBlocks := a.numBlocks - 1 }
      if prefer = 0 ∧ a.numBlocks ≤ 0 then a else pickFreeBlocks dp args prefer exclusiveActive js a

variable (args : PickArgs)

def addBlocksDownloading (prefer : Nat) (dp : DownloadingPiece) (a : Picks) :
    Picks :=
  if !args.pieces.getD dp.index false || (s.pos dp.index).filtered then a
  else
    let (exclusive, exclusiveActive) := s.requestedFrom dp args.peer (List.range (s.blocksInPiece dp.index)) true
    if args.options.onParole && !exclusive then a
    else if 0 < prefer ∧ !exclusiveActive then
      if a.numBlocks ≤ a.backup2.length then a
      else { a with backup2 := a.backup2 ++ (s.freeBlocks dp).map (PieceBlock.of dp.index) }
    else pickFreeBlocks dp args prefer exclusiveActive (s.freeBlocks dp) a

/-- The downward scan of `expand_piece`, `k` pieces at most. -/
def expandDown (s : PiecePicker) (bits : Bitfield) : Nat → Nat → Nat
  | 0, start => start
  | k + 1, start => if s.canPick (start - 1) bits then expandDown s bits k (start - 1) else start

/-- The upward scan of `expand_piece`, `k` pieces at most. -/
def expandUp (s : PiecePicker) (bits : Bitfield) : Nat → Nat → Nat
  | 0, stop => stop
  | k + 1, stop => if s.canPick stop bits then expandUp s bits k (stop + 1) else stop

def expandPiece (piece wholePieces : Nat) (bits : Bitfield) : Nat × Nat :=
  if wholePieces = 0 then (piece, piece + 1)
  else
    let start := s.expandDown bits (min (wholePieces - 1) piece) piece
    let upperLimit := min (start + wholePieces) s.numPieces
    (start, s.expandUp bits (upperLimit - (piece + 1)) (piece + 1))

def pickBlocks (a : Picks) (piece count : Nat) : Picks :=
  { a with
    interesting := a.interesting ++ (List.range count).map (PieceBlock.of piece), numBlocks := a.numBlocks - count }

def pickWhole (a : Picks) (start stop : Nat) : Picks :=
  (List.range' start (stop - start)).foldl (fun a k => pickBlocks a k (s.blocksInPiece k)) a

def addBlocks (prefer : Nat) (ignore : List Nat) (piece : Nat) (a : Picks) : Picks :=
  if piece ∈ ignore then a
  else if (s.pos piece).downloading then
    if (s.pos piece).full || args.options.prioritizePartials then a
    else
      match s.findDlPiece piece with
      | none => a
      | some i => s.addBlocksDownloading args prefer (s.dl i) a
  else
    let a :=
      if prefer = 0 then pickBlocks a piece (min (s.blocksInPiece piece : Int) a.numBlocks).toNat
      else
        let (start, stop) := s.expandPiece piece prefer args.pieces
        s.pickWhole a start stop
    { a with numBlocks := max a.numBlocks 0 }

/-- `add_blocks` for the free ones of a list of pieces, until there are enough blocks. -/
def addEach (s : PiecePicker) (args : PickArgs) (prefer : Nat) (ignore : List Nat) : List Nat → Picks → Picks
  | [], a => a
  | piece :: rest, a =>
    if !s.isPieceFree piece args.pieces then addEach s args prefer ignore rest a
    else
      let a := s.addBlocks args prefer ignore piece a
      if a.numBlocks ≤ 0 then a else addEach s args prefer ignore rest a

def addPartials (s : PiecePicker) (args : PickArgs) (prefer : Nat) : List DownloadingPiece → Picks → Picks
  | [], a => a
  | dp :: rest, a =>
    if !s.isPieceFree dp.index args.pieces then addPartials s args prefer rest a
    else if (s.pos dp.index).full ∧ a.numBlocks ≤ a.backup.length ∧ a.numBlocks ≤ a.backup2.length then
      addPartials s args prefer rest a
    else
      let a := s.addBlocksDownloading args prefer dp a
      if a.numBlocks ≤ 0 then a else addPartials s args prefer rest a

/-- The pieces in the order of the reverse rarest-first picking: groups of `prio_factor` ranges from the last one down,
the ranges of a group in forward order. -/
def reverseOrder : List Nat :=
  (List.range s.priorityBoundries.length).reverse.flatMap fun i =>
    let prio := (i / prioFactor) * prioFactor + prioFactor - 1 - (i % prioFactor)
    (List.range' (s.rangeStart prio) (s.rangeEnd prio - s.rangeStart prio)).map s.piece

/-- `m_priority_boundries.resize(div_round_up(m_priority_boundries.size(), prio_factor) * prio_factor,
m_priority_boundries.back())`. -/
def roundUpBoundries : PiecePicker :=
  let size := (s.priorityBoundries.length + prioFactor - 1) / prioFactor * prioFactor
  { s with priorityBoundries := Vec.resize s.priorityBoundries size (s.priorityBoundries.getLastD 0) }

/-- The inner loop of the random picking: the next piece that can be picked, at most `fuel` steps away; `none` if
`startPiece` is reached. -/
def nextPickable (s : PiecePicker) (args : PickArgs) (startPiece : Nat) : Nat → Nat → Option Nat
  | 0, _ => none
  | fuel + 1, piece =>
    if !s.canPick piece args.pieces || args.suggestedPieces.contains piece then
      let piece := if piece + 1 = s.numPieces then 0 else piece + 1
      if piece = startPiece then none else nextPickable s args startPiece fuel piece
    else some piece

/-- The random picking: from `piece` on, around to `startPiece`. Every round picks a block, so `num_blocks` rounds are
enough. -/
def pickRandom (s : PiecePicker) (args : PickArgs) (prefer startPiece : Nat) : Nat → Nat → Picks → Picks
  | 0, _, a => a
  | fuel + 1, piece, a =>
    if a.numBlocks ≤ 0 then a
    else
      match s.nextPickable args startPiece (s.numPieces + 1) piece with
      | none => a
      | some piece =>
        let (start, stop) := s.expandPiece piece prefer args.pieces
        let a := (List.range' start (stop - start)).foldl (fun a k =>
          let count := if prefer = 0 then (min (s.blocksInPiece k : Int) a.numBlocks).toNat else s.blocksInPiece k
          pickBlocks a k count) a
        let piece := if stop = s.numPieces then 0 else stop
        if piece = startPiece then a else pickRandom s args prefer startPiece fuel piece a

def busyBlocks (s : PiecePicker) (args : PickArgs) : List DownloadingPiece → List PieceBlock
  | [] => []
  | dp :: rest =>
    if !args.pieces.getD dp.index false || (s.pos dp.index).piecePriority == 0 then busyBlocks s args rest
    else
      let js := (List.range (s.blocksInPiece dp.index)).filter fun j =>
        decide ((s.blockOf dp j).state = .requested ∧ (s.blockOf dp j).peer ≠ args.peer)
      if js = [] then busyBlocks s args rest else js.map (PieceBlock.of dp.index)

/-- More back-up blocks, from the full pieces that the first passes skipped. -/
def repickFull (prefer : Nat) (a : Picks) : Picks :=
  s.downloads.foldl (fun a dp =>
    if !args.pieces.getD dp.index false || !(s.pos dp.index).full then a
    else
      let b := s.addBlocksDownloading args prefer dp { a with interesting := [] }
      { a with backup := b.backup, backup2 := b.backup2 }) a

/-- The end of `pick_pieces`: the back-up blocks, and at last one busy block. -/
def pickBackups (prefer rnd : Nat) (a : Picks) : List PieceBlock :=
  let a := s.repickFull args prefer a
  let temp := s.busyBlocks args s.downloads
  let a := a.appendBackup
  if a.numBlocks ≤ 0 then a.interesting
  else
    let a := a.appendBackup2
    if a.numBlocks ≤ 0 ∨ args.options.onParole ∨ temp = [] then a.interesting
    else a.interesting ++ [temp.getD (rnd % temp.length) (PieceBlock.of 0 0)]

def pickFirst (prefer : Nat) (a : Picks) : Picks :=
  let a :=
    if args.options.prioritizePartials then
      let a := s.addPartials args prefer s.downloads a
      if a.numBlocks ≤ 0 then a
      else
        let a := a.appendBackup
        if a.numBlocks ≤ 0 then a else a.appendBackup2
    else a
  if a.numBlocks ≤ 0 then a else s.addEach args prefer [] args.suggestedPieces a

/-- The pass over all pieces, in sequential, rarest-first or random order; it may rebuild the index. -/
def pickAll (prefer : Nat) (shuffles : Nat → Nat) (rnd : Nat) (a : Picks) :
    PiecePicker × Picks :=
  if args.options.sequential then
    let order := List.range' s.cursor (s.reverseCursor - s.cursor)
    let order := if args.options.reverse then order.reverse else order
    (s, s.addEach args prefer args.suggestedPieces order a)
  else if args.options.rarestFirst then
    let s := if s.dirty then s.updatePieces shuffles else s
    let s := if args.options.reverse then s.roundUpBoundries else s
    let order := if args.options.reverse then s.reverseOrder else s.pieces
    (s, s.addEach args prefer args.suggestedPieces order a)
  else
    let startPiece := rnd % s.numPieces
    (s, s.pickRandom args prefer startPiece a.numBlocks.toNat startPiece a)

/-- The options in force: with too many partial pieces those come first. -/
def effectiveArgs : PickArgs :=
  if args.numPeers * 3 / 2 < s.downloads.length
  then { args with options := { args.options with prioritizePartials := true } } else args

def pickPieces (interesting : List PieceBlock) (shuffles : Nat → Nat)
    (rnd rnd' : Nat) : PiecePicker × List PieceBlock :=
  let args := s.effectiveArgs args
  let prefer := if args.options.ignoreWholePieces then 0 else args.preferWholePieces
  let a := s.pickFirst args prefer { interesting := interesting, numBlocks := args.numBlocks }
  if a.numBlocks ≤ 0 then (s, a.interesting)
  else
    let (s, a) := s.pickAll args prefer shuffles rnd a
    if a.numBlocks ≤ 0 then (s, a.interesting) else (s, s.pickBackups args prefer rnd' a)

end PiecePicker

end Libtorrent.Picker
