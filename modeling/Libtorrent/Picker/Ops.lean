import Libtorrent.Picker.Index

/-!
# The operations of the piece picker

Availability (`inc_refcount`, `dec_refcount`), possession (`we_have`, `we_dont_have`), piece priorities and the states
of the blocks. Each operation changes what it is about and then moves the piece within the rarest-first index, unless
the index is to be rebuilt anyway (`m_dirty`).
-/

namespace Libtorrent.Picker.PiecePicker

variable (s : PiecePicker)

def updateFrom (prev : Option Nat) (index rnd : Nat) : PiecePicker :=
  match prev with
  | none => s
  | some q => if s.dirty then s else s.update q (s.pos index).index rnd

/-- `if (m_dirty || prev == new) return; if (prev == -1) add(index); else update(prev, p.index)`. -/
def refile (prev : Option Nat) (index rnd : Nat) : PiecePicker :=
  if s.dirty ∨ s.priority index = prev then s
  else
    match prev with
    | none => s.add index rnd
    | some q => s.update q (s.pos index).index rnd

/-! ## Availability -/

def incRefcount (index rnd : Nat) : PiecePicker :=
  (s.modifyPos index PiecePos.incPeerCount).refile (s.priority index) index rnd

def decRefcount (index rnd : Nat) : PiecePicker :=
  (s.modifyPos index PiecePos.decPeerCount).updateFrom (s.priority index) index rnd

def modifyBits (bits : Bitfield) (f : PiecePos → PiecePos) : PiecePicker :=
  { s with
    pieceMap := s.pieceMap.mapIdx fun i p => if bits.getD i false then f p else p
    dirty := s.dirty || bits.any id }

def incRefcountBits (bitmask : Bitfield) : PiecePicker := s.modifyBits bitmask PiecePos.incPeerCount

def decRefcountBits (bitmask : Bitfield) : PiecePicker := s.modifyBits bitmask PiecePos.decPeerCount

def incRefcountAll : PiecePicker :=
  { s with seeds := s.seeds + 1, dirty := s.dirty || s.seeds + 1 == 1 }

def decRefcountAll : PiecePicker :=
  if 0 < s.seeds then { s with seeds := s.seeds - 1, dirty := s.dirty || s.seeds - 1 == 0 }
  else { s with pieceMap := s.pieceMap.map PiecePos.decPeerCount, dirty := true }

/-! ## Possession and priorities -/

def closeCursors (index : Nat) : PiecePicker :=
  if s.cursor + 1 = s.reverseCursor ∧ s.cursor = index then { s with cursor := s.numPieces, reverseCursor := 0 }
  else if s.cursor = index then { s with cursor := s.scanForward s.numPieces (s.cursor + 1) }
  else if s.reverseCursor = index + 1 then { s with reverseCursor := s.scanBackward (s.reverseCursor - 1) }
  else s

def reopenCursors (index : Nat) : PiecePicker :=
  let cursor := min index s.cursor
  let reverseCursor := max (index + 1) s.reverseCursor
  if reverseCursor = cursor then { s with cursor := s.numPieces, reverseCursor := 0 }
  else { s with cursor := cursor, reverseCursor := reverseCursor }

/-- What `we_have` does to `m_sparse_regions`. -/
def sparseChange (index : Nat) : Int :=
  if index = 0 then
    if index + 1 = s.numPieces ∨ (s.pos (index + 1)).have then -1 else 0
  else if index + 1 = s.numPieces then
    if (s.pos (index - 1)).have then -1 else 0
  else
    match (s.pos (index - 1)).have, (s.pos (index + 1)).have with
    | true, true => -1
    | false, false => 1
    | _, _ => 0

def dropEntry (index : Nat) : PiecePicker :=
  if (s.pos index).downloading then
    match s.findDlPiece index with
    | some i => s.eraseDownloadPiece i
    | none => s
  else s

/-- The counters when we get the piece. -/
def countGain (index : Nat) : PiecePicker :=
  let filtered : Int := if (s.pos index).filtered then 1 else 0
  { s with
    sparseRegions := s.sparseRegions + s.sparseChange index
    numFiltered := s.numFiltered - filtered
    numHaveFiltered := s.numHaveFiltered + filtered
    numHave := s.numHave + 1 }

/-- The counters, the flag and the cursors when we get the piece. -/
def gainPiece (index : Nat) : PiecePicker :=
  ((s.countGain index).modifyPos index PiecePos.setHave).closeCursors index

def weHave (index : Nat) : PiecePicker :=
  let infoIndex := (s.pos index).index
  let priority := s.priority index
  let s := s.dropEntry index
  if (s.pos index).have then s
  else
    let s := s.gainPiece index
    match priority with
    | none => s
    | some q => if s.dirty then s else s.remove q infoIndex

/-- The counters, the cursors and the flag when we lose the piece. -/
def losePiece (index : Nat) : PiecePicker :=
  let s :=
    if (s.pos index).filtered
    then { s with numFiltered := s.numFiltered + 1, numHaveFiltered := s.numHaveFiltered - 1 }
    else s.reopenCursors index
  { s with numHave := s.numHave - 1 }.modifyPos index PiecePos.setNotHave

def weDontHave (index rnd : Nat) : PiecePicker :=
  if (s.pos index).have then
    let s := s.losePiece index
    if s.dirty ∨ s.priority index = none then s else s.add index rnd
  else s

def filterPiece (index : Nat) : PiecePicker :=
  if (s.pos index).have then { s with numHaveFiltered := s.numHaveFiltered + 1 }
  else { s with numFiltered := s.numFiltered + 1 }.closeCursors index

/-- The counters and cursors when the piece gets unfiltered. -/
def unfilterPiece (index : Nat) : PiecePicker :=
  if (s.pos index).have then { s with numHaveFiltered := s.numHaveFiltered - 1 }
  else { s with numFiltered := s.numFiltered - 1 }.reopenCursors index

/-- The counters, the cursors and the flag when the priority changes; true if the piece got filtered or unfiltered. -/
def changePriority (index newPiecePriority : Nat) : PiecePicker × Bool :=
  let (s, ret) :=
    if newPiecePriority = 0 ∧ (s.pos index).piecePriority ≠ 0 then (s.filterPiece index, true)
    else if newPiecePriority ≠ 0 ∧ (s.pos index).piecePriority = 0 then (s.unfilterPiece index, true)
    else (s, false)
  (s.modifyPos index fun p => { p with piecePriority := newPiecePriority }, ret)

def setPiecePriority (index newPiecePriority rnd : Nat) : PiecePicker × Bool :=
  if newPiecePriority = (s.pos index).piecePriority then (s, false)
  else
    let r := s.changePriority index newPiecePriority
    (r.1.refile (s.priority index) index rnd, r.2)

/-! ## Blocks -/

def flag (index : Nat) : PiecePicker := s.modifyPos index fun p => { p with downloading := true }

/-- `p.downloading = 1; if (prio >= 0 && !m_dirty) update(prio, p.index)`. -/
def beginDownload (index rnd : Nat) : PiecePicker :=
  (s.flag index).updateFrom (s.priority index) index rnd

/-- A new entry whose block `j` is requested. -/
def openRequested (p j : Nat) (peer : PeerPtr) (state : PieceState) : PiecePicker :=
  let (s, i) := s.addDownloadPiece p
  let s := s.modifyBlock i j fun _ => { state := .requested, peer := peer, numPeers := 1 }
  let s := s.modifyDl i fun dp => { dp with state := state, requested := dp.requested + 1 }
  s.updateFull i

/-- `mark_as_downloading` for a block of the entry at `i`: false if it is downloaded already. -/
def requestBlock (i j : Nat) (peer : PeerPtr) (state : PieceState) : PiecePicker × Bool :=
  let info := s.block i j
  if info.state = .writing ∨ info.state = .finished then (s, false)
  else
    let s := if info.state = .requested then s
      else (s.modifyDl i fun dp => { dp with requested := dp.requested + 1 }).updateFull i
    let s := s.modifyBlock i j fun b =>
      { b with peer := peer, state := .requested, numPeers := (b.numPeers + 1) % 2 ^ 14 }
    (s.modifyDl i fun dp => { dp with state := if dp.state = .none then state else dp.state }, true)

def markAsDownloading (block : PieceBlock) (peer : PeerPtr) (state : PieceState) (rnd : Nat) :
    PiecePicker × Bool :=
  let p : Nat := block.pieceIndex
  let j : Nat := block.blockIndex
  if (s.pos p).downloading then
    match s.findDlPiece p with
    | none => (s, true)
    | some i => s.requestBlock i j peer state
  else ((s.beginDownload p rnd).openRequested p j peer state, true)

/-- A new entry whose block `j` is being written. -/
def openWriting (p j : Nat) (peer : PeerPtr) : PiecePicker :=
  let (s, i) := s.addDownloadPiece p
  let s := s.modifyBlock i j fun _ => { state := .writing, peer := peer, numPeers := 0 }
  let s := s.modifyDl i fun dp => { dp with state := .none, writing := 1 }
  s.updateFull i

def clearSpeed (i : Nat) : PiecePicker :=
  s.modifyDl i fun dp => { dp with state := if dp.requested = 0 then .none else dp.state }

/-- `mark_as_writing` for a block of the entry at `i`: false if it is downloaded already. -/
def writeBlock (i j : Nat) (peer : PeerPtr) : PiecePicker × Bool :=
  let state := (s.block i j).state
  let s := s.modifyBlock i j fun b => { b with peer := peer }
  if state = .writing ∨ state = .finished then (s, false)
  else
    let s := s.modifyDl i fun dp =>
      { dp with
        requested := if state = .requested then dp.requested - 1 else dp.requested
        writing := dp.writing + 1 }
    let s := s.modifyBlock i j fun b => { b with state := .writing, numPeers := 0 }
    (s.clearSpeed i, true)

def markAsWriting (block : PieceBlock) (peer : PeerPtr) (rnd : Nat) : PiecePicker × Bool :=
  let p : Nat := block.pieceIndex
  let j : Nat := block.blockIndex
  if (s.pos p).downloading then
    match s.findDlPiece p with
    | none => (s, true)
    | some i => s.writeBlock i j peer
  else if (s.pos p).have then (s, false)
  else ((s.beginDownload p rnd).openWriting p j peer, true)

/-- A new entry whose block `j` is finished; `update_full` is not called. -/
def openFinished (p j : Nat) (peer : PeerPtr) : PiecePicker :=
  let (s, i) := s.addDownloadPiece p
  let s := s.modifyBlock i j fun b => { b with peer := peer, state := .finished }
  s.modifyDl i fun dp => { dp with state := .none, finished := dp.finished + 1 }

def finishBlock (i j : Nat) (peer : PeerPtr) : PiecePicker :=
  let state := (s.block i j).state
  if state = .finished then s
  else
    let s := s.modifyBlock i j fun b => { b with peer := peer, state := .finished }
    s.modifyDl i fun dp =>
      { dp with
        finished := dp.finished + 1
        writing := if state = .writing then dp.writing - 1 else dp.writing }

def markAsFinished (block : PieceBlock) (peer : PeerPtr) (rnd : Nat) : PiecePicker :=
  let p : Nat := block.pieceIndex
  let j : Nat := block.blockIndex
  if (s.pos p).downloading then
    match s.findDlPiece p with
    | none => s
    | some i => s.finishBlock i j peer
  else if (s.pos p).have then s
  else (s.beginDownload p rnd).openFinished p j peer

def endDownload (i index rnd : Nat) : PiecePicker :=
  (s.eraseDownloadPiece i).refile (s.priority index) index rnd

def restorePiece (index rnd : Nat) : PiecePicker :=
  match s.findDlPiece index with
  | none => s
  | some i => s.endDownload i index rnd

/-- No block of the entry at `i` is in use: `finished + writing + requested == 0`. -/
def unused (i : Nat) : Bool :=
  decide ((s.dl i).finished + (s.dl i).writing + (s.dl i).requested = 0)

/-- A block of the entry at `i` that was being written is free again. -/
def failBlock (i j : Nat) : PiecePicker :=
  let state := (s.block i j).state
  let s := s.modifyDl i fun dp => { dp with writing := if state = .writing then dp.writing - 1 else dp.writing }
  (s.modifyBlock i j fun b => { b with peer := .none, state := .none }).updateFull i

def writeFailed (block : PieceBlock) (rnd : Nat) : PiecePicker :=
  let p : Nat := block.pieceIndex
  let j : Nat := block.blockIndex
  match s.findDlPiece p with
  | none => s
  | some i =>
    if (s.block i j).state = .finished then s
    else
      let s := s.failBlock i j
      if s.unused i then s.endDownload i p rnd else s

def withdrawPeer (i j : Nat) (peer : PeerPtr) : PiecePicker :=
  s.modifyBlock i j fun b => { b with numPeers := b.numPeers - 1, peer := if b.peer = peer then .none else b.peer }

/-- A block of the entry at `i` that nobody requests any more is free again. -/
def freeBlock (i j : Nat) : PiecePicker :=
  let s := s.modifyBlock i j fun b => { b with peer := .none, state := .none }
  (s.modifyDl i fun dp => { dp with requested := dp.requested - 1 }).updateFull i

def abortDownload (block : PieceBlock) (peer : PeerPtr) (rnd : Nat) : PiecePicker :=
  let p : Nat := block.pieceIndex
  let j : Nat := block.blockIndex
  if (s.pos p).downloading then
    match s.findDlPiece p with
    | none => s
    | some i =>
      if (s.block i j).state ≠ .requested then s
      else
        let s := s.withdrawPeer i j peer
        -- other peers have requested the block as well
        if 0 < (s.block i j).numPeers then s
        else
          let s := s.freeBlock i j
          if s.unused i then
            let prev := s.priority p
            let s := s.eraseDownloadPiece i
            if s.dirty then s
            else if prev = none ∧ s.priority p ≠ none then s.add p rnd
            else s.updateFrom prev p rnd
          else s.clearSpeed i
  else s

end Libtorrent.Picker.PiecePicker
