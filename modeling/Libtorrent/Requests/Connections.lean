import Libtorrent.Picker.BlockStatus

/-!
# Block requests

The connections of a torrent, as far as they ask for blocks and receive them: the two queues of `peer_connection`, the
bytes that are outstanding, and the piece picker that all connections share. What the picker picks, how fast peers are
and what `random()` returns are inputs. Extensions are left out, and all disk writes succeed.
-/

namespace Libtorrent.Requests

open Picker

structure PeerRequest where
  piece : Int
  start : Int
  length : Int
  deriving DecidableEq

/-- What the connections read of the torrent file. -/
structure Layout where
  numPieces : Nat
  pieceLength : Nat
  lastPieceSize : Nat
  blockSize : Nat
  blockSize_pos : 0 < blockSize

namespace Layout

variable (l : Layout)

def pieceSize (index : Nat) : Nat := if index + 1 = l.numPieces then l.lastPieceSize else l.pieceLength

def toReq (b : PieceBlock) : PeerRequest :=
  let offset : Int := (b.blockIndex * l.blockSize : Nat)
  ⟨(b.pieceIndex : Nat), offset, min (l.pieceSize b.pieceIndex - offset) l.blockSize⟩

def blockOf (r : PeerRequest) : PieceBlock :=
  .of (r.piece % 2 ^ 19).toNat ((r.start.tdiv l.blockSize) % 2 ^ 13).toNat

def verifyPiece (r : PeerRequest) : Bool :=
  decide (0 ≤ r.piece ∧ r.piece < l.numPieces ∧ 0 ≤ r.start ∧ r.start < l.pieceLength ∧ l.toReq (l.blockOf r) = r)

def matchRequest (r : PeerRequest) (b : PieceBlock) : Bool :=
  decide ((b.pieceIndex : Nat) = r.piece ∧ (b.blockIndex : Nat) = r.start.tdiv l.blockSize ∧
    r.start.tmod l.blockSize = 0)

/-- The request that `on_choke` takes as rejected. -/
def chokedRequest (b : PieceBlock) : PeerRequest :=
  let start : Int := (b.blockIndex * l.blockSize : Nat)
  ⟨(b.pieceIndex : Nat), start,
    if (b.pieceIndex : Nat) + 1 = l.numPieces then min (l.pieceSize b.pieceIndex - start) l.blockSize else l.blockSize⟩

end Layout

structure PendingBlock where
  block : PieceBlock
  skipped : Nat := 0
  notWanted : Bool := false
  timedOut : Bool := false
  busy : Bool := false
  deriving DecidableEq

def PendingBlock.wanted (e : PendingBlock) : Bool := !e.timedOut && !e.notWanted

/-- A PIECE message of which a part was received, with `m_received_in_piece`. -/
structure Receiving where
  request : PeerRequest
  received : Int

inductive Speed where
  | slow | medium | fast

def Speed.pieceState : Speed → PieceState
  | .slow => .slow
  | .medium => .medium
  | .fast => .fast

structure Peer where
  supportsFast : Bool := false
  requestLargeBlocks : Bool := false
  downloadQueue : List PendingBlock := []
  requestQueue : List PendingBlock := []
  queuedTimeCritical : Nat := 0
  outstandingBytes : Int := 0
  receiving : Option Receiving := none
  desiredQueueSize : Nat := 2
  endgame : Bool := false
  onParole : Bool := false
  peerChoked : Bool := true
  allowedFast : List Int := []
  speed : Speed := .slow

structure Torrent where
  layout : Layout
  picker : PiecePicker
  connections : List Nat
  peer : Nat → Peer
  random : Nat → Nat
  dropSkippedRequests : Bool
  uploadMode : Bool
  gracefulPause : Bool
  -- neither checking, allocating nor without metadata
  canDownload : Bool

namespace Torrent

variable (t : Torrent)

def isSeed : Bool := t.picker.numHave == t.picker.numPieces

def modifyPeer (p : Nat) (f : Peer → Peer) : Torrent :=
  { t with peer := Function.update t.peer p (f (t.peer p)) }

/-- A call of the picker, which may use a random number. -/
def withPicker (f : PiecePicker → Nat → PiecePicker) : Torrent :=
  { t with picker := f t.picker (t.random 0), random := fun i => t.random (i + 1) }

def abortDownload (t : Torrent) (block : PieceBlock) (p : Nat) : Torrent :=
  t.withPicker fun s rnd => s.abortDownload block (some p) rnd

def markAsDownloading (t : Torrent) (block : PieceBlock) (p : Nat) : Torrent × Bool :=
  let (picker, ok) := t.picker.markAsDownloading block (some p) (t.peer p).speed.pieceState (t.random 0)
  ({ t with picker, random := fun i => t.random (i + 1) }, ok)

def markAsWriting (t : Torrent) (block : PieceBlock) (p : Nat) : Torrent :=
  t.withPicker fun s rnd => (s.markAsWriting block (some p) rnd).1

def blockLength (b : PieceBlock) : Int := (t.layout.toReq b).length

end Torrent

variable (x : Peer)

/-- `m_outstanding_bytes -= bytes; if (m_outstanding_bytes < 0) m_outstanding_bytes = 0`. The difference is not wrapped:
where it leaves the range of `int`, as for a REJECT with the length `-2 ^ 31`, the source is undefined. -/
def Peer.settle (bytes : Int) : Peer := { x with outstandingBytes := max 0 (x.outstandingBytes - bytes) }

def Peer.queues (b : PieceBlock) : Bool :=
  x.downloadQueue.any (·.block == b) || x.requestQueue.any (·.block == b)

/-! ## Asking for blocks -/

def Peer.queueRequest (e : PendingBlock) (timeCritical : Bool) : Peer :=
  if timeCritical then
    { x with
      requestQueue := x.requestQueue.insertIdx x.queuedTimeCritical e
      queuedTimeCritical := x.queuedTimeCritical + 1 }
  else { x with requestQueue := x.requestQueue ++ [e] }

variable (t : Torrent)

variable (p : Nat)

def addRequest (block : PieceBlock) (timeCritical busy : Bool) : Torrent × Bool :=
  let x := t.peer p
  if t.uploadMode then (t, false)
  -- only one busy request in the pipeline at a time
  else if busy ∧ (x.downloadQueue.any (·.busy) ∨ x.requestQueue.any (·.busy)) then (t, false)
  else
    let (t, ok) := t.markAsDownloading block p
    if !ok then (t, false) else (t.modifyPeer p (·.queueRequest { block, busy } timeCritical), true)

/-- What `request_a_block` gets from elsewhere: the result of `pick_pieces`, if whole pieces are preferred, and if it is
too early for the end game. -/
structure Picks where
  interestingPieces : List PieceBlock
  preferWholePieces : Bool
  strictEndGame : Bool

/-- The loop of `request_a_block`: the torrent, the number of requests still to be made, and `busy_block`. -/
def pickLoop (p : Nat) (preferWholePieces dontPickBusyBlocks : Bool) :
    List PieceBlock → Torrent → Int → Option PieceBlock → Torrent × Int × Option PieceBlock
  | [], t, numRequests, busyBlock => (t, numRequests, busyBlock)
  | b :: rest, t, numRequests, busyBlock =>
    if !preferWholePieces ∧ numRequests ≤ 0 then (t, numRequests, busyBlock)
    else if 0 < t.picker.numPeers b then
      if numRequests ≤ 0 ∨ dontPickBusyBlocks then (t, numRequests, busyBlock)
      else pickLoop p preferWholePieces dontPickBusyBlocks rest t numRequests (some b)
    else if (t.peer p).queues b then pickLoop p preferWholePieces dontPickBusyBlocks rest t numRequests busyBlock
    else
      let (t, added) := addRequest t p b false false
      pickLoop p preferWholePieces dontPickBusyBlocks rest t (if added then numRequests - 1 else numRequests) busyBlock

def Peer.interesting (picks : Picks) : List PieceBlock :=
  if x.peerChoked then picks.interestingPieces.filter fun b => ((b.pieceIndex : Nat) : Int) ∈ x.allowedFast
  else picks.interestingPieces

def pickBusy (numRequests : Int) (busyBlock : Option PieceBlock) : Torrent :=
  if numRequests ≤ 0 then t.modifyPeer p fun x => { x with endgame := false }
  else
    let t := if (t.peer p).peerChoked then t else t.modifyPeer p fun x => { x with endgame := true }
    match busyBlock with
    | none => t
    | some b =>
      if (t.peer p).downloadQueue.length + (t.peer p).requestQueue.length > 0 then t
      else (addRequest t p b false true).1

def requestABlock (picks : Picks) : Torrent :=
  let x := t.peer p
  if t.isSeed ∨ t.uploadMode ∨ p ∉ t.connections ∨ !t.canDownload then t
  else
    let queued := x.downloadQueue.length + x.requestQueue.length
    let numRequests : Int := (if x.endgame then 1 else x.desiredQueueSize : Nat) - queued
    if numRequests ≤ 0 then t
    else
      let (t, numRequests, busyBlock) := pickLoop p picks.preferWholePieces (picks.strictEndGame || decide (queued > 0))
        (x.interesting picks) t numRequests none
      pickBusy t p numRequests busyBlock

/-! ## Closing a connection -/

/-- The loops that take one request after the other from the request queue and abort it. The queue is given in the order
in which it is taken. -/
def wipeRequests (p : Nat) : List PendingBlock → Torrent → Torrent
  | [], t => t
  | e :: rest, t =>
    wipeRequests p rest ((t.abortDownload e.block p).modifyPeer p fun x => { x with requestQueue := rest })

/-- The same for the download queue, of which only the wanted blocks are in the picker. -/
def wipeDownloads (p : Nat) : List PendingBlock → Torrent → Torrent
  | [], t => t
  | e :: rest, t =>
    let length := t.blockLength e.block
    let t := if e.wanted then t.abortDownload e.block p else t
    wipeDownloads p rest (t.modifyPeer p fun x => { x with downloadQueue := rest }.settle length)

def disconnect : Torrent :=
  if p ∉ t.connections then t
  else
    let t := t.modifyPeer p fun x => { x with queuedTimeCritical := 0 }
    let t :=
      if t.isSeed then
        t.modifyPeer p fun x => { x with downloadQueue := [], requestQueue := [], outstandingBytes := 0 }
      else wipeRequests p (t.peer p).requestQueue.reverse (wipeDownloads p (t.peer p).downloadQueue.reverse t)
    { t.modifyPeer p fun x => { x with receiving := none } with connections := t.connections.erase p }

/-! ## Sending requests -/

def Peer.popRequest (rest : List PendingBlock) : Peer :=
  { x with requestQueue := rest, queuedTimeCritical := x.queuedTimeCritical - 1 }

def Torrent.pushDownload (e : PendingBlock) : Torrent :=
  t.modifyPeer p fun x =>
    { x with
      downloadQueue := x.downloadQueue ++ [e]
      outstandingBytes := x.outstandingBytes + t.blockLength e.block }

/-- The number of a block, as it is computed for merging. -/
def Layout.ordinal (l : Layout) (b : PieceBlock) : Nat := b.pieceIndex * (l.pieceLength / l.blockSize) + b.blockIndex

def mergeLoop (p : Nat) : Nat → Torrent → PieceBlock → Torrent
  | 0, t, _ => t
  | fuel + 1, t, block =>
    match (t.peer p).requestQueue with
    | [] => t
    | front :: rest =>
      if t.layout.ordinal front.block ≠ t.layout.ordinal block + 1 then t
      else mergeLoop p fuel ((t.modifyPeer p (·.popRequest rest)).pushDownload p front) front.block

def sendLoop (p : Nat) : Nat → Torrent → Torrent
  | 0, t => t
  | fuel + 1, t =>
    let x := t.peer p
    match x.requestQueue with
    | [] => t
    | front :: rest =>
      if x.downloadQueue.length < x.desiredQueueSize ∨ x.queuedTimeCritical > 0 then
        let t := t.modifyPeer p (·.popRequest rest)
        if t.isSeed then sendLoop p fuel t
        else if t.picker.isFinished front.block ∨ t.picker.isDownloaded front.block then
          sendLoop p fuel (t.abortDownload front.block p)
        else
          let t := t.pushDownload p front
          sendLoop p fuel (if x.requestLargeBlocks then mergeLoop p fuel t front.block else t)
      else t

def sendBlockRequests : Torrent :=
  let x := t.peer p
  if p ∉ t.connections then t
  else if t.gracefulPause ∧ x.outstandingBytes = 0 then disconnect t p
  else if !t.canDownload ∨ x.downloadQueue.length ≥ x.desiredQueueSize ∨ t.uploadMode then t
  else sendLoop p x.requestQueue.length t

def requestMore (picks : Picks) : Torrent := sendBlockRequests (requestABlock t p picks) p

/-! ## Choking and rejecting -/

def clearRequestQueue : Torrent :=
  if (t.peer p).onParole then t
  else
    let t := t.modifyPeer p fun x => { x with queuedTimeCritical := 0 }
    if t.isSeed then t.modifyPeer p fun x => { x with requestQueue := [] }
    else wipeRequests p (t.peer p).requestQueue t

def rejectBlock (e : PendingBlock) : Torrent :=
  if (t.peer p).onParole then
    if e.wanted then t.modifyPeer p fun x => { x with requestQueue := e :: x.requestQueue } else t
  else if !t.isSeed ∧ e.wanted then t.abortDownload e.block p
  else t

/-- The first part of `incoming_reject_request`. -/
def dropRequest (r : PeerRequest) : Torrent :=
  match (t.peer p).downloadQueue.find? fun e => t.layout.matchRequest r e.block with
  | none => t
  | some e =>
    let t := t.modifyPeer p fun x =>
      { x with downloadQueue := x.downloadQueue.eraseP fun e => t.layout.matchRequest r e.block }.settle r.length
    rejectBlock t p e

def incomingRejectRequest (r : PeerRequest) (picks : Picks) : Torrent :=
  let t := dropRequest t p r
  let t :=
    if (t.peer p).peerChoked then t.modifyPeer p fun x => { x with allowedFast := x.allowedFast.erase r.piece } else t
  let x := t.peer p
  if x.requestQueue = [] ∧ x.downloadQueue.length < 2 then requestMore t p picks else t

def incomingChoke : Torrent :=
  clearRequestQueue (t.modifyPeer p fun x => { x with peerChoked := true, endgame := false }) p

def rejectAll (p : Nat) (picks : Picks) : Nat → Torrent → Torrent
  | 0, t => t
  | fuel + 1, t =>
    match (t.peer p).downloadQueue with
    | [] => t
    | front :: _ => rejectAll p picks fuel (incomingRejectRequest t p (t.layout.chokedRequest front.block) picks)

def onChoke (picks : Picks) : Torrent :=
  let t := incomingChoke t p
  if (t.peer p).supportsFast then t else rejectAll p picks (t.peer p).downloadQueue.length t

def incomingUnchoke (interesting : Bool) (picks : Picks) : Torrent :=
  let t := t.modifyPeer p fun x => { x with peerChoked := false }
  if interesting then requestMore t p picks else t

/-! ## Cancelling and snubbing -/

def Peer.takeRequest (block : PieceBlock) : Peer :=
  { x with
    requestQueue := x.requestQueue.eraseP (·.block == block)
    queuedTimeCritical :=
      if x.requestQueue.findIdx (·.block == block) < x.queuedTimeCritical then x.queuedTimeCritical - 1
      else x.queuedTimeCritical }

/-- `cancel_request`. For a peer without the fast extension `write_cancel` takes the request as rejected. -/
def cancelRequest (block : PieceBlock) (force : Bool) (picks : Picks) : Torrent :=
  let x := t.peer p
  if !t.picker.isRequested block then t
  else if x.downloadQueue.any (·.block == block) then
    let t := if force then t.abortDownload block p else t
    if x.outstandingBytes < t.blockLength block then t
    else if x.supportsFast then t
    else incomingRejectRequest t p (t.layout.toReq block) picks
  else if x.requestQueue.any (·.block == block) then
    (t.abortDownload block p).modifyPeer p (·.takeRequest block)
  else t

/-- If `cancel_request` gets as far as `write_cancel`. -/
def sendsCancel (block : PieceBlock) : Bool :=
  t.picker.isRequested block && (t.peer p).downloadQueue.any (·.block == block) &&
    !decide ((t.peer p).outstandingBytes < t.blockLength block)

/-- The loop of `cancel_block`, with the peers that are sent a CANCEL. -/
def cancelLoop (block : PieceBlock) (picks : Picks) : List Nat → Torrent → Torrent × List Nat
  | [], t => (t, [])
  | p :: rest, t =>
    let (t', cancels) := cancelLoop block picks rest (cancelRequest t p block false picks)
    (t', if sendsCancel t p block then p :: cancels else cancels)

def cancelBlock (block : PieceBlock) (picks : Picks) : Torrent := (cancelLoop block picks t.connections t).1

def splitLastWanted (queue : List PendingBlock) : Option (List PendingBlock × PendingBlock × List PendingBlock) :=
  match queue.reverse.dropWhile (!·.wanted) with
  | [] => none
  | e :: before => some (before.reverse, e, (queue.reverse.takeWhile (!·.wanted)).reverse)

/-- The end of `snub_peer`: the last wanted block times out, if it keeps the piece from being completed. -/
def timeOutLast : Torrent :=
  match splitLastWanted (t.peer p).downloadQueue with
  | none => sendBlockRequests t p
  | some (before, e, after) =>
    if t.picker.numFreeBlocks e.block.pieceIndex > 0 then t
    else
      let t := t.modifyPeer p fun x => { x with downloadQueue := before ++ { e with timedOut := true } :: after }
      sendBlockRequests (t.abortDownload e.block p) p

def snubPeer (picks : Picks) : Torrent :=
  let t := t.modifyPeer p fun x => { x with desiredQueueSize := 1 }
  if (t.peer p).onParole ∨ t.isSeed then t
  else
    let t := t.modifyPeer p fun x => { x with queuedTimeCritical := 0, desiredQueueSize := 2 }
    let t := wipeRequests p (t.peer p).requestQueue.reverse t
    let t := requestABlock t p picks
    timeOutLast (t.modifyPeer p fun x => { x with desiredQueueSize := 1 }) p

/-! ## Receiving blocks -/

/-- `start_receive_piece`, for a block that is not in the download queue. If it is in the request queue, it moves. -/
def receiveUnsent (r : PeerRequest) : Torrent :=
  let b := t.layout.blockOf r
  t.modifyPeer p fun x =>
    let queued := x.requestQueue.any (·.block == b)
    let x := if queued then x.takeRequest b else x
    { x with
      downloadQueue := { block := b, notWanted := !queued } :: x.downloadQueue
      outstandingBytes := x.outstandingBytes + r.length }

/-- The loop over the blocks that the one at the head of `tail` has overtaken; `passed` are those that stay. -/
def skipLoop (p : Nat) (tail : List PendingBlock) : List PendingBlock → List PendingBlock → Torrent → Torrent
  | _, [], t => t
  | passed, e :: rest, t =>
    let e := { e with skipped := (e.skipped + 1) % 2 ^ 13 }
    if t.dropSkippedRequests ∧ e.skipped > (t.peer p).desiredQueueSize then
      let length := t.blockLength e.block
      let t := if e.wanted then t.abortDownload e.block p else t
      skipLoop p tail passed rest
        (t.modifyPeer p fun x => { x with downloadQueue := passed ++ (rest ++ tail) }.settle length)
    else
      skipLoop p tail (passed ++ [e]) rest
        (t.modifyPeer p fun x => { x with downloadQueue := passed ++ e :: (rest ++ tail) })

def Peer.finishBlock (block : PieceBlock) : Peer :=
  { x with downloadQueue := x.downloadQueue.eraseP (·.block == block), receiving := none }

def receiveBlock (block : PieceBlock) (picks : Picks) : Torrent :=
  let queue := (t.peer p).downloadQueue
  let t := skipLoop p (queue.dropWhile (·.block != block)) [] (queue.takeWhile (·.block != block)) t
  let t' := t.modifyPeer p (·.finishBlock block)
  if t.picker.isDownloaded block then requestMore t' p picks
  else
    let t' := t'.markAsWriting block p
    -- did we request this block from other peers?
    let t' := if t.picker.numPeers block > 1 then cancelBlock t' block picks else t'
    requestMore t' p picks

def incomingPiece (r : PeerRequest) (desiredQueueSize : Nat) (picks : Picks) : Torrent :=
  let t := t.modifyPeer p fun x => { x with desiredQueueSize }
  -- an empty piece is taken as a reject
  if r.length = 0 then incomingRejectRequest (t.modifyPeer p fun x => { x with receiving := none }) p r picks
  else if t.isSeed then
    t.modifyPeer p fun x => { x with downloadQueue := x.downloadQueue.tail, receiving := none }
  else if (t.peer p).downloadQueue.any (·.block == t.layout.blockOf r) then
    receiveBlock t p (t.layout.blockOf r) picks
  else t.modifyPeer p fun x => { x with receiving := none }

/-- `incoming_piece_fragment`, and `incoming_piece` if the message is complete. -/
def receiveBytes (r : PeerRequest) (received bytes : Int) (desiredQueueSize : Nat)
    (picks : Picks) : Torrent :=
  let t := t.modifyPeer p fun x => { x with receiving := some ⟨r, received + bytes⟩ }.settle bytes
  if received + bytes = r.length then incomingPiece t p r desiredQueueSize picks else t

/-- `on_piece` when the header of the message is complete, with the first `bytes` of the block. -/
def startPiece (r : PeerRequest) (bytes : Int) (desiredQueueSize : Nat) (picks : Picks) :
    Torrent :=
  if !t.layout.verifyPiece r then disconnect t p
  else
    let t :=
      if (t.peer p).downloadQueue.any (·.block == t.layout.blockOf r) then t else receiveUnsent t p r
    receiveBytes t p r 0 bytes desiredQueueSize picks

/-- `on_piece` when more of the block arrives. -/
def pieceData (bytes : Int) (desiredQueueSize : Nat) (picks : Picks) : Torrent :=
  match (t.peer p).receiving with
  | none => t
  | some m => receiveBytes t p m.request m.received bytes desiredQueueSize picks

/-! ## Writing and checking pieces -/

def onDiskWriteComplete (block : PieceBlock) : Torrent :=
  if t.isSeed then t
  else t.withPicker fun s rnd => s.markAsFinished block (if p ∈ t.connections then some p else none) rnd

/-- The blocks of the piece that a connection still waits for. -/
def Peer.pendingIn (index : Nat) : List PieceBlock :=
  ((x.downloadQueue.filter (·.wanted)).map (·.block) ++ x.requestQueue.map (·.block)).filter
    fun b => (b.pieceIndex : Nat) == index

def restorePieceState (index : Nat) : Torrent :=
  t.connections.foldl (fun t p => ((t.peer p).pendingIn index).foldl (fun t b => (t.markAsDownloading b p).1) t) t

def restorePiece (t : Torrent) (index : Nat) : Torrent :=
  restorePieceState (t.withPicker fun s rnd => s.restorePiece index rnd) index

inductive CheckResult where
  | passed
  | failed
  | diskFailed

/-- `torrent::piece_failed`: some peers are on parole from now on, some are banned. -/
def pieceFailed (index : Nat) (onParole banned : List Nat) : Torrent :=
  let t := onParole.foldl (fun t p => t.modifyPeer p fun x => { x with onParole := true }) t
  restorePiece (banned.foldl disconnect t) index

def pieceFinished (index : Nat) (result : CheckResult) (onParole banned : List Nat) : Torrent :=
  if t.isSeed ∨ !t.picker.isPieceFinished index then t
  else
    match result with
    | .passed => { t with picker := t.picker.weHave index }
    | .failed => pieceFailed t index onParole banned
    | .diskFailed => restorePiece t index

/-! ## Calls -/

/-- The calls. The last ones stand for what the rest of the program changes. -/
inductive Call where
  | connect (p : Nat) (supportsFast requestLargeBlocks : Bool)
  | addRequest (p : Nat) (block : PieceBlock) (timeCritical busy : Bool)
  | requestABlock (p : Nat) (picks : Picks)
  | sendBlockRequests (p : Nat)
  | cancelRequest (p : Nat) (block : PieceBlock) (force : Bool) (picks : Picks)
  | snubPeer (p : Nat) (picks : Picks)
  | choke (p : Nat) (picks : Picks)
  | unchoke (p : Nat) (interesting : Bool) (picks : Picks)
  | reject (p : Nat) (r : PeerRequest) (picks : Picks)
  | startPiece (p : Nat) (r : PeerRequest) (bytes : Int) (desiredQueueSize : Nat) (picks : Picks)
  | pieceData (p : Nat) (bytes : Int) (desiredQueueSize : Nat) (picks : Picks)
  | disconnect (p : Nat)
  | diskWriteComplete (p : Nat) (block : PieceBlock)
  | pieceFinished (index : Nat) (result : CheckResult) (onParole banned : List Nat)
  | allowedFast (p : Nat) (piece : Int)
  | peerStatus (p : Nat) (desiredQueueSize : Nat) (speed : Speed) (onParole : Bool)
  | torrentStatus (uploadMode gracefulPause canDownload : Bool)

def step : Call → Torrent
  | .connect p supportsFast requestLargeBlocks =>
    { t.modifyPeer p fun _ => { supportsFast, requestLargeBlocks } with connections := p :: t.connections }
  | .addRequest p block timeCritical busy => (Requests.addRequest t p block timeCritical busy).1
  | .requestABlock p picks => Requests.requestABlock t p picks
  | .sendBlockRequests p => Requests.sendBlockRequests t p
  | .cancelRequest p block force picks => Requests.cancelRequest t p block force picks
  | .snubPeer p picks => Requests.snubPeer t p picks
  | .choke p picks => onChoke t p picks
  | .unchoke p interesting picks => incomingUnchoke t p interesting picks
  | .reject p r picks => incomingRejectRequest t p r picks
  | .startPiece p r bytes desiredQueueSize picks => Requests.startPiece t p r bytes desiredQueueSize picks
  | .pieceData p bytes desiredQueueSize picks => Requests.pieceData t p bytes desiredQueueSize picks
  | .disconnect p => Requests.disconnect t p
  | .diskWriteComplete p block => onDiskWriteComplete t p block
  | .pieceFinished index result onParole banned => Requests.pieceFinished t index result onParole banned
  | .allowedFast p piece => t.modifyPeer p fun x => { x with allowedFast := x.allowedFast ++ [piece] }
  | .peerStatus p desiredQueueSize speed onParole =>
    t.modifyPeer p fun x => { x with desiredQueueSize, speed, onParole }
  | .torrentStatus uploadMode gracefulPause canDownload => { t with uploadMode, gracefulPause, canDownload }

end Libtorrent.Requests
