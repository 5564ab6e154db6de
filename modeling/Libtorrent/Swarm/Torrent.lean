import Libtorrent.Picker.Ops

/-!
# The peers of a torrent: availability messages

The handlers of `peer_connection` for HAVE, DONT_HAVE, BITFIELD, HAVE_ALL and HAVE_NONE, and `torrent::remove_peer`, for
a torrent that has its metadata, is ready for connections and has a piece picker. Interest, choking, super seeding and
the peer list are left out: they do not reach the bitfields or the picker. Where a handler may end by disconnecting the
peer (`disconnect_if_redundant`, two upload-only ends), the disconnect is an event of its own that may follow.
-/

namespace Libtorrent.Swarm

open Picker

/-- `peer_connection`, as far as availability goes. -/
structure Peer where
  havePiece : Bitfield
  numPieces : Nat := 0
  bitfieldReceived : Bool := false
  deriving DecidableEq, Repr, Inhabited

def count (bits : Bitfield) : Nat := bits.countP id

def Peer.isSeed (p : Peer) : Bool := p.numPieces == p.havePiece.length && decide (0 < p.numPieces)

def Peer.hasPiece (p : Peer) (i : Nat) : Bool := p.havePiece.getD i false

/-- `torrent`, as far as availability goes; `seeding` is `m_state == torrent_status::seeding`. -/
structure Torrent where
  picker : PiecePicker
  connections : List Peer := []
  seeding : Bool := false
  uploadMode : Bool := false
  deriving DecidableEq, Repr

namespace Torrent

variable (t : Torrent)

def isSeed : Bool := t.seeding || decide (t.picker.numHave = t.picker.numPieces)

def isFinished : Bool :=
  t.isSeed || decide ((t.picker.numPieces : Int) - t.picker.numHave - t.picker.numFiltered = 0)

def isUploadOnly : Bool := t.isFinished || t.uploadMode

def peer (k : Nat) : Peer := t.connections.getD k default

/-- A write to the fields of the `k`-th connection. -/
def setPeer (k : Nat) (p : Peer) : Torrent := { t with connections := t.connections.set k p }

def peerHas (index rnd : Nat) : Torrent := { t with picker := t.picker.incRefcount index rnd }

def peerHasBits (bits : Bitfield) : Torrent := { t with picker := t.picker.incRefcountBits bits }

def peerHasAll : Torrent := { t with picker := t.picker.incRefcountAll }

def peerLost (index rnd : Nat) : Torrent := { t with picker := t.picker.decRefcount index rnd }

def removePeer (k : Nat) : Torrent :=
  let p := t.peer k
  let picker := if p.isSeed then t.picker.decRefcountAll else t.picker.decRefcountBits p.havePiece
  { t with picker := picker, connections := t.connections.eraseIdx k }

/-- A peer connects; its bitfield has the size of the torrent. -/
def connect : Torrent :=
  { t with connections := t.connections ++ [{ havePiece := List.replicate t.picker.numPieces false }] }

def incomingHaveNone (k : Nat) : Torrent :=
  t.setPeer k { t.peer k with bitfieldReceived := true }

def incomingHave (k : Nat) (index : Int) (rnd : Nat) : Torrent :=
  let t := if (t.peer k).bitfieldReceived then t else t.incomingHaveNone k
  let p := t.peer k
  if (p.havePiece.length : Int) ≤ index ∨ index < 0 then t.removePeer k
  else if p.hasPiece index.toNat then t
  else
    (t.setPeer k { p with havePiece := p.havePiece.set index.toNat true, numPieces := p.numPieces + 1 }).peerHas
      index.toNat rnd

def incomingDontHave (k : Nat) (index : Int) (rnd : Nat) : Torrent :=
  let p := t.peer k
  if (p.havePiece.length : Int) ≤ index ∨ index < 0 then t.removePeer k
  else if p.hasPiece index.toNat then
    (t.setPeer k { p with havePiece := p.havePiece.set index.toNat false, numPieces := p.numPieces - 1 }).peerLost
      index.toNat rnd
  else t

/-- The loop of `incoming_bitfield` over the pieces below `n`: `peer_lost` for those that `have` has and `bits` has
not. -/
def losePieces (t : Torrent) («have» bits : Bitfield) (rnds : Nat → Nat) : Nat → Torrent
  | 0 => t
  | n + 1 =>
    let t := t.losePieces «have» bits rnds n
    if !bits.getD n false && have.getD n false then t.peerLost n (rnds n) else t

def incomingBitfield (k : Nat) (bits : Bitfield) (rnds : Nat → Nat) : Torrent :=
  let p := t.peer k
  if (bits.length + 7) / 8 ≠ (p.havePiece.length + 7) / 8 then t.removePeer k
  else if count bits = p.havePiece.length then
    (t.setPeer k
      { havePiece := List.replicate p.havePiece.length true, numPieces := count bits, bitfieldReceived :=
        true }).peerHasAll
  else
    -- an upload-only torrent does not keep track of availability
    let t := if t.isUploadOnly then t else (t.peerHasBits bits).losePieces p.havePiece bits rnds p.havePiece.length
    t.setPeer k { havePiece := bits, numPieces := count bits, bitfieldReceived := true }

def incomingHaveAll (k : Nat) : Torrent :=
  let p := t.peer k
  (t.setPeer k
    { havePiece := List.replicate p.havePiece.length true, numPieces := p.havePiece.length
      bitfieldReceived := true }).peerHasAll

end Torrent

/-! ## Events -/

/-- What can happen to the availability of pieces; `k` is the connection. -/
inductive Event where
  | connect
  | «have» (k : Nat) (index : Int) (rnd : Nat)
  | dontHave (k : Nat) (index : Int) (rnd : Nat)
  | bitfield (k : Nat) (bits : Bitfield) (rnds : Nat → Nat)
  | haveAll (k : Nat)
  | haveNone (k : Nat)
  | disconnect (k : Nat)
  | setUploadMode (b : Bool)

namespace Torrent

def step (t : Torrent) : Event → Torrent
  | .connect => t.connect
  | .have k index rnd => t.incomingHave k index rnd
  | .dontHave k index rnd => t.incomingDontHave k index rnd
  | .bitfield k bits rnds => t.incomingBitfield k bits rnds
  | .haveAll k => t.incomingHaveAll k
  | .haveNone k => t.incomingHaveNone k
  | .disconnect k => t.removePeer k
  | .setUploadMode b => { t with uploadMode := b }

/-- The connection exists, and a bitfield has as many bits as `bt_peer_connection::on_bitfield` gives it. -/
def Pre (t : Torrent) : Event → Prop
  | .connect | .setUploadMode _ => True
  | .bitfield k bits _ => k < t.connections.length ∧ bits.length = (t.peer k).havePiece.length
  | .have k _ _ | .dontHave k _ _ | .haveAll k | .haveNone k | .disconnect k => k < t.connections.length

instance (t : Torrent) (ev : Event) : Decidable (t.Pre ev) := by
  cases ev <;> (dsimp only [Pre]; infer_instance)

end Torrent

end Libtorrent.Swarm
