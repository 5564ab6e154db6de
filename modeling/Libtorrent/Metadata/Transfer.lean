import Libtorrent.Lib.Wrap

/-!
# `metadata_transfer.cpp`: the LT_metadata extension

The metadata of a torrent in 256 parts. `metadata_plugin` is shared by the peers of a torrent, each of which has a
`metadata_peer_plugin`. Of the torrent the plugin asks whether it has metadata, what they are, and whether it takes
those that have been received. What the plugin does to memory and to the peer is a list of effects. The times are left
out: whether a peer may have metadata is an argument of `tick`.
-/

namespace Libtorrent.Metadata

def divRoundUp (numerator denominator : Int) : Int := (int32 (numerator + denominator - 1)).tdiv denominator

def reqToOffset (req : Int × Int) (totalSize : Int) : Int × Int :=
  let start := divRoundUp (int32 (req.1 * totalSize)) 256
  let size := divRoundUp (int32 ((req.1 + req.2) * totalSize)) 256 - start
  (start, size)

def offsetToReq (offset : Int × Int) (totalSize : Int) : Int × Int :=
  let start := (int32 (offset.1 * 256)).tdiv totalSize
  let size := (int32 (int32 (offset.1 + offset.2) * 256)).tdiv totalSize - start
  (start, size)

inductive MetadataError where
  | metadataTooLarge | invalidMetadataRequest | invalidMetadataSize | invalidMetadataOffset | invalidMetadataMessage
  deriving DecidableEq

/-- What a call does beside changing the plugins. `capacity` is the size of the buffer that is read or written. -/
inductive Effect where
  | disconnect (error : MetadataError)
  | setProgressPpm (ppm : Int)
  /-- Bytes are copied to `&m_metadata[offset]`. -/
  | copy (offset size : Int) (capacity : Nat)
  /-- `set_metadata(&m_metadata[0], size)`. -/
  | setMetadata (size : Int) (capacity : Nat)
  | sendRequest (start size : Int)
  /-- A data packet with `size` bytes from `offset` on. -/
  | sendData (totalSize offset size : Int) (capacity : Nat)
  | sendDontHave
  deriving DecidableEq

structure Plugin where
  /-- `m_torrent.valid_metadata()`. -/
  validMetadata : Bool
  /-- `m_torrent.torrent_file().metadata()`. -/
  torrentMetadata : List UInt8
  metadata : Option (List UInt8)
  metadataProgress : Int
  metadataSize : Int
  haveMetadata : List Bool
  requestedMetadata : List Int

structure PeerPlugin where
  waitingMetadataRequest : Bool
  messageIndex : Int
  metadataProgress : Int
  lastMetadataRequest : Int × Int

structure Env where
  /-- `settings().max_metadata_size`. -/
  maxMetadataSize : Int
  /-- Whether the torrent takes the metadata. -/
  takes : List UInt8 → Bool

def Plugin.new (validMetadata : Bool) (torrentMetadata : List UInt8) : Plugin :=
  ⟨validMetadata, torrentMetadata, none, 0, 0, [], List.replicate 256 0⟩

def PeerPlugin.new : PeerPlugin := ⟨false, 0, 0, (0, 0)⟩

namespace Plugin

variable (tp : Plugin)

/-- `metadata()`: the metadata are taken from the torrent at the first call. -/
def loadMetadata : Plugin :=
  match tp.metadata with
  | some _ => tp
  | none => { tp with metadata := some tp.torrentMetadata, metadataSize := int32 tp.torrentMetadata.length }

def capacity : Nat := (tp.metadata.getD []).length

def overwrite (buf : List UInt8) (offset : Int) (data : List UInt8) : List UInt8 :=
  buf.mapIdx fun i b => if offset ≤ i then data.getD (i - offset).toNat b else b

/-- `std::fill` of the elements from `first` up to `last`. -/
def fill (have_ : List Bool) (first last : Int) (value : Bool) : List Bool :=
  have_.mapIdx fun i b => if first ≤ i ∧ (i : Int) < last then value else b

/-- The buffer of `received_metadata`: a new one if there is none or it is taken for too small. -/
def allocate (totalSize : Int) : Plugin :=
  if tp.metadata.isNone ∨ tp.metadataSize < totalSize then
    { tp with metadata := some (List.replicate totalSize.toNat 0), metadataSize := totalSize }
  else tp

/-- The part of `received_metadata` that copies the bytes and notes which parts are there. -/
def store (buf : List UInt8) (offset : Int) (req : Int × Int) : Plugin :=
  let have_ := if tp.haveMetadata.isEmpty then List.replicate 256 false else tp.haveMetadata
  { tp with
    metadata := tp.metadata.map fun b => overwrite b offset buf
    haveMetadata := fill have_ req.1 (req.1 + req.2) true }

/-- The end of `received_metadata`: all parts are there. -/
def complete (env : Env) (tp : Plugin) (req : Int × Int) : Plugin :=
  let bytes := (tp.metadata.getD []).take tp.metadataSize.toNat
  if env.takes bytes then
    { tp with validMetadata := true, torrentMetadata := bytes, haveMetadata := [], requestedMetadata := [] }
  else
    { tp with haveMetadata := fill tp.haveMetadata 0 (req.1 + req.2) false, metadataProgress := 0, metadataSize := 0 }

/-- `received_metadata(buf, size, offset, total_size)`, with `size` bytes in `buf`. -/
def receivedMetadata (env : Env) (tp : Plugin) (buf : List UInt8) (offset totalSize : Int) : Plugin × List Effect :=
  if tp.validMetadata then (tp, [])
  else
    let req := offsetToReq (offset, buf.length) totalSize
    let tp := (tp.allocate totalSize).store buf offset req
    let copied := Effect.copy offset buf.length tp.capacity
    if tp.haveMetadata.count true ≠ 256 then (tp, [copied])
    else (complete env tp req, [copied, .setMetadata tp.metadataSize tp.capacity])

def progress (totalSize received : Int) : Plugin × List Effect :=
  let tp := { tp with metadataProgress := int32 (tp.metadataProgress + received), metadataSize := totalSize }
  (tp, [.setProgressPpm ((tp.metadataProgress * 1000000).tdiv tp.metadataSize)])

def cancelMetadataRequest (req : Int × Int) : Plugin :=
  { tp with
    requestedMetadata := tp.requestedMetadata.mapIdx fun i n =>
      if req.1 ≤ i ∧ (i : Int) < req.1 + req.2 ∧ 0 < n then n - 1 else n }

def requestWeight (i : Nat) : Int :=
  let parts := (tp.requestedMetadata.drop i).take 64
  parts.foldl min (parts.headD 0) + parts.sum

/-- `metadata_request()`: a quarter of the parts, those that have been requested the least. -/
def metadataRequest : Plugin × (Int × Int) :=
  let best := (List.range 193).foldl (fun (best : Nat × Int) i =>
    if tp.requestWeight i < best.2 then (i, tp.requestWeight i) else best) (0, 2 ^ 31 - 1)
  ({ tp with
      requestedMetadata := tp.requestedMetadata.mapIdx fun i n => if best.1 ≤ i ∧ i < best.1 + 64 then n + 1 else n },
    (best.1, 64))

end Plugin

/-! ## `metadata_peer_plugin` -/

/-- `read_int32`: the first four bytes, the highest first. -/
def readInt32 (b : List UInt8) : Int := int32 ((b.take 4).foldl (fun n x => n * 256 + x.toNat) 0 : Nat)

def writeMetadata (tp : Plugin) (p : PeerPlugin) (req : Int × Int) : Plugin × List Effect :=
  if p.messageIndex = 0 then (tp, [])
  else if tp.validMetadata then
    let tp := tp.loadMetadata
    let offset := reqToOffset req tp.metadataSize
    (tp, [.sendData tp.metadataSize offset.1 offset.2 tp.capacity])
  else (tp, [.sendDontHave])

def dataError (env : Env) (totalSize offset dataSize : Int) : Option MetadataError :=
  if totalSize > env.maxMetadataSize then some .metadataTooLarge
  else if totalSize ≤ 0 then some .invalidMetadataSize
  else if offset > totalSize ∨ offset < 0 then some .invalidMetadataOffset
  else if int32 (offset + dataSize) > totalSize then some .invalidMetadataMessage
  else none

/-- A data message that has passed the checks, with what has been received of its data. -/
def acceptData (env : Env) (tp : Plugin) (p : PeerPlugin) (totalSize offset dataSize : Int) (data : List UInt8) :
    Plugin × PeerPlugin × List Effect :=
  let (tp, effects) := tp.progress totalSize (data.length - p.metadataProgress)
  if data.length < dataSize then (tp, { p with metadataProgress := data.length }, effects)
  else
    let (tp, effects') := tp.receivedMetadata env (data.take dataSize.toNat) offset totalSize
    (tp, { p with waitingMetadataRequest := false, metadataProgress := 0 }, effects ++ effects')

/-- The data message of `on_extended`; `body` is what has been received behind the type. -/
def onData (env : Env) (tp : Plugin) (p : PeerPlugin) (length : Int) (body : List UInt8) :
    Plugin × PeerPlugin × List Effect :=
  if body.length < 8 then (tp, p, [])
  else
    match dataError env (readInt32 body) (readInt32 (body.drop 4)) (length - 9) with
    | some error => (tp, p, [.disconnect error])
    | none => acceptData env tp p (readInt32 body) (readInt32 (body.drop 4)) (length - 9) (body.drop 8)

/-- The request message of `on_extended`; `body` is what has been received behind the type. -/
def onRequest (tp : Plugin) (p : PeerPlugin) (length : Int) (body : List UInt8) : Plugin × List Effect :=
  match body with
  | start :: size :: _ =>
    if length ≠ 3 then (tp, [.disconnect .invalidMetadataRequest]) else writeMetadata tp p (start.toNat, size.toNat + 1)
  | _ => (tp, [])

def onExtended (env : Env) (tp : Plugin) (p : PeerPlugin) (length : Int) (msg : Nat) (body : List UInt8) :
    Plugin × PeerPlugin × List Effect :=
  if msg ≠ 14 ∨ p.messageIndex = 0 then (tp, p, [])
  else if length > 500 * 1024 then (tp, p, [.disconnect .metadataTooLarge])
  else
    match body with
    | [] => (tp, p, [])
    | type :: body =>
      if type = 0 then
        let (tp, effects) := onRequest tp p length body
        (tp, p, effects)
      else if type = 1 then onData env tp p length body
      else if type = 2 then
        let tp := if p.waitingMetadataRequest then tp.cancelMetadataRequest p.lastMetadataRequest else tp
        (tp, { p with waitingMetadataRequest := false }, [])
      else (tp, p, [.disconnect .invalidMetadataMessage])

/-- `tick()`, given whether the peer may have metadata. -/
def tick (tp : Plugin) (p : PeerPlugin) (hasMetadata : Bool) : Plugin × PeerPlugin × List Effect :=
  if !tp.validMetadata && p.messageIndex ≠ 0 && !p.waitingMetadataRequest && hasMetadata then
    let (tp, req) := tp.metadataRequest
    (tp, { p with lastMetadataRequest := req, waitingMetadataRequest := true }, [.sendRequest req.1 req.2])
  else (tp, p, [])

/-! ## Runs -/

structure State where
  plugin : Plugin
  peers : Nat → PeerPlugin

inductive Event where
  /-- The extension handshake of a peer, with its index for LT_metadata, 0 if there is none. -/
  | handshake (peer : Nat) (index : Int)
  /-- A part of an extended message of `length` bytes has been received. -/
  | extended (peer : Nat) (length : Nat) (msg : Nat) (body : List UInt8)
  | tick (peer : Nat) (hasMetadata : Bool)
  /-- `on_files_checked` or `on_piece_pass` of a seed. -/
  | seeding
  /-- The torrent has got its metadata in another way. -/
  | otherMetadata (bytes : List UInt8)

def State.update (s : State) (peer : Nat) (r : Plugin × PeerPlugin × List Effect) : State × List Effect :=
  (⟨r.1, Function.update s.peers peer r.2.1⟩, r.2.2)

def call (env : Env) (s : State) : Event → State × List Effect
  | .handshake peer index =>
    ({ s with peers := Function.update s.peers peer { s.peers peer with messageIndex := index } }, [])
  | .extended peer length msg body => s.update peer (onExtended env s.plugin (s.peers peer) length msg body)
  | .tick peer hasMetadata => s.update peer (Metadata.tick s.plugin (s.peers peer) hasMetadata)
  | .seeding => ({ s with plugin := if s.plugin.validMetadata then s.plugin.loadMetadata else s.plugin }, [])
  | .otherMetadata bytes =>
    ({ s with plugin := if s.plugin.validMetadata then s.plugin else
      { s.plugin with validMetadata := true, torrentMetadata := bytes } }, [])

def step (env : Env) (s : State) (event : Event) : State := (call env s event).1

def State.new (validMetadata : Bool) (torrentMetadata : List UInt8) : State :=
  ⟨.new validMetadata torrentMetadata, fun _ => .new⟩

end Libtorrent.Metadata
