import Libtorrent.Lib.Wrap
import Libtorrent.Utp.PacketBuffer

/-!
# Receiving on a uTP socket

`consume_incoming_data` puts ST_DATA packets in order, `incoming` copies their payload into the buffers of the user or
keeps it for a later read, and `read_some` moves what has been kept. The memory of the user is the log `handed` of the
bytes that were copied there. Byte counts are `int32_t`; the time is a number, and an error never occurs.
-/

namespace Libtorrent.Utp

/-- `packet`, without what only sent packets use. -/
structure Packet where
  buf : List UInt8
  size : Nat
  headerSize : Nat
  deriving DecidableEq, Repr

/-- The bytes that have not been consumed yet. -/
def Packet.rest (p : Packet) : List UInt8 := (p.buf.take p.size).drop p.headerSize

/-- A packet as it is allocated for a payload; `size` is a `uint16_t`. -/
def Packet.ofPayload (payload : List UInt8) : Packet := ⟨payload, payload.length % 2 ^ 16, 0⟩

inductive PacketType where
  | data | fin | state | reset | syn
  deriving DecidableEq, Repr

/-- The part of `utp_socket_impl` that receives. -/
structure Socket where
  ackNr : Nat
  eof : Bool
  eofSeqNr : Nat
  inbuf : PacketBuffer Packet
  bufferedIncomingBytes : Int
  /-- The lengths of the buffers in `m_read_buffer`. -/
  readBuffer : List Nat
  readBufferSize : Int
  receiveBuffer : List Packet
  receiveBufferSize : Int
  read : Int
  readHandler : Bool
  readTimeout : Nat
  /-- The bytes copied into buffers of the user so far. -/
  handed : List UInt8

namespace Socket

def new (ackNr : Nat) (eof : Bool) (eofSeqNr : Nat) : Socket :=
  ⟨ackNr, eof, eofSeqNr, PacketBuffer.new, 0, [], 0, [], 0, 0, false, 0, []⟩

variable (s : Socket)

def maybeTriggerReceiveCallback (now : Nat) : Socket :=
  if s.read = 0 ∨ s.readHandler = false then s
  else if s.read > s.readBufferSize.tdiv 2 ∨ now ≥ s.readTimeout then
    { s with readHandler := false, read := 0, readBufferSize := 0, readBuffer := [] }
  else s

/-- The end of `incoming`: the payload is kept until the client issues another read. -/
def keep (buf : List UInt8) (p : Option Packet) (now : Nat) : Socket :=
  let p := p.getD (.ofPayload buf)
  { s with
    readTimeout := if s.receiveBufferSize = 0 then now + 100 else s.readTimeout
    receiveBuffer := s.receiveBuffer ++ [p]
    receiveBufferSize := int32 (s.receiveBufferSize + (p.size - p.headerSize : Nat)) }

/-- The bytes that `incoming` copies from; a packet is its own cursor. -/
def source (buf : List UInt8) : Option Packet → List UInt8
  | some p => p.buf.drop p.headerSize
  | none => buf

/-- The loop of `incoming` over the buffers of the user. Unless all of the payload has been copied, the first buffer is
full and goes. -/
def incomingLoop (now : Nat) : List Nat → Socket → List UInt8 → Nat → Option Packet → Socket
  | [], s, buf, _, p => { s with readBuffer := [] }.keep buf p now
  | len :: targets, s, buf, size, p =>
    let buf := source buf p
    let toCopy := min size len
    let s := { s with
      handed := s.handed ++ buf.take toCopy
      readTimeout := if s.read = 0 then now + 100 else s.readTimeout
      read := int32 (s.read + toCopy)
      readBufferSize := int32 (s.readBufferSize - toCopy) }
    let p := p.map fun p => { p with headerSize := p.headerSize + toCopy }
    if size - toCopy = 0 then
      { s with readBuffer := if len - toCopy = 0 then targets else (len - toCopy) ::
        targets }.maybeTriggerReceiveCallback
        now
    else incomingLoop now targets s (buf.drop toCopy) (size - toCopy) p

def incoming (buf : List UInt8) (size : Nat) (p : Option Packet) (now : Nat) : Socket :=
  incomingLoop now s.readBuffer s buf size p

/-- The loop of `consume_incoming_data` over the packets that follow in the reorder buffer; it takes a packet out in
every round. -/
def drain (now : Nat) : (fuel : Nat) → Socket → Socket
  | 0, s => s
  | fuel + 1, s =>
    let nextAckNr := (s.ackNr + 1) &&& 0xffff
    let (inbuf, p) := s.inbuf.remove nextAckNr
    let s := { s with inbuf := inbuf }
    match p with
    | none => s
    | some p =>
      let s := { s with
        bufferedIncomingBytes := int32 (s.bufferedIncomingBytes - (p.size - p.headerSize : Nat)) }
      let s := s.incoming [] (p.size - p.headerSize) (some p) now
      drain now fuel { s with ackNr := nextAckNr }

/-- The packet is out of order, not received yet as far as the socket can tell, and goes into the reorder buffer. -/
def stores (seqNr : Nat) : Bool :=
  !(s.eof && s.ackNr == s.eofSeqNr) && seqNr != (s.ackNr + 1) &&& 0xffff && compareLessWrap s.ackNr seqNr 0xffff &&
    (s.inbuf.atIdx seqNr).isNone

def consumeIncomingData (type : PacketType) (seqNr : Nat) (payload : List UInt8) (now : Nat) :
    Socket × Bool :=
  if type ≠ .data then (s, false)
  else if s.eof ∧ s.ackNr = s.eofSeqNr then (s, true)
  else if seqNr = (s.ackNr + 1) &&& 0xffff then
    let s := s.incoming payload payload.length none now
    let s := { s with ackNr := (s.ackNr + 1) &&& 0xffff }
    let s := s.drain now (s.inbuf.size + 1)
    (s.maybeTriggerReceiveCallback now, false)
  else if !compareLessWrap s.ackNr seqNr 0xffff then (s, true)
  else if (s.inbuf.atIdx seqNr).isSome then (s, true)
  else
    let p := Packet.ofPayload payload
    ({ s with
      inbuf := (s.inbuf.insert seqNr (some p)).1
      bufferedIncomingBytes := int32 (s.bufferedIncomingBytes + p.size) }, false)

/-- The loop of `read_some` over the kept packets and the buffers of the user; every round finishes one of either. -/
def readLoop : (fuel : Nat) → List Packet → List Nat → Socket → Nat → Socket × Nat
  | 0, packets, targets, s, ret => ({ s with receiveBuffer := packets, readBuffer := targets }, ret)
  | _ + 1, [], targets, s, ret => ({ s with receiveBuffer := [], readBuffer := targets }, ret)
  | _ + 1, packets, [], s, ret => ({ s with receiveBuffer := packets, readBuffer := [] }, ret)
  | fuel + 1, p :: packets, len :: targets, s, ret =>
    let toCopy := min (p.size - p.headerSize) len
    let s := { s with
      handed := s.handed ++ (p.buf.drop p.headerSize).take toCopy
      receiveBufferSize := int32 (s.receiveBufferSize - toCopy)
      readBufferSize := int32 (s.readBufferSize - toCopy) }
    let p := { p with headerSize := p.headerSize + toCopy }
    let targets := if len - toCopy = 0 then targets else (len - toCopy) :: targets
    let packets := if p.headerSize = p.size then packets else p :: packets
    if s.receiveBufferSize = 0 then ({ s with receiveBuffer := packets, readBuffer := targets }, ret + toCopy)
    else readLoop fuel packets targets s (ret + toCopy)

/-- `utp_stream::read_some(clear_buffers)`, with the number of bytes copied. -/
def readSome (clearBuffers : Bool) : Socket × Nat :=
  let (s, ret) := if s.receiveBufferSize = 0 then (s, 0)
    else readLoop (s.receiveBuffer.length + s.readBuffer.length) s.receiveBuffer s.readBuffer s 0
  (if clearBuffers then { s with readBuffer := [], readBufferSize := 0 } else s, ret)

def addReadBuffers (buffers : List Nat) : Socket :=
  { s with
    readBuffer := s.readBuffer ++ buffers
    readBufferSize := buffers.foldl (fun n len => int32 (n + len)) s.readBufferSize }

def asyncReadSome (buffers : List Nat) (now : Nat) : Socket :=
  if s.readHandler then s
  else
    let s := { s.addReadBuffers buffers with readHandler := true }
    let (s, ret) := s.readSome false
    { s with read := int32 (s.read + ret) }.maybeTriggerReceiveCallback now

def readSomeNow (buffers : List Nat) : Socket :=
  if s.receiveBufferSize = 0 then s else ((s.addReadBuffers buffers).readSome true).1

end Socket

end Libtorrent.Utp
