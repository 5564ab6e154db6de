import Libtorrent.Lib.Serial
import Libtorrent.Utp.Receive

/-!
# The sending side of `utp_socket_impl`

What the socket has sent and not yet seen acknowledged: `m_outbuf`, `m_bytes_in_flight` and the sequence numbers. A
packet is found through `at` and changed through the pointer (`PacketBuffer.through`). Left out are the times, the
delays and what `do_ledbat` makes of them (the new window is an event), the receiving side (the span of `m_inbuf` is an
argument), and the flags that only `do_ledbat` reads. After an error the socket waits in `errorWait`; that
`test_socket_state` can go on to the deleted state is left out, since both are treated alike.
-/

namespace Libtorrent.Utp

open Serial

/-- A sent `packet`, with the type and the sequence number of its header. -/
structure OutPacket where
  size : Nat
  headerSize : Nat
  numTransmissions : Nat
  needResend : Bool
  mtuProbe : Bool
  type : PacketType
  seqNr : Nat
  payload : List UInt8
  deriving DecidableEq

def OutPacket.bytes (p : OutPacket) : Int := p.size - p.headerSize

inductive SocketState where
  | none | synSent | connected | finSent | errorWait
  deriving DecidableEq

inductive SendResult where
  | ok | messageSize | failed
  deriving DecidableEq

structure SocketManager where
  numResends : Nat
  synResends : Nat
  finResends : Nat
  lossMultiplier : Int
  allowDynamicSockBuf : Bool
  /-- The result of a call of `send_packet`. -/
  sendPacket : Nat → SendResult

/-- The MTU of the link and what is left for uTP, as `mtu_for_dest` clamps and computes them. -/
structure LinkMtu where
  linkMtu : Nat
  overhead : Nat
  linkMtu_ge : 576 ≤ linkMtu
  linkMtu_le : linkMtu ≤ 0xffff
  overhead_le : overhead ≤ 70

/-- A selective ack. The length field of an extension header is one byte. -/
structure SackMask where
  bytes : List UInt8
  length_lt : bytes.length < 256

/-- The members of `utp_socket_impl` for sending. `sent` counts the calls of `send_packet`. -/
structure Sender where
  state : SocketState
  outbuf : PacketBuffer OutPacket
  seqNr : Nat
  ackedSeqNr : Nat
  lossSeqNr : Nat
  fastResendSeqNr : Nat
  bytesInFlight : Int
  cwnd : Int
  advWnd : Nat
  writeBuffer : List (List UInt8)
  writeBufferSize : Int
  written : Int
  mtu : Nat
  mtuFloor : Nat
  mtuCeiling : Nat
  mtuSeq : Nat
  duplicateAcks : Nat
  numTimeouts : Nat
  nagle : Bool
  sent : Nat

/-- Writing through the pointer that `at(idx)` has returned. -/
def PacketBuffer.through {V : Type} (s : PacketBuffer V) (idx : Nat) (v : V) : PacketBuffer V :=
  { s with storage := s.storage.set (idx &&& (s.capacity - 1)) (some v) }

namespace Sender

variable (sm : SocketManager)

def new (link : LinkMtu) (nagle : Bool) : Sender :=
  let linkMtu := if sm.allowDynamicSockBuf then link.linkMtu else min link.linkMtu 1500
  let utpMtu := linkMtu - link.overhead
  let mtu := min (1500 - link.overhead) utpMtu
  { state := .none, outbuf := .new, seqNr := 0, ackedSeqNr := 0, lossSeqNr := 0, fastResendSeqNr := 0
    bytesInFlight := 0, cwnd := 1500 * 65536, advWnd := 1500, writeBuffer := [], writeBufferSize := 0, written := 0
    mtu, mtuFloor := min 548 utpMtu, mtuCeiling := utpMtu, mtuSeq := 0, duplicateAcks := 0, numTimeouts := 0, nagle
    sent := 0 }

variable (s : Sender)

def fail : Sender := { s with state := .errorWait }

/-- The sequence number behind the last acknowledged one. -/
def nextAck : Nat := (s.ackedSeqNr + 1) &&& 0xffff

def updateMtuLimits : Sender := { s with mtu := (s.mtuFloor + s.mtuCeiling) / 2, mtuSeq := 0 }

/-! ## Acknowledged packets -/

/-- The loop of `maybe_inc_acked_seq_nr`, which ends after `fuel` rounds at the latest. -/
def incLoop : (fuel : Nat) → Sender → Sender
  | 0, s => s
  | fuel + 1, s =>
    if s.nextAck ≠ s.seqNr ∧ (s.outbuf.atIdx s.nextAck).isNone then
      incLoop fuel
        { s with
          fastResendSeqNr :=
            if s.fastResendSeqNr = s.ackedSeqNr then (s.fastResendSeqNr + 1) &&& 0xffff else s.fastResendSeqNr
          ackedSeqNr := s.nextAck }
    else s

def maybeIncAckedSeqNr : Sender :=
  let s' := incLoop 0xffff s
  if s'.ackedSeqNr = s.ackedSeqNr then s'
  else
    { s' with
      lossSeqNr := if compareLessWrap s'.lossSeqNr s'.ackedSeqNr 0xffff then s'.ackedSeqNr else s'.lossSeqNr
      duplicateAcks := 0 }

/-- The bytes of an acknowledged packet are not in flight any more. -/
def landed (p : OutPacket) : Sender :=
  if p.needResend then s else { s with bytesInFlight := s.bytesInFlight - p.bytes }

def ackPacket (p : OutPacket) (seqNr : Nat) : Sender :=
  let s := s.landed p
  let s := if seqNr = s.mtuSeq ∧ s.mtuSeq ≠ 0 then
    ({ s with mtuFloor := max s.mtuFloor p.size }).updateMtuLimits else s
  s.maybeIncAckedSeqNr

/-- The fast resend number moves past a number that has been acknowledged or resent. -/
def passFastResend (seqNr : Nat) : Sender :=
  if s.fastResendSeqNr = seqNr then { s with fastResendSeqNr := (s.fastResendSeqNr + 1) &&& 0xffff } else s

def removePacket (seqNr : Nat) : Sender × Option OutPacket :=
  let (outbuf, p) := s.outbuf.remove seqNr
  ({ s with outbuf }, p)

/-! ## Sending again -/

def window : Int := int32 (s.cwnd / 65536)

/-- The part of `resend_packet` that draws a conclusion from a lost probe. -/
def probeLost (p : OutPacket) (fastResend : Bool) : Sender :=
  if fastResend ∧ s.nextAck = s.mtuSeq ∧ s.mtuSeq ≠ 0 then ({ s with mtuCeiling := p.size - 1 }).updateMtuLimits else s

def retransmit (idx : Nat) (p : OutPacket) : Sender :=
  { s with
    bytesInFlight := if p.needResend then s.bytesInFlight + p.bytes else s.bytesInFlight
    outbuf := s.outbuf.through idx { p with numTransmissions := (p.numTransmissions + 1) % 64, needResend := false } }

/-- A call of `send_packet` that the socket does not survive if it fails. -/
def transmit : Sender × Bool :=
  let s' := { s with sent := s.sent + 1 }
  if sm.sendPacket s.sent = .ok then (s', true) else (s'.fail, false)

def resendPacket (idx : Nat) (p : OutPacket) (fastResend : Bool) : Sender × Bool :=
  let s := s.probeLost p fastResend
  let windowSizeLeft := min s.window (int32 s.advWnd) - s.bytesInFlight
  if !fastResend && windowSizeLeft < p.bytes then (s, false) else (s.retransmit idx p).transmit sm

def experiencedLoss (seqNr : Nat) : Sender :=
  if compareLessWrap seqNr s.lossSeqNr 0xffff then s
  else { s with cwnd := max ((s.cwnd * sm.lossMultiplier).tdiv 100) (s.mtu * 65536), lossSeqNr := s.seqNr }

/-- The loop of `send_pkt` over the packets that have to be sent again: the socket, and whether all were sent. -/
def resendLoop : List Nat → Sender → Sender × Bool
  | [], s => (s, true)
  | i :: is, s =>
    match s.outbuf.atIdx i with
    | none => resendLoop is s
    | some p =>
      if !p.needResend then resendLoop is s
      else
        match s.resendPacket sm i p false with
        | (s, false) => (s, false)
        | (s, true) => resendLoop is (s.passFastResend i)

/-! ## Sending -/

/-- `write_payload(ptr, size)`: what is copied and what is left. -/
def takePayload : (size : Nat) → List (List UInt8) → List UInt8 × List (List UInt8)
  | _, [] => ([], [])
  | size, buf :: bufs =>
    if size = 0 then ([], buf :: bufs)
    else if buf.length ≤ size then
      let (copied, rest) := takePayload (size - buf.length) bufs
      (buf ++ copied, rest)
    else (buf.take size, buf.drop size :: bufs)

def writePayload (size : Int) : Sender × List UInt8 :=
  let (copied, rest) := takePayload size.toNat s.writeBuffer
  ({ s with writeBuffer := rest, writeBufferSize := int32 (s.writeBufferSize - copied.length)
            written := int32 (s.written + copied.length) }, copied)

/-- The packet is kept until it is acknowledged, under the next sequence number. -/
def keep (p : OutPacket) : Sender :=
  let (outbuf, old) := s.outbuf.insert s.seqNr (some p)
  let s := match old with
    | none => s
    | some old => s.landed old
  { s with outbuf, seqNr := (s.seqNr + 1) &&& 0xffff }

def headerOnly (type : PacketType) : OutPacket :=
  { size := 20, headerSize := 20, numTransmissions := 1, needResend := false, mtuProbe := false, type, seqNr := s.seqNr
    payload := [] }

def sendSyn (random : UInt16) : Sender :=
  let seqNr := random.toNat
  let s := { s with seqNr, ackedSeqNr := sub32 seqNr 1 &&& 0xffff, lossSeqNr := sub32 seqNr 1 &&& 0xffff,
                    fastResendSeqNr := seqNr }
  match s.transmit sm with
  | (s, false) => s
  | (s, true) =>
    { s with outbuf := (s.outbuf.insert s.seqNr (some (s.headerOnly .syn))).1, seqNr := (s.seqNr + 1) &&& 0xffff
             state := .synSent }

/-- The part of `incoming_packet` that accepts a connection, in front of `send_pkt`. -/
def acceptSyn (random : UInt16) : Sender :=
  let seqNr := random.toNat
  { s with seqNr, ackedSeqNr := sub32 seqNr 1 &&& 0xffff, lossSeqNr := sub32 seqNr 1 &&& 0xffff
           fastResendSeqNr := seqNr, state := .connected }

def sendFin : Sender :=
  match s.transmit sm with
  | (s, false) => s
  | (s, true) =>
    let s := s.keep (s.headerOnly .fin)
    { s with fastResendSeqNr := s.seqNr, state := .finSent }

/-- The number of bytes of the selective ack in a packet, for the span of `m_inbuf`; 0 if that is empty. -/
def sackSize (span : Nat) : Nat := min ((span + 7) / 8) 32

def headerSize (span : Nat) : Nat := 20 + if sackSize span = 0 then 0 else sackSize span + 2

/-- The payload that fits in a packet and in the windows, and whether there is more to send. -/
def payloadSize (span : Nat) : Int × Bool :=
  let room : Int := s.mtu - headerSize span
  let size := min room s.writeBufferSize
  if s.bytesInFlight + size > min s.window (int32 (s.advWnd - s.bytesInFlight)) then (0, false)
  else (size, room < s.writeBufferSize)

/-- The packet is a probe: it is larger than any that is known to get through. -/
def useAsProbe (packetSize : Int) : Bool := s.mtuSeq = 0 ∧ packetSize > s.mtuFloor ∧ s.seqNr ≠ 0

def startProbe (packetSize : Int) : Sender :=
  if s.useAsProbe packetSize then { s with mtuSeq := s.seqNr } else s

/-- The probe was too large to be sent. -/
def probeRefused (size : Nat) : Sender :=
  ({ s with mtuCeiling := size - 1, mtuFloor := min s.mtuFloor (size - 1) }).updateMtuLimits

/-- The end of `send_pkt`: a packet with a payload is kept. -/
def enqueue (p : OutPacket) (payloadSize : Int) : Sender :=
  if payloadSize = 0 then s else { s.keep p with bytesInFlight := (s.keep p).bytesInFlight + payloadSize }

/-- The part of `send_pkt` that makes a packet and sends it; the payload is not empty, or something has to be
acknowledged. -/
def emit (span : Nat) (payloadSize : Int) : Sender × Bool :=
  let packetSize := headerSize span + payloadSize
  let probe := s.useAsProbe packetSize
  let (s, payload) := (s.startProbe packetSize).writePayload payloadSize
  let p : OutPacket :=
    { size := packetSize.toNat % 65536, headerSize := headerSize span, numTransmissions := 1, needResend := false
      mtuProbe := probe, type := if payloadSize = 0 then .state else .data, seqNr := s.seqNr, payload }
  let result := sm.sendPacket s.sent
  let s := { s with sent := s.sent + 1 }
  if result = .ok then (s.enqueue p payloadSize, true)
  else if result = .messageSize ∧ probe then ((s.probeRefused p.size).enqueue p payloadSize, true)
  else (s.fail, false)

def sendPkt (ack : Bool) (span : Nat) : Sender × Bool :=
  let (s, resent) := resendLoop sm (numbers s.nextAck s.seqNr) s
  if !resent && (!ack || s.state = .errorWait) then (s, false)
  else
    let (size, more) := s.payloadSize span
    if size = 0 && !ack then (s, false)
    else if (sub32 s.seqNr s.ackedSeqNr &&& 0xffff) > 1 && size < (s.mtu : Int) - headerSize span && !ack
      && s.nagle then
      (s, false)
    else
      let (s, ok) := s.emit sm span size
      (s, ok && more)

/-! ## `parse_sack` -/

/-- The bits of a selective ack, the lowest of a byte first. -/
def sackBits (mask : List UInt8) : List Bool := mask.flatMap fun b => (List.range 8).map fun i => b.toNat.testBit i

/-- The variables of `parse_sack` beside the socket. -/
structure Sack where
  sender : Sender
  dups : Nat
  lastAck : Nat

def sackBit (t : Sack) (ackNr : Nat) : Sack :=
  let s := t.sender.passFastResend ackNr
  let dups := if compareLessWrap s.fastResendSeqNr ackNr 0xffff then t.dups + 1 else t.dups
  let (s, p) := s.removePacket ackNr
  let s := match p with
    | some p => s.ackPacket p ackNr
    | none => s.maybeIncAckedSeqNr
  ⟨s, dups, ackNr⟩

/-- The loop over the bits, the first of which stands for `ackNr`. -/
def sackLoop : List Bool → Nat → Sack → Sack
  | [], _, t => t
  | bit :: bits, ackNr, t =>
    let t := if bit then sackBit t ackNr else t
    if (ackNr + 1) &&& 0xffff = t.sender.seqNr then t else sackLoop bits ((ackNr + 1) &&& 0xffff) t

/-- The loop that sends packets again that others have overtaken, three at most. -/
def fastResendLoop : List Nat → (numResent : Nat) → Sender → Sender
  | [], _, s => s
  | i :: is, numResent, s =>
    match s.outbuf.atIdx i with
    | none => fastResendLoop is numResent { s with fastResendSeqNr := (i + 1) &&& 0xffff }
    | some p =>
      match s.resendPacket sm i p true with
      | (s, false) => s
      | (s, true) =>
        let s := { s with duplicateAcks := 0 }
        if 3 ≤ numResent + 1 then s
        else fastResendLoop is (numResent + 1) { s with fastResendSeqNr := (i + 1) &&& 0xffff }

/-- The end of `parse_sack`: enough numbers behind the fast resend number have been acknowledged. -/
def fastResend (t : Sack) : Sender :=
  let s := t.sender
  if 3 ≤ t.dups ∧ compareLessWrap s.fastResendSeqNr t.lastAck 0xffff then
    fastResendLoop sm (numbers s.fastResendSeqNr t.lastAck) 0 (s.experiencedLoss sm s.fastResendSeqNr)
  else s

def parseSack (packetAck : Nat) (mask : List UInt8) : Sender :=
  if mask = [] then s else fastResend sm (sackLoop (sackBits mask) ((packetAck + 2) &&& 0xffff) ⟨s, 0, packetAck⟩)

/-! ## `incoming_packet` -/

def ackTooHigh (type : PacketType) (ackNr : Nat) : Bool :=
  let cmpSeqNr := if s.state = .synSent ∧ type = .state then s.seqNr else sub32 s.seqNr 1 &&& 0xffff
  s.state ≠ .none && compareLessWrap cmpSeqNr ackNr 0xffff

def ackNumber (ackNr : Nat) : Sender :=
  match (s.passFastResend ackNr).removePacket ackNr with
  | (s, none) => s
  | (s, some p) => s.ackPacket p ackNr

/-- The part of `incoming_packet` for the ack number: everything up to it has been received. -/
def cumulativeAck (ackNr : Nat) : Sender :=
  if s.state ≠ .none ∧ compareLessWrap s.ackedSeqNr ackNr 0xffff then
    ((numbers s.nextAck ((ackNr + 1) &&& 0xffff)).foldl ackNumber s).maybeIncAckedSeqNr
  else s

/-- The part of `incoming_packet` in front of the extension headers. -/
def receiveAck (ackNr : UInt16) (wndSize : UInt32) : Sender :=
  let s := { s with numTimeouts := 0, advWnd := wndSize.toNat }
  let s := if ackNr.toNat = s.ackedSeqNr ∧ s.outbuf.size ≠ 0 then
    { s with duplicateAcks := (s.duplicateAcks + 1) % 256 } else s
  s.cumulativeAck ackNr.toNat

/-- The selective acks among the extension headers. -/
def receiveSacks (ackNr : UInt16) (sacks : List SackMask) : Sender :=
  sacks.foldl (fun s mask => s.parseSack sm ackNr.toNat mask.bytes) s

/-- The part of `incoming_packet` that sends a packet again after three duplicate acks. -/
def resendLost : Sender :=
  if 3 ≤ s.duplicateAcks ∧ s.nextAck = s.fastResendSeqNr then
    match s.outbuf.atIdx s.fastResendSeqNr with
    | none => { s with fastResendSeqNr := (s.fastResendSeqNr + 1) &&& 0xffff }
    | some p =>
      let s' := (s.experiencedLoss sm s.fastResendSeqNr).resendPacket sm s.fastResendSeqNr p true
      if s'.1.state = .errorWait then s'.1
      else { s'.1 with fastResendSeqNr := (s.fastResendSeqNr + 1) &&& 0xffff }
  else s

/-- `incoming_packet`, as far as it is about what has been sent. -/
def incomingPacket (type : PacketType) (ackNr : UInt16) (wndSize : UInt32) (sacks : List SackMask) :
    Sender :=
  if s.ackTooHigh type ackNr.toNat then s
  else
    let s := (s.receiveAck ackNr wndSize).receiveSacks sm ackNr sacks
    if s.state = .errorWait then s
    else
      let s := s.resendLost sm
      if s.state = .synSent ∧ ackNr.toNat = sub32 s.seqNr 1 &&& 0xffff then { s with state := .connected } else s

/-! ## `tick` -/

/-- A packet that is given up for lost. -/
def markLost (i : Nat) : Sender :=
  match s.outbuf.atIdx i with
  | none => s
  | some p =>
    if p.needResend then s
    else { s with outbuf := s.outbuf.through i { p with needResend := true }, bytesInFlight :=
      s.bytesInFlight - p.bytes }

def timeoutWindow : Int :=
  if s.bytesInFlight = 0 ∧ s.cwnd / 65536 ≥ s.mtu then max ((s.cwnd * 2).tdiv 3) (s.mtu * 65536) else s.mtu * 65536

/-- The part of `tick` that finds that a probe was the only packet that was lost. -/
def probeTimedOut : Sender :=
  let s := if s.nextAck = s.mtuSeq ∧ sub32 s.seqNr 1 &&& 0xffff = s.mtuSeq ∧ s.mtuSeq ≠ 0 then
    ({ s with mtuCeiling := s.mtu - 1, mtuFloor := min s.mtuFloor (s.mtu - 1) }).updateMtuLimits else s
  { s with mtuSeq := 0 }

/-- The packet has been sent as often as the state allows. -/
def exhausted (p : OutPacket) : Bool :=
  sm.numResends ≤ p.numTransmissions || s.state = .synSent && sm.synResends ≤ p.numTransmissions ||
    s.state = .finSent && sm.finResends ≤ p.numTransmissions

/-- The part of `tick` that sends the first packet again, or a new one. -/
def restart (span : Nat) : Sender :=
  match s.outbuf.atIdx s.nextAck with
  | some p =>
    if s.exhausted sm p then s.fail
    else ((s.passFastResend s.nextAck).resendPacket sm s.nextAck p false).1
  | none =>
    if s.state = .finSent then s.fail
    else if s.state = .errorWait then s
    else (s.sendPkt sm false span).1

/-- The part of `tick` that gives all packets up for lost. -/
def loseAll : Sender :=
  let s := s.probeTimedOut
  let s := { s with lossSeqNr := s.seqNr }
  (numbers s.ackedSeqNr ((s.seqNr + 1) &&& 0xffff)).foldl markLost s

/-- The part of `tick` for a timeout. -/
def timeout (span : Nat) : Sender :=
  let s' := { s with
    cwnd := s.timeoutWindow
    numTimeouts := if s.outbuf.size ≠ 0 then (s.numTimeouts + 1) % 256 else s.numTimeouts }
  if s.state = .errorWait then s
  else if sm.numResends < s'.numTimeouts then s'.fail
  else restart sm s'.loseAll span

/-! ## Runs -/

/-- How a connection is opened, with the first sequence number. -/
inductive Opening where
  | connect (random : UInt16)
  | accept (random : UInt16)

inductive SendEvent where
  /-- `add_write_buffer`. -/
  | write (buf : List UInt8)
  /-- The write handler is called and the write buffer is reset. -/
  | writeDone
  | sendPkt (ack : Bool) (span : Nat)
  | resendPacket (idx : Nat) (fastResend : Bool)
  | sendFin
  | incomingPacket (type : PacketType) (ackNr : UInt16) (wndSize : UInt32) (sacks : List SackMask)
  | timeout (span : Nat)
  /-- `do_ledbat` sets the window. -/
  | ledbat (cwnd : Int)

/-- The socket of a connection that has just been opened. -/
def opened (link : LinkMtu) (nagle : Bool) : Opening → Sender
  | .connect random => (new sm link nagle).sendSyn sm random
  | .accept random => (new sm link nagle).acceptSyn random

def step : SendEvent → Sender
  | .write buf =>
    { s with writeBuffer := s.writeBuffer ++ [buf], writeBufferSize := int32 (s.writeBufferSize + buf.length) }
  | .writeDone => { s with writeBuffer := [], writeBufferSize := 0, written := 0 }
  | .sendPkt ack span => (s.sendPkt sm ack span).1
  | .resendPacket idx fast =>
    match s.outbuf.atIdx idx with
    | some p => if p.needResend || fast then (s.resendPacket sm idx p fast).1 else s
    | none => s
  | .sendFin => s.sendFin sm
  | .incomingPacket type ackNr wndSize sacks => s.incomingPacket sm type ackNr wndSize sacks
  | .timeout span => s.timeout sm span
  | .ledbat cwnd => { s with cwnd }

end Sender

end Libtorrent.Utp
