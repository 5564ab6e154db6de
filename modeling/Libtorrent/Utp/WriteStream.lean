import Libtorrent.Utp.InFlight
import Libtorrent.Utp.Reassembly

/-!
# The stream that is written

What the user writes is cut into packets (`dataPacket`, the packet that `send_pkt` makes). A callback reports how much
of what was offered since the callback before has been taken, and drops the rest of the write buffer: the packets carry
what the callbacks have reported, and the beginning of what is on offer (`Conserved`). The other end hands it to its
user in order, whatever the network does (`sent_arrives`).
-/

namespace Libtorrent.Utp.Sender

open Run Serial List

variable (sm : SocketManager) {s t : Sender} {span : Nat} {size : Int}

def packet (s : Sender) (span : Nat) (size : Int) : OutPacket :=
  { size := (headerSize span + size).toNat % 65536, headerSize := headerSize span, numTransmissions := 1
    needResend := false, mtuProbe := s.useAsProbe (headerSize span + size), type := .data, seqNr := s.seqNr
    payload := (takePayload size.toNat s.writeBuffer).1 }

/-- The `ST_DATA` packet of `send_pkt(ack)`, if it makes one. -/
def dataPacket (s : Sender) (ack : Bool) (span : Nat) : Option OutPacket :=
  let (s, resent) := resendLoop sm (numbers s.nextAck s.seqNr) s
  if !resent && (!ack || s.state = .errorWait) then none
  else
    let (size, _) := s.payloadSize span
    if size = 0 then none
    else if (sub32 s.seqNr s.ackedSeqNr &&& 0xffff) > 1 && size < (s.mtu : Int) - headerSize span && !ack
      && s.nagle then
      none
    else some (s.packet span size)

def stream (s : Sender) : List (List UInt8) × Int × Int × Nat × Nat :=
  (s.writeBuffer, s.writeBufferSize, s.written, s.mtu, s.seqNr)

theorem stream_resendLoop : ∀ (l : List Nat) (s : Sender), (resendLoop sm l s).1.stream = s.stream
  | [], _ => rfl
  | i :: is, s => by
    rw [resendLoop]
    split
    · exact stream_resendLoop is s
    rename_i p _
    split
    · exact stream_resendLoop is s
    have hresend : (s.resendPacket sm i p false).1.stream = s.stream := by
      unfold resendPacket probeLost transmit
      simp only [Bool.false_eq_true, false_and, if_false]
      repeat' split
      all_goals rfl
    split
    · simpa [*] using hresend
    rename_i u hu
    have hpass : (u.passFastResend i).stream = u.stream := by
      unfold passFastResend
      split <;> rfl
    rw [stream_resendLoop is, hpass, ← hresend, hu]

theorem takePayload_eq : ∀ (n : Nat) (bufs : List (List UInt8)),
    (takePayload n bufs).1 = bufs.flatten.take n ∧ (takePayload n bufs).2.flatten = bufs.flatten.drop n
  | _, [] => by simp [takePayload]
  | n, buf :: bufs => by
    rw [takePayload]
    obtain ⟨ih1, ih2⟩ := takePayload_eq (n - buf.length) bufs
    split
    · simp [*]
    split
    · simp [*, take_append, drop_append, take_of_length_le, drop_eq_nil_of_le]
    · rename_i hlt
      simp [take_append_of_le_length, drop_append_of_le_length, Nat.le_of_not_le hlt]

/-- The packet `p` has been made of the beginning of the write buffer. -/
structure Packetized (s : Sender) (p : OutPacket) (s' : Sender) : Prop where
  data : p.type = .data
  seqNr : p.seqNr = s.seqNr
  next : s'.seqNr = (s.seqNr + 1) % 65536
  mtu : s'.mtu = s.mtu
  nonempty : 1 ≤ p.payload.length
  fits : p.payload.length ≤ s.mtu - p.headerSize
  payload : p.payload = s.writeBuffer.flatten.take p.payload.length
  rest : s'.writeBuffer.flatten = s.writeBuffer.flatten.drop p.payload.length
  left : s'.writeBufferSize = s.writeBufferSize - p.payload.length
  written : s'.written = s.written + p.payload.length

/-- The bytes that the user has offered since the last callback are counted in `int32_t`. -/
structure Counted (s : Sender) : Prop where
  size : s.writeBufferSize = s.writeBuffer.flatten.length
  nonneg : 0 ≤ s.written
  lt : s.written + s.writeBufferSize < 2 ^ 31

theorem packetized_emit (hok : ∀ n, sm.sendPacket n = .ok) (hn : Counted s) (h0 : 0 < size)
    (hroom : size ≤ s.mtu - headerSize span) (hsize : size ≤ s.writeBufferSize) :
    Packetized s (s.packet span size) (s.emit sm span size).1 := by
  have hstart : (s.startProbe (headerSize span + size)).stream = s.stream := by
    unfold startProbe
    split <;> rfl
  simp only [stream, Prod.mk.injEq] at hstart
  obtain ⟨hb, hw, hwr, hm, hs⟩ := hstart
  obtain ⟨h1, h2⟩ := takePayload_eq size.toNat s.writeBuffer
  obtain ⟨hn, hw0, hlt⟩ := hn
  have hlen : (takePayload size.toNat s.writeBuffer).1.length = size.toNat := by
    rw [h1, length_take]
    omega
  have hkeep (u : Sender) (p : OutPacket) :
    (u.keep p).stream = { u with seqNr := (u.seqNr + 1) &&& 0xffff }.stream := by
    unfold keep landed
    dsimp only
    repeat' split
    all_goals rfl
  simp only [stream, Prod.mk.injEq] at hkeep
  simp only [emit, hok, if_true, enqueue, h0.ne', if_false, writePayload, hb, hw, hwr, hkeep]
  refine ⟨rfl, rfl, ?_, ?_, ?_, ?_, ?_, ?_, ?_, ?_⟩
  all_goals simp only [packet, hlen, and_ffff, hs, hm]
  · omega
  · omega
  · exact h1
  · exact h2
  · exact int32_of_range (by omega) (by omega)
  · exact int32_of_range (by omega) (by omega)

/-- **One call** of `send_pkt`: the packet is made of the beginning of the write buffer, or nothing changes there. -/
theorem sendPkt_packet (hok : ∀ n, sm.sendPacket n = .ok) (hmtu : 54 < s.mtu)
    (hn : Counted s) (ack : Bool) (span : Nat) :
    dataPacket sm s ack span = none ∧ (s.sendPkt sm ack span).1.stream = s.stream ∨
      ∃ p, dataPacket sm s ack span = some p ∧ Packetized s p (s.sendPkt sm ack span).1 := by
  have hhead := (headerSize_le span).2
  have hloop := stream_resendLoop sm (numbers s.nextAck s.seqNr) s
  unfold dataPacket sendPkt
  generalize resendLoop sm (numbers s.nextAck s.seqNr) s = r at hloop ⊢
  obtain ⟨t, resent⟩ := r
  obtain ⟨hb, hw, hwr, hm, hs⟩ : t.writeBuffer = s.writeBuffer ∧ t.writeBufferSize = s.writeBufferSize ∧
      t.written = s.written ∧ t.mtu = s.mtu ∧ t.seqNr = s.seqNr := by
    simpa only [stream, Prod.mk.injEq] using hloop
  have hc : Counted t := ⟨by rw [hb, hw]; exact hn.size, hwr ▸ hn.nonneg, hwr ▸ hw ▸ hn.lt⟩
  obtain ⟨hbytes, hwr0, hlt⟩ := hc
  have hsize : (t.payloadSize span).1 = 0 ∨
    (t.payloadSize span).1 = min (t.mtu - headerSize span : Int) t.writeBufferSize := by
    unfold payloadSize
    dsimp only
    split
    · exact .inl rfl
    · exact .inr rfl
  dsimp only
  generalize t.payloadSize span = q at hsize ⊢
  obtain ⟨size, more⟩ := q
  dsimp only at hsize ⊢
  by_cases h0 : size = 0
  · -- a packet without payload: only the acknowledgment
    refine .inl ⟨by simp [h0], ?_⟩
    have hemit : (t.emit sm span 0).1.stream = t.stream := by
      have hstart : (t.startProbe (headerSize span)).stream = t.stream := by
        unfold startProbe
        split <;> rfl
      have htake (bufs : List (List UInt8)) : takePayload 0 bufs = ([], bufs) := by
        cases bufs <;> rfl
      simp only [stream, Prod.mk.injEq] at hstart
      have hw32 := int32_of_range (x := t.writeBufferSize) (by omega) (by omega)
      have hwr32 := int32_of_range (x := t.written) (by omega) (by omega)
      simp [emit, hok, enqueue, writePayload, htake, stream, hstart, hw32, hwr32]
    subst h0
    repeat' split
    all_goals first
      | exact hloop
      | exact hemit.trans hloop
  · have hpay : 0 < size ∧ size ≤ t.mtu - headerSize span ∧ size ≤ t.writeBufferSize := by omega
    have P := packetized_emit sm hok (s := t) ⟨hbytes, hwr0, hlt⟩ hpay.1 hpay.2.1 hpay.2.2
    simp only [h0, decide_false, Bool.false_and, Bool.false_eq_true, if_false]
    split
    · exact .inl ⟨rfl, hloop⟩
    split
    · exact .inl ⟨rfl, hloop⟩
    · exact .inr ⟨_, rfl, P.data, hs ▸ P.seqNr, hs ▸ P.next, hm ▸ P.mtu, P.nonempty, hm ▸ P.fits, hb ▸ P.payload,
        hb ▸ P.rest, hw ▸ P.left, hwr ▸ P.written⟩

/-! ## Runs -/

/-- A socket and what the user knows: the bytes that callbacks have reported as taken, those on offer since then, and
everything that was ever added; beside it the `ST_DATA` packets. -/
structure Writer where
  sender : Sender
  accepted : List UInt8
  offered : List UInt8
  added : List UInt8
  packets : List OutPacket
  reported : Int

inductive WriteEvent where
  /-- `add_write_buffer`. -/
  | write (buf : List UInt8)
  /-- `maybe_trigger_send_callback` while a write is outstanding; `late` after 300 ms. -/
  | callback (late : Bool)
  | sendPkt (ack : Bool) (span : Nat)

namespace Writer

def new (s : Sender) : Writer :=
  ⟨{ s with writeBuffer := [], writeBufferSize := 0, written := 0 }, [], [], [], [], 0⟩

def step (w : Writer) : WriteEvent → Writer
  | .write buf =>
    { w with sender := w.sender.step sm (.write buf), offered := w.offered ++ buf, added := w.added ++ buf }
  | .callback late =>
    if w.sender.written = 0 then w
    else if w.sender.written > (int32 (w.sender.writeBufferSize * 2)).tdiv 3 ∨ late then
      { w with
        sender := w.sender.step sm .writeDone
        accepted := w.accepted ++ w.offered.take w.sender.written.toNat
        offered := []
        reported := w.reported + w.sender.written }
    else w
  | .sendPkt ack span =>
    { w with
      sender := w.sender.step sm (.sendPkt ack span)
      packets := w.packets ++ (dataPacket sm w.sender ack span).toList }

/-- Fewer than `2 ^ 31` bytes are offered between two callbacks. -/
def Pre (w : Writer) : WriteEvent → Prop
  | .write buf => w.offered.length + buf.length < 2 ^ 31
  | _ => True

def carried (w : Writer) : List UInt8 := w.packets.flatMap OutPacket.payload

/-- The stream of a socket that had the MTU `mtu` and the next number `first` at the beginning. -/
structure Conserved (mtu first : Nat) (w : Writer) : Prop where
  size : w.sender.writeBufferSize = w.sender.writeBuffer.flatten.length
  carried : w.carried = w.accepted ++ w.offered.take w.sender.written.toNat
  rest : w.sender.writeBuffer.flatten = w.offered.drop w.sender.written.toNat
  numbers : w.packets.map OutPacket.seqNr = (range w.packets.length).map fun i => (first + i) % 65536
  payload : ∀ p ∈ w.packets, p.type = .data ∧ 1 ≤ p.payload.length ∧ p.payload.length ≤ mtu - p.headerSize
  reported : w.reported = w.accepted.length

structure Inv (mtu first : Nat) (w : Writer) : Prop extends Conserved mtu first w where
  next : w.sender.seqNr = (first + w.packets.length) % 65536
  mtu : w.sender.mtu = mtu
  nonneg : 0 ≤ w.sender.written
  le : w.sender.written ≤ w.offered.length
  lt : w.offered.length < 2 ^ 31

/-- A packet takes the first bytes of the write buffer along. -/
theorem inv_packetized {mtu first : Nat} {w : Writer} (h : Inv mtu first w) {s' : Sender} {p : OutPacket}
    (P : Packetized w.sender p s') : Inv mtu first { w with sender := s', packets := w.packets ++ [p] } := by
  have h0 := h.nonneg
  have hle := h.le
  have hrest := congrArg length h.rest
  rw [length_drop] at hrest
  have hn : p.payload.length ≤ w.sender.writeBuffer.flatten.length := by
    rw [P.payload, length_take]
    exact min_le_right _ _
  have hwn : (w.sender.written + p.payload.length).toNat = w.sender.written.toNat + p.payload.length := by omega
  exact
    { size := by
        rw [P.left, P.rest, h.size, length_drop]
        omega
      carried := by
        rw [Writer.carried, flatMap_append, ← Writer.carried, h.carried, P.written, hwn, take_add, ← h.rest,
          ← P.payload]
        simp
      rest := by rw [P.rest, h.rest, P.written, hwn, drop_drop]
      numbers := by
        simp [h.numbers, range_succ, P.seqNr, h.next]
      payload := by
        intro q hq
        obtain hq | rfl : q ∈ w.packets ∨ q = p := by simpa using hq
        · exact h.payload q hq
        · exact ⟨P.data, P.nonempty, h.mtu ▸ P.fits⟩
      reported := h.reported
      next := by
        rw [P.next, h.next, length_append, length_singleton]
        omega
      mtu := P.mtu.trans h.mtu
      nonneg := by
        rw [P.written]
        omega
      le := by
        simp only [P.written]
        omega
      lt := h.lt }

theorem inv_step (hok : ∀ n, sm.sendPacket n = .ok) {mtu first : Nat} (hmtu : 54 < mtu) {w : Writer}
    (h : Inv mtu first w) {e : WriteEvent} (hpre : w.Pre e) : Inv mtu first (w.step sm e) := by
  have h0 := h.nonneg
  have hle := h.le
  have hlt := h.lt
  have hrest := congrArg length h.rest
  rw [length_drop] at hrest
  have hsize := h.size
  cases e with
  | write buf =>
    have hroom : w.offered.length + buf.length < 2 ^ 31 := hpre
    have hw : w.sender.written.toNat ≤ w.offered.length := by omega
    exact
      { h with
        size := by
          rw [step, Sender.step, int32_of_range (by omega) (by omega)]
          simp [h.size]
        carried := by simpa [step, Sender.step, carried, take_append_of_le_length hw] using h.carried
        rest := by simp [step, Sender.step, h.rest, drop_append_of_le_length hw]
        le := by
          simp only [step, Sender.step, length_append]
          omega
        lt := by simpa [step] using hroom }
  | callback =>
    rw [step]
    split
    · exact h
    split
    · exact
        { h with
          size := by simp [Sender.step]
          carried := by simpa [Sender.step, carried] using h.carried
          rest := by simp [Sender.step]
          reported := by
            simp only [length_append, length_take, h.reported]
            omega
          nonneg := by simp [Sender.step]
          le := by simp [Sender.step]
          lt := by simp }
    · exact h
  | sendPkt ack span =>
    obtain ⟨hnone, hs⟩ | ⟨p, hsome, P⟩ := sendPkt_packet sm hok (h.mtu ▸ hmtu) ⟨hsize, h0, by omega⟩ ack span
    · obtain ⟨hb, hw, hwr, hm, hq⟩ := by simpa only [stream, Prod.mk.injEq] using hs
      simp only [step, Sender.step, hnone, Option.toList_none, append_nil]
      exact ⟨⟨hb ▸ hw ▸ h.size, hwr ▸ h.carried, hb ▸ hwr ▸ h.rest, h.numbers, h.payload, h.reported⟩, hq ▸ h.next,
        hm ▸ h.mtu, hwr ▸ h0, hwr ▸ hle, hlt⟩
    simp only [step, Sender.step, hsome, Option.toList_some]
    exact inv_packetized h P

theorem inv_new {s : Sender} (hseq : s.seqNr < 65536) : Inv s.mtu s.seqNr (new s) :=
  ⟨⟨rfl, rfl, rfl, rfl, fun _ h => absurd h not_mem_nil, rfl⟩, (Nat.mod_eq_of_lt hseq).symm, rfl, le_rfl, le_rfl,
    Nat.two_pow_pos 31⟩

/-- One byte more than a packet holds. -/
def shortWrite : List WriteEvent := [.write (replicate 1453 0), .sendPkt false 0, .callback false]

theorem legal_shortWrite (w : Writer) (h : w.offered = []) : Legal (step sm) Pre w shortWrite := by
  refine ⟨?_, trivial, trivial, trivial⟩
  change w.offered.length + (replicate 1453 (0 : UInt8)).length < 2 ^ 31
  rw [h, length_nil, length_replicate]
  omega

/-- The payload of packet `i`, counted from one as the receiver does. -/
def payloadOf (w : Writer) (i : Nat) : List UInt8 := (w.packets.map OutPacket.payload).getD (i - 1) []

theorem payloads_payloadOf (w : Writer) (n : Nat) :
    payloads w.payloadOf n = (w.packets.take n).flatMap OutPacket.payload := by
  induction n with
  | zero => rfl
  | succ n ih =>
    rw [payloads_succ, ih, take_add_one, flatMap_append, payloadOf, Nat.add_sub_cancel]
    cases h : w.packets[n]? <;> simp [h]

/-- What the other end has for its user is a beginning of what callbacks have reported and of what the next one will. -/
def Arrives (w : Writer) (t : Link) : Prop :=
  t.sock.handed ++ t.sock.kept <+: w.accepted ++ w.offered.take w.sender.written.toNat

end Writer

end Libtorrent.Utp.Sender
