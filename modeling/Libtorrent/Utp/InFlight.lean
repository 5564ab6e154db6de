import Libtorrent.Utp.Acks

/-!
# Bytes in flight

After every call of an opened socket, the bytes in flight are those of the kept packets (`bytes_in_flight_accounting`).
New packets are entered under the next number; the rest is in `Acks.lean`.
-/

namespace Libtorrent.Utp.Sender

open Serial SlotTable Run List Int OutPacket

variable {s s' : Sender} {m : Nat → Option OutPacket} {p : OutPacket} {span : Nat} {size : Int} (sm : SocketManager)

/-- The books of a socket with a connection. -/
def Open (s : Sender) : Prop := s.state ≠ .none ∧ ∃ m, Sound s m

theorem Retains.open (h : Retains s m s') (hst : s.state ≠ .none) : Open s' := by
  obtain ⟨hst', -, m', hs, -⟩ := h
  exact ⟨hst' hst, m', hs⟩

def Few (s : Sender) : Prop := gap s.nextAck s.seqNr < 0x8000

theorem Few.gap_le (h : Few s) : gap s.ackedSeqNr s.seqNr ≤ 0x8000 := by
  unfold Few at h
  rw [nextAck_eq] at h
  unfold gap at *
  omega

/-! ## Sending -/

theorem length_takePayload : ∀ (size : Nat) (bufs : List (List UInt8)), (takePayload size bufs).1.length ≤ size
  | _, [] => Nat.zero_le _
  | size, buf :: bufs => by
    rw [takePayload]
    split
    · exact Nat.zero_le _
    split
    · have := length_takePayload (size - buf.length) bufs
      dsimp only
      rw [length_append]
      omega
    · exact length_take_le _ _

theorem headerSize_le (span : Nat) : 20 ≤ headerSize span ∧ headerSize span ≤ 54 := by
  unfold headerSize sackSize
  split
  · omega
  · omega

theorem keep_spec (h : Sound s m) (hroom : gap s.ackedSeqNr s.seqNr < 0x8000) (hseq : p.seqNr = s.seqNr)
    (hp : p.Sized) :
    ∃ outbuf, s.keep p = { s with outbuf, seqNr := (s.seqNr + 1) % 65536 } ∧ ∀ bytes,
      bytes = s.bytesInFlight + p.flying →
      Sound { s with outbuf, seqNr := (s.seqNr + 1) % 65536, bytesInFlight := bytes }
        (Function.update m s.seqNr (some p)) := by
  obtain ⟨hbooks, hret⟩ := h.books.insert hroom hseq hp
  refine ⟨(s.outbuf.insert s.seqNr (some p)).1, ?_, fun bytes he => ⟨?_, h.limits, h.settled.insert p⟩⟩
  · unfold keep
    dsimp only
    rw [hret, and_ffff]
  · rw [he]
    exact hbooks

theorem room_of_few (h : Sound s m) (hfew : gap (s.keep p).ackedSeqNr (s.keep p).seqNr ≤ 0x8000) :
    gap s.ackedSeqNr s.seqNr < 0x8000 := by
  have hkeep : (s.keep p).seqNr = (s.seqNr + 1) % 65536 ∧ (s.keep p).ackedSeqNr = s.ackedSeqNr := by
    unfold keep landed
    rw [← and_ffff]
    dsimp only
    repeat' split
    all_goals exact ⟨rfl, rfl⟩
  rw [hkeep.1, hkeep.2] at hfew
  have hw := h.books.window
  have hacked := h.books.acked_lt
  have hahead := h.books.ahead
  unfold gap at *
  omega

structure Payload (s : Sender) (span : Nat) (size : Int) : Prop where
  nonneg : 0 ≤ size
  fits : headerSize span + size ≤ s.mtu
  buffered : size ≤ s.writeBufferSize

section

variable (h : Sound s m)
include h

theorem payloadSize_spec (span : Nat) : Payload s span (s.payloadSize span).1 := by
  have hheader := headerSize_le span
  have hmtu := h.limits.mtu_ge
  have hbuf := h.limits.buffered
  unfold payloadSize
  dsimp only
  split
  · exact ⟨le_rfl, by dsimp only; omega, hbuf.1⟩
  · exact ⟨by dsimp only; omega, by dsimp only; omega, by dsimp only; omega⟩

theorem sound_writePayload (hpay : Payload s span size) : ∃ mtuSeq buffer buffered written,
    ((s.startProbe (headerSize span + size)).writePayload size).1 =
      { s with mtuSeq, writeBuffer := buffer, writeBufferSize := buffered, written } ∧
    Limits s.mtu s.mtuFloor s.mtuCeiling mtuSeq buffered := by
  obtain ⟨h1, h2, h3, h4, h5, h6, h7, h8⟩ := h.limits
  obtain ⟨hp1, hp2, hp3⟩ := hpay
  have hbuf : 0 ≤ int32 (s.writeBufferSize - (takePayload size.toNat s.writeBuffer).1.length) ∧
      int32 (s.writeBufferSize - (takePayload size.toNat s.writeBuffer).1.length) < 2 ^ 31 := by
    have := length_takePayload size.toNat s.writeBuffer
    rw [int32_of_range (by omega) (by omega)]
    omega
  unfold startProbe
  split
  · rename_i hprobe
    have hlarge : (s.mtuFloor : Int) < headerSize span + size := (of_decide_eq_true hprobe).2.1
    exact ⟨_, _, _, _, rfl, h1, h2, h3, h4, h5, h6, fun _ => by omega, hbuf⟩
  · exact ⟨_, _, _, _, rfl, h1, h2, h3, h4, h5, h6, h7, hbuf⟩

section

variable (hst : s.state ≠ .none)
include hst

theorem enqueue_spec (hseq : p.seqNr = s.seqNr) (hp : p.Sized) (hbytes : (p.flying : Int) = size)
    (hfew : gap (s.enqueue p size).ackedSeqNr (s.enqueue p size).seqNr ≤ 0x8000) : Open (s.enqueue p size) := by
  unfold enqueue at *
  split at hfew
  · rename_i hz
    rw [if_pos hz]
    exact ⟨hst, m, h⟩
  rename_i hz
  rw [if_neg hz]
  obtain ⟨outbuf, he, hs⟩ := keep_spec h (room_of_few (p := p) h hfew) hseq hp
  rw [he]
  exact ⟨hst, _, hs (s.bytesInFlight + size) (by rw [hbytes])⟩

theorem emit_spec (hpay : Payload s span size)
    (hfew : gap (s.emit sm span size).1.ackedSeqNr (s.emit sm span size).1.seqNr ≤ 0x8000) :
    Open (s.emit sm span size).1 := by
  obtain ⟨mtuSeq, buffer, buffered, written, he, hl⟩ := sound_writePayload h hpay
  have hheader := headerSize_le span
  have hmtu := h.limits.mtu_lt
  obtain ⟨hp1, hp2, hp3⟩ := hpay
  have hsize : (headerSize span + size).toNat % 65536 = headerSize span + size.toNat := by omega
  unfold emit at *
  dsimp only at *
  rw [he] at hfew ⊢
  have hs : Sound { s with mtuSeq, writeBuffer := buffer, writeBufferSize := buffered, written, sent :=
    s.sent + 1 } m :=
    ⟨h.books, hl, h.settled⟩
  split at hfew
  · rename_i hok
    rw [if_pos hok]
    refine enqueue_spec hs hst rfl ?_ ?_ hfew
    · unfold OutPacket.Sized
      dsimp only
      omega
    unfold flying
    dsimp only
    rw [hsize]
    simp [toNat_of_nonneg hp1]
  rename_i hok
  rw [if_neg hok]
  split at hfew
  · rename_i hprobe
    rw [if_pos hprobe]
    have hlarge : (s.mtuFloor : Int) < headerSize span + size := (of_decide_eq_true hprobe.2).2.1
    refine enqueue_spec (m := m) ⟨h.books, Limits.update ?_ ?_ _ ?_ ?_ hl.buffered, h.settled⟩ hst rfl ?_ ?_ hfew
    · have := hl.floor_ge
      dsimp only
      omega
    · have := hl.floor_lt
      dsimp only
      omega
    · have := hl.floor_ge
      dsimp only
      omega
    · dsimp only
      omega
    · unfold OutPacket.Sized
      dsimp only
      omega
    · unfold flying
      dsimp only
      rw [hsize]
      simp [toNat_of_nonneg hp1]
  · rename_i hprobe
    rw [if_neg hprobe]
    exact (retains_fail hs).open hst

theorem sendPkt_spec {ack : Bool}
    (hfew : gap (s.sendPkt sm ack span).1.ackedSeqNr (s.sendPkt sm ack span).1.seqNr ≤ 0x8000) :
    Open (s.sendPkt sm ack span).1 := by
  obtain ⟨hst', -, m', hs, -⟩ := retains_resendLoop sm (numbers s.nextAck s.seqNr) h
  have hopen : Open (resendLoop sm (numbers s.nextAck s.seqNr) s).1 := ⟨hst' hst, m', hs⟩
  unfold sendPkt at *
  dsimp only at *
  split
  · exact hopen
  rename_i h1
  rw [if_neg h1] at hfew
  split
  · exact hopen
  rename_i h2
  rw [if_neg h2] at hfew
  split
  · exact hopen
  · rename_i h3
    rw [if_neg h3] at hfew
    exact emit_spec sm hs (hst' hst) (payloadSize_spec hs span) hfew

theorem sendFin_spec (hfew : gap (s.sendFin sm).ackedSeqNr (s.sendFin sm).seqNr ≤ 0x8000) : Open (s.sendFin sm) := by
  have hsent : Sound { s with sent := s.sent + 1 } m := ⟨h.books, h.limits, h.settled⟩
  unfold sendFin transmit at *
  dsimp only at *
  by_cases hok : sm.sendPacket s.sent = .ok
  · rw [if_pos hok] at hfew ⊢
    dsimp only at hfew ⊢
    have hp : (headerOnly { s with sent := s.sent + 1 } .fin).Sized := ⟨le_rfl, le_rfl, Nat.lt_of_sub_eq_succ rfl⟩
    obtain ⟨outbuf, he, hs⟩ := keep_spec hsent (room_of_few hsent hfew) rfl hp
    have hsound := hs s.bytesInFlight (add_zero _).symm
    rw [he]
    exact ⟨fun hn => SocketState.noConfusion hn, _, hsound.books, hsound.limits, hsound.settled⟩
  · rw [if_neg hok] at hfew ⊢
    exact (retains_fail hsent).open hst

end

end

/-! ## `incoming_packet` and `tick` -/

theorem receiveAck_spec (h : Sound s m) (hst : s.state ≠ .none) {type : PacketType} {ackNr : UInt16} (wndSize : UInt32)
    (hok : s.ackTooHigh type ackNr.toNat = false) : (s.receiveAck ackNr wndSize).state ≠ .none ∧
      ∃ m', Sound (s.receiveAck ackNr wndSize) m' ∧ Cleared (s.receiveAck ackNr wndSize).seqNr ackNr.toNat m' := by
  have hgap := gap_le_of_ackTooHigh ackNr.toNat_lt h.books.seq_lt hst hok
  have hcum : ∀ t : Sender, Sound t m → t.state ≠ .none → t.seqNr = s.seqNr →
    (t.cumulativeAck ackNr.toNat).state ≠ .none ∧
      ∃ m', Sound (t.cumulativeAck ackNr.toNat) m' ∧ Cleared (t.cumulativeAck ackNr.toNat).seqNr ackNr.toNat m' := by
    intro t ht htst hseq
    rw [← hseq] at hgap
    obtain ⟨hkept, m', hs, hc, -⟩ := cumulativeAck_spec ht htst ackNr.toNat_lt hgap
    rw [hkept.state, hkept.seqNr]
    exact ⟨htst, m', hs, hc⟩
  unfold receiveAck
  dsimp only
  split
  · exact hcum _ ⟨h.books, h.limits, h.settled⟩ hst rfl
  · exact hcum _ ⟨h.books, h.limits, h.settled⟩ hst rfl

theorem incomingPacket_spec (h : Open s) (type : PacketType) (ackNr : UInt16) (wndSize : UInt32)
    (sacks : List SackMask) :
    Open (s.incomingPacket sm type ackNr wndSize sacks) := by
  obtain ⟨hst, m, hs⟩ := h
  unfold incomingPacket
  dsimp only
  split
  · exact ⟨hst, m, hs⟩
  rename_i hok
  obtain ⟨hst1, m1, hs1, hc1⟩ := receiveAck_spec hs hst wndSize (Bool.eq_false_of_not_eq_true hok)
  obtain ⟨hst2, m2, hs2, -⟩ := receiveSacks_spec sm sacks hs1 hst1 hc1
  split
  · exact ⟨hst2, m2, hs2⟩
  obtain ⟨hst3, m3, hs3⟩ := (retains_resendLost sm hs2).open hst2
  split
  · exact ⟨fun hn => SocketState.noConfusion hn, m3, hs3.books, hs3.limits, hs3.settled⟩
  · exact ⟨hst3, m3, hs3⟩

theorem sound_probeTimedOut (h : Sound s m) : Sound s.probeTimedOut m := by
  obtain ⟨h1, h2, h3, h4, h5, h6, h7, h8⟩ := h.limits
  unfold probeTimedOut
  dsimp only
  split
  · rename_i hc
    have hlt := h7 hc.2.2
    exact ⟨h.books, Limits.update (by dsimp only; omega) (by dsimp only; omega) _ (by dsimp only; omega)
      (by dsimp only; omega) h8, h.settled⟩
  · exact ⟨h.books, ⟨h1, h2, h3, h4, h5, h6, fun hne => absurd rfl hne, h8⟩, h.settled⟩

theorem retains_loseAll (h : Sound s m) : Retains s m s.loseAll := by
  have hprobe : Retains s m s.probeTimedOut := by
    refine .of_sound (sound_probeTimedOut h) ?_ ?_
    · unfold probeTimedOut
      dsimp only
      split
      · exact id
      · exact id
    unfold probeTimedOut
    dsimp only
    split
    · rfl
    · rfl
  refine hprobe.trans fun m' h' => ?_
  have hs : Retains s.probeTimedOut m' { s.probeTimedOut with lossSeqNr := s.probeTimedOut.seqNr } :=
    .of_sound ⟨h'.books, h'.limits, h'.settled⟩ id rfl
  exact hs.trans fun m'' h'' => retains_markLost_foldl _ h''

theorem restart_spec (h : Sound s m) (hst : s.state ≠ .none)
    (hfew : gap (s.restart sm span).ackedSeqNr (s.restart sm span).seqNr ≤ 0x8000) : Open (s.restart sm span) := by
  unfold restart at *
  split at hfew
  · rename_i hat
    split
    · exact (retains_fail h).open hst
    refine ((retains_passFastResend h s.nextAck).trans fun m' h' => retains_resendPacket sm h' ?_ false).open hst
    obtain ⟨f, he⟩ := passFastResend_eq s s.nextAck
    rw [he]
    exact hat
  split
  · exact (retains_fail h).open hst
  rename_i hfin
  rw [if_neg hfin] at hfew
  split
  · exact ⟨hst, m, h⟩
  · rename_i herr
    rw [if_neg herr] at hfew
    exact sendPkt_spec sm h hst hfew

theorem timeout_spec (h : Open s) (hfew : gap (s.timeout sm span).ackedSeqNr (s.timeout sm span).seqNr ≤ 0x8000) :
    Open (s.timeout sm span) := by
  obtain ⟨hst, m, hs⟩ := h
  unfold timeout at *
  dsimp only at *
  generalize (if s.outbuf.size ≠ 0 then (s.numTimeouts + 1) % 256 else s.numTimeouts) = n at *
  split
  · exact ⟨hst, m, hs⟩
  rename_i herr
  rw [if_neg herr] at hfew
  split
  · exact ⟨fun hn => SocketState.noConfusion hn, m, hs.books, hs.limits, hs.settled⟩
  rename_i hlost
  rw [if_neg hlost] at hfew
  obtain ⟨hst', -, m', hs', -⟩ := retains_loseAll (s := { s with cwnd := s.timeoutWindow, numTimeouts := n }) (m := m)
    ⟨hs.books, hs.limits, hs.settled⟩
  exact restart_spec sm hs' (hst' hst) hfew

/-! ## Runs -/

/-- The size of the write buffer is an `int32_t`. -/
def Buffers (s : Sender) : SendEvent → Prop
  | .write buf => s.writeBufferSize + buf.length < 2 ^ 31
  | _ => True

/-- A call after which fewer than `0x8000` packets are outstanding, and fewer than `2 ^ 31` bytes in the write
buffer. -/
def Pre (s : Sender) (event : SendEvent) : Prop := Few (s.step sm event) ∧ s.Buffers event

theorem open_step (s : Sender) (event : SendEvent) (h : Open s) (hpre : Pre sm s event) : Open (s.step sm event) := by
  have hfew := Few.gap_le hpre.1
  obtain ⟨hst, m, hs⟩ := h
  cases event with
  | write buf =>
    obtain ⟨h1, h2, h3, h4, h5, h6, h7, h8⟩ := hs.limits
    have hroom : s.writeBufferSize + buf.length < 2 ^ 31 := hpre.2
    refine ⟨hst, m, hs.books, ⟨h1, h2, h3, h4, h5, h6, h7, ?_⟩, hs.settled⟩
    rw [step, int32_of_range (by omega) hroom]
    exact ⟨add_nonneg h8.1 (natCast_nonneg _), hroom⟩
  | writeDone =>
    obtain ⟨h1, h2, h3, h4, h5, h6, h7, -⟩ := hs.limits
    exact ⟨hst, m, hs.books, ⟨h1, h2, h3, h4, h5, h6, h7, le_rfl, (by decide : (0 : Int) < 2 ^ 31)⟩, hs.settled⟩
  | sendPkt => exact sendPkt_spec sm hs hst hfew
  | resendPacket idx fast =>
    rw [step]
    split
    · rename_i hat
      split
      · exact (retains_resendPacket sm hs hat fast).open hst
      · exact ⟨hst, m, hs⟩
    · exact ⟨hst, m, hs⟩
  | sendFin => exact sendFin_spec sm hs hst hfew
  | incomingPacket type ackNr wndSize sacks => exact incomingPacket_spec sm ⟨hst, m, hs⟩ type ackNr wndSize sacks
  | timeout => exact timeout_spec sm ⟨hst, m, hs⟩ hfew
  | ledbat => exact ⟨hst, m, hs.books, hs.limits, hs.settled⟩

theorem limits_new (link : LinkMtu) (nagle : Bool) :
    Limits (new sm link nagle).mtu (new sm link nagle).mtuFloor (new sm link nagle).mtuCeiling 0 0 := by
  have h1 := link.linkMtu_ge
  have h2 := link.linkMtu_le
  have h3 := link.overhead_le
  unfold new
  dsimp only
  split
  · exact ⟨by omega, by omega, by omega, by omega, by omega, by omega, fun hne => absurd rfl hne, by decide⟩
  · exact ⟨by omega, by omega, by omega, by omega, by omega, by omega, fun hne => absurd rfl hne, by decide⟩

theorem books_new {seq : Nat} (hseq : seq < 65536) : Books .new seq (gap 1 seq) 0 (fun _ => none) ∧
    Settled seq (gap 1 seq) fun _ => none := by
  refine ⟨⟨PacketBuffer.valid_new, hseq, gap_lt 1 seq, ?_, ?_, fun _ p hk => absurd hk.symm (Option.some_ne_none p),
    fun _ hk => absurd rfl hk, ?_, fun hs => absurd rfl hs⟩, Or.inr ?_⟩
  · unfold gap
    omega
  · unfold gap
    omega
  · simp [mapSum]
  · unfold gap
    omega

theorem open_opened (link : LinkMtu) (nagle : Bool) (opening : Opening) : Open (opened sm link nagle opening) := by
  have hl := limits_new sm link nagle
  cases opening with
  | connect random =>
    obtain ⟨hb, hset⟩ := books_new random.toNat_lt
    have hseq : sub32 random.toNat 1 &&& 0xffff = gap 1 random.toNat := sub32_and_ffff (by decide) random.toNat_lt
    unfold opened sendSyn transmit
    dsimp only
    rw [hseq]
    by_cases hok : sm.sendPacket (new sm link nagle).sent = .ok
    · rw [if_pos hok]
      have hp : OutPacket.Sized ⟨20, 20, 1, false, false, .syn, random.toNat, []⟩ :=
        ⟨le_rfl, le_rfl, Nat.lt_of_sub_eq_succ rfl⟩
      obtain ⟨hb', -⟩ := hb.insert (by unfold gap; omega) rfl hp
      have hset' := hset.insert ⟨20, 20, 1, false, false, .syn, random.toNat, []⟩
      rw [← and_ffff] at hb' hset'
      exact ⟨fun hn => SocketState.noConfusion hn, _, hb', hl, hset'⟩
    · rw [if_neg hok]
      exact ⟨fun hn => SocketState.noConfusion hn, _, hb, hl, hset⟩
  | accept random =>
    obtain ⟨hb, hset⟩ := books_new random.toNat_lt
    have hseq : sub32 random.toNat 1 &&& 0xffff = gap 1 random.toNat := sub32_and_ffff (by decide) random.toNat_lt
    unfold opened acceptSyn
    dsimp only
    rw [hseq]
    exact ⟨fun hn => SocketState.noConfusion hn, _, hb, hl, hset⟩

/-! ## The accounts -/

def packets (s : Sender) : List OutPacket := s.outbuf.storage.filterMap id

/-- What `m_bytes_in_flight` and `m_outbuf` have to do with the packets that have been sent. -/
structure Accounts (s : Sender) : Prop where
  /-- The bytes in flight are those of the packets that do not wait to be sent again. -/
  bytes : s.bytesInFlight = ((s.packets.filter fun p => !p.needResend).map OutPacket.bytes).sum
  nonneg : 0 ≤ s.bytesInFlight
  /-- A packet has the slot of its number, and its number is outstanding. -/
  slot : ∀ i p, s.outbuf.storage[i]? = some (some p) → i = p.seqNr &&& (s.outbuf.capacity - 1) ∧
    s.outbuf.atIdx p.seqNr = some p ∧ gap s.nextAck p.seqNr < gap s.nextAck s.seqNr
  /-- The first outstanding number has a packet, if any is outstanding. -/
  front : s.outbuf.atIdx s.nextAck ≠ none ∨ s.seqNr = s.nextAck

theorem sum_bytes : ∀ (st : List (Option OutPacket)), (∀ p, some p ∈ st → p.Sized) →
    (((st.filterMap id).filter fun p => !p.needResend).map bytes).sum = (slotSum flying st : Int)
  | [], _ => rfl
  | v :: st, h => by
    have ih := sum_bytes st fun p hp => h p (mem_cons_of_mem v hp)
    have hcons : slotSum flying (v :: st) = v.elim 0 flying + slotSum flying st := by
      simp [slotSum]
    rw [hcons, natCast_add, ← ih]
    cases v with
    | none => simp
    | some p =>
      have hp := flying_eq (h p mem_cons_self)
      cases hr : p.needResend with
      | false | true =>
        rw [hr] at hp
        simp [hr, hp]

theorem accounts_of_open (h : Open s) : Accounts s := by
  obtain ⟨-, m, hs⟩ := h
  have hb := hs.books
  have hsum : s.bytesInFlight = (slotSum flying s.outbuf.storage : Int) := by
    rw [hb.valid.slotSum_eq flying]
    exact hb.bytes_eq
  have hsent : ∀ k, m k ≠ none → k < 65536 ∧ s.outbuf.atIdx k = m k ∧ gap s.nextAck k < gap s.nextAck s.seqNr := by
    intro k hk
    have hkt := hb.valid.bound k hk
    refine ⟨hkt, PacketBuffer.atIdx_eq hb.valid hkt (PacketBuffer.not_aliased_of_stored hb.valid hk), ?_⟩
    have hsent := hb.sent k hk
    have hseq := hb.seq_lt
    rw [nextAck_eq]
    unfold gap at *
    omega
  refine ⟨?_, ?_, fun i p hi => ?_, ?_⟩
  · rw [hsum, packets, sum_bytes]
    intro p hp
    obtain ⟨i, hi⟩ := getElem?_of_mem hp
    obtain ⟨k, hk, -⟩ := hb.valid.slot hi
    exact (hb.packet k p hk).2
  · rw [hsum]
    exact natCast_nonneg _
  · obtain ⟨k, hk, he⟩ := hb.valid.slot hi
    obtain ⟨-, hat, hgap⟩ := hsent k (by rw [hk]; exact Option.some_ne_none p)
    rw [(hb.packet k p hk).1]
    exact ⟨he, hat.trans hk, hgap⟩
  · rw [nextAck_eq]
    rcases hs.settled with hm | he
    · left
      rw [(hsent _ hm).2.1]
      exact hm
    · exact Or.inr he

/-- **The bytes in flight**: after every call of an opened socket, `m_bytes_in_flight` is the payload of the packets
that do not wait to be sent again, every packet has the slot of its number, which is outstanding, and the first
outstanding number has a packet. -/
theorem bytes_in_flight_accounting (link : LinkMtu) (nagle : Bool) (opening : Opening) (events : List SendEvent)
    (hl : Legal (step sm) (Pre sm) (opened sm link nagle opening) events) :
    Always (step sm) Accounts (opened sm link nagle opening) events :=
  (always_of_step (open_step sm) (open_opened sm link nagle opening) hl).mono fun _ => accounts_of_open

instance (s : Sender) : ∀ event : SendEvent, Decidable (s.Buffers event)
  | .write _ => inferInstanceAs (Decidable (_ < _))
  | .writeDone | .sendPkt .. | .resendPacket .. | .sendFin | .incomingPacket .. | .timeout _ | .ledbat _ =>
      .isTrue trivial

instance (s : Sender) (event : SendEvent) : Decidable (Pre sm s event) :=
  inferInstanceAs (Decidable (gap _ _ < 0x8000 ∧ _))

/-- A manager whose packets all get through. -/
def idealManager : SocketManager :=
  { numResends := 6, synResends := 2, finResends := 2, lossMultiplier := 50, allowDynamicSockBuf := false
    sendPacket := fun _ => .ok }

def ethernet : LinkMtu := ⟨1500, 28, by decide, by decide, by decide⟩

/-- The SYN is answered; of three packets the second one is acknowledged,
then the first one times out and is sent again. -/
def lossyRun : List SendEvent :=
  [.incomingPacket .state 0xfffe 4000 [], .write [1, 2], .sendPkt false 0, .write [3], .sendPkt true 0,
    .write [4, 5, 6],
    .sendPkt true 9, .incomingPacket .state 0xfffe 4000 [⟨[1, 0, 0, 0], by decide⟩], .timeout 0,
    .incomingPacket .state 0 4000 [], .sendFin]

theorem bytes_in_flight_accounting_lossyRun :
    Legal (step idealManager) (Pre idealManager) (opened idealManager ethernet false (.connect 0xfffe)) lossyRun ∧
      Always (step idealManager) Accounts (opened idealManager ethernet false (.connect 0xfffe)) lossyRun := by
  have hl : Legal (step idealManager) (Pre idealManager) (opened idealManager ethernet false (.connect 0xfffe))
    lossyRun := by
    decide +kernel
  exact ⟨hl, bytes_in_flight_accounting idealManager ethernet false (.connect 0xfffe) lossyRun hl⟩

/-- A socket that has not been opened has the same number as the next one to send and as the last one acknowledged. -/
theorem not_accounts_new : (new idealManager ethernet false).packets = [] ∧
    ¬ Accounts (new idealManager ethernet false) :=
  ⟨rfl, fun h => h.front.elim (fun hn => hn rfl) fun hn => absurd hn (by decide)⟩

end Libtorrent.Utp.Sender
