import Libtorrent.Utp.Receive
import Libtorrent.Utp.Refinement

/-!
# No byte is lost or reordered on the way to the user

`Flow s` says that the count of kept bytes is right and that nothing is kept while a buffer of the user is open. Under
it `incoming` appends its payload to what has been handed over and what is kept (`incoming_spec`), and a read moves
bytes from the kept ones to the user (`readSome_spec`).
-/

namespace Libtorrent.Utp

open List Nat Packet

/-! ## Packets -/

/-- The buffer of the packet is as long as its size says, and the cursor is in it. -/
def Packet.Ok (p : Packet) : Prop := p.headerSize ≤ p.size ∧ p.size ≤ p.buf.length

variable {p : Packet} {n : Nat}

theorem Packet.length_rest (h : p.Ok) : p.rest.length = p.size - p.headerSize := by
  rw [rest, length_drop, length_take, min_eq_left h.2]

theorem Packet.take_rest (h : n ≤ p.size - p.headerSize) : (p.buf.drop p.headerSize).take n = p.rest.take n := by
  rw [rest, drop_take, take_take, min_eq_left h]

theorem Packet.Ok.advance (h : p.Ok) (hn : n ≤ p.size - p.headerSize) :
    Packet.Ok { p with headerSize := p.headerSize + n } := by
  have := h.1
  exact ⟨show p.headerSize + n ≤ p.size by omega, h.2⟩

theorem Packet.rest_advance (p : Packet) (n : Nat) :
    rest { p with headerSize := p.headerSize + n } = p.rest.drop n := by
  rw [rest, rest, drop_drop]

theorem Packet.rest_ofPayload {d : List UInt8} (h : d.length < 2 ^ 16) : (ofPayload d).rest = d ∧ (ofPayload d).Ok := by
  unfold ofPayload rest Packet.Ok
  rw [mod_eq_of_lt h]
  exact ⟨by simp, zero_le _, le_refl _⟩

namespace Socket

variable {s s' : Socket}

/-- The bytes that are kept for the next read. -/
def kept (s : Socket) : List UInt8 := s.receiveBuffer.flatMap Packet.rest

/-- What has been received in order: the bytes of the user and those that are kept. -/
def stream (s : Socket) : List UInt8 := s.handed ++ s.kept

structure Counted (s : Socket) : Prop where
  size : s.receiveBufferSize = int32 s.kept.length
  ok : ∀ p ∈ s.receiveBuffer, p.Ok

/-- The kept bytes are counted, and there are none while a buffer of the user is open. -/
structure Flow (s : Socket) : Prop extends Counted s where
  order : s.readBuffer = [] ∨ s.kept = []

/-- What decides the order of packets: a delivery does not touch it. -/
def ordering (s : Socket) : Nat × Bool × Nat × PacketBuffer Packet × Int :=
  (s.ackNr, s.eof, s.eofSeqNr, s.inbuf, s.bufferedIncomingBytes)

/-- A delivery: the received bytes grow by `d`. -/
structure Delivers (s : Socket) (d : List UInt8) (s' : Socket) : Prop where
  flow : Flow s'
  stream : s'.stream = s.stream ++ d
  same : s'.ordering = s.ordering

variable {d buf : List UInt8} {size : Nat} {p : Option Packet}

theorem Delivers.of {t : Socket} {d' : List UInt8} (h : Delivers t d' s') (ht : t.ordering = s.ordering)
    (he : t.stream ++ d' = s.stream ++ d) : Delivers s d s' :=
  ⟨h.flow, h.stream.trans he, h.same.trans ht⟩

theorem maybeTriggerReceiveCallback_delivers (h : Flow s) (now : Nat) :
    Delivers s [] (s.maybeTriggerReceiveCallback now) := by
  unfold maybeTriggerReceiveCallback
  have hnil := (append_nil s.stream).symm
  split_ifs
  · exact ⟨h, hnil, rfl⟩
  · exact ⟨⟨⟨h.size, h.ok⟩, Or.inl rfl⟩, hnil, rfl⟩
  · exact ⟨h, hnil, rfl⟩

/-! ## `incoming` -/

/-- The arguments of `incoming` stand for the bytes `d`. -/
structure Carries (buf : List UInt8) (size : Nat) (p : Option Packet) (d : List UInt8) : Prop where
  size : size = d.length
  short : d.length < 2 ^ 16
  bytes : match p with
    | none => buf = d
    | some p => p.rest = d ∧ p.Ok

theorem keep_delivers (h : Counted s)
    (hr : s.readBuffer = []) (hc : Carries buf size p d) (now : Nat) : Delivers s d (s.keep buf p now) := by
  obtain ⟨q, hq, hrest, hok⟩ : ∃ q, p.getD (.ofPayload buf) = q ∧ q.rest = d ∧ q.Ok := by
    have hb := hc.bytes
    cases p with
    | none =>
      have := rest_ofPayload hc.short
      rw [← hb] at this
      exact ⟨_, rfl, this.1.trans hb, this.2⟩
    | some p => exact ⟨p, rfl, hb⟩
  have hkept : (s.keep buf p now).kept = s.kept ++ d := by
    unfold keep kept
    rw [hq, flatMap_append, flatMap_singleton, hrest]
  refine ⟨⟨⟨?_, fun r hr => ?_⟩, Or.inl hr⟩, ?_, rfl⟩
  · rw [hkept, length_append, Int.natCast_add, ← int32_add, ← h.size, ← hrest, length_rest hok, ← hq]
    rfl
  · rcases mem_append.mp hr with hr | hr
    · exact h.ok r hr
    · rw [mem_singleton.mp hr]
      exact hq ▸ hok
  · rw [stream, stream, hkept, append_assoc]
    rfl

theorem Carries.advance {n : Nat} (hc : Carries buf size p d) (hn : n ≤ size) : (source buf p).take n = d.take n ∧
      Carries ((source buf p).drop n) (size - n) (p.map fun p => { p with headerSize := p.headerSize + n })
        (d.drop n) := by
  have hsize : size - n = (d.drop n).length := by rw [length_drop, hc.size]
  have hshort : (d.drop n).length < 2 ^ 16 := by
    have := hc.short
    rw [length_drop]
    omega
  have hb := hc.bytes
  cases p with
  | none =>
    have hb : buf = d := hb
    subst hb
    exact ⟨rfl, hsize, hshort, rfl⟩
  | some p =>
    obtain ⟨rfl, hok⟩ := hb
    have hn : n ≤ p.size - p.headerSize := by
      rw [← length_rest hok, ← hc.size]
      exact hn
    exact ⟨take_rest hn, hsize, hshort, p.rest_advance n, hok.advance hn⟩

theorem incomingLoop_delivers (now : Nat) : ∀ (targets : List Nat) {s : Socket} {buf d : List UInt8} {size : Nat}
    {p : Option Packet}, Counted s → (targets = [] ∨ s.kept = []) → Carries buf size p d →
      Delivers s d (incomingLoop now targets s buf size p)
  | [], s, buf, d, n, p, h, _, hc => by
    have hk := keep_delivers (s := { s with readBuffer := [] }) ⟨h.size, h.ok⟩ rfl hc now
    exact hk.of rfl rfl
  | len :: targets, s, buf, d, n, p, h, ho, hc => by
    have hempty : s.kept = [] := ho.resolve_left (cons_ne_nil _ _)
    obtain ⟨htake, hc'⟩ := hc.advance (min_le_left n len)
    rw [incomingLoop]
    rw [htake]
    by_cases hz : n - min n len = 0
    · rw [if_pos hz]
      have hall : d.take (min n len) = d := take_of_length_le (by rw [← hc.size]; omega)
      rw [hall]
      have hm := maybeTriggerReceiveCallback_delivers (s := { s with
        handed := s.handed ++ d
        readTimeout := if s.read = 0 then now + 100 else s.readTimeout
        read := int32 (s.read + (min n len : Nat))
        readBufferSize := int32 (s.readBufferSize - (min n len : Nat))
        readBuffer := if len - min n len = 0 then targets else (len - min n len) :: targets })
        ⟨⟨h.size, h.ok⟩, Or.inr hempty⟩ now
      refine hm.of rfl ?_
      change (s.handed ++ d ++ s.kept) ++ [] = s.handed ++ s.kept ++ d
      rw [hempty]
      simp
    · rw [if_neg hz]
      have ih := incomingLoop_delivers now targets (s := { s with
        handed := s.handed ++ d.take (min n len)
        readTimeout := if s.read = 0 then now + 100 else s.readTimeout
        read := int32 (s.read + (min n len : Nat))
        readBufferSize := int32 (s.readBufferSize - (min n len : Nat)) }) ⟨h.size, h.ok⟩ (Or.inr hempty) hc'
      refine ih.of rfl ?_
      change (s.handed ++ d.take _ ++ s.kept) ++ d.drop _ = s.handed ++ s.kept ++ d
      rw [hempty, append_nil, append_nil, append_assoc, take_append_drop]

/-- **`incoming`** appends the payload. -/
theorem incoming_delivers (h : Flow s)
    (hc : Carries buf size p d) (now : Nat) : Delivers s d (s.incoming buf size p now) :=
  incomingLoop_delivers now s.readBuffer h.toCounted h.order hc

/-! ## Reading -/

/-- The loop of `read_some`: every round finishes a packet or a buffer, so it ends because there are no more of them or
because nothing is kept any more. -/
theorem readLoop_delivers : ∀ {fuel : Nat} {packets : List Packet} {targets : List Nat} {s : Socket} (ret : Nat),
    packets.length + targets.length ≤ fuel → (packets.flatMap rest).length < 2 ^ 31 →
      s.receiveBufferSize = (packets.flatMap rest).length → (∀ p ∈ packets, p.Ok) →
        Flow (readLoop fuel packets targets s ret).1 ∧ (readLoop fuel packets targets s ret).1.ordering = s.ordering ∧
          (readLoop fuel packets targets s ret).1.stream = s.handed ++ packets.flatMap rest
  | 0, packets, targets, s, ret, hf, hlt, hs, hok => by
    obtain rfl : packets = [] := length_eq_zero_iff.mp (by omega)
    exact ⟨⟨⟨hs.trans (int32_eq hlt).symm, hok⟩, Or.inr rfl⟩, rfl, rfl⟩
  | fuel + 1, [], targets, s, ret, hf, hlt, hs, hok =>
    ⟨⟨⟨hs.trans (int32_eq hlt).symm, hok⟩, Or.inr rfl⟩, rfl, rfl⟩
  | fuel + 1, p :: packets, [], s, ret, hf, hlt, hs, hok =>
    ⟨⟨⟨hs.trans (int32_eq hlt).symm, hok⟩, Or.inl rfl⟩, rfl, rfl⟩
  | fuel + 1, p :: packets, len :: targets, s, ret, hf, hlt, hs, hok => by
    have hp := hok p mem_cons_self
    have hlen := length_rest hp
    have hn := min_le_left (p.size - p.headerSize) len
    have hfull : p.headerSize + min (p.size - p.headerSize) len = p.size ∨
      len - min (p.size - p.headerSize) len = 0 := by
      have := hp.1
      omega
    rw [readLoop]
    generalize min (p.size - p.headerSize) len = n at *
    -- the packets and the buffers after the round
    obtain ⟨packets', hpackets⟩ : ∃ l, l = if p.headerSize + n = p.size then packets
      else { p with headerSize := p.headerSize + n } :: packets := ⟨_, rfl⟩
    obtain ⟨targets', htargets⟩ : ∃ l, l = if len - n = 0 then targets else (len - n) :: targets := ⟨_, rfl⟩
    have hrest : packets'.flatMap rest = p.rest.drop n ++ packets.flatMap rest := by
      rw [hpackets]
      split
      · rw [drop_of_length_le (by omega), nil_append]
      · rw [flatMap_cons, rest_advance]
    have hok' : ∀ q ∈ packets', q.Ok := by
      intro q hq
      rw [hpackets] at hq
      split at hq
      · exact hok q (mem_cons_of_mem p hq)
      · rcases mem_cons.mp hq with rfl | hq
        · exact hp.advance hn
        · exact hok q (mem_cons_of_mem p hq)
    have hround : packets'.length + targets'.length ≤ fuel := by
      rw [length_cons, length_cons] at hf
      rw [hpackets, htargets]
      split_ifs <;> grind
    have htotal : (packets'.flatMap rest).length + n = ((p :: packets).flatMap rest).length := by
      rw [hrest, flatMap_cons, length_append, length_append, length_drop]
      omega
    have hstream : s.handed ++ (p.buf.drop p.headerSize).take n ++ packets'.flatMap rest =
        s.handed ++ (p :: packets).flatMap rest := by
      rw [take_rest hn, hrest, flatMap_cons, append_assoc, ← append_assoc (p.rest.take n), take_append_drop]
    have hlt' : (packets'.flatMap rest).length < 2 ^ 31 := by omega
    have hsize : int32 (s.receiveBufferSize - n) = (packets'.flatMap rest).length := by
      rw [← int32_eq hlt', hs, ← htotal]
      congr 1
      omega
    rw [← hpackets, ← htargets]
    by_cases hz : int32 (s.receiveBufferSize - n) = 0
    · rw [if_pos hz]
      have hnil : packets'.flatMap rest = [] := length_eq_zero_iff.mp (by omega)
      exact ⟨⟨⟨hsize.trans (int32_eq hlt').symm, hok'⟩, Or.inr hnil⟩, rfl, hstream⟩
    rw [if_neg hz]
    obtain ⟨h1, h2, h3⟩ := readLoop_delivers (s := { s with
      handed := s.handed ++ (p.buf.drop p.headerSize).take n
      receiveBufferSize := int32 (s.receiveBufferSize - n)
      readBufferSize := int32 (s.readBufferSize - n) }) (ret + n) hround hlt' hsize hok'
    exact ⟨h1, h2, h3.trans hstream⟩

/-- **`read_some`** moves kept bytes to the user. -/
theorem readSome_delivers (h : Counted s) (hlt : s.kept.length < 2 ^ 31) (clear : Bool) :
    Delivers s [] (s.readSome clear).1 := by
  have hs : s.receiveBufferSize = s.kept.length := h.size.trans (int32_eq hlt)
  have hloop : Delivers s [] (if s.receiveBufferSize = 0 then (s, 0)
      else readLoop (s.receiveBuffer.length + s.readBuffer.length) s.receiveBuffer s.readBuffer s 0).1 := by
    by_cases hz : s.receiveBufferSize = 0
    · rw [if_pos hz]
      have hnil : s.kept = [] := length_eq_zero_iff.mp (by omega)
      exact ⟨⟨h, Or.inr hnil⟩, (append_nil _).symm, rfl⟩
    · rw [if_neg hz]
      obtain ⟨h1, h2, h3⟩ := readLoop_delivers 0 (le_refl _) hlt hs h.ok
      exact ⟨h1, h3.trans (append_nil _).symm, h2⟩
  cases clear with
  | false => exact hloop
  | true =>
    exact ⟨⟨⟨hloop.flow.size, hloop.flow.ok⟩, Or.inl rfl⟩, hloop.stream, hloop.same⟩

section

variable (h : Flow s) (hlt : s.kept.length < 2 ^ 31) (buffers : List Nat)
include h hlt buffers

theorem asyncReadSome_delivers (now : Nat) : Delivers s [] (s.asyncReadSome buffers now) := by
  unfold asyncReadSome
  by_cases hr : s.readHandler = true
  · rw [if_pos hr]
    exact ⟨h, (append_nil _).symm, rfl⟩
  rw [if_neg hr]
  dsimp only
  have hread := readSome_delivers (s := { s.addReadBuffers buffers with readHandler := true }) ⟨h.size, h.ok⟩ hlt false
  generalize ({ s.addReadBuffers buffers with readHandler := true }).readSome false = r at *
  have hm := maybeTriggerReceiveCallback_delivers (s := { r.1 with read := int32 (r.1.read + r.2) })
    ⟨⟨hread.flow.size, hread.flow.ok⟩, hread.flow.order⟩ now
  refine hm.of hread.same ?_
  exact congrArg (· ++ []) (hread.stream.trans (append_nil _))

theorem readSomeNow_delivers : Delivers s [] (s.readSomeNow buffers) := by
  unfold readSomeNow
  by_cases hz : s.receiveBufferSize = 0
  · rw [if_pos hz]
    exact ⟨h, (append_nil _).symm, rfl⟩
  · rw [if_neg hz]
    exact (readSome_delivers (s := s.addReadBuffers buffers) ⟨h.size, h.ok⟩ hlt true).of rfl rfl

end

end Socket

/-!
## uTP reassembly

The packets of a stream are numbered without wrapping from the initial `m_ack_nr` on; number `i` has the sequence number
`(ackNr + i) & 0xffff` and the payload `P i`. The reorder buffer holds packets behind the next one (`Reorder`), and what
has been handed to the user and what is kept for a read are the payloads up to `m_ack_nr`, in order and once each
(`Exact`). This holds along every run in which `m_inbuf.insert` always grows the reorder buffer when it has to and the
count of the kept bytes does not overflow (`utp_reassembly`).
-/

open Serial SlotTable Run Function Option PacketBuffer Socket

def payloads (P : Nat → List UInt8) (n : Nat) : List UInt8 := (List.range n).flatMap fun k => P (k + 1)

theorem payloads_succ (P : Nat → List UInt8) (n : Nat) : payloads P (n + 1) = payloads P n ++ P (n + 1) := by
  rw [payloads, payloads, List.range_succ, List.flatMap_append, List.flatMap_singleton]

/-- The total payload in the reorder buffer. -/
def held (b : PacketBuffer Packet) : Nat := slotSum (fun p => p.size - p.headerSize) b.storage

section Stream

variable {P : Nat → List UInt8} {a n lo top : Nat} {s : Socket} {m : Nat → Option Packet}

/-- The map of the reorder buffer has packets of the stream, with numbers from `lo` to `top`. -/
def Reorder (P : Nat → List UInt8) (a lo top : Nat) (m : Nat → Option Packet) : Prop :=
  ∀ k, m k ≠ none → ∃ i, lo ≤ i ∧ i ≤ top ∧ k = (a + i) % 65536 ∧ m k = some (.ofPayload (P i))

structure Received (P : Nat → List UInt8) (a n : Nat) (m : Nat → Option Packet) (s : Socket) : Prop where
  flow : s.Flow
  ackNr : s.ackNr = (a + n) % 65536
  stream : s.stream = payloads P n
  inbuf : PacketBuffer.Valid s.inbuf m
  held : s.bufferedIncomingBytes = held s.inbuf

theorem Reorder.short (hP : ∀ i, (P i).length < 2 ^ 16) (hR : Reorder P a lo top m) (k : Nat) (p : Packet)
    (hk : m k = some p) : p.size - p.headerSize ≤ 65535 := by
  obtain ⟨i, -, -, -, he⟩ := hR k (by rw [hk]; exact some_ne_none p)
  rw [hk, some.injEq] at he
  have := hP i
  rw [he]
  unfold ofPayload
  dsimp only
  omega

variable {b : PacketBuffer Packet} {s' : Socket} {i : Nat}

theorem held_lt (hP : ∀ i, (P i).length < 2 ^ 16) (hR : Reorder P a lo top m)
    (hv : PacketBuffer.Valid b m) : held b < 2 ^ 31 := by
  have := hv.slotSum_le (hR.short hP)
  unfold held
  omega

theorem Reorder.ne_none (hR : Reorder P a lo top m) {k : Nat} {p : Packet} (hk : m k = some p) :
    ∃ i, lo ≤ i ∧ i ≤ top ∧ k = (a + i) % 65536 ∧ p = .ofPayload (P i) := by
  obtain ⟨i, h1, h2, h3, h4⟩ := hR k (by rw [hk]; exact some_ne_none p)
  exact ⟨i, h1, h2, h3, some.inj (hk.symm.trans h4)⟩

theorem Reorder.erase (hR : Reorder P a (n + 1) top m) :
    Reorder P a (n + 2) top (update m ((a + (n + 1)) % 65536) none) := by
  intro k hk
  have hne : k ≠ (a + (n + 1)) % 65536 := by
    rintro rfl
    rw [update_self] at hk
    exact hk rfl
  rw [update_of_ne hne] at hk ⊢
  obtain ⟨i, h1, h2, h3, h4⟩ := hR k hk
  refine ⟨i, ?_, h2, h3, h4⟩
  rcases lt_or_eq_of_le h1 with hlt | rfl
  · exact hlt
  · exact absurd h3 hne

/-- The next number comes before the stored ones or is the first of them, so `remove` is not misled. -/
theorem not_aliased_next (hv : PacketBuffer.Valid b m) (hR : Reorder P a (n + 1) top m)
    (ht : top ≤ n + 512) : ¬ b.Aliased ((a + (n + 1)) % 65536) := by
  rintro ⟨-, hless, hcap, hcell⟩
  have hs : b.size ≠ 0 := fun hs => hcell (hv.cell_eq_none hs _)
  have T := hv.tabled hs
  obtain ⟨l, E⟩ := hv.ends hs
  obtain ⟨i, h1, h2, h3, -⟩ := hR _ E.first
  have hlt : ¬ (0 < gap ((a + (n + 1)) % 65536) b.first ∧ gap ((a + (n + 1)) % 65536) b.first < 32768) := by
    rw [← compareLessWrap_iff (mod_lt _ (by decide)) T.first_lt, hless]
    exact Bool.false_ne_true
  have hpos := T.pos
  rw [h3] at hlt hcap
  unfold gap at hlt hcap
  omega

theorem next_eq (h : s.ackNr = (a + n) % 65536) : (s.ackNr + 1) &&& 0xffff = (a + (n + 1)) % 65536 := by
  rw [and_ffff, h]
  omega

theorem Received.deliver (h : Received P a n m s) {c : Int}
    {m' : Nat → Option Packet} (hd : Socket.Delivers { s with inbuf := b, bufferedIncomingBytes := c } (P (n + 1)) s')
    (hb : PacketBuffer.Valid b m') (hc : c = Utp.held b) :
    Received P a (n + 1) m' { s' with ackNr := (a + (n + 1)) % 65536 } := by
  obtain ⟨-, -, -, he1, he2⟩ : s'.ackNr = s.ackNr ∧ s'.eof = s.eof ∧ s'.eofSeqNr = s.eofSeqNr ∧ s'.inbuf = b ∧
      s'.bufferedIncomingBytes = c := by
    have := hd.same
    simpa only [ordering, Prod.mk.injEq] using this
  refine ⟨⟨⟨hd.flow.size, hd.flow.ok⟩, hd.flow.order⟩, rfl, ?_, ?_, ?_⟩
  · rw [payloads_succ, ← h.stream]
    exact hd.stream
  · exact he1.symm ▸ hb
  · exact he2.trans (hc.trans (he1 ▸ rfl))

/-- **The reorder buffer is emptied** as far as the packets follow each other. -/
theorem drain_spec (hP : ∀ i, (P i).length < 2 ^ 16) (now : Nat) {fuel : Nat} (h : Received P a n m s)
    (hR : Reorder P a (n + 1) top m) (hn : n ≤ top) (ht : top ≤ n + 512) (hf : PacketBuffer.stored m < fuel) :
    ∃ n' m', Received P a n' m' (s.drain now fuel) ∧ Reorder P a (n' + 2) top m' ∧ n ≤ n' ∧ n' ≤ top := by
  induction fuel generalizing s m n with
  | zero => exact absurd hf (not_lt_zero _)
  | succ fuel ih =>
    have hi : (a + (n + 1)) % 65536 < 65536 := mod_lt _ (by decide)
    obtain ⟨hv, hans⟩ := remove_spec h.inbuf hi (not_aliased_next h.inbuf hR ht)
    have hsum := mapSum_update (m := m) hi (fun p : Packet => p.size - p.headerSize) none
    have hcount := stored_update (m := m) hi none
    have hR' := hR.erase
    rw [← h.inbuf.slotSum_eq, ← hv.slotSum_eq] at hsum
    change held _ + _ = held s.inbuf + 0 at hsum
    rw [drain]
    dsimp only
    rw [next_eq h.ackNr, hans]
    cases hk : m ((a + (n + 1)) % 65536) with
    | none =>
      refine ⟨n, _, ⟨⟨⟨h.flow.size, h.flow.ok⟩, h.flow.order⟩, h.ackNr, h.stream, hv, ?_⟩, hR', le_refl n, hn⟩
      change s.bufferedIncomingBytes = _
      rw [h.held, ← add_zero (held s.inbuf), ← hsum, hk]
      rfl
    | some p =>
      obtain ⟨i, h1, h2, h3, rfl⟩ := hR.ne_none hk
      obtain rfl : i = n + 1 := by omega
      obtain ⟨hrest, hok⟩ := rest_ofPayload (hP (n + 1))
      have hlen := length_rest hok
      rw [hrest] at hlen
      have hlt := held_lt hP hR' hv
      have hc : Socket.Carries [] _ (some (.ofPayload (P (n + 1)))) (P (n + 1)) := ⟨hlen.symm, hP (n + 1), hrest, hok⟩
      have hd := incoming_delivers (s := { s with
          inbuf := (s.inbuf.remove ((a + (n + 1)) % 65536)).1
          bufferedIncomingBytes := int32 (s.bufferedIncomingBytes -
            ((ofPayload (P (n + 1))).size - (ofPayload (P (n + 1))).headerSize : Nat)) })
        ⟨⟨h.flow.size, h.flow.ok⟩, h.flow.order⟩ hc now
      rw [hk] at hsum hcount
      have hnext := h.deliver hd hv (by
        rw [h.held, ← int32_eq hlt]
        congr 1
        change _ + ((ofPayload (P (n + 1))).size - (ofPayload (P (n + 1))).headerSize) = _ at hsum
        omega)
      obtain ⟨n', m', hr, hR'', h4, h5⟩ := ih hnext hR' h2 (by omega) (by simp at hcount; omega)
      exact ⟨n', m', hr, hR'', by omega, h5⟩

theorem Received.move (h : Received P a n m s) (hd : Socket.Delivers s [] s') : Received P a n m s' := by
  obtain ⟨h1, -, -, h2, h3⟩ : s'.ackNr = s.ackNr ∧ s'.eof = s.eof ∧ s'.eofSeqNr = s.eofSeqNr ∧ s'.inbuf = s.inbuf ∧
      s'.bufferedIncomingBytes = s.bufferedIncomingBytes := by
    have := hd.same
    simpa only [ordering, Prod.mk.injEq] using this
  refine ⟨hd.flow, h1.trans h.ackNr, hd.stream.trans ?_, h2.symm ▸ h.inbuf, ?_⟩
  · rw [List.append_nil, h.stream]
  · rw [h3, h2, h.held]

section

variable (hP : ∀ i, (P i).length < 2 ^ 16)
include hP

theorem consume_next (now : Nat) (h : Received P a n m s) (hR : Reorder P a (n + 2) (n + 512) m) :
    ∃ n' m', Received P a n' m' (let s := s.incoming (P (n + 1)) (P (n + 1)).length none now
      let s := { s with ackNr := (s.ackNr + 1) &&& 0xffff }
      (s.drain now (s.inbuf.size + 1)).maybeTriggerReceiveCallback now) ∧
        Reorder P a (n' + 2) (n' + 512) m' ∧ n ≤ n' ∧ n' ≤ n + 512 := by
  have hd := incoming_delivers h.flow (.mk rfl (hP (n + 1)) rfl : Socket.Carries _ _ none _) now
  have hr := h.deliver hd h.inbuf h.held
  have hack : (s.incoming (P (n + 1)) (P (n + 1)).length none now).ackNr = s.ackNr := congrArg Prod.fst hd.same
  dsimp only
  rw [hack, next_eq h.ackNr]
  have hsize := hr.inbuf.size
  obtain ⟨n', m', h1, h2, h3, h4⟩ := drain_spec hP now hr hR (by omega : n + 1 ≤ n + 512)
    (by omega) (lt_succ_of_le (le_of_eq hsize.symm))
  refine ⟨n', m', h1.move (maybeTriggerReceiveCallback_delivers h1.flow now), fun k hk => ?_, by omega, h4⟩
  obtain ⟨i, h5, h6, h7⟩ := h2 k hk
  exact ⟨i, h5, by omega, h7⟩

theorem consume_ahead (h : Received P a n m s)
    (hR : Reorder P a (n + 2) (n + 512) m) (hlo : n + 2 ≤ i) (hhi : i ≤ n + 512)
    (hat : s.inbuf.atIdx ((a + i) % 65536) = none) (hp : ¬ s.inbuf.Overrun ((a + i) % 65536)) :
    ∃ m', Received P a n m' { s with
      inbuf := (s.inbuf.insert ((a + i) % 65536) (some (.ofPayload (P i)))).1
      bufferedIncomingBytes := int32 (s.bufferedIncomingBytes + (ofPayload (P i)).size) } ∧
        Reorder P a (n + 2) (n + 512) m' := by
  have hi : (a + i) % 65536 < 65536 := mod_lt _ (by decide)
  have hfree : m ((a + i) % 65536) = none := by
    by_contra hk
    exact hk ((atIdx_eq h.inbuf hi (not_aliased_of_stored h.inbuf hk)).symm.trans hat)
  have hw : PacketBuffer.InWindow m ((a + i) % 65536) := by
    refine ⟨(a + n) % 65536, mod_lt _ (by decide), fun k hk => ?_⟩
    rcases hk with rfl | hk
    · unfold gap
      omega
    · obtain ⟨j, h1, h2, rfl, -⟩ := hR k hk
      unfold gap
      omega
  obtain ⟨hv, -⟩ := insert_spec h.inbuf hi hw hp (.ofPayload (P i))
  have hR' : Reorder P a (n + 2) (n + 512) (update m ((a + i) % 65536) (some (.ofPayload (P i)))) := by
    intro k hk
    by_cases e : k = (a + i) % 65536
    · subst e
      exact ⟨i, hlo, hhi, rfl, update_self ..⟩
    · rw [update_of_ne e] at hk ⊢
      exact hR k hk
  have hsum := mapSum_update (m := m) hi (fun p : Packet => p.size - p.headerSize) (some (.ofPayload (P i)))
  rw [← h.inbuf.slotSum_eq, ← hv.slotSum_eq, hfree] at hsum
  refine ⟨_, ⟨⟨⟨h.flow.size, h.flow.ok⟩, h.flow.order⟩, h.ackNr, h.stream, hv, ?_⟩, hR'⟩
  change int32 _ = ((held _ : Nat) : Int)
  rw [h.held, ← int32_eq (held_lt hP hR' hv)]
  congr 1
  change held _ + 0 = held s.inbuf + (ofPayload (P i)).size at hsum
  omega

/-- **A packet** that was acknowledged before, as far as the socket can tell, or is one of the next 512. -/
theorem consume_spec (now : Nat) (h : Received P a n m s) (hR : Reorder P a (n + 2) (n + 512) m)
    (hp : compareLessWrap s.ackNr ((a + i) % 65536) 0xffff = false ∨ n < i ∧ i ≤ n + 512)
    (hc : s.stores ((a + i) % 65536) = true → ¬ s.inbuf.Overrun ((a + i) % 65536)) :
    ∃ n' m', Received P a n' m' (s.consumeIncomingData .data ((a + i) % 65536) (P i) now).1 ∧
      Reorder P a (n' + 2) (n' + 512) m' ∧ n ≤ n' ∧ n' ≤ n + 512 := by
  have hstay : ∃ n' m', Received P a n' m' s ∧ Reorder P a (n' + 2) (n' + 512) m' ∧ n ≤ n' ∧ n' ≤ n + 512 :=
    ⟨n, m, h, hR, le_refl n, le_add_right n 512⟩
  have hack := h.ackNr
  have hless : compareLessWrap s.ackNr ((a + i) % 65536) 0xffff = true ↔
      0 < gap s.ackNr ((a + i) % 65536) ∧ gap s.ackNr ((a + i) % 65536) < 32768 :=
    compareLessWrap_iff (hack ▸ mod_lt _ (by decide)) (mod_lt _ (by decide))
  unfold consumeIncomingData
  rw [if_neg (not_not.mpr rfl)]
  by_cases heof : s.eof = true ∧ s.ackNr = s.eofSeqNr
  · rw [if_pos heof]
    exact hstay
  rw [if_neg heof]
  by_cases hl : compareLessWrap s.ackNr ((a + i) % 65536) 0xffff = true
  · obtain ⟨hlo, hhi⟩ := hp.resolve_left (by rw [hl]; decide)
    by_cases hnext : (a + i) % 65536 = (s.ackNr + 1) &&& 0xffff
    · obtain rfl : i = n + 1 := by
        rw [next_eq hack] at hnext
        omega
      rw [if_pos hnext]
      exact consume_next hP now h hR
    rw [if_neg hnext, hl, if_neg (by decide)]
    by_cases hat : (s.inbuf.atIdx ((a + i) % 65536)).isSome = true
    · rw [if_pos hat]
      exact hstay
    rw [if_neg hat]
    have hne : i ≠ n + 1 := by
      rintro rfl
      exact hnext (next_eq hack).symm
    have hnone : s.inbuf.atIdx ((a + i) % 65536) = none := by simpa using hat
    have hstores : s.stores ((a + i) % 65536) = true := by
      unfold stores
      simp only [hl, hnone, Bool.and_true, isNone_none, Bool.and_eq_true, bne_iff_ne, ne_eq, hnext,
        not_false_eq_true, and_true, Bool.not_eq_true', Bool.and_eq_false_iff]
      by_cases he : s.eof = true
      · exact Or.inr (by simpa using fun e => heof ⟨he, e⟩)
      · exact Or.inl (by simpa using he)
    obtain ⟨m', h1, h2⟩ := consume_ahead hP h hR (by omega) hhi hnone (hc hstores)
    exact ⟨n, m', h1, h2, le_refl n, le_add_right n 512⟩
  · have hnext : ¬ (a + i) % 65536 = (s.ackNr + 1) &&& 0xffff := by
      intro he
      rw [next_eq hack] at he
      refine hl (hless.mpr ?_)
      rw [he, hack]
      unfold gap
      omega
    rw [if_neg hnext, if_pos (by simpa using hl)]
    exact hstay

end

end Stream

/-! ## Runs -/

/-- A socket beside the number of packets that have been acknowledged. -/
structure Link where
  sock : Socket
  acked : Nat

inductive Event where
  | packet (i now : Nat)
  | asyncRead (buffers : List Nat) (now : Nat)
  | read (buffers : List Nat)
  | tick (now : Nat)
  deriving DecidableEq, Repr

namespace Link

variable (P : Nat → List UInt8) (a : Nat)

def seqNr (i : Nat) : Nat := (a + i) % 65536

def react (s : Socket) : Event → Socket
  | .packet i now => (s.consumeIncomingData .data (seqNr a i) (P i) now).1
  | .asyncRead buffers now => s.asyncReadSome buffers now
  | .read buffers => s.readSomeNow buffers
  | .tick now => s.maybeTriggerReceiveCallback now

/-- The count follows `m_ack_nr` without wrapping. -/
def step (t : Link) (e : Event) : Link :=
  ⟨react P a t.sock e, t.acked + gap t.sock.ackNr (react P a t.sock e).ackNr⟩

/-- A packet has been acknowledged already, as far as its sequence number tells, or lies within `max_packets_reorder`.
Buffers of the user are as `add_read_buffer` asserts. -/
def Pre (t : Link) : Event → Prop
  | .packet i _ => compareLessWrap t.sock.ackNr (seqNr a i) 0xffff = false ∨ t.acked < i ∧ i ≤ t.acked + 512
  | .asyncRead buffers _ | .read buffers => ∀ len ∈ buffers, 0 < len ∧ len < 2 ^ 31 - 1
  | .tick _ => True

/-- A packet that goes into the reorder buffer does not wrap out of it, and a read finds a right count of kept bytes. -/
def Plain (t : Link) : Event → Prop
  | .packet i _ => t.sock.stores (seqNr a i) = true → ¬ t.sock.inbuf.Overrun (seqNr a i)
  | .asyncRead _ _ | .read _ => t.sock.kept.length < 2 ^ 31
  | .tick _ => True

/-- The bytes handed to the user and the kept ones are the payloads up to `m_ack_nr`; the bytes in the reorder buffer
are counted. -/
structure Exact (t : Link) : Prop where
  ackNr : t.sock.ackNr = (a + t.acked) % 65536
  bytes : t.sock.handed ++ t.sock.kept = payloads P t.acked
  held : t.sock.bufferedIncomingBytes = held t.sock.inbuf

def Inv (t : Link) : Prop :=
  ∃ m, Received P a t.acked m t.sock ∧ Reorder P a (t.acked + 2) (t.acked + 512) m

variable {P a} {t : Link}

theorem step_inv (hP : ∀ i, (P i).length < 2 ^ 16) {e : Event} (h : Inv P a t) (hp : Pre a t e) (hc : Plain a t e) :
    Inv P a (step P a t e) := by
  obtain ⟨m, hr, hR⟩ := h
  -- the count moves as far as `m_ack_nr`
  obtain ⟨n', m', hr', hR', h1, h2⟩ : ∃ n' m', Received P a n' m' (react P a t.sock e) ∧
      Reorder P a (n' + 2) (n' + 512) m' ∧ t.acked ≤ n' ∧ n' ≤ t.acked + 512 := by
    have hmove : ∀ s', Socket.Delivers t.sock [] s' → ∃ n' m', Received P a n' m' s' ∧
        Reorder P a (n' + 2) (n' + 512) m' ∧ t.acked ≤ n' ∧ n' ≤ t.acked + 512 :=
      fun s' hd => ⟨t.acked, m, hr.move hd, hR, le_refl _, le_add_right _ 512⟩
    cases e with
    | asyncRead buffers now => exact hmove _ (asyncReadSome_delivers hr.flow hc buffers now)
    | read buffers => exact hmove _ (readSomeNow_delivers hr.flow hc buffers)
    | tick now => exact hmove _ (maybeTriggerReceiveCallback_delivers hr.flow now)
    | packet i now => exact consume_spec hP now hr hR hp hc
  have hacked : (step P a t e).acked = n' := by
    change t.acked + gap t.sock.ackNr (react P a t.sock e).ackNr = n'
    rw [hr.ackNr, hr'.ackNr]
    unfold gap
    omega
  refine ⟨m', ?_, ?_⟩
  · rw [hacked]
    exact hr'
  · rw [hacked]
    exact hR'

instance (t : Link) (e : Event) : Decidable (Pre a t e) := by
  cases e <;> (dsimp only [Pre]; infer_instance)

instance (t : Link) (e : Event) : Decidable (Plain a t e) := by
  cases e <;> (dsimp only [Plain, PacketBuffer.Overrun]; infer_instance)

def new (a : Nat) (eof : Bool) (eofSeqNr : Nat) : Link := ⟨Socket.new a eof eofSeqNr, 0⟩

theorem inv_new (ha : a < 65536) (eof : Bool) (eofSeqNr : Nat) : Inv P a (new a eof eofSeqNr) :=
  ⟨fun _ => none, ⟨⟨⟨(int32_eq (by decide)).symm, fun p hp => by cases hp⟩, Or.inl rfl⟩,
    (mod_eq_of_lt ha).symm, rfl, valid_new, rfl⟩, fun k hk => absurd rfl hk⟩

theorem exact_of_inv (h : Inv P a t) : Exact P a t := by
  obtain ⟨m, hr, -⟩ := h
  exact ⟨hr.ackNr, hr.stream, hr.held⟩

/-- **uTP reassembly.** Along every run of packets and reads in which the reorder buffer grows when it has to and the
count of kept bytes does not overflow, the user gets the payloads in sequence order and once each. -/
theorem utp_reassembly (P : Nat → List UInt8) (hP : ∀ i, (P i).length < 2 ^ 16) (a : Nat) (ha : a < 65536) (eof : Bool)
    (eofSeqNr : Nat) (events : List Event) (hl : Legal (step P a) (Pre a) (new a eof eofSeqNr) events)
    (hc : Legal (step P a) (Plain a) (new a eof eofSeqNr) events) :
    Always (step P a) (Exact P a) (new a eof eofSeqNr) events :=
  (always_of_step (fun _ _ h hp => step_inv hP h hp.1 hp.2) (inv_new ha eof eofSeqNr) (hl.and hc)).mono
    fun _ => exact_of_inv

def bytePayload (i : Nat) : List UInt8 := [UInt8.ofNat (i % 255)]

/-- Packets across the wrap out of order and twice, with reads. -/
def shuffledRun : List Event :=
  [.packet 3 0, .packet 1 0, .asyncRead [2, 1] 0, .packet 3 1, .packet 2 1, .packet 1 2, .packet 4 2, .read [9],
    .tick 200]

theorem utp_reassembly_shuffledRun : Legal (step bytePayload 0xfffe) (Pre 0xfffe) (new 0xfffe false 0) shuffledRun ∧
    Always (step bytePayload 0xfffe) (Exact bytePayload 0xfffe) (new 0xfffe false 0) shuffledRun :=
  ⟨by decide +kernel, utp_reassembly bytePayload (fun _ => show 1 < 2 ^ 16 by decide) 0xfffe (by decide) false 0
    shuffledRun
    (by decide +kernel) (by decide +kernel)⟩

/-- Packet 259 gets the slot of packet 3 and is handed to the user in its place. -/
theorem packet_delivered_as_other : ∃ events, Legal (step bytePayload 0xff00) (Pre 0xff00) (new 0xff00 false 0) events ∧
    ¬ Exact bytePayload 0xff00 (run (step bytePayload 0xff00) (new 0xff00 false 0) events) :=
  ⟨[.packet 2 0, .packet 259 0, .packet 1 0], by decide +kernel, fun h => absurd h.bytes (by decide +kernel)⟩

end Link

end Libtorrent.Utp
