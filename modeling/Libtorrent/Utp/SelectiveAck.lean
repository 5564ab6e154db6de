import Libtorrent.Utp.InFlight

/-!
# What a selective ack removes

`parse_sack` takes out exactly the packets of the set bits that stand for sent numbers, unless it is misled
(`selective_ack_removes`). The loop compares with `m_seq_nr` only behind its first bit. If the ack number is the last
but one that has been sent, then the first bit stands for `m_seq_nr` itself, the loop goes on through numbers that have
not been sent, and `packet_buffer::remove` can take one of them for the packet that is outstanding.
-/

namespace Libtorrent.Utp

open Serial Run Option Nat PacketBuffer

/-- In a buffer of capacity `c` that has only the number `f`, a `remove` of `k` finds the slot of `f`. -/
def Hits (c f k : Nat) : Prop := k < f + c ∧ compareLessWrap k f 0xffff = false ∧ k % c = f % c

theorem PacketBuffer.remove_hits {V : Type} {b : PacketBuffer V} {m : Nat → Option V} {f k : Nat} (h : b.Valid m)
    (hf : m f ≠ none) (honly : ∀ j, m j ≠ none → j = f) : (b.remove k).2 ≠ none ↔ Hits b.capacity f k := by
  have hs : b.size ≠ 0 := fun he => hf (h.eq_none he f)
  have T := h.tabled hs
  obtain ⟨l, E⟩ := h.ends hs
  have hfirst : b.first = f := honly _ E.first
  have hcell : b.cell k ≠ none ↔ k % b.capacity = f % b.capacity := by
    rw [T.cell_eq]
    constructor
    · intro hne
      obtain ⟨j, hj, he⟩ := T.holds.owned _ hne
      rw [← honly j hj]
      exact he.symm
    · intro he
      rw [he, T.holds.stored f hf]
      exact hf
  unfold remove Hits
  rw [hfirst]
  split
  · rename_i hge
    exact iff_of_false (fun hn => hn rfl) fun hh => absurd hh.1 (not_lt.mpr hge)
  rename_i hge
  split
  · rename_i hless
    exact iff_of_false (fun hn => hn rfl) fun hh => absurd hless (by rw [hh.2.1]; exact Bool.false_ne_true)
  · rename_i hless
    rw [hcell]
    exact ⟨fun he => ⟨Nat.lt_of_not_le hge, Bool.eq_false_of_not_eq_true hless, he⟩, fun hh => hh.2.2⟩

namespace Sender

variable {s : Sender} {m : Nat → Option OutPacket} {f : Sender → Nat → Sender} {k : Nat}

variable {c g a seqNr : Nat} {mask : SackMask}

theorem Removes.foldl_hits (hf : Removes f) : ∀ {l : List Nat} {s : Sender} {m : Nat → Option OutPacket}, Sound s m →
    m g ≠ none → (∀ j, m j ≠ none → j = g) → s.outbuf.capacity = c → (∀ k ∈ l, k < 65536) →
    ((∃ k ∈ l, Hits c g k) → Sound (l.foldl f s) fun _ => none) ∧ ((∀ k ∈ l, ¬ Hits c g k) → Sound (l.foldl f s) m)
  | [], _, _, h, _, _, _, _ => ⟨fun ⟨_, hk, _⟩ => absurd hk List.not_mem_nil, fun _ => h⟩
  | k :: l, s, m, h, hg, honly, hc, hl => by
    have hl' : ∀ j ∈ l, j < 65536 := fun j hj => hl j (List.mem_cons_of_mem k hj)
    have hits := remove_hits (k := k) h.books.valid hg honly
    rw [hc] at hits
    have hc' : (f s k).outbuf.capacity = c := by rw [hf.outbuf, capacity_remove, hc]
    rw [List.foldl_cons]
    rcases hf.step_only h honly (hl k List.mem_cons_self) with ⟨hr, hs⟩ | ⟨hr, hs⟩
    · have hno : ¬ Hits c g k := fun hh => hits.mpr hh hr
      obtain ⟨h1, h2⟩ := Removes.foldl_hits hf hs hg honly hc' hl'
      refine ⟨fun ⟨j, hj, hh⟩ => h1 ?_, fun hn => h2 fun j hj => hn j (List.mem_cons_of_mem k hj)⟩
      rcases List.mem_cons.mp hj with rfl | hj
      · exact absurd hh hno
      · exact ⟨j, hj, hh⟩
    refine ⟨fun _ => ?_, fun hn => absurd (hits.mp hr) (hn k List.mem_cons_self)⟩
    exact (Removes.foldl_only hf (c := g) hs (fun j hj => absurd rfl hj) hl').elim id id

/-! ## Exactness -/

/-- The number has a packet in `m_outbuf`. -/
def Outstanding (s : Sender) (k : Nat) : Prop := ∃ p ∈ s.packets, p.seqNr = k

instance (s : Sender) (k : Nat) : Decidable (s.Outstanding k) :=
  inferInstanceAs (Decidable (∃ p ∈ s.packets, p.seqNr = k))

/-- The selective ack `mask` for the ack number `a` has a set bit for `k`, which has been sent. -/
def Acknowledges (mask : SackMask) (a seqNr k : Nat) : Prop :=
  ∃ i, (sackBits mask.bytes)[i]? = some true ∧ i + 2 < gap a seqNr ∧ k = (a + 2 + i) % 65536

/-- From `s` to `s'`, the packets that the selective ack acknowledges are removed, and no others. -/
def RemovesExactly (s s' : Sender) (a : Nat) (mask : SackMask) : Prop :=
  ∀ k, s'.Outstanding k ↔ s.Outstanding k ∧ ¬ Acknowledges mask a s.seqNr k

/-- Only the last number that has been sent is outstanding, behind the ack number `a`, and a set bit stands for a number
beyond the wrap that has its slot. -/
def Misled (s : Sender) (a : Nat) (mask : SackMask) : Prop :=
  gap a s.seqNr = 2 ∧ s.Outstanding ((a + 1) % 65536) ∧
    ∃ i, (sackBits mask.bytes)[i]? = some true ∧ s.outbuf.capacity ∣ i + 1 ∧ 65536 ≤ (a + 1) % 65536 + (i + 1)

theorem outstanding_iff (h : Sound s m) : s.Outstanding k ↔ m k ≠ none := by
  have hb := h.books
  constructor
  · rintro ⟨p, hp, rfl⟩
    obtain ⟨v, hv, he⟩ := List.mem_filterMap.mp hp
    obtain ⟨i, hi⟩ := List.getElem?_of_mem hv
    rw [show v = some p from he] at hi
    obtain ⟨k, hk, -⟩ := hb.valid.slot hi
    rw [(hb.packet k p hk).1, hk]
    exact some_ne_none p
  intro hne
  obtain ⟨p, hp⟩ := ne_none_iff_exists'.mp hne
  have hs : s.outbuf.size ≠ 0 := fun he => hne (hb.valid.eq_none he k)
  have T := hb.valid.tabled hs
  have hst := T.holds.stored k hne
  rw [hp, List.getD_eq_getElem?_getD] at hst
  have hmem : some p ∈ s.outbuf.storage := by
    cases hg : s.outbuf.storage[k % s.outbuf.capacity]? with
    | none =>
      rw [hg] at hst
      cases hst
    | some v =>
      rw [hg, getD_some] at hst
      rw [← hst]
      exact List.mem_of_getElem? hg
  exact ⟨p, List.mem_filterMap.mpr ⟨some p, hmem, rfl⟩, (hb.packet k p hp).1⟩

theorem mem_sackNumbers_iff (hs : seqNr < 65536) (hfar : 3 ≤ gap a seqNr) :
    k ∈ sackNumbers mask a seqNr ↔ Acknowledges mask a seqNr k := by
  rw [mem_sackNumbers hs]
  have hlen := length_sackBits mask.bytes
  have hmask := mask.length_lt
  constructor
  · rintro ⟨i, -, hbit, hi, rfl⟩
    refine ⟨i, hbit, ?_, rfl⟩
    unfold gap at *
    omega
  rintro ⟨i, hbit, hi, rfl⟩
  obtain ⟨hlt, -⟩ := List.getElem?_eq_some_iff.mp hbit
  refine ⟨i, by omega, hbit, ?_, rfl⟩
  unfold gap at *
  omega

theorem not_acknowledges (hnear : gap a seqNr ≤ 2) : ¬ Acknowledges mask a seqNr k := by
  rintro ⟨i, -, hi, -⟩
  omega

/-- A number behind the last one that has been sent finds its slot if it has wrapped and is a multiple of the capacity
away. -/
theorem hits_iff {i : Nat} (hg : g < 65536) (hi : i < 2040) (hc : ∃ e ≤ 15, c = 2 ^ e) :
    Hits c g ((g + 1 + i) % 65536) ↔ c ∣ i + 1 ∧ 65536 ≤ g + (i + 1) := by
  have hdvd := pow_dvd hc
  have hmod : (g + 1 + i) % 65536 % c = g % c ↔ c ∣ i + 1 := by
    rw [mod_mod_of_dvd _ hdvd, add_assoc, add_comm 1 i]
    constructor
    · intro he
      have : g + (i + 1) ≡ g + 0 [MOD c] := he
      exact (modEq_zero_iff_dvd).mp (Nat.ModEq.add_left_cancel' g this)
    · intro hd
      exact Nat.ModEq.add_left g ((modEq_zero_iff_dvd).mpr hd)
  have hless : compareLessWrap ((g + 1 + i) % 65536) g 0xffff = false := by
    refine Bool.eq_false_of_not_eq_true fun ht => ?_
    have := (compareLessWrap_iff (mod_lt _ (by decide)) hg).mp ht
    unfold gap at this
    omega
  unfold Hits
  rw [hmod]
  constructor
  · rintro ⟨hlt, -, hd⟩
    refine ⟨hd, ?_⟩
    have := le_of_dvd (succ_pos i) hd
    by_contra hn
    rw [mod_eq_of_lt (by omega)] at hlt
    omega
  · rintro ⟨hd, hw⟩
    exact ⟨by omega, hless, hd⟩

theorem foldl_heard_only (mask : SackMask) (h : Sound s m) (hgap : gap a s.seqNr = 2)
    (hm : m ((a + 1) % 65536) ≠ none) (honly : ∀ k, m k ≠ none → k = (a + 1) % 65536) :
    (Misled s a mask → Sound ((sackNumbers mask a s.seqNr).foldl heard s) fun _ => none) ∧
      (¬ Misled s a mask → Sound ((sackNumbers mask a s.seqNr).foldl heard s) m) := by
  have hseq := h.books.seq_lt
  have hsize : s.outbuf.size ≠ 0 := fun he => hm (h.books.valid.eq_none he _)
  have T := h.books.valid.tabled hsize
  have hlt : (a + 1) % 65536 < 65536 := mod_lt _ (by decide)
  have hl : ∀ k ∈ sackNumbers mask a s.seqNr, k < 65536 := fun _ => lt_of_mem_sackNumbers hseq
  have hmis : Misled s a mask ↔ ∃ k ∈ sackNumbers mask a s.seqNr, Hits s.outbuf.capacity ((a + 1) % 65536) k := by
    have hlen := length_sackBits mask.bytes
    have hmask := mask.length_lt
    constructor
    · rintro ⟨-, -, i, hbit, hd, hw⟩
      obtain ⟨hi, -⟩ := List.getElem?_eq_some_iff.mp hbit
      refine ⟨(a + 2 + i) % 65536, (mem_sackNumbers hseq).mpr ⟨i, by omega, hbit, ?_, rfl⟩, ?_⟩
      · unfold gap at *
        omega
      · rw [show (a + 2 + i) % 65536 = ((a + 1) % 65536 + 1 + i) % 65536 by omega]
        exact (hits_iff hlt (by omega) T.capacity).mpr ⟨hd, hw⟩
    · rintro ⟨k, hk, hh⟩
      obtain ⟨i, hi, hbit, -, rfl⟩ := (mem_sackNumbers hseq).mp hk
      rw [show (a + 2 + i) % 65536 = ((a + 1) % 65536 + 1 + i) % 65536 by omega] at hh
      obtain ⟨hd, hw⟩ := (hits_iff hlt hi T.capacity).mp hh
      exact ⟨hgap, (outstanding_iff h).mpr hm, i, hbit, hd, hw⟩
  obtain ⟨h1, h2⟩ := removes_heard.foldl_hits h hm honly rfl hl
  refine ⟨fun hh => h1 (hmis.mp hh), fun hn => h2 fun k hk hh => hn (hmis.mpr ⟨k, hk, hh⟩)⟩

theorem removesExactly_foldl (h : Sound s m) (hc : Cleared s.seqNr a m) :
    ∃ m', Sound ((sackNumbers mask a s.seqNr).foldl heard s) m' ∧
      ((∀ k, m' k ≠ none ↔ m k ≠ none ∧ ¬ Acknowledges mask a s.seqNr k) ↔ ¬ Misled s a mask) := by
  have hseq := h.books.seq_lt
  obtain ⟨hgap, hc | ⟨rfl, hedge⟩⟩ := hc
  · by_cases hfar : 3 ≤ gap a s.seqNr
    · refine ⟨_, sack_sent h hgap hfar, iff_of_true (fun k => ?_) fun hmis => by have := hmis.1; omega⟩
      rw [← mem_sackNumbers_iff hseq hfar]
      unfold without
      split_ifs with hk
      · exact iff_of_false (fun hn => hn rfl) fun hn => hn.2 hk
      · exact ⟨fun hn => ⟨hn, hk⟩, fun hn => hn.1⟩
    · have hnear : gap a s.seqNr ≤ 2 := by omega
      have hsame : ∀ k, m k ≠ none ↔ m k ≠ none ∧ ¬ Acknowledges mask a s.seqNr k := fun k =>
        ⟨fun hk => ⟨hk, not_acknowledges hnear⟩, fun hk => hk.1⟩
      have honly : ∀ k, m k ≠ none → k = (a + 1) % 65536 := fun k hk =>
        (only_of_cleared h.books.valid.bound hc hnear hk).1
      by_cases hm : m ((a + 1) % 65536) = none
      · -- nothing is outstanding
        have hnone : m = fun _ => none := by
          funext k
          by_contra hk
          exact hk (by rw [honly k hk]; exact hm)
        have hs' : Sound ((sackNumbers mask a s.seqNr).foldl heard s) m := by
          rcases removes_heard.foldl_only h honly (fun _ => lt_of_mem_sackNumbers hseq) with hs | hs
          · exact hs
          · rw [hnone]
            exact hs
        exact ⟨m, hs', iff_of_true hsame fun hmis => (outstanding_iff h).mp hmis.2.1 hm⟩
      · have htwo := (only_of_cleared h.books.valid.bound hc hnear hm).2
        obtain ⟨h1, h2⟩ := foldl_heard_only mask h htwo hm honly
        by_cases hmis : Misled s a mask
        · exact ⟨_, h1 hmis, iff_of_false (fun hall => (hall _).mpr ((hsame _).mp hm) rfl) fun hn => hn hmis⟩
        · exact ⟨m, h2 hmis, iff_of_true hsame hmis⟩
  · have hnear : gap s.seqNr s.seqNr ≤ 2 := by
      rw [gap_self]
      exact zero_le _
    refine ⟨m, sack_behind h hedge, iff_of_true (fun k => ⟨fun hk => ⟨hk, not_acknowledges hnear⟩, fun hk => hk.1⟩) ?_⟩
    intro hmis
    have := hmis.1
    rw [gap_self] at this
    cases this

theorem removesExactly_iff (sm : SocketManager) (h : Sound s m)
    (hc : Cleared s.seqNr a m) : RemovesExactly s (s.parseSack sm a mask.bytes) a mask ↔ ¬ Misled s a mask := by
  obtain ⟨m', hs, hiff⟩ := removesExactly_foldl h hc
  obtain ⟨-, -, m'', hs', hm⟩ := retains_parseSack sm hs
  rw [← hiff]
  refine forall_congr' fun k => ?_
  rw [outstanding_iff hs', outstanding_iff h, hm k]

/-- **Selective acks**: in every state of an opened socket, a selective ack for an ack number that `incoming_packet`
accepts removes exactly the packets that it acknowledges, unless it is misled. -/
theorem selective_ack_removes (sm : SocketManager) (link : LinkMtu) (nagle : Bool) (opening : Opening)
    (events : List SendEvent) (hl : Legal (step sm) (Pre sm) (opened sm link nagle opening) events) (type : PacketType)
    (ackNr : UInt16) (wndSize : UInt32) (earlier : List SackMask) (mask : SackMask)
    (hok : (run (step sm) (opened sm link nagle opening) events).ackTooHigh type ackNr.toNat = false) :
    let s := ((run (step sm) (opened sm link nagle opening) events).receiveAck ackNr wndSize).receiveSacks sm
      ackNr earlier
    RemovesExactly s (s.parseSack sm ackNr.toNat mask.bytes) ackNr.toNat mask ↔ ¬ Misled s ackNr.toNat mask := by
  obtain ⟨hst, m, hs⟩ := inv_run (open_step sm) (open_opened sm link nagle opening) hl
  obtain ⟨hst₁, m₁, hs₁, hc₁⟩ := receiveAck_spec hs hst wndSize hok
  obtain ⟨-, m₂, hs₂, hc₂⟩ := receiveSacks_spec sm earlier hs₁ hst₁ hc₁
  exact removesExactly_iff sm hs₂ hc₂

def threePackets : List SendEvent :=
  [.write [1], .sendPkt true 0, .write [2], .sendPkt true 0, .write [3], .sendPkt true 0]

/-- The socket with three packets, behind an ack of nothing. -/
def threeSent : Sender :=
  ((run (step idealManager) (opened idealManager ethernet false (.accept 0xfffe)) threePackets).receiveAck 0xfffd
    4000).receiveSacks idealManager 0xfffd []

theorem selective_ack_removes_threePackets :
    Legal (step idealManager) (Pre idealManager) (opened idealManager ethernet false (.accept 0xfffe)) threePackets ∧
      threeSent.Outstanding 0 ∧ RemovesExactly threeSent (threeSent.parseSack idealManager 0xfffd [2, 0, 0, 0]) 0xfffd
        ⟨[2, 0, 0, 0], by decide⟩ := by
  have hl : Legal (step idealManager) (Pre idealManager) (opened idealManager ethernet false (.accept 0xfffe))
      threePackets := by
    decide +kernel
  refine ⟨hl, by decide +kernel, ?_⟩
  refine (selective_ack_removes idealManager ethernet false (.accept 0xfffe) threePackets hl .state 0xfffd 4000 []
    ⟨[2, 0, 0, 0], by decide⟩ (by decide +kernel)).mpr fun h => absurd h.1 (by decide +kernel)

/-- The socket with one packet, `0xfff4`, behind an ack of nothing. -/
def oneSent : Sender :=
  ((run (step idealManager) (opened idealManager ethernet false (.accept 0xfff4))
    [.write [1], .sendPkt true 0]).receiveAck
    0xfff3 4000).receiveSacks idealManager 0xfff3 []

/-- The bit for the number 4, which has not been sent, removes the packet `0xfff4`. -/
theorem unsent_bit_removes_packet :
    Legal (step idealManager) (Pre idealManager) (opened idealManager ethernet false (.accept 0xfff4))
      [.write [1], .sendPkt true 0] ∧
    (run (step idealManager) (opened idealManager ethernet false (.accept 0xfff4))
      [.write [1], .sendPkt true 0]).ackTooHigh
      .state 0xfff3 = false ∧
    ¬ RemovesExactly oneSent (oneSent.parseSack idealManager 0xfff3 [0, 0x80]) 0xfff3 ⟨[0, 0x80], by decide⟩ := by
  refine ⟨by decide +kernel, by decide +kernel, fun h => ?_⟩
  have hbefore : oneSent.Outstanding 0xfff4 := by decide +kernel
  have hafter : ¬ (oneSent.parseSack idealManager 0xfff3 [0, 0x80]).Outstanding 0xfff4 := by decide +kernel
  exact hafter ((h 0xfff4).mpr ⟨hbefore, not_acknowledges (by decide +kernel)⟩)

end Sender

end Libtorrent.Utp
