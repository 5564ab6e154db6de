import Libtorrent.Utp.Books

/-!
# Acknowledged packets and packets that are sent again

An acknowledged number takes a packet out of the books (`Removes`): one after the other for an ack number
(`cumulativeAck_spec`), those of the set bits for a selective ack (`parseSack_spec`). Everything else that the socket
does with a packet that it has sent leaves the packets where they are (`Retains`). A packet size is never negative
because of what the search for the MTU keeps (`Limits`).
-/

namespace Libtorrent.Utp.Sender

open Serial List Function Nat OutPacket PacketBuffer

/-- What the search for the MTU keeps, and the size of the write buffer: there is room for a header in a packet, and a
probe is larger than what is known to fit. -/
structure Limits (mtu floor ceiling mtuSeq : Nat) (buffered : Int) : Prop where
  floor_ge : 500 ≤ floor
  floor_lt : floor < 65536
  ceiling_ge : 19 ≤ ceiling
  ceiling_lt : ceiling < 65536
  mtu_ge : 200 ≤ mtu
  mtu_lt : mtu < 65536
  probe : mtuSeq ≠ 0 → floor < mtu
  buffered : 0 ≤ buffered ∧ buffered < 2 ^ 31

structure Sound (s : Sender) (m : Nat → Option OutPacket) : Prop where
  books : Books s.outbuf s.seqNr s.ackedSeqNr s.bytesInFlight m
  limits : Limits s.mtu s.mtuFloor s.mtuCeiling s.mtuSeq s.writeBufferSize
  settled : Settled s.seqNr s.ackedSeqNr m

variable {s s' : Sender} {m m' : Nat → Option OutPacket} {p : OutPacket} {k seqNr : Nat} {l : List Nat}

theorem nextAck_eq (s : Sender) : s.nextAck = (s.ackedSeqNr + 1) % 65536 := and_ffff _

theorem Limits.update {floor : Nat} {buffered : Int} (hf : 500 ≤ floor) (hf' : floor < 65536) (ceiling : Nat)
    (hc : 19 ≤ ceiling) (hc' : ceiling < 65536) (hb : 0 ≤ buffered ∧ buffered < 2 ^ 31) :
    Limits ((floor + ceiling) / 2) floor ceiling 0 buffered :=
  ⟨hf, hf', hc, hc', by omega, by omega, fun hne => absurd rfl hne, hb⟩

/-! ## Passing numbers without a packet -/

theorem incLoop_eq : ∀ (fuel : Nat) (s : Sender),
    ∃ a f, incLoop fuel s = { s with ackedSeqNr := a, fastResendSeqNr := f }
  | 0, s => ⟨s.ackedSeqNr, s.fastResendSeqNr, rfl⟩
  | fuel + 1, s => by
    rw [incLoop]
    split
    · obtain ⟨a, f, h⟩ := incLoop_eq fuel _
      exact ⟨a, f, h⟩
    · exact ⟨s.ackedSeqNr, s.fastResendSeqNr, rfl⟩

theorem maybeIncAckedSeqNr_eq (s : Sender) : ∃ l d, s.maybeIncAckedSeqNr =
    { incLoop 0xffff s with lossSeqNr := l, duplicateAcks := d } := by
  unfold maybeIncAckedSeqNr
  dsimp only
  split
  · exact ⟨_, _, rfl⟩
  · exact ⟨_, _, rfl⟩

theorem incLoop_spec : ∀ (fuel : Nat) {s : Sender}, Books s.outbuf s.seqNr s.ackedSeqNr s.bytesInFlight m →
    gap s.ackedSeqNr s.seqNr ≤ fuel + 1 →
    Books s.outbuf s.seqNr (incLoop fuel s).ackedSeqNr s.bytesInFlight m ∧ Settled s.seqNr (incLoop fuel s).ackedSeqNr m
  | 0, s, h, hf => by
    refine ⟨h, Or.inr ?_⟩
    have hseq := h.seq_lt
    have hacked := h.acked_lt
    have hahead := h.ahead
    rw [incLoop]
    unfold gap at *
    omega
  | fuel + 1, s, h, hf => by
    have hseq := h.seq_lt
    have hacked := h.acked_lt
    have hahead := h.ahead
    have hw := h.window
    have hlook : (s.ackedSeqNr + 1) % 65536 ≠ s.seqNr →
        s.outbuf.atIdx ((s.ackedSeqNr + 1) % 65536) = m ((s.ackedSeqNr + 1) % 65536) := by
      intro hne
      refine h.atIdx_eq (mod_lt _ (by decide)) ?_ ?_
      · unfold gap
        omega
      · unfold gap at *
        omega
    rw [incLoop, nextAck_eq]
    split
    · rename_i hc
      have hm : m ((s.ackedSeqNr + 1) % 65536) = none := by
        rw [← hlook hc.1]
        exact Option.isNone_iff_eq_none.mp hc.2
      have hne := hc.1
      refine incLoop_spec _ (s := { s with ackedSeqNr := (s.ackedSeqNr + 1) % 65536, fastResendSeqNr := _ })
        (h.advance hne hm) ?_
      change gap ((s.ackedSeqNr + 1) % 65536) s.seqNr ≤ fuel + 1
      unfold gap at *
      omega
    · rename_i hc
      refine ⟨h, ?_⟩
      by_cases he : (s.ackedSeqNr + 1) % 65536 = s.seqNr
      · exact Or.inr he.symm
      · left
        intro hn
        exact hc ⟨he, by rw [hlook he, hn]; rfl⟩

theorem maybeIncAckedSeqNr_spec (h : Books s.outbuf s.seqNr s.ackedSeqNr s.bytesInFlight m)
    (hl : Limits s.mtu s.mtuFloor s.mtuCeiling s.mtuSeq s.writeBufferSize) : Sound s.maybeIncAckedSeqNr m := by
  obtain ⟨l, d, he⟩ := maybeIncAckedSeqNr_eq s
  obtain ⟨a, f, he'⟩ := incLoop_eq 0xffff s
  obtain ⟨h1, h2⟩ := incLoop_spec 0xffff h (le_of_lt (gap_lt _ _))
  rw [he'] at h1 h2
  rw [he, he']
  exact ⟨h1, hl, h2⟩

/-! ## Acknowledged packets -/

/-- Fields that no ack changes, whatever the packets are. -/
structure Kept (s s' : Sender) : Prop where
  seqNr : s'.seqNr = s.seqNr
  state : s'.state = s.state

theorem Kept.trans {s'' : Sender} (h : Kept s s') (h' : Kept s' s'') : Kept s s'' :=
  ⟨h'.seqNr.trans h.seqNr, h'.state.trans h.state⟩

theorem kept_maybeIncAckedSeqNr (s : Sender) : Kept s s.maybeIncAckedSeqNr ∧
    s.maybeIncAckedSeqNr.outbuf = s.outbuf := by
  obtain ⟨l, d, he⟩ := maybeIncAckedSeqNr_eq s
  obtain ⟨a, f, he'⟩ := incLoop_eq 0xffff s
  rw [he, he']
  exact ⟨⟨rfl, rfl⟩, rfl⟩

theorem kept_ackPacket (s : Sender) (p : OutPacket) (seqNr : Nat) :
    Kept s (s.ackPacket p seqNr) ∧ (s.ackPacket p seqNr).outbuf = s.outbuf := by
  unfold ackPacket landed
  have h : ∀ t : Sender, Kept s t ∧ t.outbuf = s.outbuf →
      Kept s t.maybeIncAckedSeqNr ∧ t.maybeIncAckedSeqNr.outbuf = s.outbuf := fun t ht =>
    ⟨ht.1.trans (kept_maybeIncAckedSeqNr t).1, (kept_maybeIncAckedSeqNr t).2.trans ht.2⟩
  apply h
  repeat' split
  all_goals exact ⟨⟨rfl, rfl⟩, rfl⟩

theorem ackPacket_spec (h : Books s.outbuf s.seqNr s.ackedSeqNr (s.bytesInFlight - p.flying) m)
    (hl : Limits s.mtu s.mtuFloor s.mtuCeiling s.mtuSeq s.writeBufferSize) (hp : p.Sized) (seqNr : Nat) :
    Sound (s.ackPacket p seqNr) m := by
  obtain ⟨hb, hl'⟩ : Books (s.landed p).outbuf (s.landed p).seqNr (s.landed p).ackedSeqNr (s.landed p).bytesInFlight m ∧
      Limits (s.landed p).mtu (s.landed p).mtuFloor (s.landed p).mtuCeiling (s.landed p).mtuSeq
        (s.landed p).writeBufferSize := by
    rw [flying_eq hp] at h
    unfold landed
    split_ifs with hr
    · rw [if_pos hr, Int.sub_zero] at h
      exact ⟨h, hl⟩
    · rw [if_neg hr] at h
      exact ⟨h, hl⟩
  unfold ackPacket
  dsimp only
  split
  · refine maybeIncAckedSeqNr_spec hb ?_
    obtain ⟨h1, h2, h3, h4, -, -, -, h5⟩ := hl'
    exact Limits.update (le_max_of_le_left h1) (max_lt h2 hp.2.2) _ h3 h4 h5
  · exact maybeIncAckedSeqNr_spec hb hl'

/-- A call that acknowledges a number: it takes out of the books what `remove` takes out of the buffer. -/
structure Removes (f : Sender → Nat → Sender) : Prop where
  kept : ∀ s k, Kept s (f s k)
  outbuf : ∀ s k, (f s k).outbuf = (s.outbuf.remove k).1
  sound : ∀ {s m m' k}, Sound s m → (s.outbuf.remove k).1.Valid m' → Books.Taken m m' (s.outbuf.remove k).2 →
    Sound (f s k) m'

theorem passFastResend_eq (s : Sender) (seqNr : Nat) : ∃ f,
    s.passFastResend seqNr = { s with fastResendSeqNr := f } := by
  unfold passFastResend
  split
  · exact ⟨_, rfl⟩
  · exact ⟨_, rfl⟩

theorem removePacket_eq (s : Sender) (k : Nat) : ∃ f, (s.passFastResend k).removePacket k =
    ({ s with outbuf := (s.outbuf.remove k).1, fastResendSeqNr := f }, (s.outbuf.remove k).2) := by
  obtain ⟨f, he⟩ := passFastResend_eq s k
  rw [he]
  exact ⟨f, rfl⟩

/-- The end of both loops over acknowledged numbers; `g` is for a number that has no packet. -/
theorem Removes.of_match {g : Sender → Sender} (hk : ∀ s, Kept s (g s) ∧ (g s).outbuf = s.outbuf)
    (hg : ∀ {s m}, Sound s m → Sound (g s) m) : Removes fun s k => match (s.passFastResend k).removePacket k with
      | (s, some p) => s.ackPacket p k
      | (s, none) => g s := by
  constructor
  · intro s k
    obtain ⟨f, he⟩ := removePacket_eq s k
    rw [he]
    rcases (s.outbuf.remove k).2 with _ | p
    · exact ⟨(hk _).1.seqNr, (hk _).1.state⟩
    · have := (kept_ackPacket { s with outbuf := (s.outbuf.remove k).1, fastResendSeqNr := f } p k).1
      exact ⟨this.seqNr, this.state⟩
  · intro s k
    obtain ⟨f, he⟩ := removePacket_eq s k
    rw [he]
    rcases (s.outbuf.remove k).2 with _ | p
    · exact (hk _).2
    · exact (kept_ackPacket _ _ _).2
  · intro s m m' k h hvalid ht
    have hbooks := h.books.take hvalid ht
    obtain ⟨f, he⟩ := removePacket_eq s k
    rw [he]
    cases hr : (s.outbuf.remove k).2 with
    | none =>
      rw [hr] at hbooks ht
      obtain rfl : m' = m := ht
      refine hg ⟨?_, h.limits, h.settled⟩
      simpa using hbooks
    | some p =>
      rw [hr] at hbooks ht
      obtain ⟨j, hj, -⟩ := ht
      exact (ackPacket_spec (s := { s with outbuf := (s.outbuf.remove k).1, fastResendSeqNr := f }) hbooks h.limits
        (h.books.packet j _ hj).2 k)

theorem removes_ackNumber : Removes ackNumber := by
  have h := Removes.of_match (fun s => ⟨⟨rfl, rfl⟩, rfl⟩) fun h => h
  convert h using 3 with s k
  unfold ackNumber
  rcases (s.passFastResend k).removePacket k with ⟨s', _ | p⟩
  · rfl
  · rfl

def heard (s : Sender) (k : Nat) : Sender := (sackBit ⟨s, 0, 0⟩ k).sender

theorem removes_heard : Removes heard := by
  have h := Removes.of_match kept_maybeIncAckedSeqNr fun h =>
    maybeIncAckedSeqNr_spec h.books h.limits
  convert h using 3 with s k
  unfold heard sackBit
  dsimp only
  rcases (s.passFastResend k).removePacket k with ⟨s', _ | p⟩
  · rfl
  · rfl

def without (m : Nat → Option OutPacket) (l : List Nat) : Nat → Option OutPacket := fun k => if k ∈ l then none else m k

theorem without_cons (m : Nat → Option OutPacket) (k : Nat) (l : List Nat) :
    without (Function.update m k none) l = without m (k :: l) := by
  funext j
  unfold without
  rcases eq_or_ne j k with rfl | hne
  · simp
  · simp [hne]

variable {f : Sender → Nat → Sender}

theorem Removes.foldl_kept (hf : Removes f) : ∀ (l : List Nat) (s : Sender), Kept s (l.foldl f s)
  | [], _ => ⟨rfl, rfl⟩
  | k :: l, s => (hf.kept s k).trans (Removes.foldl_kept hf l (f s k))

theorem Removes.foldl_sent (hf : Removes f) : ∀ {l : List Nat} {s : Sender} {m : Nat → Option OutPacket}, Sound s m →
    (∀ k ∈ l, k < 65536 ∧ 0 < gap k s.seqNr ∧ gap k s.seqNr < 0x8000) → Sound (l.foldl f s) (without m l)
  | [], _, m, h, _ => by
    have : without m [] = m := by
      funext j
      simp [without]
    rw [this]
    exact h
  | k :: l, s, m, h, hl => by
    obtain ⟨hk, h0, h1⟩ := hl k mem_cons_self
    obtain ⟨hvalid, ht⟩ := h.books.taken_of_not_aliased hk (h.books.not_aliased hk h0 h1)
    have hs := hf.sound h hvalid ht
    rw [foldl_cons, ← without_cons]
    refine Removes.foldl_sent hf hs fun j hj => ?_
    rw [(hf.kept s k).seqNr]
    exact hl j (mem_cons_of_mem k hj)

theorem Removes.step_only (hf : Removes f) {c k : Nat} {s : Sender} {m : Nat → Option OutPacket} (h : Sound s m)
    (honly : ∀ j, m j ≠ none → j = c) (hk : k < 65536) : (s.outbuf.remove k).2 = none ∧ Sound (f s k) m ∨
      (s.outbuf.remove k).2 ≠ none ∧ Sound (f s k) fun _ => none := by
  rcases remove_only h.books.valid honly hk with ⟨hr, hvalid⟩ | ⟨v, hv, hr, hvalid⟩
  · exact .inl ⟨hr, hf.sound h hvalid (by rw [hr]; rfl)⟩
  refine .inr ⟨by simp [hr], hf.sound h hvalid ?_⟩
  rw [hr]
  exact ⟨c, hv, (update_only honly).symm⟩

theorem Removes.foldl_only (hf : Removes f) {c : Nat} : ∀ {l : List Nat} {s : Sender} {m : Nat → Option OutPacket},
    Sound s m →
    (∀ j, m j ≠ none → j = c) → (∀ k ∈ l, k < 65536) → Sound (l.foldl f s) m ∨ Sound (l.foldl f s) fun _ => none
  | [], s, m, h, _, _ => Or.inl h
  | k :: l, s, m, h, honly, hl => by
    have hl' : ∀ j ∈ l, j < 65536 := fun j hj => hl j (mem_cons_of_mem k hj)
    rw [foldl_cons]
    rcases hf.step_only h honly (hl k mem_cons_self) with ⟨-, hs⟩ | ⟨-, hs⟩
    · exact Removes.foldl_only hf hs honly hl'
    · exact .inr ((Removes.foldl_only hf (c := c) hs (fun j hj => absurd rfl hj) hl').elim id id)

theorem Removes.foldl_behind (hf : Removes f) : ∀ {l : List Nat} {s : Sender} {m : Nat → Option OutPacket}, Sound s m →
    (∀ k ∈ l, compareLessWrap k s.outbuf.first 0xffff = true) → Sound (l.foldl f s) m
  | [], _, _, h, _ => h
  | k :: l, s, m, h, hl => by
    have hr : s.outbuf.remove k = (s.outbuf, none) := by
      unfold remove
      rw [if_pos (hl k mem_cons_self), ite_self]
    have hs : Sound (f s k) m := by
      refine hf.sound h ?_ ?_
      · rw [hr]
        exact h.books.valid
      · rw [hr]
        rfl
    rw [foldl_cons]
    refine Removes.foldl_behind hf hs fun j hj => ?_
    rw [hf.outbuf, hr]
    exact hl j (mem_cons_of_mem k hj)

/-! ## Packets that are sent again or given up -/

/-- The socket still has the packets that it had, perhaps changed. -/
def Retains (s : Sender) (m : Nat → Option OutPacket) (s' : Sender) : Prop :=
  (s.state ≠ .none → s'.state ≠ .none) ∧ s'.seqNr = s.seqNr ∧
    ∃ m', Sound s' m' ∧ ∀ k, m' k ≠ none ↔ m k ≠ none

theorem Retains.of_sound (h : Sound s' m) (hst : s.state ≠ .none → s'.state ≠ .none) (hseq : s'.seqNr = s.seqNr) :
    Retains s m s' :=
  ⟨hst, hseq, m, h, fun _ => Iff.rfl⟩

theorem Retains.trans {s'' : Sender} (h : Retains s m s') (h' : ∀ m', Sound s' m' → Retains s' m' s'') :
    Retains s m s'' := by
  obtain ⟨hst, hseq, m', hs, hm⟩ := h
  obtain ⟨hst', hseq', m'', hs', hm'⟩ := h' m' hs
  exact ⟨fun hne => hst' (hst hne), hseq'.trans hseq, m'', hs', fun k => (hm' k).trans (hm k)⟩

theorem retains_passFastResend (h : Sound s m) (seqNr : Nat) : Retains s m (s.passFastResend seqNr) := by
  obtain ⟨f, he⟩ := passFastResend_eq s seqNr
  rw [he]
  exact .of_sound ⟨h.books, h.limits, h.settled⟩ id rfl

theorem retains_fail (h : Sound s m) : Retains s m s.fail :=
  .of_sound ⟨h.books, h.limits, h.settled⟩ (fun _ hn => SocketState.noConfusion hn) rfl

section Manager

variable (sm : SocketManager)

theorem retains_transmit (h : Sound s m) : Retains s m (s.transmit sm).1 := by
  unfold transmit
  split
  · exact .of_sound ⟨h.books, h.limits, h.settled⟩ id rfl
  · exact .of_sound ⟨h.books, h.limits, h.settled⟩ (fun _ hn => SocketState.noConfusion hn) rfl

theorem retains_experiencedLoss (h : Sound s m) (seqNr : Nat) : Retains s m (s.experiencedLoss sm seqNr) := by
  unfold experiencedLoss
  split
  · exact .of_sound h id rfl
  · exact .of_sound ⟨h.books, h.limits, h.settled⟩ id rfl

variable {idx : Nat}

/-- The packet that `at` has found is changed, and the bytes in flight with it. -/
theorem retains_through (h : Sound s m) (p' : OutPacket) (hat : s.outbuf.atIdx idx = some p)
    (hseq : p'.seqNr = p.seqNr) (hheader : p'.headerSize = p.headerSize) (hsize : p'.size = p.size) :
    p.Sized ∧ ∀ bytes, bytes = s.bytesInFlight + p'.flying - p.flying →
      Retains s m { s with outbuf := s.outbuf.through idx p', bytesInFlight := bytes } := by
  obtain ⟨hp, m', hbooks, hiff⟩ := h.books.change hat hseq hheader hsize
  refine ⟨hp, fun bytes he => ⟨id, rfl, m', ⟨?_, h.limits, h.settled.congr hiff⟩, hiff⟩⟩
  rw [he]
  exact hbooks

theorem retains_retransmit (h : Sound s m) (hat : s.outbuf.atIdx idx = some p) : Retains s m (s.retransmit idx p) := by
  obtain ⟨hp, hr⟩ := retains_through h { p with
    numTransmissions := (p.numTransmissions + 1) % 64
    needResend := false } hat rfl rfl rfl
  refine hr _ ?_
  have hp' : ({ p with numTransmissions := (p.numTransmissions + 1) % 64, needResend := false } : OutPacket).Sized := hp
  rw [flying_eq hp, flying_eq hp']
  cases p.needResend
  · simp [bytes]
  · simp [bytes]

theorem retains_probeLost (h : Sound s m) (hat : s.outbuf.atIdx idx = some p) (fastResend : Bool) :
    Retains s m (s.probeLost p fastResend) := by
  obtain ⟨hp, -⟩ := retains_through h p hat rfl rfl rfl
  unfold probeLost
  split
  · have h1 := h.limits
    have h2 := hp.1
    have h3 := hp.2.1
    have h4 := hp.2.2
    exact .of_sound ⟨h.books, Limits.update h1.floor_ge h1.floor_lt (p.size - 1) (by omega) (by omega) h1.buffered,
      h.settled⟩ id rfl
  · exact .of_sound h id rfl

theorem probeLost_outbuf (s : Sender) (p : OutPacket) (fastResend : Bool) :
    (s.probeLost p fastResend).outbuf = s.outbuf := by
  unfold probeLost
  split
  · rfl
  · rfl

theorem retains_resendPacket (h : Sound s m) (hat : s.outbuf.atIdx idx = some p) (fastResend : Bool) :
    Retains s m (s.resendPacket sm idx p fastResend).1 := by
  unfold resendPacket
  dsimp only
  refine (retains_probeLost h hat fastResend).trans fun m' h' => ?_
  split
  · exact .of_sound h' id rfl
  · rw [← probeLost_outbuf s p fastResend] at hat
    exact (retains_retransmit h' hat).trans fun m'' h'' => retains_transmit sm h''

theorem retains_resendLoop : ∀ (l : List Nat) {s : Sender} {m : Nat → Option OutPacket}, Sound s m →
    Retains s m (resendLoop sm l s).1
  | [], _, _, h => .of_sound h id rfl
  | i :: is, s, m, h => by
    rw [resendLoop]
    split
    · exact retains_resendLoop is h
    rename_i hat
    split
    · exact retains_resendLoop is h
    have hr := retains_resendPacket sm h hat false
    split
    · rename_i heq
      rw [heq] at hr
      exact hr
    · rename_i heq
      rw [heq] at hr
      exact hr.trans fun m' h' => (retains_passFastResend h' i).trans fun m'' h'' => retains_resendLoop is h''

theorem Sound.setFastResend (h : Sound s m) (f d : Nat) : Sound { s with fastResendSeqNr := f, duplicateAcks := d } m :=
  ⟨h.books, h.limits, h.settled⟩

theorem retains_fastResendLoop : ∀ (l : List Nat) (numResent : Nat) {s : Sender} {m : Nat → Option OutPacket},
    Sound s m →
    Retains s m (fastResendLoop sm l numResent s)
  | [], _, _, _, h => .of_sound h id rfl
  | i :: is, n, s, m, h => by
    rw [fastResendLoop]
    split
    · exact (Retains.of_sound (h.setFastResend ((i + 1) &&& 0xffff) s.duplicateAcks) id rfl).trans fun m' h' =>
        retains_fastResendLoop is n h'
    rename_i hat
    have hr := retains_resendPacket sm h hat true
    split
    · rename_i heq
      rw [heq] at hr
      exact hr
    rename_i s' heq
    rw [heq] at hr
    split
    · exact hr.trans fun m' h' => .of_sound (h'.setFastResend s'.fastResendSeqNr 0) id rfl
    · exact hr.trans fun m' h' => (Retains.of_sound (h'.setFastResend _ 0) id rfl).trans fun m'' h'' =>
        retains_fastResendLoop is (n + 1) h''

theorem retains_fastResend {t : Sack} (h : Sound t.sender m) : Retains t.sender m (fastResend sm t) := by
  unfold fastResend
  dsimp only
  split
  · exact (retains_experiencedLoss sm h _).trans fun m' h' => retains_fastResendLoop sm _ 0 h'
  · exact .of_sound h id rfl

theorem retains_resendLost (h : Sound s m) : Retains s m (s.resendLost sm) := by
  unfold resendLost
  split
  · split
    · exact .of_sound ⟨h.books, h.limits, h.settled⟩ id rfl
    · rename_i p hat
      have hr : Retains s m ((s.experiencedLoss sm s.fastResendSeqNr).resendPacket sm s.fastResendSeqNr p true).1 := by
        refine (retains_experiencedLoss sm h _).trans fun m' h' => retains_resendPacket sm h' ?_ true
        unfold experiencedLoss
        split
        · exact hat
        · exact hat
      dsimp only
      split
      · exact hr
      · exact hr.trans fun m' h' => .of_sound ⟨h'.books, h'.limits, h'.settled⟩ id rfl
  · exact .of_sound h id rfl

theorem retains_markLost (h : Sound s m) (i : Nat) : Retains s m (s.markLost i) := by
  unfold markLost
  split
  · exact .of_sound h id rfl
  rename_i p hat
  split_ifs with hn
  · exact .of_sound h id rfl
  obtain ⟨hp, hr⟩ := retains_through h { p with needResend := true } hat rfl rfl rfl
  refine hr _ ?_
  rw [flying_eq hp, if_neg hn]
  simp [flying]

theorem retains_markLost_foldl : ∀ (l : List Nat) {s : Sender} {m : Nat → Option OutPacket}, Sound s m →
    Retains s m (l.foldl markLost s)
  | [], _, _, h => .of_sound h id rfl
  | i :: is, _, _, h => (retains_markLost h i).trans fun _ h' => retains_markLost_foldl is h'

end Manager

/-! ## The ack number -/

/-- What is left after the ack number `a` of a packet: the packets behind it. In the second case the ack number is the
next number to send and more packets are kept than `compare_less_wrap` can see. -/
def Cleared (seqNr a : Nat) (m : Nat → Option OutPacket) : Prop :=
  gap a seqNr ≤ 0x8001 ∧
    ((∀ k, m k ≠ none → 0 < gap a k ∧ gap a k < gap a seqNr) ∨ a = seqNr ∧ m ((seqNr + 0x8001) % 65536) ≠ none)

variable {a : Nat} {mask : SackMask}

theorem Cleared.congr (h : Cleared seqNr a m) (hm : ∀ k, m' k ≠ none ↔ m k ≠ none) : Cleared seqNr a m' :=
  ⟨h.1, h.2.imp (fun h1 k hk => h1 k ((hm k).mp hk)) fun h2 => ⟨h2.1, (hm _).mpr h2.2⟩⟩

theorem gap_le_of_ackTooHigh {type : PacketType} (ha : a < 65536) (hs : s.seqNr < 65536) (hst : s.state ≠ .none)
    (hok : s.ackTooHigh type a = false) : gap a s.seqNr ≤ 0x8001 := by
  have hcmp : ∀ c < 65536, compareLessWrap c a 0xffff = false → gap a c ≤ 32768 := by
    intro c hc hf
    by_contra hgt
    have : compareLessWrap c a 0xffff = true := (compareLessWrap_iff hc ha).mpr (by unfold gap at *; omega)
    rw [this] at hf
    cases hf
  unfold ackTooHigh at hok
  rw [decide_eq_true hst, Bool.true_and] at hok
  split at hok
  · exact (hcmp _ hs hok).trans (by decide)
  rw [sub32_and_ffff (by decide) hs] at hok
  have := hcmp _ (gap_lt 1 s.seqNr) hok
  unfold gap at *
  omega

theorem mem_acked (h : s.ackedSeqNr < 65536) (hd : 0 < gap s.ackedSeqNr a) : k ∈ numbers s.nextAck ((a + 1) % 65536) ↔
      k < 65536 ∧ 0 < gap s.ackedSeqNr k ∧ gap s.ackedSeqNr k ≤ gap s.ackedSeqNr a := by
  rw [nextAck_eq, mem_numbers (mod_lt _ (by decide))]
  refine and_congr_right fun hk => ?_
  unfold gap at *
  omega

theorem cumulativeAck_spec (h : Sound s m) (hst : s.state ≠ .none) (ha : a < 65536) (hgap : gap a s.seqNr ≤ 0x8001) :
    Kept s (s.cumulativeAck a) ∧ ∃ m', Sound (s.cumulativeAck a) m' ∧ Cleared s.seqNr a m' ∧ ∀ k, m' k ≠ none →
      m k ≠ none := by
  have hseq := h.books.seq_lt
  have hacked := h.books.acked_lt
  have hahead := h.books.ahead
  have hw := h.books.window
  unfold cumulativeAck
  rw [and_ffff]
  split_ifs with hc
  · obtain ⟨h0, h1⟩ := (compareLessWrap_iff hacked ha).mp hc.2
    set l := numbers s.nextAck ((a + 1) % 65536) with hl
    refine ⟨(removes_ackNumber.foldl_kept l s).trans (kept_maybeIncAckedSeqNr _).1, ?_⟩
    have hle : gap s.ackedSeqNr a ≤ gap s.ackedSeqNr s.seqNr := by
      unfold gap at *
      omega
    have hmem := fun k => mem_acked (k := k) hacked h0
    rw [← hl] at hmem
    -- the packets behind the ack number
    have hclear : ∀ k, without m l k ≠ none → m k ≠ none ∧ gap s.ackedSeqNr a < gap s.ackedSeqNr k := by
      intro k hk
      unfold without at hk
      split at hk
      · exact absurd rfl hk
      rename_i hn
      refine ⟨hk, ?_⟩
      by_contra hge
      exact hn ((hmem k).mpr ⟨h.books.valid.bound k hk, (h.books.sent k hk).1, Nat.le_of_not_lt hge⟩)
    have hsound : Sound (l.foldl ackNumber s) (without m l) := by
      rcases Nat.lt_or_eq_of_le hle with hlt | heq
      · refine removes_ackNumber.foldl_sent h fun k hk => ?_
        obtain ⟨hk, hk0, hk1⟩ := (hmem k).mp hk
        refine ⟨hk, ?_⟩
        unfold gap at *
        omega
      -- an answer to the SYN may acknowledge the next number; nothing is left to be misled then
      have has : a = s.seqNr := gap_inj hacked ha hseq heq
      have hsplit : l = numbers s.nextAck s.seqNr ++ [s.seqNr] := by
        rw [hl, has]
        refine numbers_succ (by rw [nextAck_eq]; exact mod_lt _ (by decide)) hseq ?_
        rw [nextAck_eq]
        unfold gap at *
        omega
      have hnone : ∀ k, without m (numbers s.nextAck s.seqNr) k = none := by
        intro k
        unfold without
        split_ifs with hn
        · rfl
        by_contra hk
        have hkt := h.books.valid.bound k hk
        have hsent := h.books.sent k hk
        refine hn ((mem_numbers (by rw [nextAck_eq]; exact mod_lt _ (by decide))).mpr ⟨hkt, ?_⟩)
        rw [nextAck_eq]
        unfold gap at *
        omega
      have hfirst : Sound ((numbers s.nextAck s.seqNr).foldl ackNumber s) (without m (numbers s.nextAck s.seqNr)) := by
        refine removes_ackNumber.foldl_sent h fun k hk => ?_
        rw [mem_numbers (by rw [nextAck_eq]; exact mod_lt _ (by decide)), nextAck_eq] at hk
        obtain ⟨hk, hlt⟩ := hk
        refine ⟨hk, ?_⟩
        unfold gap at *
        omega
      have hwithout : without m l = update (without m (numbers s.nextAck s.seqNr)) s.seqNr none := by
        funext k
        by_contra hne
        have hu : update (without m (numbers s.nextAck s.seqNr)) s.seqNr none k = none := by
          rcases eq_or_ne k s.seqNr with rfl | hk
          · exact update_self ..
          · rw [update_of_ne hk, hnone]
        rw [hu] at hne
        have := (hclear k hne).2
        have := (h.books.sent k (hclear k hne).1).2
        omega
      obtain ⟨hvalid, ht⟩ := hfirst.books.taken_of_not_aliased hseq (not_aliased_of_empty hfirst.books.valid hnone)
      have := removes_ackNumber.sound hfirst hvalid ht
      rw [hwithout, hsplit, foldl_append]
      exact this
    refine ⟨_, maybeIncAckedSeqNr_spec hsound.books hsound.limits, ⟨hgap, Or.inl fun k hk => ?_⟩, fun k hk =>
      (hclear k hk).1⟩
    obtain ⟨hm, hlt⟩ := hclear k hk
    have hsent := h.books.sent k hm
    have hkt := h.books.valid.bound k hm
    unfold gap at *
    omega
  · refine ⟨⟨rfl, rfl⟩, m, h, ⟨hgap, ?_⟩, fun _ hk => hk⟩
    have hn : ¬ (0 < gap s.ackedSeqNr a ∧ gap s.ackedSeqNr a < 32768) := fun hlt =>
      hc ⟨hst, (compareLessWrap_iff hacked ha).mpr hlt⟩
    by_cases hedge : a = s.seqNr ∧ gap s.ackedSeqNr s.seqNr = 0x8000
    · right
      refine ⟨hedge.1, ?_⟩
      have hnext : (s.seqNr + 0x8001) % 65536 = (s.ackedSeqNr + 1) % 65536 := by
        have := hedge.2
        unfold gap at *
        omega
      rw [hnext]
      refine h.settled.resolve_right fun he => ?_
      have := hedge.2
      omega
    · left
      intro k hk
      have hsent := h.books.sent k hk
      have hkt := h.books.valid.bound k hk
      unfold gap at *
      omega

/-! ## Selective acks -/

/-- The numbers of the set bits that the loop of `parse_sack` gets to. -/
def heardNumbers : List Bool → Nat → (seqNr : Nat) → List Nat
  | [], _, _ => []
  | bit :: bits, a, seqNr =>
    (if bit then [a] else []) ++ if (a + 1) % 65536 = seqNr then [] else heardNumbers bits ((a + 1) % 65536) seqNr

theorem sackLoop_sender : ∀ (bits : List Bool) (a : Nat) (t : Sack),
    (sackLoop bits a t).sender = (heardNumbers bits a t.sender.seqNr).foldl heard t.sender
  | [], _, _ => rfl
  | bit :: bits, a, t => by
    rw [sackLoop, heardNumbers, and_ffff]
    have hseq : (if bit then sackBit t a else t).sender.seqNr = t.sender.seqNr := by
      cases bit
      · rfl
      · exact (removes_heard.kept t.sender a).seqNr
    have hone : (if bit then sackBit t a else t).sender = (if bit then [a] else []).foldl heard t.sender := by
      cases bit
      · rfl
      · rfl
    rw [hseq, foldl_append, ← hone]
    split
    · rfl
    · rw [sackLoop_sender bits _ _, hseq]

/-- The loop gets to the bits in front of the next number to send, counted from the number behind the first. -/
theorem mem_heardNumbers {seqNr : Nat} (hs : seqNr < 65536) : ∀ {bits : List Bool} {a : Nat}, a < 65536 →
    (k ∈ heardNumbers bits a seqNr ↔ ∃ i, bits[i]? = some true ∧ i ≤ gap ((a + 1) % 65536) seqNr ∧ k = (a + i) % 65536)
  | [], a, _ => by simp [heardNumbers]
  | bit :: bits, a, ha => by
    have hfirst : k ∈ (if bit then [a] else []) ↔ bit = true ∧ k = a := by
      cases bit <;> simp
    rw [heardNumbers, mem_append, hfirst]
    constructor
    · rintro (⟨rfl, rfl⟩ | h)
      · exact ⟨0, rfl, zero_le _, (mod_eq_of_lt ha).symm⟩
      · split at h
        · cases h
        · rename_i hne
          obtain ⟨i, hbit, hi, rfl⟩ := (mem_heardNumbers hs (mod_lt _ (by decide))).mp h
          refine ⟨i + 1, hbit, ?_, by omega⟩
          unfold gap at *
          omega
    rintro ⟨i, hbit, hi, hk⟩
    cases i with
    | zero =>
      left
      exact ⟨Option.some.inj hbit, hk.trans (mod_eq_of_lt ha)⟩
    | succ i =>
      right
      rw [if_neg (by unfold gap at hi; omega)]
      refine (mem_heardNumbers hs (mod_lt _ (by decide))).mpr ⟨i, hbit, ?_, by omega⟩
      unfold gap at *
      omega

theorem length_sackBits : ∀ mask : List UInt8, (sackBits mask).length = 8 * mask.length
  | [] => rfl
  | b :: mask => by
    have := length_sackBits mask
    unfold sackBits at *
    rw [flatMap_cons, length_append, this, length_map, length_range, length_cons]
    omega

/-- The numbers of a selective ack for the ack number `a`. -/
def sackNumbers (mask : SackMask) (a seqNr : Nat) : List Nat :=
    heardNumbers (sackBits mask.bytes) ((a + 2) % 65536) seqNr

variable {a seqNr : Nat}

theorem mem_sackNumbers (hs : seqNr < 65536) : k ∈ sackNumbers mask a seqNr ↔
    ∃ i < 2040, (sackBits mask.bytes)[i]? = some true ∧ i ≤ gap ((a + 3) % 65536) seqNr ∧ k = (a + 2 + i) % 65536 := by
  unfold sackNumbers
  rw [mem_heardNumbers hs (mod_lt _ (by decide))]
  have hlen := length_sackBits mask.bytes
  have hmask := mask.length_lt
  constructor
  · rintro ⟨i, hbit, hi, rfl⟩
    obtain ⟨hlt, -⟩ := List.getElem?_eq_some_iff.mp hbit
    exact ⟨i, by omega, hbit, by unfold gap at *; omega, by omega⟩
  · rintro ⟨i, -, hbit, hi, rfl⟩
    exact ⟨i, hbit, by unfold gap at *; omega, by omega⟩

theorem lt_of_mem_sackNumbers (hs : seqNr < 65536) (hk : k ∈ sackNumbers mask a seqNr) : k < 65536 := by
  obtain ⟨i, -, -, -, rfl⟩ := (mem_sackNumbers hs).mp hk
  exact mod_lt _ (by decide)

/-- The set bits of a selective ack behind the ack number `a`. If the ack number is not among the last, all of them
stand for numbers that have been sent. -/
theorem sack_sent (h : Sound s m) (hgap : gap a s.seqNr ≤ 0x8001) (hfar : 3 ≤ gap a s.seqNr) :
    Sound ((sackNumbers mask a s.seqNr).foldl heard s) (without m (sackNumbers mask a s.seqNr)) := by
  have hseq := h.books.seq_lt
  refine removes_heard.foldl_sent h fun k hk => ?_
  obtain ⟨i, hi, hbit, hle, rfl⟩ := (mem_sackNumbers hseq).mp hk
  refine ⟨mod_lt _ (by decide), ?_⟩
  unfold gap at *
  omega

theorem only_of_cleared (hb : ∀ k, m k ≠ none → k < 65536) (hc : ∀ k, m k ≠ none → 0 < gap a k ∧ gap a k < gap a seqNr)
    (hnear : gap a seqNr ≤ 2) (hk : m k ≠ none) : k = (a + 1) % 65536 ∧ gap a seqNr = 2 := by
  have := hc k hk
  have := hb k hk
  unfold gap at *
  omega

/-- If the ack number is the next number to send and many packets are kept, then the bits stand for numbers that lie
behind all of them. -/
theorem sack_behind (h : Sound s m) (hm : m ((s.seqNr + 0x8001) % 65536) ≠ none) :
    Sound ((sackNumbers mask s.seqNr s.seqNr).foldl heard s) m := by
  have hseq := h.books.seq_lt
  have hsize : s.outbuf.size ≠ 0 := fun he => hm (h.books.valid.eq_none he _)
  have T := h.books.valid.tabled hsize
  have hnear := T.near _ hm
  have hcap := T.le
  obtain ⟨hf, hf0, hf1⟩ := h.books.first_sent hsize
  have hw := h.books.window
  have hsent := h.books.sent _ hm
  refine removes_heard.foldl_behind h fun k hk => ?_
  obtain ⟨i, hi, -, -, rfl⟩ := (mem_sackNumbers hseq).mp hk
  refine (compareLessWrap_iff (mod_lt _ (by decide)) hf).mpr ?_
  unfold gap at *
  omega

theorem parseSack_eq (sm : SocketManager) (s : Sender) (a : Nat) (mask : SackMask) : ∃ t : Sack,
    t.sender = (sackNumbers mask a s.seqNr).foldl heard s ∧ (s.parseSack sm a mask.bytes = fastResend sm t ∨
      mask.bytes = [] ∧ s.parseSack sm a mask.bytes = t.sender) := by
  unfold parseSack
  split_ifs with he
  · refine ⟨⟨s, 0, 0⟩, ?_, Or.inr ⟨he, rfl⟩⟩
    rw [sackNumbers, he]
    rfl
  · rw [and_ffff]
    exact ⟨_, sackLoop_sender _ _ _, Or.inl rfl⟩

/-- The packets behind the loop of `parse_sack` are those that the socket has in the end. -/
theorem retains_parseSack (sm : SocketManager) (h : Sound ((sackNumbers mask a s.seqNr).foldl heard s) m) :
    Retains ((sackNumbers mask a s.seqNr).foldl heard s) m (s.parseSack sm a mask.bytes) := by
  obtain ⟨t, ht, he | ⟨-, he⟩⟩ := parseSack_eq sm s a mask
  · rw [← ht] at h ⊢
    rw [he]
    exact retains_fastResend sm h
  · rw [← ht] at h ⊢
    rw [he]
    exact .of_sound h id rfl

theorem foldl_heard_spec (mask : SackMask) (h : Sound s m) (ha : a < 65536) (hc : Cleared s.seqNr a m) :
    ∃ m', Sound ((sackNumbers mask a s.seqNr).foldl heard s) m' ∧ Cleared s.seqNr a m' := by
  have hseq := h.books.seq_lt
  obtain ⟨hgap, hc | ⟨rfl, hedge⟩⟩ := hc
  · by_cases hfar : 3 ≤ gap a s.seqNr
    · refine ⟨_, sack_sent h hgap hfar, hgap, Or.inl fun k hk => hc k ?_⟩
      unfold without at hk
      split at hk
      · exact absurd rfl hk
      · exact hk
    · have honly : ∀ k, m k ≠ none → k = (a + 1) % 65536 := fun k hk =>
        (only_of_cleared h.books.valid.bound hc (by omega) hk).1
      rcases removes_heard.foldl_only h honly (fun _ => lt_of_mem_sackNumbers hseq) with hs | hs
      · exact ⟨m, hs, hgap, Or.inl hc⟩
      · exact ⟨_, hs, hgap, Or.inl fun k hk => absurd rfl hk⟩
  · exact ⟨m, sack_behind h hedge, hgap, Or.inr ⟨rfl, hedge⟩⟩

theorem parseSack_spec (sm : SocketManager) (mask : SackMask) (h : Sound s m) (hst : s.state ≠ .none)
    (ha : a < 65536) (hc : Cleared s.seqNr a m) : (s.parseSack sm a mask.bytes).state ≠ .none ∧
      ∃ m', Sound (s.parseSack sm a mask.bytes) m' ∧ Cleared (s.parseSack sm a mask.bytes).seqNr a m' := by
  obtain ⟨m', hs, hc'⟩ := foldl_heard_spec mask h ha hc
  obtain ⟨hst', hseq', m'', hs', hm⟩ := retains_parseSack sm hs
  have hkept := removes_heard.foldl_kept (sackNumbers mask a s.seqNr) s
  refine ⟨hst' (by rw [hkept.state]; exact hst), m'', hs', ?_⟩
  rw [hseq', hkept.seqNr]
  exact hc'.congr hm

theorem receiveSacks_spec (sm : SocketManager) {ackNr : UInt16} : ∀ (sacks : List SackMask) {s : Sender}
    {m : Nat → Option OutPacket}, Sound s m → s.state ≠ .none → Cleared s.seqNr ackNr.toNat m →
    (s.receiveSacks sm ackNr sacks).state ≠ .none ∧ ∃ m', Sound (s.receiveSacks sm ackNr sacks) m' ∧
      Cleared (s.receiveSacks sm ackNr sacks).seqNr ackNr.toNat m'
  | [], _, m, h, hst, hc => ⟨hst, m, h, hc⟩
  | mask :: sacks, s, m, h, hst, hc => by
    obtain ⟨hst', m', h', hc'⟩ := parseSack_spec sm mask h hst ackNr.toNat_lt hc
    exact receiveSacks_spec sm sacks h' hst' hc'

end Libtorrent.Utp.Sender
