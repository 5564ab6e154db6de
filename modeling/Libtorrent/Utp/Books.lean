import Libtorrent.Utp.Refinement
import Libtorrent.Utp.Send

/-!
# The packets in flight

The packets that the socket keeps are those that it has sent and that have not been acknowledged, each under its own
sequence number, and `m_bytes_in_flight` is the payload of those that are not waiting to be sent again. `Books` says
this about the map that the packet buffer stands for (`PacketBuffer.Valid`). An acknowledged number is removed
(`Books.take`), a packet that is sent again or given up is changed through a pointer (`Books.change`), a new one is
inserted (`Books.insert`). Between these, the first number that is not acknowledged may have no packet;
`maybe_inc_acked_seq_nr` moves on to one that has (`Settled`).
-/

namespace Libtorrent.Utp

open Serial Function Option

namespace PacketBuffer

open Tally

/-!
## Pointers into the packet buffer

What `at` returns is always a stored value, even if it belongs to another number, and a change through the pointer is a
change of that value (`through_spec`). A `remove` that is misled can take out a value of another number. If there is
only one value, the buffer is empty then and as good as any empty one (`remove_only`).
-/

variable {V : Type} {s : PacketBuffer V} {m : Nat → Option V} {idx k : Nat} {v : V}

theorem cell_of_atIdx (h : s.atIdx idx = some v) : s.cell idx = some v := by
  unfold atIdx at h
  split at h
  · cases h
  · split at h
    · cases h
    · exact h

theorem Valid.owner (h : Valid s m) (hc : s.cell idx = some v) :
    Tabled s m ∧ ∃ k, m k = some v ∧ idx &&& (s.capacity - 1) = k &&& (s.capacity - 1) := by
  have hs : s.size ≠ 0 := by
    intro hs
    rw [h.cell_eq_none hs] at hc
    cases hc
  have T := h.tabled hs
  rw [T.cell_eq] at hc
  obtain ⟨k, hk, he⟩ := T.holds.owned _ (by rw [hc]; exact some_ne_none v)
  refine ⟨T, k, ?_, ?_⟩
  · rw [← T.holds.stored k hk, he, hc]
  · rw [mask T.capacity, mask T.capacity]
    exact he.symm

theorem Valid.slot (h : Valid s m) {i : Nat} (hi : s.storage[i]? = some (some v)) :
    ∃ k, m k = some v ∧ i = k &&& (s.capacity - 1) := by
  rcases h.table with ⟨-, hst, -, -⟩ | T
  · rw [hst] at hi
    cases hi
  · have hg : s.storage.getD i none = some v := by rw [List.getD_eq_getElem?_getD, hi, getD_some]
    obtain ⟨k, hk, rfl⟩ := T.holds.owned i (by rw [hg]; exact some_ne_none v)
    exact ⟨k, (T.holds.stored k hk).symm.trans hg, (mask T.capacity k).symm⟩

theorem through_spec (h : Valid s m) (hat : s.atIdx idx = some v) (v' : V) :
    ∃ k, m k = some v ∧ Valid (s.through idx v') (update m k (some v')) := by
  obtain ⟨T, k, hk, hslot⟩ := h.owner (cell_of_atIdx hat)
  have hne : m k ≠ none := by rw [hk]; exact some_ne_none v
  have hkt := T.bound k hne
  have hT := T.write hkt (T.near k hne) (some v')
  have hsize : stored (update m k (some v')) = stored m := by
    have := stored_update (m := m) hkt (some v')
    rw [hk] at this
    exact Nat.add_right_cancel this
  have hiff : ∀ j, update m k (some v') j ≠ none ↔ m j ≠ none := by
    intro j
    rcases eq_or_ne j k with rfl | hj
    · rw [update_self]
      exact ⟨fun _ => hne, fun _ => some_ne_none v'⟩
    · rw [update_of_ne hj]
  refine ⟨k, hk, Or.inr ?_, ?_, fun hs => ?_⟩
  · rw [through, hslot]
    exact hT
  · rw [hsize]
    exact h.size
  · obtain ⟨l, E⟩ := h.ends hs
    exact ⟨l, (hiff _).mpr E.first, (hiff _).mpr E.stored, E.last, fun j hj => E.le j ((hiff j).mp hj)⟩

/-! ## Numbers that are not misled -/

theorem not_aliased_of_near (h : gap s.first idx < s.capacity) : ¬ s.Aliased idx :=
  fun ha => absurd ha.2.2.1 (Nat.not_le.mpr h)

theorem not_aliased_of_less (h : compareLessWrap idx s.first 0xffff = true) : ¬ s.Aliased idx := by
  rintro ⟨-, hf, -⟩
  rw [h] at hf
  cases hf

theorem not_aliased_of_empty (h : Valid s m) (hm : ∀ k, m k = none) : ¬ s.Aliased idx := by
  rintro ⟨-, -, -, hc⟩
  obtain ⟨v, hv⟩ := ne_none_iff_exists'.mp hc
  obtain ⟨-, k, hk, -⟩ := h.owner hv
  rw [hm k] at hk
  cases hk

/-! ## Removing the only value -/

theorem update_only (honly : ∀ j, m j ≠ none → j = k) : update m k none = fun _ => none := by
  funext j
  rcases eq_or_ne j k with rfl | hj
  · rw [update_self]
  · rw [update_of_ne hj]
    by_contra hne
    exact hj (honly j hne)

theorem remove_only (h : Valid s m) (honly : ∀ j, m j ≠ none → j = k) (hi : idx < 65536) :
    ((s.remove idx).2 = none ∧ Valid (s.remove idx).1 m) ∨
      (∃ v, m k = some v ∧ (s.remove idx).2 = some v ∧ Valid (s.remove idx).1 fun _ => none) := by
  by_cases ha : s.Aliased idx
  · obtain ⟨hlt, hless, -, hc⟩ := ha
    obtain ⟨v, hv⟩ := ne_none_iff_exists'.mp hc
    obtain ⟨T, j, hj, hslot⟩ := h.owner hv
    have hne : m j ≠ none := by rw [hj]; exact some_ne_none v
    obtain rfl := honly j hne
    have hstored : stored (update m j none) = 0 := tally_eq_zero.mpr fun i _ => by rw [update_only honly]; rfl
    have hsize : s.size = 1 := by
      have := stored_update (m := m) (T.bound j hne) none
      rw [hj, hstored, ← h.size] at this
      simpa using this.symm
    have hT := T.write (T.bound j hne) (T.near j hne) none
    rw [update_only honly] at hT hstored
    refine Or.inr ⟨v, hj, ?_⟩
    have hge : ¬ idx ≥ s.first + s.capacity := by omega
    unfold remove
    rw [if_neg hge, if_neg (by rw [hless]; exact Bool.false_ne_true), hv, hslot]
    simp only [isSome_some, if_true, hsize, Nat.sub_self, ne_eq, not_true_eq_false, and_false, if_false, true_and]
    exact ⟨Or.inr ⟨hT.capacity, hT.length, hT.first_lt, hT.bound, hT.holds, hT.near⟩, hstored.symm,
      fun hne => absurd rfl hne⟩
  · obtain ⟨hvalid, hret⟩ := remove_spec h hi ha
    cases hm : m idx with
    | none =>
      refine Or.inl ⟨hret.trans hm, ?_⟩
      rwa [← hm, update_eq_self] at hvalid
    | some v =>
      obtain rfl := honly idx (by rw [hm]; exact some_ne_none v)
      rw [update_only honly] at hvalid
      exact Or.inr ⟨v, hm, hret.trans hm, hvalid⟩

end PacketBuffer

open SlotTable Nat PacketBuffer OutPacket

def OutPacket.flying (p : OutPacket) : Nat := if p.needResend then 0 else p.size - p.headerSize

/-- The sizes of a packet fit its header and their type. -/
def OutPacket.Sized (p : OutPacket) : Prop := 20 ≤ p.headerSize ∧ p.headerSize ≤ p.size ∧ p.size < 65536

theorem OutPacket.flying_eq {p : OutPacket} (h : p.Sized) : (p.flying : Int) = if p.needResend then 0 else p.bytes := by
  have := h.2.1
  unfold flying bytes
  split
  · rfl
  · omega

/-- What the kept packets, the sequence numbers and the count have to do with each other. -/
structure Books (b : PacketBuffer OutPacket) (seqNr ackedSeqNr : Nat) (bytes : Int) (m : Nat → Option OutPacket) :
    Prop where
  valid : b.Valid m
  seq_lt : seqNr < 65536
  acked_lt : ackedSeqNr < 65536
  ahead : 0 < gap ackedSeqNr seqNr
  window : gap ackedSeqNr seqNr ≤ 0x8000
  packet : ∀ k p, m k = some p → p.seqNr = k ∧ p.Sized
  sent : ∀ k, m k ≠ none → 0 < gap ackedSeqNr k ∧ gap ackedSeqNr k < gap ackedSeqNr seqNr
  bytes_eq : bytes = mapSum 65536 OutPacket.flying m
  reach : b.size ≠ 0 → gap b.first seqNr ≤ b.capacity

/-- The first number that is not acknowledged has a packet, or has not been sent. -/
def Settled (seqNr ackedSeqNr : Nat) (m : Nat → Option OutPacket) : Prop :=
  m ((ackedSeqNr + 1) % 65536) ≠ none ∨ seqNr = (ackedSeqNr + 1) % 65536

namespace Books

variable {b : PacketBuffer OutPacket} {seq acked k idx : Nat} {bytes : Int} {m : Nat → Option OutPacket}

section

variable (h : Books b seq acked bytes m)
include h

theorem first_sent (hs : b.size ≠ 0) : b.first < 65536 ∧ 0 < gap acked b.first ∧ gap acked b.first < gap acked seq := by
  obtain ⟨l, E⟩ := h.valid.ends hs
  exact ⟨h.valid.first_lt, h.sent _ E.first⟩

section

variable (hk : k < 65536) (h0 : 0 < gap k seq) (h1 : gap k seq < 0x8000)
include hk h0 h1

theorem not_aliased : ¬ b.Aliased k := by
  by_cases hs : b.size = 0
  · exact not_aliased_of_empty h.valid (h.valid.eq_none hs)
  obtain ⟨hf, hf0, hf1⟩ := h.first_sent hs
  have hreach := h.reach hs
  have hw := h.window
  have hseq := h.seq_lt
  rcases lt_or_ge (gap b.first seq) (gap k seq) with hlt | hge
  · refine not_aliased_of_less ((compareLessWrap_iff hk hf).mpr ?_)
    unfold gap at *
    omega
  · refine not_aliased_of_near ?_
    unfold gap at *
    omega

theorem atIdx_eq : b.atIdx k = m k :=
  PacketBuffer.atIdx_eq h.valid hk (h.not_aliased hk h0 h1)

end

theorem seq_free : m seq = none := by
  by_contra hne
  exact lt_irrefl _ (h.sent seq hne).2

end

/-! ## Changing a packet -/

section

variable (h : Books b seq acked bytes m)
include h

theorem change {p p' : OutPacket} (hat : b.atIdx idx = some p)
    (hseq : p'.seqNr = p.seqNr) (hheader : p'.headerSize = p.headerSize) (hsize : p'.size = p.size) : p.Sized ∧
      ∃ m', Books (b.through idx p') seq acked (bytes + p'.flying - p.flying) m' ∧ ∀ k, m' k ≠ none ↔ m k ≠ none := by
  obtain ⟨k, hk, hvalid⟩ := through_spec h.valid hat p'
  have hiff : ∀ j, update m k (some p') j ≠ none ↔ m j ≠ none := by
    intro j
    rcases eq_or_ne j k with rfl | hj
    · rw [update_self, hk]
      exact ⟨fun _ => some_ne_none p, fun _ => some_ne_none p'⟩
    · rw [update_of_ne hj]
  have hkt : k < 65536 := h.valid.bound k (by rw [hk]; exact some_ne_none p)
  refine ⟨(h.packet k p hk).2, _, ⟨hvalid, h.seq_lt, h.acked_lt, h.ahead, h.window, fun j q hq => ?_,
    fun j hj => h.sent j ((hiff j).mp hj), ?_, h.reach⟩, hiff⟩
  · rcases eq_or_ne j k with rfl | hj
    · rw [update_self] at hq
      obtain rfl := some.inj hq
      unfold OutPacket.Sized
      rw [hseq, hheader, hsize]
      exact h.packet j p hk
    · rw [update_of_ne hj] at hq
      exact h.packet j q hq
  · have := mapSum_update (m := m) hkt flying (some p')
    rw [hk] at this
    simp only [elim_some] at this
    rw [h.bytes_eq]
    omega

/-! ## Taking a packet out -/

/-- What `remove` has done: nothing, or it has taken out the packet of a number. -/
def Taken (m m' : Nat → Option OutPacket) : Option OutPacket → Prop
  | none => m' = m
  | some p => ∃ j, m j = some p ∧ m' = update m j none

variable {m' : Nat → Option OutPacket}

theorem take (hvalid : (b.remove idx).1.Valid m') (ht : Taken m m' (b.remove idx).2) :
    Books (b.remove idx).1 seq acked (bytes - ((b.remove idx).2.elim 0 OutPacket.flying : Nat)) m' := by
  have hsub : ∀ k p, m' k = some p → m k = some p := by
    intro k p hk
    cases hr : (b.remove idx).2 with
    | none =>
      rw [hr] at ht
      rw [← hk, show m' = m from ht]
    | some q =>
      rw [hr] at ht
      obtain ⟨j, -, rfl⟩ := ht
      rcases eq_or_ne k j with rfl | hne
      · rw [update_self] at hk
        cases hk
      · rwa [update_of_ne hne] at hk
  have hsub' : ∀ k, m' k ≠ none → m k ≠ none := by
    intro k hk
    obtain ⟨p, hp⟩ := ne_none_iff_exists'.mp hk
    rw [hsub k p hp]
    exact some_ne_none p
  refine ⟨hvalid, h.seq_lt, h.acked_lt, h.ahead, h.window, fun k p hk => h.packet k p (hsub k p hk),
    fun k hk => h.sent k (hsub' k hk), ?_, fun hs => ?_⟩
  · cases hr : (b.remove idx).2 with
    | none =>
      rw [hr] at ht
      rw [show m' = m from ht, h.bytes_eq]
      exact Int.sub_zero _
    | some p =>
      rw [hr] at ht
      obtain ⟨j, hj, rfl⟩ := ht
      have := mapSum_update (m := m) (h.valid.bound j (by rw [hj]; exact some_ne_none p)) flying none
      rw [hj] at this
      simp only [elim_some, elim_none] at this ⊢
      rw [h.bytes_eq]
      omega
  · -- the first packet that is left does not come before the one that was first
    obtain ⟨l, E⟩ := hvalid.ends hs
    have hf := hvalid.first_lt
    have hm := hsub' _ E.first
    have hsize : b.size ≠ 0 := fun he => hm (h.valid.eq_none he _)
    have T := h.valid.tabled hsize
    have hnear := T.near _ hm
    have hcap := T.le
    have hsent := h.sent _ hm
    obtain ⟨hf', hs0, hs1⟩ := h.first_sent hsize
    have hreach := h.reach hsize
    have hw := h.window
    have hseq := h.seq_lt
    have hacked := h.acked_lt
    rw [capacity_remove]
    generalize (b.remove idx).1.first = f' at *
    generalize b.first = f at *
    unfold gap at *
    omega

theorem taken_of_not_aliased (hk : k < 65536) (hp : ¬ b.Aliased k) :
    (b.remove k).1.Valid (update m k none) ∧ Taken m (update m k none) (b.remove k).2 := by
  obtain ⟨hvalid, hret⟩ := remove_spec h.valid hk hp
  refine ⟨hvalid, ?_⟩
  rw [hret]
  cases hm : m k with
  | none =>
    change update m k none = m
    rw [← hm, update_eq_self]
  | some p => exact ⟨k, hm, rfl⟩

/-! ## The numbers move on -/

theorem advance (hne : (acked + 1) % 65536 ≠ seq) (hm : m ((acked + 1) % 65536) = none) :
    Books b seq ((acked + 1) % 65536) bytes m := by
  have hseq := h.seq_lt
  have hacked := h.acked_lt
  have hahead := h.ahead
  have hw := h.window
  refine ⟨h.valid, hseq, mod_lt _ (by decide), ?_, ?_, h.packet, fun k hk => ?_, h.bytes_eq, h.reach⟩
  · unfold gap at *
    omega
  · unfold gap at *
    omega
  have hs := h.sent k hk
  have hkt := h.valid.bound k hk
  have hk' : k ≠ (acked + 1) % 65536 := by
    rintro rfl
    exact hk hm
  unfold gap at *
  omega

theorem insert (hroom : gap acked seq < 0x8000) {p : OutPacket} (hseq : p.seqNr = seq) (hp : p.Sized) :
    Books (b.insert seq (some p)).1 ((seq + 1) % 65536) acked (bytes + p.flying) (update m seq (some p)) ∧
      (b.insert seq (some p)).2 = none := by
  have hsl := h.seq_lt
  have hacked := h.acked_lt
  have hahead := h.ahead
  have hgap : gap acked ((seq + 1) % 65536) = gap acked seq + 1 := by
    unfold gap at *
    omega
  have hwindow : PacketBuffer.InWindow m seq := by
    refine ⟨(acked + 1) % 65536, mod_lt _ (by decide), fun k hk => ?_⟩
    rcases hk with rfl | hk
    · unfold gap at *
      omega
    have hs := h.sent k hk
    have hkt := h.valid.bound k hk
    unfold gap at *
    omega
  have hover : ¬ b.Overrun seq := by
    rintro ⟨hs, hlt, -, hle⟩
    have hreach := h.reach hs
    obtain ⟨hf, -, -⟩ := h.first_sent hs
    unfold gap at hreach
    omega
  obtain ⟨hvalid, hret⟩ := insert_spec h.valid hsl hwindow hover p
  refine ⟨⟨hvalid, mod_lt _ (by decide), hacked, ?_, ?_, fun k q hk => ?_, fun k hk => ?_, ?_, fun hs => ?_⟩,
    hret.trans h.seq_free⟩
  · rw [hgap]
    exact succ_pos _
  · rw [hgap]
    exact hroom
  · rcases eq_or_ne k seq with rfl | hne
    · rw [update_self] at hk
      obtain rfl := some.inj hk
      exact ⟨hseq, hp⟩
    · rw [update_of_ne hne] at hk
      exact h.packet k q hk
  · rw [hgap]
    rcases eq_or_ne k seq with rfl | hne
    · exact ⟨hahead, lt_succ_self _⟩
    · rw [update_of_ne hne] at hk
      exact ⟨(h.sent k hk).1, lt_succ_of_lt (h.sent k hk).2⟩
  · have := mapSum_update (m := m) hsl flying (some p)
    rw [h.seq_free] at this
    simp only [elim_some, elim_none] at this
    rw [h.bytes_eq]
    omega
  · have T := hvalid.tabled hs
    have hnear := T.near seq (by rw [update_self]; exact some_ne_none p)
    have hf := hvalid.first_lt
    have hcap := T.le
    unfold gap at *
    omega

end

end Books

variable {seq acked : Nat} {m : Nat → Option OutPacket}

theorem Settled.congr (h : Settled seq acked m) (hm : ∀ k, m' k ≠ none ↔ m k ≠ none) : Settled seq acked m' :=
  h.imp_left (hm _).mpr

theorem Settled.insert (h : Settled seq acked m) (p : OutPacket) :
    Settled ((seq + 1) % 65536) acked (update m seq (some p)) := by
  left
  rcases h with h | h
  · rcases eq_or_ne ((acked + 1) % 65536) seq with he | hne
    · rw [he, update_self]
      exact some_ne_none p
    · rwa [update_of_ne hne]
  · rw [← h, update_self]
    exact some_ne_none p

end Libtorrent.Utp
