import Libtorrent.Lib.SortedList
import Libtorrent.Picker.Sound
import Libtorrent.Swarm.Torrent

/-!
# Availability accounting

`Accounted`: for every piece, `peer_count` plus `m_seeds` is the number of connected peers that have the piece. Each
event keeps this exactly if it `Balances`: a BITFIELD or HAVE_ALL from a peer that has announced pieces before counts
them twice, a bitfield received while we are upload-only is not counted at all, and a peer that was counted as a seed
but takes pieces back, or leaves as a non-seed, takes counts from other peers or wraps them (`availability_accounting`).
-/

namespace Libtorrent.Swarm

open Picker Run List Torrent PiecePicker

variable {t u : Torrent} {k i : Nat}

/-! ## What the calls do to the counts -/

structure Shift (s s' : PiecePicker) (seeds : Nat) (f : Nat → Nat → Nat) : Prop where
  num : s'.numPieces = s.numPieces
  seeds : s'.seeds = seeds
  count : ∀ i < s.numPieces, (s'.pos i).peerCount = f i (s.pos i).peerCount

def up (c : Nat) : Nat := (c + 1) % (maxPeerCount + 1)

def down (c : Nat) : Nat := if c = 0 then maxPeerCount else c - 1

theorem up_eq {c : Nat} : up c = c + 1 ↔ c < maxPeerCount := by
  unfold up maxPeerCount
  omega

theorem down_eq {c : Nat} : down c + 1 = c ↔ 0 < c := by
  unfold down maxPeerCount
  split <;> omega

theorem Shift.refl (s : PiecePicker) : Shift s s s.seeds fun _ c => c := ⟨rfl, rfl, fun _ _ => rfl⟩

theorem Shift.trans {s s' s'' : PiecePicker} {a b : Nat} {f g : Nat → Nat → Nat} (h1 : Shift s s' a f)
    (h2 : Shift s' s'' b g) : Shift s s'' b fun i c => g i (f i c) :=
  ⟨h2.num.trans h1.num, h2.seeds, fun i hi => by rw [h2.count i (by rw [h1.num]; exact hi), h1.count i hi]⟩

variable {f : Nat → Nat → Nat} {seeds : Nat}

theorem Shift.of_frame {s s' s'' : PiecePicker} (h : Shift s s' seeds f)
    (F : PiecePicker.Frame s' s'') : Shift s s'' seeds f where
  num := by rw [F.numPieces, h.num]
  seeds := by
    obtain ⟨-, _, _, _, rfl⟩ := F
    exact h.seeds
  count := fun i hi => by
    have := congrArg PiecePos.peerCount (F.tag i)
    exact this.trans (h.count i hi)

section

variable (s : PiecePicker)
include s

variable {f : PiecePos → PiecePos}

theorem shift_modifyPos (p : Nat) {g : Nat → Nat} (hf : ∀ x, (f x).peerCount = g x.peerCount) :
    Shift s (s.modifyPos p f) s.seeds fun i c => if i = p then g c else c where
  num := numPieces_modifyPos ..
  seeds := rfl
  count := fun i hi => by
    rw [pos_modifyPos]
    by_cases h : i = p
    · rw [if_pos ⟨h.symm, hi⟩, if_pos h, hf]
    · rw [if_neg (fun h' => h h'.1.symm), if_neg h]

theorem shift_incRefcount (p rnd : Nat) : Shift s (s.incRefcount p rnd) s.seeds fun i c => if i = p then up c else c :=
  (shift_modifyPos s p (fun _ => rfl)).of_frame (frame_refile ..)

theorem shift_decRefcount (p rnd : Nat) :
    Shift s (s.decRefcount p rnd) s.seeds fun i c => if i = p then down c else c :=
  (shift_modifyPos s p (fun _ => rfl)).of_frame (frame_updateFrom ..)

theorem shift_modifyBits (bits : Bitfield) {g : Nat → Nat} (hf : ∀ x, (f x).peerCount = g x.peerCount) :
    Shift s (s.modifyBits bits f) s.seeds fun i c => if bits.getD i false then g c else c where
  num := numPieces_modifyBits ..
  seeds := rfl
  count := fun i hi => by
    rw [pos_modifyBits]
    by_cases h : bits.getD i false = true
    · rw [if_pos ⟨hi, h⟩, if_pos h, hf]
    · rw [if_neg (fun h' => h h'.2), if_neg h]

theorem shift_decRefcountAll : Shift s s.decRefcountAll (s.seeds - 1) fun _ c => if 0 < s.seeds then c else down c := by
  unfold decRefcountAll
  by_cases h : 0 < s.seeds
  · rw [if_pos h]
    exact ⟨rfl, rfl, fun _ _ => (if_pos h).symm⟩
  rw [if_neg h]
  refine ⟨by simp [numPieces], by simp only; omega, fun i hi => ?_⟩
  rw [if_neg h]
  refine (congrArg PiecePos.peerCount (pos_mapPos s PiecePos.decPeerCount i)).trans ?_
  rw [if_pos hi]
  rfl

end

theorem shift_losePieces (t : Torrent) («have» bits : Bitfield) (rnds : Nat → Nat) : ∀ n,
    Shift t.picker (t.losePieces «have» bits rnds n).picker t.picker.seeds
        (fun i c => if i < n ∧ bits.getD i false = false ∧ have.getD i false = true then down c else c) ∧
      (t.losePieces «have» bits rnds n).connections = t.connections
  | 0 => ⟨⟨rfl, rfl, fun _ _ => by rw [if_neg (by omega)]; rfl⟩, rfl⟩
  | n + 1 => by
    obtain ⟨ih, hc⟩ := shift_losePieces t «have» bits rnds n
    simp only [losePieces]
    generalize t.losePieces «have» bits rnds n = v at *
    split_ifs with hn
    · simp only [Bool.and_eq_true, Bool.not_eq_true'] at hn
      have h := ih.trans (shift_decRefcount v.picker n (rnds n))
      refine ⟨⟨h.num, h.seeds.trans ih.seeds, fun i hi => (h.count i hi).trans ?_⟩, hc⟩
      by_cases e : i = n
      · rw [if_pos e, if_neg (by omega), if_pos ⟨by omega, e ▸ hn.1, e ▸ hn.2⟩]
      · rw [if_neg e]
        exact if_congr (by constructor <;> (rintro ⟨h1, h2⟩; exact ⟨by omega, h2⟩)) rfl rfl
    simp only [Bool.and_eq_true, Bool.not_eq_true'] at hn
    refine ⟨⟨ih.num, ih.seeds, fun i hi => ?_⟩, hc⟩
    rw [ih.count i hi]
    refine if_congr ⟨?_, ?_⟩ rfl rfl
    · rintro ⟨h1, h2⟩
      exact ⟨by omega, h2⟩
    rintro ⟨h1, h2, h3⟩
    refine ⟨?_, h2, h3⟩
    by_contra hlt
    have e : i = n := by omega
    exact hn ⟨e ▸ h2, e ▸ h3⟩

/-! ## Counting peers -/

/-- The number of connected peers that have piece `i`. -/
def Torrent.holders (t : Torrent) (i : Nat) : Nat := t.connections.countP fun p => p.hasPiece i

/-- **Availability is accounted for.** -/
def Accounted (t : Torrent) : Prop :=
  ∀ i < t.picker.numPieces, (t.picker.pos i).peerCount + t.picker.seeds = t.holders i

instance (t : Torrent) : Decidable (Accounted t) := inferInstanceAs (Decidable (∀ i < _, _ = _))

/-- Every bitfield has the size of the torrent and its set bits are counted. -/
structure Wf (t : Torrent) : Prop where
  size : ∀ p ∈ t.connections, p.havePiece.length = t.picker.numPieces
  num : ∀ p ∈ t.connections, p.numPieces = count p.havePiece

theorem countP_set_add {α : Type} (f : α → Bool) (l : List α) (hk : k < l.length) (a d : α) :
    (l.set k a).countP f + (f (l.getD k d)).toNat = l.countP f + (f a).toNat := by
  have hpos : f l[k] = true → 0 < l.countP f := fun h => countP_pos_iff.mpr ⟨_, getElem_mem hk, h⟩
  rw [countP_set hk, getD_eq_getElem?_getD, List.getElem?_eq_getElem hk]
  simp only [Option.getD_some]
  cases h1 : f l[k] with
  | false => cases f a <;> simp
  | true =>
    have := hpos h1
    cases f a <;> simp <;> omega

theorem accounted_set (h : Accounted t) (hk : k < t.connections.length) {p : Peer}
    (hc : u.connections = t.connections.set k p) (S : Shift t.picker u.picker seeds f) :
    Accounted u ↔ ∀ i < t.picker.numPieces, f i (t.picker.pos i).peerCount + seeds + ((t.peer k).hasPiece i).toNat =
      (t.picker.pos i).peerCount + t.picker.seeds + (p.hasPiece i).toNat := by
  unfold Accounted
  rw [S.num, S.seeds]
  refine forall₂_congr fun i hi => ?_
  have h1 := countP_set_add (fun p : Peer => p.hasPiece i) t.connections hk p default
  have h2 := h i hi
  rw [S.count i hi, holders, hc]
  unfold holders at h2
  unfold peer
  omega

theorem accounted_erase (h : Accounted t) (hk : k < t.connections.length)
    (hc : u.connections = t.connections.eraseIdx k) (S : Shift t.picker u.picker seeds f) :
    Accounted u ↔ ∀ i < t.picker.numPieces, f i (t.picker.pos i).peerCount + seeds + ((t.peer k).hasPiece i).toNat =
      (t.picker.pos i).peerCount + t.picker.seeds := by
  unfold Accounted
  rw [S.num, S.seeds]
  refine forall₂_congr fun i hi => ?_
  have h1 := SortedList.countP_eraseIdx (fun p : Peer => p.hasPiece i) (List.getElem?_eq_getElem hk)
  have h2 := h i hi
  rw [S.count i hi, holders, hc]
  unfold holders at h2
  rw [peer, getD_eq_getElem _ _ hk]
  omega

/-! ## One event -/

def CanLeave (t : Torrent) (k : Nat) : Prop :=
  (t.peer k).isSeed = true ∨
    ∀ i < t.picker.numPieces, (t.peer k).hasPiece i = true → 0 < (t.picker.pos i).peerCount

def Balances (t : Torrent) : Event → Prop
  | .connect | .haveNone _ | .setUploadMode _ => True
  | .have k index _ =>
    if ((t.peer k).havePiece.length : Int) ≤ index ∨ index < 0 then CanLeave t k
    else (t.peer k).hasPiece index.toNat = false → (t.picker.pos index.toNat).peerCount < maxPeerCount
  | .dontHave k index _ =>
    if ((t.peer k).havePiece.length : Int) ≤ index ∨ index < 0 then CanLeave t k
    else (t.peer k).hasPiece index.toNat = true → 0 < (t.picker.pos index.toNat).peerCount
  | .bitfield k bits _ =>
    if count bits = (t.peer k).havePiece.length then ∀ i < t.picker.numPieces, (t.peer k).hasPiece i = false
    else if t.isUploadOnly then ∀ i < t.picker.numPieces, bits.getD i false = (t.peer k).hasPiece i
    else ∀ i < t.picker.numPieces,
      (bits.getD i false = true → (t.peer k).hasPiece i = false ∧ (t.picker.pos i).peerCount < maxPeerCount) ∧
        (bits.getD i false = false → (t.peer k).hasPiece i = true → 0 < (t.picker.pos i).peerCount)
  | .haveAll k => ∀ i < t.picker.numPieces, (t.peer k).hasPiece i = false
  | .disconnect k => CanLeave t k

instance (t : Torrent) (k : Nat) : Decidable (CanLeave t k) := inferInstanceAs (Decidable (_ ∨ ∀ i < _, _ → _))

instance (t : Torrent) (ev : Event) : Decidable (Balances t ev) := by
  apply Event.casesOn (motive := fun ev => Decidable (Balances t ev)) ev <;> intros <;>
    (dsimp only [Balances]; infer_instance)

theorem peer_mem (hk : k < t.connections.length) : t.peer k ∈ t.connections := by
  unfold peer
  rw [getD_eq_getElem?_getD, List.getElem?_eq_getElem hk]
  exact getElem_mem hk

theorem hasPiece_of_isSeed (h : Wf t) (hk : k < t.connections.length) (hs : (t.peer k).isSeed = true)
    (hi : i < t.picker.numPieces) : (t.peer k).hasPiece i = true := by
  have hp := peer_mem hk
  simp only [Peer.isSeed, Bool.and_eq_true, beq_iff_eq] at hs
  have hall : count (t.peer k).havePiece = (t.peer k).havePiece.length := by rw [← h.num _ hp]; exact hs.1
  rw [count, countP_eq_length] at hall
  rw [← h.size _ hp] at hi
  rw [Peer.hasPiece, getD_eq_getElem?_getD, List.getElem?_eq_getElem hi]
  exact hall _ (getElem_mem hi)

theorem removePeer_accounted (hw : Wf t) (h : Accounted t) (hk : k < t.connections.length) :
    Accounted (t.removePeer k) ↔ CanLeave t k := by
  unfold Torrent.removePeer CanLeave
  by_cases hs : (t.peer k).isSeed = true
  · simp only [hs, if_true, true_or, iff_true]
    rw [accounted_erase h hk rfl (shift_decRefcountAll t.picker)]
    intro i hi
    have hone := hasPiece_of_isSeed hw hk hs hi
    have hpos : 0 < t.holders i := countP_pos_iff.mpr ⟨_, peer_mem hk, hone⟩
    have hacc := h i hi
    rw [hone]
    simp only [Bool.toNat_true]
    split
    · omega
    · have := down_eq.mpr (show 0 < (t.picker.pos i).peerCount by omega)
      omega
  · simp only [hs, Bool.false_eq_true, if_false, false_or]
    rw [accounted_erase h hk rfl (shift_modifyBits t.picker _ (g := down) (fun _ => rfl))]
    refine forall₂_congr fun i hi => ?_
    change (if (t.peer k).hasPiece i = true then down _ else _) + _ + _ = _ ↔ _
    cases (t.peer k).hasPiece i with
    | false => simp
    | true =>
      have := down_eq (c := (t.picker.pos i).peerCount)
      simp only [if_true, Bool.toNat_true, true_imp_iff]
      omega

theorem hasPiece_set (p : Peer) (j : Nat) (b : Bool) (n : Nat) (r : Bool) (i : Nat) (hi : i < p.havePiece.length) :
    ({ havePiece := p.havePiece.set j b, numPieces := n, bitfieldReceived := r } : Peer).hasPiece i =
      if i = j then b else p.hasPiece i := by
  rw [Peer.hasPiece, Vec.getD_set]
  by_cases h : i = j
  · rw [if_pos h, if_pos ⟨h.symm, hi⟩]
  · rw [if_neg h, if_neg (fun h' => h h'.1.symm)]
    rfl

theorem Wf.set (hw : Wf t) (hn : u.picker.numPieces = t.picker.numPieces) {p : Peer}
    (hc : u.connections = t.connections.set k p) (hlen : p.havePiece.length = t.picker.numPieces)
    (hnum : p.numPieces = count p.havePiece) : Wf u := by
  refine ⟨fun q hq => ?_, fun q hq => ?_⟩
  · rw [hc] at hq
    rcases mem_or_eq_of_mem_set hq with h | rfl
    · rw [hn]
      exact hw.size q h
    · rw [hn, hlen]
  · rw [hc] at hq
    rcases mem_or_eq_of_mem_set hq with h | rfl
    · exact hw.num q h
    · exact hnum

theorem Wf.removePeer (hw : Wf t) (k : Nat) : Wf (t.removePeer k) := by
  have hn : (t.removePeer k).picker.numPieces = t.picker.numPieces := by
    unfold Torrent.removePeer
    dsimp only
    split
    · exact (shift_decRefcountAll t.picker).num
    · exact numPieces_modifyBits ..
  refine ⟨fun p hp => ?_, fun p hp => hw.num p (mem_of_mem_eraseIdx hp)⟩
  rw [hn]
  exact hw.size p (mem_of_mem_eraseIdx hp)

section

variable (hw : Wf t) (h : Accounted t) (hk : k < t.connections.length)
include hw h hk

theorem incomingHaveNone_spec : Wf (t.incomingHaveNone k) ∧ Accounted (t.incomingHaveNone k) := by
  have hp := peer_mem hk
  have h1 := hw.size _ hp
  have h2 := hw.num _ hp
  refine ⟨hw.set rfl rfl h1 h2, ?_⟩
  rw [accounted_set (u := t.incomingHaveNone k) h hk rfl (Shift.refl t.picker)]
  intro i _
  rfl

/-- HAVE and DONT_HAVE for a valid piece: bit `j` of the peer at `k` becomes `b`, its count changes by `g`. -/
theorem setBit_spec {j n : Nat} {b r : Bool} {g : Nat → Nat} (hj : j < t.picker.numPieces)
    (hc : u.connections = t.connections.set k
      { havePiece := (t.peer k).havePiece.set j b, numPieces := n, bitfieldReceived := r })
    (S : Shift t.picker u.picker t.picker.seeds fun i c => if i = j then g c else c) :
    Accounted u ↔ g (t.picker.pos j).peerCount + ((t.peer k).hasPiece j).toNat =
      (t.picker.pos j).peerCount + b.toNat := by
  have hsize := hw.size _ (peer_mem hk)
  rw [accounted_set h hk hc S]
  constructor
  · intro hall
    have := hall j hj
    rw [hasPiece_set _ _ _ _ _ _ (by omega), if_pos rfl, if_pos rfl] at this
    omega
  intro he i hi
  rw [hasPiece_set _ _ _ _ _ _ (by omega)]
  by_cases e : i = j
  · rw [if_pos e, if_pos e, e]
    omega
  · rw [if_neg e, if_neg e]

end

theorem count_set (bits : Bitfield) {j : Nat} (hj : j < bits.length) (b : Bool) :
    count (bits.set j b) + (bits.getD j false).toNat = count bits + b.toNat :=
  countP_set_add id bits hj b false

section

variable (hw : Wf t) (h : Accounted t) (hk : k < t.connections.length)
include hw h hk

theorem incomingHave_spec (index : Int) (rnd : Nat) : Wf (t.incomingHave k index rnd) ∧
      (Accounted (t.incomingHave k index rnd) ↔ Balances t (.have k index rnd)) := by
  -- a HAVE without a bitfield before it counts as a HAVE_NONE first
  obtain ⟨v, hv, hwv, hav, hpk, hlen, hhave, hnum⟩ : ∃ v,
      (if (t.peer k).bitfieldReceived then t else t.incomingHaveNone k) = v ∧ Wf v ∧ Accounted v ∧
        v.picker = t.picker ∧ v.connections.length = t.connections.length ∧
        (v.peer k).havePiece = (t.peer k).havePiece ∧ (v.peer k).numPieces = (t.peer k).numPieces := by
    split
    · exact ⟨t, rfl, hw, h, rfl, rfl, rfl, rfl⟩
    obtain ⟨h1, h2⟩ := incomingHaveNone_spec hw h hk
    have hp : (t.incomingHaveNone k).peer k = { t.peer k with bitfieldReceived := true } := by
      rw [peer, incomingHaveNone, setPeer, Vec.getD_set, if_pos ⟨rfl, hk⟩]
    exact ⟨_, rfl, h1, h2, rfl, length_set, by rw [hp], by rw [hp]⟩
  have hkv : k < v.connections.length := by omega
  have hmem := peer_mem hkv
  have hbits : ∀ i, (v.peer k).hasPiece i = (t.peer k).hasPiece i := fun i => by rw [Peer.hasPiece, hhave]; rfl
  unfold incomingHave Balances
  dsimp only
  rw [hv, hhave]
  by_cases hbad : ((t.peer k).havePiece.length : Int) ≤ index ∨ index < 0
  · rw [if_pos hbad, if_pos hbad, removePeer_accounted hwv hav hkv]
    refine ⟨hwv.removePeer k, ?_⟩
    unfold CanLeave
    simp only [Peer.isSeed, hhave, hnum, hpk, hbits]
  rw [if_neg hbad, if_neg hbad, hbits]
  have hsize := hwv.size _ hmem
  rw [hhave] at hsize
  have hj : index.toNat < v.picker.numPieces := by omega
  by_cases hset : (t.peer k).hasPiece index.toNat = true
  · rw [if_pos hset]
    exact ⟨hwv, iff_of_true hav fun hf => absurd (hset.symm.trans hf) (by decide)⟩
  rw [if_neg hset]
  have hset' : (t.peer k).hasPiece index.toNat = false := by simpa using hset
  rw [← hhave]
  have S := shift_incRefcount v.picker index.toNat rnd
  constructor
  · refine hwv.set S.num rfl (by rw [length_set, hhave]; omega) ?_
    have hc := count_set (v.peer k).havePiece (j := index.toNat) (by rw [hhave]; omega) true
    have h0 : (v.peer k).havePiece.getD index.toNat false = false := by rw [hhave]; exact hset'
    rw [h0] at hc
    have hn := hwv.num _ hmem
    simp only [Bool.toNat_false, Bool.toNat_true] at hc
    dsimp only
    omega
  · rw [setBit_spec hwv hav hkv hj rfl S, hbits, hset', ← hpk]
    have := up_eq (c := (v.picker.pos index.toNat).peerCount)
    simp only [Bool.toNat_false, Bool.toNat_true, true_imp_iff]
    omega

theorem incomingDontHave_spec (index : Int) (rnd : Nat) : Wf (t.incomingDontHave k index rnd) ∧
      (Accounted (t.incomingDontHave k index rnd) ↔ Balances t (.dontHave k index rnd)) := by
  have hmem := peer_mem hk
  have hsize := hw.size _ hmem
  unfold incomingDontHave Balances
  dsimp only
  by_cases hbad : ((t.peer k).havePiece.length : Int) ≤ index ∨ index < 0
  · rw [if_pos hbad, if_pos hbad]
    exact ⟨hw.removePeer k, removePeer_accounted hw h hk⟩
  rw [if_neg hbad, if_neg hbad]
  have hj : index.toNat < t.picker.numPieces := by omega
  by_cases hset : (t.peer k).hasPiece index.toNat = true
  · rw [if_pos hset]
    have S := shift_decRefcount t.picker index.toNat rnd
    constructor
    · refine hw.set S.num rfl (by rw [length_set]; omega) ?_
      have hc := count_set (t.peer k).havePiece (j := index.toNat) (by omega) false
      have h1 : (t.peer k).havePiece.getD index.toNat false = true := hset
      rw [h1] at hc
      have hn := hw.num _ hmem
      simp only [Bool.toNat_false, Bool.toNat_true] at hc
      dsimp only
      omega
    · rw [setBit_spec hw h hk hj rfl S, hset]
      have := down_eq (c := (t.picker.pos index.toNat).peerCount)
      simp only [Bool.toNat_false, Bool.toNat_true, true_imp_iff]
      omega
  · rw [if_neg hset]
    exact ⟨hw, iff_of_true h fun hf => absurd hf hset⟩

theorem allPieces_spec {p : Peer} (hp : p.havePiece = List.replicate (t.peer k).havePiece.length true)
    (hn : p.numPieces = (t.peer k).havePiece.length) : Wf (t.setPeer k p).peerHasAll ∧
      (Accounted (t.setPeer k p).peerHasAll ↔ ∀ i < t.picker.numPieces, (t.peer k).hasPiece i = false) := by
  have hsize := hw.size _ (peer_mem hk)
  have S : Shift t.picker (t.setPeer k p).peerHasAll.picker (t.picker.seeds + 1) fun _ c => c :=
    ⟨rfl, rfl, fun _ _ => rfl⟩
  have hall : ∀ i < t.picker.numPieces, p.hasPiece i = true := fun i hi => by
    rw [Peer.hasPiece, hp, getD_eq_getElem?_getD, List.getElem?_replicate, if_pos (by omega)]
    rfl
  refine ⟨hw.set S.num rfl (by rw [hp, length_replicate, hsize]) ?_, ?_⟩
  · simp [hn, hp, count, countP_replicate]
  rw [accounted_set h hk rfl S]
  refine forall₂_congr fun i hi => ?_
  rw [hall i hi]
  cases (t.peer k).hasPiece i <;> simp; omega

theorem incomingBitfield_spec {bits : Bitfield} (hbits : bits.length = (t.peer k).havePiece.length) (rnds : Nat → Nat) :
    Wf (t.incomingBitfield k bits rnds) ∧
      (Accounted (t.incomingBitfield k bits rnds) ↔ Balances t (.bitfield k bits rnds)) := by
  have hsize := hw.size _ (peer_mem hk)
  unfold incomingBitfield Balances
  dsimp only
  rw [if_neg (by rw [hbits]; exact fun hne => hne rfl)]
  by_cases hfull : count bits = (t.peer k).havePiece.length
  · rw [if_pos hfull, if_pos hfull]
    exact allPieces_spec hw h hk rfl hfull
  rw [if_neg hfull, if_neg hfull]
  by_cases hup : t.isUploadOnly = true
  · rw [if_pos hup, if_pos hup]
    refine ⟨hw.set rfl rfl (by rw [hbits, hsize]) rfl, ?_⟩
    have hc : (t.setPeer k { havePiece := bits, numPieces := count bits, bitfieldReceived := true }).connections =
        t.connections.set k { havePiece := bits, numPieces := count bits, bitfieldReceived := true } := rfl
    refine (accounted_set h hk hc (Shift.refl t.picker)).trans (forall₂_congr fun i _ => ?_)
    change _ + _ + _ = _ + _ + (bits.getD i false).toNat ↔ _
    cases (t.peer k).hasPiece i <;> cases bits.getD i false <;> simp
  rw [if_neg hup, if_neg hup]
  have S1 := shift_modifyBits t.picker bits (f := PiecePos.incPeerCount) (g := up) (fun _ => rfl)
  obtain ⟨S2, hc⟩ := shift_losePieces (t.peerHasBits bits) (t.peer k).havePiece bits rnds (t.peer k).havePiece.length
  have S := S1.trans S2
  generalize (t.peerHasBits bits).losePieces (t.peer k).havePiece bits rnds (t.peer k).havePiece.length = v at *
  have hc' : (v.setPeer k { havePiece := bits, numPieces := count bits, bitfieldReceived := true }).connections =
      t.connections.set k { havePiece := bits, numPieces := count bits, bitfieldReceived := true } := by
    rw [setPeer, hc]
    rfl
  refine ⟨hw.set S.num hc' (by rw [hbits, hsize]) rfl, ?_⟩
  rw [accounted_set h hk hc' S]
  refine forall₂_congr fun i hi => ?_
  rw [hsize]
  change (if i < t.picker.numPieces ∧ bits.getD i false = false ∧ (t.peer k).hasPiece i = true then _ else _) +
    t.picker.seeds + _ = _ + _ + (bits.getD i false).toNat ↔ _
  have hup' := up_eq (c := (t.picker.pos i).peerCount)
  have hne : up (t.picker.pos i).peerCount ≠ (t.picker.pos i).peerCount := by
    unfold up maxPeerCount
    omega
  have hdown := down_eq (c := (t.picker.pos i).peerCount)
  cases (t.peer k).hasPiece i <;> cases bits.getD i false <;> simp [hi] <;> omega

end

theorem connect_spec (hw : Wf t) (h : Accounted t) : Wf t.connect ∧ Accounted t.connect := by
  refine ⟨⟨fun p hp => ?_, fun p hp => ?_⟩, fun i hi => ?_⟩
  · rcases mem_append.mp hp with hp | hp
    · exact hw.size p hp
    · rw [mem_singleton.mp hp, length_replicate]
      rfl
  · rcases mem_append.mp hp with hp | hp
    · exact hw.num p hp
    · rw [mem_singleton.mp hp]
      simp [count, countP_replicate]
  · have hnew : (List.replicate t.picker.numPieces false).getD i false = false := by
      rw [getD_eq_getElem?_getD, List.getElem?_replicate]
      split <;> rfl
    have := h i hi
    rw [holders, connect, countP_append]
    simp only [countP_singleton, Peer.hasPiece, hnew, Bool.false_eq_true, if_false, Nat.add_zero]
    exact this

/-- **One event** keeps the accounts exactly if it balances; the bitfields always stay well-formed. -/
theorem step_spec {ev : Event} (hw : Wf t) (h : Accounted t) (hpre : t.Pre ev) :
    Wf (t.step ev) ∧ (Accounted (t.step ev) ↔ Balances t ev) := by
  cases ev with
  | connect =>
    obtain ⟨h1, h2⟩ := connect_spec hw h
    exact ⟨h1, iff_of_true h2 trivial⟩
  | «have» k index rnd => exact incomingHave_spec hw h hpre index rnd
  | dontHave k index rnd => exact incomingDontHave_spec hw h hpre index rnd
  | bitfield k bits rnds => exact incomingBitfield_spec hw h hpre.1 hpre.2 rnds
  | haveAll k => exact allPieces_spec hw h hpre rfl rfl
  | haveNone k =>
    obtain ⟨h1, h2⟩ := incomingHaveNone_spec hw h hpre
    exact ⟨h1, iff_of_true h2 trivial⟩
  | disconnect k => exact ⟨hw.removePeer k, removePeer_accounted hw h hpre⟩
  | setUploadMode b => exact ⟨⟨hw.size, hw.num⟩, iff_of_true h trivial⟩

/-! ## Runs -/

/-- **Availability accounting.** From accounts that are right, the accounts are right in every state of a run exactly if
every event of the run balances. -/
theorem availability_accounting (t : Torrent) (hw : Wf t) (h : Accounted t) (evs : List Event)
    (hl : Legal Torrent.step Torrent.Pre t evs) :
    Always Torrent.step Accounted t evs ↔ Legal Torrent.step Balances t evs :=
  always_iff_legal (fun _ _ hw h hpre => (step_spec hw h hpre).1) (fun _ _ hw h hpre => (step_spec hw h hpre).2) hw h hl

def twoPieces : Torrent := { picker := PiecePicker.new.init 1 1 2 }

theorem twoPieces_wf : Wf twoPieces where
  size := fun _ hp => by cases hp
  num := fun _ hp => by cases hp

theorem twoPieces_accounted : Accounted twoPieces := by decide

/-- A seed, a peer with one piece that gets the other and loses it again, and both leave. -/
def balancedRun : List Event :=
  [.connect, .haveAll 0, .connect, .bitfield 1 [true, false] id, .have 1 1 0, .dontHave 1 1 0, .disconnect 0,
    .have 0 1 0, .disconnect 0]

theorem availability_accounting_balancedRun : Always Torrent.step Accounted twoPieces balancedRun :=
  (availability_accounting twoPieces twoPieces_wf twoPieces_accounted balancedRun (by decide +kernel)).mpr
    (by decide +kernel)

/-- A seed that takes a piece back wraps its count: 65535 peers seem to have it. -/
theorem dont_have_after_have_all : ∃ evs, Legal Torrent.step Torrent.Pre twoPieces evs ∧
    ¬ Accounted (run Torrent.step twoPieces evs) ∧
      ((run Torrent.step twoPieces evs).picker.pos 0).peerCount = maxPeerCount :=
  ⟨[.connect, .haveAll 0, .dontHave 0 0 0], by decide +kernel, by decide +kernel, by decide +kernel⟩

end Libtorrent.Swarm
