import Libtorrent.Picker.Bookkeeping
import Libtorrent.Picker.Cursors

/-!
# What the calls do to the blocks

The state of a block and its number of peers, as the questions of the connections see them, and what each call on a
block does to it. A call on one block leaves the others alone (`Touch`).
-/

namespace Libtorrent.Picker

open Function Option Record

def Record.status (o : Option Record) (j : Nat) : BlockState × Nat :=
  o.elim (.none, 0) fun r => ((r.blocks j).state, (r.blocks j).numPeers)

theorem Record.status_move_self (r : Record) (j : Nat) (b : BlockInfo) (speed : PieceState) :
    Record.status (some (r.move j b speed)) j = (b.state, b.numPeers) := by
  simp [Record.status]

theorem Record.status_move_of_ne {j k : Nat} (o : Option Record) (h : k ≠ j) (b : BlockInfo) (speed : PieceState) :
    Record.status (some ((o.getD {}).move j b speed)) k = Record.status o k := by
  cases o <;> simp [Record.status, blocks_move_of_ne h]

namespace PiecePicker

variable {s s₁ s' : PiecePicker} {b c : PieceBlock} {peer : PeerPtr} {speed : PieceState} {rnd : Nat}

def status (s : PiecePicker) (b : PieceBlock) : BlockState × Nat := Record.status (s.book b.pieceIndex) b.blockIndex

theorem status_eq_getD (s : PiecePicker) (b : PieceBlock) : s.status b =
    ((((s.book b.pieceIndex).getD {}).blocks b.blockIndex).state,
      (((s.book b.pieceIndex).getD {}).blocks b.blockIndex).numPeers) := by
  unfold status
  cases s.book b.pieceIndex <;> rfl

/-! ## The questions -/

section

variable (L : Ledger s) (hr : s.InRange b)
include L hr

theorem blockInfo?_eq : s.blockInfo? b = (s.book b.pieceIndex).map fun r => r.blocks b.blockIndex := by
  have hj := L.lt_blocksPerPiece hr
  unfold blockInfo?
  rw [L.flag, book]
  cases s.findDlPiece b.pieceIndex with
  | none => rfl
  | some i => simp [record_block hj]

theorem numPeers_eq : s.numPeers b = (s.status b).2 := by
  rw [numPeers, blockInfo?_eq L hr, status]
  cases s.book b.pieceIndex <;> rfl

theorem isRequested_eq : s.isRequested b = decide ((s.status b).1 = .requested) := by
  rw [isRequested, blockInfo?_eq L hr, status]
  cases s.book b.pieceIndex with
  | none => rfl
  | some r => cases h : (r.blocks b.blockIndex).state <;> simp [Record.status, h]

theorem isDownloaded_eq : s.isDownloaded b =
    ((s.pos b.pieceIndex).have || decide ((s.status b).1 = .writing ∨ (s.status b).1 = .finished)) := by
  rw [isDownloaded, blockInfo?_eq L hr, status]
  cases s.book b.pieceIndex with
  | none => simp [Record.status]
  | some r => cases h : (r.blocks b.blockIndex).state <;> simp [Record.status, h]

theorem isFinished_eq : s.isFinished b = ((s.pos b.pieceIndex).have || decide ((s.status b).1 = .finished)) := by
  rw [isFinished, blockInfo?_eq L hr, status]
  cases s.book b.pieceIndex with
  | none => simp [Record.status]
  | some r => cases h : (r.blocks b.blockIndex).state <;> simp [Record.status, h]

end

theorem Peered.status (P : Peered s) (hr : s.InRange b) : 0 < (s.status b).2 ↔ (s.status b).1 = .requested := by
  unfold PiecePicker.status
  cases h : s.book b.pieceIndex with
  | none => simp [Record.status]
  | some r => exact P _ _ h _ hr.2

/-! ## Calls on a block -/

/-- A call that changes at most the status of the block `b`. -/
structure Touch (s s' : PiecePicker) (b : PieceBlock) : Prop where
  orderly : Orderly s'
  counts : SameCounts s s'
  inRange : ∀ c, s'.InRange c ↔ s.InRange c
  others : Peered s → ∀ c, s.InRange c → c ≠ b → s'.status c = s.status c
  peered : Peered s → ((s'.status b).1 = .requested → (s'.status b).2 ≠ 0) → Peered s'

theorem Touch.refl (h : Orderly s) (b : PieceBlock) : Touch s s b :=
  ⟨h, SameCounts.refl s, fun _ => Iff.rfl, fun _ _ _ _ => rfl, fun h _ => h⟩

theorem Refiled.status (R : Refiled s s') (b : PieceBlock) : s'.status b = s.status b := by
  obtain ⟨g, hg, hb⟩ := (SameBook.of_refiled R).book
  rw [PiecePicker.status, PiecePicker.status, hb]
  cases s.book b.pieceIndex with
  | none => rfl
  | some r => exact Prod.ext ((hg r).blocks _).1 ((hg r).blocks _).2

theorem inRange_congr (h : s'.numPieces = s.numPieces ∧ s'.blocksPerPiece = s.blocksPerPiece ∧
    s'.blocksInLastPiece = s.blocksInLastPiece) (c : PieceBlock) : s'.InRange c ↔ s.InRange c := by
  unfold InRange blocksInPiece
  rw [h.1, h.2.1, h.2.2]

variable {o : Option Record} {f : Bool} {i p : Nat}

theorem Amends.touch (A : Amends s s₁ b.pieceIndex o f) (L : Ledger s₁) (C : SameCounts s s₁)
    (h : Sound s' ∧ Refiled s₁ s') (ho : Peered s → ∀ k < s.blocksInPiece b.pieceIndex, k ≠ b.blockIndex →
      Record.status o k = Record.status (s.book b.pieceIndex) k)
    (hP : Peered s → ((Record.status o b.blockIndex).1 = .requested → (Record.status o b.blockIndex).2 ≠ 0) →
      Peered s₁) : Touch s s' b ∧ s'.status b = Record.status o b.blockIndex := by
  have hK := (SameBook.of_refiled h.2).keeps L
  have hst : s'.status b = Record.status o b.blockIndex := by
    rw [h.2.status, PiecePicker.status, A.book, update_self]
  refine ⟨⟨⟨h.1, hK.ledger⟩, C.trans (SameCounts.of_refiled h.2), fun c => ?_, fun P c hc hne => ?_,
    fun P hne => hK.peered (hP P (hst ▸ hne))⟩, hst⟩
  · exact (inRange_congr (SameBook.of_refiled h.2).shape c).trans (inRange_congr A.shape c)
  rw [h.2.status, PiecePicker.status, A.book, PiecePicker.status]
  by_cases hp : (c.pieceIndex : Nat) = b.pieceIndex
  · rw [hp, update_self]
    refine ho P _ (hp ▸ hc.2) fun he => hne ?_
    cases b
    cases c
    simp only [PieceBlock.mk.injEq]
    exact ⟨Fin.ext hp, Fin.ext he⟩
  · rw [update_of_ne hp]

theorem Entry.status_eq (E : Entry s b i) :
    (s.book b.pieceIndex).getD {} = s.record i ∧ s.status b = ((s.infoOf b).state, (s.infoOf b).numPeers) := by
  rw [status, E.book]
  exact ⟨rfl, by simp [Record.status, E.block]⟩

theorem status_of_book_none (h : s.book b.pieceIndex = none) : s.status b = (.none, 0) := by
  rw [status, h]
  rfl

theorem not_downloaded (L : Ledger s) (hr : s.InRange b) (h : s.isDownloaded b = false) :
    (s.pos b.pieceIndex).have = false ∧ (s.status b).1 ≠ .writing ∧ (s.status b).1 ≠ .finished := by
  rw [isDownloaded_eq L hr] at h
  simpa using h

theorem markAsDownloading_refused (L : Ledger s) (hr : s.InRange b) (hh : (s.pos b.pieceIndex).have = false)
    (hd : s.isDownloaded b = true) :
    s.markAsDownloading b peer speed rnd = (s, false) ∧ s.markAsDownloadingCore b peer speed = s := by
  rw [isDownloaded_eq L hr, hh, Bool.false_or, decide_eq_true_eq] at hd
  have hdl : (s.pos b.pieceIndex).downloading = true := by
    by_contra hdl
    rw [status_of_book_none (L.book_none hdl)] at hd
    rcases hd with h | h <;> cases h
  obtain ⟨i, E⟩ := L.entry hr hdl
  rw [E.status_eq.2, ← E.info] at hd
  unfold markAsDownloading markAsDownloadingCore requestBlock
  rw [if_pos hdl, if_pos hdl, E.find]
  dsimp only
  rw [if_pos hd]
  exact ⟨rfl, rfl⟩

theorem markAsDownloading_amends (peer : PeerPtr) (speed : PieceState) (rnd : Nat) (L : Ledger s)
    (hr : s.InRange b) (hn : s.isDownloaded b = false) :
    (s.markAsDownloading b peer speed rnd).2 = true ∧ ∃ f, Amends s (s.markAsDownloadingCore b peer speed) b.pieceIndex
        (some (((s.book b.pieceIndex).getD {}).request b.blockIndex peer speed)) f := by
  obtain ⟨-, h1, h2⟩ := not_downloaded L hr hn
  unfold markAsDownloading markAsDownloadingCore
  by_cases hd : (s.pos b.pieceIndex).downloading = true
  · obtain ⟨i, E⟩ := L.entry hr hd
    rw [E.status_eq.2, ← E.info] at h1 h2
    have hst : (s.block i b.blockIndex).state = .none ∨ (s.block i b.blockIndex).state = .requested := by
      cases h : (s.block i b.blockIndex).state <;> simp [h] at h1 h2 ⊢
    have A := (requestBlock_does peer speed L.slabbed E.lt (L.lt_blocksPerPiece hr) E.numPieces
      hst).amends L.slabbed E.lt E.downloading
    rw [E.index, ← E.status_eq.1] at A
    rw [if_pos hd, if_pos hd, E.find]
    refine ⟨?_, _, A⟩
    unfold requestBlock
    dsimp only
    rw [if_neg (by simp [h1, h2])]
  · rw [if_neg hd, if_neg hd, L.book_none hd]
    exact ⟨rfl, _, openRequested_amends peer speed L.slabbed hr.1 (L.lt_blocksPerPiece hr) (L.book_none hd)⟩

section

variable (peer) (rnd) (h : Orderly s) (hr : s.InRange b)
include h hr

/-- **`mark_as_downloading`**: true exactly if the block is not downloaded, and then it is requested by one peer
more. -/
theorem markAsDownloading_touch (hsp : speed ≠ .none) (hh : (s.pos b.pieceIndex).have = false) :
    Touch s (s.markAsDownloading b peer speed rnd).1 b ∧ (s.markAsDownloading b peer speed rnd).2 = !s.isDownloaded b ∧
      (s.markAsDownloading b peer speed rnd).1.status b =
        if s.isDownloaded b then s.status b else (.requested, ((s.status b).2 + 1) % 2 ^ 14) := by
  have L := h.2
  cases hd : s.isDownloaded b with
  | true =>
    rw [(markAsDownloading_refused L hr hh hd).1]
    exact ⟨Touch.refl h b, rfl, rfl⟩
  | false =>
    obtain ⟨hret, f, A⟩ := markAsDownloading_amends peer speed rnd L hr hd
    have hreq : Record.status (some (((s.book b.pieceIndex).getD {}).request b.blockIndex peer speed)) b.blockIndex =
        (.requested, ((s.status b).2 + 1) % 2 ^ 14) := by
      rw [Record.request, Record.status_move_self, status]
      cases s.book b.pieceIndex <;> rfl
    have hpre : s.Pre (.markAsDownloading b peer speed rnd) := ⟨hr, hsp, hh⟩
    obtain ⟨L1, -, hP⟩ := markAsDownloadingCore_spec L hpre
    obtain ⟨T, hst⟩ := A.touch L1 (SameCounts.markAsDownloadingCore s b peer speed)
      (step_sound h.1 hpre) (fun _ k _ hk => Record.status_move_of_ne _ hk _ _)
      fun P hne => (hP P).mpr fun hdl _ => by
        obtain ⟨i, E⟩ := L.entry hr hdl
        rw [hreq, E.status_eq.2] at hne
        exact hne rfl
    exact ⟨T, hret, hst.trans hreq⟩

/-- **`mark_as_writing`**, for a block that is not downloaded: nobody requests it any more. -/
theorem markAsWriting_touch (hn : s.isDownloaded b = false) :
    Touch s (s.markAsWriting b peer rnd).1 b ∧ (s.markAsWriting b peer rnd).1.status b = (.writing, 0) := by
  have L := h.2
  obtain ⟨hh, h1, h2⟩ := not_downloaded L hr hn
  have hS : Sound (s.markAsWriting b peer rnd).1 ∧
    Refiled (s.markAsWritingCore b peer) (s.markAsWriting b peer rnd).1 :=
    markAsWriting_sound h.1
  rw [status_eq_getD] at h1 h2
  obtain ⟨hh', -⟩ | ⟨-, r, f, A, hrec, -⟩ := markAsWritingCore_amends peer L hr rfl
  · exact absurd (hh.symm.trans hh') (by decide)
  rw [if_neg (not_or.mpr ⟨h1, h2⟩)] at hrec
  subst hrec
  have T := A.touch (markAsWritingCore_keeps L hr).ledger (SameCounts.markAsWritingCore s b peer)
    hS (fun _ k _ hk => Record.status_move_of_ne _ hk _ _) fun P _ => (markAsWritingCore_keeps L hr).peered P
  exact ⟨T.1, T.2.trans (Record.status_move_self ..)⟩

end

/-- The status of a block when one peer withdraws its request. -/
def withdrawn (st : BlockState × Nat) : BlockState × Nat :=
  if st.1 ≠ .requested then st else if 1 < st.2 then (.requested, st.2 - 1) else (.none, 0)

theorem abortDownloadCore_amends (peer : PeerPtr) (L : Ledger s) (hr : s.InRange b) (E : Entry s b i)
    (hst : (s.infoOf b).state = .requested) : ∃ o f, Amends s (s.abortDownloadCore b peer) b.pieceIndex o f ∧
      Record.status o b.blockIndex = withdrawn (s.status b) ∧
      (Peered s → ∀ k < s.blocksInPiece b.pieceIndex, k ≠ b.blockIndex →
        Record.status o k = Record.status (s.book b.pieceIndex) k) := by
  have hgetD := E.status_eq.1
  have hnum : (((s.record i).withdraw b.blockIndex peer).blocks b.blockIndex).numPeers = (s.infoOf b).numPeers - 1 := by
    rw [withdraw, blocks_move_self, E.block]
  have hwd : withdrawn (s.status b) =
      if 1 < (s.infoOf b).numPeers then (.requested, (s.infoOf b).numPeers - 1) else (.none, 0) := by
    rw [E.status_eq.2, withdrawn, if_neg (by simp [hst])]
  have hother : ∀ k, k ≠ (b.blockIndex : Nat) →
      (((s.record i).withdraw b.blockIndex peer).free b.blockIndex).blocks k = (s.record i).blocks k := by
    intro k hk
    rw [free, blocks_move_of_ne hk, withdraw, blocks_move_of_ne hk]
  rw [hwd]
  obtain ⟨hpos, A⟩ | ⟨hpos, ⟨hu, f, A⟩ | ⟨-, A⟩⟩ := abortDownloadCore_cases L hr E hst rfl
  · -- other peers have requested the block as well
    rw [← hgetD] at A
    refine ⟨_, _, A, ?_, fun _ k _ hk => Record.status_move_of_ne _ hk _ _⟩
    rw [if_pos (by omega), hgetD, withdraw, Record.status_move_self, E.block, hst]
  · -- the piece is no longer downloaded: its other blocks were free
    rw [if_neg (by omega)]
    refine ⟨_, _, A, rfl, fun P k hk hne => ?_⟩
    have hc : (((s.record i).withdraw b.blockIndex peer).free b.blockIndex).Counted (s.blocksInPiece b.pieceIndex) :=
      (E.ok.toCounted.move hr.2 b.blockIndex.isLt _ _).move hr.2 b.blockIndex.isLt _ _
    have h1 := hc.total_eq_zero.mp hu k hk
    rw [hother k hne] at h1
    have h2 := P _ _ E.book k hk
    rw [h1] at h2
    rw [E.book]
    simp only [Record.status, elim_none, elim_some, h1, Prod.mk.injEq, true_and]
    have h3 : ((s.record i).blocks k).numPeers = 0 := by simpa using h2
    exact h3.symm
  · rw [if_neg (by omega)]
    refine ⟨_, _, A, ?_, fun _ k _ hk => ?_⟩
    · simp only [Record.status, elim_some, Record.clearSpeed, free, blocks_move_self, withdraw, E.block]
      rw [Prod.mk.injEq]
      exact ⟨rfl, by omega⟩
    · rw [E.book]
      simp only [Record.status, elim_some, Record.clearSpeed, hother k hk]

theorem Refiled.touch (R : Refiled s s') (hS : Sound s') (L : Ledger s) (b : PieceBlock) : Touch s s' b := by
  have K := (SameBook.of_refiled R).keeps L
  refine ⟨⟨hS, K.ledger⟩, SameCounts.of_refiled R, fun c => ?_, fun _ c _ _ => R.status c, fun P _ => K.peered P⟩
  exact inRange_congr (SameBook.of_refiled R).shape c

theorem abortDownload_touch (peer : PeerPtr) (rnd : Nat) (h : Orderly s) (hr : s.InRange b) :
    Touch s (s.abortDownload b peer rnd) b ∧ (s.abortDownload b peer rnd).status b = withdrawn (s.status b) := by
  have L := h.2
  have hS : Sound (s.abortDownload b peer rnd) ∧ Refiled (s.abortDownloadCore b peer) (s.abortDownload b peer rnd) :=
    abortDownload_sound h.1
  by_cases hst : (s.status b).1 = .requested
  · have hd : (s.pos b.pieceIndex).downloading = true := by
      by_contra hd
      rw [status_of_book_none (L.book_none hd)] at hst
      cases hst
    obtain ⟨i, E⟩ := L.entry hr hd
    rw [E.status_eq.2] at hst
    obtain ⟨o, f, A, h1, h2⟩ := abortDownloadCore_amends peer L hr E hst
    rw [← h1]
    exact A.touch (abortDownloadCore_keeps L hr).ledger (SameCounts.abortDownloadCore s b peer) hS h2
      fun P _ => (abortDownloadCore_keeps L hr).peered P
  · have he : s.abortDownloadCore b peer = s := by
      refine (abortDownloadCore_eq_or peer L hr).resolve_right fun ⟨i, E, h'⟩ => hst ?_
      rw [E.status_eq.2]
      exact h'
    rw [he] at hS
    rw [withdrawn, if_pos hst]
    exact ⟨hS.2.touch hS.1 L b, hS.2.status b⟩

/-- **`mark_as_finished`**: the block is downloaded, and finished unless we have its piece. -/
theorem markAsFinished_touch (h : Orderly s) (hpre : s.Pre (.markAsFinished b peer rnd)) :
    Touch s (s.markAsFinished b peer rnd) b ∧ (s.markAsFinished b peer rnd).isDownloaded b = true ∧
      ((s.pos b.pieceIndex).have = false → (s.markAsFinished b peer rnd).status b = (.finished, (s.status b).2)) := by
  have L := h.2
  have hr := hpre.1
  have hS : Sound (s.markAsFinished b peer rnd) ∧ Refiled (s.markAsFinishedCore b peer) (s.markAsFinished b peer rnd) :=
    markAsFinished_sound h.1
  obtain ⟨he, hdone⟩ | ⟨-, -, -, A⟩ := markAsFinishedCore_amends L hpre rfl
  · rw [he] at hS
    replace hdone := hdone.imp_right fun h => (congrArg Prod.fst (status_eq_getD s b)).trans h.2
    have T := hS.2.touch hS.1 L b
    refine ⟨T, ?_, fun hh => ?_⟩
    · rw [isDownloaded_eq T.orderly.2 ((T.inRange b).mpr hr), T.counts.have, hS.2.status b]
      rcases hdone with h | h <;> simp [h]
    · rw [hS.2.status b, ← hdone.resolve_left (by rw [hh]; decide)]
  obtain ⟨L1, hP, -⟩ := markAsFinishedCore_spec L hpre
  obtain ⟨T, hst⟩ := A.touch L1 (SameCounts.markAsFinishedCore s b peer) hS
    (fun _ k _ hk => Record.status_move_of_ne _ hk _ _) fun P _ => hP P
  rw [Record.finish, Record.status_move_self] at hst
  refine ⟨T, ?_, fun _ => ?_⟩
  · rw [isDownloaded_eq T.orderly.2 ((T.inRange b).mpr hr), hst]
    simp
  · rw [hst, status]
    cases s.book b.pieceIndex <;> rfl

/-! ## Calls on a piece -/

theorem dropEntry_amends (L : Ledger s) (p : Nat) : Amends s (s.dropEntry p) p none (s.pos p).full := by
  unfold dropEntry
  by_cases hd : (s.pos p).downloading = true
  · rw [if_pos hd]
    rw [L.flag, book, isSome_map] at hd
    obtain ⟨i, hi⟩ := isSome_iff_exists.mp hd
    obtain ⟨h1, h2⟩ := findDlPiece_index hi
    have A := eraseDownloadPiece_amends L.slabbed h1
    rw [h2] at A
    rw [hi]
    exact A
  rw [if_neg hd]
  have hb := L.book_none hd
  refine ⟨⟨rfl, rfl, rfl⟩, L.slabbed, ?_, fun q => ?_, fun _ => rfl, fun q => ?_⟩
  · rw [← hb, update_eq_self]
  · split
    · rename_i hq
      rw [hq]
      simpa using hd
    · rfl
  · split
    · rename_i hq
      rw [hq]
    · rfl

theorem restorePieceCore_eq (L : Ledger s) (p : Nat) : s.restorePieceCore p = s.dropEntry p := by
  unfold restorePieceCore dropEntry
  rw [L.flag, book, isSome_map]
  cases s.findDlPiece p <;> rfl

theorem Amends.status (A : Amends s s' p o f) (c : PieceBlock) :
    s'.status c = if (c.pieceIndex : Nat) = p then Record.status o c.blockIndex else s.status c := by
  rw [PiecePicker.status, A.book]
  split
  · rename_i hc
    rw [hc, update_self]
  · rename_i hc
    rw [update_of_ne hc, PiecePicker.status]

/-- A call that changes at most the blocks of the piece `p`. -/
structure Settle (s s' : PiecePicker) (p : Nat) : Prop where
  orderly : Orderly s'
  balanced : Balanced s → Balanced s'
  peered : Peered s → Peered s'
  inRange : ∀ c, s'.InRange c ↔ s.InRange c
  others : ∀ c, (c.pieceIndex : Nat) ≠ p → s'.status c = s.status c
  «have» : ∀ q, q ≠ p → (s'.pos q).have = (s.pos q).have

theorem weHaveCore_spec (L : Ledger s) (hp : p < s.numPieces) : SameBook (s.dropEntry p) (s.weHaveCore p) ∧
      ∀ q, ((s.weHaveCore p).pos q).have = if q = p then true else (s.pos q).have := by
  have C := SameCounts.dropEntry s p
  refine ⟨weHaveCore_sameBook L p, fun q => ?_⟩
  unfold weHaveCore
  split
  · rename_i hh
    split
    · rename_i hq
      rw [hq, hh]
    · exact C.have q
  obtain ⟨c, r, hc⟩ := closeCursors_eq (((s.dropEntry p).countGain p).modifyPos p PiecePos.setHave) p
  unfold gainPiece
  rw [hc]
  show ((((s.dropEntry p).countGain p).modifyPos p PiecePos.setHave).pos q).have = _
  rw [pos_modifyPos]
  have hp' : p < ((s.dropEntry p).countGain p).numPieces := by
    show p < (s.dropEntry p).numPieces
    rw [C.num]
    exact hp
  split
  · rename_i hq
    rw [if_pos hq.1.symm]
    rfl
  · rename_i hq
    rw [if_neg fun e : q = p => hq ⟨e.symm, e ▸ hp'⟩]
    exact C.have q

theorem weHave_settle (h : Orderly s) (hp : p < s.numPieces) :
    Settle s (s.weHave p) p ∧ ((s.weHave p).pos p).have = true := by
  have L := h.2
  obtain ⟨B, hh⟩ := weHaveCore_spec L hp
  have hS := weHave_sound h.1 hp
  have hK := (weHaveCore_keeps L p).trans ((SameBook.of_refiled hS.2).keeps (weHaveCore_keeps L p).ledger)
  have hpos : ∀ q, ((s.weHave p).pos q).have = if q = p then true else (s.pos q).have := fun q =>
    ((SameCounts.of_refiled hS.2).have q).trans (hh q)
  refine ⟨⟨⟨hS.1, hK.ledger⟩, fun hb => ?_, hK.peered, fun c => ?_, fun c hc => ?_, fun q hq => ?_⟩, ?_⟩
  · have hb' : Balanced (s.coreStep (.weHave p)) := coreStep_balanced hb hp trivial
    exact (SameCounts.of_refiled hS.2).balanced hb'
  · exact ((inRange_congr (SameBook.of_refiled hS.2).shape c).trans (inRange_congr B.shape c)).trans
      (inRange_congr (dropEntry_amends L p).shape c)
  · obtain ⟨g, hg, hb⟩ := B.book
    have hd := (dropEntry_amends L p).status c
    rw [if_neg hc] at hd
    rw [hS.2.status, ← hd, status, status, hb]
    cases (s.dropEntry p).book c.pieceIndex with
    | none => rfl
    | some r => exact Prod.ext ((hg r).blocks _).1 ((hg r).blocks _).2
  · rw [hpos, if_neg hq]
  · rw [hpos, if_pos rfl]

/-- **`restore_piece`**: all blocks of the piece are free. -/
theorem restorePiece_settle (rnd : Nat) (h : Orderly s) (p : Nat) :
    Settle s (s.restorePiece p rnd) p ∧ SameCounts s (s.restorePiece p rnd) ∧
      ∀ c, (c.pieceIndex : Nat) = p → (s.restorePiece p rnd).status c = (.none, 0) := by
  have L := h.2
  have A := dropEntry_amends L p
  have hS : Sound (s.restorePiece p rnd) ∧ Refiled (s.restorePieceCore p) (s.restorePiece p rnd) :=
    restorePiece_sound h.1
  rw [restorePieceCore_eq L] at hS
  have hK := (A.keeps_none L).trans ((SameBook.of_refiled hS.2).keeps (A.keeps_none L).ledger)
  have C := (SameCounts.dropEntry s p).trans (SameCounts.of_refiled hS.2)
  refine ⟨⟨⟨hS.1, hK.ledger⟩, C.balanced, hK.peered, fun c => ?_, fun c hc => ?_, fun q _ => C.have q⟩, C,
    fun c hc => ?_⟩
  · exact (inRange_congr (SameBook.of_refiled hS.2).shape c).trans (inRange_congr A.shape c)
  · rw [hS.2.status, A.status, if_neg hc]
  · rw [hS.2.status, A.status, if_pos hc]
    rfl

theorem Balanced.seed (h : Balanced s) (hs : (s.numHave == s.numPieces) = true) (hr : s.InRange b) :
    s.isDownloaded b = true := by
  have hall : Tally.tally s.numPieces (fun i => (s.pos i).have) = s.numPieces := by
    have := h.numHave
    simp only [beq_iff_eq] at hs
    unfold howMany at this
    omega
  rw [isDownloaded, Tally.tally_eq_self.mp hall _ hr.1, Bool.true_or]

end PiecePicker

end Libtorrent.Picker
