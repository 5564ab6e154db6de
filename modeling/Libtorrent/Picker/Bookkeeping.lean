import Libtorrent.Picker.Ledger

/-!
# Partial-piece bookkeeping over whole runs

What the calls on blocks do to the records, and what follows for runs of the picker:

* `partial_piece_bookkeeping`: the download queue is in order in every state of a run exactly if no call of
  `mark_as_downloading` wraps the 14-bit `num_peers` of its block;
* `full_hides_nothing`: the `full` flag hides no free block in any state of a run exactly if no `mark_as_finished` adds
  an entry for a piece of several blocks whose flag is still set from an earlier download.
-/

namespace Libtorrent.Picker.PiecePicker

open Run Tally List Option Nat Record Keeps DownloadingPiece

variable {s s' : PiecePicker} {p i j : Nat} {r : Record} {b : PieceBlock} {peer : PeerPtr}

/-! ## Calls on blocks -/

/-- The block belongs to the entry at `i`, whose record is in order. -/
structure Entry (s : PiecePicker) (block : PieceBlock) (i : Nat) : Prop where
  find : s.findDlPiece block.pieceIndex = some i
  lt : i < s.downloads.length
  index : (s.dl i).index = block.pieceIndex
  downloading : (s.pos (s.dl i).index).downloading = true
  lacking : (s.pos block.pieceIndex).have = false
  numPieces : (s.dl i).index < s.numPieces
  book : s.book block.pieceIndex = some (s.record i)
  ok : (s.record i).Ok (s.blocksInPiece block.pieceIndex)
  info : s.block i block.blockIndex = s.infoOf block
  block : (s.record i).blocks block.blockIndex = s.infoOf block

theorem Ledger.lt_blocksPerPiece (L : Ledger s) (hr : s.InRange b) : (b.blockIndex : Nat) < s.blocksPerPiece :=
  lt_of_lt_of_le hr.2 (L.blocksInPiece_le _)

theorem Ledger.entry (L : Ledger s) (hr : s.InRange b) (hd : (s.pos b.pieceIndex).downloading = true) :
    ∃ i, Entry s b i := by
  have hb := hd
  rw [L.flag, book, isSome_map] at hb
  obtain ⟨i, hi⟩ := isSome_iff_exists.mp hb
  obtain ⟨h1, h2⟩ := findDlPiece_index hi
  have hbook : s.book b.pieceIndex = some (s.record i) := by rw [book, hi]; rfl
  have hinfo : s.block i b.blockIndex = s.infoOf b := by rw [infoOf, hi]
  refine ⟨i, hi, h1, h2, h2 ▸ hd, L.lacking _ (by rw [hbook]; rfl), h2 ▸ hr.1, hbook, L.ok _ _ hbook, hinfo, ?_⟩
  rw [record_block (L.lt_blocksPerPiece hr), hinfo]

theorem Ledger.book_none (L : Ledger s) (hd : ¬ (s.pos p).downloading = true) : s.book p = none := by
  rw [L.flag] at hd
  simpa using hd

theorem Entry.held (E : Entry s b i) : (s.book b.pieceIndex).getD {} = s.record i := by
  rw [E.book]
  rfl

/-- The record of a piece, if it has one, else the empty one. -/
theorem Ledger.held (L : Ledger s) (p : Nat) : ((s.book p).getD {}).Counted (s.blocksInPiece p) ∧
    (((s.book p).getD {}).speed = .none ↔ ((s.book p).getD {}).requested = 0) ∧
    (Peered s → ((s.book p).getD {}).Peers (s.blocksInPiece p)) := by
  cases h : s.book p with
  | none => exact ⟨counted_empty _, iff_of_true rfl rfl, fun _ => peers_empty _⟩
  | some => exact ⟨(L.ok _ _ h).toCounted, (L.ok _ _ h).speed, fun P => P _ _ h⟩

variable {n rnd : Nat} {op : Op} {x : Record}

theorem solid_of_decide (h : r.Counted n) (hf : decide (r.total = n) = true) : r.Solid n :=
  h.total_eq.mp (of_decide_eq_true hf)

def NoWrap (s : PiecePicker) : Op → Prop
  | .markAsDownloading block _ _ _ =>
    (s.pos block.pieceIndex).downloading = true → (s.infoOf block).state = .requested →
      ((s.infoOf block).numPeers + 1) % 2 ^ 14 ≠ 0
  | _ => True

/-- The call does not add an entry with a stale `full` flag. -/
def NotStale (s : PiecePicker) : Op → Prop
  | .markAsFinished block _ _ =>
    (s.pos block.pieceIndex).downloading = false → (s.pos block.pieceIndex).have = false →
      (s.pos block.pieceIndex).full = true → s.blocksInPiece block.pieceIndex = 1
  | _ => True

instance (s : PiecePicker) (op : Op) : Decidable (s.NoWrap op) := by
  apply Op.casesOn (motive := fun op => Decidable (s.NoWrap op)) op <;> intros <;> (dsimp only [NoWrap]; infer_instance)

instance (s : PiecePicker) (op : Op) : Decidable (s.NotStale op) := by
  apply Op.casesOn (motive := fun op => Decidable (s.NotStale op)) op <;> intros <;>
    (dsimp only [NotStale]; infer_instance)

theorem markAsDownloadingCore_spec {speed : PieceState} (L : Ledger s)
    (hpre : s.Pre (.markAsDownloading b peer speed rnd)) : Ledger (s.markAsDownloadingCore b peer speed) ∧
      (NothingHidden s → NothingHidden (s.markAsDownloadingCore b peer speed)) ∧
      (Peered s → (Peered (s.markAsDownloadingCore b peer speed) ↔
        s.NoWrap (.markAsDownloading b peer speed rnd))) := by
  obtain ⟨hr, hsp, hhave⟩ := hpre
  have hj := hr.2
  have hs := b.blockIndex.isLt
  unfold markAsDownloadingCore
  by_cases hd : (s.pos b.pieceIndex).downloading = true
  · obtain ⟨i, E⟩ := L.entry hr hd
    rw [if_pos hd, E.find]
    dsimp only
    by_cases hst : (s.block i b.blockIndex).state = .writing ∨ (s.block i b.blockIndex).state = .finished
    · -- the b is downloaded already
      rw [requestBlock_of_downloaded peer speed hst]
      refine ⟨L, id, fun h => iff_of_true h fun _ hreq => ?_⟩
      rw [E.info, hreq] at hst
      rcases hst with h | h <;> cases h
    have hst' : (s.block i b.blockIndex).state = .none ∨ (s.block i b.blockIndex).state = .requested := by
      cases h : (s.block i b.blockIndex).state <;> simp [h] at hst ⊢
    have A := (requestBlock_does peer speed L.slabbed E.lt (L.lt_blocksPerPiece hr) E.numPieces
      hst').amends L.slabbed E.lt E.downloading
    rw [E.index] at A
    have hok : ((s.record i).request b.blockIndex peer speed).Ok (s.blocksInPiece b.pieceIndex) :=
      E.ok.toCounted.request hj hs hsp
    refine ⟨A.ledger L (fun _ h => by cases h; exact hok) (fun _ => hhave), fun hn => ?_, fun hpd => ?_⟩
    · rw [A.nothingHidden_iff hn]
      intro _ h hf
      cases h
      split at hf
      · exact solid_of_decide hok.toCounted hf
      · exact (hn _ _ E.book hf).move (fun h => by cases h)
    have hbefore := hpd _ _ E.book
    rw [A.peered_iff hpd]
    simp only [some.injEq, forall_eq', request, hbefore.move_iff hj, iff_true, E.block, NoWrap, hd, true_imp_iff]
    have hb := hbefore _ hj
    rw [E.block] at hb
    rw [E.info] at hst'
    rcases hst' with h | h
    · -- a free b has no peers
      have h0 : (s.infoOf b).numPeers = 0 := by
        have : ¬ 0 < (s.infoOf b).numPeers := fun hpos => by rw [hb.mp hpos] at h; cases h
        omega
      simp [h, h0]
    · simp [h, Nat.pos_iff_ne_zero]
  · rw [if_neg hd]
    have A := openRequested_amends peer speed L.slabbed hr.1 (L.lt_blocksPerPiece hr) (L.book_none hd)
    have hok : (({} : Record).request b.blockIndex peer speed).Ok (s.blocksInPiece b.pieceIndex) :=
      (counted_empty _).request hj hs hsp
    have K := A.keeps_some L hok hhave (fun _ => ((peers_empty _).move_iff hj).mpr (iff_of_true one_pos rfl))
      (fun _ hf => solid_of_decide hok.toCounted hf)
    exact ⟨K.ledger, K.nothingHidden, fun h => iff_of_true (K.peered h) fun hd' => absurd hd' hd⟩

theorem markAsWritingCore_amends (peer : PeerPtr) (L : Ledger s) (hr : s.InRange b)
    (hx : (s.book b.pieceIndex).getD {} = x) : (s.pos b.pieceIndex).have = true ∧ s.markAsWritingCore b peer = s ∨
      (s.pos b.pieceIndex).have = false ∧ ∃ r f, Amends s (s.markAsWritingCore b peer) b.pieceIndex (some r) f ∧
        (r = if (x.blocks b.blockIndex).state = .writing ∨ (x.blocks b.blockIndex).state = .finished
          then x.credit b.blockIndex peer else x.write b.blockIndex peer) ∧
        (NothingHidden s → f = true → r.Solid (s.blocksInPiece b.pieceIndex)) := by
  have hw := L.lt_blocksPerPiece hr
  unfold markAsWritingCore
  by_cases hd : (s.pos b.pieceIndex).downloading = true
  · obtain ⟨i, E⟩ := L.entry hr hd
    rw [if_pos hd, E.find, ← hx, E.held, record_block hw]
    have A := (writeBlock_does peer L.slabbed E.lt hw).amends L.slabbed E.lt E.downloading
    rw [E.index] at A
    refine .inr ⟨E.lacking, _, _, A, rfl, fun h hf => ?_⟩
    split
    · rename_i hst
      refine (h _ _ E.book hf).move ?_
      rw [record_block hw]
      rcases hst with h | h <;> rw [h] <;> decide
    · exact (h _ _ E.book hf).move (fun e => by cases e)
  · rw [L.book_none hd] at hx
    rw [if_neg hd, ← hx]
    by_cases hhave : (s.pos b.pieceIndex).have = true
    · exact .inl ⟨hhave, if_pos hhave⟩
    rw [if_neg hhave]
    have hok : (({} : Record).write b.blockIndex peer).Ok (s.blocksInPiece b.pieceIndex) :=
      (counted_empty _).write (fun _ => rfl) hr.2 b.blockIndex.isLt
    exact .inr ⟨by simpa using hhave, _, _, openWriting_amends peer L.slabbed hr.1 hw (L.book_none hd), rfl,
      fun _ hf => solid_of_decide hok.toCounted hf⟩

theorem markAsWritingCore_keeps (L : Ledger s) (hr : s.InRange b) : Keeps s (s.markAsWritingCore b peer) := by
  have hj := hr.2
  have hs := b.blockIndex.isLt
  obtain ⟨-, he⟩ | ⟨hh, r, f, A, hrec, hf⟩ := markAsWritingCore_amends peer L hr rfl
  · rw [he]
    exact refl L
  obtain ⟨hc, hsp, hp⟩ := L.held b.pieceIndex
  generalize (s.book b.pieceIndex).getD {} = x at *
  split at hrec
  · rename_i hst
    have hb : (x.blocks b.blockIndex).state ≠ .none := by rcases hst with h | h <;> rw [h] <;> decide
    subst hrec
    exact A.keeps_some L (hc.move_ok hsp hj hs (live_move _ _ hj hb) Iff.rfl) hh
      (fun h => ((hp h).move_iff hj).mpr (hp h _ hj)) hf
  · subst hrec
    exact A.keeps_some L (hc.write hsp.mp hj hs) hh
      (fun h => ((hp h).move_iff hj).mpr (iff_of_false (lt_irrefl 0) (fun e => by cases e))) hf

theorem solid_finish (hj : j < n) (hs : j < 2 ^ 13) : (({} : Record).finish j peer).Solid n ↔ n = 1 := by
  have hc : (({} : Record).finish j peer).Counted n := (counted_empty n).move hj hs _ _
  have ht : (({} : Record).finish j peer).total = 1 := rfl
  have h := hc.total_eq
  rw [ht] at h
  rw [Record.Solid, ← h]
  omega

theorem markAsFinishedCore_amends (L : Ledger s) (hpre : s.Pre (.markAsFinished b peer rnd))
    (hx : (s.book b.pieceIndex).getD {} = x) : (s.markAsFinishedCore b peer = s ∧ ((s.pos b.pieceIndex).have = true ∨
      (s.pos b.pieceIndex).downloading = true ∧ (x.blocks b.blockIndex).state = .finished)) ∨
      (s.pos b.pieceIndex).have = false ∧ (x.blocks b.blockIndex).state ≠ .requested ∧
        (x.blocks b.blockIndex).numPeers = 0 ∧ Amends s (s.markAsFinishedCore b peer) b.pieceIndex
          (some (x.finish b.blockIndex peer)) (s.pos b.pieceIndex).full := by
  obtain ⟨hr, hpre⟩ := hpre
  have hw := L.lt_blocksPerPiece hr
  unfold markAsFinishedCore
  by_cases hd : (s.pos b.pieceIndex).downloading = true
  · obtain ⟨i, E⟩ := L.entry hr hd
    rw [if_pos hd] at hpre
    rw [if_pos hd, E.find, ← hx, E.held, E.block]
    by_cases hfin : (s.infoOf b).state = .finished
    · left
      unfold finishBlock
      dsimp only
      rw [E.info, if_pos hfin]
      exact ⟨rfl, Or.inr ⟨hd, hfin⟩⟩
    obtain ⟨hnum, hst⟩ := hpre.resolve_left hfin
    have hst' : (s.infoOf b).state = .none ∨ (s.infoOf b).state = .writing :=
      hst.elim Or.inr fun h => Or.inl h.1
    have A := (finishBlock_does peer L.slabbed E.lt hw (E.info ▸ hst')).amends L.slabbed E.lt E.downloading
    rw [E.index] at A
    exact Or.inr ⟨E.lacking, by rcases hst' with h | h <;> rw [h] <;> decide, hnum, A⟩
  · rw [L.book_none hd] at hx
    rw [if_neg hd, ← hx]
    by_cases hh : (s.pos b.pieceIndex).have = true
    · rw [if_pos hh]
      exact Or.inl ⟨rfl, Or.inl hh⟩
    · rw [if_neg hh]
      exact Or.inr ⟨by simpa using hh, fun e => (by cases e), rfl,
        openFinished_amends peer L.slabbed hr.1 hw (L.book_none hd)⟩

theorem markAsFinishedCore_spec (L : Ledger s) (hpre : s.Pre (.markAsFinished b peer rnd)) :
    Ledger (s.markAsFinishedCore b peer) ∧ (Peered s → Peered (s.markAsFinishedCore b peer)) ∧
      (NothingHidden s → (NothingHidden (s.markAsFinishedCore b peer) ↔ s.NotStale (.markAsFinished b peer rnd))) := by
  have hj := hpre.1.2
  have hs := b.blockIndex.isLt
  obtain ⟨he, hdone⟩ | ⟨hh, hne, hnum, A⟩ := markAsFinishedCore_amends L hpre rfl
  · rw [he]
    refine ⟨L, id, fun h => iff_of_true h fun hd hh => ?_⟩
    rw [hd, hh] at hdone
    simp at hdone
  obtain ⟨hc, hsp, hp⟩ := L.held b.pieceIndex
  refine ⟨A.ledger L (fun _ h => by cases h; exact hc.finish hsp hj hs hne) (fun _ => hh), fun h => ?_, fun h => ?_⟩
  · rw [A.peered_iff h]
    intro _ e
    cases e
    refine ((hp h).move_iff hj).mpr (iff_of_false ?_ (fun e => by cases e))
    rw [hnum]
    exact lt_irrefl 0
  rw [A.nothingHidden_iff h]
  simp only [some.injEq, forall_eq', NotStale, hh, true_imp_iff]
  cases hb : s.book b.pieceIndex with
  | none =>
    have hd : (s.pos b.pieceIndex).downloading = false := by rw [L.flag, hb]; rfl
    simp only [hd, true_imp_iff, getD_none, solid_finish hj hs]
  | some =>
    refine iff_of_true (fun hf => (h _ _ hb hf).move (fun e => by cases e)) fun hd => ?_
    rw [L.flag, hb] at hd
    cases hd

theorem unused_iff (s : PiecePicker) (i : Nat) : s.unused i = true ↔ (s.record i).total = 0 := by
  simp only [unused, decide_eq_true_eq, total, record]
  omega

theorem Does.erase_amends {f : Bool} (D : Does s s' i r f) (S : Slabbed s) (hi : i < s.downloads.length)
    (hd : (s.pos (s.dl i).index).downloading = true) :
    Amends s (s'.eraseDownloadPiece i) (s.dl i).index none (s'.pos (s.dl i).index).full := by
  have A := D.amends S hi hd
  have B := eraseDownloadPiece_amends A.slabbed (D.lt hi)
  rw [(D.entry i).1] at B
  exact A.trans B

theorem writeFailedCore_amends (L : Ledger s) (hpre : s.Pre (.writeFailed b rnd))
    (hx : (s.book b.pieceIndex).getD {} = x) :
    (s.pos b.pieceIndex).have = false ∧ (x.blocks b.blockIndex).state = .writing ∧
      ((∃ f, Amends s (s.writeFailedCore b) b.pieceIndex none f) ∨ (x.free b.blockIndex).total ≠ 0 ∧
        Amends s (s.writeFailedCore b) b.pieceIndex (some (x.free b.blockIndex))
          (decide ((x.free b.blockIndex).total = s.blocksInPiece b.pieceIndex))) := by
  obtain ⟨hr, hfind, hst⟩ := hpre
  obtain ⟨i, E⟩ := L.entry hr (by
    rw [L.flag, book, isSome_map]
    exact isSome_iff_ne_none.mpr hfind)
  have D := failBlock_does L.slabbed E.lt (L.lt_blocksPerPiece hr) E.numPieces (by rw [E.info, hst])
  unfold writeFailedCore
  rw [E.find]
  dsimp only
  rw [E.info, if_neg (by rw [hst]; decide), ← hx, E.held, E.block]
  refine ⟨E.lacking, hst, ?_⟩
  unfold dropIfUnused
  by_cases hu : (s.failBlock i b.blockIndex).unused i = true
  · rw [if_pos hu]
    have A := D.erase_amends L.slabbed E.lt E.downloading
    rw [E.index] at A
    exact .inl ⟨_, A⟩
  rw [if_neg hu]
  rw [unused_iff, D.now] at hu
  have A := D.amends L.slabbed E.lt E.downloading
  rw [E.index] at A
  exact .inr ⟨hu, A⟩

theorem writeFailedCore_keeps (L : Ledger s) (hpre : s.Pre (.writeFailed b rnd)) : Keeps s (s.writeFailedCore b) := by
  have hj := hpre.1.2
  have hs := b.blockIndex.isLt
  obtain ⟨hh, hblk, ⟨f, A⟩ | ⟨hu, A⟩⟩ := writeFailedCore_amends L hpre rfl
  · exact A.keeps_none L
  obtain ⟨hc, hsp, hp⟩ := L.held b.pieceIndex
  have hc' : (((s.book b.pieceIndex).getD {}).free b.blockIndex).Counted _ := hc.move hj hs _ _
  refine A.keeps_some L ?_ hh (fun h => ?_) fun _ hf => solid_of_decide hc' hf
  · exact hc.move_ok hsp hj hs (hc'.live hu) (iff_of_false (by rw [hblk]; decide) (fun e => by cases e))
  refine ((hp h).move_iff hj).mpr (iff_of_false (fun hpos => ?_) (fun e => by cases e))
  have := (hp h _ hj).mp hpos
  rw [hblk] at this
  cases this

theorem abortDownloadCore_eq_or (peer : PeerPtr) (L : Ledger s) (hr : s.InRange b) :
    s.abortDownloadCore b peer = s ∨ ∃ i, Entry s b i ∧ (s.infoOf b).state = .requested := by
  unfold abortDownloadCore
  by_cases hd : (s.pos b.pieceIndex).downloading = true
  · obtain ⟨i, E⟩ := L.entry hr hd
    rw [if_pos hd, E.find]
    dsimp only
    rw [E.info]
    by_cases hst : (s.infoOf b).state = .requested
    · exact Or.inr ⟨i, E, hst⟩
    · exact Or.inl (if_pos hst)
  · exact Or.inl (if_neg hd)

/-- **What `abort_download` does** to the record of a requested block: the peer is withdrawn, and with the last peer
the b is freed, or the whole piece with its last b. -/
theorem abortDownloadCore_cases {i : Nat} {r : Record} (L : Ledger s) (hr : s.InRange b) (E : Entry s b i)
    (hst : (s.infoOf b).state = .requested) (hrec : (s.record i).withdraw b.blockIndex peer = r) :
    (0 < (r.blocks b.blockIndex).numPeers ∧
      Amends s (s.abortDownloadCore b peer) b.pieceIndex (some r) (s.pos b.pieceIndex).full) ∨
    (¬ 0 < (r.blocks b.blockIndex).numPeers ∧ ((r.free b.blockIndex).total = 0 ∧
          (∃ f, Amends s (s.abortDownloadCore b peer) b.pieceIndex none f) ∨ (r.free b.blockIndex).total ≠ 0 ∧
          Amends s (s.abortDownloadCore b peer) b.pieceIndex (some (r.free b.blockIndex).clearSpeed)
            (decide ((r.free b.blockIndex).total = s.blocksInPiece b.pieceIndex)))) := by
  have hw := L.lt_blocksPerPiece hr
  have D1 := withdrawPeer_does peer L.slabbed E.lt hw
  rw [hrec] at D1
  have hnum : ((s.withdrawPeer i b.blockIndex peer).block i b.blockIndex).numPeers =
      (r.blocks b.blockIndex).numPeers := by
    rw [← D1.now, record_block (by rw [D1.shape.2.1]; exact hw)]
  have hst1 : (r.blocks b.blockIndex).state = .requested := by
    rw [← hrec, withdraw, Record.blocks_move_self, E.block]
    exact hst
  unfold abortDownloadCore
  rw [if_pos (E.index ▸ E.downloading), E.find]
  dsimp only
  rw [E.info, if_neg (by rw [hst]; decide), hnum]
  by_cases hpos : 0 < (r.blocks b.blockIndex).numPeers
  · rw [if_pos hpos]
    have A := D1.amends L.slabbed E.lt E.downloading
    rw [E.index] at A
    exact Or.inl ⟨hpos, A⟩
  rw [if_neg hpos]
  have D2 := freeBlock_does D1 L.slabbed E.lt hw E.numPieces hst1
  refine Or.inr ⟨hpos, ?_⟩
  by_cases hu : ((s.withdrawPeer i b.blockIndex peer).freeBlock i b.blockIndex).unused i = true
  · rw [if_pos hu]
    rw [unused_iff, D2.now] at hu
    have A := D2.erase_amends L.slabbed E.lt E.downloading
    rw [E.index] at A
    exact Or.inl ⟨hu, _, A⟩
  rw [if_neg hu]
  rw [unused_iff, D2.now] at hu
  have A := (clearSpeed_does D2 E.lt).amends L.slabbed E.lt E.downloading
  rw [E.index] at A
  exact Or.inr ⟨hu, A⟩

theorem abortDownloadCore_keeps (L : Ledger s) (hr : s.InRange b) : Keeps s (s.abortDownloadCore b peer) := by
  have hj := hr.2
  have hs := b.blockIndex.isLt
  obtain he | ⟨i, E, hst⟩ := abortDownloadCore_eq_or peer L hr
  · rw [he]
    exact refl L
  have hblk : ((s.record i).blocks b.blockIndex).state = .requested := by rw [E.block, hst]
  have hok1 : ((s.record i).withdraw b.blockIndex peer).Ok (s.blocksInPiece b.pieceIndex) :=
    E.ok.toCounted.move_ok E.ok.speed hj hs (live_move _ _ hj (by dsimp only; rw [hblk]; decide)) Iff.rfl
  obtain ⟨hpos, A⟩ | ⟨hpos, ⟨-, f, A⟩ | ⟨hu, A⟩⟩ := abortDownloadCore_cases L hr E hst rfl
  · rw [withdraw, Record.blocks_move_self] at hpos
    exact A.keeps_some L hok1 E.lacking (fun h => ((h _ _ E.book).move_iff hj).mpr (iff_of_true hpos hblk))
      (fun h hf => (h _ _ E.book hf).move (by dsimp only; rw [hblk]; decide))
  · exact A.keeps_none L
  have hc : (((s.record i).withdraw b.blockIndex peer).free b.blockIndex).Counted
      (s.blocksInPiece b.pieceIndex) := hok1.toCounted.move hj hs _ _
  have hsp := hok1.toCounted.speed_move (b := { (((s.record i).withdraw b.blockIndex peer).blocks
    b.blockIndex) with peer := .none, state := .none }) hok1.speed.mp hj hs (fun e => by cases e)
  refine A.keeps_some L (hc.clearSpeed hsp (hc.live hu)) E.lacking (fun h => ?_) fun _ hf => ?_
  · refine (h _ _ E.book).change (j := b.blockIndex) (fun k hk => ?_) (iff_of_false ?_ ?_)
    · exact (blocks_move_of_ne hk ..).trans (blocks_move_of_ne hk ..)
    · simp only [Record.clearSpeed, Record.free, Record.blocks_move_self]
      exact hpos
    · simp [Record.clearSpeed, Record.free]
  · have := solid_of_decide hc hf
    exact this

theorem restorePieceCore_keeps (L : Ledger s) (p : Nat) : Keeps s (s.restorePieceCore p) := by
  unfold restorePieceCore
  cases hi : s.findDlPiece p with
  | none => exact refl L
  | some => exact eraseDownloadPiece_keeps L (findDlPiece_index hi).1

/-! ## Steps -/

/-- What a call does to the three properties. -/
structure Effect (s s' : PiecePicker) (op : Op) : Prop where
  ledger : Ledger s'
  peered : Peered s → (Peered s' ↔ s.NoWrap op)
  nothingHidden : NothingHidden s → (NothingHidden s' ↔ s.NotStale op)

theorem Keeps.effect (K : Keeps s s') (h1 : s.NoWrap op) (h2 : s.NotStale op) : Effect s s' op :=
  ⟨K.ledger, fun h => iff_of_true (K.peered h) h1, fun h => iff_of_true (K.nothingHidden h) h2⟩

/-- The calls that may add, drop or mark a record of the queue. -/
def Rebooks : Op → Prop
  | .init .. | .weHave .. | .markAsDownloading .. | .markAsWriting .. | .markAsFinished .. | .abortDownload ..
  | .writeFailed .. | .restorePiece .. => True
  | _ => False

theorem sameBook_coreStep (L : Ledger s) (hpre : s.Pre op) (h : ¬ Rebooks op) : SameBook s (s.coreStep op) := by
  have hrefl : SameBook s s := .of_refiled (.refl s)
  cases op with
  | incRefcount index rnd | decRefcount index rnd => exact .modifyPos s index (fun _ => ⟨rfl, rfl⟩) fun _ => rfl
  | incRefcountBits bits | decRefcountBits bits => exact .modifyBits s bits (fun _ => ⟨rfl, rfl⟩) fun _ => rfl
  | incRefcountAll => exact incRefcountAll_sameBook s
  | decRefcountAll => exact decRefcountAll_sameBook s
  | weDontHave =>
    simp only [coreStep]
    split
    · exact losePiece_sameBook L hpre.2
    · exact hrefl
  | setPiecePriority index prio =>
    simp only [coreStep]
    split
    · exact hrefl
    · exact changePriority_sameBook s index prio
  | clearPeer peer => exact .clearPeer s peer
  | pickPieces => exact hrefl
  | _ => exact absurd trivial h

theorem coreStep_effect (L : Ledger s) (hpre : s.Pre op) : Effect s (s.coreStep op) op := by
  cases op with
  | init => exact (init_keeps hpre.1 hpre.2.1).effect trivial trivial
  | weHave index => exact (weHaveCore_keeps L index).effect trivial trivial
  | markAsDownloading =>
    obtain ⟨h1, h2, h3⟩ := markAsDownloadingCore_spec L hpre
    exact ⟨h1, h3, fun h => iff_of_true (h2 h) trivial⟩
  | markAsWriting => exact (markAsWritingCore_keeps L hpre).effect trivial trivial
  | markAsFinished =>
    obtain ⟨h1, h2, h3⟩ := markAsFinishedCore_spec L hpre
    exact ⟨h1, fun h => iff_of_true (h2 h) trivial, h3⟩
  | abortDownload => exact (abortDownloadCore_keeps L hpre.1).effect trivial trivial
  | writeFailed => exact (writeFailedCore_keeps L hpre).effect trivial trivial
  | restorePiece index => exact (restorePieceCore_keeps L index).effect trivial trivial
  | _ => exact ((sameBook_coreStep L hpre id).keeps L).effect trivial trivial

/-- The index and the queue are in order. -/
def Orderly (s : PiecePicker) : Prop := Sound s ∧ Ledger s

theorem step_effect (h : Orderly s) (hpre : s.Pre op) : Sound (s.step op) ∧ Effect s (s.step op) op := by
  obtain ⟨h1, h2⟩ := step_sound h.1 hpre
  have E := coreStep_effect h.2 hpre
  have K := (SameBook.of_refiled h2).keeps E.ledger
  have K' := (SameBook.of_refiled h2.symm).keeps K.ledger
  exact ⟨h1, K.ledger, fun h => (Iff.intro K'.peered K.peered).trans (E.peered h),
    fun h => (Iff.intro K'.nothingHidden K.nothingHidden).trans (E.nothingHidden h)⟩

theorem orderly_new : Orderly new := by
  refine ⟨sound_new, Slab.nil .., fun h => absurd h (lt_irrefl 0), le_refl 0, fun q => rfl, fun q h => ?_,
    fun q r h => ?_⟩
  · cases h
  · cases h

theorem step_orderly (h : Orderly s) (hpre : s.Pre op) : Orderly (s.step op) :=
  ⟨(step_effect h hpre).1, (step_effect h hpre).2.ledger⟩

/-! ## The queue in the source's terms -/

/-- The download queue as its comments describe it. -/
structure Bookkeeping (s : PiecePicker) : Prop where
  sorted : (s.downloads.map DownloadingPiece.index).Pairwise (· < ·)
  flag : ∀ q < s.numPieces,
    (s.pos q).downloading = true ↔ (s.downloads.map DownloadingPiece.index).count q = 1
  rows : (∀ i < s.downloads.length, ∃ k < s.downloads.length, (s.dl i).info = k * s.blocksPerPiece) ∧
    (∀ k < s.downloads.length, ∃ i < s.downloads.length, (s.dl i).info = k * s.blocksPerPiece) ∧
    (∀ i < s.downloads.length, ∀ j < s.downloads.length, (s.dl i).info = (s.dl j).info → i = j) ∧
    s.downloads.length * s.blocksPerPiece ≤ s.blockInfo.length
  requested : ∀ i < s.downloads.length, (s.dl i).requested =
    tally (s.blocksInPiece (s.dl i).index) fun j => decide ((s.block i j).state = .requested)
  writing : ∀ i < s.downloads.length, (s.dl i).writing =
    tally (s.blocksInPiece (s.dl i).index) fun j => decide ((s.block i j).state = .writing)
  finished : ∀ i < s.downloads.length, (s.dl i).finished =
    tally (s.blocksInPiece (s.dl i).index) fun j => decide ((s.block i j).state = .finished)
  numPeers : ∀ i < s.downloads.length, ∀ j < s.blocksInPiece (s.dl i).index,
    0 < (s.block i j).numPeers ↔ (s.block i j).state = .requested
  speed : ∀ i < s.downloads.length, (s.dl i).state = .none ↔ (s.dl i).requested = 0
  live : ∀ i < s.downloads.length, ∃ j < s.blocksInPiece (s.dl i).index, (s.block i j).state ≠ .none
  lacking : ∀ i < s.downloads.length, (s.pos (s.dl i).index).have = false

theorem Ledger.record_block (L : Ledger s) {q : Nat} (hj : j < s.blocksInPiece q) :
    (s.record i).blocks j = s.block i j :=
  PiecePicker.record_block (lt_of_lt_of_le hj (L.blocksInPiece_le q))

theorem Ledger.tally_block (L : Ledger s) (i q : Nat) (st : BlockState) :
    (tally (s.blocksInPiece q) fun j => decide ((s.block i j).state = st)) =
      tally (s.blocksInPiece q) fun j => decide (((s.record i).blocks j).state = st) :=
  tally_congr fun j hj => by rw [L.record_block hj]

theorem Slabbed.sorted (S : Slabbed s) : (s.downloads.map index).Pairwise (· < ·) := by
  rw [pairwise_iff_getElem]
  intro i j hi hj hij
  rw [length_map] at hi hj
  have := Slab.sorted S i j hij hj
  simp only [getElem_map]
  rwa [getD_eq_getElem?_getD, getD_eq_getElem?_getD, List.getElem?_eq_getElem hi, List.getElem?_eq_getElem hj] at this

theorem Ledger.flag_iff (L : Ledger s) (q : Nat) :
    (s.pos q).downloading = true ↔ (s.downloads.map index).count q = 1 := by
  have hnd : (s.downloads.map index).Nodup := L.slabbed.sorted.imp ne_of_lt
  have hmem : (s.pos q).downloading = true ↔ q ∈ s.downloads.map index := by
    rw [L.flag, isSome_iff_exists]
    constructor
    · rintro ⟨r, hr⟩
      obtain ⟨i, hi, hidx, -⟩ := (book_eq_some L.slabbed).mp hr
      rw [dl, getD_eq_getElem?_getD, List.getElem?_eq_getElem hi] at hidx
      exact mem_map.mpr ⟨_, getElem_mem hi, hidx⟩
    intro h
    obtain ⟨d, hd, rfl⟩ := mem_map.mp h
    obtain ⟨i, hi, rfl⟩ := getElem_of_mem hd
    refine ⟨s.record i, (book_eq_some L.slabbed).mpr ⟨i, hi, ?_, rfl⟩⟩
    rw [dl, getD_eq_getElem?_getD, List.getElem?_eq_getElem hi]
    rfl
  rw [hmem]
  constructor
  · exact count_eq_one_of_mem hnd
  · intro h
    exact count_pos_iff.mp (by omega)

theorem bookkeeping_iff (L : Ledger s) : Bookkeeping s ↔ Peered s := by
  have hok : ∀ i < s.downloads.length, (s.record i).Ok (s.blocksInPiece (s.dl i).index) := fun i hi =>
    L.ok _ _ (book_index L.slabbed hi)
  constructor
  · intro B q r hr j hj
    obtain ⟨i, hi, rfl, rfl⟩ := (book_eq_some L.slabbed).mp hr
    rw [L.record_block hj]
    exact B.numPeers i hi j hj
  intro P
  refine ⟨L.slabbed.sorted, fun q _ => L.flag_iff q, ⟨L.slabbed.row, fun k hk => L.slabbed.exists_row hk,
    L.slabbed.distinct, L.slabbed.room⟩, ?_, ?_, ?_, ?_, ?_, ?_, ?_⟩
  · intro i hi
    rw [L.tally_block]
    exact (hok i hi).requested
  · intro i hi
    rw [L.tally_block]
    exact (hok i hi).writing
  · intro i hi
    rw [L.tally_block]
    exact (hok i hi).finished
  · intro i hi j hj
    have := P _ _ (book_index L.slabbed hi) j hj
    rwa [L.record_block hj] at this
  · exact fun i hi => (hok i hi).speed
  · intro i hi
    obtain ⟨j, hj, h⟩ := (hok i hi).live
    exact ⟨j, hj, by rwa [L.record_block hj] at h⟩
  · exact fun i hi => L.lacking _ (by rw [book_index L.slabbed hi]; rfl)

/-- A downloading piece marked `full` has no free block. -/
def FullHidesNothing (s : PiecePicker) : Prop :=
  ∀ q, (s.pos q).downloading = true → (s.pos q).full = true → ∃ i, s.findDlPiece q = some i ∧
    (∀ j < s.blocksInPiece q, (s.block i j).state ≠ .none) ∧
      (s.dl i).requested + (s.dl i).writing + (s.dl i).finished = s.blocksInPiece q

theorem fullHidesNothing_iff (L : Ledger s) : FullHidesNothing s ↔ NothingHidden s := by
  constructor
  · intro F q r hr hf j hj
    obtain ⟨i, hi, h1, -⟩ := F q (by rw [L.flag, hr]; rfl) hf
    rw [book, hi] at hr
    cases hr
    rw [L.record_block hj]
    exact h1 j hj
  intro N q hd hf
  rw [L.flag, isSome_iff_exists] at hd
  obtain ⟨r, hr⟩ := hd
  have hsolid := N q r hr hf
  have hc := (L.ok q r hr).toCounted
  rw [book, map_eq_some_iff] at hr
  obtain ⟨i, hi, rfl⟩ := hr
  refine ⟨i, hi, fun j hj => ?_, ?_⟩
  · rw [← L.record_block hj]
    exact hsolid j hj
  · have := hc.total_eq.mpr hsolid
    simp only [total, record] at this
    omega

/-! ## Runs -/

/-- **Partial-piece bookkeeping.** A run under the preconditions keeps the download queue in order, in every state it
passes through, exactly if no call of `mark_as_downloading` wraps `num_peers`. -/
theorem partial_piece_bookkeeping (ops : List Op) (hl : Legal step Pre new ops) :
    Always step Bookkeeping new ops ↔ Legal step NoWrap new ops := by
  refine always_iff_legal (fun _ _ h _ => step_orderly h) (fun s op h hb hpre => ?_) orderly_new
    ((bookkeeping_iff orderly_new.2).mpr ?_) hl
  · obtain ⟨-, E⟩ := step_effect h hpre
    rw [bookkeeping_iff E.ledger]
    exact E.peered ((bookkeeping_iff h.2).mp hb)
  · intro q r hr
    cases hr

/-- A few calls on two blocks; the second call for block 0 comes from another peer. -/
def blockRun : List Op :=
  [.init 2 2 2, .markAsDownloading (.of 1 0) (some 1) .fast 0, .markAsDownloading (.of 1 0) (some 2) .slow 0,
    .markAsDownloading (.of 0 1) (some 1) .fast 0, .markAsWriting (.of 1 0) (some 2) 0,
      .abortDownload (.of 0 1) (some 1) 0,
    .markAsFinished (.of 1 0) (some 2) 0, .clearPeer (some 2)]

theorem partial_piece_bookkeeping_blockRun : Legal step NoWrap new blockRun ∧ Always step Bookkeeping new blockRun :=
  ⟨by decide +kernel, (partial_piece_bookkeeping blockRun (by decide +kernel)).mpr (by decide +kernel)⟩

/-- One peer requests the only block of the only piece. -/
def requestOp : Op := .markAsDownloading (.of 0 0) (some 1) .fast 0

def requestedTimes (m : Nat) : PiecePicker :=
  { run step new [.init 1 1 1, requestOp] with blockInfo := [{ peer := some 1, numPeers := m, state := .requested }] }

theorem step_requestedTimes (m : Nat) : (requestedTimes m).step requestOp = requestedTimes ((m + 1) % 2 ^ 14) := by
  rfl

theorem run_requestedTimes : ∀ (k m : Nat), m < 2 ^ 14 →
    run step (requestedTimes m) (List.replicate k requestOp) = requestedTimes ((m + k) % 2 ^ 14)
  | 0, m, h => by rw [add_zero, mod_eq_of_lt h]; rfl
  | k + 1, m, h => by
    rw [replicate_succ, run_cons, step_requestedTimes, run_requestedTimes k _ (mod_lt _ (by decide)), mod_add_mod]
    congr 2
    omega

theorem legal_requestedTimes : ∀ (k m : Nat), Legal step Pre (requestedTimes m) (List.replicate k requestOp)
  | 0, _ => trivial
  | k + 1, m => by
    refine ⟨⟨⟨?_, ?_⟩, ?_, ?_⟩, ?_⟩
    · exact zero_lt_one
    · exact zero_lt_one
    · exact fun h => by cases h
    · rfl
    · rw [step_requestedTimes]
      exact legal_requestedTimes k _

/-- After 2^14 requests for one block its `num_peers` is 0 while it is still requested. -/
theorem requested_without_peers : ∃ ops, Legal step Pre new ops ∧ ¬ Bookkeeping (run step new ops) := by
  refine ⟨[.init 1 1 1, requestOp] ++ List.replicate (2 ^ 14 - 1) requestOp, ?_, fun B => ?_⟩
  · exact ⟨by decide, by decide +kernel, legal_requestedTimes _ 1⟩
  · rw [run_append, show run step new [.init 1 1 1, requestOp] = requestedTimes 1 from rfl,
      run_requestedTimes _ _ (by decide), show (1 + (2 ^ 14 - 1)) % 2 ^ 14 = 0 from rfl] at B
    exact absurd ((B.numPeers 0 (by decide) 0 (by decide)).mpr rfl) (by decide)

/-- **The `full` flag.** A run under the preconditions never hides a free block behind the flag exactly if no call of
`mark_as_finished` adds an entry with a stale flag. -/
theorem full_hides_nothing (ops : List Op) (hl : Legal step Pre new ops) :
    Always step FullHidesNothing new ops ↔ Legal step NotStale new ops := by
  refine always_iff_legal (fun _ _ h _ => step_orderly h) (fun s op h hb hpre => ?_) orderly_new
    ((fullHidesNothing_iff orderly_new.2).mpr ?_) hl
  · obtain ⟨-, E⟩ := step_effect h hpre
    rw [fullHidesNothing_iff E.ledger]
    exact E.nothingHidden ((fullHidesNothing_iff h.2).mp hb)
  · intro q r hr
    cases hr

theorem full_hides_nothing_blockRun : Legal step NotStale new blockRun ∧ Always step FullHidesNothing new blockRun :=
  ⟨by decide +kernel, (full_hides_nothing blockRun (by decide +kernel)).mpr (by decide +kernel)⟩

/-- Both blocks of a piece are downloaded, the piece fails its hash check, and then one block is found on disk. -/
def staleRun : List Op :=
  [.init 2 2 1, .markAsDownloading (.of 0 0) (some 1) .fast 0, .markAsDownloading (.of 0 1) (some 1) .fast 0,
    .markAsWriting (.of 0 0) (some 1) 0, .markAsWriting (.of 0 1) (some 1) 0, .markAsFinished (.of 0 0) (some 1) 0,
    .markAsFinished (.of 0 1) (some 1) 0, .restorePiece 0 0, .markAsFinished (.of 0 0) none 0]

theorem full_hides_free_block : Legal step Pre new staleRun ∧ ¬ FullHidesNothing (run step new staleRun) := by
  refine ⟨by decide +kernel, fun F => ?_⟩
  obtain ⟨i, hi, hfree, -⟩ := F 0 (by decide +kernel) (by decide +kernel)
  have he : (run step new staleRun).findDlPiece 0 = some 0 := by decide +kernel
  rw [he] at hi
  cases hi
  exact hfree 1 (by decide +kernel) (by decide +kernel)

end Libtorrent.Picker.PiecePicker
