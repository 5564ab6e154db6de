import Libtorrent.Picker.BlockStatus

/-!
# Blocks behind the end of a piece

Each entry of the download queue owns `m_blocks_per_piece` blocks, also the one of the last piece, which may have fewer.
The blocks behind its end are never in use (`Confined`). With the order of the index and of the queue and the counters
this makes a picker `Intact`; runs keep it (`intact_run`).
-/

namespace Libtorrent.Picker.PiecePicker

open Run

variable {s s' : PiecePicker} {p : Nat} {b : PieceBlock} {peer : PeerPtr}

/-- No block behind the end of a piece is in use. -/
def Confined (s : PiecePicker) : Prop :=
  ∀ q r, s.book q = some r → ∀ j, s.blocksInPiece q ≤ j → (r.blocks j).state = .none

variable {f : Bool} {rnd : Nat}

theorem Amends.confined {o : Option Record} (A : Amends s s' p o f) (h : Confined s)
    (ho : ∀ r, o = some r → ∀ j, s.blocksInPiece p ≤ j → (r.blocks j).state = .none) : Confined s' := by
  intro q r hq j hj
  rw [A.blocksInPiece] at hj
  rw [A.book] at hq
  by_cases hqp : q = p
  · subst hqp
    rw [Function.update_self] at hq
    exact ho r hq j hj
  · rw [Function.update_of_ne hqp] at hq
    exact h q r hq j hj

theorem SameBook.confined (B : SameBook s s') (h : Confined s) : Confined s' := by
  obtain ⟨g, hg, hb⟩ := B.book
  intro q r hq j hj
  rw [hb, Option.map_eq_some_iff] at hq
  obtain ⟨r', hr', rfl⟩ := hq
  rw [B.blocksInPiece] at hj
  rw [((hg r').blocks j).1]
  exact h q r' hr' j hj

theorem Amends.confined_block {r : Record} (A : Amends s s' b.pieceIndex (some r) f) (hr : s.InRange b) (h : Confined s)
    (hk : ∀ k, k ≠ (b.blockIndex : Nat) → r.blocks k = ((s.book b.pieceIndex).getD {}).blocks k) : Confined s' := by
  refine A.confined h fun _ e j hj => ?_
  cases e
  have hlt := hr.2
  rw [hk j (by omega)]
  cases hb : s.book b.pieceIndex with
  | none => rfl
  | some r' => exact h _ r' hb j hj

/-! ## Calls on blocks -/

section

variable (L : Ledger s)
include L

theorem markAsDownloadingCore_confined {speed : PieceState} (hpre : s.Pre (.markAsDownloading b peer speed rnd))
    (h : Confined s) : Confined (s.markAsDownloadingCore b peer speed) := by
  obtain ⟨hr, -, hh⟩ := hpre
  cases hd : s.isDownloaded b with
  | true =>
    obtain ⟨-, he⟩ : s.markAsDownloading b peer speed rnd = _ ∧ _ := markAsDownloading_refused L hr hh hd
    rw [he]
    exact h
  | false =>
    obtain ⟨-, f, A⟩ := markAsDownloading_amends peer speed rnd L hr hd
    exact A.confined_block hr h fun k hk => Record.blocks_move_of_ne hk ..

theorem markAsWritingCore_confined (hr : s.InRange b) (h : Confined s) : Confined (s.markAsWritingCore b peer) := by
  obtain ⟨-, he⟩ | ⟨-, r, f, A, hrec, -⟩ := markAsWritingCore_amends peer L hr rfl
  · rw [he]
    exact h
  refine A.confined_block hr h fun k hk => ?_
  rw [hrec]
  split
  · exact Record.blocks_move_of_ne hk ..
  · exact Record.blocks_move_of_ne hk ..

theorem markAsFinishedCore_confined (hpre : s.Pre (.markAsFinished b peer rnd))
    (h : Confined s) : Confined (s.markAsFinishedCore b peer) := by
  obtain ⟨he, -⟩ | ⟨-, -, -, A⟩ := markAsFinishedCore_amends L hpre rfl
  · rw [he]
    exact h
  · exact A.confined_block hpre.1 h fun k hk => Record.blocks_move_of_ne hk ..

theorem writeFailedCore_confined (hpre : s.Pre (.writeFailed b rnd)) (h : Confined s) :
    Confined (s.writeFailedCore b) := by
  obtain ⟨-, -, ⟨f, A⟩ | ⟨-, A⟩⟩ := writeFailedCore_amends L hpre rfl
  · exact A.confined h fun _ e => by cases e
  · exact A.confined_block hpre.1 h fun k hk => Record.blocks_move_of_ne hk ..

theorem abortDownloadCore_confined (hr : s.InRange b) (h : Confined s) : Confined (s.abortDownloadCore b peer) := by
  obtain he | ⟨i, E, hst⟩ := abortDownloadCore_eq_or peer L hr
  · rw [he]
    exact h
  have hgetD := E.status_eq.1
  obtain ⟨-, A⟩ | ⟨-, ⟨-, f, A⟩ | ⟨-, A⟩⟩ := abortDownloadCore_cases L hr E hst rfl
  · rw [← hgetD] at A
    exact A.confined_block hr h fun k hk => Record.blocks_move_of_ne hk ..
  · exact A.confined h fun _ e => by cases e
  rw [← hgetD] at A
  refine A.confined_block hr h fun k hk => ?_
  rw [Record.clearSpeed, Record.free]
  exact (Record.blocks_move_of_ne hk ..).trans (Record.blocks_move_of_ne hk ..)

end

/-! ## Steps -/

theorem init_confined (s : PiecePicker) (b l n : Nat) : Confined (s.init b l n) := by
  intro q r hq
  have hnone : (s.init b l n).book q = none := rfl
  rw [hnone] at hq
  cases hq

theorem coreStep_confined {op : Op} (L : Ledger s) (hpre : s.Pre op) (h : Confined s) : Confined (s.coreStep op) := by
  cases op with
  | init b l n => exact init_confined s b l n
  | weHave index =>
    refine (weHaveCore_spec L hpre).1.confined ?_
    exact (dropEntry_amends L index).confined h fun _ e => by cases e
  | markAsDownloading => exact markAsDownloadingCore_confined L hpre h
  | markAsWriting => exact markAsWritingCore_confined L hpre h
  | markAsFinished => exact markAsFinishedCore_confined L hpre h
  | abortDownload => exact abortDownloadCore_confined L hpre.1 h
  | writeFailed => exact writeFailedCore_confined L hpre h
  | restorePiece index =>
    rw [coreStep, restorePieceCore_eq L]
    exact (dropEntry_amends L index).confined h fun _ e => by cases e
  | _ => exact (sameBook_coreStep L hpre id).confined h

/-- The index, the queue, the counters and the cursors are in order. -/
structure Intact (s : PiecePicker) : Prop where
  orderly : Orderly s
  balanced : Balanced s
  confined : Confined s

theorem step_intact (op : Op) (h : Intact s) (hpre : s.Pre op) (hsize : s.SameSize op) : Intact (s.step op) := by
  obtain ⟨-, R⟩ := step_sound h.orderly.1 hpre
  exact ⟨step_orderly h.orderly hpre, (SameCounts.of_refiled R).balanced (coreStep_balanced h.balanced hpre hsize),
    (SameBook.of_refiled R).confined (coreStep_confined h.orderly.2 hpre h.confined)⟩

theorem intact_new : Intact new := ⟨orderly_new, balanced_new, fun _ _ h => by cases h⟩

/-- **The picker stays intact.** -/
theorem intact_run {ops : List Op} (hl : Legal step (fun s op => s.Pre op ∧ s.SameSize op) new ops) :
    Intact (run step new ops) :=
  inv_run (fun _ op h hp => step_intact op h hp.1 hp.2) intact_new hl

/-- The last piece has one block of two. -/
def shortLast : List Op :=
  [.init 2 1 2, .incRefcount 1 0, .markAsDownloading (.of 1 0) (some 1) .fast 0,
    .markAsDownloading (.of 0 1) (some 2) .slow 0, .markAsWriting (.of 1 0) (some 1) 0,
    .markAsFinished (.of 1 0) (some 1) 0, .weHave 1]

theorem intact_run_shortLast :
    Legal step (fun s op => s.Pre op ∧ s.SameSize op) new shortLast ∧ Intact (run step new shortLast) :=
  ⟨by decide +kernel, intact_run (by decide +kernel)⟩

end Libtorrent.Picker.PiecePicker
