import Mathlib.Data.List.TakeWhile
import Libtorrent.Requests.Sending

/-!
# The handlers as moves: receiving blocks

A PIECE message arrives in fragments; when it is complete, the blocks it has overtaken may be dropped, and the block
itself goes to the disk. The other requests for it are not withdrawn (`cancelBlock_eq`): the picker does not count them
any more.
-/

namespace Libtorrent.Requests

open Picker List Option Torrent Layout

variable {E : Prop} {A : PieceBlock → Prop} {t t' : Torrent} {p : Nat} {b : PieceBlock} {r : PeerRequest}
  {picks : Picks}

theorem receiveUnsent_chain (G : Good A t) (hp : p ∈ t.connections) (hv : t.layout.verifyPiece r = true)
    (hl : 0 ≤ r.length) (hn : (t.peer p).downloadQueue.any (·.block == t.layout.blockOf r) = false) :
    Chain E A p t (receiveUnsent t p r) ∧
      t.layout.blockOf r ∈ ((receiveUnsent t p r).peer p).downloadQueue.map (·.block) ∧
      ((receiveUnsent t p r).peer p).receiving = (t.peer p).receiving := by
  have T := G.tidy p hp
  have hlen : t.blockLength (t.layout.blockOf r) = r.length := by
    rw [blockLength, toReq_blockOf hv]
  unfold receiveUnsent
  dsimp only
  refine ⟨?_, ?_, ?_⟩
  · cases hq : (t.peer p).requestQueue.any (·.block == t.layout.blockOf r) with
    | true =>
      obtain ⟨e, he⟩ := List.find?_isSome.mpr (any_eq_true.mp hq) |> isSome_iff_exists.mp
      obtain ⟨h1, h2⟩ := takeRequest_perm T.critical he
      have hb : e.block = t.layout.blockOf r := by
        have := List.find?_some he
        simpa using this
      have hm := Move.send (E := E) (A := A) e { block := t.layout.blockOf r }
        { (t.peer p).takeRequest (t.layout.blockOf r) with
          downloadQueue := { block := t.layout.blockOf r } :: (t.peer p).downloadQueue
          outstandingBytes := (t.peer p).outstandingBytes + r.length }
        ⟨⟨h2.critical, h2.slow⟩, h2.receiving⟩ hb.symm rfl (.refl _) h1 (by rw [hb, hlen])
      refine .one hp ?_
      simp only [modifyPeer, hq, if_true]
      exact hm
    | false =>
      have hf : t.layout.blockOf r ∉ (t.peer p).blocks := by
        rw [← Peer.queues_eq_false, Peer.queues, hn, hq]
        rfl
      have hm := Move.arrive (E := E) (A := A) { block := t.layout.blockOf r, notWanted := true }
        { t.peer p with
          downloadQueue := { block := t.layout.blockOf r, notWanted := true } :: (t.peer p).downloadQueue
          outstandingBytes := (t.peer p).outstandingBytes + r.length }
        ⟨⟨T.critical, id⟩, rfl⟩ rfl hf (by rw [hlen]; exact hl) rfl rfl (by rw [hlen])
      refine .one hp ?_
      simp only [modifyPeer, hq, Bool.false_eq_true, if_false]
      exact hm
  · rw [peer_modifyPeer]
    exact mem_cons_self
  · rw [peer_modifyPeer]
    split <;> rfl

theorem skipLoop_chain (G : Good A t) (hp : p ∈ t.connections) (tail passed rest : List PendingBlock)
    (hq : (t.peer p).downloadQueue = passed ++ (rest ++ tail))
    (hr : E → ∀ m, (t.peer p).receiving = some m → ∀ e ∈ rest, t.layout.blockOf m.request ≠ e.block) :
    Chain E A p t (skipLoop p tail passed rest t) ∧
      (∃ kept, ((skipLoop p tail passed rest t).peer p).downloadQueue = kept ++ tail) ∧
      ((skipLoop p tail passed rest t).peer p).receiving = (t.peer p).receiving := by
  induction rest generalizing t passed with
  | nil => exact ⟨.refl, ⟨passed, hq⟩, rfl⟩
  | cons e rest ih =>
    suffices hstep : ∀ e' : PendingBlock, e'.block = e.block → e'.wanted = e.wanted →
        let v :=
          if t.dropSkippedRequests ∧ e'.skipped > (t.peer p).desiredQueueSize then
            skipLoop p tail passed rest ((if e'.wanted then t.abortDownload e'.block p else t).modifyPeer p fun x =>
              { x with downloadQueue := passed ++ (rest ++ tail) }.settle (t.blockLength e'.block))
          else
            skipLoop p tail (passed ++ [e']) rest
              (t.modifyPeer p fun x => { x with downloadQueue := passed ++ e' :: (rest ++ tail) })
        Chain E A p t v ∧ (∃ kept, (v.peer p).downloadQueue = kept ++ tail) ∧
          (v.peer p).receiving = (t.peer p).receiving from
      hstep { e with skipped := (e.skipped + 1) % 2 ^ 13 } rfl rfl
    intro e' hblock hwanted v
    generalize hu : (t.modifyPeer p fun x => { x with downloadQueue := passed ++ e' :: (rest ++ tail) }) = u
    have hup : u.peer p = { t.peer p with downloadQueue := passed ++ e' :: (rest ++ tail) } := by
      rw [← hu, peer_modifyPeer]
    have hul : u.layout = t.layout := by rw [← hu]; rfl
    have h1 : Chain E A p t u := by
      rw [← hu]
      refine .tweak hp ⟨⟨⟨(G.tidy p hp).critical, id⟩, rfl⟩, ?_, rfl, rfl⟩
      rw [hq]
      simp [PendingBlock.key, hblock, hwanted]
    have hpu : p ∈ u.connections := h1.connections_eq ▸ hp
    obtain ⟨G1, -⟩ := h1.good G
    have hr' : E → ∀ m, (u.peer p).receiving = some m → ∀ e ∈ rest, u.layout.blockOf m.request ≠ e.block := by
      rw [hup, hul]
      exact fun h m hm e he => hr h m hm e (mem_cons_of_mem _ he)
    dsimp only [v]
    split
    · generalize hw : ((if e'.wanted then t.abortDownload e'.block p else t).modifyPeer p fun x =>
        { x with downloadQueue := passed ++ (rest ++ tail) }.settle (t.blockLength e'.block)) = w
      have hwp : w.peer p =
          { t.peer p with downloadQueue := passed ++ (rest ++ tail) }.settle (t.blockLength e'.block) := by
        rw [← hw, peer_modifyPeer]
        split <;> rfl
      have hm : Move E A p u w := by
        have hx : E → (u.peer p).Exact u.layout e' (t.blockLength e'.block) := by
          intro h
          refine ⟨by rw [hul]; rfl, fun m hm => ?_⟩
          rw [hup] at hm
          rw [hul, hblock]
          exact hr h m hm e mem_cons_self
        have := Move.drop (A := A) e' (t.blockLength e'.block)
          ({ t.peer p with downloadQueue := passed ++ (rest ++ tail) }.settle (t.blockLength e'.block))
          (by rw [hup]; exact ⟨⟨(G.tidy p hp).critical, id⟩, rfl⟩) hx (by rw [hup]; exact perm_middle)
          (by rw [hup]; rfl) (by rw [hup]; rfl)
        rw [← hw]
        rw [← hu] at this ⊢
        unfold putNext put at this
        cases hww : e'.wanted with
        | true =>
          rw [hww, if_pos rfl] at this
          simpa [modifyPeer, abortDownload, withPicker] using this
        | false =>
          rw [hww, if_neg (by decide)] at this
          simpa [modifyPeer] using this
      have h2 : Chain E A p u w := .one hpu hm
      have hwl : w.layout = t.layout := by
        rw [(h2.good G1).2.layout, hul]
      obtain ⟨h3, h4, h5⟩ := ih (h2.good G1).1 (h2.connections_eq ▸ hpu) passed (by rw [hwp]; rfl) (by
          rw [hwp, hwl, ← hul]
          rw [hup] at hr'
          exact hr')
      exact ⟨(h1.trans h2).trans h3, h4, h5.trans (by rw [hwp]; rfl)⟩
    · rw [hu]
      obtain ⟨h3, h4, h5⟩ := ih G1 hpu (passed ++ [e']) (by rw [hup]; simp) hr'
      exact ⟨h1.trans h3, h4, h5.trans (by rw [hup])⟩

theorem cancelLoop_eq (h : t.picker.isRequested b = false) (connections : List Nat) :
    cancelLoop b picks connections t = (t, []) := by
  induction connections with
  | nil => rfl
  | cons p rest ih =>
    have hsame : cancelRequest t p b false picks = t := by
      unfold cancelRequest
      simp [h]
    rw [cancelLoop, hsame, ih]
    simp [sendsCancel, h]

theorem cancelBlock_eq (h : t.picker.isRequested b = false) : cancelBlock t b picks = t := by
  rw [cancelBlock, cancelLoop_eq h]

/-- Nobody requests a block any more once it is written. -/
theorem not_requested_of_writing (G : Good A t) (hb : t.layout.InRange b) (hd : t.picker.isDownloaded b = false) :
    ((t.modifyPeer p (·.finishBlock b)).markAsWriting b p).picker.isRequested b = false := by
  have hr := (G.fits b).mpr hb
  obtain ⟨T, hst⟩ := PiecePicker.markAsWriting_touch (some p) (t.random 0) G.orderly hr hd
  show (t.picker.markAsWriting b (some p) (t.random 0)).1.isRequested b = false
  rw [PiecePicker.isRequested_eq T.orderly.2 ((T.inRange b).mpr hr), hst]
  rfl

/-- The state of `incoming_piece` after the loop over the blocks that were overtaken. -/
def skipOvertaken (t : Torrent) (p : Nat) (block : PieceBlock) : Torrent :=
  let queue := (t.peer p).downloadQueue
  skipLoop p (queue.dropWhile (·.block != block)) [] (queue.takeWhile (·.block != block)) t

section

variable (G : Good A t) (hp : p ∈ t.connections) (hm : (t.peer p).receiving = some ⟨r, r.length⟩)
include G hp hm

theorem skipOvertaken_chain : Chain E A p t (skipOvertaken t p (t.layout.blockOf r)) ∧
    (∃ kept, ((skipOvertaken t p (t.layout.blockOf r)).peer p).downloadQueue =
      kept ++ (t.peer p).downloadQueue.dropWhile (·.block != t.layout.blockOf r)) ∧
    ((skipOvertaken t p (t.layout.blockOf r)).peer p).receiving = (t.peer p).receiving := by
  refine skipLoop_chain G hp _ _ _ (by simp) ?_
  intro _ m hm' e he
  rw [hm, some.injEq] at hm'
  have := all_takeWhile (l := (t.peer p).downloadQueue) (p := fun e => e.block != t.layout.blockOf r)
  have := all_eq_true.mp this e he
  rw [← hm']
  intro h
  simp [h] at this

/-- The block is taken, and more are requested. -/
theorem receiveBlock_chain (picks : Picks) (hv : t.layout.verifyPiece r = true) (hl : 0 < r.length)
    (hin : (t.peer p).downloadQueue.any (·.block == t.layout.blockOf r) = true) :
    ∃ u, Chain E A p t u ∧ receiveBlock t p (t.layout.blockOf r) picks = requestMore u p picks := by
  have hrange := blockOf_inRange hv hl
  have hlen : t.blockLength (t.layout.blockOf r) = r.length := by
    rw [blockLength, toReq_blockOf hv]
  obtain ⟨h1, ⟨kept, h2⟩, h3⟩ := skipOvertaken_chain (E := E) G hp hm
  unfold receiveBlock
  unfold skipOvertaken at h1 h2 h3
  dsimp only at h1 h2 h3 ⊢
  generalize t.layout.blockOf r = b at *
  generalize skipLoop p ((t.peer p).downloadQueue.dropWhile (·.block != b)) []
    ((t.peer p).downloadQueue.takeWhile (·.block != b)) t = u at h1 h2 h3
  have hpu : p ∈ u.connections := h1.connections_eq ▸ hp
  obtain ⟨G1, S1⟩ := h1.good G
  -- the block itself is still in the queue
  obtain ⟨e, he⟩ : ∃ e, (u.peer p).downloadQueue.find? (·.block == b) = some e := by
    rw [← isSome_iff_exists, List.find?_isSome, h2]
    obtain ⟨e0, h0, hb0⟩ := any_eq_true.mp hin
    have hne : (t.peer p).downloadQueue.dropWhile (·.block != b) ≠ [] := by
      intro hnil
      have := dropWhile_eq_nil_iff.mp hnil e0 h0
      rw [bne, hb0] at this
      cases this
    refine ⟨_, mem_append_right _ (head_mem hne), ?_⟩
    have := head_dropWhile_not (fun e : PendingBlock => e.block != b) hne
    simpa using this
  have heb : e.block = b := by
    have := List.find?_some he
    simpa using this
  have hlayout := S1.layout
  have hfin := Move.finish (E := E) (A := A) e ((u.peer p).finishBlock b)
    ⟨(G1.tidy p hpu).critical, id⟩ rfl
    (fun _ => ⟨⟨r, r.length⟩, h3.trans hm, by
      rw [heb, blockLength, hlayout]
      exact hlen.symm⟩) (perm_eraseP he) rfl rfl (by rw [heb, hlayout]; exact hrange)
  rw [heb] at hfin
  cases hd : u.picker.isDownloaded b with
  | true =>
    rw [hd, if_pos rfl] at hfin
    exact ⟨_, h1.trans (.one hpu hfin), if_pos rfl⟩
  | false =>
    rw [hd, if_neg (by decide)] at hfin
    rw [if_neg (by decide), cancelBlock_eq (not_requested_of_writing G1 (hlayout ▸ hrange) hd), ite_self]
    exact ⟨_, h1.trans (.one hpu hfin), rfl⟩

end

section

variable (G : Good A t) (hp : p ∈ t.connections) (hs : E → t.isSeed = false) (hA : ∀ b ∈ picks.interestingPieces, A b)
include G hp hs hA

section

variable (hv : t.layout.verifyPiece r = true)
include hv

theorem receiveBlock_moves (hl : 0 < r.length) (hm : (t.peer p).receiving = some ⟨r, r.length⟩)
    (hin : (t.peer p).downloadQueue.any (·.block == t.layout.blockOf r) = true) :
    Moves E A t (receiveBlock t p (t.layout.blockOf r) picks) := by
  obtain ⟨u, h, he⟩ := receiveBlock_chain G hp hm picks hv hl hin
  rw [he]
  exact h.moves.trans (requestMore_moves (h.good G).1 (fun h' => (h.good G).2.isSeed.trans (hs h')) hA)

theorem incomingPiece_moves (hl : 0 ≤ r.length) (hm : (t.peer p).receiving = some ⟨r, r.length⟩)
    (hin : E → t.layout.blockOf r ∈ (t.peer p).downloadQueue.map (·.block)) (desired : Nat) :
    Moves E A t (incomingPiece t p r desired picks) := by
  unfold incomingPiece
  dsimp only
  have h1 : Chain E A p t (t.modifyPeer p fun x => { x with desiredQueueSize := desired }) :=
    .tweak hp ⟨⟨⟨(G.tidy p hp).critical, id⟩, rfl⟩, rfl, rfl, rfl⟩
  generalize hu : (t.modifyPeer p fun x => { x with desiredQueueSize := desired }) = u at h1
  have hup : u.peer p = { t.peer p with desiredQueueSize := desired } := by rw [← hu, peer_modifyPeer]
  have hpu : p ∈ u.connections := h1.connections_eq ▸ hp
  obtain ⟨G1, S1⟩ := h1.good G
  have hs1 : E → u.isSeed = false := fun h => S1.isSeed.trans (hs h)
  have hlay := S1.layout
  have hmu : (u.peer p).receiving = some ⟨r, r.length⟩ := by rw [hup]; exact hm
  have stop (hright : E → r.length = 0) : Chain E A p u (u.modifyPeer p fun x => { x with receiving := none }) := by
    refine .one hpu (.stop { u.peer p with receiving := none } ⟨(G1.tidy p hpu).critical, id⟩ rfl ?_ rfl rfl rfl)
    intro h m hm'
    rw [hmu, some.injEq] at hm'
    rw [← hm']
    exact hright h
  refine h1.moves.trans ?_
  split
  · -- an empty piece is taken as a reject
    rename_i hzero
    have h2 := stop fun _ => hzero
    refine h2.moves.trans (incomingRejectRequest_moves (h2.good G1).1 (h2.connections_eq ▸ hpu) hs1 ?_ hA)
    intro _ e _ hmatch
    have hr : u.layout.toReq (u.layout.blockOf r) = r := toReq_blockOf (hlay ▸ hv)
    have he : e.block = u.layout.blockOf r := by
      refine eq_of_matchRequest (l := u.layout) ?_
      rw [hr]
      exact hmatch
    refine ⟨?_, fun m hm' => ?_⟩
    · show r.length = (u.layout.toReq e.block).length
      rw [he, hr]
    · rw [peer_modifyPeer] at hm'
      cases hm'
  split
  · rename_i hseed
    refine (Chain.one hpu (.forget { u.peer p with downloadQueue := (u.peer p).downloadQueue.tail, receiving := none }
      hseed (fun h => ?_) ⟨(G1.tidy p hpu).critical, id⟩ (Or.inl rfl) (tail_sublist _)
      (List.Sublist.refl _))).moves
    rw [hs1 h] at hseed
    cases hseed
  split
  · rename_i hany
    exact receiveBlock_moves G1 hpu hs1 hA (hlay ▸ hv) (by omega) hmu hany
  rename_i hany
  refine (stop fun h => absurd ?_ hany).moves
  rw [hup, hlay]
  obtain ⟨e, he, hb⟩ := mem_map.mp (hin h)
  exact any_eq_true.mpr ⟨e, he, by simpa using hb⟩

theorem receiveBytes_moves {received bytes : Int}
    (hm : (t.peer p).receiving = none ∧ received = 0 ∨ (t.peer p).receiving = some ⟨r, received⟩)
    (hb : 0 ≤ received ∧ 0 ≤ bytes) (hle : received + bytes ≤ r.length)
    (hin : E → t.layout.blockOf r ∈ (t.peer p).downloadQueue.map (·.block)) (desired : Nat) :
    Moves E A t (receiveBytes t p r received bytes desired picks) := by
  unfold receiveBytes
  have h1 : Chain E A p t (t.modifyPeer p fun x => { x with receiving := some ⟨r, received + bytes⟩ }.settle bytes) :=
    .one hp (.progress r received bytes ({ t.peer p with receiving := some ⟨r, received + bytes⟩ }.settle bytes)
      ⟨(G.tidy p hp).critical, id⟩ hm rfl hv hb hle hin rfl rfl rfl)
  refine h1.moves.trans ?_
  split
  · rename_i hall
    refine incomingPiece_moves (h1.good G).1 hp hs hA hv (by omega) ?_ ?_ desired
    · rw [peer_modifyPeer, ← hall]
      rfl
    · rw [peer_modifyPeer]
      exact hin
  · exact .refl

end

theorem startPiece_moves (hm : (t.peer p).receiving = none) {bytes : Int}
    (hb : 0 ≤ bytes ∧ bytes ≤ r.length) (desired : Nat) : Moves E A t (startPiece t p r bytes desired picks) := by
  unfold startPiece
  split
  · exact .single ⟨p, hp, Or.inr rfl⟩
  rename_i hv
  have hv' : t.layout.verifyPiece r = true := by simpa using hv
  cases hin : (t.peer p).downloadQueue.any (·.block == t.layout.blockOf r) with
  | true =>
    rw [if_pos rfl]
    refine receiveBytes_moves G hp hs hA hv' (Or.inl ⟨hm, rfl⟩) ⟨Int.le_refl 0, hb.1⟩ (by omega) (fun _ => ?_) desired
    obtain ⟨e, he, hbl⟩ := any_eq_true.mp hin
    exact mem_map.mpr ⟨e, he, by simpa using hbl⟩
  | false =>
    rw [if_neg (by decide)]
    obtain ⟨h1, h2, h3⟩ := receiveUnsent_chain G hp hv' (by omega) hin
    obtain ⟨G1, S1⟩ := h1.good G
    exact h1.moves.trans (receiveBytes_moves G1 (h1.connections_eq ▸ hp) (fun h => S1.isSeed.trans (hs h)) hA
      (by rw [S1.layout]; exact hv') (Or.inl ⟨h3.trans hm, rfl⟩) ⟨Int.le_refl 0, hb.1⟩ (by omega)
      (fun _ => by rw [S1.layout]; exact h2) desired)

theorem pieceData_moves {bytes : Int}
    (hb : ∀ m, (t.peer p).receiving = some m → 0 ≤ bytes ∧ m.received + bytes ≤ m.request.length)
    (hin : E → ∀ m, (t.peer p).receiving = some m →
      t.layout.blockOf m.request ∈ (t.peer p).downloadQueue.map (·.block)) (desired : Nat) :
    Moves E A t (pieceData t p bytes desired picks) := by
  unfold pieceData
  cases hm : (t.peer p).receiving with
  | none => exact .refl
  | some m =>
    obtain ⟨hv, h0, -⟩ := (G.tidy p hp).verified m hm
    exact receiveBytes_moves G hp hs hA hv (Or.inr hm) ⟨h0, (hb m hm).1⟩ (hb m hm).2 (fun h => hin h m hm) desired

end

/-!
## Runs of the connections

`Allowed` is what the rest of the program promises: blocks are picked that are missing, messages of one peer do not
overlap, a fragment is not longer than what is left of its message, and a disk write ends once. All calls that are
allowed keep the state sane (`step_sane`).
-/

open Function PiecePicker

variable {c : Call}

def Torrent.Pickable (t : Torrent) (b : PieceBlock) : Prop :=
  t.layout.InRange b ∧ (t.picker.pos b.pieceIndex).have = false

def Torrent.Offers (t : Torrent) (picks : Picks) : Prop := ∀ b ∈ picks.interestingPieces, t.Pickable b

/-- The promises of the callers. -/
def Allowed (t : Torrent) : Call → Prop
  | .connect p _ _ => p ∉ t.connections
  | .addRequest p block _ _ => p ∈ t.connections ∧ t.Pickable block ∧ block ∉ (t.peer p).blocks
  | .requestABlock _ picks => t.Offers picks
  | .sendBlockRequests _ => True
  | .cancelRequest p _ force picks => p ∈ t.connections ∧ force = false ∧ t.Offers picks
  | .snubPeer p picks => p ∈ t.connections ∧ t.Offers picks
  | .choke p picks => p ∈ t.connections ∧ (t.peer p).receiving = none ∧ t.Offers picks
  | .unchoke p _ picks => p ∈ t.connections ∧ (t.peer p).receiving = none ∧ t.Offers picks
  | .reject p _ picks => p ∈ t.connections ∧ (t.peer p).receiving = none ∧ t.Offers picks
  | .startPiece p r bytes _ picks =>
    p ∈ t.connections ∧ (t.peer p).receiving = none ∧ t.Offers picks ∧ 0 ≤ bytes ∧ bytes ≤ r.length
  | .pieceData p bytes _ picks =>
    p ∈ t.connections ∧ t.Offers picks ∧
      ∀ m, (t.peer p).receiving = some m → 0 ≤ bytes ∧ m.received + bytes ≤ m.request.length
  | .disconnect _ => True
  | .diskWriteComplete p block =>
    t.isSeed = false →
      t.picker.Pre (.markAsFinished block (if p ∈ t.connections then some p else none) (t.random 0))
  | .pieceFinished .. => True
  | .allowedFast p _ => (t.peer p).supportsFast = true
  | .peerStatus .. => True
  | .torrentStatus .. => True

def Call.isMove : Call → Bool
  | .addRequest .. | .requestABlock .. | .sendBlockRequests .. | .cancelRequest .. | .snubPeer .. | .unchoke ..
  | .reject .. | .startPiece .. | .pieceData .. | .disconnect .. => true
  | _ => false

/-- What has to hold for the counter of outstanding bytes: a rejected block is rejected with its length, and the block
being received is not cancelled if that takes it for rejected. -/
def Settles (t : Torrent) : Call → Prop
  | .reject p r _ => ∀ e ∈ (t.peer p).downloadQueue, t.layout.matchRequest r e.block = true →
    r.length = (t.layout.toReq e.block).length
  | .cancelRequest p block _ _ =>
    (t.peer p).supportsFast = false → ∀ m, (t.peer p).receiving = some m → t.layout.blockOf m.request ≠ block
  | _ => True

theorem Sane.good (S : Sane t) : Good t.Pickable t := ⟨S, fun _ h => h⟩

theorem disconnect_moves (t : Torrent) (p : Nat) : Moves E A t (disconnect t p) := by
  by_cases hp : p ∈ t.connections
  · exact .single ⟨p, hp, Or.inr rfl⟩
  · unfold disconnect
    rw [if_pos hp]
    exact .refl

theorem step_moves (S : Sane t) (ha : Allowed t c) (hc : c.isMove = true) (hs : E → t.isSeed = false)
    (hx : E → Settles t c) (hq : E → ∀ p ∈ t.connections, ∀ m, (t.peer p).receiving = some m →
      t.layout.blockOf m.request ∈ (t.peer p).downloadQueue.map (·.block)) : Moves E t.Pickable t (step t c) := by
  have G := S.good
  cases c with
  | addRequest => exact (addRequest_chain G ha.1 ha.2.1 ha.2.2 _ _).moves
  | requestABlock => exact (requestABlock_chain G ha).moves
  | sendBlockRequests => exact sendBlockRequests_moves G hs
  | cancelRequest =>
    obtain ⟨hp, hf, ho⟩ := ha
    simp only [step, hf]
    exact cancelRequest_moves G hp hs hx ho
  | snubPeer => exact snubPeer_moves G ha.1 hs ha.2
  | unchoke => exact incomingUnchoke_moves G ha.1 hs _ ha.2.2
  | reject =>
    obtain ⟨hp, hn, ho⟩ := ha
    refine incomingRejectRequest_moves G hp hs (fun h e he hm => ⟨hx h e he hm, fun m h' => ?_⟩) ho
    rw [hn] at h'
    cases h'
  | startPiece p r bytes desired => exact startPiece_moves G ha.1 hs ha.2.2.1 ha.2.1 ha.2.2.2 desired
  | pieceData p bytes desired => exact pieceData_moves G ha.1 hs ha.2.1 ha.2.2 (fun h => hq h p ha.1) desired
  | disconnect p => exact disconnect_moves t p
  | connect | choke | diskWriteComplete | pieceFinished | allowedFast | peerStatus | torrentStatus => cases hc

/-! ## Other calls -/

/-- The states differ in what no property of the open connections is about. -/
structure Alike (t t' : Torrent) : Prop where
  layout : t'.layout = t.layout
  picker : t'.picker = t.picker
  connections : t'.connections = t.connections
  peer : ∀ p ∈ t.connections, t'.peer p = t.peer p

theorem Sane.congr (S : Sane t) (h : Alike t t') : Sane t' := by
  refine ⟨h.picker ▸ S.orderly, h.picker ▸ S.balanced, ?_, h.connections ▸ S.nodup, fun p hp => ?_⟩
  · rw [h.picker, h.layout]
    exact S.fits
  · rw [h.connections] at hp
    rw [h.peer p hp, h.layout]
    exact S.tidy p hp

theorem Alike.modifyPeer (hp : p ∉ t.connections) (f : Peer → Peer) : Alike t (t.modifyPeer p f) where
  layout := rfl
  picker := rfl
  connections := rfl
  peer := fun q hq => update_of_ne (fun e : q = p => hp (e ▸ hq)) ..

/-- The change of a field that is neither in the queues nor the counter. -/
structure Incidental (f : Peer → Peer) (x : Peer) : Prop where
  calm : x.queuedTimeCritical ≤ x.requestQueue.length → x.Calm (f x)
  sent : (f x).downloadQueue = x.downloadQueue
  queued : (f x).requestQueue = x.requestQueue
  bytes : (f x).outstandingBytes = x.outstandingBytes

variable {f : Peer → Peer} {index : Nat}

theorem Incidental.moves (h : Incidental f (t.peer p)) (S : Sane t) :
    Alike t (t.modifyPeer p f) ∨ p ∈ t.connections ∧ Move E A p t (t.modifyPeer p f) := by
  by_cases hp : p ∈ t.connections
  · exact Or.inr ⟨hp, .tweak _ t.random (h.calm (S.tidy p hp).critical) (by rw [h.sent]) h.queued h.bytes⟩
  · exact Or.inl (.modifyPeer hp f)

theorem Sane.incidental (S : Sane t) (h : Incidental f (t.peer p)) : Sane (t.modifyPeer p f) := by
  rcases h.moves (E := False) S with ha | ⟨hp, hm⟩
  · exact S.congr ha
  · exact (hm.good S.good hp).1.toSane

theorem incidental_onParole (x : Peer) : Incidental (fun x => { x with onParole := true }) x :=
  ⟨fun h => ⟨⟨h, id⟩, rfl⟩, rfl, rfl, rfl⟩

theorem incidental_allowedFast {x : Peer} (h : x.supportsFast = true) (piece : Int) :
    Incidental (fun x => { x with allowedFast := x.allowedFast ++ [piece] }) x := by
  refine ⟨fun hc => ⟨⟨hc, fun _ hf => ?_⟩, rfl⟩, rfl, rfl, rfl⟩
  rw [show _ = true from h] at hf
  cases hf

theorem incidental_status (x : Peer) (desiredQueueSize : Nat) (speed : Speed) (onParole : Bool) :
    Incidental (fun x => { x with desiredQueueSize, speed, onParole }) x :=
  ⟨fun h => ⟨⟨h, id⟩, rfl⟩, rfl, rfl, rfl⟩

theorem Sane.withPicker {s : PiecePicker} (S : Sane t) (h1 : s.Orderly) (h2 : s.Balanced)
    (h3 : ∀ c, s.InRange c ↔ t.picker.InRange c) (random : Nat → Nat) : Sane { t with picker := s, random } :=
  ⟨h1, h2, fun b => (h3 b).trans (S.fits b), S.nodup, S.tidy⟩

theorem Sane.connect (S : Sane t) (hp : p ∉ t.connections) (supportsFast requestLargeBlocks : Bool) :
    Sane (step t (.connect p supportsFast requestLargeBlocks)) := by
  refine ⟨S.orderly, S.balanced, S.fits, nodup_cons.mpr ⟨hp, S.nodup⟩, fun q hq => ?_⟩
  show (update t.peer p { supportsFast, requestLargeBlocks } q).Tidy t.layout
  by_cases he : q = p
  · rw [he, update_self]
    exact ⟨nodup_nil, fun e h => absurd h not_mem_nil, fun e h => absurd h not_mem_nil, Nat.le_refl 0,
      (fun m h => absurd h (by simp)), fun _ => rfl⟩
  · rw [update_of_ne he]
    exact S.tidy q (mem_of_ne_of_mem he hq)

theorem Sane.pieceFinished (S : Sane t) (index : Nat) (h : t.picker.isPieceFinished index = true) :
    index < t.picker.numPieces ∧ (t.picker.pos index).have = false := by
  unfold isPieceFinished at h
  simp only [Bool.and_eq_true] at h
  have hb : (t.picker.book index).isSome := by rw [← S.orderly.2.flag]; exact h.1
  exact ⟨S.orderly.2.lt_numPieces hb, S.orderly.2.lacking index hb⟩

/-! ## Restoring a piece -/

/-- The requests of the open connections for blocks of the piece, in the order in which they are made again. -/
def Torrent.pending (t : Torrent) (index : Nat) : List (PieceBlock × Nat) :=
  t.connections.flatMap fun p => ((t.peer p).pendingIn index).map fun b => (b, p)

/-- Requests are made again. -/
def Torrent.mark (t : Torrent) (marks : List (PieceBlock × Nat)) : Torrent :=
  marks.foldl (fun t m => (t.markAsDownloading m.1 m.2).1) t

theorem peer_mark (t : Torrent) (marks : List (PieceBlock × Nat)) : (t.mark marks).peer = t.peer := by
  induction marks generalizing t with
  | nil => rfl
  | cons m marks ih => exact ih _

theorem connections_mark (t : Torrent) (marks : List (PieceBlock × Nat)) :
    (t.mark marks).connections = t.connections ∧ (t.mark marks).layout = t.layout := by
  induction marks generalizing t with
  | nil => exact ⟨rfl, rfl⟩
  | cons m marks ih => exact ih _

theorem restorePieceState_eq (t : Torrent) (index : Nat) : restorePieceState t index = t.mark (t.pending index) := by
  suffices h : ∀ (l : List Nat) (u : Torrent), u.peer = t.peer →
      l.foldl (fun t p => ((t.peer p).pendingIn index).foldl (fun t b => (t.markAsDownloading b p).1) t) u =
        u.mark (l.flatMap fun p => ((t.peer p).pendingIn index).map fun b => (b, p)) from h t.connections t rfl
  intro l
  induction l with
  | nil => intro u _; rfl
  | cons p l ih =>
    intro u hu
    have hone : ((u.peer p).pendingIn index).foldl (fun t b => (t.markAsDownloading b p).1) u =
        u.mark (((t.peer p).pendingIn index).map fun b => (b, p)) := by
      rw [hu, mark, foldl_map]
    rw [foldl_cons, hone, ih _ ((peer_mark u _).trans hu), flatMap_cons, mark, mark, mark, foldl_append]

theorem mem_pending {t : Torrent} {m : PieceBlock × Nat} (S : Sane t) (h : m ∈ t.pending index) :
    t.layout.InRange m.1 ∧ (m.1.pieceIndex : Nat) = index := by
  simp only [pending, mem_flatMap, List.mem_map] at h
  obtain ⟨p, hp, b, hb, rfl⟩ := h
  simp only [Peer.pendingIn, mem_filter, mem_append, List.mem_map] at hb
  obtain ⟨⟨e, he, rfl⟩ | ⟨e, he, rfl⟩, hi⟩ := hb
  · exact ⟨((S.tidy p hp).sent e he.1).2 he.2, by simpa using hi⟩
  · exact ⟨((S.tidy p hp).requested e he).1, by simpa using hi⟩

theorem Sane.mark (S : Sane t) (marks : List (PieceBlock × Nat))
    (h : ∀ m ∈ marks, t.Pickable m.1) : Sane (t.mark marks) := by
  induction marks generalizing t with
  | nil => exact S
  | cons m marks ih =>
    obtain ⟨hr, hh⟩ := h m mem_cons_self
    obtain ⟨T, -, -⟩ := markAsDownloading_touch (some m.2) (t.random 0) S.orderly
      ((S.fits m.1).mpr hr) (Speed.pieceState_ne (t.peer m.2).speed) hh
    refine ih
      (S.withPicker T.orderly (T.counts.balanced S.balanced) T.inRange fun i => t.random (i + 1)) fun m' hm' => ?_
    obtain ⟨h1, h2⟩ := h m' (mem_cons_of_mem _ hm')
    exact ⟨h1, (T.counts.have _).trans h2⟩

theorem Sane.restorePiece (S : Sane t) (hh : (t.picker.pos index).have = false) :
    Sane (Requests.restorePiece t index) := by
  obtain ⟨T, C, -⟩ := restorePiece_settle (t.random 0) S.orderly index
  have S1 : Sane (t.withPicker fun s rnd => s.restorePiece index rnd) :=
    S.withPicker T.orderly (T.balanced S.balanced) T.inRange _
  rw [Requests.restorePiece, restorePieceState_eq]
  refine S1.mark _ fun m hm => ?_
  obtain ⟨h1, h2⟩ := mem_pending S1 hm
  exact ⟨h1, by rw [h2]; exact (C.have index).trans hh⟩

theorem foldl_disconnect_moves (banned : List Nat) (t : Torrent) : Moves E A t (banned.foldl disconnect t) := by
  induction banned generalizing t with
  | nil => exact .refl
  | cons p banned ih => exact (disconnect_moves t p).trans (ih _)

def Torrent.parole (t : Torrent) (onParole : List Nat) : Torrent :=
  onParole.foldl (fun t p => t.modifyPeer p fun x => { x with onParole := true }) t

theorem Sane.parole (S : Sane t) (onParole : List Nat) : Sane (t.parole onParole) ∧
    (t.parole onParole).picker = t.picker := by
  induction onParole generalizing t with
  | nil => exact ⟨S, rfl⟩
  | cons p l ih => exact ih (S.incidental (incidental_onParole _))

/-- **Every allowed call keeps the state sane.** -/
theorem step_sane (S : Sane t) (ha : Allowed t c) : Sane (step t c) := by
  by_cases hc : c.isMove = true
  · exact ((step_moves S ha hc False.elim False.elim False.elim).good S.good).1.toSane
  cases c with
  | connect => exact S.connect ha _ _
  | choke => exact ((onChoke_moves S.good ha.1 ha.2.2).good S.good).1.toSane
  | diskWriteComplete =>
    simp only [step, onDiskWriteComplete]
    cases hseed : t.isSeed with
    | true => exact S
    | false =>
      rw [if_neg (by decide)]
      obtain ⟨T, -⟩ := markAsFinished_touch S.orderly (ha hseed)
      exact S.withPicker T.orderly (T.counts.balanced S.balanced) T.inRange _
  | pieceFinished index result onParole banned =>
    simp only [step, Requests.pieceFinished]
    split
    · exact S
    rename_i hf
    obtain ⟨hlt, hh⟩ := S.pieceFinished index (by
      by_contra h
      exact hf (Or.inr (by simpa using h)))
    cases result with
    | passed =>
      obtain ⟨T, -⟩ := weHave_settle S.orderly hlt
      exact S.withPicker T.orderly (T.balanced S.balanced) T.inRange t.random
    | failed =>
      obtain ⟨S1, hp⟩ := S.parole onParole
      have hm : Moves False (t.parole onParole).Pickable (t.parole onParole)
        (banned.foldl disconnect (t.parole onParole)) :=
        foldl_disconnect_moves banned _
      obtain ⟨G2, T2⟩ := hm.good S1.good
      exact G2.toSane.restorePiece ((T2.have index).trans (by rw [hp]; exact hh))
    | diskFailed => exact S.restorePiece hh
  | allowedFast p piece => exact S.incidental (incidental_allowedFast ha piece)
  | peerStatus => exact S.incidental (incidental_status _ _ _ _)
  | torrentStatus => exact ⟨S.orderly, S.balanced, S.fits, S.nodup, S.tidy⟩
  | addRequest | requestABlock | sendBlockRequests | cancelRequest | snubPeer | unchoke | reject | startPiece
  | pieceData
  | disconnect => exact absurd rfl hc

/-! ## A torrent to start with -/

/-- A torrent of one piece of two blocks, without connections. -/
def newTorrent : Torrent where
  layout := ⟨1, 32768, 32768, 16384, by decide⟩
  picker := PiecePicker.new.init 2 2 1
  connections := []
  peer := fun _ => {}
  random := fun _ => 0
  dropSkippedRequests := true
  uploadMode := false
  gracefulPause := false
  canDownload := true

theorem newTorrent_inRange (b : PieceBlock) :
    newTorrent.layout.InRange b ↔ (b.pieceIndex : Nat) < 1 ∧ (b.blockIndex : Nat) < 2 := by
  have h1 : ∀ i, newTorrent.layout.pieceSize i = 32768 := by
    intro i
    unfold Layout.pieceSize
    split <;> rfl
  have h2 : newTorrent.layout.blockSize = 16384 := rfl
  have h3 : newTorrent.layout.numPieces = 1 := rfl
  rw [Layout.InRange, h1, h2, h3]
  omega

theorem newTorrent_sane : Sane newTorrent := by
  have hpre : new.Pre (.init 2 2 1) := by decide
  refine ⟨step_orderly orderly_new hpre, ?_, fun b => ?_, nodup_nil, fun p hp => ?_⟩
  · exact coreStep_balanced balanced_new hpre (Or.inl rfl)
  · have h1 : newTorrent.picker.numPieces = 1 := by decide
    have h2 : ∀ i, newTorrent.picker.blocksInPiece i = 2 := by
      intro i
      unfold blocksInPiece
      split <;> rfl
    rw [PiecePicker.InRange, h1, h2, newTorrent_inRange]
  · cases hp

theorem pickable_new (j : Fin (2 ^ 13)) (h : (j : Nat) < 2) (hs : (t.picker.pos 0).have = false)
    (hl : t.layout = newTorrent.layout) : t.Pickable ⟨0, j⟩ := by
  refine ⟨?_, hs⟩
  rw [hl, newTorrent_inRange]
  exact ⟨Nat.one_pos, h⟩

open Run

/-- Two peers are asked for the same block. -/
def askTwo : List Call :=
  [.connect 0 true false, .addRequest 0 (.of 0 0) false false, .sendBlockRequests 0, .connect 1 true false,
    .addRequest 1 (.of 0 0) false true, .sendBlockRequests 1]

theorem askTwo_legal : Legal step Allowed newTorrent askTwo := by
  refine ⟨not_mem_nil, ⟨mem_cons_self, ?_, not_mem_nil⟩, trivial,
    show 1 ∉ Torrent.connections _ by decide +kernel, ⟨by decide +kernel, ?_, not_mem_nil⟩, trivial, trivial⟩
  · exact pickable_new _ (by decide) (by decide) rfl
  · exact pickable_new _ (by decide) (by decide +kernel) rfl

/-- **Whatever the connections do, in any order**, the picker stays in order, a connection has a block in its queues at
most once and asks for blocks of the torrent only, and what it is receiving was verified. -/
theorem connections_stay_sane {t : Torrent} (S : Sane t) {calls : List Call} (hl : Legal step Allowed t calls) :
    Always step Sane t calls :=
  always_of_step (fun _ _ => step_sane) S hl

theorem connections_stay_sane_askTwo : Always step Sane newTorrent askTwo :=
  connections_stay_sane newTorrent_sane askTwo_legal

end Libtorrent.Requests
