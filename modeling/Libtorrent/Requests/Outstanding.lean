import Mathlib.Algebra.BigOperators.Group.List.Basic
import Libtorrent.Requests.Runs

/-!
# Outstanding bytes

`m_outstanding_bytes` is the length of the blocks in the download queue but for what was received of the block that is
arriving (`Account`). Every move keeps it so if its side conditions hold. A choke of a connection without the fast
extension rejects all requests with lengths that may be too large; the counter then ends at 0 with an empty queue
(`rejectAll_drains`).

The run theorem is `outstanding_bytes`: the counter is right in every state of a run in which every rejected block is
rejected with its own length and the block being received is not taken for rejected. Both conditions are needed
(`reject_with_other_length`).
-/

namespace Libtorrent.Requests

open Picker Run List Function Option Layout

variable {A : PieceBlock → Prop} {t t' : Torrent} {p : Nat} {x x' : Peer} {l : Layout} {c : Call}

def Layout.total (l : Layout) (queue : List PendingBlock) : Int := (queue.map fun e => (l.toReq e.block).length).sum

def Peer.received (x : Peer) : Int := x.receiving.elim 0 (·.received)

@[simp] theorem Layout.total_nil : l.total [] = 0 := rfl

@[simp] theorem Layout.total_cons (e : PendingBlock) (queue : List PendingBlock) :
    l.total (e :: queue) = (l.toReq e.block).length + l.total queue := sum_cons

variable {q rest : List PendingBlock} {e front : PendingBlock}

theorem Layout.total_perm {q' : List PendingBlock} (h : q.Perm q') : l.total q = l.total q' := (h.map _).sum_eq

theorem Layout.total_nonneg (h : ∀ e ∈ q, 0 ≤ (l.toReq e.block).length) : 0 ≤ l.total q := by
  induction q with
  | nil => exact Int.le_refl 0
  | cons e q ih =>
    have h1 := h e mem_cons_self
    have h2 := ih fun e' he' => h e' (mem_cons_of_mem _ he')
    rw [total_cons]
    omega

theorem Layout.le_total (h : ∀ e ∈ q, 0 ≤ (l.toReq e.block).length) {b : PieceBlock}
    (hb : b ∈ q.map (·.block)) : (l.toReq b).length ≤ l.total q := by
  induction q with
  | nil => cases hb
  | cons e q ih =>
    have h1 := h e mem_cons_self
    have hq : ∀ e ∈ q, 0 ≤ (l.toReq e.block).length := fun e' he' => h e' (mem_cons_of_mem _ he')
    have h2 := l.total_nonneg hq
    rw [total_cons]
    rcases mem_cons.mp hb with rfl | hb
    · show (l.toReq e.block).length ≤ _
      omega
    · have := ih hq hb
      omega

/-- The counter is right, and the block that is arriving is in the queue. -/
structure Peer.Account (l : Layout) (x : Peer) : Prop where
  bytes : x.outstandingBytes = l.total x.downloadQueue - x.received
  queued : ∀ m, x.receiving = some m → l.blockOf m.request ∈ x.downloadQueue.map (·.block)

theorem Peer.Tidy.received_le (T : x.Tidy l)
    (hq : ∀ m, x.receiving = some m → l.blockOf m.request ∈ x.downloadQueue.map (·.block)) :
    0 ≤ l.total x.downloadQueue - x.received := by
  have hn : ∀ e ∈ x.downloadQueue, 0 ≤ (l.toReq e.block).length := fun e he => (T.sent e he).1
  unfold Peer.received
  cases hm : x.receiving with
  | none =>
    have := l.total_nonneg hn
    simp only [elim_none]
    omega
  | some m =>
    obtain ⟨hv, -, hle⟩ := T.verified m hm
    have := l.le_total hn (hq m hm)
    rw [toReq_blockOf hv] at this
    simp only [elim_some]
    omega

theorem Peer.Account.of_perm (a : x.Account l) (hr : x'.receiving = x.receiving)
    (hq : (x'.downloadQueue.map (·.block)).Perm (x.downloadQueue.map (·.block)))
    (hb : x'.outstandingBytes = x.outstandingBytes) : x'.Account l := by
  refine ⟨?_, fun m hm => hq.mem_iff.mpr (a.queued m (hr ▸ hm))⟩
  have ht : l.total x'.downloadQueue = l.total x.downloadQueue := by
    have := (hq.map fun b => (l.toReq b).length).sum_eq
    simpa [total, List.map_map, comp_def] using this
  rw [hb, a.bytes, ht, Peer.received, Peer.received, hr]

theorem Peer.Account.drop {length : Int} (a : x.Account l) (T : x'.Tidy l)
    (hr : x'.receiving = x.receiving) (hx : x.Exact l e length) (hq : x.downloadQueue.Perm (e :: x'.downloadQueue))
    (hb : x'.outstandingBytes = max 0 (x.outstandingBytes - length)) : x'.Account l := by
  have hqueued : ∀ m, x'.receiving = some m → l.blockOf m.request ∈ x'.downloadQueue.map (·.block) := by
    intro m hm
    rw [hr] at hm
    have h := (hq.map (·.block)).mem_iff.mp (a.queued m hm)
    exact mem_of_ne_of_mem (hx.2 m hm) h
  have h1 := T.received_le hqueued
  have h2 := l.total_perm hq
  rw [total_cons, ← hx.1] at h2
  have h3 : x'.received = x.received := by rw [Peer.received, Peer.received, hr]
  refine ⟨?_, hqueued⟩
  rw [hb, a.bytes]
  omega

theorem Peer.Account.push (a : x.Account l) (hr : x'.receiving = x.receiving)
    (hq : x'.downloadQueue.Perm (e :: x.downloadQueue))
    (hb : x'.outstandingBytes = x.outstandingBytes + (l.toReq e.block).length) : x'.Account l := by
  refine ⟨?_, fun m hm => (hq.map (·.block)).mem_iff.mpr (mem_cons_of_mem _ (a.queued m (hr ▸ hm)))⟩
  have h2 := l.total_perm hq
  rw [total_cons] at h2
  have h3 : x'.received = x.received := by rw [Peer.received, Peer.received, hr]
  rw [hb, a.bytes]
  omega

/-- **Every move keeps the counter right**, if its side conditions hold. -/
theorem Move.account (h : Move True A p t t') (G : Good A t) (hp : p ∈ t.connections)
    (a : (t.peer p).Account t.layout) : (t'.peer p).Account t.layout := by
  obtain ⟨G', S⟩ := h.good G hp
  have T' := G'.tidy p (h.connections_eq ▸ hp)
  rw [S.layout] at T'
  have put {x' : Peer} {s : PiecePicker} {random : Nat → Nat} : (t.put p x' s random).peer p = x' :=
    update_self ..
  have putNext {x' : Peer} {s : Nat → PiecePicker} : (t.putNext p x' s).peer p = x' := update_self ..
  cases h with
  | tweak x' random calm sent queued bytes =>
    rw [put] at T' ⊢
    refine a.of_perm calm.receiving ?_ bytes
    have := congrArg (map Prod.fst) sent
    rw [List.map_map, List.map_map] at this
    exact .of_eq this
  | request e x' calm allowed wanted fresh needed sent queued bytes | unqueue e x' calm sent queued bytes =>
    rw [putNext]
    exact a.of_perm calm.receiving (by rw [sent]) bytes
  | send e e' x' calm block wanted sent queued bytes =>
    rw [put]
    exact a.push calm.receiving sent (by rw [bytes, block]; rfl)
  | drop e length x' calm right sent queued bytes =>
    have hx : (if e.wanted then t.putNext p x' fun rnd => t.picker.abortDownload e.block (some p) rnd
        else t.put p x' t.picker t.random).peer p = x' := by
      split
      · exact putNext
      · exact put
    rw [hx] at T' ⊢
    exact a.drop T' calm.receiving (right trivial) sent bytes
  | park e length x' calm right wanted sent queued bytes =>
    rw [put] at T' ⊢
    exact a.drop T' calm.receiving (right trivial) sent bytes
  | timeOut e e' rest x' calm wanted block unwanted before after queued bytes =>
    rw [putNext]
    refine a.of_perm calm.receiving ?_ bytes
    have h1 := before.map (·.block)
    have h2 := after.map (·.block)
    rw [map_cons] at h1 h2
    rw [block] at h2
    exact h2.trans h1.symm
  | arrive e x' calm unwanted fresh nonneg sent queued bytes =>
    rw [put]
    exact a.push calm.receiving (by rw [sent]) bytes
  | progress r received more x' kept before after verified nonneg le right sent queued bytes =>
    rw [put] at T' ⊢
    have hqueued : ∀ m, x'.receiving = some m → t.layout.blockOf m.request ∈ x'.downloadQueue.map (·.block) := by
      intro m hm
      rw [after, some.injEq] at hm
      rw [← hm, sent]
      exact right trivial
    have h1 := T'.received_le hqueued
    have h2 : x'.received = received + more := by rw [Peer.received, after]; rfl
    have h3 : (t.peer p).received = received := by
      rw [Peer.received]
      rcases before with ⟨h, rfl⟩ | h
      · rw [h]
        rfl
      · rw [h]
        rfl
    refine ⟨?_, hqueued⟩
    rw [sent] at h1 ⊢
    rw [bytes, a.bytes]
    omega
  | stop x' kept after right sent queued bytes =>
    rw [put]
    have h3 : (t.peer p).received = 0 := by
      rw [Peer.received]
      cases hm : (t.peer p).receiving with
      | none => rfl
      | some m => exact right trivial m hm
    refine ⟨?_, fun m hm => by rw [after] at hm; cases hm⟩
    rw [bytes, a.bytes, sent, h3, Peer.received, after]
    rfl
  | finish e x' kept after right sent queued bytes =>
    have hx : (if t.picker.isDownloaded e.block then t.put p x' t.picker t.random
        else t.putNext p x' fun rnd => (t.picker.markAsWriting e.block (some p) rnd).1).peer p = x' := by
      split
      · exact put
      · exact putNext
    rw [hx]
    obtain ⟨m, hm, hlen⟩ := right trivial
    have h2 := t.layout.total_perm sent
    rw [total_cons] at h2
    have h3 : (t.peer p).received = (t.layout.toReq e.block).length := by
      rw [Peer.received, hm]
      exact hlen
    refine ⟨?_, fun m hm => by rw [after] at hm; cases hm⟩
    have h4 : x'.received = 0 := by rw [Peer.received, after]; rfl
    rw [bytes, a.bytes]
    omega
  | forget x' seed wrong => exact absurd trivial wrong

/-- The counters of all open connections are right. -/
def Accounts (t : Torrent) : Prop := ∀ p ∈ t.connections, (t.peer p).Account t.layout

theorem Moves.accounts (h : Moves True A t t') (G : Good A t) (a : Accounts t) : Accounts t' := by
  induction h with
  | refl => exact a
  | @tail u v hu hm ih =>
    obtain ⟨G', -⟩ := Moves.good hu G
    obtain ⟨p, hp, hm | rfl⟩ := hm
    · intro q hq
      rw [hm.connections_eq] at hq
      rw [(hm.good G' hp).2.layout]
      by_cases hqp : q = p
      · rw [hqp]
        exact hm.account G' hp (ih p hp)
      · rw [hm.peer_of_ne hqp]
        exact ih q hq
    · intro q hq
      rw [disconnect_connections hp] at hq
      have hqp : q ≠ p := fun e => (List.Nodup.not_mem_erase G'.nodup) (e ▸ hq)
      rw [disconnect_peer_of_ne hqp hp]
      obtain ⟨-, S⟩ := Moves.good (E := True) (disconnect_moves u p) G'
      rw [S.layout]
      exact ih q (mem_of_mem_erase hq)

theorem Chain.accounts (h : Chain True A p t t') (G : Good A t) (a : Accounts t) : Accounts t' :=
  h.moves.accounts G a

/-! ## A choke without the fast extension -/

/-- The requests are being rejected one by one. -/
structure Peer.Draining (l : Layout) (x : Peer) (queue : List PendingBlock) : Prop where
  left : x.downloadQueue = queue
  receiving : x.receiving = none
  choked : x.peerChoked = true
  slow : x.allowedFast = []
  bytes : 0 ≤ x.outstandingBytes ∧ x.outstandingBytes ≤ l.total queue

theorem requestABlock_choked (hc : (t.peer p).peerChoked = true) (hf : (t.peer p).allowedFast = []) (picks : Picks) :
    requestABlock t p picks = t := by
  have hint : (t.peer p).interesting picks = [] := by
    unfold Peer.interesting
    rw [if_pos hc, hf]
    simp
  unfold requestABlock
  dsimp only
  rw [hint]
  generalize ((if (t.peer p).endgame then 1 else (t.peer p).desiredQueueSize : Nat) : Int) -
    ((t.peer p).downloadQueue.length + (t.peer p).requestQueue.length : Nat) = n
  split
  · rfl
  split
  · rfl
  · rename_i hn
    rw [pickLoop, pickBusy, if_neg hn, if_pos hc]

theorem sendBlockRequests_nothing (hq : (t.peer p).requestQueue = []) :
    sendBlockRequests t p = t ∨ sendBlockRequests t p = disconnect t p := by
  unfold sendBlockRequests
  dsimp only
  split
  · exact Or.inl rfl
  split
  · exact Or.inr rfl
  split
  · exact Or.inl rfl
  · rw [hq]
    exact Or.inl rfl

theorem matchRequest_choked (l : Layout) (b : PieceBlock) : l.matchRequest (l.chokedRequest b) b = true := by
  have hpos : (0 : Int) < l.blockSize := by exact_mod_cast l.blockSize_pos
  simp only [matchRequest, chokedRequest, decide_eq_true_eq, true_and]
  push_cast
  exact ⟨(Int.mul_tdiv_cancel _ hpos.ne').symm, Int.mul_tmod_left ..⟩

theorem le_chokedRequest (l : Layout) (b : PieceBlock) : (l.toReq b).length ≤ (l.chokedRequest b).length := by
  simp only [toReq, chokedRequest]
  split <;> omega

theorem dropRequest_front
    (h : (t.peer p).Draining t.layout (front :: rest)) (hn : ∀ e ∈ rest, 0 ≤ (t.layout.toReq e.block).length) :
    ((dropRequest t p (t.layout.chokedRequest front.block)).peer p).Draining t.layout rest := by
  have hmatch := matchRequest_choked t.layout front.block
  have hle := le_chokedRequest t.layout front.block
  have hrest := t.layout.total_nonneg hn
  have hb := h.bytes
  rw [total_cons] at hb
  unfold dropRequest
  rw [h.left, find?_cons, hmatch]
  dsimp only
  generalize hu : (t.modifyPeer p fun x =>
    { x with downloadQueue := x.downloadQueue.eraseP fun e =>
      t.layout.matchRequest (t.layout.chokedRequest front.block) e.block }.settle
        (t.layout.chokedRequest front.block).length) = u
  have hup : (u.peer p).Draining t.layout rest := by
    rw [← hu, peer_modifyPeer]
    refine ⟨?_, h.receiving, h.choked, h.slow, ?_⟩
    · simp only [Peer.settle, h.left]
      exact eraseP_cons_of_pos hmatch
    · simp only [Peer.settle]
      omega
  unfold rejectBlock
  split
  · split
    · rw [peer_modifyPeer]
      exact ⟨hup.left, hup.receiving, hup.choked, hup.slow, hup.bytes⟩
    · exact hup
  · split
    · exact hup
    · exact hup

theorem incomingRejectRequest_front (picks : Picks) (G : Good A t) (hp : p ∈ t.connections)
    (h : (t.peer p).Draining t.layout (front :: rest)) : ∃ u, Chain False A p t u ∧ (u.peer p).Draining t.layout rest ∧
      (incomingRejectRequest t p (t.layout.chokedRequest front.block) picks = u ∨
        incomingRejectRequest t p (t.layout.chokedRequest front.block) picks = disconnect u p) := by
  have hd := dropRequest_front h fun e he => ((G.tidy p hp).sent e (h.left ▸ mem_cons_of_mem _ he)).1
  have h1 : Chain False A p t (dropRequest t p (t.layout.chokedRequest front.block)) :=
    dropRequest_chain G hp False.elim False.elim
  unfold incomingRejectRequest
  generalize dropRequest t p (t.layout.chokedRequest front.block) = u at hd h1
  have hpu : p ∈ u.connections := h1.connections_eq ▸ hp
  dsimp only
  rw [if_pos hd.choked]
  have h2 : Chain False A p u (u.modifyPeer p fun x =>
      { x with allowedFast := x.allowedFast.erase (t.layout.chokedRequest front.block).piece }) := by
    refine .tweak hpu ⟨⟨⟨((h1.good G).1.tidy p hpu).critical, fun _ _ => ?_⟩, rfl⟩, rfl, rfl, rfl⟩
    rw [hd.slow]
    rfl
  have hvp : ((u.modifyPeer p fun x => { x with
      allowedFast := x.allowedFast.erase (t.layout.chokedRequest front.block).piece }).peer p).Draining t.layout
        rest := by
    rw [peer_modifyPeer]
    refine ⟨hd.left, hd.receiving, hd.choked, ?_, hd.bytes⟩
    rw [hd.slow]
    rfl
  refine ⟨_, h1.trans h2, hvp, ?_⟩
  split
  · rename_i hq
    rw [requestMore, requestABlock_choked hvp.choked hvp.slow]
    exact sendBlockRequests_nothing hq.1
  · exact Or.inl rfl

theorem rejectAll_empty (picks : Picks) (fuel : Nat) (h : (t.peer p).downloadQueue = []) :
    rejectAll p picks fuel t = t := by
  cases fuel with
  | zero => rfl
  | succ => rw [rejectAll, h]

/-- **All requests are rejected**: the counter of the connection ends at 0, or the connection is closed. -/
theorem rejectAll_drains (picks : Picks) {queue : List PendingBlock} (G : Good A t) (hp : p ∈ t.connections)
    (h : (t.peer p).Draining t.layout queue) (a : ∀ q ∈ t.connections, q ≠ p → (t.peer q).Account t.layout) :
    Accounts (rejectAll p picks queue.length t) := by
  induction queue generalizing t with
  | nil =>
    rw [length_nil, rejectAll]
    intro q hq
    by_cases hqp : q = p
    · have hb := h.bytes
      rw [total_nil] at hb
      rw [hqp]
      refine ⟨?_, fun m hm => ?_⟩
      · rw [h.left, total_nil, Peer.received, h.receiving, elim_none]
        omega
      · rw [h.receiving] at hm
        cases hm
    · exact a q hq hqp
  | cons front rest ih =>
    obtain ⟨u, hc, hu, he⟩ := incomingRejectRequest_front picks G hp h
    obtain ⟨G', S⟩ := hc.good G
    have hpu : p ∈ u.connections := hc.connections_eq ▸ hp
    have others : ∀ q ∈ u.connections, q ≠ p → (u.peer q).Account u.layout := by
      intro q hq hqp
      rw [hc.connections_eq] at hq
      rw [hc.peer_of_ne hqp, S.layout]
      exact a q hq hqp
    rw [length_cons, rejectAll, h.left]
    dsimp only
    rcases he with he | he
    · rw [he]
      exact ih G' hpu (S.layout ▸ hu) others
    rw [he, rejectAll_empty picks _ (disconnect_downloadQueue hpu)]
    intro q hq
    rw [disconnect_connections hpu] at hq
    have hqp : q ≠ p := fun e => G'.nodup.not_mem_erase (e ▸ hq)
    have hm : Moves False A u (disconnect u p) := disconnect_moves u p
    rw [disconnect_peer_of_ne hqp hpu, (hm.good G').2.layout]
    exact others q (mem_of_mem_erase hq) hqp

/-! ## Runs -/

theorem incomingChoke_peer (hp : p ∈ t.connections) : ((incomingChoke t p).peer p).peerChoked = true ∧
    ((incomingChoke t p).peer p).receiving = (t.peer p).receiving := by
  unfold incomingChoke clearRequestQueue
  split
  · rw [peer_modifyPeer]
    exact ⟨rfl, rfl⟩
  dsimp only
  rw [modifyPeer_modifyPeer]
  split
  · simp
  · rw [(wipeRequests_chain (E := False) (A := fun _ => True) (t := t.modifyPeer p _) hp _ (.refl _)
      (by rw [peer_modifyPeer])).2, peer_modifyPeer]
    exact ⟨rfl, rfl⟩

theorem onChoke_accounts (S : Sane t) (a : Accounts t) (hs : t.isSeed = false) {picks : Picks}
    (ha : Allowed t (.choke p picks)) : Accounts (onChoke t p picks) := by
  obtain ⟨hp, hn, ho⟩ := ha
  have hc : Chain True t.Pickable p t (incomingChoke t p) := incomingChoke_chain S.good hp fun _ => hs
  have a1 := hc.accounts S.good a
  obtain ⟨G1, S1⟩ := hc.good S.good
  have hp1 : p ∈ (incomingChoke t p).connections := hc.connections_eq ▸ hp
  obtain ⟨h1, h2⟩ := incomingChoke_peer hp
  rw [hn] at h2
  unfold onChoke
  dsimp only
  split
  · exact a1
  rename_i hslow
  refine rejectAll_drains picks G1 hp1 ⟨rfl, h2, h1, (G1.tidy p hp1).slow (by simpa using hslow), ?_⟩
    fun q hq _ => a1 q hq
  have hb := (a1 p hp1).bytes
  rw [Peer.received, h2, elim_none] at hb
  have h0 := (incomingChoke t p).layout.total_nonneg fun e he => ((G1.tidy p hp1).sent e he).1
  omega

theorem Accounts.congr (a : Accounts t) (h : Alike t t') : Accounts t' := by
  intro p hp
  rw [h.connections] at hp
  rw [h.peer p hp, h.layout]
  exact a p hp

theorem Accounts.incidental {f : Peer → Peer} (a : Accounts t) (S : Sane t) (h : Incidental f (t.peer p)) :
    Accounts (t.modifyPeer p f) := by
  rcases h.moves S with ha | ⟨hp, hm⟩
  · exact a.congr ha
  · exact (Chain.one hp hm).accounts S.good a

theorem Accounts.parole (a : Accounts t) (S : Sane t) (onParole : List Nat) : Accounts (t.parole onParole) := by
  induction onParole generalizing t with
  | nil => exact a
  | cons p l ih => exact ih (a.incidental S (incidental_onParole _)) (S.incidental (incidental_onParole _))

theorem Accounts.restorePiece (a : Accounts t) (index : Nat) : Accounts (Requests.restorePiece t index) := by
  rw [Requests.restorePiece, restorePieceState_eq]
  intro p hp
  obtain ⟨h1, h2⟩ := connections_mark (t.withPicker fun s rnd => s.restorePiece index rnd)
    ((t.withPicker fun s rnd => s.restorePiece index rnd).pending index)
  rw [h1] at hp
  rw [peer_mark, h2]
  exact a p hp

/-- **One step**: a call under the side conditions keeps the counters right. -/
theorem step_accounts (S : Sane t) (a : Accounts t) (hs : t.isSeed = false) (ha : Allowed t c) (hx : Settles t c) :
    Accounts (step t c) := by
  by_cases hc : c.isMove = true
  · exact (step_moves S ha hc (fun _ => hs) (fun _ => hx) fun _ p hp => (a p hp).queued).accounts S.good a
  cases c with
  | connect p supportsFast requestLargeBlocks =>
    intro q hq
    show (update t.peer p { supportsFast, requestLargeBlocks } q).Account t.layout
    by_cases he : q = p
    · rw [he, update_self]
      exact ⟨rfl, fun m h => absurd h (by simp)⟩
    · rw [update_of_ne he]
      exact a q (mem_of_ne_of_mem he hq)
  | choke => exact onChoke_accounts S a hs ha
  | diskWriteComplete =>
    simp only [step, onDiskWriteComplete]
    split
    · exact a
    · exact a
  | pieceFinished index result onParole banned =>
    simp only [step, Requests.pieceFinished]
    split
    · exact a
    cases result with
    | passed => exact a
    | failed =>
      obtain ⟨S1, -⟩ := S.parole onParole
      have hm : Moves True (t.parole onParole).Pickable (t.parole onParole)
          (banned.foldl disconnect (t.parole onParole)) := foldl_disconnect_moves banned _
      exact (hm.accounts S1.good (a.parole S onParole)).restorePiece index
    | diskFailed => exact a.restorePiece index
  | allowedFast p piece => exact a.incidental S (incidental_allowedFast ha piece)
  | peerStatus => exact a.incidental S (incidental_status _ _ _ _)
  | torrentStatus => exact a
  | addRequest | requestABlock | sendBlockRequests | cancelRequest | snubPeer | unchoke | reject | startPiece
  | pieceData
  | disconnect => exact absurd rfl hc

/-- `m_outstanding_bytes` of every open connection is the length of the blocks in its download queue but for what was
received of the block that is arriving. -/
def CountsOutstanding (t : Torrent) : Prop :=
  ∀ p ∈ t.connections,
    (t.peer p).outstandingBytes = t.layout.total (t.peer p).downloadQueue - (t.peer p).received ∧
      0 ≤ (t.peer p).outstandingBytes ∧ ((t.peer p).downloadQueue = [] → (t.peer p).outstandingBytes = 0)

theorem Accounts.countsOutstanding (S : Sane t) (a : Accounts t) : CountsOutstanding t := by
  intro p hp
  have hb := (a p hp).bytes
  have h0 := (S.tidy p hp).received_le (a p hp).queued
  refine ⟨hb, by omega, fun he => ?_⟩
  have hn : (t.peer p).receiving = none := by
    cases hm : (t.peer p).receiving with
    | none => rfl
    | some m =>
      have := (a p hp).queued m hm
      rw [he] at this
      cases this
  rw [hb, he, Peer.received, hn]
  rfl

/-- **Outstanding bytes.** In every run of a torrent that is downloading, from a state without connections, the counters
are right, if every rejected block is rejected with its length and the block being received is not taken for
rejected. -/
theorem outstanding_bytes (S : Sane t) (hc : t.connections = []) (calls : List Call)
    (hl : Legal step (fun t c => t.isSeed = false ∧ Allowed t c ∧ Settles t c) t calls) :
    Always step CountsOutstanding t calls := by
  refine (always_of_step (P := fun t => Sane t ∧ Accounts t) (fun t c h hp => ?_) ⟨S, ?_⟩ hl).mono
    fun t h => h.2.countsOutstanding h.1
  · exact ⟨step_sane h.1 hp.2.1, step_accounts h.1 h.2 hp.1 hp.2.1 hp.2.2⟩
  · intro p hp
    rw [hc] at hp
    cases hp

def noPicks : Picks := ⟨[], false, false⟩

/-- A block is requested of a peer with the fast extension, and a part of it is received. -/
def oneBlock : List Call :=
  [.connect 0 true false, .addRequest 0 (.of 0 0) false false, .sendBlockRequests 0,
    .startPiece 0 ⟨0, 0, 16384⟩ 100 2 noPicks]

theorem offers_noPicks (t : Torrent) : t.Offers noPicks := fun _ h => absurd h not_mem_nil

theorem oneBlock_legal : Legal step (fun t c => t.isSeed = false ∧ Allowed t c ∧ Settles t c) newTorrent oneBlock := by
  refine ⟨⟨by decide, not_mem_nil, trivial⟩, ⟨by decide, ⟨mem_cons_self, ?_, not_mem_nil⟩, trivial⟩,
    ⟨by decide +kernel, trivial, trivial⟩,
    ⟨by decide +kernel, ⟨by decide +kernel, rfl, offers_noPicks _, by decide, by decide⟩, trivial⟩, trivial⟩
  exact pickable_new _ (by decide) (by decide) rfl

theorem outstanding_bytes_oneBlock : ((run step newTorrent oneBlock).peer 0).outstandingBytes = 16284 ∧
      Always step CountsOutstanding newTorrent oneBlock :=
  ⟨by decide +kernel, outstanding_bytes newTorrent_sane rfl oneBlock oneBlock_legal⟩

def shortReject : List Call := oneBlock.take 3 ++ [.reject 0 ⟨0, 0, 0⟩ noPicks]

/-- Two blocks are requested of a peer without the fast extension; the first one is cancelled while it arrives. -/
def lateCancel : List Call :=
  [.connect 0 false false, .addRequest 0 (.of 0 0) false false, .addRequest 0 (.of 0 1) false false,
    .sendBlockRequests 0, .startPiece 0 ⟨0, 0, 16384⟩ 100 2 noPicks, .cancelRequest 0 (.of 0 0) false noPicks,
    .pieceData 0 16284 2 noPicks]

theorem shortReject_allowed : Legal step Allowed newTorrent shortReject := by
  refine ⟨not_mem_nil, ⟨mem_cons_self, ?_, not_mem_nil⟩, trivial, ⟨by decide +kernel, rfl, offers_noPicks _⟩, trivial⟩
  exact pickable_new _ (by decide) (by decide) rfl

theorem lateCancel_allowed : Legal step Allowed newTorrent lateCancel := by
  refine ⟨not_mem_nil, ⟨mem_cons_self, ?_, not_mem_nil⟩, ⟨mem_cons_self, ?_, by decide +kernel⟩,
    trivial, ⟨by decide +kernel, rfl, offers_noPicks _, by decide, by decide⟩,
    ⟨by decide +kernel, rfl, offers_noPicks _⟩, ⟨by decide +kernel, offers_noPicks _, ?_⟩, trivial⟩
  · exact pickable_new _ (by decide) (by decide) rfl
  · exact pickable_new _ (by decide) (by decide +kernel) rfl
  · rintro m ⟨⟩
    exact ⟨by decide, by decide⟩

/-- In the first run the queue is empty, but 16384 bytes are outstanding. In the second one a block is in the queue, but
no bytes are outstanding. -/
theorem reject_with_other_length :
    (Legal step Allowed newTorrent shortReject ∧ Legal step Allowed newTorrent lateCancel) ∧
      (((run step newTorrent shortReject).peer 0).downloadQueue = [] ∧
        ((run step newTorrent shortReject).peer 0).outstandingBytes = 16384) ∧
      (((run step newTorrent lateCancel).peer 0).downloadQueue.map (·.block) = [.of 0 1] ∧
        ((run step newTorrent lateCancel).peer 0).received = 0 ∧
        ((run step newTorrent lateCancel).peer 0).outstandingBytes = 0) :=
  ⟨⟨shortReject_allowed, lateCancel_allowed⟩, by decide +kernel, by decide +kernel⟩

end Libtorrent.Requests
