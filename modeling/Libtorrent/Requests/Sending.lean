import Libtorrent.Requests.Moves

/-!
# The handlers as moves: asking, rejecting and closing

A handler that only works on one connection is a `Chain` of its moves; one that may close the connection is a sequence
of `Moves`. Each loop is taken apart by induction.
-/

namespace Libtorrent.Requests

open Picker Relation List Function Nat Torrent

variable {E : Prop} {A : PieceBlock → Prop} {t t' t'' : Torrent} {p : Nat} {x : Peer} {b : PieceBlock}

/-! ## Sequences of moves -/

def Chain (E : Prop) (A : PieceBlock → Prop) (p : Nat) : Torrent → Torrent → Prop :=
  ReflTransGen fun t t' => p ∈ t.connections ∧ Move E A p t t'

/-- Moves of open connections, which may be closed. -/
def Moves (E : Prop) (A : PieceBlock → Prop) : Torrent → Torrent → Prop :=
  ReflTransGen fun t t' => ∃ p ∈ t.connections, Move E A p t t' ∨ t' = disconnect t p

theorem Chain.one (hp : p ∈ t.connections) (h : Move E A p t t') : Chain E A p t t' := .single ⟨hp, h⟩

section

variable (h : Chain E A p t t')
include h

theorem Chain.moves : Moves E A t t' := by
  induction h with
  | refl => exact .refl
  | tail _ hm ih => exact ih.tail ⟨p, hm.1, Or.inl hm.2⟩

theorem Chain.connections_eq : t'.connections = t.connections := by
  induction h with
  | refl => rfl
  | tail _ hm ih => exact hm.2.connections_eq.trans ih

theorem Chain.peer_of_ne {q : Nat} (hq : q ≠ p) : t'.peer q = t.peer q := by
  induction h with
  | refl => rfl
  | tail _ hm ih => exact (hm.2.peer_of_ne hq).trans ih

theorem Chain.good (G : Good A t) : Good A t' ∧ Steady t t' := by
  induction h with
  | refl => exact ⟨G, Steady.refl t⟩
  | tail _ hm ih =>
    obtain ⟨G', S⟩ := ih
    obtain ⟨G'', S'⟩ := hm.2.good G' hm.1
    exact ⟨G'', S.trans S'⟩

end

theorem Chain.trans (h1 : Chain E A p t t') (h2 : Chain E A p t' t'') : Chain E A p t t'' :=
  ReflTransGen.trans h1 h2

theorem Moves.trans (h1 : Moves E A t t') (h2 : Moves E A t' t'') : Moves E A t t'' :=
  ReflTransGen.trans h1 h2

@[simp] theorem peer_modifyPeer (t : Torrent) (p : Nat) (f : Peer → Peer) : (t.modifyPeer p f).peer p = f (t.peer p) :=
  update_self ..

theorem modifyPeer_modifyPeer (t : Torrent) (p : Nat) (f g : Peer → Peer) :
    (t.modifyPeer p f).modifyPeer p g = t.modifyPeer p fun x => g (f x) := by
  unfold modifyPeer
  simp

section

variable (hp : p ∈ t.connections)
include hp

theorem Chain.tweak {f : Peer → Peer}
    (h : (t.peer p).Calm (f (t.peer p)) ∧
      (f (t.peer p)).downloadQueue.map (·.key) = (t.peer p).downloadQueue.map (·.key) ∧
      (f (t.peer p)).requestQueue = (t.peer p).requestQueue ∧
      (f (t.peer p)).outstandingBytes = (t.peer p).outstandingBytes) : Chain E A p t (t.modifyPeer p f) :=
  .one hp (.tweak _ t.random h.1 h.2.1 h.2.2.1 h.2.2.2)

/-! ## Closing a connection -/

theorem wipeRequests_chain (queue : List PendingBlock) (hq : (t.peer p).requestQueue.Perm queue)
    (hc : (t.peer p).queuedTimeCritical = 0) : Chain E A p t (wipeRequests p queue t) ∧
      (wipeRequests p queue t).peer p = { t.peer p with requestQueue := [] } := by
  induction queue generalizing t with
  | nil => exact ⟨.refl, by rw [wipeRequests, ← hq.eq_nil]⟩
  | cons e rest ih =>
    rw [wipeRequests]
    have hm : Move E A p t ((t.abortDownload e.block p).modifyPeer p fun x => { x with requestQueue := rest }) :=
      .unqueue e { t.peer p with requestQueue := rest } ⟨⟨by rw [hc]; exact zero_le _, id⟩, rfl⟩ rfl hq rfl
    obtain ⟨h1, h2⟩ := ih (t := (t.abortDownload e.block p).modifyPeer p fun x => { x with requestQueue := rest }) hp
      (by rw [peer_modifyPeer]) (by rw [peer_modifyPeer]; exact hc)
    exact ⟨(Chain.one hp hm).trans h1, h2.trans (by rw [peer_modifyPeer]; rfl)⟩

theorem wipeDownloads_chain {queue : List PendingBlock}
    (hq : (t.peer p).downloadQueue.Perm queue) (hc : (t.peer p).queuedTimeCritical = 0) :
    Chain False A p t (wipeDownloads p queue t) ∧ ((wipeDownloads p queue t).peer p).downloadQueue = [] ∧
      ((wipeDownloads p queue t).peer p).requestQueue = (t.peer p).requestQueue ∧
      ((wipeDownloads p queue t).peer p).queuedTimeCritical = 0 := by
  induction queue generalizing t with
  | nil => exact ⟨.refl, hq.eq_nil, rfl, hc⟩
  | cons e rest ih =>
    rw [wipeDownloads]
    generalize hu : (if e.wanted then t.abortDownload e.block p else t) = u
    have hpeer : u.peer = t.peer ∧ u.connections = t.connections := by
      rw [← hu]
      split <;> exact ⟨rfl, rfl⟩
    generalize hv : (u.modifyPeer p fun x => { x with downloadQueue := rest }.settle (t.blockLength e.block)) = v
    have hvp : v.peer p = { t.peer p with downloadQueue := rest }.settle (t.blockLength e.block) := by
      rw [← hv, peer_modifyPeer, hpeer.1]
    have hm : Move False A p t v := by
      have := Move.drop (A := A) e (t.blockLength e.block)
        ({ t.peer p with downloadQueue := rest }.settle (t.blockLength e.block))
        ⟨⟨by dsimp only [Peer.settle]; rw [hc]; exact zero_le _, id⟩, rfl⟩ False.elim hq rfl rfl
      rw [← hv, ← hu]
      cases hw : e.wanted with
      | true =>
        rw [hw, if_pos rfl] at this
        exact this
      | false =>
        rw [hw] at this
        exact this
    obtain ⟨h1, h2, h3, h4⟩ := ih (t := v) (by rw [← hv]; exact hpeer.2 ▸ hp) (by rw [hvp]; rfl) (by rw [hvp]; exact hc)
    exact ⟨(Chain.one hp hm).trans h1, h2, h3.trans (by rw [hvp]; rfl), h4⟩

end

theorem disconnect_chain (A : PieceBlock → Prop) (hp : p ∈ t.connections) :
    ∃ u, Chain False A p t u ∧ (u.peer p).downloadQueue = [] ∧ (u.peer p).requestQueue = [] ∧
      (u.peer p).queuedTimeCritical = 0 ∧ disconnect t p =
        { u.modifyPeer p fun x => { x with receiving := none } with connections := u.connections.erase p } := by
  unfold disconnect
  rw [if_neg (not_not_intro hp)]
  dsimp only
  generalize hv : (t.modifyPeer p fun x => { x with queuedTimeCritical := 0 }) = v
  have hvp : v.peer p = { t.peer p with queuedTimeCritical := 0 } := by rw [← hv, peer_modifyPeer]
  have hvc : p ∈ v.connections := by rw [← hv]; exact hp
  have h0 : Chain False A p t v := by
    rw [← hv]
    exact .tweak hp ⟨⟨⟨zero_le _, id⟩, rfl⟩, rfl, rfl, rfl⟩
  by_cases hs : v.isSeed = true
  · rw [if_pos hs]
    refine ⟨_, h0.trans (.one hvc
      (.forget { v.peer p with downloadQueue := [], requestQueue := [], outstandingBytes := 0 }
      hs id ⟨?_, id⟩ (Or.inr rfl) (nil_sublist _) (nil_sublist _))), ?_, ?_, ?_, rfl⟩
    · rw [hvp]
      exact zero_le _
    · simp [put]
    · simp [put]
    · simp [put, hvp]
  · rw [if_neg hs]
    obtain ⟨h1, h2, h3, h4⟩ := wipeDownloads_chain hvc (reverse_perm _).symm (by rw [hvp])
    generalize wipeDownloads p (v.peer p).downloadQueue.reverse v = w at h1 h2 h3 h4
    obtain ⟨h5, h6⟩ := wipeRequests_chain (h1.connections_eq ▸ hvc)
      (v.peer p).requestQueue.reverse (h3 ▸ (reverse_perm _).symm) h4
    exact ⟨_, (h0.trans h1).trans h5, by rw [h6]; exact h2, by rw [h6], by rw [h6]; exact h4, rfl⟩

theorem Good.close (G : Good A t) (hp : p ∈ t.connections) :
    let t' := { t.modifyPeer p fun x => { x with receiving := none } with connections := t.connections.erase p }
    Good A t' ∧ Steady t t' := by
  obtain ⟨G', S⟩ := G.put (x := { t.peer p with receiving := none }) (g := t.random) (Or.inl rfl)
    ((G.tidy p hp).same ⟨(G.tidy p hp).critical, id⟩ (Or.inl rfl) rfl rfl)
  exact ⟨⟨⟨G'.orderly, G'.balanced, G'.fits, G'.nodup.erase p, fun q h => G'.tidy q (mem_of_mem_erase h)⟩,
    G'.allowed⟩, S.layout, S.isSeed, S.have⟩

/-- **Sequences of moves keep the state good.** -/
theorem Moves.good (h : Moves E A t t') (G : Good A t) : Good A t' ∧ Steady t t' := by
  induction h with
  | refl => exact ⟨G, Steady.refl t⟩
  | @tail u v _ hm ih =>
    obtain ⟨G', S⟩ := ih
    obtain ⟨p, hp, hm | rfl⟩ := hm
    · obtain ⟨G'', S'⟩ := hm.good G' hp
      exact ⟨G'', S.trans S'⟩
    obtain ⟨w, h1, -, -, -, he⟩ := disconnect_chain A hp
    obtain ⟨G'', S'⟩ := h1.good G'
    obtain ⟨G3, S3⟩ := G''.close (h1.connections_eq ▸ hp)
    rw [he]
    exact ⟨G3, (S.trans S').trans S3⟩

theorem disconnect_peer_of_ne {q : Nat} (hq : q ≠ p) (hp : p ∈ t.connections) : (disconnect t p).peer q = t.peer q := by
  obtain ⟨u, h, -, -, -, he⟩ := disconnect_chain (fun _ => True) hp
  rw [he]
  exact (update_of_ne hq ..).trans (h.peer_of_ne hq)

theorem disconnect_connections (hp : p ∈ t.connections) : (disconnect t p).connections = t.connections.erase p := by
  obtain ⟨u, h, -, -, -, he⟩ := disconnect_chain (fun _ => True) hp
  rw [he, ← h.connections_eq]

theorem disconnect_downloadQueue (hp : p ∈ t.connections) : ((disconnect t p).peer p).downloadQueue = [] := by
  obtain ⟨u, -, h, -, -, he⟩ := disconnect_chain (fun _ => True) hp
  rw [he]
  simpa using h

theorem Moves.open_or_empty (h : Moves E A t t') (hp : p ∈ t.connections) :
    p ∈ t'.connections ∨ (t'.peer p).downloadQueue = [] := by
  induction h with
  | refl => exact Or.inl hp
  | @tail u v _ hm ih =>
    obtain ⟨q, hq, hm | rfl⟩ := hm
    · by_cases hpq : p = q
      · exact Or.inl (hm.connections_eq ▸ hpq ▸ hq)
      · rw [hm.peer_of_ne hpq, hm.connections_eq]
        exact ih
    by_cases hpq : p = q
    · rw [hpq]
      exact Or.inr (disconnect_downloadQueue hq)
    · rw [disconnect_peer_of_ne hpq hq, disconnect_connections hq, mem_erase_of_ne hpq]
      exact ih

/-! ## Asking for blocks -/

theorem queueRequest_perm (x : Peer) (e : PendingBlock) (timeCritical : Bool)
    (h : x.queuedTimeCritical ≤ x.requestQueue.length) :
    (x.queueRequest e timeCritical).requestQueue.Perm (e :: x.requestQueue) ∧ x.Calm (x.queueRequest e timeCritical) ∧
      (x.queueRequest e timeCritical).downloadQueue = x.downloadQueue ∧
      (x.queueRequest e timeCritical).outstandingBytes = x.outstandingBytes := by
  unfold Peer.queueRequest
  split
  · refine ⟨perm_insertIdx _ _ h, ⟨⟨?_, id⟩, rfl⟩, rfl, rfl⟩
    dsimp only
    rw [length_insertIdx_of_le_length h]
    omega
  · refine ⟨perm_append_singleton .., ⟨⟨?_, id⟩, rfl⟩, rfl, rfl⟩
    simp only [length_append]
    omega

theorem addRequest_chain (G : Good A t) (hp : p ∈ t.connections) (hb : A b) (hf : b ∉ (t.peer p).blocks)
    (timeCritical busy : Bool) : Chain E A p t (addRequest t p b timeCritical busy).1 := by
  obtain ⟨hr, hh⟩ := G.allowed b hb
  obtain ⟨-, hret, -⟩ := PiecePicker.markAsDownloading_touch (some p) (t.random 0) G.orderly
    ((G.fits b).mpr hr) (Speed.pieceState_ne (t.peer p).speed) hh
  unfold addRequest markAsDownloading
  dsimp only
  split
  · exact .refl
  split
  · exact .refl
  rw [hret]
  cases hd : t.picker.isDownloaded b with
  | true =>
    rw [(PiecePicker.markAsDownloading_refused G.orderly.2 ((G.fits b).mpr hr) hh hd).1]
    have hm : Move E A p t (t.put p (t.peer p) t.picker fun i => t.random (i + 1)) :=
      .tweak _ _ ⟨⟨(G.tidy p hp).critical, id⟩, rfl⟩ rfl rfl rfl
    rw [put, update_eq_self] at hm
    exact .one hp hm
  | false =>
    obtain ⟨h1, h2, h3, h4⟩ := queueRequest_perm (t.peer p) { block := b, busy } timeCritical (G.tidy p hp).critical
    exact .one hp (.request _ _ h2 hb rfl hf hd h3 h1 h4)

theorem pickLoop_chain (whole dont : Bool) {blocks : List PieceBlock} (hA : ∀ b ∈ blocks, A b) (G : Good A t)
    (hp : p ∈ t.connections) (n : Int) (busy : Option PieceBlock) (hbusy : ∀ b ∈ busy, A b) :
    Chain E A p t (pickLoop p whole dont blocks t n busy).1 ∧
      ∀ b ∈ (pickLoop p whole dont blocks t n busy).2.2, A b := by
  induction blocks generalizing t n busy with
  | nil => exact ⟨.refl, hbusy⟩
  | cons b rest ih =>
    have hrest : ∀ c ∈ rest, A c := fun c hc => hA c (mem_cons_of_mem _ hc)
    rw [pickLoop]
    split
    · exact ⟨.refl, hbusy⟩
    split
    · split
      · exact ⟨.refl, hbusy⟩
      · exact ih hrest G hp n _ (by rintro c ⟨⟩; exact hA b mem_cons_self)
    split_ifs with hq
    · exact ih hrest G hp n _ hbusy
    have hq' : (t.peer p).queues b = false := by simpa using hq
    have h1 : Chain E A p t (addRequest t p b false false).1 :=
      addRequest_chain G hp (hA b mem_cons_self) (Peer.queues_eq_false.mp hq') _ _
    obtain ⟨h2, h3⟩ := ih hrest (h1.good G).1 (h1.connections_eq ▸ hp)
      (if (addRequest t p b false false).2 then n - 1 else n) busy hbusy
    exact ⟨h1.trans h2, h3⟩

theorem pickBusy_chain (G : Good A t) (hp : p ∈ t.connections) (n : Int) {busy : Option PieceBlock}
    (hbusy : ∀ b ∈ busy, A b) : Chain E A p t (pickBusy t p n busy) := by
  have tweak (e : Bool) : Chain E A p t (t.modifyPeer p fun x => { x with endgame := e }) :=
    .tweak hp ⟨⟨⟨(G.tidy p hp).critical, id⟩, rfl⟩, rfl, rfl, rfl⟩
  unfold pickBusy
  split
  · exact tweak false
  generalize hu : (if (t.peer p).peerChoked then t else t.modifyPeer p fun x => { x with endgame := true }) = u
  have h1 : Chain E A p t u := by
    rw [← hu]
    split
    · exact .refl
    · exact tweak true
  cases busy with
  | none => exact h1
  | some b =>
    dsimp only
    split_ifs with hl
    · exact h1
    refine h1.trans (addRequest_chain (h1.good G).1 (h1.connections_eq ▸ hp) (hbusy b rfl) ?_ _ _)
    have h2 : (u.peer p).downloadQueue = [] := eq_nil_of_length_eq_zero (by omega)
    have h3 : (u.peer p).requestQueue = [] := eq_nil_of_length_eq_zero (by omega)
    simp [Peer.blocks, h2, h3]

variable {picks : Picks}

theorem requestABlock_chain (G : Good A t) (hA : ∀ b ∈ picks.interestingPieces, A b) :
    Chain E A p t (requestABlock t p picks) := by
  unfold requestABlock
  dsimp only
  split
  · exact .refl
  rename_i hc
  have hp : p ∈ t.connections := by
    by_contra h
    exact hc (Or.inr (Or.inr (Or.inl h)))
  generalize ((if (t.peer p).endgame then 1 else (t.peer p).desiredQueueSize : Nat) : Int) -
    ((t.peer p).downloadQueue.length + (t.peer p).requestQueue.length : Nat) = n
  split
  · exact .refl
  have hint : ∀ b ∈ (t.peer p).interesting picks, A b := by
    intro b hb
    unfold Peer.interesting at hb
    split at hb
    · exact hA b (mem_of_mem_filter hb)
    · exact hA b hb
  obtain ⟨h1, h2⟩ := pickLoop_chain picks.preferWholePieces
    (picks.strictEndGame || decide ((t.peer p).downloadQueue.length + (t.peer p).requestQueue.length > 0)) hint G hp
    n none (by simp)
  exact h1.trans (pickBusy_chain (h1.good G).1 (h1.connections_eq ▸ hp) _ h2)

/-! ## Sending requests -/

theorem popRequest_chain (G : Good A t) (hp : p ∈ t.connections) {front : PendingBlock} {rest : List PendingBlock}
    (hq : (t.peer p).requestQueue = front :: rest) :
    Chain E A p t ((t.modifyPeer p (·.popRequest rest)).pushDownload p front) := by
  have T := G.tidy p hp
  have hm : Move E A p t (t.put p { t.peer p with
        requestQueue := rest
        queuedTimeCritical := (t.peer p).queuedTimeCritical - 1
        downloadQueue := (t.peer p).downloadQueue ++ [front]
        outstandingBytes := (t.peer p).outstandingBytes + t.blockLength front.block } t.picker t.random) := by
    have hc := T.critical
    rw [hq, length_cons] at hc
    refine .send front front _ ⟨⟨?_, id⟩, rfl⟩ rfl (T.requested front (hq ▸ mem_cons_self)).2
      (perm_append_singleton ..) (hq ▸ .refl _) rfl
    show (t.peer p).queuedTimeCritical - 1 ≤ rest.length
    omega
  rw [pushDownload, modifyPeer_modifyPeer]
  exact .one hp hm

theorem mergeLoop_chain (fuel : Nat) (G : Good A t) (hp : p ∈ t.connections) (b : PieceBlock) :
    Chain E A p t (mergeLoop p fuel t b) := by
  induction fuel generalizing t b with
  | zero => exact .refl
  | succ fuel ih =>
    rw [mergeLoop]
    cases hq : (t.peer p).requestQueue with
    | nil => exact .refl
    | cons =>
      dsimp only
      split
      · exact .refl
      · have h : Chain E A p t _ := popRequest_chain G hp hq
        exact h.trans (ih (h.good G).1 (h.connections_eq ▸ hp) _)

theorem sendLoop_chain (fuel : Nat) (G : Good A t) (hp : p ∈ t.connections) (hs : E → t.isSeed = false) :
    Chain E A p t (sendLoop p fuel t) := by
  induction fuel generalizing t with
  | zero => exact .refl
  | succ fuel ih =>
    rw [sendLoop]
    cases hq : (t.peer p).requestQueue with
    | nil => exact .refl
    | cons front rest =>
      have again {u : Torrent} (h : Chain E A p t u) : Chain E A p t (sendLoop p fuel u) :=
        h.trans (ih (h.good G).1 (h.connections_eq ▸ hp) fun e => (h.good G).2.isSeed.trans (hs e))
      have hc := (G.tidy p hp).critical
      rw [hq, length_cons] at hc
      have hkept : (t.peer p).Calm ((t.peer p).popRequest rest) := by
        refine ⟨⟨?_, id⟩, rfl⟩
        show (t.peer p).queuedTimeCritical - 1 ≤ rest.length
        omega
      dsimp only
      split
      · by_cases hseed : (t.modifyPeer p (·.popRequest rest)).isSeed = true
        · rw [if_pos hseed]
          refine again (.one hp (.forget ((t.peer p).popRequest rest) hseed (fun e => ?_) hkept.toKept (Or.inr rfl)
            (List.Sublist.refl _) (hq ▸ sublist_cons_self ..)))
          have h1 := hs e
          have h2 : t.isSeed = true := hseed
          rw [h1] at h2
          cases h2
        · rw [if_neg hseed]
          split
          · exact again (.one hp (.unqueue front ((t.peer p).popRequest rest) hkept rfl (hq ▸ .refl _) rfl))
          have h : Chain E A p t _ := popRequest_chain G hp hq
          split
          · exact again (h.trans (mergeLoop_chain fuel (h.good G).1 (h.connections_eq ▸ hp) _))
          · exact again h
      · exact .refl

theorem sendBlockRequests_moves (G : Good A t) (hs : E → t.isSeed = false) : Moves E A t (sendBlockRequests t p) := by
  unfold sendBlockRequests
  dsimp only
  split
  · exact .refl
  rename_i hp
  have hp' : p ∈ t.connections := by simpa using hp
  split
  · exact .single ⟨p, hp', Or.inr rfl⟩
  split
  · exact .refl
  · exact (sendLoop_chain _ G hp' hs).moves

theorem requestMore_moves (G : Good A t) (hs : E → t.isSeed = false)
    (hA : ∀ b ∈ picks.interestingPieces, A b) : Moves E A t (requestMore t p picks) := by
  have h : Chain E A p t (requestABlock t p picks) := requestABlock_chain G hA
  exact h.moves.trans (sendBlockRequests_moves (h.good G).1 fun e => (h.good G).2.isSeed.trans (hs e))

/-! ## Choking and rejecting -/

theorem clearRequestQueue_chain (hp : p ∈ t.connections) (hs : E → t.isSeed = false) :
    Chain E A p t (clearRequestQueue t p) := by
  unfold clearRequestQueue
  split
  · exact .refl
  dsimp only
  have h : Chain E A p t (t.modifyPeer p fun x => { x with queuedTimeCritical := 0 }) :=
    .tweak hp ⟨⟨⟨zero_le _, id⟩, rfl⟩, rfl, rfl, rfl⟩
  refine h.trans ?_
  split_ifs with hseed
  · refine .one hp (.forget _ hseed (fun e => ?_) ⟨?_, id⟩ (Or.inr rfl) (List.Sublist.refl _) (nil_sublist _))
    · have h1 := hs e
      have h2 : t.isSeed = true := hseed
      rw [h1] at h2
      cases h2
    · rw [peer_modifyPeer]
      exact le_refl 0
  · exact (wipeRequests_chain (t := t.modifyPeer p fun x => { x with queuedTimeCritical := 0 }) hp _ (.refl _)
      (by rw [peer_modifyPeer])).1

theorem incomingChoke_chain (G : Good A t) (hp : p ∈ t.connections) (hs : E → t.isSeed = false) :
    Chain E A p t (incomingChoke t p) := by
  have h : Chain E A p t (t.modifyPeer p fun x => { x with peerChoked := true, endgame := false }) :=
    .tweak hp ⟨⟨⟨(G.tidy p hp).critical, id⟩, rfl⟩, rfl, rfl, rfl⟩
  exact h.trans (clearRequestQueue_chain hp hs)

theorem perm_eraseP {α : Type} {f : α → Bool} {l : List α} {a : α} (h : l.find? f = some a) :
    l.Perm (a :: l.eraseP f) := by
  obtain ⟨ha, l1, l2, rfl, hl1⟩ := List.find?_eq_some_iff_append.mp h
  rw [eraseP_append_right _ fun b hb => by simpa using hl1 b hb, eraseP_cons_of_pos ha]
  exact perm_middle

section

variable (G : Good A t) (hp : p ∈ t.connections) (hs : E → t.isSeed = false)
include G hp hs

variable {r : PeerRequest}

section

variable (hr : E → ∀ e ∈ (t.peer p).downloadQueue, t.layout.matchRequest r e.block = true →
  (t.peer p).Exact t.layout e r.length)
include hr

theorem dropRequest_chain : Chain E A p t (dropRequest t p r) := by
  unfold dropRequest
  cases hf : (t.peer p).downloadQueue.find? fun e => t.layout.matchRequest r e.block with
  | none => exact .refl
  | some e =>
    have hperm := perm_eraseP hf
    have hmatch := List.find?_some hf
    have hx : E → (t.peer p).Exact t.layout e r.length := fun h => hr h e (mem_of_find?_eq_some hf) hmatch
    dsimp only
    generalize hy : ({ t.peer p with
      downloadQueue := (t.peer p).downloadQueue.eraseP fun e => t.layout.matchRequest r e.block } : Peer).settle
        r.length = y
    have hcalm : (t.peer p).Calm y := by
      rw [← hy]
      exact ⟨⟨(G.tidy p hp).critical, id⟩, rfl⟩
    have hdown : y.downloadQueue = (t.peer p).downloadQueue.eraseP fun e => t.layout.matchRequest r e.block := by
      rw [← hy]
      rfl
    rw [← hdown] at hperm
    have hreq : y.requestQueue = (t.peer p).requestQueue := by rw [← hy]; rfl
    have hbytes : y.outstandingBytes = max 0 ((t.peer p).outstandingBytes - r.length) := by rw [← hy]; rfl
    generalize hu : (t.modifyPeer p fun x =>
      { x with downloadQueue := x.downloadQueue.eraseP fun e => t.layout.matchRequest r e.block }.settle r.length) = u
    have hu' : u = t.put p y t.picker t.random := by rw [← hu, ← hy]; rfl
    have hup : u.peer p = y := by rw [hu']; exact update_self ..
    have hdrop := Move.drop (A := A) e r.length y hcalm hx hperm hreq hbytes
    unfold rejectBlock
    rw [hup]
    split
    · split_ifs with hw
      · refine .one hp ?_
        have hm : Move E A p t (t.put p { y with requestQueue := e :: y.requestQueue } t.picker t.random) := by
          refine .park e r.length _ ⟨⟨?_, hcalm.slow⟩, hcalm.receiving⟩ hx hw hperm (by rw [hreq]) hbytes
          exact le_succ_of_le hcalm.critical
        rw [hu', modifyPeer]
        simpa [put] using hm
      · rw [if_neg hw] at hdrop
        rw [hu']
        exact .one hp hdrop
    split_ifs with hw
    · rw [if_pos hw.2] at hdrop
      rw [hu']
      exact .one hp hdrop
    · rw [hu']
      cases hw' : e.wanted with
      | false =>
        rw [hw', if_neg (by decide)] at hdrop
        exact .one hp hdrop
      | true =>
        -- a seed does not tell the picker
        have hseed : t.isSeed = true := by
          by_contra hn
          have hns : (t.put p y t.picker t.random).isSeed = false := eq_false_of_ne_true hn
          exact hw ⟨by rw [hu', hns]; rfl, hw'⟩
        refine .one hp (.forget y hseed (fun h => ?_) hcalm.toKept (Or.inr hcalm.receiving) ?_ ?_)
        · rw [hs h] at hseed
          cases hseed
        · rw [hdown]
          exact eraseP_sublist
        · rw [hreq]

theorem incomingRejectRequest_moves {picks : Picks} (hA : ∀ b ∈ picks.interestingPieces, A b) :
    Moves E A t (incomingRejectRequest t p r picks) := by
  have h1 : Chain E A p t (dropRequest t p r) := dropRequest_chain G hp hs hr
  unfold incomingRejectRequest
  generalize dropRequest t p r = u at h1
  have hu : p ∈ u.connections := h1.connections_eq ▸ hp
  obtain ⟨G1, S1⟩ := h1.good G
  dsimp only
  generalize hv : (if (u.peer p).peerChoked then
    u.modifyPeer p fun x => { x with allowedFast := x.allowedFast.erase r.piece } else u) = v
  have h2 : Chain E A p u v := by
    rw [← hv]
    split
    · refine .tweak hu ⟨⟨⟨(G1.tidy p hu).critical, fun h hf => ?_⟩, rfl⟩, rfl, rfl, rfl⟩
      have := h hf
      rw [this]
      rfl
    · exact .refl
  obtain ⟨G2, S2⟩ := h2.good G1
  refine (h1.trans h2).moves.trans ?_
  split
  · exact requestMore_moves G2 (fun e => (S1.trans S2).isSeed.trans (hs e)) hA
  · exact .refl

end

end

variable {picks : Picks} {e : PendingBlock}

/-- Without the fast extension all requests are rejected with the choke. The lengths need not be those of the blocks. -/
theorem rejectAll_moves (fuel : Nat) (G : Good A t) (hp : p ∈ t.connections)
    (hA : ∀ b ∈ picks.interestingPieces, A b) : Moves False A t (rejectAll p picks fuel t) := by
  induction fuel generalizing t with
  | zero => exact .refl
  | succ fuel ih =>
    rw [rejectAll]
    cases hq : (t.peer p).downloadQueue with
    | nil => exact .refl
    | cons front =>
      dsimp only
      have h : Moves False A t (incomingRejectRequest t p (t.layout.chokedRequest front.block) picks) :=
        incomingRejectRequest_moves G hp False.elim False.elim hA
      refine h.trans ?_
      rcases h.open_or_empty hp with hc | he
      · exact ih (h.good G).1 hc
      cases fuel with
      | zero => exact .refl
      | succ =>
        rw [rejectAll, he]
        exact .refl

theorem onChoke_moves (G : Good A t) (hp : p ∈ t.connections)
    (hA : ∀ b ∈ picks.interestingPieces, A b) : Moves False A t (onChoke t p picks) := by
  have h : Chain False A p t (incomingChoke t p) := incomingChoke_chain G hp False.elim
  unfold onChoke
  dsimp only
  refine h.moves.trans ?_
  split
  · exact .refl
  · exact rejectAll_moves _ (h.good G).1 (h.connections_eq ▸ hp) hA

theorem incomingUnchoke_moves (G : Good A t) (hp : p ∈ t.connections) (hs : E → t.isSeed = false) (interesting : Bool)
    (hA : ∀ b ∈ picks.interestingPieces, A b) : Moves E A t (incomingUnchoke t p interesting picks) := by
  have h : Chain E A p t (t.modifyPeer p fun x => { x with peerChoked := false }) :=
    .tweak hp ⟨⟨⟨(G.tidy p hp).critical, id⟩, rfl⟩, rfl, rfl, rfl⟩
  unfold incomingUnchoke
  refine h.moves.trans ?_
  split
  · exact requestMore_moves (h.good G).1 hs hA
  · exact .refl

/-! ## Cancelling and snubbing -/

theorem takeRequest_perm {x : Peer} (hc : x.queuedTimeCritical ≤ x.requestQueue.length)
    (he : x.requestQueue.find? (·.block == b) = some e) :
    x.requestQueue.Perm (e :: (x.takeRequest b).requestQueue) ∧ x.Calm (x.takeRequest b) := by
  have hperm := perm_eraseP he
  refine ⟨hperm, ⟨⟨?_, id⟩, rfl⟩⟩
  have hlen := hperm.length_eq
  have hb := List.find?_some he
  have hlt : x.requestQueue.findIdx (·.block == b) < x.requestQueue.length :=
    findIdx_lt_length_of_exists ⟨e, mem_of_find?_eq_some he, hb⟩
  simp only [length_cons] at hlen
  simp only [Peer.takeRequest]
  split <;> omega

theorem cancelRequest_moves (G : Good A t) (hp : p ∈ t.connections) (hs : E → t.isSeed = false)
    (hr : E → (t.peer p).supportsFast = false → ∀ m, (t.peer p).receiving = some m → t.layout.blockOf m.request ≠ b)
    (hA : ∀ b ∈ picks.interestingPieces, A b) : Moves E A t (cancelRequest t p b false picks) := by
  unfold cancelRequest
  simp only [Bool.false_eq_true, if_false]
  split
  · exact .refl
  split
  · split
    · exact .refl
    split_ifs with hfast
    · exact .refl
    refine incomingRejectRequest_moves G hp hs (fun h e _ hm => ?_) hA
    rw [← Layout.eq_of_matchRequest hm] at hr ⊢
    exact ⟨rfl, hr h (by simpa using hfast)⟩
  split_ifs with hq
  · obtain ⟨e, he⟩ := List.find?_isSome.mpr (any_eq_true.mp hq) |> Option.isSome_iff_exists.mp
    obtain ⟨h1, h2⟩ := takeRequest_perm (G.tidy p hp).critical he
    have hb : e.block = b := by
      have := List.find?_some he
      simpa using this
    have hm : Move E A p t ((t.abortDownload b p).modifyPeer p (·.takeRequest b)) := by
      have := Move.unqueue (E := E) (A := A) e ((t.peer p).takeRequest b) h2 rfl h1 rfl
      rw [hb] at this
      exact this
    exact (Chain.one hp hm).moves
  · exact .refl

theorem splitLastWanted_eq {queue before after : List PendingBlock}
    (h : splitLastWanted queue = some (before, e, after)) : queue = before ++ e :: after ∧ e.wanted = true := by
  unfold splitLastWanted at h
  split at h
  · cases h
  rename_i hd
  obtain ⟨rfl, rfl, rfl⟩ := h
  constructor
  · have := takeWhile_append_dropWhile (p := (!·.wanted)) (l := queue.reverse)
    rw [hd] at this
    have := congrArg List.reverse this
    simpa using this.symm
  · have := head_dropWhile_not (!·.wanted) (l := queue.reverse) (by rw [hd]; exact cons_ne_nil _ _)
    simpa [hd] using this

section

variable (G : Good A t) (hp : p ∈ t.connections) (hs : E → t.isSeed = false)
include G hp hs

theorem timeOutLast_moves : Moves E A t (timeOutLast t p) := by
  unfold timeOutLast
  split
  · exact sendBlockRequests_moves G hs
  rename_i before e after he
  obtain ⟨hq, hw⟩ := splitLastWanted_eq he
  split
  · exact .refl
  have h : Chain E A p t ((t.modifyPeer p fun x =>
      { x with downloadQueue := before ++ { e with timedOut := true } :: after }).abortDownload e.block p) := by
    refine .one hp (.timeOut e { e with timedOut := true } (before ++ after)
      { t.peer p with downloadQueue := before ++ { e with timedOut := true } :: after }
      ⟨⟨(G.tidy p hp).critical, id⟩, rfl⟩ hw rfl rfl ?_ perm_middle rfl rfl)
    rw [hq]
    exact perm_middle
  exact h.moves.trans (sendBlockRequests_moves (h.good G).1 fun e => (h.good G).2.isSeed.trans (hs e))

theorem snubPeer_moves {picks : Picks}
    (hA : ∀ b ∈ picks.interestingPieces, A b) : Moves E A t (snubPeer t p picks) := by
  have h1 : Chain E A p t (t.modifyPeer p fun x => { x with desiredQueueSize := 1 }) :=
    .tweak hp ⟨⟨⟨(G.tidy p hp).critical, id⟩, rfl⟩, rfl, rfl, rfl⟩
  unfold snubPeer
  dsimp only
  generalize (t.modifyPeer p fun x => { x with desiredQueueSize := 1 }) = u at h1
  have hu : p ∈ u.connections := h1.connections_eq ▸ hp
  obtain ⟨G1, S1⟩ := h1.good G
  refine h1.moves.trans ?_
  split
  · exact .refl
  have h2 : Chain E A p u (u.modifyPeer p fun x => { x with queuedTimeCritical := 0, desiredQueueSize := 2 }) :=
    .tweak hu ⟨⟨⟨zero_le _, id⟩, rfl⟩, rfl, rfl, rfl⟩
  have hc : ((u.modifyPeer p fun x => { x with queuedTimeCritical := 0, desiredQueueSize := 2 }).peer
      p).queuedTimeCritical = 0 := by rw [peer_modifyPeer]
  generalize (u.modifyPeer p fun x => { x with queuedTimeCritical := 0, desiredQueueSize := 2 }) = v at h2 hc
  have hv : p ∈ v.connections := h2.connections_eq ▸ hu
  obtain ⟨h3, -⟩ := wipeRequests_chain hv _ (reverse_perm _).symm hc
  generalize wipeRequests p (v.peer p).requestQueue.reverse v = w at h3
  have h4 : Chain E A p u (requestABlock w p picks) :=
    (h2.trans h3).trans (requestABlock_chain ((h2.trans h3).good G1).1 hA)
  generalize requestABlock w p picks = y at h4
  obtain ⟨G4, -⟩ := h4.good G1
  have hy : p ∈ y.connections := h4.connections_eq ▸ hu
  have h5 : Chain E A p y (y.modifyPeer p fun x => { x with desiredQueueSize := 1 }) :=
    .tweak hy ⟨⟨⟨(G4.tidy p hy).critical, id⟩, rfl⟩, rfl, rfl, rfl⟩
  have h6 := h4.trans h5
  obtain ⟨G6, S6⟩ := h6.good G1
  exact h6.moves.trans (timeOutLast_moves G6 (h6.connections_eq ▸ hu) fun e =>
    (S1.trans S6).isSeed.trans (hs e))

end

end Libtorrent.Requests
