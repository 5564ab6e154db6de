import Libtorrent.Requests.Outstanding

/-!
# The end of the end game

A block that was requested of several peers arrives from one of them. `incoming_piece` marks it as writing before it
calls `torrent::cancel_block`, and `cancel_request` does nothing for a block that is not requested: no other peer is
told.
-/

namespace Libtorrent.Requests

open Picker Run List Torrent Layout

variable {A : PieceBlock → Prop} {t : Torrent} {p : Nat} {b : PieceBlock} {r : PeerRequest} {picks : Picks}

/-- The peers that `incoming_piece` sends a CANCEL when it takes a block from `p`. -/
def receiveCancels (t : Torrent) (p : Nat) (block : PieceBlock) (picks : Picks) : List Nat :=
  let t := skipOvertaken t p block
  let t' := (t.modifyPeer p (·.finishBlock block)).markAsWriting block p
  if !t.picker.isDownloaded block ∧ t.picker.numPeers block > 1 then
    (cancelLoop block picks t'.connections t').2
  else []

def Peer.Sent (x : Peer) (b : PieceBlock) : Prop := b ∈ x.downloadQueue.map (·.block)
  deriving Decidable

def Peer.Receives (x : Peer) (l : Layout) (b : PieceBlock) : Prop := x.receiving.map (l.blockOf ·.request) = some b
  deriving Decidable

/-- `q` need not send the block any more: it was sent a CANCEL if it was asked and does not send yet, and otherwise it
will not be asked. -/
def Withdrawn (t : Torrent) (cancels : List Nat) (t' : Torrent) (q : Nat) (b : PieceBlock) : Prop :=
  ((t.peer q).Sent b ∧ ¬ (t.peer q).Receives t.layout b → q ∈ cancels) ∧
    (¬ ((t.peer q).Sent b ∧ ¬ (t.peer q).Receives t.layout b) → b ∉ (t'.peer q).requestQueue.map (·.block))

theorem requestMore_peer_of_ne (G : Good A t) (hA : ∀ b ∈ picks.interestingPieces, A b) {q : Nat} (hq : q ≠ p) :
    (requestMore t p picks).peer q = t.peer q := by
  have h : Chain False A p t (requestABlock t p picks) := requestABlock_chain G hA
  refine Eq.trans ?_ (h.peer_of_ne hq)
  unfold requestMore sendBlockRequests
  dsimp only
  split
  · rfl
  rename_i hp
  split
  · exact disconnect_peer_of_ne hq (not_not.mp hp)
  split
  · rfl
  · exact (sendLoop_chain _ (h.good G).1 (not_not.mp hp) False.elim).peer_of_ne hq

section

variable (G : Good A t) (hp : p ∈ t.connections) (hm : (t.peer p).receiving = some ⟨r, r.length⟩) (hl : 0 < r.length)
  (hv : t.layout.verifyPiece r = true)
include G hp hm hl hv

theorem receiveCancels_eq_nil : receiveCancels t p (t.layout.blockOf r) picks = [] := by
  obtain ⟨h, -, -⟩ := skipOvertaken_chain (E := False) G hp hm
  obtain ⟨G1, S1⟩ := h.good G
  unfold receiveCancels
  dsimp only
  split
  · rename_i hc
    have hd : (skipOvertaken t p (t.layout.blockOf r)).picker.isDownloaded (t.layout.blockOf r) = false := by
      simpa using hc.1
    rw [cancelLoop_eq (not_requested_of_writing G1 (by rw [S1.layout]; exact blockOf_inRange hv hl) hd)]
  · rfl

theorem receiveBlock_peer_of_ne (hA : ∀ b ∈ picks.interestingPieces, A b)
    (hin : (t.peer p).downloadQueue.any (·.block == t.layout.blockOf r) = true) {q : Nat} (hq : q ≠ p) :
    (receiveBlock t p (t.layout.blockOf r) picks).peer q = t.peer q := by
  obtain ⟨u, h, he⟩ := receiveBlock_chain (E := False) G hp hm picks hv hl hin
  rw [he, requestMore_peer_of_ne (h.good G).1 hA hq, h.peer_of_ne hq]

end

/-- **The end game**: the other peers need not send the block any more exactly if all that have been asked for it are
sending it already. -/
theorem block_withdrawn_iff (S : Sane t) (hp : p ∈ t.connections) (ho : t.Offers picks)
    (hm : (t.peer p).receiving = some ⟨r, r.length⟩) (hl : 0 < r.length)
    (hin : (t.peer p).Sent (t.layout.blockOf r)) :
    let b := t.layout.blockOf r
    (∀ q ∈ t.connections, q ≠ p → b ∈ (t.peer q).blocks →
        Withdrawn t (receiveCancels t p b picks) (receiveBlock t p b picks) q b) ↔
      ∀ q ∈ t.connections, q ≠ p → b ∈ (t.peer q).blocks → (t.peer q).Sent b ∧ (t.peer q).Receives t.layout b := by
  intro b
  have hv := ((S.tidy p hp).verified _ hm).1
  have hany : (t.peer p).downloadQueue.any (·.block == b) = true := by
    obtain ⟨e, he, hb⟩ := mem_map.mp hin
    exact any_eq_true.mpr ⟨e, he, by simpa using hb⟩
  refine forall₄_congr fun q hq hne hb => ?_
  rw [receiveCancels_eq_nil S.good hp hm hl hv, Withdrawn, receiveBlock_peer_of_ne S.good hp hm hl hv ho hany hne]
  have hqueued : b ∉ (t.peer q).requestQueue.map (·.block) ↔ (t.peer q).Sent b := by
    have hdisj := (nodup_append.mp (S.tidy q hq).unique).2.2
    constructor
    · intro h
      exact (mem_append.mp hb).resolve_right h
    · intro h h'
      exact hdisj b h b h' rfl
  rw [hqueued]
  simp only [not_mem_nil]
  tauto

/-- The last bytes of the block arrive from the peer 0. -/
def arrived (t : Torrent) : Torrent :=
  t.modifyPeer 0 fun x => { x with receiving := some ⟨⟨0, 0, 16384⟩, 16384⟩ }.settle 16384

/-- The peers that are asked, and the peer 1 has begun to send. -/
def bothSend : Torrent := step (run step newTorrent askTwo) (.startPiece 1 ⟨0, 0, 16384⟩ 100 2 noPicks)

theorem arrived_bothSend_sane : Sane (arrived bothSend) := by
  have S : Sane (run step newTorrent askTwo) := inv_run (fun _ _ => step_sane) newTorrent_sane askTwo_legal
  have S1 : Sane bothSend :=
    step_sane S ⟨by decide +kernel, by decide +kernel, offers_noPicks _, by decide, by decide⟩
  have hp : 0 ∈ bothSend.connections := by decide +kernel
  refine ((Chain.one hp (.progress ⟨0, 0, 16384⟩ 0 16384
    ({ bothSend.peer 0 with receiving := some ⟨⟨0, 0, 16384⟩, 16384⟩ }.settle 16384)
      ⟨(S1.tidy 0 hp).critical, id⟩ ?_ rfl
    ?_ (by decide) (by decide) False.elim rfl rfl rfl)).good S1.good).1.toSane
  · exact Or.inl ⟨by decide +kernel, rfl⟩
  · decide +kernel

theorem block_withdrawn_bothSend : (arrived bothSend).connections = [1, 0] ∧ ∀ q ∈ (arrived bothSend).connections,
    q ≠ 0 → .of 0 0 ∈ ((arrived bothSend).peer q).blocks → Withdrawn (arrived bothSend)
      (receiveCancels (arrived bothSend) 0 (.of 0 0) noPicks) (receiveBlock (arrived bothSend) 0 (.of 0 0) noPicks) q
      (.of 0 0) := by
  have h1 : (arrived bothSend).connections = [1, 0] := by decide +kernel
  refine ⟨h1, (block_withdrawn_iff (r := ⟨0, 0, 16384⟩) arrived_bothSend_sane (by decide +kernel) (offers_noPicks _) rfl
    (by decide) (by decide +kernel)).mpr ?_⟩
  intro q hq hne _
  rw [h1] at hq
  have hq1 : q = 1 := by simpa [hne] using hq
  rw [hq1]
  exact ⟨by decide +kernel, by decide +kernel⟩

/-- The peer 1 does not send yet, and is not sent a CANCEL. -/
theorem block_not_withdrawn :
    (arrived (run step newTorrent askTwo)).picker.numPeers (.of 0 0) = 2 ∧
      ¬ Withdrawn (arrived (run step newTorrent askTwo))
        (receiveCancels (arrived (run step newTorrent askTwo)) 0 (.of 0 0) noPicks)
        (receiveBlock (arrived (run step newTorrent askTwo)) 0 (.of 0 0) noPicks) 1 (.of 0 0) := by
  refine ⟨by decide +kernel, fun h => ?_⟩
  have hc : 1 ∉ receiveCancels (arrived (run step newTorrent askTwo)) 0 (.of 0 0) noPicks := by decide +kernel
  refine hc (h.1 ⟨by decide +kernel, ?_⟩)
  decide +kernel

end Libtorrent.Requests
