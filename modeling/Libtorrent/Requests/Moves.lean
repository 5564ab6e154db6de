import Libtorrent.Requests.Connections

/-!
# What a connection can do

Every handler of a connection is a sequence of moves: a block is requested, sent, dropped, received, and so on. `Move`
lists them with what they do to the queues, the counter and the picker. What is proved about moves (`Move.good` here,
the accounts of bytes and of peers in later modules) then holds for all handlers.

`E` stands for the side conditions under which the counter of outstanding bytes is right: where it is false they say
nothing. `A` is the set of the blocks that may be requested.
-/

namespace Libtorrent.Requests

open Picker Function List Peer

variable {E : Prop} {A : PieceBlock → Prop} {t t' : Torrent} {p : Nat} {x x' : Peer} {l : Layout} {b : PieceBlock}

/-! ## Blocks of the torrent -/

def Layout.InRange (l : Layout) (b : PieceBlock) : Prop :=
  (b.pieceIndex : Nat) < l.numPieces ∧ (b.blockIndex : Nat) * l.blockSize < l.pieceSize b.pieceIndex

theorem Layout.InRange.length_nonneg (h : l.InRange b) : 0 ≤ (l.toReq b).length := by
  have := h.2
  simp only [Layout.toReq]
  omega

theorem Layout.blockOf_inRange {r : PeerRequest} (hv : l.verifyPiece r = true) (hr : 0 < r.length) :
    l.InRange (l.blockOf r) := by
  simp only [verifyPiece, decide_eq_true_eq] at hv
  obtain ⟨-, h1, -, -, h2⟩ := hv
  have hp := congrArg PeerRequest.piece h2
  have hl := congrArg PeerRequest.length h2
  simp only [toReq] at hp hl
  constructor
  · omega
  · omega

theorem Layout.eq_of_matchRequest {c : PieceBlock} (h : l.matchRequest (l.toReq b) c = true) : c = b := by
  have hpos : (0 : Int) < l.blockSize := by exact_mod_cast l.blockSize_pos
  have hdiv : (((b.blockIndex : Nat) * l.blockSize : Nat) : Int).tdiv l.blockSize = b.blockIndex := by
    push_cast
    exact Int.mul_tdiv_cancel _ hpos.ne'
  obtain ⟨h1, h2, -⟩ := of_decide_eq_true h
  simp only [toReq] at h1 h2
  rw [hdiv] at h2
  cases b
  cases c
  simp only [PieceBlock.mk.injEq]
  exact ⟨Fin.ext (by exact_mod_cast h1), Fin.ext (by exact_mod_cast h2)⟩

theorem Layout.toReq_blockOf {r : PeerRequest} (hv : l.verifyPiece r = true) : l.toReq (l.blockOf r) = r := by
  simp only [verifyPiece, decide_eq_true_eq] at hv
  exact hv.2.2.2.2

/-! ## Queues in order -/

def Peer.blocks (x : Peer) : List PieceBlock := x.downloadQueue.map (·.block) ++ x.requestQueue.map (·.block)

theorem Peer.queues_eq_false : x.queues b = false ↔ b ∉ x.blocks := by
  simp [queues, blocks, any_eq_false]

/-- The queues of a connection are in order, and what is being received was verified. -/
structure Peer.Tidy (l : Layout) (x : Peer) : Prop where
  unique : x.blocks.Nodup
  requested : ∀ e ∈ x.requestQueue, l.InRange e.block ∧ e.wanted = true
  sent : ∀ e ∈ x.downloadQueue, 0 ≤ (l.toReq e.block).length ∧ (e.wanted = true → l.InRange e.block)
  critical : x.queuedTimeCritical ≤ x.requestQueue.length
  verified : ∀ m, x.receiving = some m → l.verifyPiece m.request = true ∧ 0 ≤ m.received ∧ m.received ≤ m.request.length
  slow : x.supportsFast = false → x.allowedFast = []

structure Peer.Kept (x x' : Peer) : Prop where
  critical : x'.queuedTimeCritical ≤ x'.requestQueue.length
  slow : (x.supportsFast = false → x.allowedFast = []) → x'.supportsFast = false → x'.allowedFast = []

/-- What a move does to the other fields if it is not about the block being received. -/
structure Peer.Calm (x x' : Peer) : Prop extends Kept x x' where
  receiving : x'.receiving = x.receiving

/-- What the picker knows of an entry of the download queue. -/
def PendingBlock.key (e : PendingBlock) : PieceBlock × Bool := (e.block, e.wanted)

/-! ## Moves -/

/-- The state with another connection, picker and source of random numbers. -/
def Torrent.put (t : Torrent) (p : Nat) (x : Peer) (s : PiecePicker) (random : Nat → Nat) : Torrent :=
  { t with peer := update t.peer p x, picker := s, random }

/-- The state after a call of the picker that uses a random number. -/
def Torrent.putNext (t : Torrent) (p : Nat) (x : Peer) (s : Nat → PiecePicker) : Torrent :=
  t.put p x (s (t.random 0)) fun i => t.random (i + 1)

/-- The condition under which `length` bytes may be taken off the counter with the entry `e`. -/
def Peer.Exact (l : Layout) (x : Peer) (e : PendingBlock) (length : Int) : Prop :=
  length = (l.toReq e.block).length ∧ ∀ m, x.receiving = some m → l.blockOf m.request ≠ e.block

inductive Move (E : Prop) (A : PieceBlock → Prop) (p : Nat) (t : Torrent) : Torrent → Prop
  /-- Other fields change. -/
  | tweak (x' : Peer) (random : Nat → Nat) (calm : (t.peer p).Calm x')
      (sent : x'.downloadQueue.map (·.key) = (t.peer p).downloadQueue.map (·.key))
      (queued : x'.requestQueue = (t.peer p).requestQueue)
      (bytes : x'.outstandingBytes = (t.peer p).outstandingBytes) : Move E A p t (t.put p x' t.picker random)
  /-- A block gets into the request queue. -/
  | request (e : PendingBlock) (x' : Peer) (calm : (t.peer p).Calm x') (allowed : A e.block) (wanted : e.wanted = true)
      (fresh : e.block ∉ (t.peer p).blocks) (needed : t.picker.isDownloaded e.block = false)
      (sent : x'.downloadQueue = (t.peer p).downloadQueue)
      (queued : x'.requestQueue.Perm (e :: (t.peer p).requestQueue))
      (bytes : x'.outstandingBytes = (t.peer p).outstandingBytes) :
      Move E A p t (t.putNext p x' fun rnd =>
        (t.picker.markAsDownloading e.block (some p) (t.peer p).speed.pieceState rnd).1)
  /-- A request is sent, or the block arrives before. -/
  | send (e e' : PendingBlock) (x' : Peer) (calm : (t.peer p).Calm x') (block : e'.block = e.block)
      (wanted : e'.wanted = true) (sent : x'.downloadQueue.Perm (e' :: (t.peer p).downloadQueue))
      (queued : (t.peer p).requestQueue.Perm (e :: x'.requestQueue))
      (bytes : x'.outstandingBytes = (t.peer p).outstandingBytes + t.blockLength e.block) :
      Move E A p t (t.put p x' t.picker t.random)
  /-- A request is withdrawn before it was sent. -/
  | unqueue (e : PendingBlock) (x' : Peer) (calm : (t.peer p).Calm x')
      (sent : x'.downloadQueue = (t.peer p).downloadQueue)
      (queued : (t.peer p).requestQueue.Perm (e :: x'.requestQueue))
      (bytes : x'.outstandingBytes = (t.peer p).outstandingBytes) :
      Move E A p t (t.putNext p x' fun rnd => t.picker.abortDownload e.block (some p) rnd)
  /-- A block is no longer waited for. -/
  | drop (e : PendingBlock) (length : Int) (x' : Peer) (calm : (t.peer p).Calm x')
      (right : E → (t.peer p).Exact t.layout e length)
      (sent : (t.peer p).downloadQueue.Perm (e :: x'.downloadQueue))
      (queued : x'.requestQueue = (t.peer p).requestQueue)
      (bytes : x'.outstandingBytes = max 0 ((t.peer p).outstandingBytes - length)) :
      Move E A p t (if e.wanted then t.putNext p x' fun rnd => t.picker.abortDownload e.block (some p) rnd
        else t.put p x' t.picker t.random)
  /-- A rejected block goes back to the request queue. -/
  | park (e : PendingBlock) (length : Int) (x' : Peer) (calm : (t.peer p).Calm x')
      (right : E → (t.peer p).Exact t.layout e length) (wanted : e.wanted = true)
      (sent : (t.peer p).downloadQueue.Perm (e :: x'.downloadQueue))
      (queued : x'.requestQueue = e :: (t.peer p).requestQueue)
      (bytes : x'.outstandingBytes = max 0 ((t.peer p).outstandingBytes - length)) :
      Move E A p t (t.put p x' t.picker t.random)
  /-- A request times out. -/
  | timeOut (e e' : PendingBlock) (rest : List PendingBlock) (x' : Peer) (calm : (t.peer p).Calm x')
      (wanted : e.wanted = true) (block : e'.block = e.block) (unwanted : e'.wanted = false)
      (before : (t.peer p).downloadQueue.Perm (e :: rest)) (after : x'.downloadQueue.Perm (e' :: rest))
      (queued : x'.requestQueue = (t.peer p).requestQueue)
      (bytes : x'.outstandingBytes = (t.peer p).outstandingBytes) :
      Move E A p t (t.putNext p x' fun rnd => t.picker.abortDownload e.block (some p) rnd)
  /-- A block arrives that was not requested. -/
  | arrive (e : PendingBlock) (x' : Peer) (calm : (t.peer p).Calm x') (unwanted : e.wanted = false)
      (fresh : e.block ∉ (t.peer p).blocks) (nonneg : 0 ≤ t.blockLength e.block)
      (sent : x'.downloadQueue = e :: (t.peer p).downloadQueue)
      (queued : x'.requestQueue = (t.peer p).requestQueue)
      (bytes : x'.outstandingBytes = (t.peer p).outstandingBytes + t.blockLength e.block) :
      Move E A p t (t.put p x' t.picker t.random)
  /-- Bytes of a block arrive. -/
  | progress (r : PeerRequest) (received more : Int) (x' : Peer) (kept : (t.peer p).Kept x')
      (before : (t.peer p).receiving = none ∧ received = 0 ∨ (t.peer p).receiving = some ⟨r, received⟩)
      (after : x'.receiving = some ⟨r, received + more⟩) (verified : t.layout.verifyPiece r = true)
      (nonneg : 0 ≤ received ∧ 0 ≤ more) (le : received + more ≤ r.length)
      (right : E → t.layout.blockOf r ∈ (t.peer p).downloadQueue.map (·.block))
      (sent : x'.downloadQueue = (t.peer p).downloadQueue)
      (queued : x'.requestQueue = (t.peer p).requestQueue)
      (bytes : x'.outstandingBytes = max 0 ((t.peer p).outstandingBytes - more)) :
      Move E A p t (t.put p x' t.picker t.random)
  /-- A PIECE message ends without a block. -/
  | stop (x' : Peer) (kept : (t.peer p).Kept x') (after : x'.receiving = none)
      (right : E → ∀ m, (t.peer p).receiving = some m → m.received = 0)
      (sent : x'.downloadQueue = (t.peer p).downloadQueue)
      (queued : x'.requestQueue = (t.peer p).requestQueue)
      (bytes : x'.outstandingBytes = (t.peer p).outstandingBytes) :
      Move E A p t (t.put p x' t.picker t.random)
  /-- A block is complete. -/
  | finish (e : PendingBlock) (x' : Peer) (kept : (t.peer p).Kept x') (after : x'.receiving = none)
      (right : E → ∃ m, (t.peer p).receiving = some m ∧ m.received = t.blockLength e.block)
      (sent : (t.peer p).downloadQueue.Perm (e :: x'.downloadQueue))
      (queued : x'.requestQueue = (t.peer p).requestQueue)
      (bytes : x'.outstandingBytes = (t.peer p).outstandingBytes) (inRange : t.layout.InRange e.block) :
      Move E A p t (if t.picker.isDownloaded e.block then t.put p x' t.picker t.random
        else t.putNext p x' fun rnd => (t.picker.markAsWriting e.block (some p) rnd).1)
  /-- A seed does not care for its queues. -/
  | forget (x' : Peer) (seed : t.isSeed = true) (wrong : ¬ E) (kept : (t.peer p).Kept x')
      (receiving : x'.receiving = none ∨ x'.receiving = (t.peer p).receiving)
      (sent : x'.downloadQueue.Sublist (t.peer p).downloadQueue)
      (queued : x'.requestQueue.Sublist (t.peer p).requestQueue) : Move E A p t (t.put p x' t.picker t.random)

/-! ## What the moves keep -/

/-- The queues, the picker and the torrent file fit together. -/
structure Sane (t : Torrent) : Prop where
  orderly : t.picker.Orderly
  balanced : t.picker.Balanced
  fits : ∀ b, t.picker.InRange b ↔ t.layout.InRange b
  nodup : t.connections.Nodup
  tidy : ∀ p ∈ t.connections, (t.peer p).Tidy t.layout

/-- What may be requested is missing, too. -/
structure Good (A : PieceBlock → Prop) (t : Torrent) : Prop extends Sane t where
  allowed : ∀ b, A b → t.layout.InRange b ∧ (t.picker.pos b.pieceIndex).have = false

structure Steady (t t' : Torrent) : Prop where
  layout : t'.layout = t.layout
  isSeed : t'.isSeed = t.isSeed
  «have» : ∀ i, (t'.picker.pos i).have = (t.picker.pos i).have

theorem Steady.refl (t : Torrent) : Steady t t := ⟨rfl, rfl, fun _ => rfl⟩

theorem Steady.trans {t'' : Torrent} (h1 : Steady t t') (h2 : Steady t' t'') : Steady t t'' :=
  ⟨h2.layout.trans h1.layout, h2.isSeed.trans h1.isSeed, fun i => (h2.have i).trans (h1.have i)⟩

theorem Good.put {s : PiecePicker} {g : Nat → Nat} (G : Good A t) (hs : s = t.picker ∨ ∃ b, t.picker.Touch s b)
    (hx : x.Tidy t.layout) : Good A (t.put p x s g) ∧ Steady t (t.put p x s g) := by
  have hT : s.Orderly ∧ PiecePicker.SameCounts t.picker s ∧ ∀ c, s.InRange c ↔ t.picker.InRange c := by
    rcases hs with rfl | ⟨b, T⟩
    · exact ⟨G.orderly, PiecePicker.SameCounts.refl _, fun _ => Iff.rfl⟩
    · exact ⟨T.orderly, T.counts, T.inRange⟩
  obtain ⟨h1, h2, h3⟩ := hT
  refine ⟨⟨⟨h1, h2.balanced G.balanced, fun b => (h3 b).trans (G.fits b), G.nodup, fun q hq => ?_⟩, fun b hb => ?_⟩,
    rfl, ?_, h2.have⟩
  · show (update t.peer p x q).Tidy t.layout
    by_cases he : q = p
    · rw [he, update_self]
      exact hx
    · rw [update_of_ne he]
      exact G.tidy q hq
  · exact ⟨(G.allowed b hb).1, (h2.have _).trans (G.allowed b hb).2⟩
  · have hn := h2.rest
    simp only [Prod.mk.injEq] at hn
    show (s.numHave == s.numPieces) = (t.picker.numHave == t.picker.numPieces)
    rw [hn.1, h2.num]

namespace Peer.Tidy

section

variable (T : x.Tidy l) (K : x.Kept x') (hr : x'.receiving = none ∨ x'.receiving = x.receiving)
include T K hr

theorem of_kept (hu : x'.blocks.Nodup) (hq : ∀ e ∈ x'.requestQueue, l.InRange e.block ∧ e.wanted = true)
    (hs : ∀ e ∈ x'.downloadQueue, 0 ≤ (l.toReq e.block).length ∧ (e.wanted = true → l.InRange e.block)) :
    x'.Tidy l := by
  refine ⟨hu, hq, hs, K.critical, fun m hm => ?_, K.slow T.slow⟩
  rcases hr with h | h
  · rw [h] at hm
    cases hm
  · exact T.verified m (h ▸ hm)

theorem dropped {e : PendingBlock}
    (sent : x.downloadQueue.Perm (e :: x'.downloadQueue)) (queued : x'.requestQueue = x.requestQueue) : x'.Tidy l := by
  refine T.of_kept K hr ?_ (queued ▸ T.requested) fun e he => T.sent e (sent.mem_iff.mpr (mem_cons_of_mem _ he))
  have h := T.unique
  rw [blocks, ((sent.map _).append_right _).nodup_iff] at h
  rw [blocks, queued]
  exact h.of_cons

end

theorem unqueued {e : PendingBlock} (T : x.Tidy l) (K : x.Calm x') (sent : x'.downloadQueue = x.downloadQueue)
    (queued : x.requestQueue.Perm (e :: x'.requestQueue)) : x'.Tidy l := by
  refine T.of_kept K.toKept (Or.inr K.receiving) ?_
    (fun e he => T.requested e (queued.mem_iff.mpr (mem_cons_of_mem _ he))) (sent ▸ T.sent)
  have h := T.unique
  rw [blocks, ((queued.map _).append_left _).nodup_iff, map_cons, nodup_middle] at h
  rw [blocks, sent]
  exact h.of_cons

theorem keyed (T : x.Tidy l) (K : x.Calm x') (sent : x'.downloadQueue.map (·.key) = x.downloadQueue.map (·.key))
    (queued : x'.requestQueue = x.requestQueue) : x'.Tidy l := by
  have hb : x'.downloadQueue.map (·.block) = x.downloadQueue.map (·.block) := by
    have := congrArg (map Prod.fst) sent
    simpa [PendingBlock.key, List.map_map, Function.comp_def] using this
  refine T.of_kept K.toKept (Or.inr K.receiving) ?_ (queued ▸ T.requested) fun e he => ?_
  · rw [blocks, hb, queued]
    exact T.unique
  have : e.key ∈ x.downloadQueue.map (·.key) := sent ▸ mem_map_of_mem he
  obtain ⟨e0, h0, hk⟩ := mem_map.mp this
  simp only [PendingBlock.key, Prod.mk.injEq] at hk
  rw [← hk.1, ← hk.2]
  exact T.sent e0 h0

theorem same (T : x.Tidy l) (K : x.Kept x') (hr : x'.receiving = none ∨ x'.receiving = x.receiving)
    (sent : x'.downloadQueue = x.downloadQueue) (queued : x'.requestQueue = x.requestQueue) : x'.Tidy l :=
  T.of_kept K hr (by rw [blocks, sent, queued]; exact T.unique) (queued ▸ T.requested) (sent ▸ T.sent)

end Peer.Tidy

theorem Speed.pieceState_ne (s : Speed) : s.pieceState ≠ .none := by cases s <;> decide

theorem Move.connections_eq (h : Move E A p t t') : t'.connections = t.connections := by
  cases h with
  | drop e => cases e.wanted <;> rfl
  | finish e => cases t.picker.isDownloaded e.block <;> rfl
  | _ => rfl

theorem Move.peer_of_ne {q : Nat} (h : Move E A p t t') (hq : q ≠ p) : t'.peer q = t.peer q := by
  cases h with
  | drop e => cases e.wanted <;> exact update_of_ne hq ..
  | finish e => cases t.picker.isDownloaded e.block <;> exact update_of_ne hq ..
  | _ => exact update_of_ne hq ..

/-- **Every move keeps the state good.** -/
theorem Move.good (h : Move E A p t t') (G : Good A t) (hp : p ∈ t.connections) : Good A t' ∧ Steady t t' := by
  have T := G.tidy p hp
  have abort {b : PieceBlock} (hb : t.layout.InRange b) (rnd : Nat) :
      t.picker.Touch (t.picker.abortDownload b (some p) rnd) b :=
    (PiecePicker.abortDownload_touch _ _ G.orderly ((G.fits b).mpr hb)).1
  cases h with
  | tweak x' random calm sent queued => exact G.put (Or.inl rfl) (T.keyed calm sent queued)
  | request e x' calm allowed wanted fresh needed sent queued =>
    obtain ⟨hr, hh⟩ := G.allowed _ allowed
    refine G.put (Or.inr ⟨_, (PiecePicker.markAsDownloading_touch _ _ G.orderly ((G.fits _).mpr hr)
      (Speed.pieceState_ne _) hh).1⟩) ?_
    refine T.of_kept calm.toKept (Or.inr calm.receiving) ?_ (fun e' he' => ?_) (sent ▸ T.sent)
    · rw [blocks, sent, ((queued.map _).append_left _).nodup_iff, map_cons, nodup_middle]
      exact nodup_cons.mpr ⟨fresh, T.unique⟩
    · rcases mem_cons.mp (queued.mem_iff.mp he') with rfl | h
      · exact ⟨hr, wanted⟩
      · exact T.requested e' h
  | send e e' x' calm block wanted sent queued =>
    have he := (T.requested e (queued.mem_iff.mpr mem_cons_self)).1
    refine G.put (Or.inl rfl) (T.of_kept calm.toKept (Or.inr calm.receiving) ?_ (fun e1 h1 => ?_) fun e1 h1 => ?_)
    · have h := T.unique
      rw [blocks, ((queued.map _).append_left _).nodup_iff, map_cons, nodup_middle] at h
      rw [blocks, ((sent.map _).append_right _).nodup_iff, map_cons, block]
      exact h
    · exact T.requested e1 (queued.mem_iff.mpr (mem_cons_of_mem _ h1))
    · rcases mem_cons.mp (sent.mem_iff.mp h1) with rfl | h2
      · rw [block]
        exact ⟨he.length_nonneg, fun _ => he⟩
      · exact T.sent e1 h2
  | unqueue e x' calm sent queued =>
    have he := (T.requested e (queued.mem_iff.mpr mem_cons_self)).1
    exact G.put (Or.inr ⟨_, abort he _⟩) (T.unqueued calm sent queued)
  | drop e length x' calm right sent queued =>
    have hx := T.dropped calm.toKept (Or.inr calm.receiving) sent queued
    cases hw : e.wanted with
    | true =>
      have he := (T.sent e (sent.mem_iff.mpr mem_cons_self)).2 hw
      rw [if_pos rfl]
      exact G.put (Or.inr ⟨_, abort he _⟩) hx
    | false => exact G.put (Or.inl rfl) hx
  | park e length x' calm right wanted sent queued =>
    have he := (T.sent e (sent.mem_iff.mpr mem_cons_self)).2 wanted
    refine G.put (Or.inl rfl) (T.of_kept calm.toKept (Or.inr calm.receiving) ?_ (fun e1 h1 => ?_)
      fun e1 h1 => T.sent e1 (sent.mem_iff.mpr (mem_cons_of_mem _ h1)))
    · have h := T.unique
      rw [blocks, ((sent.map _).append_right _).nodup_iff] at h
      rw [blocks, queued, map_cons, nodup_middle]
      exact h
    · rw [queued] at h1
      rcases mem_cons.mp h1 with rfl | h2
      · exact ⟨he, wanted⟩
      · exact T.requested e1 h2
  | timeOut e e' rest x' calm wanted block unwanted before after queued =>
    have he := (T.sent e (before.mem_iff.mpr mem_cons_self)).2 wanted
    refine G.put (Or.inr ⟨_, abort he _⟩) (T.of_kept calm.toKept (Or.inr calm.receiving) ?_ (queued ▸ T.requested)
      fun e1 h1 => ?_)
    · have h := T.unique
      rw [blocks, ((before.map _).append_right _).nodup_iff] at h
      rw [blocks, queued, ((after.map _).append_right _).nodup_iff, map_cons, block]
      exact h
    · rcases mem_cons.mp (after.mem_iff.mp h1) with rfl | h2
      · rw [block, unwanted]
        exact ⟨he.length_nonneg, fun h => by cases h⟩
      · exact T.sent e1 (before.mem_iff.mpr (mem_cons_of_mem _ h2))
  | arrive e x' calm unwanted fresh nonneg sent queued =>
    refine G.put (Or.inl rfl) (T.of_kept calm.toKept (Or.inr calm.receiving) ?_ (queued ▸ T.requested) fun e1 h1 => ?_)
    · rw [blocks, sent, queued]
      exact nodup_cons.mpr ⟨fresh, T.unique⟩
    rw [sent] at h1
    rcases mem_cons.mp h1 with rfl | h2
    · rw [unwanted]
      exact ⟨nonneg, fun h => by cases h⟩
    · exact T.sent e1 h2
  | progress r received more x' kept before after verified nonneg le right sent queued =>
    refine G.put (Or.inl rfl) ⟨?_, queued ▸ T.requested, sent ▸ T.sent, kept.critical, fun m hm => ?_, kept.slow T.slow⟩
    · rw [blocks, sent, queued]
      exact T.unique
    · rw [after, Option.some.injEq] at hm
      rw [← hm]
      exact ⟨verified, by dsimp only; omega, le⟩
  | stop x' kept after right sent queued => exact G.put (Or.inl rfl) (T.same kept (Or.inl after) sent queued)
  | finish e x' kept after right sent queued bytes inRange =>
    have hx := T.dropped kept (Or.inl after) sent queued
    cases hd : t.picker.isDownloaded e.block with
    | true => exact G.put (Or.inl rfl) hx
    | false =>
      refine G.put (Or.inr ⟨_, (PiecePicker.markAsWriting_touch _ _ G.orderly ((G.fits _).mpr inRange) hd).1⟩) hx
  | forget x' seed wrong kept receiving sent queued =>
    refine G.put (Or.inl rfl) (T.of_kept kept receiving ?_ (fun e he => T.requested e (queued.subset he))
      fun e he => T.sent e (sent.subset he))
    exact ((sent.map _).append (queued.map _)).nodup T.unique

end Libtorrent.Requests
