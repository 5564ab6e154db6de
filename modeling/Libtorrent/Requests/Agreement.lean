import Mathlib.Algebra.Order.BigOperators.Group.List
import Mathlib.Algebra.Order.Group.Nat
import Libtorrent.Requests.Runs

/-!
# Picker and connections agree

For every block that is not downloaded, `num_peers` of the picker is the number of connections that wait for it
(`Agrees`). `demand` is that number, connection by connection; the moves change it as they change the picker. The picker
keeps `num_peers` in 14 bits, so the agreement needs fewer than 2^14 connections (`picker_agrees`); with more it is lost
(`peers_wrap`).
-/

namespace Libtorrent.Requests

open Picker Run Function List Nat PiecePicker Peer PendingBlock

variable {E : Prop} {A : PieceBlock → Prop} {t t' : Torrent} {p : Nat} {x x' : Peer} {l : Layout} {b c : PieceBlock}
  {s : PiecePicker} {random : Nat → Nat}

/-! ## Demand -/

/-- How often a connection waits for a block. -/
def Peer.demand (x : Peer) (b : PieceBlock) : Nat :=
  x.requestQueue.countP (·.block == b) + x.downloadQueue.countP fun e => e.block == b && e.wanted

/-- How often all connections wait for a block. -/
def Torrent.demand (t : Torrent) (b : PieceBlock) : Nat := (t.connections.map fun p => (t.peer p).demand b).sum

def Peer.waitsFor (x : Peer) (b : PieceBlock) : Bool :=
  x.requestQueue.any (·.block == b) || x.downloadQueue.any fun e => e.block == b && e.wanted

theorem Peer.Tidy.demand_eq (T : x.Tidy l) (b : PieceBlock) : x.demand b = if x.waitsFor b then 1 else 0 := by
  have hle : x.demand b ≤ 1 := by
    have h1 : (x.downloadQueue.countP fun e => e.block == b && e.wanted) ≤
        x.downloadQueue.countP fun e => e.block == b :=
      countP_mono_left fun e _ he => by simp only [Bool.and_eq_true] at he; exact he.1
    have h2 := nodup_iff_count_le_one.mp T.unique b
    rw [blocks, List.count_append, count_eq_countP, count_eq_countP, countP_map, countP_map] at h2
    have h3 : (x.downloadQueue.countP ((· == b) ∘ (·.block))) = x.downloadQueue.countP fun e => e.block == b := rfl
    have h4 : (x.requestQueue.countP ((· == b) ∘ (·.block))) = x.requestQueue.countP fun e => e.block == b := rfl
    unfold demand
    omega
  have hpos : 0 < x.demand b ↔ x.waitsFor b = true := by
    unfold demand waitsFor
    rw [Bool.or_eq_true, any_eq_true, any_eq_true, add_pos_iff_pos_or_pos, countP_pos_iff, countP_pos_iff]
  by_cases h : x.waitsFor b = true
  · rw [if_pos h]
    have := hpos.mpr h
    omega
  · rw [if_neg h]
    have := mt hpos.mp h
    omega

theorem demand_eq_countP (ht : ∀ p ∈ t.connections, (t.peer p).Tidy t.layout) (b : PieceBlock) :
    t.demand b = t.connections.countP fun p => (t.peer p).waitsFor b := by
  unfold Torrent.demand
  generalize t.connections = ps at ht
  induction ps with
  | nil => rfl
  | cons p ps ih =>
    rw [List.map_cons, List.sum_cons, countP_cons, ih fun q hq => ht q (mem_cons_of_mem _ hq),
      (ht p mem_cons_self).demand_eq b, add_comm]

theorem demand_le (ht : ∀ p ∈ t.connections, (t.peer p).Tidy t.layout) (b : PieceBlock) :
    t.demand b ≤ t.connections.length := by
  rw [demand_eq_countP ht]
  exact countP_le_length

theorem demand_erase (hp : p ∈ t.connections) (b : PieceBlock) :
    t.demand b = (t.peer p).demand b + ((t.connections.erase p).map fun q => (t.peer q).demand b).sum := by
  rw [Torrent.demand, ((perm_cons_erase hp).map _).sum_eq, List.map_cons, List.sum_cons]

theorem sum_update (x : Peer) (hn : t.connections.Nodup) (b : PieceBlock) :
    ((t.connections.erase p).map fun q => (update t.peer p x q).demand b).sum =
      ((t.connections.erase p).map fun q => (t.peer q).demand b).sum := by
  refine congrArg sum (map_congr_left fun q hq => ?_)
  rw [update_of_ne fun e => hn.not_mem_erase (e ▸ hq)]

theorem demand_put (x : Peer) (s : PiecePicker) (random : Nat → Nat) (hn : t.connections.Nodup)
    (hp : p ∈ t.connections) (b : PieceBlock) :
    (t.put p x s random).demand b + (t.peer p).demand b = t.demand b + x.demand b := by
  rw [demand_erase hp b, demand_erase (t := t.put p x s random) hp b]
  show (update t.peer p x p).demand b +
    ((t.connections.erase p).map fun q => (update t.peer p x q).demand b).sum + _ = _
  rw [update_self, sum_update x hn]
  omega

/-! ## Agreement -/

/-- The picker and the connections agree on who waits for what. -/
structure Agree (t : Torrent) : Prop where
  peered : t.picker.Peered
  count : ∀ b, t.layout.InRange b → t.picker.isDownloaded b = false → t.picker.numPeers b = t.demand b

theorem same_block {s' : PiecePicker} (L : Ledger s) (L' : Ledger s') (hr : s.InRange c) (hr' : s'.InRange c)
    (hst : s'.status c = s.status c) (hh : (s'.pos c.pieceIndex).have = (s.pos c.pieceIndex).have) :
    s'.isDownloaded c = s.isDownloaded c ∧ s'.numPeers c = s.numPeers c := by
  rw [isDownloaded_eq L' hr', isDownloaded_eq L hr, hh, numPeers_eq L' hr', numPeers_eq L hr, hst]
  exact ⟨rfl, rfl⟩

theorem touch_other (S : Sane t) (P : t.picker.Peered) (T : t.picker.Touch s b) (hc : t.layout.InRange c)
    (hne : c ≠ b) :
    s.isDownloaded c = t.picker.isDownloaded c ∧ s.numPeers c = t.picker.numPeers c := by
  have hr := (S.fits c).mpr hc
  exact same_block S.orderly.2 T.orderly.2 hr ((T.inRange c).mpr hr) (T.others P c hr hne) (T.counts.have _)

theorem settle_other {index : Nat} (S : Sane t) (T : t.picker.Settle s index) (hc : t.layout.InRange c)
    (hne : (c.pieceIndex : Nat) ≠ index) :
    s.isDownloaded c = t.picker.isDownloaded c ∧ s.numPeers c = t.picker.numPeers c := by
  have hr := (S.fits c).mpr hc
  exact same_block S.orderly.2 T.orderly.2 hr ((T.inRange c).mpr hr) (T.others c hne) (T.have _ hne)

/-- A request counts one peer more on its block. -/
theorem requested_counts (S : Sane t) (P : t.picker.Peered) (hb : t.Pickable b)
    (hd : t.picker.isDownloaded b = false) (hlt : t.picker.numPeers b + 1 < 2 ^ 14) (peer rnd : Nat) (speed : Speed)
    (hs : (t.picker.markAsDownloading b (some peer) speed.pieceState rnd).1 = s) :
    t.picker.Touch s b ∧ s.Peered ∧ ∀ c, t.layout.InRange c → s.isDownloaded c = t.picker.isDownloaded c ∧
      s.numPeers c = t.picker.numPeers c + if c = b then 1 else 0 := by
  have hr := (S.fits b).mpr hb.1
  obtain ⟨T, -, hst⟩ := markAsDownloading_touch (some peer) rnd S.orderly hr (Speed.pieceState_ne speed) hb.2
  rw [hs] at T hst
  have hr' := (T.inRange b).mpr hr
  rw [numPeers_eq S.orderly.2 hr] at hlt
  rw [if_neg (by rw [hd]; decide), mod_eq_of_lt hlt] at hst
  refine ⟨T, T.peered P (by rw [hst]; exact fun _ => succ_ne_zero _), fun c hc => ?_⟩
  by_cases hne : c = b
  · subst hne
    rw [if_pos rfl, hd, isDownloaded_eq T.orderly.2 hr', T.counts.have, hb.2, hst, numPeers_eq T.orderly.2 hr', hst,
      numPeers_eq S.orderly.2 hr]
    exact ⟨rfl, rfl⟩
  · rw [if_neg hne]
    exact touch_other S P T hc hne

section

variable (a : Agree t) (S : Sane t) (hp : p ∈ t.connections)
include a S hp

/-- A move that does not concern the picker, and after which the connection waits for the same blocks. -/
theorem Agree.put (h : ∀ b, x.demand b = (t.peer p).demand b) : Agree (t.put p x t.picker random) := by
  refine ⟨a.peered, fun b hb hd => (a.count b hb hd).trans ?_⟩
  have := demand_put x t.picker random S.nodup hp b
  have := h b
  omega

/-- A move after which one block is downloaded, and the connection waits for the same other blocks. -/
theorem Agree.put_downloaded (P : s.Peered) (T : t.picker.Touch s b) (hd : s.isDownloaded b = true)
    (h : ∀ c, c ≠ b → x.demand c = (t.peer p).demand c) : Agree (t.put p x s random) := by
  refine ⟨P, fun c hc hcd => ?_⟩
  have hne : c ≠ b := by
    rintro rfl
    rw [show s.isDownloaded c = false from hcd] at hd
    cases hd
  obtain ⟨h1, h2⟩ := touch_other S a.peered T hc hne
  have h3 := a.count c hc (h1 ▸ hcd)
  have h4 := demand_put x s random S.nodup hp c
  have h5 := h c hne
  show s.numPeers c = _
  omega

theorem Agree.put_aborted (hb : t.layout.InRange b)
    (h : ∀ c, x.demand c + (if c = b then 1 else 0) = (t.peer p).demand c) (rnd : Nat) :
    Agree (t.put p x (t.picker.abortDownload b (some p) rnd) random) := by
  have hr := (S.fits b).mpr hb
  obtain ⟨T, hst⟩ := abortDownload_touch (some p) (rnd) S.orderly hr
  have hr' := (T.inRange b).mpr hr
  have L := S.orderly.2
  have hwd : ((withdrawn (t.picker.status b)).1 = .requested → (withdrawn (t.picker.status b)).2 ≠ 0) := by
    unfold withdrawn
    split
    · rename_i hne
      exact fun he => absurd he hne
    split
    · intro _
      omega
    · intro he
      cases he
  refine ⟨T.peered a.peered (by rw [hst]; exact hwd), fun c hc hcd => ?_⟩
  have h4 := demand_put x (t.picker.abortDownload b (some p) rnd) random S.nodup hp c
  have h5 := h c
  show (t.picker.abortDownload b (some p) rnd).numPeers c = _
  replace hcd : (t.picker.abortDownload b (some p) rnd).isDownloaded c = false := hcd
  by_cases hne : c = b
  · subst hne
    rw [if_pos rfl] at h5
    rw [isDownloaded_eq T.orderly.2 hr', T.counts.have, hst] at hcd
    -- a block that is downloaded stays so
    have hdown : t.picker.isDownloaded c = false := by
      rw [isDownloaded_eq L hr]
      by_cases hreq : (t.picker.status c).1 = .requested
      · simp only [Bool.or_eq_false_iff] at hcd ⊢
        rw [hreq]
        exact ⟨hcd.1, rfl⟩
      · have hw : withdrawn (t.picker.status c) = t.picker.status c := if_pos hreq
        rwa [hw] at hcd
    have h3 := a.count c hc hdown
    rw [numPeers_eq L hr] at h3
    have hpos : 0 < (t.picker.status c).2 := by
      have h6 := demand_erase hp c
      omega
    have hreq := (PiecePicker.Peered.status a.peered hr).mp hpos
    rw [numPeers_eq T.orderly.2 hr', hst, withdrawn, if_neg (not_not_intro hreq)]
    split
    · omega
    · omega
  · rw [if_neg hne] at h5
    obtain ⟨h1, h2⟩ := touch_other S a.peered T hc hne
    have h3 := a.count c hc (h1 ▸ hcd)
    omega

theorem Agree.put_requested (hb : t.Pickable b) (hd : t.picker.isDownloaded b = false) {speed : Speed} {rnd : Nat}
    (h : ∀ c, x.demand c = (t.peer p).demand c + if c = b then 1 else 0) (hlt : t.demand b + 1 < 2 ^ 14) :
    Agree (t.put p x (t.picker.markAsDownloading b (some p) speed.pieceState rnd).1 random) := by
  obtain ⟨-, P, hone⟩ := requested_counts S a.peered hb hd (by rw [a.count b hb.1 hd]; exact hlt) p rnd speed rfl
  refine ⟨P, fun c hc hcd => ?_⟩
  obtain ⟨h1, h2⟩ := hone c hc
  have h3 := a.count c hc (h1 ▸ hcd)
  have h4 := demand_put x (t.picker.markAsDownloading b (some p) speed.pieceState rnd).1 random S.nodup hp c
  have h5 := h c
  show (t.picker.markAsDownloading b (some p) speed.pieceState rnd).1.numPeers c = _
  omega

end

theorem Agree.of_seed (S : Sane t) (P : t.picker.Peered) (hs : t.isSeed = true) : Agree t := by
  refine ⟨P, fun b hb hd => ?_⟩
  rw [S.balanced.seed hs ((S.fits b).mpr hb)] at hd
  cases hd

/-! ## Moves -/

/-- What one entry adds to the demand. -/
def PendingBlock.asks (e : PendingBlock) (b : PieceBlock) : Nat := if b = e.block then 1 else 0

variable {q q' : List PendingBlock} {e : PendingBlock}

theorem countP_requests (h : q.Perm (e :: q')) (b : PieceBlock) :
    q.countP (·.block == b) = q'.countP (·.block == b) + e.asks b := by
  rw [h.countP_eq, countP_cons]
  simp only [asks, beq_iff_eq, eq_comm (a := b)]

theorem countP_downloads (h : q.Perm (e :: q')) (b : PieceBlock) : (q.countP fun e => e.block == b && e.wanted) =
      (q'.countP fun e => e.block == b && e.wanted) + if e.wanted then e.asks b else 0 := by
  rw [h.countP_eq, countP_cons]
  cases hw : e.wanted <;> simp [asks, eq_comm (a := b)]

theorem countP_keys (h : q.map (·.key) = q'.map (·.key)) (b : PieceBlock) :
    (q.countP fun e => e.block == b && e.wanted) = q'.countP fun e => e.block == b && e.wanted := by
  have hk : ∀ q : List PendingBlock, (q.countP fun e => e.block == b && e.wanted) =
      (q.map (·.key)).countP fun k => k.1 == b && k.2 := by
    intro q
    rw [countP_map]
    rfl
  rw [hk, hk, h]

/-- **Every move keeps the agreement**, as long as there are fewer than 2^14 connections. -/
theorem Move.agree (h : Move E A p t t') (G : Good A t) (hp : p ∈ t.connections) (a : Agree t)
    (hlt : t.connections.length < 2 ^ 14) : Agree t' := by
  have T := G.tidy p hp
  have S := G.toSane
  have G' := (h.good G hp).1
  cases h with
  | tweak x' random calm sent queued =>
    refine a.put S hp fun c => ?_
    rw [demand, demand, queued, countP_keys sent]
  | request e x' calm allowed wanted fresh needed sent queued =>
    have hdem : ∀ c, x'.demand c = (t.peer p).demand c + e.asks c := by
      intro c
      rw [demand, demand, sent, countP_requests queued]
      omega
    refine a.put_requested S hp (G.allowed _ allowed) needed hdem ?_
    -- no connection waits for a block twice
    have h1 : (t.put p x' _ _).demand e.block ≤ t.connections.length := demand_le G'.tidy e.block
    have h2 := demand_put x' (t.picker.markAsDownloading e.block (some p) (t.peer p).speed.pieceState
      (t.random 0)).1 (fun i => t.random (i + 1)) S.nodup hp e.block
    have h3 := hdem e.block
    rw [asks, if_pos rfl] at h3
    dsimp only at h1
    omega
  | send e e' x' calm block wanted sent queued =>
    refine a.put S hp fun c => ?_
    have h1 := countP_downloads sent c
    have h2 := countP_requests queued c
    rw [wanted, if_pos rfl, asks, block] at h1
    rw [asks] at h2
    rw [demand, demand]
    omega
  | unqueue e x' calm sent queued =>
    refine a.put_aborted S hp (T.requested e (queued.mem_iff.mpr mem_cons_self)).1 (fun c => ?_) _
    have h2 := countP_requests queued c
    rw [asks] at h2
    rw [demand, demand, sent]
    omega
  | drop e length x' calm right sent queued =>
    have hdem : ∀ c, x'.demand c + (if e.wanted then e.asks c else 0) = (t.peer p).demand c := by
      intro c
      have h1 := countP_downloads sent c
      rw [demand, demand, queued]
      omega
    cases hw : e.wanted with
    | true =>
      rw [hw] at hdem
      rw [if_pos rfl]
      exact a.put_aborted S hp ((T.sent e (sent.mem_iff.mpr mem_cons_self)).2 hw) hdem _
    | false =>
      rw [hw] at hdem
      rw [if_neg (by decide)]
      exact a.put S hp hdem
  | park e length x' calm right wanted sent queued =>
    refine a.put S hp fun c => ?_
    have h1 := countP_downloads sent c
    have h2 := countP_requests (.of_eq queued) c
    rw [wanted, if_pos rfl] at h1
    rw [demand, demand]
    omega
  | timeOut e e' rest x' calm wanted block unwanted before after queued =>
    refine a.put_aborted S hp ((T.sent e (before.mem_iff.mpr mem_cons_self)).2 wanted) (fun c => ?_) _
    have h1 := countP_downloads before c
    have h2 := countP_downloads after c
    rw [wanted, if_pos rfl, asks] at h1
    rw [unwanted, if_neg (by decide)] at h2
    rw [demand, demand, queued]
    omega
  | arrive e x' calm unwanted fresh nonneg sent queued =>
    refine a.put S hp fun c => ?_
    have h1 := countP_downloads (.of_eq sent) c
    rw [unwanted, if_neg (by decide)] at h1
    rw [demand, demand, queued]
    omega
  | progress r received more x' kept before after verified nonneg le right sent queued bytes
  | stop x' kept after right sent queued =>
    refine a.put S hp fun c => ?_
    rw [demand, demand, sent, queued]
  | finish e x' kept after right sent queued bytes inRange =>
    have hdem : ∀ c, c ≠ e.block → x'.demand c = (t.peer p).demand c := by
      intro c hc
      have h1 := countP_downloads sent c
      rw [asks, if_neg hc, ite_self] at h1
      rw [demand, demand, queued]
      omega
    have hr := (S.fits _).mpr inRange
    cases hd : t.picker.isDownloaded e.block with
    | true =>
      rw [if_pos rfl]
      exact a.put_downloaded S hp a.peered (PiecePicker.Touch.refl S.orderly e.block) hd hdem
    | false =>
      rw [if_neg (by decide)]
      obtain ⟨T', hst⟩ := markAsWriting_touch (some p) (t.random 0) S.orderly hr hd
      refine a.put_downloaded S hp (T'.peered a.peered (by rw [hst]; exact fun h => by cases h)) T' ?_ hdem
      rw [isDownloaded_eq T'.orderly.2 ((T'.inRange _).mpr hr), hst]
      simp
  | forget x' seed => exact .of_seed G'.toSane a.peered seed

theorem Chain.agree (h : Chain E A p t t') (G : Good A t) (a : Agree t) (hlt : t.connections.length < 2 ^ 14) :
    Agree t' := by
  induction h with
  | refl => exact a
  | @tail u v hu hm ih =>
    have hc := Chain.connections_eq hu
    exact hm.2.agree (Chain.good hu G).1 hm.1 ih (by rw [hc]; exact hlt)

theorem Agree.close (a : Agree t) (S : Sane t) (hp : p ∈ t.connections) (hq : (t.peer p).downloadQueue = [])
    (hr : (t.peer p).requestQueue = []) :
    Agree { t.modifyPeer p fun x => { x with receiving := none } with connections := t.connections.erase p } := by
  refine ⟨a.peered, fun b hb hd => (a.count b hb hd).trans ?_⟩
  have h2 : (t.peer p).demand b = 0 := by rw [demand, hq, hr]; rfl
  rw [demand_erase hp, h2, zero_add]
  exact (sum_update _ S.nodup b).symm

theorem Moves.agree (h : Moves E A t t') (G : Good A t) (a : Agree t) (hlt : t.connections.length < 2 ^ 14) :
    Agree t' ∧ t'.connections.length ≤ t.connections.length := by
  induction h with
  | refl => exact ⟨a, le_refl _⟩
  | @tail u v hu hm ih =>
    obtain ⟨a', hle⟩ := ih
    obtain ⟨G', -⟩ := Moves.good hu G
    obtain ⟨p, hp, hm | rfl⟩ := hm
    · exact ⟨hm.agree G' hp a' (by omega), by rw [hm.connections_eq]; exact hle⟩
    constructor
    · obtain ⟨w, h1, h2, h3, -, he⟩ := disconnect_chain A hp
      rw [he]
      exact (h1.agree G' a' (by omega)).close (h1.good G').1.toSane (h1.connections_eq ▸ hp) h2 h3
    · rw [disconnect_connections hp]
      exact le_trans length_erase_le hle

/-! ## Restoring a piece -/

theorem mark_counts (S : Sane t) (P : t.picker.Peered) (marks : List (PieceBlock × Nat))
    (hpick : ∀ m ∈ marks, t.Pickable m.1 ∧ t.picker.isDownloaded m.1 = false)
    (hlt : ∀ m ∈ marks, t.picker.numPeers m.1 + (marks.map Prod.fst).count m.1 < 2 ^ 14) :
    (t.mark marks).picker.Peered ∧ ∀ c, t.layout.InRange c →
      (t.mark marks).picker.isDownloaded c = t.picker.isDownloaded c ∧
        (t.mark marks).picker.numPeers c = t.picker.numPeers c + (marks.map Prod.fst).count c := by
  induction marks generalizing t with
  | nil => exact ⟨P, fun c _ => ⟨rfl, rfl⟩⟩
  | cons m marks ih =>
    obtain ⟨hb, hd⟩ := hpick m mem_cons_self
    have hm := hlt m mem_cons_self
    rw [List.map_cons, count_cons_self] at hm
    generalize hs : (t.picker.markAsDownloading m.1 (some m.2) (t.peer m.2).speed.pieceState (t.random 0)).1 = s
    obtain ⟨T, P', hone⟩ := requested_counts S P hb hd (by omega) m.2 (t.random 0) (t.peer m.2).speed hs
    generalize hu : (t.markAsDownloading m.1 m.2).1 = u
    have hup : u.picker = s := by rw [← hu, ← hs]; rfl
    have hul : u.layout = t.layout := by rw [← hu]; rfl
    have S' : Sane u := by
      have := S.withPicker T.orderly (T.counts.balanced S.balanced) T.inRange fun i => t.random (i + 1)
      rw [← hu]
      rw [← hs] at this
      exact this
    obtain ⟨h1, h2⟩ := ih S' (hup ▸ P') (fun m' hm' => by
        obtain ⟨⟨k1, k2⟩, k3⟩ := hpick m' (mem_cons_of_mem _ hm')
        rw [Torrent.Pickable, hul, hup, (hone _ k1).1]
        exact ⟨⟨k1, (T.counts.have _).trans k2⟩, k3⟩)
      (fun m' hm' => by
        have := hlt m' (mem_cons_of_mem _ hm')
        rw [List.map_cons, count_cons] at this
        rw [hup, (hone m'.1 (hpick m' (mem_cons_of_mem _ hm')).1.1).2]
        simp only [beq_iff_eq, eq_comm (a := m.1)] at this
        omega)
    have he : t.mark (m :: marks) = u.mark marks := by rw [← hu]; rfl
    rw [he]
    refine ⟨h1, fun c hc => ?_⟩
    obtain ⟨k1, k2⟩ := h2 c (hul ▸ hc)
    rw [k1, k2, hup, (hone c hc).1, (hone c hc).2, List.map_cons, count_cons]
    simp only [beq_iff_eq, eq_comm (a := m.1), true_and]
    omega

theorem count_pendingIn (x : Peer) (index : Nat) (b : PieceBlock) :
    (x.pendingIn index).count b = if (b.pieceIndex : Nat) = index then x.demand b else 0 := by
  unfold pendingIn
  split_ifs with hb
  · rw [count_filter (by simpa using hb), List.count_append, count_eq_countP, count_eq_countP,
      countP_map, countP_map, countP_filter, add_comm]
    rfl
  · refine count_eq_zero.mpr fun hmem => hb ?_
    simpa using (mem_filter.mp hmem).2

theorem count_pending (t : Torrent) (index : Nat) (b : PieceBlock) :
    ((t.pending index).map Prod.fst).count b = if (b.pieceIndex : Nat) = index then t.demand b else 0 := by
  unfold Torrent.pending Torrent.demand
  generalize t.connections = ps
  induction ps with
  | nil =>
    rw [flatMap_nil, map_nil, count_nil, map_nil, sum_nil, ite_self]
  | cons p ps ih =>
    rw [List.flatMap_cons, List.map_append, List.count_append, ih, List.map_cons, List.sum_cons, List.map_map]
    have : (((t.peer p).pendingIn index).map (Prod.fst ∘ fun b => (b, p))) = (t.peer p).pendingIn index :=
      List.map_id _
    rw [this, count_pendingIn]
    split <;> rfl

/-- **A piece that failed is restored**: the requests that are still open are counted again. -/
theorem Agree.restorePiece (a : Agree t) (S : Sane t) (hlt : t.connections.length < 2 ^ 14) {index : Nat}
    (hh : (t.picker.pos index).have = false) : Agree (Requests.restorePiece t index) := by
  obtain ⟨T, C, hst⟩ := restorePiece_settle (t.random 0) S.orderly index
  generalize hu : (t.withPicker fun s rnd => s.restorePiece index rnd) = u
  have hup : u.picker = t.picker.restorePiece index (t.random 0) := by rw [← hu]; rfl
  have hul : u.layout = t.layout := by rw [← hu]; rfl
  have hud : ∀ b, u.demand b = t.demand b := by intro b; rw [← hu]; rfl
  rw [← hup] at T C hst
  have S1 : Sane u := by
    rw [← hu]
    rw [hup] at T
    exact S.withPicker T.orderly (T.balanced S.balanced) T.inRange _
  -- the blocks of the piece are free, the others are as before
  have hfree : ∀ c, t.layout.InRange c → (c.pieceIndex : Nat) = index →
      u.picker.isDownloaded c = false ∧ u.picker.numPeers c = 0 := by
    intro c hc hi
    have hr' := (T.inRange c).mpr ((S.fits c).mpr hc)
    rw [isDownloaded_eq T.orderly.2 hr', numPeers_eq T.orderly.2 hr', hst c hi, C.have, hi, hh]
    exact ⟨rfl, rfl⟩
  have hother : ∀ c, t.layout.InRange c → (c.pieceIndex : Nat) ≠ index →
      u.picker.isDownloaded c = t.picker.isDownloaded c ∧ u.picker.numPeers c = t.picker.numPeers c :=
    fun c hc hi => settle_other S T hc hi
  obtain ⟨h1, h2⟩ := mark_counts S1 (T.peered a.peered) (u.pending index) (fun m hm => by
      obtain ⟨k1, k2⟩ := mem_pending S1 hm
      rw [hul] at k1
      exact ⟨⟨hul ▸ k1, by rw [k2, C.have, hh]⟩, (hfree _ k1 k2).1⟩) fun m hm => by
      obtain ⟨k1, k2⟩ := mem_pending S1 hm
      rw [hul] at k1
      have := demand_le S.tidy m.1
      rw [count_pending, hud, if_pos k2, (hfree _ k1 k2).2]
      omega
  rw [Requests.restorePiece, restorePieceState_eq, hu]
  have hdem : ∀ b, (u.mark (u.pending index)).demand b = t.demand b := by
    intro b
    rw [← hud, Torrent.demand, Torrent.demand, peer_mark, (connections_mark u _).1]
  refine ⟨h1, fun c hc hd => ?_⟩
  rw [(connections_mark u _).2, hul] at hc
  obtain ⟨k1, k2⟩ := h2 c (hul ▸ hc)
  rw [k1] at hd
  rw [hdem, k2, count_pending, hud]
  by_cases hi : (c.pieceIndex : Nat) = index
  · rw [if_pos hi, (hfree c hc hi).2, zero_add]
  · rw [if_neg hi, (hother c hc hi).2, add_zero]
    exact a.count c hc ((hother c hc hi).1 ▸ hd)

/-! ## Runs -/

section

variable (a : Agree t)
include a

theorem Agree.congr (h : Alike t t') : Agree t' := by
  refine ⟨h.picker ▸ a.peered, fun b hb hd => ?_⟩
  rw [h.layout] at hb
  rw [h.picker] at hd ⊢
  rw [a.count b hb hd, Torrent.demand, Torrent.demand, h.connections]
  exact congrArg sum (map_congr_left fun p hp => by rw [h.peer p hp])

theorem Agree.incidental {f : Peer → Peer} (S : Sane t) (hlt : t.connections.length < 2 ^ 14)
    (h : Incidental f (t.peer p)) : Agree (t.modifyPeer p f) := by
  rcases h.moves (E := False) S with ha | ⟨hp, hm⟩
  · exact a.congr ha
  · exact hm.agree S.good hp a hlt

theorem Agree.parole (S : Sane t) (hlt : t.connections.length < 2 ^ 14) (onParole : List Nat) :
    Agree (t.parole onParole) ∧ (t.parole onParole).connections = t.connections := by
  induction onParole generalizing t with
  | nil => exact ⟨a, rfl⟩
  | cons p l ih =>
    exact ih (a.incidental S hlt (incidental_onParole _)) (S.incidental (incidental_onParole _)) hlt

theorem Agree.withPicker (P : s.Peered) (h : ∀ b, t.layout.InRange b → s.isDownloaded b = false →
      t.picker.isDownloaded b = false ∧ s.numPeers b = t.picker.numPeers b) (random : Nat → Nat) :
    Agree { t with picker := s, random } := by
  refine ⟨P, fun b hb hd => ?_⟩
  obtain ⟨h1, h2⟩ := h b hb hd
  exact h2.trans (a.count b hb h1)

theorem Agree.connect (hp : p ∉ t.connections) (supportsFast requestLargeBlocks : Bool) :
    Agree (step t (.connect p supportsFast requestLargeBlocks)) := by
  refine ⟨a.peered, fun b hb hd => (a.count b hb hd).trans ?_⟩
  show t.demand b = ((p :: t.connections).map fun q =>
    (update t.peer p { supportsFast, requestLargeBlocks } q).demand b).sum
  rw [List.map_cons, List.sum_cons, update_self, Torrent.demand]
  refine (congrArg sum (map_congr_left fun q hq => ?_)).trans (zero_add _).symm
  rw [update_of_ne fun e : q = p => hp (e ▸ hq)]

end

/-- **One step**: an allowed call keeps the agreement, as long as there are fewer than 2^14 connections. -/
theorem step_agree {c : Call} (S : Sane t) (a : Agree t) (hlt : t.connections.length < 2 ^ 14) (ha : Allowed t c) :
    Agree (step t c) := by
  by_cases hc : c.isMove = true
  · exact ((step_moves S ha hc False.elim False.elim False.elim).agree S.good a hlt).1
  cases c with
  | connect => exact a.connect ha _ _
  | choke => exact ((onChoke_moves S.good ha.1 ha.2.2).agree S.good a hlt).1
  | diskWriteComplete p block =>
    simp only [step, onDiskWriteComplete]
    cases hseed : t.isSeed with
    | true => exact a
    | false =>
      rw [if_neg (by decide)]
      have hpre := ha hseed
      obtain ⟨T, hd, -⟩ := markAsFinished_touch S.orderly hpre
      refine a.withPicker ((step_effect S.orderly hpre).2.peered a.peered |>.mpr trivial) (fun b hb hn => ?_) _
      have hne : b ≠ block := by
        rintro rfl
        exact absurd (hd.symm.trans hn) (by decide)
      obtain ⟨h1, h2⟩ := touch_other S a.peered T hb hne
      exact ⟨h1 ▸ hn, h2⟩
  | pieceFinished index result onParole banned =>
    simp only [step, Requests.pieceFinished]
    split_ifs with hf
    · exact a
    obtain ⟨hi, hh⟩ := S.pieceFinished index (by
      by_contra h
      exact hf (Or.inr (by simpa using h)))
    cases result with
    | passed =>
      obtain ⟨T, hhave⟩ := weHave_settle S.orderly hi
      refine a.withPicker (T.peered a.peered) (fun b hb hn => ?_) t.random
      have hne : (b.pieceIndex : Nat) ≠ index := by
        intro e
        rw [isDownloaded, e, hhave] at hn
        cases hn
      obtain ⟨h1, h2⟩ := settle_other S T hb hne
      exact ⟨h1 ▸ hn, h2⟩
    | failed =>
      obtain ⟨S1, hp⟩ := S.parole onParole
      obtain ⟨a1, hc1⟩ := a.parole S hlt onParole
      have hm : Moves False (t.parole onParole).Pickable (t.parole onParole)
          (banned.foldl disconnect (t.parole onParole)) := foldl_disconnect_moves banned _
      obtain ⟨G2, T2⟩ := hm.good S1.good
      obtain ⟨a2, hle⟩ := hm.agree S1.good a1 (by rw [hc1]; exact hlt)
      rw [hc1] at hle
      exact a2.restorePiece G2.toSane (by omega) ((T2.have index).trans (by rw [hp]; exact hh))
    | diskFailed => exact a.restorePiece S hlt hh
  | allowedFast p piece => exact a.incidental S hlt (incidental_allowedFast ha piece)
  | peerStatus => exact a.incidental S hlt (incidental_status _ _ _ _)
  | torrentStatus => exact ⟨a.peered, a.count⟩
  | addRequest | requestABlock | sendBlockRequests | cancelRequest | snubPeer | unchoke | reject | startPiece
  | pieceData
  | disconnect => exact absurd rfl hc

/-- `num_peers` of every block that is not downloaded is the number of connections that wait for it. -/
def Agrees (t : Torrent) : Prop :=
  ∀ b, t.layout.InRange b → t.picker.isDownloaded b = false →
    t.picker.numPeers b = t.connections.countP fun p => (t.peer p).waitsFor b

/-- A torrent without connections, of which no block is requested. -/
structure Fresh (t : Torrent) : Prop extends Sane t where
  alone : t.connections = []
  peered : t.picker.Peered
  unrequested : ∀ b, t.layout.InRange b → t.picker.isDownloaded b = false → t.picker.numPeers b = 0

/-- **Picker and connections agree** in every state of a run from a torrent without connections, if there are always
fewer than 2^14 of them. -/
theorem picker_agrees (F : Fresh t) (calls : List Call)
    (hl : Legal step (fun t c => Allowed t c ∧ t.connections.length < 2 ^ 14) t calls) :
    Always step Agrees t calls := by
  refine (always_of_step (P := fun t => Sane t ∧ Agree t) (fun t c h hp => ?_) ⟨F.toSane, F.peered, ?_⟩ hl).mono
    fun t h b hb hd => ?_
  · exact ⟨step_sane h.1 hp.1, step_agree h.1 h.2 hp.2 hp.1⟩
  · intro b hb hd
    rw [F.unrequested b hb hd, Torrent.demand, F.alone]
    rfl
  · exact (h.2.count b hb hd).trans (demand_eq_countP h.1.tidy b)

theorem newTorrent_fresh : Fresh newTorrent := by
  have hbook : ∀ q, newTorrent.picker.book q = none := fun q => rfl
  refine ⟨newTorrent_sane, rfl, fun q r h => ?_, fun b hb _ => ?_⟩
  · rw [hbook] at h
    cases h
  · rw [numPeers_eq newTorrent_sane.orderly.2 ((newTorrent_sane.fits b).mpr hb), status, hbook]
    rfl

/-- Two peers are asked for the same block; one of them rejects it. -/
def sharedBlock : List Call :=
  [.connect 0 true false, .addRequest 0 (.of 0 0) false false, .connect 1 true false,
    .addRequest 1 (.of 0 0) false true, .sendBlockRequests 1, .reject 1 ⟨0, 0, 16384⟩ ⟨[], false, false⟩]

theorem sharedBlock_legal :
    Legal step (fun t c => Allowed t c ∧ t.connections.length < 2 ^ 14) newTorrent sharedBlock := by
  refine ⟨⟨not_mem_nil, by decide⟩, ⟨⟨mem_cons_self, ?_, not_mem_nil⟩, by decide⟩,
    ⟨show (1 : Nat) ∉ [0] by decide, by decide⟩, ⟨⟨mem_cons_self, ?_, not_mem_nil⟩, by decide⟩,
    ⟨trivial, by decide +kernel⟩, ⟨⟨by decide +kernel, rfl, fun _ h => absurd h not_mem_nil⟩, by decide +kernel⟩,
    trivial⟩
  · exact pickable_new _ (by decide) (by decide) rfl
  · exact pickable_new _ (by decide) (by decide +kernel) rfl

theorem picker_agrees_sharedBlock :
    (run step newTorrent sharedBlock).picker.numPeers (.of 0 0) = 1 ∧ Always step Agrees newTorrent sharedBlock :=
  ⟨by decide +kernel, picker_agrees newTorrent_fresh sharedBlock sharedBlock_legal⟩

/-- The first block was requested of `n` peers, one after the other. -/
structure Crowd (n : Nat) (t : Torrent) : Prop extends Sane t where
  layout : t.layout = newTorrent.layout
  active : t.uploadMode = false
  lacking : (t.picker.pos 0).have = false
  members : ∀ p, p ∈ t.connections ↔ p < n
  size : t.connections.length = n
  waiting : ∀ p < n, (t.peer p).waitsFor (.of 0 0) = true
  needed : t.picker.isDownloaded (.of 0 0) = false
  counted : t.picker.numPeers (.of 0 0) = n % 2 ^ 14

def joins (n : Nat) : List Call := [.connect n true false, .addRequest n (.of 0 0) false false]

theorem crowd_succ {n : Nat} (C : Crowd n t) :
    Legal step Allowed t (joins n) ∧ Crowd (n + 1) (run step t (joins n)) := by
  have hn : n ∉ t.connections := fun h => lt_irrefl n ((C.members n).mp h)
  have S1 := C.toSane.connect hn true false
  have hpick : (step t (.connect n true false)).Pickable (.of 0 0) := pickable_new _ (by decide) C.lacking C.layout
  have hall : Allowed (step t (.connect n true false)) (.addRequest n (.of 0 0) false false) := by
    refine ⟨mem_cons_self, hpick, ?_⟩
    rw [show (step t (.connect n true false)).peer n = { supportsFast := true } from
      update_self ..]
    exact not_mem_nil
  have S2 := step_sane S1 hall
  obtain ⟨T, hret, hst⟩ := markAsDownloading_touch (some n) (t.random 0) C.orderly
    ((C.fits _).mpr hpick.1) (Speed.pieceState_ne .slow) C.lacking
  have hr := (C.fits _).mpr hpick.1
  refine ⟨⟨hn, hall, trivial⟩, ?_⟩
  -- the request is queued
  generalize hs : t.picker.markAsDownloading (.of 0 0) (some n) Speed.slow.pieceState (t.random 0) = s at T hret hst
  have hr' := (T.inRange _).mpr hr
  have hrun : run step t (joins n) = { t with
        picker := s.1
        random := fun i => t.random (i + 1)
        connections := n :: t.connections
        peer := update t.peer n { supportsFast := true, requestQueue := [{ block := .of 0 0 }] } } := by
    simp only [joins, run, foldl_cons, foldl_nil, step, addRequest, Torrent.markAsDownloading,
      Torrent.modifyPeer, C.active, update_self, hs, hret, C.needed]
    simp [queueRequest]
  rw [hrun]
  rw [C.needed, if_neg (by decide)] at hst
  refine ⟨?_, C.layout, C.active, (T.counts.have 0).trans C.lacking, fun p => ?_, ?_, fun p hp => ?_, ?_, ?_⟩
  · rw [← hrun]
    exact S2
  · rw [mem_cons, C.members]
    omega
  · rw [length_cons, C.size]
  · dsimp only
    by_cases he : p = n
    · rw [he, update_self]
      rfl
    · rw [update_of_ne he]
      exact C.waiting p (by omega)
  · rw [isDownloaded_eq T.orderly.2 hr', hst, T.counts.have]
    exact (congrArg₂ or C.lacking rfl)
  · rw [numPeers_eq T.orderly.2 hr', hst, ← numPeers_eq C.orderly.2 hr, C.counted]
    omega

theorem crowd (n : Nat) : ∃ calls, Legal step Allowed newTorrent calls ∧ Crowd n (run step newTorrent calls) := by
  induction n with
  | zero =>
    refine ⟨[], trivial, newTorrent_sane, rfl, rfl, by decide, fun p => ?_, rfl, fun p hp => ?_, by decide, by decide⟩
    · exact iff_of_false not_mem_nil (not_lt_zero p)
    · exact absurd hp (not_lt_zero p)
  | succ n ih =>
    obtain ⟨calls, h1, h2⟩ := ih
    obtain ⟨h3, h4⟩ := crowd_succ h2
    exact ⟨calls ++ joins n, legal_append.mpr ⟨h1, h3⟩, by rw [run_append]; exact h4⟩

/-- 2^14 peers wait for a block, but the picker counts none. -/
theorem peers_wrap : ∃ calls, Legal step Allowed newTorrent calls ∧ ¬ Agrees (run step newTorrent calls) := by
  obtain ⟨calls, hl, C⟩ := crowd (2 ^ 14)
  refine ⟨calls, hl, fun h => ?_⟩
  have h₁ := h (.of 0 0) (by rw [C.layout, newTorrent_inRange]; decide) C.needed
  rw [C.counted, countP_eq_length.mpr fun p hp => C.waiting p ((C.members p).mp hp), C.size] at h₁
  exact absurd h₁ (by decide)

end Libtorrent.Requests
