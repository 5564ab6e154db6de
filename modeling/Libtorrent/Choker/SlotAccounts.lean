import Mathlib.Algebra.Order.Ring.Int
import Libtorrent.Lib.Run
import Libtorrent.Choker.Ledger

/-!
# The accounts of upload slots

The messages about interest and the optimistic unchoke keep all accounts. `recalculate_unchoke_slots` counts anew, but
only the connections that it does not skip: it is short of the unchoked connections of paused torrents
(`recalculateUnchokeSlots_spec`). Pausing a torrent gracefully chokes exempt connections like others, which are not
counted (`gracefulStep_excess`). A run keeps the accounts exactly if neither happens.
-/

namespace Libtorrent.Choker

open Run Function List Bool Choker Connection

variable {s s' : Session} {c d t : Nat} {pi : Peer}

/-! ## Interest -/

section

variable (h : Ledger s)
include h

theorem Ledger.sessionChoke (hpi : (s.conn c).peer = some pi) (hcount : (s.conn c).counted = true) :
    Ledger (sessionChokePeer s pi.torrent c) ∧ Frame (· = c) s (sessionChokePeer s pi.torrent c) ∧
      excess (sessionChokePeer s pi.torrent c) = excess s := by
  obtain ⟨hl, hf, he⟩ := h.choke hpi hcount
  have heq : sessionChokePeer s pi.torrent c =
      { (chokePeer s pi.torrent c).1 with numUnchoked := (chokePeer s pi.torrent c).1.numUnchoked + -1 } := by
    rw [sessionChokePeer, chokePeer_eq (choked_of_counted hcount)]
    rfl
  rw [heq]
  refine ⟨hl.setNumUnchoked _, hf.setNumUnchoked _, ?_⟩
  rw [excess_setNumUnchoked, he]
  omega

theorem Ledger.sessionUnchoke (hr : (s.conn c).Regular) (hpi : (s.conn c).peer = some pi) :
    Kept s (sessionUnchokePeer s pi.torrent c) := by
  rw [sessionUnchokePeer]
  rcases h.unchoke hr hpi false with heq | ⟨-, hdone, hl, -, -, he⟩
  · rw [heq]
    exact ⟨h, rfl⟩
  simp only [hdone, if_true]
  refine ⟨hl.setNumUnchoked _, ?_⟩
  rw [excess_setNumUnchoked, he]
  omega

theorem Ledger.setInterested (hc : c ∈ s.connections) (b : Bool) :
    Kept s (s.setConn c { s.conn c with peerInterested := b }) := by
  have hx := h.sane c hc
  exact h.setAlike hc ⟨hx.isOpen, hx.unchoked, hx.optimistic⟩ rfl fun _ => rfl

section

variable (hpi : (s.conn c).peer = some pi)
include hpi

theorem Ledger.sendUnchoke (hweb : pi.webSeed = false) (hex : (s.conn c).ignoreUnchokeSlots = true) :
    Kept s (Choker.sendUnchoke s t c).1 := by
  have hc := h.mem hpi
  have hx := h.sane c hc
  unfold Choker.sendUnchoke
  split
  · exact ⟨h, rfl⟩
  split
  · exact ⟨h, rfl⟩
  · refine h.setExempt hc ⟨hx.isOpen, fun _ => ⟨pi, hpi, hweb⟩, fun pi' hpi' hopt => ?_⟩ hex hex
    exact ⟨rfl, (hx.optimistic pi' hpi' hopt).2⟩

theorem Ledger.noted (b : Bool) : let s1 := s.setConn c { s.conn c with peerInterested := b }
    Kept s s1 ∧ (s1.conn c).peer = some pi ∧ c ∈ s1.connections ∧ (s1.conn c).disconnecting = false := by
  obtain ⟨h1, he1⟩ := h.setInterested (h.mem hpi) b
  have hpi1 : ((s.setConn c { s.conn c with peerInterested := b }).conn c).peer = some pi := by
    rw [s.conn_setConn, ← hpi]
  have hc1 := h1.mem hpi1
  exact ⟨⟨h1, he1⟩, hpi1, hc1, (h1.sane c hc1).isOpen⟩

theorem Ledger.incomingInterested (hweb : pi.webSeed = false)
    (redundant : Bool) : Kept s (Choker.incomingInterested s pi.torrent c redundant) := by
  obtain ⟨⟨h1, he1⟩, hpi1, hc1, hopen⟩ := h.noted hpi true
  unfold Choker.incomingInterested
  generalize s.setConn c { s.conn c with peerInterested := true } = s1 at h1 he1 hpi1 hc1 hopen ⊢
  dsimp only
  rw [hopen, if_neg Bool.false_ne_true, Kept, ← he1]
  cases redundant with
  | true =>
    have hclosing : ((Choker.disconnect s1 c).conn c).disconnecting = true := by
      unfold Choker.disconnect
      rw [hopen, if_neg Bool.false_ne_true]
      change ((Session.setConn _ c _).conn c).disconnecting = true
      rw [Session.conn_setConn]
    rw [if_pos rfl, if_pos hclosing]
    exact ⟨h1.disconnect hc1, h1.excess_disconnect hc1⟩
  | false =>
    rw [if_neg Bool.false_ne_true, hopen, if_neg Bool.false_ne_true]
    split
    · exact ⟨h1, rfl⟩
    split
    · rename_i hex
      exact h1.sendUnchoke hpi1 hweb hex
    rename_i hex
    split
    · exact h1.sessionUnchoke ⟨by simpa using hex, pi, hpi1, hweb⟩ hpi1
    · exact ⟨h1, rfl⟩

theorem Ledger.incomingNotInterested : Kept s (Choker.incomingNotInterested s pi.torrent c) := by
  obtain ⟨⟨h1, he1⟩, hpi1, hc1, hopen⟩ := h.noted hpi false
  unfold Choker.incomingNotInterested
  generalize s.setConn c { s.conn c with peerInterested := false } = s1 at h1 he1 hpi1 hc1 hopen ⊢
  dsimp only
  rw [hopen, if_neg Bool.false_ne_true, Kept, ← he1]
  split
  · exact ⟨h1, rfl⟩
  rename_i hch
  have hch : (s1.conn c).choked = false := by simpa using hch
  split
  · rename_i hex
    rw [sendChoke_eq hch]
    exact h1.setExempt hc1 (h1.sane c hc1).afterChoke hex hex
  rename_i hex
  have hex : (s1.conn c).ignoreUnchokeSlots = false := by simpa using hex
  rw [sessionChokePeer, chokePeer_calm hch]
  obtain ⟨h2, -, he2⟩ := h1.sessionChoke hpi1 (counted_of hex hch)
  exact ⟨h2, he2⟩

end

end

/-! ## The optimistic unchoke -/

theorem Ledger.optimisticStep (h : Ledger s) (hr : (s.conn c).Regular) (num : Int) :
    Ledger (Choker.optimisticStep c num s).2 ∧ Frame (· = c) s (Choker.optimisticStep c num s).2 ∧
      excess (Choker.optimisticStep c num s).2 = excess s := by
  have hstay : Ledger s ∧ Frame (· = c) s s ∧ excess s = excess s := ⟨h, .refl _ s, rfl⟩
  obtain ⟨pi, hpi, hweb⟩ := hr.2
  have hc := h.mem hpi
  unfold Choker.optimisticStep
  rw [hpi]
  dsimp only
  split
  · split
    · exact hstay
    · rcases h.unchoke hr hpi true with heq | ⟨-, hdone, hl, hf, hch, he⟩
      · rw [heq]
        exact hstay
      · simp only [hdone, if_true]
        generalize (unchokePeer s pi.torrent c true).1 = s1 at hl hf hch he ⊢
        have hc1 : c ∈ s1.connections := hf.connections ▸ hc
        have hx := hl.sane c hc1
        have hopt : ((s1.conn c).withOptimistic true).Sane := by
          refine ⟨hx.isOpen, fun _ => ?_, fun _ _ _ => ⟨hch, (hf.regular.mpr hr).1⟩⟩
          obtain ⟨pi1, hpi1, hweb1⟩ := hx.unchoked hch
          exact ⟨{ pi1 with optimisticallyUnchoked := true }, by simp [withOptimistic, hpi1], hweb1⟩
        have hl2 := hl.setConn hc1 hopt fun t => by rw [isOf_withOptimistic]; rfl
        have hf2 := hf.trans (Session.frame_setConn (bare_withOptimistic true))
        refine ⟨hl2.setNumUnchoked _, hf2.setNumUnchoked _, ?_⟩
        rw [excess_setNumUnchoked, hl.excess_setConn hc1, he]
        change _ - 1 + _ - ((s1.conn c).counted.toNat : Int) + 1 = _
        omega
  · split
    · rename_i hopt
      obtain ⟨hch, hex⟩ := (h.sane c hc).optimistic pi hpi hopt
      rw [chokePeer_calm hch]
      obtain ⟨hl, hf, he⟩ := h.choke hpi (counted_of hex hch)
      refine ⟨hl.setNumUnchoked _, hf.setNumUnchoked _, ?_⟩
      have := excess_setNumUnchoked (chokePeer s pi.torrent c).1 (-1)
      rw [he] at this
      exact this.trans (by omega)
    · exact hstay

theorem Ledger.optimisticLoop : ∀ (cs : List Nat) (num : Int) {s : Session}, Ledger s → (∀ c ∈ cs, (s.conn c).Regular) →
    Kept s (optimisticLoop cs num s)
  | [], _, _, h, _ => ⟨h, rfl⟩
  | c :: cs, num, s, h, hr => by
    obtain ⟨h1, hf, he⟩ := h.optimisticStep (hr c mem_cons_self) num
    have hr1 : ∀ d ∈ cs, ((Choker.optimisticStep c num s).2.conn d).Regular :=
      fun d hd => hf.regular.mpr (hr d (mem_cons_of_mem c hd))
    obtain ⟨h2, he2⟩ := Ledger.optimisticLoop cs (Choker.optimisticStep c num s).1 h1 hr1
    exact ⟨h2, he2.trans he⟩

theorem Ledger.optimisticCandidate (h : Ledger s) (hd : d ∈ s.connections)
    (hc : c ∈ Choker.optimisticCandidate s d) : (s.conn c).Regular := by
  unfold Choker.optimisticCandidate at hc
  cases hpi : (s.conn d).peer with
  | none => simp [hpi] at hc
  | some pi =>
    simp only [hpi] at hc
    split at hc
    · exact absurd hc not_mem_nil
    rename_i hskip
    rcases mem_append.mp hc with hc | hc
    · split at hc
      · rename_i hopt
        obtain rfl := mem_singleton.mp hc
        obtain ⟨hch, hex⟩ := (h.sane c hd).optimistic pi hpi hopt
        exact ⟨hex, (h.sane c hd).unchoked hch⟩
      · exact absurd hc not_mem_nil
    split at hc
    · rename_i hcand
      obtain rfl := mem_singleton.mp hc
      refine ⟨by simpa using hcand.2.2.2.2.2.1, pi, hpi, ?_⟩
      rw [eq_false_iff]
      exact fun hweb => hskip (.inl hweb)
    · exact absurd hc not_mem_nil

theorem Ledger.recalculateOptimistic (h : Ledger s) {order : List Nat → List Nat} (horder : ∀ l, (order l).Perm l) :
    Kept s (recalculateOptimisticUnchokeSlots s order) := by
  unfold recalculateOptimisticUnchokeSlots
  split
  · exact ⟨h, rfl⟩
  · refine h.optimisticLoop _ _ fun c hc => ?_
    obtain ⟨d, hd, hcd⟩ := mem_flatMap.mp ((horder _).mem_iff.mp hc)
    exact h.optimisticCandidate hd hcd

/-! ## The recount -/

variable {S : Nat → Prop}

theorem Frame.isPaused (h : Frame S s s') (t : Nat) : s'.isPaused t = s.isPaused t := by
  have ht := h.torrents t
  have hallow : (s'.torrent t).bare.allowPeers = (s.torrent t).bare.allowPeers := by rw [ht]
  have hgrace : (s'.torrent t).bare.gracefulPauseMode = (s.torrent t).bare.gracefulPauseMode := by rw [ht]
  unfold Session.isPaused
  rw [h.paused]
  exact congrArg₂ (fun a b => !a || s.paused || b) hallow hgrace

theorem skipped_bare (s : Session) (x : Connection) : skipped s x.bare = skipped s x := by
  cases x with
  | mk peer => cases peer <;> rfl

theorem Frame.skipped (h : Frame S s s') (d : Nat) : Choker.skipped s' (s'.conn d) = Choker.skipped s (s.conn d) := by
  have hpaused : Choker.skipped s' (s'.conn d) = Choker.skipped s (s'.conn d) := by
    unfold Choker.skipped
    simp only [h.isPaused]
  rw [hpaused, ← skipped_bare, h.bare, skipped_bare]

/-- The connections that the first loop takes into its list. -/
def eligible (s : Session) (c : Nat) : Bool :=
  !skipped s (s.conn c) && (s.conn c).peer.any fun pi => unchokable s pi.torrent (s.conn c)

theorem Frame.eligible (h : Frame S s s') (d : Nat) : Choker.eligible s' d = Choker.eligible s d := by
  have hseed : ∀ t, (s'.torrent t).isSeed = (s.torrent t).isSeed := fun t => by
    have : (s'.torrent t).bare.isSeed = (s.torrent t).bare.isSeed := by rw [h.torrents t]
    exact this
  have hbare : ∀ x : Connection, (x.peer.any fun pi => unchokable s pi.torrent x) =
      x.bare.peer.any fun pi => unchokable s pi.torrent x.bare := fun x => by
    cases x with
    | mk peer => cases peer <;> rfl
  unfold Choker.eligible
  rw [h.skipped]
  unfold unchokable at hbare ⊢
  simp only [hseed]
  rw [hbare (s'.conn d), hbare (s.conn d), h.bare]

theorem regular_of_not_skipped (h : skipped s (s.conn c) = false) : (s.conn c).Regular := by
  unfold skipped at h
  cases hpi : (s.conn c).peer with
  | none => simp [hpi] at h
  | some pi =>
    simp only [hpi, or_eq_false_iff] at h
    exact ⟨h.1.1, pi, hpi, h.1.2⟩

/-- The connections that the first loop chokes. -/
def unfit (s : Session) (c : Nat) : Bool := !skipped s (s.conn c) && !eligible s c

/-- The first loop: the eligible connections are in the list, the unfit ones are choked, the others are untouched. -/
theorem gatherPeers_spec : ∀ (l : List Nat) {s : Session}, Ledger s → l.Nodup →
    Ledger (gatherPeers l s).1 ∧ Frame (fun c => c ∈ l ∧ unfit s c = true) s (gatherPeers l s).1 ∧
      (gatherPeers l s).2 = l.filter (eligible s) ∧
      ∀ c ∈ l, unfit s c = true → ((gatherPeers l s).1.conn c).choked = true
  | [], s, h, _ => ⟨h, .refl _ s, rfl, fun c hc => absurd hc not_mem_nil⟩
  | c :: l, s, h, hl => by
    obtain ⟨hcl, hl⟩ := nodup_cons.mp hl
    -- what the rest of the loop does from a state in which `c` is settled
    have hrest : ∀ {s1 : Session}, Ledger s1 → Frame (· = c) s s1 → (unfit s c = false → s1.conn c = s.conn c) →
        (unfit s c = true → (s1.conn c).choked = true) →
        Ledger (gatherPeers l s1).1 ∧ Frame (fun d => d ∈ c :: l ∧ unfit s d = true) s (gatherPeers l s1).1 ∧
          (gatherPeers l s1).2 = l.filter (eligible s) ∧
          ∀ d ∈ c :: l, unfit s d = true → ((gatherPeers l s1).1.conn d).choked = true := by
      intro s1 h1 hf1 hsame hchoked
      obtain ⟨h2, hf2, hlist, hch2⟩ := gatherPeers_spec l h1 hl
      have hunfit : ∀ d, unfit s1 d = unfit s d := fun d => by unfold unfit; rw [hf1.skipped, hf1.eligible]
      have helig : eligible s1 = eligible s := funext fun d => hf1.eligible d
      have hkeep : (gatherPeers l s1).1.conn c = s1.conn c := hf2.others c fun hd => hcl hd.1
      refine ⟨h2, ⟨hf2.connections.trans hf1.connections, fun d hd => ?_, fun d => (hf2.bare d).trans (hf1.bare d),
        fun t => (hf2.torrents t).trans (hf1.torrents t), hf2.paused.trans hf1.paused⟩, helig ▸ hlist,
          fun d hd hu => ?_⟩
      · rcases eq_or_ne d c with rfl | hne
        · rw [hkeep]
          exact hsame (eq_false_iff.mpr fun hu => hd ⟨mem_cons_self, hu⟩)
        · rw [hf2.others d fun hd' => hd ⟨mem_cons_of_mem c hd'.1, hunfit d ▸ hd'.2⟩, hf1.others d hne]
      · rcases mem_cons.mp hd with rfl | hd
        · rw [hkeep]
          exact hchoked hu
        · exact hch2 d hd (hunfit d ▸ hu)
    rw [gatherPeers]
    split
    · rename_i hskip
      have hu : unfit s c = false := by rw [unfit, hskip, Bool.not_true, Bool.false_and]
      have he : eligible s c = false := by rw [eligible, hskip, Bool.not_true, Bool.false_and]
      rw [filter_cons_of_neg (by rw [he]; exact Bool.false_ne_true)]
      exact hrest h (.refl _ s) (fun _ => rfl) fun h => absurd h (by rw [hu]; exact Bool.false_ne_true)
    rename_i hskip
    have hskip : skipped s (s.conn c) = false := by simpa using hskip
    obtain ⟨hex, pi, hpi, -⟩ := regular_of_not_skipped hskip
    have he : eligible s c = unchokable s pi.torrent (s.conn c) := by
      rw [eligible, hskip, hpi, Option.any_some, Bool.not_false, Bool.true_and]
    have hu : unfit s c = !eligible s c := by rw [unfit, hskip, Bool.not_false, Bool.true_and]
    rw [hpi]
    dsimp only
    cases hun : unchokable s pi.torrent (s.conn c) with
    | false =>
      rw [hun] at he
      rw [he, Bool.not_false] at hu
      rw [filter_cons_of_neg (by rw [he]; exact Bool.false_ne_true), if_pos Bool.not_false]
      split
      · rename_i hch
        exact hrest h (.refl _ s) (fun _ => rfl) fun _ => hch
      rename_i hch
      have hch : (s.conn c).choked = false := by simpa using hch
      rw [chokePeer_calm hch]
      obtain ⟨hl, hf, -⟩ := h.choke hpi (counted_of hex hch)
      refine hrest hl hf (fun h => absurd h (by rw [hu]; exact Bool.noConfusion)) fun _ => ?_
      rw [chokePeer_eq hch]
      change ((s.setConn c _).conn c).choked = true
      rw [s.conn_setConn]
      rfl
    | true =>
      rw [hun] at he
      rw [he, Bool.not_true] at hu
      rw [filter_cons_of_pos he, if_neg (by simp)]
      obtain ⟨h1, h2, h3, h4⟩ := hrest h (.refl _ s) (fun _ => rfl)
        fun h => absurd h (by rw [hu]; exact Bool.false_ne_true)
      exact ⟨h1, h2, congrArg (c :: ·) h3, h4⟩

/-- A connection was dealt with in the second loop, and counted. -/
structure Recounted (c : Nat) (s s' : Session) : Prop where
  ledger : Ledger s'
  frame : Frame (· = c) s s'
  count : s'.numUnchoked = s.numUnchoked + (!(s'.conn c).choked).toNat

section

variable (h : Ledger s) (hr : (s.conn c).Regular) (hpi : (s.conn c).peer = some pi)
include h hr hpi

theorem Ledger.unchokeMember : Recounted c s (Choker.unchokeMember s pi.torrent c).1 := by
  -- a connection that is unchoked, whether it was before or not
  have hdone : ∀ {s1 : Session}, Ledger s1 → Frame (· = c) s s1 → (s1.conn c).choked = false →
      s1.numUnchoked = s.numUnchoked →
      Recounted c s { s1.setConn c ((s1.conn c).withOptimistic false) with
        numUnchoked := s1.numUnchoked + 1 } := by
    intro s1 h1 hf1 hch hnum
    obtain ⟨h2, hf2, -⟩ := h1.calm (hf1.connections ▸ h.mem hpi)
    have hf := hf1.trans hf2
    refine ⟨h2.setNumUnchoked _, hf.setNumUnchoked _, ?_⟩
    have : (((s1.setConn c ((s1.conn c).withOptimistic false)).conn c).choked) = false := by
      rw [s1.conn_setConn]
      exact hch
    rw [this, hnum]
    rfl
  unfold Choker.unchokeMember
  cases hch : (s.conn c).choked with
  | false => exact hdone h (.refl _ s) hch rfl
  | true =>
    rw [if_pos rfl]
    rcases h.unchoke hr hpi false with heq | ⟨-, hok, h1, hf1, hch1, -⟩
    · rw [heq]
      refine ⟨h, .refl _ s, ?_⟩
      change s.numUnchoked = s.numUnchoked + ((!(s.conn c).choked).toNat : Int)
      rw [hch]
      simp
    have hnum : (unchokePeer s pi.torrent c false).1.numUnchoked = s.numUnchoked := by
      rcases unchokePeer_eq s pi.torrent c false with heq | ⟨-, heq⟩
      · rw [heq]
      · rw [heq]
        rfl
    simp only [hok]
    exact hdone h1 hf1 hch1 hnum

theorem Ledger.chokeOther : Recounted c s (Choker.chokeOther s pi c) := by
  have hcounts : ∀ {s1 : Session}, Ledger s1 → Frame (· = c) s s1 → s1.numUnchoked = s.numUnchoked →
      Recounted c s (if !(s1.conn c).choked then { s1 with numUnchoked := s1.numUnchoked + 1 } else s1) := by
    intro s1 h1 hf hnum
    cases hch : (s1.conn c).choked with
    | false =>
      refine ⟨h1.setNumUnchoked _, hf.setNumUnchoked _, ?_⟩
      change s1.numUnchoked + 1 = _ + ((!(s1.conn c).choked).toNat : Int)
      rw [hch, hnum]
      rfl
    | true =>
      refine ⟨h1, hf, ?_⟩
      change s1.numUnchoked = _ + ((!(s1.conn c).choked).toNat : Int)
      rw [hch, hnum]
      simp
  unfold Choker.chokeOther
  split
  · rename_i hcond
    have hch : (s.conn c).choked = false := by simpa using hcond.1
    obtain ⟨h1, hf1, -⟩ := h.choke hpi (counted_of hr.1 hch)
    exact hcounts h1 hf1 (by rw [chokePeer_eq hch]; rfl)
  · exact hcounts h (.refl _ s) rfl

end

theorem unchokeLoop_spec (m : Measurements) : ∀ (l : List Nat) (size capacity : Int) {s : Session}, Ledger s →
    (∀ c ∈ l, (s.conn c).Regular) → l.Nodup →
    Ledger (unchokeLoop m l size capacity s) ∧ Frame (· ∈ l) s (unchokeLoop m l size capacity s) ∧
      (unchokeLoop m l size capacity s).numUnchoked =
        s.numUnchoked + (l.countP fun c => !((unchokeLoop m l size capacity s).conn c).choked : Nat)
  | [], _, _, s, h, _, _ => ⟨h, .refl _ s, by simp [unchokeLoop]⟩
  | c :: l, size, capacity, s, h, hr, hl => by
    obtain ⟨hcl, hl⟩ := nodup_cons.mp hl
    have hrest : ∀ {s1 : Session} (size capacity : Int), Recounted c s s1 →
        Ledger (unchokeLoop m l size capacity s1) ∧ Frame (· ∈ c :: l) s (unchokeLoop m l size capacity s1) ∧
          (unchokeLoop m l size capacity s1).numUnchoked = s.numUnchoked +
            ((c :: l).countP fun c => !((unchokeLoop m l size capacity s1).conn c).choked : Nat) := by
      intro s1 size capacity hc
      obtain ⟨h2, hf2, hn2⟩ := unchokeLoop_spec m l size capacity hc.ledger
        (fun d hd => hc.frame.regular.mpr (hr d (mem_cons_of_mem c hd))) hl
      refine ⟨h2, (hc.frame.mono fun d hd => hd ▸ mem_cons_self).trans (hf2.mono fun d hd => mem_cons_of_mem c hd), ?_⟩
      rw [hn2, hc.count, countP_cons, hf2.others c hcl]
      cases (s1.conn c).choked with
      | false =>
        simp only [Bool.not_false, Bool.toNat_true, if_true]
        omega
      | true => simp
    obtain ⟨pi, hpi, -⟩ := (hr c mem_cons_self).2
    rw [unchokeLoop, hpi]
    dsimp only
    split
    · exact hrest _ _ (h.unchokeMember (hr c mem_cons_self) hpi)
    · exact hrest _ _ (h.chokeOther (hr c mem_cons_self) hpi)

variable {m : Measurements}

theorem sortedPeers_perm (hsort : ∀ l, (m.sort l).Perm l) (hup : ∀ l, (m.sortByUpload l).Perm l)
    (s : Session) (peers : List Nat) : (sortedPeers s m peers).Perm peers := by
  unfold sortedPeers
  split
  · exact (hsort _).trans (hup _)
  · exact hsort _

/-- **The recount** leaves out the unchoked connections that are skipped. -/
theorem recalculateUnchokeSlots_spec (h : Ledger s) (hsort : ∀ l, (m.sort l).Perm l)
    (hup : ∀ l, (m.sortByUpload l).Perm l) : Ledger (recalculateUnchokeSlots s m) ∧
      excess (recalculateUnchokeSlots s m) =
        -(s.connections.countP fun c => skipped s (s.conn c) && (s.conn c).counted : Nat) := by
  obtain ⟨h1, hf1, hpeers, hchoked⟩ := gatherPeers_spec s.connections h h.nodup
  unfold recalculateUnchokeSlots
  generalize gatherPeers s.connections s = r at h1 hf1 hpeers hchoked ⊢
  obtain ⟨s1, peers⟩ := r
  dsimp only at h1 hf1 hpeers hchoked ⊢
  have hperm := sortedPeers_perm hsort hup { s1 with allowedUploadSlots := allowedSlots s1 m peers } peers
  have hmem : ∀ c, c ∈ sortedPeers { s1 with allowedUploadSlots := allowedSlots s1 m peers } m peers ↔
      c ∈ s.connections ∧ eligible s c = true := fun c => by rw [hperm.mem_iff, hpeers, mem_filter]
  have hnot : ∀ c, eligible s c = true → skipped s (s.conn c) = false := fun c hc => by
    rw [eligible, Bool.and_eq_true] at hc
    simpa using hc.1
  have h2 : Ledger { s1 with allowedUploadSlots := allowedSlots s1 m peers, numUnchoked := 0 } :=
    ⟨⟨h1.nodup, h1.sane, h1.closed⟩, h1.uploads⟩
  obtain ⟨h3, hf3, hn3⟩ := unchokeLoop_spec m _ (allowedSlots s1 m peers - numOptUnchoke _) (uploadCapacity _ m) h2
    (fun c hc => hf1.regular.mpr (regular_of_not_skipped (hnot c ((hmem c).mp hc).2)))
    (hperm.nodup_iff.mpr (hpeers ▸ h.nodup.filter _))
  refine ⟨h3, ?_⟩
  generalize unchokeLoop m _ _ _ _ = s3 at h3 hf3 hn3 ⊢
  have hsplit : numCounted s3 = (s.connections.filter (eligible s)).countP (fun c => !(s3.conn c).choked) +
      s.connections.countP fun c => skipped s (s.conn c) && (s.conn c).counted := by
    have hconn : s3.connections = s.connections := hf3.connections.trans hf1.connections
    rw [numCounted, hconn, countP_eq_countP_filter_add _ _ (eligible s)]
    congr 1
    · refine countP_congr fun c hc => ?_
      have hreg := regular_of_not_skipped (hnot c (mem_filter.mp hc).2)
      rw [counted_eq ((hf3.exempt c).trans ((hf1.exempt c).trans hreg.1))]
    rw [countP_filter]
    refine countP_congr fun c hc => ?_
    cases he : eligible s c with
    | true => simp [hnot c he]
    | false =>
      have hkept : s3.conn c = s1.conn c :=
        hf3.others c fun hin => Bool.false_ne_true (he.symm.trans ((hmem c).mp hin).2)
      rw [hkept]
      cases hs : skipped s (s.conn c) with
      | true =>
        have : s1.conn c = s.conn c := hf1.others c fun hin => by simp [unfit, hs] at hin
        rw [this]
        simp
      | false =>
        have : (s1.conn c).choked = true := hchoked c hc (by rw [unfit, hs, he]; rfl)
        simp [counted, this]
  have hcount := hperm.countP_eq fun c => !(s3.conn c).choked
  rw [hpeers] at hcount hn3
  unfold excess
  rw [hn3, hsplit]
  rw [hcount]
  dsimp only
  omega

/-! ## Pausing -/

/-- The connections that pausing gracefully chokes though they are exempt. -/
def Connection.miscounted (x : Connection) : Bool :=
  decide (x.outstandingBytes > 0) && !x.choked && x.ignoreUnchokeSlots

/-- What a step of a loop over connections leaves alone. -/
structure Apart (c : Nat) (s s' : Session) : Prop where
  others : ∀ d, d ≠ c → s'.conn d = s.conn d
  members : ∀ d, d ≠ c → (d ∈ s'.connections ↔ d ∈ s.connections)

theorem Closed.apart (h : Closed c s s') (hl : s.connections.Nodup) : Apart c s s' :=
  ⟨h.others, fun d hd => by rw [h.connections, hl.mem_erase_iff, and_iff_right hd]⟩

theorem Sound.sessionChoke (h : Sound s) (hc : c ∈ s.connections) (hch : (s.conn c).choked = false) :
    Sound (sessionChokePeer s t c) ∧ Apart c s (sessionChokePeer s t c) ∧
      excess (sessionChokePeer s t c) = excess s + (s.conn c).counted.toNat - 1 := by
  have heq : sessionChokePeer s t c =
      { (s.setConn c (s.conn c).afterChoke).setUploads t ((s.torrent t).numUploads - 1) with
        numUnchoked := s.numUnchoked + -1 } := by
    rw [sessionChokePeer, chokePeer_eq hch]
    rfl
  have hs := h.setConn hc (h.sane c hc).afterChoke
  rw [heq]
  refine ⟨⟨hs.nodup, hs.sane, hs.closed⟩, ⟨fun d hd => s.conn_setConn_of_ne hd _, fun _ _ => Iff.rfl⟩, ?_⟩
  have := excess_setNumUnchoked (s.setConn c (s.conn c).afterChoke) (-1)
  rw [h.excess_setConn hc, counted_afterChoke] at this
  exact this.trans (by simp; omega)

theorem gracefulStep_excess (h : Sound s) (hc : c ∈ s.connections) : Sound (gracefulStep t s c) ∧
    Apart c s (gracefulStep t s c) ∧ excess (gracefulStep t s c) = excess s - (s.conn c).miscounted.toNat := by
  unfold gracefulStep miscounted
  split
  · rename_i hout
    rw [decide_eq_true hout, Bool.true_and]
    cases hch : (s.conn c).choked with
    | true => exact ⟨h, ⟨fun _ _ => rfl, fun _ _ => Iff.rfl⟩, by simp⟩
    | false =>
      obtain ⟨hs, ha, he⟩ := h.sessionChoke hc hch
      refine ⟨hs, ha, he.trans ?_⟩
      rw [counted, hch]
      cases (s.conn c).ignoreUnchokeSlots <;> simp
  · rename_i hout
    rw [decide_eq_false hout, Bool.false_and, Bool.false_and]
    have hcl := (disconnect_spec h hc).1
    exact ⟨hcl.sound h, hcl.apart h.nodup, by rw [h.excess_disconnect hc]; simp⟩

theorem Connection.isOf_iff {x : Connection} : x.isOf t = true ↔ ∃ pi, x.peer = some pi ∧ pi.torrent = t := by
  unfold isOf
  cases x.peer <;> simp

theorem Ledger.gracefulStep (h : Ledger s) (hof : (s.conn c).isOf t = true) (hmis : (s.conn c).miscounted = false) :
    Ledger (gracefulStep t s c) := by
  obtain ⟨pi, hpi, rfl⟩ := isOf_iff.mp hof
  have hc := h.mem hpi
  unfold gracefulStep
  split
  · rename_i hout
    split
    · rename_i hch
      have hex : (s.conn c).ignoreUnchokeSlots = false := by
        unfold miscounted at hmis
        rw [decide_eq_true hout, hch, Bool.true_and, Bool.true_and] at hmis
        exact hmis
      exact (h.sessionChoke hpi (by rw [counted_eq hex]; exact hch)).1
    · exact h
  · exact h.disconnect hc

theorem foldl_apart {f : Session → Nat → Session} {P : Session → Prop} (good : Connection → Prop)
    (hf : ∀ s c, P s → c ∈ s.connections → good (s.conn c) → P (f s c) ∧ Apart c s (f s c)) :
    ∀ (l : List Nat) {s : Session}, P s → l.Nodup → (∀ c ∈ l, c ∈ s.connections ∧ good (s.conn c)) → P (l.foldl f s)
  | [], _, h, _, _ => h
  | c :: l, s, h, hl, hmem => by
    obtain ⟨hcl, hl⟩ := nodup_cons.mp hl
    obtain ⟨hc, hg⟩ := hmem c mem_cons_self
    obtain ⟨h1, ha⟩ := hf s c h hc hg
    refine foldl_apart good hf l h1 hl fun d hd => ?_
    have hne : d ≠ c := fun he => hcl (he ▸ hd)
    rw [ha.members d hne, ha.others d hne]
    exact hmem d (mem_cons_of_mem c hd)

theorem gracefulLoop_excess : ∀ (l : List Nat) {s : Session}, Sound s → l.Nodup → (∀ c ∈ l, c ∈ s.connections) →
    Sound (l.foldl (gracefulStep t) s) ∧
      excess (l.foldl (gracefulStep t) s) = excess s - (l.countP fun c => (s.conn c).miscounted : Nat)
  | [], _, h, _, _ => ⟨h, by simp⟩
  | c :: l, s, h, hl, hmem => by
    obtain ⟨hcl, hl⟩ := nodup_cons.mp hl
    obtain ⟨h1, ha, he⟩ := gracefulStep_excess h (hmem c mem_cons_self)
    have hne : ∀ d ∈ l, d ≠ c := fun d hd he => hcl (he ▸ hd)
    obtain ⟨h2, he2⟩ := gracefulLoop_excess l h1 hl fun d hd =>
      (ha.members d (hne d hd)).mpr (hmem d (mem_cons_of_mem c hd))
    refine ⟨h2, he2.trans ?_⟩
    have hcount : (l.countP fun d => ((gracefulStep t s c).conn d).miscounted) =
        l.countP fun d => (s.conn d).miscounted :=
      countP_congr fun d hd => by rw [ha.others d (hne d hd)]
    rw [hcount, he, countP_cons]
    cases (s.conn c).miscounted <;> simp
    omega

theorem Ledger.setTorrent (h : Ledger s) {x : Torrent} (hx : x.numUploads = (s.torrent t).numUploads) :
    Ledger (s.setTorrent t x) := by
  refine ⟨⟨h.nodup, h.sane, h.closed⟩, fun t' => ?_⟩
  change (update s.torrent t x t').numUploads = BitVec.ofNat 24 (numCountedOf s t')
  rcases eq_or_ne t' t with rfl | hne
  · rw [update_self, hx, h.uploads]
  · rw [update_of_ne hne, h.uploads]

/-- If `pause` comes to the loop that chokes. -/
def pausesGracefully (s : Session) (t : Nat) (graceful : Bool) : Bool :=
  graceful && (s.torrent t).allowPeers && !s.paused

theorem mem_torrentConnections : c ∈ torrentConnections s t ↔ c ∈ s.connections ∧ (s.conn c).isOf t = true :=
  mem_filter

@[simp] theorem Session.torrent_setTorrent (s : Session) (t : Nat) (x : Torrent) : (s.setTorrent t x).torrent t = x :=
  update_self ..

theorem pause_true (h : pausesGracefully s t true = true) : pause s t true =
    (torrentConnections s t).foldl (gracefulStep t) (s.setTorrent t ((s.torrent t).afterPause true)) := by
  unfold pausesGracefully at h
  rw [Bool.true_and, Bool.and_eq_true] at h
  have hrun : doPause (s.setTorrent t ((s.torrent t).afterPause true)) t =
      (torrentConnections s t).foldl (gracefulStep t) (s.setTorrent t ((s.torrent t).afterPause true)) := by
    unfold doPause
    rw [if_neg (by simp [Session.isPaused, Torrent.afterPause]), if_neg (by simp [Torrent.afterPause])]
    rfl
  unfold pause
  rw [if_neg (by simp [h.1]), h.2, Bool.true_or, if_pos rfl, hrun]

theorem Ledger.doPause_false (h : Ledger s) (hgrace : (s.torrent t).gracefulPauseMode = false) :
    Kept s (doPause s t) := by
  unfold doPause
  split
  · exact ⟨h, rfl⟩
  rw [hgrace, if_pos Bool.not_false]
  refine foldl_apart (fun _ => True)
    (fun s' c hs' hc _ => ⟨⟨hs'.1.disconnect hc, (hs'.1.excess_disconnect hc).trans hs'.2⟩, ?_⟩) _ ⟨h, rfl⟩
    (h.nodup.filter _) fun c hc => ⟨(mem_torrentConnections.mp hc).1, trivial⟩
  exact (disconnect_spec hs'.1.toSound hc).1.apart hs'.1.nodup

theorem Ledger.pause_false (h : Ledger s) {graceful : Bool} (hp : pausesGracefully s t graceful = false) :
    Kept s (pause s t graceful) := by
  have h1 : Ledger (s.setTorrent t ((s.torrent t).afterPause graceful)) := h.setTorrent rfl
  unfold pause
  split
  · exact ⟨h, rfl⟩
  rename_i hallow
  split
  · rename_i hcond
    have hgr : graceful = false := by
      rw [eq_false_iff]
      rintro rfl
      unfold pausesGracefully at hp
      simp only [not_eq_true', not_eq_false] at hallow
      rw [hallow, Bool.true_and, Bool.true_and] at hp
      rw [hp] at hcond
      exact absurd hcond (by simp)
    subst hgr
    exact h1.doPause_false (by rw [Session.torrent_setTorrent]; rfl)
  · exact ⟨h1, rfl⟩

/-! ## Runs -/

/-- **The accounts**: the session counts the connections that are not choked and not exempt, every torrent counts its
own (in a field of 24 bits), and only unchoked peers are optimistically unchoked. -/
structure Accounts (s : Session) : Prop where
  unchoked : s.numUnchoked = numCounted s
  uploads : ∀ t, (s.torrent t).numUploads.toNat = numCountedOf s t % 2 ^ 24
  optimistic : ∀ c pi, (s.conn c).peer = some pi → pi.optimisticallyUnchoked = true → (s.conn c).choked = false

theorem Sound.accounts_iff (h : Sound s) : Accounts s ↔ Ledger s ∧ excess s = 0 := by
  constructor
  · intro ha
    refine ⟨⟨h, fun t => BitVec.eq_of_toNat_eq ?_⟩, ?_⟩
    · rw [BitVec.toNat_ofNat, ha.uploads t]
    · rw [excess, ha.unchoked, Int.sub_self]
  rintro ⟨hl, he⟩
  refine ⟨by unfold excess at he; omega, fun t => ?_, fun c pi hpi hopt => ?_⟩
  · rw [hl.uploads t, BitVec.toNat_ofNat]
  · exact ((h.sane c (h.mem hpi)).optimistic pi hpi hopt).1

theorem Ledger.connect (h : Ledger s) (hc : c ∉ s.connections) (exempt : Bool) :
    Kept s (step s (.connect c exempt)) := by
  have hconn : ∀ d ∈ s.connections, (step s (.connect c exempt)).conn d = s.conn d := fun d hd => by
    have hne : d ≠ c := fun he => hc (he ▸ hd)
    exact update_of_ne hne ..
  have hself : (step s (.connect c exempt)).conn c = ⟨none, exempt, true, false, false, true, 0, 0⟩ :=
    update_self ..
  have hcount : ∀ p : Connection → Bool, p ⟨none, exempt, true, false, false, true, 0, 0⟩ = false →
      ((step s (.connect c exempt)).connections.countP fun d => p ((step s (.connect c exempt)).conn d)) =
        s.connections.countP fun d => p (s.conn d) := by
    intro p hp
    change ((c :: s.connections).countP fun d => p ((step s (.connect c exempt)).conn d)) = _
    rw [countP_cons_of_neg (by rw [hself, hp]; exact Bool.false_ne_true)]
    exact countP_congr fun d hd => by rw [hconn d hd]
  refine ⟨⟨⟨nodup_cons.mpr ⟨hc, h.nodup⟩, fun d hd => ?_, fun d hd => ?_⟩, fun t => ?_⟩, ?_⟩
  · rcases mem_cons.mp hd with rfl | hd
    · rw [hself]
      exact ⟨rfl, fun hch => Bool.noConfusion hch, fun pi hpi => absurd hpi (by simp)⟩
    · rw [hconn d hd]
      exact h.sane d hd
  · obtain ⟨hne, hd⟩ : d ≠ c ∧ d ∉ s.connections := by simpa [step] using hd
    rw [← h.closed d hd]
    exact congrArg peer (s.conn_setConn_of_ne hne _)
  · rw [numCountedOf, hcount (fun x => x.counted && x.isOf t) rfl]
    exact h.uploads t
  · rw [excess, numCounted, hcount (·.counted) rfl]
    rfl

theorem Ledger.attach (h : Ledger s) (hc : c ∈ s.connections) (hpeer : (s.conn c).peer = none) (t : Nat) (web : Bool) :
    Kept s (step s (.attach c t web)) := by
  have hch : (s.conn c).choked = true := by
    by_contra hch
    obtain ⟨pi, hpi, -⟩ := (h.sane c hc).unchoked (by simpa using hch)
    rw [hpeer] at hpi
    exact absurd hpi (by simp)
  have hold : (s.conn c).counted = false := by rw [counted, hch]; rfl
  have hnew : ({ s.conn c with peer := some ⟨t, web, false⟩ } : Connection).counted = false := hold
  refine h.setAlike hc ⟨(h.sane c hc).isOpen, fun h => ?_, fun pi hpi hopt => ?_⟩ rfl fun t' => ?_
  · exact absurd (hch.symm.trans h) (by simp)
  · obtain rfl := Option.some.inj hpi
    exact absurd hopt (by simp)
  · rw [hold, hnew, Bool.false_and, Bool.false_and]

theorem Ledger.connectionStatus (h : Ledger s) (hc : c ∈ s.connections) (connecting : Bool) (shareDiff out : Int) :
    Kept s (step s (.connectionStatus c connecting shareDiff out)) := by
  have hx := h.sane c hc
  exact h.setAlike hc ⟨hx.isOpen, hx.unchoked, hx.optimistic⟩ rfl fun _ => rfl

/-- The calls that come about: connections are new once, get a torrent once, and are closed while they are open; web
seeds send no messages about interest; the sorts are permutations. -/
def Allowed (s : Session) : Call → Prop
  | .connect c _ => c ∉ s.connections
  | .attach c _ _ => c ∈ s.connections ∧ (s.conn c).peer = none
  | .interested c _ => ∃ pi, (s.conn c).peer = some pi ∧ pi.webSeed = false
  | .notInterested c => ∃ pi, (s.conn c).peer = some pi
  | .recalculateUnchokeSlots m => (∀ l, (m.sort l).Perm l) ∧ ∀ l, (m.sortByUpload l).Perm l
  | .recalculateOptimisticUnchokeSlots order => ∀ l, (order l).Perm l
  | .disconnect c => c ∈ s.connections ∨ (s.conn c).disconnecting = true
  | .connectionStatus c _ _ _ => c ∈ s.connections
  | _ => True

/-- The two cases in which the accounts break: a torrent is paused gracefully with an exempt connection that is unchoked
and has outstanding bytes, or there is a recount while a connection of a paused torrent takes a slot. -/
def Balanced (s : Session) : Call → Prop
  | .pause t graceful => pausesGracefully s t graceful = true → ∀ c ∈ s.connections, (s.conn c).isOf t = true →
      (s.conn c).miscounted = false
  | .recalculateUnchokeSlots _ => ∀ c ∈ s.connections, ∀ pi, (s.conn c).peer = some pi → (s.conn c).counted = true →
      s.isPaused pi.torrent = false
  | _ => True

theorem pause_accounts (h : Ledger s) (he : excess s = 0) (t : Nat) (graceful : Bool) :
    Sound (pause s t graceful) ∧ (Accounts (pause s t graceful) ↔ Balanced s (.pause t graceful)) := by
  cases hp : pausesGracefully s t graceful with
  | false =>
    obtain ⟨hl, he'⟩ := h.pause_false hp
    refine ⟨hl.toSound, iff_of_true (hl.toSound.accounts_iff.mpr ⟨hl, he'.trans he⟩) fun hp' => ?_⟩
    exact absurd (hp.symm.trans hp') Bool.false_ne_true
  | true =>
    obtain rfl : graceful = true := by
      unfold pausesGracefully at hp
      rw [Bool.and_eq_true, Bool.and_eq_true] at hp
      exact hp.1.1
    have h1 : Ledger (s.setTorrent t ((s.torrent t).afterPause true)) := h.setTorrent rfl
    have hmem : ∀ c ∈ torrentConnections s t, c ∈ s.connections := fun c hc => (mem_torrentConnections.mp hc).1
    rw [pause_true hp]
    obtain ⟨hs, hex⟩ := gracefulLoop_excess (torrentConnections s t) h1.toSound (h.nodup.filter _) hmem
    refine ⟨hs, fun ha _ c hc hof => ?_, fun hb => hs.accounts_iff.mpr ?_⟩
    · have hzero := hex.symm.trans (hs.accounts_iff.mp ha).2
      have : excess (s.setTorrent t ((s.torrent t).afterPause true)) = 0 := he
      rw [this] at hzero
      have hnone : (torrentConnections s t).countP (fun c => (s.conn c).miscounted) = 0 := by
        change (0 : Int) - ((torrentConnections s t).countP fun c => (s.conn c).miscounted : Nat) = 0 at hzero
        omega
      have := countP_eq_zero.mp hnone c (mem_torrentConnections.mpr ⟨hc, hof⟩)
      exact eq_false_iff.mpr this
    have hgood : ∀ c ∈ torrentConnections s t, (s.conn c).isOf t = true ∧ (s.conn c).miscounted = false := by
      intro c hc
      obtain ⟨hc, hof⟩ := mem_torrentConnections.mp hc
      exact ⟨hof, hb hp c hc hof⟩
    refine ⟨?_, hex.trans ?_⟩
    · refine foldl_apart (fun x => x.isOf t = true ∧ x.miscounted = false)
        (fun s' c hs' hc hg => ⟨hs'.gracefulStep hg.1 hg.2, (gracefulStep_excess hs'.toSound hc).2.1⟩) _ h1
        (h.nodup.filter _) fun c hc => ⟨hmem c hc, hgood c hc⟩
    have hnone : (torrentConnections s t).countP (fun c => (s.conn c).miscounted) = 0 :=
      countP_eq_zero.mpr fun c hc => by rw [(hgood c hc).2]; exact Bool.false_ne_true
    change excess s - ((torrentConnections s t).countP fun c => (s.conn c).miscounted : Nat) = 0
    rw [he, hnone]
    rfl

theorem recalculate_accounts (h : Ledger s) (hsort : ∀ l, (m.sort l).Perm l)
    (hup : ∀ l, (m.sortByUpload l).Perm l) : Sound (recalculateUnchokeSlots s m) ∧
      (Accounts (recalculateUnchokeSlots s m) ↔ Balanced s (.recalculateUnchokeSlots m)) := by
  obtain ⟨hl, he⟩ := recalculateUnchokeSlots_spec h hsort hup
  refine ⟨hl.toSound, ?_⟩
  have hzero : excess (recalculateUnchokeSlots s m) = 0 ↔
      s.connections.countP (fun c => skipped s (s.conn c) && (s.conn c).counted) = 0 := by
    rw [he]
    omega
  rw [hl.toSound.accounts_iff, and_iff_right hl, hzero, countP_eq_zero]
  refine forall₂_congr fun c hc => ?_
  rw [Bool.and_eq_true]
  constructor
  · intro hnot pi hpi hcount
    rw [eq_false_iff]
    intro hpaused
    refine hnot ⟨?_, hcount⟩
    simp [skipped, hpi, hpaused]
  · rintro hgood ⟨hskip, hcount⟩
    obtain ⟨hex, pi, hpi, hweb⟩ := (h.sane c hc).regular hcount
    simp [skipped, hpi, hex, hweb, hgood pi hpi hcount] at hskip

theorem step_spec (hs : Sound s) (ha : Accounts s) (a : Call) (hok : Allowed s a) :
    Sound (step s a) ∧ (Accounts (step s a) ↔ Balanced s a) := by
  obtain ⟨h, he⟩ := hs.accounts_iff.mp ha
  have hkeep : ∀ {s' : Session}, Kept s s' → Sound s' ∧ (Accounts s' ↔ True) := fun h' =>
    ⟨h'.1.toSound, iff_true_intro (h'.1.toSound.accounts_iff.mpr ⟨h'.1, h'.2.trans he⟩)⟩
  cases a with
  | connect c exempt => exact hkeep (h.connect hok exempt)
  | attach c t web => exact hkeep (h.attach hok.1 hok.2 t web)
  | interested c redundant =>
    obtain ⟨pi, hpi, hweb⟩ := hok
    rw [step, withTorrent, hpi]
    exact hkeep (h.incomingInterested hpi hweb redundant)
  | notInterested =>
    obtain ⟨pi, hpi⟩ := hok
    rw [step, withTorrent, hpi]
    exact hkeep (h.incomingNotInterested hpi)
  | recalculateUnchokeSlots => exact recalculate_accounts h hok.1 hok.2
  | recalculateOptimisticUnchokeSlots => exact hkeep (h.recalculateOptimistic hok)
  | disconnect c =>
    rcases hok with hc | hclosing
    · exact hkeep ⟨h.disconnect hc, h.excess_disconnect hc⟩
    · have : step s (.disconnect c) = s := if_pos hclosing
      rw [this]
      exact hkeep ⟨h, rfl⟩
  | pause t graceful => exact pause_accounts h he t graceful
  | resume t | torrentStatus t maxUploads ratioIsZero isFinished isSeed validMetadata ready =>
    exact hkeep ⟨h.setTorrent rfl, rfl⟩
  | connectionStatus c connecting shareDiff out => exact hkeep (h.connectionStatus hok connecting shareDiff out)

/-- **Upload slots.** A run keeps the accounts exactly if all its calls are balanced. -/
theorem upload_slots_iff (hs : Sound s) (ha : Accounts s) (calls : List Call) (hl : Legal step Allowed s calls) :
    Always step Accounts s calls ↔ Legal step Balanced s calls :=
  always_iff_legal (fun _ a hs ha hok => (step_spec hs ha a hok).1) (fun _ a hs ha hok => (step_spec hs ha a hok).2)
    hs ha hl

def quiet : Session where
  settings := ⟨.fixedSlotsChoker, 8, 0⟩
  paused := false
  connections := []
  conn := fun _ => ⟨none, false, true, false, true, false, 0, 0⟩
  torrent := fun _ => ⟨0, BitVec.allOnes 24, true, false, true, false, false, true, true⟩
  numUnchoked := 0
  allowedUploadSlots := 8

theorem quiet_sound : Sound quiet := ⟨nodup_nil, fun _ hc => absurd hc not_mem_nil, fun _ _ => rfl⟩

theorem quiet_accounts : Accounts quiet := ⟨rfl, fun _ => rfl, fun _ _ hpi => absurd hpi (by simp [quiet])⟩

def noRates : Measurements := ⟨id, id, fun _ => 0, fun _ => 0, 0, false, false, 0, 0, 0⟩

/-- The connections 0 and 1 of a torrent become interested, and the first one is exempt. -/
def twoPeers : List Call :=
  [.connect 0 true, .attach 0 7 false, .connectionStatus 0 false 0 16384, .interested 0 false,
    .connect 1 false, .attach 1 7 false, .connectionStatus 1 false 0 16384, .interested 1 false]

theorem twoPeers_allowed : Legal step Allowed quiet twoPeers :=
  ⟨not_mem_nil, ⟨by decide, rfl⟩, mem_cons_self, ⟨⟨7, false, false⟩, rfl, rfl⟩,
    show (1 : Nat) ∉ [0] by decide, ⟨by decide, rfl⟩, mem_cons_self, ⟨⟨7, false, false⟩, rfl, rfl⟩, trivial⟩

theorem upload_slots_iff_twoPeers : Always step Accounts quiet twoPeers ↔ Legal step Balanced quiet twoPeers :=
  upload_slots_iff quiet_sound quiet_accounts twoPeers twoPeers_allowed

/-- The torrent is paused gracefully. -/
def exemptRun : List Call := twoPeers ++ [.pause 7 true]

/-- Only connection 1 is there, and it becomes interested again after the torrent was paused gracefully. -/
def lateRun : List Call :=
  twoPeers.drop 4 ++ [.pause 7 true, .interested 1 false, .recalculateUnchokeSlots noRates]

theorem exemptRun_allowed : Legal step Allowed quiet exemptRun := legal_append.mpr ⟨twoPeers_allowed, trivial, trivial⟩

theorem lateRun_allowed : Legal step Allowed quiet lateRun :=
  ⟨not_mem_nil, ⟨by decide, rfl⟩, mem_cons_self, ⟨⟨7, false, false⟩, rfl, rfl⟩, trivial,
    ⟨⟨7, false, false⟩, rfl, rfl⟩, ⟨List.Perm.refl, List.Perm.refl⟩, trivial⟩

/-- In the first run the exempt connection is subtracted as well, and the counter of the torrent wraps. In the second
one the recount does not count the connection that is unchoked. -/
theorem paused_torrent_miscounted : (Legal step Allowed quiet exemptRun ∧ Legal step Allowed quiet lateRun) ∧
    ((run step quiet exemptRun).numUnchoked = -1 ∧ numCounted (run step quiet exemptRun) = 0 ∧
      ((run step quiet exemptRun).torrent 7).numUploads.toNat = 2 ^ 24 - 1) ∧
    (run step quiet lateRun).numUnchoked = 0 ∧ numCounted (run step quiet lateRun) = 1 :=
  ⟨⟨exemptRun_allowed, lateRun_allowed⟩, ⟨rfl, rfl, rfl⟩, rfl, rfl⟩

end Libtorrent.Choker
