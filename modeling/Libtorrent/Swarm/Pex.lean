import Libtorrent.Lib.Run

/-!
# `ut_pex.cpp`: peer exchange

Once a minute `ut_pex_plugin::tick` writes a message from the connections of the torrent and the endpoints that it saw a
minute before. A `std::set` is a list. What is added is written with the port that an incoming peer listens on, what is
dropped with the port of its connection, and when a message is full the loop ends before it has seen who is left.
-/

namespace Libtorrent.Pex

open Run List

variable {A : Type} [DecidableEq A]

structure Connection (A : Type) where
  remote : A × Nat
  outgoing : Bool
  receivedListenPort : Bool
  connecting : Bool
  inHandshake : Bool
  /-- `type() == bittorrent_connection`. -/
  bittorrent : Bool
  /-- `peer_info_struct()->port`, 0 if there is none. -/
  port : Nat

def sendPeer (p : Connection A) : Bool :=
  (p.outgoing || p.receivedListenPort) && !p.connecting && !p.inHandshake

/-- The endpoint that is written for a new peer. -/
def Connection.advertised (p : Connection A) : A × Nat :=
  if !p.outgoing ∧ 0 < p.port then (p.remote.1, p.port) else p.remote

def maxPeerEntries : Nat := 100

/-- The loop of `tick`: `m_old_peers`, `dropped` and what is added. -/
def tickLoop : List (Connection A) → List (A × Nat) → List (A × Nat) → List (A × Nat) →
    List (A × Nat) × List (A × Nat) × List (A × Nat)
  | [], old, dropped, added => (old, dropped, added)
  | p :: rest, old, dropped, added =>
    if !sendPeer p then tickLoop rest old dropped added
    else
      let old := old.insert p.remote
      if p.remote ∈ dropped then tickLoop rest old (dropped.filter (· ≠ p.remote)) added
      else if added.length ≥ maxPeerEntries then (old, dropped, added)
      else tickLoop rest old dropped (if p.bittorrent then added ++ [p.advertised] else added)

structure Message (A : Type) where
  added : List (A × Nat)
  dropped : List (A × Nat)
  added6 : List (A × Nat)
  dropped6 : List (A × Nat)

/-- The plugin, and a receiver of all its messages. -/
structure State (A : Type) where
  oldPeers : List (A × Nat) := []
  message : Message A := ⟨[], [], [], []⟩
  /-- The connections at the last round. -/
  peers : List (Connection A) := []
  known : List (A × Nat) := []

def Message.apply (m : Message A) (known : List (A × Nat)) : List (A × Nat) :=
  known.filter (· ∉ m.dropped ++ m.dropped6) ++ (m.added ++ m.added6)

variable (isV4 : A → Bool)

def tick (s : State A) (peers : List (Connection A)) : State A :=
  let (oldPeers, dropped, added) := tickLoop peers [] s.oldPeers []
  let message : Message A := ⟨added.filter (isV4 ·.1), dropped.filter (isV4 ·.1), added.filter (!isV4 ·.1),
    dropped.filter (!isV4 ·.1)⟩
  { oldPeers, message, peers, known := message.apply s.known }

def sent (peers : List (Connection A)) : List (A × Nat) := (peers.filter sendPeer).map (·.remote)

/-- The receiver knows those who are connected, and none of them was reported as dropped. -/
def Faithful (s : State A) : Prop :=
  (∀ e, e ∈ s.known ↔ e ∈ sent s.peers) ∧ ∀ e ∈ sent s.peers, e ∉ s.message.dropped ++ s.message.dropped6

/-- The peers that are sent have different endpoints, at most 100 of which were not there a minute ago, and listen on
the ports of their connections. -/
def Plain (s : State A) (peers : List (Connection A)) : Prop :=
  (sent peers).Nodup ∧ ((sent peers).filter (· ∉ s.oldPeers)).length ≤ maxPeerEntries ∧
    ∀ p ∈ peers, sendPeer p = true → p.bittorrent = true ∧ p.advertised = p.remote

omit [DecidableEq A] in
theorem mem_split (f : A × Nat → Bool) (l : List (A × Nat)) (e : A × Nat) :
    e ∈ l.filter f ++ l.filter (!f ·) ↔ e ∈ l := by
  cases h : f e <;> simp [h]

theorem tickLoop_spec {peers : List (Connection A)} {old dropped added : List (A × Nat)} (hnodup : (sent peers).Nodup)
    (hroom : added.length + ((sent peers).filter (· ∉ dropped)).length ≤ maxPeerEntries)
    (hp : ∀ p ∈ peers, sendPeer p = true → p.bittorrent = true ∧ p.advertised = p.remote) (e : A × Nat) :
    (e ∈ (tickLoop peers old dropped added).1 ↔ e ∈ old ∨ e ∈ sent peers) ∧
      (e ∈ (tickLoop peers old dropped added).2.1 ↔ e ∈ dropped ∧ e ∉ sent peers) ∧
      (e ∈ (tickLoop peers old dropped added).2.2 → e ∈ added ∨ e ∈ sent peers) ∧
      (e ∈ added ∨ e ∈ sent peers ∧ e ∉ dropped → e ∈ (tickLoop peers old dropped added).2.2) := by
  induction peers generalizing old dropped added with
  | nil => simp [tickLoop, sent]
  | cons p rest ih =>
    have hrest : ∀ q ∈ rest, sendPeer q = true → q.bittorrent = true ∧ q.advertised = q.remote :=
      fun q hq => hp q (mem_cons_of_mem p hq)
    rw [tickLoop]
    cases hs : sendPeer p with
    | false =>
      have hsent : sent (p :: rest) = sent rest := by simp [sent, hs]
      rw [hsent] at hnodup hroom ⊢
      exact ih hnodup hroom hrest
    | true =>
      obtain ⟨hbt, had⟩ := hp p mem_cons_self hs
      have hsent : sent (p :: rest) = p.remote :: sent rest := by simp [sent, hs]
      rw [hsent] at hnodup hroom ⊢
      obtain ⟨hnew, hnodup⟩ := nodup_cons.mp hnodup
      simp only [hbt, had, Bool.not_true, Bool.false_eq_true, if_false, if_true]
      by_cases hd : p.remote ∈ dropped
      · rw [filter_cons_of_neg (by simpa using hd)] at hroom
        have hsame : (sent rest).filter (· ∉ dropped.filter (· ≠ p.remote)) = (sent rest).filter (· ∉ dropped) := by
          refine filter_congr fun x hx => ?_
          have hne : x ≠ p.remote := fun he => hnew (he ▸ hx)
          simp [hne]
        rw [if_pos hd]
        obtain ⟨h1, h2, h3, h4⟩ :=
          @ih (old.insert p.remote) (dropped.filter (· ≠ p.remote)) added hnodup (hsame ▸ hroom)
          hrest
        simp only [mem_insert_iff, mem_filter, decide_eq_true_eq] at h1 h2 h4
        grind
      · rw [filter_cons_of_pos (by simpa using hd), length_cons] at hroom
        rw [if_neg hd, if_neg (show ¬ added.length ≥ maxPeerEntries by omega)]
        obtain ⟨h1, h2, h3, h4⟩ := @ih (old.insert p.remote) dropped (added ++ [p.remote]) hnodup
          (by rw [length_append, length_singleton]; omega) hrest
        simp only [mem_insert_iff, mem_append, mem_singleton] at h1 h3 h4
        grind

/-- **Peer exchange**: as long as not more than 100 peers are new and all listen on the ports of their connections, a
receiver knows exactly the endpoints of those who are connected. -/
theorem pex_faithful (rounds : List (List (Connection A))) (hplain : Legal (tick isV4) Plain {} rounds) :
    Always (tick isV4) Faithful {} rounds := by
  have hstart : Faithful ({} : State A) := by simp [Faithful, sent]
  refine (always_of_step (P := fun s => Faithful s ∧ ∀ e, e ∈ s.oldPeers ↔ e ∈ sent s.peers) ?_
    ⟨hstart, by simp [sent]⟩ hplain).mono fun _ h => h.1
  rintro s peers ⟨⟨hknown, -⟩, hold⟩ ⟨hnodup, hroom, hp⟩
  have hloop := @tickLoop_spec A _ peers [] s.oldPeers [] hnodup (by simpa using hroom) hp
  simp only [tick, Faithful, Message.apply]
  generalize tickLoop peers [] s.oldPeers [] = r at hloop
  obtain ⟨old, dropped, added⟩ := r
  simp only [not_mem_nil, false_or] at hloop
  have hdropped := mem_split (isV4 ·.1) dropped
  have hadded := mem_split (isV4 ·.1) added
  refine ⟨⟨fun e => ?_, fun e he => ?_⟩, fun e => (hloop e).1⟩
  · obtain ⟨-, h2, h3, h4⟩ := hloop e
    rw [mem_append, hadded, mem_filter, decide_eq_true_eq, hdropped, h2, hknown, ← hold]
    tauto
  · rw [hdropped, (hloop e).2.1]
    tauto

/-- A peer that we have connected to. -/
def dialled (n : Nat) : Connection Nat := ⟨(n, 6881), true, false, false, false, true, 6881⟩

theorem pex_faithful_dialled : Always (tick fun _ => true) Faithful {} [[dialled 0, dialled 1], [dialled 1]] := by
  refine pex_faithful _ _ ⟨⟨by decide, by decide, ?_⟩, ⟨by decide, by decide, ?_⟩, trivial⟩ <;>
    simp [dialled, Connection.advertised]

/-- A peer that has connected to us and listens on another port. -/
def caller (n : Nat) : Connection Nat := ⟨(n, 50000), false, true, false, false, true, 6881⟩

/-- A caller that has left stays known; of 101 new peers the last one is not reported, not even later, and a connected
peer behind them is reported as dropped. -/
theorem pex_unfaithful : (run (tick fun _ => true) {} [[caller 0], []]).known = [(0, 6881)] ∧
      (run (tick fun _ => true) {} [[dialled 200], (range 101).map dialled ++ [dialled 200]]).message.dropped =
        [(200, 6881)] ∧
      (100, 6881) ∉ (run (tick fun _ => true) {} [(range 101).map dialled, (range 101).map dialled]).known := by
  decide +kernel

end Libtorrent.Pex
