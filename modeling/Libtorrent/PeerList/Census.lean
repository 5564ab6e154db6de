import Mathlib.Data.List.Pairwise
import Libtorrent.Lib.SortedList
import Libtorrent.PeerList.Policy

/-!
# The counts of the peer list

What the counters of `policy` count, and the order of the list (`Census`); that every connection which knows a peer is
the one that the peer knows (`Linked`). Three kinds of changes keep them: writing to a peer (`Census.write`), erasing
one (`erasePeer_spec`) and inserting one (`Census.insert`).
-/

namespace Libtorrent.PeerList

open SortedList Function List

variable {A : Type} {cfg : Config A} {s s' : Policy A} {p q : Ptr} {c : Conn} {x : Peer A} {i : Int}

/-! ## Candidates -/

variable (cfg) in
theorem not_candidate_of_connection (h : x.connection.isSome = true) (finished : Bool) :
    isConnectCandidate cfg x finished = false := by
  simp [isConnectCandidate, h]

theorem not_candidate_of_webSeed (h : x.webSeed = true) (finished : Bool) :
    isConnectCandidate cfg x finished = false := by
  simp [isConnectCandidate, h]

theorem not_candidate_of_banned (h : x.banned = true) (finished : Bool) :
    isConnectCandidate cfg x finished = false := by
  simp [isConnectCandidate, h]

variable (cfg) in
theorem not_candidate_of_not_connectable (h : x.connectable = false) (finished : Bool) :
    isConnectCandidate cfg x finished = false := by
  simp [isConnectCandidate, h]

theorem connection_of_candidate {finished : Bool} (h : isConnectCandidate cfg x finished = true) :
    x.connection = none := by
  cases hx : x.connection with
  | none => rfl
  | some c =>
    rw [not_candidate_of_connection _ (by rw [hx]; rfl)] at h
    exact absurd h (by decide)

/-! ## The invariants -/

/-- What tells the entries of the list apart. -/
def key (cfg : Config A) (x : Peer A) : A × Nat :=
  (x.address, if cfg.allowMultipleConnectionsPerIp then x.port else 0)

def InUse (s : Policy A) (p : Ptr) : Prop := p ∈ s.peers ∨ p < s.next ∧ (s.heap p).webSeed = true

structure Linked (s : Policy A) : Prop where
  link : ∀ c p, (s.conns c).peerInfo = some p →
    InUse s p ∧ (s.heap p).connection = some c ∧ (s.conns c).disconnecting = false
  webSeeds : ∀ p, p < s.next → (s.heap p).webSeed = true → (s.heap p).connectable = true

theorem Linked.eq_of_link (hl : Linked s) {c d : Conn} (hc : (s.conns c).peerInfo = some p)
    (hd : (s.heap p).connection = some d) : c = d :=
  Option.some.inj ((hl.link c p hc).2.1.symm.trans hd)

theorem Linked.free_of_none (hl : Linked s) (hnone : (s.heap p).connection = none) (c : Conn) :
    (s.conns c).peerInfo ≠ some p := by
  intro h
  have := (hl.link c p h).2.1
  rw [hnone] at this
  exact absurd this (by simp)

/-! ## Erasing a peer -/

theorem peerAt_eq_some (h0 : 0 ≤ i) (hi : i < s.size) : ∃ p, s.peerAt i = some p := by
  refine ⟨s.peers.get ⟨i.toNat, ?_⟩, ?_⟩
  · unfold Policy.size at hi
    omega
  · rw [Policy.peerAt, if_pos h0]
    exact List.getElem?_eq_getElem _

theorem getElem_of_peerAt (h : s.peerAt i = some p) : 0 ≤ i ∧ s.peers[i.toNat]? = some p := by
  unfold Policy.peerAt at h
  split at h
  · exact ⟨by assumption, h⟩
  · exact absurd h (by simp)

theorem lt_size_of_peerAt (h : s.peerAt i = some p) : i < s.size := by
  obtain ⟨h0, hi⟩ := getElem_of_peerAt h
  obtain ⟨hi, -⟩ := List.getElem?_eq_some_iff.mp hi
  unfold Policy.size
  omega

/-- The list after the peer `p` at index `i` was erased; the peers and connections stay as they are. -/
structure Erased (s s' : Policy A) (i : Int) (p : Ptr) : Prop where
  peers : s'.peers = s.peers.eraseIdx i.toNat
  at_index : s.peerAt i = some p
  heap : s'.heap = s.heap
  conns : s'.conns = s.conns
  next : s'.next = s.next
  finished : s'.finished = s.finished
  lockedPeer : s'.lockedPeer = s.lockedPeer

theorem Erased.size (he : Erased s s' i p) : s'.size = s.size - 1 := by
  have hlt := lt_size_of_peerAt he.at_index
  have h0 := (getElem_of_peerAt he.at_index).1
  unfold Policy.size at *
  rw [he.peers, length_eraseIdx_of_lt (by omega)]
  omega

theorem Erased.peerAt (he : Erased s s' i p) {j : Int} (hne : j ≠ i) : s'.peerAt (behindErased j i) = s.peerAt j := by
  have h0 := (getElem_of_peerAt he.at_index).1
  unfold behindErased Policy.peerAt
  rw [he.peers]
  split
  · rename_i hgt
    rw [if_pos (by omega), if_pos (by omega), List.getElem?_eraseIdx_of_ge (by omega)]
    congr 1
    omega
  · split
    · rw [List.getElem?_eraseIdx_of_lt (by omega)]
    · rfl

/-! ## Changes of a count -/

open Option Bool

variable (cfg) in
theorem recount_eq (s : Policy A) (old new : Peer A) :
    recount cfg s old new + (isConnectCandidate cfg old s.finished).toNat =
      s.numConnectCandidates + (isConnectCandidate cfg new s.finished).toNat := by
  unfold recount
  cases isConnectCandidate cfg old s.finished <;> cases isConnectCandidate cfg new s.finished
  · rfl
  · simp
  · simp only [ne_eq, true_eq_false, not_false_eq_true, if_true, toNat_true, toNat_false]
    omega
  · rfl

theorem countOut (s : Policy A) (h : isConnectCandidate cfg x s.finished = false) (old : Peer A) :
    (if isConnectCandidate cfg old s.finished then s.numConnectCandidates - 1 else s.numConnectCandidates) +
        (isConnectCandidate cfg old s.finished).toNat =
      s.numConnectCandidates + (isConnectCandidate cfg x s.finished).toNat := by
  rw [h]
  cases isConnectCandidate cfg old s.finished <;> simp

/-! ## Changes of the links -/

theorem Linked.write (hl : Linked s) (hcon : x.connection = (s.heap p).connection)
    (hweb : x.webSeed = (s.heap p).webSeed) (hconn : (s.heap p).connectable = true → x.connectable = true)
    (hpeers : s'.peers = s.peers) (hheap : s'.heap = update s.heap p x) (hnext : s'.next = s.next)
    (hconns : s'.conns = s.conns) : Linked s' := by
  have hread : ∀ q, (s'.heap q).connection = (s.heap q).connection ∧ (s'.heap q).webSeed = (s.heap q).webSeed ∧
      ((s.heap q).connectable = true → (s'.heap q).connectable = true) := by
    intro q
    rw [hheap]
    rcases eq_or_ne q p with rfl | hq
    · rw [update_self]
      exact ⟨hcon, hweb, hconn⟩
    · rw [update_of_ne hq]
      exact ⟨rfl, rfl, fun h => h⟩
  refine ⟨fun c q hq => ?_, fun q hq hw => ?_⟩
  · rw [hconns] at hq ⊢
    obtain ⟨hin, hc, hd⟩ := hl.link c q hq
    refine ⟨?_, (hread q).1.trans hc, hd⟩
    unfold InUse
    rw [hpeers, hnext, (hread q).2.1]
    exact hin
  · rw [hnext] at hq
    exact (hread q).2.2 (hl.webSeeds q hq ((hread q).2.1 ▸ hw))

theorem Linked.insert (hl : Linked s) (hlt : ∀ c p, (s.conns c).peerInfo = some p → p < s.next)
    (hweb : x.webSeed = true → x.connectable = true) (hpeers : ∀ q ∈ s.peers, q ∈ s'.peers)
    (hheap : s'.heap = update s.heap s.next x) (hnext : s'.next = s.next + 1) (hconns : s'.conns = s.conns) :
    Linked s' := by
  have hread : ∀ q, q < s.next → s'.heap q = s.heap q := by
    intro q hq
    rw [hheap, update_of_ne (Nat.ne_of_lt hq)]
  refine ⟨fun c q hq => ?_, fun q hq hw => ?_⟩
  · rw [hconns] at hq ⊢
    obtain ⟨hin, hc, hd⟩ := hl.link c q hq
    have hq' := hlt c q hq
    refine ⟨hin.imp (hpeers q) fun h => ?_, (hread q hq').symm ▸ hc, hd⟩
    rw [hnext, hread q hq']
    exact ⟨Nat.lt_succ_of_lt h.1, h.2⟩
  rw [hnext] at hq
  rcases Nat.lt_succ_iff_lt_or_eq.mp hq with hq | rfl
  · rw [hread q hq] at hw ⊢
    exact hl.webSeeds q hq hw
  · rw [hheap, update_self] at hw ⊢
    exact hweb hw

/-- The links after `p` got the connection `c`; no other connection knew `p`. -/
theorem Linked.attach (hl : Linked s) (hin : InUse s p) (hweb : x.webSeed = (s.heap p).webSeed)
    (hconn : x.connectable = (s.heap p).connectable) (hcon : x.connection = some c)
    (hfree : ∀ d, (s.conns d).peerInfo ≠ some p) (hpeers : s'.peers = s.peers)
    (hheap : s'.heap = update s.heap p x) (hnext : s'.next = s.next) (hlive : (s'.conns c).disconnecting = false)
    (hself : (s'.conns c).peerInfo = some p) (hothers : ∀ d, d ≠ c → s'.conns d = s.conns d) : Linked s' := by
  have hread : ∀ q, q ≠ p → s'.heap q = s.heap q := fun q hq => by rw [hheap, update_of_ne hq]
  have hxp : s'.heap p = x := by rw [hheap, update_self]
  have hwebs : ∀ q, (s'.heap q).webSeed = (s.heap q).webSeed := by
    intro q
    rcases eq_or_ne q p with rfl | hq
    · rw [hxp, hweb]
    · rw [hread q hq]
  have hinuse : ∀ q, InUse s q → InUse s' q := by
    intro q hq
    unfold InUse
    rw [hpeers, hnext, hwebs]
    exact hq
  refine ⟨fun d q hq => ?_, fun q hq hw => ?_⟩
  · rcases eq_or_ne d c with rfl | hd
    · obtain rfl : p = q := some.inj (hself.symm.trans hq)
      exact ⟨hinuse p hin, hxp ▸ hcon, hlive⟩
    · rw [hothers d hd] at hq ⊢
      have hqp : q ≠ p := by
        rintro rfl
        exact hfree d hq
      obtain ⟨hin', hcon', hdis'⟩ := hl.link d q hq
      exact ⟨hinuse q hin', (hread q hqp).symm ▸ hcon', hdis'⟩
  · rw [hnext] at hq
    rw [hwebs] at hw
    rcases eq_or_ne q p with rfl | hqp
    · rw [hxp, hconn]
      exact hl.webSeeds q hq hw
    · rw [hread q hqp]
      exact hl.webSeeds q hq hw

/-!
## Weeding the peer list

`erase_peers` and `find_connect_candidate` go round the list from some index and erase peers on the way. The indices
that they keep stay inside the list because no peer is visited twice (`Chosen`), and only peers without a connection are
erased (`Weeded`).
-/

variable {env : Env A} {s'' : Policy A} {j : Int}

/-- The index `j` of a peer without a connection that was visited on the way to `current`, or -1. There are `iterations`
visits to come, so that the way round from `j` to `current` is not longer than what is left of the list. -/
def Chosen (s : Policy A) (iterations : Nat) (current j : Int) : Prop :=
  j = -1 ∨ (∃ p, s.peerAt j = some p ∧ (s.heap p).connection = none) ∧
    (j < current ∧ current - j ≤ s.size - iterations ∨ current ≤ j ∧ current + s.size - j ≤ s.size - iterations)

variable {n : Nat} {r : Int}

theorem Chosen.wrap (h : Chosen s n i j) : Chosen s n (if i = s.size then 0 else i) j := by
  split
  · rename_i he
    rcases h with h | ⟨hp, hpos⟩
    · exact .inl h
    obtain ⟨p, hp, hnone⟩ := hp
    have := (getElem_of_peerAt hp).1
    have := lt_size_of_peerAt hp
    refine .inr ⟨⟨p, hp, hnone⟩, ?_⟩
    omega
  · exact h

theorem Chosen.advance (h : Chosen s (n + 1) i j) : Chosen s n (i + 1) j := by
  rcases h with h | ⟨hp, hpos⟩
  · exact .inl h
  refine .inr ⟨hp, ?_⟩
  obtain ⟨p, hp, -⟩ := hp
  have := lt_size_of_peerAt hp
  omega

theorem Chosen.current (hn : (n : Int) + 1 ≤ s.size) (hp : s.peerAt i = some p)
    (hnone : (s.heap p).connection = none) : Chosen s n (i + 1) i := by
  refine .inr ⟨⟨p, hp, hnone⟩, ?_⟩
  omega

theorem Chosen.erase (h : Chosen s (n + 1) i j) (hn : (n : Int) + 1 ≤ s.size) (he : Erased s s' i p) :
    Chosen s' n i (behindErased j i) := by
  have h0 := (getElem_of_peerAt he.at_index).1
  rcases h with rfl | ⟨⟨q, hq, hnone⟩, hpos⟩
  · exact .inl (if_neg (by omega))
  have hne : j ≠ i := by omega
  refine .inr ⟨⟨q, he.peerAt hne ▸ hq, he.heap ▸ hnone⟩, ?_⟩
  rw [he.size]
  unfold behindErased
  split <;> omega

theorem connection_of_isEraseCandidate (h : isEraseCandidate cfg s p = true) : (s.heap p).connection = none := by
  simp only [isEraseCandidate, and_eq_true, isNone_iff_eq_none] at h
  exact h.1.1.2

theorem connection_of_isForceEraseCandidate (h : isForceEraseCandidate s p = true) : (s.heap p).connection = none := by
  simp only [isForceEraseCandidate, and_eq_true, isNone_iff_eq_none] at h
  exact h.2

theorem replaces_spec (h : Chosen s n i j) (candidate : Bool) (better : Ptr → Ptr → Bool) (p : Ptr) :
    ∃ b, replaces s candidate better j p = some b ∧ (b = true → candidate = true) := by
  unfold replaces
  cases candidate with
  | false => exact ⟨false, rfl, fun h => h⟩
  | true =>
    rcases h with rfl | ⟨⟨q, hq, -⟩, -⟩
    · exact ⟨true, rfl, fun _ => rfl⟩
    have hj : j ≠ -1 := by
      have := (getElem_of_peerAt hq).1
      omega
    refine ⟨!better q p, ?_, fun _ => rfl⟩
    rw [hq, if_neg (by decide), if_neg hj]
    rfl

theorem Chosen.ite {b : Bool} {k : Int} (hj : Chosen s n i j) (hk : b = true → Chosen s n i k) :
    Chosen s n i (if b then k else j) := by
  cases b with
  | false => exact hj
  | true => exact hk rfl

theorem Chosen.setRobin (h : Chosen s n i j) : Chosen { s with roundRobin := r } n i j := h

variable (cfg env) in
theorem nextCandidate_spec (time : Int) (hn : (n : Int) + 1 ≤ s.size) (hj : Chosen s (n + 1) i j)
    (hp : s.peerAt i = some p) : ∃ k, nextCandidate cfg env time s j i p = some k ∧ Chosen s n (i + 1) k := by
  unfold nextCandidate
  split
  · exact ⟨j, rfl, hj.advance⟩
  rename_i hcand
  have hcur : Chosen s n (i + 1) i := .current hn hp (connection_of_candidate (by simpa using hcand))
  obtain ⟨better, hbetter⟩ : ∃ better, isBetter env s j p = some better := by
    unfold isBetter
    rcases hj with rfl | ⟨⟨q, hq, -⟩, -⟩
    · exact ⟨false, rfl⟩
    rw [hq]
    split
    · exact ⟨_, rfl⟩
    · exact ⟨_, rfl⟩
  rw [hbetter]
  refine ⟨_, rfl, ?_⟩
  dsimp only
  split
  · exact hj.advance
  · split
    · exact hj.advance
    · exact hcur

/-! ## The counts -/

variable [LinearOrder A]

/-- The order of the list and its counters. -/
structure Census (cfg : Config A) (s : Policy A) : Prop where
  sorted : s.peers.Pairwise fun p q => (s.heap p).address ≤ (s.heap q).address
  unique : s.peers.Pairwise fun p q => key cfg (s.heap p) ≠ key cfg (s.heap q)
  candidates : s.numConnectCandidates = s.peers.countP fun p => isConnectCandidate cfg (s.heap p) s.finished
  seeds : s.numSeeds = s.peers.countP fun p => (s.heap p).seed
  robin : 0 ≤ s.roundRobin ∧ s.roundRobin ≤ s.size
  regular : ∀ p ∈ s.peers, p < s.next ∧ (s.heap p).webSeed = false

section

variable (hc : Census cfg s)
include hc

theorem Census.nodup : s.peers.Nodup :=
  hc.unique.imp fun h he => h (by rw [he])

theorem InUse.lt_next (hp : InUse s p) : p < s.next :=
  hp.elim (fun h => (hc.regular p h).1) And.left

theorem InUse.webSeed_iff (hp : InUse s p) : (s.heap p).webSeed = false ↔ p ∈ s.peers := by
  constructor
  · intro hw
    refine hp.elim id fun h => ?_
    rw [hw] at h
    exact absurd h.2 (by decide)
  · exact fun h => (hc.regular p h).2

theorem Census.candidates_pos (hp : InUse s p)
    (h : isConnectCandidate cfg (s.heap p) s.finished = true) : 1 ≤ s.numConnectCandidates := by
  have hmem : p ∈ s.peers := by
    refine (hp.webSeed_iff hc).mp ?_
    cases hw : (s.heap p).webSeed with
    | false => rfl
    | true => exact absurd h (by simp [not_candidate_of_webSeed hw])
  rw [hc.candidates]
  have : 0 < s.peers.countP fun p => isConnectCandidate cfg (s.heap p) s.finished :=
    countP_pos_iff.mpr ⟨p, hmem, h⟩
  omega

theorem Census.candidates_nonneg : 0 ≤ s.numConnectCandidates := by
  rw [hc.candidates]
  omega

end

/-! ## Writing to a peer -/

theorem Census.write (hc : Census cfg s) (hp : InUse s p) (haddr : x.address = (s.heap p).address)
    (hweb : x.webSeed = (s.heap p).webSeed) (hkey : p ∈ s.peers → ∀ q ∈ s.peers, q ≠ p → key cfg x ≠ key cfg (s.heap q))
    (hpeers : s'.peers = s.peers) (hheap : s'.heap = update s.heap p x) (hrobin : s'.roundRobin = s.roundRobin)
    (hfin : s'.finished = s.finished) (hnext : s'.next = s.next)
    (hcand : s'.numConnectCandidates + (isConnectCandidate cfg (s.heap p) s.finished).toNat =
      s.numConnectCandidates + (isConnectCandidate cfg x s.finished).toNat)
    (hseeds : s'.numSeeds + (if x.webSeed then 0 else (s.heap p).seed.toNat : Nat) =
      s.numSeeds + (if x.webSeed then 0 else x.seed.toNat : Nat)) : Census cfg s' := by
  have hread : ∀ q, q ≠ p → s'.heap q = s.heap q := fun q hq => by rw [hheap, update_of_ne hq]
  have hself : s'.heap p = x := by rw [hheap, update_self]
  have haddr' : ∀ q, (s'.heap q).address = (s.heap q).address := by
    intro q
    rcases eq_or_ne q p with rfl | hq
    · rw [hself, haddr]
    · rw [hread q hq]
  refine ⟨?_, ?_, ?_, ?_, ?_, ?_⟩
  · rw [hpeers]
    exact hc.sorted.imp fun h => by rwa [haddr', haddr']
  · rw [hpeers]
    have hne := hc.nodup.and hc.unique
    refine hne.imp_of_mem fun {q r} hq hr h => ?_
    rcases eq_or_ne q p with rfl | hqp
    · rw [hself, hread r (Ne.symm h.1)]
      exact hkey hq r hr (Ne.symm h.1)
    rcases eq_or_ne r p with rfl | hrp
    · rw [hself, hread q hqp]
      exact Ne.symm (hkey hr q hq hqp)
    · rw [hread q hqp, hread r hrp]
      exact h.2
  · rw [hpeers, hheap, hfin]
    have hcount := hc.candidates
    by_cases hmem : p ∈ s.peers
    · have := countP_update (h := s.heap) (fun y => isConnectCandidate cfg y s.finished) hc.nodup hmem x
      omega
    have hw : (s.heap p).webSeed = true := by
      rw [← Bool.not_eq_false, hp.webSeed_iff hc]
      exact hmem
    rw [not_candidate_of_webSeed hw, not_candidate_of_webSeed (hweb.trans hw)] at hcand
    have := countP_update_of_notMem (h := s.heap) (fun y => isConnectCandidate cfg y s.finished) hmem x
    omega
  · rw [hpeers, hheap]
    have hcount := hc.seeds
    by_cases hmem : p ∈ s.peers
    · have hw := (hp.webSeed_iff hc).mpr hmem
      rw [hweb, hw, if_neg (by decide), if_neg (by decide)] at hseeds
      have := countP_update (h := s.heap) (fun y => y.seed) hc.nodup hmem x
      omega
    have hw : (s.heap p).webSeed = true := by
      rw [← Bool.not_eq_false, hp.webSeed_iff hc]
      exact hmem
    rw [hweb, hw, if_pos rfl, if_pos rfl] at hseeds
    have := countP_update_of_notMem (h := s.heap) (fun y => y.seed) hmem x
    omega
  · rw [hrobin, Policy.size, hpeers]
    exact hc.robin
  · rw [hpeers, hnext]
    intro q hq
    rcases eq_or_ne q p with rfl | hqp
    · rw [hself, hweb]
      exact hc.regular q hq
    · rw [hread q hqp]
      exact hc.regular q hq

theorem Census.key_ne (hc : Census cfg s) (hp : p ∈ s.peers) : ∀ q ∈ s.peers, q ≠ p →
    key cfg (s.heap p) ≠ key cfg (s.heap q) := by
  intro q hq hne
  have : Std.Symm fun p q => key cfg (s.heap p) ≠ key cfg (s.heap q) := ⟨fun _ _ h => Ne.symm h⟩
  exact hc.unique.forall hp hq (Ne.symm hne)

theorem Erased.mem (hc : Census cfg s) (he : Erased s s' i p) : q ∈ s'.peers ↔ q ∈ s.peers ∧ q ≠ p := by
  rw [he.peers]
  exact mem_eraseIdx hc.nodup (getElem_of_peerAt he.at_index).2

theorem erasePeer_spec (hc : Census cfg s) (hp : s.peerAt i = some p) :
    ∃ s', erasePeer cfg s i = some s' ∧ Census cfg s' ∧ Erased s s' i p ∧ (s.roundRobin = i → s'.roundRobin = i) := by
  obtain ⟨h0, hi⟩ := getElem_of_peerAt hp
  have hlt := lt_size_of_peerAt hp
  have hrobin := hc.robin
  refine ⟨_, congrArg _ hp, ?_, ⟨rfl, hp, rfl, rfl, rfl, rfl, rfl⟩, ?_⟩
  · refine ⟨hc.sorted.sublist (eraseIdx_sublist _ _), hc.unique.sublist (eraseIdx_sublist _ _), ?_, ?_, ?_, ?_⟩
    · have hcount := hc.candidates
      have := countP_eraseIdx (fun p => isConnectCandidate cfg (s.heap p) s.finished) hi
      cases hcand : isConnectCandidate cfg (s.heap p) s.finished <;> simp [hcand] at this ⊢ <;> omega
    · have hcount := hc.seeds
      have := countP_eraseIdx (fun p => (s.heap p).seed) hi
      cases hseed : (s.heap p).seed <;> simp [hseed] at this ⊢ <;> omega
    · have hlen : ((s.peers.eraseIdx i.toNat).length : Int) = s.size - 1 := by
        unfold Policy.size at *
        rw [length_eraseIdx_of_lt (by omega)]
        omega
      have hnext : 0 ≤ robinErased s i ∧ robinErased s i ≤ s.size - 1 := by
        unfold robinErased
        dsimp only
        split <;> split <;> omega
      exact ⟨hnext.1, Int.le_trans hnext.2 (Int.le_of_eq hlen.symm)⟩
    · exact fun q hq => hc.regular q ((eraseIdx_sublist _ _).subset hq)
  · intro he
    dsimp only [robinErased]
    rw [if_neg (by omega), if_neg (by omega)]
    exact he

theorem Erased.linked (hc : Census cfg s) (hl : Linked s) (he : Erased s s' i p)
    (hfree : ∀ c, (s.conns c).peerInfo ≠ some p) : Linked s' := by
  refine ⟨fun c q hq => ?_, ?_⟩
  · rw [he.conns] at hq ⊢
    rw [he.heap]
    obtain ⟨hin, hcon, hdis⟩ := hl.link c q hq
    refine ⟨hin.imp (fun hmem => (he.mem hc).mpr ⟨hmem, ?_⟩) fun h => ?_, hcon, hdis⟩
    · rintro rfl
      exact hfree c hq
    · rw [he.next, he.heap]
      exact h
  · rw [he.next, he.heap]
    exact hl.webSeeds

/-! ## Inserting a peer -/

theorem Census.insert (hc : Census cfg s) (iter : Nat)
    (hsplit : Splits (fun p => (s.heap p).address) s.peers iter x.address)
    (hiter : iter ≤ s.peers.length) (hkey : ∀ q ∈ s.peers, key cfg x ≠ key cfg (s.heap q)) (hweb : x.webSeed = false)
    (hpeers : s'.peers = s.peers.insertIdx iter s.next) (hheap : s'.heap = update s.heap s.next x)
    (hrobin : s'.roundRobin = if s.roundRobin ≥ iter then s.roundRobin + 1 else s.roundRobin)
    (hfin : s'.finished = s.finished) (hnext : s'.next = s.next + 1)
    (hcand : s'.numConnectCandidates = s.numConnectCandidates + (isConnectCandidate cfg x s.finished).toNat)
    (hseeds : s'.numSeeds = s.numSeeds + x.seed.toNat) : Census cfg s' := by
  have hfresh : s.next ∉ s.peers := fun h => absurd (hc.regular _ h).1 (Nat.lt_irrefl _)
  have hread : ∀ q ∈ s.peers, s'.heap q = s.heap q := by
    intro q hq
    have hne : q ≠ s.next := fun he => hfresh (he ▸ hq)
    rw [hheap, update_of_ne hne]
  have hself : s'.heap s.next = x := by rw [hheap, update_self]
  refine ⟨?_, ?_, ?_, ?_, ?_, ?_⟩
  · rw [hpeers]
    refine pairwise_insertIdx ?_ hiter (fun q hq => ?_) fun q hq => ?_
    · exact hc.sorted.imp_of_mem fun hq hr h => by rwa [hread _ hq, hread _ hr]
    · rw [hself, hread q (mem_of_mem_take hq)]
      exact hsplit.1 q hq
    · rw [hself, hread q (mem_of_mem_drop hq)]
      exact hsplit.2 q hq
  · rw [hpeers]
    refine pairwise_insertIdx ?_ hiter (fun q hq => ?_) fun q hq => ?_
    · exact hc.unique.imp_of_mem fun hq hr h => by rwa [hread _ hq, hread _ hr]
    · rw [hself, hread q (mem_of_mem_take hq)]
      exact Ne.symm (hkey q (mem_of_mem_take hq))
    · rw [hself, hread q (mem_of_mem_drop hq)]
      exact hkey q (mem_of_mem_drop hq)
  · have := countP_update_of_notMem (h := s.heap) (fun y => isConnectCandidate cfg y s.finished) hfresh x
    rw [hpeers, countP_insertIdx _ hiter, hself, hfin, hcand, hc.candidates, hheap]
    omega
  · have := countP_update_of_notMem (h := s.heap) (fun y => y.seed) hfresh x
    rw [hpeers, countP_insertIdx _ hiter, hself, hseeds, hc.seeds, hheap]
    omega
  · have hlen : s'.size = s.size + 1 := by
      rw [Policy.size, hpeers, length_insertIdx_of_le_length hiter]
      rfl
    have := hc.robin
    have : (iter : Int) ≤ s.size := Int.ofNat_le.mpr hiter
    rw [hrobin, hlen]
    split <;> omega
  · rw [hpeers, hnext]
    intro q hq
    rcases mem_cons.mp ((perm_insertIdx _ _ hiter).mem_iff.mp hq) with rfl | hq
    · rw [hself]
      exact ⟨Nat.lt_succ_self _, hweb⟩
    · rw [hread q hq]
      exact ⟨Nat.lt_succ_of_lt (hc.regular q hq).1, (hc.regular q hq).2⟩

/-! ## What is erased -/

/-- Peers without a connection were erased, and nothing else changed. -/
structure Weeded (cfg : Config A) (s s' : Policy A) : Prop where
  census : Census cfg s'
  linked : Linked s'
  sub : ∀ q ∈ s'.peers, q ∈ s.peers
  connected : ∀ q ∈ s.peers, (s.heap q).connection ≠ none → q ∈ s'.peers
  heap : s'.heap = s.heap
  conns : s'.conns = s.conns
  next : s'.next = s.next
  finished : s'.finished = s.finished
  lockedPeer : s'.lockedPeer = s.lockedPeer

theorem Weeded.refl (hc : Census cfg s) (hl : Linked s) : Weeded cfg s s :=
  ⟨hc, hl, fun _ h => h, fun _ h _ => h, rfl, rfl, rfl, rfl, rfl⟩

theorem Weeded.trans (h : Weeded cfg s s') (h' : Weeded cfg s' s'') : Weeded cfg s s'' := by
  refine ⟨h'.census, h'.linked, fun q hq => h.sub q (h'.sub q hq), fun q hq hcon => ?_, h'.heap.trans h.heap,
    h'.conns.trans h.conns, h'.next.trans h.next, h'.finished.trans h.finished, h'.lockedPeer.trans h.lockedPeer⟩
  exact h'.connected q (h.connected q hq hcon) (h.heap ▸ hcon)

theorem erasePeer_weeded (hc : Census cfg s) (hl : Linked s) (hp : s.peerAt i = some p)
    (hnone : (s.heap p).connection = none) :
    ∃ s', erasePeer cfg s i = some s' ∧ Weeded cfg s s' ∧ Erased s s' i p ∧ (s.roundRobin = i → s'.roundRobin = i) := by
  obtain ⟨s', heq, hc', he, hrobin⟩ := erasePeer_spec hc hp
  refine ⟨s', heq, ⟨hc', he.linked hc hl (hl.free_of_none hnone), fun q hq => ((he.mem hc).mp hq).1, fun q hq hcon =>
    ?_, he.heap,
    he.conns, he.next, he.finished, he.lockedPeer⟩, he, hrobin⟩
  exact (he.mem hc).mpr ⟨hq, fun heq => hcon (heq ▸ hnone)⟩

/-! ## `erase_peers` -/

variable (cfg env) in
theorem eraseLoop_spec (low : Int) : ∀ (n : Nat) {s : Policy A} {i j k : Int}, Census cfg s → Linked s →
    (n : Int) ≤ s.size → 0 ≤ i → i ≤ s.size → Chosen s n i j → Chosen s n i k →
    ∃ s' j' k', eraseLoop cfg env low n s i j k = some (s', j', k') ∧ Weeded cfg s s' ∧
      (∃ m i', Chosen s' m i' j') ∧ ∃ m i', Chosen s' m i' k' := by
  intro n
  induction n with
  | zero =>
    intro s i j k hc hl _ _ _ hj hk
    exact ⟨s, j, k, rfl, .refl hc hl, ⟨0, i, hj⟩, 0, i, hk⟩
  | succ n ih =>
    intro s i j k hc hl hn h0 hi hj hk
    rw [eraseLoop]
    split
    · exact ⟨s, j, k, rfl, .refl hc hl, ⟨_, i, hj⟩, _, i, hk⟩
    replace hj := hj.wrap
    replace hk := hk.wrap
    generalize hcur : (if i = s.size then 0 else i) = current at hj hk
    have hcur0 : 0 ≤ current ∧ current < s.size := by
      subst hcur
      split <;> omega
    obtain ⟨p, hp⟩ := peerAt_eq_some hcur0.1 hcur0.2
    obtain ⟨erase, herase, hcand⟩ := replaces_spec hj (isEraseCandidate cfg s p) (comparePeerErase env s) p
    simp only [hp, herase, bind_eq_bind, bind_some]
    split
    · -- a peer that is only known from the resume data
      rename_i himm
      obtain ⟨herase, -⟩ := and_eq_true_iff.mp himm
      obtain ⟨s1, heq, hw, he, -⟩ :=
        erasePeer_weeded hc hl hp (connection_of_isEraseCandidate (hcand herase))
      have hsize := he.size
      rw [heq, bind_some]
      obtain ⟨s', j', k', hloop, hw', hj', hk'⟩ := ih hw.census hw.linked (by omega) hcur0.1 (by omega)
        (hj.erase (by omega) he) (hk.erase (by omega) he)
      exact ⟨s', j', k', hloop, hw.trans hw', hj', hk'⟩
    · obtain ⟨force, hforce, hfcand⟩ :=
        replaces_spec hk (isForceEraseCandidate s p) (comparePeerErase env s) p
      rw [hforce, bind_some]
      refine ih hc hl (by omega) (by omega) (by omega) (hj.advance.ite fun h => ?_) (hk.advance.ite fun h => ?_)
      · exact .current (by omega) hp (connection_of_isEraseCandidate (hcand h))
      · exact .current (by omega) hp (connection_of_isForceEraseCandidate (hfcand h))

theorem Chosen.erasePeer (hc : Census cfg s) (hl : Linked s) (h : Chosen s n i j) (hj : j > -1) :
    ∃ s', PeerList.erasePeer cfg s j = some s' ∧ Weeded cfg s s' := by
  obtain ⟨⟨p, hp, hnone⟩, -⟩ := h.resolve_left (by omega)
  obtain ⟨s', heq, hw, -⟩ := erasePeer_weeded hc hl hp hnone
  exact ⟨s', heq, hw⟩

variable (env) in
theorem erasePeers_spec (hc : Census cfg s) (hl : Linked s) (force : Bool) :
    ∃ s', erasePeers cfg env s force = some s' ∧ Weeded cfg s s' := by
  unfold erasePeers
  split
  · exact ⟨s, rfl, .refl hc hl⟩
  rename_i hne
  have hpos : 0 < s.peers.length := List.length_pos_iff.mpr fun h => hne (.inr h)
  have hmod := Nat.mod_lt env.random hpos
  obtain ⟨s', j, k, hloop, hw, ⟨n, i, hj⟩, m, i', hk⟩ :=
    eraseLoop_spec cfg env (lowWatermark cfg env) (min s.peers.length 300)
      (i := (env.random % s.peers.length : Nat)) hc hl
      (by unfold Policy.size; omega) (by omega) (by unfold Policy.size; omega) (.inl rfl) (.inl rfl)
  simp only [hloop, bind_eq_bind, bind_some]
  split
  · obtain ⟨s'', heq, hw'⟩ := hj.erasePeer hw.census hw.linked (by assumption)
    exact ⟨s'', heq, hw.trans hw'⟩
  split
  · rename_i hforce
    obtain ⟨s'', heq, hw'⟩ := hk.erasePeer hw.census hw.linked hforce.2
    exact ⟨s'', heq, hw.trans hw'⟩
  · exact ⟨s', rfl, hw⟩

/-! ## `find_connect_candidate` -/

theorem Weeded.setRobin (h : Weeded cfg s s') (hr : 0 ≤ r ∧ r ≤ s'.size) : Weeded cfg s { s' with roundRobin := r } :=
  ⟨⟨h.census.sorted, h.census.unique, h.census.candidates, h.census.seeds, hr, h.census.regular⟩,
    ⟨h.linked.link, h.linked.webSeeds⟩, h.sub, h.connected, h.heap, h.conns, h.next, h.finished, h.lockedPeer⟩

variable (cfg env) in
theorem findLoop_spec (time : Int) : ∀ (n : Nat) {s : Policy A} {j k : Int}, Census cfg s → Linked s →
    (n : Int) ≤ s.size → Chosen s n s.roundRobin j → Chosen s n s.roundRobin k →
    ∃ s' j' k', findLoop cfg env time n s j k = some (s', j', k') ∧ Weeded cfg s s' ∧ ∃ m i', Chosen s' m i' j' := by
  intro n
  induction n with
  | zero =>
    intro s j k hc hl _ hj _
    exact ⟨s, j, k, rfl, .refl hc hl, 0, _, hj⟩
  | succ n ih =>
    intro s j k hc hl hn hj hk
    have hrobin := hc.robin
    have hwrap : (if s.roundRobin ≥ s.size then 0 else s.roundRobin) =
        if s.roundRobin = s.size then 0 else s.roundRobin := by
      split <;> split <;> omega
    rw [findLoop, hwrap]
    replace hj := hj.wrap
    replace hk := hk.wrap
    generalize hcur : (if s.roundRobin = s.size then 0 else s.roundRobin) = current at hj hk
    have hcur0 : 0 ≤ current ∧ current < s.size := by
      subst hcur
      split <;> omega
    obtain ⟨p, hp⟩ := peerAt_eq_some hcur0.1 hcur0.2
    simp only [hp, bind_eq_bind, bind_some]
    generalize decide (s.size * 100 ≥ peerlistLimit cfg env * 95 ∧ peerlistLimit cfg env > 0) = crowded
    obtain ⟨erase, herase, hcand⟩ :=
      replaces_spec hj (crowded && isEraseCandidate cfg s p) (comparePeerErase env s) p
    rw [herase, bind_some]
    split
    · rename_i himm
      obtain ⟨herase, -⟩ := and_eq_true_iff.mp himm
      have hw0 := (Weeded.refl hc hl).setRobin (r := current) (by omega)
      obtain ⟨s1, heq, hw, he, hr⟩ := erasePeer_weeded hw0.census hw0.linked hp
        (connection_of_isEraseCandidate (and_eq_true_iff.mp (hcand herase)).2)
      have hsize := he.size
      have hsame : ({ s with roundRobin := current } : Policy A).size = s.size := rfl
      rw [heq, bind_some]
      have hr' : s1.roundRobin = current := hr rfl
      obtain ⟨s', j', k', hloop, hw', hj'⟩ := ih
        hw.census hw.linked (by omega) (by rw [hr']; exact hj.setRobin.erase (by omega) he)
        (by rw [hr']; exact hk.setRobin.erase (by omega) he)
      exact ⟨s', j', k', hloop, hw0.trans (hw.trans hw'), hj'⟩
    · obtain ⟨k1, hk1, hck1⟩ := nextCandidate_spec cfg env time (by omega) hk hp
      rw [hk1, bind_some]
      have hw0 := (Weeded.refl hc hl).setRobin (r := current + 1) (by omega)
      obtain ⟨s', j', k', hloop, hw', hj'⟩ := ih
        hw0.census hw0.linked (by unfold Policy.size at *; dsimp only; omega)
        (hj.advance.ite fun h => .current (by omega) hp
          (connection_of_isEraseCandidate (and_eq_true_iff.mp (hcand h)).2)) hck1
      exact ⟨s', j', k', hloop, hw0.trans hw', hj'⟩

variable (env) in
theorem findConnectCandidate_spec (hc : Census cfg s) (hl : Linked s) (time : Int) :
    ∃ s' k, findConnectCandidate cfg env s time = some (s', k) ∧ Weeded cfg s s' := by
  have hrobin := hc.robin
  have hw0 := (Weeded.refl hc hl).setRobin (r := if s.roundRobin ≥ s.size then 0 else s.roundRobin) (by split <;> omega)
  obtain ⟨s', j, k, hloop, hw, m, i, hj⟩ := findLoop_spec cfg env time (min s.peers.length 300)
    hw0.census hw0.linked (by unfold Policy.size; dsimp only; omega) (.inl rfl) (.inl rfl)
  unfold findConnectCandidate
  simp only [hloop, bind_eq_bind, bind_some]
  split
  · obtain ⟨s'', heq, hw'⟩ := hj.erasePeer hw.census hw.linked (by assumption)
    rw [heq]
    exact ⟨s'', _, rfl, hw0.trans (hw.trans hw')⟩
  · exact ⟨s', k, rfl, hw0.trans hw⟩

end Libtorrent.PeerList
