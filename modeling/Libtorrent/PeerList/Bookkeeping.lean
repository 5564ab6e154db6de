import Libtorrent.Lib.Run
import Libtorrent.PeerList.Census

/-!
# The calls keep the peer list

Every call of `policy` keeps the order of the list and its counters (`call_good`), and so does every sequence of calls
(`peer_list_invariant`).
-/

namespace Libtorrent.PeerList

open SortedList Run Function List Option Bool Nat Int Peer Connection

variable {A : Type} [LinearOrder A] {cfg : Config A} {env : Env A} {s s' : Policy A} {p q : Ptr} {c : Conn} {x : Peer A}

/-! ## Looking up an endpoint -/

theorem findEndpoint_spec (hc : Census cfg s) (ep : A × Nat) :
    s.findEndpoint ep = s.upperBound ep.1 ∧ (∀ q ∈ s.peers, s.ip q ≠ ep) ∨
      s.findEndpoint ep ≠ s.upperBound ep.1 ∧ ∃ q, s.peers[s.findEndpoint ep]? = some q ∧ s.ip q = ep := by
  have hrange := fun q => mem_equalRange (a := ep.1) (x := q) hc.sorted
  have hhi : s.upperBound ep.1 ≤ s.peers.length := (takeWhile_sublist _).length_le
  have hfind := findIdx_range (fun p => decide (s.ip p = ep)) (lower_le_upper _ _ ep.1) hhi
  rcases hfind with ⟨heq, hnone⟩ | ⟨hlt, q, hq, hip⟩
  · refine .inl ⟨heq, fun q hq hip => ?_⟩
    have := hnone q ((hrange q).mpr ⟨hq, by rw [← hip]; rfl⟩)
    exact absurd hip (of_decide_eq_false this)
  · exact .inr ⟨Nat.ne_of_lt hlt, q, hq, of_decide_eq_true hip⟩

def endpointKey (cfg : Config A) (ep : A × Nat) : A × Nat :=
  (ep.1, if cfg.allowMultipleConnectionsPerIp then ep.2 else 0)

/-- There is no entry for the endpoint, and the list stays sorted if one is put at `iter`. -/
structure Vacant (cfg : Config A) (s : Policy A) (iter : Nat) (ep : A × Nat) : Prop where
  le : iter ≤ s.peers.length
  splits : Splits (fun p => (s.heap p).address) s.peers iter ep.1
  key : ∀ q ∈ s.peers, endpointKey cfg ep ≠ key cfg (s.heap q)

/-- An entry that is found has the key of the endpoint; if there is none, the place is the one for a new entry. -/
theorem locate_spec (hc : Census cfg s) (ep : A × Nat) : match s.locate cfg ep with
    | (_, some p) => p ∈ s.peers ∧ key cfg (s.heap p) = endpointKey cfg ep
    | (iter, none) => Vacant cfg s iter ep := by
  unfold Policy.locate
  cases hm : cfg.allowMultipleConnectionsPerIp with
  | true =>
    rw [if_pos rfl]
    dsimp only
    rcases findEndpoint_spec hc ep with ⟨heq, hnone⟩ | ⟨hne, q, hq, hip⟩
    · rw [if_pos heq, heq]
      refine ⟨(takeWhile_sublist _).length_le, splits_upper hc.sorted ep.1, fun q hq hk => hnone q hq ?_⟩
      rw [endpointKey, key, hm, if_pos rfl, if_pos rfl] at hk
      exact hk.symm
    rw [if_neg hne, hq]
    refine ⟨mem_of_getElem? hq, ?_⟩
    rw [endpointKey, key, hm, if_pos rfl, if_pos rfl]
    exact hip
  | false =>
    rw [if_neg (by decide)]
    dsimp only
    have hkey : ∀ q, key cfg (s.heap q) = endpointKey cfg ep ↔ (s.heap q).address = ep.1 := by
      intro q
      rw [endpointKey, key, hm, if_neg (by decide), if_neg (by decide), Prod.mk.injEq, and_iff_left rfl]
    cases hfound : (s.peers[s.lowerBound ep.1]?).filter fun p => (s.heap p).address = ep.1 with
    | some p =>
      obtain ⟨hp, haddr⟩ := filter_eq_some_iff.mp hfound
      exact ⟨mem_of_getElem? hp, (hkey p).mpr (of_decide_eq_true haddr)⟩
    | none =>
      refine ⟨(takeWhile_sublist _).length_le, splits_lower hc.sorted ep.1, fun q hq hk => ?_⟩
      have haddr := (hkey q).mp hk.symm
      -- the first entry that is not smaller has the address too
      obtain ⟨r, hr, hra⟩ := getElem_lower hc.sorted hq
      rw [haddr] at hr hra
      have hsome : (s.peers[s.lowerBound ep.1]?).filter (fun p => (s.heap p).address = ep.1) = some r :=
        filter_eq_some_iff.mpr ⟨hr, decide_eq_true hra⟩
      rw [hfound] at hsome
      exact absurd hsome (by simp)

theorem erasePeerPtr_spec (hc : Census cfg s) (hm : cfg.allowMultipleConnectionsPerIp = true) (hp : p ∈ s.peers) :
    ∃ s' i, erasePeerPtr cfg s p = some s' ∧ Census cfg s' ∧ Erased s s' i p := by
  unfold erasePeerPtr
  rcases findEndpoint_spec hc (s.ip p) with ⟨-, hnone⟩ | ⟨hne, q, hq, hip⟩
  · exact absurd rfl (hnone p hp)
  obtain rfl : q = p := by
    by_contra hne
    refine hc.key_ne hp q (mem_of_getElem? hq) hne ?_
    rw [key, key, hm, if_pos rfl, if_pos rfl]
    exact hip.symm
  have hne : ¬ s.findEndpoint (s.ip q) = s.upperBound (s.heap q).address := hne
  rw [if_neg hne]
  obtain ⟨s', heq, hc', he, -⟩ := erasePeer_spec hc (i := (s.findEndpoint (s.ip q) : Nat))
    (by rw [Policy.peerAt, if_pos (natCast_nonneg _), toNat_natCast]; exact hq)
  exact ⟨s', _, heq, hc', he⟩

/-! ## Counting up and down -/

/-- The list and the connections are as they should be. -/
structure Good (cfg : Config A) (s : Policy A) : Prop where
  census : Census cfg s
  linked : Linked s

theorem clamp_recount (hc : Census cfg s) (hp : InUse s p) (x : Peer A) :
    (if isConnectCandidate cfg (s.heap p) s.finished ≠ isConnectCandidate cfg x s.finished then
      clamp (recount cfg s (s.heap p) x) else s.numConnectCandidates) +
        (isConnectCandidate cfg (s.heap p) s.finished).toNat =
      s.numConnectCandidates + (isConnectCandidate cfg x s.finished).toNat := by
  have heq := recount_eq cfg s (s.heap p) x
  have hnonneg : 0 ≤ recount cfg s (s.heap p) x := by
    cases hold : isConnectCandidate cfg (s.heap p) s.finished with
    | false =>
      have := hc.candidates_nonneg
      rw [hold, toNat_false] at heq
      omega
    | true =>
      have := hc.candidates_pos hp hold
      rw [hold, toNat_true] at heq
      omega
  split
  · rw [clamp, if_neg (by omega)]
    exact heq
  · rename_i hsame
    rw [not_not.mp hsame]

/-! ## Changes of an entry -/

theorem Census.key_ne_of_eq (hc : Census cfg s) (hk : key cfg x = key cfg (s.heap p)) :
    p ∈ s.peers → ∀ q ∈ s.peers, q ≠ p → key cfg x ≠ key cfg (s.heap q) :=
  fun hp => hk ▸ hc.key_ne hp

section

variable (hg : Good cfg s)
include hg

theorem banPeer_good (hp : InUse s p) : Good cfg (banPeer cfg s p) := by
  unfold banPeer
  split
  · exact hg
  · refine ⟨hg.census.write hp (x := { s.heap p with banned := true }) rfl rfl (hg.census.key_ne_of_eq rfl) rfl rfl rfl
      rfl rfl ?_ rfl, hg.linked.write (x := { s.heap p with banned := true }) rfl rfl id rfl rfl rfl rfl⟩
    exact countOut s (not_candidate_of_banned rfl _) _

theorem setFailcount_good (hp : InUse s p) (f : Int) : Good cfg (setFailcount cfg s p f) := by
  refine ⟨hg.census.write hp (x := { s.heap p with failcount := (f % 32).toNat }) rfl rfl (hg.census.key_ne_of_eq rfl)
    rfl rfl rfl rfl rfl ?_ rfl,
    hg.linked.write (x := { s.heap p with failcount := (f % 32).toNat }) rfl rfl id rfl rfl rfl rfl⟩
  exact recount_eq cfg s _ _

theorem setSeed_good (hp : InUse s p) (hcon : (s.heap p).connection.isSome = true) (seed : Bool) :
    Good cfg (setSeed cfg s p seed) := by
  unfold setSeed
  split
  · exact hg
  refine ⟨hg.census.write hp (x := { s.heap p with seed := seed }) rfl rfl (hg.census.key_ne_of_eq rfl) rfl rfl rfl
    rfl rfl ?_ ?_, hg.linked.write (x := { s.heap p with seed := seed }) rfl rfl id rfl rfl rfl rfl⟩
  · -- a connected peer is no candidate
    have hold := not_candidate_of_connection cfg hcon s.finished
    have hnew := not_candidate_of_connection cfg (x := { s.heap p with seed := seed }) hcon s.finished
    simp [hold, hnew]
  dsimp only
  cases (s.heap p).webSeed with
  | true => rfl
  | false =>
    cases hs : (s.heap p).seed <;> cases seed <;> simp_all

theorem updatePeer_good (hp : p ∈ s.peers) {remote : A × Nat} (hkey : key cfg (s.heap p) = endpointKey cfg remote)
    (src : Source) (flags : Nat) : Good cfg (updatePeer cfg s p src flags remote) := by
  have hin : InUse s p := .inl hp
  refine ⟨hg.census.write hin (x := (s.heap p).updated src flags remote) rfl rfl (hg.census.key_ne_of_eq ?_) rfl rfl rfl
    rfl rfl (clamp_recount hg.census hin _) ?_,
    hg.linked.write (x := (s.heap p).updated src flags remote) rfl rfl (fun _ => rfl) rfl rfl rfl rfl⟩
  · rw [hkey]
    exact Prod.ext (Prod.mk.inj hkey).1 rfl
  have hweb : ((s.heap p).updated src flags remote).webSeed = false := (hg.census.regular p hp).2
  rw [if_neg (by simp [hweb]), if_neg (by simp [hweb])]
  dsimp only [updatePeer, updated]
  cases (flags.testBit 1 && (s.heap p).connection.isNone) <;> cases (s.heap p).seed <;> simp

theorem setPort_good (hp : p ∈ s.peers) {port : Int} {src : Source}
    (hkey : ∀ q ∈ s.peers, q ≠ p → key cfg ((s.heap p).ported port src) ≠ key cfg (s.heap q)) :
    Good cfg (setPort cfg s port p src) := by
  have hin : InUse s p := .inl hp
  exact ⟨hg.census.write hin (x := (s.heap p).ported port src) rfl rfl (fun _ => hkey) rfl rfl rfl rfl rfl
    (clamp_recount hg.census hin _) rfl,
    hg.linked.write (x := (s.heap p).ported port src) rfl rfl (fun _ => rfl) rfl rfl rfl rfl⟩

end

/-! ## New entries -/

theorem Good.lt_next (hg : Good cfg s) (c : Conn) (p : Ptr) (h : (s.conns c).peerInfo = some p) : p < s.next :=
  (hg.linked.link c p h).1.lt_next hg.census

theorem mem_insertIdx_of_mem {l : List Ptr} {i : Nat} (hi : i ≤ l.length) (a : Ptr) : ∀ q ∈ l, q ∈ l.insertIdx i a :=
  fun _ hq => (perm_insertIdx a l hi).mem_iff.mpr (mem_cons_of_mem a hq)

variable {iter : Nat} {remote : A × Nat}

theorem insertCounted_good (hg : Good cfg s) (hv : Vacant cfg s iter remote) (src : Source) (flags : Nat) :
    Good cfg (insertCounted cfg s (new remote.1 remote.2 true src) iter flags) := by
  refine ⟨hg.census.insert iter ?_ hv.le ?_ ?_ rfl rfl rfl rfl rfl ?_ ?_,
    hg.linked.insert hg.lt_next ?_ (mem_insertIdx_of_mem hv.le _) rfl rfl rfl⟩
  · cases flags.testBit 1 <;> exact hv.splits
  · cases flags.testBit 1 <;> exact hv.key
  · cases flags.testBit 1 <;> rfl
  · dsimp only [insertCounted]
    cases isConnectCandidate cfg _ s.finished <;> simp
  · dsimp only [insertCounted]
    cases flags.testBit 1 <;> simp [new]
  · cases flags.testBit 1 <;> exact fun _ => rfl

theorem Weeded.place (h : Weeded cfg s s') (hv : Vacant cfg s iter remote) :
    Vacant cfg s' (s'.lowerBound remote.1) remote := by
  refine ⟨(takeWhile_sublist _).length_le, splits_lower h.census.sorted _, fun q hq => ?_⟩
  rw [h.heap]
  exact hv.key q (h.sub q hq)

theorem insertPeer_good (hg : Good cfg s) (hv : Vacant cfg s iter remote) (src : Source) (flags : Nat) :
    ∃ s', insertPeer cfg env s (new remote.1 remote.2 true src) iter flags = some s' ∧ Good cfg s' := by
  unfold insertPeer
  dsimp only
  split
  · split
    · exact ⟨s, rfl, hg⟩
    · obtain ⟨s', heq, hw⟩ := erasePeers_spec env hg.census hg.linked false
      simp only [heq, bind_eq_bind, bind_some]
      split
      · exact ⟨s', rfl, hw.census, hw.linked⟩
      · exact ⟨_, rfl, insertCounted_good ⟨hw.census, hw.linked⟩ (hw.place hv) src flags⟩
  · exact ⟨_, rfl, insertCounted_good hg hv src flags⟩

theorem addPeer_good (hg : Good cfg s) (remote : A × Nat) (src : Source) (flags : Nat) :
    ∃ s', addPeer cfg env s remote src flags = some s' ∧ Good cfg s' := by
  have hstay : ∃ s', some s = some s' ∧ Good cfg s' := ⟨s, rfl, hg⟩
  have hloc := locate_spec hg.census remote
  unfold addPeer
  iterate 5
    split
    · exact hstay
  generalize hlocate : s.locate cfg remote = found at hloc
  obtain ⟨iter, entry⟩ := found
  cases entry with
  | some p => exact ⟨_, rfl, updatePeer_good hg hloc.1 hloc.2 src flags⟩
  | none =>
    dsimp only
    split
    · exact hstay
    · exact insertPeer_good hg hloc src flags

/-! ## Closing connections -/

theorem Census.congr (hc : Census cfg s) (hpeers : s'.peers = s.peers) (hheap : ∀ q ∈ s.peers, s'.heap q = s.heap q)
    (hrobin : s'.roundRobin = s.roundRobin) (hcand : s'.numConnectCandidates = s.numConnectCandidates)
    (hseeds : s'.numSeeds = s.numSeeds) (hfin : s'.finished = s.finished) (hnext : s.next ≤ s'.next) :
    Census cfg s' := by
  refine ⟨?_, ?_, ?_, ?_, ?_, ?_⟩
  · rw [hpeers]
    exact hc.sorted.imp_of_mem fun hq hr h => by rwa [hheap _ hq, hheap _ hr]
  · rw [hpeers]
    exact hc.unique.imp_of_mem fun hq hr h => by rwa [hheap _ hq, hheap _ hr]
  · rw [hcand, hc.candidates, hpeers, hfin]
    exact congrArg _ (countP_congr fun q hq => by rw [hheap q hq])
  · rw [hseeds, hc.seeds, hpeers]
    exact congrArg _ (countP_congr fun q hq => by rw [hheap q hq])
  · rw [hrobin, Policy.size, hpeers]
    exact hc.robin
  · rw [hpeers]
    intro q hq
    rw [hheap q hq]
    exact ⟨lt_of_lt_of_le (hc.regular q hq).1 hnext, (hc.regular q hq).2⟩

theorem Good.unlink (hg : Good cfg s) (conns : Conn → Connection) (locked : Option Ptr)
    (h : ∀ d q, (conns d).peerInfo = some q → conns d = s.conns d) :
    Good cfg { s with conns := conns, lockedPeer := locked } := by
  refine ⟨hg.census.congr rfl (fun _ _ => rfl) rfl rfl rfl rfl (le_refl _), fun d q hq => ?_, hg.linked.webSeeds⟩
  have hd := h d q hq
  dsimp only at hq ⊢
  rw [hd] at hq ⊢
  exact hg.linked.link d q hq

/-- A connection was closed; a peer that is locked stays in the list. -/
structure Closed (cfg : Config A) (s s' : Policy A) (c : Conn) : Prop where
  good : Good cfg s'
  others : ∀ d, d ≠ c → s'.conns d = s.conns d
  free : (s'.conns c).peerInfo = none
  lockedPeer : s'.lockedPeer = s.lockedPeer
  kept : ∀ q, s.lockedPeer = some q → q ∈ s.peers → q ∈ s'.peers

/-- The connections that know a peer after `c` was closed know another one than `p`. -/
theorem Good.other_link {conns : Conn → Connection} (hg : Good cfg s) (hlink : (s.conns c).peerInfo = some p)
    (hfree : (conns c).peerInfo = none) (hothers : ∀ d, d ≠ c → conns d = s.conns d) {d : Conn}
    (hd : (conns d).peerInfo = some q) : d ≠ c ∧ q ≠ p := by
  have hdc : d ≠ c := by
    rintro rfl
    rw [hfree] at hd
    exact absurd hd (by simp)
  refine ⟨hdc, ?_⟩
  rintro rfl
  exact hdc (hg.linked.eq_of_link (hothers d hdc ▸ hd) (hg.linked.link c q hlink).2.1)

section Closing

variable (failed fastReconnect : Bool) (time : Int) {conns : Conn → Connection}

section

variable (hg : Good cfg s) (hlink : (s.conns c).peerInfo = some p)
include hg hlink

theorem closePeer_census : Census cfg (closePeer cfg s p failed fastReconnect time) := by
  obtain ⟨hin, hcon, -⟩ := hg.linked.link c p hlink
  have hold := not_candidate_of_connection cfg (by rw [hcon]; rfl) s.finished
  refine hg.census.write hin (x := (s.heap p).closed failed fastReconnect time) rfl rfl (hg.census.key_ne_of_eq rfl) rfl
    rfl rfl rfl rfl ?_ rfl
  rw [hold]
  dsimp only [closePeer]
  cases isConnectCandidate cfg _ s.finished <;> simp

section

variable (hfree : (conns c).peerInfo = none) (hothers : ∀ d, d ≠ c → conns d = s.conns d)
include hfree hothers

theorem closePeer_linked : Linked { closePeer cfg s p failed fastReconnect time with conns := conns } := by
  refine ⟨fun d q hq => ?_, fun q hq hw => ?_⟩
  · obtain ⟨hd, hqp⟩ := hg.other_link hlink hfree hothers hq
    have hread : (closePeer cfg s p failed fastReconnect time).heap q = s.heap q := update_of_ne hqp _ _
    dsimp only at hq ⊢
    rw [hothers d hd] at hq ⊢
    unfold InUse
    rw [hread]
    exact hg.linked.link d q hq
  rcases eq_or_ne q p with rfl | hqp
  · have hself : (closePeer cfg s q failed fastReconnect time).heap q = (s.heap q).closed failed fastReconnect time :=
      update_self ..
    rw [hself] at hw ⊢
    exact hg.linked.webSeeds q hq hw
  · have hread : (closePeer cfg s p failed fastReconnect time).heap q = s.heap q := update_of_ne hqp _ _
    rw [hread] at hw ⊢
    exact hg.linked.webSeeds q hq hw

/-- `connection_closed` for the peer that the connection knows, and `set_peer_info(0)`. -/
theorem connectionClosed_spec :
    ∃ s1, connectionClosed cfg s p failed fastReconnect time = some s1 ∧ s1.conns = s.conns ∧
      Closed cfg s { s1 with conns := conns } c := by
  have hcensus := closePeer_census failed fastReconnect time hg hlink
  have hlinked := closePeer_linked failed fastReconnect time hg hlink hfree hothers
  have hcensus' : Census cfg { closePeer cfg s p failed fastReconnect time with conns := conns } :=
    hcensus.congr rfl (fun _ _ => rfl) rfl rfl rfl rfl (le_refl _)
  unfold connectionClosed
  split
  · rename_i herase
    simp only [and_eq_true, not_eq_true', decide_eq_true_eq] at herase
    obtain ⟨⟨hm, hnot⟩, hunlocked⟩ := herase
    have hmem : p ∈ s.peers := by
      refine (hg.linked.link c p hlink).1.elim id fun h => ?_
      rw [hg.linked.webSeeds p h.1 h.2] at hnot
      exact absurd hnot (by decide)
    obtain ⟨s2, i, heq, hc2, he⟩ := erasePeerPtr_spec hcensus hm hmem
    have he' : Erased { closePeer cfg s p failed fastReconnect time with conns := conns }
      { s2 with conns := conns } i p :=
      ⟨he.peers, he.at_index, he.heap, rfl, he.next, he.finished, he.lockedPeer⟩
    refine ⟨s2, heq, he.conns, ⟨hc2.congr rfl (fun _ _ => rfl) rfl rfl rfl rfl (le_refl _),
      he'.linked hcensus' hlinked fun d hd => (hg.other_link hlink hfree hothers hd).2 rfl⟩, hothers, hfree,
      he.lockedPeer, fun q hq hmemq => (he.mem hcensus).mpr ⟨hmemq, ?_⟩⟩
    rintro rfl
    exact hunlocked hq
  · exact ⟨_, rfl, rfl, ⟨hcensus', hlinked⟩, hothers, hfree, rfl, fun q _ hq => hq⟩

end

end

end Closing

theorem disconnect_spec (hg : Good cfg s) (c : Conn) (error : Nat) (fastReconnect : Bool) (time : Int) :
    ∃ s', disconnect cfg s c error fastReconnect time = some s' ∧ Closed cfg s s' c := by
  unfold disconnect
  split
  · rename_i hdis
    refine ⟨s, rfl, hg, fun _ _ => rfl, ?_, rfl, fun _ _ h => h⟩
    cases hlink : (s.conns c).peerInfo with
    | none => rfl
    | some p =>
      rw [(hg.linked.link c p hlink).2.2] at hdis
      exact absurd hdis (by decide)
  have hself : ∀ x, (update s.conns c x) c = x := fun x => update_self c x s.conns
  cases hlink : (s.conns c).peerInfo with
  | none =>
    refine ⟨_, rfl, hg.unlink _ s.lockedPeer fun d q hq => ?_, fun d hd => update_of_ne hd _ _, ?_, rfl, fun _ _ h => h⟩
    · rcases eq_or_ne d c with rfl | hd
      · rw [hself] at hq
        exact absurd hq (by simp)
      · exact update_of_ne hd _ _
    · exact congrArg peerInfo (hself _)
  | some p =>
    obtain ⟨s1, heq, hconns, hclosed⟩ := connectionClosed_spec (0 < error) fastReconnect time hg hlink
      (congrArg peerInfo (hself { s.conns c with peerInfo := none, disconnecting := true }))
      fun d hd => update_of_ne hd _ _
    simp only [heq, bind_eq_bind, bind_some, hconns]
    exact ⟨_, rfl, hclosed⟩

theorem disconnectLocked_spec (hg : Good cfg s) (hp : p ∈ s.peers) (hcon : (s.heap p).connection = some c)
    (fastReconnect : Bool) (time : Int) :
    ∃ s', disconnectLocked cfg s p c fastReconnect time = some s' ∧ Good cfg s' ∧ p ∈ s'.peers ∧
      (∀ d, (s'.conns d).peerInfo ≠ some p) ∧ ∀ d, d ≠ c → s'.conns d = s.conns d := by
  have hg1 : Good cfg { s with lockedPeer := some p } := hg.unlink _ (some p) fun _ _ _ => rfl
  obtain ⟨s1, heq, hclosed⟩ := disconnect_spec hg1 c 0 fastReconnect time
  refine ⟨{ s1 with lockedPeer := none }, ?_, hclosed.good.unlink _ none fun _ _ _ => rfl, hclosed.kept p rfl hp,
    fun d hd => ?_, hclosed.others⟩
  · rw [disconnectLocked, heq]
    rfl
  rcases eq_or_ne d c with rfl | hdc
  · exact absurd (hclosed.free.symm.trans hd) (by simp)
  · refine hdc (hg.linked.eq_of_link ?_ hcon)
    exact (hclosed.others d hdc) ▸ hd

/-! ## New connections -/

section

variable (hg : Good cfg s)
include hg

theorem setConnection_good (hp : InUse s p) (hnone : (s.heap p).connection = none) (c : Conn) :
    Good cfg (setConnection cfg s p c) := by
  have hnew : isConnectCandidate cfg { s.heap p with connection := some c } s.finished = false :=
    not_candidate_of_connection _ rfl _
  refine ⟨hg.census.write hp (x := { s.heap p with connection := some c }) rfl rfl (hg.census.key_ne_of_eq rfl) rfl rfl
    rfl rfl rfl ?_ rfl, hg.linked.attach hp (x := { s.heap p with connection := some c }) rfl rfl rfl
    (hg.linked.free_of_none hnone) rfl rfl rfl ?_ ?_ fun d hd => update_of_ne hd _ _⟩
  · exact countOut s hnew _
  · exact congrArg disconnecting (update_self c _ s.conns)
  · exact congrArg peerInfo (update_self c _ s.conns)

theorem attachFound_good (hp : p ∈ s.peers) (hfree : ∀ d, (s.conns d).peerInfo ≠ some p)
    (hlive : (s.conns c).disconnecting = false) (fastReconnect : Bool) (time : Int) :
    Good cfg (attachFound cfg s p c fastReconnect time) := by
  have hin : InUse s p := .inl hp
  generalize hx : ({ s.heap p with
    connection := some c
    lastConnected := if fastReconnect then (s.heap p).lastConnected else (time % 65536).toNat } : Peer A) = x
  have hcon : x.connection = some c := hx ▸ rfl
  have hnew : isConnectCandidate cfg x s.finished = false := not_candidate_of_connection _ (by rw [hcon]; rfl) _
  refine ⟨hg.census.write hin (x := x) ?_ ?_ (hg.census.key_ne_of_eq ?_) rfl ?_ rfl rfl rfl ?_ ?_,
    hg.linked.attach hin ?_ ?_ hcon hfree rfl ?_ rfl ?_ ?_ fun d hd => update_of_ne hd _ _⟩
  · exact hx ▸ rfl
  · exact hx ▸ rfl
  · exact hx ▸ rfl
  · exact hx ▸ rfl
  · rw [hnew]
    dsimp only [attachFound, attach, Policy.write]
    cases hold : isConnectCandidate cfg (s.heap p) s.finished with
    | false => rfl
    | true =>
      have := hg.census.candidates_pos hin hold
      rw [if_pos rfl, clamp, if_neg (by omega)]
      simp
  · have hseed : x.seed = (s.heap p).seed := hx ▸ rfl
    rw [hseed]
    rfl
  · exact hx ▸ rfl
  · exact hx ▸ rfl
  · exact hx ▸ rfl
  · exact (congrArg disconnecting (update_self c _ s.conns)).trans hlive
  · exact congrArg peerInfo (update_self c _ s.conns)

theorem attachNew_good {iter : Nat} {remote : A × Nat} (hv : Vacant cfg s iter remote)
    (hlive : (s.conns c).disconnecting = false) (fastReconnect : Bool) (time : Int) :
    Good cfg (attach (insertNew s iter (new remote.1 remote.2 false incoming)) s.next c fastReconnect time) := by
  have hcand := not_candidate_of_not_connectable cfg (x := new remote.1 remote.2 false incoming) rfl s.finished
  have hg1 : Good cfg (insertNew s iter (new remote.1 remote.2 false incoming)) :=
    ⟨hg.census.insert iter (x := new remote.1 remote.2 false incoming) hv.splits hv.le hv.key rfl rfl rfl rfl
      rfl rfl (by rw [hcand]; exact (Int.add_zero _).symm) (Int.add_zero _).symm,
      hg.linked.insert hg.lt_next (fun h => absurd h (by simp [new])) (mem_insertIdx_of_mem hv.le _) rfl rfl rfl⟩
  have hmem : s.next ∈ (insertNew s iter (new remote.1 remote.2 false incoming)).peers :=
    (perm_insertIdx _ _ hv.le).mem_iff.mpr mem_cons_self
  have hheap : (insertNew s iter (new remote.1 remote.2 false incoming)).heap s.next =
      new remote.1 remote.2 false incoming := update_self ..
  have hfree : ∀ d, ((insertNew s iter (new remote.1 remote.2 false incoming)).conns d).peerInfo ≠ some s.next :=
    hg1.linked.free_of_none (by rw [hheap]; rfl)
  have hfound := attachFound_good hg1 hmem hfree hlive fastReconnect time
  have hsame : attachFound cfg (insertNew s iter (new remote.1 remote.2 false incoming)) s.next c fastReconnect time =
      attach (insertNew s iter (new remote.1 remote.2 false incoming)) s.next c fastReconnect time := by
    unfold attachFound
    rw [hheap, if_neg]
    rw [not_candidate_of_not_connectable _ rfl]
    decide
  exact hsame ▸ hfound

variable (env) in
theorem newConnection_good (hnew : ∀ i ∈ s.peers, (s.heap i).connection ≠ some c)
    (hlive : (s.conns c).disconnecting = false) (remote : A × Nat) (sockets : Sockets) (time : Int) :
    ∃ s' taken, newConnection cfg env s c remote sockets time = some (s', taken) ∧ Good cfg s' := by
  have hrefuse : ∀ {s : Policy A} (error : Nat), Good cfg s →
      ∃ s' taken, (disconnect cfg s c error sockets.fastReconnect time).map (·, false) = some (s', taken) ∧
        Good cfg s' := by
    intro s error hg
    obtain ⟨s', heq, hclosed⟩ := disconnect_spec hg c error sockets.fastReconnect time
    exact ⟨s', false, by rw [heq]; rfl, hclosed.good⟩
  -- the old connection is closed, and the new one takes its place
  have hreplace : ∀ {i : Ptr} {other : Conn}, i ∈ s.peers → (s.heap i).connection = some other → other ≠ c →
      ∃ s' taken, (do
        let s ← disconnectLocked cfg s i other sockets.otherFastReconnect time
        some (attachFound cfg s i c sockets.fastReconnect time, true)) = some (s', taken) ∧ Good cfg s' := by
    intro i other hi hcon hne
    obtain ⟨s1, heq, hg1, hi1, hfree, hothers⟩ := disconnectLocked_spec hg hi hcon sockets.otherFastReconnect time
    rw [heq]
    exact ⟨_, _, rfl, attachFound_good hg1 hi1 hfree (hothers c (Ne.symm hne) ▸ hlive) _ _⟩
  have hloc := locate_spec hg.census remote
  unfold newConnection
  generalize s.locate cfg remote = found at hloc
  obtain ⟨iter, entry⟩ := found
  cases entry with
  | some i =>
    obtain ⟨hi, -⟩ := hloc
    dsimp only
    split
    · exact hrefuse 0 hg
    cases hcon : (s.heap i).connection with
    | none => exact ⟨_, _, rfl, attachFound_good hg hi (hg.linked.free_of_none hcon) hlive _ _⟩
    | some other =>
      have hne : other ≠ c := fun he => hnew i hi (he ▸ hcon)
      dsimp only
      split
      · exact hrefuse 0 hg
      split
      · obtain ⟨s1, heq1, hclosed₁⟩ := disconnect_spec hg c 1 sockets.fastReconnect time
        obtain ⟨s2, heq2, hclosed₂⟩ := disconnect_spec hclosed₁.good other 1 sockets.otherFastReconnect time
        simp only [heq1, heq2, map_some, bind_eq_bind, bind_some]
        exact ⟨s2, false, rfl, hclosed₂.good⟩
      split
      · exact hreplace hi hcon hne
      split
      · exact hrefuse 0 hg
      · split
        · exact hrefuse 0 hg
        · exact hreplace hi hcon hne
  | none =>
    obtain ⟨s', heq, hw, hplace⟩ : ∃ s', makeRoom cfg env s = some s' ∧ Weeded cfg s s' ∧
        (¬ s.size ≥ cfg.maxPeerlistSize → s' = s) := by
      unfold makeRoom
      split
      · obtain ⟨s', heq, hw⟩ := erasePeers_spec env hg.census hg.linked true
        exact ⟨s', heq, hw, fun h => absurd (by assumption) h⟩
      · exact ⟨s, rfl, .refl hg.census hg.linked, fun _ => rfl⟩
    have hg' : Good cfg s' := ⟨hw.census, hw.linked⟩
    simp only [heq, bind_eq_bind, bind_some]
    split
    · exact hrefuse 0 hg'
    split
    · exact ⟨s', false, rfl, hg'⟩
    refine ⟨_, _, rfl, ?_⟩
    have hlive' : (s'.conns c).disconnecting = false := hw.conns ▸ hlive
    split
    · exact attachNew_good hg' (hw.place hloc) hlive' _ _
    · rename_i hroom
      obtain rfl := hplace hroom
      exact attachNew_good hg' hloc hlive' _ _

end

/-! ## `update_peer_port` -/

section

variable (hg : Good cfg s)
include hg

theorem markDuplicate_good (hq : q ∈ s.peers) (hqc : (s.heap q).connection.isSome = true)
    (src : Source) : Good cfg (markDuplicate cfg s q src) := by
  have hold : isConnectCandidate cfg (s.heap q) s.finished = false := not_candidate_of_connection _ hqc _
  generalize hx : ({ s.heap q with connectable := true, source := (s.heap q).source ||| src } : Peer A) = x
  have hcon : x.connection = (s.heap q).connection := hx ▸ rfl
  have hnew : isConnectCandidate cfg x s.finished = false := not_candidate_of_connection _ (hcon ▸ hqc) _
  refine ⟨hg.census.write (.inl hq) (x := x) (hx ▸ rfl) (hx ▸ rfl) (hg.census.key_ne_of_eq (hx ▸ rfl)) rfl
    (hx ▸ rfl) rfl
    rfl rfl ?_ (hx ▸ rfl), hg.linked.write hcon (hx ▸ rfl) (fun _ => hx ▸ rfl) rfl (hx ▸ rfl) rfl rfl⟩
  unfold markDuplicate
  dsimp only
  rw [hx, hold, hnew]
  rfl

theorem closeDuplicate_good (hm : cfg.allowMultipleConnectionsPerIp = true) (hp : p ∈ s.peers)
    (hpc : (s.heap p).connection.isSome = true) (hq : q ∈ s.peers) (hqc : (s.heap q).connection.isSome = true)
    (src : Source) (fastReconnect : Bool) (time : Int) :
    ∃ s', closeDuplicate cfg s p q src fastReconnect time = some s' ∧ Good cfg s' := by
  have hg1 := markDuplicate_good hg hq hqc src
  have hread : ((markDuplicate cfg s q src).heap p).connection = (s.heap p).connection := by
    dsimp only [markDuplicate, Policy.write]
    rcases eq_or_ne p q with rfl | hpq
    · rw [update_self]
    · rw [update_of_ne hpq]
  obtain ⟨c, hc⟩ := isSome_iff_exists.mp hpc
  have hg2 := hg1.unlink (update s.conns c { s.conns c with peerInfo := none }) s.lockedPeer fun d r hd => by
      rcases eq_or_ne d c with rfl | hdc
      · rw [update_self] at hd
        exact absurd hd (by simp)
      · exact update_of_ne hdc _ _
  obtain ⟨s3, heq3, hg3, hp3, hfree, -⟩ := disconnectLocked_spec hg2 hp (hread.trans hc) fastReconnect time
  obtain ⟨s4, i, heq4, hc4, he⟩ := erasePeerPtr_spec hg3.census hm hp3
  refine ⟨s4, ?_, hc4, he.linked hg3.census hg3.linked hfree⟩
  unfold closeDuplicate
  simp only [hread, hc, bind_eq_bind, bind_some]
  exact (congrArg (bind · _) heq3).trans heq4

theorem updatePeerPort_good (hp : p ∈ s.peers) (hcon : (s.heap p).connection.isSome = true)
    (port : Int) (src : Source) (fastReconnect : Bool) (time : Int) :
    ∃ s' b, updatePeerPort cfg s port p src fastReconnect time = some (s', b) ∧ Good cfg s' := by
  unfold updatePeerPort
  split
  · exact ⟨s, true, rfl, hg⟩
  split
  · rename_i hm
    have hkey : ∀ r, key cfg (s.heap r) = s.ip r := fun r => by rw [key, hm, if_pos rfl]; rfl
    have hnewkey : ∀ t : Policy A, t.heap = s.heap →
        key cfg ((t.heap p).ported port src) = ((s.heap p).address, (port % 65536).toNat) := by
      intro t ht
      rw [key, hm, if_pos rfl, ht]
      rfl
    rcases findEndpoint_spec hg.census ((s.heap p).address, (port % 65536).toNat) with ⟨heq, hnone⟩ | ⟨hne, q, hq, hip⟩
    · rw [if_pos heq]
      refine ⟨_, _, rfl, setPort_good hg hp fun r hr _ hk => hnone r hr ?_⟩
      rw [← hkey, ← hk, hnewkey s rfl]
    rw [if_neg hne]
    simp only [hq, bind_eq_bind, bind_some]
    split
    · rename_i hqc
      obtain ⟨s', heq, hg'⟩ := closeDuplicate_good hg hm hp hcon (mem_of_getElem? hq) hqc src fastReconnect time
      exact ⟨s', false, by rw [heq]; rfl, hg'⟩
    -- the entry that has the endpoint goes
    rename_i hqc
    have hqnone : (s.heap q).connection = none := by simpa using hqc
    obtain ⟨s', heq, hw, he, -⟩ := erasePeer_weeded hg.census hg.linked
      (i := (s.findEndpoint ((s.heap p).address, (port % 65536).toNat) : Nat))
      (by rw [Policy.peerAt, if_pos (natCast_nonneg _), toNat_natCast]; exact hq) hqnone
    simp only [heq, bind_some]
    refine ⟨_, _, rfl, setPort_good ⟨hw.census, hw.linked⟩ (hw.connected p hp ?_) fun r hr hrp hk => ?_⟩
    · intro h
      rw [h] at hcon
      exact absurd hcon (by decide)
    obtain ⟨hr, hrq⟩ := (he.mem hg.census).mp hr
    rw [hnewkey s' hw.heap, hw.heap, hkey] at hk
    refine hg.census.key_ne (mem_of_getElem? hq) r hr hrq ?_
    rw [hkey, hkey, hip, hk]
  · rename_i hm
    refine ⟨_, _, rfl, setPort_good hg hp fun r hr hrp => ?_⟩
    have hsame : key cfg ((s.heap p).ported port src) = key cfg (s.heap p) := by
      rw [key, key, if_neg hm, if_neg hm]
      rfl
    rw [hsame]
    exact hg.census.key_ne hp r hr hrp

theorem recalculateConnectCandidates_good (isFinished : Bool) :
    Good cfg (recalculateConnectCandidates cfg s isFinished) := by
  unfold recalculateConnectCandidates
  split
  · exact hg
  · exact ⟨⟨hg.census.sorted, hg.census.unique, rfl, hg.census.seeds, hg.census.robin, hg.census.regular⟩,
      hg.linked.link, hg.linked.webSeeds⟩

theorem addWebSeed_good (address : A) :
    Good cfg { s.write s.next { new address 0 true 0 with webSeed := true } with next := s.next + 1 } := by
  refine ⟨hg.census.congr rfl (fun q hq => ?_) rfl rfl rfl rfl (le_succ _),
    hg.linked.insert hg.lt_next (fun _ => rfl) (fun _ h => h) rfl rfl rfl⟩
  exact update_of_ne (Nat.ne_of_lt (hg.census.regular q hq).1) _ _

end

/-! ## Sequences of calls -/

/-- What the callers promise: peers that are in use, `set_seed` and `update_peer_port` for connected ones, and new
connections. -/
def Promised (s : Policy A) : Call A → Prop
  | .newConnection _ c _ _ _ => (∀ i ∈ s.peers, (s.heap i).connection ≠ some c) ∧ (s.conns c).disconnecting = false
  | .setConnection p _ => InUse s p ∧ (s.heap p).connection = none
  | .banPeer p | .setFailcount p _ => InUse s p
  | .setSeed p _ => InUse s p ∧ (s.heap p).connection.isSome
  | .updatePeerPort _ p _ _ _ => p ∈ s.peers ∧ (s.heap p).connection.isSome
  | _ => True

instance : ∀ (s : Policy A) (a : Call A), Decidable (Promised s a) := by
  intro s a
  cases a <;> unfold Promised <;> try unfold InUse
  all_goals infer_instance

theorem call_good (hg : Good cfg s) {a : Call A} (hpre : Promised s a) : ∃ s', call cfg s a = some s' ∧
    Good cfg s' := by
  cases a with
  | addPeer env remote src flags => exact addPeer_good hg remote src flags
  | newConnection env c remote sockets time =>
    obtain ⟨s', taken, heq, hg'⟩ := newConnection_good env hg hpre.1 hpre.2 remote sockets time
    exact ⟨s', by rw [call, heq]; rfl, hg'⟩
  | connectionClosed c error fastReconnect time =>
    obtain ⟨s', heq, hclosed⟩ := disconnect_spec hg c error fastReconnect time
    exact ⟨s', heq, hclosed.good⟩
  | setConnection p c => exact ⟨_, rfl, setConnection_good hg hpre.1 hpre.2 c⟩
  | banPeer p => exact ⟨_, rfl, banPeer_good hg hpre⟩
  | setSeed p seed => exact ⟨_, rfl, setSeed_good hg hpre.1 hpre.2 seed⟩
  | setFailcount p f => exact ⟨_, rfl, setFailcount_good hg hpre f⟩
  | updatePeerPort port p src fastReconnect time =>
    obtain ⟨s', b, heq, hg'⟩ := updatePeerPort_good hg hpre.1 hpre.2 port src fastReconnect time
    exact ⟨s', by rw [call, heq]; rfl, hg'⟩
  | erasePeers env force =>
    obtain ⟨s', heq, hw⟩ := erasePeers_spec env hg.census hg.linked force
    exact ⟨s', heq, hw.census, hw.linked⟩
  | findConnectCandidate env time =>
    obtain ⟨s', k, heq, hw⟩ := findConnectCandidate_spec env hg.census hg.linked time
    exact ⟨s', by rw [call, heq]; rfl, hw.census, hw.linked⟩
  | recalculateConnectCandidates isFinished => exact ⟨_, rfl, recalculateConnectCandidates_good hg isFinished⟩
  | addWebSeed address => exact ⟨_, rfl, addWebSeed_good hg address⟩

theorem new_good (memory : Ptr → Peer A) (outgoing : Conn → Bool) : Good cfg (Policy.new memory outgoing) :=
  ⟨⟨.nil, .nil, rfl, rfl, ⟨le_refl 0, le_refl 0⟩, fun _ h => absurd h not_mem_nil⟩,
    fun _ _ h => absurd h (by simp [Policy.new]), fun _ h => absurd h (not_lt_zero _)⟩

def Allowed (s : Option (Policy A)) (a : Call A) : Prop := ∀ t ∈ s, Promised t a

instance : ∀ (s : Option (Policy A)) (a : Call A), Decidable (Allowed s a)
  | none, _ => isTrue fun _ h => absurd h (by simp)
  | some s, a => decidable_of_iff (Promised s a) ⟨fun h _ ht => Option.some.inj ht ▸ h, fun h => h s rfl⟩

/-- The list is sorted by address, has one entry for an address (for an endpoint, if several connections to an address
are allowed), and the counters and the place of the round robin are right. -/
structure WellKept (cfg : Config A) (s : Policy A) : Prop where
  sorted : s.peers.Pairwise fun p q => (s.heap p).address ≤ (s.heap q).address
  unique : s.peers.Pairwise fun p q =>
    if cfg.allowMultipleConnectionsPerIp then s.ip p ≠ s.ip q else (s.heap p).address ≠ (s.heap q).address
  candidates : s.numConnectCandidates = s.peers.countP fun p => isConnectCandidate cfg (s.heap p) s.finished
  seeds : s.numSeeds = s.peers.countP fun p => (s.heap p).seed
  robin : 0 ≤ s.roundRobin ∧ s.roundRobin ≤ s.size

theorem Census.wellKept (hc : Census cfg s) : WellKept cfg s := by
  refine ⟨hc.sorted, hc.unique.imp fun {p q} h => ?_, hc.candidates, hc.seeds, hc.robin⟩
  split
  · rename_i hm
    rw [key, key, if_pos hm, if_pos hm] at h
    exact h
  · rename_i hm
    rw [key, key, if_neg hm, if_neg hm] at h
    exact fun he => h (by rw [he])

/-- **The peer list.** Every sequence of calls keeps it, and nothing outside the list is read or erased. -/
theorem peer_list_invariant (cfg : Config A) (memory : Ptr → Peer A) (outgoing : Conn → Bool) (calls : List (Call A))
    (hpre : Legal (step cfg) Allowed (some (Policy.new memory outgoing)) calls) :
    Always (step cfg) (fun o => ∃ s, o = some s ∧ WellKept cfg s) (some (Policy.new memory outgoing)) calls := by
  have hstep : ∀ (o : Option (Policy A)) (a : Call A), (∃ s, o = some s ∧ Good cfg s) → Allowed o a →
      ∃ s, step cfg o a = some s ∧ Good cfg s := by
    rintro _ a ⟨s, rfl, hg⟩ hallowed
    exact call_good hg (hallowed s rfl)
  refine Always.mono ?_ (always_of_step hstep ⟨_, rfl, new_good memory outgoing⟩ hpre)
  rintro o ⟨s, rfl, hg⟩
  exact ⟨s, rfl, hg.census.wellKept⟩

/-- Default settings, but with several connections to an address and at most four peers. -/
def smallConfig : Config Nat :=
  { allowMultipleConnectionsPerIp := true, maxFailcount := 3, minReconnectTime := 60, maxPeerlistSize := 4,
    maxPausedPeerlistSize := 4, noConnectPrivilegedPorts := true, banWebSeeds := true, onlyI2p := false,
    portBlocked := fun _ => false, unusable := fun a => a = 0 }

def quietEnv : Env Nat :=
  { paused := false, random := 0, mallocFails := false, ipBlocked := fun _ => false, trustPoints := fun _ => 0,
    isLocal := fun _ => false, cidrDistance := fun a => a, asRate := none }

/-- Peers from a tracker and from the resume data, one of which connects to us as well and then tells us its port: the
incoming connection is a duplicate. -/
def busyCalls : List (Call Nat) :=
  [.addPeer quietEnv (5, 6881) tracker 0, .addPeer quietEnv (3, 6881) resumeData 2,
    .addPeer quietEnv (7, 6881) tracker 0,
    .findConnectCandidate quietEnv 100, .setConnection 0 10, .setSeed 0 true,
    .newConnection quietEnv 11 (5, 40000) ⟨false, false, false, true, false, false⟩ 101,
    .updatePeerPort 6881 3 incoming false 102, .setFailcount 1 3, .addPeer quietEnv (9, 6881) tracker 0,
    .addPeer quietEnv (8, 6881) tracker 0, .connectionClosed 10 1 false 103, .recalculateConnectCandidates true,
    .banPeer 2, .erasePeers quietEnv true]

theorem peer_list_invariant_busyCalls :
    Legal (step smallConfig) Allowed (some (Policy.new (fun _ => Peer.new 0 0 false 0) fun c => c = 10)) busyCalls ∧
      Always (step smallConfig) (fun o => ∃ s, o = some s ∧ WellKept smallConfig s)
        (some (Policy.new (fun _ => Peer.new 0 0 false 0) fun c => c = 10)) busyCalls :=
  ⟨by decide +kernel, peer_list_invariant smallConfig _ _ busyCalls (by decide +kernel)⟩

/-- **The links.** After every call the entry of a connection exists and has that connection, which is not closing. -/
theorem links_stay (cfg : Config A) (memory : Ptr → Peer A) (outgoing : Conn → Bool) (calls : List (Call A))
    (hpre : Legal (step cfg) Allowed (some (Policy.new memory outgoing)) calls) :
    Always (step cfg) (fun o => ∃ s, o = some s ∧ Linked s) (some (Policy.new memory outgoing)) calls := by
  refine (always_of_step (P := fun o => ∃ s, o = some s ∧ Good cfg s) ?_ ⟨_, rfl, new_good memory outgoing⟩
    hpre).mono ?_
  · rintro _ a ⟨s, rfl, hg⟩ hallowed
    exact call_good hg (hallowed s rfl)
  · rintro _ ⟨s, rfl, hg⟩
    exact ⟨s, rfl, hg.linked⟩

theorem links_stay_busyCalls : Always (step smallConfig) (fun o => ∃ s, o = some s ∧ Linked s)
    (some (Policy.new (fun _ => Peer.new 0 0 false 0) fun c => c = 10)) busyCalls :=
  links_stay smallConfig _ _ busyCalls (by decide +kernel)

end Libtorrent.PeerList
