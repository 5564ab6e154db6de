import Libtorrent.PeerList.Bookkeeping

/-!
# The limit of the peer list

`erase_peers` and `insert_peer` take a limit of 0 for none, and that of a paused torrent is another one;
`new_connection` compares with `max_peerlist_size` in any case.
-/

namespace Libtorrent.PeerList

open Option

variable {A : Type} [LinearOrder A] {cfg : Config A} {env : Env A} {s s' : Policy A} {i j k : Int}

variable (cfg env) in
/-- The entries that `erase_peers` looks at, if it erases none of them on the way. -/
def examined (s : Policy A) : List Ptr :=
  if peerlistLimit cfg env = 0 ∨ s.size < lowWatermark cfg env then []
  else (List.range (min s.peers.length 300)).filterMap fun (t : Nat) =>
    s.peerAt (((env.random % s.peers.length : Nat) + (t : Int)) % s.size)

omit [LinearOrder A] in
theorem erasePeer_size (h : erasePeer cfg s i = some s') : s'.size = s.size - 1 := by
  obtain ⟨p, hp, rfl⟩ := map_eq_some_iff.mp h
  exact Erased.size ⟨rfl, hp, rfl, rfl, rfl, rfl, rfl⟩

omit [LinearOrder A] in
/-- The list does not grow, and if it does not get shorter without a candidate, there was none. -/
theorem eraseLoop_size {low : Int} {n : Nat} {r : Policy A × Int × Int} (h : eraseLoop cfg env low n s i j k = some r) :
    r.1.size ≤ s.size ∧ (r.1.size = s.size → 0 ≤ i → i ≤ s.size → r.2.2 < 0 → k < 0 ∧ (k = -1 → low ≤ s.size →
      ∀ t < n, ∀ p, s.peerAt ((i + t) % s.size) = some p → isForceEraseCandidate s p = false)) := by
  induction n generalizing s i j k with
  | zero =>
    obtain rfl := some.inj h
    exact ⟨le_rfl, fun _ _ _ hk => ⟨hk, fun _ _ t ht => absurd ht t.not_lt_zero⟩⟩
  | succ n ih =>
    rw [eraseLoop] at h
    split at h
    · rename_i hlow
      obtain rfl := some.inj h
      exact ⟨le_rfl, fun _ _ _ hk => ⟨hk, fun _ h => absurd hlow (not_lt.mpr h)⟩⟩
    simp only [bind_eq_bind, bind_eq_some_iff] at h
    obtain ⟨p, hp, erase, -, h⟩ := h
    generalize hcur : (if i = s.size then 0 else i) = current at h hp
    split at h
    · obtain ⟨s1, h1, h⟩ := bind_eq_some_iff.mp h
      have h2 := (ih h).1
      have h3 := erasePeer_size h1
      exact ⟨by omega, fun he => by omega⟩
    obtain ⟨force, hforce, h⟩ := bind_eq_some_iff.mp h
    have hlt := lt_size_of_peerAt hp
    have h0 := (getElem_of_peerAt hp).1
    refine ⟨(ih h).1, fun he hi0 hi hk => ?_⟩
    obtain ⟨hk1, hrest⟩ := (ih h).2 he (by omega) (by omega) hk
    obtain rfl : force = false := by
      cases force with
      | false => rfl
      | true => exact absurd hk1 (by rw [if_pos rfl]; omega)
    refine ⟨hk1, fun hnone hlow t ht q hq => ?_⟩
    -- the way round the list
    have hmod : current = i % s.size := by
      subst hcur
      split
      · rename_i hend
        rw [hend, Int.emod_self]
      · rw [Int.emod_eq_of_lt hi0 (by omega)]
    cases t with
    | zero =>
      rw [Int.natCast_zero, Int.add_zero, ← hmod, hp] at hq
      obtain rfl := some.inj hq
      cases hc : isForceEraseCandidate s p with
      | false => rfl
      | true =>
        rw [hnone, replaces, hc] at hforce
        cases hforce
    | succ t =>
      refine hrest hnone hlow t (by omega) q ?_
      rw [hmod, Int.add_assoc, Int.emod_add_emod, ← hq]
      congr 3
      omega

omit [LinearOrder A] in
theorem erasePeers_size {force : Bool} (h : erasePeers cfg env s force = some s') : s'.size ≤ s.size ∧
    (force = true → s'.size = s.size → ∀ p ∈ examined cfg env s, isForceEraseCandidate s p = false) := by
  unfold erasePeers at h
  unfold examined
  split at h
  · rename_i hnone
    obtain rfl := some.inj h
    refine ⟨le_rfl, fun _ _ p hp => ?_⟩
    rcases hnone with hz | hnil
    · simp [hz] at hp
    · simp [hnil] at hp
  rename_i hsome
  obtain ⟨hlim, hne⟩ := not_or.mp hsome
  obtain ⟨⟨s1, j, k⟩, hloop, h⟩ := bind_eq_some_iff.mp h
  obtain ⟨hle, hquiet⟩ := eraseLoop_size hloop
  have hpos : 0 < s.peers.length := List.length_pos_iff.mpr hne
  have hstart : ((env.random % s.peers.length : Nat) : Int) ≤ s.size := by
    have := Nat.mod_lt env.random hpos
    unfold Policy.size
    omega
  dsimp only at h hle hquiet
  split at h
  · have := erasePeer_size h
    exact ⟨by omega, fun _ _ => by omega⟩
  split at h
  · have := erasePeer_size h
    exact ⟨by omega, fun _ _ => by omega⟩
  rename_i hk
  obtain rfl := some.inj h
  refine ⟨hle, fun hf he p hp => ?_⟩
  split at hp
  · cases hp
  rename_i hlow
  obtain ⟨t, ht, htp⟩ := List.mem_filterMap.mp hp
  obtain ⟨-, hlow⟩ := not_or.mp hlow
  exact (hquiet he (by omega) hstart (by simp only [hf, true_and] at hk; omega)).2 rfl (not_lt.mp hlow) t
    (List.mem_range.mp ht) p htp

variable {time : Int}

theorem connectionClosed_size {p : Ptr} {failed fast : Bool}
    (h : connectionClosed cfg s p failed fast time = some s') : s'.size ≤ s.size := by
  unfold connectionClosed erasePeerPtr at h
  dsimp only at h
  split at h
  · split at h
    · exact (some.inj h) ▸ le_rfl
    · exact (erasePeer_size h).trans_le (Int.sub_le_self _ Int.one_nonneg)
  · exact (some.inj h) ▸ le_rfl

theorem disconnect_size {c : Conn} {error : Nat} {fast : Bool}
    (h : disconnect cfg s c error fast time = some s') : s'.size ≤ s.size := by
  unfold disconnect at h
  split at h
  · exact (some.inj h) ▸ le_rfl
  split at h
  · exact (some.inj h) ▸ le_rfl
  · obtain ⟨s1, h1, h⟩ := bind_eq_some_iff.mp h
    obtain rfl := some.inj h
    have hle := connectionClosed_size h1
    exact hle

theorem disconnectLocked_size {p : Ptr} {c : Conn} {fast : Bool}
    (h : disconnectLocked cfg s p c fast time = some s') : s'.size ≤ s.size := by
  obtain ⟨s1, h1, h⟩ := bind_eq_some_iff.mp h
  obtain rfl := some.inj h
  have hle := disconnect_size h1
  exact hle

omit [LinearOrder A] in
theorem insertIdx_size (s : Policy A) (iter : Nat) (p : Ptr) :
    ((s.peers.insertIdx iter p).length : Int) ≤ s.size + 1 := by
  unfold Policy.size
  rw [List.length_insertIdx]
  split <;> omega

/-- An entry that `add_peer` adds is within the limit of the torrent as it is, paused or not. -/
theorem addPeer_size {remote : A × Nat} {src : Source} {flags : Nat}
    (h : addPeer cfg env s remote src flags = some s') :
    s'.size ≤ s.size ∨ s'.size ≤ s.size + 1 ∧ (0 < peerlistLimit cfg env → s'.size ≤ peerlistLimit cfg env) := by
  have hsame (he : some s = some s') : s'.size ≤ s.size := (some.inj he) ▸ le_rfl
  have hadd {u : Policy A} {x : Peer A} {iter : Nat} (he : some (insertCounted cfg u x iter flags) = some s') :
      s'.size ≤ u.size + 1 := by
    obtain rfl := some.inj he
    exact insertIdx_size u iter u.next
  unfold addPeer insertPeer at h
  dsimp only at h
  iterate 5
    split at h
    · exact .inl (hsame h)
  split at h
  · exact .inl ((some.inj h) ▸ le_rfl)
  split at h
  · exact .inl (hsame h)
  split at h
  · split at h
    · exact .inl (hsame h)
    obtain ⟨s1, h1, h⟩ := bind_eq_some_iff.mp h
    have hle := (erasePeers_size h1).1
    split at h
    · exact .inl ((some.inj h) ▸ hle)
    · have := hadd h
      exact .inr ⟨by omega, fun _ => by omega⟩
  · have := hadd h
    exact .inr ⟨this, fun _ => by omega⟩

section

variable (hfit : s.size ≤ cfg.maxPeerlistSize)
include hfit

theorem newConnection_size {c : Conn} {remote : A × Nat} {sockets : Sockets} {taken : Bool}
    (h : newConnection cfg env s c remote sockets time = some (s', taken)) : s'.size ≤ cfg.maxPeerlistSize := by
  have hrefuse {u : Policy A} {error : Nat} (hu : u.size ≤ s.size)
      (hr : (disconnect cfg u c error sockets.fastReconnect time).map (·, false) = some (s', taken)) :
      s'.size ≤ cfg.maxPeerlistSize := by
    obtain ⟨s1, h1, he⟩ := map_eq_some_iff.mp hr
    cases he
    exact ((disconnect_size h1).trans hu).trans hfit
  have hreplace {p : Ptr} {other : Conn}
      (hr : (disconnectLocked cfg s p other sockets.otherFastReconnect time).bind (fun s =>
        some (attachFound cfg s p c sockets.fastReconnect time, true)) = some (s', taken)) :
      s'.size ≤ cfg.maxPeerlistSize := by
    obtain ⟨s1, h1, he⟩ := bind_eq_some_iff.mp hr
    cases he
    exact (disconnectLocked_size h1).trans hfit
  unfold newConnection at h
  split at h
  · split at h
    · exact hrefuse le_rfl h
    split at h
    · cases h
      exact hfit
    split at h
    · exact hrefuse le_rfl h
    split at h
    · obtain ⟨⟨s1, b⟩, h1, h⟩ := bind_eq_some_iff.mp h
      obtain ⟨u, hu, he⟩ := map_eq_some_iff.mp h1
      cases he
      obtain ⟨s2, h2, h⟩ := bind_eq_some_iff.mp h
      cases h
      exact ((disconnect_size h2).trans (disconnect_size hu)).trans hfit
    split at h
    · exact hreplace h
    split at h
    · exact hrefuse le_rfl h
    split at h
    · exact hrefuse le_rfl h
    · exact hreplace h
  · obtain ⟨s1, h1, h⟩ := bind_eq_some_iff.mp h
    have hle : s1.size ≤ s.size := by
      unfold makeRoom at h1
      split at h1
      · exact (erasePeers_size h1).1
      · exact (some.inj h1) ▸ le_rfl
    split at h
    · exact hrefuse hle h
    split at h
    · cases h
      exact hle.trans hfit
    · cases h
      exact (insertIdx_size s1 _ s1.next).trans (by omega)

/-- With memory for the entry a new connection of an unknown peer is refused only by a list that is full. -/
theorem newConnection_refused {c : Conn} {remote : A × Nat} {sockets : Sockets} (hnew : (s.locate cfg remote).2 = none)
    (hmem : env.mallocFails = false) (h : newConnection cfg env s c remote sockets time = some (s', false)) :
    s.size = cfg.maxPeerlistSize ∧
      ∀ p ∈ examined cfg env s, s.lockedPeer = some p ∨ (s.heap p).connection ≠ none := by
  unfold newConnection at h
  split at h
  · rename_i hloc
    rw [hloc] at hnew
    cases hnew
  obtain ⟨s1, hroom, h⟩ := bind_eq_some_iff.mp h
  split at h
  · rename_i hfull
    unfold makeRoom at hroom
    split at hroom
    · obtain ⟨hle, hnone⟩ := erasePeers_size hroom
      refine ⟨by omega, fun p hp => ?_⟩
      have hc := hnone rfl (by omega) p hp
      simp only [isForceEraseCandidate, Bool.and_eq_false_iff, decide_eq_false_iff_not, not_not] at hc
      exact hc.imp_right fun h => isSome_iff_ne_none.mp (by simpa using h)
    · rename_i hlt
      obtain rfl := some.inj hroom
      exact absurd hfull hlt
  · simp [hmem] at h

end

def noPeers : Policy Nat := .new (fun _ => Peer.new 0 0 false 0) fun _ => false

def oneSocket : Sockets := ⟨false, false, false, true, false, false⟩

end Libtorrent.PeerList
