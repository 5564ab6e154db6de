import Libtorrent.Dht.Items

/-!
# Announced peers

`m_map` of `node_impl` under the `announce_peer` requests whose arguments and token have been accepted. The times of the
peers and their order in the set are left out.

* `announce_keeps`: the table stays within its limit, and what an announce may cost the torrents that are stored, unless
  its own torrent is stored in a full table.
-/

namespace Libtorrent.Dht

open Run Bencode Std TreeMap

structure PeerEntry where
  addr : Endpoint
  seed : Bool
deriving DecidableEq

structure TorrentEntry where
  name : Bytes := []
  peers : List PeerEntry := []

def TorrentEntry.numPeers (v : TorrentEntry) : Int := int32 v.peers.length

/-- `table_t`. -/
abbrev Torrents := TreeMap Bytes TorrentEntry

structure Announce extends PeerEntry where
  infoHash : Bytes
  name : Option Bytes

namespace Torrents

/-- The loop that looks for the torrent to remove. `num_peers` is the number of peers of the candidate. -/
def candidate (infoHash : Bytes) (l : List (Bytes × TorrentEntry)) (c : Bytes × TorrentEntry) : Bytes × TorrentEntry :=
  l.foldl (fun c i => if c.2.numPeers < i.2.numPeers ∨ i.1 = infoHash then c else i) c

def makeRoom (maxTorrents : Nat) (infoHash : Bytes) (t : Torrents) : Torrents :=
  match t.toList with
  | [] => t
  | x :: l => if maxTorrents ≤ int32 t.size then t.erase (candidate infoHash (x :: l) x).1 else t

def announced (a : Announce) (v : TorrentEntry) : TorrentEntry where
  name := if v.name.isEmpty then (a.name.getD []).take 50 else v.name
  peers := a.toPeerEntry :: v.peers.filter (·.addr ≠ a.addr)

def announce (maxTorrents : Nat) (t : Torrents) (a : Announce) : Torrents :=
  let t := makeRoom maxTorrents a.infoHash t
  t.insert a.infoHash (announced a (t.getD a.infoHash {}))

/-- What an announce keeps: for a stored torrent every other torrent, and its own peers at other endpoints; for a new
torrent every torrent that has more peers than another. -/
def Keeps (maxTorrents : Nat) (t : Torrents) (a : Announce) : Prop :=
  let t' := announce maxTorrents t a
  if a.infoHash ∈ t then
    (∀ k, k ≠ a.infoHash → t'[k]? = t[k]?) ∧
    ∀ p ∈ (t.getD a.infoHash {}).peers, p.addr ≠ a.addr → p ∈ (t'.getD a.infoHash {}).peers
  else ∀ k ∈ t, k ∉ t' → ∀ j ∈ t, (t.getD k {}).peers.length ≤ (t.getD j {}).peers.length

variable {maxTorrents : Nat} {t : Torrents}

theorem candidate_spec (infoHash : Bytes) : ∀ (l : List (Bytes × TorrentEntry)) (x : Bytes × TorrentEntry),
    candidate infoHash l x ∈ x :: l ∧ (candidate infoHash l x).2.numPeers ≤ x.2.numPeers ∧
      ∀ i ∈ l, i.1 ≠ infoHash → (candidate infoHash l x).2.numPeers ≤ i.2.numPeers
  | [], x => by simp [candidate]
  | y :: l, x => by
    rw [candidate, List.foldl_cons, ← candidate]
    split
    · have ⟨hmem, hx, hl⟩ := candidate_spec infoHash l x
      grind
    · have ⟨hmem, hy, hl⟩ := candidate_spec infoHash l y
      grind

theorem makeRoom_spec (infoHash : Bytes) (hmax : maxTorrents < 2 ^ 31) (hsize : t.size ≤ maxTorrents) :
    makeRoom maxTorrents infoHash t = t ∧ (t.size < maxTorrents ∨ t.size = 0) ∨
      t.size = maxTorrents ∧ ∃ k v, t[k]? = some v ∧ makeRoom maxTorrents infoHash t = t.erase k ∧
        ∀ j w, t[j]? = some w → j ≠ infoHash → v.numPeers ≤ w.numPeers := by
  unfold makeRoom
  have hlen : t.toList.length = t.size := length_toList
  split
  · grind
  rename_i x l hl
  rw [int32_eq (by omega)]
  split
  · obtain ⟨hmem, -, hmin⟩ := candidate_spec infoHash (x :: l) x
    generalize candidate infoHash (x :: l) x = c at hmem hmin
    rw [← hl] at hmin
    have hc : (c.1, c.2) ∈ t.toList := by
      rw [hl]
      simpa using hmem
    refine Or.inr ⟨by omega, c.1, c.2, mem_toList_iff_getElem?_eq_some.mp hc, rfl, fun j w hj => ?_⟩
    exact hmin (j, w) (mem_toList_iff_getElem?_eq_some.mpr hj)
  · exact Or.inl ⟨rfl, by omega⟩

theorem size_announce (h1 : 1 ≤ maxTorrents) (hmax : maxTorrents < 2 ^ 31) (a : Announce)
    (hsize : t.size ≤ maxTorrents) :
    (announce maxTorrents t a).size ≤ maxTorrents := by
  simp only [announce, size_insert]
  rcases makeRoom_spec a.infoHash hmax hsize with ⟨h, hlt⟩ | ⟨heq, k, v, hk, h, -⟩
  · rw [h]
    split <;> omega
  · have hmem : t.contains k := by
      rw [contains_eq_isSome_getElem?, hk]
      rfl
    rw [h, size_erase, if_pos hmem]
    split <;> omega

theorem keeps_announce (hmax : maxTorrents < 2 ^ 31) (hsize : t.size ≤ maxTorrents) (a : Announce)
    (hstored : a.infoHash ∈ t → t.size < maxTorrents) (hpeers : ∀ x ∈ t.toList, x.2.peers.length < 2 ^ 31) :
    Keeps maxTorrents t a := by
  simp only [Keeps]
  have hroom := makeRoom_spec a.infoHash hmax hsize
  split
  · have hroom : makeRoom maxTorrents a.infoHash t = t := by grind
    simp only [announce, hroom, getElem?_insert, getD_insert_self, announced]
    refine ⟨fun k hk => if_neg fun he => hk (LawfulEqCmp.eq_of_compare he).symm, fun p hp hne => ?_⟩
    simp [hp, hne]
  intro k hk hlost j hj
  have hlost : k ∉ makeRoom maxTorrents a.infoHash t := fun hm => hlost (mem_insert.mpr (Or.inr hm))
  rcases hroom with ⟨h, -⟩ | ⟨-, k', v, hk', h, hmin⟩
  · exact absurd hk (h ▸ hlost)
  -- the torrent that is gone is the candidate
  rw [h, mem_erase] at hlost
  obtain rfl : k' = k := by
    by_contra hne
    exact hlost ⟨by simpa using hne, hk⟩
  have hget : ∀ k ∈ t, t[k]? = some (t.getD k {}) := fun _ => getElem?_eq_some_getD
  have hle := hmin j _ (hget j hj) (by rintro rfl; contradiction)
  have hlt : ∀ k ∈ t, (t.getD k {}).peers.length < 2 ^ 31 := fun k hk =>
    hpeers (k, _) (mem_toList_iff_getElem?_eq_some.mpr (hget k hk))
  rw [← Option.some.inj ((hget k' hk).symm.trans hk'), TorrentEntry.numPeers, TorrentEntry.numPeers,
    int32_eq (hlt _ hk), int32_eq (hlt _ hj)] at hle
  omega

/-- **The torrents of the announces.** -/
theorem announce_keeps (h1 : 1 ≤ maxTorrents) (hmax : maxTorrents < 2 ^ 31) (as : List Announce) :
    let t := run (announce maxTorrents) ∅ as
    t.size ≤ maxTorrents ∧ ∀ a : Announce, (a.infoHash ∈ t → t.size < maxTorrents) →
      (∀ x ∈ t.toList, x.2.peers.length < 2 ^ 31) → Keeps maxTorrents t a := by
  intro t
  have hsize : t.size ≤ maxTorrents := inv_run_all (P := fun t : Torrents => t.size ≤ maxTorrents)
    (fun _ a => size_announce h1 hmax a) (Nat.zero_le _) as
  exact ⟨hsize, keeps_announce hmax hsize⟩

/-- An announcement for the torrent whose info-hash is 20 times the byte `x`. -/
def announceOf (x : UInt8) (port : UInt16) : Announce := ⟨⟨⟨.v4 1, port⟩, false⟩, List.replicate 20 x, none⟩

theorem announce_keeps_new : Keeps 1 (run (announce 1) ∅ [announceOf 1 1]) (announceOf 2 1) :=
  (announce_keeps (by decide) (by decide) [announceOf 1 1]).2 (announceOf 2 1) (by decide) (by decide)

/-- At the limit the only torrent is removed by its own second announce, with the first peer. -/
theorem own_torrent_removed : ¬ Keeps 1 (run (announce 1) ∅ [announceOf 1 1]) (announceOf 1 2) := by
  intro h
  rw [Keeps, if_pos (by decide)] at h
  exact absurd (h.2 ⟨⟨.v4 1, 1⟩, false⟩ (by decide) (by decide)) (by decide)

end Torrents

end Libtorrent.Dht
