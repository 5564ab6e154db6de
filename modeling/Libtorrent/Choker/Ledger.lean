import Libtorrent.Lib.SortedList
import Mathlib.Logic.Function.Basic

/-!
# Upload slots

Who is choked and unchoked: the two recalculations of the session, the messages about interest, closing connections and
pausing torrents. The transfer rates, the orders in which peers are sorted and shuffled, and what other parts of the
program know about connections and torrents are inputs. `recalculate_unchoke_slots` and its sibling may come at any
time, so that the time scalers are left out. A connection has a `policy::peer` exactly while it has a torrent.
-/

namespace Libtorrent.Choker

inductive ChokingAlgorithm where
  | fixedSlotsChoker
  | autoExpandChoker
  | rateBasedChoker
  | bittyrantChoker
  deriving DecidableEq

structure Settings where
  chokingAlgorithm : ChokingAlgorithm
  unchokeSlotsLimit : Int
  numOptimisticUnchokeSlots : Int

structure Peer where
  torrent : Nat
  webSeed : Bool
  optimisticallyUnchoked : Bool
  deriving DecidableEq

structure Connection where
  peer : Option Peer
  ignoreUnchokeSlots : Bool
  choked : Bool
  peerInterested : Bool
  disconnecting : Bool
  connecting : Bool
  shareDiff : Int
  outstandingBytes : Int

structure Torrent where
  numUploads : BitVec 24
  maxUploads : BitVec 24
  allowPeers : Bool
  gracefulPauseMode : Bool
  ratioIsZero : Bool
  isFinished : Bool
  isSeed : Bool
  validMetadata : Bool
  readyForConnections : Bool

structure Session where
  settings : Settings
  paused : Bool
  connections : List Nat
  conn : Nat → Connection
  torrent : Nat → Torrent
  numUnchoked : Int
  allowedUploadSlots : Int

def freeUploadAmount : Int := 4 * 16 * 1024

namespace Session

def setConn (s : Session) (c : Nat) (x : Connection) : Session := { s with conn := Function.update s.conn c x }

def setTorrent (s : Session) (t : Nat) (x : Torrent) : Session := { s with torrent := Function.update s.torrent t x }

def isPaused (s : Session) (t : Nat) : Bool :=
  !(s.torrent t).allowPeers || s.paused || (s.torrent t).gracefulPauseMode

end Session

def Connection.withOptimistic (x : Connection) (b : Bool) : Connection :=
  { x with peer := x.peer.map fun peer => { peer with optimisticallyUnchoked := b } }

/-! ## Choking and unchoking -/

variable (s : Session)

def sendChoke (c : Nat) : Session × Bool :=
  let x := (s.conn c).withOptimistic false
  if x.choked then (s.setConn c x, false) else (s.setConn c { x with choked := true }, true)

def sendUnchoke (t c : Nat) : Session × Bool :=
  if !(s.conn c).choked then (s, false)
  else if !(s.torrent t).readyForConnections then (s, false)
  else (s.setConn c { s.conn c with choked := false }, true)

def chokePeer (t c : Nat) : Session × Bool :=
  let (s, sent) := sendChoke s c
  if !sent then (s, false)
  else (s.setTorrent t { s.torrent t with numUploads := (s.torrent t).numUploads - 1 }, true)

def unchokePeer (t c : Nat) (optimistic : Bool) : Session × Bool :=
  if (s.torrent t).numUploads ≥ (s.torrent t).maxUploads ∧ !optimistic then (s, false)
  else
    let (s, sent) := sendUnchoke s t c
    if !sent then (s, false)
    else (s.setTorrent t { s.torrent t with numUploads := (s.torrent t).numUploads + 1 }, true)

def sessionUnchokePeer (t c : Nat) : Session :=
  let (s, done) := unchokePeer s t c false
  if done then { s with numUnchoked := s.numUnchoked + 1 } else s

def sessionChokePeer (t c : Nat) : Session :=
  let (s, done) := chokePeer s t c
  if done then { s with numUnchoked := s.numUnchoked - 1 } else s

/-! ## Closing connections -/

/-- A connection that is unchoked and not exempt takes a slot. -/
def Connection.counted (x : Connection) : Bool := !x.choked && !x.ignoreUnchokeSlots

/-- `torrent::remove_peer`; `policy::connection_closed` clears `optimistically_unchoked`. -/
def removePeer (t c : Nat) : Session :=
  let x := s.conn c
  let s := if x.counted then s.setTorrent t { s.torrent t with numUploads := (s.torrent t).numUploads - 1 } else s
  s.setConn c { x with peer := none }

def closeConnection (c : Nat) : Session :=
  { s with
    numUnchoked := if (s.conn c).counted then s.numUnchoked - 1 else s.numUnchoked
    connections := s.connections.erase c }

def disconnect (c : Nat) : Session :=
  if (s.conn c).disconnecting then s
  else
    let s :=
      match (s.conn c).peer with
      | some peer => removePeer s peer.torrent c
      | none => s
    closeConnection (s.setConn c { s.conn c with disconnecting := true }) c

/-! ## Interest -/

/-- `incoming_interested`. If the connection is redundant, `disconnect_if_redundant` closes it. -/
def incomingInterested (t c : Nat) (redundant : Bool) : Session :=
  let s := s.setConn c { s.conn c with peerInterested := true }
  if (s.conn c).disconnecting then s
  else
    let s := if redundant then disconnect s c else s
    if (s.conn c).disconnecting then s
    else if !(s.conn c).choked then s
    else if (s.conn c).ignoreUnchokeSlots then (sendUnchoke s t c).1
    else if (s.numUnchoked < s.settings.unchokeSlotsLimit ∨ s.settings.unchokeSlotsLimit < 0) ∧
        ((s.torrent t).ratioIsZero ∨ (s.conn c).shareDiff ≥ -freeUploadAmount ∨ (s.torrent t).isFinished) then
      sessionUnchokePeer s t c
    else s

def incomingNotInterested (t c : Nat) : Session :=
  let s := s.setConn c { s.conn c with peerInterested := false }
  if (s.conn c).disconnecting then s
  else if (s.conn c).choked then s
  else if (s.conn c).ignoreUnchokeSlots then (sendChoke s c).1
  else sessionChokePeer (s.setConn c ((s.conn c).withOptimistic false)) t c

/-! ## The recalculations -/

def numOptUnchoke : Int :=
  if s.settings.numOptimisticUnchokeSlots = 0 then max 1 (s.allowedUploadSlots.tdiv 5)
  else s.settings.numOptimisticUnchokeSlots

/-- How often `recalculate_optimistic_unchoke_slots` takes a connection into `opt_unchoke`. -/
def optimisticCandidate (c : Nat) : List Nat :=
  let x := s.conn c
  match x.peer with
  | none => []
  | some pi =>
    if pi.webSeed ∨ s.isPaused pi.torrent then []
    else
      (if pi.optimisticallyUnchoked then [c] else []) ++
      (if !x.connecting ∧ !x.disconnecting ∧ x.peerInterested ∧
          (s.torrent pi.torrent).numUploads < (s.torrent pi.torrent).maxUploads ∧ x.choked ∧ !x.ignoreUnchokeSlots ∧
          (s.torrent pi.torrent).validMetadata then [c] else [])

/-- A step of the loop of `recalculate_optimistic_unchoke_slots`, with `num_opt_unchoke`. All candidates have a peer. -/
def optimisticStep (c : Nat) (num : Int) (s : Session) : Int × Session :=
  match (s.conn c).peer with
  | none => (num, s)
  | some pi =>
    if num > 0 then
      if pi.optimisticallyUnchoked then (num - 1, s)
      else
        let (s, ret) := unchokePeer s pi.torrent c true
        if ret then
          let s := s.setConn c ((s.conn c).withOptimistic true)
          (num - 1, { s with numUnchoked := s.numUnchoked + 1 })
        else (num, s)
    else if pi.optimisticallyUnchoked then
      let s := (chokePeer (s.setConn c ((s.conn c).withOptimistic false)) pi.torrent c).1
      (num, { s with numUnchoked := s.numUnchoked - 1 })
    else (num, s)

def optimisticLoop : List Nat → Int → Session → Session
  | [], _, s => s
  | c :: rest, num, s =>
    let (num, s) := optimisticStep c num s
    optimisticLoop rest num s

def recalculateOptimisticUnchokeSlots (order : List Nat → List Nat) : Session :=
  if s.allowedUploadSlots = 0 then s
  else optimisticLoop (order (s.connections.flatMap (optimisticCandidate s))) (numOptUnchoke s) s

/-- What `recalculate_unchoke_slots` reads of the rates: the two sorts, the upload rates since the last call, the
estimated reciprocation rates, the limit, if the upload rate is below 90 % of it, if fewer torrents are congested than
not, the size of the bandwidth queue, the limit of the upload channel, and the peak of the rate. -/
structure Measurements where
  sortByUpload : List Nat → List Nat
  sort : List Nat → List Nat
  rate : Nat → Int
  estReciprocationRate : Nat → Int
  uploadLimit : Int
  belowLimit : Bool
  uncongested : Bool
  queueSize : Nat
  throttle : Int
  peakUpRate : Int

def unchokable (t : Nat) (x : Connection) : Bool :=
  x.peerInterested && !x.disconnecting && !x.connecting &&
    !(decide (x.shareDiff < -freeUploadAmount) && !(s.torrent t).isSeed)

/-- If the recalculation leaves a connection out. -/
def skipped (x : Connection) : Bool :=
  match x.peer with
  | none => true
  | some pi => x.ignoreUnchokeSlots || pi.webSeed || s.isPaused pi.torrent

/-- The first loop of `recalculate_unchoke_slots`: the peers that may be unchoked; the others are choked. -/
def gatherPeers : List Nat → Session → Session × List Nat
  | [], s => (s, [])
  | c :: rest, s =>
    if skipped s (s.conn c) then gatherPeers rest s
    else
      match (s.conn c).peer with
      | none => gatherPeers rest s
      | some pi =>
        if !unchokable s pi.torrent (s.conn c) then
          if (s.conn c).choked then gatherPeers rest s
          else gatherPeers rest (chokePeer (s.setConn c ((s.conn c).withOptimistic false)) pi.torrent c).1
        else
          let (s, peers) := gatherPeers rest s
          (s, c :: peers)

/-- The number of peers whose rate reaches a threshold that grows. -/
def rateSlots (rate : Nat → Int) : List Nat → Int → Int → Int
  | [], _, slots => slots
  | c :: rest, rateThreshold, slots =>
    if rate c < rateThreshold then slots else rateSlots rate rest (rateThreshold + 1024) (slots + 1)

def allowedSlots (m : Measurements) (peers : List Nat) : Int :=
  match s.settings.chokingAlgorithm with
  | .rateBasedChoker => rateSlots m.rate (m.sortByUpload peers) 1024 0 + 1
  | .autoExpandChoker =>
    if m.uploadLimit > 0 then
      if m.belowLimit ∧ s.allowedUploadSlots ≤ s.numUnchoked + 1 ∧ m.uncongested ∧ m.queueSize < 2 then
        s.allowedUploadSlots + 1
      else if m.queueSize > 1 ∧ s.allowedUploadSlots > s.settings.unchokeSlotsLimit ∧
          s.settings.unchokeSlotsLimit ≥ 0 then s.allowedUploadSlots - 1
      else s.allowedUploadSlots
    else s.allowedUploadSlots
  | _ => s.allowedUploadSlots

def sortedPeers (m : Measurements) (peers : List Nat) : List Nat :=
  match s.settings.chokingAlgorithm with
  | .rateBasedChoker => m.sort (m.sortByUpload peers)
  | _ => m.sort peers

/-- `upload_capacity_left` before the second loop. -/
def uploadCapacity (m : Measurements) : Int :=
  match s.settings.chokingAlgorithm with
  | .bittyrantChoker => if m.throttle = 0 then max 20000 (m.peakUpRate + 10000) else m.throttle
  | _ => 0

/-- If the scheme unchokes the connection. -/
def shouldUnchoke (m : Measurements) (c : Nat) (unchokeSetSize uploadCapacityLeft : Int) : Bool :=
  match s.settings.chokingAlgorithm with
  | .bittyrantChoker => m.estReciprocationRate c ≤ uploadCapacityLeft
  | _ => unchokeSetSize > 0

def unchokeMember (t c : Nat) : Session × Bool :=
  let (s, done) := if (s.conn c).choked then unchokePeer s t c false else (s, true)
  if !done then (s, false)
  else
    let s := s.setConn c ((s.conn c).withOptimistic false)
    ({ s with numUnchoked := s.numUnchoked + 1 }, true)

/-- A connection that is not in the unchoke set. -/
def chokeOther (pi : Peer) (c : Nat) : Session :=
  let s := if !(s.conn c).choked ∧ !pi.optimisticallyUnchoked then (chokePeer s pi.torrent c).1 else s
  if !(s.conn c).choked then { s with numUnchoked := s.numUnchoked + 1 } else s

/-- The second loop of `recalculate_unchoke_slots`. All connections in the list have a peer. -/
def unchokeLoop (m : Measurements) : List Nat → Int → Int → Session → Session
  | [], _, _, s => s
  | c :: rest, unchokeSetSize, uploadCapacityLeft, s =>
    match (s.conn c).peer with
    | none => unchokeLoop m rest unchokeSetSize uploadCapacityLeft s
    | some pi =>
      if shouldUnchoke s m c unchokeSetSize uploadCapacityLeft then
        let (s, done) := unchokeMember s pi.torrent c
        unchokeLoop m rest (if done then unchokeSetSize - 1 else unchokeSetSize)
          (uploadCapacityLeft - m.estReciprocationRate c) s
      else unchokeLoop m rest unchokeSetSize uploadCapacityLeft (chokeOther s pi c)

def recalculateUnchokeSlots (m : Measurements) : Session :=
  let (s, peers) := gatherPeers s.connections s
  let s := { s with allowedUploadSlots := allowedSlots s m peers }
  unchokeLoop m (sortedPeers s m peers) (s.allowedUploadSlots - numOptUnchoke s) (uploadCapacity s m)
    { s with numUnchoked := 0 }

/-! ## Pausing -/

def torrentConnections (t : Nat) : List Nat :=
  s.connections.filter fun c => (s.conn c).peer.any (·.torrent == t)

/-- What `do_pause` does with a connection when the torrent is paused gracefully. -/
def gracefulStep (t : Nat) (s : Session) (c : Nat) : Session :=
  if (s.conn c).outstandingBytes > 0 then
    if !(s.conn c).choked then sessionChokePeer s t c else s
  else disconnect s c

def doPause (t : Nat) : Session :=
  if !s.isPaused t then s
  else if !(s.torrent t).gracefulPauseMode then (torrentConnections s t).foldl disconnect s
  else (torrentConnections s t).foldl (gracefulStep t) s

def Torrent.afterPause (x : Torrent) (graceful : Bool) : Torrent :=
  { x with allowPeers := if !graceful then false else x.allowPeers, gracefulPauseMode := graceful }

def pause (t : Nat) (graceful : Bool) : Session :=
  if !(s.torrent t).allowPeers then s
  else
    let paused := s.setTorrent t ((s.torrent t).afterPause graceful)
    if !s.paused || ((s.torrent t).gracefulPauseMode && !graceful) then doPause paused t else paused

def resume (t : Nat) : Session :=
  let x := s.torrent t
  s.setTorrent t { x with
    allowPeers := true, gracefulPauseMode := if !s.paused then false else x.gracefulPauseMode }

/-! ## Calls -/

/-- The calls. The last two stand for what the rest of the program changes. -/
inductive Call where
  | connect (c : Nat) (ignoreUnchokeSlots : Bool)
  | attach (c t : Nat) (webSeed : Bool)
  | interested (c : Nat) (redundant : Bool)
  | notInterested (c : Nat)
  | recalculateUnchokeSlots (m : Measurements)
  | recalculateOptimisticUnchokeSlots (order : List Nat → List Nat)
  | disconnect (c : Nat)
  | pause (t : Nat) (graceful : Bool)
  | resume (t : Nat)
  | connectionStatus (c : Nat) (connecting : Bool) (shareDiff outstandingBytes : Int)
  | torrentStatus (t : Nat) (maxUploads : BitVec 24) (ratioIsZero isFinished isSeed validMetadata ready : Bool)

/-- A message changes nothing if the connection has no torrent. -/
def withTorrent (c : Nat) (f : Nat → Session) : Session :=
  match (s.conn c).peer with
  | none => s
  | some pi => f pi.torrent

def step : Call → Session
  | .connect c exempt =>
    { s.setConn c ⟨none, exempt, true, false, false, true, 0, 0⟩ with connections := c :: s.connections }
  | .attach c t webSeed => s.setConn c { s.conn c with peer := some ⟨t, webSeed, false⟩ }
  | .interested c redundant => withTorrent s c fun t => incomingInterested s t c redundant
  | .notInterested c => withTorrent s c fun t => incomingNotInterested s t c
  | .recalculateUnchokeSlots m => recalculateUnchokeSlots s m
  | .recalculateOptimisticUnchokeSlots order => recalculateOptimisticUnchokeSlots s order
  | .disconnect c => Choker.disconnect s c
  | .pause t graceful => Choker.pause s t graceful
  | .resume t => Choker.resume s t
  | .connectionStatus c connecting shareDiff outstandingBytes =>
    s.setConn c { s.conn c with connecting, shareDiff, outstandingBytes }
  | .torrentStatus t maxUploads ratioIsZero isFinished isSeed validMetadata ready =>
    s.setTorrent t { s.torrent t with
      maxUploads, ratioIsZero, isFinished, isSeed, validMetadata, readyForConnections := ready }

/-!
## The accounts of single steps

`Sound` says what the connections can look like, `Ledger` that besides every torrent counts its unchoked connections
that are not exempt; `excess` is what the session counts too much. Choking and unchoking a connection that is not exempt
keep the ledger and shift the excess by one (`Ledger.choke`, `Ledger.unchoke`), closing a connection keeps both
(`Ledger.disconnect`), and none of them touches other connections (`Frame`).
-/

open SortedList Function Bool BitVec Connection Session

variable {s s' s'' : Session} {c d t : Nat} {x : Connection} {pi : Peer} {S : Nat → Prop}

def Connection.isOf (x : Connection) (t : Nat) : Bool := x.peer.any (·.torrent == t)

def numCounted (s : Session) : Nat := s.connections.countP fun c => (s.conn c).counted

def numCountedOf (s : Session) (t : Nat) : Nat :=
  s.connections.countP fun c => (s.conn c).counted && (s.conn c).isOf t

/-- What `m_num_unchoked` is too large by. -/
def excess (s : Session) : Int := s.numUnchoked - numCounted s

/-- What a connection looks like while it is open. -/
structure Connection.Sane (x : Connection) : Prop where
  isOpen : x.disconnecting = false
  unchoked : x.choked = false → ∃ pi, x.peer = some pi ∧ pi.webSeed = false
  optimistic : ∀ pi, x.peer = some pi → pi.optimisticallyUnchoked = true →
    x.choked = false ∧ x.ignoreUnchokeSlots = false

structure Sound (s : Session) : Prop where
  nodup : s.connections.Nodup
  sane : ∀ c ∈ s.connections, (s.conn c).Sane
  closed : ∀ c, c ∉ s.connections → (s.conn c).peer = none

structure Ledger (s : Session) : Prop extends Sound s where
  uploads : ∀ t, (s.torrent t).numUploads = BitVec.ofNat 24 (numCountedOf s t)

/-- All accounts are kept, and the session is off by as much as before. -/
abbrev Kept (s s' : Session) : Prop := Ledger s' ∧ excess s' = excess s

theorem Sound.mem (h : Sound s) (hpi : (s.conn c).peer = some pi) : c ∈ s.connections := by
  by_contra hc
  rw [h.closed c hc] at hpi
  exact absurd hpi (by simp)

/-! ## What stays the same -/

/-- A connection without the choke state. -/
def Connection.bare (x : Connection) : Connection := { x.withOptimistic false with choked := true }

def Torrent.bare (x : Torrent) : Torrent := { x with numUploads := 0 }

/-- Only the choke state of connections in `S` changes, and the counters. -/
structure Frame (S : Nat → Prop) (s s' : Session) : Prop where
  connections : s'.connections = s.connections
  others : ∀ d, ¬ S d → s'.conn d = s.conn d
  bare : ∀ d, (s'.conn d).bare = (s.conn d).bare
  torrents : ∀ t, (s'.torrent t).bare = (s.torrent t).bare
  paused : s'.paused = s.paused

theorem Frame.refl (S : Nat → Prop) (s : Session) : Frame S s s :=
  ⟨rfl, fun _ _ => rfl, fun _ => rfl, fun _ => rfl, rfl⟩

theorem Frame.trans (h : Frame S s s') (h' : Frame S s' s'') : Frame S s s'' :=
  ⟨h'.connections.trans h.connections, fun d hd => (h'.others d hd).trans (h.others d hd),
    fun d => (h'.bare d).trans (h.bare d), fun t => (h'.torrents t).trans (h.torrents t), h'.paused.trans h.paused⟩

theorem Frame.mono {S' : Nat → Prop} (h : Frame S s s') (hS : ∀ d, S d → S' d) : Frame S' s s' :=
  { h with others := fun d hd => h.others d fun hd' => hd (hS d hd') }

/-- Candidates for a slot: they have a torrent, and are neither web seeds nor exempt. -/
def Connection.Regular (x : Connection) : Prop :=
  x.ignoreUnchokeSlots = false ∧ ∃ pi, x.peer = some pi ∧ pi.webSeed = false

theorem Connection.regular_bare : x.bare.Regular ↔ x.Regular := by
  cases x with
  | mk peer => cases peer <;> simp [bare, withOptimistic, Regular]

theorem Frame.regular (h : Frame S s s') : (s'.conn d).Regular ↔ (s.conn d).Regular := by
  rw [← regular_bare, h.bare, regular_bare]

theorem Frame.exempt (h : Frame S s s') (d : Nat) : (s'.conn d).ignoreUnchokeSlots = (s.conn d).ignoreUnchokeSlots := by
  have : (s'.conn d).bare.ignoreUnchokeSlots = (s.conn d).bare.ignoreUnchokeSlots := by rw [h.bare d]
  exact this

theorem Connection.Sane.regular (hx : x.Sane) (hcount : x.counted = true) : x.Regular := by
  rw [counted, and_eq_true, not_eq_true', not_eq_true'] at hcount
  exact ⟨hcount.2, hx.unchoked hcount.1⟩

theorem Connection.counted_eq (hex : x.ignoreUnchokeSlots = false) : x.counted = !x.choked := by
  rw [counted, hex, Bool.not_false, Bool.and_true]

theorem Connection.counted_of (hex : x.ignoreUnchokeSlots = false) (hch : x.choked = false) : x.counted = true := by
  rw [counted_eq hex, hch, Bool.not_false]

/-! ## Changing a connection -/

@[simp] theorem Session.conn_setConn (s : Session) (c : Nat) (x : Connection) : (s.setConn c x).conn c = x :=
  update_self ..

theorem Session.conn_setConn_of_ne (s : Session) (hne : d ≠ c) (x : Connection) : (s.setConn c x).conn d = s.conn d :=
  update_of_ne hne ..

theorem Session.frame_setConn (hbare : x.bare = (s.conn c).bare) : Frame (· = c) s (s.setConn c x) := by
  refine ⟨rfl, fun d hd => s.conn_setConn_of_ne hd x, fun d => ?_, fun _ => rfl, rfl⟩
  rcases eq_or_ne d c with rfl | hne
  · rw [s.conn_setConn, hbare]
  · rw [s.conn_setConn_of_ne hne]

def Session.setUploads (s : Session) (t : Nat) (n : BitVec 24) : Session :=
  s.setTorrent t { s.torrent t with numUploads := n }

theorem Session.frame_setUploads (s : Session) (t : Nat) (n : BitVec 24) : Frame S s (s.setUploads t n) := by
  refine ⟨rfl, fun _ _ => rfl, fun _ => rfl, fun t' => ?_, rfl⟩
  change (update s.torrent t _ t').bare = _
  rcases eq_or_ne t' t with rfl | hne
  · rw [update_self]
    rfl
  · rw [update_of_ne hne]

section

variable (h : Sound s) (hc : c ∈ s.connections)
include h hc

theorem Sound.setConn (hx : x.Sane) : Sound (s.setConn c x) := by
  refine ⟨h.nodup, fun d hd => ?_, fun d hd => ?_⟩
  · rcases eq_or_ne d c with rfl | hne
    · rwa [s.conn_setConn]
    · rw [s.conn_setConn_of_ne hne]
      exact h.sane d hd
  · have hne : d ≠ c := fun he => hd (he ▸ hc)
    rw [s.conn_setConn_of_ne hne]
    exact h.closed d hd

theorem Sound.excess_setConn (x : Connection) :
    excess (s.setConn c x) = excess s + (s.conn c).counted.toNat - x.counted.toNat := by
  have : numCounted (s.setConn c x) + _ = numCounted s + _ :=
    countP_update (fun x : Connection => x.counted) h.nodup hc x
  unfold excess
  change s.numUnchoked - _ = _
  omega

theorem Sound.numCountedOf_setConn (x : Connection) (t : Nat) :
    numCountedOf (s.setConn c x) t + ((s.conn c).counted && (s.conn c).isOf t).toNat =
      numCountedOf s t + (x.counted && x.isOf t).toNat :=
  countP_update (fun x : Connection => x.counted && x.isOf t) h.nodup hc x

end

theorem Ledger.setConn (h : Ledger s) (hc : c ∈ s.connections) (hx : x.Sane)
    (hcount : ∀ t, (x.counted && x.isOf t) = ((s.conn c).counted && (s.conn c).isOf t)) : Ledger (s.setConn c x) := by
  refine ⟨h.toSound.setConn hc hx, fun t => ?_⟩
  have heq := h.numCountedOf_setConn hc x t
  rw [hcount t] at heq
  rw [Nat.add_right_cancel heq]
  exact h.uploads t

theorem Ledger.setAlike (h : Ledger s) (hc : c ∈ s.connections) (hx : x.Sane) (hcount : x.counted = (s.conn c).counted)
    (hof : ∀ t, (x.counted && x.isOf t) = ((s.conn c).counted && (s.conn c).isOf t)) : Kept s (s.setConn c x) := by
  refine ⟨h.setConn hc hx hof, ?_⟩
  rw [h.excess_setConn hc, hcount]
  omega

theorem Ledger.recount (h : Ledger s) (hc : c ∈ s.connections) (hx : x.Sane) {n : BitVec 24}
    (hother : ∀ t', t' ≠ t → (x.counted && x.isOf t') = ((s.conn c).counted && (s.conn c).isOf t'))
    (hn : n + BitVec.ofNat 24 ((s.conn c).counted && (s.conn c).isOf t).toNat =
      (s.torrent t).numUploads + BitVec.ofNat 24 (x.counted && x.isOf t).toNat) :
    Ledger ((s.setConn c x).setUploads t n) := by
  have hs := h.toSound.setConn hc hx
  refine ⟨⟨hs.nodup, hs.sane, hs.closed⟩, fun t' => ?_⟩
  change (update s.torrent t _ t').numUploads = BitVec.ofNat 24 (numCountedOf (s.setConn c x) t')
  have hcount := h.numCountedOf_setConn hc x t'
  rcases eq_or_ne t' t with rfl | hne
  · have hsum := congrArg (BitVec.ofNat 24) hcount
    rw [ofNat_add, ofNat_add, ← h.uploads t'] at hsum
    rw [update_self]
    exact (BitVec.add_left_inj _).mp (hn.trans hsum.symm)
  · rw [update_of_ne hne, h.uploads t']
    rw [hother t' hne] at hcount
    rw [Nat.add_right_cancel hcount]

theorem Ledger.setNumUnchoked (h : Ledger s) (n : Int) : Ledger { s with numUnchoked := n } :=
  ⟨⟨h.nodup, h.sane, h.closed⟩, h.uploads⟩

theorem Frame.setNumUnchoked {S : Nat → Prop} (h : Frame S s s') (n : Int) : Frame S s { s' with numUnchoked := n } :=
  ⟨h.connections, h.others, h.bare, h.torrents, h.paused⟩

theorem excess_setNumUnchoked (s : Session) (e : Int) :
    excess { s with numUnchoked := s.numUnchoked + e } = excess s + e := by
  change s.numUnchoked + e - (numCounted s : Int) = s.numUnchoked - numCounted s + e
  omega

/-! ## Choking and unchoking -/

theorem Connection.isOf_withOptimistic (b : Bool) (t : Nat) : (x.withOptimistic b).isOf t = x.isOf t := by
  cases x with
  | mk peer => cases peer <;> rfl

theorem Connection.bare_withOptimistic (b : Bool) : (x.withOptimistic b).bare = x.bare := by
  cases x with
  | mk peer => cases peer <;> rfl

theorem Connection.isOf_eq (hpi : x.peer = some pi) (t : Nat) : x.isOf t = (pi.torrent == t) := by
  rw [isOf, hpi, Option.any_some]

theorem Connection.Sane.calm (hx : x.Sane) : (x.withOptimistic false).Sane := by
  refine ⟨hx.isOpen, fun hch => ?_, fun pi hpi hopt => ?_⟩
  · obtain ⟨pi, hpi, hweb⟩ := hx.unchoked hch
    exact ⟨{ pi with optimisticallyUnchoked := false }, by simp [withOptimistic, hpi], hweb⟩
  · obtain ⟨pi', -, rfl⟩ := Option.map_eq_some_iff.mp hpi
    exact absurd hopt (by simp)

def Connection.afterChoke (x : Connection) : Connection := { x.withOptimistic false with choked := true }

theorem Connection.Sane.afterChoke (hx : x.Sane) : x.afterChoke.Sane := by
  refine ⟨hx.isOpen, fun h => absurd h (by simp [Connection.afterChoke]), fun pi hpi hopt => ?_⟩
  obtain ⟨pi', -, rfl⟩ := Option.map_eq_some_iff.mp hpi
  exact absurd hopt (by simp)

theorem Connection.bare_afterChoke : x.afterChoke.bare = x.bare := by
  cases x with
  | mk peer => cases peer <;> rfl

theorem Connection.counted_afterChoke : x.afterChoke.counted = false := rfl

section

variable (hch : (s.conn c).choked = false)
include hch

theorem sendChoke_eq : sendChoke s c = (s.setConn c (s.conn c).afterChoke, true) :=
  if_neg (by simp [withOptimistic, hch])

theorem chokePeer_eq : chokePeer s t c =
    ((s.setConn c (s.conn c).afterChoke).setUploads t ((s.torrent t).numUploads - 1), true) := by
  rw [chokePeer, sendChoke_eq hch]
  rfl

theorem chokePeer_calm : chokePeer (s.setConn c ((s.conn c).withOptimistic false)) t c = chokePeer s t c := by
  have hconn := s.conn_setConn c ((s.conn c).withOptimistic false)
  have hafter : ((s.conn c).withOptimistic false).afterChoke = (s.conn c).afterChoke := by
    cases s.conn c with
    | mk peer => cases peer <;> rfl
  rw [chokePeer_eq hch, chokePeer_eq (by rw [hconn]; exact hch), hconn, hafter]
  unfold setConn
  rw [update_idem]

end

theorem Ledger.calm (h : Ledger s) (hc : c ∈ s.connections) : Ledger (s.setConn c ((s.conn c).withOptimistic false)) ∧
    Frame (· = c) s (s.setConn c ((s.conn c).withOptimistic false)) ∧
    excess (s.setConn c ((s.conn c).withOptimistic false)) = excess s := by
  obtain ⟨h1, h2⟩ := h.setAlike hc (h.sane c hc).calm rfl fun t => by rw [isOf_withOptimistic]; rfl
  exact ⟨h1, frame_setConn (bare_withOptimistic _), h2⟩

theorem Connection.choked_of_counted (hcount : x.counted = true) : x.choked = false := by
  rw [counted, and_eq_true, not_eq_true'] at hcount
  exact hcount.1

/-- **Choking** a connection that is not exempt. -/
theorem Ledger.choke (h : Ledger s) (hpi : (s.conn c).peer = some pi) (hcount : (s.conn c).counted = true) :
    Ledger (chokePeer s pi.torrent c).1 ∧ Frame (· = c) s (chokePeer s pi.torrent c).1 ∧
      excess (chokePeer s pi.torrent c).1 = excess s + 1 := by
  have hc := h.mem hpi
  rw [chokePeer_eq (choked_of_counted hcount)]
  refine ⟨h.recount hc (h.sane c hc).afterChoke (fun t' hne => ?_) ?_,
    (frame_setConn bare_afterChoke).trans (frame_setUploads ..), ?_⟩
  · rw [isOf_eq hpi, beq_false_of_ne (Ne.symm hne), Bool.and_false]
    rfl
  · rw [counted_afterChoke, hcount, isOf_eq hpi, beq_self_eq_true]
    exact (BitVec.sub_add_cancel _ _).trans (BitVec.add_zero _).symm
  · change excess (s.setConn c _) = _
    rw [h.excess_setConn hc, hcount, counted_afterChoke]
    simp

def Connection.afterUnchoke (x : Connection) : Connection := { x with choked := false }

theorem Connection.Sane.afterUnchoke (hx : x.Sane) (hr : x.Regular) : x.afterUnchoke.Sane := by
  refine ⟨hx.isOpen, fun _ => hr.2, fun pi hpi hopt => ?_⟩
  exact ⟨rfl, hr.1⟩

theorem Connection.bare_afterUnchoke : x.afterUnchoke.bare = x.bare := rfl

theorem unchokePeer_eq (s : Session) (t c : Nat) (optimistic : Bool) : unchokePeer s t c optimistic = (s, false) ∨
    (s.conn c).choked = true ∧ unchokePeer s t c optimistic =
      ((s.setConn c (s.conn c).afterUnchoke).setUploads t ((s.torrent t).numUploads + 1), true) := by
  unfold unchokePeer sendUnchoke
  cases hch : (s.conn c).choked with
  | false => left; split <;> simp
  | true =>
    cases hready : (s.torrent t).readyForConnections with
    | false => left; split <;> simp
    | true =>
      by_cases hlim : (s.torrent t).numUploads ≥ (s.torrent t).maxUploads ∧ (!optimistic) = true
      · exact .inl (if_pos hlim)
      · exact .inr ⟨rfl, if_neg hlim⟩

/-- **Unchoking** a connection that is not exempt: it is refused, or done. -/
theorem Ledger.unchoke (h : Ledger s) (hr : (s.conn c).Regular) (hpi : (s.conn c).peer = some pi) (optimistic : Bool) :
    unchokePeer s pi.torrent c optimistic = (s, false) ∨
      (s.conn c).choked = true ∧ (unchokePeer s pi.torrent c optimistic).2 = true ∧
      Ledger (unchokePeer s pi.torrent c optimistic).1 ∧ Frame (· = c) s (unchokePeer s pi.torrent c optimistic).1 ∧
      ((unchokePeer s pi.torrent c optimistic).1.conn c).choked = false ∧
      excess (unchokePeer s pi.torrent c optimistic).1 = excess s - 1 := by
  rcases unchokePeer_eq s pi.torrent c optimistic with heq | ⟨hch, heq⟩
  · exact .inl heq
  have hc := h.mem hpi
  have hold : (s.conn c).counted = false := by rw [counted_eq hr.1, hch]; rfl
  have hnew : (s.conn c).afterUnchoke.counted = true := counted_eq hr.1
  rw [heq]
  refine .inr ⟨hch, rfl, h.recount hc ((h.sane c hc).afterUnchoke hr) (fun t' hne => ?_) ?_,
    (frame_setConn bare_afterUnchoke).trans (frame_setUploads ..), ?_, ?_⟩
  · have : (s.conn c).afterUnchoke.isOf t' = (pi.torrent == t') := isOf_eq hpi t'
    rw [this, beq_false_of_ne (Ne.symm hne), Bool.and_false, hold, Bool.false_and]
  · have : (s.conn c).afterUnchoke.isOf pi.torrent = (pi.torrent == pi.torrent) := isOf_eq hpi _
    rw [this, hold, hnew, beq_self_eq_true]
    simp
  · change ((s.setConn c _).conn c).choked = false
    rw [s.conn_setConn]
    rfl
  · change excess (s.setConn c _) = _
    rw [h.excess_setConn hc, hold, hnew]
    simp

/-- A counted connection of a torrent is the one that `unchoke` and `choke` are about. -/
theorem Sound.counted_peer (h : Sound s) (hc : c ∈ s.connections) (hcount : (s.conn c).counted = true) :
    ∃ pi, (s.conn c).peer = some pi ∧ pi.webSeed = false :=
  ((h.sane c hc).regular hcount).2

theorem Ledger.setExempt (h : Ledger s) (hc : c ∈ s.connections) (hx : x.Sane)
    (hold : (s.conn c).ignoreUnchokeSlots = true) (hnew : x.ignoreUnchokeSlots = true) : Kept s (s.setConn c x) := by
  have h1 : (s.conn c).counted = false := by rw [counted, hold, Bool.not_true, Bool.and_false]
  have h2 : x.counted = false := by rw [counted, hnew, Bool.not_true, Bool.and_false]
  exact h.setAlike hc hx (h2.trans h1.symm) fun t => by rw [h1, h2, Bool.false_and, Bool.false_and]

/-! ## Closing connections -/

structure Closed (c : Nat) (s s' : Session) : Prop where
  connections : s'.connections = s.connections.erase c
  gone : (s'.conn c).peer = none
  others : ∀ d, d ≠ c → s'.conn d = s.conn d
  paused : s'.paused = s.paused
  torrents : ∀ t, (s'.torrent t).bare = (s.torrent t).bare

theorem Closed.countP (h : Closed c s s') (hl : s.connections.Nodup) (hc : c ∈ s.connections) (p : Connection → Bool) :
    (s'.connections.countP fun d => p (s'.conn d)) + (p (s.conn c)).toNat = s.connections.countP fun d =>
      p (s.conn d) := by
  have hrest : (s'.connections.countP fun d => p (s'.conn d)) =
      (s.connections.erase c).countP fun d => p (s.conn d) := by
    rw [h.connections]
    refine List.countP_congr fun d hd => ?_
    rw [h.others d (hl.mem_erase_iff.mp hd).1]
  rw [hrest, (List.perm_cons_erase hc).countP_eq, List.countP_cons]
  cases p (s.conn c) <;> rfl

theorem Closed.sound (h : Closed c s s') (hs : Sound s) : Sound s' := by
  have hmem : ∀ d, d ∈ s'.connections ↔ d ≠ c ∧ d ∈ s.connections := fun d => by
    rw [h.connections, hs.nodup.mem_erase_iff]
  refine ⟨h.connections ▸ hs.nodup.erase c, fun d hd => ?_, fun d hd => ?_⟩
  · obtain ⟨hne, hd⟩ := (hmem d).mp hd
    rw [h.others d hne]
    exact hs.sane d hd
  rcases eq_or_ne d c with rfl | hne
  · exact h.gone
  · rw [h.others d hne]
    exact hs.closed d fun hd' => hd ((hmem d).mpr ⟨hne, hd'⟩)

theorem removePeer_eq (s : Session) (t c : Nat) : removePeer s t c =
    (s.setUploads t ((s.torrent t).numUploads - BitVec.ofNat 24 (s.conn c).counted.toNat)).setConn c
      { s.conn c with peer := none } := by
  unfold removePeer
  dsimp only
  split_ifs with hcount
  · rw [hcount]
    rfl
  rw [eq_false_iff.mpr hcount]
  have : (s.torrent t).numUploads - BitVec.ofNat 24 false.toNat = (s.torrent t).numUploads := BitVec.sub_zero _
  rw [this]
  unfold setUploads setTorrent
  rw [update_eq_self]

theorem disconnect_spec (h : Sound s) (hc : c ∈ s.connections) : Closed c s (disconnect s c) ∧
    (disconnect s c).numUnchoked = s.numUnchoked - (s.conn c).counted.toNat ∧
    ∀ t, ((disconnect s c).torrent t).numUploads =
      (s.torrent t).numUploads - BitVec.ofNat 24 ((s.conn c).counted && (s.conn c).isOf t).toNat := by
  have hcloses : ∀ s1 : Session, (closeConnection s1 c).numUnchoked = s1.numUnchoked - (s1.conn c).counted.toNat := by
    intro s1
    unfold closeConnection
    cases (s1.conn c).counted <;> simp
  unfold disconnect
  rw [(h.sane c hc).isOpen, if_neg Bool.false_ne_true]
  cases hpi : (s.conn c).peer with
  | none =>
    have hcount : (s.conn c).counted = false := by
      rw [eq_false_iff]
      intro hcount
      obtain ⟨pi, hpi', -⟩ := h.counted_peer hc hcount
      rw [hpi] at hpi'
      exact absurd hpi' (by simp)
    refine ⟨⟨rfl, ?_, fun d hd => s.conn_setConn_of_ne hd _, rfl, fun _ => rfl⟩, ?_, fun t => ?_⟩
    · change ((s.setConn c _).conn c).peer = none
      rw [s.conn_setConn, hpi]
    · rw [hcloses, conn_setConn]
      rfl
    · rw [hcount]
      exact (BitVec.sub_zero _).symm
  | some pi =>
    dsimp only
    rw [removePeer_eq]
    refine ⟨⟨rfl, ?_, fun d hd => ?_, rfl, fun t => ?_⟩, ?_, fun t => ?_⟩
    · change ((setConn _ c _).conn c).peer = none
      rw [conn_setConn, conn_setConn]
    · change (setConn _ c _).conn d = _
      rw [conn_setConn_of_ne _ hd, conn_setConn_of_ne _ hd]
      rfl
    · exact (s.frame_setUploads (S := fun _ => True) _ _).torrents t
    · rw [hcloses, conn_setConn, conn_setConn]
      rfl
    · change (update s.torrent pi.torrent _ t).numUploads = _
      rw [isOf_eq hpi]
      rcases eq_or_ne t pi.torrent with rfl | hne
      · rw [update_self, beq_self_eq_true, Bool.and_true]
      · rw [update_of_ne hne, beq_false_of_ne (Ne.symm hne), Bool.and_false]
        exact (BitVec.sub_zero _).symm

theorem Sound.excess_disconnect (h : Sound s) (hc : c ∈ s.connections) : excess (disconnect s c) = excess s := by
  obtain ⟨hcl, hnum, -⟩ := disconnect_spec h hc
  have : numCounted (disconnect s c) + _ = numCounted s := hcl.countP h.nodup hc (·.counted)
  unfold excess
  omega

/-- **Closing** a connection. -/
theorem Ledger.disconnect (h : Ledger s) (hc : c ∈ s.connections) : Ledger (Choker.disconnect s c) := by
  obtain ⟨hcl, -, hup⟩ := disconnect_spec h.toSound hc
  refine ⟨hcl.sound h.toSound, fun t => ?_⟩
  have hcount : numCountedOf (Choker.disconnect s c) t + _ = numCountedOf s t :=
    hcl.countP h.nodup hc fun x => x.counted && x.isOf t
  rw [hup t, h.uploads t, ← hcount, ofNat_add]
  exact add_sub_cancel _ _

end Libtorrent.Choker
