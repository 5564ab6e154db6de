import Mathlib.Order.Lattice

/-!
# The peer list

`policy`, the list of the peers of a torrent that are known. `m_peers` is a list of pointers into `heap`. A function
gives `none` where the code would read or erase behind the end of `m_peers`. Connections carry what the list and they
know of each other; closing one ends in `connection_closed`, also from inside `new_connection` and `update_peer_port`.
Addresses are an ordered type.
-/

namespace Libtorrent.PeerList

/-- A `policy::peer*`. -/
abbrev Ptr := Nat

/-- A `peer_connection*`. -/
abbrev Conn := Nat

/-- `peer_info::tracker`, `dht`, `pex`, `lsd`, `resume_data` and `incoming`. -/
abbrev Source := BitVec 6

def tracker : Source := 0x1
def dht : Source := 0x2
def pex : Source := 0x4
def lsd : Source := 0x8
def resumeData : Source := 0x10
def incoming : Source := 0x20

structure Peer (A : Type) where
  address : A
  port : Nat
  connection : Option Conn
  lastConnected : Nat
  failcount : Nat
  connectable : Bool
  seed : Bool
  source : Source
  banned : Bool
  webSeed : Bool

def Peer.new {A : Type} (address : A) (port : Nat) (conn : Bool) (src : Source) : Peer A :=
  ⟨address, port, none, 0, 0, conn, false, src, false, false⟩

structure Connection where
  outgoing : Bool
  disconnecting : Bool
  peerInfo : Option Ptr

/-- The settings and filters, which are fixed. -/
structure Config (A : Type) where
  allowMultipleConnectionsPerIp : Bool
  maxFailcount : Int
  minReconnectTime : Int
  maxPeerlistSize : Int
  maxPausedPeerlistSize : Int
  noConnectPrivilegedPorts : Bool
  banWebSeeds : Bool
  /-- An i2p torrent that takes no regular peers. -/
  onlyI2p : Bool
  portBlocked : Nat → Bool
  /-- The unspecified address and the link-local ones. -/
  unusable : A → Bool

/-- What a call reads of the torrent and the session. -/
structure Env (A : Type) where
  paused : Bool
  random : Nat
  mallocFails : Bool
  ipBlocked : A → Bool
  trustPoints : Ptr → Int
  isLocal : A → Bool
  cidrDistance : A → Int
  /-- The transfer rate of the AS of a peer, if there is a database. -/
  asRate : Option (Ptr → Int)

structure Policy (A : Type) where
  peers : List Ptr
  heap : Ptr → Peer A
  next : Ptr
  lockedPeer : Option Ptr
  roundRobin : Int
  numConnectCandidates : Int
  numSeeds : Int
  finished : Bool
  conns : Conn → Connection

variable {A : Type} [LinearOrder A] (cfg : Config A) (env : Env A)

namespace Policy

variable (s : Policy A)

def peerAt (i : Int) : Option Ptr := if 0 ≤ i then s.peers[i.toNat]? else none

def size : Int := s.peers.length

def write (p : Ptr) (x : Peer A) : Policy A := { s with heap := Function.update s.heap p x }

def ip (p : Ptr) : A × Nat := ((s.heap p).address, (s.heap p).port)

def lowerBound (a : A) : Nat := (s.peers.takeWhile fun p => (s.heap p).address < a).length

/-- The end of `find_peers(a)`, which starts at `lowerBound`. -/
def upperBound (a : A) : Nat := (s.peers.takeWhile fun p => !decide (a < (s.heap p).address)).length

def findEndpoint (ep : A × Nat) : Nat :=
  s.lowerBound ep.1 +
    ((s.peers.drop (s.lowerBound ep.1)).take (s.upperBound ep.1 - s.lowerBound ep.1)).findIdx fun p => s.ip p = ep

def locate (ep : A × Nat) : Nat × Option Ptr :=
  if cfg.allowMultipleConnectionsPerIp then
    let iter := s.findEndpoint ep
    (iter, if iter = s.upperBound ep.1 then none else s.peers[iter]?)
  else
    let iter := s.lowerBound ep.1
    (iter, (s.peers[iter]?).filter fun p => (s.heap p).address = ep.1)

end Policy

/-! ## Candidates -/

def isConnectCandidate (p : Peer A) (finished : Bool) : Bool :=
  !(p.connection.isSome || p.banned || p.webSeed || !p.connectable || (p.seed && finished) ||
      decide (cfg.maxFailcount ≤ p.failcount)) &&
    !cfg.portBlocked p.port && !(cfg.noConnectPrivilegedPorts && decide (p.port < 1024) && p.source = dht)

variable (s : Policy A)

def shouldEraseImmediately (p : Ptr) : Bool :=
  s.lockedPeer ≠ some p && (s.heap p).source = resumeData

def isEraseCandidate (p : Ptr) : Bool :=
  s.lockedPeer ≠ some p && (s.heap p).connection.isNone && !isConnectCandidate cfg (s.heap p) s.finished &&
    (decide (0 < (s.heap p).failcount) || (s.heap p).source = resumeData)

def isForceEraseCandidate (p : Ptr) : Bool :=
  s.lockedPeer ≠ some p && (s.heap p).connection.isNone

def comparePeerErase (lhs rhs : Ptr) : Bool :=
  let l := s.heap lhs
  let r := s.heap rhs
  if l.failcount ≠ r.failcount then l.failcount > r.failcount
  else if (l.source = resumeData) ≠ (r.source = resumeData) then l.source = resumeData
  else if l.connectable ≠ r.connectable then r.connectable
  else env.trustPoints lhs < env.trustPoints rhs

def sourceRank (source : Source) : Nat :=
  (if source &&& tracker ≠ 0 then 32 else 0) + (if source &&& lsd ≠ 0 then 16 else 0) +
    (if source &&& dht ≠ 0 then 8 else 0) + (if source &&& pex ≠ 0 then 4 else 0)

def comparePeer (lhs rhs : Ptr) : Bool :=
  let l := s.heap lhs
  let r := s.heap rhs
  let rates := if s.finished then none else env.asRate
  if l.failcount ≠ r.failcount then l.failcount < r.failcount
  else if env.isLocal l.address ≠ env.isLocal r.address then env.isLocal l.address
  else if l.lastConnected ≠ r.lastConnected then l.lastConnected < r.lastConnected
  else if sourceRank l.source ≠ sourceRank r.source then sourceRank l.source > sourceRank r.source
  else if (rates.map (· lhs)) ≠ (rates.map (· rhs)) then
    rates.any fun rate => rate lhs > rate rhs
  else env.cidrDistance l.address < env.cidrDistance r.address

/-! ## Erasing peers -/

def robinErased (i : Int) : Int :=
  let roundRobin := if s.roundRobin > i then s.roundRobin - 1 else s.roundRobin
  if roundRobin ≥ s.size then 0 else roundRobin

def erasePeer (i : Int) : Option (Policy A) :=
  (s.peerAt i).map fun p => { s with
    numSeeds := if (s.heap p).seed then s.numSeeds - 1 else s.numSeeds
    numConnectCandidates :=
      if isConnectCandidate cfg (s.heap p) s.finished then s.numConnectCandidates - 1 else s.numConnectCandidates
    roundRobin := robinErased s i
    peers := s.peers.eraseIdx i.toNat }

def erasePeerPtr (p : Ptr) : Option (Policy A) :=
  let iter := s.findEndpoint (s.ip p)
  if iter = s.upperBound (s.heap p).address then some s else erasePeer cfg s iter

/-- The test if `p` takes the place of the peer at the index `best`, which is -1 if there is none. -/
def replaces (candidate : Bool) (better : Ptr → Ptr → Bool) (best : Int) (p : Ptr) : Option Bool :=
  if !candidate then some false
  else if best = -1 then some true
  else (s.peerAt best).map fun q => !better q p

/-- The peer at an index after the one at `current` was erased. -/
def behindErased (index current : Int) : Int := if index > current then index - 1 else index

/-- The loop of `erase_peers`; it ends with `erase_candidate` and `force_erase_candidate`. -/
def eraseLoop (lowWatermark : Int) : Nat → Policy A → Int → Int → Int → Option (Policy A × Int × Int)
  | 0, s, _, eraseCandidate, forceEraseCandidate => some (s, eraseCandidate, forceEraseCandidate)
  | iterations + 1, s, roundRobin, eraseCandidate, forceEraseCandidate =>
    if s.size < lowWatermark then some (s, eraseCandidate, forceEraseCandidate)
    else do
      let current := if roundRobin = s.size then 0 else roundRobin
      let p ← s.peerAt current
      let erase ← replaces s (isEraseCandidate cfg s p) (comparePeerErase env s) eraseCandidate p
      if erase && shouldEraseImmediately s p then do
        let s ← erasePeer cfg s current
        eraseLoop lowWatermark iterations s current (behindErased eraseCandidate current)
          (behindErased forceEraseCandidate current)
      else do
        let force ← replaces s (isForceEraseCandidate s p) (comparePeerErase env s) forceEraseCandidate p
        eraseLoop lowWatermark iterations s (current + 1) (if erase then current else eraseCandidate)
          (if force then current else forceEraseCandidate)

def peerlistLimit : Int := if env.paused then cfg.maxPausedPeerlistSize else cfg.maxPeerlistSize

/-- The length up to which `erase_peers` erases. -/
def lowWatermark : Int :=
  let limit := peerlistLimit cfg env
  let low := (limit * 95).tdiv 100
  if low = limit then low - 1 else low

def erasePeers (forceErase : Bool) : Option (Policy A) :=
  if peerlistLimit cfg env = 0 ∨ s.peers = [] then some s
  else do
    let (s, eraseCandidate, forceEraseCandidate) ← eraseLoop cfg env (lowWatermark cfg env) (min s.peers.length 300) s
      (env.random % s.peers.length : Nat) (-1) (-1)
    if eraseCandidate > -1 then erasePeer cfg s eraseCandidate
    else if forceErase ∧ forceEraseCandidate > -1 then erasePeer cfg s forceEraseCandidate
    else some s

/-! ## `find_connect_candidate` -/

def isBetter (candidate : Int) (p : Ptr) : Option Bool :=
  if candidate = -1 then some false else (s.peerAt candidate).map fun q => comparePeer env s q p

def nextCandidate (sessionTime : Int) (s : Policy A) (candidate current : Int) (p : Ptr) : Option Int :=
  if !isConnectCandidate cfg (s.heap p) s.finished then some candidate
  else (isBetter env s candidate p).map fun better =>
    if better then candidate
    else if (s.heap p).lastConnected ≠ 0 ∧
        sessionTime - (s.heap p).lastConnected < ((s.heap p).failcount + 1) * cfg.minReconnectTime then candidate
    else current

/-- The loop of `find_connect_candidate`; it ends with `erase_candidate` and `candidate`. -/
def findLoop (sessionTime : Int) : Nat → Policy A → Int → Int → Option (Policy A × Int × Int)
  | 0, s, eraseCandidate, candidate => some (s, eraseCandidate, candidate)
  | iterations + 1, s, eraseCandidate, candidate => do
    let current := if s.roundRobin ≥ s.size then 0 else s.roundRobin
    let p ← s.peerAt current
    -- the list is weeded when it has 95 % of its largest length
    let crowded := decide (s.size * 100 ≥ peerlistLimit cfg env * 95 ∧ peerlistLimit cfg env > 0)
    let erase ← replaces s (crowded && isEraseCandidate cfg s p) (comparePeerErase env s) eraseCandidate p
    if erase && shouldEraseImmediately s p then do
      let s ← erasePeer cfg { s with roundRobin := current } current
      findLoop sessionTime iterations s (behindErased eraseCandidate current) (behindErased candidate current)
    else do
      let candidate ← nextCandidate cfg env sessionTime s candidate current p
      findLoop sessionTime iterations { s with roundRobin := current + 1 } (if erase then current else eraseCandidate)
        candidate

/-- `find_connect_candidate`; the index of the candidate is -1 for `m_peers.end()`. -/
def findConnectCandidate (sessionTime : Int) : Option (Policy A × Int) := do
  let s := { s with roundRobin := if s.roundRobin ≥ s.size then 0 else s.roundRobin }
  let (s, eraseCandidate, candidate) ← findLoop cfg env sessionTime (min s.peers.length 300) s (-1) (-1)
  if eraseCandidate > -1 then do
    let s ← erasePeer cfg s eraseCandidate
    some (s, behindErased candidate eraseCandidate)
  else some (s, candidate)

/-! ## Changes of an entry -/

def clamp (n : Int) : Int := if n < 0 then 0 else n

/-- The number of candidates after a change of a peer, counted up or down. -/
def recount (old new : Peer A) : Int :=
  let was := isConnectCandidate cfg old s.finished
  if was ≠ isConnectCandidate cfg new s.finished then s.numConnectCandidates + (if was then -1 else 1)
  else s.numConnectCandidates

def banPeer (p : Ptr) : Policy A :=
  if !cfg.banWebSeeds && (s.heap p).webSeed then s
  else
    { s.write p { s.heap p with banned := true } with
      numConnectCandidates :=
        if isConnectCandidate cfg (s.heap p) s.finished then s.numConnectCandidates - 1 else s.numConnectCandidates }

/-- `set_connection`; the connection was made with `p` as its `m_peer_info`. -/
def setConnection (p : Ptr) (c : Conn) : Policy A :=
  { s.write p { s.heap p with connection := some c } with
    numConnectCandidates :=
      if isConnectCandidate cfg (s.heap p) s.finished then s.numConnectCandidates - 1 else s.numConnectCandidates
    conns := Function.update s.conns c ⟨true, false, some p⟩ }

def setFailcount (p : Ptr) (f : Int) : Policy A :=
  let x := { s.heap p with failcount := (f % 32).toNat }
  { s.write p x with numConnectCandidates := recount cfg s (s.heap p) x }

def setSeed (p : Ptr) (seed : Bool) : Policy A :=
  if (s.heap p).seed = seed then s
  else
    let x := { s.heap p with seed := seed }
    { s.write p x with
      numConnectCandidates :=
        if isConnectCandidate cfg (s.heap p) s.finished && !isConnectCandidate cfg x s.finished then
          clamp (s.numConnectCandidates - 1)
        else s.numConnectCandidates
      numSeeds := if x.webSeed then s.numSeeds else if seed then s.numSeeds + 1 else s.numSeeds - 1 }

/-! ## New entries -/

def insertNew (iter : Nat) (x : Peer A) : Policy A :=
  { s.write s.next x with
    next := s.next + 1
    peers := s.peers.insertIdx iter s.next
    roundRobin := if s.roundRobin ≥ iter then s.roundRobin + 1 else s.roundRobin }

def insertCounted (x : Peer A) (iter : Nat) (flags : Nat) : Policy A :=
  let x := if flags.testBit 1 then { x with seed := true } else x
  { insertNew s iter x with
    numSeeds := if flags.testBit 1 then s.numSeeds + 1 else s.numSeeds
    numConnectCandidates :=
      if isConnectCandidate cfg x s.finished then s.numConnectCandidates + 1 else s.numConnectCandidates }

/-- `insert_peer`; the list stays as it is if there is no room. -/
def insertPeer (x : Peer A) (iter : Nat) (flags : Nat) : Option (Policy A) :=
  let limit := peerlistLimit cfg env
  if limit ≠ 0 ∧ s.size ≥ limit then
    if x.source = resumeData then some s
    else do
      let s ← erasePeers cfg env s false
      if s.size ≥ limit then some s else some (insertCounted cfg s x (s.lowerBound x.address) flags)
  else some (insertCounted cfg s x iter flags)

/-- The peer after `update_peer`; only a peer that is not connected is taken for a seed. -/
def Peer.updated (old : Peer A) (src : Source) (flags : Nat) (remote : A × Nat) : Peer A :=
  { old with
    connectable := true
    port := remote.2
    source := old.source ||| src
    failcount := if old.failcount > 0 ∧ src = tracker then old.failcount - 1 else old.failcount
    seed := (flags.testBit 1 && old.connection.isNone) || old.seed }

def updatePeer (p : Ptr) (src : Source) (flags : Nat) (remote : A × Nat) : Policy A :=
  let old := s.heap p
  let x := old.updated src flags remote
  { s.write p x with
    numSeeds := if flags.testBit 1 && old.connection.isNone && !old.seed then s.numSeeds + 1 else s.numSeeds
    numConnectCandidates :=
      if isConnectCandidate cfg old s.finished ≠ isConnectCandidate cfg x s.finished then clamp (recount cfg s old x)
      else s.numConnectCandidates }

def addPeer (remote : A × Nat) (src : Source) (flags : Nat) : Option (Policy A) :=
  if cfg.unusable remote.1 ∨ remote.2 = 0 then some s
  else if cfg.onlyI2p then some s
  else if cfg.portBlocked remote.2 then some s
  else if cfg.noConnectPrivilegedPorts ∧ remote.2 < 1024 then some s
  else if env.ipBlocked remote.1 then some s
  else
    match s.locate cfg remote with
    | (_, some p) => some (updatePeer cfg s p src flags remote)
    | (iter, none) =>
      if env.mallocFails then some s
      else insertPeer cfg env s (Peer.new remote.1 remote.2 true src) iter flags

/-! ## Connections -/

def Peer.closed (old : Peer A) (failed fastReconnect : Bool) (sessionTime : Int) : Peer A :=
  { old with
    connection := none
    lastConnected := if fastReconnect then old.lastConnected else (sessionTime % 65536).toNat
    failcount := if failed ∧ old.failcount < 31 then old.failcount + 1 else old.failcount }

def closePeer (p : Ptr) (failed fastReconnect : Bool) (sessionTime : Int) : Policy A :=
  let x := (s.heap p).closed failed fastReconnect sessionTime
  { s.write p x with
    numConnectCandidates :=
      if isConnectCandidate cfg x s.finished then s.numConnectCandidates + 1 else s.numConnectCandidates }

def connectionClosed (p : Ptr) (failed fastReconnect : Bool) (sessionTime : Int) : Option (Policy A) :=
  if cfg.allowMultipleConnectionsPerIp && !(s.heap p).connectable && s.lockedPeer ≠ some p then
    erasePeerPtr cfg (closePeer cfg s p failed fastReconnect sessionTime) p
  else some (closePeer cfg s p failed fastReconnect sessionTime)

/-- `peer_connection::disconnect`, with what `torrent::remove_peer` does. -/
def disconnect (c : Conn) (error : Nat) (fastReconnect : Bool) (sessionTime : Int) :
    Option (Policy A) :=
  if (s.conns c).disconnecting then some s
  else do
    let s ← match (s.conns c).peerInfo with
      | none => some s
      | some p => connectionClosed cfg s p (0 < error) fastReconnect sessionTime
    some { s with conns := Function.update s.conns c { s.conns c with peerInfo := none, disconnecting := true } }

/-- Closing a connection of a peer that must stay in the list. -/
def disconnectLocked (p : Ptr) (c : Conn) (fastReconnect : Bool) (sessionTime : Int) :
    Option (Policy A) := do
  let s ← disconnect cfg { s with lockedPeer := some p } c 0 fastReconnect sessionTime
  some { s with lockedPeer := none }

/-- What `new_connection` learns from the two sockets, and `fast_reconnect()` of both connections. -/
structure Sockets where
  ec1 : Bool
  ec2 : Bool
  selfConnection : Bool
  /-- `our_ep < other_ep`. -/
  ourFirst : Bool
  fastReconnect : Bool
  otherFastReconnect : Bool

/-- The end of `new_connection`. -/
def attach (i : Ptr) (c : Conn) (fastReconnect : Bool) (sessionTime : Int) : Policy A :=
  { s.write i { s.heap i with
      connection := some c
      lastConnected := if fastReconnect then (s.heap i).lastConnected else (sessionTime % 65536).toNat } with
    conns := Function.update s.conns c { s.conns c with peerInfo := some i } }

/-- `new_connection` for an entry that is not connected (any more). -/
def attachFound (i : Ptr) (c : Conn) (fastReconnect : Bool) (sessionTime : Int) : Policy A :=
  let s := { s with
    numConnectCandidates :=
      if isConnectCandidate cfg (s.heap i) s.finished then clamp (s.numConnectCandidates - 1)
      else s.numConnectCandidates }
  attach s i c fastReconnect sessionTime

/-- Room for a new entry in `new_connection`. -/
def makeRoom : Option (Policy A) :=
  if s.size ≥ cfg.maxPeerlistSize then erasePeers cfg env s true else some s

/-- `new_connection`; the result is true if the connection was taken. -/
def newConnection (c : Conn) (remote : A × Nat) (sockets : Sockets) (sessionTime : Int) :
    Option (Policy A × Bool) :=
  let refuse (s : Policy A) (error : Nat) := (disconnect cfg s c error sockets.fastReconnect sessionTime).map (·, false)
  match s.locate cfg remote with
  | (_, some i) =>
    if (s.heap i).banned then refuse s 0
    else
      match (s.heap i).connection with
      | none => some (attachFound cfg s i c sockets.fastReconnect sessionTime, true)
      | some other =>
        if sockets.ec1 then refuse s 0
        else if sockets.selfConnection then do
          let (s, _) ← refuse s 1
          let s ← disconnect cfg s other 1 sockets.otherFastReconnect sessionTime
          some (s, false)
        else if sockets.ec2 then do
          let s ← disconnectLocked cfg s i other sockets.otherFastReconnect sessionTime
          some (attachFound cfg s i c sockets.fastReconnect sessionTime, true)
        else if (s.conns other).outgoing = (s.conns c).outgoing then refuse s 0
        else if sockets.ourFirst = !(s.conns c).outgoing then refuse s 0
        else do
          let s ← disconnectLocked cfg s i other sockets.otherFastReconnect sessionTime
          some (attachFound cfg s i c sockets.fastReconnect sessionTime, true)
  | (iter, none) => do
    let s' ← makeRoom cfg env s
    if s'.size ≥ cfg.maxPeerlistSize then refuse s' 0
    else if env.mallocFails then some (s', false)
    else
      let iter := if s.size ≥ cfg.maxPeerlistSize then s'.lowerBound remote.1 else iter
      some (attach (insertNew s' iter (Peer.new remote.1 remote.2 false incoming)) s'.next c sockets.fastReconnect
        sessionTime, true)

def Peer.ported (old : Peer A) (port : Int) (src : Source) : Peer A :=
  { old with port := (port % 65536).toNat, source := old.source ||| src, connectable := true }

/-- The end of `update_peer_port`. -/
def setPort (port : Int) (p : Ptr) (src : Source) : Policy A :=
  let old := s.heap p
  let x := old.ported port src
  { s.write p x with
    numConnectCandidates :=
      if isConnectCandidate cfg old s.finished ≠ isConnectCandidate cfg x s.finished then clamp (recount cfg s old x)
      else s.numConnectCandidates }

/-- `update_peer_port` for an entry `q` that is connected and has the endpoint already. -/
def markDuplicate (q : Ptr) (src : Source) : Policy A :=
  let old := s.heap q
  let x := { old with connectable := true, source := old.source ||| src }
  { s.write q x with
    numConnectCandidates :=
      if !isConnectCandidate cfg old s.finished && isConnectCandidate cfg x s.finished then s.numConnectCandidates + 1
      else s.numConnectCandidates }

/-- Then the connection of `p` is closed, which does not know `p` any more, and its entry is erased. -/
def closeDuplicate (p q : Ptr) (src : Source) (fastReconnect : Bool) (sessionTime : Int) :
    Option (Policy A) := do
  let s := markDuplicate cfg s q src
  let c ← (s.heap p).connection
  let s := { s with conns := Function.update s.conns c { s.conns c with peerInfo := none } }
  let s ← disconnectLocked cfg s p c fastReconnect sessionTime
  erasePeerPtr cfg s p

/-- `update_peer_port`; the result is false for a duplicate connection. -/
def updatePeerPort (port : Int) (p : Ptr) (src : Source) (fastReconnect : Bool) (sessionTime : Int) :
    Option (Policy A × Bool) :=
  if (s.heap p).port = port then some (s, true)
  else if cfg.allowMultipleConnectionsPerIp then
    let remote := ((s.heap p).address, (port % 65536).toNat)
    let i := s.findEndpoint remote
    if i = s.upperBound remote.1 then some (setPort cfg s port p src, true)
    else do
      let q ← s.peers[i]?
      if (s.heap q).connection.isSome then
        (closeDuplicate cfg s p q src fastReconnect sessionTime).map (·, false)
      else do
        let s ← erasePeer cfg s i
        some (setPort cfg s port p src, true)
  else some (setPort cfg s port p src, true)

def recalculateConnectCandidates (isFinished : Bool) : Policy A :=
  if isFinished = s.finished then s
  else { s with
    finished := isFinished
    numConnectCandidates := s.peers.countP fun p => isConnectCandidate cfg (s.heap p) isFinished }

/-! ## Calls -/

/-- The policy of a new torrent. Nothing of the memory is used yet, and no connection knows a peer. -/
def Policy.new (memory : Ptr → Peer A) (outgoing : Conn → Bool) : Policy A :=
  ⟨[], memory, 0, none, 0, 0, 0, false, fun c => ⟨outgoing c, false, none⟩⟩

inductive Call (A : Type) where
  | addPeer (env : Env A) (remote : A × Nat) (src : Source) (flags : Nat)
  | newConnection (env : Env A) (c : Conn) (remote : A × Nat) (sockets : Sockets) (sessionTime : Int)
  | connectionClosed (c : Conn) (error : Nat) (fastReconnect : Bool) (sessionTime : Int)
  | setConnection (p : Ptr) (c : Conn)
  | banPeer (p : Ptr)
  | setSeed (p : Ptr) (seed : Bool)
  | setFailcount (p : Ptr) (f : Int)
  | updatePeerPort (port : Int) (p : Ptr) (src : Source) (fastReconnect : Bool) (sessionTime : Int)
  | erasePeers (env : Env A) (forceErase : Bool)
  | findConnectCandidate (env : Env A) (sessionTime : Int)
  | recalculateConnectCandidates (isFinished : Bool)
  /-- A new `web_seed_entry`, whose `peer_info` is not in the list. -/
  | addWebSeed (address : A)

def call : Call A → Option (Policy A)
  | .addPeer env remote src flags => PeerList.addPeer cfg env s remote src flags
  | .newConnection env c remote sockets sessionTime =>
    (PeerList.newConnection cfg env s c remote sockets sessionTime).map Prod.fst
  | .connectionClosed c error fastReconnect sessionTime => disconnect cfg s c error fastReconnect sessionTime
  | .setConnection p c => some (PeerList.setConnection cfg s p c)
  | .banPeer p => some (PeerList.banPeer cfg s p)
  | .setSeed p seed => some (PeerList.setSeed cfg s p seed)
  | .setFailcount p f => some (PeerList.setFailcount cfg s p f)
  | .updatePeerPort port p src fastReconnect sessionTime =>
    (PeerList.updatePeerPort cfg s port p src fastReconnect sessionTime).map Prod.fst
  | .erasePeers env forceErase => PeerList.erasePeers cfg env s forceErase
  | .findConnectCandidate env sessionTime => (PeerList.findConnectCandidate cfg env s sessionTime).map Prod.fst
  | .recalculateConnectCandidates isFinished => some (PeerList.recalculateConnectCandidates cfg s isFinished)
  | .addWebSeed address =>
    some { s.write s.next { Peer.new address 0 true 0 with webSeed := true } with next := s.next + 1 }

/-- The calls one after the other, as long as nothing outside the list is touched. -/
def step (s : Option (Policy A)) (a : Call A) : Option (Policy A) := s.bind (call cfg · a)

end Libtorrent.PeerList
