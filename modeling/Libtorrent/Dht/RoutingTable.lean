import Libtorrent.Lib.Run
import Libtorrent.Dht.NodeId
import Mathlib.Data.Finset.Basic

/-!
# `routing_table`

The buckets of the routing table, for nodes with an IPv4 address. A bucket is changed by the operations of the first
part (`erase`, `push_back` and assignments through an iterator, together with what they do to `m_ips`); `addNode`,
`split` and `nodeFailed` are written with them. The times of the table, and with them what `need_bootstrap` returns,
are left out.
-/

namespace Libtorrent.Dht

structure NodeEntry where
  addr : BitVec 32
  port : UInt16
  timeoutCount : UInt16
  id : NodeId
deriving DecidableEq

namespace NodeEntry

def new (id : NodeId) (addr : BitVec 32) (port : UInt16) (pinged : Bool) : NodeEntry :=
  { addr, port, timeoutCount := if pinged then 0 else 0xffff, id }

variable (e : NodeEntry)

def ep : Endpoint := ⟨.v4 e.addr, e.port⟩

def pinged : Bool := e.timeoutCount != 0xffff

def setPinged : NodeEntry := if e.timeoutCount = 0xffff then { e with timeoutCount := 0 } else e

def timedOut : NodeEntry := if e.pinged then { e with timeoutCount := e.timeoutCount + 1 } else e

def failCount : Nat := if e.pinged then e.timeoutCount.toNat else 0

def reset : NodeEntry := { e with timeoutCount := 0 }

end NodeEntry

structure RoutingTableNode where
  replacements : List NodeEntry
  liveNodes : List NodeEntry
deriving DecidableEq

/-- The entries of a bucket, in the order in which `find_node` sees them. -/
def RoutingTableNode.nodes (b : RoutingTableNode) : List NodeEntry := b.replacements ++ b.liveNodes

/-- What the table is made with, the settings it reads and its router nodes. -/
structure TableConfig where
  id : NodeId
  bucketSize : Nat
  bucketSize_pos : 0 < bucketSize
  restrictRoutingIps : Bool
  maxFailCount : Int
  routerNodes : List Endpoint

structure RoutingTable where
  buckets : List RoutingTableNode
  ips : Finset (BitVec 32)
deriving DecidableEq

namespace RoutingTable

def empty : RoutingTable := ⟨[], ∅⟩

variable (cfg : TableConfig) (t : RoutingTable)

def bucket (k : Nat) : RoutingTableNode := t.buckets.getD k ⟨[], []⟩

def nodes (t : RoutingTable) : List NodeEntry := t.buckets.flatMap RoutingTableNode.nodes

/-! ## Changing one bucket -/

def forget (ips : Finset (BitVec 32)) (l : List NodeEntry) (j : Nat) : Finset (BitVec 32) :=
  match l[j]? with
  | some e => ips.erase e.addr
  | none => ips

def eraseLive (k j : Nat) : RoutingTable where
  buckets := t.buckets.modify k fun b => { b with liveNodes := b.liveNodes.eraseIdx j }
  ips := forget t.ips (t.bucket k).liveNodes j

def eraseReplacement (k j : Nat) : RoutingTable where
  buckets := t.buckets.modify k fun b => { b with replacements := b.replacements.eraseIdx j }
  ips := forget t.ips (t.bucket k).replacements j

def pushLive (k : Nat) (e : NodeEntry) : RoutingTable where
  buckets := t.buckets.modify k fun b => { b with liveNodes := b.liveNodes ++ [e] }
  ips := insert e.addr t.ips

def pushReplacement (k : Nat) (e : NodeEntry) : RoutingTable where
  buckets := t.buckets.modify k fun b => { b with replacements := b.replacements ++ [e] }
  ips := insert e.addr t.ips

def updateLive (k j : Nat) (f : NodeEntry → NodeEntry) : RoutingTable :=
  { t with buckets := t.buckets.modify k fun b => { b with liveNodes := b.liveNodes.modify j f } }

def updateReplacement (k j : Nat) (f : NodeEntry → NodeEntry) : RoutingTable :=
  { t with buckets := t.buckets.modify k fun b => { b with replacements := b.replacements.modify j f } }

/-- `b.push_back(*j)` and `rb.erase(j)` for the replacement `j` of bucket `k`. -/
def promote (k j : Nat) : RoutingTable :=
  { t with buckets := t.buckets.modify k fun b =>
      { replacements := b.replacements.eraseIdx j, liveNodes := b.liveNodes ++ b.replacements[j]?.toList } }

/-! ## Finding buckets and nodes -/

/-- The first bucket is made when it is needed. -/
def withBucket : RoutingTable := if t.buckets = [] then { t with buckets := [⟨[], []⟩] } else t

def bucketIndex (id : NodeId) : Nat := min (159 - distanceExp cfg.id id) (t.buckets.length - 1)

def findBucket (id : NodeId) : RoutingTable × Nat := (t.withBucket, t.withBucket.bucketIndex cfg id)

def compareIpCidr (lhs rhs : NodeEntry) : Bool := Address.cidrDistance (.v4 lhs.addr) (.v4 rhs.addr) ≤ 8

def findNode (ep : Endpoint) : Option (Nat × NodeEntry) :=
  let k := t.buckets.findIdx fun b => b.nodes.any (·.ep = ep)
  ((t.bucket k).nodes.find? (·.ep = ep)).map fun e => (k, e)

def indexOf (ep : Endpoint) (l : List NodeEntry) : Nat := l.findIdx (·.ep = ep)

/-- `existing->timeout_count = 0`. -/
def touch (k : Nat) (ep : Endpoint) : RoutingTable :=
  let rb := (t.bucket k).replacements
  if rb.any (·.ep = ep) then t.updateReplacement k (indexOf ep rb) NodeEntry.reset
  else t.updateLive k (indexOf ep (t.bucket k).liveNodes) NodeEntry.reset

/-- The part of `add_node` that deletes the current entry of an endpoint. -/
def dropEndpoint (k : Nat) (ep : Endpoint) : RoutingTable :=
  let b := (t.bucket k).liveNodes
  if b.any (·.ep = ep) then t.eraseLive k (indexOf ep b)
  else t.eraseReplacement k (indexOf ep (t.bucket k).replacements)

/-! ## `add_node` -/

/-- The first part of `add_node`, for an address that is in the table already: the table, and whether to go on. -/
def replaceEndpoint (e : NodeEntry) : RoutingTable × Bool :=
  if e.addr ∉ t.ips then (t, true)
  else
    match if e.pinged then t.findNode e.ep else none with
    | none => (t, !cfg.restrictRoutingIps)
    | some (k, existing) =>
      if existing.id = e.id then (t.touch k e.ep, false)
      else (t.dropEndpoint k e.ep, true)

def maxFails (b : List NodeEntry) : Nat := b.foldl (fun m x => max m x.failCount) 0

/-- The entry of a full bucket that a pinged node replaces: the first that is not pinged, or else the first of those
that failed most often. -/
def stale (b : List NodeEntry) : Option Nat :=
  if b.any (!·.pinged) then some (b.findIdx (!·.pinged))
  else if 0 < maxFails b then some (b.findIdx (·.failCount = maxFails b))
  else none

def cache (k : Nat) (e : NodeEntry) : RoutingTable :=
  let rb := (t.bucket k).replacements
  if rb.any (·.id = e.id) then
    let j := rb.findIdx (·.id = e.id)
    if rb[j]?.map NodeEntry.ep = some e.ep then t.updateReplacement k j NodeEntry.setPinged else t
  else if cfg.bucketSize ≤ rb.length then
    let j := if rb.any (!·.pinged) then rb.findIdx (!·.pinged) else 0
    (t.eraseReplacement k j).pushReplacement k e
  else t.pushReplacement k e

/-- Does an id stay in bucket `k` when the bucket is split? -/
def stays (k : Nat) (id : NodeId) : Bool := 159 - k ≤ distanceExp cfg.id id

structure Halves where
  old : RoutingTableNode
  new : RoutingTableNode

/-- One round of the loop over the replacement bucket: the entry goes to one of the four lists. -/
def splitStep (k : Nat) (h : Halves) (x : NodeEntry) : Halves :=
  if stays cfg k x.id then
    if cfg.bucketSize ≤ h.old.liveNodes.length then
      { h with old := { h.old with replacements := h.old.replacements ++ [x] } }
    else { h with old := { h.old with liveNodes := h.old.liveNodes ++ [x] } }
  else if h.new.liveNodes.length < cfg.bucketSize then
    { h with new := { h.new with liveNodes := h.new.liveNodes ++ [x] } }
  else { h with new := { h.new with replacements := h.new.replacements ++ [x] } }

/-- Splitting a bucket: first its live nodes, then its replacements. -/
def splitBucket (k : Nat) (b : RoutingTableNode) : Halves :=
  b.replacements.foldl (splitStep cfg k)
    ⟨⟨[], b.liveNodes.filter fun x => stays cfg k x.id⟩, ⟨[], b.liveNodes.filter fun x => !stays cfg k x.id⟩⟩

def split (k : Nat) : RoutingTable :=
  let h := splitBucket cfg k (t.bucket k)
  { t with buckets := t.buckets.set k h.old ++ [h.new] }

/-- Inserting a node where there is room for it, after the split. -/
def settle (k : Nat) (e : NodeEntry) : RoutingTable :=
  if (t.bucket k).liveNodes.length < cfg.bucketSize then t.pushLive k e
  else if (t.bucket k).replacements.length < cfg.bucketSize then t.pushReplacement k e
  else t

/-- The part of `add_node` for a node whose bucket is full. -/
def overflow (k : Nat) (e : NodeEntry) : RoutingTable :=
  if e.pinged && e.failCount == 0 then
    match stale (t.bucket k).liveNodes with
    | some j => (t.eraseLive k j).pushLive k e
    | none =>
      if k + 1 = t.buckets.length ∧ t.buckets.length < 160 then
        (t.split cfg k).settle cfg (if stays cfg k e.id then k else k + 1) e
      else t.cache cfg k e
  else t.cache cfg k e

/-- The part of `add_node` behind `find_bucket`. -/
def insertNode (k : Nat) (e : NodeEntry) : RoutingTable :=
  let b := (t.bucket k).liveNodes
  let rb := (t.bucket k).replacements
  if b.any (·.id = e.id) then
    let j := b.findIdx (·.id = e.id)
    if b[j]?.map NodeEntry.ep = some e.ep then t.updateLive k j NodeEntry.reset else t
  else if rb.any (·.id = e.id) then t
  else if cfg.restrictRoutingIps && (b.any (compareIpCidr · e) || rb.any (compareIpCidr · e)) then t
  else if b.length < cfg.bucketSize then t.pushLive k e
  else t.overflow cfg k e

def addNode (e : NodeEntry) : RoutingTable :=
  if e.ep ∈ cfg.routerNodes then t
  else if e.id = cfg.id then t
  else
    match t.replaceEndpoint cfg e with
    | (t, false) => t
    | (t, true) => (t.findBucket cfg e.id).1.insertNode cfg (t.findBucket cfg e.id).2 e

/-! ## `node_failed` and the events of the table -/

def liveFailed (k j : Nat) : RoutingTable :=
  let rb := (t.bucket k).replacements
  if rb.isEmpty then
    let t := t.updateLive k j NodeEntry.timedOut
    match (t.bucket k).liveNodes[j]? with
    | some x => if cfg.maxFailCount ≤ x.failCount ∨ x.pinged = false then t.eraseLive k j else t
    | none => t
  else (t.eraseLive k j).promote k (if rb.any (·.pinged) then rb.findIdx (·.pinged) else 0)

def nodeFailed (id : NodeId) (ep : Endpoint) : RoutingTable :=
  if id = cfg.id then t
  else
    let t' := (t.findBucket cfg id).1
    let k := (t.findBucket cfg id).2
    let b := (t'.bucket k).liveNodes
    match b[b.findIdx (·.id = id)]? with
    | none => t'
    | some x => if x.ep = ep then t'.liveFailed cfg k (b.findIdx (·.id = id)) else t'

def heardAbout (id : NodeId) (addr : BitVec 32) (port : UInt16) : RoutingTable :=
  t.addNode cfg (.new id addr port false)

def nodeSeen (id : NodeId) (addr : BitVec 32) (port : UInt16) : RoutingTable :=
  t.addNode cfg (.new id addr port true)

inductive Event where
  | addNode (e : NodeEntry)
  | nodeSeen (id : NodeId) (addr : BitVec 32) (port : UInt16)
  | heardAbout (id : NodeId) (addr : BitVec 32) (port : UInt16)
  | nodeFailed (id : NodeId) (addr : BitVec 32) (port : UInt16)

def step : Event → RoutingTable
  | .addNode e => t.addNode cfg e
  | .nodeSeen id addr port => t.nodeSeen cfg id addr port
  | .heardAbout id addr port => t.heardAbout cfg id addr port
  | .nodeFailed id addr port => t.nodeFailed cfg id ⟨.v4 addr, port⟩

end RoutingTable

end Libtorrent.Dht
