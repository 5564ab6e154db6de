import Mathlib.Data.List.Nodup
import Mathlib.Data.List.TakeWhile
import Libtorrent.Lib.Run
import Libtorrent.Lib.Tally
import Libtorrent.Lib.Vec
import Libtorrent.Dht.NodeId

/-!
# `traversal_algorithm`

A lookup and the requests it has sent. Observers are shared by `m_results` and by the transactions of the `rpc_manager`,
so they are kept in a heap and the lists have pointers to them. What the lookup gets from outside is in `Env`: an
observer asks for a random id at most once, and is sent at most once, so these are functions of the observer. `queries`
is a record of the calls of `invoke`.
-/

namespace Libtorrent.Dht

open Run

structure Observer where
  id : NodeId
  targetEp : Endpoint
  transactionId : UInt16
  sent : Int
  queried : Bool
  initial : Bool
  noId : Bool
  shortTimeout : Bool
  failed : Bool
  alive : Bool
  done : Bool

/-- Queried, and neither finished nor failed. -/
def Observer.outstanding (o : Observer) : Bool := o.queried && !o.alive && !o.failed

namespace Observer

def setQueried (o : Observer) : Observer := { o with queried := true }

def setAlive (o : Observer) : Observer := { o with alive := true }

def setShortTimeout (o : Observer) : Observer := { o with shortTimeout := true }

def setFailed (o : Observer) : Observer := { o with failed := true }

def setDone (o : Observer) : Observer := { o with done := true }

end Observer

structure Env where
  target : NodeId
  restrictSearchIps : Bool
  numTargetNodes : Int
  branchFactor : Int
  routers : List Endpoint
  /-- What `generate_random_id` returns for an observer. -/
  randomId : Nat → NodeId
  /-- Sending the request of an observer succeeds. -/
  sendOk : Nat → Bool
  /-- The transaction id and the time of the request of an observer. -/
  transactionId : Nat → UInt16
  sentAt : Nat → Int

/-- `traversal_algorithm`, with `m_transactions` of the `rpc_manager`. -/
structure Traversal where
  observers : Nat → Observer
  size : Nat
  results : List Nat
  invokeCount : Int
  branchFactor : Int
  responses : Int
  timeouts : Int
  transactions : List Nat
  queries : List Nat

variable (env : Env)

namespace Traversal

variable (s : Traversal)

def setFlags (o : Nat) (f : Observer → Observer) : Traversal :=
  { s with observers := Function.update s.observers o (f (s.observers o)) }

/-! ## Entries -/

def compareIpCidr (lhs rhs : Observer) : Bool :=
  let a := lhs.targetEp.addr
  let b := rhs.targetEp.addr
  if a.isV4 ≠ b.isV4 then false
  else a.cidrDistance b ≤ if b.isV4 then 4 else 64

/-- `new_observer(ptr, addr, id)`, with a random id for an entry without one. -/
def newObserver (id : NodeId) (addr : Endpoint) (initial : Bool) : Observer where
  id := if id = 0 then env.randomId s.size else id
  targetEp := addr
  transactionId := 0
  sent := 0
  queried := false
  initial := initial
  noId := id = 0
  shortTimeout := false
  failed := false
  alive := false
  done := false

def alloc (o : Observer) : Traversal :=
  { s with observers := Function.update s.observers s.size o, size := s.size + 1 }

def lowerBound (o : Observer) : Nat :=
  s.results.findIdx fun r => !compareRef (s.observers r).id o.id env.target

def truncate : Traversal := { s with results := s.results.take 100 }

def addEntry (id : NodeId) (addr : Endpoint) (initial : Bool) : Traversal :=
  let o := newObserver env s id addr initial
  let ptr := s.size
  let s := s.alloc o
  let i := s.lowerBound env o
  if (s.results[i]?).all fun r => (s.observers r).id ≠ id then
    if env.restrictSearchIps && s.results.any fun r => compareIpCidr (s.observers r) o then s
    else { s with results := s.results.insertIdx i ptr }.truncate
  else s.truncate

def traverse (n : NodeId × Endpoint) : Traversal := s.addEntry env n.1 n.2 false

/-! ## Requests -/

def invoke (o : Nat) : Traversal × Bool :=
  let s := { s with queries := s.queries ++ [o] }
  let s := s.setFlags o fun ob => { ob with transactionId := env.transactionId o, sent := env.sentAt o }
  if env.sendOk o then ({ s with transactions := s.transactions ++ [o] }, true) else (s, false)

def request (i : Nat) : Traversal :=
  let (s, sent) := (s.setFlags i Observer.setQueried).invoke env i
  if sent then { s with invokeCount := s.invokeCount + 1 } else s.setFlags i Observer.setFailed

def requestLoop (s : Traversal) : List Nat → (resultsTarget : Int) → Traversal
  | [], _ => s
  | i :: rest, resultsTarget =>
    if resultsTarget > 0 ∧ s.invokeCount < s.branchFactor then
      let resultsTarget := if (s.observers i).alive then resultsTarget - 1 else resultsTarget
      if (s.observers i).queried then s.requestLoop rest resultsTarget
      else (s.request env i).requestLoop rest resultsTarget
    else s

def addRequests : Traversal := s.requestLoop env s.results env.numTargetNodes

def done : Traversal := { s with results := [] }

/-- More requests, and the end of the lookup if none is left. -/
def proceed : Traversal :=
  let s := s.addRequests env
  if s.invokeCount = 0 then s.done else s

def answer (o : Nat) : Traversal :=
  { s.setFlags o Observer.setAlive with
    branchFactor := if (s.observers o).shortTimeout then s.branchFactor - 1 else s.branchFactor
    responses := s.responses + 1
    invokeCount := s.invokeCount - 1 }

def finished (o : Nat) : Traversal := (s.answer o).proceed env

def openSlot (o : Nat) : Traversal :=
  { s.setFlags o Observer.setShortTimeout with
    branchFactor := if (s.observers o).shortTimeout then s.branchFactor else s.branchFactor + 1 }

def giveUp (o : Nat) : Traversal :=
  { s.setFlags o Observer.setFailed with
    branchFactor := if (s.observers o).shortTimeout then s.branchFactor - 1 else s.branchFactor
    timeouts := s.timeouts + 1
    invokeCount := s.invokeCount - 1 }

def failed (o : Nat) (shortTimeout preventRequest : Bool) : Traversal :=
  if s.results = [] then s
  else
    let s := if shortTimeout then s.openSlot o else s.giveUp o
    let s := if preventRequest then { s with branchFactor := max (s.branchFactor - 1) 1 } else s
    s.proceed env

/-! ## Observers and transactions -/

def observerDone (o : Nat) : Traversal :=
  if (s.observers o).done then s else (s.setFlags o Observer.setDone).finished env o

def observerShortTimeout (o : Nat) : Traversal :=
  if (s.observers o).shortTimeout then s else s.failed env o true false

def observerTimeout (o : Nat) : Traversal :=
  if (s.observers o).done then s else (s.setFlags o Observer.setDone).failed env o false false

def erase (s : Traversal) (o : Nat) : Traversal := { s with transactions := s.transactions.erase o }

def transaction (tid : UInt16) (addr : Address) : Option Nat :=
  s.transactions.find? fun o => (s.observers o).transactionId = tid && (s.observers o).targetEp.addr = addr

/-- `rpc_manager::incoming(m, id)` for a reply with a transaction id from an address. A reply without `r` or without a
valid `id` in it has no nodes, and its observer is dropped; otherwise `find_data_observer::reply` adds the nodes. -/
def incoming (tid : UInt16) (addr : Address) (nodes : Option (List (NodeId × Endpoint))) : Traversal :=
  match s.transaction tid addr with
  | none => s
  | some o =>
    match nodes with
    | none => s.erase o
    | some nodes => (run (traverse env) (s.erase o) nodes).observerDone env o

def unreachable (ep : Endpoint) : Traversal :=
  match s.transactions.find? fun o => (s.observers o).targetEp = ep with
  | none => s
  | some o => (s.erase o).observerTimeout env o

/-- The request of an observer was sent this long ago; times are in milliseconds. -/
def olderThan (now age : Int) (o : Nat) : Bool := now - (s.observers o).sent ≥ age

/-- The first loop of `tick`: the transactions up to one that has not timed out. -/
def expire (now : Int) : Traversal :=
  (s.transactions.takeWhile (s.olderThan now 8000)).foldl (observerTimeout env)
    { s with transactions := s.transactions.dropWhile (s.olderThan now 8000) }

/-- The second loop of `tick`: short timeouts. -/
def warn (now : Int) : Traversal :=
  ((s.transactions.takeWhile (s.olderThan now 1000)).filter fun o => !(s.observers o).shortTimeout).foldl
    (observerShortTimeout env) s

def tick (now : Int) : Traversal := (s.expire env now).warn env now

/-! ## Runs -/

def empty (o : Observer) : Traversal := ⟨fun _ => o, 0, [], 0, 3, 0, 0, [], []⟩

def addRouter (ep : Endpoint) : Traversal := s.addEntry env 0 ep true

def addRouterEntries : Traversal := run (addRouter env) s env.routers

/-- The constructor of `find_data` adds a node of the routing table. -/
def addInitial (n : NodeId × Endpoint) : Traversal := s.addEntry env n.1 n.2 true

def start : Traversal :=
  let s := if s.results = [] then s.addRouterEntries env else s
  { s with branchFactor := env.branchFactor }.proceed env

inductive Event where
  | incoming (tid : UInt16) (addr : Address) (nodes : Option (List (NodeId × Endpoint)))
  | unreachable (ep : Endpoint)
  | tick (now : Int)

def step : Event → Traversal
  | .incoming tid addr nodes => s.incoming env tid addr nodes
  | .unreachable ep => s.unreachable env ep
  | .tick now => s.tick env now

/-!
## The accounts of a lookup

`Table` says that the results are sorted by the distance to the target; `Ledger` that the counters are those of the
outstanding observers. Adding an entry keeps both if a random id that is drawn for it is not that of a result (`Fresh`).
Every function of the lookup keeps the ledger, and does not touch the observers that were queried, apart from the one it
is called for (`Frame`).
-/

open Tally Vec List Function Nat Observer

variable {env} {s} {t : Traversal} {base : Int}

/-! ## The invariants -/

/-- The results are sorted by the distance of their ids to the target, and there are at most 100. -/
structure Table (env : Env) (s : Traversal) : Prop where
  sorted : s.results.Pairwise fun a b => compareRef (s.observers a).id (s.observers b).id env.target = true
  length : s.results.length ≤ 100
  valid : ∀ o ∈ s.results, o < s.size

def pending (s : Traversal) : Nat := tally s.size fun o => (s.observers o).outstanding

def late (s : Traversal) : Nat := tally s.size fun o => (s.observers o).outstanding && (s.observers o).shortTimeout

structure Ledger (base : Int) (s : Traversal) : Prop where
  invoke : s.invokeCount = s.pending
  branch : s.branchFactor = base + s.late
  nodup : s.transactions.Nodup
  sent : ∀ o ∈ s.transactions, o < s.size ∧ (s.observers o).outstanding = true ∧ (s.observers o).done = false
  unqueried : ∀ o < s.size, (s.observers o).queried = false → (s.observers o).shortTimeout = false ∧
    (s.observers o).alive = false ∧ (s.observers o).failed = false ∧ (s.observers o).done = false
  once : s.queries.Nodup
  queried : ∀ o ∈ s.queries, o < s.size ∧ (s.observers o).queried = true
  active : s.results = [] → s.invokeCount = 0

/-- What happened in between does not concern the observers that were queried before. -/
structure Frame (s t : Traversal) : Prop where
  size : s.size ≤ t.size
  same : ∀ o < s.size, (s.observers o).queried = true →
    t.observers o = s.observers o ∧ (o ∈ t.transactions ↔ o ∈ s.transactions)

theorem Frame.refl (s : Traversal) : Frame s s := ⟨le_refl _, fun _ _ _ => ⟨rfl, Iff.rfl⟩⟩

variable {u : Traversal} {o : Nat} {l : List Nat} {id : NodeId}

theorem Frame.trans (h1 : Frame s t) (h2 : Frame t u) : Frame s u := by
  refine ⟨le_trans h1.size h2.size, fun o ho hq => ?_⟩
  obtain ⟨he, ht⟩ := h1.same o ho hq
  obtain ⟨he', ht'⟩ := h2.same o (lt_of_lt_of_le ho h1.size) (by rw [he]; exact hq)
  exact ⟨he'.trans he, ht'.trans ht⟩

theorem queried_of_outstanding {o : Observer} (h : o.outstanding = true) : o.queried = true := by
  simp only [outstanding, Bool.and_eq_true] at h
  exact h.1.1

/-! ## Changing the flags of an observer -/

@[simp] theorem setFlags_self (s : Traversal) (o : Nat) (f : Observer → Observer) :
    (s.setFlags o f).observers o = f (s.observers o) := update_self ..

theorem setFlags_of_ne (s : Traversal) {j : Nat} (f : Observer → Observer) (h : j ≠ o) :
    (s.setFlags o f).observers j = s.observers j := update_of_ne h ..

theorem tally_setFlags (s : Traversal) (ho : o < s.size) (f : Observer → Observer) (p : Observer → Bool) :
    tally s.size (fun i => p ((s.setFlags o f).observers i)) + (p (s.observers o)).toNat =
      tally s.size (fun i => p (s.observers i)) + (p (f (s.observers o))).toNat := by
  have h := tally_change (f := fun i => p ((s.setFlags o f).observers i)) ho
    fun i _ hi => by rw [setFlags_of_ne s f hi]
  simpa using h

/-- **A change of one observer.** The counters change as its flags do; `o` is the only one that may be new in the
lists. -/
theorem Ledger.change (h : Ledger base s) (ho : o < s.size) (f : Observer → Observer)
    (hobs : t.observers = (s.setFlags o f).observers) (hsize : t.size = s.size)
    (hinvoke : t.invokeCount + (s.observers o).outstanding.toNat = s.invokeCount +
      (f (s.observers o)).outstanding.toNat)
    (hbranch : t.branchFactor + ((s.observers o).outstanding && (s.observers o).shortTimeout).toNat =
      s.branchFactor + ((f (s.observers o)).outstanding && (f (s.observers o)).shortTimeout).toNat)
    (hnodup : t.transactions.Nodup) (hsent : ∀ j ∈ t.transactions, j ≠ o → j ∈ s.transactions)
    (hself : o ∈ t.transactions → (f (s.observers o)).outstanding = true ∧ (f (s.observers o)).done = false)
    (hq : (f (s.observers o)).queried = true) (honce : t.queries.Nodup)
    (hqueries : ∀ j ∈ t.queries, j ≠ o → j ∈ s.queries) (hactive : t.results = [] → t.invokeCount = 0) :
    Ledger base t := by
  have hother : ∀ {j}, j ≠ o → t.observers j = s.observers j := fun hj => by rw [hobs, setFlags_of_ne s f hj]
  have hthis : t.observers o = f (s.observers o) := by rw [hobs, setFlags_self]
  refine ⟨?_, ?_, hnodup, fun j hj => ?_, fun j hj hjq => ?_, honce, fun j hj => ?_, hactive⟩
  · have hcount := tally_setFlags s ho f outstanding
    have hold := h.invoke
    simp only [pending, hsize, hobs] at hold ⊢
    omega
  · have hcount := tally_setFlags s ho f fun o => o.outstanding && o.shortTimeout
    have hold := h.branch
    simp only [late, hsize, hobs] at hold ⊢
    omega
  · by_cases hjo : j = o
    · subst hjo
      rw [hthis, hsize]
      exact ⟨ho, hself hj⟩
    · rw [hother hjo, hsize]
      exact h.sent j (hsent j hj hjo)
  · by_cases hjo : j = o
    · subst hjo
      rw [hthis, hq] at hjq
      cases hjq
    · rw [hother hjo] at hjq ⊢
      exact h.unqueried j (hsize ▸ hj) hjq
  · by_cases hjo : j = o
    · subst hjo
      rw [hthis, hsize]
      exact ⟨ho, hq⟩
    · rw [hother hjo, hsize]
      exact h.queried j (hqueries j hj hjo)

theorem Table.change (h : Table env s) (o : Nat) (f : Observer → Observer) (hf : ∀ ob, (f ob).id = ob.id)
    (hobs : t.observers = (s.setFlags o f).observers) (hsize : t.size = s.size) (hresults : t.results = s.results) :
    Table env t := by
  have hid : ∀ i, (t.observers i).id = (s.observers i).id := by
    intro i
    rw [hobs]
    by_cases hi : i = o
    · rw [hi, setFlags_self, hf]
    · rw [setFlags_of_ne s f hi]
  refine ⟨?_, by rw [hresults]; exact h.length, by rw [hresults, hsize]; exact h.valid⟩
  rw [hresults]
  exact h.sorted.imp fun {a b} hab => by rw [hid a, hid b]; exact hab

/-! ## Adding entries -/

theorem alloc_old (s : Traversal) (o : Observer) {i : Nat} (h : i < s.size) : (s.alloc o).observers i = s.observers i :=
  update_of_ne (Nat.ne_of_lt h) ..

@[simp] theorem alloc_new (s : Traversal) (o : Observer) : (s.alloc o).observers s.size = o := update_self ..

theorem tally_alloc (s : Traversal) (o : Observer) (p : Observer → Bool) (h : p o = false) :
    tally (s.alloc o).size (fun i => p ((s.alloc o).observers i)) = tally s.size fun i => p (s.observers i) := by
  change tally (s.size + 1) _ = _
  rw [tally_succ, alloc_new, h]
  exact tally_congr fun i hi => by rw [alloc_old s o hi]

theorem Ledger.alloc (h : Ledger base s) {o : Observer} (hq : o.queried = false)
    (hnew : o.shortTimeout = false ∧ o.alive = false ∧ o.failed = false ∧ o.done = false) :
      Ledger base (s.alloc o) := by
  have hout : o.outstanding = false := by simp [outstanding, hq]
  refine ⟨?_, ?_, h.nodup, fun i hi => ?_, fun i hi hq' => ?_, h.once, fun i hi => ?_, h.active⟩
  · rw [pending, tally_alloc s o outstanding hout]
    exact h.invoke
  · rw [late, tally_alloc s o (fun o => o.outstanding && o.shortTimeout) (by simp [hout])]
    exact h.branch
  · obtain ⟨hlt, hi⟩ := h.sent i hi
    rw [alloc_old s o hlt]
    exact ⟨lt_succ_of_lt hlt, hi⟩
  · rcases Nat.lt_succ_iff_lt_or_eq.mp hi with hlt | rfl
    · rw [alloc_old s o hlt] at hq' ⊢
      exact h.unqueried i hlt hq'
    · rw [alloc_new]
      exact hnew
  · obtain ⟨hlt, hi⟩ := h.queried i hi
    rw [alloc_old s o hlt]
    exact ⟨lt_succ_of_lt hlt, hi⟩

theorem Ledger.results (h : Ledger base s) (hl : l = [] → s.results = []) : Ledger base { s with results := l } :=
  ⟨h.invoke, h.branch, h.nodup, h.sent, h.unqueried, h.once, h.queried, fun he => h.active (hl he)⟩

theorem frame_alloc (s : Traversal) (o : Observer) : Frame s (s.alloc o) :=
  ⟨le_succ _, fun _ hi _ => ⟨alloc_old s o hi, Iff.rfl⟩⟩

theorem Table.alloc (h : Table env s) (o : Observer) : Table env (s.alloc o) := by
  refine ⟨?_, h.length, fun i hi => lt_succ_of_lt (h.valid i hi)⟩
  refine h.sorted.imp_of_mem fun ha hb hab => ?_
  rw [alloc_old s o (h.valid _ ha), alloc_old s o (h.valid _ hb)]
  exact hab

theorem Table.take (hs : l.Pairwise fun a b => compareRef (s.observers a).id (s.observers b).id env.target = true)
    (hv : ∀ o ∈ l, o < s.size) : Table env { s with results := l.take 100 } :=
  ⟨hs.sublist (take_sublist _ _), length_take_le _ _, fun o ho => hv o (mem_of_mem_take ho)⟩

/-- A random id that is drawn for a new observer is not that of a result. -/
def Fresh (env : Env) (s : Traversal) (id : NodeId) : Prop :=
  id = 0 → ∀ r ∈ s.results, (s.observers r).id ≠ env.randomId s.size

theorem lowerBound_split (h : Table env s) {o : Observer} (hne : ∀ r, s.results[s.lowerBound env o]? = some r →
      (s.observers r).id ≠ o.id) : ∃ l1 l2, s.results = l1 ++ l2 ∧ s.lowerBound env o = l1.length ∧
    (∀ r ∈ l1, compareRef (s.observers r).id o.id env.target = true) ∧
    ∀ r ∈ l2, compareRef o.id (s.observers r).id env.target = true := by
  let q := fun r => compareRef (s.observers r).id o.id env.target
  have hsplit : s.results = s.results.takeWhile q ++ s.results.dropWhile q := takeWhile_append_dropWhile.symm
  have h1 : ∀ r ∈ s.results.takeWhile q, q r = true := fun r hr => mem_takeWhile_imp hr
  have hbound : s.lowerBound env o = (s.results.takeWhile q).length := by
    rw [lowerBound]
    nth_rewrite 1 [hsplit]
    refine findIdx_append (fun r hr => ?_) fun r hr => ?_
    · have := List.head?_dropWhile_not q s.results
      rw [hr] at this
      simpa using this
    have hq := h1 r hr
    simp only [q] at hq
    rw [hq]
    rfl
  refine ⟨_, _, hsplit, hbound, h1, ?_⟩
  have hsorted := h.sorted
  rw [hsplit, pairwise_append] at hsorted
  rw [hbound] at hne
  nth_rewrite 1 [hsplit] at hne
  cases hl : s.results.dropWhile q with
  | nil => simp
  | cons r =>
    -- the first one behind the place is not closer, and it is not as close, so it is farther
    have hnot : q r = false := by
      have := List.head?_dropWhile_not q s.results
      rw [hl] at this
      simpa using this
    have hr : compareRef o.id (s.observers r).id env.target = true := by
      by_contra hcon
      refine hne r (by simp [hl]) ?_
      exact eq_of_not_compareRef hnot (by simpa using hcon)
    rw [hl, pairwise_cons] at hsorted
    intro r' hr'
    rcases mem_cons.mp hr' with rfl | hr'
    · exact hr
    · exact compareRef_trans hr (hsorted.2.1.1 r' hr')

/-- **Adding an entry** puts an observer on the heap and keeps the results sorted. -/
theorem addEntry_spec (h : Table env s) (hf : Fresh env s id) (addr : Endpoint) (initial : Bool) :
    ∃ l, s.addEntry env id addr initial = { s.alloc (newObserver env s id addr initial) with results := l } ∧
      (l = [] → s.results = []) ∧ Table env { s.alloc (newObserver env s id addr initial) with results := l } := by
  have hid : (newObserver env s id addr initial).id = if id = 0 then env.randomId s.size else id := rfl
  unfold addEntry
  simp only
  generalize newObserver env s id addr initial = o at hid
  have hu : Table env (s.alloc o) := h.alloc o
  have htake : Table env (s.alloc o).truncate := Table.take hu.sorted hu.valid
  have hnil : (s.alloc o).results.take 100 = [] → s.results = [] := by
    intro hl
    cases hr : s.results with
    | nil => rfl
    | cons =>
      change s.results.take 100 = [] at hl
      rw [hr] at hl
      cases hl
  split
  · rename_i hall
    split
    · exact ⟨s.results, rfl, fun hl => hl, hu⟩
    obtain ⟨l1, l2, hsplit, hi, h1, h2⟩ := lowerBound_split hu fun r hr => by
      have hr' := mem_of_getElem? hr
      rw [hr, Option.all_some, decide_eq_true_eq] at hall
      rw [hid]
      split
      · rename_i h0
        rw [alloc_old s o (h.valid r hr')]
        exact hf h0 r hr'
      · exact hall
    have hins : (s.alloc o).results.insertIdx ((s.alloc o).lowerBound env o) s.size = l1 ++ s.size :: l2 := by
      rw [hi, hsplit, insertIdx_append_length]
    rw [hins]
    refine ⟨(l1 ++ s.size :: l2).take 100, rfl, fun hl => ?_, Table.take ?_ fun i hmem => ?_⟩
    · rw [take_eq_nil_iff] at hl
      simp at hl
    · have hsorted := hu.sorted
      rw [hsplit, pairwise_append] at hsorted
      rw [pairwise_append, pairwise_cons]
      refine ⟨hsorted.1, ⟨fun b hb => ?_, hsorted.2.1⟩, fun a ha b hb => ?_⟩
      · rw [alloc_new]
        exact h2 b hb
      rcases mem_cons.mp hb with rfl | hb
      · rw [alloc_new]
        exact h1 a ha
      · exact hsorted.2.2 a ha b hb
    · simp only [mem_append, mem_cons] at hmem
      rcases hmem with hmem | rfl | hmem
      · exact hu.valid i (by rw [hsplit]; exact mem_append_left _ hmem)
      · exact lt_succ_self _
      · exact hu.valid i (by rw [hsplit]; exact mem_append_right _ hmem)
  · exact ⟨_, rfl, hnil, htake⟩

structure Inv (env : Env) (base : Int) (s : Traversal) : Prop where
  table : Table env s
  ledger : Ledger base s

theorem Inv.addEntry (h : Inv env base s) (hf : Fresh env s id) (addr : Endpoint) (initial : Bool) :
    Inv env base (s.addEntry env id addr initial) ∧ Frame s (s.addEntry env id addr initial) ∧
      (s.addEntry env id addr initial).invokeCount = s.invokeCount := by
  obtain ⟨l, heq, hl, ht⟩ := addEntry_spec h.table hf addr initial
  rw [heq]
  have hframe := frame_alloc s (newObserver env s id addr initial)
  exact ⟨⟨ht, (h.ledger.alloc rfl ⟨rfl, rfl, rfl, rfl⟩).results hl⟩, ⟨hframe.size, hframe.same⟩, rfl⟩

theorem Inv.run_addEntry {α : Type} (node : α → NodeId × Endpoint) (initial : Bool) {nodes : List α}
    (h : Inv env base s) (hf : Legal (fun s a => s.addEntry env (node a).1 (node a).2 initial)
      (fun s a => Fresh env s (node a).1) s nodes) :
    Inv env base (run (fun s a => s.addEntry env (node a).1 (node a).2 initial) s nodes) ∧
      Frame s (run (fun s a => s.addEntry env (node a).1 (node a).2 initial) s nodes) ∧
      (run (fun s a => s.addEntry env (node a).1 (node a).2 initial) s nodes).invokeCount = s.invokeCount := by
  induction nodes generalizing s with
  | nil => exact ⟨h, Frame.refl s, rfl⟩
  | cons n nodes ih =>
    obtain ⟨h', hframe, hcount⟩ := h.addEntry hf.1 (node n).2 initial
    obtain ⟨hinv, hframe', hcount'⟩ := ih h' hf.2
    exact ⟨hinv, hframe.trans hframe', hcount'.trans hcount⟩

/-! ## Sending requests -/

def asked (env : Env) (o : Nat) (ob : Observer) : Observer :=
  { ob with
    queried := true
    transactionId := env.transactionId o
    sent := env.sentAt o
    failed := ob.failed || !env.sendOk o }

theorem request_eq (s : Traversal) (o : Nat) : s.request env o = { s.setFlags o (asked env o) with
    queries := s.queries ++ [o]
    transactions := if env.sendOk o then s.transactions ++ [o] else s.transactions
    invokeCount := if env.sendOk o then s.invokeCount + 1 else s.invokeCount } := by
  unfold request invoke setFlags asked setQueried setFailed
  cases hok : env.sendOk o <;> simp [update_idem]

theorem Inv.request (h : Inv env base s) (ho : o ∈ s.results) (hq : (s.observers o).queried = false) :
    Inv env base (s.request env o) := by
  have hlt := h.table.valid o ho
  obtain ⟨hshort, halive, hfailed, hdone⟩ := h.ledger.unqueried o hlt hq
  have hnot : o ∉ s.transactions := fun hmem => by
    rw [queried_of_outstanding (h.ledger.sent o hmem).2.1] at hq
    cases hq
  have hnotq : o ∉ s.queries := fun hmem => by
    rw [(h.ledger.queried o hmem).2] at hq
    cases hq
  have hconcat : ∀ {l : List Nat}, l.Nodup → o ∉ l → (l ++ [o]).Nodup := fun hl hmem => by
    rw [nodup_append_comm, singleton_append, nodup_cons]
    exact ⟨hmem, hl⟩
  have hin : ∀ {l : List Nat} {j : Nat}, j ∈ l ++ [o] → j ≠ o → j ∈ l := fun hj hne => by
    rcases mem_append.mp hj with hj | hj
    · exact hj
    · exact absurd (mem_singleton.mp hj) hne
  rw [request_eq]
  refine ⟨h.table.change o (asked env o) (fun _ => rfl) rfl rfl rfl, ?_⟩
  refine h.ledger.change hlt (asked env o) rfl rfl ?_ ?_ ?_ ?_ ?_ rfl (hconcat h.ledger.once hnotq) (fun j => hin)
    fun hnil => ?_
  · cases hok : env.sendOk o <;> simp [asked, outstanding, hq, halive, hfailed, hok]
  · simp [asked, hshort, setFlags]
  · cases hok : env.sendOk o
    · exact h.ledger.nodup
    · exact hconcat h.ledger.nodup hnot
  · cases hok : env.sendOk o
    · exact fun j hj _ => hj
    · exact fun j => hin
  · cases hok : env.sendOk o
    · exact fun hmem => absurd hmem hnot
    · exact fun _ => ⟨by simp [asked, outstanding, halive, hfailed, hok], hdone⟩
  · change s.results = [] at hnil
    rw [hnil] at ho
    cases ho

theorem frame_request (s : Traversal) (hq : (s.observers o).queried = false) : Frame s (s.request env o) := by
  rw [request_eq]
  refine ⟨le_refl _, fun i _ hi => ?_⟩
  have hne : i ≠ o := fun he => by
    rw [he, hq] at hi
    cases hi
  refine ⟨setFlags_of_ne s _ hne, ?_⟩
  cases env.sendOk o
  · exact Iff.rfl
  · simp [hne]

theorem Inv.requestLoop (h : Inv env base s) (hl : l ⊆ s.results) (resultsTarget : Int) :
    Inv env base (s.requestLoop env l resultsTarget) ∧ Frame s (s.requestLoop env l resultsTarget) ∧
      (s.requestLoop env l resultsTarget).results = s.results := by
  induction l generalizing s resultsTarget with
  | nil => exact ⟨h, Frame.refl s, rfl⟩
  | cons i l ih =>
    obtain ⟨hi, hl⟩ := cons_subset.mp hl
    rw [Traversal.requestLoop]
    split
    · simp only
      split
      · exact ih h hl _
      rename_i hq
      have hq : (s.observers i).queried = false := by simpa using hq
      have hresults : (s.request env i).results = s.results := by
        rw [request_eq]
        rfl
      obtain ⟨hinv, hframe, hres⟩ := ih (h.request hi hq) (hresults ▸ hl)
        (if (s.observers i).alive then resultsTarget - 1 else resultsTarget)
      exact ⟨hinv, (frame_request s hq).trans hframe, hres.trans hresults⟩
    · exact ⟨h, Frame.refl s, rfl⟩

/-- More requests keep the accounts, and the lookup ends only when nothing is outstanding. -/
theorem Inv.proceed (h : Inv env base s) : Inv env base (s.proceed env) ∧ Frame s (s.proceed env) := by
  obtain ⟨hinv, hframe, -⟩ := h.requestLoop (List.Subset.refl _) env.numTargetNodes
  unfold Traversal.proceed addRequests
  simp only
  split
  · rename_i hzero
    refine ⟨⟨⟨List.Pairwise.nil, zero_le _, fun o ho => by cases ho⟩, ?_⟩, hframe.size, hframe.same⟩
    have hl := hinv.ledger
    exact ⟨hl.invoke, hl.branch, hl.nodup, hl.sent, hl.unqueried, hl.once, hl.queried, fun _ => hzero⟩
  · exact ⟨hinv, hframe⟩

/-! ## Replies and timeouts -/

/-- An observer that waits for the outcome it is going to be told. -/
structure Waiting (s : Traversal) (o : Nat) : Prop where
  lt : o < s.size
  outstanding : (s.observers o).outstanding = true
  erased : o ∉ s.transactions
  done : (s.observers o).done = false

/-- What happened in between concerns only the observer `o` among those that were queried. -/
structure Apart (o : Nat) (s t : Traversal) : Prop where
  size : s.size ≤ t.size
  same : ∀ i < s.size, i ≠ o → (s.observers i).queried = true →
    t.observers i = s.observers i ∧ (i ∈ t.transactions ↔ i ∈ s.transactions)

theorem Apart.of_frame {f : Observer → Observer} (hobs : t.observers = (s.setFlags o f).observers)
    (hsize : t.size = s.size) (htrans : t.transactions = s.transactions) (h : Frame t u) : Apart o s u := by
  refine ⟨hsize ▸ h.size, fun i hi hne hq => ?_⟩
  have hi' : t.observers i = s.observers i := by rw [hobs, setFlags_of_ne s f hne]
  have hsame := h.same i (hsize ▸ hi) (by rw [hi']; exact hq)
  rw [hi', htrans] at hsame
  exact hsame

theorem results_ne_nil (h : Ledger base s) (ho : o < s.size) (hout : (s.observers o).outstanding = true) :
    s.results ≠ [] := by
  intro hnil
  have hpos : 0 < s.pending := tally_pos.mpr ⟨o, ho, hout⟩
  have := h.active hnil
  rw [h.invoke] at this
  omega

section

variable (h : Inv env base s)
include h

variable {o : Nat}

theorem Inv.markDone (hw : Waiting s o) : Inv env base (s.setFlags o setDone) := by
  refine ⟨h.table.change o setDone (fun _ => rfl) rfl rfl rfl, ?_⟩
  exact h.ledger.change hw.lt setDone rfl rfl rfl rfl h.ledger.nodup (fun j hj _ => hj)
    (fun hmem => absurd hmem hw.erased) (queried_of_outstanding hw.outstanding) h.ledger.once (fun j hj _ => hj)
    h.ledger.active

section

variable (hlt : o < s.size) (hout : (s.observers o).outstanding = true)
include hlt hout

section

variable (herased : o ∉ s.transactions)
include herased

/-- An outstanding request is settled: it is not outstanding any more, and a slot that was opened for it is closed. -/
theorem Inv.settle (f : Observer → Observer) (hid : ∀ ob, (f ob).id = ob.id)
    (hq : ∀ ob, (f ob).queried = ob.queried) (hf : ∀ ob, (f ob).outstanding = false) (responses timeouts : Int) :
    Inv env base { s.setFlags o f with
      branchFactor := if (s.observers o).shortTimeout then s.branchFactor - 1 else s.branchFactor
      responses := responses
      timeouts := timeouts
      invokeCount := s.invokeCount - 1 } := by
  have hne := results_ne_nil h.ledger hlt hout
  refine ⟨h.table.change o f hid rfl rfl rfl, ?_⟩
  refine h.ledger.change hlt f rfl rfl ?_ ?_ h.ledger.nodup (fun j hj _ => hj) (fun hmem => absurd hmem herased)
    (by rw [hq, queried_of_outstanding hout]) h.ledger.once (fun j hj _ => hj) fun hnil => absurd hnil hne
  · rw [hout, hf]
    simp
  · rw [hout, hf]
    cases (s.observers o).shortTimeout <;> simp

theorem Inv.finished : Inv env base (s.finished env o) ∧ Apart o s (s.finished env o) := by
  have hanswer : Inv env base (s.answer o) := h.settle hlt hout herased setAlive (fun _ => rfl) (fun _ => rfl)
    (fun ob => by simp [outstanding, setAlive]) _ _
  obtain ⟨hinv, hframe⟩ := hanswer.proceed
  exact ⟨hinv, Apart.of_frame (t := s.answer o) rfl rfl rfl hframe⟩

theorem Inv.failed : Inv env base (s.failed env o false false) ∧ Apart o s (s.failed env o false false) := by
  have hgiveUp : Inv env base (s.giveUp o) := h.settle hlt hout herased setFailed (fun _ => rfl) (fun _ => rfl)
    (fun ob => by simp [outstanding, setFailed]) _ _
  obtain ⟨hinv, hframe⟩ := hgiveUp.proceed
  rw [Traversal.failed, if_neg (results_ne_nil h.ledger hlt hout)]
  exact ⟨hinv, Apart.of_frame (t := s.giveUp o) rfl rfl rfl hframe⟩

end

theorem Inv.shortTimeout (hshort : (s.observers o).shortTimeout = false) :
    Inv env base (s.failed env o true false) ∧ Apart o s (s.failed env o true false) := by
  have hne := results_ne_nil h.ledger hlt hout
  have hopen : Inv env base (s.openSlot o) := by
    refine ⟨h.table.change o setShortTimeout (fun _ => rfl) rfl rfl rfl, ?_⟩
    refine h.ledger.change hlt setShortTimeout rfl rfl rfl ?_ h.ledger.nodup (fun j hj _ => hj)
      (fun hmem => (h.ledger.sent o hmem).2) (queried_of_outstanding hout) h.ledger.once (fun j hj _ => hj)
      fun hnil => absurd hnil hne
    have hout' : (s.observers o).setShortTimeout.outstanding = true := hout
    have hset : (s.observers o).setShortTimeout.shortTimeout = true := rfl
    rw [hout', hset, hshort]
    simp [openSlot, hshort]
  obtain ⟨hinv, hframe⟩ := hopen.proceed
  rw [Traversal.failed, if_neg hne]
  exact ⟨hinv, Apart.of_frame (t := s.openSlot o) rfl rfl rfl hframe⟩

end

end

variable {o : Nat}

theorem Apart.waiting {i : Nat} (h : Apart o s t) (hne : i ≠ o) (hw : Waiting s i) : Waiting t i := by
  obtain ⟨he, hmem⟩ := h.same i hw.lt hne (queried_of_outstanding hw.outstanding)
  exact ⟨lt_of_lt_of_le hw.lt h.size, by rw [he]; exact hw.outstanding, fun hi => hw.erased (hmem.mp hi),
    by rw [he]; exact hw.done⟩

theorem Apart.after_done (h : Apart o (s.setFlags o setDone) t) : Apart o s t := by
  refine ⟨h.size, fun i hi hne hq => ?_⟩
  have hsame := h.same i hi hne (by rw [setFlags_of_ne s _ hne]; exact hq)
  rw [setFlags_of_ne s _ hne] at hsame
  exact hsame

theorem Inv.observerDone (h : Inv env base s) (hw : Waiting s o) : Inv env base (s.observerDone env o) := by
  rw [Traversal.observerDone, if_neg (by rw [hw.done]; simp)]
  exact ((h.markDone hw).finished hw.lt (by rw [setFlags_self]; exact hw.outstanding) hw.erased).1

theorem Inv.observerTimeout (h : Inv env base s) (hw : Waiting s o) :
    Inv env base (s.observerTimeout env o) ∧ Apart o s (s.observerTimeout env o) := by
  rw [Traversal.observerTimeout, if_neg (by rw [hw.done]; simp)]
  obtain ⟨hinv, hapart⟩ := (h.markDone hw).failed hw.lt (by rw [setFlags_self]; exact hw.outstanding) hw.erased
  exact ⟨hinv, hapart.after_done⟩

/-- Fewer transactions keep the accounts. -/
theorem Inv.fewer (h : Inv env base s) {l : List Nat} (hnd : l.Nodup) (hl : l ⊆ s.transactions) :
    Inv env base { s with transactions := l } := by
  have hledger := h.ledger
  exact ⟨⟨h.table.sorted, h.table.length, h.table.valid⟩, hledger.invoke, hledger.branch, hnd,
    fun o ho => hledger.sent o (hl ho), hledger.unqueried, hledger.once, hledger.queried, hledger.active⟩

theorem Inv.erase (h : Inv env base s) (ho : o ∈ s.transactions) : Inv env base (s.erase o) ∧
    Waiting (s.erase o) o := by
  obtain ⟨hlt, hout, hdone⟩ := h.ledger.sent o ho
  have hnd := h.ledger.nodup
  refine ⟨h.fewer (hnd.erase o) fun j hj => mem_of_mem_erase hj, hlt, hout, fun hmem => ?_, hdone⟩
  exact (hnd.mem_erase_iff.mp hmem).1 rfl

/-! ## Events -/

/-- The random ids that are drawn for the nodes of a reply are new, and `m_branch_factor`, an `int`, has room for a
short timeout of every outstanding observer. -/
def Pre (env : Env) (s : Traversal) : Event → Prop
  | .incoming tid addr (some nodes) => ∀ o, s.transaction tid addr = some o →
    Legal (traverse env) (fun s n => Fresh env s n.1) (s.erase o) nodes
  | .tick _ => s.branchFactor + s.pending < 2 ^ 31
  | _ => True

section

variable (h : Inv env base s)
include h

theorem Inv.incoming {tid : UInt16} {addr : Address} {nodes : Option (List (NodeId × Endpoint))}
    (hf : Pre env s (.incoming tid addr nodes)) : Inv env base (s.incoming env tid addr nodes) := by
  unfold Traversal.incoming
  split
  · exact h
  rename_i o hfind
  obtain ⟨hinv, hw⟩ := h.erase (mem_of_find?_eq_some hfind)
  cases nodes with
  | none => exact hinv
  | some =>
    obtain ⟨hinv', hframe, -⟩ := hinv.run_addEntry (fun n => n) false (hf o hfind)
    obtain ⟨he, hmem⟩ := hframe.same o hw.lt (queried_of_outstanding hw.outstanding)
    refine hinv'.observerDone ⟨lt_of_lt_of_le hw.lt hframe.size, ?_, fun hi => hw.erased (hmem.mp hi), ?_⟩
    · rw [he]
      exact hw.outstanding
    · rw [he]
      exact hw.done

theorem Inv.unreachable (ep : Endpoint) : Inv env base (s.unreachable env ep) := by
  unfold Traversal.unreachable
  split
  · exact h
  · rename_i hfind
    obtain ⟨hinv, hw⟩ := h.erase (mem_of_find?_eq_some hfind)
    exact (hinv.observerTimeout hw).1

theorem Inv.timeouts {l : List Nat} (hnd : l.Nodup) (hw : ∀ o ∈ l, Waiting s o) :
    Inv env base (l.foldl (Traversal.observerTimeout env) s) := by
  induction l generalizing s with
  | nil => exact h
  | cons o l ih =>
    obtain ⟨hinv, hapart⟩ := h.observerTimeout (hw o mem_cons_self)
    rw [nodup_cons] at hnd
    refine ih hinv hnd.2 fun i hi => hapart.waiting (fun he => hnd.1 (he ▸ hi)) ?_
    exact hw i (mem_cons_of_mem o hi)

theorem Inv.shortTimeouts {l : List Nat} (hnd : l.Nodup)
    (hl : ∀ o ∈ l, o < s.size ∧ (s.observers o).outstanding = true) :
    Inv env base (l.foldl (observerShortTimeout env) s) := by
  induction l generalizing s with
  | nil => exact h
  | cons o l ih =>
    rw [nodup_cons] at hnd
    obtain ⟨hlt, hout⟩ := hl o mem_cons_self
    rw [foldl_cons, observerShortTimeout]
    split
    · exact ih h hnd.2 fun i hi => hl i (mem_cons_of_mem o hi)
    rename_i hshort
    obtain ⟨hinv, hapart⟩ := h.shortTimeout hlt hout (by simpa using hshort)
    refine ih hinv hnd.2 fun i hi => ?_
    obtain ⟨hilt, hiout⟩ := hl i (mem_cons_of_mem o hi)
    rw [(hapart.same i hilt (fun he => hnd.1 (he ▸ hi)) (queried_of_outstanding hiout)).1]
    exact ⟨lt_of_lt_of_le hilt hapart.size, hiout⟩

theorem Inv.cut {l1 l2 : List Nat} (hl : s.transactions = l1 ++ l2) :
    Inv env base { s with transactions := l2 } ∧ l1.Nodup ∧ ∀ o ∈ l1, Waiting { s with transactions := l2 } o := by
  have hnd := h.ledger.nodup
  rw [hl, nodup_append] at hnd
  refine ⟨h.fewer hnd.2.1 fun o ho => hl ▸ mem_append_right _ ho, hnd.1, fun o ho => ?_⟩
  obtain ⟨hlt, hout, hdone⟩ := h.ledger.sent o (hl ▸ mem_append_left _ ho)
  exact ⟨hlt, hout, fun hmem => hnd.2.2 o ho o hmem rfl, hdone⟩

theorem Inv.tick (now : Int) : Inv env base (s.tick env now) := by
  obtain ⟨hinv, hnd, hw⟩ := h.cut (takeWhile_append_dropWhile).symm
  have hexpire : Inv env base (s.expire env now) := hinv.timeouts hnd hw
  have hledger := hexpire.ledger
  refine hexpire.shortTimeouts (hledger.nodup.sublist (filter_sublist.trans (takeWhile_sublist _)))
    fun o ho => ?_
  obtain ⟨hlt, hout, -⟩ := hledger.sent o ((takeWhile_sublist _).subset (mem_of_mem_filter ho))
  exact ⟨hlt, hout⟩

theorem Inv.step {e : Event} (hp : Pre env s e) : Inv env base (s.step env e) := by
  cases e with
  | incoming => exact h.incoming hp
  | unreachable ep => exact h.unreachable ep
  | tick now => exact h.tick now

end

/-! ## Whole lookups -/

theorem inv_empty (ob : Observer) : Inv env 3 (empty ob) := by
  refine ⟨⟨List.Pairwise.nil, zero_le _, forall_mem_nil _⟩, rfl, rfl, nodup_nil, forall_mem_nil _,
    fun o ho => ?_, nodup_nil, forall_mem_nil _, fun _ => rfl⟩
  exact absurd ho (not_lt_zero o)

theorem late_le_pending (s : Traversal) : s.late ≤ s.pending :=
  countP_mono_left fun _ _ h => (Bool.and_eq_true_iff.mp h).1

/-- The random ids that are drawn for the router nodes are new. -/
def StartPre (env : Env) (s : Traversal) : Prop :=
  s.results = [] → Legal (addRouter env) (fun s _ => Fresh env s 0) s env.routers

theorem Inv.start (h : Inv env 3 s) (hquiet : s.invokeCount = 0) (hp : StartPre env s) :
    Inv env env.branchFactor (s.start env) := by
  have hready : ∀ {u : Traversal}, Inv env 3 u → u.invokeCount = 0 →
      Inv env env.branchFactor ({ u with branchFactor := env.branchFactor }.proceed env) := by
    intro u hu hzero
    have hl := hu.ledger
    have hlate : u.late = 0 := by
      have := late_le_pending u
      have := hl.invoke
      omega
    have hbranch : env.branchFactor = env.branchFactor + (u.late : Int) := by omega
    have hinit : Inv env env.branchFactor { u with branchFactor := env.branchFactor } :=
      ⟨⟨hu.table.sorted, hu.table.length, hu.table.valid⟩,
        ⟨hl.invoke, hbranch, hl.nodup, hl.sent, hl.unqueried, hl.once, hl.queried, hl.active⟩⟩
    exact hinit.proceed.1
  unfold Traversal.start
  simp only
  split
  · rename_i hnil
    obtain ⟨hinv, -, hcount⟩ := h.run_addEntry (fun ep => (0, ep)) true (hp hnil)
    exact hready hinv (hcount.trans hquiet)
  · exact hready h hquiet

/-- The lookup before the first event: the nodes of the routing table are added, and it is started. -/
def begin (env : Env) (ob : Observer) (nodes : List (NodeId × Endpoint)) : Traversal :=
  (run (addInitial env) (empty ob) nodes).start env

/-- The random ids that are drawn until the lookup is started are new. -/
def BeginPre (env : Env) (ob : Observer) (nodes : List (NodeId × Endpoint)) : Prop :=
  Legal (addInitial env) (fun s n => Fresh env s n.1) (empty ob) nodes ∧
    StartPre env (run (addInitial env) (empty ob) nodes)

theorem inv_begin {ob : Observer} {nodes : List (NodeId × Endpoint)} (h : BeginPre env ob nodes) :
    Inv env env.branchFactor (begin env ob nodes) := by
  have hempty : Inv env 3 (empty ob) := inv_empty ob
  obtain ⟨hinv, -, hcount⟩ := hempty.run_addEntry (fun n => n) true h.1
  exact hinv.start hcount h.2

/-- The accounts of a lookup: the results are sorted by their distance to the target, with different ids, at most 100;
no observer was queried twice; the invoke count is the number of outstanding observers; the branch factor is the initial
one and the number of those that have had a short timeout; and when the lookup is finished nothing is outstanding. -/
structure Accounts (env : Env) (s : Traversal) : Prop where
  sorted : s.results.Pairwise fun a b => compareRef (s.observers a).id (s.observers b).id env.target = true
  distinct : (s.results.map fun o => (s.observers o).id).Nodup
  length : s.results.length ≤ 100
  once : s.queries.Nodup
  invoke : s.invokeCount = tally s.size fun o => (s.observers o).outstanding
  nonneg : 0 ≤ s.invokeCount
  branch : s.branchFactor =
    env.branchFactor + tally s.size fun o => (s.observers o).outstanding && (s.observers o).shortTimeout
  finished : s.results = [] → ∀ o < s.size, (s.observers o).outstanding = false

theorem Inv.accounts (h : Inv env env.branchFactor s) : Accounts env s := by
  have hl := h.ledger
  refine ⟨h.table.sorted, ?_, h.table.length, hl.once, hl.invoke, ?_, hl.branch, fun hnil => ?_⟩
  · rw [nodup_iff_pairwise_ne, pairwise_map]
    refine h.table.sorted.imp fun {a b} hab he => ?_
    rw [he, compareRef_irrefl] at hab
    cases hab
  · rw [hl.invoke]
    exact Int.natCast_nonneg _
  · have hzero := hl.active hnil
    rw [hl.invoke] at hzero
    exact tally_eq_zero.mp (by simpa [pending] using hzero)

/-- **The accounts of every lookup.** Whatever nodes it starts with and whatever happens to it, they balance, as long as
the random ids that are drawn for entries without an id are not those of results. -/
theorem lookup_accounts (env : Env) {ob : Observer} {nodes : List (NodeId × Endpoint)} (hb : BeginPre env ob nodes)
    {events : List Event} (hp : Legal (step env) (Pre env) (begin env ob nodes) events) :
    Accounts env (run (step env) (begin env ob nodes) events) := by
  have hinv : Inv env env.branchFactor (run (step env) (begin env ob nodes) events) :=
    inv_run (fun _ _ h hp => h.step hp) (inv_begin hb) hp
  exact hinv.accounts

section Samples

def sampleEp (n : Nat) : Endpoint := ⟨.v4 (BitVec.ofNat 32 n), 6881⟩

/-- A lookup of the id 0 where every request is sent and random ids are `id`. -/
def sampleEnv (id : NodeId) (routers : List Endpoint) : Env :=
  ⟨0, false, 16, 3, routers, fun _ => id, fun _ => true, fun o => UInt16.ofNat o, fun _ => 0⟩

/-- The contents of the heap before anything is put on it. -/
def sampleObserver : Observer := ⟨0, sampleEp 0, 0, 0, false, false, false, false, false, false, false⟩

/-- Two nodes are asked; both get a short timeout; one answers then, and the other one times out. -/
def sampleEvents : List Event :=
  [.tick 2000, .incoming 1 (.v4 8) (some [(7, sampleEp 3)]), .tick 9000]

theorem lookup_accounts_sample : Accounts (sampleEnv 5 []) (run (step (sampleEnv 5 []))
    (begin (sampleEnv 5 []) sampleObserver [(9, sampleEp 9), (8, sampleEp 8)]) sampleEvents) := by
  have hb : BeginPre (sampleEnv 5 []) sampleObserver [(9, sampleEp 9), (8, sampleEp 8)] :=
    ⟨⟨fun h => absurd h (by decide), fun h => absurd h (by decide), trivial⟩, fun h => absurd h (by decide)⟩
  exact lookup_accounts _ hb ⟨by unfold Pre; decide, fun _ _ => ⟨fun h => absurd h (by decide), trivial⟩,
    by unfold Pre; decide, trivial⟩

/-- A reply lists the next random id, and behind it a node without an id: both are among the results. -/
theorem random_id_of_result_is_kept : ¬ Accounts (sampleEnv 5 []) (run (step (sampleEnv 5 []))
    (begin (sampleEnv 5 []) sampleObserver [(9, sampleEp 9)])
      [.incoming 0 (.v4 9) (some [(5, sampleEp 3), (0, sampleEp 4)])]) := by
  intro h
  exact absurd h.distinct (by decide)

end Samples

end Traversal

end Libtorrent.Dht
