import Libtorrent.Lib.Run
import Libtorrent.Lib.Store
import Libtorrent.Lib.Wrap

/-!
# `bandwidth_manager`

The channels live in a store, since requests share them; a request holds the addresses of its channels. `queue`, `tmp`
and the rest are as in the source. The accepted requests are numbered, and what became of those that left the queue is
kept in `left`; a channel counts the amounts with which `use_quota` and `return_quota` were called. `m_quota_left` is an
`int64_t` whose additions are asserted not to overflow.
-/

namespace Libtorrent.Bandwidth

open Store

/-! ## `bandwidth_channel` -/

/-- `bandwidth_channel`, and the bytes used and returned through it so far. -/
structure Channel where
  tmp : Int
  distributeQuota : Int
  quotaLeft : Int
  limit : Int
  used : Int
  returned : Int
deriving DecidableEq

namespace Channel

def new : Channel := ⟨0, 0, 0, 0, 0, 0⟩

def setThrottle (limit : Int) (c : Channel) : Channel := { c with limit := limit }

def throttle (c : Channel) : Int := int32 c.limit

/-- What a round of `dt_milliseconds` adds to the quota. -/
def allowance (c : Channel) (dtMilliseconds : Int) : Int :=
  (int64 (int64 (c.limit * dtMilliseconds) + 500)).tdiv 1000

def updateQuota (dtMilliseconds : Int) (c : Channel) : Channel :=
  if c.limit = 0 then c
  else
    let quotaLeft := c.quotaLeft + c.allowance dtMilliseconds
    let quotaLeft := if quotaLeft > int64 (c.limit * 3) then int64 (c.limit * 3) else quotaLeft
    { c with quotaLeft := quotaLeft, distributeQuota := int32 (max quotaLeft 0) }

def returnQuota (amount : Int) (c : Channel) : Channel :=
  let c := { c with returned := c.returned + amount }
  if c.limit = 0 then c else { c with quotaLeft := c.quotaLeft + amount }

def useQuota (amount : Int) (c : Channel) : Channel :=
  let c := { c with used := c.used + amount }
  if c.limit = 0 then c else { c with quotaLeft := c.quotaLeft - amount }

def clearTmp (c : Channel) : Channel := { c with tmp := 0 }

def addTmp (priority : Int) (c : Channel) : Channel := { c with tmp := int32 (c.tmp + priority) }

end Channel

abbrev Channels := Nat → Channel

/-! ## `bw_request` -/

/-- `bw_request`; `channel` is the array up to the first null pointer. -/
structure Request where
  id : Nat
  peer : Nat
  priority : Int
  assigned : Int
  requestSize : Int
  ttl : Int
  channel : List Nat
deriving DecidableEq

def limitQuota (chs : Channels) (priority : Int) (quota : Int) (j : Nat) : Int :=
  if (chs j).throttle = 0 then quota
  else if (chs j).tmp = 0 then quota
  else min (int32 ((int64 ((chs j).distributeQuota * priority)).tdiv (chs j).tmp)) quota

def Request.quota (chs : Channels) (r : Request) : Int :=
  if r.requestSize - r.assigned = 0 then 0
  else r.channel.foldl (limitQuota chs r.priority) (r.requestSize - r.assigned)

def Request.assignBandwidth (chs : Channels) (r : Request) : Request × Channels :=
  let quota := r.quota chs
  ({ r with ttl := int32 (r.ttl - 1), assigned := int32 (r.assigned + quota) },
    touch (Channel.useQuota quota) chs r.channel)

/-! ## `bandwidth_manager` -/

/-- How a request left the queue: with the callback `assign_bandwidth(channel, amount)` of its peer, with an amount
returned to each of its channels, or with the whole queue. -/
inductive Exit where
  | assigned (channel : Nat) (amount : Int)
  | returned (amount : Int)
  | dropped
deriving DecidableEq

structure Manager where
  queue : List Request
  queuedBytes : Int
  channel : Nat
  abort : Bool
  channels : Channels
  disconnecting : List Nat
  accepted : Nat
  left : List (Request × Exit)

namespace Manager

def new (channel : Nat) : Manager := ⟨[], 0, channel, false, fun _ => .new, [], 0, []⟩

variable (s : Manager)

def close : Manager :=
  { s with abort := true, queue := [], queuedBytes := 0, left := s.left ++ s.queue.map (·, .dropped) }

def requestBandwidth (peer : Nat) (blk priority : Int) (chans : List Nat) : Manager × Int :=
  if s.abort then (s, 0)
  else
    let channel := chans.filter fun j => 0 < (s.channels j).throttle
    if channel = [] then (s, blk)
    else
      ({ s with
          queuedBytes := int32 (s.queuedBytes + blk)
          queue := s.queue ++ [⟨s.accepted, peer, priority, 0, blk, 20, channel⟩]
          accepted := s.accepted + 1 }, 0)

/-- The first loop of `update_quotas` for one request: a disconnecting peer is taken out of the queue. -/
def purgeOne (r : Request) : Manager :=
  if r.peer ∈ s.disconnecting then
    { s with
        queuedBytes := int32 (s.queuedBytes - (r.requestSize - r.assigned))
        channels := touch (Channel.returnQuota r.assigned) s.channels r.channel
        left := s.left ++ [(r, .returned r.assigned)] }
  else { s with channels := touch Channel.clearTmp s.channels r.channel, queue := s.queue ++ [r] }

/-- The first loop. -/
def purge : Manager := s.queue.foldl purgeOne { s with queue := [] }

/-- The second loop for a channel of a request: the channels found so far and the store. -/
def countOne (acc : List Nat × Channels) (use : Nat × Int) : List Nat × Channels :=
  (if (acc.2 use.1).tmp = 0 then acc.1 ++ [use.1] else acc.1,
    Function.update acc.2 use.1 ((acc.2 use.1).addTmp use.2))

def uses (queue : List Request) : List (Nat × Int) := queue.flatMap fun r => r.channel.map (·, r.priority)

/-- The second loop: the priorities are added up, and the channels are collected. -/
def countPriorities : List Nat × Channels := (uses s.queue).foldl countOne ([], s.channels)

/-- The third loop. -/
def updateChannels (dtMilliseconds : Int) : Manager :=
  let (channels, chs) := s.countPriorities
  { s with channels := touch (Channel.updateQuota dtMilliseconds) chs channels }

/-- The fourth loop for one request; the second component is `tm`. -/
def assignOne (acc : Manager × List Request) (r : Request) : Manager × List Request :=
  let s := acc.1
  let (r', chs) := r.assignBandwidth s.channels
  let a := r.quota s.channels
  if r'.assigned = r'.requestSize ∨ (r'.ttl ≤ 0 ∧ 0 < r'.assigned) then
    ({ s with channels := chs, queuedBytes := int32 (s.queuedBytes - (a + (r'.requestSize - r'.assigned))) },
      acc.2 ++ [r'])
  else ({ s with channels := chs, queuedBytes := int32 (s.queuedBytes - a), queue := s.queue ++ [r'] }, acc.2)

/-- The fourth loop. -/
def assignAll : Manager × List Request := s.queue.foldl assignOne ({ s with queue := [] }, [])

/-- The callbacks, from the back of `tm`. -/
def callBack (acc : Manager × List Request) : Manager :=
  { acc.1 with left := acc.1.left ++ acc.2.reverse.map fun r => (r, .assigned acc.1.channel r.assigned) }

/-- `dt_milliseconds`, at most three seconds. -/
def clampDt (dt : Int) : Int := if dt > 3000 then 3000 else dt

def updateQuotas (dt : Int) : Manager :=
  if s.abort then s
  else if s.queue = [] then s
  else callBack (s.purge.updateChannels (clampDt dt)).assignAll

/-! ## Runs -/

inductive Event where
  | request (peer : Nat) (blk priority : Int) (chans : List Nat)
  | update (dt : Int)
  | close
  | disconnect (peer : Nat)
  | throttle (j : Nat) (limit : Int)

def step : Event → Manager
  | .request peer blk priority chans => (s.requestBandwidth peer blk priority chans).1
  | .update dt => s.updateQuotas dt
  | .close => s.close
  | .disconnect peer => { s with disconnecting := peer :: s.disconnecting }
  | .throttle j limit => { s with channels := Function.update s.channels j ((s.channels j).setThrottle limit) }

/-- The requests that the first loop keeps. -/
def kept : List Request := s.queue.filter fun r => r.peer ∉ s.disconnecting

/-- The priorities of the requests that use a channel, once for every time they do. -/
def load (queue : List Request) (j : Nat) : Int := (queue.map fun r => r.priority * (r.channel.count j : Int)).sum

/-- The assertions of the functions: `request_bandwidth` takes positive `int`s, `throttle` a limit below `INT_MAX / 31`,
and `tmp` does not overflow in `update_quotas`. -/
def Pre : Event → Prop
  | .request _ blk priority _ => (0 < blk ∧ blk < 2 ^ 31) ∧ 0 < priority ∧ priority < 2 ^ 31
  | .update _ => ∀ r ∈ s.kept, ∀ j ∈ r.channel, load s.kept j < 2 ^ 31 - 1
  | .throttle _ limit => 0 ≤ limit ∧ limit < (2 ^ 31 - 1) / 31
  | _ => True

instance (s : Manager) (ev : Event) : Decidable (Pre s ev) := by
  cases ev <;> (dsimp only [Pre]; infer_instance)

end Manager

/-!
## A round of `update_quotas`

What each loop of `update_quotas` does: the first one splits the queue (`purge_spec`), the second and the third leave in
every channel of the queue the sum of the priorities and a new quota (`updateChannels_spec`), and the fourth serves
every request with the quota that its channels leave it (`assignAll_spec`).
-/

open Function List Int Channel

/-! ## Channels -/

theorem Channel.useQuota_eq (n : Int) (c : Channel) : c.useQuota n =
    { c with used := c.used + n, quotaLeft := if c.limit = 0 then c.quotaLeft else c.quotaLeft - n } := by
  unfold useQuota
  dsimp only
  split <;> rfl

theorem Channel.returnQuota_eq (n : Int) (c : Channel) : c.returnQuota n =
    { c with returned := c.returned + n, quotaLeft := if c.limit = 0 then c.quotaLeft else c.quotaLeft + n } := by
  unfold returnQuota
  dsimp only
  split <;> rfl

/-- What a request reads of a channel: the limit, the sum of the priorities and the quota of the round. -/
def Channel.shown (c : Channel) : Int × Int × Int := (c.limit, c.tmp, c.distributeQuota)

theorem shown_touch_useQuota (n : Int) (chs : Channels) (js : List Nat) (j : Nat) :
    (touch (useQuota n) chs js j).shown = (chs j).shown :=
  touch_field (fun c => by rw [useQuota_eq]; rfl) chs js j

theorem quotaLeft_touch {f : Channel → Channel} {a : Int} (hf : ∀ c, (f c).limit = c.limit)
    (hq : ∀ c, c.limit ≠ 0 → (f c).quotaLeft = c.quotaLeft + a) (chs : Channels) (js : List Nat) (j : Nat)
    (hl : (chs j).limit ≠ 0) : (touch f chs js j).quotaLeft = (chs j).quotaLeft + a * js.count j := by
  rw [touch_apply]
  have hiter : ∀ n : Nat, (f^[n] (chs j)).limit = (chs j).limit ∧
      (f^[n] (chs j)).quotaLeft = (chs j).quotaLeft + a * n := by
    intro n
    induction n with
    | zero => simp
    | succ n ih =>
      rw [Function.iterate_succ_apply']
      refine ⟨by rw [hf, ih.1], ?_⟩
      rw [hq _ (by rw [ih.1]; exact hl), ih.2]
      push_cast
      ring
  exact (hiter _).2

namespace Manager

/-! ## The first loop -/

/-- The bytes that the requests of a queue still wait for. -/
def rest (queue : List Request) : Int := (queue.map fun r => r.requestSize - r.assigned).sum

/-- The amounts assigned to requests, for every time they use a channel. -/
def held (queue : List Request) (j : Nat) : Int := (queue.map fun r => r.assigned * (r.channel.count j : Int)).sum

/-- The requests that the first loop takes out. -/
def purged (s : Manager) : List Request := s.queue.filter fun r => r.peer ∈ s.disconnecting

/-- What the first loop makes of a manager. -/
structure Purge (s t : Manager) (kept purged : List Request) : Prop where
  queue : t.queue = s.queue ++ kept
  left : t.left = s.left ++ purged.map fun r => (r, .returned r.assigned)
  same : (t.disconnecting, t.accepted, t.abort, t.channel) = (s.disconnecting, s.accepted, s.abort, s.channel)
  queued : ∀ x, s.queuedBytes = int32 (x + rest purged) → t.queuedBytes = int32 x
  channels : ∀ j, ((t.channels j).limit, (t.channels j).distributeQuota, (t.channels j).used) =
    ((s.channels j).limit, (s.channels j).distributeQuota, (s.channels j).used)
  returned : ∀ j, (t.channels j).returned = (s.channels j).returned + held purged j
  quotaLeft : ∀ j, (s.channels j).limit ≠ 0 → (t.channels j).quotaLeft = (s.channels j).quotaLeft + held purged j
  tmp : ∀ j, (∃ r ∈ kept, j ∈ r.channel) → (t.channels j).tmp = 0
  tmp_of_zero : ∀ j, (s.channels j).tmp = 0 → (t.channels j).tmp = 0

variable {s t u : Manager} {l k₁ k₂ p₁ p₂ : List Request} {r : Request}

theorem Purge.refl (s : Manager) : Purge s s [] [] where
  queue := by simp
  left := by simp
  same := rfl
  queued x h := by simpa [rest] using h
  channels _ := rfl
  returned j := by simp [held]
  quotaLeft j _ := by simp [held]
  tmp j h := by simp at h
  tmp_of_zero j h := h

theorem Purge.trans (h1 : Purge s t k₁ p₁) (h2 : Purge t u k₂ p₂) : Purge s u (k₁ ++ k₂) (p₁ ++ p₂) where
  queue := by rw [h2.queue, h1.queue, append_assoc]
  left := by rw [h2.left, h1.left, map_append, append_assoc]
  same := by rw [h2.same, h1.same]
  queued x h := by
    refine h2.queued x (h1.queued _ ?_)
    rw [h]
    simp only [rest, map_append, sum_append]
    congr 1
    ring
  channels j := by rw [h2.channels, h1.channels]
  returned j := by
    rw [h2.returned, h1.returned]
    simp only [held, map_append, sum_append]
    ring
  quotaLeft j h := by
    have hl : (t.channels j).limit = (s.channels j).limit := congrArg Prod.fst (h1.channels j)
    rw [h2.quotaLeft j (by rw [hl]; exact h), h1.quotaLeft j h]
    simp only [held, map_append, sum_append]
    ring
  tmp j h := by
    obtain ⟨r, hr, hj⟩ := h
    rcases mem_append.mp hr with hr | hr
    · exact h2.tmp_of_zero j (h1.tmp j ⟨r, hr, hj⟩)
    · exact h2.tmp j ⟨r, hr, hj⟩
  tmp_of_zero j h := h2.tmp_of_zero j (h1.tmp_of_zero j h)

theorem purgeOne_purged (h : r.peer ∈ s.disconnecting) : Purge s (s.purgeOne r) [] [r] := by
  have heq : s.purgeOne r = { s with
      queuedBytes := int32 (s.queuedBytes - (r.requestSize - r.assigned))
      channels := touch (returnQuota r.assigned) s.channels r.channel
      left := s.left ++ [(r, .returned r.assigned)] } := if_pos h
  rw [heq]
  constructor
  case queue => simp
  case left => simp
  case same => rfl
  case queued =>
    intro x hx
    rw [hx, sub_eq_add_neg, int32_add]
    simp only [rest, map_cons, map_nil, sum_cons, sum_nil]
    congr 1
    ring
  case channels =>
    intro j
    exact touch_field (g := fun c : Channel => (c.limit, c.distributeQuota, c.used))
      (fun c => by rw [returnQuota_eq]) s.channels r.channel j
  case returned =>
    intro j
    rw [touch_add (g := returned) fun c => by rw [returnQuota_eq]]
    simp [held]
  case quotaLeft =>
    intro j hl
    rw [quotaLeft_touch (fun c => by rw [returnQuota_eq])
      (fun c hc => by rw [returnQuota_eq]; exact if_neg hc) _ _ _ hl]
    simp [held]
  case tmp =>
    intro j hj
    simp at hj
  case tmp_of_zero =>
    intro j hj
    rw [touch_field (g := tmp) fun c => by rw [returnQuota_eq]]
    exact hj

theorem purgeOne_kept (h : r.peer ∉ s.disconnecting) : Purge s (s.purgeOne r) [r] [] := by
  have heq : s.purgeOne r = { s with
      channels := touch clearTmp s.channels r.channel, queue := s.queue ++ [r] } := if_neg h
  have hfix : ∀ n, (clearTmp^[n + 1] : Channel → Channel) = clearTmp := by
    intro n
    induction n with
    | zero => rfl
    | succ n ih =>
      rw [Function.iterate_succ', ih]
      rfl
  rw [heq]
  constructor
  case queue => simp
  case left => simp
  case same => rfl
  case queued =>
    intro x hx
    simpa [rest] using hx
  case channels =>
    intro j
    exact touch_field (f := clearTmp)
      (g := fun c : Channel => (c.limit, c.distributeQuota, c.used)) (fun _ => rfl) s.channels r.channel j
  case returned =>
    intro j
    rw [touch_field (f := clearTmp) (g := returned) fun _ => rfl]
    simp [held]
  case quotaLeft =>
    intro j _
    rw [touch_field (f := clearTmp) (g := quotaLeft) fun _ => rfl]
    simp [held]
  case tmp =>
    rintro j ⟨r', hr', hj⟩
    obtain rfl := mem_singleton.mp hr'
    obtain ⟨n, hn⟩ := Nat.exists_eq_succ_of_ne_zero (count_pos_iff.mpr hj).ne'
    dsimp only
    rw [touch_apply, hn, hfix]
    rfl
  case tmp_of_zero =>
    intro j hj
    dsimp only
    rw [touch_apply]
    cases r.channel.count j with
    | zero => exact hj
    | succ n =>
      rw [hfix]
      rfl

theorem foldl_purgeOne (l : List Request) : Purge s (l.foldl purgeOne s) (l.filter fun r => r.peer ∉ s.disconnecting)
    (l.filter fun r => r.peer ∈ s.disconnecting) := by
  induction l generalizing s with
  | nil => exact Purge.refl s
  | cons r l ih =>
    rw [foldl_cons]
    have hd : (s.purgeOne r).disconnecting = s.disconnecting := by
      rw [purgeOne]
      split <;> rfl
    have hrest := ih (s := s.purgeOne r)
    rw [hd] at hrest
    by_cases h : r.peer ∈ s.disconnecting
    · simpa [h] using (purgeOne_purged h).trans hrest
    · simpa [h] using (purgeOne_kept h).trans hrest

theorem purge_spec (s : Manager) : Purge { s with queue := [] } s.purge s.kept s.purged := foldl_purgeOne s.queue

/-! ## The second and the third loop -/

/-- What a list of uses adds to a channel. -/
def weight (us : List (Nat × Int)) (j : Nat) : Int := (us.map fun u => if u.1 = j then u.2 else 0).sum

theorem weight_cons (u : Nat × Int) (us : List (Nat × Int)) (j : Nat) :
    weight (u :: us) j = (if u.1 = j then u.2 else 0) + weight us j := by
  simp [weight]

theorem weight_append (us vs : List (Nat × Int)) (j : Nat) : weight (us ++ vs) j = weight us j + weight vs j := by
  simp [weight]

variable {us : List (Nat × Int)} {queue : List Request} {j : Nat} {priority dt : Int}

theorem weight_nonneg (h : ∀ u ∈ us, 0 < u.2) (j : Nat) : 0 ≤ weight us j := by
  induction us with
  | nil => simp [weight]
  | cons u us ih =>
    have hu := h u mem_cons_self
    have hrest := ih fun v hv => h v (mem_cons_of_mem _ hv)
    rw [weight_cons]
    split <;> omega

theorem weight_channel (js : List Nat) (priority : Int) (j : Nat) :
    weight (js.map (·, priority)) j = priority * js.count j := by
  induction js with
  | nil => simp [weight]
  | cons i js ih =>
    rw [map_cons, weight_cons, ih, count_cons]
    by_cases h : i = j
    · simp [h]
      ring
    · simp [h]

theorem weight_uses (queue : List Request) (j : Nat) : weight (uses queue) j = load queue j := by
  induction queue with
  | nil => simp [weight, uses, load]
  | cons r queue ih =>
    have hcons : uses (r :: queue) = r.channel.map (·, r.priority) ++ uses queue := rfl
    rw [hcons, weight_append, weight_channel, ih]
    simp [load]

theorem foldl_countOne (hpos : ∀ u ∈ us, 0 < u.2) (acc : List Nat) (chs : Channels)
    (hnd : acc.Nodup) (hacc : ∀ j ∈ acc, 0 < (chs j).tmp) (hzero : ∀ u ∈ us, u.1 ∉ acc → (chs u.1).tmp = 0)
    (hb : ∀ u ∈ us, (chs u.1).tmp + weight us u.1 < 2 ^ 31) : (us.foldl countOne (acc, chs)).1.Nodup ∧
      (∀ j, j ∈ (us.foldl countOne (acc, chs)).1 ↔ j ∈ acc ∨ j ∈ us.map Prod.fst) ∧
      ∀ j, (us.foldl countOne (acc, chs)).2 j = { chs j with tmp := (chs j).tmp + weight us j } := by
  induction us generalizing acc chs with
  | nil =>
    refine ⟨hnd, by simp, fun j => ?_⟩
    simp [weight]
  | cons u us ih =>
    obtain ⟨i, p⟩ := u
    have hp : 0 < p := hpos (i, p) mem_cons_self
    have hpos' : ∀ v ∈ us, 0 < v.2 := fun v hv => hpos v (mem_cons_of_mem _ hv)
    have hnn : 0 ≤ (chs i).tmp := by
      by_cases hi : i ∈ acc
      · exact (hacc i hi).le
      · rw [hzero (i, p) mem_cons_self hi]
    have hbi := hb (i, p) mem_cons_self
    have hw := weight_nonneg hpos' i
    rw [weight_cons, if_pos rfl] at hbi
    have htmp : (chs i).addTmp p = { chs i with tmp := (chs i).tmp + p } := by
      dsimp only at hbi
      rw [addTmp, int32_of_range (by omega) (by omega)]
    -- the channel of this use is in the list afterwards, and it is not twice in it
    have hstep : countOne (acc, chs) (i, p) =
        (if (chs i).tmp = 0 then acc ++ [i] else acc, update chs i { chs i with tmp := (chs i).tmp + p }) := by
      rw [← htmp]
      rfl
    have hmem : ∀ j, j ∈ (if (chs i).tmp = 0 then acc ++ [i] else acc) ↔ j ∈ acc ∨ j = i := by
      intro j
      split
      · simp
      rename_i hne
      constructor
      · exact Or.inl
      rintro (h | rfl)
      · exact h
      · by_contra hj
        exact hne (hzero (j, p) mem_cons_self hj)
    have hnd' : (if (chs i).tmp = 0 then acc ++ [i] else acc).Nodup := by
      split
      · rename_i hz
        refine nodup_append.mpr ⟨hnd, by simp, ?_⟩
        rintro a ha b hb rfl
        rw [mem_singleton.mp hb] at ha
        exact absurd hz (hacc i ha).ne'
      · exact hnd
    have hupd : ∀ j, (update chs i { chs i with tmp := (chs i).tmp + p } j) =
        { chs j with tmp := (chs j).tmp + if i = j then p else 0 } := by
      intro j
      by_cases hj : j = i
      · subst hj
        simp
      · rw [update_of_ne hj, if_neg (Ne.symm hj), add_zero]
    have hacc' : ∀ j ∈ (if (chs i).tmp = 0 then acc ++ [i] else acc),
        0 < (update chs i { chs i with tmp := (chs i).tmp + p } j).tmp := by
      intro j hj
      rw [hupd]
      rcases (hmem j).mp hj with h | rfl
      · have := hacc j h
        dsimp only
        split <;> omega
      · simp only [if_true]
        omega
    have hzero' : ∀ v ∈ us, v.1 ∉ (if (chs i).tmp = 0 then acc ++ [i] else acc) →
        (update chs i { chs i with tmp := (chs i).tmp + p } v.1).tmp = 0 := by
      intro v hv hni
      rw [hmem] at hni
      rw [hupd]
      rw [if_neg fun h => hni (Or.inr h.symm), add_zero]
      exact hzero v (mem_cons_of_mem _ hv) fun h => hni (Or.inl h)
    have hb' : ∀ v ∈ us, (update chs i { chs i with tmp := (chs i).tmp + p } v.1).tmp + weight us v.1 < 2 ^ 31 := by
      intro v hv
      have := hb v (mem_cons_of_mem _ hv)
      rw [weight_cons] at this
      rw [hupd]
      dsimp only at this ⊢
      omega
    rw [foldl_cons, hstep]
    obtain ⟨h1, h2, h3⟩ := ih hpos' _ _ hnd' hacc' hzero' hb'
    refine ⟨h1, fun j => ?_, fun j => ?_⟩
    · rw [h2, hmem]
      simp only [map_cons, mem_cons]
      tauto
    · rw [h3, hupd]
      simp only [weight_cons, add_assoc]

def InUse (queue : List Request) (j : Nat) : Prop := ∃ r ∈ queue, j ∈ r.channel

theorem mem_uses : j ∈ (uses queue).map Prod.fst ↔ InUse queue j := by
  simp [uses, InUse]

/-- **The second and the third loop**: a channel in use has the sum of the priorities and a new quota. -/
theorem updateChannels_spec (hpos : ∀ r ∈ s.queue, 0 < r.priority)
    (hzero : ∀ j, InUse s.queue j → (s.channels j).tmp = 0)
    (hload : ∀ j, InUse s.queue j → load s.queue j < 2 ^ 31) (dt : Int) :
    ∃ chs, s.updateChannels dt = { s with channels := chs } ∧
      (∀ j, InUse s.queue j → chs j = ({ s.channels j with tmp := load s.queue j }).updateQuota dt) ∧
        ∀ j, ¬ InUse s.queue j → chs j = s.channels j := by
  have hus : ∀ u ∈ uses s.queue, 0 < u.2 ∧ InUse s.queue u.1 := by
    intro u hu
    simp only [uses, mem_flatMap, mem_map] at hu
    obtain ⟨r, hr, j, hj, rfl⟩ := hu
    exact ⟨hpos r hr, r, hr, hj⟩
  obtain ⟨hnd, hmem, hchs⟩ := foldl_countOne (fun u hu => (hus u hu).1) [] s.channels nodup_nil
    (by simp) (fun u hu _ => hzero _ (hus u hu).2) fun u hu => by
      rw [hzero _ (hus u hu).2, zero_add, weight_uses]
      exact hload _ (hus u hu).2
  refine ⟨_, rfl, fun j hj => ?_, fun j hj => ?_⟩
  · have hin : j ∈ ((uses s.queue).foldl countOne ([], s.channels)).1 := (hmem j).mpr (Or.inr (mem_uses.mpr hj))
    rw [touch_apply, hnd.count, if_pos hin, Function.iterate_one, hchs, hzero j hj, zero_add, weight_uses]
  have hout : j ∉ ((uses s.queue).foldl countOne ([], s.channels)).1 := fun h => by
    rcases (hmem j).mp h with h | h
    · simp at h
    · exact hj (mem_uses.mp h)
  have hw : weight (uses s.queue) j = 0 := by
    rw [weight_uses, load]
    refine sum_eq_zero fun x hx => ?_
    obtain ⟨r, hr, rfl⟩ := mem_map.mp hx
    rw [count_eq_zero.mpr fun h => hj ⟨r, hr, h⟩]
    simp
  rw [touch_apply, count_eq_zero.mpr hout, Function.iterate_zero, id, hchs, hw, add_zero]

/-! ## The fourth loop -/

def SameShown (chs chs' : Channels) : Prop := ∀ j, (chs j).shown = (chs' j).shown

theorem quota_congr {chs chs' : Channels} (h : SameShown chs chs') (r : Request) : r.quota chs = r.quota chs' := by
  have hlim : limitQuota chs r.priority = limitQuota chs' r.priority := by
    funext q j
    have hj := h j
    simp only [shown, Prod.mk.injEq] at hj
    obtain ⟨h1, h2, h3⟩ := hj
    rw [limitQuota, limitQuota, throttle, throttle, h1, h2, h3]
  rw [Request.quota, Request.quota, hlim]

def served (chs : Channels) (r : Request) : Request :=
  { r with ttl := int32 (r.ttl - 1), assigned := int32 (r.assigned + r.quota chs) }

def done (r : Request) : Bool := r.assigned = r.requestSize ∨ (r.ttl ≤ 0 ∧ 0 < r.assigned)

/-- The quotas handed out in a round, for every time a channel is used. -/
def taken (chs : Channels) (queue : List Request) (j : Nat) : Int :=
  (queue.map fun r => r.quota chs * (r.channel.count j : Int)).sum

/-- What the fourth loop makes of a manager, when the channels show `chs` and the quotas of the requests `l` do not
overflow. -/
structure Assigned (chs : Channels) (l : List Request) (a b : Manager × List Request) : Prop where
  queue : b.1.queue = a.1.queue ++ (l.map (served chs)).filter fun r => !done r
  tm : b.2 = a.2 ++ (l.map (served chs)).filter done
  same : (b.1.disconnecting, b.1.accepted, b.1.abort, b.1.channel, b.1.left) =
    (a.1.disconnecting, a.1.accepted, a.1.abort, a.1.channel, a.1.left)
  queued : ∀ x, a.1.queuedBytes = int32 (x + rest l) →
    b.1.queuedBytes = int32 (x + rest ((l.map (served chs)).filter fun r => !done r))
  shown : SameShown b.1.channels a.1.channels
  returned : ∀ j, (b.1.channels j).returned = (a.1.channels j).returned
  used : ∀ j, (b.1.channels j).used = (a.1.channels j).used + taken chs l j
  quotaLeft : ∀ j, (a.1.channels j).limit ≠ 0 →
    (b.1.channels j).quotaLeft = (a.1.channels j).quotaLeft - taken chs l j

variable {chs : Channels} {a b c : Manager × List Request} {l₁ l₂ : List Request}

theorem Assigned.refl (a : Manager × List Request) : Assigned chs [] a a where
  queue := by simp
  tm := by simp
  same := rfl
  queued x h := by simpa [rest] using h
  shown _ := rfl
  returned _ := rfl
  used j := by simp [taken]
  quotaLeft j _ := by simp [taken]

theorem Assigned.trans (h1 : Assigned chs l₁ a b) (h2 : Assigned chs l₂ b c) : Assigned chs (l₁ ++ l₂) a c where
  queue := by rw [h2.queue, h1.queue, map_append, filter_append, append_assoc]
  tm := by rw [h2.tm, h1.tm, map_append, filter_append, append_assoc]
  same := by rw [h2.same, h1.same]
  queued x h := by
    have hmid := h1.queued (x + rest l₂) (by
      rw [h]
      simp only [rest, map_append, sum_append]
      congr 1
      ring)
    have hend := h2.queued (x + rest ((l₁.map (served chs)).filter fun r => !done r)) (by
      rw [hmid]
      congr 1
      ring)
    rw [hend]
    simp only [rest, map_append, filter_append, sum_append]
    congr 1
    ring
  shown j := by rw [h2.shown, h1.shown]
  returned j := by rw [h2.returned, h1.returned]
  used j := by
    rw [h2.used, h1.used]
    simp only [taken, map_append, sum_append]
    ring
  quotaLeft j h := by
    have hl : (b.1.channels j).limit = (a.1.channels j).limit := congrArg Prod.fst (h1.shown j)
    rw [h2.quotaLeft j (by rw [hl]; exact h), h1.quotaLeft j h]
    simp only [taken, map_append, sum_append]
    ring

/-- The quota of a request stays within what it waits for. -/
def Fits (chs : Channels) (r : Request) : Prop := int32 (r.assigned + r.quota chs) = r.assigned + r.quota chs

theorem assignOne_assigned (h : SameShown a.1.channels chs) (hf : Fits chs r) : Assigned chs [r] a (assignOne a r) := by
  have hq := quota_congr h r
  have hserved : (r.assignBandwidth a.1.channels).1 = served chs r := by
    rw [Request.assignBandwidth, hq]
    rfl
  have hone : assignOne a r = if done (served chs r) then
      ({ a.1 with
          channels := touch (useQuota (r.quota chs)) a.1.channels r.channel
          queuedBytes := int32 (a.1.queuedBytes - (r.quota chs +
            ((served chs r).requestSize - (served chs r).assigned))) },
        a.2 ++ [served chs r])
      else ({ a.1 with
          channels := touch (useQuota (r.quota chs)) a.1.channels r.channel
          queuedBytes := int32 (a.1.queuedBytes - r.quota chs)
          queue := a.1.queue ++ [served chs r] }, a.2) := by
    rw [assignOne]
    dsimp only
    rw [hserved, hq, Request.assignBandwidth, hq]
    simp only [done, decide_eq_true_eq]
  have hassigned : (served chs r).assigned = r.assigned + r.quota chs := hf
  rw [hone]
  constructor
  case queue => cases hd : done (served chs r) <;> simp [hd]
  case tm => cases hd : done (served chs r) <;> simp [hd]
  case same => cases hd : done (served chs r) <;> rfl
  case queued =>
    intro x hx
    cases hd : done (served chs r) with
    | true =>
      simp only [if_true, hassigned, hx, map_cons, map_nil, filter_cons, hd, Bool.not_true,
        Bool.false_eq_true, if_false, filter_nil, rest, sum_cons, sum_nil]
      rw [sub_eq_add_neg, int32_add]
      congr 1
      simp only [served]
      ring
    | false =>
      simp only [Bool.false_eq_true, if_false, hx, map_cons, map_nil, filter_cons, hd, Bool.not_false,
        if_true, filter_nil, rest, sum_cons, sum_nil, hassigned]
      rw [sub_eq_add_neg, int32_add]
      congr 1
      simp only [served]
      ring
  case shown =>
    intro j
    cases hd : done (served chs r) <;> exact shown_touch_useQuota _ _ _ j
  case returned =>
    intro j
    have htouch := touch_field (f := useQuota (r.quota chs)) (g := returned)
      (fun c => by rw [useQuota_eq]) a.1.channels r.channel j
    cases hd : done (served chs r) <;> exact htouch
  case used =>
    intro j
    have htouch := touch_add (f := useQuota (r.quota chs)) (g := used)
      (fun c => by rw [useQuota_eq]) a.1.channels r.channel j
    cases hd : done (served chs r) <;> simpa [taken] using htouch
  case quotaLeft =>
    intro j hl
    have htouch := quotaLeft_touch (f := useQuota (r.quota chs)) (a := -r.quota chs) (fun c => by rw [useQuota_eq])
      (fun c hc => by rw [useQuota_eq]; dsimp only; rw [if_neg hc]; ring) a.1.channels r.channel j hl
    rw [neg_mul, ← sub_eq_add_neg] at htouch
    cases hd : done (served chs r) <;> simpa [taken] using htouch

theorem foldl_assignOne (h : SameShown a.1.channels chs) (hf : ∀ r ∈ l, Fits chs r) :
    Assigned chs l a (l.foldl assignOne a) := by
  induction l generalizing a with
  | nil => exact Assigned.refl a
  | cons r l ih =>
    have hone := assignOne_assigned h (hf r mem_cons_self)
    have hshown : SameShown (assignOne a r).1.channels chs := fun j => by rw [hone.shown, h]
    exact hone.trans (ih hshown fun x hx => hf x (mem_cons_of_mem _ hx))

theorem assignAll_spec (s : Manager) (hf : ∀ r ∈ s.queue, Fits s.channels r) :
    Assigned s.channels s.queue ({ s with queue := [] }, []) s.assignAll :=
  foldl_assignOne (fun _ => rfl) hf

/-! ## Quotas -/

/-- A channel in a round: the limit is in range, and the quota of the round and the sum of the priorities too. -/
structure InRange (c : Channel) : Prop where
  limit : 0 ≤ c.limit ∧ c.limit < 2 ^ 31
  distributeQuota : 0 ≤ c.distributeQuota ∧ c.distributeQuota < 2 ^ 31
  tmp : c.tmp < 2 ^ 31

theorem share_eq {c : Channel} (hc : InRange c) (hp : 0 < priority) (ht : priority ≤ c.tmp) :
    int32 ((int64 (c.distributeQuota * priority)).tdiv c.tmp) = c.distributeQuota * priority / c.tmp ∧
      0 ≤ c.distributeQuota * priority / c.tmp := by
  obtain ⟨-, ⟨hd0, hd1⟩, htmp⟩ := hc
  have hprod : 0 ≤ c.distributeQuota * priority := mul_nonneg hd0 hp.le
  have hlt : c.distributeQuota * priority < 2 ^ 63 := by nlinarith
  have hnn : 0 ≤ c.distributeQuota * priority / c.tmp := ediv_nonneg hprod (by omega)
  have hle : c.distributeQuota * priority / c.tmp ≤ c.distributeQuota := by
    refine Int.ediv_le_of_le_mul (by omega) ?_
    exact mul_le_mul_of_nonneg_left ht hd0
  refine ⟨?_, hnn⟩
  rw [int64_eq (by omega) hlt, Int.tdiv_eq_ediv_of_nonneg hprod]
  exact int32_of_range (by omega) (by omega)

theorem foldl_limitQuota (hp : 0 < priority) {js : List Nat} (hin : ∀ j ∈ js, InRange (chs j) ∧ priority ≤ (chs j).tmp)
    {q : Int} (hq : 0 ≤ q) : 0 ≤ js.foldl (limitQuota chs priority) q ∧ js.foldl (limitQuota chs priority) q ≤ q ∧
      ∀ j ∈ js, (chs j).limit ≠ 0 →
        js.foldl (limitQuota chs priority) q ≤ (chs j).distributeQuota * priority / (chs j).tmp := by
  induction js generalizing q with
  | nil => exact ⟨hq, le_refl q, by simp⟩
  | cons i js ih =>
    obtain ⟨hc, ht⟩ := hin i mem_cons_self
    obtain ⟨hshare, hnn⟩ := share_eq hc hp ht
    have hlim : (chs i).throttle = (chs i).limit := by
      obtain ⟨h0, h1⟩ := hc.limit
      exact int32_of_range (by omega) h1
    have hone : 0 ≤ limitQuota chs priority q i ∧ limitQuota chs priority q i ≤ q ∧
        ((chs i).limit ≠ 0 → limitQuota chs priority q i ≤ (chs i).distributeQuota * priority / (chs i).tmp) := by
      rw [limitQuota, hlim, hshare]
      split
      · exact ⟨hq, le_refl q, fun h => absurd ‹_› h⟩
      · rw [if_neg (by omega)]
        exact ⟨le_min hnn hq, min_le_right _ _, fun _ => min_le_left _ _⟩
    obtain ⟨h1, h2, h3⟩ := ih (fun j hj => hin j (mem_cons_of_mem _ hj)) hone.1
    rw [foldl_cons]
    refine ⟨h1, h2.trans hone.2.1, fun j hj hl => ?_⟩
    rcases mem_cons.mp hj with rfl | hj
    · exact h2.trans (hone.2.2 hl)
    · exact h3 j hj hl

structure Waiting (r : Request) : Prop where
  priority : 0 < r.priority
  assigned : 0 ≤ r.assigned ∧ r.assigned < r.requestSize
  size : r.requestSize < 2 ^ 31

structure Sane (s : Manager) : Prop where
  limit : ∀ j, 0 ≤ (s.channels j).limit ∧ (s.channels j).limit < (2 ^ 31 - 1) / 31
  distributeQuota : ∀ j, 0 ≤ (s.channels j).distributeQuota ∧ (s.channels j).distributeQuota < 2 ^ 31
  queue : ∀ r ∈ s.queue, Waiting r

/-- **The quota of a request**: it is at most what the request waits for and the share in each of its channels. -/
theorem quota_spec (hr : Waiting r) (hin : ∀ j ∈ r.channel, InRange (chs j) ∧ r.priority ≤ (chs j).tmp) :
    0 ≤ r.quota chs ∧ r.quota chs ≤ r.requestSize - r.assigned ∧
      ∀ j ∈ r.channel, (chs j).limit ≠ 0 → r.quota chs * (chs j).tmp ≤ (chs j).distributeQuota * r.priority := by
  have hpos : 0 < r.requestSize - r.assigned := by
    have := hr.assigned
    omega
  have hquota : r.quota chs = r.channel.foldl (limitQuota chs r.priority) (r.requestSize - r.assigned) := by
    rw [Request.quota, if_neg hpos.ne']
  obtain ⟨h1, h2, h3⟩ := foldl_limitQuota hr.priority hin hpos.le
  rw [hquota]
  refine ⟨h1, h2, fun j hj hl => ?_⟩
  have hp := hr.priority
  have htmp : 0 < (chs j).tmp := by
    have := (hin j hj).2
    omega
  exact (Int.le_ediv_iff_mul_le htmp).mp (h3 j hj hl)

/-! ## The round -/

theorem le_load (h : ∀ r ∈ queue, 0 < r.priority) (hr : r ∈ queue)
    (hj : j ∈ r.channel) : r.priority ≤ load queue j := by
  have hterm : ∀ x ∈ queue.map fun r => r.priority * (r.channel.count j : Int), 0 ≤ x := by
    intro x hx
    obtain ⟨r', hr', rfl⟩ := mem_map.mp hx
    exact mul_nonneg (h r' hr').le (natCast_nonneg _)
  have hone : r.priority * (r.channel.count j : Int) ≤ load queue j :=
    single_le_sum hterm _ (mem_map_of_mem hr)
  have hcount : (1 : Int) ≤ r.channel.count j := by exact_mod_cast count_pos_iff.mpr hj
  have hp := h r hr
  nlinarith

theorem distributeQuota_updateQuota {c : Channel} (hl : 0 ≤ c.limit ∧ c.limit < (2 ^ 31 - 1) / 31)
    (hd : 0 ≤ c.distributeQuota ∧ c.distributeQuota < 2 ^ 31) (dt : Int) :
    0 ≤ (c.updateQuota dt).distributeQuota ∧ (c.updateQuota dt).distributeQuota < 2 ^ 31 := by
  rw [updateQuota]
  split
  · exact hd
  dsimp only
  rw [int64_eq (by omega) (by omega)]
  generalize hq : (if c.quotaLeft + c.allowance dt > c.limit * 3 then c.limit * 3 else c.quotaLeft + c.allowance dt) = q
  have hle : q ≤ c.limit * 3 := by
    rw [← hq]
    split <;> omega
  rw [int32_of_range (by omega) (by omega)]
  omega

theorem updateQuota_fields (c : Channel) (dt : Int) :
    ((c.updateQuota dt).limit, (c.updateQuota dt).tmp, (c.updateQuota dt).used, (c.updateQuota dt).returned) =
      (c.limit, c.tmp, c.used, c.returned) := by
  rw [updateQuota]
  split <;> rfl

/-- The manager between the third and the fourth loop. -/
def ready (s : Manager) (dt : Int) : Manager := s.purge.updateChannels (clampDt dt)

theorem updateQuotas_cases (s : Manager) (dt : Int) : s.updateQuotas dt = s ∨ s.abort = false ∧ s.queue ≠ [] := by
  by_cases hab : s.abort = true
  · exact .inl (by rw [updateQuotas, if_pos hab])
  by_cases hq : s.queue = []
  · exact .inl (by rw [updateQuotas, if_neg hab, if_pos hq])
  · exact .inr ⟨by simpa using hab, hq⟩

theorem updateQuotas_eq (h1 : s.abort = false) (h2 : s.queue ≠ []) (dt : Int) :
    s.updateQuotas dt = callBack (s.ready dt).assignAll := by
  rw [updateQuotas, if_neg (by simp [h1]), if_neg h2]
  rfl

/-- What holds before the fourth loop. -/
structure Ready (s : Manager) (dt : Int) : Prop where
  eq : s.ready dt = { s.purge with channels := (s.ready dt).channels }
  queue : (s.ready dt).queue = s.kept
  inUse : ∀ j, InUse s.kept j → (s.ready dt).channels j =
    ({ s.purge.channels j with tmp := load s.kept j }).updateQuota (clampDt dt)
  notInUse : ∀ j, ¬ InUse s.kept j → (s.ready dt).channels j = s.purge.channels j
  range : ∀ r ∈ s.kept, ∀ j ∈ r.channel, InRange ((s.ready dt).channels j) ∧ r.priority ≤ ((s.ready dt).channels j).tmp

theorem ready_spec (h : Sane s) (hpre : s.Pre (.update dt)) : Ready s dt := by
  have hp := s.purge_spec
  have hqueue : s.purge.queue = s.kept := by rw [hp.queue, nil_append]
  have hwait : ∀ r ∈ s.kept, Waiting r := fun r hr => h.queue r (mem_filter.mp hr).1
  have hload : ∀ j, InUse s.kept j → load s.kept j < 2 ^ 31 := by
    rintro j ⟨r, hr, hj⟩
    have := hpre r hr j hj
    omega
  obtain ⟨chs, heq, hin, hout⟩ := updateChannels_spec (by
      rw [hqueue]
      exact fun r hr => (hwait r hr).priority) (by
      rw [hqueue]
      exact fun j hj => hp.tmp j hj) (by
      rw [hqueue]
      exact hload) (clampDt dt)
  rw [hqueue] at hin hout
  have hchs : (s.ready dt).channels = chs := by rw [ready, heq]
  refine ⟨by rw [hchs]; exact heq, by rw [ready, heq]; exact hqueue, ?_, ?_, ?_⟩
  · rw [hchs]
    exact hin
  · rw [hchs]
    exact hout
  intro r hr j hj
  have huse : InUse s.kept j := ⟨r, hr, hj⟩
  have hc := hp.channels j
  simp only [Prod.mk.injEq] at hc
  have hf := updateQuota_fields ({ s.purge.channels j with tmp := load s.kept j }) (clampDt dt)
  simp only [Prod.mk.injEq] at hf
  have hlim := h.limit j
  rw [hchs, hin j huse]
  refine ⟨⟨?_, ?_, ?_⟩, ?_⟩
  · rw [hf.1, hc.1]
    exact ⟨hlim.1, by omega⟩
  · refine distributeQuota_updateQuota ?_ ?_ _
    · rw [hc.1]
      exact hlim
    · rw [hc.2.1]
      exact h.distributeQuota j
  · rw [hf.2.1]
    exact hload j huse
  · rw [hf.2.1]
    exact le_load (fun r hr => (hwait r hr).priority) hr hj

theorem Ready.fits (h : Sane s) (hr : Ready s dt) : ∀ r ∈ s.kept, Fits (s.ready dt).channels r := by
  intro r hmem
  have hw := h.queue r (mem_filter.mp hmem).1
  obtain ⟨h1, h2, -⟩ := quota_spec hw (hr.range r hmem)
  have ha := hw.assigned
  have hs := hw.size
  exact int32_of_range (by omega) (by omega)

theorem Ready.assigned (h : Sane s) (hr : Ready s dt) :
    Assigned (s.ready dt).channels s.kept ({ s.ready dt with queue := [] }, []) (s.ready dt).assignAll := by
  have hspec := (s.ready dt).assignAll_spec (by
    rw [hr.queue]
    exact hr.fits h)
  rwa [hr.queue] at hspec

theorem perm_filter_append {α β : Type} (p q : α → Bool) (hq : ∀ x, q x = !p x) (f : α → β) (l : List α) :
    ((l.filter p).map f ++ (l.filter q).map f).Perm (l.map f) := by
  obtain rfl : q = fun x => !p x := funext hq
  rw [← map_append]
  exact (filter_append_perm p l).map f

theorem rest_kept_purged (s : Manager) : rest s.kept + rest s.purged = rest s.queue := by
  let f : Request → Int := fun r => r.requestSize - r.assigned
  have hperm : (s.kept.map f ++ s.purged.map f).Perm (s.queue.map f) :=
    perm_filter_append _ _ (fun r => by simp) f s.queue
  rw [rest, rest, ← sum_append]
  exact hperm.sum_eq

/-- What a round makes of a manager: `chs` are the channels during the fourth loop. -/
structure Round (s : Manager) (chs : Channels) (t : Manager) : Prop where
  queue : t.queue = (s.kept.map (served chs)).filter fun r => !done r
  left : t.left = s.left ++ s.purged.map (fun r => (r, .returned r.assigned)) ++
    ((s.kept.map (served chs)).filter done).reverse.map fun r => (r, .assigned s.channel r.assigned)
  same : (t.disconnecting, t.accepted, t.abort, t.channel) = (s.disconnecting, s.accepted, s.abort, s.channel)
  queued : s.queuedBytes = int32 (rest s.queue) → t.queuedBytes = int32 (rest t.queue)
  shown : SameShown t.channels chs
  limit : ∀ j, (chs j).limit = (s.channels j).limit
  returned : ∀ j, (t.channels j).returned = (s.channels j).returned + held s.purged j
  used : ∀ j, (t.channels j).used = (s.channels j).used + taken chs s.kept j
  quotaLeft : ∀ j, (s.channels j).limit ≠ 0 → (t.channels j).quotaLeft = (chs j).quotaLeft - taken chs s.kept j

theorem Ready.fields (hr : Ready s dt) (j : Nat) :
    (((s.ready dt).channels j).limit, ((s.ready dt).channels j).used, ((s.ready dt).channels j).returned) =
      ((s.purge.channels j).limit, (s.purge.channels j).used, (s.purge.channels j).returned) := by
  by_cases hj : InUse s.kept j
  · have hf := updateQuota_fields ({ s.purge.channels j with tmp := load s.kept j }) (clampDt dt)
    simp only [Prod.mk.injEq] at hf ⊢
    rw [hr.inUse j hj]
    exact ⟨hf.1, hf.2.2.1, hf.2.2.2⟩
  · rw [hr.notInUse j hj]

theorem round_spec (h : Sane s) (hpre : s.Pre (.update dt)) (hab : s.abort = false) (hne : s.queue ≠ []) :
    Round s (s.ready dt).channels (s.updateQuotas dt) := by
  have hr := ready_spec h hpre
  have hp := s.purge_spec
  have ha := hr.assigned h
  have hsame := hp.same
  have hready : ((s.ready dt).disconnecting, (s.ready dt).accepted, (s.ready dt).abort, (s.ready dt).channel,
      (s.ready dt).left) =
        (s.purge.disconnecting, s.purge.accepted, s.purge.abort, s.purge.channel, s.purge.left) := by rw [hr.eq]
  have hasame := ha.same.trans hready
  simp only [Prod.mk.injEq] at hsame hasame
  rw [updateQuotas_eq hab hne]
  constructor
  case queue => exact ha.queue
  case left =>
    change (s.ready dt).assignAll.1.left ++ (s.ready dt).assignAll.2.reverse.map _ = _
    rw [hasame.2.2.2.2, hasame.2.2.2.1, ha.tm, hp.left, hsame.2.2.2, nil_append]
  case same =>
    change ((s.ready dt).assignAll.1.disconnecting, (s.ready dt).assignAll.1.accepted,
      (s.ready dt).assignAll.1.abort, (s.ready dt).assignAll.1.channel) = _
    rw [hasame.1, hasame.2.1, hasame.2.2.1, hasame.2.2.2.1, hsame.1, hsame.2.1, hsame.2.2.1, hsame.2.2.2]
  case queued =>
    intro hq
    have h1 : s.purge.queuedBytes = int32 (rest s.kept) := by
      refine hp.queued _ ?_
      rw [rest_kept_purged]
      exact hq
    have h2 : (s.ready dt).queuedBytes = int32 (0 + rest s.kept) := by rw [hr.eq, zero_add, h1]
    have h3 := ha.queued 0 h2
    change (s.ready dt).assignAll.1.queuedBytes = int32 (rest (s.ready dt).assignAll.1.queue)
    rw [h3, zero_add, ha.queue, nil_append]
  case shown => exact ha.shown
  case limit =>
    intro j
    have hf := hr.fields j
    have hc := hp.channels j
    simp only [Prod.mk.injEq] at hf hc
    rw [hf.1, hc.1]
  case returned =>
    intro j
    have hf := hr.fields j
    simp only [Prod.mk.injEq] at hf
    change ((s.ready dt).assignAll.1.channels j).returned = _
    rw [ha.returned, hf.2.2, hp.returned]
  case used =>
    intro j
    have hf := hr.fields j
    have hc := hp.channels j
    simp only [Prod.mk.injEq] at hf hc
    change ((s.ready dt).assignAll.1.channels j).used = _
    rw [ha.used, hf.2.1, hc.2.2]
  case quotaLeft =>
    intro j hl
    have hf := hr.fields j
    have hc := hp.channels j
    simp only [Prod.mk.injEq] at hf hc
    exact ha.quotaLeft j (by
      rw [hf.1, hc.1]
      exact hl)

end Manager

end Libtorrent.Bandwidth
