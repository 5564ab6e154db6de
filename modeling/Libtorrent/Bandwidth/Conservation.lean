import Libtorrent.Bandwidth.Round
import Mathlib.Data.List.Range

/-!
# Bandwidth requests are conserved

Every accepted request is in the queue or has left it once, with a callback, with its amount returned to its channels,
or because the manager was closed; `m_queued_bytes` is what the requests of the queue wait for, as an `int`
(`requests_conserved`). Requests that `close` drops get neither callback nor refund (`closed_request_is_dropped`).
-/

namespace Libtorrent.Bandwidth

open Run List Function Int Channel

namespace Manager

variable {s : Manager} {r : Request}

/-! ## The requests stay in range -/

variable {chs : Channels} {dt : Int} {ev : Event} {t : Manager}

theorem served_waiting (hr : Waiting r) (hin : ∀ j ∈ r.channel, InRange (chs j) ∧ r.priority ≤ (chs j).tmp) :
    0 ≤ (served chs r).assigned ∧ (served chs r).assigned ≤ r.requestSize ∧
      (done (served chs r) = false → Waiting (served chs r)) ∧
        (done (served chs r) = true → 0 < (served chs r).assigned) := by
  obtain ⟨h1, h2, -⟩ := quota_spec hr hin
  have ha := hr.assigned
  have hs := hr.size
  have heq : (served chs r).assigned = r.assigned + r.quota chs := by
    change int32 (r.assigned + r.quota chs) = _
    exact int32_of_range (by omega) (by omega)
  have hsize : (served chs r).requestSize = r.requestSize := rfl
  refine ⟨by omega, by omega, fun hd => ?_, fun hd => ?_⟩
  · have hne : (served chs r).assigned ≠ (served chs r).requestSize := by
      intro he
      simp [done, he] at hd
    exact ⟨hr.priority, ⟨by omega, by omega⟩, hs⟩
  simp only [done, decide_eq_true_eq] at hd
  rcases hd with hd | hd
  · omega
  · exact hd.2

theorem sane_round (h : Sane s) (hpre : s.Pre (.update dt)) (hab : s.abort = false) (hne : s.queue ≠ []) :
    Sane (s.updateQuotas dt) := by
  have hr := ready_spec h hpre
  have hround := round_spec h hpre hab hne
  have hd : ∀ j, 0 ≤ ((s.ready dt).channels j).distributeQuota ∧
    ((s.ready dt).channels j).distributeQuota < 2 ^ 31 := by
    intro j
    by_cases hj : InUse s.kept j
    · obtain ⟨r, hrm, hjr⟩ := hj
      exact (hr.range r hrm j hjr).1.distributeQuota
    have hc := s.purge_spec.channels j
    simp only [Prod.mk.injEq] at hc
    rw [hr.notInUse j hj, hc.2.1]
    exact h.distributeQuota j
  constructor
  case limit =>
    intro j
    have hs := hround.shown j
    simp only [shown, Prod.mk.injEq] at hs
    rw [hs.1, hround.limit]
    exact h.limit j
  case distributeQuota =>
    intro j
    have hs := hround.shown j
    simp only [shown, Prod.mk.injEq] at hs
    rw [hs.2.2]
    exact hd j
  case queue =>
    intro x hx
    rw [hround.queue, mem_filter] at hx
    obtain ⟨r, hrm, rfl⟩ := mem_map.mp hx.1
    refine (served_waiting (h.queue r (mem_filter.mp hrm).1) (hr.range r hrm)).2.2.1 ?_
    simpa using hx.2

theorem sane_step (h : Sane s) (hpre : s.Pre ev) : Sane (s.step ev) := by
  cases ev with
  | request =>
    rw [step, requestBandwidth]
    split
    · exact h
    dsimp only
    split
    · exact h
    refine ⟨h.limit, h.distributeQuota, fun r hr => ?_⟩
    rcases mem_append.mp hr with hr | hr
    · exact h.queue r hr
    · rw [mem_singleton.mp hr]
      exact ⟨hpre.2.1, ⟨le_refl 0, hpre.1.1⟩, hpre.1.2⟩
  | update dt =>
    rw [step]
    rcases s.updateQuotas_cases dt with heq | ⟨hab, hq⟩
    · rwa [heq]
    · exact sane_round h hpre hab hq
  | close => exact ⟨h.limit, h.distributeQuota, fun r hr => absurd hr (by simp [step, close])⟩
  | disconnect => exact ⟨h.limit, h.distributeQuota, h.queue⟩
  | throttle j limit =>
    refine ⟨fun i => ?_, fun i => ?_, h.queue⟩
    · by_cases hi : i = j
      · subst hi
        simpa [step, setThrottle, Pre] using hpre
      · simpa [step, update_of_ne hi] using h.limit i
    by_cases hi : i = j
    · subst hi
      simpa [step, setThrottle] using h.distributeQuota i
    · simpa [step, update_of_ne hi] using h.distributeQuota i

theorem sane_new (channel : Nat) : Sane (new channel) :=
  ⟨fun _ => by simp [new, Channel.new], fun _ => by simp [new, Channel.new], fun r hr => absurd hr (by simp [new])⟩

/-! ## Where the requests are -/

/-- A request left with the callback of its peer, with what was assigned to it, or its peer was disconnecting and the
amount was returned. -/
def Served (s : Manager) (x : Request × Exit) : Prop :=
  match x.2 with
  | .assigned channel amount =>
    channel = s.channel ∧ amount = x.1.assigned ∧ 0 < amount ∧ amount ≤ x.1.requestSize
  | .returned amount => x.1.peer ∈ s.disconnecting ∧ amount = x.1.assigned
  | .dropped => False

def refunds (left : List (Request × Exit)) (j : Nat) : Int :=
  (left.map fun x => match x.2 with
    | .returned amount => amount * (x.1.channel.count j : Int)
    | _ => 0).sum

structure Ledger (s : Manager) : Prop where
  bounds : ∀ r ∈ s.queue, 0 ≤ r.assigned ∧ r.assigned ≤ r.requestSize
  once : ((s.queue.map fun r => r.id) ++ s.left.map fun x => x.1.id).Perm (List.range s.accepted)
  returned : ∀ j, (s.channels j).returned = refunds s.left j

/-- The requests are conserved: `m_queued_bytes` is what they wait for, and every request that left was served. -/
def Conserved (s : Manager) : Prop :=
  Ledger s ∧ s.queuedBytes = rest s.queue ∧ ∀ x ∈ s.left, Served s x

/-- The same with `m_queued_bytes` as an `int`, and for a manager that may have been closed. -/
def ConservedUntilClosed (s : Manager) : Prop :=
  Ledger s ∧ s.queuedBytes = int32 (rest s.queue) ∧
    ∀ x ∈ s.left, Served s x ∨ (x.2 = .dropped ∧ s.abort = true)

theorem refunds_append (l1 l2 : List (Request × Exit)) (j : Nat) :
    refunds (l1 ++ l2) j = refunds l1 j + refunds l2 j := by
  simp [refunds]

theorem refunds_eq_zero {l : List (Request × Exit)} (h : ∀ x ∈ l, ∀ n, x.2 ≠ .returned n) (j : Nat) :
    refunds l j = 0 := by
  refine sum_eq_zero fun y hy => ?_
  obtain ⟨x, hx, rfl⟩ := mem_map.mp hy
  cases he : x.2 with
  | returned n => exact absurd he (h x hx n)
  | assigned => rfl
  | dropped => rfl

theorem refunds_purged (l : List Request) (j : Nat) :
    refunds (l.map fun r => (r, Exit.returned r.assigned)) j = held l j := by
  simp [refunds, held, comp_def]

theorem ids_round (h : Round s chs t) : ((t.queue.map fun r => r.id) ++ t.left.map fun x => x.1.id).Perm
      ((s.queue.map fun r => r.id) ++ s.left.map fun x => x.1.id) := by
  have h1 : (((s.kept.map (served chs)).filter fun r => !done r).map (fun r => r.id) ++
      ((s.kept.map (served chs)).filter done).map (fun r => r.id)).Perm (s.kept.map (fun r => r.id)) := by
    have hp := perm_filter_append (fun r => !done r) done (fun r => by simp) (fun r : Request => r.id)
      (s.kept.map (served chs))
    rwa [map_map] at hp
  have h2 : (s.kept.map (fun r => r.id) ++ s.purged.map (fun r => r.id)).Perm (s.queue.map (fun r => r.id)) :=
    perm_filter_append _ _ (fun r => by simp) (fun r : Request => r.id) s.queue
  rw [h.queue, h.left, perm_iff_count]
  intro a
  have c1 := h1.count_eq a
  have c2 := h2.count_eq a
  simp only [map_append, map_map, comp_def, map_reverse, count_append, count_reverse] at c1 c2 ⊢
  omega

/-! ## Steps -/

theorem Served.mono {x : Request × Exit} (hc : t.channel = s.channel)
    (hd : ∀ p ∈ s.disconnecting, p ∈ t.disconnecting) (h : Served s x) : Served t x := by
  unfold Served at h ⊢
  cases he : x.2 with
  | assigned =>
    rw [he] at h
    rw [hc]
    exact h
  | returned =>
    rw [he] at h
    exact ⟨hd _ h.1, h.2⟩
  | dropped =>
    rw [he] at h
    exact h

theorem conserved_round (hs : Sane s) (h : ConservedUntilClosed s) (hpre : s.Pre (.update dt))
    (hab : s.abort = false) (hne : s.queue ≠ []) : ConservedUntilClosed (s.updateQuotas dt) := by
  have hr := ready_spec hs hpre
  have hround := round_spec hs hpre hab hne
  obtain ⟨hl, hq, hx⟩ := h
  have hsame := hround.same
  simp only [Prod.mk.injEq] at hsame
  have hwait : ∀ r ∈ s.kept, Waiting r := fun r hrm => hs.queue r (mem_filter.mp hrm).1
  refine ⟨⟨?_, ?_, ?_⟩, hround.queued hq, ?_⟩
  · intro x hmem
    have hw := (sane_round hs hpre hab hne).queue x hmem
    have := hw.assigned
    exact ⟨this.1, this.2.le⟩
  · rw [hsame.2.1]
    exact (ids_round hround).trans hl.once
  · intro j
    have hnot : ∀ x ∈ (((s.kept.map (served (s.ready dt).channels)).filter done).reverse.map fun r =>
        (r, Exit.assigned s.channel r.assigned)), ∀ n, x.2 ≠ .returned n := by
      intro x hmem n
      obtain ⟨r, -, rfl⟩ := mem_map.mp hmem
      simp
    rw [hround.returned, hround.left, refunds_append, refunds_append, refunds_purged, refunds_eq_zero hnot,
      hl.returned, add_zero]
  · intro x hmem
    rw [hround.left, mem_append, mem_append] at hmem
    rcases hmem with (hmem | hmem) | hmem
    · rcases hx x hmem with h | h
      · exact Or.inl (h.mono hsame.2.2.2 fun p hp => by rw [hsame.1]; exact hp)
      · exact Or.inr ⟨h.1, by rw [hsame.2.2.1]; exact h.2⟩
    · obtain ⟨r, hrm, rfl⟩ := mem_map.mp hmem
      left
      have hd : r.peer ∈ s.disconnecting := by simpa using (mem_filter.mp hrm).2
      exact ⟨by rw [hsame.1]; exact hd, rfl⟩
    · obtain ⟨y, hy, rfl⟩ := mem_map.mp hmem
      rw [mem_reverse, mem_filter] at hy
      obtain ⟨r, hrm, rfl⟩ := mem_map.mp hy.1
      obtain ⟨-, hle, -, hpos⟩ := served_waiting (hwait r hrm) (hr.range r hrm)
      exact Or.inl ⟨hsame.2.2.2.symm, rfl, hpos hy.2, hle⟩

theorem conserved_request (h : ConservedUntilClosed s) (peer : Nat) {blk priority : Int} (chans : List Nat)
    (hpre : s.Pre (.request peer blk priority chans)) :
    ConservedUntilClosed (s.requestBandwidth peer blk priority chans).1 := by
  rw [requestBandwidth]
  split
  · exact h
  dsimp only
  split
  · exact h
  obtain ⟨hl, hq, hx⟩ := h
  refine ⟨⟨?_, ?_, hl.returned⟩, ?_, fun x hmem => (hx x hmem).imp_left fun h => h.mono rfl fun _ hp => hp⟩
  · intro r hr
    rcases mem_append.mp hr with hr | hr
    · exact hl.bounds r hr
    · rw [mem_singleton.mp hr]
      exact ⟨le_refl 0, hpre.1.1.le⟩
  · rw [perm_iff_count]
    intro a
    have := hl.once.count_eq a
    simp only [map_append, count_append, range_succ, map_cons, map_nil] at this ⊢
    omega
  · rw [hq, int32_add]
    simp [rest]

theorem conserved_close (h : ConservedUntilClosed s) : ConservedUntilClosed s.close := by
  obtain ⟨hl, -, hx⟩ := h
  refine ⟨⟨by simp [close], ?_, ?_⟩, int32_zero.symm, ?_⟩
  · rw [perm_iff_count]
    intro a
    have := hl.once.count_eq a
    simp only [close, map_append, map_map, comp_def, count_append, map_nil, nil_append] at this ⊢
    omega
  · intro j
    have hnot : ∀ x ∈ s.queue.map (·, Exit.dropped), ∀ n, x.2 ≠ .returned n := by
      intro x hmem n
      obtain ⟨r, -, rfl⟩ := mem_map.mp hmem
      simp
    change (s.channels j).returned = refunds (s.left ++ _) j
    rw [refunds_append, refunds_eq_zero hnot, hl.returned, add_zero]
  · intro x hmem
    rcases mem_append.mp hmem with hmem | hmem
    · rcases hx x hmem with h | h
      · exact Or.inl (h.mono rfl fun _ hp => hp)
      · exact Or.inr ⟨h.1, rfl⟩
    · obtain ⟨r, -, rfl⟩ := mem_map.mp hmem
      exact Or.inr ⟨rfl, rfl⟩

theorem conserved_step (hs : Sane s) (h : ConservedUntilClosed s) (hpre : s.Pre ev) :
    ConservedUntilClosed (s.step ev) := by
  cases ev with
  | request peer blk priority chans => exact conserved_request h peer chans hpre
  | update dt =>
    rw [step]
    rcases s.updateQuotas_cases dt with heq | ⟨hab, hq⟩
    · rwa [heq]
    · exact conserved_round hs h hpre hab hq
  | close => exact conserved_close h
  | disconnect =>
    obtain ⟨hl, hq, hx⟩ := h
    exact ⟨⟨hl.bounds, hl.once, hl.returned⟩, hq, fun x hmem =>
      (hx x hmem).imp_left fun h => Served.mono (s := s) rfl (fun _ hp => mem_cons_of_mem _ hp) h⟩
  | throttle j =>
    obtain ⟨hl, hq, hx⟩ := h
    refine ⟨⟨hl.bounds, hl.once, fun i => ?_⟩, hq, fun x hmem =>
      (hx x hmem).imp_left fun h => h.mono rfl fun _ hp => hp⟩
    by_cases hi : i = j
    · subst hi
      simpa [step, setThrottle] using hl.returned i
    · simpa [step, update_of_ne hi] using hl.returned i

theorem conserved_new (channel : Nat) : ConservedUntilClosed (new channel) :=
  ⟨⟨by simp [new], by simp [new], fun j => by simp [new, Channel.new, refunds]⟩, int32_zero.symm, by simp [new]⟩

/-- **Conservation of requests**: in every run that meets the assertions. -/
theorem requests_conserved (channel : Nat) (events : List Event) (hl : Legal step Pre (new channel) events) :
    Always step ConservedUntilClosed (new channel) events := by
  have hstep : ∀ s ev, (Sane s ∧ ConservedUntilClosed s) → s.Pre ev →
    (Sane (s.step ev) ∧ ConservedUntilClosed (s.step ev)) :=
    fun s ev h hpre => ⟨sane_step h.1 hpre, conserved_step h.1 h.2 hpre⟩
  exact (always_of_step hstep ⟨sane_new channel, conserved_new channel⟩ hl).mono fun _ h => h.2

/-- Two peers share a channel; one of them disconnects. -/
def sharedRun : List Event :=
  [.throttle 0 1000, .request 1 600 1 [0, 7], .request 2 50 1 [0], .update 500, .disconnect 1, .update 200, .close]

theorem requests_conserved_sharedRun : Always step ConservedUntilClosed (new 0) sharedRun :=
  requests_conserved 0 sharedRun (by decide +kernel)

def closedRun : List Event := [.throttle 0 1000, .request 1 600 1 [0], .close]

/-- The request that is dropped is neither called back nor was its peer disconnecting; and two requests of `2 ^ 31 - 1`
bytes bring `m_queued_bytes` to `-2`. -/
theorem closed_request_is_dropped : (Legal step Pre (new 0) closedRun ∧ ¬ Always step Conserved (new 0) closedRun) ∧
      ∃ events, Legal step Pre (new 0) events ∧ (run step (new 0) events).queuedBytes = -2 ∧
        rest (run step (new 0) events).queue = 2 ^ 32 - 2 := by
  refine ⟨⟨by decide +kernel, fun h => ?_⟩,
    [.throttle 0 1000, .request 1 (2 ^ 31 - 1) 1 [0],
      .request 2 (2 ^ 31 - 1) 1 [0]], by decide +kernel, by decide +kernel,
    by decide +kernel⟩
  have hlast := h.last.2.2 (⟨0, 1, 1, 0, 600, 20, [0]⟩, .dropped) (by decide +kernel)
  exact hlast

end Manager

end Libtorrent.Bandwidth
