import Libtorrent.Bandwidth.Conservation

/-!
# Rate limits are respected

In a round no more is taken from a channel than its `distribute_quota` (`taken_le`), and over a sequence of rounds what
is used of a channel with a limit is covered by its quota at the start, what the rounds add, and what is returned to it
(`rate_limit_respected`).
-/

namespace Libtorrent.Bandwidth

open Run List Function Int Channel Store

namespace Manager

variable {s : Manager} {chs : Channels} {dt : Int} {t : Manager}

variable {j : Nat}

/-! ## One round -/

variable {queue : List Request} {c : Channel}

section

variable (hw : ∀ r ∈ queue, Waiting r) (hin : ∀ r ∈ queue, ∀ i ∈ r.channel, InRange (chs i) ∧ r.priority ≤ (chs i).tmp)
include hw hin

theorem taken_le (htmp : (chs j).tmp = load queue j) (hl : (chs j).limit ≠ 0) (huse : InUse queue j) :
    taken chs queue j ≤ (chs j).distributeQuota := by
  obtain ⟨r0, hr0, hj0⟩ := huse
  have hpos : 0 < (chs j).tmp := by
    have h1 := (hin r0 hr0 j hj0).2
    have h2 := (hw r0 hr0).priority
    omega
  refine share_le (p := fun r : Request => r.priority)
    hpos htmp (fun r _ => natCast_nonneg _) fun r hr hc => ?_
  have hj : j ∈ r.channel := count_pos_iff.mp (by exact_mod_cast hc)
  exact (quota_spec (hw r hr) (hin r hr)).2.2 j hj hl

theorem taken_nonneg : 0 ≤ taken chs queue j := by
  refine sum_nonneg fun x hx => ?_
  obtain ⟨r, hr, rfl⟩ := mem_map.mp hx
  exact mul_nonneg (quota_spec (hw r hr) (hin r hr)).1 (natCast_nonneg _)

end

theorem taken_eq_zero (h : ¬ InUse queue j) : taken chs queue j = 0 := by
  refine sum_eq_zero fun x hx => ?_
  obtain ⟨r, hr, rfl⟩ := mem_map.mp hx
  rw [count_eq_zero.mpr fun hj => h ⟨r, hr, hj⟩]
  simp

theorem held_nonneg (h : Sane s) (j : Nat) : 0 ≤ held s.purged j := by
  refine sum_nonneg fun x hx => ?_
  obtain ⟨r, hr, rfl⟩ := mem_map.mp hx
  exact mul_nonneg (h.queue r (mem_filter.mp hr).1).assigned.1 (natCast_nonneg _)

/-- What a round of `dt` milliseconds may add to the quota of a channel. -/
def grant (s : Manager) (j : Nat) (dt : Int) : Int := ((s.channels j).limit * dt + 500) / 1000

theorem allowance_eq (hl : 0 ≤ c.limit ∧ c.limit < (2 ^ 31 - 1) / 31) (h0 : 0 ≤ dt)
    (h1 : dt ≤ 3000) : c.allowance dt = (c.limit * dt + 500) / 1000 := by
  have hprod : 0 ≤ c.limit * dt := mul_nonneg hl.1 h0
  have hle : c.limit * dt ≤ 2 ^ 31 * 3000 := mul_le_mul (by omega) h1 h0 (by omega)
  have hmul : int64 (c.limit * dt) = c.limit * dt := int64_eq (by omega) (by omega)
  rw [allowance, hmul, int64_eq (by omega) (by omega), tdiv_eq_ediv_of_nonneg (by omega)]

theorem updateQuota_quota (hl : 0 < c.limit ∧ c.limit < (2 ^ 31 - 1) / 31) (h0 : 0 ≤ dt)
    (h1 : dt ≤ 3000) : (c.updateQuota dt).distributeQuota = max (c.updateQuota dt).quotaLeft 0 ∧
      (c.updateQuota dt).quotaLeft ≤ c.quotaLeft + (c.limit * dt + 500) / 1000 ∧
        (0 ≤ c.quotaLeft → 0 ≤ (c.updateQuota dt).quotaLeft) := by
  have hadd : 0 ≤ (c.limit * dt + 500) / 1000 := ediv_nonneg (by nlinarith [hl.1]) (by omega)
  have hthree : int64 (c.limit * 3) = c.limit * 3 := int64_eq (by omega) (by omega)
  rw [updateQuota, if_neg hl.1.ne']
  dsimp only
  rw [allowance_eq ⟨hl.1.le, hl.2⟩ h0 h1, hthree]
  generalize (c.limit * dt + 500) / 1000 = add at *
  generalize hq : (if c.quotaLeft + add > c.limit * 3 then c.limit * 3 else c.quotaLeft + add) = q
  have hle : q ≤ c.limit * 3 := by
    rw [← hq]
    split <;> omega
  refine ⟨?_, ?_, fun h => ?_⟩
  · exact int32_of_range (by omega) (by omega)
  · rw [← hq]
    split <;> omega
  · rw [← hq]
    split <;> omega

/-- A channel in a round: what is taken is covered by the quota of the round, and the quota at the start, what is added
and what is returned cover what is taken and the quota at the end. -/
structure Covered (s t : Manager) (j : Nat) (add : Int) : Prop where
  within : (t.channels j).used - (s.channels j).used ≤ (t.channels j).distributeQuota
  nonneg : 0 ≤ (s.channels j).quotaLeft → 0 ≤ (t.channels j).quotaLeft
  total : (t.channels j).used + max (t.channels j).quotaLeft 0 ≤
    (s.channels j).used + max (s.channels j).quotaLeft 0 + add + ((t.channels j).returned - (s.channels j).returned)

theorem covered_round (h : Sane s) (hpre : s.Pre (.update dt)) (hab : s.abort = false) (hne : s.queue ≠ [])
    (hl : 0 < (s.channels j).limit) (h0 : 0 ≤ dt) (h1 : dt ≤ 3000) :
    Covered s (s.updateQuotas dt) j (s.grant j dt) := by
  have hr := ready_spec h hpre
  have hround := round_spec h hpre hab hne
  have hp := s.purge_spec
  have hwait : ∀ r ∈ s.kept, Waiting r := fun r hrm => h.queue r (mem_filter.mp hrm).1
  have hclamp : clampDt dt = dt := if_neg (by omega)
  have hheld := held_nonneg h j
  have hgrant : 0 ≤ s.grant j dt := ediv_nonneg (by nlinarith) (by omega)
  have hnn := taken_nonneg (j := j) hwait hr.range
  have hused := hround.used j
  have hquota := hround.quotaLeft j hl.ne'
  have hret := hround.returned j
  have hstart : (s.purge.channels j).quotaLeft = (s.channels j).quotaLeft + held s.purged j := hp.quotaLeft j hl.ne'
  have hlimit : (s.purge.channels j).limit = (s.channels j).limit := congrArg Prod.fst (hp.channels j)
  have hshown := hround.shown j
  simp only [shown, Prod.mk.injEq] at hshown
  by_cases huse : InUse s.kept j
  · have heq := hr.inUse j huse
    rw [hclamp] at heq
    obtain ⟨hd, hle, hpos⟩ := updateQuota_quota (c := { s.purge.channels j with tmp := load s.kept j })
      (by dsimp only; rw [hlimit]; exact ⟨hl, (h.limit j).2⟩) h0 h1
    have hfields := updateQuota_fields ({ s.purge.channels j with tmp := load s.kept j }) dt
    simp only [Prod.mk.injEq] at hfields
    rw [← heq] at hd hle hpos hfields
    have htaken := taken_le hwait hr.range hfields.2.1 (by rw [hround.limit]; exact hl.ne') huse
    have hadd : s.grant j dt = ((s.purge.channels j).limit * dt + 500) / 1000 := by rw [grant, hlimit]
    rw [← hadd, hstart] at hle
    rw [hstart] at hpos
    refine ⟨?_, fun hq => ?_, ?_⟩
    · rw [hused, hshown.2.2]
      omega
    · have := hpos (by omega)
      rw [hquota]
      rw [hd, max_eq_left this] at htaken
      omega
    rw [hused, hquota, hret]
    rcases le_total 0 (((s.ready dt).channels j).quotaLeft) with hq | hq
    · rw [hd, max_eq_left hq] at htaken
      have := le_max_left (s.channels j).quotaLeft 0
      rw [max_eq_left (by omega)]
      omega
    rw [hd, max_eq_right hq] at htaken
    have := le_max_right (s.channels j).quotaLeft 0
    rw [max_eq_right (by omega)]
    omega
  · rw [hr.notInUse j huse] at hquota
    have htaken : taken (s.ready dt).channels s.kept j = 0 := taken_eq_zero huse
    have hd := (sane_round h hpre hab hne).distributeQuota j
    rw [htaken] at hused hquota
    refine ⟨by omega, fun hq => by omega, ?_⟩
    rw [hused, hquota, hret, hstart]
    have h2 := le_max_left (s.channels j).quotaLeft 0
    have h3 := le_max_right (s.channels j).quotaLeft 0
    have h4 : max ((s.channels j).quotaLeft + held s.purged j - 0) 0 ≤
        max (s.channels j).quotaLeft 0 + held s.purged j :=
      max_le (by omega) (by omega)
    omega

/-! ## Runs -/

/-- The times of the rounds are in range, and the channel keeps a limit. -/
def Timely (j : Nat) (_ : Manager) : Event → Prop
  | .update dt => 0 ≤ dt ∧ dt ≤ 3000
  | .throttle i limit => i = j → 0 < limit
  | _ => True

def Fits64 (x : Int) : Prop := -2 ^ 63 ≤ x ∧ x < 2 ^ 63

/-- In a round no more is assigned through the channel than its quota, assignment does not bring its quota below zero,
and no product overflows. -/
def WithinQuota (j : Nat) (s : Manager) : Event → Prop
  | .update dt =>
    ((s.updateQuotas dt).channels j).used - (s.channels j).used ≤ ((s.updateQuotas dt).channels j).distributeQuota ∧
      (0 ≤ (s.channels j).quotaLeft → 0 ≤ ((s.updateQuotas dt).channels j).quotaLeft) ∧
      ∀ r ∈ s.kept, ∀ i ∈ r.channel, Fits64 ((s.channels i).limit * dt + 500) ∧ Fits64 ((s.channels i).limit * 3) ∧
        Fits64 (((s.ready dt).channels i).distributeQuota * r.priority)
  | _ => True

/-- What an event may add to the quota of a channel. -/
def added (s : Manager) (j : Nat) : Event → Int
  | .update dt => s.grant j dt
  | _ => 0

/-- What the rounds of a run may add to the quota of a channel. -/
def grants (j : Nat) : Manager → List Event → Int
  | _, [] => 0
  | s, ev :: evs => s.added j ev + grants j (s.step ev) evs

theorem products_fit (h : Sane s) (hpre : s.Pre (.update dt)) (h0 : 0 ≤ dt) (h1 : dt ≤ 3000) {r : Request}
    (hr : r ∈ s.kept) {i : Nat} (hi : i ∈ r.channel) : Fits64 ((s.channels i).limit * dt + 500) ∧
      Fits64 ((s.channels i).limit * 3) ∧ Fits64 (((s.ready dt).channels i).distributeQuota * r.priority) := by
  obtain ⟨hl0, hl1⟩ := h.limit i
  obtain ⟨⟨-, ⟨hd0, hd1⟩, ht⟩, hp⟩ := (ready_spec h hpre).range r hr i hi
  have hpos := (h.queue r (mem_filter.mp hr).1).priority
  have hprod : 0 ≤ ((s.ready dt).channels i).distributeQuota * r.priority := mul_nonneg hd0 hpos.le
  have hmul : 0 ≤ (s.channels i).limit * dt := mul_nonneg hl0 h0
  have hle : (s.channels i).limit * dt ≤ 2 ^ 31 * 3000 := mul_le_mul (by omega) h1 h0 (by omega)
  refine ⟨⟨by omega, by omega⟩, ⟨by omega, by omega⟩, by omega, ?_⟩
  nlinarith

theorem rate_step {ev : Event} (h : Sane s) (hpre : s.Pre ev) (hl : 0 < (s.channels j).limit) (ht : Timely j s ev) :
    0 < ((s.step ev).channels j).limit ∧ WithinQuota j s ev ∧
      ((s.step ev).channels j).used + max ((s.step ev).channels j).quotaLeft 0 ≤
        (s.channels j).used + max (s.channels j).quotaLeft 0 + s.added j ev +
          (((s.step ev).channels j).returned - (s.channels j).returned) := by
  cases ev with
  | request peer blk priority chans =>
    have hsame : (s.step (.request peer blk priority chans)).channels = s.channels := by
      rw [step, requestBandwidth]
      split
      · rfl
      · dsimp only
        split <;> rfl
    rw [hsame]
    exact ⟨hl, trivial, by simp [added]⟩
  | close => exact ⟨hl, trivial, by simp [step, close, added]⟩
  | disconnect => exact ⟨hl, trivial, by simp [step, added]⟩
  | throttle i =>
    by_cases hi : j = i
    · subst hi
      exact ⟨by simpa [step, setThrottle] using ht rfl, trivial, by simp [step, setThrottle, added]⟩
    · exact ⟨by simpa [step, Function.update_of_ne hi] using hl,
        trivial, by simp [step, Function.update_of_ne hi, added]⟩
  | update dt =>
    have hfit := fun r hr i hi => products_fit h hpre ht.1 ht.2 (r := r) hr (i := i) hi
    have hgrant : 0 ≤ s.grant j dt := ediv_nonneg (by nlinarith [ht.1]) (by omega)
    rcases s.updateQuotas_cases dt with heq | ⟨hab, hq⟩
    · have hd := (h.distributeQuota j).1
      rw [WithinQuota, step, heq, added]
      exact ⟨hl, ⟨by omega, id, hfit⟩, by omega⟩
    have hround := round_spec h hpre hab hq
    have hcov := covered_round h hpre hab hq hl ht.1 ht.2
    have hshown := hround.shown j
    simp only [shown, Prod.mk.injEq] at hshown
    refine ⟨?_, ⟨hcov.within, hcov.nonneg, hfit⟩, hcov.total⟩
    rw [step, hshown.1, hround.limit]
    exact hl

theorem rate_run : ∀ {s : Manager} {rounds : List Event}, Sane s → 0 < (s.channels j).limit →
    Legal step Pre s rounds → Legal step (Timely j) s rounds → Legal step (WithinQuota j) s rounds ∧
      ((run step s rounds).channels j).used + max ((run step s rounds).channels j).quotaLeft 0 ≤
        (s.channels j).used + max (s.channels j).quotaLeft 0 + grants j s rounds +
          (((run step s rounds).channels j).returned - (s.channels j).returned)
  | s, [], _, _, _, _ => by
    refine ⟨trivial, ?_⟩
    simp [grants]
  | s, ev :: rounds, h, hl, hpre, ht => by
    obtain ⟨h1, h2, h3⟩ := rate_step h hpre.1 hl ht.1
    obtain ⟨h4, h5⟩ := rate_run (sane_step h hpre.1) h1 hpre.2 ht.2
    refine ⟨⟨h2, h4⟩, ?_⟩
    rw [run_cons, grants]
    omega

/-- **Rate limits are respected**: from any state that a run reaches, in every further run in which the channel keeps a
limit. -/
theorem rate_limit_respected (channel : Nat) (before rounds : List Event) (j : Nat)
    (hpre : Legal step Pre (new channel) (before ++ rounds))
    (hl : 0 < ((run step (new channel) before).channels j).limit)
    (ht : Legal step (Timely j) (run step (new channel) before) rounds) :
    Legal step (WithinQuota j) (run step (new channel) before) rounds ∧
      ((run step (new channel) (before ++ rounds)).channels j).used -
        ((run step (new channel) before).channels j).used ≤
        max ((run step (new channel) before).channels j).quotaLeft 0 + grants j (run step (new channel) before) rounds +
          (((run step (new channel) (before ++ rounds)).channels j).returned -
            ((run step (new channel) before).channels j).returned) := by
  rw [legal_append] at hpre
  have hs : Sane (run step (new channel) before) := inv_run (fun s ev h hp => sane_step h hp) (sane_new channel) hpre.1
  obtain ⟨h₁, h₂⟩ := rate_run hs hl hpre.2 ht
  refine ⟨h₁, ?_⟩
  rw [run_append]
  have := le_max_right ((run step (run step (new channel) before) rounds).channels j).quotaLeft 0
  omega

theorem rate_limit_respected_sharedRun :
    Legal step (WithinQuota 0) (run step (new 0) (sharedRun.take 3)) (sharedRun.drop 3) :=
  (rate_limit_respected 0 (sharedRun.take 3) (sharedRun.drop 3) 0 (by decide +kernel) (by decide +kernel)
    ⟨⟨by decide, by decide⟩, trivial, ⟨by decide, by decide⟩, trivial, trivial⟩).1

end Manager

end Libtorrent.Bandwidth
