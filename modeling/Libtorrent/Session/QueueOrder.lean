import Mathlib.Data.List.Nodup
import Mathlib.Algebra.Order.Ring.Int
import Libtorrent.Lib.Ranking
import Libtorrent.Lib.Run

/-!
# The download queue

The queue positions of the torrents of a session: `torrent::set_queue_position` and its callers. Of a torrent only what
these read is kept: its position, whether it is auto-managed and whether it is finished. Whether `force_recheck` does
anything, and whether the torrent is finished afterwards, are arguments.
-/

namespace Libtorrent.Session

variable {H : Type} [DecidableEq H]

structure Torrent (H : Type) where
  infoHash : H
  sequenceNumber : Int
  autoManaged : Bool
  isFinished : Bool

variable (torrents : List (Torrent H))

def maxSeq (start : Int) : Int :=
  torrents.foldl (fun m t => if t.sequenceNumber > m then t.sequenceNumber else m) start

/-- A loop over `m_torrents` that moves the other torrents, and then the new position of `this`. -/
def shift (this : H) (others : Int → Int) (own : Int) : List (Torrent H) :=
  torrents.map fun t =>
    { t with sequenceNumber := if t.infoHash = this then own else others t.sequenceNumber }

/-- `set_queue_position(p)` of the torrent `this`, which need not be in `m_torrents` any more. -/
def setQueuePosition (this : Torrent H) (p : Int) : List (Torrent H) :=
  if this.isFinished ∧ p ≠ -1 then torrents
  else if p = this.sequenceNumber then torrents
  else if p ≥ 0 ∧ this.sequenceNumber = -1 then
    shift torrents this.infoHash (fun n => if n ≥ p then n + 1 else n) (min (maxSeq torrents (-1) + 1) p)
  else if p < 0 then
    shift torrents this.infoHash (fun n => if n ≥ this.sequenceNumber ∧ n ≠ -1 then n - 1 else n) p
  else if p < this.sequenceNumber then
    shift torrents this.infoHash (fun n => if n ≥ p ∧ n < this.sequenceNumber ∧ n ≠ -1 then n + 1 else n) p
  else if p > this.sequenceNumber then
    shift torrents this.infoHash (fun n => if n ≤ p ∧ n > this.sequenceNumber ∧ n ≠ -1 then n - 1 else n)
      (min (maxSeq torrents 0) p)
  else torrents

def onTorrent (h : H) (f : Torrent H → List (Torrent H)) : List (Torrent H) :=
  match torrents.find? fun t => t.infoHash = h with
  | some t => f t
  | none => torrents

/-- Setting `m_auto_managed`, or a change of what `is_finished()` returns. -/
def modify (h : H) (f : Torrent H → Torrent H) : List (Torrent H) :=
  torrents.map fun t => if t.infoHash = h then f t else t

/-- The position that `add_torrent` gives to a new torrent. -/
def queuePos : Int :=
  torrents.foldl (fun q t => if t.sequenceNumber ≥ q then t.sequenceNumber + 1 else q) 0

def intMax : Int := 2 ^ 31 - 1

inductive Event (H : Type) where
  | add (h : H) (autoManaged isFinished : Bool)
  | remove (h : H)
  | queueUp (h : H)
  | queueDown (h : H)
  | setQueuePosition (h : H) (p : Int)
  | finished (h : H)
  | resumeDownload (h : H)
  | forceRecheck (h : H) (accepted finishedAfter : Bool)
  | setAutoManaged (h : H) (value : Bool)
  | setFinished (h : H) (value : Bool)

/-- The argument of `set_queue_position` in `queue_up()`. -/
def upPosition (t : Torrent H) : Int := if t.sequenceNumber = 0 then t.sequenceNumber else t.sequenceNumber - 1

/-- The end of `force_recheck()`. -/
def requeue (h : H) : List (Torrent H) :=
  onTorrent torrents h fun t =>
    if t.autoManaged && !t.isFinished then setQueuePosition torrents t intMax else torrents

def step : Event H → List (Torrent H)
  | .add h autoManaged isFinished =>
    if torrents.any fun t => t.infoHash = h then torrents
    else torrents ++ [⟨h, queuePos torrents, autoManaged, isFinished⟩]
  | .remove h => onTorrent torrents h fun t => setQueuePosition (torrents.filter fun t => t.infoHash ≠ h) t (-1)
  | .queueUp h => onTorrent torrents h fun t => setQueuePosition torrents t (upPosition t)
  | .queueDown h => onTorrent torrents h fun t => setQueuePosition torrents t (t.sequenceNumber + 1)
  | .setQueuePosition h p => onTorrent torrents h fun t => Session.setQueuePosition torrents t p
  | .finished h => onTorrent torrents h fun t => Session.setQueuePosition torrents t (-1)
  | .resumeDownload h => onTorrent torrents h fun t => Session.setQueuePosition torrents t intMax
  | .forceRecheck h accepted finishedAfter =>
    if accepted then requeue (modify torrents h fun t => { t with isFinished := finishedAfter }) h
    else torrents
  | .setAutoManaged h value => modify torrents h fun t => { t with autoManaged := value }
  | .setFinished h value => modify torrents h fun t => { t with isFinished := value }

/-!
## The queue positions are those of a list

The queued torrents form a list, and `m_sequence_number` is the place of a torrent in it (`Represents`).
`set_queue_position` takes a torrent out of the list and puts it back at its new place (`place`,
`setQueuePosition_spec`), so that the others keep their order. The one call that does not fit is `queue_up` for a
torrent that is not queued: it asks for position -2 (`queue_positions_iff`).
-/

open Ranking Run List Nat Int

variable {ts : List (Torrent H)} {q : List H} {t : Torrent H} {h x : H} {p : Int}

structure Represents (ts : List (Torrent H)) (q : List H) : Prop where
  keys : (ts.map Torrent.infoHash).Nodup
  nodup : q.Nodup
  subset : ∀ x ∈ q, x ∈ ts.map Torrent.infoHash
  position : ∀ t ∈ ts, t.sequenceNumber = rank q t.infoHash

/-! ## Loops over the torrents -/

omit [DecidableEq H] in
theorem maxSeq_bound : ∀ {start bound : Int}, start ≤ bound → (∀ t ∈ ts, t.sequenceNumber ≤ bound) →
    maxSeq ts start ≤ bound ∧ start ≤ maxSeq ts start ∧ ∀ t ∈ ts, t.sequenceNumber ≤ maxSeq ts start := by
  induction ts with
  | nil => exact fun hs _ => ⟨hs, le_refl _, fun t ht => absurd ht not_mem_nil⟩
  | cons a ts ih =>
    intro start bound hs hb
    have ha := hb a mem_cons_self
    have hrest := fun t ht => hb t (mem_cons_of_mem a ht)
    have hstep : maxSeq (a :: ts) start = maxSeq ts
      (if a.sequenceNumber > start then a.sequenceNumber else start) := rfl
    rw [hstep]
    split
    · rename_i hgt
      obtain ⟨h1, h2, h3⟩ := ih ha hrest
      exact ⟨h1, by omega, fun t ht => (mem_cons.mp ht).elim (fun he => he ▸ h2) (h3 t)⟩
    · rename_i hle
      obtain ⟨h1, h2, h3⟩ := ih hs hrest
      exact ⟨h1, h2, fun t ht => (mem_cons.mp ht).elim (fun he => by subst he; omega) (h3 t)⟩

theorem maxSeq_eq (hr : Represents ts q) {start : Int} (hs : -1 ≤ start) (hle : start ≤ q.length - 1) :
    maxSeq ts start = q.length - 1 := by
  have hbound : ∀ t ∈ ts, t.sequenceNumber ≤ q.length - 1 := by
    intro t ht
    have := rank_lt_length q t.infoHash
    rw [hr.position t ht]
    omega
  obtain ⟨h1, h2, h3⟩ := maxSeq_bound hle hbound
  rcases Nat.eq_zero_or_pos q.length with h0 | hpos
  · omega
  obtain ⟨x, hx, hrank⟩ := exists_rank hr.nodup (sub_lt hpos one_pos)
  obtain ⟨t, ht, rfl⟩ := mem_map.mp (hr.subset x hx)
  have := h3 t ht
  rw [hr.position t ht, hrank] at this
  omega

theorem map_shift (ts : List (Torrent H)) (h : H) (f : Int → Int) (own : Int) :
    (shift ts h f own).map Torrent.infoHash = ts.map Torrent.infoHash := by
  rw [shift, map_map]
  rfl

variable {q' : List H} {f : Torrent H → Torrent H}

theorem Represents.shift {f : Int → Int} {own : Int} (hr : Represents ts q) (hq' : q'.Nodup)
    (hsub : ∀ x ∈ q', x ∈ ts.map Torrent.infoHash) (hown : h ∈ ts.map Torrent.infoHash → own = rank q' h)
    (hf : ∀ x, x ≠ h → f (rank q x) = rank q' x) : Represents (Session.shift ts h f own) q' := by
  refine ⟨?_, hq', ?_, fun t ht => ?_⟩
  · rw [map_shift]
    exact hr.keys
  · rw [map_shift]
    exact hsub
  obtain ⟨u, hu, rfl⟩ := mem_map.mp ht
  split
  · rename_i he
    rw [he]
    exact hown (he ▸ mem_map_of_mem hu)
  · rename_i hne
    rw [hr.position u hu]
    exact hf u.infoHash hne

/-! ## `set_queue_position` -/

theorem Represents.congr (hr : Represents ts q) (hq' : q'.Nodup)
    (hrank : ∀ x, rank q' x = rank q x) : Represents ts q' := by
  refine ⟨hr.keys, hq', fun x hx => hr.subset x ?_, fun t ht => ?_⟩
  · rw [← rank_nonneg_iff, ← hrank x]
    exact rank_nonneg_iff.mpr hx
  · rw [hrank]
    exact hr.position t ht

theorem setQueuePosition_spec (hr : Represents ts q) (ht : t ∈ ts) (hp : -1 ≤ p) (hok : t.isFinished = true → p = -1) :
    Represents (setQueuePosition ts t p) (place q t.infoHash p) := by
  have hmem : t.infoHash ∈ ts.map Torrent.infoHash := mem_map_of_mem ht
  have hsub : ∀ x ∈ place q t.infoHash p, x ∈ ts.map Torrent.infoHash := by
    intro x hx
    rcases eq_or_ne x t.infoHash with rfl | hne
    · exact hmem
    · exact hr.subset x ((mem_place_of_ne hne).mp hx)
  have hnodup := nodup_place hr.nodup t.infoHash p
  have hlt := rank_lt_length q t.infoHash
  have hge := neg_one_le_rank q t.infoHash
  have hiff := rank_nonneg_iff (q := q) (x := t.infoHash)
  have herase : ∀ x, x ≠ t.infoHash → t.infoHash ∈ q → rank (q.erase t.infoHash) x =
      if rank q t.infoHash < rank q x then rank q x - 1 else rank q x := by
    intro x hx hin
    simpa only [hin, true_and] using rank_erase q hx
  have hown := fun h0 : 0 ≤ p => rank_place_self (t := t.infoHash) hr.nodup h0
  have hother := fun x (hx : x ≠ t.infoHash) (h0 : 0 ≤ p) => rank_place_of_ne (q := q) h0 hx
  have hout : p < 0 → place q t.infoHash p = q.erase t.infoHash := fun h => if_pos h
  unfold setQueuePosition
  rw [hr.position t ht, if_neg fun hc => hc.2 (hok hc.1)]
  split
  · -- the torrent is where it should be
    rename_i he
    refine hr.congr hnodup fun x => ?_
    by_cases h0 : 0 ≤ p
    · have hin := hiff.mp (he ▸ h0)
      rcases eq_or_ne x t.infoHash with rfl | hx
      · rw [hown h0, if_pos hin]
        omega
      have hne : rank q x ≠ rank q t.infoHash := fun h => hx (rank_inj hin h.symm).symm
      have hxlt := rank_lt_length q x
      rw [hother x hx h0, herase x hx hin, if_pos hin]
      split <;> split <;> omega
    · have hnot : t.infoHash ∉ q := fun h => by
        have := hiff.mpr h
        omega
      rw [hout (by omega), erase_of_not_mem hnot]
  · rename_i hne
    split
    · -- the torrent joins the queue
      rename_i hc
      have hnot : t.infoHash ∉ q := fun h => by
        have := hiff.mpr h
        omega
      refine hr.shift hnodup hsub (fun _ => ?_) fun x hx => ?_
      · rw [maxSeq_eq hr (le_refl _) (by omega), hown hc.1, if_neg hnot]
        omega
      · have hxlt := rank_lt_length q x
        rw [hother x hx hc.1, erase_of_not_mem hnot, if_neg hnot]
        split <;> split <;> omega
    split
    · -- the torrent leaves the queue
      rename_i hneg
      have hmemq : t.infoHash ∈ q := hiff.mp (by omega)
      refine hr.shift hnodup hsub (fun _ => ?_) fun x hx => ?_
      · rw [hout hneg, rank_of_notMem hr.nodup.not_mem_erase]
        omega
      · have hnex : rank q x ≠ rank q t.infoHash := fun h => hx (rank_inj hmemq h.symm).symm
        rw [hout hneg, herase x hx hmemq]
        split <;> split <;> omega
    have hmemq : t.infoHash ∈ q := hiff.mp (by omega)
    have hown' := hown (by omega)
    rw [if_pos hmemq] at hown'
    have hother' : ∀ x, x ≠ t.infoHash → rank q x ≠ rank q t.infoHash ∧ rank q x < q.length ∧ -1 ≤ rank q x ∧
        rank (place q t.infoHash p) x = if min p ((q.length : Int) - 1) ≤ rank (q.erase t.infoHash) x then
          rank (q.erase t.infoHash) x + 1 else rank (q.erase t.infoHash) x := by
      intro x hx
      refine ⟨fun h => hx (rank_inj hmemq h.symm).symm, rank_lt_length q x, neg_one_le_rank q x, ?_⟩
      rw [hother x hx (by omega), if_pos hmemq]
    split
    · -- the torrent moves up
      refine hr.shift hnodup hsub (fun _ => ?_) fun x hx => ?_
      · rw [hown']
        omega
      · obtain ⟨h1, h2, h3, h4⟩ := hother' x hx
        rw [h4, herase x hx hmemq]
        split <;> split <;> split <;> omega
    -- the torrent moves down
    rw [if_pos (by omega)]
    refine hr.shift hnodup hsub (fun _ => ?_) fun x hx => ?_
    · rw [hown', maxSeq_eq hr (by decide) (by omega)]
      omega
    · obtain ⟨h1, h2, h3, h4⟩ := hother' x hx
      rw [h4, herase x hx hmemq]
      split <;> split <;> split <;> omega

/-! ## The calls -/

theorem mem_of_find {u : Torrent H} (h : (ts.find? fun t => t.infoHash = x) = some u) : u ∈ ts ∧ u.infoHash = x :=
  ⟨mem_of_find?_eq_some h, by simpa using List.find?_some h⟩

theorem Represents.find_eq (hr : Represents ts q) (ht : t ∈ ts) :
    (ts.find? fun u => u.infoHash = t.infoHash) = some t := by
  cases hfind : ts.find? fun u => u.infoHash = t.infoHash with
  | none => simpa using List.find?_eq_none.mp hfind t ht
  | some =>
    obtain ⟨hu, he⟩ := mem_of_find hfind
    rw [inj_on_of_nodup_map hr.keys hu ht he]

theorem Represents.modify (hr : Represents ts q) (h : H)
    (hf : ∀ t, (f t).infoHash = t.infoHash ∧ (f t).sequenceNumber = t.sequenceNumber) :
    Represents (modify ts h f) q := by
  have hmap : (Session.modify ts h f).map Torrent.infoHash = ts.map Torrent.infoHash := by
    rw [Session.modify, map_map]
    refine map_congr_left fun t _ => ?_
    dsimp only [Function.comp]
    split
    · exact (hf t).1
    · rfl
  refine ⟨hmap ▸ hr.keys, hr.nodup, hmap ▸ hr.subset, fun u hu => ?_⟩
  obtain ⟨t, ht, rfl⟩ := mem_map.mp hu
  split
  · rw [(hf t).1, (hf t).2, hr.position t ht]
  · exact hr.position t ht

/-- What a call on the torrent `h` does to the queue: the others keep their order, and the torrent comes to the position
that was asked for. -/
structure Queued (ts : List (Torrent H)) (q : List H) (h : H) (asked : Option Int) (q' : List H) : Prop where
  represents : Represents ts q'
  others : q'.erase h = q.erase h
  place : ∀ p ∈ asked, 0 ≤ p → rank q' h = min p (q'.length - 1)

/-- The argument of a `set_queue_position` that is not refused. -/
def accepted (ts : List (Torrent H)) (h : H) (p : Torrent H → Int) : Option Int :=
  (ts.find? fun t => t.infoHash = h).bind fun t => if t.isFinished then none else some (p t)

theorem setQueuePosition_refused (hfin : t.isFinished = true) (hp : p ≠ -1) : setQueuePosition ts t p = ts :=
  if_pos ⟨hfin, hp⟩

theorem queued_onTorrent (hr : Represents ts q) (h : H) {p : Torrent H → Int}
    (hp : ∀ t ∈ ts, t.infoHash = h → t.isFinished = false → -1 ≤ p t) :
    ∃ q', Queued (onTorrent ts h fun t => setQueuePosition ts t (p t)) q h (accepted ts h p) q' := by
  unfold onTorrent accepted
  cases hfind : ts.find? fun t => t.infoHash = h with
  | none => exact ⟨q, hr, rfl, fun p hp => absurd hp (by simp)⟩
  | some t =>
    obtain ⟨ht, rfl⟩ := mem_of_find hfind
    dsimp only [Option.bind]
    by_cases hrefused : t.isFinished = true ∧ p t ≠ -1
    · refine ⟨q, ?_, rfl, fun p hp => ?_⟩
      · rw [setQueuePosition_refused hrefused.1 hrefused.2]
        exact hr
      · rw [if_pos hrefused.1] at hp
        exact absurd hp (by simp)
    have hbound : -1 ≤ p t := by
      cases hfin : t.isFinished with
      | true => exact le_of_eq (not_not.mp fun hne => hrefused ⟨hfin, Ne.symm hne⟩)
      | false => exact hp t ht rfl hfin
    have hok : t.isFinished = true → p t = -1 := fun hf => not_not.mp fun hne => hrefused ⟨hf, hne⟩
    refine ⟨Ranking.place q t.infoHash (p t), setQueuePosition_spec hr ht hbound hok,
      erase_place hr.nodup _ _, fun n hn h0 => ?_⟩
    split at hn
    · exact absurd hn (by simp)
    · obtain rfl : p t = n := by simpa using hn
      exact rank_place_self_eq_min hr.nodup h0

theorem find_modify (hf : ∀ t, (f t).infoHash = t.infoHash) :
    ((modify ts h f).find? fun t => t.infoHash = h) = (ts.find? fun t => t.infoHash = h).map f := by
  induction ts with
  | nil => rfl
  | cons a ts ih =>
    rw [modify, map_cons] at *
    by_cases ha : a.infoHash = h
    · rw [if_pos ha, List.find?_cons_of_pos (by simpa [hf] using ha), List.find?_cons_of_pos (by simpa using ha)]
      rfl
    · rw [if_neg ha, List.find?_cons_of_neg (by simpa using ha), List.find?_cons_of_neg (by simpa using ha)]
      exact ih

theorem setQueuePosition_self (ts : List (Torrent H)) (t : Torrent H) :
    setQueuePosition ts t t.sequenceNumber = ts := by
  rw [setQueuePosition, if_pos (rfl : t.sequenceNumber = t.sequenceNumber), ite_self]

/-- The torrent that is checked again goes to the end if it is auto-managed, and stays where it is otherwise. -/
theorem queued_requeue (hr : Represents ts q) (h : H) :
    ∃ q', Queued (requeue ts h) q h ((ts.find? fun t => t.infoHash = h).bind fun t =>
      if t.autoManaged && !t.isFinished then some intMax else none) q' := by
  have hstay : requeue ts h = onTorrent ts h fun t =>
      setQueuePosition ts t (if t.autoManaged && !t.isFinished then intMax else t.sequenceNumber) := by
    unfold requeue
    congr 1
    funext t
    split
    · rfl
    · exact (setQueuePosition_self ts t).symm
  rw [hstay]
  obtain ⟨q', hq'⟩ := queued_onTorrent hr h (p := fun t =>
    if t.autoManaged && !t.isFinished then intMax else t.sequenceNumber) (by
      intro t ht _ _
      have := neg_one_le_rank q t.infoHash
      rw [← hr.position t ht] at this
      split
      · decide
      · exact this)
  refine ⟨q', hq'.represents, hq'.others, fun p hp h0 => hq'.place p ?_ h0⟩
  unfold accepted
  cases hfind : ts.find? fun t => t.infoHash = h with
  | none => simp [hfind] at hp
  | some t =>
    rw [hfind, Option.mem_def, Option.bind_some] at hp
    split at hp
    · rename_i hauto
      have hfin : ¬ t.isFinished = true := by simp_all
      rw [Option.mem_def, Option.bind_some, if_neg hfin]
      dsimp only
      rw [if_pos hauto]
      exact hp
    · simp at hp

omit [DecidableEq H] in
theorem queuePos_bound : ∀ {start bound : Int}, start ≤ bound →
    (∀ t ∈ ts, t.sequenceNumber < bound) → (start = bound ∨ ∃ t ∈ ts, t.sequenceNumber = bound - 1) →
    ts.foldl (fun q t => if t.sequenceNumber ≥ q then t.sequenceNumber + 1 else q) start = bound := by
  induction ts with
  | nil =>
    intro start bound _ _ hreach
    rcases hreach with h | ⟨t, ht, -⟩
    · exact h
    · exact absurd ht not_mem_nil
  | cons a ts ih =>
    intro start bound hs hb hreach
    have ha := hb a mem_cons_self
    have hrest := fun t ht => hb t (mem_cons_of_mem a ht)
    rw [foldl_cons]
    refine ih (by split <;> omega) hrest ?_
    rcases hreach with h | ⟨t, ht, htb⟩
    · exact .inl (by split <;> omega)
    · rcases mem_cons.mp ht with rfl | ht
      · exact .inl (by split <;> omega)
      · exact .inr ⟨t, ht, htb⟩

section

variable (hr : Represents ts q)
include hr

theorem queuePos_eq : queuePos ts = q.length := by
  refine queuePos_bound (natCast_nonneg _) (fun t ht => hr.position t ht ▸ rank_lt_length q t.infoHash) ?_
  rcases Nat.eq_zero_or_pos q.length with h0 | hpos
  · exact .inl (by omega)
  · obtain ⟨x, hx, hrank⟩ := exists_rank hr.nodup (sub_lt hpos one_pos)
    obtain ⟨t, ht, rfl⟩ := mem_map.mp (hr.subset x hx)
    exact .inr ⟨t, ht, by rw [hr.position t ht, hrank]; omega⟩

theorem Represents.add (hnew : h ∉ ts.map Torrent.infoHash) (autoManaged isFinished : Bool) :
    Represents (ts ++ [⟨h, queuePos ts, autoManaged, isFinished⟩]) (q ++ [h]) := by
  have hq : h ∉ q := fun hq => hnew (hr.subset h hq)
  have hkeys : (ts ++ [Torrent.mk h (queuePos ts) autoManaged isFinished]).map Torrent.infoHash =
      ts.map Torrent.infoHash ++ [h] := map_append
  refine ⟨?_, ?_, ?_, ?_⟩
  · rw [hkeys]
    exact (perm_append_singleton h _).nodup_iff.mpr (nodup_cons.mpr ⟨hnew, hr.keys⟩)
  · exact (perm_append_singleton h _).nodup_iff.mpr (nodup_cons.mpr ⟨hq, hr.nodup⟩)
  · rw [hkeys]
    intro x hx
    rcases mem_append.mp hx with hx | hx
    · exact mem_append_left _ (hr.subset x hx)
    · exact mem_append_right _ hx
  · intro t ht
    rcases mem_append.mp ht with ht | ht
    · have hne : t.infoHash ≠ h := fun he => hnew (he ▸ mem_map_of_mem ht)
      rw [hr.position t ht, rank_append_of_ne hne]
    · obtain rfl := mem_singleton.mp ht
      exact (queuePos_eq hr).trans (rank_middle hq []).symm

theorem Represents.remove (ht : t ∈ ts) :
    Represents (setQueuePosition (ts.filter fun u => u.infoHash ≠ t.infoHash) t (-1)) (q.erase t.infoHash) := by
  have hmem : ∀ u, u ∈ ts.filter (fun u => u.infoHash ≠ t.infoHash) → u ∈ ts ∧ u.infoHash ≠ t.infoHash := by
    intro u hu
    simpa using mem_filter.mp hu
  have hkeys : ((ts.filter fun u => u.infoHash ≠ t.infoHash).map Torrent.infoHash).Nodup :=
    (filter_sublist.map _).nodup hr.keys
  have hsub : ∀ x ∈ q.erase t.infoHash, x ∈ (ts.filter fun u => u.infoHash ≠ t.infoHash).map Torrent.infoHash := by
    intro x hx
    obtain ⟨hne, hx⟩ := hr.nodup.mem_erase_iff.mp hx
    obtain ⟨u, hu, rfl⟩ := mem_map.mp (hr.subset x hx)
    exact mem_map_of_mem (mem_filter.mpr ⟨hu, by simpa using hne⟩)
  have hrank := fun x (hx : x ≠ t.infoHash) => rank_erase q hx
  unfold setQueuePosition
  rw [hr.position t ht, if_neg fun hc => hc.2 rfl]
  split
  · rename_i hout
    have hnot : t.infoHash ∉ q := fun hin => absurd (rank_nonneg_iff.mpr hin) (by omega)
    refine ⟨hkeys, hr.nodup.erase _, hsub, fun u hu => ?_⟩
    rw [hr.position u (hmem u hu).1, erase_of_not_mem hnot]
  have hin : t.infoHash ∈ q := by
    rw [← rank_nonneg_iff]
    have := neg_one_le_rank q t.infoHash
    omega
  rw [if_neg fun hc => absurd hc.1 (by decide), if_pos (by decide)]
  refine ⟨?_, hr.nodup.erase _, ?_, fun u hu => ?_⟩
  · rw [map_shift]
    exact hkeys
  · rw [map_shift]
    exact hsub
  obtain ⟨v, hv, rfl⟩ := mem_map.mp hu
  obtain ⟨hv, hne⟩ := hmem v hv
  have hrankne : rank q v.infoHash ≠ rank q t.infoHash := fun h => hne (rank_inj hin h.symm).symm
  have hge := rank_nonneg_iff.mpr hin
  rw [if_neg hne, hr.position v hv, hrank _ hne]
  simp only [hin, true_and]
  split <;> split <;> omega

/-! ## Runs -/

def Event.torrent : Event H → H
  | .add h _ _ | .remove h | .queueUp h | .queueDown h | .setQueuePosition h _ | .finished h | .resumeDownload h
  | .forceRecheck h _ _ | .setAutoManaged h _ | .setFinished h _ => h

/-- The position that a call asks for, unless it is refused because the torrent is finished. -/
def asked (ts : List (Torrent H)) : Event H → Option Int
  | .queueUp h => accepted ts h upPosition
  | .queueDown h => accepted ts h fun t => t.sequenceNumber + 1
  | .setQueuePosition h p => accepted ts h fun _ => p
  | .finished h => accepted ts h fun _ => -1
  | .resumeDownload h => accepted ts h fun _ => intMax
  | .forceRecheck h accepted finishedAfter =>
    (ts.find? fun t => t.infoHash = h).bind fun t =>
      if accepted && t.autoManaged && !finishedAfter then some intMax else none
  | _ => none

def AsCallers (_ : List (Torrent H)) : Event H → Prop
  | .setQueuePosition _ p => -1 ≤ p
  | _ => True

instance : ∀ (ts : List (Torrent H)) (e : Event H), Decidable (AsCallers ts e) := by
  intro ts e
  cases e <;> unfold AsCallers <;> infer_instance

def Plain (ts : List (Torrent H)) : Event H → Prop
  | .queueUp h => ∀ t ∈ ts, t.infoHash = h → t.isFinished = false → t.sequenceNumber ≠ -1
  | _ => True

instance : ∀ (ts : List (Torrent H)) (e : Event H), Decidable (Plain ts e) := by
  intro ts e
  cases e <;> unfold Plain <;> infer_instance

variable {e : Event H}

/-- **One call**: it does what it should to the queue. -/
theorem step_spec (hpre : AsCallers ts e) (hplain : Plain ts e) :
    ∃ q', Queued (step ts e) q e.torrent (asked ts e) q' := by
  cases e with
  | add h =>
    rw [step]
    split
    · exact ⟨q, hr, rfl, fun p hp => absurd hp (by simp [asked])⟩
    rename_i hnew
    have hnot : h ∉ ts.map Torrent.infoHash := by simpa [mem_map] using hnew
    refine ⟨q ++ [h], hr.add hnot _ _, ?_, fun p hp => absurd hp (by simp [asked])⟩
    have hq : h ∉ q := fun hq => hnot (hr.subset h hq)
    rw [Event.torrent, erase_append_right _ hq, erase_cons_head, append_nil, erase_of_not_mem hq]
  | remove h =>
    rw [step, onTorrent]
    cases hfind : ts.find? fun t => t.infoHash = h with
    | none => exact ⟨q, hr, rfl, fun p hp => absurd hp (by simp [asked])⟩
    | some t =>
      obtain ⟨ht, rfl⟩ := mem_of_find hfind
      refine ⟨q.erase t.infoHash, hr.remove ht, ?_, fun p hp => absurd hp (by simp [asked])⟩
      exact erase_of_not_mem hr.nodup.not_mem_erase
  | queueUp h =>
    refine queued_onTorrent hr h fun t ht he hfin => ?_
    have hne := hplain t ht he hfin
    have hge := neg_one_le_rank q t.infoHash
    rw [← hr.position t ht] at hge
    unfold upPosition
    split <;> omega
  | queueDown h =>
    refine queued_onTorrent hr h fun t ht _ _ => ?_
    have hge := neg_one_le_rank q t.infoHash
    rw [← hr.position t ht] at hge
    omega
  | setQueuePosition h => exact queued_onTorrent hr h fun _ _ _ _ => hpre
  | finished h => exact queued_onTorrent hr h fun _ _ _ _ => le_refl _
  | resumeDownload h => exact queued_onTorrent hr h fun _ _ _ _ => by decide
  | forceRecheck h accepted finishedAfter =>
    rw [step]
    split
    · rename_i hacc
      obtain ⟨q', hq'⟩ := queued_requeue (hr.modify h (f := fun t => { t with isFinished := finishedAfter })
        fun _ => ⟨rfl, rfl⟩) h
      refine ⟨q', hq'.represents, hq'.others, fun p hp h0 => hq'.place p ?_ h0⟩
      rw [find_modify (f := fun t => { t with isFinished := finishedAfter }) fun _ => rfl, Option.bind_map]
      simpa [asked, hacc, Function.comp_def] using hp
    · rename_i hacc
      refine ⟨q, hr, rfl, fun p hp => absurd hp ?_⟩
      simp [asked, hacc]
  | setAutoManaged h value | setFinished h value =>
    exact ⟨q, hr.modify h fun _ => ⟨rfl, rfl⟩, rfl, fun p hp => absurd hp (by simp [asked])⟩

end

/-- The position of the torrent with an info-hash, `-1` if there is none. -/
def position (ts : List (Torrent H)) (h : H) : Int :=
  match ts.find? fun t => t.infoHash = h with
  | some t => t.sequenceNumber
  | none => -1

def numQueued (ts : List (Torrent H)) : Nat := ts.countP fun t => 0 ≤ t.sequenceNumber

/-- Every position is -1 or not negative, and the positions that are not negative are `0, …, k - 1`, each held by one
torrent. -/
def Contiguous (ts : List (Torrent H)) : Prop :=
  (∀ t ∈ ts, t.sequenceNumber = -1 ∨ 0 ≤ t.sequenceNumber) ∧
    ((ts.map Torrent.sequenceNumber).filter fun n => 0 ≤ n).Perm ((List.range (numQueued ts)).map Int.ofNat)

instance (ts : List (Torrent H)) : Decidable (Contiguous ts) := inferInstanceAs (Decidable (_ ∧ _))

/-- The torrents other than `h` that are queued stay queued, and in their order. -/
def KeepsOrder (ts ts' : List (Torrent H)) (h : H) : Prop :=
  (∀ x, x ≠ h → (0 ≤ position ts' x ↔ 0 ≤ position ts x)) ∧
    ∀ x y, x ≠ h → y ≠ h → 0 ≤ position ts x → 0 ≤ position ts y →
      (position ts' x < position ts' y ↔ position ts x < position ts y)

/-- A call leaves the positions contiguous and the others in their order, and the torrent comes to the position that was
asked for, or to the end. -/
structure Correct (ts : List (Torrent H)) (e : Event H) : Prop where
  contiguous : Contiguous (step ts e)
  order : KeepsOrder ts (step ts e) e.torrent
  place : ∀ p ∈ asked ts e, 0 ≤ p → position (step ts e) e.torrent = min p (numQueued (step ts e) - 1)

section

variable (hr : Represents ts q)
include hr

theorem Represents.position_eq (x : H) : Session.position ts x = rank q x := by
  unfold Session.position
  cases hfind : ts.find? fun t => t.infoHash = x with
  | some t =>
    obtain ⟨ht, rfl⟩ := mem_of_find hfind
    exact hr.position t ht
  | none =>
    have hnot : x ∉ q := by
      intro hx
      obtain ⟨t, ht, rfl⟩ := mem_map.mp (hr.subset x hx)
      simpa using List.find?_eq_none.mp hfind t ht
    exact (rank_of_notMem hnot).symm

theorem Represents.perm : ((ts.filter fun t => 0 ≤ t.sequenceNumber).map Torrent.infoHash).Perm q := by
  rw [perm_ext_iff_of_nodup ((filter_sublist.map _).nodup hr.keys) hr.nodup]
  intro x
  constructor
  · intro hx
    obtain ⟨t, ht, rfl⟩ := mem_map.mp hx
    obtain ⟨ht, hpos⟩ := mem_filter.mp ht
    rw [hr.position t ht] at hpos
    exact rank_nonneg_iff.mp (by simpa using hpos)
  intro hx
  obtain ⟨t, ht, rfl⟩ := mem_map.mp (hr.subset x hx)
  refine mem_map_of_mem (mem_filter.mpr ⟨ht, ?_⟩)
  rw [hr.position t ht]
  simpa using rank_nonneg_iff.mpr hx

theorem Represents.numQueued_eq : numQueued ts = q.length := by
  rw [numQueued, countP_eq_length_filter, ← hr.perm.length_eq, length_map]

theorem Represents.contiguous : Contiguous ts := by
  refine ⟨fun t ht => ?_, ?_⟩
  · have := neg_one_le_rank q t.infoHash
    rw [hr.position t ht]
    omega
  have hmap : (ts.filter fun t => 0 ≤ t.sequenceNumber).map Torrent.sequenceNumber =
      ((ts.filter fun t => 0 ≤ t.sequenceNumber).map Torrent.infoHash).map (rank q) := by
    rw [map_map]
    exact map_congr_left fun t ht => hr.position t (mem_of_mem_filter ht)
  rw [filter_map, hr.numQueued_eq, ← map_rank hr.nodup]
  exact hmap ▸ hr.perm.map _

theorem Queued.correct {q' : List H} (hq : Queued (step ts e) q e.torrent (asked ts e) q') : Correct ts e := by
  have hmem : ∀ x, x ≠ e.torrent → (x ∈ q' ↔ x ∈ q) := by
    intro x hx
    rw [← mem_erase_of_ne hx, hq.others, mem_erase_of_ne hx]
  refine ⟨hq.represents.contiguous, ⟨fun x hx => ?_, fun x y hx hy hxq hyq => ?_⟩, fun p hp h0 => ?_⟩
  · rw [hq.represents.position_eq, hr.position_eq, rank_nonneg_iff, rank_nonneg_iff]
    exact hmem x hx
  · rw [hr.position_eq, rank_nonneg_iff] at hxq hyq
    rw [hq.represents.position_eq, hq.represents.position_eq, hr.position_eq, hr.position_eq,
      ← rank_erase_lt_iff hx hy ((hmem x hx).mpr hxq) ((hmem y hy).mpr hyq), hq.others,
      rank_erase_lt_iff hx hy hxq hyq]
  · rw [hq.represents.position_eq, hq.represents.numQueued_eq]
    exact hq.place p hp h0

theorem position_queueUp (ht : t ∈ ts) (hfin : t.isFinished = false)
    (hout : t.sequenceNumber = -1) : ¬ Contiguous (step ts (.queueUp t.infoHash)) := by
  have hfind := hr.find_eq ht
  have hstep : step ts (.queueUp t.infoHash) =
      shift ts t.infoHash (fun n => if n ≥ -1 ∧ n ≠ -1 then n - 1 else n) (-2) := by
    rw [step, onTorrent, hfind]
    simp [upPosition, setQueuePosition, hfin, hout]
  rw [hstep]
  intro hc
  have := hc.1 _ (mem_map_of_mem ht)
  simp at this

end

theorem represents_nil : Represents ([] : List (Torrent H)) [] :=
  ⟨nodup_nil, nodup_nil, fun _ hx => hx, fun _ ht => absurd ht not_mem_nil⟩

/-- One call is correct exactly if it is not a `queue_up` for a torrent that is neither queued nor finished. -/
theorem correct_iff (hr : Represents ts q) (hpre : AsCallers ts e) : Correct ts e ↔ Plain ts e := by
  constructor
  · intro hc
    cases e with
    | queueUp =>
      rintro t ht rfl hfin hout
      exact position_queueUp hr ht hfin hout hc.contiguous
    | _ => trivial
  · intro hplain
    obtain ⟨q', hq'⟩ := step_spec hr hpre hplain
    exact hq'.correct hr

/-- **The queue positions.** Along a run from an empty session every call is correct exactly if no `queue_up` is for a
torrent that is neither queued nor finished. -/
theorem queue_positions_iff (es : List (Event H)) (hpre : Legal step AsCallers [] es) :
    Legal step Correct [] es ↔ Legal step Plain [] es :=
  legal_iff_legal (Q := fun ts => ∃ q, Represents ts q) (fun ts e hq hpre hplain => by
      obtain ⟨q, hr⟩ := hq
      obtain ⟨q', hq'⟩ := step_spec hr hpre hplain
      exact ⟨q', hq'.represents⟩)
    (fun ts e hq hpre => by
      obtain ⟨q, hr⟩ := hq
      exact correct_iff hr hpre)
    ⟨[], represents_nil⟩ hpre

/-- Three torrents, moved up, down and to the end, one of which finishes and is resumed. -/
def plainRun : List (Event Nat) :=
  [.add 1 true false, .add 2 true false, .add 3 false false, .queueUp 3, .queueDown 1, .setQueuePosition 2 0,
    .setFinished 3 true, .finished 3, .queueUp 3, .setFinished 3 false, .resumeDownload 3, .remove 1]

theorem queue_positions_iff_plainRun : Legal step AsCallers [] plainRun ∧ Legal step Correct [] plainRun ∧
      (run step [] plainRun).map (fun t => (t.infoHash, t.sequenceNumber)) = [(2, 0), (3, 1)] :=
  ⟨by decide, (queue_positions_iff plainRun (by decide)).mpr (by decide), by decide⟩

/-- A torrent that is not auto-managed finishes, is checked again and is not finished any more: it is not queued. -/
def recheckedRun : List (Event Nat) :=
  [.add 1 false false, .add 2 true false, .setFinished 1 true, .finished 1, .forceRecheck 1 true false, .queueUp 1]

/-- `queue_up` then gives it position -2, and the first torrent of the queue position -1. -/
theorem queueUp_of_unqueued : Legal step AsCallers [] recheckedRun ∧ ¬ Legal step Correct [] recheckedRun ∧
    (run step [] recheckedRun).map (fun t => (t.infoHash, t.sequenceNumber)) = [(1, -2), (2, -1)] := by
  refine ⟨by decide, fun h => ?_, by decide⟩
  obtain ⟨-, -, -, -, -, hlast, -⟩ := h
  exact absurd hlast.contiguous (by decide)

end Libtorrent.Session
