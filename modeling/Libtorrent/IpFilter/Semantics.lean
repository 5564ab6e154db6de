import Libtorrent.Lib.Steps
import Libtorrent.Lib.Vec
import Libtorrent.IpFilter.Filter

/-!
# What an IP filter means

The access list is a piecewise constant function in canonical form (`Wf`): it starts at the zero address, its starts
increase and neighbours differ. `add_rule` keeps the form and overwrites the function on a closed interval
(`addRule_spec`), so `access` is decided by the last rule that covers the address, and the exported ranges are a
partition that gives the filter back (`ip_filter_semantics`).
-/

namespace Libtorrent.IpFilter

open Steps Address List Option Nat Vec

variable {α : Type} [DecidableEq α] [Address α] {l A B C M : List (Range α)} {x : Range α} {a first last : α}
  {flags : Int}

def Range.key (r : Range α) : Nat := val r.start

/-- The function of an access list. -/
abbrev den (l : List (Range α)) (n : Nat) : Int := valueAt Range.key Range.access l 0 n

/-- An access list in canonical form. -/
structure Wf (l : List (Range α)) : Prop where
  zero : l.head?.map Range.start = some Address.zero
  canonical : Canonical Range.key Range.access l

/-! ## Iterators -/

theorem upperBound_append (hA : ∀ r ∈ A, r.key ≤ val a) (hC : ∀ r ∈ C.head?, val a < r.key) :
    upperBound (A ++ C) a = A.length :=
  findIdx_append (fun r hr => lt_iff.mpr (hC r hr)) fun r hr => by
    have := hA r hr
    rw [Bool.eq_false_iff, Ne, lt_iff]
    exact not_lt.mpr this

theorem lowerBound_append (hA : ∀ r ∈ A, r.key < val a) (hC : ∀ r ∈ C.head?, val a ≤ r.key) :
    lowerBound (A ++ C) a = A.length := by
  refine findIdx_append (fun r hr => ?_) fun r hr => ?_
  · rw [Bool.not_eq_true', Bool.eq_false_iff, Ne, lt_iff]
    exact not_lt.mpr (hC r hr)
  · rw [Bool.not_eq_false', lt_iff]
    exact hA r hr

theorem insert_append {r : Range α} (hA : ∀ s ∈ A, s.key < r.key) (hC : ∀ s ∈ C.head?, r.key < s.key) :
    insert (A ++ C) r = (A ++ r :: C, A.length) := by
  have hp : lowerBound (A ++ C) r.start = A.length := lowerBound_append hA fun s hs => le_of_lt (hC s hs)
  unfold insert
  rw [hp, if_neg, insertIdx_append_length]
  · rintro ⟨hlt, he⟩
    cases C with
    | nil => simp at hlt
    | cons c =>
      rw [rangeAt, getD_append_length] at he
      have := hC c rfl
      unfold Range.key at this
      rw [he] at this
      omega

theorem rangeAt_concat (A : List (Range α)) (y : Range α) (l : List (Range α)) :
    rangeAt (A ++ [y] ++ l) ((A ++ [y]).length - 1) = y := by
  rw [rangeAt, append_assoc, singleton_append, length_append, length_singleton, Nat.add_sub_cancel, getD_append_length]

theorem access_eq (h : Wf l) (a : α) : access l a = den l (val a) := by
  obtain ⟨A, C, rfl, hA, hC⟩ := exists_split h.canonical.pairwise (val a)
  have hub := upperBound_append hA fun r hr => hC r (mem_of_mem_head? hr)
  have hne : A ≠ [] := by
    rintro rfl
    have hz := h.zero
    rw [nil_append] at hz
    cases C with
    | nil => cases hz
    | cons c =>
      have hc := hC c mem_cons_self
      simp only [List.head?_cons, map_some, some.injEq] at hz
      rw [Range.key, hz, val_zero] at hc
      omega
  obtain ⟨A', x, rfl⟩ := eq_nil_or_concat' A |>.resolve_left hne
  have hval : den (A' ++ [x] ++ C) (val a) = x.access := by
    rw [den, valueAt_append_of_lt fun r hr => hC r (mem_of_mem_head? hr)]
    exact valueAt_concat (fun r hr => hA r (mem_append_left _ hr)) (hA x (by simp))
  rw [hval]
  unfold access
  dsimp only
  rw [hub, if_pos (by simp), rangeAt_concat]

/-! ## One rule -/

/-- An access list as `add_rule` finds it: `x` is the range that `first` lies in, the ranges of `M` start inside the
rule and those of `C` behind it. -/
structure Found (A : List (Range α)) (x : Range α) (M C : List (Range α)) (first last : α) : Prop where
  canonical : Canonical Range.key Range.access (A ++ x :: (M ++ C))
  lead : x.key ≤ val first
  inside : ∀ r ∈ M, val first < r.key ∧ r.key ≤ val last
  behind : ∀ r ∈ C, val last < r.key
  le : val first ≤ val last

namespace Found

variable (F : Found A x M C first last)
include F

theorem key_lt : ∀ r ∈ A, r.key < x.key := fun r hr =>
  (pairwise_append.mp F.canonical.pairwise).2.2 r hr x mem_cons_self

theorem canonical_left : Canonical Range.key Range.access (A ++ [x]) := by
  have h := F.canonical
  rw [← singleton_append, ← append_assoc] at h
  exact h.left_of_append

theorem le_first : ∀ r ∈ A ++ [x], r.key ≤ val first := by
  intro r hr
  rcases mem_append.mp hr with hr | hr
  · exact Nat.le_trans (le_of_lt (F.key_lt r hr)) F.lead
  · rw [mem_singleton.mp hr]
    exact F.lead

theorem lt_rest : ∀ r ∈ M ++ C, val first < r.key := by
  intro r hr
  rcases mem_append.mp hr with hr | hr
  · exact (F.inside r hr).1
  · exact lt_of_le_of_lt F.le (F.behind r hr)

end Found

/-- The ranges in front of the rule, and its own: up to `first` the function is the old one, and the last range has the
flags of the rule. -/
structure Front (A : List (Range α)) (x : Range α) (first : α) (flags : Int) (P : List (Range α)) : Prop where
  canonical : Canonical Range.key Range.access P
  head : P.head?.map Range.start = (A ++ [x]).head?.map Range.start
  le : ∀ r ∈ P, r.key ≤ val first
  last : ∃ P' z, P = P' ++ [z] ∧ z.access = flags
  den : ∀ n < val first, den P n = den (A ++ [x]) n

namespace Found

section

variable (F : Found A x M C first last)
include F

theorem front_split (hs : x.key < val first) (hf : x.access ≠ flags) :
    Front A x first flags (A ++ [x, ⟨first, flags⟩]) := by
  have he : A ++ [x, ⟨first, flags⟩] = (A ++ [x]) ++ [(⟨first, flags⟩ : Range α)] := by simp
  refine ⟨?_, by simp, fun r hr => ?_, ⟨A ++ [x], ⟨first, flags⟩, he, rfl⟩, fun n hn => ?_⟩
  · rw [he]
    refine F.canonical_left.concat fun y hy => ?_
    rw [List.getLast?_append, List.getLast?_singleton, some_or, mem_some_iff] at hy
    exact hy ▸ ⟨hs, hf⟩
  · rw [he] at hr
    rcases mem_append.mp hr with hr | hr
    · exact F.le_first r hr
    · rw [mem_singleton.mp hr]
      exact le_refl _
  · rw [he]
    exact valueAt_concat_of_lt hn

theorem front_join (hs : x.key = val first) {A' : List (Range α)} {y : Range α}
    (hA : A = A' ++ [y]) (hy : y.access = flags) : Front A x first flags A := by
  refine ⟨F.canonical_left.left_of_append, by simp [hA], fun r hr => F.le_first r (mem_append_left _ hr),
    ⟨A', y, hA, hy⟩,
    fun n hn => ?_⟩
  exact (valueAt_concat_of_lt (hs ▸ hn)).symm

theorem front_set (hs : x.key = val first)
    (hA : ∀ y ∈ A.getLast?, y.access ≠ flags) : Front A x first flags (A ++ [⟨first, flags⟩]) := by
  have hx : x.start = first := val_injective hs
  refine ⟨?_, by cases A <;> simp [hx], fun r hr => ?_, ⟨A, ⟨first, flags⟩, rfl, rfl⟩, fun n hn => ?_⟩
  · refine Canonical.concat F.canonical_left.left_of_append fun y hy => ⟨?_, hA y hy⟩
    exact lt_of_lt_of_eq (F.key_lt y (mem_of_getLast? hy)) hs
  · rcases mem_append.mp hr with hr | hr
    · exact F.le_first r (mem_append_left _ hr)
    · rw [mem_singleton.mp hr]
      exact le_refl _
  · have h1 : den (A ++ [⟨first, flags⟩]) n = den A n := valueAt_concat_of_lt hn
    exact h1.trans (valueAt_concat_of_lt (hs ▸ hn)).symm

theorem front_keep (hf : x.access = flags) : Front A x first flags (A ++ [x]) :=
  ⟨F.canonical_left, rfl, F.le_first, ⟨A, x, rfl, hf⟩, fun _ _ => rfl⟩

end

end Found

omit [DecidableEq α] [Address α] in
theorem eraseRange_append (A M C : List (Range α)) :
    eraseRange (A ++ (M ++ C)) A.length (A.length + M.length) = A ++ C := by
  unfold eraseRange
  rw [take_left' rfl, ← append_assoc, drop_left' (by simp)]

theorem overwrite_eq (P M C : List (Range α)) (z : Range α) (flags firstAccess : Int)
    (hz : z.start = first ∨ z.start ≠ first ∧ firstAccess = flags) :
    overwrite (P ++ z :: (M ++ C)) P.length (P.length + 1 + M.length) first flags firstAccess =
      (P ++ (if z.start = first then ⟨first, flags⟩ else z) :: C, P.length + 1) := by
  have he : eraseRange (P ++ z :: (M ++ C)) (P.length + 1) (P.length + 1 + M.length) = P ++ z :: C := by
    have := eraseRange_append (P ++ [z]) M C
    simpa using this
  unfold overwrite
  rw [if_pos (by omega), he]
  dsimp only
  rw [rangeAt, getD_append_length]
  rcases hz with h | ⟨h, hf⟩
  · rw [if_pos h, if_pos h, set_append_length]
  · rw [if_neg h, if_neg h, if_neg (not_not.mpr hf)]

theorem overwrite_splitFirst (F : Found A x M C first last) (flags : Int) :
    ∃ P, Front A x first flags P ∧ ∃ l i j firstAccess,
      splitFirst (A ++ x :: (M ++ C)) A.length (A.length + 1 + M.length) first flags = (l, i, j, firstAccess) ∧
        overwrite l i j first flags firstAccess = (P ++ C, P.length) := by
  have hx : rangeAt (A ++ x :: (M ++ C)) A.length = x := getD_append_length ..
  unfold splitFirst
  rw [hx]
  by_cases ha : x.start ≠ first ∧ x.access ≠ flags
  · have hlt : x.key < val first := lt_of_le_of_ne F.lead fun e => ha.1 (val_injective e)
    have hins : insert (A ++ x :: (M ++ C)) ⟨first, flags⟩ = (A ++ x :: ⟨first, flags⟩ :: (M ++ C), A.length + 1) := by
      have := insert_append (A := A ++ [x]) (C := M ++ C) (r := ⟨first, flags⟩) (fun s hs => ?_)
        fun s hs => F.lt_rest s (mem_of_mem_head? hs)
      · simpa using this
      · rcases mem_append.mp hs with hs | hs
        · exact lt_trans (F.key_lt s hs) hlt
        · rw [mem_singleton.mp hs]
          exact hlt
    refine ⟨_, F.front_split hlt ha.2, _, _, _, _, by rw [if_pos ha, hins], ?_⟩
    have hmoved : moved (A ++ x :: (M ++ C)) (A ++ x :: ⟨first, flags⟩ :: (M ++ C)) (A.length + 1)
        (A.length + 1 + M.length) = (A ++ [x]).length + 1 + M.length := by
      unfold moved
      rw [if_pos (by omega)]
      simp
      omega
    rw [hmoved]
    have := overwrite_eq (A ++ [x]) M C ⟨first, flags⟩ flags x.access (Or.inl rfl)
    simpa using this
  · rw [if_neg ha]
    by_cases hb : A.length ≠ 0 ∧ (rangeAt (A ++ x :: (M ++ C)) (A.length - 1)).access = flags
    · obtain ⟨A', y, rfl⟩ := (eq_nil_or_concat' A).resolve_left (fun h => hb.1 (by rw [h]; rfl))
      have hy := rangeAt_concat A' y (x :: (M ++ C))
      rw [hy] at hb
      have hlink : y.key < x.key ∧ y.access ≠ x.access := by
        have := F.canonical_left
        rw [Canonical, isChain_append] at this
        exact this.2.2 y (by simp) x rfl
      have hs : x.start = first := by
        by_contra hne
        have : x.access = flags := by
          by_contra hf
          exact ha ⟨hne, hf⟩
        exact hlink.2 (hb.2.trans this.symm)
      have hkey : x.key = val first := congrArg val hs
      refine ⟨_, F.front_join hkey rfl hb.2, _, _, _, _, by rw [hy, if_pos hb], ?_⟩
      have hyne : y.start ≠ first := fun e => by
        have : y.key = val first := congrArg val e
        omega
      have := overwrite_eq A' (x :: M) C y flags y.access (Or.inr ⟨hyne, hb.2⟩)
      rw [if_neg hyne] at this
      have hj : (A' ++ [y]).length + 1 + M.length = A'.length + 1 + (x :: M).length := by
        simp
        omega
      rw [hj]
      simpa using this
    · rw [if_neg hb]
      by_cases hs : x.start = first
      · have hA : ∀ y ∈ A.getLast?, y.access ≠ flags := by
          intro y hy hf
          obtain ⟨A', rfl⟩ := List.getLast?_eq_some_iff.mp hy
          exact hb ⟨by simp, by rw [rangeAt_concat, hf]⟩
        refine ⟨_, F.front_set (congrArg val hs) hA, _, _, _, _, rfl, ?_⟩
        have := overwrite_eq A M C x flags x.access (Or.inl hs)
        rw [if_pos hs] at this
        simpa using this
      · have hf : x.access = flags := by
          by_contra hf
          exact ha ⟨hs, hf⟩
        refine ⟨_, F.front_keep hf, _, _, _, _, rfl, ?_⟩
        have := overwrite_eq A M C x flags x.access (Or.inr ⟨hs, hf⟩)
        rw [if_neg hs] at this
        simpa using this

/-- The ranges behind the rule: the function is the old one, and the first range does not continue the rule. -/
structure Back (C : List (Range α)) (last : α) (flags lastAccess : Int) (R : List (Range α)) : Prop where
  canonical : Canonical Range.key Range.access R
  lt : ∀ r ∈ R, val last < r.key
  head : ∀ r ∈ R.head?, r.access ≠ flags
  den : ∀ n, val last < n → n ≤ val (Address.maxAddr : α) →
    valueAt Range.key Range.access R flags n = valueAt Range.key Range.access C lastAccess n

section Behind

variable {lastAccess : Int} (hC : Canonical Range.key Range.access C) (hlt : ∀ r ∈ C, val last < r.key)
  (hne : ∀ r ∈ C.head?, r.access ≠ lastAccess)
include hC hlt hne

theorem back_resume (hlast : last ≠ maxAddr) (hgap : ∀ r ∈ C.head?, val last + 1 < r.key)
    (hf : lastAccess ≠ flags) : Back C last flags lastAccess (⟨plusOne last, lastAccess⟩ :: C) := by
  have hk : Range.key ⟨plusOne last, lastAccess⟩ = val last + 1 := val_plusOne hlast
  refine ⟨?_, fun r hr => ?_, fun r hr => ?_, fun n hn _ => ?_⟩
  · refine isChain_cons.mpr ⟨fun r hr => ⟨?_, (hne r hr).symm⟩, hC⟩
    rw [hk]
    exact hgap r hr
  · rcases mem_cons.mp hr with rfl | hr
    · omega
    · exact hlt r hr
  · cases hr
    exact hf
  · rw [valueAt, if_pos (by omega)]

theorem back_keep (hf : lastAccess = flags) : Back C last flags lastAccess C :=
  ⟨hC, hlt, fun r hr => hf ▸ hne r hr, fun _ _ _ => by rw [hf]⟩

end Behind

theorem back_adjacent {c : Range α} {lastAccess : Int} (hC : Canonical Range.key Range.access (c :: C))
    (hc : c.key = val last + 1) : Back (c :: C) last flags lastAccess (if c.access = flags then C else c :: C) := by
  have hlt : ∀ r ∈ c :: C, val last < r.key := by
    intro r hr
    rcases mem_cons.mp hr with rfl | hr
    · omega
    · have := rel_of_pairwise_cons hC.pairwise hr
      omega
  by_cases hf : c.access = flags
  · rw [if_pos hf]
    refine ⟨hC.of_cons, fun r hr => hlt r (mem_cons_of_mem _ hr), fun r hr => ?_, fun n hn _ => ?_⟩
    · exact hf ▸ ((isChain_cons.mp hC).1 r hr).2.symm
    · rw [valueAt, if_pos (by omega), hf]
  rw [if_neg hf]
  refine ⟨hC, hlt, fun r hr => ?_, fun n hn _ => ?_⟩
  · cases hr
    exact hf
  · rw [valueAt, valueAt, if_pos (by omega), if_pos (by omega)]

theorem val_before {r : Range α} {n : Nat} (h : n < r.key) : val (minusOne r.start) + 1 = r.key :=
  val_minusOne fun e => by
    rw [Range.key, e, val_zero] at h
    omega

/-- The test of the third part of `add_rule`: is there an address between the rule and the next range? -/
theorem gap_iff (hlt : ∀ r ∈ C, val last < r.key) (P : List (Range α)) :
    (P.length < (P ++ C).length ∧ minusOne (rangeAt (P ++ C) P.length).start ≠ last ∨
        P.length = (P ++ C).length ∧ last ≠ maxAddr) ↔ last ≠ maxAddr ∧ ∀ r ∈ C.head?, val last + 1 < r.key := by
  cases C with
  | nil => simp
  | cons c =>
    have hc := hlt c mem_cons_self
    have hmax : last ≠ maxAddr := by
      rintro rfl
      exact absurd (val_le c.start) (not_le.mpr hc)
    have hm := val_before hc
    rw [rangeAt, getD_append_length]
    simp only [length_append, length_cons, List.head?_cons, mem_some_iff, forall_eq']
    constructor
    · rintro (⟨-, h⟩ | ⟨h, -⟩)
      · refine ⟨hmax, ?_⟩
        by_contra hle
        exact h (val_injective (by omega))
      · omega
    · rintro ⟨-, h⟩
      refine Or.inl ⟨by omega, ?_⟩
      rintro rfl
      omega

theorem join_resume (flags : Int) {P : List (Range α)} {lastAccess : Int} (hP : ∀ r ∈ P, r.key ≤ val last)
    (hC : Canonical Range.key Range.access C) (hlt : ∀ r ∈ C, val last < r.key)
    (hne : ∀ r ∈ C.head?, r.access ≠ lastAccess) :
    ∃ R, Back C last flags lastAccess R ∧ ∃ l j, resume (P ++ C) P.length last flags lastAccess = (l, j) ∧
      join l j flags = P ++ R := by
  -- nothing is joined when the next range has other flags
  have hstop : ∀ R : List (Range α), (∀ r ∈ R.head?, r.access ≠ flags) → join (P ++ R) P.length flags = P ++ R := by
    intro R hR
    refine if_neg fun h => ?_
    cases R with
    | nil => simp at h
    | cons r =>
      rw [rangeAt, getD_append_length] at h
      exact hR r rfl h.2
  unfold resume
  by_cases hgap : last ≠ maxAddr ∧ ∀ r ∈ C.head?, val last + 1 < r.key
  · rw [if_pos ((gap_iff hlt P).mpr hgap)]
    by_cases hf : lastAccess = flags
    · have hB : Back C last flags lastAccess C := back_keep hC hlt hne hf
      exact ⟨C, hB, _, _, if_neg (not_not.mpr hf), hstop C hB.head⟩
    have hB := back_resume hC hlt hne hgap.1 hgap.2 hf
    have hk := val_plusOne hgap.1
    have hins : insert (P ++ C) ⟨plusOne last, lastAccess⟩ = (P ++ ⟨plusOne last, lastAccess⟩ :: C, P.length) := by
      refine insert_append (fun r hr => ?_) fun r hr => ?_
      · have := hP r hr
        change _ < val (plusOne last)
        omega
      · have := hgap.2 r hr
        change val (plusOne last) < _
        omega
    exact ⟨_, hB, _, _, by rw [if_pos hf, hins], hstop _ hB.head⟩
  · rw [if_neg (mt (gap_iff hlt P).mp hgap)]
    cases C with
    | nil =>
      have hmax : last = maxAddr := by
        by_contra h
        exact hgap ⟨h, fun r hr => by cases hr⟩
      subst hmax
      exact ⟨[], ⟨hC, hlt, fun r hr => (by cases hr), fun n h1 h2 => by omega⟩, _, _, rfl,
        hstop [] fun r hr => by cases hr⟩
    | cons c =>
      have hc := hlt c mem_cons_self
      have hadj : c.key = val last + 1 := by
        by_contra h
        refine hgap ⟨?_, fun r hr => ?_⟩
        · rintro rfl
          exact absurd (val_le c.start) (not_le.mpr hc)
        · cases hr
          omega
      refine ⟨_, back_adjacent hC hadj, _, _, rfl, ?_⟩
      unfold join
      rw [rangeAt, getD_append_length]
      by_cases hf : c.access = flags
      · rw [if_pos ⟨by simp, hf⟩, if_pos hf, eraseIdx_append_length]
      · rw [if_neg fun h => hf h.2, if_neg hf]

theorem exists_found (h : Wf l) (hle : val first ≤ val last) :
    ∃ A x M C, l = A ++ x :: (M ++ C) ∧ Found A x M C first last := by
  obtain ⟨L, C, rfl, hL, hC⟩ := exists_split h.canonical.pairwise (val last)
  obtain ⟨A, M, rfl, hA, hM⟩ := exists_split (pairwise_append.mp h.canonical.pairwise).1 (val first)
  have hne : A ≠ [] := by
    rintro rfl
    obtain ⟨r, hr, hz⟩ := map_eq_some_iff.mp h.zero
    have hr : r ∈ [] ++ M ++ C := mem_of_mem_head? hr
    have hlt : val first < r.key := by
      rcases mem_append.mp hr with hr | hr
      · exact hM r hr
      · exact lt_of_le_of_lt hle (hC r hr)
    rw [Range.key, hz, val_zero] at hlt
    omega
  obtain ⟨A, x, rfl⟩ := (eq_nil_or_concat' A).resolve_left hne
  have he : A ++ [x] ++ M ++ C = A ++ x :: (M ++ C) := by simp
  exact ⟨A, x, M, C, he, he ▸ h.canonical, hA x (by simp), fun r hr => ⟨hM r hr, hL r (mem_append_right _ hr)⟩, hC, hle⟩

namespace Found

section

variable (F : Found A x M C first last)
include F

theorem upperBound_first : upperBound (A ++ x :: (M ++ C)) first = A.length + 1 := by
  have := upperBound_append F.le_first fun r hr => F.lt_rest r (mem_of_mem_head? hr)
  simpa using this

theorem le_last : ∀ r ∈ A ++ x :: M, r.key ≤ val last := by
  intro r hr
  rw [← singleton_append, ← append_assoc] at hr
  rcases mem_append.mp hr with hr | hr
  · exact Nat.le_trans (F.le_first r hr) F.le
  · exact (F.inside r hr).2

theorem upperBound_last : upperBound (A ++ x :: (M ++ C)) last = A.length + 1 + M.length := by
  have := upperBound_append F.le_last fun r hr => F.behind r (mem_of_mem_head? hr)
  rw [append_assoc, cons_append] at this
  rw [this]
  simp
  omega

theorem exists_last : ∃ D z, A ++ x :: M = D ++ [z] ∧
    rangeAt (A ++ x :: (M ++ C)) (A.length + 1 + M.length - 1) = z ∧ (∀ r ∈ C.head?, r.access ≠ z.access) ∧
    Canonical Range.key Range.access C := by
  obtain ⟨D, z, hz⟩ := (eq_nil_or_concat' (A ++ x :: M)).resolve_left (by simp)
  have he : A ++ x :: (M ++ C) = D ++ z :: C := by
    rw [← cons_append, ← append_assoc, hz]
    simp
  have hlen := congrArg List.length hz
  simp only [length_append, length_cons, length_nil] at hlen
  have hc := F.canonical
  rw [he, Canonical, ← singleton_append, ← append_assoc, isChain_append] at hc
  refine ⟨D, z, hz, ?_, fun r hr => (hc.2.2 z (by simp) r hr).2.symm, hc.2.1⟩
  rw [show A.length + 1 + M.length - 1 = D.length by omega, he, rangeAt, getD_append_length]

theorem den_before {n : Nat} (hn : n < val first) : den (A ++ x :: (M ++ C)) n = den (A ++ [x]) n := by
  rw [← singleton_append, ← append_assoc]
  exact valueAt_append_of_lt fun r hr => lt_trans hn (F.lt_rest r (mem_of_mem_head? hr))

theorem den_behind {D : List (Range α)} {z : Range α} (hz : A ++ x :: M = D ++ [z]) {n : Nat} (hn : val last < n) :
    den (A ++ x :: (M ++ C)) n = valueAt Range.key Range.access C z.access n := by
  have hle : ∀ r ∈ A ++ x :: M, r.key ≤ n := fun r hr => le_of_lt (lt_of_le_of_lt (F.le_last r hr) hn)
  rw [← cons_append, ← append_assoc, den, valueAt_append_of_le hle]
  rw [hz] at hle ⊢
  rw [valueAt_concat (fun r hr => hle r (mem_append_left _ hr)) (hle z (by simp))]

end

end Found

/-- **One rule**: `add_rule` keeps the form of the list and sets the function on the interval of the rule. -/
theorem addRule_spec (h : Wf l) (hle : val first ≤ val last) (flags : Int) :
    Wf (addRule l first last flags) ∧ ∀ n ≤ val (maxAddr : α), den (addRule l first last flags) n =
      if val first ≤ n ∧ n ≤ val last then flags else den l n := by
  obtain ⟨A, x, M, C, rfl, F⟩ := exists_found h hle
  obtain ⟨D, w, hw, hj, hne, hC⟩ := F.exists_last
  obtain ⟨P, hP, l1, i1, j1, firstAccess, hs, ho⟩ := overwrite_splitFirst F flags
  have hPle : ∀ r ∈ P, r.key ≤ val last := fun r hr => Nat.le_trans (hP.le r hr) hle
  obtain ⟨R, hR, l2, j2, hr, hjoin⟩ := join_resume flags hPle hC F.behind hne
  have he : addRule (A ++ x :: (M ++ C)) first last flags = P ++ R := by
    unfold addRule
    dsimp only
    rw [F.upperBound_first, F.upperBound_last, if_pos (Nat.succ_ne_zero _), Nat.add_sub_cancel, hj, hs]
    rw [ho]
    rw [hr]
    exact hjoin
  rw [he]
  obtain ⟨P', z, hPz, hz⟩ := hP.last
  refine ⟨⟨?_, ?_⟩, fun n hn => ?_⟩
  · have h1 := hP.head
    have h2 := h.zero
    rw [hPz] at h1 ⊢
    cases A <;> cases P' <;> simp_all
  · rw [Canonical, isChain_append]
    refine ⟨hP.canonical, hR.canonical, fun y hy r hr => ?_⟩
    rw [hPz, List.getLast?_append, List.getLast?_singleton, some_or, mem_some_iff] at hy
    subst hy
    refine ⟨lt_of_le_of_lt (hPle z (hPz ▸ by simp)) (hR.lt r (mem_of_mem_head? hr)), ?_⟩
    exact hz ▸ (hR.head r hr).symm
  have hflags : val first ≤ n → den P n = flags := by
    intro hf
    have hPn : ∀ r ∈ P, r.key ≤ n := fun r hr => Nat.le_trans (hP.le r hr) hf
    rw [hPz] at hPn ⊢
    rw [den, valueAt_concat (fun r hr => hPn r (mem_append_left _ hr)) (hPn z (by simp)), hz]
  by_cases hf : val first ≤ n
  · by_cases hl : n ≤ val last
    · rw [if_pos ⟨hf, hl⟩, ← hflags hf]
      exact valueAt_append_of_lt fun r hr => lt_of_le_of_lt hl (hR.lt r (mem_of_mem_head? hr))
    · have hl : val last < n := Nat.lt_of_not_le hl
      rw [if_neg (by omega), F.den_behind hw hl, ← hR.den n hl hn, ← hflags hf]
      exact valueAt_append_of_le fun r hr => Nat.le_trans (hP.le r hr) hf
  · have hf : n < val first := Nat.lt_of_not_le hf
    rw [if_neg (by omega), F.den_before hf, ← hP.den n hf]
    refine valueAt_append_of_lt fun r hr => ?_
    have := hR.lt r (mem_of_mem_head? hr)
    omega

/-! ## Sequences of rules -/

def IpRange.Covers (r : IpRange α) (a : α) : Prop := val r.first ≤ val a ∧ val a ≤ val r.last

instance (r : IpRange α) (a : α) : Decidable (r.Covers a) := inferInstanceAs (Decidable (_ ∧ _))

/-- The flags of the last rule that covers the address, or 0. -/
def decided (rules : List (IpRange α)) (a : α) : Int :=
  ((rules.reverse.find? fun r => r.Covers a).map IpRange.flags).getD 0

theorem wf_empty : Wf (empty α) := ⟨rfl, isChain_singleton _⟩

theorem access_empty (a : α) : access (empty α) a = 0 := by
  rw [access_eq wf_empty]
  simp [empty, den, valueAt]

theorem access_addRule (h : Wf l) {r : IpRange α} (hr : val r.first ≤ val r.last) (a : α) :
    access (addRule l r.first r.last r.flags) a = if r.Covers a then r.flags else access l a := by
  have hs := addRule_spec h hr r.flags
  rw [access_eq hs.1, access_eq h, hs.2 _ (val_le a)]
  rfl

theorem ofRules_spec (rules : List (IpRange α)) (h : ∀ r ∈ rules, val r.first ≤ val r.last) :
    Wf (ofRules rules) ∧ ∀ a, access (ofRules rules) a = decided rules a := by
  induction rules using List.reverseRecOn with
  | nil => exact ⟨wf_empty, access_empty⟩
  | append_singleton rules r ih =>
    obtain ⟨hw, ha⟩ := ih fun s hs => h s (mem_append_left _ hs)
    have hle := h r (by simp)
    have he : ofRules (rules ++ [r]) = addRule (ofRules rules) r.first r.last r.flags := by simp [ofRules]
    rw [he]
    refine ⟨(addRule_spec hw hle r.flags).1, fun a => ?_⟩
    rw [access_addRule hw hle, ha, decided, decided, reverse_append, reverse_singleton, singleton_append,
      List.find?_cons]
    by_cases hc : r.Covers a
    · rw [if_pos hc, decide_eq_true hc]
      rfl
    · rw [if_neg hc, decide_eq_false hc]

/-! ## `export_filter` -/

section Decided

variable {r : IpRange α} {rs : List (IpRange α)}

theorem decided_cons (r : IpRange α) (rs : List (IpRange α)) (a : α) : decided (r :: rs) a =
    (((rs.reverse.find? fun s => s.Covers a).or (if r.Covers a then some r else none)).map IpRange.flags).getD 0 := by
  rw [decided, reverse_cons, List.find?_append]
  by_cases h : r.Covers a <;> simp [h]

theorem decided_cons_of_not_covers (h : ¬r.Covers a) : decided (r :: rs) a = decided rs a := by
  rw [decided_cons, if_neg h, or_none, decided]

theorem decided_cons_of_forall (h : ∀ s ∈ rs, ¬s.Covers a) :
    decided (r :: rs) a = if r.Covers a then r.flags else 0 := by
  have hn : (rs.reverse.find? fun s => s.Covers a) = none :=
    List.find?_eq_none.mpr fun s hs => by simpa using h s (mem_reverse.mp hs)
  rw [decided_cons, hn, none_or]
  split <;> rfl

end Decided

theorem exportFilter_cons (r r' : Range α) (l : List (Range α)) : exportFilter (r :: r' :: l) =
    ⟨r.start, minusOne r'.start, r.access⟩ :: exportFilter (r' :: l) := rfl

theorem map_first_exportFilter : ∀ l : List (Range α), (exportFilter l).map IpRange.first = l.map Range.start
  | [] => rfl
  | [_] => rfl
  | r :: r' :: l => by
    rw [exportFilter_cons, map_cons, map_first_exportFilter (r' :: l)]
    rfl

theorem decided_exportFilter (a : α) : ∀ {l : List (Range α)}, Canonical Range.key Range.access l →
    decided (exportFilter l) a = den l (val a)
  | [], _ => rfl
  | [r], _ => by
    rw [exportFilter, decided_cons_of_forall fun s hs => by cases hs]
    have hiff : IpRange.Covers ⟨r.start, maxAddr, r.access⟩ a ↔ r.key ≤ val a :=
      ⟨fun h => h.1, fun h => ⟨h, val_le a⟩⟩
    rw [den, valueAt, valueAt]
    simp only [hiff]
  | r :: r' :: l, h => by
    obtain ⟨⟨hlt, -⟩, hc⟩ := isChain_cons_cons.mp h
    have hm := val_before hlt
    rw [exportFilter_cons, den, valueAt, valueAt]
    by_cases hr' : r'.key ≤ val a
    · have hx : ¬IpRange.Covers ⟨r.start, minusOne r'.start, r.access⟩ a := by
        rintro ⟨-, h2⟩
        change val a ≤ val (minusOne r'.start) at h2
        omega
      rw [decided_cons_of_not_covers hx, decided_exportFilter a hc, if_pos (by omega), if_pos hr', den, valueAt,
        if_pos hr']
    have hrest : ∀ s ∈ exportFilter (r' :: l), ¬s.Covers a := by
      intro s hs hcov
      have hmem := mem_map_of_mem (f := IpRange.first) hs
      rw [map_first_exportFilter] at hmem
      obtain ⟨q, hq, he⟩ := mem_map.mp hmem
      have hle : r'.key ≤ q.key := by
        rcases mem_cons.mp hq with rfl | hq
        · exact le_refl _
        · exact le_of_lt (rel_of_pairwise_cons (Canonical.pairwise hc) hq)
      have h1 := hcov.1
      rw [← he] at h1
      exact hr' (Nat.le_trans hle h1)
    rw [decided_cons_of_forall hrest, if_neg hr']
    have hiff : IpRange.Covers ⟨r.start, minusOne r'.start, r.access⟩ a ↔ r.key ≤ val a := by
      refine ⟨fun h => h.1, fun h => ⟨h, ?_⟩⟩
      change val a ≤ val (minusOne r'.start)
      omega
    simp only [hiff]

/-- The second range starts one behind the end of the first, and has other flags. -/
def Adjoining (x y : IpRange α) : Prop :=
  x.last ≠ Address.maxAddr ∧ y.first = Address.plusOne x.last ∧ x.flags ≠ y.flags

/-- Non-empty ranges that cover all addresses in order, none twice, with different flags on neighbours. -/
structure Partition (rs : List (IpRange α)) : Prop where
  zero : rs.head?.map IpRange.first = some Address.zero
  maxAddr : rs.getLast?.map IpRange.last = some Address.maxAddr
  adjoining : rs.IsChain Adjoining
  proper : ∀ r ∈ rs, val r.first ≤ val r.last

theorem getLast?_exportFilter : ∀ {l : List (Range α)}, l ≠ [] →
    (exportFilter l).getLast?.map IpRange.last = some maxAddr
  | [], h => absurd rfl h
  | [_], _ => rfl
  | r :: r' :: l, _ => by
    have ih := getLast?_exportFilter (l := r' :: l) (by simp)
    obtain ⟨s, hs, he⟩ := map_eq_some_iff.mp ih
    rw [exportFilter_cons, List.getLast?_cons, hs]
    exact congrArg some he

theorem head?_exportFilter (r : Range α) (l : List (Range α)) :
    ∃ last, (exportFilter (r :: l)).head? = some ⟨r.start, last, r.access⟩ := by
  cases l with
  | nil => exact ⟨maxAddr, rfl⟩
  | cons => exact ⟨_, rfl⟩

theorem chain_exportFilter : ∀ {l : List (Range α)}, Canonical Range.key Range.access l →
    (exportFilter l).IsChain Adjoining ∧ ∀ r ∈ exportFilter l, val r.first ≤ val r.last
  | [], _ => ⟨isChain_nil, fun r hr => by cases hr⟩
  | [r], _ => ⟨isChain_singleton _, fun s hs => by
      rw [mem_singleton.mp hs]
      exact val_le _⟩
  | r :: r' :: l, h => by
    obtain ⟨⟨hlt, hne⟩, hc⟩ := isChain_cons_cons.mp h
    obtain ⟨ihc, ihp⟩ := chain_exportFilter hc
    have hm := val_before hlt
    have hmax : minusOne r'.start ≠ maxAddr := by
      intro e
      have := val_le r'.start
      rw [e] at hm
      change r'.key ≤ _ at this
      omega
    rw [exportFilter_cons]
    constructor
    · refine isChain_cons.mpr ⟨fun y hy => ?_, ihc⟩
      obtain ⟨last, hhead⟩ := head?_exportFilter r' l
      rw [hhead, mem_some_iff] at hy
      subst hy
      refine ⟨hmax, val_injective ?_, hne⟩
      have := val_plusOne hmax
      rw [this]
      exact hm.symm
    · intro s hs
      rcases mem_cons.mp hs with rfl | hs
      · change r.key ≤ val (minusOne r'.start)
        omega
      · exact ihp s hs

theorem partition_exportFilter (h : Wf l) : Partition (exportFilter l) := by
  have hne : l ≠ [] := by
    rintro rfl
    cases h.zero
  obtain ⟨hc, hp⟩ := chain_exportFilter h.canonical
  refine ⟨?_, getLast?_exportFilter hne, hc, hp⟩
  rw [← List.head?_map, map_first_exportFilter, List.head?_map]
  exact h.zero

/-- **The IP filter**: the last rule that covers an address decides, and the exported ranges are a partition that gives
the filter back. -/
theorem ip_filter_semantics (rules : List (IpRange α)) (h : ∀ r ∈ rules, val r.first ≤ val r.last) :
    (∀ a, access (ofRules rules) a = decided rules a) ∧ Partition (exportFilter (ofRules rules)) ∧
      ∀ a, access (ofRules (exportFilter (ofRules rules))) a = access (ofRules rules) a := by
  obtain ⟨hw, ha⟩ := ofRules_spec rules h
  have hP := partition_exportFilter hw
  refine ⟨ha, hP, fun a => ?_⟩
  rw [(ofRules_spec _ hP.proper).2, decided_exportFilter a hw.canonical, access_eq hw]

def portRules : List (IpRange UInt16) := [⟨10, 20, 1⟩, ⟨15, 0xffff, 2⟩]

theorem ip_filter_semantics_portRules : (∀ a, access (ofRules portRules) a = decided portRules a) ∧
      Partition (exportFilter (ofRules portRules)) ∧
      ∀ a, access (ofRules (exportFilter (ofRules portRules))) a = access (ofRules portRules) a :=
  ip_filter_semantics portRules (by decide)

end Libtorrent.IpFilter
