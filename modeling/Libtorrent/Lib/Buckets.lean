import Mathlib.Data.Finset.Card

/-!
# Arrays sorted into buckets

`Layout prio n arr bnd`: the first `n` slots of `arr` hold exactly the elements that have a bucket under `prio`, each
once, sorted by bucket, and `bnd q` is the end of bucket `q`. An element changes its bucket by one swap per bucket on
the way:

* `up`, `down`: to the next or the previous bucket, by a swap with the last or the first element of its bucket;
* `replace`, `displace`, `push`: a new element takes a slot of its bucket from an element of the same bucket, the slot
  after its bucket from the first element of a later bucket, or the slot after the array;
* `pop`: the last element leaves;
* `swap`: two elements of one bucket change places.
-/

namespace Libtorrent.Buckets

open Function Nat

variable {α : Type}

structure Layout (prio : α → Option Nat) (n : Nat) (arr : Nat → α) (bnd : Nat → Nat) : Prop where
  inj : ∀ i < n, ∀ j < n, arr i = arr j → i = j
  mem : ∀ i < n, ∃ r, prio (arr i) = some r
  surj : ∀ p r, prio p = some r → ∃ i < n, arr i = p
  le : ∀ q, bnd q ≤ n
  file : ∀ i < n, ∀ r, prio (arr i) = some r → ∀ q, i < bnd q ↔ r ≤ q

namespace Layout

variable {prio : α → Option Nat} {n : Nat} {arr : Nat → α} {bnd : Nat → Nat}

variable {q r i m h t : Nat} {bnd' : Nat → Nat} {c : α}

theorem mono (L : Layout prio n arr bnd) (h : q ≤ r) : bnd q ≤ bnd r := by
  by_contra hlt
  have hn := L.le q
  have hi : bnd r < n := by omega
  obtain ⟨m, hm⟩ := L.mem (bnd r) hi
  have hq := (L.file (bnd r) hi m hm q).mp (by omega)
  have hr := (L.file (bnd r) hi m hm r).mpr (by omega)
  omega

theorem mem_bucket (L : Layout prio n arr bnd) (hlo : q = 0 ∨ bnd (q - 1) ≤ i) (hhi : i < bnd q) :
    prio (arr i) = some q := by
  have hi : i < n := lt_of_lt_of_le hhi (L.le q)
  obtain ⟨r, hr⟩ := L.mem i hi
  have h1 := (L.file i hi r hr q).mp hhi
  rcases hlo with rfl | hlo
  · rw [hr]; congr 1; omega
  by_cases h2 : r ≤ q - 1
  · have := (L.file i hi r hr (q - 1)).mpr h2
    omega
  · rw [hr]; congr 1; omega

theorem bucket_bounds (L : Layout prio n arr bnd) (hi : i < n) (h : prio (arr i) = some q) :
    i < bnd q ∧ (q = 0 ∨ bnd (q - 1) ≤ i) := by
  refine ⟨(L.file i hi q h q).mpr (le_refl q), ?_⟩
  by_cases hq : q = 0
  · exact Or.inl hq
  have := L.file i hi q h (q - 1)
  right
  by_contra hlt
  have := this.mp (by omega)
  omega

theorem length_le {arr : Nat → Nat} {prio : Nat → Option Nat} (L : Layout prio n arr bnd)
    (hrange : ∀ k < n, arr k < m) : n ≤ m := by
  have := Finset.card_le_card_of_injOn (s := Finset.range n) (t := Finset.range m) arr
    (fun k hk => by simpa using hrange k (by simpa using hk))
    (fun i hi j hj h => L.inj i (by simpa using hi) j (by simpa using hj) h)
  simpa using this

theorem fresh (L : Layout prio n arr bnd) (hc : prio c = none) : ∀ i < n, arr i ≠ c := by
  rintro i hi rfl
  obtain ⟨r, hr⟩ := L.mem i hi
  rw [hc] at hr
  cases hr

theorem congr {prio' : α → Option Nat} {arr' : Nat → α} (L : Layout prio n arr bnd) (hp : ∀ p, prio' p = prio p)
    (ha : ∀ i < n, arr' i = arr i) (hb : ∀ q, bnd' q = bnd q) : Layout prio' n arr' bnd' where
  inj i hi j hj h := L.inj i hi j hj (by rwa [ha i hi, ha j hj] at h)
  mem i hi := by rw [ha i hi, hp]; exact L.mem i hi
  surj p r h := by
    obtain ⟨i, hi, he⟩ := L.surj p r (by rwa [hp] at h)
    exact ⟨i, hi, (ha i hi).trans he⟩
  le q := by rw [hb]; exact L.le q
  file i hi r h q := by
    rw [hb]
    rw [ha i hi, hp] at h
    exact L.file i hi r h q

/-! ## One element moves to a neighbouring bucket -/

/-- Slots `h` and `t` exchange their elements. -/
def swapped (arr : Nat → α) (h t : Nat) : Nat → α := update (update arr h (arr t)) t (arr h)

theorem swapped_left (arr : Nat → α) (h t : Nat) : swapped arr h t h = arr t := by
  by_cases e : h = t
  · subst e; simp [swapped]
  · simp [swapped, update_of_ne e]

theorem swapped_right (arr : Nat → α) (h t : Nat) : swapped arr h t t = arr h := by simp [swapped]

theorem swapped_of_ne (arr : Nat → α) (hh : i ≠ h) (ht : i ≠ t) : swapped arr h t i = arr i := by
  simp [swapped, update_of_ne ht, update_of_ne hh]

/-- A swapped array is the old one read through the transposition. -/
theorem swapped_eq (arr : Nat → α) (h t i : Nat) : swapped arr h t i = arr (Equiv.swap h t i) := by
  rw [Equiv.swap_apply_def]
  split_ifs with h1 h2
  · rw [h1, swapped_left]
  · rw [h2, swapped_right]
  · exact swapped_of_ne arr h1 h2

theorem swap_lt (hh : h < n) (ht : t < n) (hi : i < n) : Equiv.swap h t i < n := by
  rw [Equiv.swap_apply_def]
  split_ifs <;> assumption

/-- Slot `t` is written with an element that is not in the array. -/
theorem update_inj (inj : ∀ i < n, i ≠ t → ∀ j < n, j ≠ t → arr i = arr j → i = j)
    (fresh : ∀ i < n, i ≠ t → arr i ≠ c) : ∀ i < n, ∀ j < n, update arr t c i = update arr t c j → i = j := by
  intro i hi j hj e
  by_cases h1 : i = t
  · by_cases h2 : j = t
    · rw [h1, h2]
    · rw [h1, update_self, update_of_ne h2] at e
      exact absurd e.symm (fresh j hj h2)
  by_cases h2 : j = t
  · rw [h2, update_self, update_of_ne h1] at e
    exact absurd e (fresh i hi h1)
  · rw [update_of_ne h1, update_of_ne h2] at e
    exact inj i hi h1 j hj h2 e

section

variable [DecidableEq α] (L : Layout prio n arr bnd)
include L

/-- A swap with an element whose slot lies on the same side of every boundary that stays, after which the moved
element `arr h` belongs to bucket `m`. -/
theorem move (hh : h < n) (ht : t < n) (hle : ∀ q, bnd' q ≤ n)
    (hkeep : ∀ i < n, i ≠ t → i ≠ h → ∀ q, i < bnd' q ↔ i < bnd q) (hother : h ≠ t → ∀ q, h < bnd' q ↔ t < bnd q)
    (hmoved : ∀ q, t < bnd' q ↔ m ≤ q) : Layout (update prio (arr h) (some m)) n (swapped arr h t) bnd' := by
  have hne : ∀ i < n, i ≠ h → arr i ≠ arr h := fun i hi hi' e => hi' (L.inj i hi h hh e)
  refine ⟨fun i hi j hj e => ?_, ?_, ?_, hle, ?_⟩
  · rw [swapped_eq, swapped_eq] at e
    exact (Equiv.swap h t).injective (L.inj _ (swap_lt hh ht hi) _ (swap_lt hh ht hj) e)
  · intro i hi
    by_cases e : swapped arr h t i = arr h
    · exact ⟨m, by rw [e, update_self]⟩
    rw [update_of_ne e, swapped_eq]
    exact L.mem _ (swap_lt hh ht hi)
  · intro p r hp
    by_cases e : p = arr h
    · exact ⟨t, ht, by rw [swapped_right, e]⟩
    · rw [update_of_ne e] at hp
      obtain ⟨i, hi, rfl⟩ := L.surj p r hp
      exact ⟨Equiv.swap h t i, swap_lt hh ht hi, by rw [swapped_eq, Equiv.swap_apply_self]⟩
  · intro i hi r hr q
    by_cases h2 : i = t
    · subst h2
      rw [swapped_right, update_self] at hr
      cases hr
      exact hmoved q
    by_cases h1 : i = h
    · subst h1
      rw [swapped_left, update_of_ne (hne t ht (fun e => h2 e.symm))] at hr
      rw [hother h2 q]
      exact L.file t ht r hr q
    · rw [swapped_of_ne arr h1 h2, update_of_ne (hne i hi h1)] at hr
      rw [hkeep i hi h2 h1 q]
      exact L.file i hi r hr q

/-- The same where only the end of bucket `q` changes. -/
theorem moveEnd {b : Nat} (hh : h < n) (ht : t < n) (hle : b ≤ n)
    (hkeep : ∀ i < n, i ≠ t → i ≠ h → (i < b ↔ i < bnd q)) (hother : h ≠ t → (h < b ↔ t < bnd q))
      (hmoved : t < b ↔ m ≤ q)
    (hrest : ∀ r, r ≠ q → (h < bnd r ↔ t < bnd r) ∧ (t < bnd r ↔ m ≤ r)) :
    Layout (update prio (arr h) (some m)) n (swapped arr h t) (update bnd q b) := by
  have hbnd (P : Nat → Nat → Prop) (hq : P q b) (hr : ∀ r, r ≠ q → P r (bnd r)) (r : Nat) : P r (update bnd q b r) := by
    by_cases e : r = q
    · rw [e, update_self]
      exact hq
    · rw [update_of_ne e]
      exact hr r e
  refine L.move hh ht ?_ ?_ ?_ ?_
  · exact hbnd (fun _ x => x ≤ n) hle fun r _ => L.le r
  · exact fun i hi hit hih => hbnd (fun r x => i < x ↔ i < bnd r) (hkeep i hi hit hih) fun _ _ => Iff.rfl
  · exact fun hne => hbnd (fun r x => h < x ↔ t < bnd r) (hother hne) fun r hr => (hrest r hr).1
  · exact hbnd (fun r x => t < x ↔ m ≤ r) hmoved fun r hr => (hrest r hr).2

/-- **To the next bucket**, past its last element. -/
theorem up (hh : h < n) (hp : prio (arr h) = some q) :
    Layout (update prio (arr h) (some (q + 1))) n (swapped arr h (bnd q - 1)) (update bnd q (bnd q - 1)) := by
  have hf := L.file h hh q hp
  have hq := (hf q).mpr (le_refl q)
  have hn := L.le q
  refine L.moveEnd hh (by omega) (by omega) (fun i _ _ _ => by omega) (fun _ => by omega) (by omega) fun r hr => ?_
  rcases lt_or_gt_of_ne hr with hlt | hgt
  · have hdn : bnd r ≤ h := by
      by_contra hc
      have := (hf r).mp (by omega)
      omega
    omega
  · have hup : bnd q ≤ bnd r := L.mono (by omega)
    omega

/-- **To the previous bucket**, before its own first element. -/
theorem down (hh : h < n) (hp : prio (arr h) = some (q + 1)) :
    Layout (update prio (arr h) (some q)) n (swapped arr h (bnd q)) (update bnd q (bnd q + 1)) := by
  have hf := L.file h hh (q + 1) hp
  have hq : bnd q ≤ h := by
    by_contra hc
    have := (hf q).mp (by omega)
    omega
  refine L.moveEnd hh (by omega) (by omega) (fun i _ _ _ => by omega) (fun _ => by omega) (by omega) fun r hr => ?_
  rcases lt_or_gt_of_ne hr with hlt | hgt
  · have hdn : bnd r ≤ bnd q := L.mono (by omega)
    omega
  · have hup : h < bnd r := (hf r).mpr (by omega)
    omega

/-- **Two elements of one bucket** change places. -/
theorem swap (hh : h < n) (ht : t < n) (he : prio (arr h) = prio (arr t)) : Layout prio n (swapped arr h t) bnd := by
  obtain ⟨m, hm⟩ := L.mem h hh
  have hside : ∀ q, h < bnd q ↔ t < bnd q := by
    intro q
    rw [L.file h hh m hm q, L.file t ht m (by rw [← he, hm]) q]
  have := L.move hh ht L.le (fun _ _ _ _ _ => Iff.rfl) (fun _ => hside)
    (fun q => L.file t ht m (by rw [← he, hm]) q)
  rwa [← hm, update_eq_self] at this

/-! ## Elements come and go -/

/-- The element of slot `t` makes room for a new one, which belongs to bucket `m`. -/
theorem put (ht : t < n) (hc : prio c = none)
    (hle : ∀ q, bnd' q ≤ n) (hkeep : ∀ i < n, i ≠ t → ∀ q, i < bnd' q ↔ i < bnd q) (hnew : ∀ q, t < bnd' q ↔ m ≤ q) :
    Layout (update (update prio (arr t) none) c (some m)) n (update arr t c) bnd' := by
  have hfresh := L.fresh hc
  have hne : ∀ i < n, i ≠ t → arr i ≠ arr t := fun i hi hi' e => hi' (L.inj i hi t ht e)
  have hval : ∀ i < n, i ≠ t → update (update prio (arr t) none) c (some m) (arr i) = prio (arr i) := by
    intro i hi hit
    rw [update_of_ne (hfresh i hi), update_of_ne (hne i hi hit)]
  refine ⟨?_, ?_, ?_, hle, ?_⟩
  · exact update_inj (fun i hi _ j hj _ => L.inj i hi j hj) fun i hi _ => hfresh i hi
  · intro i hi
    by_cases h1 : i = t
    · exact ⟨m, by rw [h1, update_self, update_self]⟩
    · rw [update_of_ne h1, hval i hi h1]
      exact L.mem i hi
  · intro p r hp
    by_cases h1 : p = c
    · exact ⟨t, ht, by rw [update_self, h1]⟩
    rw [update_of_ne h1] at hp
    by_cases h2 : p = arr t
    · rw [h2, update_self] at hp
      cases hp
    rw [update_of_ne h2] at hp
    obtain ⟨i, hi, rfl⟩ := L.surj p r hp
    have h3 : i ≠ t := fun e => h2 (by rw [e])
    exact ⟨i, hi, by rw [update_of_ne h3]⟩
  · intro i hi r hr q
    by_cases h1 : i = t
    · subst h1
      rw [update_self, update_self] at hr
      cases hr
      exact hnew q
    · rw [update_of_ne h1, hval i hi h1] at hr
      rw [hkeep i hi h1 q]
      exact L.file i hi r hr q

/-- **Replace**: a new element of bucket `q` takes the slot of an element of bucket `q`. -/
theorem replace (ht : t < n) (hc : prio c = none) (hq : prio (arr t) = some q) :
    Layout (update (update prio (arr t) none) c (some q)) n (update arr t c) bnd :=
  L.put ht hc L.le (fun _ _ _ _ => Iff.rfl) (L.file t ht q hq)

/-- **Displace**: a new element of bucket `q` takes the slot after its bucket; all buckets up to that of the old
element end one slot later. -/
theorem displace (ht : bnd q < n) (hc : prio c = none) (hr : prio (arr (bnd q)) = some r) :
    Layout (update (update prio (arr (bnd q)) none) c (some q)) n
      (update arr (bnd q) c) (fun x => if q ≤ x ∧ x < r then bnd x + 1 else bnd x) := by
  have hf := L.file (bnd q) ht r hr
  -- the buckets between `q` and `r` are empty
  have heq : ∀ x, q ≤ x → x < r → bnd x = bnd q := by
    intro x hqx hxr
    have h1 := L.mono hqx
    have h2 : ¬ bnd q < bnd x := fun h => by have := (hf x).mp h; omega
    omega
  have hqr : q < r := by
    by_contra hc'
    have := (hf q).mpr (by omega)
    omega
  refine L.put ht hc ?_ ?_ ?_
  · intro x
    split
    · rename_i hx; rw [heq x hx.1 hx.2]; omega
    · exact L.le x
  · intro i hi hit x
    split
    · rename_i hx; rw [heq x hx.1 hx.2]; omega
    · exact Iff.rfl
  · intro x
    split
    · rename_i hx; rw [heq x hx.1 hx.2]; omega
    · rename_i hx
      rw [hf x]
      omega

/-- **Push**: a new element of the last bucket that is not empty, or of a later one. -/
theorem push (hq : bnd q = n) (hc : prio c = none) : Layout (update prio c (some q)) (n + 1) (update arr n c)
      (fun x => if q ≤ x then bnd x + 1 else bnd x) := by
  have hfresh := L.fresh hc
  have htop : ∀ x, q ≤ x → bnd x = n := fun x hx => by have := L.mono hx; have := L.le x; omega
  refine ⟨?_, ?_, ?_, ?_, ?_⟩
  · exact update_inj (fun i _ _ j _ _ => L.inj i (by omega) j (by omega)) fun i _ _ => hfresh i (by omega)
  · intro i hi
    by_cases h1 : i = n
    · exact ⟨q, by rw [h1, update_self, update_self]⟩
    · rw [update_of_ne h1, update_of_ne (hfresh i (by omega))]
      exact L.mem i (by omega)
  · intro p r hp
    by_cases h1 : p = c
    · exact ⟨n, by omega, by rw [update_self, h1]⟩
    · rw [update_of_ne h1] at hp
      obtain ⟨i, hi, rfl⟩ := L.surj p r hp
      exact ⟨i, by omega, by rw [update_of_ne (by omega)]⟩
  · intro x
    have := L.le x
    split <;> omega
  · intro i hi r hr x
    by_cases h1 : i = n
    · subst h1
      rw [update_self, update_self] at hr
      cases hr
      have := L.le x
      split
      · rename_i hx; have := htop x hx; omega
      · omega
    · rw [update_of_ne h1, update_of_ne (hfresh i (by omega))] at hr
      have hf := L.file i (by omega) r hr x
      split
      · rename_i hx; have := htop x hx; omega
      · exact hf

end

/-- **Pop**: the last element leaves. -/
theorem pop [DecidableEq α] (L : Layout prio (n + 1) arr bnd) :
    Layout (update prio (arr n) none) n arr (fun x => min (bnd x) n) := by
  have hne : ∀ i < n, arr i ≠ arr n := fun i hi e => by
    have := L.inj i (by omega) n (by omega) e
    omega
  refine ⟨?_, ?_, ?_, ?_, ?_⟩
  · intro i hi j hj e
    exact L.inj i (by omega) j (by omega) e
  · intro i hi
    rw [update_of_ne (hne i hi)]
    exact L.mem i (by omega)
  · intro p r hp
    by_cases h1 : p = arr n
    · rw [h1, update_self] at hp
      cases hp
    rw [update_of_ne h1] at hp
    obtain ⟨i, hi, rfl⟩ := L.surj p r hp
    have : i ≠ n := fun e => h1 (by rw [e])
    exact ⟨i, by omega, rfl⟩
  · intro x
    exact min_le_right _ _
  · intro i hi r hr x
    rw [update_of_ne (hne i hi)] at hr
    have := L.file i (by omega) r hr x
    omega

end Layout

end Libtorrent.Buckets
