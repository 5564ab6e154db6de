import Libtorrent.Picker.Add
import Libtorrent.Picker.Ops
import Libtorrent.Picker.Rebuild

/-!
# A piece changes and moves in the index

`Touched s₀ s p`: the picker `s` differs from `s₀` in the data of piece `p`, and in nothing else that the index depends
on. If `s₀` is indexed, then after the operation's call of `add`, `update` or `remove` the picker is indexed again.

`Sound s` is the invariant: the index files every piece under its priority, unless `m_dirty` is set.
-/

namespace Libtorrent.Picker

open PiecePos

/-- A `piece_pos` without the `full` flag, which the index does not depend on. -/
def PiecePos.key (p : PiecePos) : PiecePos := { p with full := false }

theorem PiecePos.key_priority {p p' : PiecePos} (h : p'.key = p.key) (seeds : Nat) :
    p'.priority seeds = p.priority seeds := by
  cases p
  cases p'
  obtain ⟨rfl, rfl, rfl, rfl⟩ := h
  rfl

theorem PiecePos.key_index {p p' : PiecePos} (h : p'.key = p.key) : p'.index = p.index := by
  have := congrArg index h
  simpa [key] using this

namespace PiecePicker

variable {s s' s₀ s₁ : PiecePicker} {p q rnd : Nat}

/-- The index files every piece under its priority, unless it is to be rebuilt. -/
structure Sound (s : PiecePicker) : Prop where
  size : s.numPieces < weHaveIndex
  indexed : s.dirty = false → Indexed s

/-- Only piece `p` differs, as far as the index is concerned. -/
structure Touched (s₀ s : PiecePicker) (p : Nat) : Prop where
  pieces : s.pieces = s₀.pieces
  boundries : s.priorityBoundries = s₀.priorityBoundries
  seeds : s.seeds = s₀.seeds
  num : s.numPieces = s₀.numPieces
  dirty : s.dirty = s₀.dirty
  other : ∀ i, i ≠ p → (s.pos i).key = (s₀.pos i).key

namespace Touched

theorem refl (s : PiecePicker) (p : Nat) : Touched s s p := ⟨rfl, rfl, rfl, rfl, rfl, fun _ _ => rfl⟩

theorem trans (h1 : Touched s₀ s₁ p) (h2 : Touched s₁ s p) : Touched s₀ s p :=
  ⟨h2.pieces.trans h1.pieces, h2.boundries.trans h1.boundries, h2.seeds.trans h1.seeds, h2.num.trans h1.num,
    h2.dirty.trans h1.dirty, fun i hi => (h2.other i hi).trans (h1.other i hi)⟩

theorem modifyPos (s : PiecePicker) (p : Nat) (f : PiecePos → PiecePos) : Touched s (s.modifyPos p f) p where
  pieces := rfl
  boundries := rfl
  seeds := rfl
  num := numPieces_modifyPos s p f
  dirty := rfl
  other i hi := by rw [pos_modifyPos, if_neg (fun h => hi h.1.symm)]

section

variable (T : Touched s₀ s p)
include T

theorem piece : s.piece = s₀.piece := by
  funext k
  simp only [PiecePicker.piece, T.pieces]

theorem bnd : s.bnd = s₀.bnd := by
  funext k
  simp only [PiecePicker.bnd, T.pieces, T.boundries]

theorem priority_of_ne {i : Nat} (hi : i ≠ p) : s.priority i = s₀.priority i := by
  unfold PiecePicker.priority
  rw [T.seeds]
  exact key_priority (T.other i hi) _

theorem update_priority : Function.update s.priority p (s₀.priority p) = s₀.priority := by
  funext i
  by_cases h : i = p
  · rw [h, Function.update_self]
  · rw [Function.update_of_ne h, T.priority_of_ne h]

theorem priority_eq (h : s.priority p = s₀.priority p) : s.priority = s₀.priority := by
  rw [← T.update_priority, ← h, Function.update_eq_self]

theorem closed (h : s₀.Closed) : s.Closed := by
  unfold Closed
  rw [T.bnd, T.boundries, T.pieces]
  exact h

/-- Whatever the change, the pieces are still filed as they were if `p` is in no slot or keeps its back pointer. -/
theorem filed (I : Indexed s₀)
    (h : s₀.priority p = none ∨ (s.pos p).index = (s₀.pos p).index) : Filed s s₀.priority := by
  refine ⟨?_, ?_, T.closed I.closed, ?_⟩
  · rw [T.pieces, T.piece, T.bnd]
    exact I.layout
  · intro k hk
    rw [T.pieces] at hk
    rw [T.piece]
    by_cases e : s₀.piece k = p
    · rcases h with h | h
      · obtain ⟨r, hr⟩ := I.layout.mem k hk
        rw [e, h] at hr
        cases hr
      · rw [e, h, ← e]
        exact I.back k hk
    · rw [key_index (T.other _ e)]
      exact I.back k hk
  · rw [T.num]
    exact I.range

theorem holed (I : Indexed s₀) (hq : s₀.priority p = some q) :
    Holed s s₀.priority p (s₀.pos p).index ∧ s.piece (s₀.pos p).index = p := by
  obtain ⟨k, hk, hp⟩ := I.layout.surj p q hq
  have hback : (s₀.pos p).index = k := by rw [← hp]; exact I.back k hk
  have hpiece : s.piece k = p := by rw [T.piece]; exact hp
  rw [hback]
  refine ⟨⟨?_, by rw [T.pieces]; exact hk, ?_, ?_⟩, hpiece⟩
  · rw [T.pieces, T.bnd, T.piece, ← hp, Function.update_eq_self]
    exact I.layout
  · intro j hj hjk
    rw [T.pieces] at hj
    have hne : s₀.piece j ≠ p := fun e => hjk (I.layout.inj j hj k hk (e.trans hp.symm))
    rw [T.piece, key_index (T.other _ hne)]
    exact I.back j hj
  · rw [T.num]
    exact I.range

end

end Touched

theorem Indexed.of_touched (T : Touched s₀ s p) (I : Indexed s₀) (h : (s.pos p).key = (s₀.pos p).key) : Indexed s := by
  have hpr : s.priority p = s₀.priority p := by
    unfold PiecePicker.priority
    rw [T.seeds]
    exact key_priority h _
  unfold Indexed
  rw [T.priority_eq hpr]
  exact T.filed I (Or.inr (key_index h))

theorem Sound.of_touched (T : Touched s₀ s p) (h : Sound s₀) (hkey : (s.pos p).key = (s₀.pos p).key) : Sound s where
  size := by rw [T.num]; exact h.size
  indexed hd := Indexed.of_touched T (h.indexed (by rw [← T.dirty]; exact hd)) hkey

theorem Sound.length_le (h : Sound s) (hd : s.dirty = false) : s.pieces.length < weHaveIndex :=
  Nat.lt_of_le_of_lt (h.indexed hd).length_le h.size

/-! ## The calls of the operations -/

section

variable (T : Touched s₀ s p) (rnd) (h : Sound s₀) (hd : s₀.dirty = false)
include T h hd

theorem Touched.update (hq : s₀.priority p = some q) (hindex : (s.pos p).index = (s₀.pos p).index) :
    Indexed (s.update q (s.pos p).index rnd) ∧ SameHave s (s.update q (s.pos p).index rnd) := by
  have I := h.indexed hd
  obtain ⟨H, hpiece⟩ := T.holed I hq
  have hlt : q < s.priorityBoundries.length := by rw [T.boundries]; exact I.lt_boundries hq
  rw [← T.update_priority, hq] at H
  rw [hindex]
  exact update_indexed H hpiece hindex hlt (T.closed I.closed)
    (by rw [T.pieces]; exact Nat.le_of_lt (h.length_le hd)) rnd

theorem Touched.add (hnone : s₀.priority p = none)
    (hsome : s.priority p ≠ none) : Indexed (s.add p rnd) ∧ SameHave s (s.add p rnd) := by
  obtain ⟨q, hq⟩ := Option.ne_none_iff_exists'.mp hsome
  have F := T.filed (h.indexed hd) (Or.inl hnone)
  rw [← T.update_priority, hnone] at F
  have hsize := h.size
  exact add_indexed F hq (by rw [T.pieces]; exact h.length_le hd) (by rw [T.num]; omega) rnd

end

/-- **`remove` after a change of `p`**, which is not to be picked any more. -/
theorem Touched.remove (T : Touched s₀ s p) (h : Sound s₀) (hd : s₀.dirty = false) (hq : s₀.priority p = some q)
    (hnone : s.priority p = none) :
    Indexed (s.remove q (s₀.pos p).index) ∧ SameHave s (s.remove q (s₀.pos p).index) := by
  have I := h.indexed hd
  obtain ⟨H, -⟩ := T.holed I hq
  have hlt : q < s.priorityBoundries.length := by rw [T.boundries]; exact I.lt_boundries hq
  obtain ⟨F, hs⟩ := remove_filed H hq hlt (T.closed I.closed) (by rw [T.pieces]; exact Nat.le_of_lt (h.length_le hd))
  refine ⟨?_, hs⟩
  unfold Indexed
  rw [(frame_remove s q _).priority_eq hs]
  have : Function.update s₀.priority p none = s.priority := by
    rw [← T.update_priority, Function.update_idem, ← hnone, Function.update_eq_self]
  rwa [this] at F

theorem frame_updateFrom (s : PiecePicker) (prev : Option Nat) (index rnd : Nat) :
    Frame s (s.updateFrom prev index rnd) := by
  unfold updateFrom
  split
  · exact Frame.refl s
  · split
    · exact Frame.refl s
    · exact frame_update _ _ _ _

theorem frame_refile (s : PiecePicker) (prev : Option Nat) (index rnd : Nat) : Frame s (s.refile prev index rnd) := by
  unfold refile
  split
  · exact Frame.refl s
  · split
    · exact frame_add _ _ _
    · exact frame_update _ _ _ _

theorem Sound.of_frame (F : Frame s s') (hsize : s.numPieces < weHaveIndex) (h : s'.dirty = false → Indexed s') :
    Sound s' :=
  ⟨by rw [F.numPieces]; exact hsize, h⟩

section

variable (T : Touched s₀ s p) (h : Sound s₀)
include T h

theorem Touched.indexed (hpr : s.priority p = s₀.priority p)
    (hi : s₀.priority p = none ∨ (s.pos p).index = (s₀.pos p).index) (hd : s.dirty = false) : Indexed s := by
  unfold Indexed
  rw [T.priority_eq hpr]
  exact T.filed (h.indexed (by rw [← T.dirty]; exact hd)) hi

theorem Touched.sound_of_frame (F : Frame s s') (hmain : (s'.dirty = false → Indexed s') ∧ SameHave s s') :
    Sound s' ∧ SameHave s s' :=
  ⟨Sound.of_frame F (by rw [T.num]; exact h.size) hmain.1, hmain.2⟩

end

section

variable (T : Touched s₀ s p) (rnd) (h : Sound s₀) (hindex : (s.pos p).index = (s₀.pos p).index)
include T h hindex

/-- **`refile`** restores the invariant after a change of `p` that keeps its back pointer. -/
theorem Touched.refile : Sound (s.refile (s₀.priority p) p rnd) ∧ SameHave s (s.refile (s₀.priority p) p rnd) := by
  refine T.sound_of_frame h (frame_refile s (s₀.priority p) p rnd) ?_
  unfold PiecePicker.refile
  split
  · rename_i hcond
    refine ⟨fun hd => ?_, fun _ => rfl⟩
    exact T.indexed h (hcond.resolve_left (by simp [hd])) (Or.inr hindex) hd
  rename_i hcond
  rw [not_or] at hcond
  have hd : s₀.dirty = false := by rw [← T.dirty]; simpa using hcond.1
  split
  · rename_i hnone
    have hsome : s.priority p ≠ none := fun e => hcond.2 (e.trans hnone.symm)
    obtain ⟨h1, h2⟩ := T.add rnd h hd hnone hsome
    exact ⟨fun _ => h1, h2⟩
  · rename_i hq
    obtain ⟨h1, h2⟩ := T.update rnd h hd hq hindex
    exact ⟨fun _ => h1, h2⟩

/-- **`updateFrom`** does so too, if the piece does not become pickable. -/
theorem Touched.updateFrom (hnone : s₀.priority p = none → s.priority p = none) :
    Sound (s.updateFrom (s₀.priority p) p rnd) ∧ SameHave s (s.updateFrom (s₀.priority p) p rnd) := by
  refine T.sound_of_frame h (frame_updateFrom s (s₀.priority p) p rnd) ?_
  unfold PiecePicker.updateFrom
  split
  · rename_i hp
    exact ⟨T.indexed h ((hnone hp).trans hp.symm) (Or.inr hindex), fun _ => rfl⟩
  rename_i hq
  split
  · rename_i hd
    exact ⟨fun hd' => absurd (hd.symm.trans hd') (by decide), fun _ => rfl⟩
  · rename_i hd
    obtain ⟨h1, h2⟩ := T.update rnd h (by rw [← T.dirty]; simpa using hd) hq hindex
    exact ⟨fun _ => h1, h2⟩

end

end PiecePicker

end Libtorrent.Picker
