import Mathlib.Data.Fintype.Basic
import Libtorrent.Lib.Run

/-!
# The slots of a storage

`piece_manager` in compact mode: the tables that say which piece is in which slot, the lists of free and of unallocated
slots, and the contents of the slots. All slots have the same size, and reading and writing succeed. A function gives
`none` where the code would take the last element of an empty list or use a slot that a piece does not have.
-/

namespace Libtorrent.Storage

open Function

inductive Slot (n : Nat) where
  | unallocated
  | unassigned
  | piece (index : Fin n)
  deriving DecidableEq

variable {n : Nat} {D : Type}

def moveSlot (disk : Fin n → D) (src dst : Fin n) : Fin n → D := update disk dst (disk src)

/-- The tables in compact mode, and the disk. In `m_piece_to_slot` no slot is `has_no_slot`. -/
structure Compact (n : Nat) (D : Type) where
  pieceToSlot : Fin n → Option (Fin n)
  slotToPiece : Fin n → Slot n
  freeSlots : List (Fin n)
  unallocatedSlots : List (Fin n)
  disk : Fin n → D

/-- A `piece_manager`: in full mode there are no tables. -/
inductive Manager (n : Nat) (D : Type) where
  | compact (tables : Compact n D)
  | full (disk : Fin n → D)

def Manager.disk : Manager n D → Fin n → D
  | .compact c => c.disk
  | .full disk => disk

def slotFor : Manager n D → Fin n → Option (Fin n)
  | .compact c, piece => c.pieceToSlot piece
  | .full _, piece => some piece

def pieceFor : Manager n D → Fin n → Slot n
  | .compact c, slot => c.slotToPiece slot
  | .full _, slot => .piece slot

variable (c : Compact n D)

def switchToFullMode : Manager n D := .full c.disk

/-- A step of the loop of `allocate_slots_impl`, and if it wrote to the disk: a piece that belongs into the slot is
moved there, and its slot becomes free instead. -/
def allocateSlot (pos : Fin n) (rest : List (Fin n)) : Compact n D × Bool :=
  match c.pieceToSlot pos with
  | some old =>
    ({ pieceToSlot := update c.pieceToSlot pos (some pos)
       slotToPiece := update (update c.slotToPiece pos (.piece pos)) old .unassigned
       freeSlots := c.freeSlots ++ [old]
       unallocatedSlots := rest
       disk := moveSlot c.disk old pos }, true)
  | none =>
    ({ c with
       slotToPiece := update c.slotToPiece pos .unassigned
       freeSlots := c.freeSlots ++ [pos]
       unallocatedSlots := rest }, false)

def allocateSlotsImpl (abortOnDisk : Bool) : Nat → Compact n D → Bool → Compact n D × Bool
  | 0, c, written => (c, written)
  | numSlots + 1, c, written =>
    match c.unallocatedSlots with
    | [] => (c, written)
    | pos :: rest =>
      let (c, wrote) := allocateSlot c pos rest
      let written := written || wrote
      if abortOnDisk && written then (c, written) else allocateSlotsImpl abortOnDisk numSlots c written

def allocateOne : Compact n D := (allocateSlotsImpl false 1 c false).1

/-- Taking `m_free_slots.end() - 1`. -/
def takeLast : Option (Compact n D × Fin n) :=
  c.freeSlots.getLast?.map fun slot => ({ c with freeSlots := c.freeSlots.dropLast }, slot)

/-- The free slot that `allocate_slot_for_piece` takes. If only the last slot is free, which is shorter, another one is
allocated. -/
def takeFreeSlot (piece : Fin n) : Option (Compact n D × Fin n) :=
  if piece ∈ c.freeSlots then some ({ c with freeSlots := c.freeSlots.erase piece }, piece)
  else c.freeSlots.getLast?.bind fun last =>
    takeLast (if last.val + 1 = n ∧ c.freeSlots.length = 1 then allocateOne c else c)

def giveSlot (piece slot : Fin n) : Compact n D :=
  { c with
    slotToPiece := update c.slotToPiece slot (.piece piece)
    pieceToSlot := update c.pieceToSlot piece (some slot) }

/-- The two swaps: `other` is in the slot where the piece belongs, and moves to `slot`. -/
def exchange (piece slot other : Fin n) : Compact n D :=
  { c with
    slotToPiece :=
      update (update c.slotToPiece piece (c.slotToPiece slot)) slot (c.slotToPiece piece)
    pieceToSlot :=
      update (update c.pieceToSlot piece (c.pieceToSlot other)) other (c.pieceToSlot piece)
    disk := moveSlot c.disk piece slot }

/-- The end of `allocate_slot_for_piece`: the tables, and the slot that the piece has got. -/
def assignSlot (piece slot : Fin n) : Compact n D × Fin n :=
  let c := giveSlot c piece slot
  if slot = piece then (c, slot)
  else
    match c.slotToPiece piece with
    | .piece other => (exchange c piece slot other, piece)
    | _ => (c, slot)

/-- `allocate_slot_for_piece` for a piece without a slot, up to the switch of the mode. -/
def placePiece (piece : Fin n) : Option (Compact n D × Fin n) := do
  let c := if c.freeSlots = [] then allocateOne c else c
  let (c, slot) ← takeFreeSlot c piece
  some (assignSlot c piece slot)

def allocateSlotForPiece : Manager n D → Fin n → Option (Manager n D × Fin n)
  | .full disk, piece => some (.full disk, piece)
  | .compact c, piece =>
    match c.pieceToSlot piece with
    | some slot => some (.compact c, slot)
    | none => do
      let (c, slot) ← placePiece c piece
      if c.freeSlots = [] ∧ c.unallocatedSlots = [] then some (switchToFullMode c, slot) else some (.compact c, slot)

/-- `allocate_slots_impl`; in full mode there are no unallocated slots. -/
def allocateSlots : Manager n D → Nat → Bool → Manager n D
  | .full disk, _, _ => .full disk
  | .compact c, numSlots, abortOnDisk => .compact (allocateSlotsImpl abortOnDisk numSlots c false).1

def markFailed : Manager n D → Fin n → Option (Manager n D)
  | .full disk, _ => some (.full disk)
  | .compact c, piece =>
    (c.pieceToSlot piece).map fun slot => .compact { c with
      slotToPiece := update c.slotToPiece slot .unassigned
      pieceToSlot := update c.pieceToSlot piece none
      freeSlots := c.freeSlots ++ [slot] }

inductive Call (n : Nat) where
  | allocateSlotForPiece (piece : Fin n)
  | allocateSlotsImpl (numSlots : Nat) (abortOnDisk : Bool)
  | markFailed (piece : Fin n)

def call (m : Manager n D) : Call n → Option (Manager n D)
  | .allocateSlotForPiece piece => (Storage.allocateSlotForPiece m piece).map Prod.fst
  | .allocateSlotsImpl numSlots abortOnDisk => some (allocateSlots m numSlots abortOnDisk)
  | .markFailed piece => Storage.markFailed m piece

def step (m : Option (Manager n D)) (a : Call n) : Option (Manager n D) := m.bind (call · a)

/-!
## The slot tables stay consistent

`Consistent` is what `check_invariant` asserts: the two tables are inverse to each other, the lists hold the free and
the unallocated slots, and the own slot of a piece that is elsewhere is unallocated. Allocating a slot
(`allocateSlot_spec`) and placing a piece (`placePiece_spec`) keep this and the data of all pieces (`Keeps`), so that
the tables can be thrown away when no slot is free or unallocated.
-/

open Run List Option

variable {c c' : Compact n D} {p q pos slot : Fin n} {rest : List (Fin n)}

structure Consistent (c : Compact n D) : Prop where
  inverse : ∀ p x, c.pieceToSlot p = some x ↔ c.slotToPiece x = .piece p
  freeNodup : c.freeSlots.Nodup
  free : ∀ x, x ∈ c.freeSlots ↔ c.slotToPiece x = .unassigned
  unallocatedNodup : c.unallocatedSlots.Nodup
  unallocated : ∀ x, x ∈ c.unallocatedSlots ↔ c.slotToPiece x = .unallocated
  home : ∀ p x, c.pieceToSlot p = some x → x ≠ p → c.slotToPiece p = .unallocated

/-- Every piece that has a slot still has one, with the same data. -/
def Keeps (c c' : Compact n D) : Prop :=
  ∀ p x, c.pieceToSlot p = some x → ∃ y, c'.pieceToSlot p = some y ∧ c'.disk y = c.disk x

theorem Keeps.refl (c : Compact n D) : Keeps c c := fun _ x h => ⟨x, h, rfl⟩

theorem Keeps.trans {c'' : Compact n D} (h : Keeps c c') (h' : Keeps c' c'') : Keeps c c'' := by
  intro p x hp
  obtain ⟨y, hy, hyx⟩ := h p x hp
  obtain ⟨z, hz, hzy⟩ := h' p y hy
  exact ⟨z, hz, hzy.trans hyx⟩

theorem Consistent.all_home (hc : Consistent c) (hnone : c.unallocatedSlots = []) (hp : c.pieceToSlot p = some slot) :
    slot = p := by
  by_contra hne
  have := (hc.unallocated p).mpr (hc.home p slot hp hne)
  rw [hnone] at this
  exact absurd this not_mem_nil

/-! ## Allocating slots -/

section AllocateSlot

variable (hc : Consistent c) (hpos : c.unallocatedSlots = pos :: rest)
include hc hpos

theorem Consistent.allocateSlot_some (hold : c.pieceToSlot pos = some slot) :
    Consistent (allocateSlot c pos rest).1 ∧ Keeps c (allocateSlot c pos rest).1 := by
  have hun := (hc.unallocated pos).mp (hpos ▸ mem_cons_self)
  have hslot := (hc.inverse pos slot).mp hold
  rw [allocateSlot, hold]
  refine ⟨⟨fun p x => ?_, ?_, fun x => ?_, ?_, fun x => ?_, fun p x => ?_⟩, fun p x hp => ?_⟩ <;> dsimp only
  · have := hc.inverse p x
    have := hc.inverse p pos
    have := hc.inverse pos x
    have := hc.inverse p slot
    grind [update_apply]
  · have := hc.free slot
    have := hc.freeNodup
    grind
  · have := hc.free x
    grind [update_apply]
  · have := hc.unallocatedNodup
    grind
  · have := hc.unallocated x
    have := hc.unallocatedNodup
    grind [update_apply]
  · have := hc.home p x
    grind [update_apply]
  · have := hc.inverse p x
    rcases eq_or_ne p pos with rfl | hne
    · obtain rfl := some.inj (hold.symm.trans hp)
      exact ⟨p, update_self .., update_self ..⟩
    · have hx : x ≠ pos := by grind
      exact ⟨x, by rw [update_of_ne hne, hp], update_of_ne hx _ _⟩

theorem Consistent.allocateSlot_none (hold : c.pieceToSlot pos = none) :
    Consistent (allocateSlot c pos rest).1 ∧ Keeps c (allocateSlot c pos rest).1 := by
  have hun := (hc.unallocated pos).mp (hpos ▸ mem_cons_self)
  rw [allocateSlot, hold]
  refine ⟨⟨fun p x => ?_, ?_, fun x => ?_, ?_, fun x => ?_, fun p x => ?_⟩, fun p x hp => ⟨x, hp, rfl⟩⟩ <;> dsimp only
  · have := hc.inverse p x
    grind [update_apply]
  · have := hc.free pos
    have := hc.freeNodup
    grind
  · have := hc.free x
    grind [update_apply]
  · have := hc.unallocatedNodup
    grind
  · have := hc.unallocated x
    have := hc.unallocatedNodup
    grind [update_apply]
  · have := hc.home p x
    grind [update_apply]

theorem allocateSlot_spec : Consistent (allocateSlot c pos rest).1 ∧ Keeps c (allocateSlot c pos rest).1 ∧
    (∀ p, c.pieceToSlot p = none → (allocateSlot c pos rest).1.pieceToSlot p = none) ∧
    ∃ x, (allocateSlot c pos rest).1.freeSlots = c.freeSlots ++ [x] := by
  cases hold : c.pieceToSlot pos with
  | none =>
    obtain ⟨hc', hk⟩ := hc.allocateSlot_none hpos hold
    refine ⟨hc', hk, fun p hp => ?_, ?_⟩ <;> rw [allocateSlot, hold]
    · exact hp
    · exact ⟨pos, rfl⟩
  | some old =>
    obtain ⟨hc', hk⟩ := hc.allocateSlot_some hpos hold
    refine ⟨hc', hk, fun p hp => ?_, ?_⟩ <;> rw [allocateSlot, hold]
    · have hne : p ≠ pos := fun h => by simp [h, hold] at hp
      exact (update_of_ne hne _ _).trans hp
    · exact ⟨old, rfl⟩

end AllocateSlot

theorem allocateSlotsImpl_spec (abort : Bool) : ∀ (k : Nat) {c : Compact n D} (written : Bool), Consistent c →
    Consistent (allocateSlotsImpl abort k c written).1 ∧ Keeps c (allocateSlotsImpl abort k c written).1 := by
  intro k
  induction k with
  | zero => exact fun _ hc => ⟨hc, .refl _⟩
  | succ k ih =>
    intro c written hc
    rw [allocateSlotsImpl]
    cases hun : c.unallocatedSlots with
    | nil => exact ⟨hc, .refl c⟩
    | cons pos rest =>
      obtain ⟨hc', hk, -⟩ := allocateSlot_spec hc hun
      dsimp only
      split
      · exact ⟨hc', hk⟩
      · obtain ⟨hc'', hk'⟩ := ih (written || (allocateSlot c pos rest).2) hc'
        exact ⟨hc'', hk.trans hk'⟩

theorem allocateOne_eq (hpos : c.unallocatedSlots = pos :: rest) : allocateOne c = (allocateSlot c pos rest).1 := by
  unfold allocateOne allocateSlotsImpl
  rw [hpos]
  dsimp only
  split <;> rfl

theorem allocateOne_spec (hc : Consistent c) (hun : c.unallocatedSlots ≠ []) :
    Consistent (allocateOne c) ∧ Keeps c (allocateOne c) ∧
      (∀ p, c.pieceToSlot p = none → (allocateOne c).pieceToSlot p = none) ∧
      ∃ x, (allocateOne c).freeSlots = c.freeSlots ++ [x] := by
  obtain ⟨pos, rest, hpos⟩ := exists_cons_of_ne_nil hun
  rw [allocateOne_eq hpos]
  exact allocateSlot_spec hc hpos

/-! ## Placing a piece -/

/-- The tables when the free slot `slot` is about to be given to `p`: it is in no list any more. -/
structure Taken (c : Compact n D) (p slot : Fin n) : Prop where
  inverse : ∀ q x, c.pieceToSlot q = some x ↔ c.slotToPiece x = .piece q
  freeNodup : c.freeSlots.Nodup
  free : ∀ x, x ∈ c.freeSlots ↔ c.slotToPiece x = .unassigned ∧ x ≠ slot
  unallocatedNodup : c.unallocatedSlots.Nodup
  unallocated : ∀ x, x ∈ c.unallocatedSlots ↔ c.slotToPiece x = .unallocated
  home : ∀ q x, c.pieceToSlot q = some x → x ≠ q → c.slotToPiece q = .unallocated
  unassigned : c.slotToPiece slot = .unassigned
  absent : c.pieceToSlot p = none
  own : slot = p ∨ c.slotToPiece p ≠ .unassigned

section

variable (hc : Consistent c) (habs : c.pieceToSlot p = none)
include hc habs

theorem Consistent.mem_free (hnone : c.unallocatedSlots = []) : p ∈ c.freeSlots := by
  rw [hc.free p]
  cases hp : c.slotToPiece p with
  | unassigned => rfl
  | unallocated =>
    have := (hc.unallocated p).mpr hp
    rw [hnone] at this
    exact absurd this not_mem_nil
  | piece q =>
    have hq := (hc.inverse q p).mpr hp
    have hqp := hc.all_home hnone hq
    rw [← hqp, habs] at hq
    exact absurd hq (by simp)

variable {free : List (Fin n)}

theorem Consistent.take (hperm : c.freeSlots.Perm (slot :: free)) (hown : slot = p ∨ p ∉ c.freeSlots) :
    Taken { c with freeSlots := free } p slot := by
  have hmem : slot ∈ c.freeSlots := hperm.mem_iff.mpr mem_cons_self
  obtain ⟨hnot, hnodup⟩ := nodup_cons.mp (hperm.nodup_iff.mp hc.freeNodup)
  refine ⟨hc.inverse, hnodup, fun x => ?_, hc.unallocatedNodup, hc.unallocated, hc.home, (hc.free slot).mp hmem, habs,
    hown.imp id fun h hu => h ((hc.free p).mpr hu)⟩
  have := hperm.mem_iff (a := x)
  have := hc.free x
  grind

theorem takeLast_spec (hfree : c.freeSlots = free ++ [slot]) (hown : p ∉ free) :
    ∃ c', takeLast c = some (c', slot) ∧ Taken c' p slot ∧ Keeps c c' := by
  have hget : c.freeSlots.getLast? = some slot := by rw [hfree, List.getLast?_concat]
  refine ⟨_, congrArg _ hget, hc.take habs ?_ ?_, .refl c⟩
  · rw [hfree, dropLast_concat]
    exact perm_append_singleton slot free
  · rw [hfree, mem_append, mem_singleton]
    exact (em (slot = p)).imp id fun hne h => h.elim hown (Ne.symm hne)

theorem takeFreeSlot_spec (hfree : c.freeSlots ≠ []) :
    ∃ c' slot, takeFreeSlot c p = some (c', slot) ∧ Taken c' p slot ∧ Keeps c c' := by
  unfold takeFreeSlot
  split_ifs with hp
  · exact ⟨_, p, rfl, hc.take habs (perm_cons_erase hp) (.inl rfl), .refl c⟩
  rw [List.getLast?_eq_some_getLast hfree, bind_some]
  split
  · -- the last slot is the only free one, so that the own slot of the piece is not free but unallocated
    have hun : c.unallocatedSlots ≠ [] := fun h => hp (hc.mem_free habs h)
    obtain ⟨hc1, hk, habs1, slot, hslot⟩ := allocateOne_spec hc hun
    obtain ⟨c', heq, ht, hk'⟩ := takeLast_spec hc1 (habs1 p habs) hslot hp
    exact ⟨c', slot, heq, ht, hk.trans hk'⟩
  · obtain ⟨c', heq, ht, hk⟩ := takeLast_spec hc habs (dropLast_append_getLast hfree).symm
      fun h => hp (mem_of_mem_dropLast h)
    exact ⟨c', _, heq, ht, hk⟩

end

theorem Taken.give (ht : Taken c p slot) (hown : slot = p ∨ c.slotToPiece p = .unallocated) :
    Consistent (giveSlot c p slot) ∧ Keeps c (giveSlot c p slot) := by
  have hslot := ht.unassigned
  have habs := ht.absent
  refine ⟨⟨fun q x => ?_, ht.freeNodup, fun x => ?_, ht.unallocatedNodup, fun x => ?_, fun q x => ?_⟩,
    fun q x hq => ?_⟩ <;> dsimp only [giveSlot]
  · have := ht.inverse q x
    have := ht.inverse q slot
    have := ht.inverse p x
    grind [update_apply]
  · have := ht.free x
    grind [update_apply]
  · have := ht.unallocated x
    grind [update_apply]
  · have := ht.home q x
    grind [update_apply]
  · have hne : q ≠ p := fun h => by simp [h, habs] at hq
    exact ⟨x, by rw [update_of_ne hne, hq], rfl⟩

theorem Taken.exchange (ht : Taken c p slot) (hne : slot ≠ p) {other : Fin n}
    (hother : c.slotToPiece p = .piece other) : Consistent (Storage.exchange (giveSlot c p slot) p slot other) ∧
      Keeps c (Storage.exchange (giveSlot c p slot) p slot other) ∧
      (Storage.exchange (giveSlot c p slot) p slot other).pieceToSlot p = some p := by
  have hslot := ht.unassigned
  have habs := ht.absent
  have hat := (ht.inverse other p).mpr hother
  have hop : other ≠ p := fun h => by simp [h, habs] at hat
  have hhome := ht.home other p hat (Ne.symm hop)
  refine ⟨⟨fun q x => ?_, ht.freeNodup, fun x => ?_, ht.unallocatedNodup, fun x => ?_, fun q x => ?_⟩,
    fun q x hq => ?_, ?_⟩ <;> dsimp only [Storage.exchange, giveSlot]
  · have := ht.inverse q x
    have := ht.inverse q slot
    have := ht.inverse q p
    have := ht.inverse other x
    have := ht.inverse p x
    grind [update_apply]
  · have := ht.free x
    grind [update_apply]
  · have := ht.unallocated x
    grind [update_apply]
  · have := ht.home q x
    grind [update_apply]
  · have hqp : q ≠ p := fun h => by simp [h, habs] at hq
    rcases eq_or_ne q other with rfl | hqo
    · obtain rfl := some.inj (hat.symm.trans hq)
      refine ⟨slot, ?_, update_self ..⟩
      rw [update_self, update_self]
    have := ht.inverse q x
    have hx : x ≠ slot := by grind
    refine ⟨x, ?_, update_of_ne hx _ _⟩
    rw [update_of_ne hqo, update_of_ne hqp, update_of_ne hqp, hq]
  · rw [update_of_ne (Ne.symm hop), update_self, update_of_ne hop, hat]

theorem assignSlot_spec (ht : Taken c p slot) : Consistent (assignSlot c p slot).1 ∧ Keeps c (assignSlot c p slot).1 ∧
      (assignSlot c p slot).1.pieceToSlot p = some (assignSlot c p slot).2 := by
  have hgiven : (giveSlot c p slot).pieceToSlot p = some slot := update_self ..
  unfold assignSlot
  dsimp only
  split
  · rename_i he
    obtain ⟨hc, hk⟩ := ht.give (.inl he)
    exact ⟨hc, hk, hgiven⟩
  rename_i hne
  have hread : (giveSlot c p slot).slotToPiece p = c.slotToPiece p := update_of_ne (Ne.symm hne) _ _
  rw [hread]
  cases hp : c.slotToPiece p with
  | piece => exact ht.exchange hne hp
  | unallocated =>
    obtain ⟨hc, hk⟩ := ht.give (.inr hp)
    exact ⟨hc, hk, hgiven⟩
  | unassigned => exact absurd hp (ht.own.resolve_left hne)

/-- **`allocate_slot_for_piece` for a piece without a slot.** -/
theorem placePiece_spec (hc : Consistent c) (habs : c.pieceToSlot p = none) :
    ∃ c' slot, placePiece c p = some (c', slot) ∧ Consistent c' ∧ Keeps c c' ∧ c'.pieceToSlot p = some slot := by
  obtain ⟨c1, heq1, hc1, habs1, hk1, hfree⟩ : ∃ c1, (if c.freeSlots = [] then allocateOne c else c) = c1 ∧
      Consistent c1 ∧ c1.pieceToSlot p = none ∧ Keeps c c1 ∧ c1.freeSlots ≠ [] := by
    split_ifs with hfree
    · have hun : c.unallocatedSlots ≠ [] := fun h => by
        have := hc.mem_free habs h
        rw [hfree] at this
        exact absurd this not_mem_nil
      obtain ⟨hc1, hk, habs1, slot, hslot⟩ := allocateOne_spec hc hun
      exact ⟨_, rfl, hc1, habs1 p habs, hk, by rw [hslot]; simp⟩
    · exact ⟨c, rfl, hc, habs, .refl c, hfree⟩
  obtain ⟨c2, slot, heq2, ht, hk2⟩ := takeFreeSlot_spec hc1 habs1 hfree
  obtain ⟨hc3, hk3, hslot⟩ := assignSlot_spec ht
  refine ⟨_, _, ?_, hc3, hk1.trans (hk2.trans hk3), hslot⟩
  rw [placePiece, heq1]
  simp only [heq2, bind_eq_bind, bind_some]

/-! ## Sequences of calls -/

def Manager.Consistent : Manager n D → Prop
  | .compact c => Storage.Consistent c
  | .full _ => True

/-- The pieces that are not `lost` still have a slot, with the same data. -/
def KeepsExcept (lost : Fin n → Prop) (m m' : Manager n D) : Prop :=
  ∀ p x, slotFor m p = some x → ¬ lost p → ∃ y, slotFor m' p = some y ∧ m'.disk y = m.disk x

def Allowed : Option (Manager n D) → Call n → Prop
  | some (.compact c), .markFailed piece => (c.pieceToSlot piece).isSome
  | _, _ => True

instance (m : Option (Manager n D)) (a : Call n) : Decidable (Allowed m a) := by
  unfold Allowed
  split <;> infer_instance

variable {m m' : Manager n D}

theorem Keeps.except (h : Keeps c c') (lost : Fin n → Prop) : KeepsExcept lost (.compact c) (.compact c') :=
  fun p x hp _ => h p x hp

theorem KeepsExcept.refl (lost : Fin n → Prop) (m : Manager n D) : KeepsExcept lost m m := fun _ x h _ => ⟨x, h, rfl⟩

theorem KeepsExcept.trans {m'' : Manager n D} {lost lost' : Fin n → Prop} (h : KeepsExcept lost m m')
    (h' : KeepsExcept lost' m' m'') : KeepsExcept (fun p => lost p ∨ lost' p) m m'' := by
  intro p x hp hlost
  obtain ⟨y, hy, hyx⟩ := h p x hp fun hl => hlost (.inl hl)
  obtain ⟨z, hz, hzy⟩ := h' p y hy fun hl => hlost (.inr hl)
  exact ⟨z, hz, hzy.trans hyx⟩

theorem Keeps.switch (h : Keeps c c') (hhome : ∀ q x, c'.pieceToSlot q = some x → x = q) (lost : Fin n → Prop) :
    KeepsExcept lost (.compact c) (switchToFullMode c') := by
  intro p x hp _
  obtain ⟨y, hy, hyx⟩ := h p x hp
  obtain rfl := hhome p y hy
  exact ⟨y, rfl, hyx⟩

/-- **`allocate_slot_for_piece`** returns the slot of the piece. -/
theorem allocateSlotForPiece_spec (hm : m.Consistent) (p : Fin n) : ∃ m' slot,
    allocateSlotForPiece m p = some (m', slot) ∧ m'.Consistent ∧ (∀ lost, KeepsExcept lost m m') ∧
      slotFor m' p = some slot ∧ pieceFor m' slot = .piece p := by
  cases m with
  | full disk => exact ⟨.full disk, p, rfl, trivial, fun lost => .refl lost _, rfl, rfl⟩
  | compact c =>
    rw [allocateSlotForPiece]
    cases hp : c.pieceToSlot p with
    | some slot => exact ⟨.compact c, slot, rfl, hm, fun lost => .refl lost _, hp, (hm.inverse p slot).mp hp⟩
    | none =>
      obtain ⟨c', slot, heq, hc', hk, hslot⟩ := placePiece_spec hm hp
      simp only [heq, bind_eq_bind, bind_some]
      split_ifs with hempty
      · have hhome : ∀ q x, c'.pieceToSlot q = some x → x = q := fun q x => hc'.all_home hempty.2
        obtain rfl := hhome p slot hslot
        exact ⟨_, slot, rfl, trivial, hk.switch hhome, rfl, rfl⟩
      · exact ⟨_, slot, rfl, hc', hk.except, hslot, (hc'.inverse p slot).mp hslot⟩

theorem allocateSlotForPiece_switch (hc : Consistent c) {disk : Fin n → D}
    (h : allocateSlotForPiece (.compact c) p = some (.full disk, slot)) : ∃ c', placePiece c p = some (c', slot) ∧
      c'.disk = disk ∧ ∀ q x, c'.pieceToSlot q = some x → x = q := by
  rw [allocateSlotForPiece] at h
  cases hp : c.pieceToSlot p with
  | some => simp [hp] at h
  | none =>
    obtain ⟨c', slot', heq, hc', -⟩ := placePiece_spec hc hp
    simp only [hp, heq, bind_eq_bind, bind_some] at h
    split at h
    · rename_i hempty
      simp only [switchToFullMode, some.injEq, Prod.mk.injEq, Manager.full.injEq] at h
      obtain ⟨hdisk, rfl⟩ := h
      exact ⟨c', heq, hdisk, fun q x => hc'.all_home hempty.2⟩
    · simp at h

theorem markFailed_consistent (hc : Consistent c) (hp : c.pieceToSlot p = some slot) : Consistent { c with
      slotToPiece := update c.slotToPiece slot .unassigned
      pieceToSlot := update c.pieceToSlot p none
      freeSlots := c.freeSlots ++ [slot] } := by
  have hslot := (hc.inverse p slot).mp hp
  refine ⟨fun q x => ?_, ?_, fun x => ?_, hc.unallocatedNodup, fun x => ?_, fun q x => ?_⟩ <;> dsimp only
  · have := hc.inverse q x
    have := hc.inverse p x
    have := hc.inverse q slot
    grind [update_apply]
  · have := hc.free slot
    have := hc.freeNodup
    grind
  · have := hc.free x
    grind [update_apply]
  · have := hc.unallocated x
    grind [update_apply]
  · have := hc.home q x
    grind [update_apply]

theorem markFailed_spec (hm : m.Consistent) (hp : Allowed (some m) (.markFailed p)) : ∃ m',
    markFailed m p = some m' ∧ m'.Consistent ∧ KeepsExcept (· = p) m m' := by
  cases m with
  | full disk => exact ⟨.full disk, rfl, trivial, .refl _ _⟩
  | compact =>
    obtain ⟨slot, hslot⟩ := isSome_iff_exists.mp hp
    rw [markFailed, hslot, map_some]
    refine ⟨_, rfl, markFailed_consistent hm hslot, fun q x hq hne => ⟨x, ?_, rfl⟩⟩
    exact (update_of_ne hne _ _).trans hq

theorem call_spec (hm : m.Consistent) (a : Call n) (ha : Allowed (some m) a) :
    ∃ m', call m a = some m' ∧ m'.Consistent ∧ KeepsExcept (fun p => .markFailed p = a) m m' := by
  cases a with
  | allocateSlotForPiece p =>
    obtain ⟨m', slot, heq, hm', hk, -⟩ := allocateSlotForPiece_spec hm p
    exact ⟨m', by rw [call, heq, map_some], hm', hk _⟩
  | allocateSlotsImpl k abort =>
    refine ⟨_, rfl, ?_⟩
    cases m with
    | full => exact ⟨trivial, .refl _ _⟩
    | compact =>
      obtain ⟨hc', hk⟩ := allocateSlotsImpl_spec abort k false hm
      exact ⟨hc', hk.except _⟩
  | markFailed =>
    obtain ⟨m', heq, hm', hk⟩ := markFailed_spec hm ha
    exact ⟨m', heq, hm', fun q x hq hne => hk q x hq fun h => hne (by rw [h])⟩

theorem run_spec : ∀ (calls : List (Call n)) {m : Manager n D}, m.Consistent →
    Legal step Allowed (some m) calls → ∃ m', run step (some m) calls = some m' ∧ m'.Consistent ∧
      KeepsExcept (fun p => .markFailed p ∈ calls) m m'
  | [], m, hm, _ => ⟨m, rfl, hm, .refl _ m⟩
  | a :: calls, m, hm, hl => by
    obtain ⟨m1, heq, hm1, hk1⟩ := call_spec hm a hl.1
    have hstep : step (some m) a = some m1 := heq
    obtain ⟨m2, hrun, hm2, hk2⟩ := run_spec calls hm1 (hstep ▸ hl.2)
    refine ⟨m2, by rw [run_cons, hstep, hrun], hm2, fun p x hp hlost => ?_⟩
    exact hk1.trans hk2 p x hp fun h => hlost (mem_cons.mpr h)

/-- **The tables.** After any calls they are consistent, the pieces that did not fail have kept their data,
`allocate_slot_for_piece` returns a slot that holds the piece, and if it throws the tables away, then all pieces are in
their own slots. -/
theorem slot_tables {m₀ : Manager n D} (hm₀ : m₀.Consistent) (calls : List (Call n))
    (hl : Legal step Allowed (some m₀) calls) : ∃ m, run step (some m₀) calls = some m ∧
      (∀ c, m = .compact c → Consistent c) ∧
      (∀ p x, slotFor m₀ p = some x → .markFailed p ∉ calls → ∃ y, slotFor m p = some y ∧ m.disk y = m₀.disk x) ∧
      ∀ p, ∃ m' slot, allocateSlotForPiece m p = some (m', slot) ∧ slotFor m' p = some slot ∧
        pieceFor m' slot = .piece p ∧
        ∀ c disk, m = .compact c → m' = .full disk → ∃ c', placePiece c p = some (c', slot) ∧ c'.disk = disk ∧
          ∀ q x, c'.pieceToSlot q = some x → x = q := by
  obtain ⟨m, hrun, hm, hk⟩ := run_spec calls hm₀ hl
  refine ⟨m, hrun, ?_, hk, fun p => ?_⟩
  · rintro c rfl
    exact hm
  obtain ⟨m', slot, heq, -, -, hslot, hpiece⟩ := allocateSlotForPiece_spec hm p
  refine ⟨m', slot, heq, hslot, hpiece, ?_⟩
  rintro c disk rfl rfl
  exact allocateSlotForPiece_switch hm heq

def scattered : Compact 3 Nat where
  pieceToSlot := fun p => if p = 2 then some 0 else none
  slotToPiece := fun x => if x = 0 then .piece 2 else if x = 1 then .unassigned else .unallocated
  freeSlots := [1]
  unallocatedSlots := [2]
  disk := fun x => x.val + 10

theorem scattered_consistent : Consistent scattered :=
  ⟨by decide, by decide, by decide, by decide, by decide, by decide⟩

/-- Piece 0 drives piece 2 out of slot 0, then piece 2 moves into its own slot, and piece 1 gets the last one. -/
theorem slot_tables_scattered : ∃ m, run step (some (.compact scattered))
        [.allocateSlotForPiece 0, .allocateSlotsImpl 1 true, .markFailed 0, .allocateSlotForPiece 1] = some m ∧
      (∀ c, m = .compact c → Consistent c) ∧
      (∀ p x, slotFor (.compact scattered) p = some x →
        .markFailed p ∉ ([.allocateSlotForPiece 0, .allocateSlotsImpl 1 true, .markFailed 0,
          .allocateSlotForPiece 1] : List (Call 3)) →
        ∃ y, slotFor m p = some y ∧ m.disk y = (Manager.compact scattered).disk x) ∧
      ∀ p, ∃ m' slot, allocateSlotForPiece m p = some (m', slot) ∧ slotFor m' p = some slot ∧
        pieceFor m' slot = .piece p ∧
        ∀ c disk, m = .compact c → m' = .full disk → ∃ c', placePiece c p = some (c', slot) ∧ c'.disk = disk ∧
          ∀ q x, c'.pieceToSlot q = some x → x = q :=
  @slot_tables 3 Nat (.compact scattered) scattered_consistent _ (by decide)

/-- A piece that failed has no slot any more. -/
theorem markFailed_no_slot : Consistent scattered ∧ slotFor (.compact scattered) 2 = some 0 ∧
    ∃ m, run step (some (.compact scattered)) [.markFailed 2] = some m ∧ slotFor m 2 = none :=
  ⟨scattered_consistent, by decide, _, rfl, by decide⟩

/-!
## The last slot

The last slot is shorter than the others when the last piece is. `allocate_slot_for_piece` gives it to no other piece,
except where it stands at the end of several free slots (`Misled`): the special case for it looks at the same end of the
list again. A piece that is in the last slot already stays there unless it has to make room (`Relieved`).
-/

def FitsLast (f : Fin n → Slot n) : Prop := ∀ x q, x.val + 1 = n → f x = .piece q → q = x

/-- The last slot is free and at the end of the list, which has others, and the piece cannot have its own. -/
def Misled (c : Compact n D) (p : Fin n) : Prop :=
  c.pieceToSlot p = none ∧ p ∉ c.freeSlots ∧ 1 < c.freeSlots.length ∧ ∃ x ∈ c.freeSlots.getLast?, x.val + 1 = n

/-- The call empties the last slot for the last piece, or moves the piece in it to the slot that is allocated. -/
def Relieved (c : Compact n D) (p : Fin n) : Prop :=
  c.pieceToSlot p = none ∧ (p.val + 1 = n ∨ c.freeSlots = [] ∧
    ∃ pos ∈ c.unallocatedSlots.head?, ∃ x ∈ c.pieceToSlot pos, x.val + 1 = n)

section

variable {x : Fin n} (hx : x.val + 1 = n)
include hx

theorem fitsLast_iff {f : Fin n → Slot n} : FitsLast f ↔ ∀ q, f x = .piece q → q = x := by
  refine ⟨fun h q => h x q hx, fun h y q hy => ?_⟩
  obtain rfl : y = x := Fin.ext (by omega)
  exact h q

theorem allocateOne_fitsLast (hc : Consistent c) (hpos : c.unallocatedSlots = pos :: rest) :
    FitsLast (allocateOne c).slotToPiece ↔ FitsLast c.slotToPiece ∨ c.pieceToSlot pos = some x := by
  have hun := (hc.unallocated pos).mp (hpos ▸ mem_cons_self)
  rw [allocateOne_eq hpos, fitsLast_iff hx, fitsLast_iff hx, allocateSlot]
  cases hold : c.pieceToSlot pos with
  | none => grind [update_apply]
  | some old =>
    have := (hc.inverse pos old).mp hold
    grind [update_apply]

theorem assignSlot_fitsLast (ht : Taken c p slot) : FitsLast (assignSlot c p slot).1.slotToPiece ↔
    (slot = x → p = x) ∧ (p = x ∨ FitsLast c.slotToPiece) := by
  have hslot := ht.unassigned
  rw [fitsLast_iff hx, fitsLast_iff hx]
  simp only [assignSlot, giveSlot]
  split
  · grind [update_apply]
  rename_i hne
  rw [update_of_ne (Ne.symm hne)]
  cases hp : c.slotToPiece p with
  | piece other =>
    have hat := (ht.inverse other p).mpr hp
    have := ht.home other p hat
    have := ht.inverse p p
    have := ht.absent
    simp only [exchange]
    grind [update_apply]
  | unallocated | unassigned =>
    dsimp only
    rcases eq_or_ne slot x with rfl | hsx
    · simp [Ne.symm hne]
    · rw [update_of_ne (Ne.symm hsx)]
      grind

theorem takeFreeSlot_fitsLast (hc : Consistent c) (habs : c.pieceToSlot p = none) (hfree : c.freeSlots ≠ []) :
    ∃ c' slot, takeFreeSlot c p = some (c', slot) ∧ Taken c' p slot ∧
      (FitsLast c'.slotToPiece ↔ FitsLast c.slotToPiece) ∧ ((slot = x → p = x) ↔ ¬ Misled c p) := by
  obtain ⟨c', slot, heq, ht, -⟩ := takeFreeSlot_spec hc habs hfree
  refine ⟨c', slot, heq, ht, ?_⟩
  unfold takeFreeSlot at heq
  split_ifs at heq with hp
  · cases heq
    exact ⟨.rfl, fun _ hm => hm.2.1 hp, fun _ h => h⟩
  have hlast := getLast?_eq_some_getLast hfree
  have hmem := getLast_mem hfree
  rw [hlast, bind_some] at heq
  split_ifs at heq with hone
  · -- the last slot is free, and another one is allocated
    obtain ⟨pos, rest, hpos⟩ := exists_cons_of_ne_nil fun h => hp (hc.mem_free habs h)
    obtain ⟨hc1, -, -, y, hy⟩ := allocateOne_spec hc (by rw [hpos]; exact cons_ne_nil _ _)
    obtain ⟨_, hget, he⟩ := map_eq_some_iff.mp heq
    cases he
    rw [hy, getLast?_concat] at hget
    cases hget
    have hxfree : c.slotToPiece x = .unassigned := by
      rw [← hc.free, show x = c.freeSlots.getLast hfree from Fin.ext (by omega)]
      exact hmem
    have hfits : FitsLast c.slotToPiece := (fitsLast_iff hx).mpr fun q hq => by simp [hxfree] at hq
    refine ⟨iff_of_true ((allocateOne_fitsLast hx hc hpos).mpr (.inl hfits)) hfits,
      iff_of_true (fun h => ?_) fun hm => ?_⟩
    · have hnodup := hc1.freeNodup
      rw [hy] at hnodup
      exact absurd (Fin.ext (by omega)) ((nodup_append.mp hnodup).2.2 _ hmem slot mem_cons_self)
    · have := hm.2.2.1
      omega
  · obtain ⟨_, hget, he⟩ := map_eq_some_iff.mp heq
    cases he
    refine ⟨.rfl, fun h hm => ?_, fun hm h => ?_⟩
    · obtain ⟨-, -, -, y, hy, hyn⟩ := hm
      obtain rfl := some.inj (hget.symm.trans hy)
      exact hp (h (Fin.ext (by omega)) ▸ (Fin.ext (by omega) : slot = x) ▸ mem_of_getLast? hget)
    · have hlen := length_pos_of_ne_nil hfree
      obtain rfl := some.inj (hget.symm.trans hlast)
      exact absurd ⟨habs, hp, by omega, _, hlast, h ▸ hx⟩ hm

end

/-- **The last slot** holds no other piece than the last one after the call exactly if the call is not misled, and the
slot held no other piece before or is relieved of it. -/
theorem allocate_slot_fitsLast_iff (hc : Consistent c) (p : Fin n) : ∃ m' slot,
    allocateSlotForPiece (.compact c) p = some (m', slot) ∧
      (FitsLast (pieceFor m') ↔ ¬ Misled c p ∧ (FitsLast c.slotToPiece ∨ Relieved c p)) := by
  obtain ⟨x, hx⟩ : ∃ x : Fin n, x.val + 1 = n := ⟨⟨n - 1, Nat.sub_one_lt_of_lt p.isLt⟩, Nat.sub_add_cancel p.pos⟩
  have hpx : p.val + 1 = n ↔ p = x := ⟨fun h => Fin.ext (by omega), fun h => h ▸ hx⟩
  rw [allocateSlotForPiece]
  cases habs : c.pieceToSlot p with
  | some slot =>
    refine ⟨_, slot, rfl, ?_⟩
    change FitsLast c.slotToPiece ↔ _
    simp [Misled, Relieved, habs]
  | none =>
    obtain ⟨c1, heq1, hc1, habs1, hfree, hcond⟩ : ∃ c1, (if c.freeSlots = [] then allocateOne c else c) = c1 ∧
        Consistent c1 ∧ c1.pieceToSlot p = none ∧ c1.freeSlots ≠ [] ∧
        (¬ Misled c1 p ∧ (p = x ∨ FitsLast c1.slotToPiece) ↔
          ¬ Misled c p ∧ (FitsLast c.slotToPiece ∨ Relieved c p)) := by
      split_ifs with hfree
      · obtain ⟨pos, rest, hpos⟩ := exists_cons_of_ne_nil (l := c.unallocatedSlots) fun hnone => by
          simpa [hfree] using hc.mem_free habs hnone
        obtain ⟨hc1, -, habs1, slot, hslot⟩ := allocateOne_spec hc (by rw [hpos]; exact cons_ne_nil _ _)
        rw [hfree, nil_append] at hslot
        refine ⟨_, rfl, hc1, habs1 p habs, by simp [hslot], ?_⟩
        have hhome : (∃ y ∈ c.pieceToSlot pos, y.val + 1 = n) ↔ c.pieceToSlot pos = some x :=
          ⟨fun ⟨y, hy, hyn⟩ => hy.trans (congrArg some (Fin.ext (by omega))), fun h => ⟨x, h, hx⟩⟩
        simp only [Misled, Relieved, allocateOne_fitsLast hx hc hpos, habs, hslot, hfree, hpos, hpx, ← hhome]
        simp
        tauto
      · refine ⟨c, rfl, hc, habs, hfree, ?_⟩
        simp only [Relieved, habs, hfree, hpx]
        tauto
    obtain ⟨c2, slot, heq2, ht, hfits, hslot⟩ := takeFreeSlot_fitsLast hx hc1 habs1 hfree
    obtain ⟨hc3, -⟩ := assignSlot_spec ht
    have hafter := assignSlot_fitsLast hx ht
    rw [hslot, hfits, hcond] at hafter
    simp only [placePiece, heq1, heq2, bind_eq_bind, bind_some]
    split
    · rename_i hfull
      refine ⟨_, _, rfl, iff_of_true (fun y q _ hq => by simpa [switchToFullMode, pieceFor] using Eq.symm hq) ?_⟩
      exact hafter.mp fun y q _ hq => (hc3.all_home hfull.2 ((hc3.inverse q y).mpr hq)).symm
    · exact ⟨_, _, rfl, hafter⟩

def lastTaken : Compact 3 Nat where
  pieceToSlot := fun p => if p.val = 2 then some p else none
  slotToPiece := fun x => if x.val = 2 then .piece x else if x.val = 0 then .unassigned else .unallocated
  freeSlots := (finRange 3).take 1
  unallocatedSlots := ((finRange 3).drop 1).take 1
  disk := fun x => x.val

theorem lastTaken_consistent : Consistent lastTaken :=
  ⟨by decide, by decide, by decide, by decide, by decide, by decide⟩

theorem lastTaken_fitsLast : FitsLast lastTaken.slotToPiece := by
  unfold FitsLast
  decide

theorem allocate_slot_fitsLast_iff_lastTaken : ∃ m' slot,
    allocateSlotForPiece (.compact lastTaken) 1 = some (m', slot) ∧
    FitsLast (pieceFor m') := by
  obtain ⟨m', slot, heq, hiff⟩ := allocate_slot_fitsLast_iff lastTaken_consistent 1
  exact ⟨m', slot, heq, hiff.mpr ⟨fun h => absurd h.2.2.1 (by decide), .inl lastTaken_fitsLast⟩⟩

/-- After `mark_failed` of the last piece its slot goes to piece 1. -/
theorem last_slot_given_away : Consistent lastTaken ∧ FitsLast lastTaken.slotToPiece ∧
    ∃ m, markFailed (.compact lastTaken) 2 = some m ∧
      ∃ m', allocateSlotForPiece m 1 = some (m', 2) ∧ pieceFor m' 2 = .piece 1 :=
  ⟨lastTaken_consistent, lastTaken_fitsLast, _, rfl, _, rfl, rfl⟩

end Libtorrent.Storage
