import Libtorrent.Lib.Tally
import Libtorrent.Picker.Basic

/-!
# Records of partial pieces

What the picker keeps about one piece that is being downloaded, without the place where it is stored: the state of each
block, the counters and the speed category. Every transition of a block is a `move`, under which the counters follow
the states (`Counted.move`); a record in use is `Ok`.
-/

namespace Libtorrent.Picker

open Tally Function

/-- What is known about a piece that is being downloaded. -/
@[ext] structure Record where
  speed : PieceState := .none
  finished : Int := 0
  writing : Int := 0
  requested : Int := 0
  blocks : Nat → BlockInfo := fun _ => {}

namespace Record

variable {r : Record} {n j : Nat} {b : BlockInfo} {speed : PieceState} {peer : PeerPtr}

/-! ## Transitions -/

/-- The number of blocks in use. -/
def total (r : Record) : Int := r.requested + r.finished + r.writing

/-- How the number of blocks in state `st` changes when one block changes its state. -/
def change (old new st : BlockState) : Int := (if new = st then 1 else 0) - if old = st then 1 else 0

def move (r : Record) (j : Nat) (b : BlockInfo) (speed : PieceState) : Record where
  speed := speed
  finished := r.finished + change (r.blocks j).state b.state .finished
  writing := r.writing + change (r.blocks j).state b.state .writing
  requested := r.requested + change (r.blocks j).state b.state .requested
  blocks := Function.update r.blocks j b

@[simp] theorem blocks_move_self (r : Record) (j : Nat) (b : BlockInfo) (speed : PieceState) :
    (r.move j b speed).blocks j = b := update_self ..

theorem blocks_move_of_ne {i : Nat} (h : i ≠ j) (b : BlockInfo) (speed : PieceState) :
    (r.move j b speed).blocks i = r.blocks i := update_of_ne h ..

theorem move_same (h : b.state = (r.blocks j).state) :
    r.move j b speed = { r with speed := speed, blocks := update r.blocks j b } := by
  simp [move, change, h]

def request (r : Record) (j : Nat) (peer : PeerPtr) (speed : PieceState) : Record :=
  r.move j { peer := peer, state := .requested, numPeers := ((r.blocks j).numPeers + 1) % 2 ^ 14 }
    (if r.speed = .none then speed else r.speed)

/-- The speed category goes when no block is requested any more. -/
def clearSpeed (r : Record) : Record := { r with speed := if r.requested = 0 then .none else r.speed }

/-- Block `j`, received from `peer`, is being written. -/
def write (r : Record) (j : Nat) (peer : PeerPtr) : Record :=
  (r.move j { peer := peer, state := .writing, numPeers := 0 } r.speed).clearSpeed

def finish (r : Record) (j : Nat) (peer : PeerPtr) : Record :=
  r.move j { r.blocks j with peer := peer, state := .finished } r.speed

def credit (r : Record) (j : Nat) (peer : PeerPtr) : Record := r.move j { r.blocks j with peer := peer } r.speed

def free (r : Record) (j : Nat) : Record := r.move j { r.blocks j with peer := .none, state := .none } r.speed

def withdraw (r : Record) (j : Nat) (peer : PeerPtr) : Record :=
  r.move j
    { r.blocks j with
      numPeers := (r.blocks j).numPeers - 1
      peer := if (r.blocks j).peer = peer then .none else (r.blocks j).peer } r.speed

theorem credit_eq (r : Record) (j : Nat) (peer : PeerPtr) : r.credit j peer =
    { r with blocks := update r.blocks j { r.blocks j with peer := peer } } := move_same rfl

theorem withdraw_eq (r : Record) (j : Nat) (peer : PeerPtr) : r.withdraw j peer = { r with
      blocks := update r.blocks j
        { r.blocks j with
          numPeers := (r.blocks j).numPeers - 1
          peer := if (r.blocks j).peer = peer then .none else (r.blocks j).peer } } := move_same rfl

/-! ## The counters -/

/-- The counters count the blocks in their states; only the blocks that a `piece_block` can name are in use. -/
structure Counted (n : Nat) (r : Record) : Prop where
  requested : r.requested = tally n fun j => decide ((r.blocks j).state = .requested)
  writing : r.writing = tally n fun j => decide ((r.blocks j).state = .writing)
  finished : r.finished = tally n fun j => decide ((r.blocks j).state = .finished)
  small : ∀ j, 2 ^ 13 ≤ j → (r.blocks j).state = .none

theorem counted_empty (n : Nat) : Counted n {} := by
  have h : ∀ st, st ≠ BlockState.none → (0 : Int) = tally n fun _ => decide (BlockState.none = st) := by
    intro st hst
    have : (tally n fun _ => decide (BlockState.none = st)) = 0 := by
      rw [tally_eq_zero]
      intro i _
      simpa using fun e => hst e.symm
    rw [this]
    rfl
  exact ⟨h _ (by decide), h _ (by decide), h _ (by decide), fun _ _ => rfl⟩

theorem tally_update (blocks : Nat → BlockInfo) (hj : j < n) (b : BlockInfo) (st : BlockState) :
    ((tally n fun i => decide ((Function.update blocks j b i).state = st) : Nat) : Int) =
      (tally n fun i => decide ((blocks i).state = st) : Nat) + change (blocks j).state b.state st := by
  have h := tally_change (f := fun i => decide ((blocks i).state = st))
    (g := fun i => decide ((update blocks j b i).state = st)) hj
    (fun i _ hne => by simp [update_of_ne hne])
  unfold change
  by_cases h1 : (blocks j).state = st <;> by_cases h2 : b.state = st <;> simp [h1, h2] at h ⊢ <;> omega

section

variable (h : Counted n r)
include h

theorem Counted.move (hj : j < n) (hs : j < 2 ^ 13) (b : BlockInfo) (speed : PieceState) :
    Counted n (r.move j b speed) where
  requested := by rw [Record.move, tally_update _ hj, ← h.requested]
  writing := by rw [Record.move, tally_update _ hj, ← h.writing]
  finished := by rw [Record.move, tally_update _ hj, ← h.finished]
  small := fun i hi => by
    rw [blocks_move_of_ne (by omega)]
    exact h.small i hi

/-- **The counters fit in 16 bits.** -/
theorem Counted.bounds {c : Int} (hc : c = r.requested ∨ c = r.writing ∨ c = r.finished) : 0 ≤ c ∧ c ≤ 2 ^ 13 := by
  have hle : ∀ st, st ≠ BlockState.none → (tally n fun j => decide ((r.blocks j).state = st)) ≤ 2 ^ 13 := by
    intro st hst
    refine tally_le_of (fun j hj => ?_) n
    rw [h.small j hj]
    simpa using fun e => hst e.symm
  have h1 := hle .requested (by decide)
  have h2 := hle .writing (by decide)
  have h3 := hle .finished (by decide)
  have h4 := h.requested
  have h5 := h.writing
  have h6 := h.finished
  omega

theorem Counted.total : r.total = tally n fun j => decide ((r.blocks j).state ≠ .none) := by
  have hsum : ∀ m, (tally m fun j => decide ((r.blocks j).state ≠ .none)) =
      (tally m fun j => decide ((r.blocks j).state = .requested)) +
        (tally m fun j => decide ((r.blocks j).state = .finished)) +
          tally m fun j => decide ((r.blocks j).state = .writing) := by
    intro m
    induction m with
    | zero => rfl
    | succ m ih =>
      simp only [tally_succ, ih]
      cases (r.blocks m).state <;> simp <;> omega
  rw [Record.total, h.requested, h.finished, h.writing, hsum]
  omega

theorem Counted.total_eq : r.total = n ↔ ∀ j < n, (r.blocks j).state ≠ .none := by
  rw [h.total, Int.natCast_inj, tally_eq_self]
  simp

theorem Counted.total_eq_zero : r.total = 0 ↔ ∀ j < n, (r.blocks j).state = .none := by
  rw [h.total, Int.natCast_eq_zero, tally_eq_zero]
  simp

end

/-! ## Records in use -/

/-- A record in use: the speed category is known exactly while blocks are requested, and some block is in use. -/
structure Ok (n : Nat) (r : Record) : Prop extends Counted n r where
  speed : r.speed = .none ↔ r.requested = 0
  live : ∃ j < n, (r.blocks j).state ≠ .none

def Peers (n : Nat) (r : Record) : Prop := ∀ j < n, 0 < (r.blocks j).numPeers ↔ (r.blocks j).state = .requested

def Solid (n : Nat) (r : Record) : Prop := ∀ j < n, (r.blocks j).state ≠ .none

theorem Counted.requested_pos (h : Counted n r) (hj : j < n) (hr : (r.blocks j).state = .requested) :
    0 < r.requested := by
  have : 0 < tally n fun j => decide ((r.blocks j).state = .requested) := tally_pos.mpr ⟨j, hj, by simpa using hr⟩
  rw [h.requested]
  omega

/-- A transition that keeps the speed category and the number of requests, to a state in use. -/
theorem Counted.move_ok (h : Counted n r) (hsp : r.speed = .none ↔ r.requested = 0) (hj : j < n) (hs : j < 2 ^ 13)
    (hl : ∃ k < n, ((r.move j b r.speed).blocks k).state ≠ .none)
    (hr : (r.blocks j).state = .requested ↔ b.state = .requested) : Ok n (r.move j b r.speed) where
  toCounted := h.move hj hs _ _
  speed := by
    have : change (r.blocks j).state b.state .requested = 0 := by
      unfold change
      by_cases hc : b.state = .requested <;> simp [hc, hr]
    rw [Record.move, this, Int.add_zero]
    exact hsp
  live := hl

theorem live_move (r : Record) (speed : PieceState) (hj : j < n) (hb : b.state ≠ .none) :
    ∃ k < n, ((r.move j b speed).blocks k).state ≠ .none := ⟨j, hj, by rw [blocks_move_self]; exact hb⟩

section

variable (h : Counted n r)
include h

theorem Counted.live (hne : r.total ≠ 0) : ∃ k < n, (r.blocks k).state ≠ .none := by
  by_contra hno
  exact hne (h.total_eq_zero.mpr fun k hk => by_contra fun hk' => hno ⟨k, hk, hk'⟩)

theorem Counted.request (hj : j < n) (hs : j < 2 ^ 13) (hsp : speed ≠ .none) : Ok n (r.request j peer speed) := by
  have hc : Counted n (r.request j peer speed) := h.move hj hs _ _
  have hst : ((r.request j peer speed).blocks j).state = .requested := by
    rw [Record.request, blocks_move_self]
  refine ⟨hc, ⟨fun he => ?_, fun he => ?_⟩, j, hj, by rw [hst]; decide⟩
  · exfalso
    simp only [Record.request, Record.move] at he
    split at he
    · exact hsp he
    · contradiction
  · have := hc.requested_pos hj hst
    omega

section

variable (hsp : r.speed = .none → r.requested = 0)
include hsp

/-- After `clearSpeed` the speed category is as it should be, if it was known while blocks were requested. -/
theorem Counted.clearSpeed (hl : ∃ j < n, (r.blocks j).state ≠ .none) : Ok n r.clearSpeed where
  toCounted := ⟨h.requested, h.writing, h.finished, h.small⟩
  speed := by
    simp only [Record.clearSpeed]
    split_ifs with h0
    · exact iff_of_true rfl h0
    · exact iff_of_false (fun e => h0 (hsp e)) h0
  live := hl

theorem Counted.speed_move (hj : j < n) (hs : j < 2 ^ 13)
    (hb : b.state ≠ .requested) (he : r.speed = .none) : (r.move j b r.speed).requested = 0 := by
  have h0 := hsp he
  have h1 := ((h.move hj hs b r.speed).bounds (Or.inl rfl)).1
  simp only [Record.move, change, if_neg hb] at h1 ⊢
  by_cases hc : (r.blocks j).state = .requested
  · rw [if_pos hc] at h1 ⊢
    omega
  · rw [if_neg hc]
    omega

theorem Counted.write (hj : j < n) (hs : j < 2 ^ 13) : Ok n (r.write j peer) :=
  (h.move hj hs _ _).clearSpeed (h.speed_move hsp hj hs (fun e => by cases e))
    (live_move r r.speed hj (fun e => by cases e))

end

theorem Counted.finish (hsp : r.speed = .none ↔ r.requested = 0) (hj : j < n) (hs : j < 2 ^ 13)
    (hst : (r.blocks j).state ≠ .requested) : Ok n (r.finish j peer) :=
  h.move_ok hsp hj hs (live_move r r.speed hj (fun e => by cases e)) (iff_of_false hst (fun e => by cases e))

end

variable {r' : Record}

theorem Peers.change (h : Peers n r) (hne : ∀ k, k ≠ j → r'.blocks k = r.blocks k)
    (hb : 0 < (r'.blocks j).numPeers ↔ (r'.blocks j).state = .requested) : Peers n r' := by
  intro k hk
  by_cases e : k = j
  · rw [e]
    exact hb
  · rw [hne k e]
    exact h k hk

theorem Peers.move_iff (h : Peers n r) (hj : j < n) :
    Peers n (r.move j b speed) ↔ (0 < b.numPeers ↔ b.state = .requested) := by
  constructor
  · intro hm
    have := hm j hj
    rwa [blocks_move_self] at this
  · intro hb
    exact h.change (fun k hk => blocks_move_of_ne hk ..) (by rw [blocks_move_self]; exact hb)

theorem peers_empty (n : Nat) : Peers n {} := fun _ _ => iff_of_false (Nat.lt_irrefl 0) (fun e => by cases e)

theorem Solid.move (h : Solid n r) (hb : b.state ≠ .none) : Solid n (r.move j b speed) := by
  intro k hk
  by_cases e : k = j
  · rw [e, blocks_move_self]
    exact hb
  · rw [blocks_move_of_ne e]
    exact h k hk

/-- The records differ in who is credited for the blocks. -/
structure Alike (r r' : Record) : Prop where
  counters : (r'.speed, r'.finished, r'.writing, r'.requested) = (r.speed, r.finished, r.writing, r.requested)
  blocks : ∀ j, (r'.blocks j).state = (r.blocks j).state ∧ (r'.blocks j).numPeers = (r.blocks j).numPeers

theorem Alike.ok (h : Alike r r') (hr : Ok n r) : Ok n r' := by
  obtain ⟨h1, h2⟩ := h
  simp only [Prod.mk.injEq] at h1
  obtain ⟨e1, e2, e3, e4⟩ := h1
  have hst := fun j => (h2 j).1
  refine ⟨⟨?_, ?_, ?_, fun j hj => ?_⟩, ?_, ?_⟩
  · simp only [e4, hst]
    exact hr.requested
  · simp only [e3, hst]
    exact hr.writing
  · simp only [e2, hst]
    exact hr.finished
  · rw [hst]
    exact hr.small j hj
  · rw [e1, e4]
    exact hr.speed
  · simp only [hst]
    exact hr.live

theorem Alike.peers (h : Alike r r') (hr : Peers n r) : Peers n r' := fun j hj => by
  rw [(h.blocks j).1, (h.blocks j).2]
  exact hr j hj

theorem Alike.solid (h : Alike r r') (hr : Solid n r) : Solid n r' := fun j hj => by
  rw [(h.blocks j).1]
  exact hr j hj

end Record

end Libtorrent.Picker
