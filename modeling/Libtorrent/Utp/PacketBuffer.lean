import Mathlib.Algebra.Order.Ring.Int
import Mathlib.Data.List.Basic

/-!
# `packet_buffer`

A circular buffer that is indexed by 16-bit sequence numbers and grows when it has to. The indices are `uint32_t`: a
difference wraps at `2 ^ 32` before it is masked. A null pointer is `none`.
-/

namespace Libtorrent.Utp

def sub32 (a b : Nat) : Nat := (a + 2 ^ 32 - b) % 2 ^ 32

/-- `compare_less_wrap(lhs, rhs, mask)`: the way from `lhs` up to `rhs` is shorter than the way down. -/
def compareLessWrap (lhs rhs mask : Nat) : Bool :=
  let distDown := sub32 lhs rhs &&& mask
  let distUp := sub32 rhs lhs &&& mask
  distUp < distDown

structure PacketBuffer (V : Type) where
  storage : List (Option V)
  capacity : Nat
  size : Nat
  first : Nat
  last : Nat
  deriving DecidableEq, Repr

namespace PacketBuffer

variable {V : Type}

def new : PacketBuffer V := ⟨[], 0, 0, 0, 0⟩

variable (s : PacketBuffer V)

def cell (i : Nat) : Option V := s.storage.getD (i &&& (s.capacity - 1)) none

/-- `while (new_size < size) new_size <<= 1`, in at most `fuel` rounds. -/
def doubled : (fuel newSize size : Nat) → Nat
  | 0, newSize, _ => newSize
  | fuel + 1, newSize, size => if newSize < size then doubled fuel (newSize <<< 1) size else newSize

/-- `reserve(size)`: every element moves to its slot in the new storage. -/
def reserve (size : Nat) : PacketBuffer V :=
  let newSize := doubled size (if s.capacity = 0 then 16 else s.capacity) size
  let newStorage := (List.range s.capacity).foldl
    (fun st d => st.set ((s.first + d) &&& (newSize - 1)) (s.cell (s.first + d))) (List.replicate newSize none)
  { s with storage := newStorage, capacity := newSize }

/-- The loop in `insert` that counts the free slots before `m_first`; it stops after `m_capacity` rounds at the
latest. -/
def freeSpace (s : PacketBuffer V) : (fuel i : Nat) → Nat
  | 0, _ => 0
  | fuel + 1, i =>
    if i = s.first &&& (s.capacity - 1) then 0
    else if (s.cell i).isSome then 0
    else s.freeSpace fuel (sub32 i 1 &&& (s.capacity - 1)) + 1

/-- The part of `insert` that makes room for `idx` in a buffer that is not empty. -/
def makeRoom (idx : Nat) : PacketBuffer V :=
  if compareLessWrap idx s.first 0xffff then
    -- the index comes before `m_first`
    let free := s.freeSpace s.capacity (sub32 s.first 1 &&& (s.capacity - 1))
    let s := if (sub32 s.first idx &&& 0xffff) > free then
      s.reserve ((sub32 s.first idx &&& 0xffff) + s.capacity - free) else s
    { s with first := idx }
  else if idx ≥ s.first + s.capacity then s.reserve (idx - s.first + 1)
  else if idx < s.first then
    -- the index has wrapped
    if idx ≥ (s.first + s.capacity) &&& 0xffff ∧ s.capacity < 0xffff then
      s.reserve (s.capacity + (idx + 1 - ((s.first + s.capacity) &&& 0xffff)))
    else s
  else s

/-- The part of `insert` that moves `m_last` behind `idx`. -/
def extendLast (idx : Nat) : PacketBuffer V :=
  if compareLessWrap s.last ((idx + 1) &&& 0xffff) 0xffff then { s with last := (idx + 1) &&& 0xffff } else s

def atIdx (idx : Nat) : Option V :=
  if idx ≥ s.first + s.capacity then none
  else if compareLessWrap idx s.first 0xffff then none
  else s.cell idx

/-- The loop in `remove` that looks for the next element from `i` on. -/
def scanUp (s : PacketBuffer V) : (rounds i : Nat) → Nat
  | 0, i => i
  | rounds + 1, i => if (s.cell i).isSome then i else s.scanUp rounds (i + 1)

/-- The loop in `remove` that looks for the element before. -/
def scanDown (s : PacketBuffer V) : (rounds i : Nat) → Nat
  | 0, i => i
  | rounds + 1, i => if (s.cell i).isSome then i else s.scanDown rounds (sub32 i 1)

/-- The end of `remove` when the first element has gone. -/
def advanceFirst : PacketBuffer V :=
  { s with first := s.scanUp s.capacity (s.first + 1) &&& 0xffff }

/-- The end of `remove` when the last element has gone. -/
def retreatLast : PacketBuffer V :=
  { s with last := (s.scanDown s.capacity (sub32 s.last 1) + 1) &&& 0xffff }

/-- `remove(idx)`, with the value that was stored. -/
def remove (idx : Nat) : PacketBuffer V × Option V :=
  if idx ≥ s.first + s.capacity then (s, none)
  else if compareLessWrap idx s.first 0xffff then (s, none)
  else
    let oldValue := s.cell idx
    let s : PacketBuffer V := { s with storage := s.storage.set (idx &&& (s.capacity - 1)) none }
    let s : PacketBuffer V := if oldValue.isSome then
      let s : PacketBuffer V := { s with size := s.size - 1 }
      if s.size = 0 then { s with last := s.first } else s
    else s
    let s := if idx = s.first ∧ s.size ≠ 0 then s.advanceFirst else s
    let s := if (idx + 1) &&& 0xffff = s.last ∧ s.size ≠ 0 then s.retreatLast else s
    (s, oldValue)

/-- The end of `insert`: the value goes into its slot. -/
def store (idx : Nat) (value : V) : PacketBuffer V × Option V :=
  let oldValue := s.cell idx
  let s := { s with storage := s.storage.set (idx &&& (s.capacity - 1)) (some value) }
  let s := if s.size = 0 then { s with first := idx } else s
  let s := if oldValue.isNone then { s with size := s.size + 1 } else s
  (s, oldValue)

/-- `insert(idx, value)`, with the value that was stored. -/
def insert (idx : Nat) : Option V → PacketBuffer V × Option V
  | none => s.remove idx
  | some value =>
    let s := if s.size ≠ 0 then (s.makeRoom idx).extendLast idx
      else { s with first := idx, last := (idx + 1) &&& 0xffff }
    let s := if s.capacity = 0 then s.reserve 16 else s
    s.store idx value

def cursor : Nat := s.first

def span : Nat := sub32 s.last s.first &&& 0xffff

end PacketBuffer

end Libtorrent.Utp
