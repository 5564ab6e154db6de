import Libtorrent.Picker.Basic

/-!
# The rarest-first index: `add`, `remove`, `update`, `shuffle` and `update_pieces`

`m_pieces` holds the pickable pieces sorted by priority; `m_priority_boundries[q]` is the end of the range of priority
`q`. A piece moves between ranges by moving one element per range into the slot that is free and shifting every
boundary on the way. The functions take the outcome of `random()` as an argument; the shuffles of `update_pieces`
take one outcome per position.
-/

namespace Libtorrent.Picker.PiecePicker

variable (s : PiecePicker)

def piece (k : Nat) : Nat := s.pieces.getD k 0

def boundry (q : Nat) : Nat := s.priorityBoundries.getD q 0

def setPiece (k p : Nat) : PiecePicker := { s with pieces := s.pieces.set k p }

def setIndex (p k : Nat) : PiecePicker := s.modifyPos p fun x => { x with index := k }

def setBoundry (q b : Nat) : PiecePicker :=
  { s with priorityBoundries := s.priorityBoundries.set q b }

def place (k p : Nat) : PiecePicker := (s.setPiece k p).setIndex p k

def pushPiece (p : Nat) : PiecePicker := { s with pieces := s.pieces ++ [p] }

def popPiece : PiecePicker := { s with pieces := s.pieces.dropLast }

/-- `m_priority_boundries.resize(q + 1, m_pieces.size())` when it has no entry `q`. -/
def growBoundries (q : Nat) : PiecePicker :=
  if s.priorityBoundries.length ≤ q then
    { s with priorityBoundries := Vec.resize s.priorityBoundries (q + 1) s.pieces.length }
  else s

def rangeStart (prio : Nat) : Nat := if prio = 0 then 0 else s.boundry (prio - 1)

def rangeEnd (prio : Nat) : Nat := s.boundry prio

/-- The inner loop of `add`: shift boundaries up until one does not end at `newIndex`. Returns the state, the next
priority and the end of the last range passed. -/
def addShift : Nat → PiecePicker → Nat → Nat → PiecePicker × Nat × Nat
  | 0, s, priority, newIndex => (s, priority, newIndex)
  | fuel + 1, s, priority, newIndex =>
    let temp := s.boundry priority
    let s := s.setBoundry priority (temp + 1)
    if temp = newIndex ∧ priority + 1 < s.priorityBoundries.length then addShift fuel s (priority + 1) newIndex
    else (s, priority + 1, temp)

/-- The outer loop of `add`: put `index` at `newIndex` and carry on with the piece that was there. Returns the state,
the last slot and the piece to put there. -/
def addLoop : Nat → PiecePicker → Nat → Nat → Nat → PiecePicker × Nat × Nat
  | 0, s, _, newIndex, index => (s, newIndex, index)
  | fuel + 1, s, priority, newIndex, index =>
    let temp := s.piece newIndex
    let s := s.place newIndex index
    let (s, priority, newIndex) := addShift (s.priorityBoundries.length - priority) s priority newIndex
    if s.priorityBoundries.length ≤ priority then (s, newIndex, temp)
    else addLoop fuel s priority newIndex temp

/-- The slot `add` chooses: any slot of the range of `priority`, or the one after it. -/
def newSlot (priority rnd : Nat) : Nat :=
  let start := s.rangeStart priority
  let stop := s.rangeEnd priority
  if stop = start then start else rnd % (stop - start + 1) + start

/-- The end of `add`: put down the piece still in hand, if any. -/
def addLast (r : PiecePicker × Nat × Nat) : PiecePicker :=
  if r.2.2 ≠ noPiece then r.1.place r.2.1 r.2.2 else r.1

def add (index rnd : Nat) : PiecePicker :=
  match s.priority index with
  | none => s
  | some priority =>
    let s := s.growBoundries priority
    let newIndex := s.newSlot priority rnd
    let s := s.pushPiece noPiece
    addLast (addLoop (s.priorityBoundries.length - priority) s priority newIndex index)

def removeLoop : Nat → PiecePicker → Nat → Nat → PiecePicker
  | 0, s, _, _ => s
  | fuel + 1, s, priority, elemIndex =>
    let temp := s.boundry priority - 1
    let s := s.setBoundry priority temp
    -- the free slot is the last one of its range already
    if temp = elemIndex then removeLoop fuel s (priority + 1) elemIndex
    else removeLoop fuel (s.place elemIndex (s.piece temp)) (priority + 1) temp

def remove (priority elemIndex : Nat) : PiecePicker :=
  (removeLoop (s.priorityBoundries.length - priority) s priority elemIndex).popPiece

def shuffle (priority elemIndex rnd : Nat) : PiecePicker :=
  let start := s.rangeStart priority
  let stop := s.rangeEnd priority
  let otherIndex := rnd % (stop - start) + start
  if otherIndex = elemIndex then s
  else
    let p₁ := s.piece otherIndex
    let p₂ := s.piece elemIndex
    let i₁ := (s.pos p₁).index
    let i₂ := (s.pos p₂).index
    let s := (s.setIndex p₁ i₂).setIndex p₂ i₁
    (s.setPiece otherIndex p₂).setPiece elemIndex p₁

/-- The loop of `update` towards lower priorities; `temp` is the piece moved last. Returns the free slot. -/
def updateDown : Nat → PiecePicker → Nat → Nat → Nat → PiecePicker × Nat
  | 0, s, _, elemIndex, _ => (s, elemIndex)
  | steps + 1, s, priority, elemIndex, temp =>
    let priority := priority - 1
    let newIndex := s.boundry priority
    let s := s.setBoundry priority (newIndex + 1)
    if temp ≠ s.piece newIndex then
      let temp := s.piece newIndex
      updateDown steps (s.place elemIndex temp) priority newIndex temp
    else updateDown steps s priority newIndex temp

/-- The loop of `update` towards higher priorities. -/
def updateUp : Nat → PiecePicker → Nat → Nat → Nat → PiecePicker × Nat
  | 0, s, _, elemIndex, _ => (s, elemIndex)
  | steps + 1, s, priority, elemIndex, temp =>
    let newIndex := s.boundry priority - 1
    let s := s.setBoundry priority newIndex
    if temp ≠ s.piece newIndex then
      let temp := s.piece newIndex
      updateUp steps (s.place elemIndex temp) (priority + 1) newIndex temp
    else updateUp steps s (priority + 1) newIndex temp

/-- The loops of `update`. Returns the slot that is free at the end. -/
def updateLoop (priority newPriority elemIndex index : Nat) : PiecePicker × Nat :=
  if newPriority < priority then updateDown (priority - newPriority) s priority elemIndex index
  else updateUp (newPriority - priority) s priority elemIndex index

def update (priority elemIndex rnd : Nat) : PiecePicker :=
  let index := s.piece elemIndex
  match s.priority index with
  | none => s.remove priority elemIndex
  | some newPriority =>
    if newPriority = priority then s
    else
      let r := (s.growBoundries newPriority).updateLoop priority newPriority elemIndex index
      (r.1.place r.2 index).shuffle newPriority r.2 rnd

/-! ## Rebuilding the index -/

/-- All counters of `m_priority_boundries` start at 0; there is at least one. -/
def clearRanges : PiecePicker :=
  let boundries := if s.priorityBoundries = [] then [0] else s.priorityBoundries
  { s with priorityBoundries := boundries.map fun _ => 0 }

def growCounts (prio : Nat) : PiecePicker :=
  if s.priorityBoundries.length ≤ prio then
    { s with priorityBoundries := Vec.resize s.priorityBoundries (prio + 1) 0 }
  else s

/-- The first loop of `update_pieces`, over `m_piece_map[i..]`: count every range, and number the pieces of a range in
`index`. -/
def countRanges : Nat → PiecePicker → Nat → PiecePicker
  | 0, s, _ => s
  | fuel + 1, s, i =>
    match s.priority i with
    | none => countRanges fuel s (i + 1)
    | some prio =>
      let s := s.growCounts prio
      let s := s.setIndex i (s.boundry prio)
      countRanges fuel (s.setBoundry prio (s.boundry prio + 1)) (i + 1)

/-- The running sums of the range sizes, from `index` on. -/
def sumRanges : Nat → List Nat → List Nat
  | _, [] => []
  | index, b :: bs => (b + index) :: sumRanges (b + index) bs

/-- The ranges end at the running sums, and `m_pieces` has room for all of them. -/
def closeRanges : PiecePicker :=
  let boundries := sumRanges 0 s.priorityBoundries
  { s with priorityBoundries := boundries, pieces := Vec.resize s.pieces (boundries.getLastD 0) 0 }

/-- The second pass over `m_piece_map[i..]`: file every piece at its number within its range. -/
def filePieces : Nat → PiecePicker → Nat → PiecePicker
  | 0, s, _ => s
  | fuel + 1, s, i =>
    match s.priority i with
    | none => filePieces fuel s (i + 1)
    | some prio => filePieces fuel (s.setPiece (s.rangeStart prio + (s.pos i).index) i) (i + 1)

/-- `std::random_shuffle` of `m_pieces[start, stop)`, from position `start + k` on: swap with a position not above. -/
def randomShuffle (rnd : Nat → Nat) (start : Nat) : Nat → PiecePicker → Nat → PiecePicker
  | 0, s, _ => s
  | fuel + 1, s, k =>
    let j := start + rnd (start + k) % (k + 1)
    let a := s.piece (start + k)
    let b := s.piece j
    randomShuffle rnd start fuel ((s.setPiece (start + k) b).setPiece j a) (k + 1)

/-- Shuffle every range that is not empty. -/
def shuffleRanges (rnd : Nat → Nat) : PiecePicker → Nat → List Nat → PiecePicker
  | s, _, [] => s
  | s, start, b :: bs =>
    if start = b then shuffleRanges rnd s start bs
    else shuffleRanges rnd (randomShuffle rnd start (b - start - 1) s 1) b bs

/-- The last pass, over `m_pieces[k..]`: the back pointers. -/
def indexPieces : Nat → PiecePicker → Nat → PiecePicker
  | 0, s, _ => s
  | fuel + 1, s, k => indexPieces fuel (s.setIndex (s.piece k) k) (k + 1)

def updatePieces (rnd : Nat → Nat) : PiecePicker :=
  let s := countRanges s.numPieces s.clearRanges 0
  let s := s.closeRanges
  let s := filePieces s.numPieces s 0
  let s := shuffleRanges rnd s 0 s.priorityBoundries
  let s := indexPieces s.pieces.length s 0
  { s with dirty := false }

end Libtorrent.Picker.PiecePicker
