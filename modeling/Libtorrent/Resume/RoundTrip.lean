import Mathlib.Data.Nat.Bitwise
import Libtorrent.Metainfo.FileStorage
import Libtorrent.Torrent.Sizes

/-!
# Resume data

What `torrent::write_resume_data` stores about the pieces, and how `torrent::on_resume_data_checked` reads it when the
resume data is accepted. The other keys of the dictionary (statistics, trackers, peers, …) do not reach the picker and
are left out. The look-ups are those of `lazy_entry`, on the entry that it stands for.
-/

namespace Libtorrent.Resume

open Picker Bencode Libtorrent.Torrent
open Metainfo (bytes)

/-- `torrent`, as far as resume data goes; `seeding` is `m_state == torrent_status::seeding`. -/
structure Torrent where
  sizes : Sizes
  picker : PiecePicker
  seeding : Bool := false
  seedMode : Bool := false
  verified : Bitfield := []

variable (t : Torrent)

def Torrent.isSeed : Bool := t.seeding || decide (t.picker.numHave = t.picker.numPieces)

def numBlocksPerPiece (z : Sizes) : Nat := z.pieceLength / z.blockSize

def numBitmaskBytes (z : Sizes) : Nat := max (numBlocksPerPiece z / 8) 1

def numBits (z : Sizes) (j : Nat) : Nat := min (numBlocksPerPiece z - j * 8) 8

/-! ## Writing -/

/-- Byte `j` of the mask of an unfinished piece. -/
def bitmaskByte (z : Sizes) (finished : Nat → Bool) (j : Nat) : UInt8 :=
  UInt8.ofNat ((List.range (numBits z j)).foldl (fun v k => v ||| if finished (j * 8 + k) then 1 <<< k else 0) 0)

def bitmask (z : Sizes) (finished : Nat → Bool) : Bytes :=
  (List.range (numBitmaskBytes z)).map (bitmaskByte z finished)

/-- The unfinished piece of the `i`-th entry of the download queue. -/
def pieceStruct (i : Nat) : Entry :=
  .dictionary (assign (bytes "bitmask")
    (.string (bitmask t.sizes fun j => (t.picker.block i j).state == .finished))
    (assign (bytes "piece") (.int (t.picker.dl i).index) []))

def unfinished : List Entry :=
  ((List.range t.picker.downloads.length).filter fun i => (t.picker.dl i).finished != 0).map (pieceStruct t)

/-- The byte of a piece: bit 0 if we have it, bit 1 if we have verified it in seed mode. -/
def pieceByte (i : Nat) : UInt8 :=
  let b : UInt8 := if t.isSeed || (t.picker.pos i).have then 1 else 0
  if t.seedMode then b ||| (if t.verified.getD i false then 2 else 0) else b

def writeResumeData : Entry :=
  let ret := assign (bytes "blocks per piece") (.int (numBlocksPerPiece t.sizes)) []
  let ret := if t.isSeed then ret else assign (bytes "unfinished") (.list (unfinished t)) ret
  .dictionary (assign (bytes "pieces") (.string ((List.range t.sizes.numPieces).map (pieceByte t))) ret)

/-! ## Reading -/

def dictFind (name : Bytes) : Entry → Option Entry
  | .dictionary d => (d.find? fun kv => kv.1 = name).map Prod.snd
  | _ => none

def dictFindList (name : Bytes) (e : Entry) : Option (List Entry) :=
  match dictFind name e with
  | some (.list l) => some l
  | _ => none

def dictFindIntValue (name : Bytes) (defaultVal : Int) (e : Entry) : Int :=
  match dictFind name e with
  | some (.int n) => n
  | _ => defaultVal

def dictFindStringValue (name : Bytes) (e : Entry) : Bytes :=
  match dictFind name e with
  | some (.string s) => s
  | _ => []

/-- `list_int_value_at(i, -1)` for an item. -/
def intValue : Entry → Int
  | .int n => n
  | _ => -1

def weHave (t : Torrent) (index : Nat) : Torrent := { t with picker := t.picker.weHave index }

def readPieceByte (pieces : Bytes) (t : Torrent) (i : Nat) : Torrent :=
  let c := pieces.getD i 0
  let t := if c &&& 1 ≠ 0 then weHave t i else t
  if t.seedMode ∧ c &&& 2 ≠ 0 then { t with verified := t.verified.set i true } else t

/-- The slots of the compact format of earlier versions. -/
def readSlots (rd : Entry) (t : Torrent) : Torrent :=
  match dictFind (bytes "slots") rd with
  | some (.list slots) => slots.foldl (fun t e => if 0 ≤ intValue e then weHave t (intValue e).toNat else t) t
  | _ => t

def readPieces (rd : Entry) (t : Torrent) : Torrent :=
  match dictFind (bytes "pieces") rd with
  | some (.string pieces) =>
    if pieces.length = t.sizes.numPieces then (List.range pieces.length).foldl (readPieceByte pieces) t
    else readSlots rd t
  | _ => readSlots rd t

/-- The torrent while the unfinished pieces are read, and the pieces for which `async_verify_piece` was called. -/
structure Reading where
  torrent : Torrent
  verify : List Nat := []

/-- A block that the mask says is finished; `rnd` is the random number that its move in the index uses. -/
def readBlock (rnd : Nat) (piece block : Nat) (r : Reading) : Reading :=
  let picker := r.torrent.picker.markAsFinished (.of piece block) none rnd
  { torrent := { r.torrent with picker := picker }
    verify := if picker.isPieceFinished piece then r.verify ++ [piece] else r.verify }

def readMaskByte (rnd : Nat → Nat → Nat) (piece : Nat) (mask : Bytes) (r : Reading) (k : Nat) : Reading :=
  (List.range (numBits r.torrent.sizes k)).foldl (fun r b =>
    if (mask.getD k 0).toNat &&& (1 <<< b) ≠ 0 then readBlock (rnd piece (k * 8 + b)) piece (k * 8 + b) r else r) r

def readUnfinished (rnd : Nat → Nat → Nat) (r : Reading) : Entry → Reading
  | .dictionary d =>
    let piece := dictFindIntValue (bytes "piece") (-1) (.dictionary d)
    if piece < 0 ∨ piece > r.torrent.sizes.numPieces then r
    else
      let p := piece.toNat
      let r := if (r.torrent.picker.pos p).have
        then { r with torrent := { r.torrent with picker := r.torrent.picker.weDontHave p (rnd p 0) } } else r
      let mask := dictFindStringValue (bytes "bitmask") (.dictionary d)
      if mask = [] ∨ mask.length ≠ numBitmaskBytes r.torrent.sizes then r
      else (List.range (numBitmaskBytes r.torrent.sizes)).foldl (readMaskByte rnd p mask) r
  | _ => r

/-- `on_resume_data_checked(ret, j)` for `ret == 0` without an error. -/
def onResumeDataChecked (rd : Entry) (rnd : Nat → Nat → Nat) (t : Torrent) : Reading :=
  match rd with
  | .dictionary d =>
    let t := readPieces (.dictionary d) t
    match dictFindList (bytes "unfinished") (.dictionary d) with
    | some l => l.foldl (readUnfinished rnd) { torrent := t }
    | none => { torrent := t }
  | _ => { torrent := t }

/-!
## Reading resume data back

`read_pieces` restores the pieces (`readPieces_restores`). The mask of an unfinished piece has bits for the first
`savedBlocks` blocks only: `num_bitmask_bytes` is rounded down, and so is the number of blocks per piece. Reading the
masks back finishes exactly the blocks that were finished and have a bit (`reading_marked`). So the download is restored
exactly if every finished block has one (`resume_restores_iff`).
-/

open Function List Nat PieceBlock PiecePicker

variable {z : Sizes} {t t₀ : Torrent} {s : PiecePicker}

/-! ## Masks -/

theorem testBit_mask (f : Nat → Bool) (n b : Nat) :
    ((List.range n).foldl (fun v k => v ||| if f k then 1 <<< k else 0) 0).testBit b = (decide (b < n) && f b) := by
  induction n with
  | zero => simp
  | succ n ih =>
    rw [range_succ, foldl_append, foldl_cons, foldl_nil, testBit_or, ih]
    by_cases hb : b = n
    · subst hb
      cases hf : f b <;> simp [one_shiftLeft]
    · have hne : ¬ n = b := fun h => hb h.symm
      have hlt : b < n + 1 ↔ b < n := by omega
      cases hf : f n <;> simp [one_shiftLeft, hne, hlt]

variable {j b p : Nat} {had : Nat → Bool}

theorem bitmaskByte_bit {f : Nat → Bool} (hb : b < numBits z j) :
    (bitmaskByte z f j).toNat &&& (1 <<< b) ≠ 0 ↔ f (j * 8 + b) = true := by
  have h8 : b < 8 := lt_of_lt_of_le hb (min_le_right _ _)
  have hbit : (bitmaskByte z f j).toNat.testBit b = f (j * 8 + b) := by
    rw [bitmaskByte, UInt8.toNat_ofNat', show (2 : Nat) ^ 8 = 2 ^ 8 from rfl, testBit_mod_two_pow, testBit_mask]
    simp [h8, hb]
  rw [one_shiftLeft, and_two_pow, hbit]
  cases f (j * 8 + b) <;> simp

/-- The number of blocks of a piece that the mask has bits for. -/
def savedBlocks (z : Sizes) : Nat := min (numBlocksPerPiece z) (8 * numBitmaskBytes z)

theorem lt_savedBlocks : j < savedBlocks z ↔ j / 8 < numBitmaskBytes z ∧ j % 8 < numBits z (j / 8) := by
  unfold savedBlocks numBits
  omega

theorem bit_lt {k : Nat} (hk : k < numBitmaskBytes z) (hb : b < numBits z k) : k * 8 + b < savedBlocks z := by
  unfold savedBlocks
  unfold numBits at hb
  omega

theorem savedBlocks_le (z : Sizes) : savedBlocks z ≤ z.blocksPerPiece := by
  refine Nat.le_trans (Nat.min_le_left _ _) (Nat.div_le_div_right ?_)
  have := z.blockSize_pos
  omega

/-! ## The dictionary -/

theorem dictFind_pieces (t : Torrent) : dictFind (bytes "pieces") (writeResumeData t) =
    some (.string ((List.range t.sizes.numPieces).map (pieceByte t))) := by
  unfold writeResumeData
  cases t.isSeed <;> rfl

theorem dictFindList_unfinished (t : Torrent) : dictFindList (bytes "unfinished") (writeResumeData t) =
    if t.isSeed then none else some (unfinished t) := by
  unfold writeResumeData
  cases t.isSeed <;> rfl

theorem pieceByte_have (t : Torrent) (i : Nat) :
    pieceByte t i &&& 1 ≠ 0 ↔ (t.isSeed || (t.picker.pos i).have) = true := by
  unfold pieceByte
  cases t.isSeed || (t.picker.pos i).have <;> cases t.seedMode <;> cases t.verified.getD i false <;> decide

/-! ## The pieces -/

def Idle (s : PiecePicker) : Prop := ∀ q, s.book q = none

theorem weHave_idle (h : Orderly s) (hp : p < s.numPieces) (hi : Idle s) : Idle (s.weHave p) := by
  obtain ⟨g1, -, h1⟩ := (weHaveCore_spec h.2 hp).1.book
  obtain ⟨g2, -, h2⟩ := (SameBook.of_refiled (weHave_sound h.1 hp).2).book
  intro q
  have hdrop : (s.dropEntry p).book q = none := by
    rw [(dropEntry_amends h.2 p).book]
    by_cases hq : q = p
    · rw [hq, update_self]
    · rw [update_of_ne hq, hi q]
  have hcore : (s.weHaveCore p).book q = none := by rw [h1, hdrop, Option.map_none]
  exact (h2 q).trans (by rw [hcore, Option.map_none])

/-- A torrent of the same sizes that has the pieces `had` and no block in use. -/
structure Restored (t : Torrent) (had : Nat → Bool) (t' : Torrent) : Prop where
  sizes : t'.sizes = t.sizes
  intact : Intact t'.picker
  shaped : Shaped t.sizes t'.picker
  idle : Idle t'.picker
  «have» : ∀ q < t.sizes.numPieces, (t'.picker.pos q).have = had q

/-- A torrent in its initial state, of the same sizes. -/
def Initial (t t₀ : Torrent) : Prop := Restored t (fun _ => false) t₀

theorem weHave_restored (R : Restored t had t₀) (hp : p < t.sizes.numPieces) :
    Restored t (update had p true) (weHave t₀ p) := by
  have hp' : p < t₀.picker.numPieces := by rw [R.shaped.numPieces]; exact hp
  obtain ⟨S, hh⟩ := weHave_settle R.intact.orderly hp'
  have hintact : Intact (t₀.picker.weHave p) := step_intact (.weHave p) R.intact hp' trivial
  have hshape := (SameBook.of_refiled (weHave_sound R.intact.orderly.1 hp').2).shape
  have hshape' := (weHaveCore_spec R.intact.orderly.2 hp').1.shape
  have hshape'' := (dropEntry_amends R.intact.orderly.2 p).shape
  refine ⟨R.sizes, hintact, ⟨?_, ?_, ?_, R.shaped.piece_lt, R.shaped.block_lt⟩, weHave_idle R.intact.orderly hp' R.idle,
    fun q hq => ?_⟩
  · exact ((hshape.1.trans hshape'.1).trans hshape''.1).trans R.shaped.numPieces
  · exact ((hshape.2.1.trans hshape'.2.1).trans hshape''.2.1).trans R.shaped.blocksPerPiece
  · exact ((hshape.2.2.trans hshape'.2.2).trans hshape''.2.2).trans R.shaped.blocksInLastPiece
  by_cases hqp : q = p
  · rw [hqp, update_self]
    exact hh
  · rw [update_of_ne hqp, ← R.have q hq]
    exact S.have q hqp

theorem readPieceByte_restored (pieces : Bytes) (R : Restored t had t₀)
    (hp : p < t.sizes.numPieces) (hnot : had p = false) :
    Restored t (update had p (decide (pieces.getD p 0 &&& 1 ≠ 0))) (readPieceByte pieces t₀ p) := by
  have hverify : ∀ {had : Nat → Bool} {u : Torrent}, Restored t had u →
      Restored t had (if u.seedMode ∧
        pieces.getD p 0 &&& 2 ≠ 0 then { u with verified := u.verified.set p true } else u) := by
    intro had u R
    split
    · exact ⟨R.sizes, R.intact, R.shaped, R.idle, R.have⟩
    · exact R
  refine hverify ?_
  by_cases hc : pieces.getD p 0 &&& 1 ≠ 0
  · rw [if_pos hc, decide_eq_true hc]
    exact weHave_restored R hp
  · rw [if_neg hc, decide_eq_false hc, ← hnot, update_eq_self]
    exact R

theorem readPieces_restored (I : Initial t t₀) :
    Restored t (fun q => t.isSeed || (t.picker.pos q).have) (readPieces (writeResumeData t) t₀) := by
  rw [readPieces, dictFind_pieces]
  dsimp only
  rw [if_pos (by rw [length_map, length_range, I.sizes]), length_map, length_range]
  generalize hpieces : (List.range t.sizes.numPieces).map (pieceByte t) = pieces
  -- after `n` bytes, the first `n` pieces are right
  have hrun : ∀ n ≤ t.sizes.numPieces, Restored t (fun q => decide (q < n) && (t.isSeed || (t.picker.pos q).have))
        ((List.range n).foldl (readPieceByte pieces) t₀) := by
    intro n
    induction n with
    | zero =>
      intro _
      exact ⟨I.sizes, I.intact, I.shaped, I.idle, fun q hq => by simpa using I.have q hq⟩
    | succ n ih =>
      intro hn
      rw [range_succ, foldl_append, foldl_cons, foldl_nil]
      have R := readPieceByte_restored pieces (ih (by omega)) hn (by simp)
      refine ⟨R.sizes, R.intact, R.shaped, R.idle, fun q hq => ?_⟩
      rw [R.have q hq]
      by_cases hqn : q = n
      · subst hqn
        have hget : pieces.getD q 0 = pieceByte t q := by
          rw [← hpieces, getD_eq_getElem?_getD, List.getElem?_map, List.getElem?_range hn]
          rfl
        rw [update_self, hget, decide_eq_true (lt_succ_self q), Bool.true_and, Bool.eq_iff_iff, decide_eq_true_iff]
        exact pieceByte_have t q
      · have hlt : q < n + 1 ↔ q < n := by omega
        rw [update_of_ne hqn]
        simp only [hlt]
  have R := hrun _ (le_refl _)
  refine ⟨R.sizes, R.intact, R.shaped, R.idle, fun q hq => ?_⟩
  rw [R.have q hq, decide_eq_true hq, Bool.true_and]

/-! ## The unfinished pieces -/

structure Marked (t : Torrent) (had : Nat → Bool) (done : PieceBlock → Prop) (r : Reading) : Prop where
  sizes : r.torrent.sizes = t.sizes
  intact : Intact r.torrent.picker
  peered : Peered r.torrent.picker
  shape : ∀ c, r.torrent.picker.InRange c ↔ t.picker.InRange c
  num : r.torrent.picker.numPieces = t.picker.numPieces
  «have» : ∀ q < t.picker.numPieces, (r.torrent.picker.pos q).have = had q
  finished : ∀ c, t.picker.InRange c → done c → r.torrent.picker.status c = (.finished, 0)
  free : ∀ c, t.picker.InRange c → ¬ done c → r.torrent.picker.status c = (.none, 0)

section Marked

variable {had : Nat → Bool} {done : PieceBlock → Prop} {r : Reading}

theorem Marked.congr {done' : PieceBlock → Prop} (M : Marked t had done r)
    (h : ∀ c, t.picker.InRange c → (done' c ↔ done c)) : Marked t had done' r :=
  ⟨M.sizes, M.intact, M.peered, M.shape, M.num, M.have, fun c hc hd => M.finished c hc ((h c hc).mp hd),
    fun c hc hd => M.free c hc fun hd' => hd ((h c hc).mpr hd')⟩

theorem Marked.foldl {α : Type} {f : Reading → α → Reading} {adds : α → PieceBlock → Prop} :
    ∀ {l : List α} {done : PieceBlock → Prop} {r : Reading},
      (∀ x ∈ l, ∀ done r, Marked t had done r → Marked t had (fun c => done c ∨ adds x c) (f r x)) →
      Marked t had done r → Marked t had (fun c => done c ∨ ∃ x ∈ l, adds x c) (l.foldl f r)
  | [], done, r, _, M => M.congr fun c _ => by simp
  | x :: l, done, r, hf, M => by
    have M' := Marked.foldl (fun y hy => hf y (mem_cons_of_mem _ hy)) (hf x mem_cons_self done r M)
    exact M'.congr fun c _ => by simp [or_assoc]

variable {p k : Nat} {f : Nat → Bool}

theorem readBlock_marked (M : Marked t had done r) (rnd : Nat) {j : Nat} (hp : p < 2 ^ 19)
    (hr : t.picker.InRange (.of p j)) (hnot : had p = false) :
    Marked t had (fun c => done c ∨ c = .of p j) (readBlock rnd p j r) := by
  generalize hb : of p j = b at *
  have hpb : (b.pieceIndex : Nat) = p := by rw [← hb, pieceIndex_of hp]
  have hr' := (M.shape b).mpr hr
  have L := M.intact.orderly.2
  have hhave : (r.torrent.picker.pos b.pieceIndex).have = false := by
    rw [M.have _ hr.1, hpb, hnot]
  have hstatus : r.torrent.picker.status b = (.finished, 0) ∨ r.torrent.picker.status b = (.none, 0) := by
    by_cases hd : done b
    · exact .inl (M.finished b hr hd)
    · exact .inr (M.free b hr hd)
  have hpre : r.torrent.picker.Pre (.markAsFinished b none rnd) := by
    refine ⟨hr', ?_⟩
    split
    · rename_i hdl
      obtain ⟨i, E⟩ := L.entry hr' hdl
      rw [E.status_eq.2] at hstatus
      rcases hstatus with h | h
      · exact .inl (congrArg Prod.fst h)
      · exact .inr ⟨congrArg Prod.snd h, .inr ⟨congrArg Prod.fst h, rfl⟩⟩
    · exact .inr rfl
  obtain ⟨T, -, hfin⟩ := markAsFinished_touch M.intact.orderly hpre
  have hzero : (r.torrent.picker.status b).2 = 0 := by rcases hstatus with h | h <;> rw [h]
  have hst := hfin hhave
  rw [hzero] at hst
  have hother := T.others M.peered
  have hpicker : (readBlock rnd p j r).torrent.picker = r.torrent.picker.markAsFinished b none rnd := by
    rw [readBlock, hb]
  refine ⟨M.sizes, ?_, ?_, fun c => ?_, ?_, fun q hq => ?_, fun c hc hd => ?_, fun c hc hd => ?_⟩ <;> rw [hpicker]
  · exact step_intact (.markAsFinished b none rnd) M.intact hpre trivial
  · exact T.peered M.peered fun h => by rw [hst] at h; cases h
  · exact (T.inRange c).trans (M.shape c)
  · exact T.counts.num.trans M.num
  · rw [T.counts.have, M.have q hq]
  · by_cases hcb : c = b
    · rw [hcb, hst]
    · rw [hother c ((M.shape c).mpr hc) hcb]
      exact M.finished c hc (hd.resolve_right hcb)
  · have hcb : c ≠ b := fun h => hd (.inr h)
    rw [hother c ((M.shape c).mpr hc) hcb]
    exact M.free c hc fun h => hd (.inl h)

def MaskHas (z : Sizes) (f : Nat → Bool) (p : Nat) (c : PieceBlock) : Prop :=
  ∃ k ∈ List.range (numBitmaskBytes z), ∃ b ∈ List.range (numBits z k), f (k * 8 + b) = true ∧ c = .of p (k * 8 + b)

theorem getD_bitmask (hk : k < numBitmaskBytes z) : (bitmask z f).getD k 0 = bitmaskByte z f k := by
  rw [bitmask, getD_eq_getElem?_getD, List.getElem?_map, List.getElem?_range hk]
  rfl

theorem readMaskByte_marked (M : Marked t had done r) (rnd : Nat → Nat → Nat) (hk : k < numBitmaskBytes t.sizes)
    (hp : p < 2 ^ 19) (hnot : had p = false) (hf : ∀ j < savedBlocks t.sizes, f j = true → t.picker.InRange (.of p j)) :
    Marked t had (fun c => done c ∨ ∃ b ∈ List.range (numBits t.sizes k), f (k * 8 + b) = true ∧ c = .of p (k * 8 + b))
      (readMaskByte rnd p (bitmask t.sizes f) r k) := by
  unfold readMaskByte
  rw [M.sizes]
  refine Marked.foldl (fun b hb done r M => ?_) M
  rw [getD_bitmask hk]
  by_cases hbit : f (k * 8 + b) = true
  · rw [if_pos ((bitmaskByte_bit (mem_range.mp hb)).mpr hbit)]
    have hr := hf _ (bit_lt hk (mem_range.mp hb)) hbit
    refine (readBlock_marked M _ hp hr hnot).congr fun c _ => ?_
    simp [hbit]
  · rw [if_neg (fun h => hbit ((bitmaskByte_bit (mem_range.mp hb)).mp h))]
    refine M.congr fun c _ => ?_
    simp [hbit]

theorem readUnfinished_marked (M : Marked t had done r) (rnd : Nat → Nat → Nat) (i : Nat)
    (hp : (t.picker.dl i).index < t.sizes.numPieces) (hsmall : (t.picker.dl i).index < 2 ^ 19)
    (hnum : t.picker.numPieces = t.sizes.numPieces) (hnot : had (t.picker.dl i).index = false)
    (hf : ∀ j < savedBlocks t.sizes, ((t.picker.block i j).state == .finished) = true →
      t.picker.InRange (.of (t.picker.dl i).index j)) :
    Marked t had (fun c => done c ∨ MaskHas t.sizes (fun j => (t.picker.block i j).state == .finished)
      (t.picker.dl i).index c) (readUnfinished rnd r (pieceStruct t i)) := by
  have hhave : (r.torrent.picker.pos (t.picker.dl i).index).have = false := by
    rw [M.have _ (hnum ▸ hp), hnot]
  have hmask : bitmask t.sizes (fun j => (t.picker.block i j).state == .finished) ≠ [] := by
    have : 0 < numBitmaskBytes t.sizes := lt_of_lt_of_le one_pos (le_max_right _ _)
    rw [bitmask, Ne, map_eq_nil_iff, range_eq_nil]
    omega
  have hpiece : dictFindIntValue (bytes "piece") (-1) (pieceStruct t i) = (t.picker.dl i).index := rfl
  have hbits : dictFindStringValue (bytes "bitmask") (pieceStruct t i) =
      bitmask t.sizes (fun j => (t.picker.block i j).state == .finished) := rfl
  have hread : readUnfinished rnd r (pieceStruct t i) = (List.range (numBitmaskBytes t.sizes)).foldl
        (readMaskByte rnd (t.picker.dl i).index
          (bitmask t.sizes (fun j => (t.picker.block i j).state == .finished))) r := by
    rw [pieceStruct, readUnfinished, ← pieceStruct, hpiece, hbits, M.sizes, if_neg (by omega), Int.toNat_natCast]
    simp only [hhave, Bool.false_eq_true, if_false, M.sizes]
    rw [if_neg]
    rintro (h | h)
    · exact hmask h
    · exact h (by rw [bitmask, length_map, length_range])
  rw [hread]
  exact Marked.foldl (fun k hk done r M => readMaskByte_marked M rnd (mem_range.mp hk) hsmall hnot hf) M

end Marked

/-! ## The round trip -/

structure Settled (t : Torrent) : Prop where
  intact : Intact t.picker
  shaped : Shaped t.sizes t.picker
  seeding : t.seeding = true → t.picker.numHave = t.picker.numPieces

/-- The finished blocks that the masks have a bit for. -/
def Saved (t : Torrent) (c : PieceBlock) : Prop :=
  (t.picker.status c).1 = .finished ∧ (c.blockIndex : Nat) < savedBlocks t.sizes

theorem Settled.have_of_seed (S : Settled t) (hs : t.isSeed = true) {p : Nat} (hp : p < t.picker.numPieces) :
    (t.picker.pos p).have = true := by
  have hnum : t.picker.numHave = t.picker.numPieces := by
    rcases Bool.or_eq_true _ _ ▸ hs with h | h
    · exact S.seeding h
    · exact of_decide_eq_true h
  have hall : Tally.tally t.picker.numPieces (fun i => (t.picker.pos i).have) = t.picker.numPieces := by
    have := S.intact.balanced.numHave
    unfold howMany at this
    omega
  exact Tally.tally_eq_self.mp hall p hp

theorem Settled.entry (S : Settled t) {i : Nat} (hi : i < t.picker.downloads.length) :
    (t.picker.dl i).index < t.picker.numPieces ∧ (t.picker.pos (t.picker.dl i).index).have = false ∧
      (t.picker.dl i).index < 2 ^ 19 ∧ ∀ j < savedBlocks t.sizes, ((t.picker.block i j).state == .finished) = true →
        t.picker.InRange (.of (t.picker.dl i).index j) ∧
          (t.picker.status (.of (t.picker.dl i).index j)).1 = .finished := by
  have L := S.intact.orderly.2
  have hbook := book_index L.slabbed hi
  have hsome : (t.picker.book (t.picker.dl i).index).isSome := by
    rw [hbook]
    rfl
  have hlt := L.lt_numPieces hsome
  have hsmall : (t.picker.dl i).index < 2 ^ 19 := by
    have := S.shaped.piece_lt
    rw [← S.shaped.numPieces] at this
    omega
  refine ⟨hlt, L.lacking _ hsome, hsmall, fun j hj hfin => ?_⟩
  have hw : j < t.picker.blocksPerPiece := by
    rw [S.shaped.blocksPerPiece]
    exact lt_of_lt_of_le hj (savedBlocks_le _)
  have hj13 : j < 2 ^ 13 := lt_of_lt_of_le hw (S.shaped.blocksPerPiece ▸ S.shaped.block_lt)
  have hblock : ((t.picker.record i).blocks j).state = .finished := by
    rw [record_block hw]
    simpa using hfin
  refine ⟨⟨?_, ?_⟩, ?_⟩
  · rw [pieceIndex_of hsmall]
    exact hlt
  · -- blocks behind the end of the piece are not in use
    rw [pieceIndex_of hsmall, blockIndex_of hj13]
    by_contra hge
    rw [S.intact.confined _ _ hbook j (Nat.le_of_not_lt hge)] at hblock
    cases hblock
  · rw [status, pieceIndex_of hsmall, blockIndex_of hj13, hbook]
    exact hblock

theorem Settled.saved_iff (S : Settled t) {c : PieceBlock} (hc : t.picker.InRange c) :
    (∃ i ∈ (List.range t.picker.downloads.length).filter fun i => (t.picker.dl i).finished != 0,
      MaskHas t.sizes (fun j => (t.picker.block i j).state == .finished) (t.picker.dl i).index c) ↔ Saved t c := by
  have L := S.intact.orderly.2
  constructor
  · rintro ⟨i, hi, k, hk, b, hb, hfin, rfl⟩
    rw [mem_filter, mem_range] at hi
    rw [mem_range] at hk hb
    obtain ⟨-, -, hsmall, hblocks⟩ := S.entry hi.1
    have hlt := bit_lt hk hb
    have hj13 : k * 8 + b < 2 ^ 13 :=
      lt_of_lt_of_le hlt (Nat.le_trans (savedBlocks_le _) S.shaped.block_lt)
    refine ⟨(hblocks _ hlt hfin).2, ?_⟩
    rw [blockIndex_of hj13]
    exact hlt
  rintro ⟨hfin, hlt⟩
  cases hb : t.picker.book c.pieceIndex with
  | none =>
    rw [status_of_book_none hb] at hfin
    cases hfin
  | some r =>
    obtain ⟨i, hi, hidx, rfl⟩ := (book_eq_some L.slabbed).mp hb
    have hblock : ((t.picker.record i).blocks c.blockIndex).state = .finished := by
      rw [status, hb] at hfin
      exact hfin
    have hcount : (t.picker.dl i).finished ≠ 0 := by
      have h := (L.ok _ _ hb).finished
      have hpos : 0 < Tally.tally (t.picker.blocksInPiece c.pieceIndex)
          fun j => decide (((t.picker.record i).blocks j).state = .finished) :=
        Tally.tally_pos.mpr ⟨c.blockIndex, hc.2, by simpa using hblock⟩
      have hrec : (t.picker.record i).finished = (t.picker.dl i).finished := rfl
      omega
    have hw := L.lt_blocksPerPiece hc
    rw [record_block hw] at hblock
    obtain ⟨hk, hbit⟩ := lt_savedBlocks.mp hlt
    have hsplit : (c.blockIndex : Nat) / 8 * 8 + (c.blockIndex : Nat) % 8 = c.blockIndex := div_add_mod' _ _
    refine ⟨i, ?_, _, mem_range.mpr hk, _, mem_range.mpr hbit, ?_, ?_⟩
    · rw [mem_filter, mem_range]
      exact ⟨hi, by simpa using hcount⟩
    · rw [hsplit]
      simpa using hblock
    · rw [hsplit, hidx, of_eq]

theorem Restored.marked {had : Nat → Bool} (R : Restored t had t₀) (hs : Shaped t.sizes t.picker) :
    Marked t had (fun _ => False) { torrent := t₀ } := by
  have hnum := R.shaped.numPieces.trans hs.numPieces.symm
  have hshape : ∀ c, t₀.picker.InRange c ↔ t.picker.InRange c := inRange_congr
    ⟨hnum, R.shaped.blocksPerPiece.trans hs.blocksPerPiece.symm,
      R.shaped.blocksInLastPiece.trans hs.blocksInLastPiece.symm⟩
  refine ⟨R.sizes, R.intact, fun q r hq => ?_, hshape, hnum, fun q hq => R.have q (hs.numPieces ▸ hq),
    fun _ _ h => h.elim, fun c _ _ => status_of_book_none (R.idle _)⟩
  rw [R.idle q] at hq
  cases hq

theorem reading_marked (S : Settled t) (I : Initial t t₀) (rnd : Nat → Nat → Nat) :
    Marked t (fun q => t.isSeed || (t.picker.pos q).have) (fun c => t.isSeed = false ∧ Saved t c)
      (onResumeDataChecked (writeResumeData t) rnd t₀) := by
  have M := (readPieces_restored I).marked S.shaped
  have hdict : onResumeDataChecked (writeResumeData t) rnd t₀ =
      if t.isSeed then { torrent := readPieces (writeResumeData t) t₀ }
      else (unfinished t).foldl (readUnfinished rnd) { torrent := readPieces (writeResumeData t) t₀ } := by
    obtain ⟨d, hd⟩ : ∃ d, writeResumeData t = .dictionary d := ⟨_, rfl⟩
    rw [hd, onResumeDataChecked, ← hd, dictFindList_unfinished]
    cases t.isSeed <;> rfl
  rw [hdict]
  cases hseed : t.isSeed with
  | true =>
    rw [hseed] at M
    exact M.congr fun c _ => by simp
  | false =>
    rw [hseed] at M
    have hfold := Marked.foldl
      (l := (List.range t.picker.downloads.length).filter fun i => (t.picker.dl i).finished != 0)
      (fun i hi done r M => by
        obtain ⟨hlt, hnot, hsmall, hblocks⟩ := S.entry (mem_range.mp (mem_filter.mp hi).1)
        exact readUnfinished_marked M rnd i (S.shaped.numPieces ▸ hlt) hsmall S.shaped.numPieces (by simpa using hnot)
          fun j hj hfin => (hblocks j hj hfin).1) M
    rw [if_neg (by simp), unfinished, foldl_map]
    refine hfold.congr fun c hc => ?_
    rw [S.saved_iff hc]
    simp

def SameProgress (s s' : PiecePicker) : Prop :=
  (∀ p < s.numPieces, (s'.pos p).have = (s.pos p).have) ∧
    ∀ b, s.InRange b → (s.pos b.pieceIndex).have = false → s'.isFinished b = s.isFinished b

/-- **Resume data** restores the download exactly if every finished block of a piece that we do not have has a bit in
the mask. -/
theorem resume_restores_iff {t t₀ : Torrent} (S : Settled t) (I : Initial t t₀) (rnd : Nat → Nat → Nat) :
    SameProgress t.picker (onResumeDataChecked (writeResumeData t) rnd t₀).torrent.picker ↔
      ∀ b, t.picker.InRange b → (t.picker.pos b.pieceIndex).have = false → t.picker.isFinished b = true →
        (b.blockIndex : Nat) < savedBlocks t.sizes := by
  have M := reading_marked S I rnd
  generalize onResumeDataChecked (writeResumeData t) rnd t₀ = r at *
  have L := S.intact.orderly.2
  have L' := M.intact.orderly.2
  have hhave : ∀ p < t.picker.numPieces, (r.torrent.picker.pos p).have = (t.picker.pos p).have := by
    intro p hp
    rw [M.have p hp]
    cases hs : t.isSeed with
    | false => rfl
    | true => rw [S.have_of_seed hs hp]; rfl
  have hseed : ∀ {p}, p < t.picker.numPieces → (t.picker.pos p).have = false → t.isSeed = false := by
    intro p hp hn
    cases hs : t.isSeed with
    | false => rfl
    | true => rw [S.have_of_seed hs hp] at hn; cases hn
  have hfinished : ∀ b, t.picker.InRange b → (t.picker.pos b.pieceIndex).have = false →
      (r.torrent.picker.isFinished b = true ↔ Saved t b) := by
    intro b hb hn
    have hs := hseed hb.1 hn
    rw [isFinished_eq L' ((M.shape b).mpr hb), hhave _ hb.1, hn, Bool.false_or, decide_eq_true_iff]
    by_cases hsaved : Saved t b
    · rw [M.finished b hb ⟨hs, hsaved⟩]
      exact iff_of_true rfl hsaved
    · rw [M.free b hb fun h => hsaved h.2]
      exact iff_of_false (fun h => by cases h) hsaved
  have hold : ∀ b, t.picker.InRange b → (t.picker.pos b.pieceIndex).have = false →
      (t.picker.isFinished b = true ↔ (t.picker.status b).1 = .finished) := by
    intro b hb hn
    rw [isFinished_eq L hb, hn, Bool.false_or, decide_eq_true_iff]
  constructor
  · rintro ⟨-, h⟩ b hb hn hfin
    rw [← h b hb hn, hfinished b hb hn] at hfin
    exact hfin.2
  intro h
  refine ⟨hhave, fun b hb hn => ?_⟩
  rw [Bool.eq_iff_iff, hfinished b hb hn]
  exact ⟨fun hs => (hold b hb hn).mpr hs.1, fun hf => ⟨(hold b hb hn).mp hf, h b hb hn hf⟩⟩

def after (z : Sizes) (ops : List Op) : Torrent := { sizes := z, picker := Run.run step z.initPicker ops }

theorem settled_after {ops : List Op} (hp : z.numPieces ≤ 2 ^ 19) (hb : z.blocksPerPiece ≤ 2 ^ 13)
    (hl : Run.Legal step (fun s op => s.Pre op ∧ NoInit op) z.initPicker ops) : Settled (after z ops) :=
  ⟨(shaped_run hp hb hl).1, (shaped_run hp hb hl).2, fun h => by cases h⟩

theorem initial_after {t : Torrent} (hz : t.sizes = z) (hp : z.numPieces ≤ 2 ^ 19) (hb : z.blocksPerPiece ≤ 2 ^ 13) :
    Initial t (after z []) := by
  subst hz
  refine ⟨rfl, initPicker_intact hp, initPicker_shaped hp hb, fun _ => rfl, fun q _ => ?_⟩
  simp only [after, Run.run_nil, Sizes.initPicker, init, pos, getD_eq_getElem?_getD, List.getElem?_map]
  cases (Vec.resize new.pieceMap t.sizes.numPieces {})[q]? <;> rfl

theorem blockSize_pos : 0 < 16384 := by decide

def eightBlocks : Sizes := ⟨131072, 16384, 262144, by decide, blockSize_pos, by decide⟩

theorem resume_restores_iff_eightBlocks :
    SameProgress (after eightBlocks [.weHave 0, .markAsFinished (.of 1 7) none 0]).picker
        (onResumeDataChecked (writeResumeData (after eightBlocks [.weHave 0, .markAsFinished (.of 1 7) none 0]))
          (fun _ _ => 0) (after eightBlocks [])).torrent.picker ↔
      ∀ b, (after eightBlocks [.weHave 0, .markAsFinished (.of 1 7) none 0]).picker.InRange b →
        ((after eightBlocks [.weHave 0, .markAsFinished (.of 1 7) none 0]).picker.pos b.pieceIndex).have = false →
        (after eightBlocks [.weHave 0, .markAsFinished (.of 1 7) none 0]).picker.isFinished b = true →
        (b.blockIndex : Nat) < savedBlocks eightBlocks :=
  resume_restores_iff (settled_after (by decide) (by decide) (by decide)) (initial_after rfl (by decide) (by decide)) _

def twelveBlocks : Sizes := ⟨196608, 16384, 196608, by decide, blockSize_pos, by decide⟩

/-- Block 8 of 12 is finished and is not restored. -/
theorem ninth_block_lost : Settled (after twelveBlocks [.markAsFinished (.of 0 8) none 0]) ∧
      Initial (after twelveBlocks [.markAsFinished (.of 0 8) none 0]) (after twelveBlocks []) ∧
      ¬ SameProgress (after twelveBlocks [.markAsFinished (.of 0 8) none 0]).picker
        (onResumeDataChecked (writeResumeData (after twelveBlocks [.markAsFinished (.of 0 8) none 0]))
          (fun _ _ => 0) (after twelveBlocks [])).torrent.picker := by
  refine ⟨settled_after (by decide) (by decide) (by decide), initial_after rfl (by decide) (by decide), ?_⟩
  rintro ⟨-, h⟩
  have := h (.of 0 8) (by decide) (by decide)
  revert this
  decide

end Libtorrent.Resume
