import Libtorrent.Picker.BlockStatus

/-!
# `pick_pieces` as a sequence of visits

All passes of `pick_pieces` add blocks by two kinds of visits: to a downloading piece (`add_blocks_downloading`), and to
a run of pieces that nobody downloads yet (`add_blocks` and the random picking). The functions `partialVisits`,
`eachVisits` and `randomVisits` list the visits of a pass; the pass is the run of these visits (`addPartials_eq`,
`addEach_eq`, `pickRandom_eq`), and `pickPieces_eq` puts the passes together.
-/

namespace Libtorrent.Picker

open Run Picks

inductive Visit where
  | part (dp : DownloadingPiece)
  | whole (pieces : List Nat)
  deriving DecidableEq, Repr

def Visit.pieces : Visit → List Nat
  | part dp => [dp.index]
  | whole ks => ks

def Visit.fresh : Visit → List Nat
  | part _ => []
  | whole ks => ks

def Picks.clamp (a : Picks) : Picks := { a with numBlocks := max a.numBlocks 0 }

theorem Picks.clamp_of_nonneg {a : Picks} (h : 0 ≤ a.numBlocks) : a.clamp = a := by
  cases a
  simp only [clamp, mk.injEq, true_and]
  exact max_eq_left h

/-- Both calls of `append_blocks`, the second one if the first did not yield enough. -/
def Picks.flush (a : Picks) : Picks :=
  let a := a.appendBackup
  if a.numBlocks ≤ 0 then a else a.appendBackup2

namespace PiecePicker

variable (s : PiecePicker) (args : PickArgs) (prefer : Nat)

def expanded (piece : Nat) : List Nat :=
  let (start, stop) := s.expandPiece piece prefer args.pieces
  List.range' start (stop - start)

/-- The blocks of a piece that nobody downloads yet; not more than needed, unless whole pieces are preferred. -/
def takeFrom (a : Picks) (k : Nat) : Picks :=
  pickBlocks a k (if prefer = 0 then (min (s.blocksInPiece k : Int) a.numBlocks).toNat else s.blocksInPiece k)

def visit (a : Picks) : Visit → Picks
  | .part dp => s.addBlocksDownloading args prefer dp a
  | .whole ks => (ks.foldl (s.takeFrom prefer) a).clamp

/-! ## Passes over lists of pieces -/

def visitOf (ignore : List Nat) (piece : Nat) : Option Visit :=
  if piece ∈ ignore then none
  else if (s.pos piece).downloading then
    if (s.pos piece).full || args.options.prioritizePartials then none
    else (s.findDlPiece piece).map fun i => .part (s.dl i)
  else some (.whole (s.expanded args prefer piece))

theorem expanded_zero (piece : Nat) : s.expanded args 0 piece = [piece] := by
  simp [expanded, expandPiece]

theorem addBlocks_eq (ignore : List Nat) (piece : Nat) (a : Picks) :
    s.addBlocks args prefer ignore piece a = run (s.visit args prefer) a
      (s.visitOf args prefer ignore piece).toList := by
  unfold addBlocks visitOf
  split
  · rfl
  split
  · split
    · rfl
    · cases s.findDlPiece piece <;> rfl
  by_cases hp : prefer = 0
  · subst hp
    simp only [if_pos, expanded_zero]
    rfl
  simp only [if_neg hp]
  have hwhole : ∀ start stop, s.pickWhole a start stop =
      (List.range' start (stop - start)).foldl (s.takeFrom prefer) a := by
    intro start stop
    have hf : (fun a k => pickBlocks a k (s.blocksInPiece k)) = s.takeFrom prefer := by
      funext a k
      rw [takeFrom, if_neg hp]
    rw [pickWhole, hf]
  rw [hwhole]
  rfl

def eachVisits (ignore : List Nat) : List Nat → Picks → List Visit
  | [], _ => []
  | piece :: rest, a =>
    if !s.isPieceFree piece args.pieces then eachVisits ignore rest a
    else
      let vs := (s.visitOf args prefer ignore piece).toList
      let a := run (s.visit args prefer) a vs
      vs ++ if a.numBlocks ≤ 0 then [] else eachVisits ignore rest a

theorem addEach_eq (ignore : List Nat) : ∀ (order : List Nat) (a : Picks), s.addEach args prefer ignore order a =
    run (s.visit args prefer) a (s.eachVisits args prefer ignore order a)
  | [], _ => rfl
  | piece :: rest, a => by
    rw [addEach, eachVisits]
    split
    · exact addEach_eq ignore rest a
    dsimp only
    rw [addBlocks_eq, run_append]
    split
    · rfl
    · exact addEach_eq ignore rest _

def partialVisits : List DownloadingPiece → Picks → List Visit
  | [], _ => []
  | dp :: rest, a =>
    if !s.isPieceFree dp.index args.pieces then partialVisits rest a
    else if (s.pos dp.index).full ∧ a.numBlocks ≤ a.backup.length ∧ a.numBlocks ≤ a.backup2.length then
      partialVisits rest a
    else
      let a := s.visit args prefer a (.part dp)
      .part dp :: if a.numBlocks ≤ 0 then [] else partialVisits rest a

theorem addPartials_eq : ∀ (dps : List DownloadingPiece) (a : Picks), s.addPartials args prefer dps a =
    run (s.visit args prefer) a (s.partialVisits args prefer dps a)
  | [], _ => rfl
  | dp :: rest, a => by
    rw [addPartials, partialVisits]
    split
    · exact addPartials_eq rest a
    split
    · exact addPartials_eq rest a
    rw [run_cons]
    show (if (s.visit args prefer a (.part dp)).numBlocks ≤ 0 then s.visit args prefer a (.part dp)
      else s.addPartials args prefer rest (s.visit args prefer a (.part dp))) = _
    split
    · rfl
    · exact addPartials_eq rest _

/-! ## The random picking -/

def randomVisits (startPiece : Nat) : Nat → Nat → Picks → List Visit
  | 0, _, _ => []
  | fuel + 1, piece, a =>
    if a.numBlocks ≤ 0 then []
    else
      match s.nextPickable args startPiece (s.numPieces + 1) piece with
      | none => []
      | some piece =>
        let stop := (s.expandPiece piece prefer args.pieces).2
        let piece' := if stop = s.numPieces then 0 else stop
        .whole (s.expanded args prefer piece) :: if piece' = startPiece then []
          else randomVisits startPiece fuel piece' (s.visit args prefer a (.whole (s.expanded args prefer piece)))

variable {a : Picks}

theorem pickRandom_done (startPiece fuel piece : Nat) (h : a.numBlocks ≤ 0) :
    s.pickRandom args prefer startPiece fuel piece a = a := by
  cases fuel with
  | zero => rfl
  | succ => rw [pickRandom, if_pos h]

theorem randomVisits_done (startPiece fuel piece : Nat) (h : a.numBlocks ≤ 0) :
    s.randomVisits args prefer startPiece fuel piece a = [] := by
  cases fuel with
  | zero => rfl
  | succ => rw [randomVisits, if_pos h]

theorem pickRandom_eq (startPiece : Nat) : ∀ (fuel piece : Nat) (a : Picks), 0 ≤ a.numBlocks →
    (s.pickRandom args prefer startPiece fuel piece a).clamp =
      run (s.visit args prefer) a (s.randomVisits args prefer startPiece fuel piece a)
  | 0, _, a, h => clamp_of_nonneg h
  | fuel + 1, piece, a, h => by
    rw [pickRandom, randomVisits]
    split
    · exact clamp_of_nonneg h
    cases hn : s.nextPickable args startPiece (s.numPieces + 1) piece with
    | none => exact clamp_of_nonneg h
    | some piece =>
      dsimp only
      rw [run_cons]
      -- the visit clamps, the loop goes on only if there is nothing to clamp
      have hvisit : s.visit args prefer a (.whole (s.expanded args prefer piece)) =
          ((s.expanded args prefer piece).foldl (s.takeFrom prefer) a).clamp := rfl
      show (if _ then (s.expanded args prefer piece).foldl (s.takeFrom prefer) a
        else s.pickRandom args prefer startPiece fuel _
          ((s.expanded args prefer piece).foldl (s.takeFrom prefer) a)).clamp = _
      rw [hvisit]
      generalize (s.expanded args prefer piece).foldl (s.takeFrom prefer) a = a'
      generalize (if (s.expandPiece piece prefer args.pieces).2 = s.numPieces then 0
        else (s.expandPiece piece prefer args.pieces).2) = next
      split
      · rfl
      by_cases hle : a'.numBlocks ≤ 0
      · rw [pickRandom_done _ _ _ _ _ _ hle, randomVisits_done _ _ _ _ _ _ (by simp [clamp, hle])]
        rfl
      · rw [clamp_of_nonneg (a := a') (by omega)]
        exact pickRandom_eq startPiece fuel _ a' (by omega)

/-! ## The whole of `pick_pieces` -/

/-- The picks after the pass over the partial pieces. -/
def afterPartials (a : Picks) : Picks :=
  if args.options.prioritizePartials then
    let a := run (s.visit args prefer) a (s.partialVisits args prefer s.downloads a)
    if a.numBlocks ≤ 0 then a else a.flush
  else a

def suggestedVisits (a : Picks) : List Visit :=
  if a.numBlocks ≤ 0 then [] else s.eachVisits args prefer [] args.suggestedPieces a

theorem pickFirst_eq (a : Picks) : s.pickFirst args prefer a = run (s.visit args prefer) (s.afterPartials args prefer a)
      (s.suggestedVisits args prefer (s.afterPartials args prefer a)) := by
  have hpartials : (if args.options.prioritizePartials then
        let a := s.addPartials args prefer s.downloads a
        if a.numBlocks ≤ 0 then a
        else
          let a := a.appendBackup
          if a.numBlocks ≤ 0 then a else a.appendBackup2
      else a) = s.afterPartials args prefer a := by
    rw [addPartials_eq]
    rfl
  unfold pickFirst
  rw [hpartials]
  dsimp only
  unfold suggestedVisits
  split
  · rfl
  · exact addEach_eq s args prefer [] _ _

/-- The picker once the rarest-first picking has brought its index up to date. -/
def prepared (shuffles : Nat → Nat) : PiecePicker :=
  if args.options.sequential then s
  else if args.options.rarestFirst then
    let s := if s.dirty then s.updatePieces shuffles else s
    if args.options.reverse then s.roundUpBoundries else s
  else s

/-- The order of the main pass, unless it is the random one. -/
def order : List Nat :=
  if args.options.sequential then
    let order := List.range' s.cursor (s.reverseCursor - s.cursor)
    if args.options.reverse then order.reverse else order
  else if args.options.reverse then s.reverseOrder else s.pieces

def mainVisits (rnd : Nat) (a : Picks) : List Visit :=
  if args.options.sequential || args.options.rarestFirst then
    s.eachVisits args prefer args.suggestedPieces (s.order args) a
  else
    let startPiece := rnd % s.numPieces
    s.randomVisits args prefer startPiece a.numBlocks.toNat startPiece a

theorem pickAll_eq (shuffles : Nat → Nat) (rnd : Nat) (h : 0 ≤ a.numBlocks) :
    (s.pickAll args prefer shuffles rnd a).1 = s.prepared args shuffles ∧
      (s.pickAll args prefer shuffles rnd a).2.clamp = (run ((s.prepared args shuffles).visit args prefer) a
          ((s.prepared args shuffles).mainVisits args prefer rnd a)).clamp := by
  unfold pickAll prepared mainVisits order
  by_cases hs : args.options.sequential = true
  · simp only [hs, if_true, Bool.true_or]
    exact ⟨trivial, by rw [addEach_eq]⟩
  by_cases hr : args.options.rarestFirst = true
  · simp only [hs, hr, if_true, if_false, Bool.or_true, Bool.false_eq_true]
    exact ⟨trivial, by rw [addEach_eq]⟩
  simp only [hs, hr, if_false, Bool.or_false, Bool.false_eq_true]
  refine ⟨trivial, ?_⟩
  have hcl : ∀ x : Picks, x.clamp.clamp = x.clamp := fun x => clamp_of_nonneg (le_max_right _ _)
  rw [← pickRandom_eq s args prefer _ _ _ a h, hcl]

def preferOf : Nat := if (s.effectiveArgs args).options.ignoreWholePieces then 0 else args.preferWholePieces

def picksStart (args : PickArgs) (interesting : List PieceBlock) : Picks :=
  { interesting := interesting, numBlocks := args.numBlocks }

def picksFirst (interesting : List PieceBlock) : Picks :=
  let args' := s.effectiveArgs args
  let a := s.afterPartials args' (s.preferOf args) (picksStart args interesting)
  run (s.visit args' (s.preferOf args)) a (s.suggestedVisits args' (s.preferOf args) a)

def picksAll (interesting : List PieceBlock) (shuffles : Nat → Nat) (rnd : Nat) : Picks :=
  let args' := s.effectiveArgs args
  let t := s.prepared args' shuffles
  let a := s.picksFirst args interesting
  run (t.visit args' (s.preferOf args)) a (t.mainVisits args' (s.preferOf args) rnd a)

theorem effectiveArgs_eq : ∃ o, s.effectiveArgs args = { args with options := o } := by
  unfold effectiveArgs
  split
  · exact ⟨_, rfl⟩
  · exact ⟨_, rfl⟩

theorem effectiveArgs_pieces : (s.effectiveArgs args).pieces = args.pieces ∧
    (s.effectiveArgs args).suggestedPieces = args.suggestedPieces := by
  obtain ⟨o, ho⟩ := s.effectiveArgs_eq args
  rw [ho]
  exact ⟨rfl, rfl⟩

/-- **`pick_pieces` is its passes**: the main pass is left out if the first ones yield enough, the back-up blocks if the
main pass does. -/
theorem pickPieces_eq (interesting : List PieceBlock) (shuffles : Nat → Nat) (rnd rnd' : Nat) :
    (s.pickPieces args interesting shuffles rnd rnd').2 =
      if (s.picksFirst args interesting).numBlocks ≤ 0 then (s.picksFirst args interesting).interesting
      else if (s.picksAll args interesting shuffles rnd).numBlocks ≤ 0 then
        (s.picksAll args interesting shuffles rnd).interesting
      else (s.prepared (s.effectiveArgs args) shuffles).pickBackups (s.effectiveArgs args) (s.preferOf args) rnd'
        (s.picksAll args interesting shuffles rnd) := by
  obtain ⟨o, ho⟩ := s.effectiveArgs_eq args
  have hprefer : (if (s.effectiveArgs args).options.ignoreWholePieces then 0
      else (s.effectiveArgs args).preferWholePieces) = s.preferOf args := by
    rw [preferOf, ho]
  have hblocks : (s.effectiveArgs args).numBlocks = args.numBlocks := by rw [ho]
  have hfirst : s.pickFirst (s.effectiveArgs args) (s.preferOf args)
      { interesting := interesting, numBlocks := args.numBlocks } = s.picksFirst args interesting := by
    rw [pickFirst_eq]
    rfl
  unfold pickPieces
  dsimp only
  rw [hprefer, hblocks, hfirst]
  split
  · rfl
  obtain ⟨h1, h2⟩ := s.pickAll_eq (s.effectiveArgs args) (s.preferOf args) shuffles rnd
    (a := s.picksFirst args interesting) (by omega)
  have h3 : (s.pickAll (s.effectiveArgs args) (s.preferOf args) shuffles rnd
      (s.picksFirst args interesting)).2.clamp = (s.picksAll args interesting shuffles rnd).clamp := h2
  generalize s.pickAll (s.effectiveArgs args) (s.preferOf args) shuffles rnd (s.picksFirst args interesting) = r at *
  have hnum := congrArg numBlocks h3
  simp only [clamp] at hnum
  by_cases hle : r.2.numBlocks ≤ 0
  · rw [if_pos hle, if_pos (by omega)]
    exact (congrArg Picks.interesting h3 :)
  have hsame : r.2 = s.picksAll args interesting shuffles rnd := by
    rw [clamp_of_nonneg (by omega), clamp_of_nonneg (by omega)] at h3
    exact h3
  rw [if_neg hle, if_neg (by omega), ← h1, ← hsame]

end PiecePicker

/-!
## What a visit adds

`Consistent` are the invariants of the picker that `pick_pieces` relies on; runs keep them (`consistent_run`). For a
consistent picker, `visit_gains` says once what a visit can do: the blocks that it adds come from the free blocks of the
visited pieces, it does not exceed the budget unless whole pieces are preferred, and it leaves a block out only if the
budget is used up or there are enough back-up blocks.
-/

open List Nat PieceBlock

namespace PiecePicker

/-- The invariants of a picker with pieces: the index and the queue are in order, the cursors bracket the pieces still
wanted, `full` hides no free block, and pieces and blocks can be named by a `piece_block`. -/
structure Consistent (s : PiecePicker) : Prop where
  orderly : Orderly s
  bracket : Bracket s.numPieces s.settled s.cursor s.reverseCursor
  full : NothingHidden s
  some_piece : 0 < s.numPieces
  last_pos : 0 < s.blocksInLastPiece
  piece_lt : s.numPieces ≤ 2 ^ 19
  block_lt : s.blocksPerPiece ≤ 2 ^ 13

structure Pickable (s : PiecePicker) (bits : Bitfield) (b : PieceBlock) : Prop where
  inRange : s.InRange b
  wanted : s.isPieceFree b.pieceIndex bits = true
  free : (s.status b).1 = .none

def blocksOf (s : PiecePicker) (k : Nat) : List PieceBlock := (List.range (s.blocksInPiece k)).map (PieceBlock.of k)

variable {s t : PiecePicker} {args : PickArgs} {prefer p j : Nat} {a a' : Picks} {v : Visit}

namespace Consistent

section

variable (C : Consistent s)
include C

theorem ledger : Ledger s := C.orderly.2

theorem blocks_le (k : Nat) : s.blocksInPiece k ≤ 2 ^ 13 :=
  le_trans (C.ledger.blocksInPiece_le k) C.block_lt

theorem blocks_pos (k : Nat) : 0 < s.blocksInPiece k := by
  unfold blocksInPiece
  split
  · exact C.last_pos
  · exact C.ledger.width C.some_piece

theorem of_refiled (R : Refiled s t) (ht : Sound t) : Consistent t := by
  have K := (SameBook.of_refiled R).keeps C.ledger
  have hcounts := SameCounts.of_refiled R
  have hnum := R.numPieces
  obtain ⟨⟨ps, bs, m, d, rfl, -⟩, -⟩ := R
  refine ⟨⟨ht, K.ledger⟩, ?_, K.nothingHidden C.full, hnum ▸ C.some_piece, C.last_pos, hnum ▸ C.piece_lt, C.block_lt⟩
  rw [hnum]
  refine C.bracket.congr fun i _ => ?_
  rw [settled, settled, hcounts.have, hcounts.filtered]

end

end Consistent

/-- `init` with numbers that a `piece_block` can hold. -/
def Fits : Op → Prop
  | .init b _ n => b ≤ 2 ^ 13 ∧ n ≤ 2 ^ 19
  | _ => True

instance (op : Op) : Decidable (Fits op) := by
  apply Op.casesOn (motive := fun op => Decidable (Fits op)) op <;> intros <;> (dsimp only [Fits]; infer_instance)

theorem consistent_run {ops : List Op}
    (hl : Legal step (fun s op => (s.Pre op ∧ s.SameSize op) ∧ s.NotStale op ∧ Fits op) new ops)
    (hpieces : 0 < (run step new ops).numPieces) : Consistent (run step new ops) := by
  have h := inv_run (P := fun s => Orderly s ∧ Balanced s ∧ NothingHidden s ∧ (0 < s.numPieces →
      0 < s.blocksInLastPiece ∧ s.numPieces ≤ 2 ^ 19 ∧ s.blocksPerPiece ≤ 2 ^ 13)) (fun s op h hp => ?_)
    ⟨orderly_new, balanced_new, fun _ _ hr => (by cases hr),
      fun h0 => absurd h0 (lt_irrefl 0)⟩ hl
  · obtain ⟨h1, h2, h3, h4⟩ := h
    obtain ⟨h5, h6, h7⟩ := h4 hpieces
    exact ⟨h1, h2.bracket, h3, hpieces, h5, h6, h7⟩
  obtain ⟨h1, h2, h3, h4⟩ := h
  obtain ⟨⟨hpre, hsize⟩, hstale, hfits⟩ := hp
  have E := (step_effect h1 hpre).2
  obtain ⟨hsound, R⟩ := step_sound h1.1 hpre
  refine ⟨⟨hsound, E.ledger⟩, (SameCounts.of_refiled R).balanced (coreStep_balanced h2 hpre hsize),
    (E.nothingHidden h3).mpr hstale, ?_⟩
  have hnum := R.numPieces
  obtain ⟨-, hbpp, hlast⟩ := (SameBook.of_refiled R).shape
  rw [hnum, hbpp, hlast]
  by_cases hinit : ∀ b l n, op ≠ .init b l n
  · rw [numPieces_coreStep s hinit, ((rest_coreStep s op).2 hinit).1, ((rest_coreStep s op).2 hinit).2]
    exact h4
  simp only [not_forall, not_not] at hinit
  obtain ⟨b, l, n, rfl⟩ := hinit
  intro _
  have hn : (s.init b l n).numPieces = n := by simp [init, numPieces]
  have hpos : 0 < (s.init b l n).blocksInLastPiece := by
    have := hpre.1
    simp only [init]
    split <;> omega
  exact ⟨hpos, by rw [show s.coreStep (.init b l n) = s.init b l n from rfl, hn]; exact hfits.2, hfits.1⟩

/-! ## The pieces of a visit -/

variable {bits : Bitfield} {k : Nat}

theorem isPieceFree_iff :
    s.isPieceFree p bits = true ↔ bits.getD p false = true ∧ (s.pos p).have = false ∧ (s.pos p).filtered = false := by
  simp [isPieceFree, and_assoc]

theorem canPick_iff : s.canPick p bits = true ↔ s.isPieceFree p bits = true ∧ (s.pos p).downloading = false := by
  simp only [canPick, isPieceFree, Bool.and_eq_true, Bool.not_eq_true']
  tauto

theorem lt_of_isPieceFree (hbits : bits.length = s.numPieces) (h : s.isPieceFree p bits = true) : p < s.numPieces := by
  by_contra hlt
  have := (isPieceFree_iff.mp h).1
  rw [Vec.getD_of_le _ (by omega)] at this
  cases this

def Due (s : PiecePicker) (args : PickArgs) (prefer : Nat) : Visit → Prop
  | .part dp => dp ∈ s.downloads ∧ s.isPieceFree dp.index args.pieces = true
  | .whole ks => (∀ k ∈ ks, s.canPick k args.pieces = true) ∧ ks.Nodup ∧ (prefer = 0 → ∃ k, ks = [k])

theorem expandDown_spec (bits : Bitfield) : ∀ (k start : Nat), k ≤ start →
    s.expandDown bits k start ≤ start ∧ start - k ≤ s.expandDown bits k start ∧
      ∀ x, s.expandDown bits k start ≤ x → x < start → s.canPick x bits = true
  | 0, start, _ => ⟨le_refl _, le_refl _, fun x h1 h2 => absurd (lt_of_le_of_lt h1 h2) (lt_irrefl _)⟩
  | k + 1, start, hk => by
    rw [expandDown]
    split_ifs with hpick
    · obtain ⟨h1, h2, h3⟩ := expandDown_spec bits k (start - 1) (by omega)
      refine ⟨by omega, by omega, fun x hx hlt => ?_⟩
      by_cases he : x = start - 1
      · rw [he]; exact hpick
      · exact h3 x hx (by omega)
    · exact ⟨le_refl _, by omega, fun x h1 h2 => absurd (lt_of_le_of_lt h1 h2) (lt_irrefl _)⟩

theorem expandUp_spec (bits : Bitfield) : ∀ (k stop : Nat),
    stop ≤ s.expandUp bits k stop ∧ s.expandUp bits k stop ≤ stop + k ∧
      ∀ x, stop ≤ x → x < s.expandUp bits k stop → s.canPick x bits = true
  | 0, stop => ⟨le_refl _, le_refl _, fun x h1 h2 => absurd (lt_of_le_of_lt h1 h2) (lt_irrefl _)⟩
  | k + 1, stop => by
    rw [expandUp]
    split_ifs with hpick
    · obtain ⟨h1, h2, h3⟩ := expandUp_spec bits k (stop + 1)
      refine ⟨by omega, by omega, fun x hx hlt => ?_⟩
      by_cases he : x = stop
      · rw [he]; exact hpick
      · exact h3 x (by omega) hlt
    · exact ⟨le_refl _, by omega, fun x h1 h2 => absurd (lt_of_le_of_lt h1 h2) (lt_irrefl _)⟩

/-- `expand_piece` yields a range around the piece, of at most `whole_pieces` pieces if there are to be any. -/
theorem expandPiece_spec (bits : Bitfield) (prefer : Nat) (hp : s.canPick p bits = true) :
    (s.expandPiece p prefer bits).1 ≤ p ∧ p < (s.expandPiece p prefer bits).2 ∧
      (∀ x, (s.expandPiece p prefer bits).1 ≤ x → x < (s.expandPiece p prefer bits).2 → s.canPick x bits = true) ∧
      (s.expandPiece p prefer bits).2 ≤ (s.expandPiece p prefer bits).1 + max prefer 1 := by
  unfold expandPiece
  split_ifs with h0
  · refine ⟨le_refl _, lt_succ_self _, fun x h1 h2 => ?_, by simp⟩
    rwa [show x = p by simp only at h1 h2; omega]
  obtain ⟨h1, h2, h3⟩ := expandDown_spec bits (min (prefer - 1) p) p (by omega)
  dsimp only
  generalize s.expandDown bits (min (prefer - 1) p) p = start at *
  obtain ⟨h4, h5, h6⟩ := expandUp_spec (s := s) bits (min (start + prefer) s.numPieces - (p + 1)) (p + 1)
  refine ⟨h1, by omega, fun x hx hlt => ?_, by omega⟩
  rcases lt_trichotomy x p with hxp | hxp | hxp
  · exact h3 x hx hxp
  · rw [hxp]; exact hp
  · exact h6 x hxp hlt

theorem mem_expanded (hp : s.canPick p args.pieces = true) : k ∈ s.expanded args prefer p ↔
      (s.expandPiece p prefer args.pieces).1 ≤ k ∧ k < (s.expandPiece p prefer args.pieces).2 := by
  obtain ⟨h1, h2, -⟩ := expandPiece_spec args.pieces prefer hp
  simp only [expanded, mem_range'_1]
  omega

theorem whole_due (hp : s.canPick p args.pieces = true) : s.Due args prefer (.whole (s.expanded args prefer p)) := by
  refine ⟨fun k hk => ?_, nodup_range', fun h0 => ?_⟩
  · obtain ⟨h1, h2⟩ := (mem_expanded hp).mp hk
    exact (expandPiece_spec args.pieces prefer hp).2.2.1 k h1 h2
  · subst h0
    exact ⟨p, s.expanded_zero args p⟩

theorem dl_mem {i : Nat} (hi : i < s.downloads.length) : s.dl i ∈ s.downloads := by
  rw [dl, getD_eq_getElem?_getD, List.getElem?_eq_getElem hi]
  exact getElem_mem hi

theorem visitOf_due {ignore : List Nat} (hfree : s.isPieceFree p args.pieces = true)
    (hv : s.visitOf args prefer ignore p = some v) : s.Due args prefer v := by
  unfold visitOf at hv
  split at hv
  · cases hv
  split at hv
  · split at hv
    · cases hv
    · obtain ⟨i, hi, rfl⟩ := Option.map_eq_some_iff.mp hv
      obtain ⟨hlt, hidx⟩ := findDlPiece_index hi
      exact ⟨dl_mem hlt, by rw [hidx]; exact hfree⟩
  · rename_i hd
    cases hv
    exact whole_due (canPick_iff.mpr ⟨hfree, by simpa using hd⟩)

def Ready (s : PiecePicker) (args : PickArgs) (prefer : Nat) (a : Picks) (v : Visit) : Prop :=
  0 < a.numBlocks ∧ s.Due args prefer v

theorem eachVisits_ready (ignore : List Nat) : ∀ (order : List Nat) (a : Picks), 0 < a.numBlocks →
    Legal (s.visit args prefer) (s.Ready args prefer) a (s.eachVisits args prefer ignore order a)
  | [], _, _ => trivial
  | piece :: rest, a, ha => by
    rw [eachVisits]
    split_ifs with hfree
    · exact eachVisits_ready ignore rest a ha
    rw [legal_append]
    constructor
    · cases hv : s.visitOf args prefer ignore piece with
      | none => exact trivial
      | some => exact ⟨⟨ha, visitOf_due (by simpa using hfree) hv⟩, trivial⟩
    · split
      · exact trivial
      · exact eachVisits_ready ignore rest _ (by omega)

variable (args prefer) in
theorem partialVisits_ready : ∀ (dps : List DownloadingPiece) (a : Picks), (∀ dp ∈ dps, dp ∈ s.downloads) →
    0 < a.numBlocks → Legal (s.visit args prefer) (s.Ready args prefer) a (s.partialVisits args prefer dps a)
  | [], _, _, _ => trivial
  | dp :: rest, a, hdps, ha => by
    have hrest : ∀ dp ∈ rest, dp ∈ s.downloads := fun d hd => hdps d (mem_cons_of_mem dp hd)
    rw [partialVisits]
    split
    · exact partialVisits_ready rest a hrest ha
    rename_i hfree
    split
    · exact partialVisits_ready rest a hrest ha
    refine ⟨⟨ha, hdps dp mem_cons_self, by simpa using hfree⟩, ?_⟩
    split
    · exact trivial
    · exact partialVisits_ready rest _ hrest (by omega)

theorem nextPickable_spec {startPiece : Nat} : ∀ (fuel : Nat) {piece q : Nat},
    s.nextPickable args startPiece fuel piece = some q → s.canPick q args.pieces = true ∧ q ∉ args.suggestedPieces
  | 0, _, _, h => by cases h
  | fuel + 1, piece, q, h => by
    rw [nextPickable] at h
    split at h
    · dsimp only at h
      generalize (if piece + 1 = s.numPieces then 0 else piece + 1) = next at h
      split at h
      · cases h
      · exact nextPickable_spec fuel h
    · rename_i hcond
      cases h
      simpa using hcond

theorem randomVisits_ready (startPiece : Nat) : ∀ (fuel piece : Nat) (a : Picks),
    Legal (s.visit args prefer) (s.Ready args prefer) a (s.randomVisits args prefer startPiece fuel piece a)
  | 0, _, _ => trivial
  | fuel + 1, piece, a => by
    rw [randomVisits]
    split_ifs with hpos
    · exact trivial
    cases hq : s.nextPickable args startPiece (s.numPieces + 1) piece with
    | none => exact trivial
    | some q =>
      refine ⟨⟨by omega, whole_due (nextPickable_spec _ hq).1⟩, ?_⟩
      generalize (if (s.expandPiece q prefer args.pieces).2 = s.numPieces then 0
        else (s.expandPiece q prefer args.pieces).2) = next
      split
      · exact trivial
      · exact randomVisits_ready startPiece fuel _ _

variable (args prefer) in
theorem mainVisits_ready (rnd : Nat) {a : Picks} (ha : 0 < a.numBlocks) :
    Legal (s.visit args prefer) (s.Ready args prefer) a (s.mainVisits args prefer rnd a) := by
  unfold mainVisits
  split
  · exact eachVisits_ready _ _ _ ha
  · exact randomVisits_ready _ _ _ _

/-! ## The blocks of a visit -/

def offered (s : PiecePicker) : Visit → List PieceBlock
  | .part dp => (s.freeBlocks dp).map (PieceBlock.of dp.index)
  | .whole ks => ks.flatMap s.blocksOf

theorem mem_blocksOf (C : Consistent s) (hk : k < s.numPieces) {b : PieceBlock} :
    b ∈ s.blocksOf k ↔ (b.pieceIndex : Nat) = k ∧ (b.blockIndex : Nat) < s.blocksInPiece k := by
  have hpiece : k < 2 ^ 19 := lt_of_lt_of_le hk C.piece_lt
  simp only [blocksOf, mem_map, mem_range]
  constructor
  · rintro ⟨j, hj, rfl⟩
    rw [pieceIndex_of hpiece, blockIndex_of (lt_of_lt_of_le hj (C.blocks_le k))]
    exact ⟨rfl, hj⟩
  · rintro ⟨rfl, hj⟩
    exact ⟨_, hj, b.of_eq⟩

variable {dp : DownloadingPiece}

theorem exists_dl (hdp : dp ∈ s.downloads) : ∃ i < s.downloads.length, s.dl i = dp := by
  obtain ⟨i, hi, rfl⟩ := getElem_of_mem hdp
  refine ⟨i, hi, ?_⟩
  rw [dl, getD_eq_getElem?_getD, List.getElem?_eq_getElem hi]
  rfl

section

variable (C : Consistent s)
include C

variable {b : PieceBlock}

theorem status_part (hdp : dp ∈ s.downloads)
    (hb : (b.pieceIndex : Nat) = dp.index) (hj : (b.blockIndex : Nat) < s.blocksInPiece dp.index) :
    (s.status b).1 = (s.blockOf dp b.blockIndex).state := by
  obtain ⟨i, hi, rfl⟩ := exists_dl hdp
  rw [status, hb, book_index C.ledger.slabbed hi]
  show ((s.record i).blocks b.blockIndex).state = _
  rw [C.ledger.record_block hj]
  rfl

theorem downloading_of_part (hdp : dp ∈ s.downloads) : (s.pos dp.index).downloading = true := by
  obtain ⟨i, hi, rfl⟩ := exists_dl hdp
  rw [C.ledger.flag, book_index C.ledger.slabbed hi]
  rfl

theorem lt_of_part (hdp : dp ∈ s.downloads) : dp.index < s.numPieces :=
  C.ledger.lt_numPieces (by rw [← C.ledger.flag]; exact downloading_of_part C hdp)

theorem mem_offered_part (hdp : dp ∈ s.downloads) :
    b ∈ s.offered (.part dp) ↔ (b.pieceIndex : Nat) = dp.index ∧ (b.blockIndex : Nat) < s.blocksInPiece dp.index ∧
      (s.status b).1 = .none := by
  have hpiece : dp.index < 2 ^ 19 := lt_of_lt_of_le (lt_of_part C hdp) C.piece_lt
  simp only [offered, freeBlocks, mem_map, mem_filter, mem_range, decide_eq_true_eq]
  constructor
  · rintro ⟨j, ⟨hj, hfree⟩, rfl⟩
    have h1 : ((of dp.index j).pieceIndex : Nat) = dp.index := pieceIndex_of hpiece
    have h2 : ((of dp.index j).blockIndex : Nat) = j :=
      blockIndex_of (lt_of_lt_of_le hj (C.blocks_le _))
    refine ⟨h1, by rw [h2]; exact hj, ?_⟩
    rw [status_part C hdp h1 (by rw [h2]; exact hj), h2]
    exact hfree
  · rintro ⟨h1, h2, h3⟩
    rw [status_part C hdp h1 h2] at h3
    exact ⟨_, ⟨h2, h3⟩, by rw [← h1]; exact b.of_eq⟩

theorem pickable_of_offered (hbits : args.pieces.length = s.numPieces) (hv : s.Due args prefer v)
    (hb : b ∈ s.offered v) : s.Pickable args.pieces b ∧ (b.pieceIndex : Nat) ∈ v.pieces := by
  cases v with
  | part =>
    obtain ⟨h1, h2, h3⟩ := (mem_offered_part C hv.1).mp hb
    refine ⟨⟨⟨?_, ?_⟩, ?_, h3⟩, ?_⟩
    · rw [h1]; exact lt_of_part C hv.1
    · rw [h1]; exact h2
    · rw [h1]; exact hv.2
    · rw [h1]; exact mem_singleton_self _
  | whole =>
    obtain ⟨k, hk, hb⟩ := mem_flatMap.mp hb
    obtain ⟨hfree, hd⟩ := canPick_iff.mp (hv.1 k hk)
    have hlt := lt_of_isPieceFree hbits hfree
    obtain ⟨h1, h2⟩ := (mem_blocksOf C hlt).mp hb
    have hbook : s.book b.pieceIndex = none := C.ledger.book_none (by rw [h1, hd]; exact Bool.false_ne_true)
    refine ⟨⟨⟨?_, ?_⟩, ?_, ?_⟩, ?_⟩
    · rw [h1]; exact hlt
    · rw [h1]; exact h2
    · rw [h1]; exact hfree
    · rw [status_of_book_none hbook]
    · rw [h1]; exact hk

end

/-! ## What a visit does -/

/-- There are as many back-up blocks of a kind as blocks still to pick. -/
def Stocked (a : Picks) : Prop :=
  a.numBlocks ≤ a.backup.length ∨ a.numBlocks ≤ a.backup2.length

structure Adds (a a' : Picks) (l₁ l₂ l₃ : List PieceBlock) : Prop where
  interesting : a'.interesting = a.interesting ++ l₁
  backup : a'.backup = a.backup ++ l₂
  backup2 : a'.backup2 = a.backup2 ++ l₃
  count : a'.numBlocks = max (a.numBlocks - l₁.length) 0

theorem Adds.refl (h : 0 ≤ a.numBlocks) : Adds a a [] [] [] :=
  ⟨by simp, by simp, by simp, by simp [h]⟩

/-- What a visit does: it adds the first of the blocks it may add, in order, all to one of the three lists. -/
structure Gains (s : PiecePicker) (args : PickArgs) (prefer : Nat) (v : Visit) (a a' : Picks)
    (l₁ l₂ l₃ : List PieceBlock) : Prop extends Adds a a' l₁ l₂ l₃ where
  offered : l₁ ++ l₂ ++ l₃ <+: s.offered v
  budget : prefer = 0 → (l₁.length : Int) ≤ a.numBlocks
  complete : prefer = 0 → args.options.onParole = false →
    l₁ ++ l₂ ++ l₃ = s.offered v ∨ a'.numBlocks ≤ 0 ∨ Stocked a'
  direct : prefer = 0 → args.options.speedAffinity = false → l₂ = [] ∧ l₃ = []

/-- The piece is in another speed category than the peer, and other peers are active in it: its blocks are back-up
blocks. -/
def Diverted (dp : DownloadingPiece) (args : PickArgs) (exclusiveActive : Bool) : Prop :=
  dp.state ≠ .none ∧ dp.state ≠ args.speed ∧ !exclusiveActive ∧ args.options.speedAffinity

section Free

variable {dp : DownloadingPiece} {exclusiveActive : Bool}

variable (prefer) in
theorem pickFreeBlocks_direct (hd : ¬ Diverted dp args exclusiveActive) : ∀ (js : List Nat) (a : Picks),
    (prefer = 0 → 0 < a.numBlocks) →
    ∃ l, l <+: js.map (of dp.index) ∧ Adds a (pickFreeBlocks dp args prefer exclusiveActive js a) l [] [] ∧
      (prefer = 0 → (l.length : Int) ≤ a.numBlocks) ∧
      (l = js.map (of dp.index) ∨
        prefer = 0 ∧ (pickFreeBlocks dp args prefer exclusiveActive js a).numBlocks ≤ 0)
  | [], a, h => by
    refine ⟨[], nil_prefix, ⟨by simp [pickFreeBlocks], by simp [pickFreeBlocks], by simp [pickFreeBlocks], by
      simp [pickFreeBlocks]⟩, fun h0 => ?_, .inl rfl⟩
    have := h h0
    simp
    omega
  | j :: js, a, h => by
    have hd' := hd
    unfold Diverted at hd'
    rw [pickFreeBlocks, if_neg hd']
    dsimp only
    split
    · rename_i hstop
      have hpos := h hstop.1
      refine ⟨[of dp.index j], by simp, ⟨rfl, by simp, by simp, ?_⟩, fun _ => ?_, .inr ⟨hstop.1, hstop.2⟩⟩
      · simp only [length_singleton]
        omega
      · simp only [length_singleton]
        omega
    rename_i hgo
    have hgo' : prefer = 0 → 0 < a.numBlocks - 1 := fun h0 => by
      by_contra hle
      exact hgo ⟨h0, by omega⟩
    obtain ⟨l, hl, hadds, hbudget, hall⟩ := pickFreeBlocks_direct hd js
      { a with interesting := a.interesting ++ [of dp.index j], numBlocks := a.numBlocks - 1 } hgo'
    refine ⟨of dp.index j :: l, ?_, ⟨?_, hadds.backup, hadds.backup2, ?_⟩, fun h0 => ?_, ?_⟩
    · simpa using hl
    · rw [hadds.interesting]
      simp
    · rw [hadds.count, length_cons]
      simp only
      omega
    · have := hbudget h0
      simp only [length_cons] at this ⊢
      omega
    · rcases hall with rfl | hstop
      · exact .inl rfl
      · exact .inr hstop

variable (prefer) in
theorem pickFreeBlocks_diverted (hd : Diverted dp args exclusiveActive) : ∀ (js : List Nat) (a : Picks),
    0 ≤ a.numBlocks →
    ∃ l₂ l₃, (¬ (dp.state.toInt - args.speed.toInt).natAbs = 1 → l₂ = []) ∧ l₂ ++ l₃ <+: js.map (of dp.index) ∧
      Adds a (pickFreeBlocks dp args prefer exclusiveActive js a) [] l₂ l₃ ∧
      (l₂ ++ l₃ = js.map (of dp.index) ∨ Stocked (pickFreeBlocks dp args prefer exclusiveActive js a))
  | [], a, h => ⟨[], [], fun _ => rfl, nil_prefix, ⟨by simp [pickFreeBlocks], by simp [pickFreeBlocks], by
      simp [pickFreeBlocks], by simp [pickFreeBlocks]⟩, .inl rfl⟩
  | j :: js, a, h => by
    have hd' := hd
    unfold Diverted at hd'
    rw [pickFreeBlocks, if_pos hd']
    by_cases hnear : (dp.state.toInt - args.speed.toInt).natAbs = 1
    · rw [if_pos hnear]
      split_ifs with hstop
      · exact ⟨[], [], fun _ => rfl, nil_prefix, Adds.refl h, .inr (.inl hstop)⟩
      obtain ⟨l₂, l₃, -, hl, hadds, hall⟩ := pickFreeBlocks_diverted hd js
        { a with backup := a.backup ++ [of dp.index j] } h
      refine ⟨of dp.index j :: l₂, l₃, absurd hnear, by simpa using hl,
        ⟨hadds.interesting, ?_, hadds.backup2, hadds.count⟩, hall.imp_left fun he => ?_⟩
      · rw [hadds.backup]
        simp
      · rw [cons_append, he, map_cons]
    · rw [if_neg hnear]
      split_ifs with hstop
      · exact ⟨[], [], fun _ => rfl, nil_prefix, Adds.refl h, .inr (.inr hstop)⟩
      obtain ⟨l₂, l₃, hfar, hl, hadds, hall⟩ := pickFreeBlocks_diverted hd js
        { a with backup2 := a.backup2 ++ [of dp.index j] } h
      obtain rfl := hfar hnear
      refine ⟨[], of dp.index j :: l₃, fun _ => rfl, by simpa using hl,
        ⟨hadds.interesting, hadds.backup, ?_, hadds.count⟩, hall.imp_left fun he => ?_⟩
      · rw [hadds.backup2]
        simp
      · rw [nil_append, map_cons, ← he, nil_append]

end Free

theorem part_gains (hfree : s.isPieceFree dp.index args.pieces = true) (h : 0 < a.numBlocks) :
    ∃ l₁ l₂ l₃, Gains s args prefer (.part dp) a (s.visit args prefer a (.part dp)) l₁ l₂ l₃ := by
  have hnonneg : 0 ≤ a.numBlocks := by omega
  obtain ⟨hbit, -, hfilt⟩ := isPieceFree_iff.mp hfree
  show ∃ l₁ l₂ l₃, Gains s args prefer (.part dp) a (s.addBlocksDownloading args prefer dp a) l₁ l₂ l₃
  unfold addBlocksDownloading
  rw [hbit, hfilt]
  simp only [Bool.not_true, Bool.or_false, Bool.false_eq_true, if_false]
  generalize s.requestedFrom dp args.peer (List.range (s.blocksInPiece dp.index)) true = r
  obtain ⟨exclusive, exclusiveActive⟩ := r
  split
  · rename_i hparole
    refine ⟨[], [], [], Adds.refl hnonneg, nil_prefix, fun _ => by simpa using hnonneg, fun _ hno => ?_,
      fun _ _ => ⟨rfl, rfl⟩⟩
    simp [hno] at hparole
  split
  · rename_i hprefer
    split
    · exact ⟨[], [], [], Adds.refl hnonneg, nil_prefix, fun _ => by simpa using hnonneg,
        fun h0 => absurd h0 (by omega), fun _ _ => ⟨rfl, rfl⟩⟩
    · exact ⟨[], [], s.offered (.part dp), ⟨by simp, by simp, rfl, by simp [hnonneg]⟩, prefix_refl _,
        fun h0 => absurd h0 (by omega), fun h0 => absurd h0 (by omega), fun h0 => absurd h0 (by omega)⟩
  by_cases hd : Diverted dp args exclusiveActive
  · obtain ⟨l₂, l₃, -, hl, hadds, hall⟩ := pickFreeBlocks_diverted prefer hd (s.freeBlocks dp) a hnonneg
    refine ⟨[], l₂, l₃, hadds, by simpa [offered] using hl, fun _ => by simpa using hnonneg,
      fun _ _ => hall.imp (fun he => ?_) .inr, fun _ hno => ?_⟩
    · simpa [offered] using he
    · exact absurd (hno.symm.trans hd.2.2.2) Bool.false_ne_true
  · obtain ⟨l, hl, hadds, hbudget, hall⟩ := pickFreeBlocks_direct prefer hd (s.freeBlocks dp) a fun _ => h
    refine ⟨l, [], [], hadds, by simpa [offered] using hl, hbudget, fun _ _ => ?_, fun _ _ => ⟨rfl, rfl⟩⟩
    rcases hall with rfl | hstop
    · exact .inl (by simp [offered])
    · exact .inr (.inl hstop.2)

theorem foldl_takeFrom (hp : prefer ≠ 0) : ∀ (ks : List Nat) (a : Picks), ks.foldl (s.takeFrom prefer) a = { a with
      interesting := a.interesting ++ ks.flatMap s.blocksOf
      numBlocks := a.numBlocks - (ks.flatMap s.blocksOf).length }
  | [], a => by simp
  | k :: ks, a => by
    rw [foldl_cons, foldl_takeFrom hp ks]
    simp only [takeFrom, if_neg hp, pickBlocks, flatMap_cons, length_append, append_assoc, blocksOf,
      length_map, length_range, Picks.mk.injEq, true_and]
    push_cast
    omega

theorem whole_gains {ks : List Nat} (hv : s.Due args prefer (.whole ks)) (h : 0 < a.numBlocks) :
    ∃ l₁ l₂ l₃, Gains s args prefer (.whole ks) a (s.visit args prefer a (.whole ks)) l₁ l₂ l₃ := by
  by_cases hp : prefer = 0
  · obtain ⟨k, rfl⟩ := hv.2.2 hp
    have hoffer : s.offered (.whole [k]) = s.blocksOf k := by simp [offered]
    -- as many blocks of the piece as are still to pick
    generalize hc : (min (s.blocksInPiece k : Int) a.numBlocks).toNat = c
    have hvisit : s.visit args prefer a (.whole [k]) = (pickBlocks a k c).clamp := by
      simp only [visit, foldl_cons, foldl_nil, takeFrom, if_pos hp, hc]
    have hc' : (c : Int) ≤ a.numBlocks ∧ c ≤ s.blocksInPiece k ∧ (c = s.blocksInPiece k ∨ (c : Int) = a.numBlocks) := by
      omega
    have hprefix : (List.range c).map (of k) <+: s.blocksOf k := by
      refine List.IsPrefix.map _ ?_
      rw [prefix_iff_eq_take, length_range, take_range, min_eq_left hc'.2.1]
    rw [hvisit]
    refine ⟨(List.range c).map (of k), [], [], ⟨rfl, by simp [pickBlocks, Picks.clamp], by
      simp [pickBlocks, Picks.clamp], by simp [pickBlocks, Picks.clamp]⟩, ?_, fun _ => ?_, fun _ _ => ?_,
      fun _ _ => ⟨rfl, rfl⟩⟩
    · simpa [hoffer] using hprefix
    · simpa using hc'.1
    rcases hc'.2.2 with he | he
    · left
      rw [hoffer, he]
      simp [blocksOf]
    · right; left
      simp only [pickBlocks, Picks.clamp]
      omega
  · refine ⟨s.offered (.whole ks), [], [], ?_, by simp, fun h0 => absurd h0 hp, fun h0 => absurd h0 hp,
      fun h0 => absurd h0 hp⟩
    simp only [visit, foldl_takeFrom hp]
    exact ⟨rfl, by simp [Picks.clamp], by simp [Picks.clamp], rfl⟩

theorem visit_gains (hv : s.Due args prefer v) (h : 0 < a.numBlocks) :
    ∃ l₁ l₂ l₃, Gains s args prefer v a (s.visit args prefer a v) l₁ l₂ l₃ := by
  cases v with
  | part => exact part_gains hv.2 h
  | whole => exact whole_gains hv h

end PiecePicker

end Libtorrent.Picker
