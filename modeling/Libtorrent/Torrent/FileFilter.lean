import Mathlib.Algebra.Order.Ring.Int
import Mathlib.Algebra.Order.BigOperators.Group.List

/-!
# `torrent.cpp`: filtering pieces and files

`filter_files` clears the filter of the pieces from the one that a file starts in to the one that holds the byte behind
its end. That one need not have a byte of the file, and behind the last file there is none (`filter_files_iff`).
`filter_piece` sets the opposite of what it is asked for. Of the picker there are the priorities; a seed has no picker,
and all these functions return at once.
-/

namespace Libtorrent.FileFilter

open List

structure Torrent where
  isSeed : Bool
  pieceLength : Nat
  files : List Nat
  priority : Nat → Nat
  pieceLength_pos : 0 < pieceLength

variable (t : Torrent)

def Torrent.numPieces : Nat := (t.files.sum + t.pieceLength - 1) / t.pieceLength

def filterPiece (index : Nat) (filter : Bool) : Torrent :=
  if t.isSeed || index ≥ t.numPieces then t
  else { t with priority := Function.update t.priority index (if filter then 1 else 0) }

def filterPieces (bitmask : List Bool) : Torrent :=
  if t.isSeed then t
  else
    { t with
      priority := fun index =>
        match bitmask[index]? with
        | none => t.priority index
        | some b => if (t.priority index == 0) == b then t.priority index else if b then 0 else 1 }

def isPieceFiltered (index : Nat) : Bool := !t.isSeed && (index ≥ t.numPieces || t.priority index == 0)

/-- The loop of `filter_files`, with the arguments of `std::fill`. -/
structure Scan where
  position : Nat := 0
  pieceFilter : List Bool
  fills : List (Nat × Nat) := []

/-- A file, and if it is filtered. -/
def scanFile (pieceLength : Nat) (s : Scan) (file : Nat × Bool) : Scan :=
  let start := s.position
  let position := start + file.1
  if file.2 then { s with position }
  else
    let startPiece := start / pieceLength
    let lastPiece := position / pieceLength
    { position
      pieceFilter := s.pieceFilter.mapIdx fun i b => if startPiece ≤ i ∧ i < lastPiece + 1 then false else b
      fills := s.fills ++ [(startPiece, lastPiece + 1)] }

def scanFiles (bitmask : List Bool) : Scan :=
  if t.numPieces = 0 then { pieceFilter := [] }
  else (t.files.zip bitmask).foldl (scanFile t.pieceLength) { pieceFilter := replicate t.numPieces true }

def filterFiles (bitmask : List Bool) : Torrent :=
  if t.isSeed || bitmask.length ≠ t.files.length then t else filterPieces t (scanFiles t bitmask).pieceFilter

/-- The bytes of the files that are not filtered, from `position` on. -/
def spans : Nat → List (Nat × Bool) → List (Nat × Nat)
  | _, [] => []
  | position, (size, filtered) :: files =>
    if filtered then spans (position + size) files else (position, position + size) :: spans (position + size) files

def HasByte (span : Nat × Nat) (piece : Nat) : Prop := ∃ x, span.1 ≤ x ∧ x < span.2 ∧ x / t.pieceLength = piece

def Wanted (bitmask : List Bool) (piece : Nat) : Prop := ∃ f ∈ spans 0 (t.files.zip bitmask), HasByte t f piece

/-- The filter is written in range, and is exact. -/
def Exact (bitmask : List Bool) : Prop :=
  (∀ f ∈ (scanFiles t bitmask).fills, f.2 ≤ t.numPieces) ∧
    ∀ p < t.numPieces, isPieceFiltered (filterFiles t bitmask) p = true ↔ ¬ Wanted t bitmask p

variable {t} {bitmask : List Bool} {f : Nat × Nat} {p : Nat}

theorem spans_bounds {files : List (Nat × Bool)} {position : Nat} (h : f ∈ spans position files) :
    f.1 ≤ f.2 ∧ f.2 ≤ position + (files.map Prod.fst).sum := by
  induction files generalizing position with
  | nil => exact absurd h not_mem_nil
  | cons file files ih =>
    rw [map_cons, sum_cons, ← Nat.add_assoc]
    rw [spans] at h
    split at h
    · exact ih h
    rcases mem_cons.mp h with rfl | h
    · exact ⟨Nat.le_add_right _ _, Nat.le_add_right _ _⟩
    · exact ih h

theorem scan_spec {pl : Nat} {files : List (Nat × Bool)} {s : Scan} :
    ((files.foldl (scanFile pl) s).fills = s.fills ++ (spans s.position files).map fun f => (f.1 / pl, f.2 / pl + 1)) ∧
      ∀ i, (files.foldl (scanFile pl) s).pieceFilter[i]? = s.pieceFilter[i]?.map fun b =>
        b && decide (∀ f ∈ spans s.position files, ¬ (f.1 / pl ≤ i ∧ i ≤ f.2 / pl)) := by
  induction files generalizing s with
  | nil => simp [spans]
  | cons file files ih =>
    obtain ⟨size, filtered⟩ := file
    obtain ⟨h1, h2⟩ := ih (s := scanFile pl s (size, filtered))
    rw [foldl_cons]
    cases filtered with
    | true => exact ⟨h1, h2⟩
    | false =>
      refine ⟨h1.trans ?_, fun i => (h2 i).trans ?_⟩
      · simp [scanFile, spans]
      simp only [scanFile, spans, getElem?_mapIdx, Option.map_map, Bool.false_eq_true, if_false]
      refine congrArg (Option.map · _) (funext fun b => ?_)
      simp only [Function.comp_apply, forall_mem_cons, Nat.lt_succ_iff]
      split
      · rename_i hi
        simp [hi]
      · rename_i hi
        simp only [hi, not_false_eq_true, true_and]

theorem hasByte_of_lt (h1 : f.1 / t.pieceLength ≤ p) (h2 : p < f.2 / t.pieceLength) :
    HasByte t f p := by
  have hpos := t.pieceLength_pos
  rcases Nat.le_total f.1 (p * t.pieceLength) with hle | hle
  · have hend := (Nat.le_div_iff_mul_le hpos).mp (Nat.succ_le_of_lt h2)
    rw [Nat.succ_mul] at hend
    exact ⟨p * t.pieceLength, hle, by omega, Nat.mul_div_cancel p hpos⟩
  · exact ⟨f.1, Nat.le_refl _, Nat.lt_of_div_lt_div (Nat.lt_of_le_of_lt h1 h2),
      Nat.le_antisymm h1 ((Nat.le_div_iff_mul_le hpos).mpr hle)⟩

theorem HasByte.le : HasByte t f p → f.1 / t.pieceLength ≤ p ∧ p ≤ f.2 / t.pieceLength := by
  rintro ⟨x, h1, h2, rfl⟩
  exact ⟨Nat.div_le_div_right h1, Nat.div_le_div_right (Nat.le_of_lt h2)⟩

theorem Wanted.lt (hlen : bitmask.length = t.files.length) (h : Wanted t bitmask p) : p < t.numPieces := by
  obtain ⟨f, hf, x, -, hx, rfl⟩ := h
  have hend := (spans_bounds hf).2
  rw [map_fst_zip (Nat.le_of_eq hlen.symm), Nat.zero_add] at hend
  have hpos := t.pieceLength_pos
  rw [Torrent.numPieces, Nat.lt_iff_add_one_le, Nat.le_div_iff_mul_le hpos]
  have := Nat.div_mul_le_self x t.pieceLength
  rw [Nat.succ_mul]
  omega

theorem filterPieces_spec (hseed : t.isSeed = false) {b : Bool} (hp : p < t.numPieces) (hb : bitmask[p]? = some b) :
    isPieceFiltered (filterPieces t bitmask) p = b := by
  have hin : ¬ p ≥ t.numPieces := Nat.not_le.mpr hp
  simp only [filterPieces, hseed, Bool.false_eq_true, if_false, isPieceFiltered, hb]
  change (!false && (decide (p ≥ t.numPieces) || _)) = b
  rw [decide_eq_false hin]
  cases b <;> cases hz : t.priority p == 0 <;> simp_all

theorem pieceFilter_scanFiles (hp : p < t.numPieces) :
    (scanFiles t bitmask).pieceFilter[p]? = some (decide (∀ f ∈ spans 0 (t.files.zip bitmask),
      ¬ (f.1 / t.pieceLength ≤ p ∧ p ≤ f.2 / t.pieceLength))) := by
  rw [scanFiles, if_neg (by omega), scan_spec.2, getElem?_replicate_of_lt hp]
  rfl

/-- **Filtering files**: the filter is written in range and is exact if and only if each file that is not filtered ends
in a piece that has a byte of such a file. `filter_piece` sets the opposite, unlike `filter_pieces`. -/
theorem filter_files_iff (hseed : t.isSeed = false) (bitmask : { l : List Bool // l.length = t.files.length }) :
    (Exact t bitmask ↔ (t.numPieces ≠ 0 → ∀ f ∈ spans 0 (t.files.zip bitmask),
      Wanted t bitmask (f.2 / t.pieceLength))) ∧
      ∀ p < t.numPieces, ∀ b, isPieceFiltered (filterPiece t p b) p = !b ∧
        ∀ l : List Bool, l[p]? = some b → isPieceFiltered (filterPieces t l) p = b := by
  obtain ⟨bitmask, hlen⟩ := bitmask
  have hfilter : ∀ p < t.numPieces, isPieceFiltered (filterFiles t bitmask) p = true ↔
      ∀ f ∈ spans 0 (t.files.zip bitmask), ¬ (f.1 / t.pieceLength ≤ p ∧ p ≤ f.2 / t.pieceLength) := fun p hp => by
    rw [filterFiles, hseed, if_neg (by simp [hlen]), filterPieces_spec hseed hp (pieceFilter_scanFiles hp),
      decide_eq_true_iff]
  refine ⟨⟨fun ⟨hfills, hexact⟩ hn f hf => ?_, fun h => ⟨fun g hg => ?_, fun p hp => ?_⟩⟩,
    fun p hp b => ⟨?_, fun _ => filterPieces_spec hseed hp⟩⟩
  · have hin : f.2 / t.pieceLength < t.numPieces := hfills (f.1 / t.pieceLength, f.2 / t.pieceLength + 1) (by
      rw [scanFiles, if_neg hn, scan_spec.1]
      exact mem_append_right _ (mem_map_of_mem hf))
    by_contra hnot
    exact (hfilter _ hin).mp ((hexact _ hin).mpr hnot) f hf
      ⟨Nat.div_le_div_right (spans_bounds hf).1, Nat.le_refl _⟩
  · rw [scanFiles] at hg
    split at hg
    · exact absurd hg not_mem_nil
    · rename_i hn
      rw [scan_spec.1, nil_append] at hg
      obtain ⟨f, hf, rfl⟩ := mem_map.mp hg
      exact Wanted.lt hlen (h hn f hf)
  · rw [hfilter p hp]
    constructor
    · rintro hno ⟨f, hf, hbyte⟩
      exact hno f hf hbyte.le
    · rintro hno f hf ⟨h1, h2⟩
      rcases Nat.lt_or_eq_of_le h2 with h2 | rfl
      · exact hno ⟨f, hf, hasByte_of_lt h1 h2⟩
      · exact hno (h (Nat.ne_zero_of_lt hp) f hf)
  · have hin : ¬ p ≥ t.numPieces := Nat.not_le.mpr hp
    rw [filterPiece, hseed, if_neg (by simpa using hp)]
    change (!false && (decide (p ≥ t.numPieces) || Function.update t.priority p (if b then 1 else 0) p == 0)) = !b
    rw [Function.update_self, decide_eq_false hin]
    cases b <;> rfl

/-- A file that fills a piece of four bytes. -/
def onePiece : Torrent := ⟨false, 4, [4], fun _ => 1, by decide⟩

theorem filter_files_iff_onePiece : Exact onePiece [true] :=
  (filter_files_iff rfl ⟨[true], rfl⟩).1.mpr fun _ _ h => absurd h not_mem_nil

theorem onePiece_overrun : (0, 2) ∈ (scanFiles onePiece [false]).fills ∧ onePiece.numPieces = 1 ∧
    isPieceFiltered (filterPiece onePiece 0 true) 0 = false := by decide

end Libtorrent.FileFilter
