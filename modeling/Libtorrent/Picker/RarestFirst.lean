import Libtorrent.Picker.Passes

/-!
# The orders of the main pass

* `reverseOrder_perm`: the reverse rarest-first order goes over the pieces of the index, each once;
* `mem_order`, `nodup_order`: the sequential and the rarest-first order reach every piece that can be picked, and none
  twice;
* `Follows`, `mem_randomVisits`, `randomVisits_sublist`: the random picking goes once around all pieces.
-/

namespace Libtorrent.Picker.PiecePicker

open Run List

variable {s : PiecePicker} {args : PickArgs} {prefer p : Nat} {a : Picks}

/-! ## The reverse rarest-first order -/

/-- The pieces of `priority_range(prio)`. -/
def inRange (s : PiecePicker) (prio : Nat) : List Nat :=
  (List.range' (s.rangeStart prio) (s.rangeEnd prio - s.rangeStart prio)).map s.piece

/-- The range that is visited in place of the `i`-th. -/
def mirror (i : Nat) : Nat := (i / prioFactor) * prioFactor + prioFactor - 1 - (i % prioFactor)

theorem map_piece (s : PiecePicker) {i n : Nat} (h : i + n ≤ s.pieces.length) :
    (List.range' i n).map s.piece = (s.pieces.drop i).take n := by
  refine ext_getElem ?_ fun k h1 h2 => ?_
  · simp only [length_map, length_range', length_take, length_drop]
    omega
  simp only [length_map, length_range'] at h1
  simp only [getElem_map, getElem_range', getElem_take, getElem_drop, piece]
  rw [getD_eq_getElem _ _ (by omega)]
  congr 1
  omega

theorem flatMap_inRange (I : Indexed s) : ∀ k < s.priorityBoundries.length,
    (List.range (k + 1)).flatMap s.inRange = s.pieces.take (s.boundry k)
  | 0, hk => by
    have h1 : s.boundry 0 ≤ s.pieces.length := by
      rw [boundry_eq_bnd s hk]
      exact I.layout.le 0
    simp only [Nat.zero_add, range_one, flatMap_singleton, inRange, rangeStart, rangeEnd, if_pos]
    rw [map_piece s (by omega)]
    simp
  | k + 1, hk => by
    have h1 : s.boundry (k + 1) ≤ s.pieces.length := by
      rw [boundry_eq_bnd s hk]
      exact I.layout.le _
    have h2 : s.boundry k ≤ s.boundry (k + 1) := by
      rw [boundry_eq_bnd s hk, boundry_eq_bnd s (by omega)]
      exact I.layout.mono (by omega)
    have h3 : s.inRange (k + 1) = (s.pieces.drop (s.boundry k)).take (s.boundry (k + 1) - s.boundry k) := by
      rw [inRange, show s.rangeStart (k + 1) = s.boundry k from rfl,
        show s.rangeEnd (k + 1) = s.boundry (k + 1) from rfl]
      exact map_piece s (by omega)
    rw [range_succ, flatMap_append, flatMap_inRange I k (by omega), flatMap_singleton, h3,
      ← take_add, Nat.add_sub_cancel' h2]

theorem mirror_perm {n : Nat} (h : prioFactor ∣ n) : ((List.range n).reverse.map mirror).Perm (List.range n) := by
  obtain ⟨m, rfl⟩ := h
  have h4 : prioFactor = 4 := rfl
  refine (perm_ext_iff_of_nodup ?_ nodup_range).mpr fun x => ?_
  · refine List.Nodup.map_on (fun i hi j hj h => ?_) (nodup_reverse.mpr nodup_range)
    simp only [mirror, h4] at h
    omega
  simp only [mem_map, mem_reverse, mem_range, mirror, h4]
  constructor
  · rintro ⟨i, hi, rfl⟩
    omega
  · intro hx
    exact ⟨x / 4 * 4 + 4 - 1 - x % 4, by omega, by omega⟩

theorem reverseOrder_perm (I : Indexed s) (h : prioFactor ∣ s.priorityBoundries.length) :
    s.reverseOrder.Perm s.pieces := by
  have hmap : s.reverseOrder = ((List.range s.priorityBoundries.length).reverse.map mirror).flatMap s.inRange := by
    rw [flatMap_map]
    rfl
  obtain ⟨hpos, hlast⟩ := I.closed
  have hall : (List.range s.priorityBoundries.length).flatMap s.inRange = s.pieces := by
    have := flatMap_inRange I (s.priorityBoundries.length - 1) (by omega)
    rw [Nat.sub_add_cancel hpos] at this
    rw [this, boundry_eq_bnd s (by omega), hlast, take_length]
  rw [hmap, ← hall]
  exact (mirror_perm h).flatMap_right _

/-! ## The sequential and the rarest-first order -/

variable (args) in
theorem prepared_indexed (h : Sound s) (shuffles : Nat → Nat) (hseq : args.options.sequential = false)
    (hrare : args.options.rarestFirst = true) : Indexed (s.prepared args shuffles) ∧
      (args.options.reverse = true → prioFactor ∣ (s.prepared args shuffles).priorityBoundries.length) := by
  have ht : ∀ t, (if s.dirty = true then s.updatePieces shuffles else s) = t → Sound t ∧ t.dirty = false := by
    rintro t rfl
    split
    · exact ⟨(updatePieces_sound h.size shuffles).1, (updatePieces_sound h.size shuffles).2.2⟩
    · rename_i hd
      exact ⟨h, by simpa using hd⟩
  unfold prepared
  simp only [hseq, hrare, if_true, if_false, Bool.false_eq_true]
  obtain ⟨h1, h2⟩ := ht _ rfl
  generalize (if s.dirty = true then s.updatePieces shuffles else s) = t at *
  split
  · refine ⟨(roundUpBoundries_sound h1 h2).1.indexed h2, fun _ => ?_⟩
    simp only [roundUpBoundries, Vec.length_resize]
    exact Nat.dvd_mul_left _ _
  · rename_i hrev
    exact ⟨h1.indexed h2, fun h => absurd h hrev⟩

section Order

variable (C : Consistent s) (hindex : args.options.sequential = false →
  Indexed s ∧ (args.options.reverse = true → prioFactor ∣ s.priorityBoundries.length))
include C hindex

theorem mem_order (hp : p < s.numPieces) (hprio : (s.priority p).isSome) : p ∈ s.order args := by
  have hset : s.settled p = false := by
    obtain ⟨q, hq⟩ := Option.isSome_iff_exists.mp hprio
    simp only [priority, PiecePos.priority] at hq
    split at hq
    · cases hq
    rename_i hno
    simp only [Bool.or_eq_true, not_or, Bool.not_eq_true] at hno
    rw [settled, hno.1.1, hno.1.2]
    rfl
  unfold order
  split
  · have hc : s.cursor ≤ p := by
      by_contra hlt
      rw [C.bracket.fwd p (by omega)] at hset
      cases hset
    have hr : p < s.reverseCursor := by
      by_contra hle
      rw [C.bracket.bwd p (by omega) hp] at hset
      cases hset
    have hmem : p ∈ List.range' s.cursor (s.reverseCursor - s.cursor) := by
      rw [mem_range'_1]
      omega
    split
    · exact mem_reverse.mpr hmem
    · exact hmem
  · rename_i hseq
    obtain ⟨I, h4⟩ := hindex (by simpa using hseq)
    have hmem := (Filed.mem_pieces I).mpr ⟨hp, hprio⟩
    split
    · rename_i hrev
      exact (reverseOrder_perm I (h4 hrev)).mem_iff.mpr hmem
    · exact hmem

omit C in
theorem nodup_order : (s.order args).Nodup := by
  unfold order
  split
  · split
    · exact nodup_reverse.mpr nodup_range'
    · exact nodup_range'
  rename_i hseq
  obtain ⟨I, h4⟩ := hindex (by simpa using hseq)
  split
  · rename_i hrev
    exact (reverseOrder_perm I (h4 hrev)).nodup_iff.mpr (Filed.nodup I)
  · exact Filed.nodup I

end Order

/-! ## Once around -/

def next (s : PiecePicker) (piece : Nat) : Nat := if piece + 1 = s.numPieces then 0 else piece + 1

/-- The pieces follow each other around, until `start` would come. -/
def Follows (s : PiecePicker) (start : Nat) : List Nat → Prop
  | [] => True
  | [x] => s.next x = start
  | x :: y :: l => s.next x = y ∧ y ≠ start ∧ s.Follows start (y :: l)

variable {start : Nat}

theorem follows_low (hs : start < s.numPieces) : ∀ (n x : Nat), x + n + 1 = start →
    s.Follows start (List.range' x (n + 1))
  | 0, x, h => by
    show s.next x = start
    rw [next, if_neg (by omega)]
    omega
  | n + 1, x, h => by
    refine ⟨?_, by omega, follows_low hs n (x + 1) (by omega)⟩
    rw [next, if_neg (by omega)]

theorem follows_high (hs : start < s.numPieces) : ∀ (n x : Nat), x + n + 1 = s.numPieces → start ≤ x →
    s.Follows start (List.range' x (n + 1) ++ List.range start)
  | 0, x, h, hx => by
    have hnext : s.next x = 0 := if_pos h
    cases start with
    | zero => exact hnext
    | succ k =>
      have hlow := follows_low hs k 0 (by omega)
      rw [← range_eq_range'] at hlow
      rw [range_succ_eq_map] at hlow ⊢
      exact ⟨hnext, by omega, hlow⟩
  | n + 1, x, h, hx => by
    refine ⟨?_, by omega, follows_high hs n (x + 1) (by omega) (by omega)⟩
    rw [next, if_neg (by omega)]

def around (s : PiecePicker) (start : Nat) : List Nat := List.range' start (s.numPieces - start) ++ List.range start

theorem around_spec (hs : start < s.numPieces) : ∃ l, s.around start = start :: l ∧
    s.Follows start (start :: l) ∧ (s.around start).Nodup ∧ ∀ q < s.numPieces, q ∈ s.around start := by
  obtain ⟨n, hn⟩ : ∃ n, s.numPieces - start = n + 1 := ⟨s.numPieces - start - 1, by omega⟩
  have hfollows := follows_high hs n start (by omega) (Nat.le_refl _)
  refine ⟨List.range' (start + 1) n ++ List.range start, ?_, hfollows, ?_, fun q hq => ?_⟩
  · rw [around, hn]
    rfl
  · rw [around, nodup_append']
    refine ⟨nodup_range', nodup_range, fun x h1 h2 => ?_⟩
    rw [mem_range'_1] at h1
    rw [mem_range] at h2
    omega
  · rw [around, mem_append, mem_range'_1, mem_range]
    omega

def Takes (s : PiecePicker) (args : PickArgs) (q : Nat) : Prop :=
  s.canPick q args.pieces = true ∧ q ∉ args.suggestedPieces

variable (args) in
theorem nextPickable_follows : ∀ (fuel : Nat) (x : Nat) (l : List Nat), l.length < fuel → s.Follows start (x :: l) →
    (s.nextPickable args start fuel x = none ∧ ∀ q ∈ x :: l, ¬ s.Takes args q) ∨
      ∃ pre q rest, s.nextPickable args start fuel x = some q ∧ x :: l = pre ++ q :: rest ∧
        (∀ y ∈ pre, ¬ s.Takes args y) ∧ s.Takes args q ∧ s.Follows start (q :: rest)
  | 0, _, _, h, _ => by omega
  | fuel + 1, x, l, hl, hf => by
    have hnext : (if x + 1 = s.numPieces then 0 else x + 1) = s.next x := rfl
    rw [nextPickable, hnext]
    by_cases htake : s.Takes args x
    · right
      have hcond : (!s.canPick x args.pieces || args.suggestedPieces.contains x) = false := by
        simpa [Takes] using htake
      exact ⟨[], x, l, by rw [hcond]; rfl, rfl, fun y hy => absurd hy not_mem_nil, htake, hf⟩
    have hcond : (!s.canPick x args.pieces || args.suggestedPieces.contains x) = true := by
      by_contra hno
      refine htake ?_
      simpa [Takes] using hno
    rw [if_pos hcond]
    cases l with
    | nil =>
      left
      have hend : s.next x = start := hf
      rw [if_pos hend]
      exact ⟨rfl, by simpa using htake⟩
    | cons y l =>
      obtain ⟨h1, h2, h3⟩ := hf
      rw [h1, if_neg h2]
      simp only [length_cons] at hl
      rcases nextPickable_follows fuel y l (by omega) h3 with ⟨hnone, hno⟩ | ⟨pre, q, rest, hq, he, hpre, hrest⟩
      · left
        refine ⟨hnone, fun q hq => ?_⟩
        rcases mem_cons.mp hq with rfl | hq
        · exact htake
        · exact hno q hq
      right
      refine ⟨x :: pre, q, rest, hq, by rw [he]; rfl, fun z hz => ?_, hrest⟩
      rcases mem_cons.mp hz with rfl | hz
      · exact htake
      · exact hpre z hz

/-- The runs of `expand_piece` have one piece: not more are asked for, or no two neighbours can be picked. -/
def Lone (s : PiecePicker) (bits : Bitfield) (prefer : Nat) : Prop :=
  prefer ≤ 1 ∨ ∀ p, s.canPick p bits = true → s.canPick (p + 1) bits = false

theorem expandPiece_lone {bits : Bitfield} (h : s.Lone bits prefer) (hp : s.canPick p bits = true) :
    s.expandPiece p prefer bits = (p, p + 1) := by
  obtain ⟨h1, h2, h3, h4⟩ := expandPiece_spec bits prefer hp
  rcases h with h | h
  · exact Prod.ext (by omega) (by omega)
  refine Prod.ext (Nat.le_antisymm h1 (Nat.not_lt.mp fun hlt => ?_)) (Nat.le_antisymm (Nat.not_lt.mp fun hlt => ?_) h2)
  · have := h (p - 1) (h3 _ (by omega) (by omega))
    rw [Nat.sub_add_cancel (by omega), hp] at this
    cases this
  · have := h p hp
    rw [h3 (p + 1) (by omega) hlt] at this
    cases this

theorem expanded_lone (h : s.Lone args.pieces prefer) (hp : s.canPick p args.pieces = true) :
    s.expanded args prefer p = [p] := by
  rw [expanded, expandPiece_lone h hp]
  simp

section Random

variable {start : Nat} (hlone : s.Lone args.pieces prefer)
include hlone

variable (args prefer) in
theorem randomVisits_round {x : Nat} {l : List Nat} (fuel : Nat) (ha : 0 < a.numBlocks) (hl : l.length ≤ s.numPieces)
    (hf : s.Follows start (x :: l)) :
    (s.randomVisits args prefer start (fuel + 1) x a = [] ∧ ∀ q ∈ x :: l, ¬ s.Takes args q) ∨
      ∃ pre q rest, x :: l = pre ++ q :: rest ∧ (∀ y ∈ pre, ¬ s.Takes args y) ∧ s.Takes args q ∧
        ((rest = [] ∧ s.randomVisits args prefer start (fuel + 1) x a = [.whole [q]]) ∨
          ∃ y rest', rest = y :: rest' ∧ s.Follows start rest ∧ s.randomVisits args prefer start (fuel + 1) x a =
            .whole [q] :: s.randomVisits args prefer start fuel y (s.visit args prefer a (.whole [q]))) := by
  rw [randomVisits, if_neg (by omega)]
  rcases nextPickable_follows args (s.numPieces + 1) x l (by omega) hf with
    ⟨hnone, hno⟩ | ⟨pre, q, rest, hq, he, hpre, htake, hrest⟩
  · left
    rw [hnone]
    exact ⟨rfl, hno⟩
  right
  have hnext : (if q + 1 = s.numPieces then 0 else q + 1) = s.next q := rfl
  simp only [hq, expanded_lone hlone htake.1, expandPiece_lone hlone htake.1, hnext]
  refine ⟨pre, q, rest, he, hpre, htake, ?_⟩
  cases rest with
  | nil =>
    have hend : s.next q = start := hrest
    rw [if_pos hend]
    exact .inl ⟨rfl, rfl⟩
  | cons y rest =>
    obtain ⟨h1, h2, h3⟩ := hrest
    rw [h1, if_neg h2]
    exact .inr ⟨y, rest, rfl, h3, rfl⟩

theorem randomVisits_sublist : ∀ (fuel x : Nat) (l : List Nat) (a : Picks), l.length ≤ s.numPieces →
    s.Follows start (x :: l) → ((s.randomVisits args prefer start fuel x a).flatMap Visit.fresh).Sublist
      ((x :: l).filter (· ∉ args.suggestedPieces))
  | 0, _, _, _, _, _ => nil_sublist _
  | fuel + 1, x, l, a, hl, hf => by
    by_cases ha : a.numBlocks ≤ 0
    · rw [randomVisits_done _ _ _ _ _ _ ha]
      exact nil_sublist _
    rcases randomVisits_round args prefer hlone fuel (Int.not_le.mp ha) hl hf with
      ⟨hnil, -⟩ | ⟨pre, q, rest, he, -, htake, hend⟩
    · rw [hnil]
      exact nil_sublist _
    have hkeep : (q :: rest).filter (· ∉ args.suggestedPieces) =
        q :: rest.filter (· ∉ args.suggestedPieces) := filter_cons_of_pos (by simpa using htake.2)
    have hlen : rest.length ≤ l.length := by
      have := congrArg List.length he
      simp only [length_append, length_cons] at this
      omega
    rw [he, filter_append, hkeep]
    refine List.Sublist.trans ?_ (sublist_append_right _ _)
    rcases hend with ⟨rfl, hv⟩ | ⟨y, rest', rfl, hf', hv⟩
    · rw [hv]
      exact List.Sublist.refl _
    · rw [hv, flatMap_cons]
      simp only [length_cons] at hlen
      exact (randomVisits_sublist fuel y rest' _ (by omega) hf').cons_cons q

end Random

/-- If there are not enough blocks, the random picking has taken every piece that it could. -/
theorem mem_randomVisits (C : Consistent s) {start q : Nat} : ∀ (fuel x : Nat) (l : List Nat) (a : Picks),
    a.numBlocks ≤ fuel → l.length ≤ s.numPieces → s.Follows start (x :: l) → q ∈ x :: l → s.Takes args q →
    0 < (run (s.visit args 0) a (s.randomVisits args 0 start fuel x a)).numBlocks →
    Visit.whole [q] ∈ s.randomVisits args 0 start fuel x a
  | 0, _, _, a, ha, _, _, _, _, hpos => by
    simp only [randomVisits, run_nil] at hpos
    omega
  | fuel + 1, x, l, a, ha, hl, hf, hq, htake, hpos => by
    have ha' : 0 < a.numBlocks := by
      by_contra hle
      rw [randomVisits_done _ _ _ _ _ _ (Int.not_lt.mp hle), run_nil] at hpos
      omega
    rcases randomVisits_round args 0 (.inl (by omega)) fuel ha' hl
      hf with ⟨-, hno⟩ | ⟨pre, r, rest, he, hpre, htake', hend⟩
    · exact absurd htake (hno q hq)
    have hq' : q = r ∨ q ∈ rest := by
      rw [he] at hq
      rcases mem_append.mp hq with hq | hq
      · exact absurd htake (hpre q hq)
      · exact mem_cons.mp hq
    have hlen : rest.length ≤ l.length := by
      have := congrArg List.length he
      simp only [length_append, length_cons] at this
      omega
    rcases hend with ⟨rfl, hv⟩ | ⟨y, rest', rfl, hf', hv⟩
    · rw [hv]
      rw [hq'.resolve_right not_mem_nil]
      exact mem_singleton_self _
    rw [hv] at hpos ⊢
    rw [run_cons] at hpos
    rcases hq' with rfl | hq'
    · exact mem_cons_self
    -- the visit has picked a block
    have hless : (s.visit args 0 a (.whole [r])).numBlocks ≤ fuel := by
      have hb := C.blocks_pos r
      simp only [visit, foldl_cons, foldl_nil, takeFrom, if_pos, pickBlocks, Picks.clamp]
      omega
    simp only [length_cons] at hlen
    exact mem_cons_of_mem _ (mem_randomVisits C fuel y rest' _ hless (by omega) hf' hq' htake hpos)

/-!
## `pick_pieces` returns legal blocks

The blocks of the walk are free blocks of pieces that the peer has and that we want; the busy block comes last
(`legal_picks`).
-/

open PieceBlock

variable {b : PieceBlock} {shuffles : Nat → Nat} {rnd rnd' : Nat}

theorem status_none_iff (C : Consistent s) (hr : s.InRange b) (hh : (s.pos b.pieceIndex).have = false) :
    (s.status b).1 = .none ↔ s.isRequested b = false ∧ s.isDownloaded b = false := by
  rw [isRequested_eq C.ledger hr, isDownloaded_eq C.ledger hr, hh]
  cases (s.status b).1 <;> simp

variable (args) in
theorem busyBlocks_spec (C : Consistent s) : ∀ (dps : List DownloadingPiece), (∀ dp ∈ dps, dp ∈ s.downloads) →
    ∀ b ∈ s.busyBlocks args dps, s.InRange b ∧ s.isPieceFree b.pieceIndex args.pieces = true ∧
      (s.status b).1 = .requested
  | [], _, b, hb => by cases hb
  | dp :: rest, hdps, b, hb => by
    have hrest : ∀ dp ∈ rest, dp ∈ s.downloads := fun d hd => hdps d (mem_cons_of_mem dp hd)
    have hdp := hdps dp mem_cons_self
    rw [busyBlocks] at hb
    split at hb
    · exact busyBlocks_spec C rest hrest b hb
    rename_i hcond
    dsimp only at hb
    split at hb
    · exact busyBlocks_spec C rest hrest b hb
    obtain ⟨j, hj, rfl⟩ := mem_map.mp hb
    simp only [mem_filter, mem_range, decide_eq_true_eq] at hj
    obtain ⟨hj, hreq, -⟩ := hj
    have hlt := lt_of_part C hdp
    have hp : ((of dp.index j).pieceIndex : Nat) = dp.index :=
      pieceIndex_of (Nat.lt_of_lt_of_le hlt C.piece_lt)
    have hb : ((of dp.index j).blockIndex : Nat) = j :=
      blockIndex_of (Nat.lt_of_lt_of_le hj (C.blocks_le _))
    refine ⟨⟨by rw [hp]; exact hlt, by rw [hp, hb]; exact hj⟩, ?_, ?_⟩
    · rw [hp, isPieceFree_iff]
      simp only [Bool.or_eq_true, Bool.not_eq_true', beq_iff_eq, not_or, Bool.not_eq_false] at hcond
      refine ⟨hcond.1, C.ledger.lacking _ (by rw [← C.ledger.flag]; exact downloading_of_part C hdp), ?_⟩
      simpa [PiecePos.filtered] using hcond.2
    · rw [status_part C hdp hp (by rw [hb]; exact hj), hb]
      exact hreq

variable (args rnd') in
theorem busyTail_spec (C : Consistent s) (a : Picks) : s.busyTail args rnd' a = [] ∨
    0 < a.numBlocks ∧ ∃ b, s.busyTail args rnd' a = [b] ∧ s.InRange b ∧
      s.isPieceFree b.pieceIndex args.pieces = true ∧ (s.status b).1 = .requested := by
  have hpieces := (s.effectiveArgs_pieces args).1
  unfold busyTail
  dsimp only
  split
  · exact .inl rfl
  rename_i hcond
  simp only [not_or] at hcond
  obtain ⟨hpos, -, hne⟩ := hcond
  refine .inr ⟨by omega, _, rfl, ?_⟩
  have hlt : rnd' % (s.busyBlocks (s.effectiveArgs args) s.downloads).length <
      (s.busyBlocks (s.effectiveArgs args) s.downloads).length := Nat.mod_lt _ (length_pos_of_ne_nil hne)
  have h := busyBlocks_spec (s.effectiveArgs args) C s.downloads (fun _ h => h) _ (getElem_mem hlt)
  rw [getD_eq_getElem?_getD, List.getElem?_eq_getElem hlt]
  rw [hpieces] at h
  exact h

variable (shuffles rnd) in
theorem pickable_end (C : Consistent s) (hn : 0 < args.numBlocks) (hbits : args.pieces.length = s.numPieces) :
    ∀ b ∈ (s.picksEnd args [] shuffles rnd).interesting, s.Pickable args.pieces b := by
  intro b hb
  obtain ⟨o, ho⟩ := s.effectiveArgs_eq args
  have hreach := reaches_end [] shuffles rnd C.orderly.1 hn
  have hmem : b ∈ (s.allVisits args [] shuffles rnd).flatMap s.offered := by
    have h := hreach.blocks.subset (mem_append_left _ (mem_append_left _ hb))
    simpa [picksStart, Picks.blocks] using h
  obtain ⟨v, hv, hb⟩ := mem_flatMap.mp hmem
  have h := (pickable_of_offered C (by rw [ho]; exact hbits) (hreach.due v hv) hb).1
  rw [ho] at h
  exact h

/-- **Legal blocks within the budget.** Every block that `pick_pieces` returns belongs to a piece that the peer has,
that we do not have and that is not filtered, and it is neither being written nor finished; only the last one may be
requested already. Unless whole pieces are preferred there are no more blocks than asked for. -/
theorem legal_picks (s : PiecePicker) (args : PickArgs) (shuffles : Nat → Nat) (rnd rnd' : Nat) (C : Consistent s)
    (hn : 0 < args.numBlocks) (hbits : args.pieces.length = s.numPieces) :
    let r := (s.pickPieces args [] shuffles rnd rnd').2
    (∀ b ∈ r, args.pieces.getD b.pieceIndex false = true ∧ (s.pos b.pieceIndex).have = false ∧
      (s.pos b.pieceIndex).filtered = false ∧ (b.blockIndex : Nat) < s.blocksInPiece b.pieceIndex ∧
      s.isDownloaded b = false) ∧
    (∀ b ∈ r.dropLast, s.isRequested b = false) ∧
    (args.preferWholePieces = 0 ∨ args.options.ignoreWholePieces = true → (r.length : Int) ≤ args.numBlocks) := by
  intro r
  have hr : r = _ := pickPieces_end [] shuffles rnd rnd' C
  have hreach := reaches_end [] shuffles rnd C.orderly.1 hn
  have hfree := pickable_end shuffles rnd C hn hbits
  have htail := busyTail_spec args rnd' C (s.picksEnd args [] shuffles rnd)
  generalize s.picksEnd args [] shuffles rnd = a at *
  have hnone : ∀ b ∈ a.interesting, s.isRequested b = false ∧ s.isDownloaded b = false := fun b hb =>
    (status_none_iff C (hfree b hb).inRange (isPieceFree_iff.mp (hfree b hb).wanted).2.1).mp (hfree b hb).free
  refine ⟨fun b hb => ?_, fun b hb => ?_, fun hprefer => ?_⟩
  · rw [hr] at hb
    rcases mem_append.mp hb with hb | hb
    · obtain ⟨h₁, h₂, h₃⟩ := isPieceFree_iff.mp (hfree b hb).wanted
      exact ⟨h₁, h₂, h₃, (hfree b hb).inRange.2, (hnone b hb).2⟩
    rcases htail with h | ⟨-, c, hc, hrange, hwanted, hreq⟩
    · rw [h] at hb
      cases hb
    rw [hc] at hb
    obtain rfl := mem_singleton.mp hb
    obtain ⟨h₁, h₂, h₃⟩ := isPieceFree_iff.mp hwanted
    refine ⟨h₁, h₂, h₃, hrange.2, ?_⟩
    rw [isDownloaded_eq C.ledger hrange, h₂, hreq]
    rfl
  · refine (hnone b ?_).1
    rw [hr] at hb
    rcases htail with h | ⟨-, c, hc, -⟩
    · rw [h, append_nil] at hb
      exact dropLast_subset _ hb
    · rwa [hc, dropLast_concat] at hb
  · have hzero : s.preferOf args = 0 := by
      unfold preferOf
      split
      · rfl
      rename_i hno
      refine hprefer.resolve_right fun h => hno ?_
      unfold effectiveArgs
      split <;> exact h
    rw [hzero] at hreach
    have hbudget := hreach.budget
    have hnonneg := hreach.nonneg (Int.le_of_lt hn)
    simp only [picksStart, length_nil] at hbudget
    rw [hr, length_append]
    rcases htail with h | ⟨hpos, c, hc, -⟩
    · rw [h]
      push_cast
      simp
      omega
    rw [hc]
    push_cast
    simp
    omega

/-- Three pieces of two, two and one blocks: the first is being downloaded, the second is filtered. -/
def pickRun : List Op :=
  [.init 2 1 3, .incRefcountAll, .setPiecePriority 1 0 0, .markAsDownloading (.of 0 0) (some 1) .fast 0]

/-- A peer that has all pieces of `pickRun` asks for five blocks. -/
def pickArgs : PickArgs where
  pieces := [true, true, true]
  numBlocks := 5
  preferWholePieces := 0
  peer := some 2
  speed := .fast
  options := { sequential := true }
  suggestedPieces := []
  numPeers := 2

theorem legal_picks_pickRun : let s := run step new pickRun
    let r := (s.pickPieces pickArgs [] (fun _ => 0) 0 0).2
    r = [.of 0 1, .of 2 0, .of 0 0] ∧ s.isRequested (.of 0 0) = true ∧ (∀ b ∈ r, s.isDownloaded b = false) ∧
      (∀ b ∈ r.dropLast, s.isRequested b = false) ∧ (r.length : Int) ≤ 5 := by
  obtain ⟨h₁, h₂, h₃⟩ := legal_picks (run step new pickRun) pickArgs (fun _ => 0) 0 0
    (consistent_run (by decide +kernel) (by decide +kernel)) (by decide) (by decide +kernel)
  exact ⟨by decide +kernel, by decide +kernel, fun b hb => (h₁ b hb).2.2.2.2, h₂, h₃ (.inl rfl)⟩

/-!
## `pick_pieces` leaves no free block out

If there are fewer blocks than asked for, every pass went to its end, so every piece that can be picked was visited
(`exists_visit`). What a visit offers is returned unless there are enough blocks (`Reaches.covered`), so every free
block is returned (`complete_picks`).
-/

variable {t : PiecePicker} {v : Visit}

/-! ## The passes reach every piece -/

variable {ignore : List Nat}

theorem mem_eachVisits (hfree : s.isPieceFree p args.pieces = true)
    (hv : s.visitOf args prefer ignore p = some v) : ∀ (order : List Nat) (a : Picks), p ∈ order →
    0 < (run (s.visit args prefer) a (s.eachVisits args prefer ignore order a)).numBlocks →
    v ∈ s.eachVisits args prefer ignore order a
  | [], _, hp, _ => absurd hp not_mem_nil
  | q :: rest, a, hp, hpos => by
    rw [eachVisits] at hpos ⊢
    split at hpos
    · rename_i hq
      rw [if_pos hq]
      have hne : p ≠ q := by
        rintro rfl
        simp [hfree] at hq
      exact mem_eachVisits hfree hv rest a ((mem_cons.mp hp).resolve_left hne) hpos
    rename_i hq
    rw [if_neg hq]
    rw [mem_append]
    by_cases hne : p = q
    · subst hne
      left
      rw [hv]
      exact mem_singleton_self _
    right
    rw [run_append] at hpos
    split at hpos
    · rw [run_nil] at hpos
      omega
    · rename_i hgo
      rw [if_neg hgo]
      exact mem_eachVisits hfree hv rest _ ((mem_cons.mp hp).resolve_left hne) hpos

theorem mem_partialVisits {dp : DownloadingPiece} (hfree : s.isPieceFree dp.index args.pieces = true)
    (hfull : (s.pos dp.index).full = false) : ∀ (dps : List DownloadingPiece) (a : Picks), dp ∈ dps →
    0 < (run (s.visit args prefer) a (s.partialVisits args prefer dps a)).numBlocks →
    Visit.part dp ∈ s.partialVisits args prefer dps a
  | [], _, hdp, _ => absurd hdp not_mem_nil
  | d :: rest, a, hdp, hpos => by
    rw [partialVisits] at hpos ⊢
    split at hpos
    · rename_i hd
      rw [if_pos hd]
      have hne : dp ≠ d := by
        rintro rfl
        simp [hfree] at hd
      exact mem_partialVisits hfree hfull rest a ((mem_cons.mp hdp).resolve_left hne) hpos
    rename_i hd
    rw [if_neg hd]
    split at hpos
    · rename_i hskip
      rw [if_pos hskip]
      have hne : dp ≠ d := by
        rintro rfl
        simp [hfull] at hskip
      exact mem_partialVisits hfree hfull rest a ((mem_cons.mp hdp).resolve_left hne) hpos
    rename_i hskip
    rw [if_neg hskip]
    dsimp only at hpos ⊢
    by_cases hne : dp = d
    · subst hne
      exact mem_cons_self
    rw [run_cons] at hpos
    split at hpos
    · rw [run_nil] at hpos
      omega
    rename_i hgo
    rw [if_neg hgo]
    exact mem_cons_of_mem _ (mem_partialVisits hfree hfull rest _ ((mem_cons.mp hdp).resolve_left hne) hpos)

/-! ## Every free block is offered -/

theorem Refiled.offered (R : Refiled s t) (v : Visit) : t.offered v = s.offered v := by
  cases v with
  | part dp => simp only [PiecePicker.offered, R.freeBlocks]
  | whole ks =>
    have hblocks : t.blocksOf = s.blocksOf := by
      funext k
      rw [blocksOf, blocksOf, R.blocksInPiece]
    simp only [PiecePicker.offered, hblocks]

section

variable (C : Consistent s) (hr : s.InRange b) (hfree : (s.status b).1 = .none)
include C hr hfree

theorem exists_part (hd : (s.pos b.pieceIndex).downloading = true) :
    ∃ i, s.findDlPiece b.pieceIndex = some i ∧ s.dl i ∈ s.downloads ∧ (s.dl i).index = b.pieceIndex ∧
      b ∈ s.offered (.part (s.dl i)) := by
  have hbook := hd
  rw [C.ledger.flag, book, Option.isSome_map, Option.isSome_iff_exists] at hbook
  obtain ⟨i, hi⟩ := hbook
  obtain ⟨hlt, hidx⟩ := findDlPiece_index hi
  refine ⟨i, hi, dl_mem hlt, hidx, ?_⟩
  rw [mem_offered_part C (dl_mem hlt), hidx]
  exact ⟨rfl, hr.2, hfree⟩

variable (args) in
theorem visitOf_offers (hno : (b.pieceIndex : Nat) ∉ ignore)
    (hpart : args.options.prioritizePartials = true → (s.pos b.pieceIndex).downloading = false) :
    ∃ v, s.visitOf args 0 ignore b.pieceIndex = some v ∧ b ∈ s.offered v := by
  unfold visitOf
  rw [if_neg hno]
  by_cases hd : (s.pos b.pieceIndex).downloading = true
  · obtain ⟨i, hi, -, -, hb⟩ := exists_part C hr hfree hd
    have hpp : args.options.prioritizePartials = false := by
      by_contra hpp
      rw [hpart (by simpa using hpp)] at hd
      cases hd
    rw [if_pos hd, not_full_of_free C hr hfree hd, hpp, hi]
    exact ⟨_, rfl, hb⟩
  · rw [if_neg hd, expanded_zero]
    exact ⟨_, rfl, mem_flatMap.mpr ⟨_, mem_singleton_self _, (mem_blocksOf C hr.1).mpr ⟨rfl, hr.2⟩⟩⟩

theorem mainVisits_offers (hwanted : s.isPieceFree b.pieceIndex args.pieces = true)
    (hprio : (s.priority b.pieceIndex).isSome) (hno : (b.pieceIndex : Nat) ∉ args.suggestedPieces)
    (hpart : args.options.prioritizePartials = true → (s.pos b.pieceIndex).downloading = false)
    (hopt : args.options.rarestFirst = true ∨ args.options.sequential = true ∨ args.options.prioritizePartials = true)
    (hindex : args.options.sequential = false → args.options.rarestFirst = true →
      Indexed s ∧ (args.options.reverse = true → prioFactor ∣ s.priorityBoundries.length)) (rnd : Nat) (a : Picks)
    (hpos : 0 < (run (s.visit args 0) a (s.mainVisits args 0 rnd a)).numBlocks) :
    ∃ v ∈ s.mainVisits args 0 rnd a, b ∈ s.offered v := by
  unfold mainVisits at hpos ⊢
  split at hpos
  · rename_i hlist
    rw [if_pos hlist]
    obtain ⟨v, hv, hb⟩ := visitOf_offers args C hr hfree hno hpart
    have hmem : (b.pieceIndex : Nat) ∈ s.order args :=
      mem_order C (fun hseq => hindex hseq (by simpa [hseq] using hlist)) hr.1 hprio
    exact ⟨v, mem_eachVisits hwanted hv _ _ hmem hpos, hb⟩
  rename_i hlist
  simp only [Bool.or_eq_true, not_or, Bool.not_eq_true] at hlist
  rw [if_neg (by simp [hlist])]
  have hpp : args.options.prioritizePartials = true := by
    rcases hopt with h | h | h
    · rw [hlist.2] at h; cases h
    · rw [hlist.1] at h; cases h
    · exact h
  obtain ⟨l, hl, hfollows, -, hall⟩ := around_spec (Nat.mod_lt rnd C.some_piece)
  have hq : (b.pieceIndex : Nat) ∈ rnd % s.numPieces :: l := hl ▸ hall _ hr.1
  have hlen : l.length ≤ s.numPieces := by
    have := congrArg List.length hl
    have := Nat.mod_lt rnd C.some_piece
    simp only [around, length_append, length_range', length_range, length_cons] at *
    omega
  refine ⟨.whole [b.pieceIndex], mem_randomVisits C _ _ l a (by omega) hlen hfollows hq
    ⟨canPick_iff.mpr ⟨hwanted, hpart hpp⟩, hno⟩ hpos, ?_⟩
  exact mem_flatMap.mpr ⟨_, mem_singleton_self _, (mem_blocksOf C hr.1).mpr ⟨rfl, hr.2⟩⟩

end

theorem Refiled.priority (R : Refiled s t) (k : Nat) : t.priority k = s.priority k := by
  have hseeds : t.seeds = s.seeds := by
    obtain ⟨⟨ps, bs, m, d, rfl, -⟩, -⟩ := R
    rfl
  rw [PiecePicker.priority, PiecePicker.priority, hseeds]
  exact priority_tag _ _ (R.pos k).1 (R.pos k).2 _

/-- The first passes offer the blocks of partial pieces, if those are prioritised, and of suggested pieces. -/
theorem firstVisits_offers (C : Consistent s) (hr : s.InRange b) (hfree : (s.status b).1 = .none)
    (hwanted : s.isPieceFree b.pieceIndex args.pieces = true)
    (hcase : (args.options.prioritizePartials = true ∧ (s.pos b.pieceIndex).downloading = true) ∨
      (b.pieceIndex : Nat) ∈ args.suggestedPieces) {a : Picks}
    (hpos : 0 < (run (s.visit args 0) (s.afterPartials args 0 a)
      (s.suggestedVisits args 0 (s.afterPartials args 0 a))).numBlocks) :
    ∃ v ∈ (if args.options.prioritizePartials then s.partialVisits args 0 s.downloads a else []) ++
      s.suggestedVisits args 0 (s.afterPartials args 0 a), b ∈ s.offered v := by
  have hpartials : 0 < (s.afterPartials args 0 a).numBlocks := by
    by_contra hle
    rw [suggestedVisits, if_pos (Int.not_lt.mp hle), run_nil] at hpos
    exact hle hpos
  by_cases hpp : args.options.prioritizePartials = true ∧ (s.pos b.pieceIndex).downloading = true
  · obtain ⟨i, -, hmem, hidx, hb⟩ := exists_part C hr hfree hpp.2
    have hrun : 0 < (run (s.visit args 0) a (s.partialVisits args 0 s.downloads a)).numBlocks := by
      by_contra hle
      rw [afterPartials, if_pos hpp.1] at hpartials
      rw [if_pos (Int.not_lt.mp hle)] at hpartials
      exact hle hpartials
    refine ⟨.part (s.dl i), mem_append_left _ ?_, hb⟩
    rw [if_pos hpp.1]
    exact mem_partialVisits (by rw [hidx]; exact hwanted) (by rw [hidx]; exact not_full_of_free C hr hfree hpp.2) _ _
      hmem hrun
  · obtain ⟨v, hv, hb⟩ := visitOf_offers args C hr hfree not_mem_nil fun h => by simpa [h] using hpp
    refine ⟨v, mem_append_right _ ?_, hb⟩
    rw [suggestedVisits, if_neg (Int.not_le.mpr hpartials)] at hpos ⊢
    exact mem_eachVisits hwanted hv _ _ (hcase.resolve_left hpp) hpos

theorem picksEnd_of_pos (hpos : 0 < (s.picksEnd args [] shuffles rnd).numBlocks) :
    0 < (s.picksFirst args []).numBlocks ∧ 0 < (s.picksAll args [] shuffles rnd).numBlocks ∧
      s.picksEnd args [] shuffles rnd = (s.picksAll args [] shuffles rnd).flush := by
  unfold picksEnd at hpos ⊢
  split at hpos
  · omega
  rename_i hfirst
  rw [if_neg hfirst]
  split at hpos
  · omega
  · rename_i hall
    rw [if_neg hall]
    exact ⟨by omega, by omega, rfl⟩

/-- If there are blocks to pick left at the end, every free block was offered by a visit. -/
theorem exists_visit (C : Consistent s) (hr : s.InRange b) (hfree : (s.status b).1 = .none)
    (hwanted : s.isPieceFree b.pieceIndex args.pieces = true) (hprio : (s.priority b.pieceIndex).isSome)
    (hprefer : s.preferOf args = 0)
    (hopt : args.options.rarestFirst = true ∨ args.options.sequential = true ∨ args.options.prioritizePartials = true)
    (hpos : 0 < (s.picksEnd args [] shuffles rnd).numBlocks) :
    ∃ v ∈ s.allVisits args [] shuffles rnd, b ∈ s.offered v := by
  obtain ⟨hfirst, hall, -⟩ := picksEnd_of_pos hpos
  have hpieces := (s.effectiveArgs_pieces args).1
  have hopt' : (s.effectiveArgs args).options.rarestFirst = true ∨ (s.effectiveArgs args).options.sequential = true ∨
      (s.effectiveArgs args).options.prioritizePartials = true := by
    unfold effectiveArgs
    split
    · exact .inr (.inr rfl)
    · exact hopt
  rw [allVisits, if_neg (Int.not_le.mpr hfirst), firstVisits]
  rw [picksFirst] at hfirst
  rw [picksAll] at hall
  rw [hprefer] at hfirst hall ⊢
  rw [← hpieces] at hwanted
  generalize s.effectiveArgs args = args' at *
  by_cases hcase : (args'.options.prioritizePartials = true ∧ (s.pos b.pieceIndex).downloading = true) ∨
      (b.pieceIndex : Nat) ∈ args'.suggestedPieces
  · obtain ⟨v, hv, hb⟩ := firstVisits_offers C hr hfree hwanted hcase hfirst
    exact ⟨v, mem_append_left _ hv, hb⟩
  simp only [not_or, not_and, Bool.not_eq_true] at hcase
  obtain ⟨hsound, R⟩ := prepared_refiled args' C.orderly.1 shuffles
  have hindex := fun h1 h2 => prepared_indexed args' C.orderly.1 shuffles h1 h2
  generalize s.prepared args' shuffles = t at *
  have hr' : t.InRange b := by
    rw [InRange, R.numPieces, R.blocksInPiece]
    exact hr
  obtain ⟨v, hv, hb⟩ := mainVisits_offers (C.of_refiled R hsound) hr' (by rw [R.status]; exact hfree)
    (by rw [R.isPieceFree]; exact hwanted) (by rw [R.priority]; exact hprio) hcase.2
    (by rw [(R.flags _).1]; exact hcase.1) hopt' hindex rnd _ hall
  exact ⟨v, mem_append_right _ hv, by rw [← R.offered]; exact hb⟩

/-- **Completeness.** If whole pieces are not preferred, the peer is not on parole and all its pieces have availability,
and `pick_pieces` returns fewer blocks than asked for, then it returns every free block of every piece that the peer
has, that we do not have and that is not filtered. -/
theorem complete_picks (s : PiecePicker) (args : PickArgs) (shuffles : Nat → Nat) (rnd rnd' : Nat) (C : Consistent s)
    (hn : 0 < args.numBlocks) (hbits : args.pieces.length = s.numPieces)
    (havail : ∀ p < s.numPieces, args.pieces.getD p false = true → 0 < (s.pos p).peerCount + s.seeds)
    (hprefer : args.preferWholePieces = 0)
    (hopt : args.options.rarestFirst = true ∨ args.options.sequential = true ∨ args.options.prioritizePartials = true)
    (hparole : args.options.onParole = false)
    (hshort : ((s.pickPieces args [] shuffles rnd rnd').2.length : Int) < args.numBlocks) :
    ∀ b : PieceBlock, args.pieces.getD b.pieceIndex false = true → (s.pos b.pieceIndex).have = false →
      (s.pos b.pieceIndex).filtered = false → (b.blockIndex : Nat) < s.blocksInPiece b.pieceIndex →
      s.isRequested b = false → s.isDownloaded b = false → b ∈ (s.pickPieces args [] shuffles rnd rnd').2 := by
  intro b hbit hhave hfilt hblock hreq hdone
  have hwanted : s.isPieceFree b.pieceIndex args.pieces = true := isPieceFree_iff.mpr ⟨hbit, hhave, hfilt⟩
  have hr : s.InRange b := ⟨lt_of_isPieceFree hbits hwanted, hblock⟩
  have hfree := (status_none_iff C hr hhave).mpr ⟨hreq, hdone⟩
  have hprio : (s.priority b.pieceIndex).isSome := by
    have := havail _ hr.1 hbit
    rw [priority, PiecePos.priority, hfilt, hhave]
    rw [if_neg (by simp; omega)]
    split
    · rfl
    · dsimp only
      split <;> rfl
  have hzero : s.preferOf args = 0 := by
    unfold preferOf
    split
    · rfl
    · exact hprefer
  have hreach := reaches_end [] shuffles rnd C.orderly.1 hn
  have hparole' : (s.effectiveArgs args).options.onParole = false := by
    unfold effectiveArgs
    split <;> exact hparole
  rw [pickPieces_end [] shuffles rnd rnd' C] at hshort ⊢
  rw [hzero] at hreach
  have hbudget := hreach.budget
  simp only [picksStart, length_nil] at hbudget
  rw [length_append] at hshort
  have hpos : 0 < (s.picksEnd args [] shuffles rnd).numBlocks := by
    push_cast at hshort
    omega
  obtain ⟨v, hv, hb⟩ := exists_visit C hr hfree hwanted hprio hzero hopt hpos
  obtain ⟨hfirst, hall, hend⟩ := picksEnd_of_pos hpos
  have hreach' := reaches_all [] shuffles rnd C.orderly.1 hn hfirst
  rw [hzero] at hreach'
  refine mem_append_left _ ?_
  rcases Reaches.settled_flush (hreach'.covered hparole' hv hb) hall with h | h
  · rw [hend]
    exact h
  · rw [← hend] at h
    omega

/-- All free blocks of `pickRun` are returned. -/
theorem complete_picks_pickRun : let s := run step new pickRun
    ((s.pickPieces pickArgs [] (fun _ => 0) 0 0).2.length : Int) < 5 ∧
      .of 2 0 ∈ (s.pickPieces pickArgs [] (fun _ => 0) 0 0).2 := by
  refine ⟨by decide +kernel, complete_picks (run step new pickRun) pickArgs (fun _ => 0) 0 0
    (consistent_run (by decide +kernel) (by decide +kernel)) (by decide) (by decide +kernel) (fun p _ _ => ?_) rfl
    (.inr (.inl rfl)) rfl (by decide +kernel) (.of 2 0) (by decide +kernel) (by decide +kernel) (by decide +kernel)
    (by decide +kernel) (by decide +kernel) (by decide +kernel)⟩
  have : (run step new pickRun).seeds = 1 := by decide +kernel
  omega

/-!
## The rarest pieces come first

If nothing but rarest-first is asked for, `pick_pieces` goes over the index in the order of the priorities and takes all
free blocks of a piece before it goes on (`addEach_ordered`). So the free blocks come in the order of their priorities,
and none is left out for one of a later priority (`rarest_first_order`).
-/

def priorityValue (s : PiecePicker) (p : Nat) : Int := ((s.priority p).map Int.ofNat).getD (-1)

theorem pieces_sorted (I : Indexed s) : s.pieces.Pairwise fun p q => s.priorityValue p ≤ s.priorityValue q := by
  rw [pairwise_iff_getElem]
  intro i j hi hj hij
  obtain ⟨r, hr⟩ := I.layout.mem i hi
  obtain ⟨r', hr'⟩ := I.layout.mem j hj
  have hj' := (I.layout.file j hj r' hr' r').mpr (Nat.le_refl _)
  have hle := (I.layout.file i hi r hr r').mp (by omega)
  rw [piece, getD_eq_getElem _ _ hi] at hr
  rw [piece, getD_eq_getElem _ _ hj] at hr'
  rw [priorityValue, priorityValue, hr, hr']
  exact Int.ofNat_le.mpr hle

theorem visitOf_pieces {prefer : Nat} {ignore : List Nat} (hlone : s.Lone args.pieces prefer)
    (hfree : s.isPieceFree p args.pieces = true) (h : s.visitOf args prefer ignore p = some v) : v.pieces = [p] := by
  unfold visitOf at h
  split at h
  · cases h
  split at h
  · split at h
    · cases h
    · obtain ⟨i, hi, rfl⟩ := Option.map_eq_some_iff.mp h
      rw [Visit.pieces, (findDlPiece_index hi).2]
  · rename_i hd
    cases h
    rw [expanded_lone hlone (canPick_iff.mpr ⟨hfree, by simpa using hd⟩)]
    rfl

/-- What a pass without back-up blocks adds: `l`, in the order of the pieces, and of a piece all free blocks before the
next one. -/
structure Ordered (s : PiecePicker) (args : PickArgs) (order : List Nat) (l : List PieceBlock) : Prop where
  sorted : l.Pairwise fun b c => s.priorityValue b.pieceIndex ≤ s.priorityValue c.pieceIndex
  mem : ∀ b ∈ l, (b.pieceIndex : Nat) ∈ order
  first : ∀ b, s.Pickable args.pieces b → (b.pieceIndex : Nat) ∈ order → b ∉ l →
    ∀ c ∈ l, s.priorityValue c.pieceIndex ≤ s.priorityValue b.pieceIndex

section Ordered

variable {q : Nat} {rest : List Nat} {l l' : List PieceBlock}

section

variable (hq : ∀ x ∈ rest, s.priorityValue q ≤ s.priorityValue x) (hl : ∀ b ∈ l, (b.pieceIndex : Nat) = q)
include hq hl

variable (args) in
theorem Ordered.stop : Ordered s args (q :: rest) l where
  sorted := pairwise_of_forall_mem_list fun b hb c hc => by rw [hl b hb, hl c hc]
  mem := fun b hb => by rw [hl b hb]; exact mem_cons_self
  first := fun b _ hm _ c hc => by
    rw [hl c hc]
    rcases mem_cons.mp hm with he | hm
    · rw [he]
    · exact hq _ hm

theorem Ordered.cons 
    (hall : ∀ b, s.Pickable args.pieces b → (b.pieceIndex : Nat) = q → b ∈ l) (O : Ordered s args rest l') :
    Ordered s args (q :: rest) (l ++ l') where
  sorted := pairwise_append.mpr ⟨(Ordered.stop args hq hl).sorted, O.sorted, fun b hb c hc => by
    rw [hl b hb]
    exact hq _ (O.mem c hc)⟩
  mem := fun b hb => by
    rcases mem_append.mp hb with hb | hb
    · rw [hl b hb]
      exact mem_cons_self
    · exact mem_cons_of_mem _ (O.mem b hb)
  first := fun b hb hm hno c hc => by
    rw [mem_append, not_or] at hno
    rcases mem_append.mp hc with hc | hc
    · exact (Ordered.stop args hq hl).first b hb hm hno.1 c hc
    · rcases mem_cons.mp hm with he | hm
      · exact absurd (hall b hb he) hno.1
      · exact O.first b hb hm hno.2 c hc

end

end Ordered

variable (args) in
theorem addEach_ordered (C : Consistent s) (hbits : args.pieces.length = s.numPieces)
    (hparole : args.options.onParole = false) (haffinity : args.options.speedAffinity = false)
    (hpp : args.options.prioritizePartials = false) : ∀ (order : List Nat) (a : Picks),
    (order.Pairwise fun p q => s.priorityValue p ≤ s.priorityValue q) → 0 < a.numBlocks → a.backup = [] →
    a.backup2 = [] → ∃ l, Ordered s args order l ∧ (s.addEach args 0 [] order a).interesting = a.interesting ++ l ∧
      (s.addEach args 0 [] order a).backup = [] ∧ (s.addEach args 0 [] order a).backup2 = []
  | [], a, _, _, h1, h2 => ⟨[], ⟨List.Pairwise.nil, fun _ h => absurd h not_mem_nil,
      fun _ _ h => absurd h not_mem_nil⟩, by simp [addEach], h1, h2⟩
  | q :: rest, a, hsorted, ha, h1, h2 => by
    obtain ⟨hq, hrest⟩ := pairwise_cons.mp hsorted
    -- a piece without free blocks can be passed over
    have hskip : (∀ b, s.Pickable args.pieces b → (b.pieceIndex : Nat) ≠ q) → ∃ l, Ordered s args (q :: rest) l ∧
        (s.addEach args 0 [] rest a).interesting = a.interesting ++ l ∧
        (s.addEach args 0 [] rest a).backup = [] ∧ (s.addEach args 0 [] rest a).backup2 = [] := by
      intro hno
      obtain ⟨l, O, h⟩ := addEach_ordered C hbits hparole haffinity hpp rest a hrest ha h1 h2
      exact ⟨l, O.cons hq (fun _ hb => absurd hb not_mem_nil) (fun b hb he => absurd he (hno b hb)), h⟩
    rw [addEach]
    split_ifs with hfree
    · refine hskip fun b hb he => ?_
      have := hb.wanted
      rw [he] at this
      simp [this] at hfree
    have hfree' : s.isPieceFree q args.pieces = true := by simpa using hfree
    have hoffers : ∀ b, s.Pickable args.pieces b → (b.pieceIndex : Nat) = q →
        ∃ v, s.visitOf args 0 [] q = some v ∧ b ∈ s.offered v := by
      rintro b hb rfl
      exact visitOf_offers args C hb.inRange hb.free not_mem_nil fun h => by rw [hpp] at h; cases h
    rw [addBlocks_eq]
    dsimp only
    cases hv : s.visitOf args 0 [] q with
    | none =>
      rw [Option.toList_none, run_nil, if_neg (by omega)]
      refine hskip fun b hb he => ?_
      obtain ⟨v, hv', -⟩ := hoffers b hb he
      rw [hv] at hv'
      cases hv'
    | some v =>
      have hdue := visitOf_due hfree' hv
      obtain ⟨l1, l2, l3, G⟩ := visit_gains hdue ha
      obtain ⟨rfl, rfl⟩ := G.direct rfl haffinity
      have hpiece : ∀ b ∈ l1, (b.pieceIndex : Nat) = q := by
        intro b hb
        have hoff : b ∈ s.offered v := G.offered.subset (by simpa using hb)
        have := (pickable_of_offered C hbits hdue hoff).2
        rw [visitOf_pieces (.inl (by omega)) hfree' hv] at this
        exact mem_singleton.mp this
      have hb1 : (s.visit args 0 a v).backup = [] := by rw [G.backup, h1]; rfl
      have hb2 : (s.visit args 0 a v).backup2 = [] := by rw [G.backup2, h2]; rfl
      rw [Option.toList_some, run_cons, run_nil]
      split_ifs with hgo
      · exact ⟨l1, Ordered.stop args hq hpiece, G.interesting, hb1, hb2⟩
      obtain ⟨l, O, h, h'⟩ := addEach_ordered C hbits hparole haffinity hpp rest _ hrest (Int.not_le.mp hgo)
        hb1 hb2
      -- there is room left, so all free blocks of the piece were taken
      have hall : l1 = s.offered v := by
        rcases G.complete rfl hparole with hall | hle | hle
        · simpa using hall
        · exact absurd hle hgo
        · rw [Stocked, hb1, hb2] at hle
          simp only [length_nil] at hle
          omega
      refine ⟨l1 ++ l, O.cons hq hpiece fun b hb he => ?_, ?_, h'⟩
      · obtain ⟨v', hv', hoff⟩ := hoffers b hb he
        rw [hv] at hv'
        cases hv'
        rw [hall]
        exact hoff
      · rw [h, G.interesting, append_assoc]

/-! ## `pick_pieces` -/

theorem Refiled.pickable {t : PiecePicker} (R : Refiled s t) {bits : Bitfield} (h : s.Pickable bits b) :
    t.Pickable bits b where
  inRange := by rw [InRange, R.numPieces, R.blocksInPiece]; exact h.inRange
  wanted := by rw [R.isPieceFree]; exact h.wanted
  free := by rw [R.status]; exact h.free

theorem Ordered.of_refiled {t : PiecePicker} {order : List Nat} {l : List PieceBlock} (R : Refiled s t)
    (O : Ordered t args order l) : Ordered s args order l := by
  have hprio : t.priorityValue = s.priorityValue := funext fun p => by rw [priorityValue, priorityValue, R.priority]
  refine ⟨hprio ▸ O.sorted, O.mem, fun b hb hm hno => ?_⟩
  rw [← hprio]
  exact O.first b (R.pickable hb) hm hno

theorem flush_interesting (h1 : a.backup = []) (h2 : a.backup2 = []) : a.flush.interesting = a.interesting := by
  unfold Picks.flush
  dsimp only
  split <;> simp [Picks.appendBackup, Picks.appendBackup2, h1, h2]

theorem pickPieces_ordered (C : Consistent s) (hn : 0 < args.numBlocks) (hbits : args.pieces.length = s.numPieces)
    (hopt : args.options = { rarestFirst := true }) (hfew : s.downloads.length ≤ args.numPeers * 3 / 2)
    (hsug : args.suggestedPieces = []) (hprefer : args.preferWholePieces = 0) (shuffles : Nat → Nat) (rnd rnd' : Nat) :
    ∃ l tail order, (s.pickPieces args [] shuffles rnd rnd').2 = l ++ tail ∧ Ordered s args order l ∧
      (∀ p < s.numPieces, (s.priority p).isSome → p ∈ order) ∧ (∀ b ∈ l, (s.status b).1 = .none) ∧
      ∀ b ∈ tail, s.isRequested b = true := by
  have heff : s.effectiveArgs args = args := if_neg (by omega)
  have hzero : s.preferOf args = 0 := by
    rw [preferOf, heff, hopt]
    exact hprefer
  have hfirst : s.picksFirst args [] = picksStart args [] := by
    rw [picksFirst, heff, hzero, afterPartials, hopt]
    simp only [Bool.false_eq_true, if_false, suggestedVisits, hsug, eachVisits, ite_self, run_nil]
  obtain ⟨hsound, R⟩ := prepared_refiled args C.orderly.1 shuffles
  obtain ⟨I, -⟩ := prepared_indexed args C.orderly.1 shuffles (by rw [hopt]) (by rw [hopt])
  obtain ⟨l, O, hl, hb1, hb2⟩ := addEach_ordered args (C.of_refiled R hsound) (by rw [R.numPieces]; exact hbits)
    (by rw [hopt]) (by rw [hopt]) (by rw [hopt]) _ (picksStart args []) (pieces_sorted I) hn rfl rfl
  have hall : s.picksAll args [] shuffles rnd =
      (s.prepared args shuffles).addEach args 0 [] (s.prepared args shuffles).pieces (picksStart args []) := by
    rw [picksAll, heff, hzero, hfirst, addEach_eq, mainVisits, order, hopt, hsug]
    rfl
  have hend : (s.picksEnd args [] shuffles rnd).interesting = l := by
    have hstart : ¬ (picksStart args []).numBlocks ≤ 0 := Int.not_le.mpr hn
    rw [picksEnd, hfirst, if_neg hstart, hall]
    split
    · exact hl
    · rw [flush_interesting hb1 hb2]
      exact hl
  refine ⟨l, s.busyTail args rnd' (s.picksEnd args [] shuffles rnd), _, ?_, O.of_refiled R, fun p hp hprio => ?_,
    fun b hb => ?_, fun b hb => ?_⟩
  · rw [pickPieces_end [] shuffles rnd rnd' C, hend]
  · exact (Filed.mem_pieces I).mpr ⟨by rw [R.numPieces]; exact hp, by rw [R.priority]; exact hprio⟩
  · exact (pickable_end shuffles rnd C hn hbits b (by rw [hend]; exact hb)).free
  rcases busyTail_spec args rnd' C (s.picksEnd args [] shuffles rnd) with h | ⟨-, c, hc, hr, -, hreq⟩
  · rw [h] at hb
    cases hb
  · rw [hc] at hb
    rw [mem_singleton.mp hb, isRequested_eq C.ledger hr, hreq]
    rfl

/-- **Rarest first.** If nothing but rarest-first is asked for, the free blocks that `pick_pieces` returns come in the
order of the priorities of their pieces. A free block that is left out, of a piece that the peer has and that has a
priority, does not belong to a piece of smaller priority than that of a block that is returned. -/
theorem rarest_first_order (s : PiecePicker) (args : PickArgs) (shuffles : Nat → Nat) (rnd rnd' : Nat)
    (C : Consistent s)
    (hn : 0 < args.numBlocks) (hbits : args.pieces.length = s.numPieces)
    (hopt : args.options = { rarestFirst := true }) (hfew : s.downloads.length ≤ args.numPeers * 3 / 2)
    (hsug : args.suggestedPieces = []) (hprefer : args.preferWholePieces = 0) :
    let r := (s.pickPieces args [] shuffles rnd rnd').2
    ((r.filter fun b => !s.isRequested b).Pairwise fun b c =>
      s.priorityValue b.pieceIndex ≤ s.priorityValue c.pieceIndex) ∧
    ∀ b : PieceBlock, args.pieces.getD b.pieceIndex false = true → (s.pos b.pieceIndex).have = false →
      (s.pos b.pieceIndex).filtered = false → 0 ≤ s.priorityValue b.pieceIndex →
      (b.blockIndex : Nat) < s.blocksInPiece b.pieceIndex → s.isRequested b = false → s.isDownloaded b = false →
      b ∉ r → ∀ c ∈ r, s.isRequested c = false → s.priorityValue c.pieceIndex ≤ s.priorityValue b.pieceIndex := by
  intro r
  obtain ⟨l, tail, order, hr, O, horder, hfree, htail⟩ :=
    pickPieces_ordered C hn hbits hopt hfew hsug hprefer shuffles rnd rnd'
  have hr' : r = l ++ tail := hr
  rw [hr']
  constructor
  · have hnil : tail.filter (fun b => !s.isRequested b) = [] := by
      rw [filter_eq_nil_iff]
      intro b hb
      simp [htail b hb]
    rw [filter_append, hnil, append_nil]
    exact O.sorted.filter _
  intro b hbit hhave hfilt hprio hblock hreq hdone hb c hc hcreq
  have hwanted : s.isPieceFree b.pieceIndex args.pieces = true := isPieceFree_iff.mpr ⟨hbit, hhave, hfilt⟩
  have hrange : s.InRange b := ⟨lt_of_isPieceFree hbits hwanted, hblock⟩
  have hpick : s.Pickable args.pieces b := ⟨hrange, hwanted, (status_none_iff C hrange hhave).mpr ⟨hreq, hdone⟩⟩
  have hsome : (s.priority b.pieceIndex).isSome := by
    rw [priorityValue] at hprio
    cases hp : s.priority b.pieceIndex with
    | none =>
      rw [hp] at hprio
      exact absurd hprio (by decide)
    | some q => rfl
  rw [mem_append, not_or] at hb
  rcases mem_append.mp hc with hc | hc
  · exact O.first b hpick (horder _ hrange.1 hsome) hb.1 c hc
  · rw [htail c hc] at hcreq
    cases hcreq

/-- Three pieces that two, one and two peers have; the first one is being downloaded. -/
def rarityRun : List Op :=
  [.init 1 1 3, .incRefcountBits [true, true, true], .incRefcountBits [true, false, true],
    .setPiecePriority 2 1 0, .markAsDownloading (.of 0 0) (some 1) .fast 0]

def rarityArgs : PickArgs where
  pieces := [true, true, true]
  numBlocks := 1
  preferWholePieces := 0
  peer := some 2
  speed := .fast
  options := { rarestFirst := true }
  suggestedPieces := []
  numPeers := 2

theorem rarest_first_order_rarityRun : let s := run step new rarityRun
    (s.pickPieces rarityArgs [] (fun _ => 0) 0 0).2 = [.of 1 0] ∧
      s.priorityValue 1 ≤ s.priorityValue 2 := by
  have hres : ((run step new rarityRun).pickPieces rarityArgs [] (fun _ => 0) 0 0).2 = [.of 1 0] := by decide +kernel
  obtain ⟨-, h⟩ := rarest_first_order (run step new rarityRun) rarityArgs (fun _ => 0) 0 0
    (consistent_run (by decide +kernel) (by decide +kernel)) (by decide) (by decide +kernel) rfl
      (by decide +kernel) rfl rfl
  refine ⟨hres, h (.of 2 0) (by decide +kernel) (by decide +kernel) (by decide +kernel) (by decide +kernel)
    (by decide +kernel) (by decide +kernel) (by decide +kernel) ?_ (.of 1 0) ?_ (by decide +kernel)⟩
  · rw [hres]
    decide
  · rw [hres]
    decide

end Libtorrent.Picker.PiecePicker
