import Libtorrent.Lib.Run
import Libtorrent.Merkle.Tree

/-!
# The tree that is built

The number of leafs is a power of two when there are at most `2 ^ 30` pieces (`merkleNumLeafs_eq`); with more the loop
that looks for it never ends (`numLeafsLoop_none`). Each round of `generate` finishes one level (`buildLevel_spec`), so
in the end every inner node is the hash of its children and the leafs are the piece hashes (`generate_spec`).
-/

namespace Libtorrent.Merkle

open HeapTree Vec

/-! ## The number of leafs -/

variable {k pieces : Nat} {ret : Int}

theorem int32_two_pow (h : k ≤ 29) : int32 ((2 ^ k : Nat) * 2 : Int) = (2 ^ (k + 1) : Nat) := by
  have hpow : 2 ^ (k + 1) ≤ 2 ^ 30 := Nat.pow_le_pow_right (by omega) (by omega)
  rw [← int32_eq (n := 2 ^ (k + 1)) (by omega), Nat.pow_succ]
  rfl

theorem numLeafsLoop_eq (h : pieces ≤ 2 ^ 30) : ∀ (fuel k : Nat), k ≤ 30 → 30 < fuel + k →
    ∃ j ≤ 30, numLeafsLoop pieces fuel (2 ^ k : Nat) = some ((2 ^ j : Nat) : Int) ∧ pieces ≤ 2 ^ j ∧
      ∀ i, k ≤ i → i < j → 2 ^ i < pieces
  | 0, k, hk, hf => by omega
  | fuel + 1, k, hk, hf => by
    unfold numLeafsLoop
    split
    · rename_i hlt
      have hk' : k ≤ 29 := by
        by_contra hge
        obtain rfl : k = 30 := by omega
        omega
      rw [int32_two_pow hk']
      obtain ⟨j, hj, heq, hle, hleast⟩ := numLeafsLoop_eq h fuel (k + 1) (by omega) (by omega)
      refine ⟨j, hj, heq, hle, fun i hi hij => ?_⟩
      rcases eq_or_lt_of_le hi with rfl | hi
      · omega
      · exact hleast i hi hij
    · rename_i hge
      exact ⟨k, hk, rfl, by omega, fun i hi hik => absurd hik (not_lt.mpr hi)⟩

theorem merkleNumLeafs_eq (h : pieces ≤ 2 ^ 30) :
    ∃ k ≤ 30, merkleNumLeafs pieces = some ((2 ^ k : Nat) : Int) ∧ ∀ i, k ≤ i ↔ pieces ≤ 2 ^ i := by
  obtain ⟨k, hk, heq, hle, hleast⟩ := numLeafsLoop_eq h 33 0 (by omega) (by omega)
  refine ⟨k, hk, heq, fun i => ⟨fun hi => hle.trans (Nat.pow_le_pow_right (by omega) hi), fun hi => ?_⟩⟩
  by_contra hik
  exact absurd (hleast i i.zero_le (by omega)) (by omega)

/-- The size that `memset` gets in `parse_info_section`. -/
theorem int32_nodes_nonneg (h : k ≤ 30) :
    0 ≤ int32 ((2 * (2 ^ k - 1) + 1 : Nat) * 20 : Int) ↔ k ≤ 25 ∨ ¬ k ≤ 26 ∧ k ≤ 28 := by
  revert k
  decide

/-- What `ret` is in the rounds of `merkle_num_leafs`: a power of two until it overflows. -/
inductive Doubled : Int → Prop
  | pow (k : Nat) (h : k ≤ 30) : Doubled (2 ^ k : Nat)
  | sign : Doubled (-2 ^ 31)
  | zero : Doubled 0

theorem Doubled.le (h : Doubled ret) : ret ≤ 2 ^ 30 := by
  cases h with
  | pow k hk =>
    have := Nat.pow_le_pow_right (n := 2) (by omega) hk
    omega
  | sign => omega
  | zero => omega

theorem Doubled.next (h : Doubled ret) : Doubled (int32 (ret * 2)) := by
  cases h with
  | pow k hk =>
    rcases Nat.lt_or_eq_of_le hk with hk | rfl
    · rw [int32_two_pow (by omega)]
      exact .pow (k + 1) hk
    · exact .sign
  | sign => exact .zero
  | zero => exact .zero

/-- With more than `2 ^ 30` pieces `merkle_num_leafs` does not return, whatever the number of rounds. -/
theorem numLeafsLoop_none (h : 2 ^ 30 < pieces) : ∀ (fuel : Nat) {ret : Int}, Doubled ret →
    numLeafsLoop pieces fuel ret = none
  | 0, _, _ => rfl
  | fuel + 1, ret, hret => by
    have hlt : (pieces : Int) > ret := by
      have := hret.le
      omega
    rw [numLeafsLoop, if_pos hlt]
    exact numLeafsLoop_none h fuel hret.next

theorem merkleNumLeafs_none (h : 2 ^ 30 < pieces) : merkleNumLeafs pieces = none :=
  numLeafsLoop_none h 33 (.pow 0 (by omega))

theorem firstLeaf_eq (h : k ≤ 30) : merkleNumNodes (2 ^ k : Nat) = (2 * (2 ^ k - 1) + 1 : Nat) ∧
    int32 ((2 * (2 ^ k - 1) + 1 : Nat) - (2 ^ k : Nat)) = (2 ^ k - 1 : Nat) := by
  have hpow := Nat.pow_le_pow_right (n := 2) (by omega) h
  have hpos : 0 < 2 ^ k := Nat.pow_pos (by omega)
  constructor
  · rw [merkleNumNodes, Int.sub_eq_add_neg, int32_add, ← int32_eq (n := 2 * (2 ^ k - 1) + 1) (by omega)]
    congr 1
    omega
  · rw [← int32_eq (n := 2 ^ k - 1) (by omega)]
    congr 1
    omega

/-! ## The levels -/

section Levels

variable {H : Type}

theorem buildLevel_spec (zero : H) (node : H → H → H) : ∀ (m fuel p : Nat) (t : List H), m ≤ fuel → p + m ≤ 2 * p + 1 →
    (buildLevel zero node (2 * p + 1 + 2 * m) fuel (2 * p + 1) p t).length = t.length ∧
      ∀ q, (buildLevel zero node (2 * p + 1 + 2 * m) fuel (2 * p + 1) p t).getD q zero =
        if (p ≤ q ∧ q < p + m) ∧ q < t.length then node (t.getD (2 * q + 1) zero) (t.getD (2 * q + 2) zero)
        else t.getD q zero
  | 0, fuel, p, t, _, _ => by
    have hstop : buildLevel zero node (2 * p + 1 + 2 * 0) fuel (2 * p + 1) p t = t := by
      cases fuel with
      | zero => rfl
      | succ => rw [buildLevel, if_neg (by omega)]
    rw [hstop]
    refine ⟨rfl, fun q => ?_⟩
    rw [if_neg (by omega)]
  | m + 1, 0, p, t, hf, _ => by omega
  | m + 1, fuel + 1, p, t, hf, hp => by
    rw [buildLevel, if_pos (by omega)]
    have hend : 2 * p + 1 + 2 * (m + 1) = 2 * (p + 1) + 1 + 2 * m := by omega
    have hi : 2 * p + 1 + 2 = 2 * (p + 1) + 1 := by omega
    rw [hend, hi]
    obtain ⟨hlen, hget⟩ := buildLevel_spec zero node m fuel (p + 1)
      (t.set p (node (t.getD (2 * p + 1) zero) (t.getD (2 * p + 1 + 1) zero))) (by omega) (by omega)
    refine ⟨by rw [hlen, List.length_set], fun q => ?_⟩
    rw [hget, List.length_set, getD_set, getD_set, getD_set]
    by_cases hq : q = p
    · subst hq
      rw [if_neg (by omega)]
      by_cases hl : q < t.length
      · rw [if_pos ⟨rfl, hl⟩, if_pos ⟨by omega, hl⟩]
      · rw [if_neg (by omega), if_neg (by omega)]
    · rw [if_neg (by omega : ¬ (p = q ∧ q < t.length))]
      by_cases hin : (p + 1 ≤ q ∧ q < p + 1 + m) ∧ q < t.length
      · rw [if_pos hin, if_neg (by omega), if_neg (by omega), if_pos (by omega)]
      · rw [if_neg hin, if_neg (by omega)]

theorem buildLevels_spec (zero : H) (node : H → H → H) : ∀ (j fuel : Nat) (t : List H), j ≤ fuel →
    2 ^ j - 1 ≤ t.length →
    let r := buildLevels zero node fuel (2 ^ j - 1) (2 ^ j) t
    r.length = t.length ∧ (∀ q, 2 ^ j - 1 ≤ q → r.getD q zero = t.getD q zero) ∧
      Built node (2 ^ j - 1) fun q => r.getD q zero
  | 0, fuel, t, _, _ => by
    have hstop : buildLevels zero node fuel (2 ^ 0 - 1) (2 ^ 0) t = t := by
      cases fuel with
      | zero => rfl
      | succ => rfl
    rw [hstop]
    refine ⟨rfl, fun _ _ => rfl, fun p hp => ?_⟩
    simp at hp
  | j + 1, 0, t, hf, _ => by omega
  | j + 1, fuel + 1, t, hf, hlen => by
    have hpos : 0 < 2 ^ j := Nat.pow_pos (by omega)
    have hdouble : 2 ^ (j + 1) = 2 * 2 ^ j := by rw [Nat.pow_succ, Nat.mul_comm]
    have hparent : merkleGetParent (2 ^ (j + 1) - 1) = 2 ^ j - 1 := by
      unfold merkleGetParent
      omega
    have hhalf : 2 ^ (j + 1) / 2 = 2 ^ j := by omega
    have hstart : 2 ^ (j + 1) - 1 = 2 * (2 ^ j - 1) + 1 := by omega
    simp only
    rw [buildLevels, if_pos (by omega), hparent, hhalf]
    have hend : 2 ^ (j + 1) - 1 + 2 ^ (j + 1) = 2 * (2 ^ j - 1) + 1 + 2 * 2 ^ j := by omega
    rw [hend, hstart]
    obtain ⟨hlen1, hget1⟩ := buildLevel_spec zero node (2 ^ j) (2 ^ (j + 1)) (2 ^ j - 1) t (by omega) (by omega)
    generalize buildLevel zero node (2 * (2 ^ j - 1) + 1 + 2 * 2 ^ j) (2 ^ (j + 1)) (2 * (2 ^ j - 1) + 1)
      (2 ^ j - 1) t = u
      at hlen1 hget1
    obtain ⟨hlen2, hkeep, hbuilt⟩ := buildLevels_spec zero node j fuel u (by omega) (by omega)
    refine ⟨by rw [hlen2, hlen1], fun q hq => ?_, fun p hp => ?_⟩
    · rw [hkeep q (by omega), hget1, if_neg (by omega)]
    by_cases hpj : p < 2 ^ j - 1
    · exact hbuilt p hpj
    -- this is the level that was just written
    simp only
    rw [hkeep p (by omega), hkeep (2 * p + 1) (by omega), hkeep (2 * p + 2) (by omega), hget1 p, hget1 (2 * p + 1),
      hget1 (2 * p + 2), if_pos (by omega), if_neg (by omega), if_neg (by omega)]

end Levels

/-! ## The whole tree -/

section Whole

variable {H : Type}

structure Complete (zero : H) (node : H → H → H) (pieceHash : List H) (t : Tree H) : Prop where
  length : t.tree.length = 2 * t.firstLeaf + 1
  room : pieceHash.length ≤ t.firstLeaf + 1
  built : Built node t.firstLeaf fun q => t.tree.getD q zero
  leafs : ∀ piece < pieceHash.length, t.tree.getD (t.firstLeaf + piece) zero = pieceHash.getD piece zero

/-- The numbers of pieces for which the size of the tree in bytes is not negative. -/
def Wiped (pieces : Nat) : Prop := pieces ≤ 2 ^ 25 ∨ 2 ^ 26 < pieces ∧ pieces ≤ 2 ^ 28

instance : Decidable (Wiped pieces) := inferInstanceAs (Decidable (_ ∨ _))

theorem generate_spec (zero : H) (node : H → H → H) {pieceHash : List H} (h : pieceHash.length ≤ 2 ^ 30) :
    ∃ t, generate zero node pieceHash = some t ∧ Complete zero node pieceHash t ∧
      (Wiped pieceHash.length → ∀ root, parseRootHash zero pieceHash.length root =
        some ⟨t.firstLeaf, (List.replicate (2 * t.firstLeaf + 1) zero).set 0 root, fun n => n == 0⟩) ∧
      (¬ Wiped pieceHash.length → ∀ root, parseRootHash zero pieceHash.length root = none) := by
  obtain ⟨k, hk, hleafs, hleast⟩ := merkleNumLeafs_eq h
  obtain ⟨hnodes, hfirst⟩ := firstLeaf_eq hk
  have hk2 : k < 2 ^ k := Nat.lt_two_pow_self
  have hle := (hleast k).mp le_rfl
  have hwiped : int32 ((2 * (2 ^ k - 1) + 1 : Nat) * 20 : Int) < 0 ↔ ¬ Wiped pieceHash.length := by
    have h25 := hleast 25
    have h26 := hleast 26
    have h28 := hleast 28
    have hsize := int32_nodes_nonneg hk
    unfold Wiped
    omega
  have hparse (root : H) : parseRootHash zero pieceHash.length root =
      if int32 ((2 * (2 ^ k - 1) + 1 : Nat) * 20 : Int) < 0 then none
      else some ⟨2 ^ k - 1, (List.replicate (2 * (2 ^ k - 1) + 1) zero).set 0 root, fun n => n == 0⟩ := by
    rw [parseRootHash, hleafs, Option.bind_some, hnodes]
    dsimp only
    rw [hfirst, Int.toNat_natCast, Int.toNat_natCast]
  simp only [generate, hleafs, Option.map_some, hnodes, hfirst, Int.toNat_natCast]
  refine ⟨_, rfl, ?_, fun h root => (hparse root).trans (if_neg fun hneg => hwiped.mp hneg h),
    fun h root => (hparse root).trans (if_pos (hwiped.mpr h))⟩
  set u := fill (fill (resize [] (2 * (2 ^ k - 1) + 1) zero) (2 ^ k - 1) (2 ^ k - 1 + pieceHash.length)
    fun q => pieceHash.getD (q - (2 ^ k - 1)) zero) (2 ^ k - 1 + pieceHash.length) (2 ^ k - 1 + 2 ^ k) fun _ => zero
    with hu
  have hlen : u.length = 2 * (2 ^ k - 1) + 1 := by simp [hu]
  obtain ⟨hlen', hkeep, hbuilt⟩ :=
    buildLevels_spec zero node k (2 * (2 ^ k - 1) + 1) u (by omega) (by omega)
  refine ⟨by rw [hlen', hlen], by simp only; omega, hbuilt, fun piece hp => ?_⟩
  simp only
  rw [hkeep _ (by omega), hu, getD_fill, if_neg (by omega), getD_fill, length_resize, if_pos (by omega),
    Nat.add_sub_cancel_left]

end Whole

/-!
## Exchanging piece hashes

A downloader starts with the root of a tree that `generate` built and receives nodes from anybody. When the hash is
injective, nodes that combine to the root are those of the tree (`verifyLoop_sound`), so every node the downloader has
written is the right one after any calls (`Follows`). The nodes that `build_merkle_list` gives on the finished tree are
always accepted (`verifyLoop_complete`), and then the downloader can pass them on.
-/

open Run Function Nat

variable {H : Type} {zero : H} {node : H → H → H}

/-! ## Verifying -/

section Verify

variable {first : Nat} {t : Nat → H} {subtree : Nat → Option H}

theorem verifyLoop_sound (hinj : Function.Injective2 node) (hb : Built node first t) :
    ∀ {fuel n : Nat} {h : H} {toAdd out : Nat → Option H}, n ≤ 2 * first →
      verifyLoop node subtree fuel n h toAdd = some (t 0, out) →
      h = t n ∧ ∀ i x, out i = some x → toAdd i = some x ∨ (i ≤ 2 * first ∧ x = t i)
  | 0, _, _, _, _, _, he => by cases he
  | fuel + 1, n, h, toAdd, out, hn, he => by
    unfold verifyLoop at he
    split at he
    · rename_i hpos
      simp only at he
      split at he
      · cases he
      rename_i s _
      have hup : merkleGetParent n ≤ 2 * first := le_trans (le_of_lt (parent_lt hpos)) hn
      obtain ⟨hroot, hout⟩ := verifyLoop_sound hinj hb hup he
      have hjoin : join node n h s = join node n (t n) (t (sibling n)) := hroot.trans (hb.parent_eq hpos hn)
      obtain ⟨rfl, rfl⟩ := join_inj hinj hjoin
      refine ⟨rfl, fun i x hx => ?_⟩
      rcases hout i x hx with hx | hx
      · -- the two nodes of this round, and those of the rounds before
        simp only [update_apply] at hx
        split at hx
        · rename_i hi
          cases hx
          exact Or.inr ⟨hi ▸ sibling_le hpos hn, by rw [hi]; rfl⟩
        split at hx
        · rename_i hi
          cases hx
          exact Or.inr ⟨hi ▸ hn, by rw [hi]⟩
        · exact Or.inl hx
      · exact Or.inr hx
    · rename_i hpos
      cases he
      obtain rfl : n = 0 := by omega
      exact ⟨rfl, fun i x hx => Or.inl hx⟩

/-- With the right siblings the verification ends at the root, and adds the nodes and the siblings of the path. -/
theorem verifyLoop_complete (hb : Built node first t) :
    ∀ (fuel n : Nat) (toAdd : Nat → Option H), n < fuel → n ≤ 2 * first →
      (∀ m, 0 < m → OnPath n m → subtree (sibling m) = some (t (sibling m))) →
      ∃ out, verifyLoop node subtree fuel n (t n) toAdd = some (t 0, out) ∧
        (∀ i, toAdd i = some (t i) → out i = some (t i)) ∧
        ∀ m, 0 < m → OnPath n m → out m = some (t m) ∧ out (sibling m) = some (t (sibling m))
  | 0, _, _, hf, _, _ => by omega
  | fuel + 1, n, toAdd, hf, hn, hs => by
    unfold verifyLoop
    rcases Nat.eq_zero_or_pos n with rfl | hpos
    · rw [if_neg (by omega)]
      refine ⟨toAdd, rfl, fun i hi => hi, fun m hm hpath => ?_⟩
      have := hpath.le
      omega
    rw [if_pos hpos]
    have hsib : subtree (merkleGetSibling n) = some (t (sibling n)) := hs n hpos .here
    have hjoin : (if merkleGetSibling n < n then node (t (sibling n)) (t n) else node (t n) (t (sibling n))) =
        t (merkleGetParent n) := (hb.parent_eq hpos hn).symm
    simp only [hsib, hjoin]
    have hup := parent_lt hpos
    obtain ⟨out, heq, hkeep, hpath⟩ := verifyLoop_complete hb fuel (merkleGetParent n)
      (update (update toAdd n (some (t n))) (sibling n) (some (t (sibling n)))) (lt_of_lt_of_le hup (by omega))
      (by unfold merkleGetParent; omega) fun m hm h => hs m hm (.of_parent hpos h)
    have hn_ne : n ≠ sibling n := by
      rcases children n hpos with h | h <;> omega
    refine ⟨out, heq, fun i hi => hkeep i ?_, fun m hm h => ?_⟩
    · simp only [update_apply]
      split
      · rename_i he
        rw [he]
      split
      · rename_i he
        rw [he]
      · exact hi
    · rcases h.cases_parent with rfl | ⟨_, h⟩
      · constructor
        · apply hkeep
          rw [update_of_ne hn_ne, update_self]
        · apply hkeep
          rw [update_self]
      · exact hpath m hm h

end Verify

/-! ## Lists of nodes -/

section Lists

variable {tree tree' : List H}

theorem listLoop_spec (zero : H) (tree : List H) : ∀ (fuel n : Nat) (ret : Nat → Option H), n < fuel →
    (∀ i, ret i = some (tree.getD i zero) → listLoop zero tree fuel n ret i = some (tree.getD i zero)) ∧
      ∀ m, 0 < m → OnPath n m → listLoop zero tree fuel n ret (sibling m) = some (tree.getD (sibling m) zero)
  | 0, _, _, hf => by omega
  | fuel + 1, n, ret, hf => by
    unfold listLoop
    rcases Nat.eq_zero_or_pos n with rfl | hpos
    · rw [if_neg (by omega)]
      refine ⟨fun i hi => hi, fun m hm hpath => ?_⟩
      have := hpath.le
      omega
    rw [if_pos hpos]
    obtain ⟨hkeep, hpath⟩ := listLoop_spec zero tree fuel (merkleGetParent n)
      (update ret (sibling n) (some (tree.getD (sibling n) zero)))
      (lt_of_lt_of_le (parent_lt hpos) (by omega))
    refine ⟨fun i hi => hkeep i ?_, fun m hm h => ?_⟩
    · rw [update_apply]
      split_ifs with he
      · rw [he]
      · exact hi
    · rcases h.cases_parent with rfl | ⟨_, h⟩
      · exact hkeep _ (update_self ..)
      · exact hpath m hm h

theorem listLoop_congr : ∀ {fuel n : Nat} {ret : Nat → Option H},
    (∀ m, 0 < m → OnPath n m → tree.getD (sibling m) zero = tree'.getD (sibling m) zero) →
    listLoop zero tree fuel n ret = listLoop zero tree' fuel n ret
  | 0, _, _, _ => rfl
  | fuel + 1, n, ret, h => by
    unfold listLoop
    split_ifs with hpos
    · simp only
      have hsib : tree.getD (merkleGetSibling n) zero = tree'.getD (merkleGetSibling n) zero := h n hpos .here
      rw [hsib]
      exact listLoop_congr fun m hm hpath => h m hm (.of_parent hpos hpath)
    · rfl

variable {piece : Nat}

/-- What `build_merkle_list` gives depends on the leaf, the root and the siblings of the path only. -/
theorem buildMerkleList_congr {t t' : Tree H} (hfirst : t.firstLeaf = t'.firstLeaf)
    (hleaf : t.tree.getD (t'.firstLeaf + piece) zero = t'.tree.getD (t'.firstLeaf + piece) zero)
    (hroot : t.tree.getD 0 zero = t'.tree.getD 0 zero) (hpath : ∀ m, 0 < m → OnPath (t'.firstLeaf + piece) m →
      t.tree.getD (sibling m) zero = t'.tree.getD (sibling m) zero) :
    buildMerkleList zero t piece = buildMerkleList zero t' piece := by
  unfold buildMerkleList
  simp only [hfirst, hleaf, hroot]
  exact listLoop_congr hpath

theorem buildMerkleList_leaf (t : Tree H) (piece : Nat) :
    buildMerkleList zero t piece (t.firstLeaf + piece) = some (t.tree.getD (t.firstLeaf + piece) zero) := by
  apply (listLoop_spec zero t.tree _ _ _ (lt_succ_self _)).1
  rw [update_apply]
  split_ifs with he
  · rw [he]
  · rw [update_self]

theorem buildMerkleList_sibling (t : Tree H) (piece : Nat) {m : Nat} (hm : 0 < m) (h : OnPath (t.firstLeaf + piece) m) :
    buildMerkleList zero t piece (sibling m) = some (t.tree.getD (sibling m) zero) :=
  (listLoop_spec zero t.tree _ _ _ (lt_succ_self _)).2 m hm h

end Lists

/-! ## The downloader -/

section Downloader

variable {pieceHash : List H} {t d : Tree H}

/-- Every node the downloader has written is the node of the finished tree. -/
structure Follows (zero : H) (t d : Tree H) : Prop where
  firstLeaf : d.firstLeaf = t.firstLeaf
  length : d.tree.length = t.tree.length
  root : d.known 0 = true
  known : ∀ i, d.known i = true → d.tree.getD i zero = t.tree.getD i zero

theorem Follows.root_eq (h : Follows zero t d) : d.tree.getD 0 zero = t.tree.getD 0 zero := h.known 0 h.root

theorem getD_insertNodes (d : Tree H) (toAdd : Nat → Option H) {i : Nat} (hi : i < d.tree.length) :
    (insertNodes d toAdd).tree.getD i zero = (toAdd i).getD (d.tree.getD i zero) := by
  simp only [insertNodes, getD_mapIdx, if_pos hi]

theorem Follows.insertNodes (hd : Follows zero t d) {toAdd : Nat → Option H}
    (h : ∀ i x, toAdd i = some x → i < t.tree.length ∧ x = t.tree.getD i zero) :
    Follows zero t (insertNodes d toAdd) := by
  refine ⟨hd.firstLeaf, by simp [Merkle.insertNodes, hd.length], by simp [Merkle.insertNodes, hd.root], fun i hi => ?_⟩
  cases ho : toAdd i with
  | some x =>
    obtain ⟨hlt, rfl⟩ := h i x ho
    rw [getD_insertNodes d toAdd (hd.length ▸ hlt), ho]
    rfl
  | none =>
    have hi : d.known i = true := by simpa [Merkle.insertNodes, ho] using hi
    rw [← hd.known i hi]
    by_cases hlt : i < d.tree.length
    · rw [getD_insertNodes d toAdd hlt, ho]
      rfl
    · rw [getD_of_le _ (Nat.le_of_not_lt hlt), getD_of_le _ (by simpa [Merkle.insertNodes] using hlt)]

theorem follows_start (hc : Complete zero node pieceHash t) :
    Follows zero t ⟨t.firstLeaf, (List.replicate (2 * t.firstLeaf + 1) zero).set 0 (t.tree.getD 0 zero),
      fun n => n == 0⟩ := by
  refine ⟨rfl, by simp [hc.length], rfl, fun i hi => ?_⟩
  obtain rfl : i = 0 := by simpa using hi
  rw [getD_set, if_pos (by simp)]

variable [DecidableEq H]

section

variable (hinj : Function.Injective2 node) (hc : Complete zero node pieceHash t)
include hinj hc

/-- **What one call does.** It is refused and changes nothing, or the leaf is the true one and the nodes that are added
are nodes of the tree. -/
theorem addMerkleNodes_spec (hd : Follows zero t d) (subtree : Nat → Option H) (hp : piece < pieceHash.length) :
    addMerkleNodes zero node d subtree piece = (d, false) ∨
      (subtree (t.firstLeaf + piece) = some (pieceHash.getD piece zero) ∧
        ∃ d', addMerkleNodes zero node d subtree piece = (d', true) ∧ Follows zero t d') := by
  have hroom := hc.room
  unfold addMerkleNodes
  simp only [hd.firstLeaf]
  split
  · exact Or.inl rfl
  rename_i hleaf
  split
  · exact Or.inl rfl
  rename_i root out hloop
  by_cases hroot : root = t.tree.getD 0 zero
  · right
    subst hroot
    obtain ⟨rfl, hout⟩ := verifyLoop_sound hinj hc.built (by omega) hloop
    rw [if_neg (by rw [hd.root_eq]; simp)]
    refine ⟨by rw [hleaf, hc.leafs piece hp], _, rfl, hd.insertNodes fun i x hx => ?_⟩
    obtain ⟨hi, rfl⟩ := (hout i x hx).resolve_left (by simp)
    exact ⟨by rw [hc.length]; omega, rfl⟩
  · left
    rw [if_pos (by rw [hd.root_eq]; exact hroot)]

theorem addMerkleNodes_build (hd : Follows zero t d) (hp : piece < pieceHash.length) :
    ∃ d', addMerkleNodes zero node d (buildMerkleList zero t piece) piece = (d', true) ∧
      buildMerkleList zero d' piece = buildMerkleList zero t piece := by
  have hroom := hc.room
  have hlength := hc.length
  have hn : t.firstLeaf + piece ≤ 2 * t.firstLeaf := by omega
  obtain ⟨out, hloop, -, hout⟩ := verifyLoop_complete hc.built _ _ (fun _ => none) (lt_succ_self _) hn
    fun m hm h => buildMerkleList_sibling t piece hm h
  obtain ⟨-, hright⟩ := verifyLoop_sound hinj hc.built hn hloop
  have hd' : Follows zero t (insertNodes d out) := hd.insertNodes fun i x hx => by
    obtain ⟨hi, rfl⟩ := (hright i x hx).resolve_left (by simp)
    exact ⟨by omega, rfl⟩
  have hadded : ∀ {i x}, out i = some x → (insertNodes d out).known i = true := fun hi => by simp [insertNodes, hi]
  unfold addMerkleNodes
  simp only [hd.firstLeaf, buildMerkleList_leaf, hloop, hd.root_eq, ne_eq, not_true_eq_false, if_false]
  refine ⟨_, rfl, buildMerkleList_congr hd.firstLeaf ?_ hd'.root_eq fun m hm h => ?_⟩
  · rcases Nat.eq_zero_or_pos (t.firstLeaf + piece) with h0 | hpos
    · rw [h0, hd'.root_eq]
    · exact hd'.known _ (hadded (hout _ hpos .here).1)
  · exact hd'.known _ (hadded (hout m hm h).2)

def receive (zero : H) (node : H → H → H) (d : Tree H) (call : (Nat → Option H) × Nat) : Tree H :=
  (addMerkleNodes zero node d call.1 call.2).1

theorem Follows.receive (hd : Follows zero t d) {call : (Nat → Option H) × Nat} (hp : call.2 < pieceHash.length) :
    Follows zero t (receive zero node d call) := by
  unfold Merkle.receive
  rcases addMerkleNodes_spec hinj hc hd call.1 hp with h | ⟨-, d', h, hd'⟩
  · rw [h]
    exact hd
  · rw [h]
    exact hd'

theorem follows_run {calls : List ((Nat → Option H) × Nat)} (hd : Follows zero t d)
    (hp : ∀ call ∈ calls, call.2 < pieceHash.length) : Follows zero t (run (receive zero node) d calls) := by
  induction calls generalizing d with
  | nil => exact hd
  | cons call calls ih =>
    apply ih
    · exact hd.receive hinj hc (hp call List.mem_cons_self)
    · exact fun c h => hp c (List.mem_cons_of_mem call h)

end

/-! ## The exchange -/

/-- The piece hashes are exchanged soundly and completely: in a downloader that starts with the root of the tree that
was built from them, and that has received anything from anybody, every node that was written is that of the tree, a
call that is refused changes nothing, a piece hash that is accepted is the true one, and the nodes for a piece from the
finished tree are accepted and can then be passed on. -/
def SoundAndComplete (zero : H) (node : H → H → H) (pieceHash : List H) : Prop :=
  ∃ t d, generate zero node pieceHash = some t ∧
    parseRootHash zero pieceHash.length (t.tree.getD 0 zero) = some d ∧
    ∀ calls : List ((Nat → Option H) × Nat), (∀ call ∈ calls, call.2 < pieceHash.length) →
      let e := run (receive zero node) d calls
      (∀ i, e.known i = true → e.tree.getD i zero = t.tree.getD i zero) ∧
      ∀ piece < pieceHash.length,
        (∀ subtree, (addMerkleNodes zero node e subtree piece).2 = false →
          (addMerkleNodes zero node e subtree piece).1 = e) ∧
        (∀ subtree, (addMerkleNodes zero node e subtree piece).2 = true →
          subtree (e.firstLeaf + piece) = some (pieceHash.getD piece zero)) ∧
        (addMerkleNodes zero node e (buildMerkleList zero t piece) piece).2 = true ∧
        buildMerkleList zero (addMerkleNodes zero node e (buildMerkleList zero t piece) piece).1 piece =
          buildMerkleList zero t piece

theorem Wiped.le (h : Wiped pieces) : pieces ≤ 2 ^ 30 := by
  unfold Wiped at h
  omega

theorem soundAndComplete_of_wiped (hinj : Function.Injective2 node) (h : Wiped pieceHash.length) :
    SoundAndComplete zero node pieceHash := by
  obtain ⟨t, hgen, hc, hparse, -⟩ := generate_spec zero node h.le
  refine ⟨t, _, hgen, hparse h _, fun calls hcalls => ?_⟩
  have he := follows_run hinj hc (follows_start hc) hcalls
  refine ⟨he.known, fun piece hp => ⟨fun subtree hno => ?_, fun subtree hyes => ?_, ?_⟩⟩
  · rcases addMerkleNodes_spec hinj hc he subtree hp with h | ⟨-, d', h, -⟩
    · rw [h]
    · rw [h] at hno
      cases hno
  · rcases addMerkleNodes_spec hinj hc he subtree hp with h | ⟨hleaf, -⟩
    · rw [h] at hyes
      cases hyes
    · rw [he.firstLeaf, hleaf]
  · obtain ⟨d', h, hlist⟩ := addMerkleNodes_build hinj hc he hp
    rw [h]
    exact ⟨rfl, hlist⟩

theorem not_soundAndComplete (zero : H) (node : H → H → H) (h : ¬ Wiped pieceHash.length) :
    ¬ SoundAndComplete zero node pieceHash := by
  rintro ⟨t, d, hgen, hroot, -⟩
  rcases Nat.lt_or_ge (2 ^ 30) pieceHash.length with hmany | hle
  · rw [generate, merkleNumLeafs_none hmany] at hgen
    cases hgen
  · obtain ⟨-, -, -, -, hparse⟩ := generate_spec zero node hle
    rw [hparse h] at hroot
    cases hroot

/-- **The exchange of piece hashes** is sound and complete exactly as long as the tree is as large as its size in bytes
says: with at most `2 ^ 25` pieces, or more than `2 ^ 26` and at most `2 ^ 28`. -/
theorem merkle_exchange (hinj : Function.Injective2 node) (pieceHash : List H) :
    SoundAndComplete zero node pieceHash ↔ Wiped pieceHash.length := by
  constructor
  · intro h
    by_contra hno
    exact not_soundAndComplete zero node hno h
  · exact soundAndComplete_of_wiped hinj

end Downloader

/-- Hashes without collisions: the terms themselves. -/
inductive FreeHash
  | data (n : Nat)
  | node (l r : FreeHash)
  deriving DecidableEq

theorem merkle_exchange_three : SoundAndComplete (.data 0) FreeHash.node [.data 1, .data 2, .data 3] ↔ Wiped 3 :=
  merkle_exchange (fun _ _ _ _ h => FreeHash.node.inj h) [.data 1, .data 2, .data 3]

/-- With one piece more than `2 ^ 25` there is no tree to start with. -/
theorem too_many_pieces_have_no_tree :
    ¬ SoundAndComplete (.data 0) FreeHash.node (List.replicate (2 ^ 25 + 1) (.data 1)) := by
  apply not_soundAndComplete
  rw [List.length_replicate]
  decide

end Libtorrent.Merkle
