import Libtorrent.Lib.Wrap
import Libtorrent.Lib.Vec
import Libtorrent.Lib.HeapTree

/-!
# Merkle torrents

`create_torrent::generate` builds the tree of the piece hashes from the leaves up; `torrent_info` starts with the root
and adds nodes that it can verify. Hashes are the elements of a type `H` with the all-zero hash `zero`; `node` is the
hash of two hashes one behind the other. A `std::map` is a partial function of the keys.
-/

namespace Libtorrent.Merkle

open Vec

/-! ## Indices -/

def merkleGetParent (treeNode : Nat) : Nat := (treeNode - 1) / 2

def merkleGetSibling (treeNode : Nat) : Nat := if treeNode % 2 = 1 then treeNode + 1 else treeNode - 1

def merkleNumNodes (leafs : Int) : Int := int32 (int32 (leafs * 2) - 1)

def numLeafsLoop (pieces : Int) : (fuel : Nat) → Int → Option Int
  | 0, _ => none
  | fuel + 1, ret => if pieces > ret then numLeafsLoop pieces fuel (int32 (ret * 2)) else some ret

/-- `merkle_num_leafs(pieces)`. After 32 rounds an `int` that is doubled is 0. -/
def merkleNumLeafs (pieces : Int) : Option Int := numLeafsLoop pieces 33 1

section Trees

variable {H : Type} (zero : H) (node : H → H → H)

/-! ## Building -/

/-- A level of the tree: the hash of each pair goes to the parent. -/
def buildLevel (levelEnd : Nat) : (fuel : Nat) → (i parent : Nat) → List H → List H
  | 0, _, _, tree => tree
  | fuel + 1, i, parent, tree =>
    if i < levelEnd then
      buildLevel levelEnd fuel (i + 2) (parent + 1) (tree.set parent (node (tree.getD i zero) (tree.getD (i + 1) zero)))
    else tree

def buildLevels : (fuel : Nat) → (levelStart levelSize : Nat) → List H → List H
  | 0, _, _, tree => tree
  | fuel + 1, levelStart, levelSize, tree =>
    if 0 < levelStart then
      buildLevels fuel (merkleGetParent levelStart) (levelSize / 2)
        (buildLevel zero node (levelStart + levelSize) levelSize levelStart (merkleGetParent levelStart) tree)
    else tree

/-- `m_merkle_first_leaf` and `m_merkle_tree`; `known` are the nodes that were written. -/
structure Tree (H : Type) where
  firstLeaf : Nat
  tree : List H
  known : Nat → Bool

/-- The part of `create_torrent::generate` for merkle torrents: the tree of the piece hashes, if the number of leafs is
found. -/
def generate (pieceHash : List H) : Option (Tree H) :=
  (merkleNumLeafs pieceHash.length).map fun numLeafs =>
    let numNodes := merkleNumNodes numLeafs
    let firstLeaf := (int32 (numNodes - numLeafs)).toNat
    let tree := resize [] numNodes.toNat zero
    let tree := fill tree firstLeaf (firstLeaf + pieceHash.length) fun k => pieceHash.getD (k - firstLeaf) zero
    let tree := fill tree (firstLeaf + pieceHash.length) (firstLeaf + numLeafs.toNat) fun _ => zero
    ⟨firstLeaf, buildLevels zero node numNodes.toNat firstLeaf numLeafs.toNat tree, fun _ => true⟩

/-- The part of `torrent_info::parse_info_section` for merkle torrents: a tree with only its root. The nodes are zero
when `memset` is called; the number of bytes is an `int`, and a negative one is a `size_t` far beyond the tree. -/
def parseRootHash (numPieces : Nat) (rootHash : H) : Option (Tree H) :=
  (merkleNumLeafs numPieces).bind fun numLeafs =>
    let numNodes := merkleNumNodes numLeafs
    if int32 (numNodes * 20) < 0 then none
    else some
      ⟨(int32 (numNodes - numLeafs)).toNat, (List.replicate numNodes.toNat zero).set 0 rootHash, fun n => n == 0⟩

/-! ## Exchanging nodes -/

/-- The loop of `add_merkle_nodes`: the hash at the root and the nodes to add, unless a sibling is missing. -/
def verifyLoop (subtree : Nat → Option H) : (fuel : Nat) → Nat → H → (Nat → Option H) → Option (H × (Nat → Option H))
  | 0, _, _, _ => none
  | fuel + 1, n, h, toAdd =>
    if 0 < n then
      let sibling := merkleGetSibling n
      let parent := merkleGetParent n
      match subtree sibling with
      | none => none
      | some siblingHash =>
        let toAdd := Function.update (Function.update toAdd n (some h)) sibling (some siblingHash)
        let h := if sibling < n then node siblingHash h else node h siblingHash
        verifyLoop subtree fuel parent h toAdd
    else some (h, toAdd)

def insertNodes (t : Tree H) (toAdd : Nat → Option H) : Tree H :=
  { t with
    tree := t.tree.mapIdx fun i x => (toAdd i).getD x
    known := fun i => (toAdd i).isSome || t.known i }

def addMerkleNodes [DecidableEq H] (t : Tree H) (subtree : Nat → Option H) (piece : Nat) : Tree H × Bool :=
  let n := t.firstLeaf + piece
  match subtree n with
  | none => (t, false)
  | some h =>
    match verifyLoop node subtree (n + 1) n h fun _ => none with
    | none => (t, false)
    | some (h, toAdd) =>
      if h ≠ t.tree.getD 0 zero then (t, false)
      else (insertNodes t toAdd, true)

def listLoop (tree : List H) : (fuel : Nat) → Nat → (Nat → Option H) → Nat → Option H
  | 0, _, ret => ret
  | fuel + 1, n, ret =>
    if 0 < n then
      let sibling := merkleGetSibling n
      listLoop tree fuel (merkleGetParent n) (Function.update ret sibling (some (tree.getD sibling zero)))
    else ret

def buildMerkleList (t : Tree H) (piece : Nat) : Nat → Option H :=
  let n := t.firstLeaf + piece
  listLoop zero t.tree (n + 1) n
    (Function.update (Function.update (fun _ => none) n (some (t.tree.getD n zero))) 0 (some (t.tree.getD 0 zero)))

end Trees

end Libtorrent.Merkle
