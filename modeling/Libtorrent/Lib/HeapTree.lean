import Mathlib.Tactic.Common

/-!
# Hash trees in heap order

A complete binary tree is kept in an array: the children of node `p` are `2 * p + 1` and `2 * p + 2`. In a hash tree
every inner node is the hash of its children (`Built`). Going up from a node one combines its hash with that of its
sibling (`join`); when the hash is injective a right combination has the right parts (`join_inj`).
-/

namespace Libtorrent.HeapTree

variable {H : Type} {node : H → H → H}

def parent (n : Nat) : Nat := (n - 1) / 2

def sibling (n : Nat) : Nat := if n % 2 = 1 then n + 1 else n - 1

variable {n first m : Nat}

theorem parent_lt (h : 0 < n) : parent n < n := by
  unfold parent
  omega

theorem parent_lt_of_le (h : 0 < n) (hn : n ≤ 2 * first) : parent n < first := by
  unfold parent
  omega

theorem sibling_le (h : 0 < n) (hn : n ≤ 2 * first) : sibling n ≤ 2 * first := by
  unfold sibling
  split <;> omega

theorem children (n : Nat) (h : 0 < n) :
    (n = 2 * parent n + 1 ∧ sibling n = 2 * parent n + 2) ∨ (n = 2 * parent n + 2 ∧ sibling n = 2 * parent n + 1) := by
  unfold parent sibling
  by_cases hodd : n % 2 = 1
  · left
    rw [if_pos hodd]
    omega
  · right
    rw [if_neg hodd]
    omega

/-- The nodes on the way from `n` to the root. -/
inductive OnPath (n : Nat) : Nat → Prop
  | here : OnPath n n
  | up {m : Nat} (h : 0 < m) (hm : OnPath n m) : OnPath n (parent m)

theorem OnPath.of_parent (hpos : 0 < n) (h : OnPath (parent n) m) : OnPath n m := by
  induction h with
  | here => exact .up hpos .here
  | up h _ ih => exact .up h ih

theorem OnPath.cases_parent (h : OnPath n m) : m = n ∨ (0 < n ∧ OnPath (parent n) m) := by
  induction h with
  | here => exact Or.inl rfl
  | @up m h _ ih =>
    rcases ih with rfl | ⟨hpos, ih⟩
    · exact Or.inr ⟨h, .here⟩
    · exact Or.inr ⟨hpos, .up h ih⟩

theorem OnPath.le (h : OnPath n m) : m ≤ n := by
  induction h with
  | here => exact Nat.le_refl n
  | up h _ ih => exact Nat.le_trans (Nat.le_of_lt (parent_lt h)) ih

/-- The hash of the parent from the hashes of a node and its sibling. -/
def join (node : H → H → H) (n : Nat) (h s : H) : H := if sibling n < n then node s h else node h s

theorem join_inj (hinj : Function.Injective2 node) {h s h' s' : H}
    (he : join node n h s = join node n h' s') : h = h' ∧ s = s' := by
  unfold join at he
  split at he
  · obtain ⟨hs, hh⟩ := hinj he
    exact ⟨hh, hs⟩
  · exact hinj he

/-- Every node before `first` is the hash of its children. -/
def Built (node : H → H → H) (first : Nat) (t : Nat → H) : Prop :=
  ∀ p < first, t p = node (t (2 * p + 1)) (t (2 * p + 2))

theorem Built.parent_eq {t : Nat → H} (h : Built node first t) (hpos : 0 < n)
    (hn : n ≤ 2 * first) : t (parent n) = join node n (t n) (t (sibling n)) := by
  rw [h _ (parent_lt_of_le hpos hn), join]
  rcases children n hpos with ⟨h1, h2⟩ | ⟨h1, h2⟩
  · rw [if_neg (by omega), h2, ← h1]
  · rw [if_pos (by omega), h2, ← h1]

end Libtorrent.HeapTree
