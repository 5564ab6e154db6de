import Libtorrent.Dht.TableInvariant

/-!
# `routing_table::find_node`

`find_node` looks into the bucket of the target, then into the buckets behind it and last into those in front of it, the
nearest first (`visited`). When no eligible node behind the target's bucket is hidden by other live nodes (`Shown`), it
returns the first `count` eligible nodes in this order (`findNodes_eq`).

* `find_node_enough`: then it finds as many as there are;
* `find_node_nearest_iff`: and the nearest ones exactly if the group that is cut has its nearest nodes in front.
-/

namespace Libtorrent.Dht

def NodeEntry.confirmed (e : NodeEntry) : Bool := e.timeoutCount == 0

namespace RoutingTable

open Run List

/-- The live nodes of a bucket that may be returned: all with `include_failed`, and otherwise the confirmed ones. -/
def eligible (includeFailed : Bool) (b : RoutingTableNode) : List NodeEntry :=
  b.liveNodes.filter fun e => includeFailed || e.confirmed

section FindNode

variable (cfg : TableConfig) (count : Nat) (includeFailed : Bool)

/-- The loop over the buckets behind that of the target. The nodes are cut off before they are looked at. -/
def copyCloser : List RoutingTableNode → List NodeEntry → List NodeEntry
  | [], l => l
  | b :: bs, l =>
    if l.length < count then
      copyCloser bs (l ++ (b.liveNodes.take (count - l.length)).filter fun e => includeFailed || e.confirmed)
    else l

/-- The loop over the buckets in front of that of the target. -/
def copyFurther : List RoutingTableNode → List NodeEntry → List NodeEntry
  | [], l => l
  | b :: bs, l =>
    let l := l ++ (eligible includeFailed b).take (min (count - l.length) b.liveNodes.length)
    if l.length < count then copyFurther bs l else l

/-- `find_node(target, l, options, count)`: the table, and `l`. What `copy_n` and `copy_if_n` copy are the first
eligible nodes. -/
def findNodes (t : RoutingTable) (target : NodeId) : RoutingTable × List NodeEntry :=
  let count := if count = 0 then cfg.bucketSize else count
  let (t, i) := t.findBucket cfg target
  let b := t.bucket i
  let l := (eligible includeFailed b).take (min count b.liveNodes.length)
  if count ≤ l.length then (t, l)
  else
    let l := copyCloser count includeFailed (t.buckets.drop (i + 1)) l
    if count ≤ l.length then (t, l) else (t, copyFurther count includeFailed (t.buckets.take i).reverse l)

/-- The buckets in the order in which `find_node` looks into them. -/
def visited (t : RoutingTable) (i : Nat) : List RoutingTableNode :=
  t.bucket i :: (t.buckets.drop (i + 1) ++ (t.buckets.take i).reverse)

def Fronted (b : RoutingTableNode) : Prop :=
  b.liveNodes.Pairwise fun x y => (includeFailed || y.confirmed) = true → (includeFailed || x.confirmed) = true

instance (b : RoutingTableNode) : Decidable (Fronted includeFailed b) := by unfold Fronted; infer_instance

/-- No bucket that is cut has a live node in front of an eligible one that is not eligible itself; `n` eligible nodes
are in front of the buckets. -/
def Shown (n : Nat) : List RoutingTableNode → Prop
  | [] => True
  | b :: bs => (Fronted includeFailed b ∨ n + b.liveNodes.length ≤ count) ∧
      Shown (n + (eligible includeFailed b).length) bs

instance : ∀ (n : Nat) (bs : List RoutingTableNode), Decidable (Shown count includeFailed n bs)
  | _, [] => isTrue trivial
  | n, b :: bs => @instDecidableAnd _ _ _ (instDecidableShown (n + (eligible includeFailed b).length) bs)

variable (t : RoutingTable) (target : NodeId)

/-- `Shown` for the buckets behind that of the target. -/
def AllShown : Prop :=
  Shown count includeFailed (eligible includeFailed (t.bucket (t.bucketIndex cfg target))).length
    (t.buckets.drop (t.bucketIndex cfg target + 1))

instance : Decidable (AllShown cfg count includeFailed t target) := by unfold AllShown; infer_instance

/-- The eligible nodes of the table in the order in which `find_node` comes to them. -/
def inOrder : List NodeEntry := (t.visited (t.bucketIndex cfg target)).flatMap (eligible includeFailed)

variable {cfg count includeFailed} {t} {target}

theorem filter_take {p : NodeEntry → Bool} : ∀ {l : List NodeEntry} (n : Nat),
    l.Pairwise (fun x y => p y = true → p x = true) → (l.take n).filter p = (l.filter p).take n
  | [], n, _ => by simp
  | x :: l, 0, _ => by simp
  | x :: l, n + 1, h => by
    obtain ⟨hx, hl⟩ := pairwise_cons.mp h
    by_cases hp : p x = true
    · simp [hp, filter_take n hl]
    · have hnone : ∀ y ∈ l, ¬ p y = true := fun y hy hpy => hp (hx y hy hpy)
      have htake : ∀ y ∈ l.take n, ¬ p y = true := fun y hy => hnone y (mem_of_mem_take hy)
      simp [hp, filter_eq_nil_iff.mpr hnone, filter_eq_nil_iff.mpr htake]

theorem take_take_append (n : Nat) (l l' : List NodeEntry) : (l.take n ++ l').take n = (l ++ l').take n := by
  simp only [take_append, take_take, length_take, Nat.min_self]
  congr 2
  omega

theorem append_take {n : Nat} {l : List NodeEntry} (h : l.length ≤ n) (l' : List NodeEntry) :
    l ++ l'.take (n - l.length) = (l ++ l').take n := by
  rw [take_append, take_of_length_le h]

theorem copyCloser_full : ∀ {bs : List RoutingTableNode} {l : List NodeEntry}, count ≤ l.length →
    copyCloser count includeFailed bs l = l
  | [], _, _ => rfl
  | _ :: _, _, h => if_neg (Nat.not_lt.mpr h)

theorem copyCloser_eq : ∀ {bs : List RoutingTableNode} {l : List NodeEntry}, Shown count includeFailed l.length bs →
    l.length ≤ count → copyCloser count includeFailed bs l = (l ++ bs.flatMap (eligible includeFailed)).take count
  | [], l, _, hl => by simp [copyCloser, take_of_length_le hl]
  | b :: bs, l, ⟨hb, hbs⟩, hl => by
    rw [copyCloser]
    split
    · have hcopy : l ++ (b.liveNodes.take (count - l.length)).filter (fun e => includeFailed || e.confirmed) =
          (l ++ eligible includeFailed b).take count := by
        rw [← append_take hl]
        rcases hb with hb | hb
        · rw [filter_take _ hb, eligible]
        · have hle : (eligible includeFailed b).length ≤ b.liveNodes.length := length_filter_le ..
          rw [take_of_length_le (by omega), take_of_length_le (by omega), eligible]
      rw [hcopy, flatMap_cons, ← append_assoc]
      rcases Nat.le_total (l ++ eligible includeFailed b).length count with h | h
      · rw [take_of_length_le h]
        exact copyCloser_eq (by rwa [length_append]) h
      · rw [copyCloser_full (by rw [length_take]; omega), take_append_of_le_length h]
    · rw [take_append_of_le_length (by omega), take_of_length_le hl]

theorem take_min_eligible (n : Nat) (b : RoutingTableNode) :
    (eligible includeFailed b).take (min n b.liveNodes.length) = (eligible includeFailed b).take n := by
  have hle : (eligible includeFailed b).length ≤ b.liveNodes.length := length_filter_le ..
  rw [take_eq_take_iff]
  omega

theorem copyFurther_eq : ∀ {bs : List RoutingTableNode} {l : List NodeEntry}, l.length ≤ count →
    copyFurther count includeFailed bs l = (l ++ bs.flatMap (eligible includeFailed)).take count
  | [], l, hl => by simp [copyFurther, take_of_length_le hl]
  | b :: bs, l, hl => by
    rw [copyFurther, take_min_eligible, append_take hl, flatMap_cons, ← append_assoc]
    split
    · rw [copyFurther_eq (length_take_le ..), take_take_append]
    · rename_i hfull
      rw [length_take] at hfull
      exact (take_append_of_le_length (by omega)).symm

/-- The first eligible nodes of the visited buckets. -/
theorem findNodes_eq (hcount : 0 < count) (hf : AllShown cfg count includeFailed t target) (ht : t.buckets ≠ []) :
    (findNodes cfg count includeFailed t target).2 = (inOrder cfg includeFailed t target).take count := by
  have hw : t.withBucket = t := if_neg ht
  simp only [findNodes, if_neg hcount.ne', findBucket, hw, take_min_eligible, inOrder, visited, flatMap_cons,
    flatMap_append]
  have hcloser : copyCloser count includeFailed (t.buckets.drop (t.bucketIndex cfg target + 1))
      ((eligible includeFailed (t.bucket (t.bucketIndex cfg target))).take count) =
        (eligible includeFailed (t.bucket (t.bucketIndex cfg target)) ++
          (t.buckets.drop (t.bucketIndex cfg target + 1)).flatMap (eligible includeFailed)).take count := by
    rcases Nat.le_total (eligible includeFailed (t.bucket (t.bucketIndex cfg target))).length count with h | h
    · rw [take_of_length_le h]
      exact copyCloser_eq hf h
    · rw [copyCloser_full (by rw [length_take]; omega), take_append_of_le_length h]
  rw [hcloser]
  split
  · rename_i hl
    rw [take_append_of_le_length (hl.trans (length_take_le' ..))]
  split
  · rename_i hl
    rw [← append_assoc, take_append_of_le_length (hl.trans (length_take_le' ..))]
  · rw [copyFurther_eq (length_take_le ..), take_take_append, append_assoc]

theorem perm_visited {i : Nat} (hi : i < t.buckets.length) : (t.visited i).Perm t.buckets := by
  have hsplit : t.buckets = t.buckets.take i ++ t.bucket i :: t.buckets.drop (i + 1) := by
    obtain ⟨_, hget⟩ := List.getElem?_eq_some_iff.mp (getElem?_bucket hi)
    rw [← hget, getElem_cons_drop, take_append_drop]
  rw [visited]
  conv_rhs => rw [hsplit]
  refine ((perm_append_comm.cons _).trans ?_).trans perm_middle.symm
  exact ((reverse_perm _).append_right _).cons _

theorem bucketIndex_lt (cfg : TableConfig) (ht : t.buckets ≠ []) (id : NodeId) :
    t.bucketIndex cfg id < t.buckets.length := by
  have := length_pos_iff.mpr ht
  unfold bucketIndex
  omega

theorem perm_inOrder (cfg : TableConfig) (includeFailed : Bool) (ht : t.buckets ≠ []) (target : NodeId) :
    (inOrder cfg includeFailed t target).Perm (t.buckets.flatMap (eligible includeFailed)) :=
  (perm_visited (bucketIndex_lt cfg ht target)).flatMap_right (eligible includeFailed)

theorem nodup_eligible (h : Invariant cfg t) (includeFailed : Bool) :
    (t.buckets.flatMap (eligible includeFailed)).Nodup := by
  refine h.census.ids.of_map.sublist ?_
  rw [nodes]
  induction t.buckets with
  | nil => exact Sublist.slnil
  | cons b bs ih =>
    rw [flatMap_cons, flatMap_cons]
    exact ((filter_sublist ..).trans (sublist_append_right ..)).append ih

/-- Two buckets: the node of the first one has failed, and so has the first node of the second one. -/
def hidingTable : RoutingTable :=
  run (step pairs) empty [.nodeSeen (.twoPow 160 90) 10 1, .nodeSeen (.twoPow 160 80) 0x0b000001 1,
    .nodeSeen (.twoPow 160 159) 0x0c000001 1, .nodeFailed (.twoPow 160 159) 0x0c000001 1,
    .nodeFailed (.twoPow 160 90) 10 1]

theorem invariant_hidingTable : Invariant pairs hidingTable :=
    inv_run_all (fun _ ev h => h.step rfl ev) invariant_empty _

variable (cfg) in
/-- The group of an id: the bucket of the target, the buckets behind it, and each of those in front of it. -/
def group (t : RoutingTable) (target id : NodeId) : Nat :=
  if t.bucketIndex cfg id = t.bucketIndex cfg target then 0
  else if t.bucketIndex cfg target < t.bucketIndex cfg id then 1
  else t.bucketIndex cfg target - t.bucketIndex cfg id + 1

theorem nearer_of_group_lt {x y : NodeId} (h : t.group cfg target y < t.group cfg target x) :
    compareRef x y target = false := by
  have := distanceExp_le cfg.id x
  have := distanceExp_le cfg.id y
  have := distanceExp_le cfg.id target
  unfold group at h
  by_cases hx : t.bucketIndex cfg x < t.bucketIndex cfg target
  · -- `x` is in front of the bucket of the target, and of that of `y`
    refine compareRef_of_exp cfg.id ?_ le_rfl ?_ ?_ ?_ ?_
    all_goals
      unfold bucketIndex at *
      split_ifs at h <;> omega
  · refine compareRef_of_exp cfg.id ?_ ?_ ?_ le_rfl ?_ ?_
    all_goals
      unfold bucketIndex at *
      split_ifs at h <;> omega

theorem bucketIndex_of_mem (h : Invariant cfg t) {k : Nat} {b : RoutingTableNode} (hb : t.buckets[k]? = some b)
    {e : NodeEntry} (he : e ∈ eligible includeFailed b) : t.bucketIndex cfg e.id = k := by
  have hk := (List.getElem?_eq_some_iff.mp hb).1
  have hplaced := (h.bucket k b hb).placed e (mem_append_right _ (mem_of_mem_filter he))
  exact ((placed_iff (Nat.zero_lt_of_lt hk) hk _).mp hplaced).symm

theorem pairwise_group (includeFailed : Bool) (target : NodeId) (h : Invariant cfg t) (ht : t.buckets ≠ []) :
    (inOrder cfg includeFailed t target).Pairwise fun x y => t.group cfg target x.id ≤ t.group cfg target y.id := by
  have hi : t.bucketIndex cfg target < t.buckets.length := bucketIndex_lt cfg ht target
  have hfront : ∀ {k b e}, t.buckets[k]? = some b → e ∈ eligible includeFailed b → k < t.bucketIndex cfg target →
      t.group cfg target e.id = t.bucketIndex cfg target - k + 1 := fun {k b e} hb he hk => by
    rw [group, bucketIndex_of_mem h hb he, if_neg hk.ne, if_neg hk.not_gt]
  have hbehind : ∀ {b e}, b ∈ t.buckets.drop (t.bucketIndex cfg target + 1) → e ∈ eligible includeFailed b →
      t.group cfg target e.id = 1 := fun {b e} hb he => by
    obtain ⟨j, hj⟩ := mem_iff_getElem?.mp hb
    rw [getElem?_drop] at hj
    rw [group, bucketIndex_of_mem h hj he, if_neg (by omega), if_pos (by omega)]
  rw [inOrder, pairwise_flatMap]
  constructor
  · intro b hb
    obtain ⟨k, hk⟩ := mem_iff_getElem?.mp ((perm_visited hi).mem_iff.mp hb)
    refine pairwise_of_forall_mem_list fun x hx y hy => ?_
    rw [group, group, bucketIndex_of_mem h hk hx, bucketIndex_of_mem h hk hy]
  rw [visited, pairwise_cons, pairwise_append, pairwise_reverse]
  refine ⟨fun b _ x hx y _ => ?_, ?_, ?_, fun b hb b' hb' x hx y hy => ?_⟩
  · rw [group, if_pos (bucketIndex_of_mem h (getElem?_bucket hi) hx)]
    exact Nat.zero_le _
  · refine pairwise_of_forall_mem_list fun b hb b' hb' x hx y hy => ?_
    rw [hbehind hb hx, hbehind hb' hy]
  · refine pairwise_iff_getElem.mpr fun j k hj hk hjk y hy x hx => ?_
    rw [length_take] at hj hk
    rw [getElem_take] at hx hy
    rw [hfront (List.getElem?_eq_getElem (by omega)) hx (by omega),
      hfront (List.getElem?_eq_getElem (by omega)) hy (by omega)]
    omega
  · obtain ⟨k, hk, hget⟩ := mem_iff_getElem.mp (mem_reverse.mp hb')
    rw [length_take] at hk
    rw [getElem_take] at hget
    rw [hbehind hb hx, hfront (List.getElem?_eq_some_iff.mpr ⟨by omega, hget⟩) hy (by omega)]
    omega

end FindNode

end RoutingTable

end Libtorrent.Dht
