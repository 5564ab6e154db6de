import Libtorrent.Dht.RoutingTable

/-!
# The invariant of the routing table

`Invariant` is what the buckets keep (`BucketOk`: their sizes and which nodes are in them) and what the table keeps as a
whole (`Census`: ids and addresses are not used twice, `m_ips` is the set of addresses). The second part is about the
list of all entries up to their order, so that a change of one bucket (`Invariant.modify`) is a change at the head of
that list. Every operation on a bucket keeps the invariant, the ones that add a node when the table admits it
(`Admits`); `add_node` and `node_failed` are made of them.
-/

namespace Libtorrent.Dht.RoutingTable

open Run List Nat RoutingTable NodeEntry

variable (cfg : TableConfig)

def Placed (n k : Nat) (id : NodeId) : Prop :=
  if k + 1 < n then 159 - (distanceExp cfg.id id : Int) = k else (k : Int) ≤ 159 - distanceExp cfg.id id

structure BucketOk (n k : Nat) (b : RoutingTableNode) : Prop where
  liveNodes_le : b.liveNodes.length ≤ cfg.bucketSize
  replacements_le : b.replacements.length ≤ cfg.bucketSize
  placed : ∀ e ∈ b.nodes, Placed cfg n k e.id

/-- What the entries of the whole table keep. -/
structure Census (l : List NodeEntry) (ips : Finset (BitVec 32)) : Prop where
  ids : (l.map NodeEntry.id).Nodup
  addrs : (l.map NodeEntry.addr).Nodup
  ips_eq : ∀ a, a ∈ ips ↔ a ∈ l.map NodeEntry.addr
  foreign : ∀ e ∈ l, e.id ≠ cfg.id ∧ e.ep ∉ cfg.routerNodes

structure Invariant (t : RoutingTable) : Prop where
  bucket : ∀ k b, t.buckets[k]? = some b → BucketOk cfg t.buckets.length k b
  census : Census cfg t.nodes t.ips

variable {cfg}

/-! ## The census -/

section Census

variable {l l' : List NodeEntry} {ips : Finset (BitVec 32)} {e : NodeEntry}

theorem Census.congr (h : Census cfg l ips) (hl : (l.map reset).Perm (l'.map reset)) : Census cfg l' ips := by
  have hmap : ∀ {β : Type} (f : NodeEntry → β), (∀ x, f x.reset = f x) → (l.map f).Perm (l'.map f) := by
    intro β f hf
    have := hl.map f
    simpa only [map_map, Function.comp_def, hf] using this
  have hid := hmap NodeEntry.id fun _ => rfl
  have haddr := hmap NodeEntry.addr fun _ => rfl
  refine ⟨hid.nodup_iff.mp h.ids, haddr.nodup_iff.mp h.addrs, fun a => (h.ips_eq a).trans haddr.mem_iff, fun e he => ?_⟩
  have hkey := hmap (fun x => (x.id, x.ep)) fun _ => rfl
  obtain ⟨x, hx, heq⟩ := mem_map.mp (hkey.mem_iff.mpr (mem_map_of_mem he))
  obtain ⟨hid, hep⟩ := Prod.mk.inj heq
  exact hid ▸ hep ▸ h.foreign x hx

theorem Census.perm (h : Census cfg l ips) (hl : l.Perm l') : Census cfg l' ips := h.congr (hl.map _)

theorem Census.tail (h : Census cfg (e :: l) ips) : Census cfg l (ips.erase e.addr) := by
  have haddrs := nodup_cons.mp h.addrs
  refine ⟨(nodup_cons.mp h.ids).2, haddrs.2, fun a => ?_, fun x hx => h.foreign x (mem_cons_of_mem e hx)⟩
  have := h.ips_eq a
  simp only [Finset.mem_erase, map_cons, mem_cons] at this ⊢
  constructor
  · rintro ⟨hne, ha⟩
    exact (this.mp ha).resolve_left hne
  · intro ha
    exact ⟨fun heq => haddrs.1 (heq ▸ ha), this.mpr (Or.inr ha)⟩

theorem Census.cons (h : Census cfg l ips) (hid : ∀ x ∈ l, x.id ≠ e.id) (haddr : e.addr ∉ ips)
    (hforeign : e.id ≠ cfg.id ∧ e.ep ∉ cfg.routerNodes) : Census cfg (e :: l) (insert e.addr ips) := by
  refine ⟨?_, ?_, fun a => ?_, ?_⟩
  · refine nodup_cons.mpr ⟨fun hmem => ?_, h.ids⟩
    obtain ⟨x, hx, heq⟩ := mem_map.mp hmem
    exact hid x hx heq
  · exact nodup_cons.mpr ⟨fun hmem => haddr ((h.ips_eq _).mpr hmem), h.addrs⟩
  · simp only [Finset.mem_insert, map_cons, mem_cons, h.ips_eq a]
  · intro x hx
    rcases mem_cons.mp hx with rfl | hx
    · exact hforeign
    · exact h.foreign x hx

end Census

/-! ## Changing one bucket -/

section Modify

variable {t : RoutingTable} {k j : Nat} {b : RoutingTableNode} {e : NodeEntry}

theorem flatMap_modify : ∀ {bs : List RoutingTableNode} {k : Nat}, bs[k]? = some b →
    ∃ rest, (bs.flatMap RoutingTableNode.nodes).Perm (b.nodes ++ rest) ∧ ∀ f : RoutingTableNode → RoutingTableNode,
        ((bs.modify k f).flatMap RoutingTableNode.nodes).Perm ((f b).nodes ++ rest)
  | [], k, h => by simp at h
  | c :: bs, 0, h => by
    obtain rfl : c = b := by simpa using h
    exact ⟨bs.flatMap RoutingTableNode.nodes, by simp, fun f => by simp⟩
  | c :: bs, k + 1, h => by
    obtain ⟨rest, hbs, hf⟩ := flatMap_modify (by simpa using h : bs[k]? = some b)
    have hswap : ∀ m, (c.nodes ++ (m ++ rest)).Perm (m ++ (c.nodes ++ rest)) := fun m => by
      rw [← append_assoc, ← append_assoc]
      exact perm_append_comm.append_right rest
    refine ⟨c.nodes ++ rest, ?_, fun f => ?_⟩
    · exact (hbs.append_left c.nodes).trans (hswap b.nodes)
    · exact ((hf f).append_left c.nodes).trans (hswap (f b).nodes)

theorem getElem?_bucket (hk : k < t.buckets.length) : t.buckets[k]? = some (t.bucket k) := by
  simp [bucket, List.getD, hk]

theorem bucket_eq (hb : t.buckets[k]? = some b) : t.bucket k = b := by simp [bucket, List.getD, hb]

variable {ips : Finset (BitVec 32)} {f : RoutingTableNode → RoutingTableNode}

theorem Invariant.modify (h : Invariant cfg t)
    (hb : t.buckets[k]? = some b) (hok : BucketOk cfg t.buckets.length k (f b))
    (hcensus : ∀ rest, t.nodes.Perm (b.nodes ++ rest) → Census cfg ((f b).nodes ++ rest) ips) :
    Invariant cfg ⟨t.buckets.modify k f, ips⟩ := by
  obtain ⟨rest, hnodes, hf⟩ := flatMap_modify hb
  constructor
  · intro i c hc
    rw [length_modify]
    rw [List.getElem?_modify] at hc
    rcases eq_or_ne k i with rfl | hne
    · simp only [hb, Option.map_eq_map, Option.map_some, if_true, Option.some.injEq] at hc
      exact hc ▸ hok
    · simp only [hne, if_false, Option.map_eq_map, Option.map_id'] at hc
      exact h.bucket i c hc
  · exact (hcensus rest hnodes).perm (hf f).symm

theorem BucketOk.sublist {n : Nat} {b' : RoutingTableNode} (h : BucketOk cfg n k b)
    (hlive : b'.liveNodes.Sublist b.liveNodes) (hrep : b'.replacements.Sublist b.replacements) : BucketOk cfg n k b' :=
  ⟨hlive.length_le.trans h.liveNodes_le, hrep.length_le.trans h.replacements_le,
    fun e he => h.placed e ((hrep.append hlive).subset he)⟩

/-- Taking entry `j` out of a list, with or without other entries around it. -/
theorem Census.eraseIdx {l m rest : List NodeEntry} (h : Census cfg (m ++ l ++ rest) ips)
    (j : Nat) : Census cfg (m ++ l.eraseIdx j ++ rest) (forget ips l j) := by
  unfold forget
  split
  · rename_i he
    obtain ⟨hj, rfl⟩ := List.getElem?_eq_some_iff.mp he
    refine (h.perm ?_).tail
    refine (((getElem_cons_eraseIdx_perm hj).symm.append_left m).append_right rest).trans ?_
    rw [append_assoc, append_assoc, cons_append]
    exact perm_middle
  · rename_i hnone
    rwa [eraseIdx_of_length_le (List.getElem?_eq_none_iff.mp hnone)]

section

variable (h : Invariant cfg t) (hk : k < t.buckets.length)
include h hk

theorem Invariant.eraseReplacement (j : Nat) : Invariant cfg (t.eraseReplacement k j) := by
  have hb := getElem?_bucket hk
  refine h.modify hb ((h.bucket k _ hb).sublist (List.Sublist.refl _) (eraseIdx_sublist _ _)) fun rest hnodes => ?_
  have hcensus : Census cfg ([] ++ (t.bucket k).replacements ++ ((t.bucket k).liveNodes ++ rest)) t.ips := by
    simpa [RoutingTableNode.nodes] using h.census.perm hnodes
  simpa [RoutingTableNode.nodes] using hcensus.eraseIdx j

theorem Invariant.eraseLive (j : Nat) : Invariant cfg (t.eraseLive k j) := by
  have hb := getElem?_bucket hk
  exact h.modify hb ((h.bucket k _ hb).sublist (eraseIdx_sublist _ _) (List.Sublist.refl _))
    fun rest hnodes => (h.census.perm hnodes).eraseIdx j

theorem Invariant.update (hlive : (f (t.bucket k)).liveNodes.map reset = (t.bucket k).liveNodes.map reset)
    (hrep : (f (t.bucket k)).replacements.map reset = (t.bucket k).replacements.map reset) :
    Invariant cfg ⟨t.buckets.modify k f, t.ips⟩ := by
  have hb := getElem?_bucket hk
  have hok := h.bucket k _ hb
  have hnodes : (f (t.bucket k)).nodes.map reset = (t.bucket k).nodes.map reset := by
    simp only [RoutingTableNode.nodes, map_append, hlive, hrep]
  refine h.modify hb ⟨?_, ?_, fun e he => ?_⟩ fun rest hall => (h.census.perm hall).congr ?_
  · simpa using (congrArg List.length hlive).trans_le (by simpa using hok.liveNodes_le)
  · simpa using (congrArg List.length hrep).trans_le (by simpa using hok.replacements_le)
  · obtain ⟨x, hx, heq⟩ := mem_map.mp (hnodes ▸ mem_map_of_mem he)
    have hid : x.reset.id = e.reset.id := congrArg NodeEntry.id heq
    exact hid ▸ hok.placed x hx
  · simp only [map_append, hnodes]
    exact List.Perm.refl _

end

variable {f : NodeEntry → NodeEntry}

theorem map_reset_modify (l : List NodeEntry) (j : Nat) (hf : ∀ e, (f e).reset = e.reset) :
    (l.modify j f).map reset = l.map reset := by
  apply ext_getElem?
  intro i
  simp only [List.getElem?_map, List.getElem?_modify]
  rcases eq_or_ne j i with rfl | hne
  · cases l[j]? <;> simp [hf]
  · simp [hne]

theorem Invariant.updateLive (h : Invariant cfg t) (hk : k < t.buckets.length) (j : Nat)
    (hf : ∀ e, (f e).reset = e.reset) : Invariant cfg (t.updateLive k j f) :=
  h.update hk (map_reset_modify _ j hf) rfl

theorem Invariant.updateReplacement (h : Invariant cfg t) (hk : k < t.buckets.length) (j : Nat)
    (hf : ∀ e, (f e).reset = e.reset) : Invariant cfg (t.updateReplacement k j f) :=
  h.update hk rfl (map_reset_modify _ j hf)

theorem perm_toList_eraseIdx (l : List NodeEntry) (j : Nat) : (l[j]?.toList ++ l.eraseIdx j).Perm l := by
  rcases lt_or_ge j l.length with hj | hj
  · simpa [hj] using getElem_cons_eraseIdx_perm hj
  · simp [hj, eraseIdx_of_length_le hj]

theorem Invariant.promote (h : Invariant cfg t) (hk : k < t.buckets.length)
    (hroom : (t.bucket k).liveNodes.length < cfg.bucketSize) (j : Nat) : Invariant cfg (t.promote k j) := by
  have hb := getElem?_bucket hk
  have hok := h.bucket k _ hb
  have hperm : ((t.bucket k).replacements.eraseIdx j ++
      ((t.bucket k).liveNodes ++ (t.bucket k).replacements[j]?.toList)).Perm (t.bucket k).nodes := by
    rw [← append_assoc]
    refine perm_append_comm.trans ?_
    rw [← append_assoc]
    exact (perm_toList_eraseIdx _ j).append_right _
  refine h.modify hb ⟨?_, ?_, fun e he => hok.placed e (hperm.mem_iff.mp he)⟩
    fun rest hall => h.census.perm (hall.trans (hperm.symm.append_right rest))
  · have : (t.bucket k).replacements[j]?.toList.length ≤ 1 := by cases (t.bucket k).replacements[j]? <;> simp
    simp only [length_append]
    omega
  · exact (eraseIdx_sublist _ _).length_le.trans hok.replacements_le

end Modify

/-! ## Adding a node -/

structure Admits (cfg : TableConfig) (t : RoutingTable) (k : Nat) (e : NodeEntry) : Prop where
  bucket : k < t.buckets.length
  placed : Placed cfg t.buckets.length k e.id
  id : ∀ x ∈ t.nodes, x.id ≠ e.id
  addr : e.addr ∉ t.ips
  foreign : e.id ≠ cfg.id ∧ e.ep ∉ cfg.routerNodes

section Push

variable {t : RoutingTable} {k j : Nat} {e : NodeEntry}

theorem Admits.modify (h : Admits cfg t k e) {ips : Finset (BitVec 32)}
    (hf : ∀ b, (f b).nodes ⊆ b.nodes) (hips : ips ⊆ t.ips) : Admits cfg ⟨t.buckets.modify k f, ips⟩ k e := by
  obtain ⟨rest, hnodes, hmod⟩ := flatMap_modify (getElem?_bucket h.bucket)
  refine ⟨?_, ?_, fun x hx => h.id x (hnodes.mem_iff.mpr ?_), fun ha => h.addr (hips ha), h.foreign⟩
  · rw [length_modify]
    exact h.bucket
  · rw [length_modify]
    exact h.placed
  · rcases mem_append.mp ((hmod f).mem_iff.mp hx) with hx | hx
    · exact mem_append_left rest (hf _ hx)
    · exact mem_append_right _ hx

theorem forget_subset (ips : Finset (BitVec 32)) (l : List NodeEntry) (j : Nat) : forget ips l j ⊆ ips := by
  unfold forget
  split
  · exact Finset.erase_subset _ _
  · exact Finset.Subset.refl _

theorem Admits.eraseLive (h : Admits cfg t k e) (j : Nat) : Admits cfg (t.eraseLive k j) k e :=
  h.modify (fun b => ((List.Sublist.refl _).append (eraseIdx_sublist b.liveNodes j)).subset) (forget_subset _ _ j)

theorem Admits.eraseReplacement (h : Admits cfg t k e) (j : Nat) : Admits cfg (t.eraseReplacement k j) k e :=
  h.modify (fun b => ((eraseIdx_sublist b.replacements j).append (List.Sublist.refl _)).subset) (forget_subset _ _ j)

section

variable (h : Invariant cfg t) (ha : Admits cfg t k e)
include h ha

theorem Invariant.push (hlive : (f (t.bucket k)).liveNodes.length ≤ cfg.bucketSize)
    (hrep : (f (t.bucket k)).replacements.length ≤ cfg.bucketSize)
    (hnodes : (e :: (t.bucket k).nodes).Perm (f (t.bucket k)).nodes) :
    Invariant cfg ⟨t.buckets.modify k f, insert e.addr t.ips⟩ := by
  have hb := getElem?_bucket ha.bucket
  refine h.modify hb ⟨hlive, hrep, fun x hx => ?_⟩ fun rest hall => ?_
  · rcases mem_cons.mp (hnodes.mem_iff.mpr hx) with rfl | hx
    · exact ha.placed
    · exact (h.bucket k _ hb).placed x hx
  · exact ((h.census.cons ha.id ha.addr ha.foreign).perm (hall.cons e)).perm (hnodes.append_right rest)

theorem Invariant.pushLive
    (hroom : (t.bucket k).liveNodes.length < cfg.bucketSize) : Invariant cfg (t.pushLive k e) := by
  refine h.push ha ?_ (h.bucket k _ (getElem?_bucket ha.bucket)).replacements_le ?_
  · simpa using succ_le_of_lt hroom
  · simp only [RoutingTableNode.nodes, ← append_assoc]
    exact (perm_append_singleton e _).symm

theorem Invariant.pushReplacement
    (hroom : (t.bucket k).replacements.length < cfg.bucketSize) : Invariant cfg (t.pushReplacement k e) := by
  refine h.push ha (h.bucket k _ (getElem?_bucket ha.bucket)).liveNodes_le ?_ ?_
  · simpa using succ_le_of_lt hroom
  · exact (perm_append_singleton e _).symm.append_right _

theorem Invariant.settle : Invariant cfg (t.settle cfg k e) := by
  unfold RoutingTable.settle
  split
  · rename_i hroom
    exact h.pushLive ha hroom
  split
  · rename_i hroom
    exact h.pushReplacement ha hroom
  · exact h

end

end Push

/-! ## Splitting the last bucket -/

section Split

variable {k m : Nat} {h : Halves} {t : RoutingTable} {e : NodeEntry}

/-- What holds of the two halves after `m` rounds of the loop over the replacement bucket. -/
structure SplitOk (cfg : TableConfig) (k m : Nat) (h : Halves) : Prop where
  old_stays : ∀ x ∈ h.old.nodes, stays cfg k x.id = true
  new_leaves : ∀ x ∈ h.new.nodes, stays cfg k x.id = false
  old_live : h.old.liveNodes.length ≤ cfg.bucketSize
  new_live : h.new.liveNodes.length ≤ cfg.bucketSize
  old_replacements : h.old.replacements.length ≤ m
  new_replacements : h.new.replacements.length ≤ m

theorem perm_splitStep (k : Nat) (h : Halves) (x : NodeEntry) :
    ((splitStep cfg k h x).old.nodes ++ (splitStep cfg k h x).new.nodes).Perm (x :: (h.old.nodes ++ h.new.nodes)) := by
  rw [perm_iff_count]
  intro a
  unfold splitStep RoutingTableNode.nodes
  split <;> split <;> simp only [count_append, count_cons, count_nil] <;> omega

theorem perm_foldl_splitStep (k : Nat) : ∀ (l : List NodeEntry) (h : Halves),
    ((l.foldl (splitStep cfg k) h).old.nodes ++ (l.foldl (splitStep cfg k) h).new.nodes).Perm
      (l ++ (h.old.nodes ++ h.new.nodes))
  | [], h => List.Perm.refl _
  | x :: l, h => by
    refine (perm_foldl_splitStep k l (splitStep cfg k h x)).trans ?_
    exact ((perm_splitStep k h x).append_left l).trans perm_middle

variable (cfg) in
theorem perm_splitBucket (k : Nat) (b : RoutingTableNode) :
    ((splitBucket cfg k b).old.nodes ++ (splitBucket cfg k b).new.nodes).Perm b.nodes :=
  (perm_foldl_splitStep k b.replacements _).trans ((filter_append_perm _ b.liveNodes).append_left _)

theorem SplitOk.step (hs : SplitOk cfg k m h) (x : NodeEntry) : SplitOk cfg k (m + 1) (splitStep cfg k h x) := by
  obtain ⟨hold, hnew, holdLive, hnewLive, holdRep, hnewRep⟩ := hs
  simp only [RoutingTableNode.nodes, mem_append] at hold hnew
  constructor <;> simp only [splitStep, RoutingTableNode.nodes] <;> grind

theorem SplitOk.foldl : ∀ {l : List NodeEntry} {m : Nat} {h : Halves}, SplitOk cfg k m h →
    SplitOk cfg k (m + l.length) (l.foldl (splitStep cfg k) h)
  | [], _, _, hs => hs
  | x :: l, m, h, hs => by
    have := (hs.step x).foldl (l := l)
    rwa [add_assoc, add_comm 1] at this

variable {n : Nat} {id : NodeId}

theorem splitOk_splitBucket {b : RoutingTableNode} (hok : BucketOk cfg n k b) :
    SplitOk cfg k cfg.bucketSize (splitBucket cfg k b) := by
  have hstart : SplitOk cfg k 0
      ⟨⟨[], b.liveNodes.filter fun x => stays cfg k x.id⟩, ⟨[], b.liveNodes.filter fun x => !stays cfg k x.id⟩⟩ := by
    refine ⟨?_, ?_, ?_, ?_, le_refl 0, le_refl 0⟩
    · simp [RoutingTableNode.nodes]
    · simp [RoutingTableNode.nodes]
    · exact (length_filter_le _ _).trans hok.liveNodes_le
    · exact (length_filter_le _ _).trans hok.liveNodes_le
  have hend := hstart.foldl (l := b.replacements)
  rw [zero_add] at hend
  have hle := hok.replacements_le
  exact ⟨hend.old_stays, hend.new_leaves, hend.old_live, hend.new_live, hend.old_replacements.trans hle,
    hend.new_replacements.trans hle⟩

theorem perm_split (hk : k < t.buckets.length) : (t.split cfg k).nodes.Perm t.nodes := by
  obtain ⟨rest, hnodes, hmod⟩ := flatMap_modify (getElem?_bucket hk)
  have hset := hmod fun _ => (splitBucket cfg k (t.bucket k)).old
  rw [← set_eq_modify] at hset
  have hall : (t.split cfg k).nodes = (t.buckets.set k (splitBucket cfg k (t.bucket k)).old).flatMap
      RoutingTableNode.nodes ++ (splitBucket cfg k (t.bucket k)).new.nodes := by
    simp [RoutingTable.split, nodes]
  rw [hall]
  refine (hset.append_right _).trans (List.Perm.trans ?_ hnodes.symm)
  refine List.Perm.trans ?_ ((perm_splitBucket cfg k (t.bucket k)).append_right rest)
  rw [append_assoc, append_assoc]
  exact perm_append_comm.append_left _

theorem placed_old (hk : k + 1 = n) (h : Placed cfg n k id) (hs : stays cfg k id = true) : Placed cfg (n + 1) k id := by
  have := distanceExp_le cfg.id id
  simp only [Placed, stays, decide_eq_true_eq] at *
  grind

theorem placed_new (hk : k + 1 = n) (hs : stays cfg k id = false) : Placed cfg (n + 1) (k + 1) id := by
  have := distanceExp_le cfg.id id
  simp only [Placed, stays, decide_eq_false_iff_not] at *
  grind

theorem Invariant.split (h : Invariant cfg t) (hk : k + 1 = t.buckets.length) : Invariant cfg (t.split cfg k) := by
  have hb := getElem?_bucket (show k < t.buckets.length by omega)
  have hok := h.bucket k _ hb
  have hs := splitOk_splitBucket hok
  have hperm := perm_splitBucket cfg k (t.bucket k)
  constructor
  · intro i b hi
    simp only [RoutingTable.split, length_append, length_set, length_singleton] at hi ⊢
    rcases lt_trichotomy i k with hlt | rfl | hgt
    · rw [List.getElem?_append_left (by simp; omega), List.getElem?_set_ne (by omega)] at hi
      have hib := h.bucket i b hi
      refine ⟨hib.liveNodes_le, hib.replacements_le, fun e he => ?_⟩
      have := hib.placed e he
      simpa [Placed, show i + 1 < t.buckets.length by omega, show i < t.buckets.length by omega] using this
    · rw [List.getElem?_append_left (by simp; omega), List.getElem?_set_self (by omega)] at hi
      obtain rfl := Option.some.inj hi
      refine ⟨hs.old_live, hs.old_replacements, fun e he => ?_⟩
      exact placed_old hk (hok.placed e (hperm.mem_iff.mp (mem_append_left _ he))) (hs.old_stays e he)
    · rw [List.getElem?_append_right (by simp; omega)] at hi
      obtain ⟨hzero, rfl⟩ : i - t.buckets.length = 0 ∧ (splitBucket cfg k (t.bucket k)).new = b := by
        simpa [List.getElem?_singleton] using hi
      obtain rfl : i = k + 1 := by omega
      exact ⟨hs.new_live, hs.new_replacements, fun e he => placed_new hk (hs.new_leaves e he)⟩
  · exact h.census.perm (perm_split (by omega)).symm

theorem Admits.split (h : Admits cfg t k e) (hk : k + 1 = t.buckets.length) :
    Admits cfg (t.split cfg k) (if stays cfg k e.id then k else k + 1) e := by
  have hlen : (t.split cfg k).buckets.length = t.buckets.length + 1 := by simp [RoutingTable.split]
  refine ⟨?_, ?_, fun x hx => h.id x ((perm_split h.bucket).mem_iff.mp hx), h.addr, h.foreign⟩
  · rw [hlen]
    split <;> omega
  rw [hlen]
  split
  · rename_i hs
    exact placed_old hk h.placed hs
  · rename_i hs
    exact placed_new hk (Bool.eq_false_iff.mpr hs)

end Split

/-! ## `add_node` -/

section AddNode

variable {t : RoutingTable} {k j : Nat} {e : NodeEntry}

theorem length_eraseLive (hk : k < t.buckets.length) (hj : j < (t.bucket k).liveNodes.length) :
    ((t.eraseLive k j).bucket k).liveNodes.length + 1 = (t.bucket k).liveNodes.length := by
  have hb := getElem?_bucket hk
  have : (t.eraseLive k j).buckets[k]? = some { t.bucket k with liveNodes := (t.bucket k).liveNodes.eraseIdx j } := by
    simp [RoutingTable.eraseLive, hb]
  rw [bucket_eq this, length_eraseIdx_of_lt hj]
  omega

theorem length_eraseReplacement (hk : k < t.buckets.length) (hj : j < (t.bucket k).replacements.length) :
    ((t.eraseReplacement k j).bucket k).replacements.length + 1 = (t.bucket k).replacements.length := by
  have hb := getElem?_bucket hk
  have : (t.eraseReplacement k j).buckets[k]? =
      some { t.bucket k with replacements := (t.bucket k).replacements.eraseIdx j } := by
    simp [RoutingTable.eraseReplacement, hb]
  rw [bucket_eq this, length_eraseIdx_of_lt hj]
  omega

theorem foldl_max_eq (l : List NodeEntry) : ∀ m, l.foldl (fun m x => max m x.failCount) m = m ∨
    ∃ x ∈ l, x.failCount = l.foldl (fun m x => max m x.failCount) m := by
  induction l with
  | nil => exact fun m => Or.inl rfl
  | cons x l ih =>
    intro m
    simp only [foldl_cons]
    rcases ih (max m x.failCount) with h | ⟨y, hy, h⟩
    · rw [h]
      rcases le_total m x.failCount with hle | hle
      · exact Or.inr ⟨x, mem_cons_self, (max_eq_right hle).symm⟩
      · exact Or.inl (max_eq_left hle)
    · exact Or.inr ⟨y, mem_cons_of_mem x hy, h⟩

theorem lt_of_stale {b : List NodeEntry} (h : stale b = some j) : j < b.length := by
  unfold stale at h
  split at h
  · rename_i hany
    obtain rfl := Option.some.inj h
    exact findIdx_lt_length.mpr (by simpa using hany)
  split at h
  · rename_i hpos
    obtain rfl := Option.some.inj h
    rcases foldl_max_eq b 0 with hzero | ⟨x, hx, heq⟩
    · exact absurd hzero hpos.ne'
    · exact findIdx_lt_length.mpr ⟨x, hx, decide_eq_true heq⟩
  · cases h

theorem Invariant.cache (h : Invariant cfg t) (ha : Admits cfg t k e) : Invariant cfg (t.cache cfg k e) := by
  have hle := (h.bucket k _ (getElem?_bucket ha.bucket)).replacements_le
  have hsetPinged : ∀ x : NodeEntry, x.setPinged.reset = x.reset := fun x => by
    unfold setPinged
    split <;> rfl
  simp only [RoutingTable.cache]
  split
  · split
    · exact h.updateReplacement ha.bucket _ hsetPinged
    · exact h
  split
  · rename_i hfull
    refine (h.eraseReplacement ha.bucket _).pushReplacement (ha.eraseReplacement _) ?_
    have hpos := cfg.bucketSize_pos
    have hlt : (if (t.bucket k).replacements.any (!·.pinged) then (t.bucket k).replacements.findIdx
      (!·.pinged) else 0) <
        (t.bucket k).replacements.length := by
      split
      · rename_i hany
        exact findIdx_lt_length.mpr (by simpa using hany)
      · omega
    have := length_eraseReplacement ha.bucket hlt
    omega
  · rename_i hroom
    exact h.pushReplacement ha (Nat.lt_of_not_le hroom)

theorem Invariant.overflow (h : Invariant cfg t) (ha : Admits cfg t k e) : Invariant cfg (t.overflow cfg k e) := by
  have hle := (h.bucket k _ (getElem?_bucket ha.bucket)).liveNodes_le
  unfold RoutingTable.overflow
  split
  · split
    · rename_i j hj
      refine (h.eraseLive ha.bucket j).pushLive (ha.eraseLive j) ?_
      have := length_eraseLive ha.bucket (lt_of_stale hj)
      omega
    · split
      · rename_i hlast
        exact (h.split hlast.1).settle (ha.split hlast.1)
      · exact h.cache ha
  · exact h.cache ha

theorem Invariant.withBucket (h : Invariant cfg t) : Invariant cfg t.withBucket := by
  unfold RoutingTable.withBucket
  split
  · rename_i hnil
    constructor
    · intro k b hb
      obtain ⟨-, rfl⟩ : k = 0 ∧ (⟨[], []⟩ : RoutingTableNode) = b := by simpa [List.getElem?_singleton] using hb
      exact ⟨zero_le _, zero_le _, by simp [RoutingTableNode.nodes]⟩
    · have := h.census
      simpa [nodes, hnil, RoutingTableNode.nodes] using this
  · exact h

theorem placed_iff (hpos : 0 < t.buckets.length) (hk : k < t.buckets.length) (id : NodeId) :
    Placed cfg t.buckets.length k id ↔ k = t.bucketIndex cfg id := by
  have := distanceExp_le cfg.id id
  unfold Placed bucketIndex
  split <;> omega

theorem Invariant.insertNode (h : Invariant cfg t) (hpos : 0 < t.buckets.length) (haddr : e.addr ∉ t.ips)
    (hforeign : e.id ≠ cfg.id ∧ e.ep ∉ cfg.routerNodes) :
    Invariant cfg (t.insertNode cfg (t.bucketIndex cfg e.id) e) := by
  have hk : t.bucketIndex cfg e.id < t.buckets.length := by
    unfold bucketIndex
    omega
  -- the checks of the bucket rule out the id everywhere, since no other bucket can have it
  have hadmits : (t.bucket (t.bucketIndex cfg e.id)).liveNodes.any (·.id = e.id) = false →
      (t.bucket (t.bucketIndex cfg e.id)).replacements.any (·.id = e.id) = false →
      Admits cfg t (t.bucketIndex cfg e.id) e := by
    intro hlive hrep
    refine ⟨hk, (placed_iff hpos hk e.id).mpr rfl, fun x hx heq => ?_, haddr, hforeign⟩
    obtain ⟨i, hi, hmem⟩ : ∃ i, i < t.buckets.length ∧ x ∈ (t.bucket i).nodes := by
      obtain ⟨b, hb, hxb⟩ := mem_flatMap.mp hx
      obtain ⟨i, hi⟩ := mem_iff_getElem?.mp hb
      exact ⟨i, (List.getElem?_eq_some_iff.mp hi).1, (bucket_eq hi).symm ▸ hxb⟩
    have hplaced := (h.bucket i _ (getElem?_bucket hi)).placed x hmem
    rw [placed_iff hpos hi, heq] at hplaced
    subst hplaced
    rcases mem_append.mp hmem with hmem | hmem
    · exact any_eq_false.mp hrep x hmem (decide_eq_true heq)
    · exact any_eq_false.mp hlive x hmem (decide_eq_true heq)
  simp only [RoutingTable.insertNode]
  split
  · split
    · exact h.updateLive hk _ fun _ => rfl
    · exact h
  rename_i hlive
  split
  · exact h
  rename_i hrep
  have ha := hadmits (Bool.eq_false_iff.mpr hlive) (Bool.eq_false_iff.mpr hrep)
  split
  · exact h
  split
  · rename_i hroom
    exact h.pushLive ha hroom
  · exact h.overflow ha

theorem findNode_some {ep : Endpoint} {x : NodeEntry} (h : t.findNode ep = some (k, x)) :
    k < t.buckets.length ∧ x ∈ (t.bucket k).nodes ∧ x.ep = ep := by
  simp only [findNode, Option.map_eq_some_iff, Prod.mk.injEq] at h
  obtain ⟨y, hy, rfl, rfl⟩ := h
  have hmem := mem_of_find?_eq_some hy
  refine ⟨?_, hmem, by simpa using List.find?_some hy⟩
  by_contra hk
  rw [bucket, List.getD, List.getElem?_eq_none (Nat.le_of_not_lt hk)] at hmem
  simp [RoutingTableNode.nodes] at hmem

theorem forget_indexOf (ips : Finset (BitVec 32)) {l : List NodeEntry} (h : ∃ x ∈ l, x.ep = e.ep) :
    forget ips l (indexOf e.ep l) = ips.erase e.addr := by
  obtain ⟨x, hx, heq⟩ := h
  have hlt : indexOf e.ep l < l.length := findIdx_lt_length.mpr ⟨x, hx, decide_eq_true heq⟩
  have hep : l[indexOf e.ep l].ep = e.ep := of_decide_eq_true (findIdx_getElem (w := hlt))
  have haddr : l[indexOf e.ep l].addr = e.addr := by
    simp only [ep, Endpoint.mk.injEq, Address.v4.injEq] at hep
    exact hep.1
  simp [forget, hlt, haddr]

theorem Invariant.dropEndpoint (h : Invariant cfg t) (hk : k < t.buckets.length)
    (hex : ∃ x ∈ (t.bucket k).nodes, x.ep = e.ep) :
    Invariant cfg (t.dropEndpoint k e.ep) ∧ e.addr ∉ (t.dropEndpoint k e.ep).ips := by
  simp only [RoutingTable.dropEndpoint]
  split
  · rename_i hany
    refine ⟨h.eraseLive hk _, ?_⟩
    simp only [RoutingTable.eraseLive]
    rw [forget_indexOf _ (by simpa using hany)]
    exact Finset.notMem_erase _ _
  rename_i hany
  refine ⟨h.eraseReplacement hk _, ?_⟩
  have hrep : ∃ x ∈ (t.bucket k).replacements, x.ep = e.ep := by
    obtain ⟨x, hx, heq⟩ := hex
    rcases mem_append.mp hx with hx | hx
    · exact ⟨x, hx, heq⟩
    · exact absurd (any_eq_true.mpr ⟨x, hx, decide_eq_true heq⟩) hany
  simp only [RoutingTable.eraseReplacement]
  rw [forget_indexOf _ hrep]
  exact Finset.notMem_erase _ _

theorem Invariant.touch (h : Invariant cfg t) (hk : k < t.buckets.length) (ep : Endpoint) :
    Invariant cfg (t.touch k ep) := by
  simp only [RoutingTable.touch]
  split
  · exact h.updateReplacement hk _ fun _ => rfl
  · exact h.updateLive hk _ fun _ => rfl

theorem Invariant.replaceEndpoint (h : Invariant cfg t) (hrestrict : cfg.restrictRoutingIps = true) (e : NodeEntry) :
    Invariant cfg (t.replaceEndpoint cfg e).1 ∧
      ((t.replaceEndpoint cfg e).2 = true → e.addr ∉ (t.replaceEndpoint cfg e).1.ips) := by
  unfold RoutingTable.replaceEndpoint
  split
  · rename_i haddr
    exact ⟨h, fun _ => haddr⟩
  split
  · exact ⟨h, fun hgo => by simp [hrestrict] at hgo⟩
  rename_i k x hfound
  have hpinged : t.findNode e.ep = some (k, x) := by
    split at hfound
    · exact hfound
    · cases hfound
  obtain ⟨hk, hx, hep⟩ := findNode_some hpinged
  split
  · exact ⟨h.touch hk e.ep, fun hgo => by cases hgo⟩
  · have hdrop := h.dropEndpoint hk ⟨x, hx, hep⟩
    exact ⟨hdrop.1, fun _ => hdrop.2⟩

theorem ips_withBucket (t : RoutingTable) : t.withBucket.ips = t.ips := by
  unfold RoutingTable.withBucket
  split <;> rfl

theorem length_withBucket_pos (t : RoutingTable) : 0 < t.withBucket.buckets.length := by
  unfold RoutingTable.withBucket
  split
  · exact zero_lt_one
  · rename_i hne
    exact length_pos_iff.mpr hne

theorem Invariant.addNode (h : Invariant cfg t) (hrestrict : cfg.restrictRoutingIps = true) (e : NodeEntry) :
    Invariant cfg (t.addNode cfg e) := by
  unfold RoutingTable.addNode
  split
  · exact h
  rename_i hrouter
  split
  · exact h
  rename_i hid
  have hrep := h.replaceEndpoint hrestrict e
  split <;> rename_i t' heq <;> rw [heq] at hrep
  · exact hrep.1
  · refine hrep.1.withBucket.insertNode (length_withBucket_pos t') ?_ ⟨hid, hrouter⟩
    rw [ips_withBucket]
    exact hrep.2 rfl

end AddNode

/-! ## `node_failed` -/

section NodeFailed

variable {t : RoutingTable} {k j : Nat}

theorem Invariant.liveFailed (h : Invariant cfg t) (hk : k < t.buckets.length)
    (hj : j < (t.bucket k).liveNodes.length) : Invariant cfg (t.liveFailed cfg k j) := by
  have htimedOut : ∀ x : NodeEntry, x.timedOut.reset = x.reset := fun x => by
    unfold timedOut
    split <;> rfl
  have hup := h.updateLive hk j htimedOut
  have hk' : k < (t.updateLive k j timedOut).buckets.length := by simpa [RoutingTable.updateLive] using hk
  simp only [RoutingTable.liveFailed]
  split
  · split
    · split
      · exact hup.eraseLive hk' j
      · exact hup
    · exact hup
  · have hle := (h.bucket k _ (getElem?_bucket hk)).liveNodes_le
    have hlen := length_eraseLive hk hj
    refine (h.eraseLive hk j).promote ?_ (by omega) _
    simpa [RoutingTable.eraseLive] using hk

theorem Invariant.nodeFailed (h : Invariant cfg t) (id : NodeId) (ep : Endpoint) :
    Invariant cfg (t.nodeFailed cfg id ep) := by
  have hw := h.withBucket
  have hk : t.withBucket.bucketIndex cfg id < t.withBucket.buckets.length := by
    have := length_withBucket_pos t
    unfold bucketIndex
    omega
  simp only [RoutingTable.nodeFailed, findBucket]
  split
  · exact h
  split
  · exact hw
  rename_i hx
  split
  · exact hw.liveFailed hk (List.getElem?_eq_some_iff.mp hx).1
  · exact hw

end NodeFailed

/-! ## Runs -/

theorem invariant_empty : Invariant cfg empty :=
  ⟨fun k b hb => by simp [empty] at hb,
    ⟨nodup_nil, nodup_nil, fun a => by simp [empty, nodes],
      fun e he => by simp [empty, nodes] at he⟩⟩

theorem Invariant.step {t : RoutingTable} (h : Invariant cfg t) (hrestrict : cfg.restrictRoutingIps = true)
    (ev : Event) : Invariant cfg (t.step cfg ev) := by
  cases ev with
  | addNode e => exact h.addNode hrestrict e
  | nodeSeen id addr port | heardAbout id addr port => exact h.addNode hrestrict _
  | nodeFailed id => exact h.nodeFailed id _

/-- Every sequence of calls keeps the invariant of the routing table. -/
theorem routing_table_invariant (cfg : TableConfig) (hrestrict : cfg.restrictRoutingIps = true) (events : List Event) :
    Invariant cfg (run (RoutingTable.step cfg) RoutingTable.empty events) :=
  inv_run_all (fun _ ev h => h.step hrestrict ev) invariant_empty events

/-- Buckets of two nodes. -/
def pairs : TableConfig := ⟨0, 2, by decide, true, 20, [⟨.v4 0x01010101, 6881⟩]⟩

/-- Three nodes split the first bucket, a fourth takes the address of the third, one fails. -/
def pairsEvents : List Event :=
  [.nodeSeen (BitVec.twoPow 160 159) 0x0a000001 1, .nodeSeen (BitVec.twoPow 160 100) 0x0b000001 1,
    .heardAbout (BitVec.twoPow 160 90) 0x01010101 6881, .nodeSeen (BitVec.twoPow 160 80) 0x0c000001 1,
    .nodeSeen (BitVec.twoPow 160 70) 0x0c000001 1, .nodeFailed (BitVec.twoPow 160 159) 0x0a000001 1]

theorem routing_table_invariant_pairs :
    (run (RoutingTable.step pairs) RoutingTable.empty pairsEvents).buckets.map (·.liveNodes.length) = [1, 2] ∧
      Invariant pairs (run (RoutingTable.step pairs) RoutingTable.empty pairsEvents) :=
  ⟨by decide +kernel, routing_table_invariant pairs rfl pairsEvents⟩

end Libtorrent.Dht.RoutingTable
