import Libtorrent.Picker.RarestFirst

/-!
# Does `pick_pieces` return a block twice?

The passes do not come to a downloading piece twice (`nodup_parts`), and not to a piece that nobody downloads, unless
`expand_piece` adds its neighbours as well: those are visited later on their own. So the blocks are distinct if the runs
of `expand_piece` have one piece (`distinct_picks`).
-/

namespace Libtorrent.Picker

def Visit.parts : Visit → List Nat
  | part dp => [dp.index]
  | whole _ => []

namespace PiecePicker

open Run List Visit PieceBlock

variable {s : PiecePicker} {args : PickArgs} {prefer : Nat} {vs : List Visit} {b : PieceBlock}

/-! ## Blocks of different visits -/

theorem of_inj {p i j : Nat} (hi : i < 2 ^ 13) (hj : j < 2 ^ 13) (h : of p i = of p j) : i = j := by
  rw [← blockIndex_of hi, h, blockIndex_of hj]

theorem nodup_blocksOf (C : Consistent s) (k : Nat) : (s.blocksOf k).Nodup := by
  refine List.Nodup.map_on (fun i hi j hj h => ?_) nodup_range
  have := C.blocks_le k
  rw [mem_range] at hi hj
  exact of_inj (by omega) (by omega) h

theorem nodup_offered (C : Consistent s) (hbits : args.pieces.length = s.numPieces) {v : Visit}
    (hv : s.Due args prefer v) : (s.offered v).Nodup := by
  cases v with
  | part dp =>
    refine List.Nodup.map_on (fun i hi j hj h => ?_) (nodup_range.filter _)
    have := C.blocks_le dp.index
    simp only [freeBlocks, mem_filter, mem_range] at hi hj
    exact of_inj (by omega) (by omega) h
  | whole =>
    refine nodup_flatMap.mpr ⟨fun k _ => nodup_blocksOf C k, ?_⟩
    refine hv.2.1.imp_of_mem fun {k k'} hk hk' hne b hb hb' => ?_
    have hlt := fun k hk => lt_of_isPieceFree hbits (canPick_iff.mp (hv.1 k hk)).1
    rw [mem_blocksOf C (hlt k hk)] at hb
    rw [mem_blocksOf C (hlt k' hk')] at hb'
    exact hne (hb.1.symm.trans hb'.1)

theorem nodup_flatMap_offered (C : Consistent s) (hbits : args.pieces.length = s.numPieces) : ∀ {vs : List Visit},
    (∀ v ∈ vs, s.Due args prefer v) → (vs.flatMap parts).Nodup → (vs.flatMap fresh).Nodup → (vs.flatMap s.offered).Nodup
  | [], _, _, _ => nodup_nil
  | v :: vs, hdue, hparts, hfresh => by
    rw [flatMap_cons, nodup_append'] at hparts hfresh ⊢
    have hv := hdue v mem_cons_self
    have hvs := fun w hw => hdue w (mem_cons_of_mem v hw)
    refine ⟨nodup_offered C hbits hv, nodup_flatMap_offered C hbits hvs hparts.2.1 hfresh.2.1, fun b hb hb' => ?_⟩
    obtain ⟨w, hw, hb'⟩ := mem_flatMap.mp hb'
    have h1 := (pickable_of_offered C hbits hv hb).2
    have h2 := (pickable_of_offered C hbits (hvs w hw) hb').2
    -- a downloading piece cannot be taken whole
    have hmixed : ∀ {dp ks}, s.Due args prefer (.part dp) → s.Due args prefer (.whole ks) → dp.index ∉ ks := by
      intro dp ks hp hk hmem
      have := (canPick_iff.mp (hk.1 _ hmem)).2
      rw [downloading_of_part C hp.1] at this
      cases this
    cases v with
    | part =>
      rw [mem_singleton.mp h1] at h2
      cases w with
      | part => exact hparts.2.2 (mem_singleton_self _) (mem_flatMap.mpr ⟨_, hw, h2⟩)
      | whole => exact hmixed hv (hvs _ hw) h2
    | whole =>
      cases w with
      | part =>
        rw [mem_singleton.mp h2] at h1
        exact hmixed (hvs _ hw) hv h1
      | whole => exact hfresh.2.2 h1 (mem_flatMap.mpr ⟨_, hw, h2⟩)

/-! ## The pieces of a pass -/

section Pass

variable {ignore : List Nat} (g : Visit → List Nat)

/-- The pieces that a pass over a list comes to, as far as `g` shows them, are pieces of the list. -/
theorem eachVisits_sublist (hg : ∀ p v, s.isPieceFree p args.pieces = true →
    s.visitOf args prefer ignore p = some v → (g v).Sublist [p]) :
    ∀ (order : List Nat) (a : Picks), ((s.eachVisits args prefer ignore order a).flatMap g).Sublist
      (order.filter (· ∉ ignore))
  | [], _ => nil_sublist _
  | p :: rest, a => by
    rw [eachVisits]
    split
    · refine (eachVisits_sublist hg rest a).trans ?_
      rw [filter_cons]
      split
      · exact sublist_cons_self _ _
      · exact List.Sublist.refl _
    rename_i hfree
    rw [flatMap_append]
    have hrest : ∀ a' : Picks, ((if a'.numBlocks ≤ 0 then [] else
        s.eachVisits args prefer ignore rest a').flatMap g).Sublist (rest.filter (· ∉ ignore)) := by
      intro a'
      split
      · exact nil_sublist _
      · exact eachVisits_sublist hg rest a'
    by_cases hp : p ∈ ignore
    · have hv : s.visitOf args prefer ignore p = none := if_pos hp
      rw [hv, filter_cons_of_neg (by simpa using hp)]
      exact hrest _
    rw [filter_cons_of_pos (by simpa using hp)]
    have hfirst : ((s.visitOf args prefer ignore p).toList.flatMap g).Sublist [p] := by
      cases hv : s.visitOf args prefer ignore p with
      | none => exact nil_sublist _
      | some v => simpa using hg p v (by simpa using hfree) hv
    exact hfirst.append (hrest _)

variable (args prefer) in
theorem partialVisits_parts : ∀ (dps : List DownloadingPiece) (a : Picks),
    ((s.partialVisits args prefer dps a).flatMap parts).Sublist (dps.map DownloadingPiece.index)
  | [], _ => nil_sublist _
  | dp :: rest, a => by
    rw [partialVisits, map_cons]
    split
    · exact (partialVisits_parts rest a).trans (sublist_cons_self _ _)
    split
    · exact (partialVisits_parts rest a).trans (sublist_cons_self _ _)
    rw [flatMap_cons]
    refine List.Sublist.cons_cons dp.index ?_
    split
    · exact nil_sublist _
    · exact partialVisits_parts rest _

theorem partialVisits_fresh : ∀ (dps : List DownloadingPiece) (a : Picks),
    (s.partialVisits args prefer dps a).flatMap fresh = []
  | [], _ => rfl
  | dp :: rest, a => by
    rw [partialVisits]
    split
    · exact partialVisits_fresh rest a
    split
    · exact partialVisits_fresh rest a
    rw [flatMap_cons]
    split
    · rfl
    · exact partialVisits_fresh rest _

theorem randomVisits_parts (start : Nat) : ∀ (fuel piece : Nat) (a : Picks),
    (s.randomVisits args prefer start fuel piece a).flatMap parts = []
  | 0, _, _ => rfl
  | fuel + 1, piece, a => by
    rw [randomVisits]
    split
    · rfl
    cases s.nextPickable args start (s.numPieces + 1) piece with
    | none => rfl
    | some q =>
      dsimp only
      generalize (if (s.expandPiece q prefer args.pieces).2 = s.numPieces then 0
        else (s.expandPiece q prefer args.pieces).2) = next
      rw [flatMap_cons]
      split
      · rfl
      · exact randomVisits_parts start fuel _ _

end Pass

variable {ignore : List Nat} {p : Nat} {v : Visit}

theorem visitOf_parts (h : s.visitOf args prefer ignore p = some v) :
    v.parts.Sublist [p] ∧ (args.options.prioritizePartials = true → v.parts = []) := by
  unfold visitOf at h
  split at h
  · cases h
  split at h
  · split at h
    · cases h
    · rename_i hno
      obtain ⟨i, hi, rfl⟩ := Option.map_eq_some_iff.mp h
      refine ⟨by rw [parts, (findDlPiece_index hi).2], fun hpp => ?_⟩
      simp [hpp] at hno
  · cases h
    exact ⟨nil_sublist _, fun _ => rfl⟩

theorem visitOf_fresh (hlone : s.Lone args.pieces prefer) (hfree : s.isPieceFree p args.pieces = true)
    (h : s.visitOf args prefer ignore p = some v) : v.fresh.Sublist [p] := by
  rw [← visitOf_pieces hlone hfree h]
  cases v with
  | part => exact nil_sublist _
  | whole => exact List.Sublist.refl _

theorem eachVisits_noParts (hpp : args.options.prioritizePartials = true) (ignore : List Nat) :
    ∀ (order : List Nat) (a : Picks), (s.eachVisits args prefer ignore order a).flatMap parts = []
  | [], _ => rfl
  | p :: rest, a => by
    rw [eachVisits]
    split
    · exact eachVisits_noParts hpp ignore rest a
    rw [flatMap_append]
    have hfirst : (s.visitOf args prefer ignore p).toList.flatMap parts = [] := by
      cases hv : s.visitOf args prefer ignore p with
      | none => rfl
      | some => simpa using (visitOf_parts hv).2 hpp
    rw [hfirst, nil_append]
    split
    · rfl
    · exact eachVisits_noParts hpp ignore rest _

/-- The main pass comes to no piece twice, as far as `g` shows them, and not to suggested ones. -/
theorem mainVisits_sublist (C : Consistent s) (g : Visit → List Nat)
    (hindex : args.options.sequential = false → args.options.rarestFirst = true →
      Indexed s ∧ (args.options.reverse = true → prioFactor ∣ s.priorityBoundries.length))
    (hg : ∀ p v, s.isPieceFree p args.pieces = true →
      s.visitOf args prefer args.suggestedPieces p = some v → (g v).Sublist [p])
    (hrandom : ∀ start < s.numPieces, ∀ fuel a, ((s.randomVisits args prefer start fuel start a).flatMap g).Sublist
      ((s.around start).filter (· ∉ args.suggestedPieces))) (rnd : Nat) (a : Picks) : ∃ L : List Nat, L.Nodup ∧
      ((s.mainVisits args prefer rnd a).flatMap g).Sublist (L.filter (· ∉ args.suggestedPieces)) := by
  unfold mainVisits
  split
  · rename_i hlist
    refine ⟨s.order args, nodup_order fun hseq => hindex hseq (by simpa [hseq] using hlist), ?_⟩
    exact eachVisits_sublist g hg _ _
  · have hlt := Nat.mod_lt rnd C.some_piece
    obtain ⟨-, -, -, hnodup, -⟩ := around_spec hlt
    exact ⟨s.around (rnd % s.numPieces), hnodup, hrandom _ hlt _ _⟩

theorem nodup_suggested {A B L suggested : List Nat} (hsug : suggested.Nodup) (hA : A.Sublist suggested) (hL : L.Nodup)
    (hB : B.Sublist (L.filter (· ∉ suggested))) : (A ++ B).Nodup := by
  rw [nodup_append']
  refine ⟨hsug.sublist hA, (hL.filter _).sublist hB, fun x hx hx' => ?_⟩
  have := (mem_filter.mp (hB.subset hx')).2
  simp only [decide_eq_true_eq] at this
  exact this (hA.subset hx)

theorem suggestedVisits_sublist (g : Visit → List Nat)
    (hg : ∀ p v, s.isPieceFree p args.pieces = true → s.visitOf args prefer [] p = some v → (g v).Sublist [p])
    (a : Picks) :
    ((s.suggestedVisits args prefer a).flatMap g).Sublist args.suggestedPieces := by
  unfold suggestedVisits
  split
  · exact nil_sublist _
  · have := eachVisits_sublist g hg args.suggestedPieces a
    simpa using this

/-! ## All visits -/

section Walk

variable {shuffles : Nat → Nat} {rnd rnd' : Nat}

section

variable (C : Consistent s) (hsug : args.suggestedPieces.Nodup)
include C hsug

variable (shuffles rnd prefer) in
/-- The pieces of the suggested and of the main pass are distinct, as far as `g` shows them. -/
theorem nodup_laterVisits (g : Visit → List Nat)
    (hg : ∀ t, Refiled s t → ∀ ignore p v, t.isPieceFree p args.pieces = true →
      t.visitOf args prefer ignore p = some v → (g v).Sublist [p])
    (hrandom : ∀ t, Refiled s t → ∀ start < t.numPieces, ∀ fuel a,
      ((t.randomVisits args prefer start fuel start a).flatMap g).Sublist
        ((t.around start).filter (· ∉ args.suggestedPieces))) (a a' : Picks) :
    ((s.suggestedVisits args prefer a).flatMap g ++
      (if a'.numBlocks ≤ 0 then [] else (s.prepared args shuffles).mainVisits args prefer rnd a').flatMap g).Nodup := by
  obtain ⟨hsound, R⟩ := prepared_refiled args C.orderly.1 shuffles
  obtain ⟨L, hL, hM⟩ := mainVisits_sublist (C.of_refiled R hsound) g
    (fun h1 h2 => prepared_indexed args C.orderly.1 shuffles h1 h2) (hg _ R _) (hrandom _ R) rnd a'
  refine nodup_suggested hsug (suggestedVisits_sublist g (hg s (.refl s) _) a) hL ?_
  split
  · exact nil_sublist _
  · exact hM

theorem nodup_parts : ((s.allVisits args [] shuffles rnd).flatMap parts).Nodup := by
  have hsug' : (s.effectiveArgs args).suggestedPieces.Nodup := by rwa [(s.effectiveArgs_pieces args).2]
  have hlater := nodup_laterVisits (s.preferOf args) shuffles rnd C hsug' parts
    (fun t _ ignore p v _ hv => (visitOf_parts hv).1) (fun t _ start _ fuel a => by
      rw [randomVisits_parts]
      exact nil_sublist _)
  rw [allVisits, firstVisits]
  simp only [flatMap_append]
  by_cases hpp : (s.effectiveArgs args).options.prioritizePartials = true
  · have hS : ∀ a, (s.suggestedVisits (s.effectiveArgs args) (s.preferOf args) a).flatMap parts = [] := by
      intro a
      unfold suggestedVisits
      split
      · rfl
      · exact eachVisits_noParts hpp _ _ _
    have hM : ∀ (t : PiecePicker) a, (t.mainVisits (s.effectiveArgs args) (s.preferOf args) rnd a).flatMap
        parts = [] := by
      intro t a
      unfold mainVisits
      split
      · exact eachVisits_noParts hpp _ _ _
      · exact randomVisits_parts _ _ _ _
    have hP := partialVisits_parts (s := s) (s.effectiveArgs args) (s.preferOf args) s.downloads
      (picksStart args [])
    have hdl : (s.downloads.map DownloadingPiece.index).Nodup := C.ledger.slabbed.sorted.imp Nat.ne_of_lt
    rw [if_pos hpp, hS, append_nil]
    split
    · rw [flatMap_nil, append_nil]
      exact hdl.sublist hP
    · rw [hM, append_nil]
      exact hdl.sublist hP
  · rw [if_neg hpp, flatMap_nil, nil_append]
    exact hlater _ _

theorem nodup_fresh (hlone : s.Lone args.pieces (s.preferOf args)) :
    ((s.allVisits args [] shuffles rnd).flatMap fresh).Nodup := by
  have hsug' : (s.effectiveArgs args).suggestedPieces.Nodup := by rwa [(s.effectiveArgs_pieces args).2]
  have hlone' : ∀ t, Refiled s t → t.Lone (s.effectiveArgs args).pieces (s.preferOf args) := by
    intro t R
    simp only [Lone, R.canPick, (s.effectiveArgs_pieces args).1]
    exact hlone
  have hlater := nodup_laterVisits (s.preferOf args) shuffles rnd C hsug' fresh
    (fun t R ignore p v hfree hv => visitOf_fresh (hlone' t R) hfree hv) (fun t R start hlt fuel a => by
      obtain ⟨l, hl, hfollows, -, -⟩ := around_spec hlt
      have hlen : l.length ≤ t.numPieces := by
        have := congrArg List.length hl
        simp only [around, length_append, length_range', length_range, length_cons] at this
        omega
      rw [hl]
      exact randomVisits_sublist (hlone' t R) fuel start l a hlen hfollows)
  rw [allVisits, firstVisits]
  simp only [flatMap_append]
  have hP : (if (s.effectiveArgs args).options.prioritizePartials then
      s.partialVisits (s.effectiveArgs args) (s.preferOf args) s.downloads (picksStart args []) else []).flatMap
      fresh = [] := by
    split
    · exact partialVisits_fresh _ _
    · rfl
  rw [hP, nil_append]
  exact hlater _ _

end

theorem ignoreWholePieces_effectiveArgs (s : PiecePicker) (args : PickArgs) :
    (s.effectiveArgs args).options.ignoreWholePieces = args.options.ignoreWholePieces := by
  unfold effectiveArgs
  split <;> rfl

/-- Three pieces of one block each; a peer that has them all asks for ten blocks, in whole pieces two at a time. -/
def wholeArgs : PickArgs where
  pieces := [true, true, true]
  numBlocks := 10
  preferWholePieces := 2
  peer := some 1
  speed := .fast
  options := { sequential := true }
  suggestedPieces := []
  numPeers := 1

end Walk

end PiecePicker

end Libtorrent.Picker
