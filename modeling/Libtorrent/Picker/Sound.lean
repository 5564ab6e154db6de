import Libtorrent.Lib.Run
import Libtorrent.Picker.Pick
import Libtorrent.Picker.Refile

/-!
# Runs of the piece picker

`step` applies one call; the outcomes of `random()` are part of the call. `Pre` is the precondition that the source
asserts at the start of the call (the assertions about `policy::peer` objects, which the picker does not own, are left
out).
-/

namespace Libtorrent.Picker

/-- A call of a member function of `piece_picker`. -/
inductive Op where
  | init (blocksPerPiece blocksInLastPiece totalNumPieces : Nat)
  | incRefcount (index rnd : Nat)
  | decRefcount (index rnd : Nat)
  | incRefcountBits (bitmask : Bitfield)
  | decRefcountBits (bitmask : Bitfield)
  | incRefcountAll
  | decRefcountAll
  | weHave (index : Nat)
  | weDontHave (index rnd : Nat)
  | setPiecePriority (index newPiecePriority rnd : Nat)
  | markAsDownloading (block : PieceBlock) (peer : PeerPtr) (state : PieceState) (rnd : Nat)
  | markAsWriting (block : PieceBlock) (peer : PeerPtr) (rnd : Nat)
  | markAsFinished (block : PieceBlock) (peer : PeerPtr) (rnd : Nat)
  | abortDownload (block : PieceBlock) (peer : PeerPtr) (rnd : Nat)
  | writeFailed (block : PieceBlock) (rnd : Nat)
  | restorePiece (index rnd : Nat)
  | clearPeer (peer : PeerPtr)
  | pickPieces (args : PickArgs) (interesting : List PieceBlock) (shuffles : Nat → Nat) (rnd rnd' : Nat)

namespace PiecePicker

variable (s : PiecePicker)

def step : Op → PiecePicker
  | .init b l n => s.init b l n
  | .incRefcount index rnd => s.incRefcount index rnd
  | .decRefcount index rnd => s.decRefcount index rnd
  | .incRefcountBits bits => s.incRefcountBits bits
  | .decRefcountBits bits => s.decRefcountBits bits
  | .incRefcountAll => s.incRefcountAll
  | .decRefcountAll => s.decRefcountAll
  | .weHave index => s.weHave index
  | .weDontHave index rnd => s.weDontHave index rnd
  | .setPiecePriority index prio rnd => (s.setPiecePriority index prio rnd).1
  | .markAsDownloading block peer state rnd => (s.markAsDownloading block peer state rnd).1
  | .markAsWriting block peer rnd => (s.markAsWriting block peer rnd).1
  | .markAsFinished block peer rnd => s.markAsFinished block peer rnd
  | .abortDownload block peer rnd => s.abortDownload block peer rnd
  | .writeFailed block rnd => s.writeFailed block rnd
  | .restorePiece index rnd => s.restorePiece index rnd
  | .clearPeer peer => s.clearPeer peer
  | .pickPieces args interesting shuffles rnd rnd' => (s.pickPieces args interesting shuffles rnd rnd').1

def InRange (block : PieceBlock) : Prop :=
  (block.pieceIndex : Nat) < s.numPieces ∧ (block.blockIndex : Nat) < s.blocksInPiece block.pieceIndex

instance (s : PiecePicker) (block : PieceBlock) : Decidable (s.InRange block) := inferInstanceAs (Decidable (_ ∧ _))

def infoOf (block : PieceBlock) : BlockInfo :=
  match s.findDlPiece block.pieceIndex with
  | some i => s.block i block.blockIndex
  | none => default

def AllFinished (index : Nat) : Prop :=
  ∀ i ∈ s.findDlPiece index, ∀ j < s.blocksInPiece index,
    (s.block i j).state = .finished ∧ (s.block i j).numPeers = 0

instance (s : PiecePicker) (index : Nat) : Decidable (s.AllFinished index) := by
  unfold AllFinished
  infer_instance

/-- The preconditions that the calls assert; and `m_seeds` is an `int`. -/
def Pre : Op → Prop
  | .init b l n => 0 < b ∧ l ≤ b ∧ 0 < n ∧ n < weHaveIndex
  | .incRefcount index _ => index < s.numPieces
  | .decRefcount index _ => index < s.numPieces ∧ 0 < (s.pos index).peerCount
  | .incRefcountBits bits => bits.length = s.numPieces
  | .decRefcountBits bits => bits.length ≤ s.numPieces
  | .incRefcountAll => s.seeds + 1 < 2 ^ 31
  | .decRefcountAll => 0 < s.seeds ∨ ∀ i < s.numPieces, 0 < (s.pos i).peerCount
  | .weHave index => index < s.numPieces
  | .weDontHave index _ => index < s.numPieces ∧ (s.pos index).downloading = false
  | .setPiecePriority index prio _ => index < s.numPieces ∧ prio ≤ 7
  | .markAsDownloading block _ state _ =>
    s.InRange block ∧ state ≠ .none ∧ (s.pos block.pieceIndex).have = false
  | .markAsWriting block _ _ => s.InRange block
  | .markAsFinished block peer _ =>
    s.InRange block ∧
      if (s.pos block.pieceIndex).downloading then
        (s.infoOf block).state = .finished ∨
          (s.infoOf block).numPeers = 0 ∧
            ((s.infoOf block).state = .writing ∨ (s.infoOf block).state = .none ∧ peer = .none)
      else (s.pos block.pieceIndex).have ∨ peer = .none
  | .abortDownload block _ _ =>
    s.InRange block ∧ ((s.pos block.pieceIndex).downloading → (s.infoOf block).state ≠ .none)
  | .writeFailed block _ =>
    s.InRange block ∧ s.findDlPiece block.pieceIndex ≠ none ∧ (s.infoOf block).state = .writing
  | .restorePiece index _ => index < s.numPieces ∧ (s.pos index).downloading ∧ s.AllFinished index
  | .clearPeer _ => True
  | .pickPieces args _ _ _ _ =>
    0 < args.numBlocks ∧ args.pieces.length = s.numPieces ∧ 0 < s.numPieces ∧
      ¬ (args.options.rarestFirst ∧ args.options.sequential) ∧ ∀ p ∈ args.suggestedPieces, p < s.numPieces

instance (s : PiecePicker) (op : Op) : Decidable (s.Pre op) := by
  cases op <;> (dsimp only [Pre]; infer_instance)

/-!
## The rarest-first index along runs

Every operation keeps `Sound`: while `m_dirty` is not set, the index files every piece under its priority.
`Refiled s s'` says that `s'` is `s` with the index brought up to date: what a later module proves about anything but
the index carries over from `s` to `s'`.
-/

open Run List Nat PiecePos

variable {s} {s' s₀ : PiecePicker} {p q rnd : Nat}

/-- Only the index and `m_dirty` differ, and the pieces we have are the same. -/
def Refiled (s s' : PiecePicker) : Prop :=
  (∃ ps bs m d, s' = { s with pieces := ps, priorityBoundries := bs, pieceMap := m, dirty := d } ∧
    m.map PiecePos.tag = s.pieceMap.map PiecePos.tag) ∧ SameHave s s'

namespace Refiled

theorem of_frame (F : Frame s s') (h : SameHave s s') : Refiled s s' := by
  obtain ⟨ht, ps, bs, m, rfl⟩ := F
  exact ⟨⟨ps, bs, m, s.dirty, rfl, ht⟩, h⟩

theorem refl (s : PiecePicker) : Refiled s s := of_frame (Frame.refl s) fun _ => rfl

theorem trans {s'' : PiecePicker} (h1 : Refiled s s') (h2 : Refiled s' s'') : Refiled s s'' := by
  obtain ⟨⟨ps, bs, m, d, rfl, ht1⟩, hh1⟩ := h1
  obtain ⟨⟨ps', bs', m', d', rfl, ht2⟩, hh2⟩ := h2
  exact ⟨⟨ps', bs', m', d', rfl, ht2.trans ht1⟩, hh1.trans hh2⟩

section

variable (h : Refiled s s')
include h

theorem symm : Refiled s' s := by
  obtain ⟨⟨ps, bs, m, d, rfl, ht⟩, hh⟩ := h
  exact ⟨⟨s.pieces, s.priorityBoundries, s.pieceMap, s.dirty, rfl, ht.symm⟩, fun i => (hh i).symm⟩

/-- The entries of `m_piece_map` differ in the back pointers at most, as far as they do not say `have()`. -/
theorem pos (i : Nat) : (s'.pos i).tag = (s.pos i).tag ∧ (s'.pos i).have = (s.pos i).have := by
  refine ⟨?_, h.2 i⟩
  obtain ⟨⟨ps, bs, m, d, rfl, ht⟩, -⟩ := h
  have := congrArg (fun l => l.getD i (PiecePos.tag default)) ht
  simp only [getD_map] at this
  exact this

theorem numPieces : s'.numPieces = s.numPieces := by
  obtain ⟨⟨ps, bs, m, d, rfl, ht⟩, -⟩ := h
  have := congrArg List.length ht
  simpa [PiecePicker.numPieces] using this

variable {f : PiecePos → PiecePos}

theorem modifyPos (i : Nat)
    (hf : ∀ x y, x.tag = y.tag → x.have = y.have → (f x).tag = (f y).tag ∧ (f x).have = (f y).have) :
    Refiled (s.modifyPos i f) (s'.modifyPos i f) := by
  have hnum := h.numPieces
  have hpos := h.pos
  have hstep : ∀ j, ((s'.modifyPos i f).pos j).tag = ((s.modifyPos i f).pos j).tag ∧
      ((s'.modifyPos i f).pos j).have = ((s.modifyPos i f).pos j).have := by
    intro j
    rw [pos_modifyPos, pos_modifyPos, hnum]
    split
    · exact hf _ _ (hpos j).1 (hpos j).2
    · exact hpos j
  refine ⟨?_, fun j => (hstep j).2⟩
  obtain ⟨⟨ps, bs, m, d, rfl, ht⟩, -⟩ := h
  refine ⟨ps, bs, _, d, rfl, ?_⟩
  apply ext_getElem?
  intro j
  have hlen : m.length = s.pieceMap.length := hnum
  by_cases hj : j < s.pieceMap.length
  · have := (hstep j).1
    simp only [PiecePicker.modifyPos, PiecePicker.pos, getD_eq_getElem?_getD, Vec.update] at this
    simp only [PiecePicker.modifyPos, Vec.update, List.getElem?_map]
    rw [List.getElem?_eq_getElem (by simpa [hlen] using hj), List.getElem?_eq_getElem (by simpa using hj)] at this ⊢
    simpa using this
  · simp only [PiecePicker.modifyPos, Vec.update, List.getElem?_map]
    rw [List.getElem?_eq_none (by simp; omega), List.getElem?_eq_none (by simp; omega)]

theorem modifyBlock (i j : Nat) (f : BlockInfo → BlockInfo) : Refiled (s.modifyBlock i j f) (s'.modifyBlock i j f) := by
  obtain ⟨⟨ps, bs, m, d, rfl, ht⟩, hh⟩ := h
  exact ⟨⟨ps, bs, m, d, rfl, ht⟩, hh⟩

theorem modifyDl (i : Nat) (f : DownloadingPiece → DownloadingPiece) : Refiled (s.modifyDl i f) (s'.modifyDl i f) := by
  obtain ⟨⟨ps, bs, m, d, rfl, ht⟩, hh⟩ := h
  exact ⟨⟨ps, bs, m, d, rfl, ht⟩, hh⟩

theorem addDownloadPiece (p : Nat) :
    Refiled (s.addDownloadPiece p).1 (s'.addDownloadPiece p).1 ∧
      (s'.addDownloadPiece p).2 = (s.addDownloadPiece p).2 := by
  obtain ⟨⟨ps, bs, m, d, rfl, ht⟩, hh⟩ := h
  exact ⟨⟨⟨ps, bs, m, d, rfl, ht⟩, hh⟩, rfl⟩

theorem updateFull (i : Nat) : Refiled (s.updateFull i) (s'.updateFull i) := by
  have hnum := h.numPieces
  have hdl : s'.dl i = s.dl i := by
    obtain ⟨⟨ps, bs, m, d, rfl, -⟩, -⟩ := h
    rfl
  have hblocks : s'.blocksInPiece (s.dl i).index = s.blocksInPiece (s.dl i).index := by
    unfold blocksInPiece
    rw [hnum]
    obtain ⟨⟨ps, bs, m, d, rfl, -⟩, -⟩ := h
    rfl
  unfold PiecePicker.updateFull
  dsimp only
  rw [hdl, hblocks]
  refine h.modifyPos _ fun x y ht hh => ⟨?_, hh⟩
  simp only [PiecePos.tag, PiecePos.mk.injEq] at ht ⊢
  exact ⟨ht.1, ht.2.1, trivial, ht.2.2.2.1, trivial⟩

theorem openRequested (p j : Nat) (peer : PeerPtr) (state : PieceState) :
    Refiled (s.openRequested p j peer state) (s'.openRequested p j peer state) := by
  obtain ⟨h1, h2⟩ := h.addDownloadPiece p
  unfold PiecePicker.openRequested
  dsimp only
  rw [h2]
  exact ((h1.modifyBlock _ _ _).modifyDl _ _).updateFull _

theorem openWriting (p j : Nat) (peer : PeerPtr) : Refiled (s.openWriting p j peer) (s'.openWriting p j peer) := by
  obtain ⟨h1, h2⟩ := h.addDownloadPiece p
  unfold PiecePicker.openWriting
  dsimp only
  rw [h2]
  exact ((h1.modifyBlock _ _ _).modifyDl _ _).updateFull _

theorem openFinished (p j : Nat) (peer : PeerPtr) : Refiled (s.openFinished p j peer) (s'.openFinished p j peer) := by
  obtain ⟨h1, h2⟩ := h.addDownloadPiece p
  unfold PiecePicker.openFinished
  dsimp only
  rw [h2]
  exact (h1.modifyBlock _ _ _).modifyDl _ _

end

end Refiled

/-- The index is brought up to date and files every piece under its priority. -/
abbrev Reindexed (s s' : PiecePicker) : Prop := Sound s' ∧ Refiled s s'

theorem Sound.refl (h : Sound s) : Reindexed s s := ⟨h, Refiled.refl s⟩

theorem Sound.of_priority (h : Sound s₀) (T : Touched s₀ s p) (hpr : s.priority p = s₀.priority p)
    (hi : s₀.priority p = none ∨ (s.pos p).index = (s₀.pos p).index) : Sound s where
  size := by rw [T.num]; exact h.size
  indexed := T.indexed h hpr hi

/-! ## Availability -/

theorem index_modifyPos (s : PiecePicker) (p : Nat) (hf : ∀ x, (f x).index = x.index) (i : Nat) :
    ((s.modifyPos p f).pos i).index = (s.pos i).index := by
  rw [pos_modifyPos]
  split
  · exact hf _
  · rfl

theorem incRefcount_sound (h : Sound s) : Reindexed (s.modifyPos p incPeerCount) (s.incRefcount p rnd) := by
  have hr := (Touched.modifyPos s p incPeerCount).refile rnd h
    (index_modifyPos s p (fun x => by simp only [incPeerCount]) p)
  exact ⟨hr.1, Refiled.of_frame (frame_refile _ _ _ _) hr.2⟩

variable (x : PiecePos)

@[simp] theorem filtered_decPeerCount : x.decPeerCount.filtered = x.filtered := rfl

@[simp] theorem have_decPeerCount : x.decPeerCount.have = x.have := rfl

/-- A piece that has a peer and no priority is filtered or one we have; a lost peer does not make it pickable. -/
theorem priority_decPeerCount {x : PiecePos} {seeds : Nat} (hx : x.priority seeds = none) (hc : 0 < x.peerCount) :
    x.decPeerCount.priority seeds = none := by
  have hcond : (x.filtered || x.have) = true := by
    unfold PiecePos.priority at hx
    split at hx
    · rename_i hcond
      have hne : (x.peerCount + seeds == 0) = false := by simp; omega
      rwa [hne, Bool.or_false] at hcond
    split at hx
    · cases hx
    · dsimp only at hx
      split at hx <;> cases hx
  simp only [PiecePos.priority, filtered_decPeerCount, have_decPeerCount, hcond, Bool.true_or, if_true]

theorem decRefcount_sound (h : Sound s) (hp : p < s.numPieces) (hc : 0 < (s.pos p).peerCount) :
    Reindexed (s.modifyPos p decPeerCount) (s.decRefcount p rnd) := by
  have hr := (Touched.modifyPos s p decPeerCount).updateFrom rnd h
    (index_modifyPos s p (fun x => by simp only [decPeerCount]) p) (fun hnone => by
      unfold PiecePicker.priority
      rw [pos_modifyPos, if_pos ⟨rfl, hp⟩]
      exact priority_decPeerCount hnone hc)
  exact ⟨hr.1, Refiled.of_frame (frame_updateFrom _ _ _ _) hr.2⟩

theorem modifyBits_of_not_any {bits : Bitfield} (f : PiecePos → PiecePos) (h : bits.any id = false) :
    s.modifyBits bits f = s := by
  have hbit : ∀ i, bits.getD i false = false := by
    intro i
    rw [getD_eq_getElem?_getD]
    cases hb : bits[i]? with
    | none => rfl
    | some b =>
      have hmem := mem_of_getElem? hb
      rw [any_eq_false] at h
      simpa using h b hmem
  have hmap : s.pieceMap.mapIdx (fun i x => if bits.getD i false then f x else x) = s.pieceMap := by
    apply ext_getElem?
    intro i
    rw [List.getElem?_mapIdx, hbit i]
    simp
  unfold modifyBits
  rw [hmap, h, Bool.or_false]

section

variable (s) (bits : Bitfield) (f : PiecePos → PiecePos)
include bits f

theorem numPieces_modifyBits : (s.modifyBits bits f).numPieces = s.numPieces := by simp [modifyBits, numPieces]

theorem pos_modifyBits (i : Nat) :
    (s.modifyBits bits f).pos i = if i < s.numPieces ∧ bits.getD i false = true then f (s.pos i) else s.pos i := by
  simp only [pos, modifyBits, Vec.getD_mapIdx]
  by_cases hi : i < s.pieceMap.length <;> simp [hi, numPieces]

end

theorem pos_mapPos (s : PiecePicker) (f : PiecePos → PiecePos) (i : Nat) :
    ({ s with pieceMap := s.pieceMap.map f }.pos i) = if i < s.numPieces then f (s.pos i) else s.pos i :=
  Vec.getD_map ..

theorem modifyBits_sound (h : Sound s) (bits : Bitfield) (f : PiecePos → PiecePos) : Sound (s.modifyBits bits f) where
  size := by rw [numPieces_modifyBits]; exact h.size
  indexed hd := by
    have hany : bits.any id = false := by
      simp only [modifyBits, Bool.or_eq_false_iff] at hd
      exact hd.2
    rw [modifyBits_of_not_any f hany] at hd ⊢
    exact h.indexed hd

theorem priority_seeds {a b : Nat} (ha : 0 < a) (hb : 0 < b) : x.priority a = x.priority b := by
  have h1 : (x.peerCount + a == 0) = false := by simp; omega
  have h2 : (x.peerCount + b == 0) = false := by simp; omega
  simp only [PiecePos.priority, h1, h2]

theorem seeds_sound (h : Sound s) {a : Nat} {d : Bool} (ha : 0 < a ∧ 0 < s.seeds ∨ d = true) :
    Sound { s with seeds := a, dirty := s.dirty || d } where
  size := h.size
  indexed hd := by
    simp only [Bool.or_eq_false_iff] at hd
    obtain ⟨ha, hs⟩ := ha.resolve_right (by simp [hd.2])
    have I := h.indexed hd.1
    have hpr : ({ s with seeds := a, dirty := s.dirty || d } : PiecePicker).priority = s.priority :=
      funext fun i => priority_seeds (s.pos i) ha hs
    unfold Indexed
    rw [hpr]
    exact ⟨I.layout, I.back, I.closed, I.range⟩

theorem incRefcountAll_sound (h : Sound s) : Sound s.incRefcountAll :=
  seeds_sound h (by
    by_cases hs : s.seeds = 0
    · right; simp [hs]
    · left; omega)

theorem decRefcountAll_sound (h : Sound s) : Sound s.decRefcountAll := by
  unfold decRefcountAll
  split
  · refine seeds_sound h ?_
    by_cases hs : s.seeds = 1
    · right; simp [hs]
    · left; omega
  · exact ⟨by simpa [numPieces] using h.size, fun hd => by cases hd⟩

/-! ## Possession and priorities -/

theorem closeCursors_eq (s : PiecePicker) (p : Nat) :
    ∃ c r, s.closeCursors p = { s with cursor := c, reverseCursor := r } := by
  unfold closeCursors
  split
  · exact ⟨_, _, rfl⟩
  split
  · exact ⟨_, _, rfl⟩
  · split
    · exact ⟨_, _, rfl⟩
    · exact ⟨_, _, rfl⟩

theorem reopenCursors_eq (s : PiecePicker) (p : Nat) :
    ∃ c r, s.reopenCursors p = { s with cursor := c, reverseCursor := r } := by
  unfold reopenCursors
  dsimp only
  split
  · exact ⟨_, _, rfl⟩
  · exact ⟨_, _, rfl⟩

theorem priority_of_have {x : PiecePos} (h : x.have = true) (seeds : Nat) : x.priority seeds = none := by
  simp [PiecePos.priority, h]

theorem findDlPiece_index {i : Nat} (h : s.findDlPiece p = some i) : i < s.downloads.length ∧ (s.dl i).index = p := by
  unfold findDlPiece at h
  dsimp only at h
  split at h
  · rename_i hc
    injection h with h
    subst h
    exact hc
  · cases h

theorem vacate_eq (s : PiecePicker) (i : Nat) : ∃ bi ds, s.vacate i = { s with blockInfo := bi, downloads := ds } := by
  unfold vacate
  dsimp only
  split
  · exact ⟨_, _, rfl⟩
  · exact ⟨_, _, rfl⟩

theorem pos_eraseDownloadPiece (s : PiecePicker) (i j : Nat) : (s.eraseDownloadPiece i).pos j =
    if (s.dl i).index = j ∧ j < s.numPieces then { s.pos j with downloading := false } else s.pos j := by
  obtain ⟨bi, ds, hv⟩ := vacate_eq s i
  unfold eraseDownloadPiece
  rw [hv]
  exact pos_modifyPos _ _ _ _

theorem touched_eraseDownloadPiece (s : PiecePicker) (i : Nat) : Touched s (s.eraseDownloadPiece i) (s.dl i).index := by
  obtain ⟨bi, ds, hv⟩ := vacate_eq s i
  have T : Touched s { s with blockInfo := bi, downloads := ds } (s.dl i).index :=
    ⟨rfl, rfl, rfl, rfl, rfl, fun _ _ => rfl⟩
  unfold eraseDownloadPiece
  rw [hv]
  have T' := T.trans (Touched.modifyPos _ _ fun p => { p with downloading := false })
  exact ⟨T'.pieces, T'.boundries, T'.seeds, T'.num, T'.dirty, T'.other⟩


/-! ## Changes that the index does not see -/

/-- Only the download queue, the blocks and the `full` flags differ. -/
structure Neutral (s s' : PiecePicker) : Prop where
  rest : ∃ m ds bi, s' = { s with pieceMap := m, downloads := ds, blockInfo := bi }
  num : s'.numPieces = s.numPieces
  key : ∀ i, (s'.pos i).key = (s.pos i).key

namespace Neutral

theorem refl (s : PiecePicker) : Neutral s s := ⟨⟨_, _, _, rfl⟩, rfl, fun _ => rfl⟩

theorem trans {s'' : PiecePicker} (h1 : Neutral s s') (h2 : Neutral s' s'') : Neutral s s'' := by
  obtain ⟨⟨m, ds, bi, rfl⟩, n1, k1⟩ := h1
  obtain ⟨⟨m', ds', bi', rfl⟩, n2, k2⟩ := h2
  exact ⟨⟨m', ds', bi', rfl⟩, n2.trans n1, fun i => (k2 i).trans (k1 i)⟩

theorem touched (h : Neutral s s') (p : Nat) : Touched s s' p := by
  obtain ⟨⟨m, ds, bi, rfl⟩, hn, hk⟩ := h
  exact ⟨rfl, rfl, rfl, hn, rfl, fun i _ => hk i⟩

theorem sound (h : Neutral s s') (hs : Sound s) : Sound s' := Sound.of_touched (h.touched 0) hs (h.key 0)

section

variable (s)

theorem modifyBlock (i j : Nat) (f : BlockInfo → BlockInfo) : Neutral s (s.modifyBlock i j f) :=
  ⟨⟨_, _, _, rfl⟩, rfl, fun _ => rfl⟩

theorem modifyDl (i : Nat) (f : DownloadingPiece → DownloadingPiece) : Neutral s (s.modifyDl i f) :=
  ⟨⟨_, _, _, rfl⟩, rfl, fun _ => rfl⟩

theorem addDownloadPiece (p : Nat) : Neutral s (s.addDownloadPiece p).1 :=
  ⟨⟨_, _, _, rfl⟩, rfl, fun _ => rfl⟩

theorem clearPeer (peer : PeerPtr) : Neutral s (s.clearPeer peer) :=
  ⟨⟨_, _, _, rfl⟩, rfl, fun _ => rfl⟩

theorem updateFull (i : Nat) : Neutral s (s.updateFull i) where
  rest := ⟨_, _, _, rfl⟩
  num := numPieces_modifyPos _ _ _
  key j := by
    unfold PiecePicker.updateFull
    rw [pos_modifyPos]
    split <;> rfl

theorem openRequested (p j : Nat) (peer : PeerPtr) (state : PieceState) : Neutral s (s.openRequested p j peer state) :=
  (((addDownloadPiece s p).trans (modifyBlock _ _ _ _)).trans (modifyDl _ _ _)).trans (updateFull _ _)

theorem openWriting (p j : Nat) (peer : PeerPtr) : Neutral s (s.openWriting p j peer) :=
  (((addDownloadPiece s p).trans (modifyBlock _ _ _ _)).trans (modifyDl _ _ _)).trans (updateFull _ _)

theorem openFinished (p j : Nat) (peer : PeerPtr) : Neutral s (s.openFinished p j peer) :=
  ((addDownloadPiece s p).trans (modifyBlock _ _ _ _)).trans (modifyDl _ _ _)

theorem requestBlock (i j : Nat) (peer : PeerPtr) (state : PieceState) :
    Neutral s (s.requestBlock i j peer state).1 := by
  unfold PiecePicker.requestBlock
  dsimp only
  split
  · exact refl s
  refine trans (trans ?_ (modifyBlock _ _ _ _)) (modifyDl _ _ _)
  split
  · exact refl s
  · exact (modifyDl _ _ _).trans (updateFull _ _)

theorem writeBlock (i j : Nat) (peer : PeerPtr) : Neutral s (s.writeBlock i j peer).1 := by
  unfold PiecePicker.writeBlock
  dsimp only
  split
  · exact modifyBlock _ _ _ _
  · exact (((modifyBlock _ _ _ _).trans (modifyDl _ _ _)).trans (modifyBlock _ _ _ _)).trans (modifyDl _ _ _)

theorem finishBlock (i j : Nat) (peer : PeerPtr) : Neutral s (s.finishBlock i j peer) := by
  unfold PiecePicker.finishBlock
  dsimp only
  split
  · exact refl s
  · exact (modifyBlock _ _ _ _).trans (modifyDl _ _ _)

theorem failBlock (i j : Nat) : Neutral s (s.failBlock i j) :=
  ((modifyDl _ _ _).trans (modifyBlock _ _ _ _)).trans (updateFull _ _)

theorem freeBlock (i j : Nat) : Neutral s (s.freeBlock i j) :=
  ((modifyBlock _ _ _ _).trans (modifyDl _ _ _)).trans (updateFull _ _)

end

end Neutral

/-! ## The pieces we have -/

theorem dropEntry_touched (s : PiecePicker) (p : Nat) : Touched s (s.dropEntry p) p ∧
    ((s.dropEntry p).pos p).index = (s.pos p).index := by
  unfold dropEntry
  split
  · split
    · rename_i i hi
      obtain ⟨-, hidx⟩ := findDlPiece_index hi
      refine ⟨by have := touched_eraseDownloadPiece s i; rwa [hidx] at this, ?_⟩
      rw [pos_eraseDownloadPiece]
      split <;> rfl
    · exact ⟨Touched.refl s p, rfl⟩
  · exact ⟨Touched.refl s p, rfl⟩

theorem gainPiece_eq (s : PiecePicker) (p : Nat) : Touched s (s.gainPiece p) p ∧
    ∀ i, (s.gainPiece p).pos i = (s.modifyPos p PiecePos.setHave).pos i := by
  have T := Touched.modifyPos s p PiecePos.setHave
  obtain ⟨c, r, hc⟩ := closeCursors_eq ((s.countGain p).modifyPos p PiecePos.setHave) p
  unfold gainPiece
  rw [hc]
  exact ⟨⟨T.pieces, T.boundries, T.seeds, T.num, T.dirty, T.other⟩, fun _ => rfl⟩

theorem have_setHave : x.setHave.have = true := by simp [PiecePos.setHave, PiecePos.have]

def weHaveCore (s : PiecePicker) (index : Nat) : PiecePicker :=
  if ((s.dropEntry index).pos index).have then s.dropEntry index else (s.dropEntry index).gainPiece index

theorem weHave_sound (h : Sound s) (hp : p < s.numPieces) : Reindexed (s.weHaveCore p) (s.weHave p) := by
  obtain ⟨T, hindex⟩ := dropEntry_touched s p
  unfold weHave weHaveCore
  dsimp only
  split
  · rename_i hhave
    have hhave' : (s.pos p).have = true := by unfold PiecePos.have at hhave ⊢; rwa [hindex] at hhave
    exact ⟨h.of_priority T (by rw [PiecePicker.priority, priority_of_have hhave, PiecePicker.priority,
      priority_of_have hhave']) (Or.inr hindex), Refiled.refl _⟩
  obtain ⟨T', hpos⟩ := gainPiece_eq (s.dropEntry p) p
  have T'' := T.trans T'
  have hnone : ((s.dropEntry p).gainPiece p).priority p = none := by
    rw [PiecePicker.priority, hpos, pos_modifyPos, if_pos ⟨rfl, by rw [T.num]; exact hp⟩]
    exact priority_of_have (have_setHave _) _
  split
  · rename_i hpr
    exact (h.of_priority T'' (hnone.trans hpr.symm) (Or.inl hpr)).refl
  rename_i hq
  split
  · rename_i hd
    exact ⟨⟨by rw [T''.num]; exact h.size, fun hd' => absurd (hd.symm.trans hd') (by decide)⟩, Refiled.refl _⟩
  rename_i hd
  have hd0 : s.dirty = false := by rw [← T''.dirty]; simpa using hd
  obtain ⟨h1, h2⟩ := T''.remove h hd0 hq hnone
  exact ⟨Sound.of_frame (frame_remove _ _ _) (by rw [T''.num]; exact h.size) (fun _ => h1),
    Refiled.of_frame (frame_remove _ _ _) h2⟩


theorem losePiece_eq (s : PiecePicker) (p : Nat) : Touched s (s.losePiece p) p ∧
    ∀ i, (s.losePiece p).pos i = (s.modifyPos p setNotHave).pos i := by
  have T := Touched.modifyPos s p setNotHave
  unfold losePiece
  split
  · exact ⟨⟨T.pieces, T.boundries, T.seeds, T.num, T.dirty, T.other⟩, fun _ => rfl⟩
  · obtain ⟨c, r, hc⟩ := reopenCursors_eq s p
    rw [hc]
    exact ⟨⟨T.pieces, T.boundries, T.seeds, T.num, T.dirty, T.other⟩, fun _ => rfl⟩

theorem weDontHave_sound (h : Sound s) :
    Reindexed (if (s.pos p).have then s.losePiece p else s) (s.weDontHave p rnd) := by
  unfold weDontHave
  dsimp only
  split
  · rename_i hhave
    obtain ⟨T, -⟩ := losePiece_eq s p
    have hnone : s.priority p = none := priority_of_have hhave _
    split
    · rename_i hcond
      refine ⟨⟨by rw [T.num]; exact h.size, fun hd => ?_⟩, Refiled.refl _⟩
      have hpr := hcond.resolve_left (by simp [hd])
      exact (h.of_priority T (hpr.trans hnone.symm) (Or.inl hnone)).indexed hd
    rename_i hcond
    rw [not_or] at hcond
    have hd : s.dirty = false := by rw [← T.dirty]; simpa using hcond.1
    obtain ⟨h1, h2⟩ := T.add rnd h hd hnone hcond.2
    exact ⟨Sound.of_frame (frame_add _ _ _) (by rw [T.num]; exact h.size) (fun _ => h1),
      Refiled.of_frame (frame_add _ _ _) h2⟩
  · exact h.refl

theorem changePriority_eq (s : PiecePicker) (p prio : Nat) : ∃ nf nhf c r, (s.changePriority p prio).1 =
      { s with numFiltered := nf, numHaveFiltered := nhf, cursor := c, reverseCursor := r }.modifyPos p
        fun x => { x with piecePriority := prio } := by
  obtain ⟨c, r, hclose⟩ := closeCursors_eq { s with numFiltered := s.numFiltered + 1 } p
  obtain ⟨c', r', hreopen⟩ := reopenCursors_eq { s with numFiltered := s.numFiltered - 1 } p
  unfold changePriority filterPiece unfilterPiece
  rw [hclose, hreopen]
  split_ifs
  all_goals exact ⟨_, _, _, _, rfl⟩

theorem setPiecePriority_sound {prio : Nat} (h : Sound s) :
    Reindexed (if prio = (s.pos p).piecePriority then s else (s.changePriority p prio).1)
      (s.setPiecePriority p prio rnd).1 := by
  unfold setPiecePriority
  split
  · exact h.refl
  obtain ⟨nf, nhf, c, r, hc⟩ := changePriority_eq s p prio
  have T : Touched s (s.changePriority p prio).1 p := by
    rw [hc]
    have := Touched.modifyPos s p fun x => { x with piecePriority := prio }
    exact ⟨this.pieces, this.boundries, this.seeds, this.num, this.dirty, this.other⟩
  have hindex : ((s.changePriority p prio).1.pos p).index = (s.pos p).index := by
    rw [hc]
    exact index_modifyPos _ _ (by intro x; rfl) _
  obtain ⟨h1, h2⟩ := T.refile rnd h hindex
  exact ⟨h1, Refiled.of_frame (frame_refile _ _ _ _) h2⟩

/-! ## The blocks -/

theorem priority_downloading (b : Bool) (seeds : Nat) :
    ({ x with downloading := b } : PiecePos).priority seeds = none ↔ x.priority seeds = none := by
  have h : ∀ y : PiecePos, y.priority seeds = none ↔ (y.filtered || y.have || y.peerCount + seeds == 0) = true := by
    intro y
    unfold PiecePos.priority
    split
    · simp_all
    rename_i hc
    simp only [hc]
    split
    · simp
    · split <;> simp
  rw [h, h]
  exact Iff.rfl

theorem beginDownload_sound (h : Sound s) (p rnd : Nat) : Reindexed (s.flag p) (s.beginDownload p rnd) := by
  have T : Touched s (s.flag p) p := Touched.modifyPos s p _
  obtain ⟨h1, h2⟩ := T.updateFrom rnd h (index_modifyPos s p (by intro x; rfl) p) (fun hnone => by
    unfold PiecePicker.priority flag
    rw [pos_modifyPos]
    split
    · exact (priority_downloading _ true _).mpr hnone
    · exact hnone)
  exact ⟨h1, Refiled.of_frame (frame_updateFrom _ _ _ _) h2⟩

theorem index_eraseDownloadPiece (s : PiecePicker) (i j : Nat) :
    ((s.eraseDownloadPiece i).pos j).index = (s.pos j).index := by
  rw [pos_eraseDownloadPiece]
  split <;> rfl

theorem endDownload_sound {i : Nat} (h : Sound s) (hi : (s.dl i).index = p) :
    Reindexed (s.eraseDownloadPiece i) (s.endDownload i p rnd) := by
  have T := touched_eraseDownloadPiece s i
  rw [hi] at T
  obtain ⟨h1, h2⟩ := T.refile rnd h (index_eraseDownloadPiece s i p)
  exact ⟨h1, Refiled.of_frame (frame_refile _ _ _ _) h2⟩

def restorePieceCore (s : PiecePicker) (index : Nat) : PiecePicker :=
  match s.findDlPiece index with
  | none => s
  | some i => s.eraseDownloadPiece i

theorem restorePiece_sound (h : Sound s) : Reindexed (s.restorePieceCore p) (s.restorePiece p rnd) := by
  unfold restorePiece restorePieceCore
  cases hi : s.findDlPiece p with
  | none => exact h.refl
  | some => exact endDownload_sound h (findDlPiece_index hi).2

theorem index_modifyDl (s : PiecePicker) (i k : Nat) {f : DownloadingPiece → DownloadingPiece}
    (hf : ∀ dp, (f dp).index = dp.index) : ((s.modifyDl i f).dl k).index = (s.dl k).index := by
  simp only [dl, modifyDl, Vec.getD_update]
  split
  · exact hf _
  · rfl

/-- An entry without a block in use goes. -/
def dropIfUnused (s : PiecePicker) (i : Nat) : PiecePicker := if s.unused i then s.eraseDownloadPiece i else s

def writeFailedCore (s : PiecePicker) (block : PieceBlock) : PiecePicker :=
  match s.findDlPiece block.pieceIndex with
  | none => s
  | some i =>
    if (s.block i block.blockIndex).state = .finished then s else (s.failBlock i block.blockIndex).dropIfUnused i

variable {block : PieceBlock} {peer : PeerPtr}

theorem writeFailed_sound (h : Sound s) : Reindexed (s.writeFailedCore block) (s.writeFailed block rnd) := by
  unfold writeFailed writeFailedCore
  dsimp only
  cases hi : s.findDlPiece block.pieceIndex with
  | none => exact h.refl
  | some i =>
    dsimp only
    by_cases hfin : (s.block i block.blockIndex).state = .finished
    · rw [if_pos hfin, if_pos hfin]
      exact h.refl
    rw [if_neg hfin, if_neg hfin]
    have h' := (Neutral.failBlock s i block.blockIndex).sound h
    have hidx : ((s.failBlock i block.blockIndex).dl i).index = block.pieceIndex := by
      rw [← (findDlPiece_index hi).2]
      exact index_modifyDl _ _ _ (by intro dp; rfl)
    unfold dropIfUnused
    split
    · exact endDownload_sound h' hidx
    · exact h'.refl

def abortDownloadCore (s : PiecePicker) (block : PieceBlock) (peer : PeerPtr) : PiecePicker :=
  if (s.pos block.pieceIndex).downloading then
    match s.findDlPiece block.pieceIndex with
    | none => s
    | some i =>
      if (s.block i block.blockIndex).state ≠ .requested then s
      else
        let s := s.withdrawPeer i block.blockIndex peer
        if 0 < (s.block i block.blockIndex).numPeers then s
        else
          let s := s.freeBlock i block.blockIndex
          if s.unused i then s.eraseDownloadPiece i else s.clearSpeed i
  else s

theorem Touched.abort (T : Touched s₀ s p) (h : Sound s₀) (hindex : (s.pos p).index = (s₀.pos p).index) :
    let s' := if s.dirty then s
      else if s₀.priority p = none ∧ s.priority p ≠ none then s.add p rnd
      else s.updateFrom (s₀.priority p) p rnd
    Reindexed s s' := by
  have hsize : s.numPieces < weHaveIndex := by rw [T.num]; exact h.size
  by_cases hd : s.dirty = true
  · rw [if_pos hd]
    exact ⟨⟨hsize, fun hd' => absurd (hd.symm.trans hd') (by decide)⟩, Refiled.refl _⟩
  rw [if_neg hd]
  by_cases hc : s₀.priority p = none ∧ s.priority p ≠ none
  · rw [if_pos hc]
    obtain ⟨h1, h2⟩ := T.add rnd h (by rw [← T.dirty]; simpa using hd) hc.1 hc.2
    exact ⟨Sound.of_frame (frame_add _ _ _) hsize (fun _ => h1), Refiled.of_frame (frame_add _ _ _) h2⟩
  rw [if_neg hc]
  obtain ⟨h1, h2⟩ := T.updateFrom rnd h hindex (fun hn => by
    by_contra hs
    exact hc ⟨hn, hs⟩)
  exact ⟨h1, Refiled.of_frame (frame_updateFrom _ _ _ _) h2⟩

theorem abortDownload_sound (h : Sound s) :
    Reindexed (s.abortDownloadCore block peer) (s.abortDownload block peer rnd) := by
  unfold abortDownload abortDownloadCore
  by_cases hdl : (s.pos block.pieceIndex).downloading = true
  · rw [if_pos hdl, if_pos hdl]
    cases hi : s.findDlPiece block.pieceIndex with
    | none => exact h.refl
    | some i =>
      dsimp only
      by_cases hreq : (s.block i block.blockIndex).state ≠ .requested
      · rw [if_pos hreq, if_pos hreq]
        exact h.refl
      rw [if_neg hreq, if_neg hreq]
      have N1 : Neutral s (s.withdrawPeer i block.blockIndex peer) := Neutral.modifyBlock _ _ _ _
      have hidx1 : ((s.withdrawPeer i block.blockIndex peer).dl i).index = block.pieceIndex := (findDlPiece_index hi).2
      generalize s.withdrawPeer i block.blockIndex peer = t at *
      by_cases hpeers : 0 < (t.block i block.blockIndex).numPeers
      · rw [if_pos hpeers, if_pos hpeers]
        exact (N1.sound h).refl
      rw [if_neg hpeers, if_neg hpeers]
      have N2 := Neutral.freeBlock t i block.blockIndex
      have hidx2 : ((t.freeBlock i block.blockIndex).dl i).index = block.pieceIndex := by
        rw [← hidx1]
        exact index_modifyDl _ _ _ (by intro dp; rfl)
      have h2 := N2.sound (N1.sound h)
      generalize t.freeBlock i block.blockIndex = u at *
      by_cases hun : u.unused i = true
      · rw [if_pos hun, if_pos hun]
        have T := touched_eraseDownloadPiece u i
        rw [hidx2] at T
        exact T.abort h2 (index_eraseDownloadPiece u i _)
      · rw [if_neg hun, if_neg hun]
        exact ((Neutral.modifyDl u i _).sound h2).refl
  · rw [if_neg hdl, if_neg hdl]
    exact h.refl

def markAsDownloadingCore (s : PiecePicker) (block : PieceBlock) (peer : PeerPtr) (state : PieceState) : PiecePicker :=
  if (s.pos block.pieceIndex).downloading then
    match s.findDlPiece block.pieceIndex with
    | none => s
    | some i => (s.requestBlock i block.blockIndex peer state).1
  else (s.flag block.pieceIndex).openRequested block.pieceIndex block.blockIndex peer state

theorem markAsDownloading_sound {state : PieceState} (h : Sound s) :
    Reindexed (s.markAsDownloadingCore block peer state) (s.markAsDownloading block peer state rnd).1 := by
  unfold markAsDownloading markAsDownloadingCore
  dsimp only
  split_ifs
  · cases s.findDlPiece block.pieceIndex with
    | none => exact h.refl
    | some => exact ((Neutral.requestBlock _ _ _ _ _).sound h).refl
  · obtain ⟨h1, h2⟩ := beginDownload_sound h block.pieceIndex rnd
    exact ⟨(Neutral.openRequested _ _ _ _ _).sound h1, h2.openRequested _ _ _ _⟩

def markAsWritingCore (s : PiecePicker) (block : PieceBlock) (peer : PeerPtr) : PiecePicker :=
  if (s.pos block.pieceIndex).downloading then
    match s.findDlPiece block.pieceIndex with
    | none => s
    | some i => (s.writeBlock i block.blockIndex peer).1
  else if (s.pos block.pieceIndex).have then s
  else (s.flag block.pieceIndex).openWriting block.pieceIndex block.blockIndex peer

theorem markAsWriting_sound (h : Sound s) :
    Reindexed (s.markAsWritingCore block peer) (s.markAsWriting block peer rnd).1 := by
  unfold markAsWriting markAsWritingCore
  dsimp only
  split_ifs
  · cases s.findDlPiece block.pieceIndex with
    | none => exact h.refl
    | some => exact ((Neutral.writeBlock _ _ _ _).sound h).refl
  · exact h.refl
  · obtain ⟨h1, h2⟩ := beginDownload_sound h block.pieceIndex rnd
    exact ⟨(Neutral.openWriting _ _ _ _).sound h1, h2.openWriting _ _ _⟩

def markAsFinishedCore (s : PiecePicker) (block : PieceBlock) (peer : PeerPtr) : PiecePicker :=
  if (s.pos block.pieceIndex).downloading then
    match s.findDlPiece block.pieceIndex with
    | none => s
    | some i => s.finishBlock i block.blockIndex peer
  else if (s.pos block.pieceIndex).have then s
  else (s.flag block.pieceIndex).openFinished block.pieceIndex block.blockIndex peer

theorem markAsFinished_sound (h : Sound s) :
    Reindexed (s.markAsFinishedCore block peer) (s.markAsFinished block peer rnd) := by
  unfold markAsFinished markAsFinishedCore
  dsimp only
  split_ifs
  · cases s.findDlPiece block.pieceIndex with
    | none => exact h.refl
    | some => exact ((Neutral.finishBlock _ _ _ _).sound h).refl
  · exact h.refl
  · obtain ⟨h1, h2⟩ := beginDownload_sound h block.pieceIndex rnd
    exact ⟨(Neutral.openFinished _ _ _ _).sound h1, h2.openFinished _ _ _⟩

/-! ## Picking -/

theorem bnd_roundUpBoundries (hc : s.Closed) : s.roundUpBoundries.bnd = s.bnd ∧ s.roundUpBoundries.Closed := by
  obtain ⟨hpos, hlast⟩ := hc
  have hback : s.priorityBoundries.getLastD 0 = s.pieces.length := by
    rw [← hlast, getLastD_eq_getLast?, List.getLast?_eq_getElem?, bnd, getD_eq_getElem?_getD,
      List.getElem?_eq_getElem (by omega)]
    rfl
  generalize hn : (s.priorityBoundries.length + prioFactor - 1) / prioFactor * prioFactor = n
  have hle : s.priorityBoundries.length ≤ n := by
    have : prioFactor = 4 := rfl
    rw [this] at hn
    omega
  have hbnd : s.roundUpBoundries.bnd = s.bnd := by
    funext q
    simp only [bnd, roundUpBoundries, hn, Vec.getD_resize, hback]
    by_cases hq : q < s.priorityBoundries.length
    · simp [hq, show q < n by omega]
    · rw [Vec.getD_of_le s.priorityBoundries (by omega)]
      simp [hq]
  have hlen : s.roundUpBoundries.priorityBoundries.length = n := by simp only [roundUpBoundries, hn, Vec.length_resize]
  refine ⟨hbnd, by omega, ?_⟩
  rw [hbnd, hlen]
  by_cases he : n = s.priorityBoundries.length
  · rw [he]; exact hlast
  · exact bnd_of_le s (by omega)

theorem roundUpBoundries_sound (h : Sound s) (hd : s.dirty = false) : Reindexed s s.roundUpBoundries := by
  have I := h.indexed hd
  obtain ⟨hbnd, hclosed⟩ := bnd_roundUpBoundries I.closed
  refine ⟨⟨h.size, fun _ => ⟨?_, I.back, hclosed, I.range⟩⟩, ⟨⟨_, _, _, _, rfl, rfl⟩, fun _ => rfl⟩⟩
  rw [hbnd]
  exact I.layout

theorem updatePieces_sound (hsize : s.numPieces < weHaveIndex) (shuffles : Nat → Nat) :
    Sound (s.updatePieces shuffles) ∧ Refiled s (s.updatePieces shuffles) ∧
      (s.updatePieces shuffles).dirty = false := by
  obtain ⟨I, hs, F⟩ := updatePieces_indexed (le_of_lt hsize) shuffles
  refine ⟨⟨by rw [F.numPieces]; exact hsize, fun _ => I⟩, ⟨?_, hs⟩, rfl⟩
  obtain ⟨ht, ps, bs, m, he⟩ := F
  rw [he] at ht ⊢
  exact ⟨ps, bs, m, false, rfl, ht⟩

theorem pickAll_sound (h : Sound s) (args : PickArgs) (prefer : Nat) (shuffles : Nat → Nat) (a : Picks) :
    Reindexed s (s.pickAll args prefer shuffles rnd a).1 := by
  unfold pickAll
  split
  · exact h.refl
  split
  · have ht : ∀ t, (if s.dirty = true then s.updatePieces shuffles else s) = t →
        Sound t ∧ Refiled s t ∧ t.dirty = false := by
      rintro t rfl
      split
      · exact updatePieces_sound h.size shuffles
      · rename_i hd
        exact ⟨h, Refiled.refl s, by simpa using hd⟩
    obtain ⟨h1, h2, h3⟩ := ht _ rfl
    generalize (if s.dirty = true then s.updatePieces shuffles else s) = t at *
    split
    · obtain ⟨h4, h5⟩ := roundUpBoundries_sound h1 h3
      exact ⟨h4, h2.trans h5⟩
    · exact ⟨h1, h2⟩
  · exact h.refl

theorem pickPieces_sound (h : Sound s) (args : PickArgs) (interesting : List PieceBlock) (shuffles : Nat → Nat)
    (rnd' : Nat) : Reindexed s (s.pickPieces args interesting shuffles rnd rnd').1 := by
  unfold pickPieces
  dsimp only
  generalize (if (s.effectiveArgs args).options.ignoreWholePieces = true then 0
    else (s.effectiveArgs args).preferWholePieces) = prefer
  split
  · exact h.refl
  · split
    · exact pickAll_sound h _ _ _ _
    · exact pickAll_sound h _ _ _ _

/-! ## Steps and runs -/

def coreStep (s : PiecePicker) : Op → PiecePicker
  | .incRefcount index _ => s.modifyPos index PiecePos.incPeerCount
  | .decRefcount index _ => s.modifyPos index PiecePos.decPeerCount
  | .weHave index => s.weHaveCore index
  | .weDontHave index _ => if (s.pos index).have then s.losePiece index else s
  | .setPiecePriority index prio _ =>
    if prio = (s.pos index).piecePriority then s else (s.changePriority index prio).1
  | .markAsDownloading block peer state _ => s.markAsDownloadingCore block peer state
  | .markAsWriting block peer _ => s.markAsWritingCore block peer
  | .markAsFinished block peer _ => s.markAsFinishedCore block peer
  | .abortDownload block peer _ => s.abortDownloadCore block peer
  | .writeFailed block _ => s.writeFailedCore block
  | .restorePiece index _ => s.restorePieceCore index
  | .pickPieces .. => s
  | op => s.step op

/-- **Every call keeps the index sound**, and apart from the index it does what `coreStep` does. -/
theorem step_sound {op : Op} (h : Sound s) (hpre : s.Pre op) : Reindexed (s.coreStep op) (s.step op) := by
  cases op with
  | init =>
    exact ⟨⟨by simpa [step, init, numPieces] using hpre.2.2.2, fun hd => by cases hd⟩, Refiled.refl _⟩
  | incRefcount => exact incRefcount_sound h
  | decRefcount => exact decRefcount_sound h hpre.1 hpre.2
  | incRefcountBits bits | decRefcountBits bits => exact (modifyBits_sound h bits _).refl
  | incRefcountAll => exact (incRefcountAll_sound h).refl
  | decRefcountAll => exact (decRefcountAll_sound h).refl
  | weHave => exact weHave_sound h hpre
  | weDontHave => exact weDontHave_sound h
  | setPiecePriority => exact setPiecePriority_sound h
  | markAsDownloading => exact markAsDownloading_sound h
  | markAsWriting => exact markAsWriting_sound h
  | markAsFinished => exact markAsFinished_sound h
  | abortDownload => exact abortDownload_sound h
  | writeFailed => exact writeFailed_sound h
  | restorePiece => exact restorePiece_sound h
  | clearPeer peer => exact ((Neutral.clearPeer s peer).sound h).refl
  | pickPieces args interesting shuffles rnd rnd' => exact pickPieces_sound h args interesting shuffles rnd'

theorem sound_new : Sound new where
  size := by decide
  indexed _ := by
    refine ⟨⟨?_, ?_, ?_, ?_, ?_⟩, ?_, ⟨by decide, rfl⟩, ?_⟩
    · intro i hi; exact absurd hi (not_lt_zero i)
    · intro i hi; exact absurd hi (not_lt_zero i)
    · intro p r hp
      rw [priority_of_not_lt (not_lt_zero p)] at hp
      cases hp
    · intro q
      cases q with
      | zero => exact le_refl 0
      | succ => exact le_refl 0
    · intro i hi; exact absurd hi (not_lt_zero i)
    · intro k hk; exact absurd hk (not_lt_zero k)
    · intro x r hx
      rw [priority_of_not_lt (not_lt_zero x)] at hx
      cases hx

theorem sound_run {ops : List Op} (hl : Legal step Pre new ops) : Sound (run step new ops) :=
  inv_run (P := Sound) (fun _ _ h hp => (step_sound h hp).1) sound_new hl

section

variable (F : Filed s s.priority)
include F

theorem Filed.mem_pieces : p ∈ s.pieces ↔ p < s.numPieces ∧ (s.priority p).isSome := by
  constructor
  · intro hp
    obtain ⟨k, hk, he⟩ := mem_iff_getElem.mp hp
    have hpiece : s.piece k = p := by rw [piece, getD_eq_getElem _ _ hk, he]
    obtain ⟨r, hr⟩ := F.layout.mem k hk
    rw [hpiece] at hr
    exact ⟨F.range p r hr, by rw [hr]; rfl⟩
  · rintro ⟨-, hp⟩
    obtain ⟨r, hr⟩ := Option.isSome_iff_exists.mp hp
    obtain ⟨k, hk, he⟩ := F.layout.surj p r hr
    rw [← he, piece, getD_eq_getElem _ _ hk]
    exact getElem_mem hk

theorem Filed.nodup : s.pieces.Nodup := by
  rw [nodup_iff_injective_get]
  intro i j h
  apply Fin.ext
  refine F.layout.inj i i.2 j j.2 ?_
  rw [piece, piece, getD_eq_getElem _ _ i.2, getD_eq_getElem _ _ j.2]
  exact h

theorem Filed.boundries_sorted : s.priorityBoundries.Pairwise (· ≤ ·) := by
  rw [pairwise_iff_getElem]
  intro i j hi hj hij
  have := F.layout.mono (le_of_lt hij)
  rwa [← boundry_eq_bnd s hi, ← boundry_eq_bnd s hj, boundry, boundry, getD_eq_getElem _ _ hi,
    getD_eq_getElem _ _ hj] at this

theorem Filed.boundries_last : s.priorityBoundries.getLast? = some s.pieces.length := by
  obtain ⟨hpos, hlast⟩ := F.closed
  rw [List.getLast?_eq_getElem?, List.getElem?_eq_getElem (by omega), ← hlast, bnd, getD_eq_getElem _ _ (by omega)]

theorem Filed.range_priority {k : Nat} (hq : q < s.priorityBoundries.length)
    (hlo : s.rangeStart q ≤ k) (hhi : k < s.boundry q) : s.priority (s.piece k) = some q := by
  rw [boundry_eq_bnd s hq] at hhi
  refine F.layout.mem_bucket ?_ hhi
  unfold rangeStart at hlo
  split at hlo
  · exact Or.inl ‹_›
  · rw [boundry_eq_bnd s (by omega)] at hlo
    exact Or.inr hlo

end

/-- **The rarest-first index.** In every state reachable by calls under their preconditions, and for all outcomes of
`random()`: unless `m_dirty` is set, `m_pieces` holds exactly the pieces that have a priority, each once and at its back
pointer; the boundaries do not decrease and end at the size of `m_pieces`; and the slots between two boundaries hold
pieces of that priority. -/
theorem rarest_first_index (ops : List Op) (hl : Legal step Pre new ops) (hd : (run step new ops).dirty = false) :
    let s := run step new ops
    (∀ p, p ∈ s.pieces ↔ p < s.numPieces ∧ (s.priority p).isSome) ∧ s.pieces.Nodup ∧
      (∀ k < s.pieces.length, (s.pos (s.piece k)).index = k) ∧
      s.priorityBoundries.Pairwise (· ≤ ·) ∧ s.priorityBoundries.getLast? = some s.pieces.length ∧
      ∀ q < s.priorityBoundries.length, ∀ k, s.rangeStart q ≤ k → k < s.boundry q →
        s.priority (s.piece k) = some q := by
  intro s
  have F : Filed s s.priority := (sound_run hl).indexed hd
  exact ⟨fun _ => F.mem_pieces, F.nodup, F.back, F.boundries_sorted, F.boundries_last,
    fun _ hq _ hlo hhi => F.range_priority hq hlo hhi⟩

/-- Three pieces: two of them have peers when a pick rebuilds the index, which then follows the later calls. -/
def sampleRun : List Op :=
  [.init 2 1 3, .incRefcount 0 5, .incRefcountBits [true, false, true],
    .pickPieces { pieces := [true, true, true], numBlocks := 2, preferWholePieces := 0, peer := some 1, speed := .fast,
                  options := { rarestFirst := true, reverse := true }, suggestedPieces := [], numPeers := 4 }
      [] (fun k => k) 0 0,
    .setPiecePriority 2 6 1, .markAsDownloading (.of 0 1) (some 1) .fast 3, .incRefcount 1 2, .weHave 2,
    .weDontHave 2 7]

theorem rarest_first_index_sampleRun : (run step new sampleRun).dirty = false ∧ (run step new sampleRun).pieces.Nodup :=
  ⟨by decide +kernel, (rarest_first_index sampleRun (by decide +kernel) (by decide +kernel)).2.1⟩

end PiecePicker

end Libtorrent.Picker
