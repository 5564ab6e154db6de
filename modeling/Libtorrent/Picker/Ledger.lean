import Libtorrent.Lib.Slab
import Libtorrent.Picker.Record
import Libtorrent.Picker.Sound

/-!
# The download queue is a map from pieces to records

`book s` is the map that `m_downloads` and `m_block_info` represent. A write to an entry or to one of its blocks changes
one record (`Edited.book`), a new entry adds one (`addDownloadPiece_book`) and the removal of an entry deletes one
(`eraseDownloadPiece_book`), whatever happens to the places of the others.
-/

namespace Libtorrent.Picker.PiecePicker

open List Option Nat Record Vec

open Slab (skip skip_ne skip_lt exists_skip)
open Function (update_of_ne update_self)

variable {s s' s'' : PiecePicker} {p i j : Nat} {r : Record}

/-- The rows of `m_block_info` belong to the entries of `m_downloads`. -/
def Slabbed (s : PiecePicker) : Prop :=
  Slab DownloadingPiece.index DownloadingPiece.info s.blocksPerPiece s.downloads s.blockInfo.length

def record (s : PiecePicker) (i : Nat) : Record where
  speed := (s.dl i).state
  finished := (s.dl i).finished
  writing := (s.dl i).writing
  requested := (s.dl i).requested
  blocks := fun j => if j < s.blocksPerPiece then s.block i j else {}

/-- The records of the pieces that are being downloaded. -/
def book (s : PiecePicker) (p : Nat) : Option Record := (s.findDlPiece p).map s.record

theorem record_block (hj : j < s.blocksPerPiece) : (s.record i).blocks j = s.block i j := if_pos hj

/-! ## Look-up -/

theorem findDlPiece_eq_some (S : Slabbed s) :
    s.findDlPiece p = some i ↔ i < s.downloads.length ∧ (s.dl i).index = p := by
  refine ⟨findDlPiece_index, fun h => ?_⟩
  obtain ⟨h1, -, -⟩ := (Slab.find_iff S).mpr h
  rw [findDlPiece, show s.lowerBound p = i from h1]
  exact if_pos h

theorem book_eq_some (S : Slabbed s) :
    s.book p = some r ↔ ∃ i < s.downloads.length, (s.dl i).index = p ∧ s.record i = r := by
  rw [book, map_eq_some_iff]
  constructor
  · rintro ⟨i, hi, hr⟩
    obtain ⟨h1, h2⟩ := (findDlPiece_eq_some S).mp hi
    exact ⟨i, h1, h2, hr⟩
  · rintro ⟨i, h1, h2, hr⟩
    exact ⟨i, (findDlPiece_eq_some S).mpr ⟨h1, h2⟩, hr⟩

theorem book_index (S : Slabbed s) (hi : i < s.downloads.length) : s.book (s.dl i).index = some (s.record i) :=
  (book_eq_some S).mpr ⟨i, hi, rfl, rfl⟩

theorem index_ne_of_book (S : Slabbed s) (hp : s.book p = none) : ∀ k < s.downloads.length, (s.dl k).index ≠ p := by
  intro k hk he
  rw [← he, book_index S hk] at hp
  cases hp

/-! ## Writes to an entry -/

/-- The states differ in the record of the entry at `i` and in the `full` flag of its piece. -/
structure Edited (s s' : PiecePicker) (i : Nat) : Prop where
  shape : s'.numPieces = s.numPieces ∧ s'.blocksPerPiece = s.blocksPerPiece ∧
    s'.blocksInLastPiece = s.blocksInLastPiece
  length : s'.downloads.length = s.downloads.length
  room : s'.blockInfo.length = s.blockInfo.length
  entry : ∀ k, (s'.dl k).index = (s.dl k).index ∧ (s'.dl k).info = (s.dl k).info
  record : ∀ k < s.downloads.length, k ≠ i → s'.record k = s.record k
  flags : ∀ q, (s'.pos q).downloading = (s.pos q).downloading ∧ (s'.pos q).have = (s.pos q).have
  full : ∀ q, q ≠ (s.dl i).index → (s'.pos q).full = (s.pos q).full

namespace Edited

theorem trans (h1 : Edited s s' i) (h2 : Edited s' s'' i) : Edited s s'' i where
  shape := ⟨h2.shape.1.trans h1.shape.1, h2.shape.2.1.trans h1.shape.2.1, h2.shape.2.2.trans h1.shape.2.2⟩
  length := h2.length.trans h1.length
  room := h2.room.trans h1.room
  entry := fun k => ⟨(h2.entry k).1.trans (h1.entry k).1, (h2.entry k).2.trans (h1.entry k).2⟩
  record := fun k hk hne => (h2.record k (by rw [h1.length]; exact hk) hne).trans (h1.record k hk hne)
  flags := fun q => ⟨(h2.flags q).1.trans (h1.flags q).1, (h2.flags q).2.trans (h1.flags q).2⟩
  full := fun q hq => (h2.full q (by rw [(h1.entry i).1]; exact hq)).trans (h1.full q hq)

theorem slabbed (E : Edited s s' i) (S : Slabbed s) : Slabbed s' := by
  rw [Slabbed, E.shape.2.1]
  exact Slab.congr S E.length (fun k => (E.entry k).1) (fun k => (E.entry k).2) (le_of_eq E.room.symm)

theorem book (E : Edited s s' i) (S : Slabbed s) (hi : i < s.downloads.length) :
    s'.book = Function.update s.book (s.dl i).index (some (s'.record i)) := by
  funext q
  apply ext
  intro r
  rw [book_eq_some (E.slabbed S), E.length]
  by_cases hq : q = (s.dl i).index
  · rw [hq, update_self, some_inj]
    constructor
    · rintro ⟨k, hk, hki, hr⟩
      rw [(E.entry k).1] at hki
      rw [Slab.position_unique S hk hi hki] at hr
      exact hr
    · intro hr
      exact ⟨i, hi, (E.entry i).1, hr⟩
  rw [update_of_ne hq, book_eq_some S]
  constructor
  · rintro ⟨k, hk, hki, hr⟩
    rw [(E.entry k).1] at hki
    refine ⟨k, hk, hki, ?_⟩
    rw [← hr, E.record k hk (fun e => hq (by rw [← hki, e]))]
  · rintro ⟨k, hk, hki, hr⟩
    refine ⟨k, hk, (E.entry k).1.trans hki, ?_⟩
    rw [← hr, E.record k hk (fun e => hq (by rw [← hki, e]))]

end Edited

section

variable (S : Slabbed s) (hi : i < s.downloads.length) (hj : j < s.blocksPerPiece) (f : BlockInfo → BlockInfo)
include S hi hj f

theorem block_modifyBlock {k a : Nat} (hk : k < s.downloads.length) (ha : a < s.blocksPerPiece) :
    (s.modifyBlock i j f).block k a = if k = i ∧ a = j then f (s.block i j) else s.block k a := by
  have hget := Vec.getD_update s.blockInfo ((s.dl i).info + j) ((s.dl k).info + a) f default
  change (Vec.update s.blockInfo ((s.dl i).info + j) f).getD ((s.dl k).info + a) default = _
  rw [hget]
  by_cases h : k = i ∧ a = j
  · obtain ⟨rfl, rfl⟩ := h
    have := lt_of_lt_of_le (Slab.cell_lt S hi hj) (Slab.room S)
    rw [if_pos ⟨rfl, this⟩, if_pos ⟨rfl, rfl⟩]
    rfl
  rw [if_neg h, if_neg]
  · rfl
  rintro ⟨he, -⟩
  by_cases hki : k = i
  · subst hki
    exact h ⟨rfl, by omega⟩
  · exact Slab.disjoint S hi hk (fun e => hki e.symm) hj ha he

theorem Edited.modifyBlock : Edited s (s.modifyBlock i j f) i where
  shape := ⟨rfl, rfl, rfl⟩
  length := rfl
  room := length_update ..
  entry := fun _ => ⟨rfl, rfl⟩
  record := fun k hk hne => by
    refine Record.ext rfl rfl rfl rfl (funext fun a => ?_)
    simp only [PiecePicker.record]
    change (if a < s.blocksPerPiece then _ else _) = _
    by_cases ha : a < s.blocksPerPiece
    · rw [if_pos ha, if_pos ha, block_modifyBlock S hi hj f hk ha, if_neg (fun h => hne h.1)]
    · rw [if_neg ha, if_neg ha]
  flags := fun _ => ⟨rfl, rfl⟩
  full := fun _ _ => rfl

theorem record_modifyBlock : (s.modifyBlock i j f).record i =
      { s.record i with blocks := Function.update (s.record i).blocks j (f (s.block i j)) } := by
  refine Record.ext rfl rfl rfl rfl (funext fun a => ?_)
  change (if a < s.blocksPerPiece then _ else _) = Function.update (s.record i).blocks j (f (s.block i j)) a
  by_cases haj : a = j
  · subst haj
    rw [if_pos hj, block_modifyBlock S hi hj f hi hj, if_pos ⟨rfl, rfl⟩, update_self]
  rw [update_of_ne haj]
  by_cases ha : a < s.blocksPerPiece
  · rw [if_pos ha, block_modifyBlock S hi hj f hi ha, if_neg (fun h => haj h.2), record_block ha]
  · rw [if_neg ha]
    exact (if_neg ha).symm

end

theorem dl_modifyDl (s : PiecePicker) (i k : Nat) (f : DownloadingPiece → DownloadingPiece) :
    (s.modifyDl i f).dl k = if i = k ∧ k < s.downloads.length then f (s.dl k) else s.dl k :=
  Vec.getD_update ..

variable {f : DownloadingPiece → DownloadingPiece} {t : PiecePicker}

section

variable (hf : ∀ d, (f d).index = d.index ∧ (f d).info = d.info)
include hf

theorem info_modifyDl (s : PiecePicker) (i k : Nat) :
    ((s.modifyDl i f).dl k).index = (s.dl k).index ∧ ((s.modifyDl i f).dl k).info = (s.dl k).info := by
  rw [dl_modifyDl]
  split
  · exact hf _
  · exact ⟨rfl, rfl⟩

theorem block_modifyDl (s : PiecePicker) (i k a : Nat) : (s.modifyDl i f).block k a = s.block k a := by
  unfold block
  rw [(info_modifyDl hf s i k).2]
  rfl

theorem Edited.modifyDl (s : PiecePicker) (i : Nat) : Edited s (s.modifyDl i f) i where
  shape := ⟨rfl, rfl, rfl⟩
  length := length_update ..
  room := rfl
  entry := fun k => info_modifyDl hf s i k
  record := fun k _ hne => by
    have hdl : (s.modifyDl i f).dl k = s.dl k := by rw [dl_modifyDl, if_neg (fun h => hne h.1.symm)]
    simp only [PiecePicker.record, hdl, block_modifyDl hf s i k]
    rfl
  flags := fun _ => ⟨rfl, rfl⟩
  full := fun _ _ => rfl

theorem record_modifyDl (hi : i < s.downloads.length) : (s.modifyDl i f).record i =
      { speed := (f (s.dl i)).state, finished := (f (s.dl i)).finished, writing := (f (s.dl i)).writing,
        requested := (f (s.dl i)).requested, blocks := (s.record i).blocks } := by
  have hdl : (s.modifyDl i f).dl i = f (s.dl i) := by rw [dl_modifyDl, if_pos ⟨rfl, hi⟩]
  simp only [PiecePicker.record, hdl, block_modifyDl hf s i i]
  rfl

end

theorem Edited.updateFull (s : PiecePicker) (i : Nat) : Edited s (s.updateFull i) i where
  shape := ⟨numPieces_modifyPos .., rfl, rfl⟩
  length := rfl
  room := rfl
  entry := fun _ => ⟨rfl, rfl⟩
  record := fun _ _ _ => rfl
  flags := fun q => by
    rw [PiecePicker.updateFull, pos_modifyPos]
    split <;> exact ⟨rfl, rfl⟩
  full := fun q hq => by
    rw [PiecePicker.updateFull, pos_modifyPos, if_neg (fun h => hq h.1.symm)]

theorem full_updateFull (hp : (s.dl i).index < s.numPieces) : ((s.updateFull i).pos (s.dl i).index).full =
    decide ((s.record i).total = s.blocksInPiece (s.dl i).index) := by
  rw [PiecePicker.updateFull, pos_modifyPos, if_pos ⟨rfl, hp⟩]
  rfl

/-! ## New entries and removed ones -/

theorem record_eq {k l : Nat} (hw : t.blocksPerPiece = s.blocksPerPiece)
    (hd : t.dl k = { s.dl l with info := (t.dl k).info })
    (hb : ∀ a < s.blocksPerPiece, t.block k a = s.block l a) : t.record k = s.record l := by
  refine Record.ext ?_ ?_ ?_ ?_ (funext fun a => ?_)
  · rw [record, hd]; rfl
  · rw [record, hd]; rfl
  · rw [record, hd]; rfl
  · rw [record, hd]; rfl
  simp only [record, hw]
  split_ifs with ha
  · exact hb a ha
  · rfl

theorem cells_addDownloadPiece (S : Slabbed s) (p : Nat) :
    (s.downloads.length + 1) * s.blocksPerPiece ≤ (s.addDownloadPiece p).1.blockInfo.length ∧
      (∀ c < s.downloads.length * s.blocksPerPiece,
        (s.addDownloadPiece p).1.blockInfo.getD c default = s.blockInfo.getD c default) ∧ ∀ a < s.blocksPerPiece,
        (s.addDownloadPiece p).1.blockInfo.getD (s.downloads.length * s.blocksPerPiece + a) default = {} := by
  have hroom : s.downloads.length * s.blocksPerPiece ≤ s.blockInfo.length := Slab.room S
  simp only [addDownloadPiece]
  generalize hn : s.downloads.length * s.blocksPerPiece = n at *
  generalize hbs : (if s.blockInfo.length < n + s.blocksPerPiece then resize s.blockInfo (n + s.blocksPerPiece) {}
    else s.blockInfo) = bs
  have hlen : n + s.blocksPerPiece ≤ bs.length := by
    rw [← hbs]
    split
    · rw [length_resize]
    · omega
  refine ⟨by rw [add_mul, hn, length_fill]; omega, fun c hc => ?_, fun a ha => ?_⟩
  · rw [getD_fill, if_neg (by omega), ← hbs]
    split
    · rw [getD_resize, if_pos (by omega), if_pos (by omega)]
    · rfl
  · rw [getD_fill, if_pos (by omega)]

theorem addDownloadPiece_book (S : Slabbed s) (hw : 0 < s.blocksPerPiece) (hnew : s.book p = none)
    (ht : s.addDownloadPiece p = (t, i)) : Slabbed t ∧ i < t.downloads.length ∧ (t.dl i).index = p ∧ t.record i = {} ∧
      t.book = Function.update s.book p (some {}) := by
  obtain ⟨hroom, hold, hfresh⟩ := cells_addDownloadPiece S p
  rw [ht] at hroom hold hfresh
  have hi : s.lowerBound p = i := congrArg Prod.snd ht
  have hds : t.downloads = s.downloads.insertIdx i { index := p, info := s.downloads.length * s.blocksPerPiece } := by
    rw [← hi, ← show (s.addDownloadPiece p).1 = t by rw [ht]]
    rfl
  have hwt : t.blocksPerPiece = s.blocksPerPiece := by rw [← show (s.addDownloadPiece p).1 = t by rw [ht]]; rfl
  have hle : i ≤ s.downloads.length := (Slab.lowerBound_spec S hi).1
  have hlen : t.downloads.length = s.downloads.length + 1 := by
    rw [hds]
    exact length_insertIdx_of_le_length hle _
  have hdl : ∀ k, t.dl k = if k < i then s.dl k else if k = i then
      { index := p, info := s.downloads.length * s.blocksPerPiece } else s.dl (k - 1) := by
    intro k
    rw [dl, hds, getD_insertIdx _ hle]
    rfl
  have hne := index_ne_of_book S hnew
  have S' : Slabbed t := by
    rw [Slabbed, hwt, hds]
    exact Slab.insert S hi hne rfl rfl hroom hw
  have hself : t.dl i = { index := p, info := s.downloads.length * s.blocksPerPiece } := by
    rw [hdl, if_neg (lt_irrefl i), if_pos rfl]
  have hrec : t.record i = {} := by
    refine Record.ext ?_ ?_ ?_ ?_ (funext fun a => ?_)
    · rw [record, hself]
    · rw [record, hself]
    · rw [record, hself]
    · rw [record, hself]
    simp only [record, hwt, block, hself]
    split_ifs with ha
    · exact hfresh a ha
    · rfl
  -- the entry at `l` is now the one at `k`
  have hother : ∀ k l, l < s.downloads.length → t.dl k = s.dl l → t.record k = s.record l := by
    intro k l hl he
    refine record_eq hwt (by rw [he]) fun a ha => ?_
    rw [block, he]
    exact hold _ (Slab.cell_lt S hl ha)
  refine ⟨S', by omega, by rw [hself], hrec, ?_⟩
  funext q
  by_cases hq : q = p
  · rw [hq, update_self, ← hrec, ← book_index S' (by omega), hself]
  apply ext
  intro r
  rw [update_of_ne hq, book_eq_some S, book_eq_some S', hlen]
  constructor
  · rintro ⟨k, hk, hki, hr⟩
    rw [hdl] at hki
    split_ifs at hki with h1 h2
    · exact ⟨k, by omega, hki, by rw [← hr, hother k k (by omega) (by rw [hdl, if_pos h1])]⟩
    · exact absurd hki.symm hq
    · exact ⟨k - 1, by omega, hki, by
        rw [← hr, hother k (k - 1) (by omega) (by rw [hdl, if_neg h1, if_neg h2])]⟩
  · rintro ⟨l, hl, hli, hr⟩
    by_cases h : l < i
    · have he : t.dl l = s.dl l := by rw [hdl, if_pos h]
      exact ⟨l, by omega, by rw [he, hli], by rw [← hr, hother l l hl he]⟩
    · have he : t.dl (l + 1) = s.dl l := by rw [hdl, if_neg (by omega), if_neg (by omega)]; rfl
      exact ⟨l + 1, by omega, by rw [he, hli], by rw [← hr, hother (l + 1) l hl he]⟩

/-- The owner `o` of the last row takes over the row of the entry at `i`; the blocks of all others stay. -/
theorem vacate_spec (S : Slabbed s) (hi : i < s.downloads.length) :
    ∃ o < s.downloads.length, (s.dl o).info = (s.downloads.length - 1) * s.blocksPerPiece ∧
      (∀ k < s.downloads.length, (s.vacate i).dl k =
        { s.dl k with info := if k = o then (s.dl i).info else (s.dl k).info }) ∧
      (s.vacate i).downloads.length = s.downloads.length ∧ (s.vacate i).blockInfo.length = s.blockInfo.length ∧
      ∀ k < s.downloads.length, k ≠ i → ∀ a < s.blocksPerPiece, (s.vacate i).block k a = s.block k a := by
  obtain ⟨m, hm, hmi⟩ := Slab.exists_row S (k := s.downloads.length - 1) (by omega)
  generalize ho : (s.downloads.findIdx fun dp => dp.info == (s.downloads.length - 1) * s.blocksPerPiece) = o
  have hlt : o < s.downloads.length := by
    rw [← ho, findIdx_lt_length]
    refine ⟨s.downloads[m], getElem_mem hm, ?_⟩
    rw [getD_eq_getElem?_getD, getElem?_eq_getElem hm] at hmi
    simpa using hmi
  have hinfo : (s.dl o).info = (s.downloads.length - 1) * s.blocksPerPiece := by
    subst ho
    have := findIdx_getElem (w := hlt)
    rw [dl, getD_eq_getElem?_getD, getElem?_eq_getElem hlt]
    simpa using this
  refine ⟨o, hlt, hinfo, ?_⟩
  simp only [vacate, ho]
  by_cases hio : i = o
  · rw [if_pos hio]
    refine ⟨fun k _ => ?_, rfl, rfl, fun _ _ _ _ _ => rfl⟩
    split_ifs with hk
    · rw [hk, ← hio]
    · rfl
  rw [if_neg hio]
  have hdl : ∀ k < s.downloads.length, (s.takeOver i o).dl k =
      { s.dl k with info := if k = o then (s.dl i).info else (s.dl k).info } := by
    intro k hk
    change (Vec.update s.downloads o _).getD k default = _
    rw [Vec.getD_update]
    by_cases hko : k = o
    · rw [if_pos ⟨hko.symm, hk⟩, if_pos hko]
      rfl
    · rw [if_neg (fun h => hko h.1.symm), if_neg hko]
      rfl
  refine ⟨hdl, length_update .., length_fill .., fun k hk hki a ha => ?_⟩
  change (fill s.blockInfo (s.dl i).info ((s.dl i).info + s.blocksPerPiece)
    fun c => s.blockInfo.getD ((s.dl o).info + (c - (s.dl i).info)) default).getD (((s.takeOver i o).dl k).info + a)
      default = _
  rw [hdl k hk, getD_fill]
  by_cases hko : k = o
  · have hcell := lt_of_lt_of_le (Slab.cell_lt S hi ha) (Slab.room S)
    change (s.dl i).info + a < s.blockInfo.length at hcell
    simp only [if_pos hko]
    rw [if_pos (by omega), hko, Nat.add_sub_cancel_left]
    rfl
  simp only [if_neg hko]
  rw [if_neg]
  · rfl
  · rintro ⟨⟨h1, h2⟩, -⟩
    exact Slab.disjoint S hk hi hki ha (b := (s.dl k).info + a - (s.dl i).info) (by omega)
      (by change (s.dl k).info + a = (s.dl i).info + _; omega)

theorem eraseDownloadPiece_book (S : Slabbed s) (hi : i < s.downloads.length) : Slabbed (s.eraseDownloadPiece i) ∧
      (s.eraseDownloadPiece i).book = Function.update s.book (s.dl i).index none := by
  obtain ⟨o, ho, hlast, hdl, hlen, hroom, hblock⟩ := vacate_spec S hi
  generalize hv : s.vacate i = v at *
  have hwv : v.blocksPerPiece = s.blocksPerPiece := by
    obtain ⟨ds, bi, he⟩ := vacate_eq s i
    rw [← hv, he]
  generalize ht : s.eraseDownloadPiece i = t
  have hwt : t.blocksPerPiece = s.blocksPerPiece := by rw [← ht, eraseDownloadPiece, hv]; exact hwv
  have hlent : t.downloads.length + 1 = s.downloads.length := by
    have : t.downloads = v.downloads.eraseIdx i := by rw [← ht, eraseDownloadPiece, hv]; rfl
    rw [this, length_eraseIdx_of_lt (by omega)]
    omega
  have hdlt : ∀ k, t.dl k = v.dl (skip i k) := by
    intro k
    have : t.downloads = v.downloads.eraseIdx i := by rw [← ht, eraseDownloadPiece, hv]; rfl
    rw [dl, this, getD_eraseIdx, skip]
    split <;> rfl
  have hbi : t.blockInfo = v.blockInfo := by rw [← ht, eraseDownloadPiece, hv]; rfl
  have hdl' : ∀ k < t.downloads.length, t.dl k =
      { s.dl (skip i k) with info := if skip i k = o then (s.dl i).info else (s.dl (skip i k)).info } := by
    intro k hk
    rw [hdlt, hdl _ (skip_lt (by omega))]
  have S' : Slabbed t := by
    rw [Slabbed, hwt, hbi, hroom]
    refine Slab.erase S hi ho hlast hlent (fun k hk => ?_) fun k hk => ?_
    · have h := congrArg DownloadingPiece.index (hdl' k hk)
      exact h
    · have h := congrArg DownloadingPiece.info (hdl' k hk)
      exact h
  have hrec : ∀ k < t.downloads.length, t.record k = s.record (skip i k) := by
    intro k hk
    refine record_eq hwt (by rw [hdl' k hk]) fun a ha => ?_
    rw [← hblock _ (skip_lt (by omega)) (skip_ne i k) a ha, block, block, hbi, hdlt]
  refine ⟨S', funext fun q => ext fun r => ?_⟩
  rw [book_eq_some S']
  by_cases hq : q = (s.dl i).index
  · rw [hq, update_self]
    refine iff_of_false ?_ (fun h => by cases h)
    rintro ⟨k, hk, hki, -⟩
    rw [hdl' k hk] at hki
    exact skip_ne i k (Slab.position_unique S (skip_lt (by omega)) hi hki)
  rw [update_of_ne hq, book_eq_some S]
  constructor
  · rintro ⟨k, hk, hki, hr⟩
    rw [hdl' k hk] at hki
    exact ⟨skip i k, skip_lt (by omega), hki, by rw [← hr, hrec k hk]⟩
  rintro ⟨l, hl, hli, hr⟩
  obtain ⟨k, hk, rfl⟩ := exists_skip hl hi (fun e => hq (by rw [← hli, e]))
  refine ⟨k, by omega, ?_, by rw [hrec k (by omega), hr]⟩
  rw [hdl' k (by omega)]
  exact hli

/-! ## Transitions of a block -/

/-- The record of the entry at `i` becomes `r` and the `full` flag of its piece becomes `f`. -/
structure Does (s s' : PiecePicker) (i : Nat) (r : Record) (f : Bool) : Prop extends Edited s s' i where
  now : s'.record i = r
  fullNow : (s'.pos (s.dl i).index).full = f

namespace Does

variable {f : Bool}

theorem refl (s : PiecePicker) (i : Nat) : Does s s i (s.record i) (s.pos (s.dl i).index).full where
  shape := ⟨rfl, rfl, rfl⟩
  length := rfl
  room := rfl
  entry := fun _ => ⟨rfl, rfl⟩
  record := fun _ _ _ => rfl
  flags := fun _ => ⟨rfl, rfl⟩
  full := fun _ _ => rfl
  now := rfl
  fullNow := rfl

section

variable (D : Does s s' i r f)
include D

theorem lt (hi : i < s.downloads.length) : i < s'.downloads.length := by
  rw [D.length]
  exact hi

theorem modifyBlock (S : Slabbed s) (hi : i < s.downloads.length) (hj : j < s.blocksPerPiece)
    (g : BlockInfo → BlockInfo) :
    Does s (s'.modifyBlock i j g) i { r with blocks := Function.update r.blocks j (g (r.blocks j)) } f := by
  have S' := D.slabbed S
  have hj' : j < s'.blocksPerPiece := by rw [D.shape.2.1]; exact hj
  refine ⟨D.toEdited.trans (Edited.modifyBlock S' (D.lt hi) hj' g), ?_, D.fullNow⟩
  rw [record_modifyBlock S' (D.lt hi) hj', D.now, ← record_block hj', D.now]

theorem modifyDl (hi : i < s.downloads.length) {g : DownloadingPiece → DownloadingPiece}
    (hg : ∀ d, (g d).index = d.index ∧ (g d).info = d.info) {c : Record} (hb : c.blocks = r.blocks)
    (hr : ∀ d, d.state = r.speed → d.finished = r.finished → d.writing = r.writing → d.requested = r.requested →
      ((g d).state, (g d).finished, (g d).writing, (g d).requested) =
        (c.speed, c.finished, c.writing, c.requested)) : Does s (s'.modifyDl i g) i c f := by
  refine ⟨D.toEdited.trans (Edited.modifyDl hg s' i), ?_, D.fullNow⟩
  have h := D.now
  have he := hr (s'.dl i) (congrArg speed h) (congrArg finished h) (congrArg writing h) (congrArg requested h)
  simp only [Prod.mk.injEq] at he
  rw [record_modifyDl hg (D.lt hi), h]
  exact Record.ext he.1 he.2.1 he.2.2.1 he.2.2.2 hb.symm

theorem updateFull (hp : (s.dl i).index < s.numPieces) :
    Does s (s'.updateFull i) i r (decide (r.total = s.blocksInPiece (s.dl i).index)) := by
  refine ⟨D.toEdited.trans (Edited.updateFull s' i), D.now, ?_⟩
  have h := full_updateFull (by rw [(D.entry i).1, D.shape.1]; exact hp)
  rw [(D.entry i).1, D.now] at h
  rw [h, blocksInPiece, blocksInPiece, D.shape.1, D.shape.2.1, D.shape.2.2]

end

end Does

section

variable (peer : PeerPtr) (speed : PieceState)

theorem requestBlock_of_downloaded (hst : (s.block i j).state = .writing ∨ (s.block i j).state = .finished) :
    (s.requestBlock i j peer speed).1 = s := by
  unfold requestBlock
  rw [if_pos hst]

theorem requestBlock_does (S : Slabbed s) (hi : i < s.downloads.length) (hj : j < s.blocksPerPiece)
    (hp : (s.dl i).index < s.numPieces) (hst : (s.block i j).state = .none ∨ (s.block i j).state = .requested) :
    Does s (s.requestBlock i j peer speed).1 i ((s.record i).request j peer speed) (if (s.block i j).state = .none
        then decide (((s.record i).request j peer speed).total = s.blocksInPiece (s.dl i).index)
        else (s.pos (s.dl i).index).full) := by
  have hb : ((s.record i).blocks j).state = (s.block i j).state := by rw [record_block hj]
  unfold requestBlock
  rw [if_neg (by rcases hst with h | h <;> simp [h])]
  rcases hst with h | h
  · rw [if_neg (by rw [h]; decide), if_pos h]
    have D1 := (Does.refl s i).modifyDl hi (g := fun dp => { dp with requested := dp.requested + 1 })
      (fun _ => ⟨rfl, rfl⟩) (c := { s.record i with requested := (s.record i).requested + 1 }) rfl
      (fun d h1 h2 h3 h4 => by simp [h1, h2, h3, h4])
    have ht : ({ s.record i with requested := (s.record i).requested + 1 } : Record).total =
        ((s.record i).request j peer speed).total := by
      simp [total, request, move, change, hb, h]
    rw [← ht]
    refine Does.modifyDl (Does.modifyBlock (D1.updateFull hp) S hi hj _) hi ?_ ?_ ?_
    · exact fun _ => ⟨rfl, rfl⟩
    · rfl
    · intro d h1 h2 h3 h4
      simp [h1, h2, h3, h4, request, move, change, hb, h]
  · rw [if_pos h, if_neg (by rw [h]; decide)]
    refine Does.modifyDl (Does.modifyBlock (Does.refl s i) S hi hj _) hi ?_ ?_ ?_
    · exact fun _ => ⟨rfl, rfl⟩
    · rfl
    · intro d h1 h2 h3 h4
      simp [h1, h2, h3, h4, request, move, change, hb, h]

theorem clearSpeed_does {f : Bool} (D : Does s s' i r f) (hi : i < s.downloads.length) :
    Does s (s'.clearSpeed i) i r.clearSpeed f := by
  refine Does.modifyDl D hi ?_ ?_ ?_
  · exact fun _ => ⟨rfl, rfl⟩
  · rfl
  · intro d h1 h2 h3 h4
    simp [h1, h2, h3, h4, Record.clearSpeed]

section

variable (S : Slabbed s) (hi : i < s.downloads.length) (hj : j < s.blocksPerPiece)
include S hi hj

theorem writeBlock_does : Does s (s.writeBlock i j peer).1 i
      (if (s.block i j).state = .writing ∨ (s.block i j).state = .finished then (s.record i).credit j peer
        else (s.record i).write j peer) (s.pos (s.dl i).index).full := by
  have hb : ((s.record i).blocks j).state = (s.block i j).state := by rw [record_block hj]
  have D1 := (Does.refl s i).modifyBlock S hi hj fun b => { b with peer := peer }
  unfold writeBlock
  by_cases h : (s.block i j).state = .writing ∨ (s.block i j).state = .finished
  · rw [if_pos h, if_pos h]
    rw [credit_eq]
    exact D1
  rw [if_neg h, if_neg h]
  refine clearSpeed_does ?_ hi
  have D2 := D1.modifyDl hi (g := fun dp =>
      { dp with
        requested := if (s.block i j).state = .requested then dp.requested - 1 else dp.requested
        writing := dp.writing + 1 }) (fun _ => ⟨rfl, rfl⟩)
    (c := { (s.record i).move j { peer := peer, state := .writing, numPeers := 0 } (s.record i).speed with
      blocks := Function.update (s.record i).blocks j { (s.record i).blocks j with peer := peer } }) rfl (by
      intro d h1 h2 h3 h4
      cases hs : (s.block i j).state <;> simp_all [move, change]; omega)
  convert D2.modifyBlock S hi hj fun b => { b with state := .writing, numPeers := 0 } using 1
  simp [move]

theorem finishBlock_does (hst : (s.block i j).state = .none ∨ (s.block i j).state = .writing) :
    Does s (s.finishBlock i j peer) i ((s.record i).finish j peer) (s.pos (s.dl i).index).full := by
  have hb : ((s.record i).blocks j).state = (s.block i j).state := by rw [record_block hj]
  unfold finishBlock
  rw [if_neg (by rcases hst with h | h <;> simp [h])]
  refine Does.modifyDl (Does.modifyBlock (Does.refl s i) S hi hj _) hi ?_ ?_ ?_
  · exact fun _ => ⟨rfl, rfl⟩
  · rfl
  intro d h1 h2 h3 h4
  rcases hst with h | h
  · simp [h1, h2, h3, h4, finish, move, change, hb, h]
  · simp [h1, h2, h3, h4, finish, move, change, hb, h]
    omega

theorem failBlock_does (hp : (s.dl i).index < s.numPieces) (hst : (s.block i j).state = .writing) :
    Does s (s.failBlock i j) i ((s.record i).free j)
      (decide (((s.record i).free j).total = s.blocksInPiece (s.dl i).index)) := by
  have hb : ((s.record i).blocks j).state = .writing := by rw [record_block hj, hst]
  have D1 := (Does.refl s i).modifyDl hi
    (g := fun dp => { dp with writing := if (s.block i j).state = .writing then dp.writing - 1 else dp.writing })
    (fun _ => ⟨rfl, rfl⟩) (c := { s.record i with writing := (s.record i).writing - 1 }) rfl
    (fun d h1 h2 h3 h4 => by simp [h1, h2, h3, h4, hst])
  have D2 := D1.modifyBlock S hi hj fun b => { b with peer := .none, state := .none }
  have he : (s.record i).free j = { s.record i with
      writing := (s.record i).writing - 1
      blocks := Function.update (s.record i).blocks j
        { (s.record i).blocks j with peer := .none, state := .none } } := by
    simp [free, move, change, hb]
    omega
  rw [he]
  exact D2.updateFull hp

theorem withdrawPeer_does :
    Does s (s.withdrawPeer i j peer) i ((s.record i).withdraw j peer) (s.pos (s.dl i).index).full := by
  rw [withdraw_eq]
  exact (Does.refl s i).modifyBlock S hi hj _

end

theorem freeBlock_does {f : Bool} (D : Does s s' i r f) (S : Slabbed s) (hi : i < s.downloads.length)
    (hj : j < s.blocksPerPiece) (hp : (s.dl i).index < s.numPieces) (hst : (r.blocks j).state = .requested) :
    Does s (s'.freeBlock i j) i (r.free j) (decide ((r.free j).total = s.blocksInPiece (s.dl i).index)) := by
  refine Does.updateFull (Does.modifyDl (Does.modifyBlock D S hi hj _) hi ?_ ?_ ?_) hp
  · exact fun _ => ⟨rfl, rfl⟩
  · rfl
  · intro d h1 h2 h3 h4
    simp [h1, h2, h3, h4, free, move, change, hst]
    omega

end

/-!
## Partial-piece bookkeeping

Three properties of the download queue, each over all runs of the picker:

* `Ledger`: the entries, the `downloading` flags and the counters fit together. Every call keeps it;
* `Peered`: a block has `num_peers > 0` exactly if it is requested. `num_peers` has 14 bits, so a call of
  `mark_as_downloading` that wraps it breaks the property, and no other call does (`partial_piece_bookkeeping`);
* `NothingHidden`: a piece marked `full` has no free block. It is broken exactly by a `mark_as_finished` that adds an
  entry for a piece with a stale flag (`full_hides_nothing`).

`Amends` says what a call does to the queue: one piece gets another record, or none.
-/

open PiecePos
open Function (update_idem)

/-! ## What a call does to the queue -/

/-- The record of piece `p` becomes `o` and its `full` flag becomes `f`. -/
structure Amends (s s' : PiecePicker) (p : Nat) (o : Option Record) (f : Bool) : Prop where
  shape : s'.numPieces = s.numPieces ∧ s'.blocksPerPiece = s.blocksPerPiece ∧
    s'.blocksInLastPiece = s.blocksInLastPiece
  slabbed : Slabbed s'
  book : s'.book = Function.update s.book p o
  flag : ∀ q, (s'.pos q).downloading = if q = p then o.isSome else (s.pos q).downloading
  «have» : ∀ q, (s'.pos q).have = (s.pos q).have
  full : ∀ q, (s'.pos q).full = if q = p then f else (s.pos q).full

namespace Amends

variable {o o' : Option Record} {f f' : Bool}

theorem trans (A : Amends s s' p o f) (B : Amends s' s'' p o' f') : Amends s s'' p o' f' where
  shape := ⟨B.shape.1.trans A.shape.1, B.shape.2.1.trans A.shape.2.1, B.shape.2.2.trans A.shape.2.2⟩
  slabbed := B.slabbed
  book := by rw [B.book, A.book, update_idem]
  flag := fun q => by
    rw [B.flag]
    split_ifs with hq
    · rfl
    · rw [A.flag, if_neg hq]
  «have» := fun q => (B.have q).trans (A.have q)
  full := fun q => by
    rw [B.full]
    split_ifs with hq
    · rfl
    · rw [A.full, if_neg hq]

theorem blocksInPiece (A : Amends s s' p o f) (q : Nat) : s'.blocksInPiece q = s.blocksInPiece q := by
  unfold PiecePicker.blocksInPiece
  rw [A.shape.1, A.shape.2.1, A.shape.2.2]

end Amends

variable {f : Bool} {t : PiecePicker}

theorem Does.amends (D : Does s s' i r f) (S : Slabbed s) (hi : i < s.downloads.length)
    (hd : (s.pos (s.dl i).index).downloading = true) : Amends s s' (s.dl i).index (some r) f where
  shape := D.shape
  slabbed := D.slabbed S
  book := by rw [D.toEdited.book S hi, D.now]
  flag := fun q => by
    rw [(D.flags q).1]
    split_ifs with hq
    · rw [hq, hd]
      rfl
    · rfl
  «have» := fun q => (D.flags q).2
  full := fun q => by
    split_ifs with hq
    · rw [hq, D.fullNow]
    · exact D.full q hq

theorem eraseDownloadPiece_amends (S : Slabbed s) (hi : i < s.downloads.length) :
    Amends s (s.eraseDownloadPiece i) (s.dl i).index none (s.pos (s.dl i).index).full := by
  obtain ⟨S', hb⟩ := eraseDownloadPiece_book S hi
  obtain ⟨bi, ds, hv⟩ := vacate_eq s i
  have hpos := pos_eraseDownloadPiece s i
  refine ⟨?_, S', hb, fun q => ?_, fun q => ?_, fun q => ?_⟩
  · rw [eraseDownloadPiece, hv]
    exact ⟨numPieces_modifyPos .., rfl, rfl⟩
  · rw [hpos]
    by_cases hq : (s.dl i).index = q ∧ q < s.numPieces
    · rw [if_pos hq, if_pos hq.1.symm]
      rfl
    rw [if_neg hq]
    split_ifs with he
    · rw [pos, Vec.getD_of_le _ (by have := fun h => hq ⟨he.symm, h⟩; exact Nat.le_of_not_lt this)]
      rfl
    · rfl
  · rw [hpos]
    split <;> rfl
  · rw [hpos]
    split
    · rename_i hq
      rw [if_pos hq.1.symm, hq.1]
    split
    · rename_i he
      rw [he]
    · rfl

structure Opened (s t : PiecePicker) (p i : Nat) : Prop where
  shape : t.numPieces = s.numPieces ∧ t.blocksPerPiece = s.blocksPerPiece ∧ t.blocksInLastPiece = s.blocksInLastPiece
  slabbed : Slabbed t
  lt : i < t.downloads.length
  index : (t.dl i).index = p
  record : t.record i = {}
  book : t.book = Function.update s.book p (some {})
  flag : ∀ q, (t.pos q).downloading = if q = p then true else (s.pos q).downloading
  «have» : ∀ q, (t.pos q).have = (s.pos q).have
  full : ∀ q, (t.pos q).full = (s.pos q).full

theorem opened (S : Slabbed s) (hw : 0 < s.blocksPerPiece) (hp : p < s.numPieces) (hnew : s.book p = none) :
    Opened s ((s.flag p).addDownloadPiece p).1 p ((s.flag p).addDownloadPiece p).2 := by
  have hpos : ∀ q, (s.flag p).pos q = if p = q ∧
    q < s.numPieces then { s.pos q with downloading := true } else s.pos q :=
    fun q => pos_modifyPos ..
  have S1 : Slabbed (s.flag p) := S
  obtain ⟨S2, hi, hidx, hrec, hbook⟩ := addDownloadPiece_book S1 hw hnew rfl
  refine ⟨⟨numPieces_modifyPos .., rfl, rfl⟩, S2, hi, hidx, hrec, hbook, fun q => ?_, fun q => ?_, fun q => ?_⟩
  · change ((s.flag p).pos q).downloading = _
    rw [hpos]
    by_cases hq : q = p
    · rw [if_pos ⟨hq.symm, hq ▸ hp⟩, if_pos hq]
    · rw [if_neg (fun h => hq h.1.symm), if_neg hq]
  · change ((s.flag p).pos q).have = _
    rw [hpos]
    split <;> rfl
  · change ((s.flag p).pos q).full = _
    rw [hpos]
    split <;> rfl

theorem Opened.amends (O : Opened s t p i) (D : Does t s' i r f) : Amends s s' p (some r) f := by
  have A := D.amends O.slabbed O.lt (by rw [O.index, O.flag, if_pos rfl])
  rw [O.index] at A
  obtain ⟨h1, h2, h3⟩ := A.shape
  obtain ⟨k1, k2, k3⟩ := O.shape
  refine ⟨⟨h1.trans k1, h2.trans k2, h3.trans k3⟩, A.slabbed, ?_, fun q => ?_, fun q => ?_, fun q => ?_⟩
  · rw [A.book, O.book, update_idem]
  · rw [A.flag, O.flag]
    split <;> rfl
  · rw [A.have, O.have]
  · rw [A.full, O.full]

theorem Opened.updateFull_amends (O : Opened s t p i) (hp : p < s.numPieces)
    (D : Does t s' i r f) : Amends s (s'.updateFull i) p (some r) (decide (r.total = s.blocksInPiece p)) := by
  obtain ⟨k1, k2, k3⟩ := O.shape
  have D' := D.updateFull (by rw [O.index, k1]; exact hp)
  rw [O.index, blocksInPiece, k1, k2, k3] at D'
  exact O.amends D'

theorem Opened.does (O : Opened s t p i) : Does t t i {} (s.pos p).full := by
  have D := Does.refl t i
  rw [O.record, O.index, O.full] at D
  exact D

section

variable (peer : PeerPtr) (speed : PieceState)

section

variable (S : Slabbed s) (hp : p < s.numPieces) (hj : j < s.blocksPerPiece) (hnew : s.book p = none)
include S hp hj hnew

theorem openRequested_amends :
    Amends s ((s.flag p).openRequested p j peer speed) p (some (({} : Record).request j peer speed))
      (decide ((({} : Record).request j peer speed).total = s.blocksInPiece p)) := by
  have O := opened S (by omega) hp hnew
  refine O.updateFull_amends hp (Does.modifyDl (Does.modifyBlock O.does O.slabbed O.lt hj _) O.lt ?_ ?_ ?_)
  · exact fun _ => ⟨rfl, rfl⟩
  · rfl
  · intro d h1 h2 h3 h4
    simp [h2, h3, h4, Record.request, Record.move, Record.change]

theorem openWriting_amends : Amends s ((s.flag p).openWriting p j peer) p (some (({} : Record).write j peer))
      (decide ((({} : Record).write j peer).total = s.blocksInPiece p)) := by
  have O := opened S (by omega) hp hnew
  refine O.updateFull_amends hp (Does.modifyDl (Does.modifyBlock O.does O.slabbed O.lt hj _) O.lt ?_ ?_ ?_)
  · exact fun _ => ⟨rfl, rfl⟩
  · rfl
  · intro d h1 h2 h3 h4
    simp [h2, h4, Record.write, Record.clearSpeed, Record.move, Record.change]

theorem openFinished_amends :
    Amends s ((s.flag p).openFinished p j peer) p (some (({} : Record).finish j peer)) (s.pos p).full := by
  have O := opened S (by omega) hp hnew
  refine O.amends (Does.modifyDl (Does.modifyBlock O.does O.slabbed O.lt hj _) O.lt ?_ ?_ ?_)
  · exact fun _ => ⟨rfl, rfl⟩
  · rfl
  · intro d h1 h2 h3 h4
    simp [h2, h3, h4, Record.finish, Record.move, Record.change]

end

end

/-! ## The three properties -/

/-- The entries, the flags and the counters fit together. -/
structure Ledger (s : PiecePicker) : Prop where
  slabbed : Slabbed s
  width : 0 < s.numPieces → 0 < s.blocksPerPiece
  last : s.blocksInLastPiece ≤ s.blocksPerPiece
  flag : ∀ q, (s.pos q).downloading = (s.book q).isSome
  lacking : ∀ q, (s.book q).isSome → (s.pos q).have = false
  ok : ∀ q r, s.book q = some r → r.Ok (s.blocksInPiece q)

def Peered (s : PiecePicker) : Prop := ∀ q r, s.book q = some r → r.Peers (s.blocksInPiece q)

def NothingHidden (s : PiecePicker) : Prop :=
  ∀ q r, s.book q = some r → (s.pos q).full = true → r.Solid (s.blocksInPiece q)

theorem Ledger.lt_numPieces (L : Ledger s) (h : (s.book p).isSome) : p < s.numPieces := by
  rw [← L.flag] at h
  by_contra hlt
  rw [pos, Vec.getD_of_le _ (Nat.le_of_not_lt hlt)] at h
  cases h

theorem Ledger.blocksInPiece_le (L : Ledger s) (q : Nat) : s.blocksInPiece q ≤ s.blocksPerPiece := by
  unfold blocksInPiece
  split
  · exact L.last
  · exact Nat.le_refl _

namespace Amends

variable {o : Option Record} {f : Bool}

theorem ledger (A : Amends s s' p o f) (L : Ledger s) (h : ∀ r, o = some r → r.Ok (s.blocksInPiece p))
    (hh : o.isSome → (s.pos p).have = false) : Ledger s' where
  slabbed := A.slabbed
  width := by rw [A.shape.1, A.shape.2.1]; exact L.width
  last := by rw [A.shape.2.1, A.shape.2.2]; exact L.last
  flag := fun q => by
    rw [A.flag, A.book]
    split_ifs with hq
    · rw [hq, update_self]
    · rw [update_of_ne hq, L.flag]
  lacking := fun q hq => by
    rw [A.have]
    rw [A.book] at hq
    by_cases he : q = p
    · subst he
      rw [update_self] at hq
      exact hh hq
    · rw [update_of_ne he] at hq
      exact L.lacking q hq
  ok := fun q r hq => by
    rw [A.blocksInPiece]
    rw [A.book] at hq
    by_cases he : q = p
    · subst he
      rw [update_self] at hq
      exact h r hq
    · rw [update_of_ne he] at hq
      exact L.ok q r hq

theorem peered_iff (A : Amends s s' p o f) (hs : Peered s) :
    Peered s' ↔ ∀ r, o = some r → r.Peers (s.blocksInPiece p) := by
  constructor
  · intro h r hr
    rw [← A.blocksInPiece]
    exact h p r (by rw [A.book, update_self, hr])
  intro h q r hq
  rw [A.blocksInPiece]
  rw [A.book] at hq
  by_cases he : q = p
  · subst he
    rw [update_self] at hq
    exact h r hq
  · rw [update_of_ne he] at hq
    exact hs q r hq

theorem nothingHidden_iff (A : Amends s s' p o f) (hs : NothingHidden s) :
    NothingHidden s' ↔ ∀ r, o = some r → f = true → r.Solid (s.blocksInPiece p) := by
  constructor
  · intro h r hr hf
    rw [← A.blocksInPiece]
    exact h p r (by rw [A.book, update_self, hr]) (by rw [A.full, if_pos rfl, hf])
  intro h q r hq hf
  rw [A.blocksInPiece]
  rw [A.book] at hq
  rw [A.full] at hf
  by_cases he : q = p
  · subst he
    rw [update_self] at hq
    rw [if_pos rfl] at hf
    exact h r hq hf
  · rw [update_of_ne he] at hq
    rw [if_neg he] at hf
    exact hs q r hq hf

end Amends

/-- All three properties are kept. -/
structure Keeps (s s' : PiecePicker) : Prop where
  ledger : Ledger s'
  peered : Peered s → Peered s'
  nothingHidden : NothingHidden s → NothingHidden s'

theorem Amends.keeps_none {f : Bool} (A : Amends s s' p none f) (L : Ledger s) : Keeps s s' where
  ledger := A.ledger L (fun _ h => by cases h) (fun h => by cases h)
  peered := fun h => (A.peered_iff h).mpr fun _ h => by cases h
  nothingHidden := fun h => (A.nothingHidden_iff h).mpr fun _ h => by cases h

theorem Amends.keeps_some {f : Bool} (A : Amends s s' p (some r) f) (L : Ledger s) (hok : r.Ok (s.blocksInPiece p))
    (hh : (s.pos p).have = false) (hp : Peered s → r.Peers (s.blocksInPiece p))
    (hf : NothingHidden s → f = true → r.Solid (s.blocksInPiece p)) : Keeps s s' where
  ledger := A.ledger L (fun _ h => by cases h; exact hok) (fun _ => hh)
  peered := fun h => (A.peered_iff h).mpr fun _ e => by cases e; exact hp h
  nothingHidden := fun h => (A.nothingHidden_iff h).mpr fun _ e => by cases e; exact hf h

theorem Keeps.refl (L : Ledger s) : Keeps s s := ⟨L, id, id⟩

theorem Keeps.trans (h1 : Keeps s s') (h2 : Keeps s' s'') : Keeps s s'' :=
  ⟨h2.ledger, fun h => h2.peered (h1.peered h), fun h => h2.nothingHidden (h1.nothingHidden h)⟩

/-! ## Calls that leave the queue alone -/

structure SameBook (s s' : PiecePicker) : Prop where
  shape : s'.numPieces = s.numPieces ∧ s'.blocksPerPiece = s.blocksPerPiece ∧
    s'.blocksInLastPiece = s.blocksInLastPiece
  slabbed : Slabbed s → Slabbed s'
  book : ∃ g : Record → Record, (∀ r : Record, r.Alike (g r)) ∧ ∀ q, s'.book q = (s.book q).map g
  flags : ∀ q, (s'.pos q).downloading = (s.pos q).downloading ∧ (s'.pos q).full = (s.pos q).full
  «have» : ∀ q, (s.book q).isSome → (s'.pos q).have = (s.pos q).have

namespace SameBook

theorem blocksInPiece (h : SameBook s s') (q : Nat) : s'.blocksInPiece q = s.blocksInPiece q := by
  unfold PiecePicker.blocksInPiece
  rw [h.shape.1, h.shape.2.1, h.shape.2.2]

theorem keeps (h : SameBook s s') (L : Ledger s) : Keeps s s' := by
  obtain ⟨g, hg, hb⟩ := h.book
  have hsome : ∀ q, (s'.book q).isSome = (s.book q).isSome := fun q => by rw [hb, isSome_map]
  have hrec : ∀ q r', s'.book q = some r' → ∃ r, s.book q = some r ∧ r.Alike r' := by
    intro q r' hq
    rw [hb, map_eq_some_iff] at hq
    obtain ⟨r, h1, rfl⟩ := hq
    exact ⟨r, h1, hg r⟩
  refine ⟨⟨h.slabbed L.slabbed, ?_, ?_, fun q => ?_, fun q hq => ?_, fun q r' hq => ?_⟩, fun hp q r' hq => ?_,
    fun hn q r' hq hf => ?_⟩
  · rw [h.shape.1, h.shape.2.1]
    exact L.width
  · rw [h.shape.2.1, h.shape.2.2]
    exact L.last
  · rw [(h.flags q).1, L.flag, hsome]
  · rw [hsome] at hq
    rw [h.have q hq]
    exact L.lacking q hq
  · obtain ⟨r, h1, h2⟩ := hrec q r' hq
    rw [h.blocksInPiece]
    exact h2.ok (L.ok q r h1)
  · obtain ⟨r, h1, h2⟩ := hrec q r' hq
    rw [h.blocksInPiece]
    exact h2.peers (hp q r h1)
  · obtain ⟨r, h1, h2⟩ := hrec q r' hq
    rw [h.blocksInPiece]
    rw [(h.flags q).2] at hf
    exact h2.solid (hn q r h1 hf)

theorem of_queue (hq : s'.downloads = s.downloads ∧ s'.blockInfo = s.blockInfo)
    (hshape : s'.numPieces = s.numPieces ∧ s'.blocksPerPiece = s.blocksPerPiece ∧
      s'.blocksInLastPiece = s.blocksInLastPiece)
    (hflags : ∀ q, (s'.pos q).downloading = (s.pos q).downloading ∧ (s'.pos q).full = (s.pos q).full)
    (hhave : ∀ q, (s.book q).isSome → (s'.pos q).have = (s.pos q).have) : SameBook s s' where
  shape := hshape
  slabbed := fun S => by rw [Slabbed, hq.1, hq.2, hshape.2.1]; exact S
  book := by
    refine ⟨id, fun r => ⟨rfl, fun _ => ⟨rfl, rfl⟩⟩, fun q => ?_⟩
    have hrec : s'.record = s.record := by
      funext k
      simp only [PiecePicker.record, block, dl, hq.1, hq.2, hshape.2.1]
    have hfind : s'.findDlPiece q = s.findDlPiece q := by
      unfold findDlPiece lowerBound
      rw [hq.1]
    rw [Option.map_id, PiecePicker.book, hrec, hfind]
    rfl
  flags := hflags
  «have» := hhave

theorem of_refiled (h : Refiled s s') : SameBook s s' := by
  have hnum := h.numPieces
  have hpos := h.pos
  obtain ⟨⟨ps, bs, m, d, he, -⟩, -⟩ := h
  refine of_queue (by rw [he]; exact ⟨rfl, rfl⟩) ⟨hnum, by rw [he], by rw [he]⟩ (fun q => ?_) fun q _ => (hpos q).2
  have h1 := congrArg downloading (hpos q).1
  have h2 := congrArg full (hpos q).1
  exact ⟨h1, h2⟩

variable {f : PiecePos → PiecePos}

theorem of_pos (hq : s'.downloads = s.downloads ∧ s'.blockInfo = s.blockInfo)
    (hshape : s'.numPieces = s.numPieces ∧ s'.blocksPerPiece = s.blocksPerPiece ∧
      s'.blocksInLastPiece = s.blocksInLastPiece) (hf : ∀ x, (f x).downloading = x.downloading ∧ (f x).full = x.full)
    (hpos : ∀ q, s'.pos q = s.pos q ∨ s'.pos q = f (s.pos q) ∧
      ((s.book q).isSome → (f (s.pos q)).have = (s.pos q).have)) :
    SameBook s s' := by
  refine of_queue hq hshape (fun q => ?_) fun q hb => ?_
  · rcases hpos q with h | ⟨h, -⟩
    · rw [h]
      exact ⟨rfl, rfl⟩
    · rw [h]
      exact hf _
  · rcases hpos q with h | ⟨h, hh⟩
    · rw [h]
    · rw [h]
      exact hh hb

theorem modifyPos (s : PiecePicker) (p : Nat) (hf : ∀ x, (f x).downloading = x.downloading ∧ (f x).full = x.full)
    (hh : (s.book p).isSome → (f (s.pos p)).have = (s.pos p).have) : SameBook s (s.modifyPos p f) := by
  refine of_pos ⟨rfl, rfl⟩ ⟨numPieces_modifyPos .., rfl, rfl⟩ hf fun q => ?_
  rw [pos_modifyPos]
  split_ifs with hq
  · rw [← hq.1]
    exact Or.inr ⟨rfl, hh⟩
  · exact Or.inl rfl

theorem modifyBits (s : PiecePicker) (bits : Bitfield)
    (hf : ∀ x, (f x).downloading = x.downloading ∧ (f x).full = x.full) (hh : ∀ x, (f x).have = x.have) :
    SameBook s (s.modifyBits bits f) :=
  of_pos ⟨rfl, rfl⟩ ⟨numPieces_modifyBits .., rfl, rfl⟩ hf fun q => by
    rw [pos_modifyBits]
    split
    · exact Or.inr ⟨rfl, fun _ => hh _⟩
    · exact Or.inl rfl

theorem clearPeer (s : PiecePicker) (peer : PeerPtr) : SameBook s (s.clearPeer peer) where
  shape := ⟨rfl, rfl, rfl⟩
  slabbed := fun S => Slab.congr S rfl (fun _ => rfl) (fun _ => rfl) (by simp [PiecePicker.clearPeer])
  book := by
    let clear (b : BlockInfo) : BlockInfo := if b.peer = peer then { b with peer := .none } else b
    have hclear : ∀ b, (clear b).state = b.state ∧ (clear b).numPeers = b.numPeers := fun b => by
      simp only [clear]
      split <;> exact ⟨rfl, rfl⟩
    have hempty : clear {} = {} := by
      simp only [clear]
      split <;> rfl
    refine ⟨fun r => { r with blocks := fun j => clear (r.blocks j) }, fun r => ⟨rfl, fun j => hclear _⟩, fun q => ?_⟩
    simp only [PiecePicker.book, Option.map_map]
    congr 1
    funext k
    refine Record.ext rfl rfl rfl rfl (funext fun j => ?_)
    change (if j < s.blocksPerPiece then (s.blockInfo.map clear).getD ((s.dl k).info + j) default else {}) =
      clear (if j < s.blocksPerPiece then s.blockInfo.getD ((s.dl k).info + j) default else {})
    by_cases hj : j < s.blocksPerPiece
    · rw [if_pos hj, if_pos hj, Vec.getD_map]
      split_ifs with hlen
      · rfl
      · rw [Vec.getD_of_le _ (Nat.le_of_not_lt hlen)]
        exact hempty.symm
    · rw [if_neg hj, if_neg hj, hempty]
  flags := fun _ => ⟨rfl, rfl⟩
  «have» := fun _ _ => rfl

end SameBook

/-! ## Calls on pieces -/

theorem init_keeps {b l n : Nat} (hb : 0 < b) (hl : l ≤ b) : Keeps s (s.init b l n) := by
  have hbook : ∀ q, (s.init b l n).book q = none := fun q => rfl
  have hdl : ∀ q, ((s.init b l n).pos q).downloading = false := by
    intro q
    simp only [pos, init, List.getD_eq_getElem?_getD, List.getElem?_map]
    cases (Vec.resize s.pieceMap n {})[q]? <;> rfl
  refine ⟨⟨Slab.nil .., fun _ => hb, ?_, fun q => ?_, fun q hq => ?_, fun q r hq => ?_⟩, fun _ q r hq => ?_,
    fun _ q r hq => ?_⟩
  · change (if l = 0 then b else l) ≤ b
    split
    · exact Nat.le_refl b
    · exact hl
  · rw [hdl, hbook]
    rfl
  · rw [hbook] at hq
    cases hq
  · rw [hbook] at hq
    cases hq
  · rw [hbook] at hq
    cases hq
  · rw [hbook] at hq
    cases hq

section

variable (L : Ledger s)
include L

theorem eraseDownloadPiece_keeps (hi : i < s.downloads.length) : Keeps s (s.eraseDownloadPiece i) :=
  (eraseDownloadPiece_amends L.slabbed hi).keeps_none L

theorem dropEntry_keeps (p : Nat) : Keeps s (s.dropEntry p) ∧ (s.dropEntry p).book p = none := by
  unfold dropEntry
  split_ifs with hd
  · rw [L.flag] at hd
    cases hi : s.findDlPiece p with
    | none =>
      rw [book, hi] at hd
      cases hd
    | some i =>
      obtain ⟨h1, h2⟩ := findDlPiece_index hi
      refine ⟨eraseDownloadPiece_keeps L h1, ?_⟩
      rw [(eraseDownloadPiece_amends L.slabbed h1).book, h2, update_self]
  · rw [L.flag] at hd
    exact ⟨Keeps.refl L, by simpa using hd⟩

theorem weHaveCore_sameBook (p : Nat) : SameBook (s.dropEntry p) (s.weHaveCore p) := by
  obtain ⟨-, h2⟩ := dropEntry_keeps L p
  unfold weHaveCore
  generalize s.dropEntry p = t at h2 ⊢
  split
  · exact ⟨⟨rfl, rfl, rfl⟩, id, ⟨id, fun r => ⟨rfl, fun _ => ⟨rfl, rfl⟩⟩, fun q => by simp⟩, fun _ => ⟨rfl, rfl⟩,
      fun _ _ => rfl⟩
  obtain ⟨c, r, hc⟩ := closeCursors_eq ((t.countGain p).modifyPos p setHave) p
  have h := (SameBook.modifyPos t p (f := setHave) (fun _ => ⟨rfl, rfl⟩) (fun h => by rw [h2] at h; cases h))
  unfold gainPiece
  rw [hc]
  exact ⟨h.shape, h.slabbed, h.book, h.flags, h.have⟩

theorem weHaveCore_keeps (p : Nat) : Keeps s (s.weHaveCore p) :=
  (dropEntry_keeps L p).1.trans ((weHaveCore_sameBook L p).keeps (dropEntry_keeps L p).1.ledger)

theorem losePiece_sameBook (hp : (s.pos p).downloading = false) : SameBook s (s.losePiece p) := by
  have hb : (s.book p).isSome = false := by rw [← L.flag, hp]
  have h := (SameBook.modifyPos s p (f := setNotHave) (fun _ => ⟨rfl, rfl⟩) (fun h => by rw [hb] at h; cases h))
  unfold losePiece
  split
  · exact ⟨h.shape, h.slabbed, h.book, h.flags, h.have⟩
  · obtain ⟨c, r, hc⟩ := reopenCursors_eq s p
    rw [hc]
    exact ⟨h.shape, h.slabbed, h.book, h.flags, h.have⟩

end

theorem changePriority_sameBook (s : PiecePicker) (p prio : Nat) : SameBook s (s.changePriority p prio).1 := by
  obtain ⟨nf, nhf, c, r, hc⟩ := changePriority_eq s p prio
  have h := (SameBook.modifyPos s p (f := fun x => { x with piecePriority := prio }) (fun _ => ⟨rfl, rfl⟩)
    (fun _ => rfl))
  rw [hc]
  exact ⟨h.shape, h.slabbed, h.book, h.flags, h.have⟩

theorem incRefcountAll_sameBook (s : PiecePicker) : SameBook s s.incRefcountAll :=
  SameBook.of_queue ⟨rfl, rfl⟩ ⟨rfl, rfl, rfl⟩ (fun _ => ⟨rfl, rfl⟩) fun _ _ => rfl

theorem decRefcountAll_sameBook (s : PiecePicker) : SameBook s s.decRefcountAll := by
  unfold decRefcountAll
  split
  · exact SameBook.of_queue ⟨rfl, rfl⟩ ⟨rfl, rfl, rfl⟩ (fun _ => ⟨rfl, rfl⟩) fun _ _ => rfl
  refine SameBook.of_pos ⟨rfl, rfl⟩ ⟨by simp [numPieces], rfl, rfl⟩ (f := decPeerCount)
    (fun _ => ⟨rfl, rfl⟩) fun q => ?_
  rw [show ({ s with pieceMap := s.pieceMap.map decPeerCount, dirty := true } : PiecePicker).pos q = _
    from pos_mapPos s decPeerCount q]
  split
  · exact Or.inr ⟨rfl, fun _ => rfl⟩
  · exact Or.inl rfl

end Libtorrent.Picker.PiecePicker
