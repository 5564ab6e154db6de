import Mathlib.Data.List.TakeWhile
import Libtorrent.Lib.Components
import Libtorrent.Metainfo.Parse

/-!
# No path traversal

A path is clean if it has no NUL, does not start with a slash and has no component `.` or `..`. `sanitize_path` makes a
clean path of anything, and each later step keeps it clean: the repair of the encoding, which replaces bytes by `_` and
may cut the end off (`Repairs`), the renaming of duplicates, and the way a `file_storage` takes a path apart and puts it
together again.
-/

namespace Libtorrent.Metainfo

open Bencode Components Decimal List

def Harmless (c : Bytes) : Prop := c ≠ [46] ∧ c ≠ [46, 46]

def NoTraversal (path : Bytes) : Prop := path.head? ≠ some 47 ∧ ∀ c ∈ path.splitOn 47, Harmless c

structure Clean (path : Bytes) : Prop where
  nul : 0 ∉ path
  relative : path.head? ≠ some 47
  comps : All 47 Harmless [] path

variable {path c s a b element p t f name buf rootDir : Bytes} {x : UInt8} {files : List Bytes} {n : Nat}
  {fs out : FileStorage} {e : InternalFileEntry} {diff : Int} {copy : InfoCopy} {info l : LazyEntry}

theorem Clean.noTraversal (h : Clean path) : NoTraversal path := ⟨h.relative, all_iff.mp h.comps⟩

theorem harmless_of_mem (hx : x ∈ c) (hne : x ≠ 46) : Harmless c := by
  constructor
  · rintro rfl
    simp at hx
    exact hne hx
  · rintro rfl
    simp at hx
    exact hne hx

theorem harmless_of_not_mem (h : 46 ∉ c) : Harmless c := by
  constructor
  · rintro rfl
    simp at h
  · rintro rfl
    simp at h

theorem harmless_of_length (h : 2 < c.length) : Harmless c := by
  constructor
  · rintro rfl
    simp at h
  · rintro rfl
    simp at h

theorem clean_nil : Clean [] := ⟨by simp, by simp, by simp [All, Harmless]⟩

theorem clean_component (hnul : 0 ∉ c) (hslash : 47 ∉ c) (h : Harmless c) : Clean c := by
  refine ⟨hnul, fun hhead => hslash (mem_of_mem_head? (by rw [hhead]; rfl)), ?_⟩
  rw [all_of_not_mem hslash]
  exact h

theorem cStr_of_not_mem (h : 0 ∉ s) : cStr s = s := by
  rw [cStr, takeWhile_eq_self_iff]
  intro x hx
  simpa using fun e : x = 0 => h (e ▸ hx)

theorem not_mem_cStr (s : Bytes) : 0 ∉ cStr s := by
  intro h
  simpa using mem_takeWhile_imp h

/-! ## Joining -/

theorem getLast?_eq_concat (h : s.getLast? = some x) : ∃ a, s = a ++ [x] :=
  ⟨s.dropLast, (dropLast_append_getLast? x h).symm⟩

theorem Clean.combinePath (ha : Clean a) (hb : Clean b) : Clean (combinePath a b) := by
  unfold Metainfo.combinePath
  split
  · exact hb
  rename_i hempty
  split
  · exact ha
  rw [cStr_of_not_mem ha.nul, cStr_of_not_mem hb.nul]
  obtain ⟨hclosed, hlast⟩ := (all_iff_closed _ _).mp ha.comps
  have hne : a ≠ [] := fun h => hempty (Or.inl h)
  refine ⟨?_, ?_, ?_⟩
  · have hsep : (0 : UInt8) ∉ (if a.getLast? ≠ some 47 then ([47] : Bytes) else []) := by
      split <;> simp
    simp only [mem_append, not_or]
    exact ⟨⟨ha.nul, hsep⟩, hb.nul⟩
  · rw [append_assoc, head?_append_of_ne_nil _ hne]
    exact ha.relative
  rw [append_assoc, Components.all_append]
  refine ⟨hclosed, ?_⟩
  by_cases hend : a.getLast? = some 47
  · obtain ⟨a', rfl⟩ := getLast?_eq_concat hend
    rw [if_neg (by simp), rest_concat, if_pos rfl]
    exact hb.comps
  · rw [if_pos hend, singleton_append, All, if_pos rfl]
    exact ⟨hlast, hb.comps⟩

/-! ## Sanitizing -/

theorem validPathElement_harmless (h : validPathElement element = true) : Harmless element := by
  constructor
  · rintro rfl
    cases h
  · rintro rfl
    cases h

theorem trimPathElement_subset (element : Bytes) : trimPathElement element ⊆ element := by
  unfold trimPathElement
  split
  · exact Subset.refl _
  simp only
  split
  · exact take_subset _ _
  refine append_subset.mpr ⟨take_subset _ _, ?_⟩
  unfold extension
  split
  · exact nil_subset _
  · exact fun x hx => (takeWhile_sublist _).subset (mem_of_mem_drop hx)

theorem trimPathElement_harmless (h : Harmless element) : Harmless (trimPathElement element) := by
  unfold trimPathElement torrentMaxPath
  split_ifs with hlong
  · exact h
  apply harmless_of_length
  simp only
  split
  · rw [length_take]
    omega
  · rw [length_append, length_take]
    omega

theorem mem_splitPath {pe : Bytes} (h : pe ∈ splitPath p) : 0 ∉ pe ∧ 47 ∉ pe := by
  have hall : All 47 (fun c => 47 ∉ c ∧ c ⊆ [] ++ cStr p) [] (cStr p) := all_mem (by simp)
  have hmem := all_iff.mp hall pe (mem_of_mem_filter h)
  exact ⟨fun h0 => not_mem_cStr p (hmem.2 h0), hmem.1⟩

theorem clean_sanitizePath (p : Bytes) : Clean (sanitizePath p) := by
  have hstep : ∀ (l : List Bytes) (newPath : Bytes), (∀ pe ∈ l, 0 ∉ pe ∧ 47 ∉ pe) → Clean newPath →
      Clean (l.foldl (fun newPath pe =>
        if validPathElement pe then combinePath newPath (trimPathElement pe) else newPath) newPath) := by
    intro l
    induction l with
    | nil => exact fun newPath _ h => h
    | cons pe l ih =>
      intro newPath hl h
      refine ih _ (fun x hx => hl x (mem_cons_of_mem pe hx)) ?_
      obtain ⟨hnul, hslash⟩ := hl pe mem_cons_self
      simp only
      split_ifs with hvalid
      · refine h.combinePath (clean_component (fun hx => hnul ?_) (fun hx => hslash ?_) ?_)
        · exact trimPathElement_subset pe hx
        · exact trimPathElement_subset pe hx
        · exact trimPathElement_harmless (validPathElement_harmless hvalid)
      · exact h
  exact hstep _ [] (fun pe => mem_splitPath) clean_nil

/-! ## Repairing the encoding -/

/-- `t` is `s` with some bytes replaced by `_`, and perhaps one for the rest. -/
inductive Repairs : Bytes → Bytes → Prop
  | nil : Repairs [] []
  | keep (x : UInt8) {s t : Bytes} (h : Repairs s t) : Repairs (x :: s) (x :: t)
  | fix (x : UInt8) {s t : Bytes} (h : Repairs s t) : Repairs (x :: s) (95 :: t)
  | cut (s : Bytes) : Repairs s [95]

theorem Repairs.refl : ∀ s : Bytes, Repairs s s
  | [] => .nil
  | x :: s => .keep x (Repairs.refl s)

theorem repairs_encodingLoop (fixPaths : Bool) (s : Bytes) : Repairs s (encodingLoop fixPaths s).1 := by
  fun_induction encodingLoop fixPaths s with
  | case1 => exact .nil
  | case2 c s _ tmp valid he _ ih =>
    rw [he] at ih
    exact .keep c ih
  | case3 c s _ tmp valid he _ ih =>
    rw [he] at ih
    exact .fix c ih
  | case4 c => exact .cut [c]
  | case5 c _ c1 s _ tmp valid he ih =>
    rw [he] at ih
    exact .keep c (.keep c1 ih)
  | case6 c _ c1 => exact .cut [c, c1]
  | case7 c _ c1 _ c2 s _ tmp valid he ih =>
    rw [he] at ih
    exact .keep c (.keep c1 (.keep c2 ih))
  | case8 c _ c1 _ c2 => exact .cut [c, c1, c2]
  | case9 c _ c1 _ c2 _ c3 s _ tmp valid he ih =>
    rw [he] at ih
    exact .keep c (.keep c1 (.keep c2 (.keep c3 ih)))
  | case10 c _ c1 _ c2 _ c3 s _ ih => exact .fix c ih

theorem repairs_verifyEncoding (s : Bytes) (fixPaths : Bool) : Repairs s (verifyEncoding s fixPaths) := by
  unfold verifyEncoding
  simp only
  split
  · exact Repairs.refl s
  · exact repairs_encodingLoop fixPaths s

/-- The components of a repaired text are those of the text, or they have a `_`. -/
theorem Repairs.all (h : Repairs s t) {pre pre' : Bytes} (hpre : pre' = pre ∨ 95 ∈ pre')
    (hs : All 47 Harmless pre s) : All 47 Harmless pre' t := by
  induction h generalizing pre pre' with
  | nil =>
    rcases hpre with rfl | hmem
    · exact hs
    · exact harmless_of_mem hmem (by decide)
  | keep x _ ih =>
    rw [All] at hs ⊢
    split at hs
    · rename_i hx
      rw [if_pos hx]
      refine ⟨?_, ih (Or.inl rfl) hs.2⟩
      rcases hpre with rfl | hmem
      · exact hs.1
      · exact harmless_of_mem hmem (by decide)
    rename_i hx
    rw [if_neg hx]
    refine ih ?_ hs
    rcases hpre with rfl | hmem
    · exact Or.inl rfl
    · exact Or.inr (mem_append_left _ hmem)
  | fix x _ ih =>
    rw [All, if_neg (by decide)]
    rw [All] at hs
    split at hs
    · exact ih (Or.inr (by simp)) hs.2
    · exact ih (Or.inr (by simp)) hs
  | cut =>
    rw [all_of_not_mem (by decide)]
    exact harmless_of_mem (mem_append_right _ mem_cons_self) (by decide)

theorem Repairs.not_mem (h : Repairs s t) (hs : 0 ∉ s) : 0 ∉ t := by
  induction h with
  | nil => exact hs
  | keep x _ ih =>
    simp only [mem_cons, not_or] at hs ⊢
    exact ⟨hs.1, ih hs.2⟩
  | fix x _ ih =>
    simp only [mem_cons, not_or] at hs ⊢
    exact ⟨by decide, ih hs.2⟩
  | cut => decide

theorem Clean.repairs (hs : Clean s) (h : Repairs s t) : Clean t := by
  refine ⟨h.not_mem hs.nul, ?_, h.all (Or.inl rfl) hs.comps⟩
  cases h with
  | nil => simp
  | keep => exact hs.relative
  | fix => simp
  | cut => simp

theorem Clean.verifyEncoding (h : Clean s) (fixPaths : Bool) : Clean (verifyEncoding s fixPaths) :=
  h.repairs (repairs_verifyEncoding s fixPaths)

/-! ## Renaming duplicates -/

theorem strrchr_none {c : UInt8} (h : strrchr c s = none) : c ∉ s := by
  induction s with
  | nil => simp
  | cons x s ih =>
    rw [strrchr] at h
    split at h
    · cases h
    rename_i hs
    split at h
    · cases h
    · rename_i hx
      simp only [mem_cons, not_or]
      exact ⟨fun e => hx e.symm, ih hs⟩

theorem strrchr_some {c : UInt8} {i : Nat} (h : strrchr c s = some i) :
    ∃ a b, s = a ++ c :: b ∧ a.length = i ∧ c ∉ b := by
  induction s generalizing i with
  | nil => cases h
  | cons x s ih =>
    rw [strrchr] at h
    split at h
    · rename_i hs
      cases h
      obtain ⟨a, b, rfl, rfl, hb⟩ := ih hs
      exact ⟨x :: a, b, rfl, rfl, hb⟩
    rename_i hs
    split at h
    · rename_i hx
      cases h
      exact ⟨[], s, by rw [hx]; rfl, rfl, strrchr_none hs⟩
    · cases h

theorem text_mem {n : Int} (h : x ∈ text n) : x ≠ 0 ∧ x ≠ 46 ∧ x ≠ 47 := by
  have hdigit : ∀ {m : Nat}, x ∈ decimal m → x ≠ 0 ∧ x ≠ 46 ∧ x ≠ 47 := by
    intro m hm
    have hd := decimal_digits m x hm
    refine ⟨?_, ?_, ?_⟩
    · rintro rfl
      cases hd
    · rintro rfl
      cases hd
    · rintro rfl
      cases hd
  unfold text at h
  split at h
  · rcases mem_cons.mp h with rfl | h
    · decide
    · exact hdigit h
  · exact hdigit h

theorem text_ne_nil (n : Int) : text n ≠ [] := by
  unfold text
  split
  · simp
  · exact decimal_ne_nil _

theorem clean_renamed {num : Bytes} (hclosed : Closed 47 Harmless [] a) (hnul : 0 ∉ a) (hrel : a.head? ≠ some 47)
    (hne : num ≠ []) (hnum : ∀ x ∈ num, x ≠ 0 ∧ x ≠ 46 ∧ x ≠ 47) (hb : b = [] ∨ ∃ e, b = 46 :: e ∧ 46 ∉ e ∧ 0 ∉ e) :
    Clean (a ++ 46 :: (num ++ b)) := by
  obtain ⟨d, num', rfl⟩ := exists_cons_of_ne_nil hne
  have hd := hnum d mem_cons_self
  have hslash : 47 ∉ 46 :: d :: num' := by
    intro h
    rcases mem_cons.mp h with h | h
    · cases h
    · exact (hnum 47 h).2.2 rfl
  -- whatever follows the number, the component has its first digit
  have hdigit : ∀ c, Harmless (rest 47 [] a ++ 46 :: d :: num' ++ c) := fun c =>
    harmless_of_mem (by simp) hd.2.1
  refine ⟨?_, ?_, ?_⟩
  · simp only [mem_append, mem_cons, not_or] at hnul ⊢
    refine ⟨hnul, by decide, ⟨hd.1.symm, fun h => (hnum 0 (mem_cons_of_mem d h)).1 rfl⟩, ?_⟩
    rcases hb with rfl | ⟨e, rfl, -, he⟩
    · simp
    · simp only [mem_cons, not_or]
      exact ⟨by decide, he⟩
  · cases a with
    | nil => simp
    | cons => exact hrel
  rw [Components.all_append]
  refine ⟨hclosed, ?_⟩
  rw [← cons_append, all_append_of_not_mem hslash]
  rcases hb with rfl | ⟨e, rfl, he, -⟩
  · simpa [All] using hdigit []
  rw [All, if_neg (by decide)]
  refine all_of_subset (fun c _ => ?_) fun c hc => harmless_of_not_mem fun h => he (hc h)
  have := hdigit (46 :: c)
  simpa using this

theorem Clean.rename (h : Clean path) (cnt : Int) : Clean (replaceExtension path (suffix cnt path)) := by
  have hnum : ∀ x ∈ (text cnt).take 49, x ≠ 0 ∧ x ≠ 46 ∧ x ≠ 47 := fun x hx => text_mem (mem_of_mem_take hx)
  have hne : (text cnt).take 49 ≠ [] := by simp [text_ne_nil]
  obtain ⟨hclosed, -⟩ := (all_iff_closed _ _).mp h.comps
  unfold replaceExtension suffix extension
  rw [cStr_of_not_mem h.nul, take_append]
  cases hi : strrchr 46 path with
  | none =>
    rw [append_assoc, singleton_append]
    exact clean_renamed hclosed h.nul h.relative hne hnum (Or.inl (by simp [cStr]))
  | some =>
    obtain ⟨a, b, rfl, rfl, hb⟩ := strrchr_some hi
    have hnul := h.nul
    have hrel := h.relative
    simp only [mem_append, mem_cons, not_or] at hnul
    have hext : cStr (46 :: b) = 46 :: b := cStr_of_not_mem (by simp [hnul.2.2])
    simp only [drop_left, hext, take_length_add_append, take_succ_cons, take_zero, append_assoc, singleton_append]
    refine clean_renamed ((all_append _ _ _).mp h.comps).1 hnul.1 ?_ hne hnum ?_
    · cases a with
      | nil => simp
      | cons => exact hrel
    cases 49 - (text cnt).length with
    | zero => exact Or.inl rfl
    | succ n =>
      exact Or.inr ⟨b.take n, rfl, fun hx => hb (mem_of_mem_take hx), fun hx => hnul.2.2 (mem_of_mem_take hx)⟩

theorem clean_renameLoop {fuel : Nat} {cnt : Int} {out : Bytes} (h : Clean path)
    (he : renameLoop files fuel cnt path = some out) : Clean out := by
  induction fuel generalizing cnt path with
  | zero => cases he
  | succ fuel ih =>
    rw [renameLoop] at he
    split at he
    · exact ih (h.rename _) he
    · cases he
      exact h

/-! ## Storing -/

theorem Clean.piece (h : Clean (p ++ (c ++ t))) (hp : p = [] ∨ p.getLast? = some 47) (hc : 47 ∉ c)
    (ht : t = [] ∨ t.head? = some 47) : Clean c := by
  have hnul := h.nul
  simp only [mem_append, not_or] at hnul
  refine clean_component hnul.2.1 hc ?_
  have hrest : rest 47 [] p = [] := by
    rcases hp with rfl | hp
    · rfl
    · obtain ⟨q, rfl⟩ := getLast?_eq_concat hp
      rw [rest_concat, if_pos rfl]
  have hall := ((all_append _ _ _).mp h.comps).2
  rw [hrest, all_append_of_not_mem hc] at hall
  cases t with
  | nil => exact hall
  | cons x =>
    obtain rfl : x = 47 := by simpa using ht
    rw [All, if_pos rfl] at hall
    exact hall.1

theorem filenameLoop_spec (f : Bytes) : ∀ (sep len : Nat), sep + len < f.length → 47 ∉ (f.drop sep).take len →
    ∃ p, f.take (sep + len) = p ++ filenameLoop f sep len ∧ (p = [] ∨ p.getLast? = some 47) ∧
      47 ∉ filenameLoop f sep len
  | 0, len, _, h => by
    refine ⟨[], ?_, Or.inl rfl, ?_⟩
    · rw [Nat.zero_add]
      rfl
    · exact h
  | sep + 1, len, hlt, h => by
    rw [filenameLoop]
    have hget : f.getD sep 0 = f[sep] := getD_eq_getElem f 0 (by omega)
    split_ifs with hsep
    · refine ⟨f.take (sep + 1), take_add, Or.inr ?_, h⟩
      rw [take_add_one, getElem?_eq_getElem (by omega), ← hget, hsep]
      simp
    obtain ⟨p, hp, hend, hno⟩ := filenameLoop_spec f sep (len + 1) (by omega) (by
      rw [drop_eq_getElem_cons (by omega), take_succ_cons, mem_cons, not_or]
      exact ⟨fun e => hsep (hget.trans e.symm), h⟩)
    exact ⟨p, by rw [← hp]; congr 1; omega, hend, hno⟩

theorem Clean.filename (h : Clean f) : Clean (filename f) := by
  unfold Metainfo.filename
  split
  · exact clean_nil
  rw [cStr_of_not_mem h.nul]
  split
  · exact h
  rename_i hs
  obtain ⟨a, b, rfl, rfl, hb⟩ := strrchr_some hs
  split_ifs with hlen
  · obtain rfl : b = [] := by
      rw [length_append, length_cons] at hlen
      exact eq_nil_of_length_eq_zero (by omega)
    obtain ⟨p, hp, hend, hno⟩ := filenameLoop_spec (a ++ [47]) a.length 0 (by simp) (by simp)
    rw [Nat.add_zero, take_left] at hp
    refine Clean.piece (t := [47]) ?_ hend hno (Or.inr rfl)
    rw [← append_assoc, ← hp]
    exact h
  · have hdrop : (a ++ 47 :: b).drop (a.length + 1) = b := by simp
    have hnul := h.nul
    simp only [mem_append, mem_cons, not_or] at hnul
    rw [hdrop, cStr_of_not_mem hnul.2.2]
    refine Clean.piece (p := a ++ [47]) ?_ (Or.inr (by simp)) hb (Or.inl rfl)
    simpa using h

theorem parentLoop_spec (f : Bytes) : ∀ len, parentLoop f len = 0 ∨ isSeparator f (parentLoop f len) = true
  | 0 => Or.inl rfl
  | len + 1 => by
    rw [parentLoop]
    split_ifs with h
    · exact Or.inr h
    · exact parentLoop_spec f len

theorem Clean.take (h : Clean f) (hsep : isSeparator f n = true) : Clean (f.take (n + 1)) := by
  have hlt : n < f.length := by
    by_contra hge
    rw [isSeparator, getD_eq_default _ _ (by omega)] at hsep
    cases hsep
  have hget : f.take (n + 1) = f.take n ++ [f.getD n 0] := by
    rw [take_add_one, getElem?_eq_getElem hlt, getD_eq_getElem f 0 hlt]
    rfl
  have hsplit := take_append_drop (n + 1) f
  have hall := h.comps
  rw [← hsplit, Components.all_append] at hall
  refine ⟨fun h0 => h.nul (mem_of_mem_take h0), ?_, (all_iff_closed _ _).mpr ⟨hall.1, ?_⟩⟩
  · cases f with
    | nil => simp
    | cons => exact h.relative
  rw [hget, rest_concat]
  split_ifs with hne
  · exact harmless_of_not_mem (by simp)
  refine harmless_of_mem (x := f.getD n 0) (by simp) fun hdot => ?_
  rw [isSeparator, hdot] at hsep
  cases hsep

theorem Clean.parentPath (h : Clean f) : Clean (parentPath f) := by
  unfold Metainfo.parentPath
  split
  · exact h
  split
  · exact clean_nil
  simp only
  generalize (if isSeparator f (f.length - 1) then f.length - 1 else f.length) = len
  split_ifs with hsep
  · exact h.take hsep
  · rw [(parentLoop_spec f _).resolve_right hsep]
    exact clean_nil

structure FileStorage.Clean (fs : FileStorage) : Prop where
  paths : ∀ p ∈ fs.paths, Metainfo.Clean p
  names : ∀ fe ∈ fs.files, ∀ name, fe.filename = some name → Metainfo.Clean name

variable {fe : InternalFileEntry}

theorem FileStorage.Clean.filePath (h : fs.Clean) (hfe : fe ∈ fs.files)
    (hpath : fs.filePath fe = some path) : Metainfo.Clean path := by
  obtain ⟨name, hname, rfl⟩ := Option.map_eq_some_iff.mp hpath
  have hclean := h.names fe hfe name hname
  split
  · exact hclean
  refine Metainfo.Clean.combinePath ?_ hclean
  rw [getD_eq_getElem?_getD]
  cases hp : fs.paths[fe.pathIndex.toNat]? with
  | none => exact clean_nil
  | some p => exact h.paths p (mem_of_getElem? hp)

theorem setName_filename (e : InternalFileEntry) {n : Bytes} (h : Clean n)
    (hname : (e.setName n 0).filename = some name) : Clean name := by
  have hlen : (e.setName n 0).nameLen = 0 := rfl
  rw [InternalFileEntry.filename, if_pos hlen] at hname
  cases hname
  unfold InternalFileEntry.setName
  simp only
  split
  · exact clean_nil
  · rw [cStr_of_not_mem h.nul]
    exact h

theorem updatePathIndex_spec (h : fs.Clean) (hp : Clean path) (he : ∀ name, e.filename = some name → Clean name) :
    (fs.updatePathIndex e path).1.Clean ∧ ∀ name, (fs.updatePathIndex e path).2.filename = some name → Clean name := by
  unfold FileStorage.updatePathIndex
  simp only
  split
  · exact ⟨h, he⟩
  rw [cStr_of_not_mem hp.filename.nul]
  split
  · exact ⟨h, fun name hname => setName_filename e hp.filename hname⟩
  refine ⟨⟨fun p hmem => ?_, h.names⟩, fun name hname => setName_filename e hp.filename hname⟩
  rcases mem_append.mp hmem with hmem | hmem
  · exact h.paths p hmem
  · rw [mem_singleton.mp hmem]
    exact hp.parentPath

theorem FileStorage.Clean.addFile (h : fs.Clean) (ent : FileEntry) (hp : Metainfo.Clean ent.path)
    (filehash : Option Int) : (fs.addFile ent filehash).Clean := by
  have hhead : ent.path.head? ≠ some 0 := fun h0 => hp.nul (mem_of_mem_head? (by rw [h0]; rfl))
  have hname : (fs.prepareFile ent filehash).2.name = ent.path := by
    simp [FileStorage.prepareFile, InternalFileEntry.ofFileEntry, InternalFileEntry.setName, hhead]
  have hcstr : Metainfo.Clean (cStr (fs.prepareFile ent filehash).2.name) := by
    rw [hname, cStr_of_not_mem hp.nul]
    exact hp
  have hprep : (fs.prepareFile ent filehash).1.Clean := ⟨h.paths, h.names⟩
  obtain ⟨hclean, hlast⟩ := updatePathIndex_spec hprep hcstr fun name hn => by
    have hlen : (fs.prepareFile ent filehash).2.nameLen = 0 := rfl
    rw [InternalFileEntry.filename, if_pos hlen] at hn
    cases hn
    exact hcstr
  refine ⟨hclean.paths, fun fe hfe => ?_⟩
  rcases mem_append.mp hfe with hfe | hfe
  · exact hclean.names fe hfe
  · rw [mem_singleton.mp hfe]
    exact hlast

theorem borrowed_filename (h : Clean s) (hn : s.length ≤ n)
    (hname : (e.setName s n).filename = some name) : name = s := by
  have hhead : s.head? ≠ some 0 := fun h0 => h.nul (mem_of_mem_head? (by rw [h0]; rfl))
  simp only [InternalFileEntry.filename, InternalFileEntry.setName, if_neg hhead] at hname
  split at hname
  · cases hname
    exact cStr_of_not_mem h.nul
  split at hname
  · cases hname
  rename_i hpos
  cases hname
  -- a length above 511 would be negative in the bit-field
  have hlen : (bitField 10 (min n 1023)).toNat = n := by
    simp only [bitField, Int.bmod_def] at hpos ⊢
    split at hpos <;> omega
  rw [hlen, take_of_length_le hn]

/-- The copy has the string as the buffer has it. -/
def InfoCopy.Has (copy : InfoCopy) (buf : Bytes) (l : LazyEntry) : Prop :=
  ∀ pos ∈ stringPtr l, copy.string pos (stringLength l) = slice buf pos (stringLength l)

theorem FileStorage.Clean.borrowName (h : fs.Clean) {fee : Option LazyEntry} (hcopy : ∀ l ∈ fee, copy.Has buf l) :
    (borrowName buf copy fs fee).Clean := by
  unfold Metainfo.borrowName
  split
  · rename_i pos n fe hfee hfe
    obtain ⟨l, rfl, hptr⟩ := Option.bind_eq_some_iff.mp hfee
    obtain ⟨_, hpos, heq⟩ := Option.map_eq_some_iff.mp hptr
    cases heq
    split_ifs with hname
    · have hclean := h.names fe (mem_of_getLast? hfe) _ hname
      refine ⟨h.paths, fun fe' hfe' name hname' => ?_⟩
      rcases mem_append.mp hfe' with hmem | hmem
      · exact h.names fe' (mem_of_mem_dropLast hmem) name hname'
      · rw [mem_singleton.mp hmem, hcopy l rfl pos hpos] at hname'
        rw [borrowed_filename hclean (by rw [slice, length_take]; omega) hname']
        exact hclean
    · exact h
  · exact h

/-! ## Loading -/

theorem applyAttrs_path (buf : Bytes) (dict : LazyEntry) (e : FileEntry) : (applyAttrs buf dict e).path = e.path := by
  unfold applyAttrs
  generalize ((dictFindString buf (bytes "attr") dict).bind (stringValue buf)).getD [] = attr
  induction attr generalizing e with
  | nil => rfl
  | cons c attr ih =>
    rw [foldl_cons, ih, applyAttr]
    split_ifs <;> rfl

theorem extractSingleFile_clean {dict : LazyEntry} {f : SingleFile}
    (h : extractSingleFile buf dict rootDir = .ok f) : Clean f.target.path := by
  unfold extractSingleFile at h
  simp only [bind, Except.bind, pure, Except.pure, throw, throwThe, MonadExceptOf.throw] at h
  repeat' split at h
  all_goals first
    | cases h
      rw [applyAttrs_path]
      exact (clean_sanitizePath _).verifyEncoding true
    | cases h

theorem extractSingleFile_filename {dict : LazyEntry} {f : SingleFile}
    (h : extractSingleFile buf dict rootDir = .ok f) : ∃ p ∈ pathItems buf dict, f.filename = lastElement buf p := by
  unfold extractSingleFile at h
  simp only [bind, Except.bind, pure, Except.pure, throw, throwThe, MonadExceptOf.throw] at h
  repeat' split at h
  all_goals first
    | cases h
      exact ⟨_, by assumption, rfl⟩
    | cases h

theorem extractLoop_clean {items : List LazyEntry}
    (hcopy : ∀ dict ∈ items, ∀ p ∈ pathItems buf dict, ∀ l ∈ p.getLast?, copy.Has buf l)
    (h : fs.Clean) (he : extractLoop buf rootDir copy items fs files = .ok out) : out.Clean := by
  induction items generalizing fs files with
  | nil =>
    cases he
    exact h
  | cons l items ih =>
    rw [extractLoop] at he
    cases hf : extractSingleFile buf l rootDir with
    | error =>
      rw [hf] at he
      cases he
    | ok f =>
      rw [hf] at he
      cases hr : renameLoop files (files.length + 1) 0 f.target.path with
      | none =>
        simp only [hr, bind, Except.bind] at he
        cases he
      | some path =>
        simp only [hr, bind, Except.bind] at he
        have hpath := clean_renameLoop (extractSingleFile_clean hf) hr
        obtain ⟨p, hp, hlast⟩ := extractSingleFile_filename hf
        have hhas : ∀ e ∈ f.filename, copy.Has buf e := by
          intro e he
          rw [hlast] at he
          exact hcopy l mem_cons_self p hp e (Option.mem_filter_iff.mp he).1
        refine ih (fun dict hd => hcopy dict (mem_cons_of_mem l hd)) ?_ he
        exact FileStorage.Clean.borrowName (h.addFile { f.target with path := path } hpath _) hhas

theorem extractName_clean {infoHash : Bytes} (h : extractName buf info infoHash = .ok name) : Clean name := by
  unfold extractName at h
  simp only [bind, Except.bind, pure, Except.pure, throw, throwThe, MonadExceptOf.throw] at h
  repeat' split at h
  all_goals first
    | cases h
      exact (clean_sanitizePath _).verifyEncoding true
    | cases h

theorem singleFile_clean
    (hname : Clean name) (hfs : fs.Clean) (h : singleFile buf info name fs diff = .ok out) : out.Clean := by
  unfold singleFile at h
  simp only [bind, Except.bind, pure, Except.pure, throw, throwThe, MonadExceptOf.throw] at h
  repeat' split at h
  all_goals first
    | cases h
      refine hfs.addFile _ ?_ _
      rw [singleEntry, applyAttrs_path]
      exact hname
    | cases h

/-- The string is in the buffer, and in the part of the info section that is copied. -/
def Copied (buf : Bytes) (info l : LazyEntry) : Prop := ∀ pos ∈ stringPtr l,
  0 ≤ info.dataSection.1 ∧ info.dataSection.1 ≤ pos ∧ pos + stringLength l ≤ buf.length ∧
    pos + stringLength l ≤ info.dataSection.1 + info.dataSection.2 % 2 ^ 24

/-- The last elements of the paths are copied; the files borrow their names from there. -/
def NamesCopied (buf : Bytes) (info : LazyEntry) : Prop :=
  ∀ list ∈ dictFindList buf (bytes "files") info, ∀ dict ∈ listItems list, ∀ p ∈ pathItems buf dict, ∀ l ∈ p.getLast?,
    Copied buf info l

theorem Copied.has {heap : Int → UInt8} (h : Copied buf info l) :
    (copyInfoSection heap buf info.dataSection.1 info.dataSection.2).Has buf l := by
  intro pos hpos
  obtain ⟨h0, hle, hbuf, hend⟩ := h pos hpos
  obtain ⟨k, rfl⟩ := Int.eq_ofNat_of_zero_le (h0.trans hle)
  refine ext_getElem ?_ fun i hi _ => ?_
  · simp only [InfoCopy.string, slice, length_map, length_range, length_take, length_drop]
    omega
  · simp only [InfoCopy.string, length_map, length_range] at hi
    have hat : (info.dataSection.1 + (k + -info.dataSection.1 + i)).toNat = k + i := by omega
    simp only [InfoCopy.string, copyInfoSection, slice, getElem_map, getElem_range, getElem_take, getElem_drop]
    rw [if_pos (by omega), hat, getD_eq_getElem _ _ (by omega)]
    rfl

theorem extractFileList_clean (hcopy : ∀ list ∈ dictFindList buf (bytes "files") info, ∀ dict ∈ listItems list,
      ∀ p ∈ pathItems buf dict, ∀ l ∈ p.getLast?, copy.Has buf l)
    (hname : Clean name) (hfs : fs.Clean) (h : extractFileList buf info name fs copy = .ok out) : out.Clean := by
  unfold extractFileList at h
  split at h
  · exact singleFile_clean hname hfs h
  · rename_i list hlist
    exact extractLoop_clean (hcopy list hlist) hfs h

theorem parseInfoSection_clean {sha1 : Bytes → Bytes} {heap : Int → UInt8} {ti : TorrentInfo}
    (hcopy : NamesCopied buf info) (h : parseInfoSection sha1 heap buf info = .ok ti) : ti.files.Clean := by
  unfold parseInfoSection at h
  simp only [bind, Except.bind, pure, Except.pure, throw, throwThe, MonadExceptOf.throw] at h
  split at h
  · split at h
    · cases h
    · split at h
      · cases h
      · rename_i hname
        split at h
        · cases h
        rename_i hfs
        split at h
        · cases h
        cases h
        have hclean := extractFileList_clean
          (fun list hl dict hd p hp l hlast => (hcopy list hl dict hd p hp l hlast).has)
          (extractName_clean hname) ⟨forall_mem_nil _, forall_mem_nil _⟩ hfs
        exact ⟨hclean.paths, hclean.names⟩
  · cases h

/-- **No path traversal.** Whatever an info dictionary that is accepted says, the path of every file is relative and has
no component `.` or `..`, if the names that files borrow are in the copy of the info section. -/
theorem no_path_traversal (sha1 : Bytes → Bytes) (heap : Int → UInt8) {buf : Bytes} {info : LazyEntry}
    {ti : TorrentInfo}
    (hcopy : NamesCopied buf info) (h : parseInfoSection sha1 heap buf info = .ok ti) {fe : InternalFileEntry}
    (hfe : fe ∈ ti.files.files) {path : Bytes} (hpath : ti.files.filePath fe = some path) : NoTraversal path :=
  ((parseInfoSection_clean hcopy h).filePath hfe hpath).noTraversal

/-- An info dictionary whose name is `a/../b` and whose only file has the path `..`, `/etc/passwd`, `x/../y`. -/
def hostileTorrent : Bytes :=
  bytes "d5:filesld6:lengthi0e4:pathl2:..11:/etc/passwd6:x/../yeee4:name6:a/../b12:piece lengthi1e6:pieces0:e"

def hostileInfo : LazyEntry :=
  .dict [(3, .list [.dict [(12, .int 19 1 18 3),
    (23, .list [.string 30 2 28 4, .string 35 11 32 14, .string 48 6 46 8] 27 28)]
    9 47] 8 49), (59, .string 65 6 63 8), (74, .int 87 1 86 3), (91, .string 99 0 97 2)] 0 100

theorem hostile_path : ((parseInfoSection (fun _ => []) (fun _ => 0) hostileTorrent hostileInfo).toOption.bind fun ti =>
    ti.files.files.head?.bind ti.files.filePath) = some (bytes "a/b/x/y") := by
  decide +kernel

theorem no_path_traversal_hostile : ∃ ti fe,
    parseInfoSection (fun _ => []) (fun _ => 0) hostileTorrent hostileInfo = .ok ti ∧
    fe ∈ ti.files.files ∧ ti.files.filePath fe = some (bytes "a/b/x/y") ∧ NoTraversal (bytes "a/b/x/y") := by
  obtain ⟨ti, hti, h⟩ := Option.bind_eq_some_iff.mp hostile_path
  obtain ⟨fe, hfe, hpath⟩ := Option.bind_eq_some_iff.mp h
  have hok : parseInfoSection (fun _ => []) (fun _ => 0) hostileTorrent hostileInfo = .ok ti := by
    cases hp : parseInfoSection (fun _ => []) (fun _ => 0) hostileTorrent hostileInfo with
    | error =>
      rw [hp] at hti
      cases hti
    | ok =>
      rw [hp] at hti
      cases hti
      rfl
  have hcopy : NamesCopied hostileTorrent hostileInfo := by
    unfold NamesCopied Copied
    decide +kernel
  have hmem := mem_of_mem_head? hfe
  exact ⟨ti, fe, hok, hmem, hpath, no_path_traversal _ _ hcopy hok hmem hpath⟩

/-- An info dictionary that is not closed; its only file has the path `aa`. -/
def openTorrent : Bytes := bytes "d5:filesld6:lengthi0e4:pathl2:aaeee4:name1:x12:piece lengthi1e6:pieces0:"

def openInfo : LazyEntry :=
  .dict [(3, .list [.dict [(12, .int 19 1 18 3), (23, .list [.string 30 2 28 4] 27 6)] 9 25] 8 27),
    (37, .string 43 1 41 3),
    (47, .int 60 1 59 3), (64, .string 72 0 70 2)] 0 0

/-- It is accepted, nothing of it is copied, and the file has the name that stands in the memory there. -/
theorem borrowed_name_from_heap : lazyBdecode openTorrent = .zero openInfo ∧
    ((parseInfoSection (fun _ => []) (fun _ => 46) openTorrent openInfo).toOption.bind fun ti =>
      ti.files.files.head?.bind ti.files.filePath) = some (bytes "x/..") ∧ ¬ NoTraversal (bytes "x/..") := by
  refine ⟨rfl, by decide +kernel, fun h => ?_⟩
  exact (h.2 [46, 46] (by decide +kernel)).2 rfl

/-!
## Renaming ends

Each round of the loop that renames a duplicate puts one more dot into the path, so that it cannot meet a file of the
set twice: it finds a free name after at most as many rounds as there are files (`renameLoop_finds`).
-/

theorem text_length_int32 (x : Int) : (text (int32 x)).length ≤ 11 := by
  have hlo := Int.le_bmod (x := x) (m := 2 ^ 32) (by decide)
  have hhi := Int.bmod_lt (x := x) (m := 2 ^ 32) (by decide)
  have hdec : (decimal (int32 x).natAbs).length ≤ 10 := by
    apply length_decimal_le (by omega)
    unfold int32
    omega
  unfold text
  split
  · rw [length_cons]
    omega
  · omega

theorem count_text (n : Int) : (text n).count 46 = 0 := count_eq_zero.mpr fun h => (text_mem h).2.1 rfl

variable {cnt : Int} {items : List LazyEntry}

theorem count_rename (h : 0 ∉ path) (hlen : (text cnt).length < 49) :
    (replaceExtension path (suffix cnt path)).count 46 = path.count 46 + 1 := by
  unfold replaceExtension suffix extension
  rw [cStr_of_not_mem h]
  cases hi : strrchr 46 path with
  | none =>
    have hnil : cStr ([] : Bytes) = [] := rfl
    simp only [hnil, append_nil, take_of_length_le (Nat.le_of_lt hlen), count_append, count_text]
    rfl
  | some i =>
    obtain ⟨a, b, rfl, rfl, hb⟩ := strrchr_some hi
    simp only [mem_append, mem_cons, not_or] at h
    have hext : cStr (46 :: b) = 46 :: b := cStr_of_not_mem (by simp [h.2.2])
    obtain ⟨n, hn⟩ : ∃ n, 49 - (text cnt).length = n + 1 := ⟨48 - (text cnt).length, by omega⟩
    have hzero : (b.take n).count 46 = 0 := count_eq_zero.mpr fun hx => hb (mem_of_mem_take hx)
    simp only [drop_left, hext, take_length_add_append]
    simp only [take_append, take_of_length_le (Nat.le_of_lt hlen), hn, take_succ_cons, take_zero,
      count_append, count_cons_self, count_nil, count_text, hzero, count_eq_zero.mpr hb]

theorem toLower_eq_dot (x : UInt8) : toLower x = 46 ↔ x = 46 := by
  unfold toLower
  split
  · rename_i hup
    constructor
    · intro he
      have := congrArg UInt8.toNat he
      have h1 := UInt8.le_iff_toNat_le.mp hup.1
      have h2 := UInt8.le_iff_toNat_le.mp hup.2
      simp [UInt8.toNat_add, UInt8.toNat_sub] at this h1 h2
      omega
    · rintro rfl
      revert hup
      decide
  · exact Iff.rfl

theorem count_toLower (s : Bytes) : (s.map toLower).count 46 = s.count 46 := by
  induction s with
  | nil => rfl
  | cons x s ih =>
    rw [map_cons, count_cons, count_cons, ih]
    simp [toLower_eq_dot]

theorem renameLoop_none (hfiles : ∀ f ∈ files, 0 ∉ f) {fuel : Nat}
    (h : Clean path) (he : renameLoop files fuel cnt path = none) :
    fuel ≤ (files.filter fun f => path.count 46 ≤ f.count 46).length := by
  induction fuel generalizing cnt path with
  | zero => exact Nat.zero_le _
  | succ fuel ih =>
    rw [renameLoop] at he
    split at he
    · rename_i hany
      have hrec := ih (h.rename _) he
      rw [count_rename h.nul (Nat.lt_of_le_of_lt (text_length_int32 _) (by omega))] at hrec
      obtain ⟨f, hf, heq⟩ := any_eq_true.mp hany
      have hcount : f.count 46 = path.count 46 := by
        have hmap : path.map toLower = f.map toLower := by
          simpa [equalNoCase, cStr_of_not_mem h.nul, cStr_of_not_mem (hfiles f hf)] using heq
        rw [← count_toLower f, ← hmap, count_toLower]
      -- this file has as many dots as the path, those that the later rounds meet have more
      have hsub : (files.filter fun f => path.count 46 + 1 ≤ f.count 46) =
          (files.filter fun f => path.count 46 ≤ f.count 46).filter fun f => path.count 46 + 1 ≤ f.count 46 := by
        rw [filter_filter]
        refine filter_congr fun g _ => ?_
        rw [← Bool.decide_and]
        exact decide_eq_decide.mpr ⟨fun hle => ⟨hle, by omega⟩, And.left⟩
      have hlt := length_filter_lt_length_iff_exists (p := fun f => decide (path.count 46 + 1 ≤ f.count 46))
        (l := files.filter fun f => path.count 46 ≤ f.count 46) |>.mpr ⟨f, by simp [hf, hcount], by simp [hcount]⟩
      rw [← hsub] at hlt
      omega
    · cases he

theorem renameLoop_finds (hfiles : ∀ f ∈ files, 0 ∉ f) (h : Clean path) (cnt : Int) :
    ∃ out, renameLoop files (files.length + 1) cnt path = some out := by
  cases he : renameLoop files (files.length + 1) cnt path with
  | some out => exact ⟨out, rfl⟩
  | none =>
    have hle := renameLoop_none hfiles h he
    have := length_filter_le (fun f => decide (path.count 46 ≤ f.count 46)) files
    omega

theorem joinSymlink_finishes : joinSymlink buf path items ≠ .error .unfinished := by
  induction items generalizing path with
  | nil => nofun
  | cons l items ih =>
    rw [joinSymlink]
    split
    · nofun
    · exact ih

theorem extractSingleFile_finishes {dict : LazyEntry} : extractSingleFile buf dict rootDir ≠ .error .unfinished := by
  intro h
  unfold extractSingleFile at h
  simp only [bind, Except.bind, pure, Except.pure, throw, throwThe, MonadExceptOf.throw] at h
  repeat' split at h
  all_goals first
    | cases h
      rename_i hsym
      exact joinSymlink_finishes hsym
    | cases h

/-- The loop over the files always ends: the set has the paths that were stored, and they are clean. -/
theorem extractLoop_finishes {fs : FileStorage} (hfiles : ∀ f ∈ files, Clean f) :
    extractLoop buf rootDir copy items fs files ≠ .error .unfinished := by
  induction items generalizing fs files with
  | nil => nofun
  | cons l items ih =>
    rw [extractLoop]
    cases hf : extractSingleFile buf l rootDir with
    | error e =>
      intro he
      cases he
      exact extractSingleFile_finishes hf
    | ok f =>
      have hclean := extractSingleFile_clean hf
      obtain ⟨path, hr⟩ := renameLoop_finds (fun f h => (hfiles f h).nul) hclean 0
      simp only [hr, bind, Except.bind]
      refine ih fun g hg => ?_
      rcases mem_cons.mp hg with rfl | hg
      · exact clean_renameLoop hclean hr
      · exact hfiles g hg

/-- **Renaming ends**: no list of files keeps `extract_files` in the loop that renames duplicates. -/
theorem extract_files_finishes (buf rootDir : Bytes) (list : LazyEntry) (target : FileStorage) (copy : InfoCopy) :
    extractFiles buf list target rootDir copy ≠ .error .unfinished :=
  extractLoop_finishes fun _ h => absurd h not_mem_nil

end Libtorrent.Metainfo
