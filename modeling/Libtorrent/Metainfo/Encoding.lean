import Libtorrent.Metainfo.Parse

/-!
# What `verify_encoding` repairs

`repair` is what the function is for: a scan from left to right that keeps the well-formed characters and puts a `_` in
the place of every other byte. The function does that exactly for the texts that are `Repairable`
(`verify_encoding_iff`): its masks also take overlong forms, surrogates and numbers beyond U+10FFFF, and it leaves its
loop at a byte that starts no character and has one or two bytes behind it, which are lost.
-/

namespace Libtorrent.Metainfo

open Bencode UInt8

/-- The length of the character in front as the bit patterns of UTF-8 give it, 0 if there is none. -/
def shape : Bytes → Nat
  | [] => 0
  | c :: s =>
    let tail k := k ≤ s.length && (s.take k).all (· &&& 0xc0 == 0x80)
    if c &&& 0x80 = 0 then 1
    else if c &&& 0xe0 = 0xc0 ∧ tail 1 then 2
    else if c &&& 0xf0 = 0xe0 ∧ tail 2 then 3
    else if c &&& 0xf8 = 0xf0 ∧ tail 3 then 4
    else 0

/-- The first two bytes of an overlong form, of a surrogate or of a number beyond U+10FFFF. -/
def IllFormed (c c₁ : UInt8) : Prop :=
  c = 0xc0 ∨ c = 0xc1 ∨ (c = 0xe0 ∧ c₁ < 0xa0) ∨ (c = 0xed ∧ 0xa0 ≤ c₁) ∨ (c = 0xf0 ∧ c₁ < 0x90) ∨
    (c = 0xf4 ∧ 0x90 ≤ c₁) ∨ 0xf5 ≤ c

instance (c c₁ : UInt8) : Decidable (IllFormed c c₁) := inferInstanceAs (Decidable (_ ∨ _))

/-- The length of the well-formed UTF-8 sequence in front, 0 if there is none. -/
def wellFormed (s : Bytes) : Nat := if IllFormed (s.getD 0 0) (s.getD 1 0) then 0 else shape s

/-- The text with a `_` for each byte that starts no well-formed sequence, and for each character that may not be in a
path; `kept` bytes of the character in front are left. -/
def repair (fixPaths : Bool) : (kept : Nat) → Bytes → Bytes
  | _, [] => []
  | kept + 1, c :: s => c :: repair fixPaths kept s
  | 0, c :: s =>
    if wellFormed (c :: s) = 0 ∨ fixPaths ∧ c < 0x80 ∧ validPathCharacter c = false then 95 :: repair fixPaths 0 s
    else c :: repair fixPaths (wellFormed (c :: s) - 1) s

/-- Every character of the scan that has the shape of UTF-8 is well-formed, and a byte that starts none is the last one,
or three bytes follow. -/
def Repairable : (kept : Nat) → Bytes → Prop
  | _, [] => True
  | kept + 1, _ :: s => Repairable kept s
  | 0, c :: s =>
    wellFormed (c :: s) = shape (c :: s) ∧ (shape (c :: s) = 0 → s.length ≠ 1 ∧ s.length ≠ 2) ∧
      Repairable (shape (c :: s) - 1) s

theorem ascii_iff (c : UInt8) : c &&& 0x80 = 0 ↔ c.toNat < 128 :=
  (by decide +kernel : ∀ n : Fin 256, ofFin n &&& 0x80 = 0 ↔ (ofFin n).toNat < 128) c.toFin

variable {c : UInt8} {s : Bytes}

theorem wellFormed_ascii (h : c &&& 0x80 = 0) (s : Bytes) : wellFormed (c :: s) = 1 ∧ shape (c :: s) = 1 := by
  have hshape : shape (c :: s) = 1 := by rw [shape, if_pos h]
  rw [ascii_iff] at h
  refine ⟨?_, hshape⟩
  rw [wellFormed, if_neg, hshape]
  rintro (hc | hc | ⟨hc, -⟩ | ⟨hc, -⟩ | ⟨hc, -⟩ | ⟨hc, -⟩ | hc)
  all_goals
    first
    | have hle : 245 ≤ c.toNat := le_iff_toNat_le.mp hc
      omega
    | have heq : c = _ := hc
      rw [heq] at h
      exact absurd h (by decide)

theorem encodingLoop_valid (fixPaths : Bool) (s : Bytes) (h : (encodingLoop fixPaths s).2 = true) :
    (encodingLoop fixPaths s).1 = s := by
  fun_induction encodingLoop fixPaths s <;> simp_all

/-- A character of several bytes in the scan. -/
theorem repair_char {fixPaths : Bool} {tmp : Bytes} {k : Nat} (hc : ¬ c &&& 0x80 = 0)
    (hk : shape (c :: s) = k + 1) (ih : s.take k ++ tmp = repair fixPaths k s ↔ Repairable k s) :
    c :: (s.take k ++ tmp) = repair fixPaths 0 (c :: s) ↔ Repairable 0 (c :: s) := by
  have hlow : ¬ c < 0x80 := fun h => hc ((ascii_iff c).mpr (lt_iff_toNat_lt.mp h))
  rw [repair, Repairable, hk]
  by_cases hw : wellFormed (c :: s) = k + 1
  · rw [if_neg (by simp [hw, hlow]), hw]
    simpa using ih
  have hzero : wellFormed (c :: s) = 0 := by
    unfold wellFormed at hw ⊢
    split at hw <;> simp_all
  have h95 : c ≠ 95 := by
    rintro rfl
    exact hc rfl
  simp [hzero, h95]

/-- A byte that starts no character. -/
theorem repair_lone (fixPaths : Bool) (tmp : Bytes) (hshape : shape (c :: s) = 0) :
    (95 :: tmp = repair fixPaths 0 (c :: s) ↔ tmp = repair fixPaths 0 s) ∧
      (Repairable 0 (c :: s) ↔ (s.length ≠ 1 ∧ s.length ≠ 2) ∧ Repairable 0 s) := by
  have hw : wellFormed (c :: s) = 0 := by simp [wellFormed, hshape]
  rw [repair, Repairable, if_pos (Or.inl hw)]
  simp [hw, hshape]

theorem repair_cut (fixPaths : Bool) {c₁ : UInt8} (hshape : shape (c :: c₁ :: s) = 0) (hs : s.length ≤ 1) :
    [95] = repair fixPaths 0 (c :: c₁ :: s) ↔ Repairable 0 (c :: c₁ :: s) := by
  obtain ⟨h1, h2⟩ := repair_lone fixPaths [] hshape
  rw [h1, h2, repair, List.length_cons]
  refine iff_of_false ?_ fun h => by omega
  split <;> simp

theorem encodingLoop_iff (fixPaths : Bool) (s : Bytes) :
    (encodingLoop fixPaths s).1 = repair fixPaths 0 s ↔ Repairable 0 s := by
  fun_induction encodingLoop fixPaths s with
  | case1 => simp [repair, Repairable]
  | case2 c s hc tmp valid he hok ih =>
    obtain ⟨hw, hshape⟩ := wellFormed_ascii hc s
    rw [he] at ih
    have hkeep : ¬ (1 = 0 ∨ fixPaths = true ∧ c < 0x80 ∧ validPathCharacter c = false) := by
      rintro (h | ⟨hf, -, hv⟩)
      · cases h
      · simp [hf, hv] at hok
    rw [repair, Repairable, hw, hshape, if_neg hkeep]
    simpa using ih
  | case3 c s hc tmp valid he hbad ih =>
    obtain ⟨hw, hshape⟩ := wellFormed_ascii hc s
    have hlow : c < 0x80 := lt_iff_toNat_lt.mpr ((ascii_iff c).mp hc)
    rw [he] at ih
    rw [repair, Repairable, hw, hshape, if_pos (Or.inr (by simpa [hlow] using hbad))]
    simpa using ih
  | case4 c hc =>
    obtain ⟨h1, h2⟩ := repair_lone fixPaths (c := c) (s := []) [] (by simp [shape, hc])
    rw [h1, h2]
    simp [repair, Repairable]
  | case5 c hc c1 s h2 tmp valid he ih =>
    rw [he] at ih
    refine repair_char (s := c1 :: s) (k := 1) hc ?_ ?_
    · simp [shape, hc, h2]
    · simpa [repair, Repairable] using ih
  | case6 c hc c1 h2 => exact repair_cut fixPaths (by simpa [shape, hc] using h2) (Nat.zero_le 1)
  | case7 c hc c1 h2 c2 s h3 tmp valid he ih =>
    rw [he] at ih
    refine repair_char (s := c1 :: c2 :: s) (k := 2) hc ?_ ?_
    · have hlead : ¬ c &&& 0xe0 = 0xc0 := fun e => h2 ⟨e, h3.2.1⟩
      simp [shape, hc, hlead, h3]
    · simpa [repair, Repairable] using ih
  | case8 c hc c1 h2 c2 h3 => exact repair_cut fixPaths (by simp [shape, hc, h2, h3]) (Nat.le_refl 1)
  | case9 c hc c1 h2 c2 h3 c3 s h4 tmp valid he ih =>
    rw [he] at ih
    refine repair_char (s := c1 :: c2 :: c3 :: s) (k := 3) hc ?_ ?_
    · have hlead : ¬ c &&& 0xe0 = 0xc0 := fun e => h2 ⟨e, h4.2.1⟩
      have hlead' : ¬ c &&& 0xf0 = 0xe0 := fun e => h3 ⟨e, h4.2.1, h4.2.2.1⟩
      simp [shape, hc, hlead, hlead', h4]
    · simpa [repair, Repairable] using ih
  | case10 c hc c1 h2 c2 h3 c3 s h4 ih =>
    obtain ⟨hfirst, hrest⟩ := repair_lone fixPaths (encodingLoop fixPaths (c1 :: c2 :: c3 :: s)).1
      (show shape (c :: c1 :: c2 :: c3 :: s) = 0 by simp [shape, hc, h2, h3, h4])
    rw [hfirst, hrest, ih]
    simp

/-- **`verify_encoding`**. -/
theorem verify_encoding_iff (s : Bytes) (fixPaths : Bool) :
    verifyEncoding s fixPaths = repair fixPaths 0 s ↔ Repairable 0 s := by
  rw [← encodingLoop_iff fixPaths, verifyEncoding]
  dsimp only
  split
  · rw [encodingLoop_valid fixPaths s ‹_›]
  · rfl

/-- The `A` behind a byte that is not UTF-8 is lost. -/
theorem letter_behind_lost : verifyEncoding [0xff, 65] false ≠ repair false 0 [0xff, 65] := by decide

end Libtorrent.Metainfo
