import Libtorrent.Lib.Wrap
import Libtorrent.Bencode.Entry

/-!
# `bencode`

The output iterator is the list of the bytes written. The functions return the number of bytes as an `int`. What is
written is the encoding of the tree, and what is returned is its length, converted to an `int` (`bencodeRecursive_eq`).
-/

namespace Libtorrent.Bencode

open Decimal Int Entry

/-- The loop of `integer_to_str`, which fills the buffer from its end; `room` is what is left of it. -/
def digitsLoop : (room : Nat) → Int → Bytes → Bytes
  | 0, _, buf => buf
  | room + 1, val, buf =>
    if val ≠ 0 then digitsLoop room (val.tdiv 10) (UInt8.ofInt (48 + val.tmod 10) :: buf) else buf

/-- `integer_to_str(buf, size, val)`, up to the terminating null. -/
def integerToStr (size : Nat) (val : Int) : Bytes :=
  let sign := if val < 0 then 1 else 0
  let val := if val < 0 then int64 (-val) else val
  let size := size - 1
  let buf := if val = 0 then digitsLoop (size - 1 - sign) val [48] else digitsLoop (size - sign) val []
  if sign = 1 then 45 :: buf else buf

def writeInteger (val : Int) : Bytes × Int :=
  let str := integerToStr 21 val
  (str, str.length)

def writeString (val : Bytes) : Bytes × Int := (val, int32 val.length)

mutual

def bencodeRecursive : Entry → Bytes × Int
  | .int n =>
    let (s, ret) := writeInteger n
    (105 :: (s ++ [101]), int32 (ret + 2))
  | .string s =>
    let (len, ret) := writeInteger s.length
    let (s, n) := writeString s
    (len ++ 58 :: s, int32 (int32 (ret + n) + 1))
  | .list l =>
    let (out, ret) := bencodeList 0 l
    (108 :: (out ++ [101]), int32 (ret + 2))
  | .dictionary d =>
    let (out, ret) := bencodeDict 0 d
    (100 :: (out ++ [101]), int32 (ret + 2))
  | .undefined => ([], 0)

def bencodeList (ret : Int) : List Entry → Bytes × Int
  | [] => ([], ret)
  | e :: l =>
    let (out, n) := bencodeRecursive e
    let (outs, ret) := bencodeList (int32 (ret + n)) l
    (out ++ outs, ret)

def bencodeDict (ret : Int) : List (Bytes × Entry) → Bytes × Int
  | [] => ([], ret)
  | (k, e) :: d =>
    let (len, n₁) := writeInteger k.length
    let (key, n₂) := writeString k
    let (out, n₃) := bencodeRecursive e
    let (outs, ret) := bencodeDict (int32 (int32 (int32 (int32 (ret + n₁) + n₂) + n₃) + 1)) d
    (len ++ 58 :: key ++ out ++ outs, ret)

end

/-- `bencode(out, e)`: what is written and what is returned. -/
def bencode (e : Entry) : Bytes × Int := bencodeRecursive e

/-! ## What is written -/

theorem ofInt_digit (n : Nat) : UInt8.ofInt (48 + Int.tmod n 10) = digitChar (n % 10) := by
  rw [tmod_eq_emod_of_nonneg (natCast_nonneg n)]
  unfold UInt8.ofInt digitChar
  congr 1
  omega

theorem digitsLoop_eq : ∀ {room n : Nat} {buf : Bytes}, 0 < n → n < 10 ^ room → digitsLoop room n buf = decimal n ++ buf
  | 0, n, _, h, hn => by
    rw [pow_zero] at hn
    omega
  | room + 1, n, buf, h, hn => by
    have hdiv : tdiv (n : Int) 10 = ((n / 10 : Nat) : Int) := by
      rw [tdiv_eq_ediv_of_nonneg (natCast_nonneg n)]
      omega
    rw [digitsLoop, if_pos (by omega), ofInt_digit, hdiv, decimal_of_pos h]
    by_cases hz : n / 10 = 0
    · rw [if_pos hz, hz]
      cases room with
      | zero => rfl
      | succ room => rw [digitsLoop, if_neg (by simp)]; rfl
    · rw [pow_succ] at hn
      rw [if_neg hz, digitsLoop_eq (Nat.pos_of_ne_zero hz) (by omega), List.append_assoc]
      rfl

theorem integerToStr_eq {n : Int} (h1 : -2 ^ 63 < n) (h2 : n < 2 ^ 63) : integerToStr 21 n = text n := by
  unfold integerToStr text
  by_cases hneg : n < 0
  · have hval : int64 (-n) = (n.natAbs : Int) := by
      rw [int64_eq (by omega) (by omega)]
      omega
    have hne : ¬ (n.natAbs : Int) = 0 := by omega
    simp only [if_pos hneg, hval, if_neg hne]
    rw [digitsLoop_eq (by omega) (by norm_num; omega), List.append_nil]
    rfl
  have hval : n = (n.natAbs : Int) := by omega
  simp only [if_neg hneg]
  by_cases hz : n = 0
  · subst hz
    rfl
  · rw [if_neg hz, if_neg (by decide), hval, natAbs_natCast, digitsLoop_eq (by omega) (by norm_num; omega),
      List.append_nil]

theorem writeInteger_eq {n : Int} (h1 : -2 ^ 63 < n) (h2 : n < 2 ^ 63) :
    writeInteger n = (text n, ((text n).length : Int)) := by
  rw [writeInteger, integerToStr_eq h1 h2]

theorem writeInteger_length {s : Bytes} (h : s.length < 2 ^ 31) :
    writeInteger s.length = (decimal s.length, ((decimal s.length).length : Int)) := by
  rw [writeInteger_eq (by omega) (by omega)]
  have ht : text s.length = decimal s.length := by
    rw [text, if_neg (by omega), natAbs_natCast]
  rw [ht]

theorem int32_pair (x a b c : Int) :
    int32 (int32 (int32 (int32 (int32 x + a) + int32 b) + int32 c) + 1) = int32 (x + a + b + c + 1) := by
  rw [int32_add x a, int32_add_right (int32 (x + a)) b, int32_add (x + a) b, int32_add_right (int32 (x + a + b)) c,
    int32_add (x + a + b) c, int32_add (x + a + b + c) 1]

mutual

/-- **`bencode`** writes the encoding, and returns its length as far as that fits in an `int`. -/
theorem bencodeRecursive_eq : ∀ {e : Entry}, e.Valid → bencodeRecursive e = (e.encode, int32 e.size)
  | .undefined, h => absurd h (by simp [Entry.Valid])
  | .int n, h => by
    rw [Entry.Valid] at h
    rw [bencodeRecursive, writeInteger_eq h.1 h.2, encode, size]
    rfl
  | .string s, h => by
    rw [Entry.Valid] at h
    rw [bencodeRecursive, writeInteger_length h, writeString, encode, size, encodeString]
    dsimp only
    rw [int32_add_right, int32_add]
    congr 2
    omega
  | .list l, h => by
    rw [Entry.Valid] at h
    have hl := bencodeList_eq h 0
    rw [int32_zero, zero_add] at hl
    rw [bencodeRecursive, hl, encode, size]
    dsimp only
    rw [int32_add]
    rfl
  | .dictionary d, h => by
    rw [Entry.Valid] at h
    have hd := bencodeDict_eq h.2 0
    rw [int32_zero, zero_add] at hd
    rw [bencodeRecursive, hd, encode, size]
    dsimp only
    rw [int32_add]
    rfl

theorem bencodeList_eq : ∀ {l : List Entry}, ValidList l → ∀ x : Int,
    bencodeList (int32 x) l = (encodeList l, int32 (x + sizeList l))
  | [], _, x => by
    rw [bencodeList, encodeList, sizeList, Int.natCast_zero, Int.add_zero]
  | e :: l, h, x => by
    rw [ValidList] at h
    rw [bencodeList, bencodeRecursive_eq h.1]
    dsimp only
    rw [int32_add, int32_add_right, bencodeList_eq h.2, encodeList, sizeList, natCast_add, add_assoc]

theorem bencodeDict_eq : ∀ {d : List (Bytes × Entry)}, ValidDict d → ∀ x : Int,
    bencodeDict (int32 x) d = (encodeDict d, int32 (x + sizeDict d))
  | [], _, x => by
    rw [bencodeDict, encodeDict, sizeDict, Int.natCast_zero, Int.add_zero]
  | (k, e) :: d, h, x => by
    rw [ValidDict] at h
    rw [bencodeDict, writeInteger_length h.1, writeString, bencodeRecursive_eq h.2.1]
    dsimp only
    rw [int32_pair, bencodeDict_eq h.2.2, encodeDict, sizeDict, encodeString]
    refine Prod.ext ?_ ?_
    · simp
    · dsimp only
      congr 1
      omega

end

end Libtorrent.Bencode
