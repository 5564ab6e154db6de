import Libtorrent.Bencode.Encode
import Mathlib.Data.List.TakeWhile

/-!
# `bdecode`

The input iterator is the list of the bytes that are left. `bdecode_recursive` is called with a depth; the model counts
the levels that are left down to the limit of 100. The loops over lists and dictionaries take what decodes an element as
an argument; each round consumes a byte at least.
-/

namespace Libtorrent.Bencode

open Decimal

def readUntil (endToken : UInt8) : Bytes → Bytes × Bytes × Bool
  | [] => ([], [], true)
  | c :: l =>
    if c = endToken then ([], c :: l, false)
    else
      let (ret, rest, err) := readUntil endToken l
      (c :: ret, rest, err)

def readString (len : Int) (l : Bytes) : Bytes × Bytes × Bool :=
  if len.toNat ≤ l.length then (l.take len.toNat, l.drop len.toNat, false) else (l, [], true)

/-- `isspace` in the C locale. -/
def isSpace (c : UInt8) : Bool := c == 32 || (9 ≤ c && c ≤ 13)

/-- The optional sign of a number, and what follows. -/
def splitSign : Bytes → Bool × Bytes
  | [] => (false, [])
  | c :: s => if c = 45 then (true, s) else if c = 43 then (false, s) else (false, c :: s)

/-- `strtoll(s, &end, 10)`, and whether a number was found. -/
def strtoll (s : Bytes) : Int × Bool :=
  let (negative, s) := splitSign (s.dropWhile isSpace)
  let digits := s.takeWhile isDigit
  let n : Int := value 0 digits
  let n := if negative then -n else n
  (max (-2 ^ 63) (min n (2 ^ 63 - 1)), !digits.isEmpty)

/-- `atoi(s)`: the value of `strtol` converted to an `int`. -/
def atoi (s : Bytes) : Int := int32 (strtoll s).1

/-- What a call of `bdecode_recursive` leaves: the rest of the input, the entry and the error. -/
structure Decoded where
  rest : Bytes
  ret : Entry
  err : Bool

/-- The loop over the elements of a list. At the end of the input `*in` is not an `e`, and the element is an error. -/
def bdecodeList (decode : Bytes → Decoded) : (fuel : Nat) → Bytes → List Entry → Decoded
  | 0, l, acc => ⟨l, .list acc, true⟩
  | fuel + 1, l, acc =>
    if l.head? = some 101 then ⟨l.tail, .list acc, false⟩
    else
      let e := decode l
      let acc := acc ++ [e.ret]
      if e.err || e.rest.isEmpty then ⟨e.rest, .list acc, true⟩ else bdecodeList decode fuel e.rest acc

/-- The loop over the pairs of a dictionary. A key that is not a string ends it without an error. -/
def bdecodeDict (decode : Bytes → Decoded) : (fuel : Nat) → Bytes → List (Bytes × Entry) → Decoded
  | 0, l, acc => ⟨l, .dictionary acc, true⟩
  | fuel + 1, l, acc =>
    if l.head? = some 101 then ⟨l.tail, .dictionary acc, false⟩
    else
      let key := decode l
      if key.err then ⟨key.rest, .dictionary acc, true⟩
      else
        match key.ret with
        | .string k =>
          let e := decode key.rest
          let acc := assign k e.ret acc
          if e.err || e.rest.isEmpty then ⟨e.rest, .dictionary acc, true⟩ else bdecodeDict decode fuel e.rest acc
        | _ => ⟨key.rest, .dictionary acc, false⟩

/-- `bdecode_recursive(in, end, ret, err, depth)` with `depth = 100 - levels`. -/
def bdecodeRecursive : (levels : Nat) → Bytes → Decoded
  | 0, l => ⟨l, .undefined, true⟩
  | _ + 1, [] => ⟨[], .undefined, true⟩
  | levels + 1, c :: l =>
    if c = 105 then
      let (val, rest, err) := readUntil 101 l
      if err then ⟨rest, .undefined, true⟩
      else
        let (n, found) := strtoll val
        ⟨rest.tail, .int n, !found⟩
    else if c = 108 then bdecodeList (bdecodeRecursive levels) (l.length + 1) l []
    else if c = 100 then bdecodeDict (bdecodeRecursive levels) (l.length + 1) l []
    else if isDigit c then
      let (len, rest, err) := readUntil 58 (c :: l)
      if err then ⟨rest, .undefined, true⟩
      else
        let (str, rest, err) := readString (atoi len) rest.tail
        ⟨rest, .string str, err⟩
    else ⟨c :: l, .undefined, true⟩

/-- `bdecode(start, end, len)`: the entry, undefined after an error, the number of bytes consumed, and the error. -/
def bdecode (l : Bytes) : Entry × Int × Bool :=
  let d := bdecodeRecursive 100 l
  (if d.err then .undefined else d.ret, int32 (l.length - d.rest.length : Int), d.err)

/-!
## The round trip through `bencode` and `bdecode`

`bdecode` reads the encoding of a tree back and stops at its end, whatever follows (`bdecodeRecursive_encode`). What
`bencode` returns is an `int`, so the number of bytes is right exactly if it is below `2 ^ 31` (`bencode_round_trip`).
-/

open List Nat Entry

/-! ## Tokens -/

variable {tok c : UInt8} {n : Nat}

theorem readUntil_append {rest : Bytes} : ∀ {s : Bytes}, (∀ c ∈ s, c ≠ tok) →
    readUntil tok (s ++ tok :: rest) = (s, tok :: rest, false)
  | [], _ => by rw [nil_append, readUntil, if_pos rfl]
  | c :: s, h => by
    rw [cons_append, readUntil, if_neg (h c mem_cons_self), readUntil_append fun c hc => h c (mem_cons_of_mem _ hc)]

theorem digit_ne (hc : c ∈ decimal n) (ht : isDigit tok = false) : c ≠ tok := by
  rintro rfl
  rw [decimal_digits n c hc] at ht
  cases ht

theorem takeWhile_decimal (n : Nat) : (decimal n).takeWhile isDigit = decimal n :=
  takeWhile_eq_self_iff.mpr (decimal_digits n)

theorem digit_spec (h : isDigit c = true) : isSpace c = false ∧ c ≠ 45 ∧ c ≠ 43 := by
  have hle : 48 ≤ c.toNat := by
    have := (Bool.and_eq_true _ _ ▸ h : _ ∧ _).1
    rwa [decide_eq_true_eq, UInt8.le_iff_toNat_le] at this
  refine ⟨?_, ?_, ?_⟩
  · rw [isSpace, Bool.or_eq_false_iff, Bool.and_eq_false_iff, decide_eq_false_iff_not, decide_eq_false_iff_not]
    refine ⟨?_, Or.inr ?_⟩
    · rw [beq_eq_false_iff_ne]
      rintro rfl
      exact absurd hle (by decide)
    · rw [UInt8.le_iff_toNat_le]
      change ¬ c.toNat ≤ 13
      omega
  · rintro rfl
    exact absurd hle (by decide)
  · rintro rfl
    exact absurd hle (by decide)

theorem dropWhile_decimal (n : Nat) : (decimal n).dropWhile isSpace = decimal n := by
  obtain ⟨c, l, hd, hc⟩ := decimal_head n
  rw [hd, dropWhile_cons, if_neg (by rw [(digit_spec hc).1]; decide)]

theorem splitSign_decimal (n : Nat) : splitSign (decimal n) = (false, decimal n) := by
  obtain ⟨c, l, hd, hc⟩ := decimal_head n
  rw [hd, splitSign, if_neg (digit_spec hc).2.1, if_neg (digit_spec hc).2.2]

theorem isEmpty_decimal (n : Nat) : (decimal n).isEmpty = false := by
  obtain ⟨c, l, hd, _⟩ := decimal_head n
  rw [hd]
  rfl

theorem strtoll_decimal (h : n < 2 ^ 63) : strtoll (decimal n) = ((n : Int), true) := by
  unfold strtoll
  rw [dropWhile_decimal, splitSign_decimal]
  dsimp only
  rw [takeWhile_decimal, value_decimal, if_neg (by decide), isEmpty_decimal]
  refine Prod.ext ?_ rfl
  omega

theorem strtoll_text {n : Int} (h1 : -2 ^ 63 < n) (h2 : n < 2 ^ 63) : strtoll (text n) = (n, true) := by
  unfold text
  split
  · unfold strtoll
    rw [dropWhile_cons, if_neg (by decide), splitSign, if_pos rfl]
    dsimp only
    rw [takeWhile_decimal, value_decimal, if_pos rfl, isEmpty_decimal]
    refine Prod.ext ?_ rfl
    omega
  · rw [strtoll_decimal (by omega)]
    refine Prod.ext ?_ rfl
    omega

theorem atoi_decimal (h : n < 2 ^ 31) : atoi (decimal n) = n := by
  rw [atoi, strtoll_decimal (by omega)]
  exact int32_eq h

/-! ## Trees -/

theorem bdecodeRecursive_string {s : Bytes} (h : s.length < 2 ^ 31) (levels : Nat) (rest : Bytes) :
    bdecodeRecursive (levels + 1) (encodeString s ++ rest) = ⟨rest, .string s, false⟩ := by
  obtain ⟨c, l, hd, hc⟩ := decimal_head s.length
  have hcons : encodeString s ++ rest = c :: (l ++ 58 :: (s ++ rest)) := by
    rw [encodeString, hd]
    simp
  have huntil : readUntil 58 (c :: (l ++ 58 :: (s ++ rest))) = (decimal s.length, 58 :: (s ++ rest), false) := by
    rw [← cons_append, ← hd]
    exact readUntil_append fun c hc => digit_ne hc (by decide)
  have hne : ∀ tok : UInt8, isDigit tok = false → c ≠ tok := by
    rintro tok ht rfl
    rw [hc] at ht
    cases ht
  rw [hcons, bdecodeRecursive, if_neg (hne 105 (by decide)), if_neg (hne 108 (by decide)), if_neg (hne 100 (by decide)),
    if_pos hc, huntil]
  dsimp only
  rw [if_neg (by decide), tail_cons, atoi_decimal h, readString]
  simp

theorem text_ne (n : Int) : ∀ c ∈ text n, c ≠ 101 := by
  intro c hc
  unfold text at hc
  split at hc
  · rcases mem_cons.mp hc with rfl | hc
    · decide
    · exact digit_ne hc (by decide)
  · exact digit_ne hc (by decide)

theorem length_le_sizeList : ∀ {l : List Entry}, ValidList l → l.length ≤ sizeList l
  | [], _ => le_refl 0
  | e :: l, h => by
    rw [ValidList] at h
    obtain ⟨c, s, he, -⟩ := encode_head h.1
    have hs := e.length_encode
    rw [he, length_cons] at hs
    have := length_le_sizeList h.2
    rw [sizeList, length_cons]
    omega

theorem length_le_sizeDict (d : List (Bytes × Entry)) : d.length ≤ sizeDict d := by
  induction d with
  | nil => exact le_refl 0
  | cons x d ih =>
    rw [sizeDict, length_cons]
    omega

variable {e : Entry}

theorem keys_lt_append {k : Bytes} {acc d : List (Bytes × Entry)} (hs : ∀ q ∈ d.map Prod.fst, k < q)
    (hacc : ∀ p ∈ acc, ∀ q ∈ (k, e) :: d, p.1 < q.1) : ∀ p ∈ acc ++ [(k, e)], ∀ q ∈ d, p.1 < q.1 := by
  intro p hp q hq
  rcases mem_append.mp hp with hp | hp
  · exact hacc p hp q (mem_cons_of_mem _ hq)
  · rw [mem_singleton.mp hp]
    exact hs q.1 (mem_map_of_mem hq)

mutual

/-- **Decoding an encoding**, whatever follows it. -/
theorem bdecodeRecursive_encode : ∀ {e : Entry} {levels : Nat}, e.Valid → e.depth < levels → ∀ rest : Bytes,
    bdecodeRecursive levels (e.encode ++ rest) = ⟨rest, e, false⟩
  | e, 0, _, hd, _ => absurd hd (not_lt_zero _)
  | .undefined, levels + 1, h, _, _ => absurd h (by simp [Entry.Valid])
  | .int n, levels + 1, h, _, rest => by
    rw [Entry.Valid] at h
    have hcons : (int n).encode ++ rest = 105 :: (text n ++ 101 :: rest) := by
      rw [encode, cons_append, append_assoc, singleton_append]
    rw [hcons, bdecodeRecursive, if_pos rfl, readUntil_append (text_ne n)]
    dsimp only
    rw [if_neg (by decide), strtoll_text h.1 h.2]
    rfl
  | .string s, levels + 1, h, _, rest => by
    rw [Entry.Valid] at h
    rw [encode]
    exact bdecodeRecursive_string h levels rest
  | .list l, levels + 1, h, hd, rest => by
    rw [Entry.Valid] at h
    rw [Entry.depth] at hd
    have hcons : (list l).encode ++ rest = 108 :: (encodeList l ++ 101 :: rest) := by
      rw [encode, cons_append, append_assoc, singleton_append]
    have hlen : l.length < (encodeList l ++ 101 :: rest).length + 1 := by
      have := length_le_sizeList h
      rw [length_append, length_encodeList]
      omega
    rw [hcons, bdecodeRecursive, if_neg (by decide), if_pos rfl,
      bdecodeList_encode h (le_of_lt_succ hd) hlen rest [], nil_append]
  | .dictionary d, levels + 1, h, hd, rest => by
    rw [Entry.Valid] at h
    rw [Entry.depth] at hd
    have hcons : (dictionary d).encode ++ rest = 100 :: (encodeDict d ++ 101 :: rest) := by
      rw [encode, cons_append, append_assoc, singleton_append]
    have hlen : d.length < (encodeDict d ++ 101 :: rest).length + 1 := by
      have := length_le_sizeDict d
      rw [length_append, length_encodeDict]
      omega
    rw [hcons, bdecodeRecursive, if_neg (by decide), if_neg (by decide), if_pos rfl,
      bdecodeDict_encode h.2 h.1 (le_of_lt_succ hd) hlen rest [] (by simp), nil_append]

theorem bdecodeList_encode : ∀ {l : List Entry} {levels fuel : Nat}, ValidList l → depthList l ≤ levels →
    l.length < fuel → ∀ (rest : Bytes) (acc : List Entry),
      bdecodeList (bdecodeRecursive levels) fuel (encodeList l ++ 101 :: rest) acc = ⟨rest, .list (acc ++ l), false⟩
  | l, levels, 0, _, _, hf, _, _ => absurd hf (not_lt_zero _)
  | [], levels, fuel + 1, _, _, _, rest, acc => by
    rw [encodeList, nil_append, bdecodeList, if_pos List.head?_cons, append_nil]
    rfl
  | e :: l, levels, fuel + 1, h, hd, hf, rest, acc => by
    rw [ValidList] at h
    rw [depthList] at hd
    obtain ⟨c, s, he, -, hc⟩ := encode_head h.1
    have hhead : (e.encode ++ (encodeList l ++ 101 :: rest)).head? ≠ some 101 := by
      rw [he]
      exact fun h => hc (Option.some.inj h)
    have hdec : bdecodeRecursive levels (e.encode ++ (encodeList l ++ 101 :: rest)) = _ :=
      bdecodeRecursive_encode h.1 (by omega) _
    rw [encodeList, append_assoc, bdecodeList, if_neg hhead, hdec]
    rw [if_neg (by simp), bdecodeList_encode h.2 (by omega) (lt_of_succ_lt_succ hf), append_assoc]
    rfl

theorem bdecodeDict_encode : ∀ {d : List (Bytes × Entry)} {levels fuel : Nat}, ValidDict d →
    (d.map Prod.fst).Pairwise (· < ·) → depthDict d ≤ levels → d.length < fuel →
    ∀ (rest : Bytes) (acc : List (Bytes × Entry)), (∀ p ∈ acc, ∀ q ∈ d, p.1 < q.1) →
      bdecodeDict (bdecodeRecursive levels) fuel (encodeDict d ++ 101 :: rest) acc =
        ⟨rest, .dictionary (acc ++ d), false⟩
  | d, levels, 0, _, _, _, hf, _, _, _ => absurd hf (not_lt_zero _)
  | [], levels, fuel + 1, _, _, _, _, rest, acc, _ => by
    rw [encodeDict, nil_append, bdecodeDict, if_pos List.head?_cons, append_nil]
    rfl
  | (k, e) :: d, 0, fuel + 1, _, _, hd, _, _, _, _ => by
    rw [depthDict] at hd
    omega
  | (k, e) :: d, levels + 1, fuel + 1, h, hs, hd, hf, rest, acc, hacc => by
    rw [ValidDict] at h
    rw [depthDict] at hd
    rw [map_cons, pairwise_cons] at hs
    have hhead : (encodeString k ++ (e.encode ++ (encodeDict d ++ 101 :: rest))).head? ≠ some 101 := by
      obtain ⟨c, s, hk, hc⟩ := decimal_head k.length
      rw [encodeString, hk]
      intro h
      rw [Option.some.inj h] at hc
      exact absurd hc (by decide)
    have hdec : bdecodeRecursive (levels + 1) (e.encode ++ (encodeDict d ++ 101 :: rest)) = _ :=
      bdecodeRecursive_encode h.2.1 (by omega) _
    rw [encodeDict, append_assoc, append_assoc, bdecodeDict, if_neg hhead, bdecodeRecursive_string h.1]
    dsimp only
    rw [if_neg (by decide)]
    rw [hdec]
    have hkey : ∀ p ∈ acc, p.1 < k := fun p hp => hacc p hp (k, e) mem_cons_self
    have hnext := keys_lt_append hs.1 hacc
    rw [if_neg (by simp), assign_of_lt hkey, bdecodeDict_encode h.2.2 hs.2 (by omega) (lt_of_succ_lt_succ hf) rest
      (acc ++ [(k, e)]) hnext, append_assoc]
    rfl

end

/-! ## The round trip -/

/-- `bencode` returns the number of bytes it writes, and `bdecode` takes exactly these, whatever follows, and yields the
tree without an error. -/
def RoundTrip (e : Entry) : Prop :=
  (bencode e).2 = (bencode e).1.length ∧
    ∀ rest : Bytes, bdecode ((bencode e).1 ++ rest) = (e, ((bencode e).1.length : Int), false)

theorem bencode_returns (h : e.Valid) : (bencode e).2 = (bencode e).1.length ↔ e.size < 2 ^ 31 := by
  rw [bencode, bencodeRecursive_eq h]
  rw [e.length_encode, int32_eq_iff]

/-- `bdecode` yields the tree; what it reports as consumed is a wrapped `int` as well. -/
theorem bdecode_bencode (h : e.Valid) (hd : e.depth < 100) (rest : Bytes) :
    bdecode ((bencode e).1 ++ rest) = (e, int32 e.size, false) := by
  have hconsumed : (((e.encode ++ rest).length : Int) - rest.length) = e.size := by
    rw [length_append, e.length_encode]
    omega
  have hdec : bdecodeRecursive 100 (e.encode ++ rest) = ⟨rest, e, false⟩ := bdecodeRecursive_encode h hd rest
  rw [bencode, bencodeRecursive_eq h]
  unfold bdecode
  simp only [hdec, hconsumed, Bool.false_eq_true, if_false]

/-- **Round trip**: for a tree that can be encoded, it holds exactly if the encoding is shorter than `2 ^ 31` bytes. -/
theorem bencode_round_trip (e : Entry) (h : e.Valid) (hd : e.depth < 100) : RoundTrip e ↔ e.size < 2 ^ 31 := by
  constructor
  · intro hr
    exact (bencode_returns h).mp hr.1
  · intro hs
    refine ⟨(bencode_returns h).mpr hs, fun rest => ?_⟩
    rw [bdecode_bencode h hd, bencode, bencodeRecursive_eq h, e.length_encode, int32_eq hs]

def sampleTree : Entry :=
  .dictionary [([97], .list [.int (-3), .string [1, 2]]), ([98], .dictionary [([], .int 0)])]

theorem bencode_round_trip_sampleTree : RoundTrip sampleTree :=
  (bencode_round_trip sampleTree (by simp [sampleTree, Entry.Valid, ValidList, ValidDict]; decide)
    (by simp [sampleTree, Entry.depth, depthList, depthDict])).mpr
    (by decide +kernel)

def longString : Entry := .string (List.replicate (2 ^ 31 - 1) 0)

/-- The count of bytes for a string of `2 ^ 31 - 1` bytes does not fit. -/
theorem long_string_count_wraps : longString.Valid ∧ longString.depth < 100 ∧ ¬ RoundTrip longString := by
  have hdepth : ∀ s : Bytes, (Entry.string s).depth < 100 := fun s => by simp [Entry.depth]
  have hv : longString.Valid := by
    rw [longString, Entry.Valid, length_replicate]
    decide
  refine ⟨hv, hdepth _, fun hr => ?_⟩
  have hs := (bencode_returns hv).mp hr.1
  rw [longString, Entry.size, length_replicate] at hs
  omega

end Libtorrent.Bencode
