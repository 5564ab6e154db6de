import Libtorrent.Lib.Decimal

/-!
# `entry`

An `entry` is an integer, a string, a list or a dictionary, or undefined. A dictionary is a `std::map`: the pairs in the
order of their keys, where strings are compared byte by byte.
-/

namespace Libtorrent.Bencode

open Decimal List

/-- A `std::string`, or a range of bytes. -/
abbrev Bytes := List UInt8

inductive Entry where
  | undefined
  | int (n : Int)
  | string (s : Bytes)
  | list (l : List Entry)
  | dictionary (d : List (Bytes × Entry))

/-- `m[key] = e` for a `std::map`. -/
def assign (key : Bytes) (e : Entry) : List (Bytes × Entry) → List (Bytes × Entry)
  | [] => [(key, e)]
  | (k, v) :: d =>
    if k < key then (k, v) :: assign key e d
    else if k = key then (key, e) :: d
    else (key, e) :: (k, v) :: d

theorem assign_of_lt {key : Bytes} {e : Entry} : ∀ {d : List (Bytes × Entry)}, (∀ p ∈ d, p.1 < key) →
    assign key e d = d ++ [(key, e)]
  | [], _ => rfl
  | (k, v) :: d, h => by
    rw [assign, if_pos (h (k, v) mem_cons_self), assign_of_lt fun p hp => h p (mem_cons_of_mem _ hp)]
    rfl

/-! ## Trees that can be encoded -/

mutual

/-- Without undefined nodes, with integers above `-2 ^ 63`, strings and keys whose length fits in an `int`, and the keys
of dictionaries in order. -/
def Entry.Valid : Entry → Prop
  | .undefined => False
  | .int n => -2 ^ 63 < n ∧ n < 2 ^ 63
  | .string s => s.length < 2 ^ 31
  | .list l => ValidList l
  | .dictionary d => (d.map Prod.fst).Pairwise (· < ·) ∧ ValidDict d

def ValidList : List Entry → Prop
  | [] => True
  | e :: l => e.Valid ∧ ValidList l

def ValidDict : List (Bytes × Entry) → Prop
  | [] => True
  | (k, e) :: d => k.length < 2 ^ 31 ∧ e.Valid ∧ ValidDict d

end

mutual

/-- The number of steps from the root to the deepest node. -/
def Entry.depth : Entry → Nat
  | .list l => depthList l
  | .dictionary d => depthDict d
  | _ => 0

def depthList : List Entry → Nat
  | [] => 0
  | e :: l => max (e.depth + 1) (depthList l)

def depthDict : List (Bytes × Entry) → Nat
  | [] => 0
  | (_, e) :: d => max (e.depth + 1) (depthDict d)

end

/-! ## Encoding -/

def text (n : Int) : Bytes := if n < 0 then 45 :: decimal n.natAbs else decimal n.natAbs

def encodeString (s : Bytes) : Bytes := decimal s.length ++ 58 :: s

mutual

def Entry.encode : Entry → Bytes
  | .undefined => []
  | .int n => 105 :: (text n ++ [101])
  | .string s => encodeString s
  | .list l => 108 :: (encodeList l ++ [101])
  | .dictionary d => 100 :: (encodeDict d ++ [101])

def encodeList : List Entry → Bytes
  | [] => []
  | e :: l => e.encode ++ encodeList l

def encodeDict : List (Bytes × Entry) → Bytes
  | [] => []
  | (k, e) :: d => encodeString k ++ (e.encode ++ encodeDict d)

end

mutual

def Entry.size : Entry → Nat
  | .undefined => 0
  | .int n => (text n).length + 2
  | .string s => (decimal s.length).length + 1 + s.length
  | .list l => sizeList l + 2
  | .dictionary d => sizeDict d + 2

def sizeList : List Entry → Nat
  | [] => 0
  | e :: l => e.size + sizeList l

def sizeDict : List (Bytes × Entry) → Nat
  | [] => 0
  | (k, e) :: d => (decimal k.length).length + 1 + k.length + e.size + sizeDict d

end

theorem length_encodeString (s : Bytes) : (encodeString s).length = (decimal s.length).length + 1 + s.length := by
  rw [encodeString, length_append, length_cons]
  omega

mutual

theorem Entry.length_encode : ∀ e : Entry, e.encode.length = e.size
  | .undefined => rfl
  | .int n => by
    rw [Entry.encode, Entry.size, length_cons, length_append, length_singleton]
  | .string s => length_encodeString s
  | .list l => by
    rw [Entry.encode, Entry.size, length_cons, length_append, length_singleton, length_encodeList l]
  | .dictionary d => by
    rw [Entry.encode, Entry.size, length_cons, length_append, length_singleton, length_encodeDict d]

theorem length_encodeList : ∀ l : List Entry, (encodeList l).length = sizeList l
  | [] => rfl
  | e :: l => by
    rw [encodeList, sizeList, length_append, e.length_encode, length_encodeList l]

theorem length_encodeDict : ∀ d : List (Bytes × Entry), (encodeDict d).length = sizeDict d
  | [] => rfl
  | (k, e) :: d => by
    rw [encodeDict, sizeDict, length_append, length_append, length_encodeString, e.length_encode, length_encodeDict d]
    omega

end

theorem decimal_head (n : Nat) : ∃ c l, decimal n = c :: l ∧ isDigit c = true := by
  cases h : decimal n with
  | nil => exact absurd h (decimal_ne_nil n)
  | cons c l => exact ⟨c, l, rfl, decimal_digits n c (h ▸ mem_cons_self)⟩

theorem Entry.encode_head {e : Entry} (h : e.Valid) : ∃ c l, e.encode = c :: l ∧ l ≠ [] ∧ c ≠ 101 := by
  cases e with
  | undefined => exact absurd h (by simp [Entry.Valid])
  | int n => exact ⟨105, _, by rw [encode], by simp, by decide⟩
  | string s =>
    obtain ⟨c, l, hd, hc⟩ := decimal_head s.length
    refine ⟨c, l ++ 58 :: s, by rw [encode, encodeString, hd]; rfl, by simp, ?_⟩
    rintro rfl
    exact absurd hc (by decide)
  | list l => exact ⟨108, _, by rw [encode], by simp, by decide⟩
  | dictionary d => exact ⟨100, _, by rw [encode], by simp, by decide⟩

end Libtorrent.Bencode
