import Libtorrent.Bencode.Encode

/-!
# `lazy_bdecode`

Pointers are offsets from the start of the buffer; a read before or behind the buffer ends the model (`outside`). The
stack holds the entries that are not finished. Each of them is the last item of the one below and is kept outside of it
until it is popped.
-/

namespace Libtorrent.Bencode

open Decimal

/-! ## `lazy_entry` -/

/-- `lazy_entry`: `m_data`, `m_size`, `m_begin` and `m_len`, where the size of a list or dictionary is the number of its
items. The item of a dictionary is a `lazy_dict_entry`. -/
inductive LazyEntry where
  | none
  | dict (items : List (Int × LazyEntry)) (begin : Int) (len : Nat)
  | list (items : List LazyEntry) (begin : Int) (len : Nat)
  | string (start : Int) (size : Nat) (begin : Int) (len : Nat)
  | int (start : Int) (size : Nat) (begin : Int) (len : Nat)

namespace LazyEntry

def begin : LazyEntry → Int
  | none => 0
  | dict _ b _ => b
  | list _ b _ => b
  | string _ _ b _ => b
  | int _ _ b _ => b

def len : LazyEntry → Nat
  | none => 0
  | dict _ _ n => n
  | list _ _ n => n
  | string _ _ _ n => n
  | int _ _ _ n => n

/-- `data_section()`: the length is converted to an `int`. -/
def dataSection (l : LazyEntry) : Int × Int := (l.begin, int32 l.len)

end LazyEntry

def uint32 (x : Int) : Nat := (x % 2 ^ 32).toNat

variable (buf : Bytes)

def slice (start n : Int) : Bytes := (buf.drop start.toNat).take n.toNat

/-- `parse_int(start, end, delimiter, val)` with the bytes up to `end`: where it stops, if there is no parse error, and
the value. -/
def parseInt (delimiter : UInt8) : Bytes → Nat → Int → Option Nat × Int
  | [], start, val => (some start, val)
  | c :: l, start, val =>
    if c = delimiter then (some start, val)
    else if !isDigit c then (none, val)
    else parseInt delimiter l (start + 1) (int64 (int64 (val * 10) + (c.toNat - 48)))

def findChar (delimiter : UInt8) : Bytes → Nat → Nat
  | [], start => start
  | c :: l, start => if c = delimiter then start else findChar delimiter l (start + 1)

/-- `num_digits(val)`; a value of `fuel` digits at most. -/
def numDigits : (fuel : Nat) → Int → Nat
  | 0, _ => 1
  | fuel + 1, val => if 10 ≤ val then numDigits fuel (val.tdiv 10) + 1 else 1

def constructInt (start length : Int) : LazyEntry :=
  .int start (uint32 length) (start - 1) (uint32 (int32 length + 2))

def constructString (start length : Int) : LazyEntry :=
  let begin := start - 1 - numDigits 10 length
  .string start (uint32 length) begin (uint32 (start - begin + length))

/-! ## The decoder -/

inductive BdecodeError where
  | depthExceeded | unexpectedEof | expectedString | expectedColon | limitExceeded | expectedValue
deriving DecidableEq

/-- An entry on the stack, with its name if the one below is a dictionary. -/
structure Frame where
  name : Int
  val : LazyEntry

def Frame.attach (f : Frame) : LazyEntry → LazyEntry
  | .dict items b n => .dict (items ++ [(f.name, f.val)]) b n
  | .list items b n => .list (items ++ [f.val]) b n
  | l => l

/-- The state of the loop. `ret` is the root once the stack is empty. -/
structure LazyState where
  start : Int
  itemLimit : Int
  stack : List Frame
  ret : LazyEntry

def LazyState.popBack (s : LazyState) : LazyState :=
  match s.stack with
  | [] => s
  | [f] => { s with stack := [], ret := f.val }
  | f :: g :: st => { s with stack := ⟨g.name, f.attach g.val⟩ :: st }

def LazyState.construct (s : LazyState) (l : LazyEntry) : LazyState :=
  match s.stack with
  | [] => s
  | f :: st => { s with stack := ⟨f.name, l⟩ :: st }

def LazyState.setEnd (s : LazyState) : LazyState :=
  match s.stack with
  | ⟨name, .dict items b _⟩ :: st => { s with stack := ⟨name, .dict items b (uint32 (s.start - b))⟩ :: st }
  | ⟨name, .list items b _⟩ :: st => { s with stack := ⟨name, .list items b (uint32 (s.start - b))⟩ :: st }
  | _ => s

/-- `dict_append(name)` or `list_append()` with `stack.push_back(ent)`. -/
def LazyState.append (s : LazyState) (name : Int) : LazyState := { s with stack := ⟨name, .none⟩ :: s.stack }

/-- What a round of the loop does: it goes on, fails with `error_pos`, or reads outside of the buffer. The position is
missing when `start` is null. -/
inductive Outcome where
  | next (s : LazyState)
  | fail (ec : BdecodeError) (errorPos : Option Int) (s : LazyState)
  | outside

def readAt (start : Int) : Option UInt8 := if start < 0 then none else buf[start.toNat]?

def withByte (start : Int) (k : UInt8 → Outcome) : Outcome :=
  match readAt buf start with
  | none => .outside
  | some c => k c

/-- `parse_int(start, end, ':', len)` for a length whose first digit is `t`, and the test behind it with `room` bytes
required behind the colon's position. -/
def parseLength (t : UInt8) (room : Int) (s : LazyState) (k : Nat → Int → Outcome) : Outcome :=
  match parseInt 58 (buf.drop s.start.toNat) s.start.toNat (t.toNat - 48) with
  | (none, _) => .fail .expectedColon none s
  | (some start, len) =>
    if start + len + room > buf.length then .fail .expectedColon (some start) { s with start := start }
    else withByte buf start fun c =>
      if c ≠ 58 then .fail .expectedColon (some start) { s with start := start } else k start len

/-- The second half of a round: the value that starts with `t`. -/
def startValue (t : UInt8) (s : LazyState) : Outcome :=
  let s := { s with itemLimit := s.itemLimit - 1 }
  if s.itemLimit ≤ 0 then .fail .limitExceeded (some s.start) s
  else if t = 100 then .next (s.construct (.dict [] (s.start - 1) 0))
  else if t = 108 then .next (s.construct (.list [] (s.start - 1) 0))
  else if t = 105 then
    let start := findChar 101 (buf.drop s.start.toNat) s.start.toNat
    let s := { s.construct (constructInt s.start (start - s.start)) with start := start }
    if start = buf.length then .fail .unexpectedEof (some start) s
    else .next { s with start := start + 1 }.popBack
  else if !isDigit t then .fail .expectedValue (some s.start) s
  else parseLength buf t 1 s fun start len =>
    .next { s.construct (constructString (start + 1) (int32 len)) with start := start + 1 + len }.popBack

def startKey (t : UInt8) (s : LazyState) : Outcome :=
  if !isDigit t then .fail .expectedString (some s.start) s
  else parseLength buf t 3 s fun start len =>
    let start : Int := start + 1
    if start = buf.length then .fail .unexpectedEof (some start) { s with start := start }
    else
      let s := s.append start
      let start := start + len
      if start ≥ buf.length then .fail .unexpectedEof (some start) { s with start := start }
      else withByte buf start fun t => startValue buf t { s with start := start + 1 }

def lazyStep (depthLimit : Int) (s : LazyState) : Outcome :=
  if s.stack.length > depthLimit then .fail .depthExceeded (some s.start) s
  else withByte buf s.start fun t =>
    let s := { s with start := s.start + 1 }
    if (buf.length : Int) ≤ s.start ∧ t ≠ 101 then .fail .unexpectedEof (some s.start) s
    else match s.stack with
      | ⟨_, .dict _ _ _⟩ :: _ => if t = 101 then .next s.setEnd.popBack else startKey buf t s
      | ⟨_, .list _ _ _⟩ :: _ => if t = 101 then .next s.setEnd.popBack else startValue buf t (s.append 0)
      | _ => startValue buf t s

/-- What `lazy_bdecode` leaves in `ret` at an error: the entries on the stack are popped, each list and dictionary among
them loses its last item. -/
def popAll : List Frame → LazyEntry
  | [] => .none
  | [⟨_, .dict items b n⟩] => .dict items.dropLast b n
  | [⟨_, .list items b n⟩] => .list items.dropLast b n
  | f :: st => (st.getLastD f).val

/-- The entries that are still on the stack when the input ends are items of those below. -/
def closeAll : List Frame → LazyEntry
  | [] => .none
  | f :: st => (st.foldl (fun f g => ⟨g.name, f.attach g.val⟩) f).val

inductive LazyResult where
  | zero (ret : LazyEntry)
  | failed (ec : BdecodeError) (errorPos : Option Int) (ret : LazyEntry)
  | outside
  | unfinished

def lazyLoop (buf : Bytes) (depthLimit : Int) : (fuel : Nat) → LazyState → LazyResult
  | 0, _ => .unfinished
  | fuel + 1, s =>
    if s.stack = [] then .zero s.ret
    else if s.start ≥ buf.length then .zero (closeAll s.stack)
    else match lazyStep buf depthLimit s with
      | .next s => lazyLoop buf depthLimit fuel s
      | .fail ec pos s => .failed ec pos (popAll s.stack)
      | .outside => .outside

/-- `lazy_bdecode(start, end, ret, ec, error_pos, depth_limit, item_limit)` with the default limits. A round without an
`e` counts an item, and one with an `e` closes one, so the rounds are bounded by the limit. -/
def lazyBdecode : LazyResult :=
  if buf = [] then .zero .none
  else lazyLoop buf 1000 (2 * 1000000) ⟨0, 1000000, [⟨0, .none⟩], .none⟩

/-! ## Reading the result -/

def intValue (start : Int) (size : Nat) : Int :=
  let digits := slice buf start size
  if digits.head? = some 45 then int64 (-(parseInt 101 digits.tail 0 0).2) else (parseInt 101 digits 0 0).2

def dictItem (item : Int × LazyEntry) : Bytes × LazyEntry :=
  (slice buf item.1 (item.2.begin - item.1), item.2)

mutual

/-- `entry::operator=(lazy_entry const&)` for a new entry. -/
def LazyEntry.toEntry (buf : Bytes) : LazyEntry → Entry
  | .none => .undefined
  | .dict items _ _ => .dictionary (toDict buf items [])
  | .list items _ _ => .list (toList buf items)
  | .string start size _ _ => .string (slice buf start size)
  | .int start size _ _ => .int (intValue buf start size)

def toList (buf : Bytes) : List LazyEntry → List Entry
  | [] => []
  | l :: items => l.toEntry buf :: toList buf items

def toDict (buf : Bytes) : List (Int × LazyEntry) → List (Bytes × Entry) → List (Bytes × Entry)
  | [], d => d
  | (name, l) :: items, d => toDict buf items (assign (dictItem buf (name, l)).1 (l.toEntry buf) d)

end

end Libtorrent.Bencode
