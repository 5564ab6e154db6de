import Mathlib.Data.UInt
import Mathlib.Tactic.Linarith
import Mathlib.Tactic.Ring

/-!
# Addresses

`filter_impl` works on any type with an order, a zero, a greatest element, `plus_one` and `minus_one`. `Address` is
that interface together with the number an address stands for. The instances are the 16-bit ports and the byte arrays
of IPv4 and IPv6 addresses, whose `plus_one` and `minus_one` carry from the last byte to the first.
-/

namespace Libtorrent.IpFilter

open List Bool UInt8

/-- What `filter_impl<Addr>` needs of `Addr`. -/
class Address (α : Type) [DecidableEq α] where
  zero : α
  maxAddr : α
  plusOne : α → α
  minusOne : α → α
  lt : α → α → Bool
  /-- The number that the address stands for. -/
  val : α → Nat
  val_injective : ∀ {a b : α}, val a = val b → a = b
  val_zero : val zero = 0
  val_le : ∀ a, val a ≤ val maxAddr
  lt_iff : ∀ {a b : α}, lt a b = true ↔ val a < val b
  val_plusOne : ∀ {a : α}, a ≠ maxAddr → val (plusOne a) = val a + 1
  val_minusOne : ∀ {a : α}, a ≠ zero → val (minusOne a) + 1 = val a

/-! ## Ports -/

instance : Address UInt16 where
  zero := 0
  maxAddr := 0xffff
  plusOne a := a + 1
  minusOne a := a - 1
  lt a b := decide (a < b)
  val a := a.toNat
  val_injective h := UInt16.toNat_inj.mp h
  val_zero := rfl
  val_le a := by
    have := a.toNat_lt
    change a.toNat ≤ 65535
    omega
  lt_iff := by
    intro a b
    rw [decide_eq_true_eq, UInt16.lt_iff_toNat_lt]
  val_plusOne := by
    intro a h
    have hne : a.toNat ≠ 65535 := fun e => h (UInt16.toNat_inj.mp e)
    have := a.toNat_lt
    rw [UInt16.toNat_add]
    change (a.toNat + 1) % 65536 = _
    omega
  val_minusOne := by
    intro a h
    have hne : a.toNat ≠ 0 := fun e => h (UInt16.toNat_inj.mp e)
    have hle : (1 : UInt16) ≤ a := by
      rw [UInt16.le_iff_toNat_le]
      change 1 ≤ a.toNat
      omega
    rw [UInt16.toNat_sub_of_le _ _ hle]
    change a.toNat - 1 + 1 = _
    omega

/-! ## Byte arrays -/

/-- The number that bytes stand for, the first byte being the most significant. -/
def value : List UInt8 → Nat
  | [] => 0
  | b :: bs => b.toNat * 256 ^ bs.length + value bs

/-- The loop of `plus_one`, with the carry that leaves the first byte. -/
def plusOneLoop : List UInt8 → List UInt8 × Bool
  | [] => ([], true)
  | b :: bs =>
    let r := plusOneLoop bs
    if r.2 then if b < 255 then ((b + 1) :: r.1, false) else (0 :: r.1, true) else (b :: r.1, false)

/-- The loop of `minus_one`, with the borrow that leaves the first byte. -/
def minusOneLoop : List UInt8 → List UInt8 × Bool
  | [] => ([], true)
  | b :: bs =>
    let r := minusOneLoop bs
    if r.2 then if 0 < b then ((b - 1) :: r.1, false) else (255 :: r.1, true) else (b :: r.1, false)

/-- `operator<` of byte arrays: lexicographic. -/
def lexLt : List UInt8 → List UInt8 → Bool
  | a :: as, b :: bs => decide (a < b) || a == b && lexLt as bs
  | _, _ => false

theorem value_lt : ∀ bs : List UInt8, value bs < 256 ^ bs.length
  | [] => by decide
  | b :: bs => by
    have ih := value_lt bs
    have hb : b.toNat < 256 := b.toNat_lt
    rw [value, length_cons, pow_succ]
    nlinarith

@[simp] theorem length_plusOneLoop : ∀ bs, (plusOneLoop bs).1.length = bs.length
  | [] => rfl
  | b :: bs => by
    simp only [plusOneLoop]
    split
    · split <;> simp [length_plusOneLoop bs]
    · simp [length_plusOneLoop bs]

@[simp] theorem length_minusOneLoop : ∀ bs, (minusOneLoop bs).1.length = bs.length
  | [] => rfl
  | b :: bs => by
    simp only [minusOneLoop]
    split
    · split <;> simp [length_minusOneLoop bs]
    · simp [length_minusOneLoop bs]

theorem value_plusOneLoop : ∀ bs : List UInt8,
    value (plusOneLoop bs).1 + (plusOneLoop bs).2.toNat * 256 ^ bs.length = value bs + 1
  | [] => rfl
  | b :: bs => by
    have ih := value_plusOneLoop bs
    have hb : b.toNat < 256 := b.toNat_lt
    simp only [plusOneLoop]
    cases hc : (plusOneLoop bs).2 with
    | false =>
      rw [hc] at ih
      simp only [false_eq_true, if_false, value, length_plusOneLoop, toNat_false] at ih ⊢
      omega
    | true =>
      rw [hc] at ih
      simp only [if_true, toNat_true, Nat.one_mul] at ih ⊢
      split_ifs with hlt
      · have hlt' : b.toNat < 255 := by rwa [lt_iff_toNat_lt] at hlt
        have hadd : (b + 1).toNat = b.toNat + 1 := by
          rw [UInt8.toNat_add]
          change (b.toNat + 1) % 256 = _
          omega
        simp only [value, length_plusOneLoop, hadd, toNat_false, Nat.zero_mul, Nat.add_zero, Nat.add_mul]
        omega
      have hge : b.toNat = 255 := by
        rw [lt_iff_toNat_lt] at hlt
        have : ¬ b.toNat < 255 := hlt
        omega
      simp only [value, length_plusOneLoop, hge, toNat_true, length_cons, pow_succ]
      change 0 * _ + _ + _ = _
      omega

theorem value_minusOneLoop : ∀ bs : List UInt8,
    value (minusOneLoop bs).1 + 1 = value bs + (minusOneLoop bs).2.toNat * 256 ^ bs.length
  | [] => rfl
  | b :: bs => by
    have ih := value_minusOneLoop bs
    have hb : b.toNat < 256 := b.toNat_lt
    simp only [minusOneLoop]
    cases hc : (minusOneLoop bs).2 with
    | false =>
      rw [hc] at ih
      simp only [false_eq_true, if_false, value, length_minusOneLoop, toNat_false] at ih ⊢
      omega
    | true =>
      rw [hc] at ih
      simp only [if_true, toNat_true, Nat.one_mul] at ih ⊢
      split_ifs with hlt
      · have hpos : 0 < b.toNat := by rwa [lt_iff_toNat_lt] at hlt
        have hsub : (b - 1).toNat = b.toNat - 1 := by
          rw [UInt8.toNat_sub_of_le _ _ (by rw [UInt8.le_iff_toNat_le]; exact hpos)]
          rfl
        obtain ⟨m, hm⟩ : ∃ m, b.toNat = m + 1 := ⟨b.toNat - 1, by omega⟩
        simp only [value, length_minusOneLoop, hsub, hm, toNat_false, Nat.zero_mul, Nat.add_zero, Nat.add_sub_cancel,
          Nat.add_mul]
        omega
      · have hzero : b.toNat = 0 := by
          rw [lt_iff_toNat_lt] at hlt
          have : ¬ 0 < b.toNat := hlt
          omega
        simp only [value, length_minusOneLoop, hzero, toNat_true, length_cons, pow_succ]
        change 255 * _ + _ + _ = _
        omega

theorem value_injective : ∀ {as bs : List UInt8}, as.length = bs.length → value as = value bs → as = bs
  | [], [], _, _ => rfl
  | a :: as, b :: bs, hl, h => by
    have hl' : as.length = bs.length := Nat.succ.inj hl
    have ha := value_lt as
    have hb := value_lt bs
    rw [value, value, hl'] at h
    rw [hl'] at ha
    have hab : a.toNat = b.toNat := by
      rcases Nat.lt_trichotomy a.toNat b.toNat with hlt | heq | hgt
      · nlinarith
      · exact heq
      · nlinarith
    rw [hab] at h
    rw [UInt8.toNat_inj.mp hab, value_injective hl' (by omega)]

theorem lexLt_iff : ∀ {as bs : List UInt8}, as.length = bs.length → (lexLt as bs = true ↔ value as < value bs)
  | [], [], _ => by simp [lexLt, value]
  | a :: as, b :: bs, hl => by
    have hl' : as.length = bs.length := Nat.succ.inj hl
    have ha := value_lt as
    have hb := value_lt bs
    rw [hl'] at ha
    simp only [lexLt, or_eq_true, decide_eq_true_eq, and_eq_true, beq_iff_eq, lexLt_iff hl', value, hl',
      lt_iff_toNat_lt]
    rcases Nat.lt_trichotomy a.toNat b.toNat with hlt | heq | hgt
    · exact iff_of_true (Or.inl hlt) (by nlinarith)
    · rw [UInt8.toNat_inj.mp heq]
      simp
    refine iff_of_false ?_ (by nlinarith)
    rintro (h | ⟨h, -⟩)
    · omega
    · rw [h] at hgt
      omega

theorem value_replicate_zero (n : Nat) : value (List.replicate n 0) = 0 := by
  induction n with
  | zero => rfl
  | succ n ih =>
    rw [replicate_succ, value, ih]
    exact Nat.zero_mul _

theorem value_replicate_max (n : Nat) : value (List.replicate n 255) + 1 = 256 ^ n := by
  induction n with
  | zero => rfl
  | succ n ih =>
    rw [replicate_succ, value, length_replicate, pow_succ]
    change 255 * 256 ^ n + _ + 1 = _
    omega

/-- `boost::array<unsigned char, n>`. -/
structure Bytes (n : Nat) where
  data : List UInt8
  size : data.length = n
  deriving DecidableEq, Repr

theorem Bytes.ext_value {n : Nat} {a b : Bytes n} (h : value a.data = value b.data) : a = b := by
  obtain ⟨as, ha⟩ := a
  obtain ⟨bs, hb⟩ := b
  rw [Bytes.mk.injEq]
  exact value_injective (ha.trans hb.symm) h

instance (n : Nat) : Address (Bytes n) where
  zero := ⟨List.replicate n 0, List.length_replicate⟩
  maxAddr := ⟨List.replicate n 255, List.length_replicate⟩
  plusOne a := ⟨(plusOneLoop a.data).1, (length_plusOneLoop _).trans a.size⟩
  minusOne a := ⟨(minusOneLoop a.data).1, (length_minusOneLoop _).trans a.size⟩
  lt a b := lexLt a.data b.data
  val a := value a.data
  val_injective := Bytes.ext_value
  val_zero := value_replicate_zero n
  val_le := fun a => by
    have h₁ := value_lt a.data
    have h₂ := value_replicate_max n
    rw [a.size] at h₁
    change value a.data ≤ value (List.replicate n 255)
    omega
  lt_iff := by
    intro a b
    exact lexLt_iff (a.size.trans b.size.symm)
  val_plusOne := by
    intro a hne
    have h := value_plusOneLoop a.data
    cases hc : (plusOneLoop a.data).2 with
    | false =>
      rw [hc] at h
      simpa using h
    | true =>
      -- a carry out of the first byte means that all bytes were 255
      rw [hc, a.size] at h
      have h₁ := value_lt a.data
      have h₂ := value_replicate_max n
      rw [a.size] at h₁
      simp only [Bool.toNat_true, Nat.one_mul] at h
      exact absurd (Bytes.ext_value (by change _ = value (List.replicate n 255); omega)) hne
  val_minusOne := by
    intro a hne
    have h := value_minusOneLoop a.data
    cases hc : (minusOneLoop a.data).2 with
    | false =>
      rw [hc] at h
      simpa using h
    | true =>
      rw [hc, a.size] at h
      have h₁ := value_lt (minusOneLoop a.data).1
      rw [length_minusOneLoop, a.size] at h₁
      simp only [Bool.toNat_true, Nat.one_mul] at h
      refine absurd (Bytes.ext_value ?_) hne
      change _ = value (List.replicate n 0)
      rw [value_replicate_zero]
      omega

/-!
## `filter_impl`

`m_access_list` is a `std::set` of range starts; it is modelled by the list of its elements in order, and an iterator by
its position (the end iterator is the length). An insertion or an erasure in front of an iterator moves its position.
-/

/-- `filter_impl::range`; the end of the range is the start of the next one. -/
structure Range (α : Type) where
  start : α
  access : Int
  deriving DecidableEq, Repr

structure IpRange (α : Type) where
  first : α
  last : α
  flags : Int
  deriving DecidableEq, Repr

section

variable {α : Type} [DecidableEq α] [Address α]

instance : Inhabited (Range α) := ⟨⟨Address.zero, 0⟩⟩

variable (l : List (Range α))

def rangeAt (i : Nat) : Range α := l.getD i default

def upperBound (a : α) : Nat := l.findIdx fun r => Address.lt a r.start

def lowerBound (a : α) : Nat := l.findIdx fun r => !Address.lt r.start a

/-- `insert(hint, r)`: the set and the position of the element with the start of `r`. -/
def insert (r : Range α) : List (Range α) × Nat :=
  let p := lowerBound l r.start
  if p < l.length ∧ (rangeAt l p).start = r.start then (l, p) else (l.insertIdx p r, p)

def eraseRange (i j : Nat) : List (Range α) := l.take i ++ l.drop j

/-- The position of the iterator `j` after an insertion at `p` has turned `l` into `l'`. -/
def moved (l l' : List (Range α)) (p j : Nat) : Nat := if p ≤ j then j + (l'.length - l.length) else j

def access (l : List (Range α)) (addr : α) : Int :=
  let i := upperBound l addr
  (rangeAt l (if i ≠ 0 then i - 1 else i)).access

/-- The first part of `add_rule`: the range that the rule starts in is split, or the one before it is continued. Returns
the set, `i`, `j` and `first_access`. -/
def splitFirst (i j : Nat) (first : α) (flags : Int) : List (Range α) × Nat × Nat × Int :=
  let firstAccess := (rangeAt l i).access
  if (rangeAt l i).start ≠ first ∧ firstAccess ≠ flags then
    let (l', p) := insert l ⟨first, flags⟩
    (l', p, moved l l' p j, firstAccess)
  else if i ≠ 0 ∧ (rangeAt l (i - 1)).access = flags then (l, i - 1, j, (rangeAt l (i - 1)).access)
  else (l, i, j, firstAccess)

/-- The second part: the ranges that start inside the rule go, and the rule's own range gets its flags. Returns the set
and `j`. -/
def overwrite (i j : Nat) (first : α) (flags firstAccess : Int) : List (Range α) × Nat :=
  let (l, j) := if i ≠ j then (eraseRange l (i + 1) j, i + 1) else (l, j)
  if (rangeAt l i).start = first then (l.set i ⟨first, flags⟩, j)
  else if firstAccess ≠ flags then
    let (l', p) := insert l ⟨first, flags⟩
    (l', moved l l' p j)
  else (l, j)

/-- The third part: what followed the rule's last address starts again behind it. -/
def resume (j : Nat) (last : α) (flags lastAccess : Int) : List (Range α) × Nat :=
  if j < l.length ∧ Address.minusOne (rangeAt l j).start ≠ last ∨ j = l.length ∧ last ≠ Address.maxAddr then
    if lastAccess ≠ flags then insert l ⟨Address.plusOne last, lastAccess⟩ else (l, j)
  else (l, j)

/-- The last part: the next range is joined if it has the same flags. -/
def join (j : Nat) (flags : Int) : List (Range α) :=
  if j < l.length ∧ (rangeAt l j).access = flags then l.eraseIdx j else l

def addRule (first last : α) (flags : Int) : List (Range α) :=
  let i := upperBound l first
  let j := upperBound l last
  let i := if i ≠ 0 then i - 1 else i
  let lastAccess := (rangeAt l (j - 1)).access
  let (l, i, j, firstAccess) := splitFirst l i j first flags
  let (l, j) := overwrite l i j first flags firstAccess
  let (l, j) := resume l j last flags lastAccess
  join l j flags

def exportFilter : List (Range α) → List (IpRange α)
  | [] => []
  | [r] => [⟨r.start, Address.maxAddr, r.access⟩]
  | r :: r' :: l => ⟨r.start, Address.minusOne r'.start, r.access⟩ :: exportFilter (r' :: l)

variable (α) in
def empty : List (Range α) := [⟨Address.zero, 0⟩]

/-- The filter after some calls of `add_rule`. -/
def ofRules (rules : List (IpRange α)) : List (Range α) :=
  rules.foldl (fun l r => addRule l r.first r.last r.flags) (empty α)

end

end Libtorrent.IpFilter
