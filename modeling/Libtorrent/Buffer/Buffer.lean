import Libtorrent.Bencode.Entry

/-!
# A growing buffer of bytes

`buffer` of `buffer.hpp`: the memory it has allocated, and the number of bytes in use. `realloc` succeeds, and `fresh`
is what it finds in new memory. A function gives `none` where it would read or write behind the allocated memory.
-/

namespace Libtorrent

open Bencode List

/-- `buffer`: the bytes from `m_begin` to `m_last`, and the distance of `m_end`. -/
structure Buffer where
  memory : Bytes
  size : Nat
  size_le : size ≤ memory.length

namespace Buffer

def data (b : Buffer) : Bytes := b.memory.take b.size

/-- `memcpy(m_begin + dst, r)`. -/
def write (b : Buffer) (dst : Nat) (r : Bytes) : Option Buffer :=
  if h : dst + r.length ≤ b.memory.length then
    some ⟨b.memory.take dst ++ r ++ b.memory.drop (dst + r.length), b.size, by
      have := b.size_le
      simp
      omega⟩
  else none

/-- `memmove(m_begin + dst, m_begin + src, n)`. -/
def move (b : Buffer) (dst src n : Nat) : Option Buffer :=
  if src + n ≤ b.memory.length then b.write dst ((b.memory.drop src).take n) else none

/-- `m_end = m_begin + n`. -/
def setEnd (b : Buffer) (n : Nat) : Option Buffer :=
  if h : n ≤ b.memory.length then some ⟨b.memory, n, h⟩ else none

variable (fresh : Nat → UInt8)

def reserve (b : Buffer) (n : Nat) : Buffer :=
  ⟨b.memory ++ (range (n - b.memory.length)).map fresh, b.size, by
    have := b.size_le
    simp
    omega⟩

def resize (b : Buffer) (n : Nat) : Option Buffer := (b.reserve fresh n).setEnd n

/-- `insert(begin() + p, first, last)`, with the bytes of the range. -/
def insert (b : Buffer) (p : Nat) (r : Bytes) : Option Buffer :=
  (b.resize fresh (b.size + r.length)).bind fun b' =>
    (if p = b.size then some b' else b'.move (p + r.length) p r.length).bind (·.write p r)

def erase (b : Buffer) (first last : Nat) : Option Buffer :=
  if last = b.size then b.resize fresh first
  else (b.move first last (b.size - last)).bind (·.setEnd (first + (b.size - last)))

/-- `insert` moves as many bytes as it inserts: they have room, and those behind them are the same as what should have
been moved there. -/
def Moves (b : Buffer) (p : Nat) (r : Bytes) : Prop :=
  p = b.size ∨ r = [] ∨ p + 2 * r.length ≤ max b.memory.length (b.size + r.length) ∧
    ∀ i, p + 2 * r.length ≤ i → i < b.size + r.length →
      (b.reserve fresh (b.size + r.length)).memory[i]? = b.memory[i - r.length]?

variable {fresh} {b : Buffer} {p n : Nat} {r : Bytes}

section

variable (b)

theorem write_spec (p : Nat) (r : Bytes) (h : p + r.length ≤ b.memory.length) :
    ∃ b', b.write p r = some b' ∧ b'.size = b.size ∧ b'.memory.length = b.memory.length ∧
      ∀ i, b'.memory[i]? = if p ≤ i ∧ i < p + r.length then r[i - p]? else b.memory[i]? := by
  refine ⟨_, dif_pos h, rfl, by simp; omega, fun i => ?_⟩
  simp only [getElem?_append, length_append, length_take, getElem?_take, getElem?_drop]
  grind

theorem move_spec (dst src : Nat) (hsrc : src + n ≤ b.memory.length) (hdst : dst + n ≤ b.memory.length) :
    ∃ b', b.move dst src n = some b' ∧ b'.size = b.size ∧ b'.memory.length = b.memory.length ∧
      ∀ i, b'.memory[i]? = if dst ≤ i ∧ i < dst + n then b.memory[i - dst + src]? else b.memory[i]? := by
  have hlen : ((b.memory.drop src).take n).length = n := by simp; omega
  obtain ⟨b', heq, hsize, hmem, hget⟩ := write_spec b dst ((b.memory.drop src).take n) (by omega)
  refine ⟨b', by rw [move, if_pos hsrc, heq], hsize, hmem, fun i => ?_⟩
  rw [hget, hlen, getElem?_take, getElem?_drop]
  grind

variable (fresh) in
theorem length_reserve (n : Nat) : (b.reserve fresh n).memory.length = max b.memory.length n := by
  simp [reserve]
  omega

theorem getElem?_reserve {n i : Nat} (hi : i < b.memory.length) : (b.reserve fresh n).memory[i]? = b.memory[i]? :=
  getElem?_append_left hi

variable (fresh) in
theorem resize_spec (n : Nat) :
    ∃ b', b.resize fresh n = some b' ∧ b'.size = n ∧ b'.memory = (b.reserve fresh n).memory :=
  ⟨_, dif_pos (by rw [length_reserve]; omega), rfl, rfl⟩

theorem length_data : b.data.length = b.size := by
  rw [data, length_take, Nat.min_eq_left b.size_le]

theorem getElem?_data (i : Nat) : b.data[i]? = if i < b.size then b.memory[i]? else none := getElem?_take

end

theorem data_eq {l : Bytes} (hlen : l.length = b.size) (h : ∀ i < b.size, b.memory[i]? = l[i]?) : b.data = l := by
  refine ext_getElem? fun i => ?_
  rw [getElem?_data]
  split
  · exact h i ‹_›
  · exact (getElem?_eq_none (by omega)).symm

variable (fresh) in
/-- The bytes that `insert` leaves: the range at `p`, behind it the bytes from `p` on, as many as there are in the
range, and the rest where it was. -/
theorem insert_get (hp : p < b.size) (hroom : p + 2 * r.length ≤ max b.memory.length (b.size + r.length)) :
    ∃ b', b.insert fresh p r = some b' ∧ b'.size = b.size + r.length ∧
      ∀ i, b'.memory[i]? = if p ≤ i ∧ i < p + r.length then r[i - p]?
        else (b.reserve fresh (b.size + r.length)).memory[
          if p + r.length ≤ i ∧ i < p + 2 * r.length then i - r.length else i]? := by
  have hlen := length_reserve fresh b (b.size + r.length)
  obtain ⟨b1, heq1, hsize1, hmem1⟩ := resize_spec fresh b (b.size + r.length)
  rw [← hmem1] at hlen
  obtain ⟨b2, heq2, hsize2, hlen2, hget2⟩ := move_spec b1 (n := r.length) (p + r.length) p (by omega) (by omega)
  obtain ⟨b3, heq3, hsize3, -, hget3⟩ := write_spec b2 p r (by omega)
  refine ⟨b3, ?_, by omega, fun i => ?_⟩
  · rw [insert, heq1, Option.bind_some, if_neg hp.ne, heq2, Option.bind_some, heq3]
  rw [hget3, hget2, ← hmem1]
  split
  · rfl
  · split
    · rw [if_pos (by omega)]
      congr 1
      omega
    · rw [if_neg (by omega)]

theorem getElem?_inserted (hp : p ≤ b.size) (i : Nat) : (b.data.take p ++ r ++ b.data.drop p)[i]? =
    if p ≤ i ∧ i < p + r.length then r[i - p]?
    else if i < b.size + r.length then b.memory[if i < p then i else i - r.length]? else none := by
  have hlen := length_data b
  simp only [getElem?_append, length_append, length_take, getElem?_take, getElem?_drop, getElem?_data]
  grind

/-- At the end nothing has to be moved. -/
theorem insert_end : ∃ b', b.insert fresh b.size r = some b' ∧
    b'.data = b.data.take b.size ++ r ++ b.data.drop b.size := by
  have hle := b.size_le
  have hlen := length_reserve fresh b (b.size + r.length)
  obtain ⟨b1, heq1, hsize1, hmem1⟩ := resize_spec fresh b (b.size + r.length)
  obtain ⟨b2, heq2, hsize2, -, hget2⟩ := write_spec b1 b.size r (by rw [hmem1]; omega)
  refine ⟨b2, by rw [insert, heq1, Option.bind_some, if_pos rfl, Option.bind_some, heq2], ?_⟩
  refine data_eq (by grind [length_data]) fun i hi => ?_
  rw [hget2, getElem?_inserted le_rfl, hmem1]
  split
  · rfl
  · rw [if_pos (by omega), if_pos (by omega), getElem?_reserve b (by omega)]

/-- Without room the bytes are moved behind the memory. -/
theorem insert_eq_none (hlt : p < b.size) (hroom : ¬ p + 2 * r.length ≤ max b.memory.length (b.size + r.length)) :
    b.insert fresh p r = none := by
  obtain ⟨b1, heq1, hsize1, hmem1⟩ := resize_spec fresh b (b.size + r.length)
  have hlen := length_reserve fresh b (b.size + r.length)
  rw [← hmem1] at hlen
  have hmove : b1.move (p + r.length) p r.length = none := by
    unfold move write
    split
    · rw [dif_neg]
      simp only [length_take, length_drop]
      omega
    · rfl
  rw [insert, heq1, Option.bind_some, if_neg hlt.ne, hmove, Option.bind_none]

theorem insert_iff (hp : p ≤ b.size) : (∃ b', b.insert fresh p r = some b' ∧
    b'.data = b.data.take p ++ r ++ b.data.drop p) ↔ b.Moves fresh p r := by
  have hle := b.size_le
  rcases hp.eq_or_lt with rfl | hlt
  · exact ⟨fun _ => .inl rfl, fun _ => insert_end⟩
  by_cases hroom : p + 2 * r.length ≤ max b.memory.length (b.size + r.length)
  · obtain ⟨b', heq, hsize, hget⟩ := insert_get fresh hlt hroom
    have hold : ∀ {i}, i < b.size → (b.reserve fresh (b.size + r.length)).memory[i]? = b.memory[i]? :=
      fun hi => getElem?_reserve b (by omega)
    constructor
    · rintro ⟨b'', heq', hdata⟩
      obtain rfl := Option.some.inj (heq.symm.trans heq')
      refine .inr (.inr ⟨hroom, fun i h1 h2 => ?_⟩)
      have hi := congrArg (·[i]?) hdata
      simp only [getElem?_data, getElem?_inserted hp] at hi
      rw [if_pos (by omega), hget, if_neg (by omega), if_neg (by omega), if_neg (by omega), if_pos h2,
        if_neg (by omega)] at hi
      exact hi
    · intro hm
      refine ⟨b', heq, data_eq (by grind [length_data]) fun i hi => ?_⟩
      rw [hget, getElem?_inserted hp]
      split
      · rfl
      rw [if_pos (show i < b.size + r.length by omega)]
      split_ifs
      · omega
      · exact hold (by omega)
      · exact hold (by omega)
      · rcases hm with h | rfl | h
        · omega
        · exact hold (by simpa [hsize] using hi)
        · exact h.2 i (by omega) (by omega)
  · constructor
    · rintro ⟨b', heq, -⟩
      rw [insert_eq_none hlt hroom] at heq
      cases heq
    · rintro (h | rfl | h)
      · omega
      · exact absurd (by simp; omega) hroom
      · exact absurd h.1 hroom

theorem erase_spec {first last : Nat} (h : first ≤ last) (hl : last ≤ b.size) :
    ∃ b', b.erase fresh first last = some b' ∧ b'.data = b.data.take first ++ b.data.drop last := by
  have hle := b.size_le
  unfold erase
  split
  · obtain ⟨b1, heq1, hsize1, hmem1⟩ := resize_spec fresh b first
    refine ⟨b1, heq1, data_eq (by grind [length_data]) fun i hi => ?_⟩
    rw [hmem1, getElem?_reserve b (by omega)]
    grind [length_data, getElem?_data]
  · obtain ⟨b1, heq1, hsize1, hlen1, hget1⟩ := move_spec b first last (n := b.size - last) (by omega) (by omega)
    rw [heq1, Option.bind_some]
    refine ⟨_, dif_pos (by omega), data_eq (by grind [length_data]) fun i hi => ?_⟩
    rw [hget1]
    grind [length_data, getElem?_data]

/-- **A buffer is a sequence of bytes**, for `insert` exactly if it moves what has to be moved. -/
theorem buffer_sequence_iff (fresh : Nat → UInt8) (b : Buffer) :
    (∀ p ≤ b.size, ∀ r, (∃ b', b.insert fresh p r = some b' ∧ b'.data = b.data.take p ++ r ++ b.data.drop p) ↔
      b.Moves fresh p r) ∧
    (∀ first last, first ≤ last → last ≤ b.size →
      ∃ b', b.erase fresh first last = some b' ∧ b'.data = b.data.take first ++ b.data.drop last) ∧
    ∀ n, ∃ b', b.resize fresh n = some b' ∧ b'.size = n ∧ b'.data.take b.size = b.data.take n := by
  refine ⟨fun p hp r => insert_iff hp, fun first last h hl => erase_spec h hl, fun n => ?_⟩
  obtain ⟨b', heq, hsize, hmem⟩ := resize_spec fresh b n
  refine ⟨b', heq, hsize, ext_getElem? fun i => ?_⟩
  have := b.size_le
  simp only [getElem?_take, getElem?_data, hsize, hmem]
  by_cases hi : i < b.size
  · rw [getElem?_reserve b (by omega)]
    grind
  · grind

/-- In front of three bytes one of them is lost; in front of one, memory behind the allocated one is written. -/
theorem insert_spoils : (∃ b b' : Buffer, b.data = [1, 2, 3] ∧ b.insert (fun _ => 0) 0 [9] = some b' ∧
      b'.data = [9, 1, 3, 0]) ∧ ∃ b : Buffer, b.data = [1] ∧ b.insert (fun _ => 0) 0 [8, 9] = none :=
  ⟨⟨⟨[1, 2, 3], 3, by decide⟩, _, rfl, rfl, rfl⟩, ⟨[1], 1, by decide⟩, rfl, rfl⟩

end Buffer

end Libtorrent
