import Libtorrent.Lib.Run
import Libtorrent.Lib.Wrap
import Libtorrent.Bencode.Entry

/-!
# A chain of buffers

`chained_buffer`: over every run the chain is a queue of bytes (`chained_buffer_fifo`). Of the memory of a buffer the
range is modelled that is to be sent. The calls of `free` are recorded with the numbers of the buffers. `append` stands
for `allocate_appendix` too, with the bytes that the caller puts there.
-/

namespace Libtorrent

open Run Bencode List

/-- `buffer_t`: the size, the distance of `start` from `buf`, and the `used_size` bytes from there. -/
structure ChainLink where
  id : Nat
  size : Nat
  start : Nat
  used : Bytes
  inside : start + used.length ≤ size

structure ChainedBuffer where
  vec : List ChainLink := []
  bytes : Int := 0
  capacity : Int := 0
  freed : List Nat := []

namespace ChainedBuffer

def popLoop (s : ChainedBuffer) : List ChainLink → Nat → ChainedBuffer
  | [], _ => { s with vec := [] }
  | b :: v, n =>
    if n = 0 then { s with vec := b :: v }
    else if h : n < b.used.length then
      { s with
        vec := ⟨b.id, b.size, b.start + n, b.used.drop n, by have := b.inside; simp; omega⟩ :: v
        bytes := int32 (s.bytes - n) }
    else
      popLoop { s with
        bytes := int32 (s.bytes - b.used.length)
        capacity := int32 (s.capacity - b.size)
        freed := s.freed ++ [b.id] } v (n - b.used.length)

def popFront (s : ChainedBuffer) (n : Nat) : ChainedBuffer := s.popLoop s.vec n

def appendBuffer (s : ChainedBuffer) (id size : Nat) (used : Bytes) (h : used.length ≤ size) : ChainedBuffer :=
  { s with
    vec := s.vec ++ [⟨id, size, 0, used, by omega⟩]
    bytes := int32 (s.bytes + used.length)
    capacity := int32 (s.capacity + size) }

/-- `append`: `none` where it returns 0. -/
def append (s : ChainedBuffer) (r : Bytes) : Option ChainedBuffer :=
  s.vec.getLast?.bind fun b =>
    if h : b.start + b.used.length + r.length ≤ b.size then
      some { s with
        vec := s.vec.dropLast ++ [⟨b.id, b.size, b.start, b.used ++ r, by simp; omega⟩]
        bytes := int32 (s.bytes + r.length) }
    else none

def buildIovec : List ChainLink → Nat → List Bytes
  | [], _ => []
  | b :: v, toSend =>
    if toSend = 0 then []
    else if toSend < b.used.length then [b.used.take toSend]
    else b.used :: buildIovec v (toSend - b.used.length)

/-- The calls of `free` up to the end of the destructor. -/
def destroyed (s : ChainedBuffer) : List Nat := s.freed ++ s.vec.map (·.id)

/-! ## Runs -/

inductive Op where
  | appendBuffer (id size : Nat) (used : Bytes) (h : used.length ≤ size)
  | append (r : Bytes)
  | popFront (n : Nat)

structure History where
  added : Bytes := []
  popped : Nat := 0
  buffers : List Nat := []

def step : ChainedBuffer × History → Op → ChainedBuffer × History
  | (s, h), .appendBuffer id size used hu =>
    (s.appendBuffer id size used hu, { h with added := h.added ++ used, buffers := h.buffers ++ [id] })
  | (s, h), .append r =>
    match s.append r with
    | some s' => (s', { h with added := h.added ++ r })
    | none => (s, h)
  | (s, h), .popFront n => (s.popFront n, { h with popped := h.popped + n })

/-- `pop_front` gets at most the number of bytes there are. -/
def Pops : ChainedBuffer × History → Op → Prop
  | (_, h), .popFront n => h.popped + n ≤ h.added.length
  | _, _ => True

def contents (v : List ChainLink) : Bytes := v.flatMap (·.used)

def total (v : List ChainLink) : Nat := (v.map (·.size)).sum

/-- A buffer from which bytes were popped has some left. -/
def Begun (v : List ChainLink) : Prop := ∀ b ∈ v, b.used = [] → b.start = 0

structure Holds (x : ChainedBuffer × History) : Prop where
  queued : contents x.1.vec = x.2.added.drop x.2.popped
  popped : x.2.popped ≤ x.2.added.length
  bytes : x.1.bytes = int32 (x.2.added.length - x.2.popped)
  capacity : x.1.capacity = int32 (total x.1.vec)
  buffers : x.2.buffers = x.1.destroyed
  begun : Begun x.1.vec

variable {s s' : ChainedBuffer} {r : Bytes}

theorem int32_sub (x y : Int) : int32 (int32 x - y) = int32 (x - y) := Int.bmod_sub_bmod

theorem contents_cons (b : ChainLink) (v : List ChainLink) : contents (b :: v) = b.used ++ contents v := flatMap_cons

theorem popLoop_spec : ∀ (v : List ChainLink) (n : Nat) (s : ChainedBuffer) (x : Int), n ≤ (contents v).length →
    s.bytes = int32 x → s.capacity = int32 (total v) → Begun v →
    contents (s.popLoop v n).vec = (contents v).drop n ∧ (s.popLoop v n).bytes = int32 (x - n) ∧
      (s.popLoop v n).capacity = int32 (total (s.popLoop v n).vec) ∧
      (s.popLoop v n).destroyed = s.freed ++ v.map (·.id) ∧ Begun (s.popLoop v n).vec
  | [], n, s, x, hn, hb, hc, hp => by
    obtain rfl : n = 0 := by simpa [contents] using hn
    exact ⟨rfl, by simpa [popLoop] using hb, hc, rfl, hp⟩
  | b :: v, n, s, x, hn, hb, hc, hp => by
    have hp' : Begun v := fun c hmem => hp c (mem_cons_of_mem _ hmem)
    rw [popLoop]
    split_ifs with h0 hlt
    · subst h0
      exact ⟨rfl, by simpa using hb, hc, rfl, hp⟩
    · refine ⟨?_, by rw [hb, int32_sub], hc, rfl, forall_mem_cons.mpr ⟨fun hnil => ?_, hp'⟩⟩
      · rw [contents_cons, contents_cons, drop_append_of_le_length (by omega)]
      · have := drop_eq_nil_iff.mp hnil
        omega
    · rw [contents_cons, length_append] at hn
      obtain ⟨h1, h2, h3, h4, h5⟩ := popLoop_spec v (n - b.used.length) { s with
        bytes := int32 (s.bytes - b.used.length)
        capacity := int32 (s.capacity - b.size)
        freed := s.freed ++ [b.id] } (x - b.used.length) (by omega) (by rw [hb, int32_sub])
        (by simp [hc, int32_sub, total]) hp'
      refine ⟨?_, h2.trans ?_, h3, h4.trans (append_cons ..).symm, h5⟩
      · have hnil : b.used.drop n = [] := drop_of_length_le (by omega)
        rw [h1, contents_cons, drop_append, hnil, nil_append]
      · congr 1
        omega

theorem append_spec (h : s.append r = some s') (hp : Begun s.vec) : contents s'.vec = contents s.vec ++ r ∧
    s'.bytes = int32 (s.bytes + r.length) ∧ s'.capacity = s.capacity ∧ total s'.vec = total s.vec ∧
    s'.destroyed = s.destroyed ∧ Begun s'.vec := by
  obtain ⟨b, hb, h⟩ := Option.bind_eq_some_iff.mp h
  obtain ⟨v, hv⟩ := getLast?_eq_some_iff.mp hb
  split_ifs at h with hr
  obtain rfl := Option.some.inj h
  simp only [hv, dropLast_concat, contents, total, destroyed, flatMap_append, map_append, sum_append, Begun,
    forall_mem_append, forall_mem_singleton] at hp ⊢
  exact ⟨by simp, trivial, trivial, rfl, rfl, hp.1, fun hnil => hp.2 (append_eq_nil_iff.mp hnil).1⟩

/-- Bytes were added at the end, in a new buffer or not. -/
theorem Holds.grow {hist : History} {ids : List Nat} (h : Holds (s, hist)) (hc : contents s'.vec = contents s.vec ++ r)
    (hb : s'.bytes = int32 (s.bytes + r.length)) (hcap : s'.capacity = int32 (total s'.vec))
    (hd : s'.destroyed = s.destroyed ++ ids) (hp : Begun s'.vec) :
    Holds (s', { hist with added := hist.added ++ r, buffers := hist.buffers ++ ids }) where
  queued := by rw [hc, h.queued, drop_append_of_le_length h.popped]
  popped := h.popped.trans (by simp)
  bytes := by
    rw [hb, h.bytes, int32_add]
    congr 1
    simp only [length_append]
    omega
  capacity := hcap
  buffers := by rw [hd, ← h.buffers]
  begun := hp

theorem Holds.step {x : ChainedBuffer × History} (h : Holds x) (op : Op) (hpop : Pops x op) : Holds (step x op) := by
  obtain ⟨s, hist⟩ := x
  cases op with
  | appendBuffer =>
    refine h.grow ?_ rfl ?_ ?_ (forall_mem_append.mpr ⟨h.begun, forall_mem_singleton.mpr fun _ => rfl⟩)
    · simp [contents, appendBuffer]
    · have := h.capacity
      simp only [appendBuffer, total, map_append, sum_append] at this ⊢
      rw [this, int32_add]
      rfl
    · simp [destroyed, appendBuffer]
  | append r =>
    cases happ : s.append r with
    | none => simpa only [ChainedBuffer.step, happ] using h
    | some =>
      obtain ⟨k1, k2, k3, k4, k5, k6⟩ := append_spec happ h.begun
      simpa only [ChainedBuffer.step, happ, append_nil] using
        h.grow k1 k2 (k3.trans (k4 ▸ h.capacity)) (k5.trans (append_nil _).symm) k6
  | popFront n =>
    have hn : hist.popped + n ≤ hist.added.length := hpop
    have hc : contents s.vec = hist.added.drop hist.popped := h.queued
    obtain ⟨k1, k2, k3, k4, k5⟩ := popLoop_spec s.vec n s _ (by rw [hc, length_drop]; omega) h.bytes h.capacity h.begun
    refine ⟨k1.trans ?_, hn, k2.trans ?_, k3, h.buffers.trans k4.symm, k5⟩
    · rw [hc, drop_drop]
      rfl
    · congr 1
      dsimp only [ChainedBuffer.step]
      omega

theorem flatten_buildIovec : ∀ (v : List ChainLink) (n : Nat), (buildIovec v n).flatten = (contents v).take n
  | [], n => by simp [buildIovec, contents]
  | b :: v, n => by
    rw [buildIovec, contents_cons, take_append]
    split_ifs with h0 hlt
    · simp [h0]
    · rw [Nat.sub_eq_zero_of_le (by omega), take_zero, append_nil, flatten_singleton]
    · rw [take_of_length_le (by omega), flatten_cons, flatten_buildIovec v _]

/-- **A queue of bytes.** -/
theorem chained_buffer_fifo (ops : List Op) (hl : Legal step Pops ({}, {}) ops) :
    let x := run step ({}, {}) ops
    (∀ m, (buildIovec x.1.vec m).flatten = (x.2.added.drop x.2.popped).take m) ∧
    x.1.bytes = int32 (x.2.added.length - x.2.popped) ∧ x.1.capacity = int32 (total x.1.vec) ∧
    (∀ r, (x.1.append r).isSome ↔ ∃ b ∈ x.1.vec.getLast?, b.start + b.used.length + r.length ≤ b.size) ∧
    x.2.buffers = x.1.destroyed ∧ Begun x.1.vec := by
  intro x
  have h : Holds x := inv_run (fun _ op h => h.step op) ⟨rfl, le_refl _, rfl, rfl, rfl, nofun⟩ hl
  refine ⟨fun m => ?_, h.bytes, h.capacity, fun r => ?_, h.buffers, h.begun⟩
  · rw [flatten_buildIovec, h.queued]
  · rw [append]
    cases x.1.vec.getLast? <;> simp

/-- Two bytes in a buffer of four and one behind them; one is sent. -/
def oneSent : List Op := [.appendBuffer 1 4 [1, 2] (by decide), .append [9], .popFront 1]

theorem chained_buffer_fifo_oneSent :
    Legal step Pops ({}, {}) oneSent ∧ (run step ({}, {}) oneSent).1.bytes = int32 (3 - 1) :=
  have hl : Legal step Pops ({}, {}) oneSent := ⟨trivial, trivial, (by decide : 1 ≤ 3), trivial⟩
  ⟨hl, (chained_buffer_fifo oneSent hl).2.1⟩

/-- Two buffers with 2^30 bytes each overflow `m_bytes`. -/
theorem size_overflows : ∃ ops, Legal step Pops ({}, {}) ops ∧
    (run step ({}, {}) ops).2.added.length = 2 ^ 31 ∧ (run step ({}, {}) ops).1.bytes = -2 ^ 31 := by
  obtain ⟨u, hu⟩ : ∃ u : Bytes, u.length = 2 ^ 30 := ⟨replicate _ 0, length_replicate⟩
  refine ⟨[.appendBuffer 1 _ u (le_refl _), .appendBuffer 2 _ u (le_refl _)], ⟨trivial, trivial, trivial⟩, ?_, ?_⟩
  · simp [run, step, hu]
  · simp [run, step, appendBuffer, hu]
    rfl

end ChainedBuffer

end Libtorrent
