import Libtorrent.Bencode.Lazy
import Libtorrent.Bencode.RoundTrip

/-!
# The lazy decoder on an encoding

`lazy_bdecode` run on the encoding of a tree builds `lazyOf 0 e`, the tree with the positions of its nodes
(`lazyBdecode_encode`). Its conversion to an `entry` is the tree again, and every node has its own bytes as
`data_section()` exactly if the encoding is shorter than `2 ^ 31` bytes (`lazy_round_trip`).
-/

namespace Libtorrent.Bencode

open Decimal List Nat Int Entry LazyEntry

/-! ## Positions -/

def At (buf : Bytes) (off : Nat) (s : Bytes) : Prop := s <+: buf.drop off

variable {buf u v : Bytes} {off : Nat}

theorem At.left (h : At buf off (u ++ v)) : At buf off u := (prefix_append u v).trans h

theorem At.right (h : At buf off (u ++ v)) : At buf (off + u.length) v := by
  obtain ⟨post, hp⟩ := h
  refine ⟨post, ?_⟩
  rw [← drop_drop, ← hp, append_assoc, drop_left]

variable {c delim : UInt8} {r ds : Bytes}

theorem At.tail (h : At buf off (c :: u)) : At buf (off + 1) u := At.right (u := [c]) h

theorem At.readAt (h : At buf off (c :: u)) : readAt buf off = some c := by
  obtain ⟨post, hp⟩ := h
  have hget : buf[off]? = some c := by
    rw [← List.head?_drop, ← hp]
    rfl
  rw [Bencode.readAt, if_neg (by omega), toNat_natCast, hget]

theorem At.length_le (h : At buf off u) (hne : u ≠ []) : off + u.length ≤ buf.length := by
  have hle := List.IsPrefix.length_le h
  have hpos := length_pos_of_ne_nil hne
  rw [length_drop] at hle
  omega

theorem At.slice (h : At buf off u) : slice buf off u.length = u := by
  obtain ⟨post, hp⟩ := h
  rw [Bencode.slice, toNat_natCast, toNat_natCast, ← hp, take_left]

/-! ## Tokens -/

theorem le_value : ∀ (ds : Bytes) (v : Nat), v ≤ value v ds
  | [], v => le_refl v
  | c :: ds, v => by
    have := le_value ds (10 * v + (c.toNat - 48))
    change v ≤ value (10 * v + (c.toNat - 48)) ds
    omega

theorem parseInt_append (hd : isDigit delim = false) : ∀ {ds : Bytes} {p v : Nat},
    (∀ c ∈ ds, isDigit c = true) → value v ds < 2 ^ 63 →
      parseInt delim (ds ++ r) p v = parseInt delim r (p + ds.length) (value v ds : Nat)
  | [], p, v, _, _ => rfl
  | c :: ds, p, v, hds, hv => by
    have hc := hds c mem_cons_self
    have hne : c ≠ delim := by
      rintro rfl
      rw [hc] at hd
      cases hd
    have h48 := (isDigit_iff.mp hc).1
    have hstep : value v (c :: ds) = value (10 * v + (c.toNat - 48)) ds := rfl
    have hle := le_value ds (10 * v + (c.toNat - 48))
    -- nothing wraps, as the values only grow
    have hval : int64 (int64 ((v : Int) * 10) + ((c.toNat : Int) - 48)) = ((10 * v + (c.toNat - 48) : Nat) : Int) := by
      have hten : int64 ((v : Int) * 10) = v * 10 := int64_eq (by omega) (by omega)
      rw [hten, int64_eq (by omega) (by omega)]
      omega
    have hpos : p + 1 + ds.length = p + (c :: ds).length := by
      rw [length_cons]
      omega
    rw [cons_append, parseInt, if_neg hne, if_neg (by simp [hc]), hval,
      parseInt_append hd (fun c hc => hds c (mem_cons_of_mem _ hc)) (hstep ▸ hv), hstep, hpos]

theorem parseInt_digits (hd : isDigit delim = false)
    (hr : ∀ p v, parseInt delim r p v = (some p, v)) {p v : Nat} (hds : ∀ c ∈ ds, isDigit c = true)
    (hv : value v ds < 2 ^ 63) : parseInt delim (ds ++ r) p v = (some (p + ds.length), (value v ds : Int)) := by
  rw [parseInt_append hd hds hv, hr]

theorem findChar_append {tok : UInt8} {rest : Bytes} : ∀ {s : Bytes} {p : Nat}, (∀ c ∈ s, c ≠ tok) →
    findChar tok (s ++ tok :: rest) p = p + s.length
  | [], p, _ => by simp [findChar]
  | c :: s, p, h => by
    rw [cons_append, findChar, if_neg (h c mem_cons_self),
      findChar_append fun c hc => h c (mem_cons_of_mem _ hc), length_cons]
    omega

theorem numDigits_eq : ∀ {fuel n : Nat}, n < 10 ^ (fuel + 1) → numDigits fuel n = (decimal n).length := by
  intro fuel
  induction fuel with
  | zero =>
    intro n hn
    obtain ⟨c, l, hd, -⟩ := decimal_head n
    by_cases hz : n = 0
    · subst hz
      rfl
    · rw [decimal_of_pos (pos_of_ne_zero hz), if_pos (by omega)]
      rfl
  | succ fuel ih =>
    intro n hn
    have hdiv : tdiv (n : Int) 10 = ((n / 10 : Nat) : Int) := by
      rw [tdiv_eq_ediv_of_nonneg (natCast_nonneg n)]
      omega
    rw [numDigits]
    by_cases hz : 10 ≤ n
    · rw [pow_succ] at hn
      rw [if_pos (by omega), hdiv, ih (by omega), decimal_of_pos (n := n) (by omega), if_neg (by omega), length_append]
      rfl
    rw [if_neg (by omega)]
    by_cases h0 : n = 0
    · subst h0
      rfl
    · rw [decimal_of_pos (pos_of_ne_zero h0), if_pos (by omega)]
      rfl

theorem parseLength_eq {str : Bytes} {t : UInt8} (hdec : decimal str.length = t :: ds)
    (h : At buf off (encodeString str)) (hlen : str.length < 2 ^ 31) {room : Int} {s : LazyState}
    (hs : s.start = (off + 1 : Nat)) (hroom : ((off + (ds.length + 1) + str.length : Nat) : Int) + room ≤ buf.length)
    (k : Nat → Int → Outcome) : parseLength buf t room s k = k (off + (ds.length + 1)) str.length := by
  have hdig := decimal_digits str.length
  rw [hdec] at hdig
  rw [encodeString, hdec] at h
  have hval : value (t.toNat - 48) ds = str.length := by
    rw [← value_decimal str.length, hdec]
    simp [value]
  have ht : ((t.toNat : Int) - 48) = ((t.toNat - 48 : Nat) : Int) := by
    have := (isDigit_iff.mp (hdig t mem_cons_self)).1
    omega
  have htail : At buf (off + 1) (ds ++ 58 :: str) := At.tail h
  obtain ⟨post, hpost⟩ := htail
  have hparse : parseInt 58 (buf.drop (off + 1)) (off + 1) (t.toNat - 48) =
      (some (off + (ds.length + 1)), (str.length : Int)) := by
    have hstop : ∀ p v, parseInt 58 (58 :: (str ++ post)) p v = (some p, v) := fun p v => by rw [parseInt, if_pos rfl]
    have hp : off + 1 + ds.length = off + (ds.length + 1) := by omega
    rw [ht, ← hpost, append_assoc, cons_append, parseInt_digits (by decide) hstop
      (fun c hc => hdig c (mem_cons_of_mem _ hc)) (by rw [hval]; omega), hval, hp]
  have hcolon : readAt buf ((off + (ds.length + 1) : Nat) : Int) = some 58 := by
    rw [← length_cons]
    exact (At.right h).readAt
  rw [parseLength, hs, toNat_natCast, hparse]
  dsimp only
  rw [if_neg (by omega), withByte, hcolon]
  rfl

/-! ## What is built -/

mutual

/-- The entry for a tree whose encoding starts at `off`. -/
def lazyOf (off : Nat) : Entry → LazyEntry
  | .undefined => .none
  | .int n => .int (off + 1 : Nat) (text n).length off ((text n).length + 2)
  | .string s => .string (off + (decimal s.length).length + 1 : Nat) s.length off (uint32 (Entry.string s).size)
  | .list l => .list (lazyListOf (off + 1) l) off (uint32 (Entry.list l).size)
  | .dictionary d => .dict (lazyDictOf (off + 1) d) off (uint32 (Entry.dictionary d).size)

def lazyListOf (off : Nat) : List Entry → List LazyEntry
  | [] => []
  | e :: l => lazyOf off e :: lazyListOf (off + e.size) l

def lazyDictOf (off : Nat) : List (Bytes × Entry) → List (Int × LazyEntry)
  | [] => []
  | (k, e) :: d =>
    ((off + (decimal k.length).length + 1 : Nat), lazyOf (off + (encodeString k).length) e) ::
      lazyDictOf (off + (encodeString k).length + e.size) d

end

mutual

/-- The number of items that a tree counts. -/
def Entry.nodes : Entry → Nat
  | .list l => nodesList l + 1
  | .dictionary d => nodesDict d + 1
  | _ => 1

def nodesList : List Entry → Nat
  | [] => 0
  | e :: l => e.nodes + nodesList l

def nodesDict : List (Bytes × Entry) → Nat
  | [] => 0
  | (_, e) :: d => e.nodes + nodesDict d

end

/-! ## Rounds -/

def Rounds (buf : Bytes) (depthLimit : Int) (k : Nat) (s s' : LazyState) : Prop :=
  ∀ fuel, lazyLoop buf depthLimit (fuel + k) s = lazyLoop buf depthLimit fuel s'

variable {lim n : Int} {s s' : LazyState}

theorem Rounds.refl (s : LazyState) : Rounds buf lim 0 s s := fun _ => rfl

theorem Rounds.trans {k1 k2 : Nat} {s'' : LazyState} (h1 : Rounds buf lim k1 s s')
    (h2 : Rounds buf lim k2 s' s'') : Rounds buf lim (k2 + k1) s s'' := fun fuel => by
  rw [← add_assoc, h1, h2]

theorem rounds_one (hs : s.stack ≠ []) (hlt : s.start < buf.length)
    (h : lazyStep buf lim s = .next s') : Rounds buf lim 1 s s' := fun fuel => by
  rw [lazyLoop, if_neg hs, if_neg (not_le.mpr hlt), h]

theorem uint32_eq {n : Nat} (h : n < 2 ^ 32) : uint32 n = n := by
  unfold uint32
  omega

theorem constructString_eq {s : Bytes} (h : s.length < 2 ^ 31) :
    constructString ((off + (decimal s.length).length : Nat) + 1) s.length = lazyOf off (.string s) := by
  have hb : ((off + (decimal s.length).length : Nat) : Int) + 1 - 1 - (decimal s.length).length = off := by omega
  have hl : ((off + (decimal s.length).length : Nat) : Int) + 1 - off + s.length = (Entry.string s).size := by
    rw [Entry.size]
    omega
  rw [constructString, lazyOf, numDigits_eq (by norm_num; omega), hb, hl, uint32_eq (by omega)]
  rfl

theorem length_text_lt (h1 : -2 ^ 63 < n) (h2 : n < 2 ^ 63) : (text n).length < 2 ^ 31 - 2 := by
  have hle : (decimal n.natAbs).length ≤ 19 := length_decimal_le (by decide) (by norm_num; omega)
  unfold text
  split
  · rw [length_cons]
    omega
  · omega

theorem constructInt_eq (h1 : -2 ^ 63 < n) (h2 : n < 2 ^ 63) :
    constructInt ((off + 1 : Nat) : Int) (text n).length = lazyOf off (.int n) := by
  have hlen := length_text_lt h1 h2
  have hb : ((off + 1 : Nat) : Int) - 1 = off := by omega
  have hl : int32 (text n).length + 2 = (((text n).length + 2 : Nat) : Int) := by
    rw [int32_eq (by omega)]
    rfl
  rw [constructInt, lazyOf, hb, hl, uint32_eq (by omega), uint32_eq (by omega)]

/-- The state with an entry on top of the stack that is not finished. -/
abbrev opened (off : Nat) (item : Int) (name : Int) (l : LazyEntry) (st : List Frame) (ret : LazyEntry) : LazyState :=
  ⟨off, item, ⟨name, l⟩ :: st, ret⟩

/-- A value is read up to its end: what starts with its first byte leads to the state in which its entry is popped. -/
def ReadsValue (buf : Bytes) (lim : Int) (off : Nat) (e : Entry) : Prop :=
  ∀ (name : Int) (st : List Frame) (item : Int) (ret : LazyEntry), (st.length + 1 + e.depth : Nat) ≤ lim →
    (e.nodes : Int) < item →
      ∃ t k s, readAt buf off = some t ∧ t ≠ 101 ∧ k + 1 ≤ 2 * e.nodes ∧
        startValue buf t (opened (off + 1) item name .none st ret) = .next s ∧
          Rounds buf lim k s (opened (off + e.size) (item - e.nodes) name (lazyOf off e) st ret).popBack

theorem readsValue_int (h : (Entry.int n).Valid) (ha : At buf off (Entry.int n).encode) :
    ReadsValue buf lim off (.int n) := by
  intro name st item ret _ hitem
  rw [Entry.Valid] at h
  rw [Entry.encode] at ha
  refine ⟨105, 0, _, ha.readAt, by decide, by simp [nodes], ?_, Rounds.refl _⟩
  have hend := ha.length_le (by simp)
  obtain ⟨post, hpost⟩ := ha.tail
  have hfind : findChar 101 (buf.drop (off + 1)) (off + 1) = off + 1 + (text n).length := by
    rw [← hpost, append_assoc, singleton_append]
    exact findChar_append (text_ne n)
  have hlen : ((off + 1 + (text n).length : Nat) : Int) - (off + 1 : Nat) = (text n).length := by omega
  have hnodes : (Entry.int n).nodes = 1 := by simp [nodes]
  rw [hnodes] at hitem
  simp only [length_cons, length_append, length_nil] at hend
  rw [startValue]
  dsimp only [opened]
  rw [if_neg (by omega), if_neg (by decide), if_neg (by decide), if_pos rfl, toNat_natCast, hfind, hlen,
    constructInt_eq h.1 h.2, if_neg (by omega)]
  have hsize : (off + (Entry.int n).size : Nat) = ((off + 1 + (text n).length : Nat) : Int) + 1 := by
    rw [Entry.size]
    omega
  rw [hsize, hnodes]
  rfl

theorem readsValue_string {str : Bytes} (h : str.length < 2 ^ 31)
    (ha : At buf off (encodeString str)) : ReadsValue buf lim off (.string str) := by
  intro name st item ret _ hitem
  obtain ⟨t, ds, hdec, ht⟩ := decimal_head str.length
  have hread : readAt buf off = some t := by
    have ha := ha
    rw [encodeString, hdec] at ha
    exact ha.readAt
  have hne : ∀ tok : UInt8, isDigit tok = false → t ≠ tok := by
    rintro tok htok rfl
    rw [ht] at htok
    cases htok
  refine ⟨t, 0, _, hread, hne 101 (by decide), by simp [nodes], ?_, Rounds.refl _⟩
  have hend := ha.length_le (by simp [encodeString])
  have hlen : (decimal str.length).length = ds.length + 1 := by rw [hdec, length_cons]
  rw [length_encodeString, hlen] at hend
  have hnodes : (Entry.string str).nodes = 1 := by simp [nodes]
  rw [hnodes] at hitem
  rw [startValue]
  dsimp only [opened]
  rw [if_neg (by omega), if_neg (hne 100 (by decide)), if_neg (hne 108 (by decide)), if_neg (hne 105 (by decide)),
    if_neg (by simp [ht]), parseLength_eq hdec ha h rfl (by omega)]
  have hsize : (off + (Entry.string str).size : Nat) = ((off + (ds.length + 1) : Nat) : Int) + 1 + str.length := by
    rw [Entry.size, hlen]
    omega
  rw [int32_eq h, hsize, hnodes, ← hlen, constructString_eq h]
  rfl

section Containers

variable {lim item : Int} (name b : Int) (st : List Frame) (ret : LazyEntry)

theorem rounds_end {v : LazyEntry} (hv : (∃ items, v = .list items b 0) ∨ ∃ items, v = .dict items b 0)
    (ha : At buf off [101]) (hd : (st.length + 1 : Nat) ≤ lim) :
    Rounds buf lim 1 (opened off item name v st ret) (opened (off + 1) item name v st ret).setEnd.popBack := by
  have hlt := ha.length_le (by simp)
  rw [length_singleton] at hlt
  refine rounds_one (cons_ne_nil _ _) (by change (off : Int) < _; omega) ?_
  rw [lazyStep, opened, if_neg (by simp only [length_cons]; omega), withByte, ha.readAt]
  dsimp only
  rw [if_neg (by simp)]
  obtain ⟨items, rfl⟩ | ⟨items, rfl⟩ := hv
  all_goals exact if_pos rfl

theorem rounds_element {e : Entry} (items : List LazyEntry) (hr : ReadsValue buf lim off e)
    (hlt : off + 1 < buf.length) (hd : (st.length + 2 + e.depth : Nat) ≤ lim) (hitem : (e.nodes : Int) < item) :
    ∃ k, k ≤ 2 * e.nodes ∧ Rounds buf lim k (opened off item name (.list items b 0) st ret)
      (opened (off + e.size) (item - e.nodes) name (.list (items ++ [lazyOf off e]) b 0) st ret) := by
  obtain ⟨t, k, s, ht, hne, hk, hs, hrounds⟩ :=
    hr 0 (⟨name, .list items b 0⟩ :: st) item ret (by rw [length_cons]; omega) hitem
  refine ⟨k + 1, hk, Rounds.trans (rounds_one (cons_ne_nil _ _) (by change (off : Int) < _; omega) ?_) hrounds⟩
  rw [lazyStep, opened, if_neg (by simp only [length_cons]; omega), withByte, ht]
  dsimp only
  rw [if_neg (by omega), if_neg hne]
  exact hs

theorem rounds_pair {k : Bytes} {e : Entry} (items : List (Int × LazyEntry)) (hk : k.length < 2 ^ 31)
    (ha : At buf off (encodeString k)) (hr : ReadsValue buf lim (off + (encodeString k).length) e)
    (hlt : off + (encodeString k).length + 1 < buf.length) (hd : (st.length + 2 + e.depth : Nat) ≤ lim)
    (hitem : (e.nodes : Int) < item) :
    ∃ n, n ≤ 2 * e.nodes ∧ Rounds buf lim n (opened off item name (.dict items b 0) st ret)
      (opened (off + (encodeString k).length + e.size) (item - e.nodes) name
        (.dict (items ++ lazyDictOf off [(k, e)]) b 0) st ret) := by
  obtain ⟨t, ds, hdec, ht⟩ := decimal_head k.length
  have hlen : (decimal k.length).length = ds.length + 1 := by rw [hdec, length_cons]
  have hkey := length_encodeString k
  rw [hlen] at hkey
  have hread : readAt buf off = some t := by
    have ha := ha
    rw [encodeString, hdec] at ha
    exact ha.readAt
  have hne : t ≠ 101 := by
    rintro rfl
    exact absurd ht (by decide)
  obtain ⟨c, n, s, hc, -, hn, hs, hrounds⟩ :=
    hr (off + (decimal k.length).length + 1 : Nat) (⟨name, .dict items b 0⟩ :: st) item ret
      (by rw [length_cons]; omega) hitem
  refine ⟨n + 1, hn, Rounds.trans (rounds_one (cons_ne_nil _ _) (by change (off : Int) < _; omega) ?_) hrounds⟩
  rw [lazyStep, opened, if_neg (by simp only [length_cons]; omega), withByte, hread]
  dsimp only
  rw [if_neg (by omega), if_neg hne, startKey, if_neg (by simp [ht]), parseLength_eq hdec ha hk rfl (by omega)]
  have hval : ((off + (ds.length + 1) : Nat) : Int) + 1 + k.length = (off + (encodeString k).length : Nat) := by
    omega
  rw [if_neg (by omega), hval, if_neg (by omega), withByte, hc]
  rw [hlen] at hs
  exact hs

end Containers

theorem At.lt_length {e : Entry} (ha : At buf off e.encode) (h : e.Valid) : off + 1 < buf.length := by
  obtain ⟨c, s, he, hs, -⟩ := encode_head h
  have hle := ha.length_le (by rw [he]; simp)
  have := length_pos_of_ne_nil hs
  rw [he, length_cons] at hle
  omega

mutual

theorem readsValue_encode (lim : Int) : ∀ {e : Entry} {off : Nat}, e.Valid → At buf off e.encode →
    ReadsValue buf lim off e
  | .undefined, _, h, _ => absurd h (by simp [Entry.Valid])
  | .int n, _, h, ha => readsValue_int h ha
  | .string s, _, h, ha => by
    rw [Entry.Valid] at h
    rw [Entry.encode] at ha
    exact readsValue_string h ha
  | .list l, off, h, ha => by
    intro name st item ret hd hitem
    rw [Entry.Valid] at h
    rw [Entry.depth] at hd
    rw [nodes] at hitem ⊢
    rw [Entry.encode] at ha
    obtain ⟨k, hk, hrounds⟩ := rounds_list lim h ha.tail name st (item - 1) ret [] off hd (by omega)
    have hoff : off + 1 + sizeList l + 1 = off + (Entry.list l).size := by
      rw [Entry.size]
      omega
    have hcount : item - 1 - nodesList l = item - (nodesList l + 1 : Nat) := by omega
    have hlen : ((off + (Entry.list l).size : Nat) : Int) - off = (Entry.list l).size := by omega
    rw [hoff, hcount, hlen, nil_append] at hrounds
    refine ⟨108, k, _, ha.readAt, by decide, by omega, ?_, hrounds⟩
    have hb : ((off + 1 : Nat) : Int) - 1 = off := by omega
    rw [startValue]
    dsimp only [opened]
    rw [if_neg (by omega), if_neg (by decide), if_pos rfl, hb]
    rfl
  | .dictionary d, off, h, ha => by
    intro name st item ret hd hitem
    rw [Entry.Valid] at h
    rw [Entry.depth] at hd
    rw [nodes] at hitem ⊢
    rw [Entry.encode] at ha
    obtain ⟨k, hk, hrounds⟩ := rounds_dict lim h.2 ha.tail name st (item - 1) ret [] off hd (by omega)
    have hoff : off + 1 + sizeDict d + 1 = off + (Entry.dictionary d).size := by
      rw [Entry.size]
      omega
    have hcount : item - 1 - nodesDict d = item - (nodesDict d + 1 : Nat) := by omega
    have hlen : ((off + (Entry.dictionary d).size : Nat) : Int) - off = (Entry.dictionary d).size := by omega
    rw [hoff, hcount, hlen, nil_append] at hrounds
    refine ⟨100, k, _, ha.readAt, by decide, by omega, ?_, hrounds⟩
    have hb : ((off + 1 : Nat) : Int) - 1 = off := by omega
    rw [startValue]
    dsimp only [opened]
    rw [if_neg (by omega), if_pos rfl, hb]
    rfl

theorem rounds_list (lim : Int) : ∀ {l : List Entry} {off : Nat}, ValidList l → At buf off (encodeList l ++ [101]) →
    ∀ (name : Int) (st : List Frame) (item : Int) (ret : LazyEntry) (items : List LazyEntry) (b : Int),
      (st.length + 1 + depthList l : Nat) ≤ lim → (nodesList l : Int) < item →
        ∃ k, k ≤ 2 * nodesList l + 1 ∧ Rounds buf lim k (opened off item name (.list items b 0) st ret)
          (opened (off + sizeList l + 1) (item - nodesList l) name
            (.list (items ++ lazyListOf off l) b (uint32 ((off + sizeList l + 1 : Nat) - b))) st ret).popBack
  | [], off, _, ha, name, st, item, ret, items, b, hd, _ => by
    rw [depthList] at hd
    simp only [nodesList, sizeList, lazyListOf, append_nil, Int.natCast_zero, Int.sub_zero, add_zero]
    exact ⟨1, le_refl 1, rounds_end name b st ret (.inl ⟨items, rfl⟩) ha hd⟩
  | e :: l, off, h, ha, name, st, item, ret, items, b, hd, hitem => by
    rw [ValidList] at h
    rw [depthList] at hd
    rw [nodesList] at hitem ⊢
    rw [encodeList, append_assoc] at ha
    have hrest := ha.right
    rw [e.length_encode] at hrest
    have hlt : off + 1 < buf.length := ha.left.lt_length h.1
    obtain ⟨k1, hk1, h1⟩ := rounds_element name b st ret items (readsValue_encode lim h.1 ha.left) hlt (by omega)
      (by omega : (e.nodes : Int) < item)
    obtain ⟨k2, hk2, h2⟩ := rounds_list lim h.2 hrest name st (item - e.nodes) ret (items ++ [lazyOf off e]) b
      (by omega)
      (by omega)
    have hoff : off + e.size + sizeList l + 1 = off + sizeList (e :: l) + 1 := by
      rw [sizeList]
      omega
    have hcount : item - e.nodes - nodesList l = item - (e.nodes + nodesList l : Nat) := by omega
    rw [hoff, hcount, append_assoc] at h2
    exact ⟨k2 + k1, by omega, h1.trans h2⟩

theorem rounds_dict (lim : Int) : ∀ {d : List (Bytes × Entry)} {off : Nat}, ValidDict d →
    At buf off (encodeDict d ++ [101]) →
    ∀ (name : Int) (st : List Frame) (item : Int) (ret : LazyEntry) (items : List (Int × LazyEntry)) (b : Int),
      (st.length + 1 + depthDict d : Nat) ≤ lim → (nodesDict d : Int) < item →
        ∃ k, k ≤ 2 * nodesDict d + 1 ∧ Rounds buf lim k (opened off item name (.dict items b 0) st ret)
          (opened (off + sizeDict d + 1) (item - nodesDict d) name
            (.dict (items ++ lazyDictOf off d) b (uint32 ((off + sizeDict d + 1 : Nat) - b))) st ret).popBack
  | [], off, _, ha, name, st, item, ret, items, b, hd, _ => by
    rw [depthDict] at hd
    simp only [nodesDict, sizeDict, lazyDictOf, append_nil, Int.natCast_zero, Int.sub_zero, add_zero]
    exact ⟨1, le_refl 1, rounds_end name b st ret (.inr ⟨items, rfl⟩) ha hd⟩
  | (key, e) :: d, off, h, ha, name, st, item, ret, items, b, hd, hitem => by
    rw [ValidDict] at h
    rw [depthDict] at hd
    rw [nodesDict] at hitem ⊢
    rw [encodeDict, append_assoc, append_assoc] at ha
    have hval := ha.right
    have hrest := hval.right
    rw [e.length_encode] at hrest
    have hlt : off + (encodeString key).length + 1 < buf.length := hval.left.lt_length h.2.1
    obtain ⟨k1, hk1, h1⟩ := rounds_pair name b st ret items h.1 ha.left
      (readsValue_encode lim h.2.1 hval.left) hlt (by omega) (by omega : (e.nodes : Int) < item)
    obtain ⟨k2, hk2, h2⟩ := rounds_dict lim h.2.2 hrest name st (item - e.nodes) ret
      (items ++ lazyDictOf off [(key, e)]) b
      (by omega) (by omega)
    have hoff : off + (encodeString key).length + e.size + sizeDict d + 1 = off + sizeDict ((key, e) :: d) + 1 := by
      rw [sizeDict, length_encodeString]
      omega
    have hcount : item - e.nodes - nodesDict d = item - (e.nodes + nodesDict d : Nat) := by omega
    have hitems : items ++ lazyDictOf off [(key, e)] ++ lazyDictOf (off + (encodeString key).length + e.size) d =
        items ++ lazyDictOf off ((key, e) :: d) := by
      simp [lazyDictOf]
    rw [hoff, hcount, hitems] at h2
    exact ⟨k2 + k1, by omega, h1.trans h2⟩

end

variable {e : Entry} {k : Bytes}

/-- **The lazy decoder** builds the tree with its positions. -/
theorem lazyBdecode_encode (h : e.Valid) (hd : e.depth < 1000) (hn : e.nodes < 1000000) :
    lazyBdecode e.encode = .zero (lazyOf 0 e) := by
  have ha : At e.encode 0 e.encode := prefix_refl _
  have hlt := ha.lt_length h
  obtain ⟨t, k, s, ht, hne, hk, hs, hrounds⟩ := readsValue_encode 1000 h ha 0 [] 1000000 .none
    (by rw [length_nil]; omega) (by omega)
  have hfirst : Rounds e.encode 1000 1 ⟨0, 1000000, [⟨0, .none⟩], .none⟩ s := by
    refine rounds_one (cons_ne_nil _ _) (by change (0 : Int) < _; omega) ?_
    rw [lazyStep, if_neg (by simp), withByte]
    rw [show ((0 : Nat) : Int) = 0 from rfl] at ht
    rw [ht]
    dsimp only
    rw [if_neg (by omega)]
    exact hs
  have hall := hfirst.trans hrounds (2 * 1000000 - (k + 1))
  rw [Nat.sub_add_cancel (by omega)] at hall
  rw [lazyBdecode, if_neg (ne_nil_of_length_pos (by omega)), hall]
  obtain ⟨fuel, hf⟩ : ∃ fuel, 2 * 1000000 - (k + 1) = fuel + 1 := ⟨2 * 1000000 - (k + 2), by omega⟩
  rw [hf, lazyLoop]
  exact if_pos rfl

/-! ## Reading the entries -/

theorem begin_lazyOf (h : e.Valid) (off : Nat) : (lazyOf off e).begin = off := by
  cases e with
  | undefined => exact absurd h (by simp [Entry.Valid])
  | int n | string s | list l | dictionary d => simp [lazyOf, begin]

theorem int32_uint32 (x : Int) : int32 (uint32 x) = int32 x := by
  have hu : ((uint32 x : Nat) : Int) = x % 2 ^ 32 := toNat_of_nonneg (emod_nonneg _ (by decide))
  rw [hu, int32, int32]
  exact_mod_cast emod_bmod x (2 ^ 32)

theorem dataSection_lazyOf (h : e.Valid) (off : Nat) : (lazyOf off e).dataSection = ((off : Int), int32 e.size) := by
  rw [dataSection, begin_lazyOf h]
  cases e with
  | undefined => exact absurd h (by simp [Entry.Valid])
  | int n => simp [lazyOf, len, Entry.size]
  | string s => rw [lazyOf, len, int32_uint32]
  | list l => rw [lazyOf, len, int32_uint32]
  | dictionary d => rw [lazyOf, len, int32_uint32]

theorem parseInt_decimal {n : Nat} (h : n < 2 ^ 63) : (parseInt 101 (decimal n) 0 0).2 = n := by
  have hstop : ∀ p v, parseInt 101 [] p v = (some p, v) := fun _ _ => rfl
  have hp : parseInt 101 (decimal n ++ []) 0 (0 : Nat) = _ :=
    parseInt_digits (by decide) hstop (decimal_digits n) (by rw [value_decimal]; exact h)
  rw [append_nil, value_decimal] at hp
  exact congrArg Prod.snd hp

theorem intValue_text {n : Int} (h1 : -2 ^ 63 < n) (h2 : n < 2 ^ 63) {start : Int} {size : Nat}
    (hs : slice buf start size = text n) : intValue buf start size = n := by
  rw [intValue, hs]
  unfold text
  split
  · rw [if_pos List.head?_cons, tail_cons, parseInt_decimal (by omega), int64_eq (by omega) (by omega)]
    omega
  obtain ⟨c, l, hd, hc⟩ := decimal_head n.natAbs
  have hne : (decimal n.natAbs).head? ≠ some 45 := by
    rw [hd, List.head?_cons]
    rintro ⟨rfl⟩
    exact absurd hc (by decide)
  rw [if_neg hne, parseInt_decimal (by omega)]
  omega

theorem At.key (h : At buf off (encodeString k)) : At buf (off + (decimal k.length).length + 1) k :=
  At.tail (At.right h)

theorem dictItem_lazyOf (h : e.Valid) (ha : At buf off (encodeString k)) :
    (dictItem buf ((off + (decimal k.length).length + 1 : Nat), lazyOf (off + (encodeString k).length) e)).1 = k := by
  have hlen : ((off + (encodeString k).length : Nat) : Int) - (off + (decimal k.length).length + 1 : Nat) =
    k.length := by
    rw [length_encodeString]
    omega
  rw [dictItem, begin_lazyOf h]
  rw [hlen, ha.key.slice]

mutual

theorem toEntry_lazyOf : ∀ {e : Entry} {off : Nat}, e.Valid → At buf off e.encode → (lazyOf off e).toEntry buf = e
  | .undefined, _, h, _ => absurd h (by simp [Entry.Valid])
  | .int n, off, h, ha => by
    rw [Entry.Valid] at h
    rw [Entry.encode] at ha
    rw [lazyOf, toEntry, intValue_text h.1 h.2 ha.tail.left.slice]
  | .string s, off, _, ha => by
    rw [Entry.encode] at ha
    rw [lazyOf, toEntry, ha.key.slice]
  | .list l, off, h, ha => by
    rw [Entry.Valid] at h
    rw [Entry.encode] at ha
    rw [lazyOf, toEntry, toList_lazyListOf h ha.tail.left]
  | .dictionary d, off, h, ha => by
    rw [Entry.Valid] at h
    rw [Entry.encode] at ha
    rw [lazyOf, toEntry, toDict_lazyDictOf h.2 h.1 ha.tail.left [] (by simp), nil_append]

theorem toList_lazyListOf : ∀ {l : List Entry} {off : Nat}, ValidList l → At buf off (encodeList l) →
    toList buf (lazyListOf off l) = l
  | [], _, _, _ => by rw [lazyListOf, toList]
  | e :: l, off, h, ha => by
    rw [ValidList] at h
    rw [encodeList] at ha
    have hrest := ha.right
    rw [e.length_encode] at hrest
    rw [lazyListOf, toList, toEntry_lazyOf h.1 ha.left, toList_lazyListOf h.2 hrest]

theorem toDict_lazyDictOf : ∀ {d : List (Bytes × Entry)} {off : Nat}, ValidDict d →
    (d.map Prod.fst).Pairwise (· < ·) → At buf off (encodeDict d) →
      ∀ acc : List (Bytes × Entry), (∀ p ∈ acc, ∀ q ∈ d, p.1 < q.1) → toDict buf (lazyDictOf off d) acc = acc ++ d
  | [], _, _, _, _, acc, _ => by rw [lazyDictOf, toDict, append_nil]
  | (k, e) :: d, off, h, hs, ha, acc, hacc => by
    rw [ValidDict] at h
    rw [map_cons, pairwise_cons] at hs
    rw [encodeDict] at ha
    have hval := ha.right
    have hrest := hval.right
    rw [e.length_encode] at hrest
    have hkey : ∀ p ∈ acc, p.1 < k := fun p hp => hacc p hp (k, e) mem_cons_self
    have hnext := keys_lt_append hs.1 hacc
    rw [lazyDictOf, toDict, dictItem_lazyOf h.2.1 ha.left, toEntry_lazyOf h.2.1 hval.left, assign_of_lt hkey,
      toDict_lazyDictOf h.2.2 hs.2 hrest _ hnext, append_assoc]
    rfl

end

/-! ## The sections -/

def LazyEntry.listItems : LazyEntry → List LazyEntry
  | .list items _ _ => items
  | _ => []

def LazyEntry.dictItems : LazyEntry → List (Int × LazyEntry)
  | .dict items _ _ => items
  | _ => []

/-- `data_section()` is the range from `off` on that holds the encoding of the tree. -/
def SectionAt (buf : Bytes) (off : Nat) (e : Entry) (l : LazyEntry) : Prop :=
  l.dataSection = ((off : Int), ((bencode e).1.length : Int)) ∧ slice buf off (bencode e).1.length = (bencode e).1

mutual

/-- Every node of the tree has its section, and every item of a dictionary its key. -/
def Located (buf : Bytes) (off : Nat) : Entry → LazyEntry → Prop
  | .list es, l => SectionAt buf off (.list es) l ∧ LocatedList buf (off + 1) es l.listItems
  | .dictionary d, l => SectionAt buf off (.dictionary d) l ∧ LocatedDict buf (off + 1) d l.dictItems
  | .int n, l => SectionAt buf off (.int n) l
  | .string s, l => SectionAt buf off (.string s) l
  | .undefined, _ => False

def LocatedList (buf : Bytes) (off : Nat) : List Entry → List LazyEntry → Prop
  | [], items => items = []
  | e :: es, items =>
    ∃ l rest, items = l :: rest ∧ Located buf off e l ∧ LocatedList buf (off + (bencode e).1.length) es rest

/-- The pairs of a dictionary, one behind the other. -/
def LocatedDict (buf : Bytes) (off : Nat) : List (Bytes × Entry) → List (Int × LazyEntry) → Prop
  | [], items => items = []
  | (k, e) :: d, items =>
    ∃ item rest, items = item :: rest ∧ (dictItem buf item).1 = k ∧
      Located buf (off + (encodeString k).length) e (dictItem buf item).2 ∧
        LocatedDict buf (off + (encodeString k).length + (bencode e).1.length) d rest

end

theorem length_bencode {e : Entry} (h : e.Valid) : (bencode e).1.length = e.size := by
  rw [bencode, bencodeRecursive_eq h, e.length_encode]

theorem sectionAt_lazyOf {e : Entry} (h : e.Valid) (hs : e.size < 2 ^ 31) (ha : At buf off e.encode) :
    SectionAt buf off e (lazyOf off e) := by
  have hsl := ha.slice
  rw [e.length_encode] at hsl
  refine ⟨?_, ?_⟩
  · rw [dataSection_lazyOf h, length_bencode h, int32_eq hs]
  · rw [length_bencode h, hsl, bencode, bencodeRecursive_eq h]

mutual

theorem located_lazyOf : ∀ {e : Entry} {off : Nat}, e.Valid → e.size < 2 ^ 31 → At buf off e.encode →
    Located buf off e (lazyOf off e)
  | .undefined, _, h, _, _ => absurd h (by simp [Entry.Valid])
  | .int n, off, h, hs, ha => by
    rw [Located]
    exact sectionAt_lazyOf h hs ha
  | .string s, off, h, hs, ha => by
    rw [Located]
    exact sectionAt_lazyOf h hs ha
  | .list l, off, h, hs, ha => by
    rw [Located]
    refine ⟨sectionAt_lazyOf h hs ha, ?_⟩
    rw [Entry.Valid] at h
    rw [Entry.size] at hs
    rw [Entry.encode] at ha
    rw [lazyOf, listItems]
    exact locatedList_lazyListOf h (by omega) ha.tail.left
  | .dictionary d, off, h, hs, ha => by
    rw [Located]
    refine ⟨sectionAt_lazyOf h hs ha, ?_⟩
    rw [Entry.Valid] at h
    rw [Entry.size] at hs
    rw [Entry.encode] at ha
    rw [lazyOf, dictItems]
    exact locatedDict_lazyDictOf h.2 (by omega) ha.tail.left

theorem locatedList_lazyListOf : ∀ {l : List Entry} {off : Nat}, ValidList l → sizeList l < 2 ^ 31 →
    At buf off (encodeList l) → LocatedList buf off l (lazyListOf off l)
  | [], _, _, _, _ => by rw [LocatedList, lazyListOf]
  | e :: l, off, h, hs, ha => by
    rw [ValidList] at h
    rw [sizeList] at hs
    rw [encodeList] at ha
    have hrest := ha.right
    rw [e.length_encode] at hrest
    rw [LocatedList, lazyListOf, length_bencode h.1]
    exact ⟨_, _, rfl, located_lazyOf h.1 (by omega) ha.left, locatedList_lazyListOf h.2 (by omega) hrest⟩

theorem locatedDict_lazyDictOf : ∀ {d : List (Bytes × Entry)} {off : Nat}, ValidDict d → sizeDict d < 2 ^ 31 →
    At buf off (encodeDict d) → LocatedDict buf off d (lazyDictOf off d)
  | [], _, _, _, _ => by rw [LocatedDict, lazyDictOf]
  | (k, e) :: d, off, h, hs, ha => by
    rw [ValidDict] at h
    rw [sizeDict] at hs
    rw [encodeDict] at ha
    have hval := ha.right
    have hrest := hval.right
    rw [e.length_encode] at hrest
    rw [LocatedDict, lazyDictOf, length_bencode h.2.1]
    exact ⟨_, _, rfl, dictItem_lazyOf h.2.1 ha.left, located_lazyOf h.2.1 (by omega) hval.left,
      locatedDict_lazyDictOf h.2.2 (by omega) hrest⟩

end

/-- `lazy_bdecode` on what `bencode` writes returns 0 and an entry that converts to the tree, where every node has its
own bytes as `data_section()` and every item of a dictionary its key. -/
def LazyRoundTrip (e : Entry) : Prop :=
  ∃ l, lazyBdecode (bencode e).1 = .zero l ∧ l.toEntry (bencode e).1 = e ∧ Located (bencode e).1 0 e l

theorem Located.sectionAt {e : Entry} {l : LazyEntry} (h : Located buf off e l) : SectionAt buf off e l := by
  cases e with
  | undefined => exact absurd h (by simp [Located])
  | int n | string s => rwa [Located] at h
  | list es | dictionary d =>
    rw [Located] at h
    exact h.1

theorem LazyRoundTrip.size_lt {e : Entry} (h : e.Valid) (hd : e.depth < 100) (hn : e.nodes < 1000000)
    (hr : LazyRoundTrip e) : e.size < 2 ^ 31 := by
  obtain ⟨l, hl, -, hloc⟩ := hr
  have henc : (bencode e).1 = e.encode := by rw [bencode, bencodeRecursive_eq h]
  rw [henc, lazyBdecode_encode h (by omega) hn] at hl
  obtain rfl := LazyResult.zero.inj hl
  have hsec := hloc.sectionAt.1
  rw [dataSection_lazyOf h, length_bencode h] at hsec
  rw [Prod.mk.injEq, int32_eq_iff] at hsec
  exact hsec.2

/-- **The lazy decoder agrees with the encoder** exactly if the encoding is shorter than `2 ^ 31` bytes. -/
theorem lazy_round_trip (e : Entry) (h : e.Valid) (hd : e.depth < 100) (hn : e.nodes < 1000000) :
    LazyRoundTrip e ↔ e.size < 2 ^ 31 := by
  constructor
  · exact LazyRoundTrip.size_lt h hd hn
  intro hs
  have henc : (bencode e).1 = e.encode := by rw [bencode, bencodeRecursive_eq h]
  have ha : At (bencode e).1 0 e.encode := by
    rw [henc]
    exact prefix_refl _
  refine ⟨lazyOf 0 e, ?_, toEntry_lazyOf h ha, located_lazyOf h hs ha⟩
  rw [henc]
  exact lazyBdecode_encode h (by omega) hn

theorem lazy_round_trip_sampleTree : LazyRoundTrip sampleTree :=
  (lazy_round_trip sampleTree (by simp [sampleTree, Entry.Valid, ValidList, ValidDict]; decide)
    (by simp [sampleTree, Entry.depth, depthList, depthDict])
    (by simp [sampleTree, nodes, nodesList, nodesDict])).mpr (by decide +kernel)

/-- The section of a string of `2 ^ 31 - 1` bytes has a length that does not fit. -/
theorem long_string_section_wraps :
    longString.Valid ∧ longString.depth < 100 ∧ longString.nodes < 1000000 ∧ ¬ LazyRoundTrip longString := by
  have hdepth : ∀ s : Bytes, (Entry.string s).depth < 100 := fun s => by simp [Entry.depth]
  have hnodes : ∀ s : Bytes, (Entry.string s).nodes < 1000000 := fun s => by simp [nodes]
  have hv : longString.Valid := by
    rw [longString, Entry.Valid, length_replicate]
    decide
  refine ⟨hv, hdepth _, hnodes _, fun hr => ?_⟩
  have hs := hr.size_lt hv (hdepth _) (hnodes _)
  rw [longString, Entry.size, length_replicate] at hs
  omega

end Libtorrent.Bencode
