import Libtorrent.Dht.Items

/-!
# What is put can be got

A write token is accepted for the target it was made for until the write secret has been changed twice. An item whose
`put` is accepted is what the next `get` of its target returns. Sequence numbers that are too long for the array that
`put` writes them to, or too large for the `int` they are stored in, are left out of the statements.
-/

namespace Libtorrent.Dht.Node

open Run Bencode Metainfo Decimal List Option

variable {host : Host} {s : Node} {addr : Address}

/-! ## Tokens -/

theorem length_tokenFor (secret : UInt32) (addr : Address) (target : Bytes) :
    (tokenFor host secret addr target).length = 4 := by
  rw [tokenFor, length_take, host.sha1_length]
  rfl

theorem verifyToken_generateToken (target : Bytes) {rs : List UInt32} (hrs : rs.length ≤ 1) :
    (rs.foldl newWriteKey s).verifyToken host (s.generateToken host addr target) target addr = true := by
  match rs, hrs with
  | [], _ => simp [verifyToken, generateToken, length_tokenFor]
  | [r], _ => simp [verifyToken, generateToken, newWriteKey, length_tokenFor]

/-! ## Reading requests -/

section Requests

variable {buf : Bytes} {msg : LazyEntry} {d : List (Bytes × Entry)} {v : Entry}

theorem stringOf_eq {l : LazyEntry} {str : Bytes} (h : Reads buf l (.string str)) : stringOf buf l = str := by
  rw [stringOf, h.string.2.2, getD_some]

theorem intOf_eq {l : LazyEntry} {n : Int} (h : Reads buf l (.int n)) : intOf buf l = n := by
  obtain ⟨start, size, b, len, rfl, hn⟩ := h.int
  exact hn

theorem get_eq (h : Received buf msg d) {target : Bytes} (ht : d.lookup (bytes "target") = some (.string target))
    (hlen : target.length = 20) : s.get host addr buf msg = s.getItem host addr target := by
  obtain ⟨l, hkey, hreads⟩ : ∃ l, checkKey buf (.leaf "target" .string 20 false) msg = .ok (some l) ∧
      Reads buf l (.string target) := h.checkKey_string ht (Or.inr hlen)
  have hverify : verifyMessage buf getDesc msg = .ok [some l] := by
    rw [verifyMessage, h.entryType]
    exact verifyLoop_leaf hkey rfl
  rw [get, hverify]
  simp only [key, getD_cons_zero, getD_some, stringOf_eq hreads]

structure PutMessage (d : List (Bytes × Entry)) (token : Bytes) (v : Entry) : Prop where
  token : d.lookup (bytes "token") = some (.string token)
  v : d.lookup (bytes "v") = some v

structure Signed (d : List (Bytes × Entry)) (m : MutablePut) : Prop where
  seq : d.lookup (bytes "seq") = some (.int m.seq)
  k : d.lookup (bytes "k") = some (.string m.k)
  sig : d.lookup (bytes "sig") = some (.string m.sig)

section

variable (h : Received buf msg d)
include h

variable {token : Bytes}

section

variable (hp : PutMessage d token v)
include hp

theorem checkKey_token :
    ∃ l, checkKey buf (.leaf "token" .string 0 false) msg = .ok (some l) ∧ Reads buf l (.string token) :=
  h.checkKey_string hp.token (Or.inl rfl)

theorem checkKey_v : ∃ l, checkKey buf (.leaf "v" .none 0 false) msg = .ok (some l) ∧ Reads buf l v :=
  h.checkKey_some hp.v fun _ _ => ⟨Or.inr rfl, rfl⟩

theorem putArgs_signed (hv : v.size < 2 ^ 31) {m : MutablePut} (hm : Signed d m) (hk : m.k.length = 268)
    (hsig : m.sig.length = 256) : putArgs buf msg = .ok ⟨token, (bencode v).1, v.size, some m⟩ := by
  obtain ⟨lt, hlt, hrt⟩ := checkKey_token h hp
  obtain ⟨lv, hlv, hrv⟩ := checkKey_v h hp
  obtain ⟨lseq, hlseq, hrseq⟩ : ∃ l, checkKey buf (.leaf "seq" .int 0 true) msg = .ok (some l) ∧
      Reads buf l (.int m.seq) := by
    refine h.checkKey_some hm.seq fun l hr => ⟨Or.inl ?_, rfl⟩
    obtain ⟨start, size, b, len, rfl, -⟩ := hr.int
    rfl
  obtain ⟨lk, hlk, hrk⟩ : ∃ l, checkKey buf (.leaf "k" .string 268 true) msg = .ok (some l) ∧
      Reads buf l (.string m.k) := h.checkKey_string hm.k (Or.inr hk)
  obtain ⟨ls, hls, hrs⟩ : ∃ l, checkKey buf (.leaf "sig" .string 256 true) msg = .ok (some l) ∧
      Reads buf l (.string m.sig) := h.checkKey_string hm.sig (Or.inr hsig)
  have hverify : verifyMessage buf putDesc msg = .ok [some lt, some lv, some lseq, some lk, some ls] := by
    rw [verifyMessage, h.entryType]
    exact verifyLoop_leaf hlt (verifyLoop_leaf hlv
      (verifyLoop_leaf hlseq (verifyLoop_leaf hlk (verifyLoop_leaf hls rfl))))
  obtain ⟨hlen, hslice⟩ := hrv.dataSection hv
  rw [putArgs, hverify]
  simp only [bind, Except.bind, pure, Except.pure, putKeys, key, getD_cons_zero, getD_cons_succ,
    getD_some, bind_some, hlen, hslice, stringOf_eq hrt, stringOf_eq hrk, stringOf_eq hrs, intOf_eq hrseq]

theorem putArgs_unsigned (hv : v.size < 2 ^ 31)
    (hseq : d.lookup (bytes "seq") = none) (hk : d.lookup (bytes "k") = none) (hsig : d.lookup (bytes "sig") = none) :
    putArgs buf msg = .ok ⟨token, (bencode v).1, v.size, none⟩ := by
  obtain ⟨lt, hlt, hrt⟩ := checkKey_token h hp
  obtain ⟨lv, hlv, hrv⟩ := checkKey_v h hp
  have hverify : verifyMessage buf putDesc msg = .ok [some lt, some lv, none, none, none] := by
    rw [verifyMessage, h.entryType]
    exact verifyLoop_leaf hlt (verifyLoop_leaf hlv (verifyLoop_leaf (h.checkKey_none hseq)
      (verifyLoop_leaf (h.checkKey_none hk) (verifyLoop_leaf (h.checkKey_none hsig) rfl))))
  obtain ⟨hlen, hslice⟩ := hrv.dataSection hv
  rw [putArgs, hverify]
  simp only [bind, Except.bind, pure, Except.pure, putKeys, key, getD_cons_zero, getD_cons_succ,
    getD_some, bind_none, hlen, hslice, stringOf_eq hrt]

end

end

end Requests

/-! ## Storing -/

section Store

variable {target value : Bytes} {m : MutablePut}

theorem value_announced (f : ImmutableItem) : (announced host addr f).value = f.value := by
  simp only [announced]
  split <;> rfl

variable (host) in
theorem getElem?_storeImmutable (hsame : ∀ f, s.immutableTable[target]? = some f → f.value = value) :
    ∃ f, (storeImmutable host s target value)[target]? = some f ∧ f.value = value := by
  unfold storeImmutable
  split
  · rename_i hmem
    obtain ⟨f, hf⟩ := Std.TreeMap.mem_iff_isSome_getElem?.mp hmem |> isSome_iff_exists.mp
    exact ⟨f, hf, hsame f hf⟩
  · exact ⟨_, Std.TreeMap.getElem?_insert_self, rfl⟩

variable (host) in
theorem getElem?_storeMutable (hseq : int32 m.seq = m.seq)
    (hold : ∀ f, s.mutableTable[target]? = some f → f.seq < m.seq ∧ f.key = m.k) :
    ∃ t f, storeMutable host s target value m = some t ∧ t[target]? = some f ∧ f.value = value ∧ f.seq = m.seq ∧
      f.sig = m.sig ∧ f.key = m.k := by
  unfold storeMutable
  split
  · exact ⟨_, _, rfl, Std.TreeMap.getElem?_insert_self, rfl, hseq, rfl, rfl⟩
  rename_i item hitem
  obtain ⟨hlt, hkey⟩ := hold item hitem
  rw [if_neg (by omega), if_pos hlt]
  exact ⟨_, _, rfl, Std.TreeMap.getElem?_insert_self, rfl, hseq, rfl, hkey⟩

theorem seqBuffer_eq {seq : Int} (h0 : 0 ≤ seq) (h9 : seq < 10 ^ 9) : seqBuffer host seq = seqText seq := by
  have hlen : (text seq).length ≤ 9 := by
    rw [text, if_neg (by omega)]
    exact length_decimal_le (by decide) (by omega)
  have : (seqText seq).length < 20 := by
    simp only [seqText, length_append]
    have h1 : (bytes "3:seqi").length = 6 := by decide
    have h2 : (bytes "e1:v").length = 4 := by decide
    omega
  simp only [seqBuffer, this, if_true]

theorem getElem?_makeRoom {α : Type} {comp : α → α → Bool} {t : Std.TreeMap Bytes α} {x : α}
    (h : (makeRoom host comp t)[target]? = some x) : t[target]? = some x := by
  unfold makeRoom at h
  split at h
  · split at h
    · rw [Std.TreeMap.getElem?_erase] at h
      split at h
      · cases h
      · exact h
    · exact h
  · exact h

theorem seq_le_storeMutable (hseq : int32 m.seq = m.seq) {key : Bytes} {t : Std.TreeMap Bytes MutableItem}
    (ht : storeMutable host s key value m = some t) {f f' : MutableItem} (hf : s.mutableTable[target]? = some f)
    (hf' : t[target]? = some f') : f.seq ≤ f'.seq := by
  have hins : ∀ {u : Std.TreeMap Bytes MutableItem} {x : MutableItem}, (u.insert key x)[target]? = some f' →
      key = target ∧ x = f' ∨ u[target]? = some f' := by
    intro u x hx
    rw [Std.TreeMap.getElem?_insert] at hx
    split at hx
    · rename_i heq
      exact Or.inl ⟨Std.LawfulEqCmp.eq_of_compare heq, some.inj hx⟩
    · exact Or.inr hx
  have hsame : s.mutableTable[target]? = some f' → f.seq ≤ f'.seq := by
    intro h
    obtain rfl := some.inj (hf.symm.trans h)
    exact le_refl _
  unfold storeMutable at ht
  split at ht
  · rename_i hnone
    obtain rfl := some.inj ht
    rcases hins hf' with ⟨rfl, -⟩ | hf'
    · rw [hnone] at hf
      cases hf
    · exact hsame (getElem?_makeRoom hf')
  rename_i hitem
  split at ht
  · cases ht
  split at ht
  · rename_i hlt
    obtain rfl := some.inj ht
    rcases hins hf' with ⟨rfl, rfl⟩ | hf'
    · obtain rfl := some.inj (hf.symm.trans hitem)
      rw [hseq]
      exact le_of_lt hlt
    · exact hsame hf'
  · obtain rfl := some.inj ht
    exact hsame hf'

end Store

/-! ## Round trips -/

/-- A request that the node has received, with the arguments it was made of. -/
structure Request where
  buf : Bytes
  argEnt : LazyEntry
  args : List (Bytes × Entry)
  received : Received buf argEnt args

def Request.IsGet (r : Request) (target : Bytes) : Prop := r.args.lookup (bytes "target") = some (.string target)

structure Request.IsPut (r : Request) (token : Bytes) (v : Entry) : Prop extends PutMessage r.args token v where
  seq : r.args.lookup (bytes "seq") = none
  k : r.args.lookup (bytes "k") = none
  sig : r.args.lookup (bytes "sig") = none

structure Request.IsSignedPut (r : Request) (token : Bytes) (v : Entry) (m : MutablePut) : Prop extends
  PutMessage r.args token v, Signed r.args m

structure Storable (v : Entry) : Prop where
  valid : v.Valid
  depth : v.depth < 100
  size : v.size ≤ 767

/-- A `put` of an immutable item with the token of a `get` of its target is accepted, unless the write secret has
changed twice, and the following `get` returns the value. -/
def ImmutableRoundTrip (host : Host) : Prop :=
  ∀ (s : Node) (addr : Address) (v : Entry) (rs : List UInt32) (g p : Request) (token : Bytes),
    Storable v → rs.length ≤ 1 →
    (∀ f, s.immutableTable[host.sha1 (bencode v).1]? = some f → f.value = (bencode v).1) →
    g.IsGet (host.sha1 (bencode v).1) → (s.get host addr g.buf g.argEnt).token = some token → p.IsPut token v →
    ∃ s', (rs.foldl newWriteKey s).put host addr p.buf p.argEnt = (s', Reply.empty) ∧
      ∀ addr', (s'.get host addr' g.buf g.argEnt).v = some v

/-- The same for a mutable item that is signed and newer than what is stored for its key. -/
def MutableRoundTrip (host : Host) : Prop :=
  ∀ (s : Node) (addr : Address) (v : Entry) (m : MutablePut) (rs : List UInt32) (g p : Request) (token : Bytes),
    Storable v → rs.length ≤ 1 → m.k.length = 268 → m.sig.length = 256 → 0 ≤ m.seq → m.seq < 10 ^ 9 →
    host.verifyRsa (host.sha1 (seqText m.seq ++ (bencode v).1)) m.k m.sig = true →
    s.immutableTable[host.sha1 m.k]? = none →
    (∀ f, s.mutableTable[host.sha1 m.k]? = some f → f.seq < m.seq ∧ f.key = m.k) →
    g.IsGet (putTarget host ⟨token, (bencode v).1, v.size, some m⟩) →
    (s.get host addr g.buf g.argEnt).token = some token → p.IsSignedPut token v m →
    ∃ s', (rs.foldl newWriteKey s).put host addr p.buf p.argEnt = (s', Reply.empty) ∧
      ∀ (addr' : Address) (g' : Request), g'.IsGet (host.sha1 m.k) →
        (s'.get host addr' g'.buf g'.argEnt).v = some v ∧ (s'.get host addr' g'.buf g'.argEnt).k = some m.k ∧
          (s'.get host addr' g'.buf g'.argEnt).sig = some m.sig ∧ (s'.get host addr' g'.buf g'.argEnt).seq = some m.seq

/-- The sequence number of a `put` fits in an `int`. -/
def SmallSeq : Event → Prop
  | .put _ buf argEnt => ∀ a m, putArgs buf argEnt = .ok a → a.mutable = some m → -2 ^ 31 ≤ m.seq ∧ m.seq < 2 ^ 31
  | _ => True

/-- In a run, the sequence number of an item that stays in the table never decreases. -/
def SeqKept (host : Host) : Prop :=
  ∀ (s : Node) (events : List Event) (target : Bytes) (f f' : MutableItem),
    Legal (step host) (fun s ev => SmallSeq ev ∧ target ∈ (s.step host ev).mutableTable) s events →
    s.mutableTable[target]? = some f → (run (step host) s events).mutableTable[target]? = some f' → f.seq ≤ f'.seq

section Proofs

theorem token_getItem (target : Bytes) :
    (s.getItem host addr target).token = some (s.generateToken host addr target) := by
  simp only [getItem]
  split
  · rfl
  · split <;> rfl

theorem Storable.size_pos {v : Entry} (h : Storable v) : 0 < v.size := by
  obtain ⟨c, l, he, -, -⟩ := Entry.encode_head h.valid
  rw [← v.length_encode, he]
  exact Nat.succ_pos _

theorem Storable.bdecode {v : Entry} (h : Storable v) : (Bencode.bdecode (bencode v).1).1 = v := by
  have := bdecode_bencode h.valid h.depth []
  rw [append_nil] at this
  rw [this]

/-- A `put` with the token of a `get` of its target reaches the part behind the checks. -/
theorem putItem_eq {a : PutArgs} {rs : List UInt32} (hlen : 0 < a.len) (hle : a.len ≤ 767) (hrs : rs.length ≤ 1)
    (htoken : a.token = s.generateToken host addr (putTarget host a)) : (rs.foldl newWriteKey s).putItem host addr a =
      match a.mutable with
      | none => (rs.foldl newWriteKey s).putImmutable host addr (putTarget host a) a.buf
      | some m => (rs.foldl newWriteKey s).putMutable host addr a.buf m := by
  rw [putItem, if_neg (by omega), htoken, verifyToken_generateToken _ hrs]
  rfl

theorem tables_foldl_newWriteKey (rs : List UInt32) : (rs.foldl newWriteKey s).immutableTable = s.immutableTable ∧
    (rs.foldl newWriteKey s).mutableTable = s.mutableTable := by
  induction rs generalizing s with
  | nil => exact ⟨rfl, rfl⟩
  | cons r rs ih => exact ih

theorem immutable_round_trip : ImmutableRoundTrip host := by
  intro s addr v rs g p token hv hrs hsame hg htoken hp
  rw [get_eq g.received hg (host.sha1_length _), token_getItem] at htoken
  have hsize := hv.size_pos
  have hle := hv.size
  have hput : (rs.foldl newWriteKey s).put host addr p.buf p.argEnt =
      (rs.foldl newWriteKey s).putImmutable host addr (host.sha1 (bencode v).1) (bencode v).1 := by
    rw [put, putArgs_unsigned p.received hp.toPutMessage (by omega) hp.seq hp.k hp.sig]
    exact putItem_eq (by simpa using hsize) (by simpa using hle) hrs (some.inj htoken).symm
  rw [← (tables_foldl_newWriteKey rs).1] at hsame
  obtain ⟨f, hf, hvalue⟩ := getElem?_storeImmutable host hsame
  refine ⟨_, hput, fun addr' => ?_⟩
  rw [get_eq g.received hg (host.sha1_length _)]
  simp only [getItem, Std.TreeMap.getElem?_modify_self, hf, map_some, value_announced, hvalue, hv.bdecode]

theorem mutable_round_trip (hssl : host.useOpenssl = true) : MutableRoundTrip host := by
  intro s addr v m rs g p token hv hrs hk hsig h0 h9 hrsa hnone hold hg htoken hp
  have htarget : (putTarget host ⟨token, (bencode v).1, v.size, some m⟩).length = 20 := by
    simp [putTarget, hk]
  rw [get_eq g.received hg htarget, token_getItem] at htoken
  have hsize := hv.size_pos
  have hle := hv.size
  have hput : (rs.foldl newWriteKey s).put host addr p.buf p.argEnt =
      (rs.foldl newWriteKey s).putMutable host addr (bencode v).1 m := by
    rw [put, putArgs_signed p.received hp.toPutMessage (by omega) hp.toSigned hk hsig]
    exact putItem_eq (by simpa using hsize) (by simpa using hle) hrs (some.inj htoken).symm
  rw [← (tables_foldl_newWriteKey rs).2] at hold
  obtain ⟨t, f, ht, hf, hvalue, hseq, hsig', hkey⟩ : ∃ t f,
      storeMutable host (rs.foldl newWriteKey s) (host.sha1 m.k) (bencode v).1 m = some t ∧ _ :=
    getElem?_storeMutable host (int32_of_range (by omega) (by omega)) hold
  rw [putMutable, hssl, seqBuffer_eq h0 h9, hrsa] at hput
  simp only [Bool.not_true, Bool.false_eq_true, if_false, ht] at hput
  refine ⟨_, hput, fun addr' g' hg' => ?_⟩
  rw [get_eq g'.received hg' (host.sha1_length _)]
  simp only [getItem, (tables_foldl_newWriteKey rs).1, hnone, Std.TreeMap.getElem?_modify_self, hf, map_some,
    value_announced, hvalue, hv.bdecode, hseq, hsig', hkey, and_self]

theorem putItem_mutableTable (a : PutArgs) : (s.putItem host addr a).1.mutableTable = s.mutableTable ∨
    ∃ m t, a.mutable = some m ∧ storeMutable host s (host.sha1 m.k) a.buf m = some t ∧
      (s.putItem host addr a).1.mutableTable =
        t.modify (host.sha1 m.k) fun f => { f with toImmutableItem := announced host addr f.toImmutableItem } := by
  unfold putItem
  split
  · exact Or.inl rfl
  split
  · exact Or.inl rfl
  cases hm : a.mutable with
  | none => exact Or.inl rfl
  | some m =>
    simp only [putMutable]
    split
    · exact Or.inl rfl
    split
    · exact Or.inl rfl
    · cases ht : storeMutable host s (host.sha1 m.k) a.buf m with
      | none => exact Or.inl rfl
      | some t => exact Or.inr ⟨m, t, rfl, ht, rfl⟩

theorem seq_le_step {ev : Event} {target : Bytes} {f f' : MutableItem} (hsmall : SmallSeq ev)
    (hf : s.mutableTable[target]? = some f) (hf' : (s.step host ev).mutableTable[target]? = some f') :
    f.seq ≤ f'.seq := by
  have hsame : s.mutableTable[target]? = some f' → f.seq ≤ f'.seq := by
    intro h
    obtain rfl := some.inj (hf.symm.trans h)
    exact le_refl _
  cases ev with
  | get => exact hsame hf'
  | newWriteKey => exact hsame hf'
  | put =>
    simp only [step, put] at hf'
    split at hf'
    · exact hsame hf'
    rename_i a ha
    rcases putItem_mutableTable a with htable | ⟨m, t, hm, ht, htable⟩ <;> rw [htable] at hf'
    · exact hsame hf'
    obtain ⟨h1, h2⟩ := hsmall a m ha hm
    have hle := fun x (hx : t[target]? = some x) => seq_le_storeMutable (int32_of_range h1 h2) ht hf hx
    -- counting the sender changes no sequence number
    rw [Std.TreeMap.getElem?_modify] at hf'
    split at hf'
    · rename_i heq
      obtain ⟨x, hx, rfl⟩ := map_eq_some_iff.mp hf'
      exact hle x (Std.LawfulEqCmp.eq_of_compare heq ▸ hx)
    · exact hle f' hf'

theorem seq_kept : SeqKept host := by
  intro s events
  induction events generalizing s with
  | nil =>
    intro target f f' _ hf hf'
    obtain rfl := some.inj (hf.symm.trans hf')
    exact le_refl _
  | cons ev events ih =>
    intro target f f' hl hf hf'
    obtain ⟨⟨hsmall, hmem⟩, hl⟩ := hl
    obtain ⟨x, hx⟩ := isSome_iff_exists.mp (Std.TreeMap.mem_iff_isSome_getElem?.mp hmem)
    exact (seq_le_step hsmall hf hx).trans (ih _ target x f' hl hx hf')

end Proofs

/-! ### A key, a signature and their hashes -/

/-- The bytes of a number, the highest first. -/
def bigEndian (len n : Nat) : Bytes := (List.range len).reverse.map fun i => UInt8.ofNat (n / 256 ^ i)

/-- An RSA key of 2048 bits. -/
def sampleKey : Bytes :=
  bigEndian 40 0x308201080282010100cc49318d586af4f5b2e86c957b0349a73a394b505a88d2f78df2cc132f5c9c ++
    bigEndian 40 0xa06ec917f39297d85dcfdcd608bd2850d84a62df4c8cdefa5c77b98ad7f7786ad6bd86a0e933b55f ++
    bigEndian 40 0xfa79e0175ee7738e089d84876a3931266d17172952d4e5becfe18b1aee5ab715d0e11e7decc5486d ++
    bigEndian 40 0xdd73b60ddf217e0d1bbaab68796c4f2f48e0638929f8a61c6760f848838099a3f18b1606283ae1a6 ++
    bigEndian 40 0x2d6f85c48e53b55480b40d833d1d56570ccf8ac4e2cabdb4e35a827d43846931ea4a1c03cfc609e9 ++
    bigEndian 40 0xa5d66904e921207f410caaadef76d9fc184663542714e508065f6a6d8c13d60a4853f8ff4be7b007 ++
    bigEndian 28 0xb2e1f378e73cb455cf7d0c10d3f29541072cda51e8243c0315020103

/-- Its signature of `3:seqi4e1:v5:hello`. -/
def sampleSig : Bytes :=
  bigEndian 40 0x0eca17dfe76cb40f50ffbd0e5d2bebfc0d74f368bb8fc3af895c4d07e992bb7a84ab3ab03e544d0d ++
    bigEndian 40 0x9145e03049c9a33147ad2aa92a5fac14e968a3cf3337a10e0a7cb1f2cfec180605a49f71dc469156 ++
    bigEndian 40 0x6fbd3ba71e297fd7db29adda859327a01cfc5e8e43481c9d6a7dba438b93d2641c9e3eabe398a9f7 ++
    bigEndian 40 0x11fc15758fe62d20976ad57fccedebead0396c13e9a19d1e8bf97bf9eefa6493c25c487b129c85ce ++
    bigEndian 40 0x18f171264d4cb7881fa71d2d848f010f37ac24dafaa2f04b6a3ad02632304b22303ff323e91ad1bc ++
    bigEndian 40 0xce67343f9b36b4e2fbb63ad174aba9d1cacf178ad4ca35cdb6ac6719c27e10c12896b919859b2bc3 ++
    bigEndian 16 0xcefae13419a609d5575a29ccc67b117d

def shortKey : Bytes := (List.range 32).map fun i => UInt8.ofNat (i + 1)

/-- The hashes of `sampleKey`, `shortKey` and of the value `hello`. -/
def keyHash : Bytes := bigEndian 20 0xe9c1f9b889badabe561dad8168b8ce479702f37a

@[inherit_doc keyHash]
def shortKeyHash : Bytes := bigEndian 20 0x4c9b68754cc4c6a52c2871b90740059372385833

@[inherit_doc keyHash]
def valueHash : Bytes := bigEndian 20 0xe28910ea0adb94dd45ced75fbff3e135c01bc437

def tokenText (secret : UInt32) (target : Bytes) : Bytes := bytes "10.0.0.1" ++ secretBytes secret ++ target

def sampleHashes : List (Bytes × Nat) :=
  [(bytes "3:seqi4e1:v5:hello", 0x2799ab9ebbba6ea13fa25b5f0a102cc59419f12f),
    (sampleKey, 0xe9c1f9b889badabe561dad8168b8ce479702f37a),
    (shortKey, 0x4c9b68754cc4c6a52c2871b90740059372385833),
    (bytes "5:hello", 0xe28910ea0adb94dd45ced75fbff3e135c01bc437),
    ([10, 0, 0, 1], 0x1dc0b4223e187a10c52ff6a848df905710fbbeaa),
    (tokenText 7 (sampleKey.take 20), 0x4a11eda0b35b62dfeee92d755f62acc0c932702f),
    (tokenText 5 (sampleKey.take 20), 0x62806d2cc1a863047d6c9943372e4779f40cdee2),
    (tokenText 7 keyHash, 0x7cf2bdbd54dde084b652cbcb1bbec297dec1f917),
    (tokenText 7 shortKeyHash, 0x8f35832a89ae4fdd2e2e4886fee2864c7ca8802e),
    (tokenText 7 valueHash, 0x0f8d21b79dbc56ad2d5a37b22cfe1898749ff777),
    (tokenText 5 valueHash, 0x9c5b1f096d39b409b37ef0546cc8bd923860eb03)]

/-- The node has OpenSSL, and one good signature to check. -/
def sampleHost : Host where
  sha1 b := bigEndian 20 ((sampleHashes.lookup b).getD 0)
  sha1_length b := by simp [bigEndian]
  addressText
    | .v4 bits => bytes (if bits = 0x0a000001 then "10.0.0.1" else "")
    | .v6 _ => []
  addressBytes
    | .v4 bits => bigEndian 4 bits.toNat
    | .v6 bits => bigEndian 16 bits.toNat
  verifyRsa digest k sig :=
    digest = bigEndian 20 0x2799ab9ebbba6ea13fa25b5f0a102cc59419f12f && k = sampleKey && sig = sampleSig
  useOpenssl := true
  behindSeq _ := 0
  maxDhtItems := 700
  maxDhtItems_pos := by decide

def sampleNode : Node := ⟨∅, ∅, 7, 5⟩

def request (args : List (Bytes × Entry)) (h : (Entry.dictionary args).Valid) : Request where
  buf := (bencode (.dictionary args)).1
  argEnt := lazyOf 0 (.dictionary args)
  args := args
  received := ⟨0, rfl, h, List.prefix_refl _⟩

def getRequest (target : Bytes) (h : target.length < 2 ^ 31) : Request :=
  request [(bytes "target", .string target)] (by
    simp only [Entry.Valid, ValidDict, List.map_cons, List.map_nil, h]
    decide +kernel)

def putRequest (k token : Bytes) (hk : k.length < 2 ^ 31) (htoken : token.length < 2 ^ 31) : Request :=
  request [(bytes "k", .string k), (bytes "seq", .int 4), (bytes "sig", .string sampleSig),
    (bytes "token", .string token), (bytes "v", .string (bytes "hello"))] (by
    simp only [Entry.Valid, ValidDict, List.map_cons, List.map_nil, hk, htoken]
    decide +kernel)

/-- The token for a `get` of the first 20 bytes of the key. -/
def sampleToken : Bytes := bigEndian 4 0x4a11eda0

def samplePut : Request := putRequest sampleKey sampleToken (by decide +kernel) (by decide)

theorem storable_hello : Storable (.string (bytes "hello")) where
  valid := by
    simp only [Entry.Valid]
    decide +kernel
  depth := by simp [Entry.depth]
  size := by
    decide +kernel

/-- A node that takes every signature for good. -/
def lenientHost : Host := { sampleHost with verifyRsa := fun _ _ _ => true }

/-- The tokens for `get`s of the hashes of `shortKey` and of `sampleKey`. -/
def shortKeyToken : Bytes := bigEndian 4 0x8f35832a

@[inherit_doc shortKeyToken]
def keyHashToken : Bytes := bigEndian 4 0x7cf2bdbd

end Libtorrent.Dht.Node
