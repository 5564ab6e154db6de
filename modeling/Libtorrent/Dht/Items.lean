import Libtorrent.Bencode.LazyRoundTrip
import Libtorrent.Metainfo.Parse
import Libtorrent.Lib.Run
import Libtorrent.Dht.NodeId

/-!
# `verify_message`

A request is checked against a list of descriptions: which keys it must have, of which type and size. What the check
leaves of a request is a pointer for every key, null for an optional key that is not there or is not as described.
-/

namespace Libtorrent.Dht

open Bencode Metainfo List

inductive EntryType where
  | none | dict | list | string | int
deriving DecidableEq

def entryType : LazyEntry → EntryType
  | .none => .none
  | .dict .. => .dict
  | .list .. => .list
  | .string .. => .string
  | .int .. => .int

structure KeyDesc where
  name : String
  type : EntryType
  size : Nat
  optional : Bool
  parseChildren : Bool
  lastChild : Bool
  sizeDivisible : Bool

def KeyDesc.leaf (name : String) (type : EntryType) (size : Nat) (optional : Bool) : KeyDesc :=
  ⟨name, type, size, optional, false, false, false⟩

def KeyDesc.invalidSize (k : KeyDesc) (l : LazyEntry) : Bool :=
  0 < k.size && k.type = .string &&
    (if k.sizeDivisible then stringLength l % k.size != 0 else stringLength l != k.size)

def skipChildren : List KeyDesc → List KeyDesc × Nat
  | [] => ([], 0)
  | k :: desc => if k.lastChild then (desc, 1) else ((skipChildren desc).1, (skipChildren desc).2 + 1)

/-- One key of a dictionary, null if it is optional and not as described. -/
def checkKey (buf : Bytes) (k : KeyDesc) (msg : LazyEntry) : Except String (Option LazyEntry) :=
  match (dictFind buf (bytes k.name) msg).filter fun l => entryType l = k.type || k.type = .none with
  | none => if k.optional then .ok none else .error ("missing '" ++ k.name ++ "' key")
  | some l =>
    if !k.invalidSize l then .ok (some l)
    else if k.optional then .ok none
    else .error ("invalid value for '" ++ k.name ++ "'")

/-- The loop of `verify_message`. `stack` has the dictionaries around `msg`, `fuel` is at least the number of
descriptions. -/
def verifyLoop (buf : Bytes) : (fuel : Nat) → List KeyDesc → LazyEntry → List LazyEntry →
    Except String (List (Option LazyEntry))
  | 0, _, _, _ => .ok []
  | _, [], _, _ => .ok []
  | fuel + 1, k :: desc, msg, stack => do
    let ret ← checkKey buf k msg
    if k.parseChildren then
      match ret with
      | some l => return ret :: (← verifyLoop buf fuel desc l (msg :: stack))
      | none =>
        let (desc, skipped) := skipChildren desc
        return ret :: (List.replicate skipped none ++ (← verifyLoop buf fuel desc msg stack))
    else if k.lastChild then return ret :: (← verifyLoop buf fuel desc (stack.headD msg) stack.tail)
    else return ret :: (← verifyLoop buf fuel desc msg stack)

/-- `verify_message(msg, desc, ret, size, error, error_size)`: the error, or `ret`. -/
def verifyMessage (buf : Bytes) (desc : List KeyDesc) (msg : LazyEntry) : Except String (List (Option LazyEntry)) :=
  if entryType msg != .dict then .error "not a dictionary" else verifyLoop buf desc.length desc msg []

/-! ## Messages that were encoded -/

/-- `msg` is what `lazy_bdecode` leaves of the dictionary `d`, somewhere in the buffer. -/
def Received (buf : Bytes) (msg : LazyEntry) (d : List (Bytes × Entry)) : Prop :=
  ∃ off, msg = lazyOf off (.dictionary d) ∧ (Entry.dictionary d).Valid ∧ At buf off (bencode (.dictionary d)).1

section Received

variable {buf : Bytes} {msg : LazyEntry} {d : List (Bytes × Entry)} {name : Bytes} {e : Entry}

def Reads (buf : Bytes) (l : LazyEntry) (e : Entry) : Prop := ∃ off, l = lazyOf off e ∧ e.Valid ∧ At buf off e.encode

theorem find?_lazyDictOf : ∀ {d : List (Bytes × Entry)} {off : Nat}, ValidDict d → At buf off (encodeDict d) →
    Option.Rel (fun item e => Reads buf item.2 e) ((lazyDictOf off d).find? fun item => (dictItem buf item).1 = name)
      (d.lookup name)
  | [], _, _, _ => .none
  | (k, x) :: d, off, hv, ha => by
    rw [ValidDict] at hv
    rw [encodeDict] at ha
    have hval := ha.right
    have hrest := hval.right
    rw [x.length_encode] at hrest
    have hname := dictItem_lazyOf hv.2.1 ha.left
    rw [lookup_cons, lazyDictOf]
    rcases eq_or_ne name k with rfl | hne
    · rw [find?_cons_of_pos (by simpa only [decide_eq_true_eq] using hname), beq_self_eq_true]
      exact .some ⟨_, rfl, hv.2.1, hval.left⟩
    · have hbeq : (name == k) = false := by simpa using hne
      rw [hbeq, find?_cons_of_neg (by simpa only [hname, decide_eq_true_eq] using hne.symm)]
      exact find?_lazyDictOf hv.2.2 hrest

theorem Received.dictFind_some (h : Received buf msg d) (hl : d.lookup name = some e) :
    ∃ l, dictFind buf name msg = some l ∧ Reads buf l e := by
  obtain ⟨off, rfl, hv, ha⟩ := h
  rw [bencode, bencodeRecursive_eq hv, Entry.encode] at ha
  rw [Entry.Valid] at hv
  have hr : Option.Rel _ _ (d.lookup name) := find?_lazyDictOf hv.2 ha.tail.left
  rw [hl] at hr
  rw [lazyOf, dictFind]
  generalize find? _ _ = o at hr ⊢
  cases hr with
  | some h => exact ⟨_, rfl, h⟩

theorem Received.dictFind_none (h : Received buf msg d) (hl : d.lookup name = none) : dictFind buf name msg = none := by
  obtain ⟨off, rfl, hv, ha⟩ := h
  rw [bencode, bencodeRecursive_eq hv, Entry.encode] at ha
  rw [Entry.Valid] at hv
  have hr : Option.Rel _ _ (d.lookup name) := find?_lazyDictOf hv.2 ha.tail.left
  rw [hl] at hr
  rw [lazyOf, dictFind]
  generalize find? _ _ = o at hr ⊢
  cases hr with
  | none => rfl

theorem Received.entryType (h : Received buf msg d) : entryType msg = .dict := by
  obtain ⟨off, rfl, -, -⟩ := h
  rw [lazyOf, Dht.entryType]

variable {l : LazyEntry} {s : Bytes}

theorem Reads.string (h : Reads buf l (.string s)) :
    Dht.entryType l = .string ∧ stringLength l = s.length ∧ stringValue buf l = some s := by
  obtain ⟨off, rfl, -, ha⟩ := h
  rw [Entry.encode] at ha
  rw [lazyOf]
  exact ⟨rfl, rfl, congrArg some ha.key.slice⟩

theorem Reads.int {n : Int} (h : Reads buf l (.int n)) :
    ∃ start size b len, l = .int start size b len ∧ intValue buf start size = n := by
  obtain ⟨off, rfl, hv, ha⟩ := h
  rw [Entry.Valid] at hv
  rw [Entry.encode] at ha
  rw [lazyOf]
  exact ⟨_, _, _, _, rfl, intValue_text hv.1 hv.2 ha.tail.left.slice⟩

theorem Reads.dataSection (h : Reads buf l e) (hs : e.size < 2 ^ 31) :
    l.dataSection.2 = e.size ∧ slice buf l.dataSection.1 e.size = (bencode e).1 := by
  obtain ⟨off, rfl, hv, ha⟩ := h
  have hsec := sectionAt_lazyOf hv hs ha
  rw [SectionAt, length_bencode hv] at hsec
  rw [hsec.1]
  exact ⟨rfl, hsec.2⟩

variable {key : String} {type : EntryType} {size : Nat} {optional : Bool}

theorem Received.checkKey_some (h : Received buf msg d) (hl : d.lookup (bytes key) = some e)
    (hok : ∀ l, Reads buf l e → (Dht.entryType l = type ∨ type = .none) ∧
      (KeyDesc.leaf key type size optional).invalidSize l = false) :
    ∃ l, checkKey buf (.leaf key type size optional) msg = .ok (some l) ∧ Reads buf l e := by
  obtain ⟨l, hfind, hreads⟩ := h.dictFind_some hl
  obtain ⟨htype, hsize⟩ := hok l hreads
  refine ⟨l, ?_, hreads⟩
  have hfilter : (some l).filter (fun l => Dht.entryType l = type || type = .none) = some l := by
    simp only [Option.filter, Bool.or_eq_true, decide_eq_true_eq, htype, if_true]
  have hname : (KeyDesc.leaf key type size optional).name = key := rfl
  have htype : (KeyDesc.leaf key type size optional).type = type := rfl
  simp only [checkKey, hname, htype, hfind, hfilter, hsize, Bool.not_false, if_true]

theorem Received.checkKey_string (h : Received buf msg d) (hl : d.lookup (bytes key) = some (.string s))
    (hs : size = 0 ∨ s.length = size) :
    ∃ l, checkKey buf (.leaf key .string size optional) msg = .ok (some l) ∧ Reads buf l (.string s) := by
  refine h.checkKey_some hl fun l hr => ⟨Or.inl hr.string.1, ?_⟩
  rcases hs with rfl | hs
  · rfl
  · simp [KeyDesc.invalidSize, KeyDesc.leaf, hr.string.2.1, hs]

theorem Received.checkKey_none (h : Received buf msg d) (hl : d.lookup (bytes key) = none) :
    checkKey buf (.leaf key type size true) msg = .ok none := by
  have hname : (KeyDesc.leaf key type size true).name = key := rfl
  simp only [checkKey, hname, h.dictFind_none hl, Option.filter_none]
  rfl

theorem verifyLoop_leaf {fuel : Nat} {desc : List KeyDesc} {stack : List LazyEntry} {r : Option LazyEntry}
    {rs : List (Option LazyEntry)} (hk : checkKey buf (.leaf key type size optional) msg = .ok r)
    (hrest : verifyLoop buf fuel desc msg stack = .ok rs) :
    verifyLoop buf (fuel + 1) (.leaf key type size optional :: desc) msg stack = .ok (r :: rs) := by
  rw [verifyLoop, hk]
  simp only [KeyDesc.leaf, hrest, Except.bind, bind, pure, Except.pure, Bool.false_eq_true, if_false]

end Received

/-!
## Stored items

The `get` and `put` requests of `node_impl`. An immutable item is stored under the hash of its value, a mutable item
under the hash of the public key it is signed with. SHA-1, RSA and the text of an address are parameters (`Host`), and
so is the memory behind the array in which `put` writes the sequence number. Of the reply, the ids and nodes that every
reply has are left out; so are the times of the items.
-/

open Decimal

structure Host where
  sha1 : Bytes → Bytes
  sha1_length : ∀ b, (sha1 b).length = 20
  /-- `address::to_string()`. -/
  addressText : Address → Bytes
  /-- `to_bytes()`. -/
  addressBytes : Address → Bytes
  /-- `verify_rsa(digest, public_key, signature)`. -/
  verifyRsa : Bytes → Bytes → Bytes → Bool
  /-- `TORRENT_USE_OPENSSL` is defined. -/
  useOpenssl : Bool
  /-- The bytes behind the array `seq` on the stack. -/
  behindSeq : Nat → UInt8
  maxDhtItems : Nat
  maxDhtItems_pos : 0 < maxDhtItems

abbrev BloomFilter := BitVec 1024

namespace BloomFilter

/-- The two bits of a hash. -/
def index (k : Bytes) : Nat × Nat :=
  (((k.getD 0 0).toNat + 256 * (k.getD 1 0).toNat) % 1024, ((k.getD 2 0).toNat + 256 * (k.getD 3 0).toNat) % 1024)

def find (bits : BloomFilter) (k : Bytes) : Bool := bits.getLsbD (index k).1 && bits.getLsbD (index k).2

def set (bits : BloomFilter) (k : Bytes) : BloomFilter :=
  bits ||| BitVec.twoPow 1024 (index k).1 ||| BitVec.twoPow 1024 (index k).2

end BloomFilter

structure ImmutableItem where
  value : Bytes
  ips : BloomFilter
  numAnnouncers : Nat

structure MutableItem extends ImmutableItem where
  sig : Bytes
  seq : Int
  key : Bytes

/-- The tables and the write secrets of `node_impl`. -/
structure Node where
  immutableTable : Std.TreeMap Bytes ImmutableItem
  mutableTable : Std.TreeMap Bytes MutableItem
  secret₀ : UInt32
  secret₁ : UInt32

structure Reply where
  error : Option String
  token : Option Bytes
  v : Option Entry
  seq : Option Int
  sig : Option Bytes
  k : Option Bytes

def Reply.empty : Reply := ⟨none, none, none, none, none, none⟩

def incomingError (msg : String) : Reply := { Reply.empty with error := some msg }

variable (host : Host)

namespace Node

/-! ## Tokens -/

def secretBytes (secret : UInt32) : Bytes :=
  [secret.toUInt8, (secret >>> 8).toUInt8, (secret >>> 16).toUInt8, (secret >>> 24).toUInt8]

def tokenFor (secret : UInt32) (addr : Address) (infoHash : Bytes) : Bytes :=
  (host.sha1 (host.addressText addr ++ secretBytes secret ++ infoHash)).take 4

variable (s : Node)

def generateToken (addr : Address) (infoHash : Bytes) : Bytes := tokenFor host s.secret₀ addr infoHash

def verifyToken (token infoHash : Bytes) (addr : Address) : Bool :=
  if token.length ≠ 4 then false
  else token = tokenFor host s.secret₀ addr infoHash || token = tokenFor host s.secret₁ addr infoHash

/-- `new_write_key()`, given what `rand` returns. -/
def newWriteKey (random : UInt32) : Node := { s with secret₁ := s.secret₀, secret₀ := random }

/-! ## `put` -/

def putDesc : List KeyDesc :=
  [.leaf "token" .string 0 false, .leaf "v" .none 0 false, .leaf "seq" .int 0 true, .leaf "k" .string 268 true,
    .leaf "sig" .string 256 true]

/-- The sequence number, the public key and the signature of a mutable item. -/
structure MutablePut where
  seq : Int
  k : Bytes
  sig : Bytes

structure PutArgs where
  token : Bytes
  /-- The data section of the value. -/
  buf : Bytes
  len : Int
  mutable : Option MutablePut

def intOf (buf : Bytes) : LazyEntry → Int
  | .int start size _ _ => intValue buf start size
  | _ => 0

def stringOf (buf : Bytes) (l : LazyEntry) : Bytes := (stringValue buf l).getD []

def key (keys : List (Option LazyEntry)) (i : Nat) : Option LazyEntry := keys.getD i none

/-- The arguments in the keys that `verify_message` has found. -/
def putKeys (buf : Bytes) (keys : List (Option LazyEntry)) : PutArgs :=
  let v := (key keys 1).getD .none
  { token := stringOf buf ((key keys 0).getD .none)
    buf := slice buf v.dataSection.1 v.dataSection.2
    len := v.dataSection.2
    mutable := do
      let seq ← key keys 2
      let k ← key keys 3
      let sig ← key keys 4
      return ⟨intOf buf seq, stringOf buf k, stringOf buf sig⟩ }

/-- What `snprintf(seq, sizeof(seq), "3:seqi%" PRId64 "e1:v")` prints. -/
def seqText (seq : Int) : Bytes := bytes "3:seqi" ++ text seq ++ bytes "e1:v"

/-- The bytes that are hashed for the sequence number. The array has room for 19 characters and the terminator, and the
length is that of the whole text. -/
def seqBuffer (seq : Int) : Bytes :=
  let t := seqText seq
  if t.length < 20 then t
  else t.take 19 ++ 0 :: (List.range (t.length - 20)).map host.behindSeq

/-- `std::min_element(begin, end, comp)`: the key of the element. -/
def minElement {α : Type} (comp : α → α → Bool) : List (Bytes × α) → Option Bytes
  | [] => none
  | x :: l => some (l.foldl (fun r y => if comp y.2 r.2 then y else r) x).1

/-- The table with room for one more item: a full table loses the element that `min_element` finds. -/
def makeRoom {α : Type} (comp : α → α → Bool) (t : Std.TreeMap Bytes α) : Std.TreeMap Bytes α :=
  if host.maxDhtItems ≤ t.size then
    match minElement comp t.toList with
    | some key => t.erase key
    | none => t
  else t

def announced (addr : Address) (f : ImmutableItem) : ImmutableItem :=
  let iphash := host.sha1 (host.addressBytes addr)
  if f.ips.find iphash then f else { f with ips := f.ips.set iphash, numAnnouncers := f.numAnnouncers + 1 }

/-- The immutable table after a `put`, before the sender is counted. -/
def storeImmutable (target value : Bytes) : Std.TreeMap Bytes ImmutableItem :=
  if target ∈ s.immutableTable then s.immutableTable
  else (makeRoom host (fun a b => a.numAnnouncers < b.numAnnouncers) s.immutableTable).insert target ⟨value, 0, 0⟩

/-- The mutable table after a `put`, before the sender is counted, unless the sequence number is old. The predicate of
`min_element` looks at one of its arguments only, and the sequence number is stored in an `int`. -/
def storeMutable (target value : Bytes) (m : MutablePut) : Option (Std.TreeMap Bytes MutableItem) :=
  match s.mutableTable[target]? with
  | none =>
    some ((makeRoom host (fun a _ => a.numAnnouncers != 0) s.mutableTable).insert target
      { value, ips := 0, numAnnouncers := 0, sig := m.sig, seq := int32 m.seq, key := m.k })
  | some item =>
    if item.seq > m.seq then none
    else if item.seq < m.seq then
      some (s.mutableTable.insert target { item with value, seq := int32 m.seq, sig := m.sig })
    else some s.mutableTable

/-- The part of `put` behind the check of the token, for a mutable item. -/
def putMutable (addr : Address) (value : Bytes) (m : MutablePut) : Node × Reply :=
  if !host.useOpenssl then (s, incomingError "unsupported")
  else if !host.verifyRsa (host.sha1 (seqBuffer host m.seq ++ value)) m.k m.sig
    then (s, incomingError "invalid signature")
  else
    let target := host.sha1 m.k
    match storeMutable host s target value m with
    | none => (s, incomingError "old sequence number")
    | some t =>
      ({ s with mutableTable := t.modify target fun f =>
        { f with toImmutableItem := announced host addr f.toImmutableItem } },
        Reply.empty)

/-- The part of `put` behind the check of the token, for an immutable item. -/
def putImmutable (addr : Address) (target value : Bytes) : Node × Reply :=
  ({ s with immutableTable := (storeImmutable host s target value).modify target (announced host addr) }, Reply.empty)

/-- What the token of a `put` is checked against. -/
def putTarget (a : PutArgs) : Bytes :=
  match a.mutable with
  | none => host.sha1 a.buf
  | some m => m.k.take 20

def putItem (addr : Address) (a : PutArgs) : Node × Reply :=
  if 767 < a.len ∨ a.len ≤ 0 then (s, incomingError "message too big")
  else if !s.verifyToken host a.token (putTarget host a) addr then (s, incomingError "invalid token")
  else
    match a.mutable with
    | none => s.putImmutable host addr (putTarget host a) a.buf
    | some m => s.putMutable host addr a.buf m

def putArgs (buf : Bytes) (argEnt : LazyEntry) : Except String PutArgs := do
  let keys ← verifyMessage buf putDesc argEnt
  return putKeys buf keys

def put (addr : Address) (buf : Bytes) (argEnt : LazyEntry) : Node × Reply :=
  match putArgs buf argEnt with
  | .error msg => (s, incomingError msg)
  | .ok a => s.putItem host addr a

/-! ## `get` -/

def getDesc : List KeyDesc := [.leaf "target" .string 20 false]

def getItem (addr : Address) (target : Bytes) : Reply :=
  let reply := { Reply.empty with token := some (s.generateToken host addr target) }
  match s.immutableTable[target]? with
  | some f => { reply with v := some (bdecode f.value).1 }
  | none =>
    match s.mutableTable[target]? with
    | some f =>
      { reply with v := some (bdecode f.value).1, seq := some f.seq, sig := some f.sig, k := some f.key }
    | none => reply

def get (addr : Address) (buf : Bytes) (argEnt : LazyEntry) : Reply :=
  match verifyMessage buf getDesc argEnt with
  | .error msg => incomingError msg
  | .ok keys => s.getItem host addr (stringOf buf ((key keys 0).getD .none))

/-! ## Runs -/

inductive Event where
  | put (addr : Address) (buf : Bytes) (argEnt : LazyEntry)
  | get (addr : Address) (buf : Bytes) (argEnt : LazyEntry)
  | newWriteKey (random : UInt32)

def step : Event → Node
  | .put addr buf argEnt => (s.put host addr buf argEnt).1
  | .get _ _ _ => s
  | .newWriteKey random => s.newWriteKey random

end Node

end Libtorrent.Dht
