import Libtorrent.Lib.Run
import Libtorrent.Metadata.Transfer

/-!
# `ut_metadata.cpp`: the ut_metadata extension

Of `m_metadata` only the size is kept; what is copied to it is a list. When a request is sent, and what the torrent does
with complete metadata, is part of an event. Serving metadata is not modelled.
-/

namespace Libtorrent.Metadata.Ut

open Run List

/-- A `memcpy` of `size` bytes to the block `piece` of a buffer of `capacity` bytes. -/
structure Copy where
  piece : Int
  size : Int
  capacity : Int

/-- `ut_metadata_plugin`, with `m_sent_requests` of its peers. -/
structure Plugin where
  validMetadata : Bool := false
  /-- The size of `m_metadata`, if it is allocated. -/
  metadata : Option Int := none
  metadataSize : Int := 0
  /-- `num_requests` of every block. -/
  requestedMetadata : List Int := []
  sentRequests : Nat → List Int := fun _ => []
  copies : List Copy := []
  /-- The number of blocks at each call of `set_metadata`. -/
  handed : List Nat := []

/-- What `set_metadata` does: the torrent takes the metadata; it does not; or it finds an error in them behind the list
of files, and has metadata all the same. -/
inductive SetMetadata where
  | taken | refused | halfTaken

def intMax : Int := 2 ^ 31 - 1

variable (tp : Plugin)

def allocate (size : Int) : Plugin :=
  let n := (divRoundUp size (16 * 1024)).toNat
  { tp with
    metadataSize := size
    metadata := some size
    requestedMetadata := tp.requestedMetadata.take n ++ replicate (n - tp.requestedMetadata.length) 0 }

/-- `metadata_size(size)`. -/
def setMetadataSize (size : Int) : Plugin :=
  if tp.metadataSize > 0 ∨ size ≤ 0 ∨ size > 4 * 1024 * 1024 then tp else allocate tp size

def blocks : List Int := if tp.requestedMetadata.isEmpty then [0] else tp.requestedMetadata

/-- The first block with the fewest requests. -/
def metadataRequest : Nat := (blocks tp).idxOf ((blocks tp).foldl min intMax)

/-- `maybe_send_request`, when a request is sent. -/
def maybeSendRequest (peer : Nat) : Plugin :=
  if tp.validMetadata ∨ (tp.sentRequests peer).length ≥ 2 then tp
  else
    { tp with
      requestedMetadata := (blocks tp).modify (metadataRequest tp) fun n => int32 (n + 1)
      sentRequests := Function.update tp.sentRequests peer (tp.sentRequests peer ++ [(metadataRequest tp : Int)]) }

/-- The end of `received_metadata`: the bytes are copied, and complete metadata are handed to the torrent. -/
def store (piece size : Int) (result : SetMetadata) : Plugin :=
  let blocks := tp.requestedMetadata.set piece.toNat intMax
  let tp := { tp with requestedMetadata := blocks, copies := ⟨piece, size, tp.metadata.getD 0⟩ :: tp.copies }
  if !blocks.all (· = intMax) then tp
  else
    let tp := { tp with handed := blocks.length :: tp.handed }
    match result with
    | .taken => { tp with validMetadata := true, requestedMetadata := [] }
    | .refused => { tp with requestedMetadata := blocks.map fun _ => 0 }
    | .halfTaken => { tp with validMetadata := true }

def receivedMetadata (maxMetadataSize piece size totalSize : Int) (result : SetMetadata) : Plugin :=
  if tp.validMetadata then tp
  else if tp.metadata.isNone ∧ (totalSize ≤ 0 ∨ totalSize > maxMetadataSize) then tp
  else
    let tp := if tp.metadata.isNone then allocate tp totalSize else tp
    if piece < 0 ∨ piece ≥ tp.requestedMetadata.length then tp
    else if totalSize ≠ tp.metadataSize then tp
    else if int32 (piece * 16 * 1024 + size) > tp.metadataSize then tp
    else store tp piece size result

inductive Event where
  /-- The extension handshake of a peer, with its `metadata_size`. -/
  | handshake (metadataSize : Int)
  | request (peer : Nat)
  /-- A data message with `size` bytes behind its dictionary. -/
  | data (peer : Nat) (piece totalSize : Int) (size : Nat) (result : SetMetadata)
  | dontHave (peer : Nat) (piece : Int)

def answered (peer : Nat) (piece : Int) : Plugin :=
  { tp with sentRequests := Function.update tp.sentRequests peer ((tp.sentRequests peer).erase piece) }

def step (maxMetadataSize : Int) (tp : Plugin) : Event → Plugin
  | .handshake size => if size > 0 then setMetadataSize tp size else tp
  | .request peer => maybeSendRequest tp peer
  | .data peer piece totalSize size result =>
    -- a message of more than 17 KiB is refused, one that was not asked for is ignored
    if size > 17 * 1024 ∨ piece ∉ tp.sentRequests peer then tp
    else receivedMetadata (answered tp peer piece) maxMetadataSize piece size totalSize result
  | .dontHave peer piece => answered tp peer piece

/-- The copy stays inside the buffer. -/
def Copy.Inside (c : Copy) : Prop := 0 ≤ c.piece ∧ 0 ≤ c.size ∧ c.piece * 16384 + c.size ≤ c.capacity

/-- All of the block is copied. -/
def Copy.Whole (c : Copy) : Prop := c.size = min 16384 (c.capacity - 16384 * c.piece)

/-- A block is marked as received only when all of it was copied, and `set_metadata` called when all blocks were. -/
structure Complete : Prop where
  whole : ∀ c ∈ tp.copies, c.Whole
  marked : ∀ i : Nat, tp.requestedMetadata[i]? = some intMax → ∃ c ∈ tp.copies, c.piece = i
  handed : ∀ n ∈ tp.handed, ∀ i < n, ∃ c ∈ tp.copies, c.piece = i

/-- Data messages carry whole blocks, and no block is requested so often that it counts as received. -/
def Regular (tp : Plugin) : Event → Prop
  | .request _ => ∀ n ∈ blocks tp, int32 (n + 1) ≠ intMax
  | .data _ piece totalSize size _ => (size : Int) = min 16384 (totalSize - 16384 * piece)
  | _ => True

/-- What holds of any plugin, and what holds if the events are regular. -/
structure Good (regular : Prop) (tp : Plugin) : Prop where
  buffer : tp.metadata = if 0 < tp.metadataSize then some tp.metadataSize else none
  range : 0 ≤ tp.metadataSize ∧ tp.metadataSize ≤ 2 ^ 31 - 16384
  blocks : tp.metadataSize = 0 ∨ (tp.requestedMetadata.length : Int) * 16384 < tp.metadataSize + 16384
  inside : ∀ c ∈ tp.copies, c.Inside
  complete : regular → Complete tp

variable {tp} {r : Prop} {size piece total : Int}

theorem Good.allocate (h : Good r tp) (h0 : 0 < size) (hle : size ≤ 2 ^ 31 - 16384) : Good r (allocate tp size) := by
  refine ⟨(if_pos h0).symm, ⟨h0.le, hle⟩, .inr ?_, h.inside,
    fun hr => ⟨(h.complete hr).whole, fun i hi => ?_, (h.complete hr).handed⟩⟩
  · have hn : divRoundUp size (16 * 1024) = (size + 16383) / 16384 := by
      unfold divRoundUp
      rw [int32_of_range (by omega) (by omega), Int.tdiv_eq_ediv_of_nonneg (by omega)]
      omega
    simp only [Ut.allocate, hn, length_append, length_take, length_replicate]
    omega
  · simp only [Ut.allocate, getElem?_append, getElem?_take, getElem?_replicate] at hi
    refine (h.complete hr).marked i ?_
    have : (0 : Int) ≠ intMax := by decide
    grind

theorem Good.store (h : Good r tp) (hbuf : tp.metadata = some total) (hpiece : 0 ≤ piece) (h0 : 0 ≤ size)
    (hfit : piece * 16384 + size ≤ total) (hwhole : r → size = min 16384 (total - 16384 * piece))
    (result : SetMetadata) : Good r (store tp piece size result) := by
  have hin : ∀ c ∈ (⟨piece, size, total⟩ : Copy) :: tp.copies, c.Inside :=
    forall_mem_cons.mpr ⟨⟨hpiece, h0, hfit⟩, h.inside⟩
  have hcopied (hr : r) : ∀ c ∈ (⟨piece, size, total⟩ : Copy) :: tp.copies, c.Whole :=
    forall_mem_cons.mpr ⟨hwhole hr, (h.complete hr).whole⟩
  have hmarked (hr : r) (i : Nat) (hi : (tp.requestedMetadata.set piece.toNat intMax)[i]? = some intMax) :
      ∃ c ∈ (⟨piece, size, total⟩ : Copy) :: tp.copies, c.piece = i := by
    rcases eq_or_ne piece.toNat i with hp | hp
    · exact ⟨_, mem_cons_self, by dsimp only; omega⟩
    · obtain ⟨c, hc, hpc⟩ := (h.complete hr).marked i ((getElem?_set_ne hp).symm.trans hi)
      exact ⟨c, mem_cons_of_mem _ hc, hpc⟩
  have hearlier (hr : r) : ∀ n ∈ tp.handed, ∀ i < n, ∃ c ∈ (⟨piece, size, total⟩ : Copy) :: tp.copies, c.piece = i :=
    fun n hn i hi => ((h.complete hr).handed n hn i hi).imp fun c hc => ⟨mem_cons_of_mem _ hc.1, hc.2⟩
  have hlen := h.blocks
  rw [← length_set (i := piece.toNat) (a := intMax)] at hlen
  unfold Ut.store
  rw [hbuf]
  dsimp only [Option.getD_some]
  generalize tp.requestedMetadata.set piece.toNat intMax = blocks at *
  split
  · exact ⟨hbuf ▸ h.buffer, h.range, hlen, hin, fun hr => ⟨hcopied hr, hmarked hr, hearlier hr⟩⟩
  rename_i hno
  have hall : ∀ x ∈ blocks, x = intMax := by simpa using hno
  have hhanded (hr : r) : ∀ n ∈ blocks.length :: tp.handed, ∀ i < n,
      ∃ c ∈ (⟨piece, size, total⟩ : Copy) :: tp.copies, c.piece = i := by
    refine forall_mem_cons.mpr ⟨fun i hi => hmarked hr i ?_, hearlier hr⟩
    rw [getElem?_eq_getElem hi, hall _ (getElem_mem hi)]
  cases result with
  | taken =>
    have := h.range.1
    exact ⟨hbuf ▸ h.buffer, h.range, by simp only [length_nil]; omega, hin, fun hr => ⟨hcopied hr, nofun, hhanded hr⟩⟩
  | refused =>
    refine ⟨hbuf ▸ h.buffer, h.range, by rw [length_map]; exact hlen, hin, fun hr =>
      ⟨hcopied hr, fun i hi => ?_, hhanded hr⟩⟩
    obtain ⟨c, -, hc⟩ := mem_map.mp (mem_of_getElem? hi)
    exact absurd hc (by decide)
  | halfTaken => exact ⟨hbuf ▸ h.buffer, h.range, hlen, hin, fun hr => ⟨hcopied hr, hmarked hr, hhanded hr⟩⟩

variable {max : Int}

theorem Good.received (hmax : max ≤ 2 ^ 31 - 16384) (h : Good r tp) (h0 : 0 ≤ size) (hle : size ≤ 17 * 1024)
    (hwhole : r → size = min 16384 (total - 16384 * piece)) (result : SetMetadata) :
    Good r (receivedMetadata tp max piece size total result) := by
  unfold receivedMetadata
  split
  · exact h
  split
  · exact h
  rename_i hnone
  obtain ⟨tp1, htp1, h1, hbuf⟩ : ∃ tp1, (if tp.metadata.isNone then Ut.allocate tp total else tp) = tp1 ∧ Good r tp1 ∧
      tp1.metadata ≠ none := by
    split
    · rename_i hn
      have ht : 0 < total ∧ total ≤ max := by simpa [hn] using hnone
      exact ⟨_, rfl, h.allocate ht.1 (ht.2.trans hmax), nofun⟩
    · rename_i hn
      exact ⟨tp, rfl, h, by simpa using hn⟩
  have hb := h1.buffer
  rw [htp1]
  dsimp only
  split
  · exact h1
  split
  · exact h1
  split
  · exact h1
  rename_i htotal hfit
  have hblocks := h1.blocks
  have hrange := h1.range
  split at hb
  · rw [int32_of_range (by omega) (by omega)] at hfit
    exact h1.store (hb.trans (congrArg some (not_not.mp htotal).symm)) (by omega) h0 (by omega) hwhole result
  · exact absurd hb hbuf

theorem Good.request (h : Good r tp) (peer : Nat) (hreg : r → Regular tp (.request peer)) :
    Good r (maybeSendRequest tp peer) := by
  unfold maybeSendRequest
  split
  · exact h
  have hb := h.blocks
  have hrange := h.range.1
  refine ⟨h.buffer, h.range, ?_, h.inside,
    fun hr => ⟨(h.complete hr).whole, fun i hi => (h.complete hr).marked i ?_, (h.complete hr).handed⟩⟩
  · rw [length_modify, Ut.blocks]
    split
    · simp only [length_singleton]
      omega
    · exact hb
  · rw [getElem?_modify] at hi
    obtain ⟨n, hn, he⟩ := Option.map_eq_some_iff.mp hi
    split at he
    · exact absurd he (hreg hr n (mem_of_getElem? hn))
    rw [show n = intMax from he, Ut.blocks] at hn
    split at hn
    · exact absurd (mem_of_getElem? hn) (by decide)
    · exact hn

theorem Good.step (hmax : max ≤ 2 ^ 31 - 16384) (h : Good r tp) (e : Event) (hreg : r → Regular tp e) :
    Good r (step max tp e) := by
  have hanswered (peer : Nat) (piece : Int) : Good r (answered tp peer piece) :=
    ⟨h.buffer, h.range, h.blocks, h.inside,
      fun hr => ⟨(h.complete hr).whole, (h.complete hr).marked, (h.complete hr).handed⟩⟩
  cases e with
  | handshake size =>
    dsimp only [Ut.step, setMetadataSize]
    split
    · split
      · exact h
      · exact h.allocate (by omega) (by omega)
    · exact h
  | request peer => exact h.request peer hreg
  | data peer piece total size result =>
    dsimp only [Ut.step]
    split
    · exact h
    · exact (hanswered peer piece).received hmax (Int.natCast_nonneg size) (by omega) hreg result
  | dontHave peer piece => exact hanswered peer piece

theorem good_new : Good r {} := ⟨rfl, by decide, .inl rfl, nofun, fun _ => ⟨nofun, nofun, nofun⟩⟩

/-- **Blocks of metadata**: copies never leave the buffer; if peers send whole blocks, marked blocks are complete. -/
theorem metadata_blocks (hmax : max ≤ 2 ^ 31 - 16384) (es : List Event) :
    (∀ c ∈ (run (step max) {} es).copies, c.Inside) ∧
      (Legal (step max) Regular {} es → Complete (run (step max) {} es)) := by
  constructor
  · exact (inv_run_all (P := Good False) (fun _ e h => h.step hmax e nofun) good_new es).inside
  · intro hl
    exact (inv_run (fun _ e h hr => h.step hmax e fun _ => hr) good_new hl).complete trivial

theorem metadata_blocks_whole : Complete (run (step 3145728) {}
    [.handshake 20000, .request 0, .data 0 0 20000 16384 .refused, .request 0, .data 0 1 20000 3616 .taken]) := by
  refine (metadata_blocks (by decide) _).2 ⟨trivial, ?_, ?_, ?_, ?_, trivial⟩
  all_goals
    unfold Regular
    decide +kernel

/-- An empty data message marks its block. -/
theorem empty_block_marked :
    ¬ Complete (run (step 3145728) {} [.handshake 32768, .request 0, .data 0 0 32768 0 .refused]) := by
  intro h
  have hw := h.whole ⟨0, 0, 32768⟩ mem_cons_self
  unfold Copy.Whole at hw
  exact absurd hw (by decide)

end Libtorrent.Metadata.Ut
