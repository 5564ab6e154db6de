import Libtorrent.Lib.Run
import Libtorrent.Metadata.Transfer

/-!
# The buffer of LT_metadata

`metadata_progress` sets `m_metadata_size` to the total size of every data message, before `received_metadata` compares
the two to see if the buffer is large enough. So the buffer is never allocated again, and what is received stays inside
it only as long as no message has a total size beyond the buffer (`received_inside`). Nor does anything check that a
request ends within the 256 parts: what is sent stays inside the metadata if it does (`sent_inside_iff`).
-/

namespace Libtorrent.Metadata

open Run List Int Plugin

/-! ## Receiving -/

/-- What is copied lands inside the buffer, and the torrent gets no more bytes than there are. -/
def Effect.Lands : Effect → Prop
  | .copy offset size capacity => 0 ≤ offset ∧ offset + size ≤ capacity
  | .setMetadata size capacity => size ≤ capacity
  | _ => True

/-- A data message that is accepted and complete. `body` begins behind the type. -/
structure Accepted (env : Env) (length : Int) (body : List UInt8) : Prop where
  header : 8 ≤ body.length
  checked : dataError env (readInt32 body) (readInt32 (body.drop 4)) (length - 9) = none
  complete : length - 9 ≤ (body.drop 8).length

instance (env : Env) (length : Int) (body : List UInt8) : Decidable (Accepted env length body) :=
  decidable_of_iff (8 ≤ body.length ∧ dataError env (readInt32 body) (readInt32 (body.drop 4)) (length - 9) = none ∧
    length - 9 ≤ (body.drop 8).length) ⟨fun h => ⟨h.1, h.2.1, h.2.2⟩, fun h => ⟨h.header, h.checked, h.complete⟩⟩

/-- A message is not received beyond its length. -/
def Pre (_ : State) : Event → Prop
  | .extended _ length _ body => body.length ≤ length
  | _ => True

/-- The total size of an accepted data message is not beyond the buffer, and the end of the message is an `int`. -/
def Fits (env : Env) (s : State) : Event → Prop
  | .extended _ length _ (1 :: body) => Accepted env length body → s.plugin.validMetadata = false →
    readInt32 (body.drop 4) + ((length : Int) - 9) < 2 ^ 31 ∧
      ∀ buf ∈ s.plugin.metadata, readInt32 body ≤ buf.length
  | _ => True

def Lands (env : Env) (s : State) (event : Event) : Prop := ∀ x ∈ (call env s event).2, x.Lands

instance : DecidablePred Effect.Lands := fun x => by cases x <;> unfold Effect.Lands <;> infer_instance

variable {env : Env} {tp : Plugin} {p : PeerPlugin}

variable {totalSize offset dataSize size length : Int} {body : List UInt8} {capacity : Nat}

theorem capacity_store (buf : List UInt8) (offset : Int) (req : Int × Int) (hsize : tp.metadataSize = totalSize)
    (hfit : ∀ b ∈ tp.metadata, totalSize ≤ b.length) :
    totalSize ≤ ((tp.allocate totalSize).store buf offset req).capacity ∧
      ((tp.allocate totalSize).store buf offset req).metadataSize = totalSize := by
  unfold allocate store capacity overwrite
  cases hm : tp.metadata with
  | none =>
    have : totalSize ≤ max totalSize 0 := le_max_left _ _
    simp [this]
  | some b =>
    have := hfit b hm
    simp [hsize, hm, this]

theorem receivedMetadata_lands {buf : List UInt8} (hsize : tp.metadataSize = totalSize) (hoffset : 0 ≤ offset)
    (hfit : tp.validMetadata = false → offset + buf.length ≤ totalSize ∧ ∀ b ∈ tp.metadata, totalSize ≤ b.length) :
    ∀ x ∈ (tp.receivedMetadata env buf offset totalSize).2, x.Lands := by
  unfold receivedMetadata
  split
  · intro x hx
    cases hx
  rename_i hv
  obtain ⟨hend, hfit⟩ := hfit (by simpa using hv)
  obtain ⟨hcap, hsize'⟩ := capacity_store buf offset (offsetToReq (offset, buf.length) totalSize) hsize hfit
  have hcopy : (Effect.copy offset buf.length ((tp.allocate totalSize).store buf offset
      (offsetToReq (offset, buf.length) totalSize)).capacity).Lands :=
    ⟨hoffset, le_trans hend hcap⟩
  dsimp only
  split
  · exact forall_mem_singleton.mpr hcopy
  intro x hx
  rcases mem_cons.mp hx with rfl | hx
  · exact hcopy
  · rw [mem_singleton.mp hx]
    exact le_trans (le_of_eq hsize') hcap

theorem dataError_eq_none (h : dataError env totalSize offset dataSize = none) :
    0 ≤ offset ∧ int32 (offset + dataSize) ≤ totalSize := by
  unfold dataError at h
  split at h
  · cases h
  split at h
  · cases h
  split at h
  · cases h
  · split at h
    · cases h
    · omega

theorem acceptData_lands {data : List UInt8} (hoffset : 0 ≤ offset)
    (hfit : dataSize ≤ data.length → tp.validMetadata = false →
      offset + dataSize.toNat ≤ totalSize ∧ ∀ b ∈ tp.metadata, totalSize ≤ b.length) :
    ∀ x ∈ (acceptData env tp p totalSize offset dataSize data).2.2, x.Lands := by
  unfold acceptData
  dsimp only
  split
  · exact forall_mem_singleton.mpr trivial
  rename_i hlen
  intro x hx
  rcases mem_append.mp hx with hx | hx
  · rw [mem_singleton.mp hx]
    trivial
  refine receivedMetadata_lands rfl hoffset (fun hv => ?_) x hx
  obtain ⟨hend, hfit⟩ := hfit (not_lt.mp hlen) hv
  refine ⟨le_trans ?_ hend, hfit⟩
  rw [length_take]
  omega

theorem onData_lands {length : Nat} (hfit : Accepted env length body → tp.validMetadata = false →
      readInt32 (body.drop 4) + ((length : Int) - 9) < 2 ^ 31 ∧ ∀ buf ∈ tp.metadata, readInt32 body ≤ buf.length)
    (hlen : body.length < length) : ∀ x ∈ (onData env tp p length body).2.2, x.Lands := by
  unfold onData
  split
  · intro x hx
    cases hx
  rename_i hheader
  split
  · exact forall_mem_singleton.mpr trivial
  rename_i hcheck
  obtain ⟨hoffset, hend⟩ := dataError_eq_none hcheck
  refine acceptData_lands hoffset fun hall hv => ?_
  obtain ⟨hint, hbuf⟩ := hfit ⟨Nat.le_of_not_lt hheader, hcheck, hall⟩ hv
  refine ⟨?_, hbuf⟩
  rw [int32_of_range (by omega) hint] at hend
  omega

theorem writeMetadata_lands (req : Int × Int) : ∀ x ∈ (writeMetadata tp p req).2, x.Lands := by
  unfold writeMetadata
  split
  · intro x hx
    cases hx
  split
  · exact forall_mem_singleton.mpr trivial
  · exact forall_mem_singleton.mpr trivial

theorem onRequest_lands (length : Int) (body : List UInt8) : ∀ x ∈ (onRequest tp p length body).2, x.Lands := by
  unfold onRequest
  split
  · split
    · exact forall_mem_singleton.mpr trivial
    · exact writeMetadata_lands _
  · intro x hx
    cases hx

theorem lands_of_fits {s : State} {event : Event} (hpre : Pre s event) (hfit : Fits env s event) :
    Lands env s event := by
  cases event with
  | extended peer length msg body =>
    change ∀ x ∈ (onExtended env s.plugin (s.peers peer) length msg body).2.2, x.Lands
    unfold onExtended
    split
    · intro x hx
      cases hx
    split
    · exact forall_mem_singleton.mpr trivial
    cases body with
    | nil =>
      intro x hx
      cases hx
    | cons =>
      dsimp only
      split
      · exact onRequest_lands _ _
      split
      · rename_i htype
        subst htype
        exact onData_lands hfit hpre
      split
      · intro x hx
        cases hx
      · exact forall_mem_singleton.mpr trivial
  | tick peer hasMetadata =>
    change ∀ x ∈ (Metadata.tick s.plugin (s.peers peer) hasMetadata).2.2, x.Lands
    unfold Metadata.tick
    split
    · exact forall_mem_singleton.mpr trivial
    · intro x hx
      cases hx
  | handshake peer index | seeding | otherMetadata bytes =>
    intro x hx
    cases hx

/-- **Receiving**: as long as no accepted message has a total size beyond the buffer, every byte lands inside it, and
`set_metadata` gets no more bytes than it has. -/
theorem received_inside (env : Env) (validMetadata : Bool) (bytes : List UInt8) (events : List Event)
    (hl : Legal (step env) Pre (.new validMetadata bytes) events)
    (hc : Legal (step env) (Fits env) (.new validMetadata bytes) events) :
    Legal (step env) (Lands env) (.new validMetadata bytes) events :=
  (hl.and hc).mono fun _ _ h => lands_of_fits h.1 h.2

instance (s : State) (event : Event) : Decidable (Pre s event) := by
  unfold Pre
  split <;> infer_instance

instance (env : Env) (s : State) (event : Event) : Decidable (Fits env s event) := by
  unfold Fits
  split <;> infer_instance

/-- The default limit, and a torrent that refuses all metadata. -/
def refusingEnv : Env := ⟨3 * 1024 * 1024, fun _ => false⟩

/-- All metadata from one peer, in two messages, the second of which arrives in parts. -/
def twoMessages : List Event :=
  [.handshake 0 7, .extended 0 11 14 [1, 0, 0, 0, 4, 0, 0, 0, 0, 9, 8],
    .extended 0 11 14 [1, 0, 0, 0, 4, 0, 0, 0, 2, 7],
    .extended 0 11 14 [1, 0, 0, 0, 4, 0, 0, 0, 2, 7, 6]]

theorem received_inside_twoMessages :
    Effect.setMetadata 4 4 ∈ (call refusingEnv (run (step refusingEnv) (.new false []) (twoMessages.take 3))
      (.extended 0 11 14 [1, 0, 0, 0, 4, 0, 0, 0, 2, 7, 6])).2 ∧
    Legal (step refusingEnv) (Lands refusingEnv) (.new false []) twoMessages :=
  ⟨by decide +kernel, received_inside refusingEnv false [] twoMessages (by decide +kernel) (by decide +kernel)⟩

/-- A peer says that there are 4 bytes, another one that there are 1000, and sends one for the offset 900. -/
theorem copy_behind_buffer : Legal (step refusingEnv) Pre (.new false []) [.handshake 0 7, .handshake 1 7,
      .extended 0 11 14 [1, 0, 0, 0, 4, 0, 0, 0, 0, 9, 8], .extended 1 10 14 [1, 0, 0, 3, 232, 0, 0, 3, 132, 5]] ∧
    ¬ Legal (step refusingEnv) (Lands refusingEnv) (.new false []) [.handshake 0 7, .handshake 1 7,
      .extended 0 11 14 [1, 0, 0, 0, 4, 0, 0, 0, 0, 9, 8], .extended 1 10 14 [1, 0, 0, 3, 232, 0, 0, 3, 132, 5]] :=
  ⟨by decide +kernel, fun h => absurd (h.2.2.2.1 (.copy 900 1 4) (by decide +kernel)) (by decide)⟩

/-! ## Sending -/

/-- The bytes of a data packet lie inside the buffer that they are taken from. -/
def Effect.SentInside : Effect → Prop
  | .sendData _ offset size capacity => 0 ≤ offset ∧ 0 ≤ size ∧ offset + size ≤ capacity
  | _ => True

/-- The number of 256ths, rounded up, as `div_round_up` computes it. -/
def roundUp256 (x : Int) : Int := divRoundUp (int32 x) 256

/-- A request for the parts from `start` on, `size + 1` of them, of metadata for which `m_metadata_size` is `totalSize`
in a buffer of `capacity` bytes, ends inside the buffer. -/
def EndsInside (totalSize : Int) (capacity start size : Nat) : Prop :=
  (start + (size + 1) : Nat) * totalSize ≤ 256 * capacity

/-- No product overflows for such a request. -/
def NoOverflow (totalSize : Int) (start size : Nat) : Prop :=
  0 ≤ totalSize ∧ (start + (size + 1) : Nat) * totalSize + 255 < 2 ^ 31

theorem roundUp256_eq {x : Int} (h0 : 0 ≤ x) (h : x + 255 < 2 ^ 31) : roundUp256 x = (x + 255) / 256 := by
  have hx : int32 x = x := int32_of_range (by omega) (by omega)
  unfold roundUp256 divRoundUp
  rw [hx, int32_of_range (by omega) (by omega), tdiv_eq_ediv_of_nonneg (by omega)]
  omega

theorem reqToOffset_inside_iff {totalSize : Int} (capacity : Nat) {start size : Nat}
    (hno : NoOverflow totalSize start size) :
    (0 ≤ (reqToOffset (start, size + 1) totalSize).1 ∧ 0 ≤ (reqToOffset (start, size + 1) totalSize).2 ∧
      (reqToOffset (start, size + 1) totalSize).1 + (reqToOffset (start, size + 1) totalSize).2 ≤ capacity) ↔
    EndsInside totalSize capacity start size := by
  have hreq : reqToOffset (start, size + 1) totalSize = (roundUp256 (start * totalSize),
      roundUp256 ((start + (size + 1) : Nat) * totalSize) - roundUp256 (start * totalSize)) := rfl
  obtain ⟨hpos, hlast⟩ := hno
  have h0 : 0 ≤ start * totalSize := mul_nonneg (natCast_nonneg _) hpos
  have h1 : start * totalSize ≤ (start + (size + 1) : Nat) * totalSize := mul_le_mul_of_nonneg_right (by omega) hpos
  rw [hreq]
  unfold EndsInside
  dsimp only
  generalize ((start + (size + 1) : Nat) : Int) * totalSize = last at *
  generalize (start : Int) * totalSize = first at *
  rw [roundUp256_eq h0 (by omega), roundUp256_eq (by omega) hlast]
  omega

theorem sendData_notMem_onData :
    Effect.sendData totalSize offset size capacity ∉ (onData env tp p length body).2.2 := by
  have hreceived : ∀ (tp : Plugin) buf o t, Effect.sendData totalSize offset size capacity ∉
      (tp.receivedMetadata env buf o t).2 := by
    intro tp buf o t
    unfold receivedMetadata
    split
    · exact not_mem_nil
    dsimp only
    split
    · simp
    · simp
  unfold onData
  split
  · exact not_mem_nil
  split
  · simp
  unfold acceptData
  dsimp only
  split
  · simp [progress]
  rw [mem_append]
  rintro (hx | hx)
  · simp [progress] at hx
  · exact hreceived _ _ _ _ hx

/-- A data packet answers a request, and is what `req_to_offset` makes of it. -/
theorem sendData_mem {msg : Nat}
    (h : Effect.sendData totalSize offset size capacity ∈ (onExtended env tp p length msg body).2.2) :
    ∃ start n rest, body = 0 :: start :: n :: rest ∧ capacity = tp.loadMetadata.capacity ∧
      (offset, size) = reqToOffset (start.toNat, n.toNat + 1) tp.loadMetadata.metadataSize := by
  unfold onExtended at h
  split at h
  · cases h
  split at h
  · simp at h
  cases body with
  | nil => cases h
  | cons =>
    dsimp only at h
    split at h
    · rename_i htype
      unfold onRequest at h
      split at h
      · rename_i start n rest
        split at h
        · simp at h
        unfold writeMetadata at h
        split at h
        · cases h
        split at h
        · have he := mem_singleton.mp h
          injection he with h1 h2 h3 h4
          refine ⟨start, n, rest, by rw [htype], h4, ?_⟩
          rw [h2, h3]
        · simp at h
      · cases h
    · split at h
      · exact absurd h sendData_notMem_onData
      · split at h
        · cases h
        · simp at h

/-- **Sending**: the bytes of a data packet that answers a request lie inside the buffer exactly if the request ends
inside. -/
theorem sent_inside_iff (env : Env) (tp : Plugin) (p : PeerPlugin) (length : Int) (msg : Nat) (body : List UInt8)
    {totalSize offset size : Int} {capacity : Nat}
    (h : Effect.sendData totalSize offset size capacity ∈ (onExtended env tp p length msg body).2.2)
    (hno : NoOverflow tp.loadMetadata.metadataSize (body.getD 1 0).toNat (body.getD 2 0).toNat) :
    (Effect.sendData totalSize offset size capacity).SentInside ↔
      EndsInside tp.loadMetadata.metadataSize tp.loadMetadata.capacity (body.getD 1 0).toNat (body.getD 2 0).toNat := by
  obtain ⟨start, n, rest, rfl, rfl, hreq⟩ := sendData_mem h
  have hiff := @reqToOffset_inside_iff _ tp.loadMetadata.capacity start.toNat n.toNat hno
  rw [← hreq] at hiff
  exact hiff

def threeBytes : Plugin := .new true [100, 49, 101]

theorem sent_inside_iff_wholeRequest :
    Effect.sendData 3 0 3 3 ∈ (onExtended refusingEnv threeBytes ⟨false, 7, 0, (0, 0)⟩ 3 14 [0, 0, 255]).2.2 ∧
      (Effect.sendData 3 0 3 3).SentInside := by
  have h : Effect.sendData 3 0 3 3 ∈
    (onExtended refusingEnv threeBytes ⟨false, 7, 0, (0, 0)⟩ 3 14 [0, 0, 255]).2.2 := by
    decide +kernel
  have hno : NoOverflow threeBytes.loadMetadata.metadataSize 0 255 := ⟨by decide +kernel, by decide +kernel⟩
  exact ⟨h,
    (sent_inside_iff refusingEnv threeBytes _ 3 14 [0, 0, 255] h hno).mpr (by unfold EndsInside; decide +kernel)⟩

/-- A request for 256 parts from the last one on is answered with the three bytes behind the metadata. -/
theorem request_behind_last_part :
    Effect.sendData 3 3 3 3 ∈ (onExtended refusingEnv threeBytes ⟨false, 7, 0, (0, 0)⟩ 3 14 [0, 255, 255]).2.2 ∧
      ¬ (Effect.sendData 3 3 3 3).SentInside :=
  ⟨by decide +kernel, fun h => absurd h.2.2 (by decide)⟩

end Libtorrent.Metadata
