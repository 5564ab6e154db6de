import Libtorrent.Metainfo.FileStorage

/-!
# `magnet_uri.cpp`: making a link

`make_magnet_uri` appends the parts of a link to an array of 1024 bytes. `snprintf` returns the length that a part would
have had, so that after a part that does not fit the next one is written behind the array: all is well exactly if all
parts but the last one fit (`magnet_link_inside_iff`). The text that `base32encode` gives for the info-hash
is an argument.
-/

namespace Libtorrent.Magnet

open Bencode Metainfo List

def unreserved : Bytes :=
  bytes "-_!.~*()ABCDEFGHIJKLMNOPQRSTUVWXYZabcdefghijklmnopqrstuvwxyz0123456789"

def hexChar (n : Nat) : UInt8 := (bytes "0123456789abcdef").getD n 0

/-- The length is passed as an `int`. -/
def escapeString (s : Bytes) : Bytes :=
  (s.take (int32 s.length).toNat).flatMap fun c =>
    if c ∈ unreserved then [c] else [37, hexChar (c.toNat / 16), hexChar (c.toNat % 16)]

/-- The texts of the calls of `snprintf`. -/
def parts (hash name : Bytes) (trackers : List Bytes) : List Bytes :=
  (bytes "magnet:?xt=urn:btih:" ++ hash) :: (if name = [] then [] else [bytes "&dn=" ++ escapeString name]) ++
    trackers.map (bytes "&tr=" ++ escapeString ·)

/-- `ret` up to its terminator, and the arguments of the calls: where they write, and how much at most. -/
structure Output where
  ret : Bytes := []
  numChars : Int := 0
  calls : List (Int × Int) := []

/-- `num_chars += snprintf(ret + num_chars, sizeof(ret) - num_chars, …)`: the size is unsigned, the length that is
returned and the sum are `int`s. -/
def snprintf (o : Output) (text : Bytes) : Output :=
  let size := (1024 - o.numChars) % 2 ^ 64
  { ret := if size = 0 then o.ret else o.ret.take o.numChars.toNat ++ text.take (size - 1).toNat
    numChars := int32 (o.numChars + if text.length < 2 ^ 31 then (text.length : Int) else -1)
    calls := o.calls ++ [(o.numChars, size)] }

def makeMagnetUri (hash name : Bytes) (trackers : List Bytes) : Output :=
  (parts hash name trackers).foldl snprintf {}

def Inside (call : Int × Int) : Prop := 0 ≤ call.1 ∧ call.1 + call.2 ≤ 1024

/-- All parts but the last one fit. -/
def Fits (ps : List Bytes) : Prop := ∀ k < ps.length, (ps.take k).flatten.length ≤ 1024

theorem foldl_snprintf {ps : List Bytes} {o : Output} {w : Bytes} (hret : o.ret = w.take 1023)
    (hnum : ps ≠ [] → o.numChars = w.length) (hcalls : ∀ c ∈ o.calls, Inside c)
    (h : ∀ k < ps.length, w.length + (ps.take k).flatten.length ≤ 1024) :
    (ps.foldl snprintf o).ret = (w ++ ps.flatten).take 1023 ∧ ∀ c ∈ (ps.foldl snprintf o).calls, Inside c := by
  induction ps generalizing o w with
  | nil => exact ⟨by simpa using hret, hcalls⟩
  | cons x ps ih =>
    have hfit : w.length ≤ 1024 := by simpa using h 0 (Nat.succ_pos _)
    have hat := hnum (cons_ne_nil x ps)
    have hsize : (1024 - o.numChars) % 2 ^ 64 = 1024 - w.length := by omega
    rw [flatten_cons, ← append_assoc]
    refine ih (o := snprintf o x) ?_ (fun hps => ?_) (fun c hc => ?_) fun k hk => ?_
    · simp only [snprintf, hret, hat]
      split
      · rw [take_append_of_le_length (by omega)]
      · rw [take_append, take_take, Int.toNat_natCast, Nat.min_eq_left (by omega), take_length,
          take_of_length_le (l := w) (by omega)]
        congr 2
        omega
    · have hx := h 1 (by simpa using length_pos_iff.mpr hps)
      simp only [take_succ_cons, take_zero, flatten_cons, flatten_nil, append_nil] at hx
      simp only [snprintf, hat, if_pos (show x.length < 2 ^ 31 by omega), ← Int.natCast_add, ← length_append]
      exact int32_eq (by rw [length_append]; omega)
    · rcases mem_append.mp hc with hc | hc
      · exact hcalls c hc
      · rw [mem_singleton.mp hc, hsize, hat]
        constructor <;> dsimp only <;> omega
    · have := h (k + 1) (Nat.succ_lt_succ hk)
      rw [take_succ_cons, flatten_cons, length_append] at this
      rw [length_append]
      omega

theorem calls_subset (ps : List Bytes) (o : Output) : o.calls ⊆ (ps.foldl snprintf o).calls := by
  induction ps generalizing o with
  | nil => exact fun _ hc => hc
  | cons x ps ih => exact fun c hc => ih (snprintf o x) (mem_append_left _ hc)

/-- A call behind the array has a size that has wrapped. -/
theorem fits_of_inside {ps : List Bytes} {o : Output} {w : Bytes} (hlen : ∀ p ∈ ps, p.length < 2 ^ 31)
    (hnum : o.numChars = int32 w.length) (hw : w.length < 2 ^ 32) (h : ∀ c ∈ (ps.foldl snprintf o).calls, Inside c) :
    ∀ k < ps.length, w.length + (ps.take k).flatten.length ≤ 1024 := by
  induction ps generalizing o w with
  | nil => exact fun k hk => absurd hk k.not_lt_zero
  | cons x ps ih =>
    have hx := hlen x mem_cons_self
    have hcall : Inside (o.numChars, (1024 - o.numChars) % 2 ^ 64) :=
      h _ (calls_subset ps (snprintf o x) (mem_append_right _ (mem_singleton_self _)))
    have hfit : w.length ≤ 1024 := by
      obtain ⟨h0, h1⟩ := hcall
      have hdef := Int.bmod_def (w.length : Int) (2 ^ 32)
      rw [hnum, int32] at h0 h1
      dsimp only at h0 h1
      split at hdef <;> omega
    have hnext : (snprintf o x).numChars = int32 (w ++ x).length := by
      simp only [snprintf, hnum, if_pos hx, int32_add, length_append, Int.natCast_add]
    have hrest := ih (fun p hp => hlen p (mem_cons_of_mem x hp)) hnext (by rw [length_append]; omega) h
    intro k hk
    cases k with
    | zero => simpa using hfit
    | succ k =>
      have := hrest k (Nat.lt_of_succ_lt_succ hk)
      rw [length_append] at this
      rw [take_succ_cons, flatten_cons, length_append]
      omega

/-- **Making a magnet link** stays inside the array, and gives the first bytes of the link, exactly if all parts but the
last one fit. -/
theorem magnet_link_inside_iff {hash name : Bytes} {trackers : List Bytes}
    (hlen : ∀ p ∈ parts hash name trackers, p.length < 2 ^ 31) :
    ((∀ c ∈ (makeMagnetUri hash name trackers).calls, Inside c) ∧
      (makeMagnetUri hash name trackers).ret <+: (parts hash name trackers).flatten) ↔
      Fits (parts hash name trackers) := by
  constructor
  · rintro ⟨hcalls, -⟩ k hk
    simpa using fits_of_inside (o := {}) (w := []) hlen rfl (by decide) hcalls k hk
  · intro h
    obtain ⟨hret, hcalls⟩ := foldl_snprintf (o := {}) (w := []) rfl (fun _ => rfl) (fun _ hc => absurd hc not_mem_nil)
      fun k hk => by simpa using h k hk
    exact ⟨hcalls, hret ▸ take_prefix 1023 _⟩

theorem magnet_link_inside_iff_short : (∀ c ∈ (makeMagnetUri (bytes "A") (bytes "b") [bytes "c"]).calls, Inside c) ∧
    (makeMagnetUri (bytes "A") (bytes "b") [bytes "c"]).ret <+: (parts (bytes "A") (bytes "b") [bytes "c"]).flatten :=
  (magnet_link_inside_iff (by decide +kernel)).mpr (by unfold Fits; decide +kernel)

/-- After a name of 1024 letters the call for a tracker may write anywhere. -/
theorem link_leaves_array : ¬ ∀ c ∈ (makeMagnetUri [] (replicate 1024 97) [[]]).calls, Inside c := by
  unfold Inside
  decide +kernel

end Libtorrent.Magnet
