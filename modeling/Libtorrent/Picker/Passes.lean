import Libtorrent.Picker.Additions

/-!
# The passes of `pick_pieces` as one walk

`Reaches vs a` says that the picks `a` come about by the visits `vs`, with back-up blocks moved up in between. All
passes of `pick_pieces` together are such a walk (`reaches_end`), and its result are the blocks of the last picks and at
most one busy block (`pickPieces_end`). So what a visit and a move keep, the result has:

* `Reaches.blocks`: all blocks are among those that the visits offer; * `Reaches.budget`: the blocks picked and the
blocks still to pick are as many as asked for; * `Reaches.covered`: a block that was offered is there, or there are
enough others.
-/

namespace Libtorrent.Picker

open Run List

/-- The blocks picked so far, the back-up blocks included. -/
def Picks.blocks (a : Picks) : List PieceBlock := a.interesting ++ a.backup ++ a.backup2

namespace PiecePicker

variable {s t : PiecePicker} {args : PickArgs} {prefer : Nat} {a a₀ : Picks} {v : Visit} {vs : List Visit}
  {b : PieceBlock}

/-! ## Pickers that differ in the index -/

section Refiled

variable (R : Refiled s t)
include R

theorem Refiled.flags (k : Nat) : (t.pos k).downloading = (s.pos k).downloading ∧ (t.pos k).full = (s.pos k).full ∧
    (t.pos k).piecePriority = (s.pos k).piecePriority ∧ (t.pos k).filtered = (s.pos k).filtered := by
  obtain ⟨h, -⟩ := R.pos k
  exact ⟨(congrArg PiecePos.downloading h :), (congrArg PiecePos.full h :), (congrArg PiecePos.piecePriority h :),
    (congrArg PiecePos.filtered h :)⟩

theorem Refiled.blocksInPiece (k : Nat) : t.blocksInPiece k = s.blocksInPiece k := by
  obtain ⟨h1, h2, h3⟩ := (SameBook.of_refiled R).shape
  rw [PiecePicker.blocksInPiece, PiecePicker.blocksInPiece, h1, h2, h3]

theorem Refiled.blockOf : t.blockOf = s.blockOf := by
  obtain ⟨⟨ps, bs, m, d, rfl, -⟩, -⟩ := R
  rfl

theorem Refiled.downloads : t.downloads = s.downloads := by
  obtain ⟨⟨ps, bs, m, d, rfl, -⟩, -⟩ := R
  rfl

theorem Refiled.requestedFrom (dp : DownloadingPiece) (peer : PeerPtr) : ∀ (js : List Nat) (e : Bool),
    t.requestedFrom dp peer js e = s.requestedFrom dp peer js e
  | [], e => rfl
  | j :: js, e => by
    simp only [PiecePicker.requestedFrom, R.blockOf, Refiled.requestedFrom dp peer js]

theorem Refiled.freeBlocks (dp : DownloadingPiece) : t.freeBlocks dp = s.freeBlocks dp := by
  rw [PiecePicker.freeBlocks, PiecePicker.freeBlocks, R.blocksInPiece, R.blockOf]

theorem Refiled.visit (a : Picks) (v : Visit) : t.visit args prefer a v = s.visit args prefer a v := by
  cases v with
  | part dp =>
    show t.addBlocksDownloading args prefer dp a = s.addBlocksDownloading args prefer dp a
    rw [addBlocksDownloading, addBlocksDownloading, R.requestedFrom, R.freeBlocks, R.blocksInPiece, (R.flags _).2.2.2]
  | whole ks =>
    have htake : t.takeFrom prefer = s.takeFrom prefer := by
      funext a k
      rw [takeFrom, takeFrom, R.blocksInPiece]
    show (ks.foldl (t.takeFrom prefer) a).clamp = (ks.foldl (s.takeFrom prefer) a).clamp
    rw [htake]

theorem Refiled.isPieceFree (k : Nat) (bits : Bitfield) : t.isPieceFree k bits = s.isPieceFree k bits := by
  rw [PiecePicker.isPieceFree, PiecePicker.isPieceFree, (R.pos k).2, (R.flags k).2.2.2]

theorem Refiled.canPick (k : Nat) (bits : Bitfield) : t.canPick k bits = s.canPick k bits := by
  rw [PiecePicker.canPick, PiecePicker.canPick, (R.pos k).2, (R.flags k).2.2.2, (R.flags k).1]

theorem Refiled.due (hv : t.Due args prefer v) : s.Due args prefer v := by
  cases v with
  | part => exact ⟨R.downloads ▸ hv.1, by rw [← R.isPieceFree]; exact hv.2⟩
  | whole => exact ⟨fun k hk => by rw [← R.canPick]; exact hv.1 k hk, hv.2⟩

theorem Refiled.busyBlocks : ∀ dps : List DownloadingPiece, t.busyBlocks args dps = s.busyBlocks args dps
  | [] => rfl
  | dp :: rest => by
    simp only [PiecePicker.busyBlocks, (R.flags _).2.2.1, R.blocksInPiece, R.blockOf, Refiled.busyBlocks rest]

end Refiled

variable (args) in
theorem prepared_refiled (h : Sound s) (shuffles : Nat → Nat) :
    Sound (s.prepared args shuffles) ∧ Refiled s (s.prepared args shuffles) := by
  have h0 := (s.pickAll_eq args 0 shuffles 0 (a := ⟨[], [], [], 0⟩) (Int.le_refl 0)).1
  rw [← h0]
  exact pickAll_sound h args 0 shuffles _

/-! ## Walks -/

/-- The picks `a` come from `a₀` by the visits `vs`, with back-up blocks moved up in between. -/
inductive Reaches (s : PiecePicker) (args : PickArgs) (prefer : Nat) (a₀ : Picks) : List Visit → Picks → Prop
  | start : Reaches s args prefer a₀ [] a₀
  | visit {vs : List Visit} {a : Picks} {v : Visit} : Reaches s args prefer a₀ vs a → s.Ready args prefer a v →
      Reaches s args prefer a₀ (vs ++ [v]) (s.visit args prefer a v)
  | backup {vs : List Visit} {a : Picks} : Reaches s args prefer a₀ vs a → 0 < a.numBlocks →
      Reaches s args prefer a₀ vs a.appendBackup
  | backup2 {vs : List Visit} {a : Picks} : Reaches s args prefer a₀ vs a → 0 < a.numBlocks →
      Reaches s args prefer a₀ vs a.appendBackup2

namespace Reaches

theorem run : ∀ {ws : List Visit} {a : Picks} {vs : List Visit}, s.Reaches args prefer a₀ vs a →
    Legal (s.visit args prefer) (s.Ready args prefer) a ws →
    s.Reaches args prefer a₀ (vs ++ ws) (Run.run (s.visit args prefer) a ws)
  | [], a, vs, h, _ => by simpa using h
  | w :: ws, a, vs, h, hl => by
    have := Reaches.run (h.visit hl.1) hl.2
    rwa [append_assoc] at this

section

variable (h : s.Reaches args prefer a₀ vs a)
include h

theorem flush (ha : 0 < a.numBlocks) : s.Reaches args prefer a₀ vs a.flush := by
  unfold Picks.flush
  dsimp only
  split
  · exact h.backup ha
  · exact (h.backup ha).backup2 (by omega)

theorem due : ∀ v ∈ vs, s.Due args prefer v := by
  induction h with
  | start => exact fun v hv => absurd hv not_mem_nil
  | visit _ hr ih =>
    intro v hv
    rcases mem_append.mp hv with hv | hv
    · exact ih v hv
    · rw [mem_singleton.mp hv]
      exact hr.2
  | backup _ _ ih => exact ih
  | backup2 _ _ ih => exact ih

theorem nonneg (h0 : 0 ≤ a₀.numBlocks) : 0 ≤ a.numBlocks := by
  induction h with
  | start => exact h0
  | visit _ hr =>
    obtain ⟨l1, l2, l3, G⟩ := visit_gains hr.2 hr.1
    rw [G.count]
    exact le_max_right _ _
  | backup =>
    simp only [Picks.appendBackup]
    omega
  | backup2 =>
    simp only [Picks.appendBackup2]
    omega

theorem blocks : a.blocks.Subperm (a₀.blocks ++ vs.flatMap s.offered) := by
  induction h with
  | start => simpa using List.Subperm.refl _
  | @visit vs a v h hr ih =>
    obtain ⟨l1, l2, l3, G⟩ := visit_gains hr.2 hr.1
    have hperm : (s.visit args prefer a v).blocks.Perm (a.blocks ++ (l1 ++ l2 ++ l3)) := by
      rw [Picks.blocks, Picks.blocks, G.interesting, G.backup, G.backup2, perm_iff_count]
      intro x
      simp only [count_append]
      omega
    have hoff : (a.blocks ++ (l1 ++ l2 ++ l3)).Subperm (a₀.blocks ++ vs.flatMap s.offered ++ s.offered v) :=
      ih.append G.offered.sublist.subperm
    simp only [flatMap_append, flatMap_cons, flatMap_nil, append_nil, ← append_assoc]
    exact hperm.subperm.trans hoff
  | @backup vs a h ha ih =>
    refine List.Subperm.trans ?_ ih
    have : a.appendBackup.blocks.Sublist a.blocks := by
      simp only [Picks.blocks, Picks.appendBackup, append_nil]
      exact ((take_sublist _ _).append_left _).append_right _
    exact this.subperm
  | @backup2 vs a h ha ih =>
    refine List.Subperm.trans ?_ ih
    have : a.appendBackup2.blocks.Perm (a.interesting ++ a.backup ++ a.backup2.take
        (min (a.backup2.length : Int) a.numBlocks).toNat) := by
      rw [Picks.blocks, Picks.appendBackup2, perm_iff_count]
      intro x
      simp only [count_append, count_nil]
      omega
    exact this.subperm.trans ((take_sublist _ _).append_left _).subperm

end

theorem budget (h : s.Reaches args 0 a₀ vs a) :
    (a.interesting.length : Int) + a.numBlocks = a₀.interesting.length + a₀.numBlocks := by
  induction h with
  | start => rfl
  | visit _ hr ih =>
    obtain ⟨l1, l2, l3, G⟩ := visit_gains hr.2 hr.1
    have := G.budget rfl
    rw [G.count, G.interesting, length_append, ← ih]
    push_cast
    omega
  | backup _ ha ih =>
    rw [← ih]
    simp only [Picks.appendBackup, length_append, length_take]
    push_cast
    omega
  | backup2 _ ha ih =>
    rw [← ih]
    simp only [Picks.appendBackup2, length_append, length_take]
    push_cast
    omega

/-- A block that was offered is there, or there are enough others. -/
def Settled (a : Picks) (b : PieceBlock) : Prop := b ∈ a.blocks ∨ a.numBlocks ≤ 0 ∨ Stocked a

theorem settled_backup (h : Settled a b) (ha : 0 < a.numBlocks) : Settled a.appendBackup b := by
  have hnum : a.appendBackup.numBlocks = a.numBlocks - min (a.backup.length : Int) a.numBlocks := rfl
  rcases h with h | h | h | h
  · by_cases hle : a.numBlocks ≤ a.backup.length
    · exact .inr (.inl (by omega))
    · -- all back-up blocks are moved
      left
      have htake : a.backup.take (min (a.backup.length : Int) a.numBlocks).toNat = a.backup :=
        take_of_length_le (by omega)
      simpa [Picks.blocks, Picks.appendBackup, htake, or_assoc] using h
  · omega
  · exact .inr (.inl (by omega))
  · exact .inr (.inr (.inr (by rw [hnum]; exact Int.le_trans (by omega) h)))

theorem settled_backup2 (h : Settled a b) (ha : 0 < a.numBlocks) : Settled a.appendBackup2 b := by
  have hnum : a.appendBackup2.numBlocks = a.numBlocks - min (a.backup2.length : Int) a.numBlocks := rfl
  rcases h with h | h | h | h
  · by_cases hle : a.numBlocks ≤ a.backup2.length
    · exact .inr (.inl (by omega))
    · left
      have htake : a.backup2.take (min (a.backup2.length : Int) a.numBlocks).toNat = a.backup2 :=
        take_of_length_le (by omega)
      simp only [Picks.blocks, mem_append] at h
      simp only [Picks.blocks, Picks.appendBackup2, htake, mem_append, not_mem_nil]
      tauto
  · omega
  · exact .inr (.inr (.inl (by rw [hnum]; exact Int.le_trans (by omega) h)))
  · exact .inr (.inl (by omega))

theorem covered (h : s.Reaches args 0 a₀ vs a) (hparole : args.options.onParole = false) (hv : v ∈ vs)
    (hb : b ∈ s.offered v) : Settled a b := by
  induction h with
  | start => exact absurd hv not_mem_nil
  | @visit vs a w h hr ih =>
    obtain ⟨l1, l2, l3, G⟩ := visit_gains hr.2 hr.1
    have hle : (s.visit args 0 a w).numBlocks ≤ a.numBlocks := by
      have := hr.1
      rw [G.count]
      omega
    rcases mem_append.mp hv with hv | hv
    · rcases ih hv with h | h | h | h
      · left
        simp only [Picks.blocks, G.interesting, G.backup, G.backup2, mem_append] at h ⊢
        tauto
      · exact .inr (.inl (by omega))
      · exact .inr (.inr (.inl (by rw [G.backup, length_append]; push_cast; omega)))
      · exact .inr (.inr (.inr (by rw [G.backup2, length_append]; push_cast; omega)))
    rw [mem_singleton.mp hv] at hb
    rcases G.complete rfl hparole with hall | h | h
    · left
      rw [← hall] at hb
      simp only [Picks.blocks, G.interesting, G.backup, G.backup2, mem_append] at hb ⊢
      tauto
    · exact .inr (.inl h)
    · exact .inr (.inr h)
  | backup _ ha ih => exact settled_backup (ih hv) ha
  | backup2 _ ha ih => exact settled_backup2 (ih hv) ha

theorem settled_flush (h : Settled a b) (ha : 0 < a.numBlocks) : b ∈ a.flush.interesting ∨ a.flush.numBlocks ≤ 0 := by
  have h1 := settled_backup h ha
  unfold Picks.flush
  dsimp only
  split
  · rename_i hle
    exact .inr hle
  rcases settled_backup2 h1 (by omega) with h | h | h | h
  · left
    simpa [Picks.blocks, Picks.appendBackup2, Picks.appendBackup] using h
  · exact .inr h
  · right
    simpa [Picks.appendBackup2, Picks.appendBackup] using h
  · right
    simpa [Picks.appendBackup2] using h

end Reaches

/-! ## The walk of `pick_pieces` -/

section Walk

variable (s) (args : PickArgs) (interesting : List PieceBlock) (shuffles : Nat → Nat) (rnd rnd' : Nat)

def firstVisits : List Visit :=
  let args' := s.effectiveArgs args
  (if args'.options.prioritizePartials then
      s.partialVisits args' (s.preferOf args) s.downloads (picksStart args interesting) else []) ++
    s.suggestedVisits args' (s.preferOf args) (s.afterPartials args' (s.preferOf args) (picksStart args interesting))

def allVisits : List Visit :=
  s.firstVisits args interesting ++
    if (s.picksFirst args interesting).numBlocks ≤ 0 then []
    else (s.prepared (s.effectiveArgs args) shuffles).mainVisits (s.effectiveArgs args) (s.preferOf args) rnd
      (s.picksFirst args interesting)

def picksEnd : Picks :=
  if (s.picksFirst args interesting).numBlocks ≤ 0 then s.picksFirst args interesting
  else if (s.picksAll args interesting shuffles rnd).numBlocks ≤ 0 then s.picksAll args interesting shuffles rnd
  else (s.picksAll args interesting shuffles rnd).flush

def busyTail (a : Picks) : List PieceBlock :=
  let temp := s.busyBlocks (s.effectiveArgs args) s.downloads
  if a.numBlocks ≤ 0 ∨ (s.effectiveArgs args).options.onParole ∨ temp = [] then []
  else [temp.getD (rnd' % temp.length) (PieceBlock.of 0 0)]

variable {s args}

theorem reaches_partials (hn : 0 < args.numBlocks) :
    s.Reaches (s.effectiveArgs args) (s.preferOf args) (picksStart args interesting)
      (if (s.effectiveArgs args).options.prioritizePartials then
        s.partialVisits (s.effectiveArgs args) (s.preferOf args) s.downloads (picksStart args interesting) else [])
      (s.afterPartials (s.effectiveArgs args) (s.preferOf args) (picksStart args interesting)) := by
  unfold afterPartials
  split
  · have h := Reaches.start.run (partialVisits_ready (s.effectiveArgs args) (s.preferOf args)
      s.downloads (picksStart args interesting) (fun _ h => h) hn)
    rw [nil_append] at h
    dsimp only
    split
    · exact h
    · exact h.flush (by omega)
  · exact .start

theorem reaches_first (hn : 0 < args.numBlocks) :
    s.Reaches (s.effectiveArgs args) (s.preferOf args) (picksStart args interesting) (s.firstVisits args interesting)
      (s.picksFirst args interesting) := by
  refine (reaches_partials interesting hn).run ?_
  unfold suggestedVisits
  split
  · exact trivial
  · exact eachVisits_ready _ _ _ (by omega)

theorem reaches_all (h : Sound s) (hn : 0 < args.numBlocks) (hpos : 0 < (s.picksFirst args interesting).numBlocks) :
    s.Reaches (s.effectiveArgs args) (s.preferOf args) (picksStart args interesting)
      (s.allVisits args interesting shuffles rnd) (s.picksAll args interesting shuffles rnd) := by
  obtain ⟨-, R⟩ := prepared_refiled (s.effectiveArgs args) h shuffles
  have hvisit : (s.prepared (s.effectiveArgs args) shuffles).visit (s.effectiveArgs args) (s.preferOf args) =
      s.visit (s.effectiveArgs args) (s.preferOf args) := funext fun a => funext fun v => R.visit a v
  have hmain := mainVisits_ready (s := s.prepared (s.effectiveArgs args) shuffles) (s.effectiveArgs args)
    (s.preferOf args) rnd hpos
  rw [hvisit] at hmain
  rw [allVisits, if_neg (by omega), picksAll, hvisit]
  exact (reaches_first interesting hn).run (hmain.mono fun a v hr => ⟨hr.1, R.due hr.2⟩)

theorem reaches_end (h : Sound s) (hn : 0 < args.numBlocks) :
    s.Reaches (s.effectiveArgs args) (s.preferOf args) (picksStart args interesting)
      (s.allVisits args interesting shuffles rnd) (s.picksEnd args interesting shuffles rnd) := by
  unfold picksEnd
  split
  · rename_i hle
    rw [allVisits, if_pos hle, append_nil]
    exact reaches_first interesting hn
  have hall := reaches_all interesting shuffles rnd h hn (by omega)
  split
  · exact hall
  · exact hall.flush (by omega)

section

variable (C : Consistent s)
include C

theorem not_full_of_free (hr : s.InRange b) (hfree : (s.status b).1 = .none)
    (hd : (s.pos b.pieceIndex).downloading = true) : (s.pos b.pieceIndex).full = false := by
  by_contra hfull
  rw [C.ledger.flag, Option.isSome_iff_exists] at hd
  obtain ⟨r, hbook⟩ := hd
  rw [status, hbook] at hfree
  exact C.full _ r hbook (by simpa using hfull) _ hr.2 hfree

theorem freeBlocks_of_full {dp : DownloadingPiece} (hdp : dp ∈ s.downloads)
    (hfull : (s.pos dp.index).full = true) : s.freeBlocks dp = [] := by
  by_contra hne
  obtain ⟨b, hb⟩ := exists_mem_of_ne_nil (s.offered (.part dp)) (by simpa [offered] using hne)
  obtain ⟨h1, h2, h3⟩ := (mem_offered_part C hdp).mp hb
  have hr : s.InRange b := ⟨by rw [h1]; exact lt_of_part C hdp, by rw [h1]; exact h2⟩
  have := not_full_of_free C hr h3 (by rw [h1]; exact downloading_of_part C hdp)
  rw [h1, hfull] at this
  cases this

theorem repickFull_eq (prefer : Nat) (a : Picks) : s.repickFull args prefer a = a := by
  have hone : ∀ dp ∈ s.downloads, (s.pos dp.index).full = true → ∀ c : Picks,
      (s.addBlocksDownloading args prefer dp c).backup = c.backup ∧
        (s.addBlocksDownloading args prefer dp c).backup2 = c.backup2 := by
    intro dp hdp hfull c
    rw [addBlocksDownloading, freeBlocks_of_full C hdp hfull]
    simp only [pickFreeBlocks, map_nil, append_nil]
    repeat' split
    all_goals exact ⟨rfl, rfl⟩
  have hall : ∀ dps : List DownloadingPiece, (∀ dp ∈ dps, dp ∈ s.downloads) → dps.foldl (fun a dp =>
      if !args.pieces.getD dp.index false || !(s.pos dp.index).full then a
      else
        let b := s.addBlocksDownloading args prefer dp { a with interesting := [] }
        { a with backup := b.backup, backup2 := b.backup2 }) a = a := by
    intro dps
    induction dps with
    | nil => exact fun _ => rfl
    | cons dp rest ih =>
      intro hdps
      rw [foldl_cons]
      have hstep : (if !args.pieces.getD dp.index false || !(s.pos dp.index).full then a else
            let b := s.addBlocksDownloading args prefer dp { a with interesting := [] }
            { a with backup := b.backup, backup2 := b.backup2 }) = a := by
        split
        · rfl
        rename_i hcond
        obtain ⟨h1, h2⟩ := hone dp (hdps dp mem_cons_self) (by simp at hcond; exact hcond.2)
          { a with interesting := [] }
        dsimp only
        rw [h1, h2]
      rw [hstep]
      exact ih fun d hd => hdps d (mem_cons_of_mem dp hd)
  exact hall s.downloads fun _ h => h

theorem pickPieces_end :
    (s.pickPieces args interesting shuffles rnd rnd').2 = (s.picksEnd args interesting shuffles rnd).interesting ++
      s.busyTail args rnd' (s.picksEnd args interesting shuffles rnd) := by
  obtain ⟨hsound, R⟩ := prepared_refiled (s.effectiveArgs args) C.orderly.1 shuffles
  have Ct := C.of_refiled R hsound
  rw [pickPieces_eq]
  unfold picksEnd
  split
  · rename_i hle
    simp [busyTail, hle]
  split
  · rename_i hle
    simp [busyTail, hle]
  rw [pickBackups, repickFull_eq Ct, R.busyBlocks, R.downloads]
  unfold Picks.flush busyTail
  dsimp only
  split
  · rename_i hle
    simp [hle]
  · split <;> simp

end

end Walk

end PiecePicker

end Libtorrent.Picker
