import Mathlib.Tactic.Common

/-!
# Runs of a deterministic machine

`run step s as` feeds the inputs `as` to a machine; `Legal` says that every input meets its precondition in the state
it is given to, `Always P` that `P` holds before the first input and after every input.

* `always_of_step`: an inductive invariant holds along every legal run;
* `always_iff_legal`: when a step from a good state keeps `P` exactly if the input meets `ok`, a whole run keeps `P`
  exactly if all its inputs do.
-/

namespace Libtorrent.Run

variable {σ α : Type} (step : σ → α → σ)

/-- The state after the inputs. -/
def run (s : σ) (as : List α) : σ := as.foldl step s

/-- Every input meets `pre` in the state it is given to. -/
def Legal (pre : σ → α → Prop) : σ → List α → Prop
  | _, [] => True
  | s, a :: as => pre s a ∧ Legal pre (step s a) as

/-- `P` holds in every state of the run. -/
def Always (P : σ → Prop) : σ → List α → Prop
  | s, [] => P s
  | s, a :: as => P s ∧ Always P (step s a) as

variable {step} {P Q : σ → Prop} {pre ok : σ → α → Prop}

instance Legal.decidable [∀ s a, Decidable (pre s a)] : ∀ (s : σ) (as : List α), Decidable (Legal step pre s as)
  | _, [] => isTrue trivial
  | s, a :: as => @instDecidableAnd _ _ inferInstance (Legal.decidable (step s a) as)

@[simp] theorem run_nil (s : σ) : run step s [] = s := rfl

@[simp] theorem run_cons (s : σ) (a : α) (as : List α) : run step s (a :: as) = run step (step s a) as := rfl

theorem run_append (s : σ) (as bs : List α) : run step s (as ++ bs) = run step (run step s as) bs := by
  simp [run]

theorem Always.head {s : σ} : ∀ {as : List α}, Always step P s as → P s
  | [], h => h
  | _ :: _, h => h.1

theorem Always.last : ∀ {s : σ} {as : List α}, Always step P s as → P (run step s as)
  | _, [], h => h
  | s, a :: _, h => Always.last (s := step s a) h.2

theorem Always.mono (hPQ : ∀ s, P s → Q s) : ∀ {s : σ} {as : List α}, Always step P s as → Always step Q s as
  | _, [], h => hPQ _ h
  | _, _ :: _, h => ⟨hPQ _ h.1, Always.mono hPQ h.2⟩

/-- **The invariant rule.** -/
theorem always_of_step (hstep : ∀ s a, P s → pre s a → P (step s a)) :
    ∀ {s : σ} {as : List α}, P s → Legal step pre s as → Always step P s as
  | _, [], h, _ => h
  | _, _ :: _, h, hl => ⟨h, always_of_step hstep (hstep _ _ h hl.1) hl.2⟩

theorem inv_run (hstep : ∀ s a, P s → pre s a → P (step s a)) {s : σ} {as : List α} (h : P s)
    (hl : Legal step pre s as) : P (run step s as) :=
  (always_of_step hstep h hl).last

theorem inv_run_all (hstep : ∀ s a, P s → P (step s a)) {s : σ} (h : P s) : ∀ as : List α, P (run step s as)
  | [] => h
  | a :: as => inv_run_all hstep (hstep s a h) as

/-- **The exactness rule**: as long as `P` holds every legal step keeps `Q`, and a legal step from a `Q`-state keeps `P`
exactly when it meets `ok`. -/
theorem always_iff_legal (hQ : ∀ s a, Q s → P s → pre s a → Q (step s a))
    (hP : ∀ s a, Q s → P s → pre s a → (P (step s a) ↔ ok s a)) :
    ∀ {s : σ} {as : List α}, Q s → P s → Legal step pre s as → (Always step P s as ↔ Legal step ok s as)
  | _, [], _, h, _ => ⟨fun _ => trivial, fun _ => h⟩
  | s, a :: as, hq, h, hl => by
    constructor
    · rintro ⟨-, ha⟩
      have hok := (hP s a hq h hl.1).mp ha.head
      exact ⟨hok, (always_iff_legal hQ hP (hQ s a hq h hl.1) ha.head hl.2).mp ha⟩
    · rintro ⟨hok, ho⟩
      have hp := (hP s a hq h hl.1).mpr hok
      exact ⟨h, (always_iff_legal hQ hP (hQ s a hq h hl.1) hp hl.2).mpr ho⟩

/-- The exactness rule for steps: a legal step from a `Q`-state meets `good` exactly when it meets `ok`, and then it
keeps `Q`. -/
theorem legal_iff_legal {good : σ → α → Prop} (hQ : ∀ s a, Q s → pre s a → ok s a → Q (step s a))
    (hok : ∀ s a, Q s → pre s a → (good s a ↔ ok s a)) :
    ∀ {s : σ} {as : List α}, Q s → Legal step pre s as → (Legal step good s as ↔ Legal step ok s as)
  | _, [], _, _ => Iff.rfl
  | s, a :: as, hq, hl => by
    constructor
    · rintro ⟨hg, hgs⟩
      have h := (hok s a hq hl.1).mp hg
      exact ⟨h, (legal_iff_legal hQ hok (hQ s a hq hl.1 h) hl.2).mp hgs⟩
    · rintro ⟨h, hs⟩
      exact ⟨(hok s a hq hl.1).mpr h, (legal_iff_legal hQ hok (hQ s a hq hl.1 h) hl.2).mpr hs⟩

theorem Legal.mono (h : ∀ s a, pre s a → ok s a) : ∀ {s : σ} {as : List α}, Legal step pre s as → Legal step ok s as
  | _, [], _ => trivial
  | _, _ :: _, hl => ⟨h _ _ hl.1, Legal.mono h hl.2⟩

theorem Legal.and : ∀ {s : σ} {as : List α}, Legal step pre s as → Legal step ok s as →
    Legal step (fun s a => pre s a ∧ ok s a) s as
  | _, [], _, _ => trivial
  | _, _ :: _, h1, h2 => ⟨⟨h1.1, h2.1⟩, Legal.and h1.2 h2.2⟩

theorem legal_append : ∀ {s : σ} {as bs : List α},
    Legal step pre s (as ++ bs) ↔ Legal step pre s as ∧ Legal step pre (run step s as) bs
  | _, [], _ => by simp [Legal]
  | s, a :: as, bs => by
    rw [List.cons_append, Legal, Legal, legal_append, run_cons, and_assoc]

theorem Legal.strengthen (hstep : ∀ s a, P s → pre s a → P (step s a)) (hok : ∀ s a, P s → pre s a → ok s a) :
    ∀ {s : σ} {as : List α}, Legal step pre s as → P s → Legal step ok s as
  | _, [], _, _ => trivial
  | _, _ :: _, hl, h => ⟨hok _ _ h hl.1, Legal.strengthen hstep hok hl.2 (hstep _ _ h hl.1)⟩

end Libtorrent.Run
