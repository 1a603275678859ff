import SmoothUtf8.Library.CheckedProgram

/-!
# Partial correctness of checked programs

A judgement on all finished runs of a program on one memory. A run that stops
badly satisfies it, so the rule for a check hands over the condition and the
rule for a loop needs an invariant but no measure. What is known of the runs
before a point enters through their log.
-/

set_option autoImplicit false

namespace Library.PartialCorrectness
open Library.CheckedProgram

variable {β ι ε α γ σ : Type} {m : Memory β}

/-- Every finished run of `p`, put after the log `t`, ends in `Q`. -/
structure Ensures (m : Memory β) (p : Prog β ι ε α) (t : List (Event ι))
    (Q : List (Event ι) → α → Prop) : Prop where
  finished : ∀ a u, run m p = .ok (a, u) → Q (t++u) a

theorem ensures_done {a : α} {t : List (Event ι)} {Q : List (Event ι) → α → Prop} (h : Q t a) :
    Ensures m (.done a : Prog β ι ε α) t Q := by
  constructor
  intro a' u hr
  cases hr
  rwa [List.append_nil]

theorem ensures_fault {e : ε} {t : List (Event ι)} {Q : List (Event ι) → α → Prop} :
    Ensures m (.fault e : Prog β ι ε α) t Q := by
  constructor
  intro a u hr
  cases hr

theorem Ensures.mono {p : Prog β ι ε α} {t : List (Event ι)} {Q Q' : List (Event ι) → α → Prop}
    (h : Ensures m p t Q) (hQ : ∀ u a, Q u a → Q' u a) : Ensures m p t Q' :=
  ⟨fun a u hr => hQ _ _ (h.finished a u hr)⟩

theorem Ensures.of_reaches {p q : Prog β ι ε α} {t u : List (Event ι)}
    {Q : List (Event ι) → α → Prop} (hq : Ensures m q (t++u) Q) (h : Reaches m p u q) :
    Ensures m p t Q := by
  constructor
  intro a v hr
  rw [h] at hr
  cases hrun : run m q with
  | error s =>
    rw [hrun] at hr
    cases hr
  | ok r =>
    rw [hrun] at hr
    cases hr
    rw [← List.append_assoc]
    exact hq.finished _ _ hrun

theorem Ensures.bind {p : Prog β ι ε α} {f : α → Prog β ι ε γ} {t : List (Event ι)}
    {Q : List (Event ι) → γ → Prop} (h : Ensures m p t (fun u a => Ensures m (f a) u Q)) :
    Ensures m (p >>= f) t Q := by
  constructor
  intro c v hr
  obtain ⟨a,u,w,hp,hf,rfl⟩ := run_bind_ok.mp hr
  rw [← List.append_assoc]
  exact (h.finished a u hp).finished c w hf

def Keeps (I : σ → List (Event ι) → Prop) (Q : List (Event ι) → α → Prop) (u : List (Event ι)) :
    Turn σ α → Prop
  | .again s => I s u
  | .leave a => Q u a

theorem ensures_loop {stuck : ε} {body : σ → Prog β ι ε (Turn σ α)}
    {I : σ → List (Event ι) → Prop} {Q : List (Event ι) → α → Prop}
    (hbody : ∀ s t, I s t → Ensures m (body s) t (Keeps I Q)) (n : ℕ) {s : σ}
    {t : List (Event ι)} (h : I s t) : Ensures m (loop stuck body n s) t Q := by
  induction n generalizing s t with
  | zero => exact ensures_fault
  | succ n ih =>
    apply Ensures.bind
    apply (hbody s t h).mono
    intro u r hr
    cases r with
    | again s' => exact ih hr
    | leave a => exact ensures_done hr

end Library.PartialCorrectness
