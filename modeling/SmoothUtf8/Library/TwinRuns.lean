import SmoothUtf8.Library.CheckedProgram

/-!
# Twin runs

Two programs on two memories, compared on their finished runs. Twins end in
related values and log the same events up to a renaming. Where both runs have
passed a check both conditions hold; where they branch the two conditions must
agree, and two loops stay twins while their passes do.
-/

set_option autoImplicit false

namespace Library.TwinRuns
open Library.CheckedProgram

variable {β ι ε α α' γ γ' σ σ' : Type} {m m' : Memory β} {ρ : Event ι → Event ι}

structure Twins (m m' : Memory β) (ρ : Event ι → Event ι) (p : Prog β ι ε α)
    (p' : Prog β ι ε α') (V : α → α' → Prop) : Prop where
  finished : ∀ a u a' u', run m p = .ok (a, u) → run m' p' = .ok (a', u') →
    V a a' ∧ u' = u.map ρ

theorem twins_done {a : α} {a' : α'} {V : α → α' → Prop} (h : V a a') :
    Twins m m' ρ (.done a : Prog β ι ε α) (.done a') V := by
  constructor
  intro b u b' u' hr hr'
  cases hr
  cases hr'
  exact ⟨h,rfl⟩

theorem twins_stuck {e e' : ε} {V : α → α' → Prop} :
    Twins m m' ρ (.fault e : Prog β ι ε α) (.fault e') V := by
  constructor
  intro a u a' u' hr
  cases hr

theorem Twins.bind {p : Prog β ι ε α} {p' : Prog β ι ε α'} {f : α → Prog β ι ε γ}
    {f' : α' → Prog β ι ε γ'} {V : α → α' → Prop} {W : γ → γ' → Prop}
    (h : Twins m m' ρ p p' V) (hf : ∀ a a', V a a' → Twins m m' ρ (f a) (f' a') W) :
    Twins m m' ρ (p >>= f) (p' >>= f') W := by
  constructor
  intro c v c' v' hr hr'
  obtain ⟨a,u,w,hp,hfa,rfl⟩ := run_bind_ok.mp hr
  obtain ⟨a',u',w',hp',hfa',rfl⟩ := run_bind_ok.mp hr'
  obtain ⟨hV,rfl⟩ := h.finished a u a' u' hp hp'
  obtain ⟨hW,rfl⟩ := (hf a a' hV).finished c w c' w' hfa hfa'
  exact ⟨hW,by rw [List.map_append]⟩

/-- Programs that come to twins with twin logs on the way are twins. -/
theorem Twins.of_reaches {p q : Prog β ι ε α} {p' q' : Prog β ι ε α'} {t t' : List (Event ι)}
    {V : α → α' → Prop} (h : Twins m m' ρ q q' V) (hp : Reaches m p t q)
    (hp' : Reaches m' p' t' q') (ht : t' = t.map ρ) : Twins m m' ρ p p' V := by
  constructor
  intro a u a' u' hr hr'
  rw [hp] at hr
  rw [hp'] at hr'
  rcases hq : run m q with s | ⟨b,v⟩
  · rw [hq] at hr
    cases hr
  · rcases hq' : run m' q' with s | ⟨b',v'⟩
    · rw [hq'] at hr'
      cases hr'
    · rw [hq] at hr
      rw [hq'] at hr'
      cases hr
      cases hr'
      obtain ⟨hV,rfl⟩ := h.finished _ v _ v' hq hq'
      exact ⟨hV,by rw [ht, List.map_append]⟩

theorem twins_check {c c' : Prop} [Decidable c] [Decidable c'] {e e' : ε}
    {f : Unit → Prog β ι ε γ} {f' : Unit → Prog β ι ε γ'} {V : γ → γ' → Prop}
    (h : c → c' → Twins m m' ρ (f ()) (f' ()) V) :
    Twins m m' ρ (Prog.check c e >>= f) (Prog.check c' e' >>= f') V := by
  constructor
  intro a u a' u' hr hr'
  rw [Prog.check] at hr hr'
  by_cases hc : c
  · by_cases hc' : c'
    · rw [if_pos hc] at hr
      rw [if_pos hc'] at hr'
      exact (h hc hc').finished a u a' u' hr hr'
    · rw [if_neg hc'] at hr'
      cases hr'
  · rw [if_neg hc] at hr
    cases hr

theorem twins_ite {c c' : Prop} [Decidable c] [Decidable c'] {p q : Prog β ι ε α}
    {p' q' : Prog β ι ε α'} {V : α → α' → Prop} (hc : c ↔ c') (hp : c → Twins m m' ρ p p' V)
    (hq : ¬ c → Twins m m' ρ q q' V) :
    Twins m m' ρ (if c then p else q) (if c' then p' else q') V := by
  by_cases h : c
  · rw [if_pos h, if_pos (hc.mp h)]
    exact hp h
  · rw [if_neg h, if_neg (fun h' => h (hc.mpr h'))]
    exact hq h

theorem twins_note {x x' : ι} {f : Unit → Prog β ι ε γ} {f' : Unit → Prog β ι ε γ'}
    {V : γ → γ' → Prop} (hx : ρ (.mark x) = .mark x') (h : Twins m m' ρ (f ()) (f' ()) V) :
    Twins m m' ρ (Prog.note x >>= f) (Prog.note x' >>= f') V :=
  h.of_reaches ((reaches_note m x).then f) ((reaches_note m' x').then f')
    (congrArg (fun e => [e]) hx.symm)

def Agree (I : σ → σ' → Prop) (V : α → α' → Prop) : Turn σ α → Turn σ' α' → Prop
  | .again s, .again s' => I s s'
  | .leave a, .leave a' => V a a'
  | _, _ => False

theorem twins_loop {stuck stuck' : ε} {body : σ → Prog β ι ε (Turn σ α)}
    {body' : σ' → Prog β ι ε (Turn σ' α')} {I : σ → σ' → Prop} {V : α → α' → Prop}
    (hbody : ∀ s s', I s s' → Twins m m' ρ (body s) (body' s') (Agree I V)) (n : ℕ) {s : σ}
    {s' : σ'} (h : I s s') :
    Twins m m' ρ (loop stuck body n s) (loop stuck' body' n s') V := by
  induction n generalizing s s' with
  | zero => exact twins_stuck
  | succ n ih =>
    apply (hbody s s' h).bind
    intro r r' hr
    cases r with
    | again t =>
      cases r' with
      | again t' => exact ih hr
      | leave a' => exact hr.elim
    | leave a =>
      cases r' with
      | again t' => exact hr.elim
      | leave a' => exact twins_done hr

end Library.TwinRuns
