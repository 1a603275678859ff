import Mathlib.Data.List.Basic
import Mathlib.Tactic.Common

/-!
# Services

A service keeps a state and answers one request after another. One service
refines another when they answer every allowed request alike and stay related.
Whole histories of requests are then answered alike. A service that requires
something of each request may be guarded: the guard refuses what is not allowed
and lets every history pass that meets the requirement all along.
-/

set_option autoImplicit false

namespace Library.Service

variable {σ τ ρ α : Type}

def answers (serve : σ → ρ → σ × α) : σ → List ρ → List α
  | _, [] => []
  | s, r::rs => (serve s r).2::answers serve (serve s r).1 rs

def final (serve : σ → ρ → σ × α) : σ → List ρ → σ
  | s, [] => s
  | s, r::rs => final serve (serve s r).1 rs

theorem forall_answers {P : α → Prop} {serve : σ → ρ → σ × α} (h : ∀ s r, P (serve s r).2)
    (s : σ) (rs : List ρ) : ∀ a ∈ answers serve s rs, P a := by
  induction rs generalizing s with
  | nil => simp [answers]
  | cons r rs ih => exact List.forall_mem_cons.mpr ⟨h s r,ih _⟩

def Refines (R : σ → τ → Prop) (allowed : ρ → Prop) (serve : σ → ρ → σ × α)
    (spec : τ → ρ → τ × α) : Prop :=
  ∀ s t r, R s t → allowed r → (serve s r).2 = (spec t r).2 ∧ R (serve s r).1 (spec t r).1

theorem Refines.history {R : σ → τ → Prop} {allowed : ρ → Prop} {serve : σ → ρ → σ × α}
    {spec : τ → ρ → τ × α} (h : Refines R allowed serve spec) {s : σ} {t : τ} (hst : R s t)
    (rs : List ρ) (hrs : ∀ r ∈ rs, allowed r) :
    answers serve s rs = answers spec t rs ∧ R (final serve s rs) (final spec t rs) := by
  induction rs generalizing s t with
  | nil => exact ⟨rfl,hst⟩
  | cons r rs ih =>
    have hr : allowed r := hrs r (by simp)
    obtain ⟨hanswer,hnext⟩ := h s t r hst hr
    obtain ⟨hrest,hfinal⟩ := ih hnext (fun q hq => hrs q (by simp [hq]))
    exact ⟨by rw [answers, answers, hanswer, hrest],hfinal⟩

def Meets (requires : τ → ρ → Prop) (spec : τ → ρ → τ × α) : τ → List ρ → Prop
  | _, [] => True
  | t, r::rs => requires t r ∧ Meets requires spec (spec t r).1 rs

def guarded (requires : τ → ρ → Prop) [∀ t r, Decidable (requires t r)] (refusal : α)
    (spec : τ → ρ → τ × α) (t : τ) (r : ρ) : τ × α :=
  if requires t r then spec t r else (t, refusal)

section Guard

variable {requires : τ → ρ → Prop} [∀ t r, Decidable (requires t r)] {spec : τ → ρ → τ × α}
  {t : τ}

theorem guarded_pass (refusal : α) {r : ρ} (h : requires t r) :
    guarded requires refusal spec t r = spec t r := if_pos h

theorem guarded_refuse (refusal : α) {r : ρ} (h : ¬ requires t r) :
    guarded requires refusal spec t r = (t, refusal) := if_neg h

theorem guarded_answers (refusal : α) {rs : List ρ} (h : Meets requires spec t rs) :
    answers (guarded requires refusal spec) t rs = answers spec t rs := by
  induction rs generalizing t with
  | nil => rfl
  | cons r rs ih => rw [answers, answers, guarded_pass refusal h.1, ih h.2]

end Guard

end Library.Service
