import Mathlib.Computability.MyhillNerode
import Mathlib.Data.Fintype.Card
import Mathlib.Tactic.Common

/-!
# The smallest automaton of a language

A run that tells words apart only where the language does is a function of the
state of every automaton of that language. So an automaton has at least as many
states as such a run has values. If the automaton reads letters through classes,
letters of one class are interchangeable in every word of the language, which
bounds the classes the same way.
-/

set_option autoImplicit false

namespace Library.SmallestAutomaton

variable {α σ τ : Type} {L : Language α}

def Coarse (L : Language α) (run : List α → τ) : Prop :=
  ∀ s s', L.leftQuotient s = L.leftQuotient s' → run s = run s'

theorem coarse_factors {run : List α → τ} (h : Coarse L run) {M : DFA α σ} (hM : M.accepts = L) :
    Function.FactorsThrough run M.eval := by
  intro s s' heval
  apply h
  rw [← hM, Language.leftQuotient_accepts_apply, Language.leftQuotient_accepts_apply, heval]

theorem coarse_map [Nonempty τ] {run : List α → τ} (h : Coarse L run) {M : DFA α σ}
    (hM : M.accepts = L) : ∃ f : σ → τ, ∀ s, f (M.eval s) = run s := by
  have hfactors := coarse_factors h hM
  obtain ⟨t⟩ := ‹Nonempty τ›
  exact ⟨Function.extend M.eval run (fun _ => t),fun s => hfactors.extend_apply _ s⟩

/-- What a map tells apart has no fewer members than are told apart. -/
theorem card_of_map [Fintype σ] (f : σ → τ) {n : ℕ} (w : Fin n → σ)
    (h : Function.Injective (fun i => f (w i))) : n ≤ Fintype.card σ := by
  have hinjective : Function.Injective w := by
    intro i j hij
    exact h (congrArg f hij)
  simpa using Fintype.card_le_of_injective w hinjective

def Interchangeable (L : Language α) (a a' : α) : Prop := ∀ u v, u++a::v ∈ L ↔ u++a'::v ∈ L

def ofTable {κ : Type} (classes : α → κ) (next : σ → κ → σ) (start : σ) (accept : Set σ) :
    DFA α σ where
  step st a := next st (classes a)
  start := start
  accept := accept

theorem interchangeable_of_step {M : DFA α σ} (hM : M.accepts = L) {a a' : α}
    (h : ∀ st, M.step st a = M.step st a') : Interchangeable L a a' := by
  intro u v
  rw [← hM, DFA.mem_accepts, DFA.mem_accepts, DFA.eval, DFA.evalFrom_of_append,
    DFA.evalFrom_of_append, DFA.evalFrom_cons, DFA.evalFrom_cons, h]

/-- What interchangeable letters share is a function of the class. -/
theorem class_map {κ τ : Type} [Nonempty τ] {classes : α → κ} {next : σ → κ → σ} {start : σ}
    {accept : Set σ} (hM : (ofTable classes next start accept).accepts = L) {g : α → τ}
    (hg : ∀ a a', Interchangeable L a a' → g a = g a') : ∃ f : κ → τ, ∀ a, f (classes a) = g a := by
  have hfactors : Function.FactorsThrough g classes := by
    intro a a' hclass
    apply hg
    apply interchangeable_of_step hM
    intro st
    exact congrArg (next st) hclass
  obtain ⟨t⟩ := ‹Nonempty τ›
  exact ⟨Function.extend classes g (fun _ => t),fun a => hfactors.extend_apply _ a⟩

end Library.SmallestAutomaton
