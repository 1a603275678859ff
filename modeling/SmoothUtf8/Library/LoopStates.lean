import SmoothUtf8.Library.CheckedProgram

/-!
# The states a loop goes through

A loop seen as a transition system: one pass takes a state to the next, and a state
is reached after so many passes. An invariant that every pass keeps, and under which
no pass stops badly, holds of every state reached; and the loop returns what the pass
from one of these states leaves with.
-/

set_option autoImplicit false

namespace Library.LoopStates
open Library.CheckedProgram

variable {β ι ε α σ : Type} {m : Memory β} {body : σ → Prog β ι ε (Turn σ α)}

inductive Reached (m : Memory β) (body : σ → Prog β ι ε (Turn σ α)) (s₀ : σ) : ℕ → σ → Prop
  | start : Reached m body s₀ 0 s₀
  | pass {k : ℕ} {s s' : σ} {t : List (Event ι)} (h : Reached m body s₀ k s)
      (hpass : run m (body s) = .ok (.again s', t)) : Reached m body s₀ (k+1) s'

theorem Reached.head {s₀ s₁ s : σ} {k : ℕ} {t : List (Event ι)}
    (hfirst : run m (body s₀) = .ok (.again s₁, t)) (h : Reached m body s₁ k s) :
    Reached m body s₀ (k+1) s := by
  induction h with
  | start => exact .pass .start hfirst
  | pass _ hpass ih => exact .pass ih hpass

structure Maintains (m : Memory β) (body : σ → Prog β ι ε (Turn σ α)) (s₀ : σ)
    (I : ℕ → σ → Prop) : Prop where
  invariant : ∀ k s, Reached m body s₀ k s → I k s
  progress : ∀ k s, Reached m body s₀ k s → ∃ r u, run m (body s) = .ok (r, u)

def Kept (I : ℕ → σ → Prop) (k : ℕ) : Turn σ α → Prop
  | .again s => I (k+1) s
  | .leave _ => True

theorem maintains_of_pass {s₀ : σ} {I : ℕ → σ → Prop} (hstart : I 0 s₀)
    (hpass : ∀ k s, I k s → ∃ r u, run m (body s) = .ok (r, u) ∧ Kept I k r) :
    Maintains m body s₀ I := by
  have hall : ∀ k s, Reached m body s₀ k s → I k s := by
    intro k s h
    induction h with
    | start => exact hstart
    | @pass k s s' t _ hnext ih =>
      obtain ⟨r,u,hr,hkept⟩ := hpass k s ih
      obtain ⟨rfl,-⟩ := run_unique hr hnext
      exact hkept
  constructor
  · exact hall
  · intro k s h
    obtain ⟨r,u,hr,-⟩ := hpass k s (hall k s h)
    exact ⟨r,u,hr⟩

/-- A loop that returns has left from a state it reached. -/
theorem loop_returns {stuck : ε} {n : ℕ} {s₀ : σ} {a : α} {t : List (Event ι)}
    (h : run m (loop stuck body n s₀) = .ok (a, t)) :
    ∃ k s u, k < n ∧ Reached m body s₀ k s ∧ run m (body s) = .ok (.leave a, u) := by
  induction n generalizing s₀ t with
  | zero => cases h
  | succ n ih =>
    obtain ⟨r,u,v,hr,hrest,-⟩ := run_bind_ok.mp h
    cases r with
    | again s₁ =>
      obtain ⟨k,s,w,hk,hreached,hleave⟩ := ih hrest
      exact ⟨k+1,s,w,Nat.succ_lt_succ hk,hreached.head hr,hleave⟩
    | leave a' =>
      obtain ⟨rfl,-⟩ := run_done_ok.mp hrest
      exact ⟨0,s₀,u,Nat.succ_pos n,.start,hr⟩

end Library.LoopStates
