import SmoothUtf8.ShiftDfa

/-!
# What the states of the automaton mean

Nine states are reached and no others. Each stands for one set of completions,
the one its name in the source announces, and no two stand for the same set: the
automaton tells two strings apart exactly when some continuation does.
-/

set_option autoImplicit false

namespace SmoothUtf8.StateMeaning
open Table37 ShiftDfa Library.RowGrammar

theorem states_multiples {st : BitVec 64} (hst : st ∈ states) :
    ∃ i < 9, st = BitVec.ofNat 64 (6*i) := by
  have h : (states.all fun st =>
      (List.range 9).any fun i => st = BitVec.ofNat 64 (6*i)) = true := by
    decide
  simp only [List.all_eq_true, List.any_eq_true, List.mem_range, decide_eq_true_eq] at h
  exact h st hst

theorem multiples_states {i : ℕ} (hi : i < 9) : BitVec.ofNat 64 (6*i) ∈ states := by
  have h : ((List.range 9).all fun i => BitVec.ofNat 64 (6*i) ∈ states) = true := by decide
  simp only [List.all_eq_true, List.mem_range, decide_eq_true_eq] at h
  exact h i hi

/-- Two states that leave the same to read are one state. -/
theorem pending_injective {st st' : BitVec 64} (hst : st ∈ states) (hst' : st' ∈ states)
    (h : pending st = pending st') : st = st' := by
  have hall : (states.all fun st => states.all fun st' =>
      pending st = pending st' → st = st') = true := by
    decide
  simp only [List.all_eq_true, decide_eq_true_eq] at hall
  exact hall st hst st' hst' h

theorem dfaRun_one (b : UInt8) : dfaRun dfaAccept [b] = slot (specRow b) dfaAccept := by
  rw [← row_eq_specRow]
  rfl

theorem states_reached {st : BitVec 64} (hst : st ∈ states) : ∃ s, dfaRun dfaAccept s = st := by
  have hlead : (states.all fun st => st = dfaAccept ∨
      ([0xFF,0xC2,0xE1,0xE0,0xED,0xF0,0xF1,0xF4] : List UInt8).any fun b =>
        slot (specRow b) dfaAccept = st) = true := by
    decide
  simp only [List.all_eq_true, List.any_eq_true, decide_eq_true_eq] at hlead
  rcases hlead st hst with rfl | ⟨b,-,hb⟩
  · exact ⟨[],rfl⟩
  · exact ⟨[b],(dfaRun_one b).trans hb⟩

theorem dfaRun_eq_iff (s s' : List UInt8) : dfaRun dfaAccept s = dfaRun dfaAccept s' ↔
    ∀ t, WellFormed (s++t) ↔ WellFormed (s'++t) := by
  obtain ⟨hmem,hp⟩ := dfaRun_pending accept_mem s
  obtain ⟨hmem',hp'⟩ := dfaRun_pending accept_mem s'
  have hpending : dfaRun dfaAccept s = dfaRun dfaAccept s' ↔
      pending (dfaRun dfaAccept s) = pending (dfaRun dfaAccept s') :=
    ⟨congrArg pending,pending_injective hmem hmem'⟩
  rw [hpending, hp, hp']
  exact utf8.consume_eq_iff s s'

def Continues (st : BitVec 64) (t : List UInt8) : Prop :=
  ∃ rs u v, pending st = some rs ∧ t = u++v ∧
    List.Forall₂ (fun r b => r.1 ≤ b ∧ b ≤ r.2) rs u ∧ WellFormed v

theorem continues_iff (st : BitVec 64) (t : List UInt8) :
    Continues st t ↔ utf8.Completes (pending st) t := by
  rw [Continues]
  cases pending st with
  | none => simp [Grammar.Completes]
  | some rs =>
    constructor
    · intro h
      obtain ⟨rs',u,v,he,ht,hu,hv⟩ := h
      obtain rfl := Option.some.inj he
      exact ⟨u,v,ht,hu,hv⟩
    · intro h
      obtain ⟨u,v,ht,hu,hv⟩ := h
      exact ⟨rs,u,v,rfl,ht,hu,hv⟩

/-- What completes a string is what its state leaves to read. -/
theorem completions_continue (s t : List UInt8) :
    WellFormed (s++t) ↔ Continues (dfaRun dfaAccept s) t := by
  rw [continues_iff, (dfaRun_pending accept_mem s).2]
  exact utf8.messages_residual s t

/-- The nine states are those that occur. The accepting one is reached by the
well-formed strings and the rejecting one by those no continuation saves; any
state tells which continuations are left, and two strings share a state exactly
when the same ones are. -/
theorem states_meaning :
    (∀ s : List UInt8, (∃ i < 9, dfaRun dfaAccept s = BitVec.ofNat 64 (6*i)) ∧
      (dfaRun dfaAccept s = dfaAccept ↔ WellFormed s) ∧
      (dfaRun dfaAccept s = dfaReject ↔ ∀ t, ¬ WellFormed (s++t)) ∧
      ∀ t, WellFormed (s++t) ↔ Continues (dfaRun dfaAccept s) t) ∧
    (∀ s s' : List UInt8, dfaRun dfaAccept s = dfaRun dfaAccept s' ↔
      ∀ t, WellFormed (s++t) ↔ WellFormed (s'++t)) ∧
    ∀ i : Fin 9, ∃ s, dfaRun dfaAccept s = BitVec.ofNat 64 (6*i) := by
  refine ⟨fun s => ?_,dfaRun_eq_iff,fun i => ?_⟩
  · have hmem := (dfaRun_pending accept_mem s).1
    exact ⟨states_multiples hmem,dfaRun_accept s,dfaRun_reject s,completions_continue s⟩
  · exact states_reached (multiples_states i.isLt)

end SmoothUtf8.StateMeaning
