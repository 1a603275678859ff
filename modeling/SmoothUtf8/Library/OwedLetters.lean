import Mathlib.Algebra.BigOperators.Group.List.Basic
import Mathlib.Tactic.Ring
import SmoothUtf8.Library.RowGrammar

/-!
# Letters owed

Every first letter of a row owes as many letters as the row goes on for, and every
later letter pays one of them. So the debt after any string that is not a dead end
is the number of ranges left to read, a message leaves none, and two messages that
differ in one stretch have the same debt there.
-/

set_option autoImplicit false

namespace Library.OwedLetters
open Library.RowGrammar

variable {α : Type} {f : α → ℤ}

def balance (f : α → ℤ) (s : List α) : ℤ := (s.map f).sum

@[simp] theorem balance_nil : balance f [] = 0 := rfl

@[simp] theorem balance_cons (a : α) (s : List α) : balance f (a::s) = f a+balance f s :=
  List.sum_cons

@[simp] theorem balance_append (s t : List α) : balance f (s++t) = balance f s+balance f t := by
  rw [balance, List.map_append, List.sum_append]
  rfl

section Table

variable [LinearOrder α] {G : Grammar α}

/-- The weights of a table: a first letter owes the rest of its row, a later letter
pays one. -/
structure Weights (G : Grammar α) (f : α → ℤ) : Prop where
  owes : ∀ r rs, r::rs ∈ G.rows → ∀ a, Within r a → f a = rs.length
  pays : ∀ row ∈ G.rows, ∀ r ∈ row.tail, ∀ a, Within r a → f a = -1

def Paid (f : α → ℤ) (rs : Row α) : Prop := ∀ r ∈ rs, ∀ a, Within r a → f a = -1

theorem advance_owed (h : Weights G f) {rs rs' : Row α} (hrs : Paid f rs) {a : α}
    (hstep : G.advance (some rs) a = some rs') :
    Paid f rs' ∧ f a = rs'.length-rs.length := by
  cases rs with
  | nil =>
    obtain ⟨r,hrow,ha⟩ := G.lead_some.mp hstep
    constructor
    · exact h.pays _ hrow
    · simpa using h.owes r rs' hrow a ha
  | cons r rs =>
    obtain ⟨ha,rfl⟩ : Within r a ∧ rs = rs' := by
      by_cases ha : Within r a
      · exact ⟨ha,by simpa [Grammar.advance, ha] using hstep⟩
      · simp [Grammar.advance, ha] at hstep
    constructor
    · intro r' hr'
      exact hrs r' (List.mem_cons_of_mem r hr')
    · rw [hrs r (by simp) a ha, List.length_cons]
      push_cast
      ring

/-- The debt over a string is what is left to read after it less what was before. -/
theorem consume_owed (h : Weights G f) {rs rs' : Row α} (hrs : Paid f rs) {s : List α}
    (hrun : G.consume (some rs) s = some rs') : balance f s = rs'.length-rs.length := by
  induction s generalizing rs with
  | nil =>
    obtain rfl : rs = rs' := Option.some.inj hrun
    simp
  | cons a s ih =>
    have hrun' : G.consume (G.advance (some rs) a) s = some rs' := hrun
    cases hstep : G.advance (some rs) a with
    | none =>
      rw [hstep, G.consume_dead] at hrun'
      cases hrun'
    | some rs₁ =>
      rw [hstep] at hrun'
      obtain ⟨hpaid,ha⟩ := advance_owed h hrs hstep
      rw [balance_cons, ha, ih hpaid hrun']
      ring

theorem paid_nil (f : α → ℤ) : Paid f [] := by simp [Paid]

theorem boundary_owed (h : Weights G f) {rs : Row α} {s : List α}
    (hrun : G.consume (some []) s = some rs) : balance f s = rs.length := by
  simpa using consume_owed h (paid_nil f) hrun

theorem messages_balanced (h : Weights G f) {s : List α} (hs : s ∈ G.messages) :
    balance f s = 0 := by
  simpa using boundary_owed h ((G.consume_messages s).mpr hs)

/-- One stretch of a message may be replaced only by one with the same debt. -/
theorem messages_replace (h : Weights G f) {u m m' v : List α} (hm : u++m++v ∈ G.messages)
    (hm' : u++m'++v ∈ G.messages) : balance f m = balance f m' := by
  have hb := messages_balanced h hm
  have hb' := messages_balanced h hm'
  simp only [balance_append] at hb hb'
  omega

end Table

end Library.OwedLetters
