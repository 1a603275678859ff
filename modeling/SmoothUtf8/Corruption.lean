import SmoothUtf8.Library.OwedLetters
import SmoothUtf8.EntryPoints

/-!
# Corrupted strings

What becomes of an accepted string when one byte of it is lost, added or written
over. A byte that starts a character owes the bytes to follow and a continuation
byte pays one; an accepted string owes nothing. So every edit that leaves the debt
unbalanced is caught, in every build: any byte of `80` or above lost or added, and
any byte written over by one of another kind.
-/

set_option autoImplicit false

namespace SmoothUtf8.Corruption
open Library.CheckedProgram Library.RowGrammar Library.OwedLetters
open LeafLoads Table37 ShiftDfa EntryPoints

def weight (b : UInt8) : ℤ :=
  if b ≤ 0x7F then 0
  else if b ≤ 0xBF then -1
  else if b ≤ 0xC1 then 4
  else if b ≤ 0xDF then 1
  else if b ≤ 0xEF then 2
  else if b ≤ 0xF4 then 3
  else 4

theorem all_bytes {P : UInt8 → Prop} (h : ∀ n ∈ List.range 256, P (UInt8.ofNat n)) (b : UInt8) :
    P b := by
  have hb : P (UInt8.ofNat b.toNat) := h b.toNat (List.mem_range.mpr b.toNat_lt)
  rwa [UInt8.ofNat_toNat] at hb

theorem weight_zero (b : UInt8) : weight b = 0 ↔ b < 0x80 := by
  revert b
  apply all_bytes
  have h : ((List.range 256).all fun n =>
      weight (UInt8.ofNat n) = 0 ↔ UInt8.ofNat n < 0x80) = true := by
    decide +kernel
  simpa only [List.all_eq_true, decide_eq_true_eq] using h

theorem weight_row (row : Row UInt8) (hrow : row ∈ rows37) (b : UInt8) :
    (∀ r ∈ row.head?, Within r b → weight b = (row.length : ℤ)-1) ∧
      ∀ r ∈ row.tail, Within r b → weight b = -1 := by
  revert b
  apply all_bytes
  have h : (rows37.all fun row => (List.range 256).all fun n =>
      (row.head?.all fun r => Within r (UInt8.ofNat n) →
        weight (UInt8.ofNat n) = (row.length : ℤ)-1) ∧
      row.tail.all fun r => Within r (UInt8.ofNat n) → weight (UInt8.ofNat n) = -1) = true := by
    decide +kernel
  simp only [List.all_eq_true, Option.all_eq_true, decide_eq_true_eq] at h
  exact h row hrow

theorem utf8_weights : Weights utf8.toGrammar weight where
  owes := by
    intro r rs hrow b hb
    simpa using (weight_row _ hrow b).1 r rfl hb
  pays := by
    intro row hrow r hr b hb
    exact (weight_row row hrow b).2 r hr hb

/-- Between characters and inside them the debt is what the state leaves to read. -/
theorem dfaRun_owed {s : List UInt8} {rs : Row UInt8}
    (h : pending (dfaRun dfaAccept s) = some rs) : balance weight s = rs.length := by
  rw [(dfaRun_pending accept_mem s).2] at h
  exact boundary_owed utf8_weights h

theorem wellFormed_balanced {s : List UInt8} (h : WellFormed s) : balance weight s = 0 := by
  have hboundary := (pending_boundary accept_mem).mpr rfl
  rw [← (dfaRun_accept s).mpr h] at hboundary
  simpa using dfaRun_owed hboundary

def Verdict (B : Build) (X : Externs) (b : Buf) (v : Bool) : Prop :=
  ∃ t, run (store b) (verify B X b) = .ok (v, t)

section Edits

variable {B : Build} {X : Externs}

theorem accepted_iff (hB : B.Sound X) (b : Buf) : Verdict B X b true ↔ WellFormed b := by
  obtain ⟨v,t,hr,hv⟩ := verify_valid hB b
  rw [← hv, Verdict, hr]
  simp

theorem rejected_iff (hB : B.Sound X) (b : Buf) : Verdict B X b false ↔ ¬ WellFormed b := by
  obtain ⟨v,t,hr,hv⟩ := verify_valid hB b
  rw [← hv, Verdict, hr]
  simp

/-- Putting another stretch in place of one of an accepted string is caught when
the debts differ. -/
theorem replace_rejected (hB : B.Sound X) {u m m' v : Buf}
    (hne : balance weight m ≠ balance weight m') (h : Verdict B X (u++m++v) true) :
    Verdict B X (u++m'++v) false := by
  apply (rejected_iff hB _).mpr
  intro h'
  exact hne (messages_replace utf8_weights ((accepted_iff hB _).mp h) h')

/-- What a string owes is what its state leaves to read, and an accepted string owes
nothing. Writing over one of its bytes with a byte of another kind, adding a byte of
`80` or above anywhere or losing one is caught. -/
theorem edits_rejected (hB : B.Sound X) :
    (∀ (s : Buf) (rs : Row UInt8), pending (dfaRun dfaAccept s) = some rs →
      balance weight s = rs.length) ∧
    (∀ s : Buf, Verdict B X s true → balance weight s = 0) ∧
    (∀ (u v : Buf) (b b' : UInt8), weight b ≠ weight b' →
      Verdict B X (u++[b]++v) true → Verdict B X (u++[b']++v) false) ∧
    (∀ (u v : Buf) (b : UInt8), 0x80 ≤ b →
      Verdict B X (u++v) true → Verdict B X (u++[b]++v) false) ∧
    ∀ (u v : Buf) (b : UInt8), 0x80 ≤ b →
      Verdict B X (u++[b]++v) true → Verdict B X (u++v) false := by
  have howes : ∀ b : UInt8, 0x80 ≤ b → balance weight [b] ≠ balance weight [] := by
    intro b hb hzero
    have hlow := (weight_zero b).mp (by simpa using hzero)
    exact absurd hb (not_le.mpr hlow)
  constructor
  · intro s rs h
    exact dfaRun_owed h
  constructor
  · intro s h
    exact wellFormed_balanced ((accepted_iff hB s).mp h)
  constructor
  · intro u v b b' hne
    apply replace_rejected hB
    simpa using hne
  constructor
  · intro u v b hb h
    apply replace_rejected hB (howes b hb).symm
    simpa using h
  · intro u v b hb h
    have hlost := replace_rejected hB (howes b hb) h
    simpa using hlost

theorem edits_rejected_shapes :
    Verdict (portable .little) ⟨isValidUtf8,isValidUtf8⟩ ([0x61,0x61]++[0xBF]++[0x61]) false ∧
      Verdict (portable .little) ⟨isValidUtf8,isValidUtf8⟩ ([0x61,0x61]++[0xC3]++[]) false := by
  have hB := portable_sound .little ⟨isValidUtf8,isValidUtf8⟩
  have h := edits_rejected hB
  constructor
  · apply h.2.2.1 [0x61,0x61] [0x61] 0x61 0xBF (by decide)
    exact (accepted_iff hB _).mpr (by decide)
  · apply h.2.2.2.1 [0x61,0x61] [] 0xC3 (by decide)
    exact (accepted_iff hB _).mpr (by decide)

end Edits

end SmoothUtf8.Corruption
