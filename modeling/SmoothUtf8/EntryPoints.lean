import SmoothUtf8.VerifyImpl

/-!
# The entry points and the builds they come in

A build fixes the host's byte order and pointer width, the prefix scan, the
slow path and whether long inputs are delegated. The two validators outside the
crate are parameters. In every build whose validators are right, a run of either
entry point ends in the row grammar's verdict on the range.
-/

set_option autoImplicit false

namespace SmoothUtf8.EntryPoints
open Library.CheckedProgram Library.Slice
open LeafLoads Table37 ShiftDfa SignBits AsciiSkip VerifyImpl

def SLACK : ℕ := 8

inductive SlowPath where
  | shiftDfa
  | coreStr
  deriving DecidableEq, Repr

structure Build where
  endian : Endian
  pointerWidth : ℕ
  skip : Variant
  slowPath : SlowPath
  simdutf8 : Bool
  aarch64 : Bool
  deriving DecidableEq, Repr

structure Externs where
  simdutf8 : List UInt8 → Bool
  coreStr : List UInt8 → Bool

def Build.LONG_THRESHOLD (B : Build) : ℕ := if B.aarch64 then 64 else 128

def Build.usizeMax (B : Build) : ℕ := 2^B.pointerWidth-1

def index (buf : Buf) (start stop : ℕ) : Exec (List UInt8) := do
  Prog.check (start ≤ stop ∧ stop ≤ buf.length) .panic
  pure (slice buf start stop)

def verifyLong (X : Externs) (buf : Buf) (start stop : ℕ) : Exec Bool := do
  let s ← index buf start stop
  pure (X.simdutf8 s)

def Build.verifyMultibyte (B : Build) (X : Externs) (buf : Buf) (start stop : ℕ) : Exec Bool :=
  match B.slowPath with
  | .shiftDfa => Multibyte.verifyMultibyte B.endian buf start stop
  | .coreStr => do
    let s ← index buf start stop
    pure (X.coreStr s)

def Build.parts (B : Build) (X : Externs) : Parts where
  endian := B.endian
  usizeMax := B.usizeMax
  imp := B.skip.imp B.endian
  verifyMultibyte := B.verifyMultibyte X

def verify (B : Build) (X : Externs) (b : Buf) : Exec Bool :=
  if B.simdutf8 = true ∧ B.LONG_THRESHOLD ≤ b.length then verifyLong X b 0 b.length
  else verifyImpl (B.parts X) 0 b 0 b.length

def verifyWithSlack (B : Build) (X : Externs) (buf : Buf) (start stop : ℕ) : Exec Bool := do
  da (start ≤ stop)
  da (min (stop+SLACK) B.usizeMax ≤ buf.length)
  if B.simdutf8 = true then
    let width ← usizeSub stop start
    if B.LONG_THRESHOLD ≤ width then verifyLong X buf start stop
    else verifyImpl (B.parts X) SLACK buf start stop
  else verifyImpl (B.parts X) SLACK buf start stop

/-- The returned `str` is its bytes; making it from them is noted in the log. -/
def fromUtf8 (B : Build) (X : Externs) (b : Buf) : Exec (Option (List UInt8)) := do
  if ← verify B X b then
    Prog.note (.unchecked b)
    pure (some b)
  else pure none

def portable (e : Endian) : Build := ⟨e,64,.swar,.shiftDfa,false,false⟩

def Externs.Sound (X : Externs) : Prop :=
  (∀ s, X.simdutf8 s = true ↔ WellFormed s) ∧ ∀ s, X.coreStr s = true ↔ WellFormed s

/-- The outside validators this build calls accept the well-formed strings. -/
structure Build.Sound (B : Build) (X : Externs) : Prop where
  long : B.simdutf8 = true → ∀ s, X.simdutf8 s = true ↔ WellFormed s
  slow : B.slowPath = .coreStr → ∀ s, X.coreStr s = true ↔ WellFormed s

theorem Build.sound_of (B : Build) {X : Externs} (h : X.Sound) : B.Sound X :=
  ⟨fun _ => h.1,fun _ => h.2⟩

theorem Build.sound_alone {B : Build} (X : Externs) (hlong : B.simdutf8 = false)
    (hslow : B.slowPath = .shiftDfa) : B.Sound X where
  long := by
    intro h
    rw [hlong] at h
    cases h
  slow := by
    intro h
    rw [hslow] at h
    cases h

theorem portable_sound (e : Endian) (X : Externs) : (portable e).Sound X :=
  Build.sound_alone X rfl rfl

theorem index_pos {buf : Buf} {start stop : ℕ} (hs : start ≤ stop) (hlen : stop ≤ buf.length) :
    index buf start stop = .done (slice buf start stop) := by
  rw [index, Prog.check_pos ⟨hs,hlen⟩]
  rfl

theorem multibyte_valid {B : Build} {X : Externs} (hB : B.Sound X) {buf : Buf} {start stop : ℕ}
    (hs : start ≤ stop) (hlen : stop ≤ buf.length) :
    ∃ v w, run (store buf) (B.verifyMultibyte X buf start stop) = .ok (v, w) ∧
      (v = true ↔ WellFormed (slice buf start stop)) := by
  rw [Build.verifyMultibyte]
  cases hslow : B.slowPath with
  | shiftDfa =>
    obtain ⟨w,c,hr,-⟩ := Multibyte.verifyMultibyte_reaches B.endian hs hlen
    refine ⟨_,w,reaches_done.mp hr,?_⟩
    rw [decide_eq_true_iff]
    exact dfaRun_accept _
  | coreStr =>
    simp only [index_pos hs hlen, Prog.done_bind]
    exact ⟨_,[],rfl,hB.slow hslow _⟩

theorem skip_stops (B : Build) (X : Externs) {buf : Buf} {start stop : ℕ} (hs : start ≤ stop)
    (hlen : stop ≤ buf.length) :
    ∃ q t, SkipsTo (B.parts X).imp buf start stop q t ∧ Stops (B.parts X).imp buf stop q :=
  variant_contract B.endian B.skip buf start stop hs hlen

theorem step_pos (B : Build) (X : Externs) : 16 ≤ (B.parts X).imp.STEP :=
  variant_step B.endian B.skip

/-- A run of `verify_impl` in a sound build: its log, and its verdict. -/
theorem verifyImpl_valid {B : Build} {X : Externs} (hB : B.Sound X) (PAD : ℕ) {buf : Buf}
    {start stop : ℕ} (hs : start ≤ stop) (hlen : stop+PAD ≤ buf.length) :
    ∃ v t, run (store buf) (verifyImpl (B.parts X) PAD buf start stop) = .ok (v, t) ∧
      Ran (B.parts X) PAD (Stops (B.parts X).imp buf stop) buf start stop v t ∧
      (v = true ↔ WellFormed (slice buf start stop)) := by
  have hin : stop ≤ buf.length := by omega
  have hslow : ∀ p, start ≤ p → p < stop →
      ∃ v w, run (store buf) ((B.parts X).verifyMultibyte buf p stop) = .ok (v, w) := by
    intro p _ hp
    obtain ⟨v,w,hr,-⟩ := multibyte_valid hB hp.le hin
    exact ⟨v,w,hr⟩
  obtain ⟨v,t,hr,hran⟩ := verifyImpl_ran (B.parts X) PAD (Stops (B.parts X).imp buf stop)
    (by have := step_pos B X; omega) hs hlen (skip_stops B X hs hin) hslow
  refine ⟨v,t,hr,hran,?_⟩
  cases hran with
  | passed h => exact iff_of_true rfl (ascii_wellFormed h.ascii)
  | handed h hrun =>
    obtain ⟨v',w',hr',hv⟩ := multibyte_valid hB h.hi.le hin
    obtain ⟨rfl,rfl⟩ := run_unique hrun hr'
    exact hv.trans (ascii_cut h.lo h.hi.le h.ascii).1.symm

theorem verifyLong_valid {X : Externs} (hX : ∀ s, X.simdutf8 s = true ↔ WellFormed s) {buf : Buf}
    {start stop : ℕ} (hs : start ≤ stop) (hlen : stop ≤ buf.length) :
    ∃ v t, run (store buf) (verifyLong X buf start stop) = .ok (v, t) ∧
      (v = true ↔ WellFormed (slice buf start stop)) := by
  rw [verifyLong, index_pos hs hlen]
  exact ⟨_,[],rfl,hX _⟩

theorem verify_valid {B : Build} {X : Externs} (hB : B.Sound X) (b : Buf) :
    ∃ v t, run (store b) (verify B X b) = .ok (v, t) ∧ (v = true ↔ WellFormed b) := by
  have hb := slice_all b
  rw [verify]
  by_cases hlong : B.simdutf8 = true ∧ B.LONG_THRESHOLD ≤ b.length
  · rw [if_pos hlong]
    have h := verifyLong_valid (hB.long hlong.1) (Nat.zero_le b.length) le_rfl
    rwa [hb] at h
  · rw [if_neg hlong]
    obtain ⟨v,t,hr,-,hv⟩ := verifyImpl_valid hB 0 (Nat.zero_le b.length) le_rfl
    exact ⟨v,t,hr,hb ▸ hv⟩

/-- With the documented precondition both debug assertions hold. -/
theorem verifyWithSlack_eq (B : Build) (X : Externs) {buf : Buf} {start stop : ℕ}
    (hs : start ≤ stop) (hlen : stop+SLACK ≤ buf.length) :
    verifyWithSlack B X buf start stop =
      if B.simdutf8 = true ∧ B.LONG_THRESHOLD ≤ stop-start then verifyLong X buf start stop
      else verifyImpl (B.parts X) SLACK buf start stop := by
  rw [verifyWithSlack, da_pos hs, Prog.done_bind, da_pos ((min_le_left _ _).trans hlen),
    Prog.done_bind, usizeSub_pos hs, Prog.done_bind]
  by_cases hsimd : B.simdutf8 = true
  · rw [if_pos hsimd]
    simp only [hsimd, true_and]
  · rw [if_neg hsimd, if_neg (fun h => hsimd h.1)]

theorem verifyWithSlack_valid {B : Build} {X : Externs} (hB : B.Sound X) {buf : Buf}
    {start stop : ℕ} (hs : start ≤ stop) (hlen : stop+SLACK ≤ buf.length) :
    ∃ v t, run (store buf) (verifyWithSlack B X buf start stop) = .ok (v, t) ∧
      (v = true ↔ WellFormed (slice buf start stop)) := by
  rw [verifyWithSlack_eq B X hs hlen]
  by_cases hlong : B.simdutf8 = true ∧ B.LONG_THRESHOLD ≤ stop-start
  · rw [if_pos hlong]
    exact verifyLong_valid (hB.long hlong.1) hs (by omega)
  · rw [if_neg hlong]
    obtain ⟨v,t,hr,-,hv⟩ := verifyImpl_valid hB SLACK hs hlen
    exact ⟨v,t,hr,hv⟩

end SmoothUtf8.EntryPoints
