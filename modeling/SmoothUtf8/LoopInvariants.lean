import SmoothUtf8.Library.LoopStates
import SmoothUtf8.LoadCosts
import SmoothUtf8.VerusSpec

/-!
# The annotated loops

The source writes an invariant at the two loops of the slow path, at the word loop
and at the SWAR scan. Here they are checked against every state the loops go through:
the chunk loop and the tail loop stand in the state of the specification's run, the
word loop and the scan stand after bytes below `80`, and no pass fails a check. The
AVX2 and NEON scans carry no invariant and are held to that of the SWAR scan. After
how many passes says where.
-/

set_option autoImplicit false

namespace SmoothUtf8.LoopInvariants
open Library.CheckedProgram Library.LoopStates Library.Slice
open LeafLoads Table37 ShiftDfa SignBits Multibyte AsciiSkip VerifyImpl LoadCosts VerusSpec

def AtRun (step : ℕ) (buf : Buf) (start p stop k : ℕ) (s : BitVec 64 × ℕ) : Prop :=
  s.2 = p+step*k ∧ s.2 ≤ stop ∧ isState s.1 ∧ s.1 = VerusSpec.run State.accept (slice buf start s.2)

def AtAscii (step : ℕ) (buf : Buf) (start p stop k q : ℕ) : Prop :=
  q = p+step*k ∧ q ≤ stop ∧ allAscii buf start q

variable {buf : Buf} {start stop : ℕ}

theorem isState_accept : isState State.accept := Or.inr (Or.inl rfl)

theorem stateAt_run (buf : Buf) (start p : ℕ) :
    stateAt buf start p = VerusSpec.run State.accept (slice buf start p) :=
  (dfaRun_run isState_accept _).1

theorem isState_run (s : List UInt8) : isState (VerusSpec.run State.accept s) :=
  (dfaRun_run isState_accept s).2

theorem run_split {p z : ℕ} (hs : start ≤ p) (hz : p ≤ z) {state : BitVec 64}
    (h : state = VerusSpec.run State.accept (slice buf start p)) :
    dfaRun state (slice buf p z) = VerusSpec.run State.accept (slice buf start z) := by
  rw [h, ← stateAt_run, ← stateAt_run, stateAt_split buf hs hz]

theorem chunk_maintains (e : Endian) (hs : start ≤ stop) (hlen : stop ≤ buf.length) :
    Maintains (store buf) (chunk e buf stop) (dfaAccept, start) (AtRun 8 buf start start stop) := by
  apply maintains_of_pass
  · constructor
    · rfl
    · exact ⟨hs,isState_accept,by rw [slice_self]; rfl⟩
  · intro k s h
    obtain ⟨state,p⟩ := s
    obtain ⟨hk,hp,-,hstate⟩ := h
    simp only at hk hp hstate
    by_cases h8 : 8 ≤ stop-p
    · have hnext := run_split (show start ≤ p by omega) (Nat.le_add_right p 8) hstate
      have hfull : Reaches (store buf) (chunk e buf stop (state,p)) (touched p 8) _ :=
        chunk_full e h8 hlen
      rw [hnext] at hfull
      have hrun := reaches_done.mp hfull
      refine ⟨_,_,hrun,?_⟩
      split_ifs
      · trivial
      · exact ⟨by simp only; omega,by simp only; omega,isState_run _,rfl⟩
    · rw [chunk_rest e hp h8]
      exact ⟨_,_,rfl,trivial⟩

/-- The chunk loop leaves from a state it reached: with that state when no full chunk
is left, and with nothing when the run rejects at the end of the next chunk. -/
theorem chunk_leaves (e : Endian) (hs : start ≤ stop) (hlen : stop ≤ buf.length) {n : ℕ}
    {r : Option (BitVec 64 × ℕ)} {t : Log}
    (h : run (store buf) (loop .endless (chunk e buf stop) n (dfaAccept, start)) = .ok (r, t)) :
    ∃ k s, Reached (store buf) (chunk e buf stop) (dfaAccept, start) k s ∧
      (r = some s ∧ stop-s.2 < 8 ∨ r = none ∧ 8 ≤ stop-s.2 ∧
        VerusSpec.run State.accept (slice buf start (s.2+8)) = State.reject) := by
  obtain ⟨k,⟨state,p⟩,u,-,hreached,hleave⟩ := loop_returns h
  obtain ⟨hk,hp,-,hstate⟩ := (chunk_maintains e hs hlen).invariant k _ hreached
  simp only at hk hp hstate
  refine ⟨k,(state,p),hreached,?_⟩
  by_cases h8 : 8 ≤ stop-p
  · have hnext := run_split (show start ≤ p by omega) (Nat.le_add_right p 8) hstate
    rw [reaches_done.mp (chunk_full e h8 hlen), hnext] at hleave
    split_ifs at hleave with hreject
    · cases hleave
      exact Or.inr ⟨rfl,h8,hreject⟩
    · cases hleave
  · rw [chunk_rest e hp h8] at hleave
    cases hleave
    exact Or.inl ⟨rfl,not_le.mp h8⟩

theorem tail_maintains (hlen : stop ≤ buf.length) {s : BitVec 64 × ℕ} (hs : start ≤ s.2)
    (h : AtRun 8 buf start s.2 stop 0 s) :
    Maintains (store buf) (tail buf stop) s (AtRun 1 buf start s.2 stop) := by
  apply maintains_of_pass
  · exact h
  · intro k s' h'
    obtain ⟨state,p⟩ := s'
    obtain ⟨hk,hp,-,hstate⟩ := h'
    simp only at hk hp hstate
    by_cases hlt : p < stop
    · have hbyte : Reaches (store buf) (tail buf stop (state,p)) (touched p 1) _ :=
        tail_byte hlt hlen
      rw [run_split (show start ≤ p by omega) (Nat.le_succ p) hstate] at hbyte
      exact ⟨_,_,reaches_done.mp hbyte,by simp only; omega,hlt,isState_run _,rfl⟩
    · rw [tail_end hlt]
      exact ⟨_,_,rfl,trivial⟩

theorem atAscii_start (step : ℕ) (hs : start ≤ stop) :
    AtAscii step buf start start stop 0 start := by
  constructor
  · rfl
  constructor
  · exact hs
  · intro k hlo hhi
    omega

theorem atAscii_next {step k p q : ℕ} (hp : start ≤ p) (h : AtAscii step buf start p stop k q)
    (hlen : stop ≤ buf.length) (hfull : step ≤ stop-q) (hblock : Ascii buf q (q+step)) :
    AtAscii step buf start p stop (k+1) (q+step) := by
  obtain ⟨hk,hq,hascii⟩ := h
  have hsq : start ≤ q := by omega
  rw [allAscii_iff (by omega)] at hascii
  constructor
  · rw [hk, Nat.mul_succ, Nat.add_assoc]
  constructor
  · omega
  · rw [allAscii_iff (by omega)]
    exact (allOn_split hsq (Nat.le_add_right q step)).mpr ⟨hascii,hblock⟩

theorem scan_maintains {step : ℕ} {Found : ℕ → ℕ → Prop} {probe : ℕ → Exec (Option ℕ)}
    (hprobe : ProbeExact step Found buf probe) (hs : start ≤ stop) (hlen : stop ≤ buf.length) :
    Maintains (store buf) (scanPass step probe buf stop) start
      (AtAscii step buf start start stop) := by
  apply maintains_of_pass
  · exact atAscii_start step hs
  · intro k p h
    have hp := h.2.1
    by_cases hfull : step ≤ stop-p
    · obtain ⟨u,-,hcase⟩ := hprobe p (by omega)
      rcases hcase with ⟨hblock,hr⟩ | ⟨-,q,-,hr⟩
      · exact ⟨_,_,reaches_done.mp (scan_block hp hlen hfull hr),
          atAscii_next le_rfl h hlen hfull hblock⟩
      · exact ⟨_,_,reaches_done.mp (scan_block hp hlen hfull hr),trivial⟩
    · rw [scan_rest hp hfull]
      exact ⟨_,_,rfl,trivial⟩

theorem words_maintains (P : Parts) (hlen : stop ≤ buf.length) {q : ℕ} (hsq : start ≤ q)
    (h : AtAscii 8 buf start q stop 0 q) :
    Maintains (store buf) (wordPass P buf stop) q (AtAscii 8 buf start q stop) := by
  apply maintains_of_pass
  · exact h
  · intro k p h
    have hp := h.2.1
    by_cases hfull : 8 ≤ stop-p
    · rcases word_full P hfull hlen with ⟨hblock,hr⟩ | ⟨-,hr⟩
      · exact ⟨_,_,reaches_done.mp hr,atAscii_next hsq h hlen hfull hblock⟩
      · exact ⟨_,_,reaches_done.mp hr,trivial⟩
    · rw [word_rest P hp hfull]
      exact ⟨_,_,rfl,trivial⟩

def skipPass (e : Endian) (buf : Buf) (stop : ℕ) : Variant → ℕ → Exec (Turn ℕ ℕ)
  | .swar => scanPass Swar.STEP (Swar.probe e buf) buf stop
  | .avx2 => scanPass Avx2.STEP (Avx2.probe buf) buf stop
  | .neon => scanPass Neon.STEP (Neon.probe buf) buf stop

/-- Every state that a loop of the crate goes through satisfies the invariant the
source writes there, or for the AVX2 and NEON scans the one it writes at the SWAR
scan, and no pass from it stops badly. The chunk loop leaves from such a state. -/
theorem loops_maintain (e : Endian) (P : Parts) (buf : Buf) (start stop : ℕ) (hs : start ≤ stop)
    (hlen : stop ≤ buf.length) :
    Maintains (store buf) (chunk e buf stop) (dfaAccept, start) (AtRun 8 buf start start stop) ∧
    (∀ n r t, run (store buf) (loop .endless (chunk e buf stop) n (dfaAccept, start)) = .ok (r, t) →
      ∃ k s, Reached (store buf) (chunk e buf stop) (dfaAccept, start) k s ∧
        (r = some s ∧ stop-s.2 < 8 ∨ r = none ∧ 8 ≤ stop-s.2 ∧
          VerusSpec.run State.accept (slice buf start (s.2+8)) = State.reject)) ∧
    (∀ k s, Reached (store buf) (chunk e buf stop) (dfaAccept, start) k s →
      Maintains (store buf) (tail buf stop) s (AtRun 1 buf start s.2 stop)) ∧
    (∀ v : Variant, Maintains (store buf) (skipPass e buf stop v) start
      (AtAscii (v.imp e).STEP buf start start stop)) ∧
    ∀ q, start ≤ q → q ≤ stop → allAscii buf start q →
      Maintains (store buf) (wordPass P buf stop) q (AtAscii 8 buf start q stop) := by
  have hchunk := chunk_maintains e hs hlen
  constructor
  · exact hchunk
  constructor
  · intro n r t h
    exact chunk_leaves e hs hlen h
  constructor
  · intro k s h
    obtain ⟨hk,hp,hstate,hrun⟩ := hchunk.invariant k s h
    exact tail_maintains hlen (by omega) ⟨rfl,hp,hstate,hrun⟩
  constructor
  · intro v
    cases v with
    | swar => exact scan_maintains (swar_probe e buf) hs hlen
    | avx2 => exact scan_maintains (avx2_probe buf) hs hlen
    | neon => exact scan_maintains (neon_probe buf) hs hlen
  · intro q hsq hq hascii
    exact words_maintains P hlen hsq ⟨rfl,hq,hascii⟩

theorem loops_maintain_twice :
    Maintains (store (List.replicate 15 0x41++[0xC3,0xA9]))
      (chunk .little (List.replicate 15 0x41++[0xC3,0xA9]) 17) (dfaAccept, 0)
      (AtRun 8 (List.replicate 15 0x41++[0xC3,0xA9]) 0 0 17) ∧
    Maintains (store (List.replicate 15 0x41++[0xC3,0xA9]))
      (skipPass .little (List.replicate 15 0x41++[0xC3,0xA9]) 17 .swar) 0
      (AtAscii 16 (List.replicate 15 0x41++[0xC3,0xA9]) 0 0 17) := by
  have h := loops_maintain .little ((EntryPoints.portable .little).parts ⟨isValidUtf8,isValidUtf8⟩)
    (List.replicate 15 0x41++[0xC3,0xA9]) 0 17 (by decide) (by decide)
  exact ⟨h.1,h.2.2.2.1 .swar⟩

end SmoothUtf8.LoopInvariants
