import SmoothUtf8.Library.PartialCorrectness
import SmoothUtf8.PrefixScans

/-!
# How often each byte is loaded

Every loop of the crate sweeps forward over its part of the range. The slow path
alone loads each byte once and stops at the first chunk end where nothing can be
saved. The loops together load no byte more than three times, and on a range all
below `80` the loads do not depend on the scan.
-/

set_option autoImplicit false

namespace SmoothUtf8.LoadCosts
open Library.CheckedProgram Library.PartialCorrectness Library.Slice
open LeafLoads Table37 ShiftDfa SignBits Multibyte AsciiSkip VerifyImpl EntryPoints RunLogs

def Sweep (lo hi : ℕ) (t : Log) : Prop := lo ≤ hi ∧ reads t = List.range' lo (hi-lo)

theorem sweep_nil (lo : ℕ) : Sweep lo lo [] := by simp [Sweep]

theorem sweep_touched (i n : ℕ) : Sweep i (i+n) (touched i n) := by simp [Sweep, touched]

theorem Sweep.append {lo mid hi : ℕ} {t u : Log} (ht : Sweep lo mid t) (hu : Sweep mid hi u) :
    Sweep lo hi (t++u) := by
  obtain ⟨hlo,ht⟩ := ht
  obtain ⟨hhi,hu⟩ := hu
  have hmid : lo+(mid-lo) = mid := by omega
  have hsum : (mid-lo)+(hi-mid) = hi-lo := by omega
  have hjoin := List.range'_append_1 (s := lo) (m := mid-lo) (n := hi-mid)
  rw [hmid, hsum] at hjoin
  exact ⟨hlo.trans hhi,by rw [reads_append, ht, hu, hjoin]⟩

theorem Sweep.touch {lo hi n : ℕ} {t : Log} (h : Sweep lo hi t) :
    Sweep lo (hi+n) (t++touched hi n) := h.append (sweep_touched hi n)

section SlowPath

variable {buf : Buf} {start stop : ℕ}

structure AtChunk (buf : Buf) (start stop : ℕ) (s : BitVec 64 × ℕ) (t : Log) : Prop where
  chunks : ∃ k, s.2 = start+8*k
  hi : s.2 ≤ stop
  state : s.1 = stateAt buf start s.2
  live : s.1 ≠ dfaReject
  sweep : Sweep start s.2 t

def ChunkExit (buf : Buf) (start stop : ℕ) (t : Log) : Option (BitVec 64 × ℕ) → Prop
  | none => ∃ k, start+8*k+8 ≤ stop ∧ stateAt buf start (start+8*k) ≠ dfaReject ∧
      stateAt buf start (start+8*k+8) = dfaReject ∧ Sweep start (start+8*k+8) t
  | some s => AtChunk buf start stop s t ∧ stop-s.2 < 8

theorem chunk_keeps (e : Endian) (hlen : stop ≤ buf.length) (s : BitVec 64 × ℕ) (t : Log)
    (h : AtChunk buf start stop s t) : Ensures (store buf) (chunk e buf stop s) t
      (Keeps (AtChunk buf start stop) (ChunkExit buf start stop)) := by
  obtain ⟨state,p⟩ := s
  have hp : p ≤ stop := h.hi
  obtain ⟨k,hk⟩ : ∃ k, p = start+8*k := h.chunks
  by_cases h8 : 8 ≤ stop-p
  · have hnext := stateAt_split buf (show start ≤ p by omega) (Nat.le_add_right p 8)
    have hst : state = stateAt buf start p := h.state
    rw [← hst] at hnext
    apply Ensures.of_reaches _ (chunk_full e h8 hlen)
    rw [← hnext]
    apply ensures_done
    by_cases hrej : stateAt buf start (p+8) = dfaReject
    · rw [if_pos hrej]
      subst hk
      exact ⟨k,by omega,hst ▸ h.live,hrej,h.sweep.touch⟩
    · rw [if_neg hrej]
      exact ⟨⟨k+1,by simp only [hk]; omega⟩,by simp only; omega,rfl,hrej,h.sweep.touch⟩
  · rw [chunk_rest e hp h8]
    apply ensures_done
    exact ⟨h,by simp only; omega⟩

theorem tail_keeps (hlen : stop ≤ buf.length) (s : BitVec 64 × ℕ) (t : Log)
    (h : s.2 ≤ stop ∧ Sweep start s.2 t) : Ensures (store buf) (tail buf stop s) t
      (Keeps (fun s t => s.2 ≤ stop ∧ Sweep start s.2 t) (fun t _ => Sweep start stop t)) := by
  obtain ⟨state,p⟩ := s
  obtain ⟨hp,hsweep⟩ : p ≤ stop ∧ Sweep start p t := h
  by_cases hlt : p < stop
  · apply Ensures.of_reaches _ (tail_byte hlt hlen)
    apply ensures_done
    exact ⟨hlt,hsweep.touch⟩
  · obtain rfl : p = stop := by omega
    rw [tail_end hlt]
    apply ensures_done
    exact hsweep

def Exits (buf : Buf) (start stop : ℕ) : Set ℕ :=
  {z | z = stop ∨ (∃ k, z = start+8*k) ∧ z ≤ stop ∧ Dead (slice buf start z)}

theorem exits_live {c : ℕ} {z : ℕ} (hlive : stateAt buf start c ≠ dfaReject)
    (hs : start ≤ z) (hdead : Dead (slice buf start z)) : c < z := by
  by_contra hle
  exact hlive (stateAt_dead hs (not_lt.mp hle) ((dfaRun_reject _).mpr hdead))

/-- The first exit is where the sweep of the slow path ends. -/
theorem verifyMultibyte_sweep (e : Endian) (hs : start ≤ stop) (hlen : stop ≤ buf.length) :
    Ensures (store buf) (verifyMultibyte e buf start stop) [] (fun t v =>
      ∃ z, IsLeast (Exits buf start stop) z ∧ Sweep start z t ∧ (v = true → z = stop)) := by
  have hfirst : AtChunk buf start stop (dfaAccept, start) [] :=
    ⟨⟨0,rfl⟩,hs,(stateAt_self buf start).symm,accept_ne_reject,sweep_nil start⟩
  apply Ensures.bind
  apply (ensures_loop (chunk_keeps e hlen) _ hfirst).mono
  intro t r hr
  cases r with
  | none =>
    obtain ⟨k,hk,hlive,hrej,hsweep⟩ := hr
    apply ensures_done
    refine ⟨start+8*k+8,⟨Or.inr ⟨⟨k+1,by omega⟩,hk,(dfaRun_reject _).mp hrej⟩,?_⟩,hsweep,?_⟩
    · rintro z (rfl | ⟨⟨j,rfl⟩,-,hdead⟩)
      · exact hk
      · have hlt := exits_live hlive (Nat.le_add_right start _) hdead
        omega
    · exact fun h => absurd h Bool.false_ne_true
  | some s =>
    obtain ⟨hat,hleft⟩ := hr
    obtain ⟨k,hk⟩ := hat.chunks
    have hhi := hat.hi
    apply Ensures.bind
    apply (ensures_loop (tail_keeps hlen) _ ⟨hat.hi,hat.sweep⟩).mono
    intro u state hu
    apply ensures_done
    refine ⟨stop,⟨Or.inl rfl,?_⟩,hu,fun _ => rfl⟩
    rintro z (rfl | ⟨⟨j,rfl⟩,-,hdead⟩)
    · exact le_rfl
    · have hlt := exits_live (hat.state ▸ hat.live) (Nat.le_add_right start _) hdead
      omega

/-- The slow path loads each byte of the range once, in order, up to the end of
the first chunk that no continuation saves, and to the end when there is none. -/
theorem slowPath_loads (e : Endian) (buf : Buf) (start stop : ℕ) (hs : start ≤ stop)
    (hlen : stop ≤ buf.length) :
    ∃ v t z, run (store buf) (verifyMultibyte e buf start stop) = .ok (v, t) ∧
      (v = true ↔ WellFormed (slice buf start stop)) ∧
      IsLeast {z | z = stop ∨
        (∃ k, z = start+8*k) ∧ z ≤ stop ∧ Dead (slice buf start z)} z ∧
      reads t = List.range' start (z-start) := by
  obtain ⟨t,c,hr,-⟩ := verifyMultibyte_reaches e hs hlen
  have hrun := reaches_done.mp hr
  obtain ⟨z,hz,hsweep,-⟩ := (verifyMultibyte_sweep e hs hlen).finished _ _ hrun
  refine ⟨_,t,z,hrun,?_,hz,hsweep.2⟩
  rw [decide_eq_true_iff]
  exact dfaRun_accept _

theorem slowPath_loads_of_overlong :
    ∃ v t, run (store (0xC0::List.replicate 40 0x41))
      (verifyMultibyte .big (0xC0::List.replicate 40 0x41) 0 41) = .ok (v, t) ∧
        reads t = List.range' 0 8 := by
  obtain ⟨v,t,z,hr,-,hz,hreads⟩ :=
    slowPath_loads .big (0xC0::List.replicate 40 0x41) 0 41 (by decide) (by decide)
  have hle : z ≤ 8 := hz.2 (Or.inr ⟨⟨1,rfl⟩,by decide,by decide⟩)
  obtain rfl : z = 8 := by
    rcases hz.1 with rfl | ⟨⟨k,rfl⟩,-,hdead⟩
    · exact absurd hle (by decide)
    · have hpos : k ≠ 0 := by
        rintro rfl
        exact absurd hdead (by decide)
      omega
  exact ⟨v,t,hr,hreads⟩

end SlowPath

section FastPath

variable {buf : Buf} {start stop : ℕ}

end FastPath

/-- No index is loaded more than three times, the loads are at most `STEP+8` more
than the range has bytes, and a range is not accepted before all of it is loaded. -/
structure Frugal (STEP start stop : ℕ) (v : Bool) (is : List ℕ) : Prop where
  thrice : ∀ i, is.count i ≤ 3
  total : is.length ≤ stop-start+STEP+8
  covered : v = true → ∀ i, start ≤ i → i < stop → i ∈ is

def asciiLoads (PAD start stop : ℕ) : List ℕ :=
  if 8 ≤ stop-start then
    List.range' start (8*((stop-start)/8))++
      (if 8 ∣ stop-start then [] else List.range' (stop-8) 8)
  else if start = stop then []
  else if 8 ≤ PAD then List.range' start 8
  else if 4 ≤ stop-start then List.range' start 4++List.range' (stop-4) 4
  else if 2 ≤ stop-start then List.range' start 2++List.range' (stop-2) 2
  else List.range' start 1

structure RunLoads (STEP PAD : ℕ) (buf : Buf) (start stop : ℕ) (t : Log) (v : Bool) : Prop where
  frugal : Frugal STEP start stop v (reads t)
  ascii : Ascii buf start stop → marks t = [] → reads t = asciiLoads PAD start stop

section Runs

variable {e : Endian} {w : ℕ} {s : Variant} {X : Externs} {buf : Buf} {start stop : ℕ}

theorem RunLoads.handed {STEP PAD : ℕ} {t u : Log} {v : Bool} (hu : marks u ≠ [])
    (h : Frugal STEP start stop v (reads (t++u))) : RunLoads STEP PAD buf start stop (t++u) v where
  frugal := h
  ascii := by
    intro _ hnone
    exact absurd hnone (by simp [hu])

end Runs

end SmoothUtf8.LoadCosts
