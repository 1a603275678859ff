import SmoothUtf8.EntryPoints

/-!
# What a run leaves in its log

In the builds with the packed automaton and no delegation every load is made by
the crate itself, so a run's log holds all of them. Three facts are read off
it: the loads stay where the entry point may look, the slow path is entered
exactly when it has to be, and a hopeless range is given up in time.
-/

set_option autoImplicit false

namespace SmoothUtf8.RunLogs
open Library.CheckedProgram Library.Slice
open LeafLoads Table37 ShiftDfa SignBits AsciiSkip VerifyImpl EntryPoints

def dfaBuild (e : Endian) (pointerWidth : ℕ) (v : Variant) : Build :=
  ⟨e,pointerWidth,v,.shiftDfa,false,false⟩

section Logs

variable {e : Endian} {w : ℕ} {s : Variant} {X : Externs} {PAD : ℕ} {buf : Buf}
  {start stop : ℕ} {v : Bool} {t : Log}

theorem dfa_valid (e : Endian) (w : ℕ) (s : Variant) (X : Externs) (PAD : ℕ) {buf : Buf}
    {start stop : ℕ} (hs : start ≤ stop) (hlen : stop+PAD ≤ buf.length) :
    ∃ v t, run (store buf) (verifyImpl ((dfaBuild e w s).parts X) PAD buf start stop) =
        .ok (v, t) ∧
      Ran ((dfaBuild e w s).parts X) PAD (Stops (s.imp e) buf stop) buf start stop v t ∧
      (v = true ↔ WellFormed (slice buf start stop)) :=
  verifyImpl_valid (Build.sound_alone X rfl rfl) PAD hs hlen

theorem dfa_withSlack (e : Endian) (w : ℕ) (s : Variant) (X : Externs) {buf : Buf}
    {start stop : ℕ} (hs : start ≤ stop) (hlen : stop+SLACK ≤ buf.length) :
    verifyWithSlack (dfaBuild e w s) X buf start stop =
      verifyImpl ((dfaBuild e w s).parts X) SLACK buf start stop :=
  (verifyWithSlack_eq (dfaBuild e w s) X hs hlen).trans
    (if_neg (fun h => Bool.false_ne_true h.1))

theorem dfa_withSlack_valid (e : Endian) (w : ℕ) (s : Variant) (X : Externs) {buf : Buf}
    {start stop : ℕ} (hs : start ≤ stop) (hlen : stop+SLACK ≤ buf.length) :
    ∃ v t, run (store buf) (verifyWithSlack (dfaBuild e w s) X buf start stop) = .ok (v, t) ∧
      Ran ((dfaBuild e w s).parts X) SLACK (Stops (s.imp e) buf stop) buf start stop v t ∧
      (v = true ↔ WellFormed (slice buf start stop)) := by
  rw [dfa_withSlack e w s X hs hlen]
  exact dfa_valid e w s X SLACK hs hlen

theorem slow_log {p : ℕ} {u : Log} (hp : p ≤ stop) (hlen : stop ≤ buf.length)
    (h : run (store buf) (((dfaBuild e w s).parts X).verifyMultibyte buf p stop) = .ok (v, u)) :
    run (store buf) (Multibyte.verifyMultibyte e buf p stop) = .ok (v, u) ∧
      ∃ c, p ≤ c ∧ c ≤ stop ∧ Multibyte.stateAt buf p c ≠ dfaReject ∧
        Quiet p (min stop (c+8)) u := by
  obtain ⟨u',c,hr,hc⟩ := Multibyte.verifyMultibyte_reaches e hp hlen
  obtain ⟨-,rfl⟩ := run_unique h (reaches_done.mp hr)
  exact ⟨h,c,hc⟩

theorem mem_reads_handed {p i : ℕ} {t u : Log} :
    i ∈ reads (t++(.mark (.enter p stop)::u++[.mark (.leave v)])) ↔ i ∈ reads t ∨ i ∈ reads u := by
  simp

/-- Every load of a run lies between the start of the range and its reach. -/
theorem ran_reads {R : ℕ → Prop} (hlen : stop ≤ buf.length)
    (h : Ran ((dfaBuild e w s).parts X) PAD R buf start stop v t) :
    ∀ i ∈ reads t, start ≤ i ∧ i < reach PAD start stop := by
  cases h with
  | passed h => exact h.quiet.1
  | @handed p t u v h hslow =>
    obtain ⟨-,c,-,-,-,hq⟩ := slow_log h.hi.le hlen hslow
    have hlo := h.lo
    have hfar : stop ≤ reach PAD start stop := reach_ge PAD
    intro i hi
    rcases mem_reads_handed.mp hi with hi | hi
    · have hb := h.quiet.1 i hi
      omega
    · have hb := hq.1 i hi
      omega

theorem ran_marks {R : ℕ → Prop} (hlen : stop ≤ buf.length)
    (h : Ran ((dfaBuild e w s).parts X) PAD R buf start stop v t) :
    (Ascii buf start stop ∧ v = true ∧ marks t = []) ∨
    ∃ p u, Handed ((dfaBuild e w s).parts X) PAD R buf start stop p u ∧
      (∃ c, run (store buf) (Multibyte.verifyMultibyte e buf p stop) = .ok (v, c)) ∧
      marks t = [.enter p stop,.leave v] := by
  cases h with
  | passed h => exact Or.inl ⟨h.ascii,rfl,h.quiet.2⟩
  | @handed p t u v h hslow =>
    obtain ⟨hrun,c,-,-,-,hq⟩ := slow_log h.hi.le hlen hslow
    refine Or.inr ⟨p,t,h,⟨u,hrun⟩,?_⟩
    simp [h.quiet.2, hq.2]

theorem dead_not_wellFormed {s : List UInt8} (h : Dead s) : ¬ WellFormed s := by
  have h0 := h []
  rwa [List.append_nil] at h0

theorem dead_past_ascii {p r : ℕ} (hdead : Dead (slice buf start r))
    (hascii : Ascii buf start p) : p < r := by
  by_contra hle
  exact dead_not_wellFormed hdead
    (ascii_wellFormed (allOn_mono le_rfl (not_lt.mp hle) hascii))

theorem slow_prompt {p r : ℕ} {u : Log} (hp : p ≤ r) (hr : r ≤ stop)
    (hdead : Dead (slice buf p r)) {c : ℕ}
    (hlive : Multibyte.stateAt buf p c ≠ dfaReject) (hq : Quiet p (min stop (c+8)) u) :
    ∀ i ∈ reads u, i < r+7 := by
  have hrej : Multibyte.stateAt buf p r = dfaReject := (dfaRun_reject _).mpr hdead
  have hc : c < r := by
    by_contra hle
    exact hlive (Multibyte.stateAt_dead hp (not_lt.mp hle) hrej)
  intro i hi
  have hb := hq.1 i hi
  omega

/-- A run on a range with a dead prefix looks less than a block past it. -/
theorem ran_prompt {R : ℕ → Prop} {r : ℕ} (hr : start ≤ r) (hrs : r ≤ stop)
    (hlen : stop ≤ buf.length) (hdead : Dead (slice buf start r))
    (h : Ran ((dfaBuild e w s).parts X) PAD R buf start stop v t) :
    ∀ i ∈ reads t, i < r+(s.imp e).STEP-1 := by
  have h16 := variant_step e s
  cases h with
  | passed h => exact absurd (dead_past_ascii hdead h.ascii) (not_lt.mpr hrs)
  | @handed p t u v h hslow =>
    obtain ⟨-,c,-,-,hlive,hq⟩ := slow_log h.hi.le hlen hslow
    have hpr := dead_past_ascii hdead h.ascii
    have hcut := (ascii_cut h.lo hpr.le h.ascii).2.mp hdead
    have hslowreads := slow_prompt hpr.le hrs hcut hlive hq
    intro i hi
    rcases mem_reads_handed.mp hi with hi | hi
    · have hb := h.quiet.1 i hi
      have hstep : ((dfaBuild e w s).parts X).imp.STEP = (s.imp e).STEP := rfl
      omega
    · have hb := hslowreads i hi
      omega

end Logs

theorem verify_unchecked_free (e : Endian) (w : ℕ) (s : Variant) (X : Externs) (b : Buf) :
    ∃ v t, run (store b) (verify (dfaBuild e w s) X b) = .ok (v, t) ∧
      (v = true ↔ WellFormed b) ∧ ∀ bytes, .unchecked bytes ∉ marks t := by
  obtain ⟨v,t,hr,hran,hv⟩ := dfa_valid e w s X 0 (Nat.zero_le b.length) le_rfl
  rw [slice_all] at hv
  refine ⟨v,t,hr,hv,fun bytes => ?_⟩
  rcases ran_marks le_rfl hran with ⟨-,-,hm⟩ | ⟨p,u,-,-,hm⟩ <;> simp [hm]

def FirstNonAscii (buf : Buf) (start stop f : ℕ) : Prop :=
  start ≤ f ∧ f < stop ∧ (∀ b ∈ slice buf start f, b < 0x80) ∧ ∃ a, buf[f]? = some a ∧ 0x80 ≤ a

theorem exists_firstNonAscii {buf : Buf} {start stop : ℕ} (hs : start ≤ stop)
    (hlen : stop ≤ buf.length) (h : ¬ Ascii buf start stop) :
    ∃ f, FirstNonAscii buf start stop f := by
  obtain ⟨f,hlo,hhi,hfront,a,ha,hbad⟩ := first_failure hs hlen h
  exact ⟨f,hlo,hhi,hfront,a,ha,not_lt.mp hbad⟩

theorem firstNonAscii_not {buf : Buf} {start stop f p q : ℕ} (h : FirstNonAscii buf start stop f)
    (hp : p ≤ f) (hq : f < q) : ¬ Ascii buf p q := by
  obtain ⟨-,-,-,a,ha,hbad⟩ := h
  obtain ⟨hlt,rfl⟩ := List.getElem?_eq_some_iff.mp ha
  intro hall
  exact not_lt.mpr hbad ((ascii_one hlt).mp (allOn_mono hp hq hall))

/-- What is left below `80` before and after a hand-off pins its place: at or
before the first byte that is not, by less than a block. -/
theorem handed_near {e : Endian} {w : ℕ} {s : Variant} {X : Externs} {PAD : ℕ} {buf : Buf}
    {start stop p f : ℕ} {u : Log}
    (h : Handed ((dfaBuild e w s).parts X) PAD (Stops (s.imp e) buf stop) buf start stop p u)
    (hf : FirstNonAscii buf start stop f) : p ≤ f ∧ f < p+(s.imp e).STEP := by
  have h16 := variant_step e s
  have hpf : p ≤ f := by
    by_contra hlt
    exact firstNonAscii_not hf hf.1 (not_le.mp hlt) h.ascii
  have hwithin : ∀ q, ¬ Ascii buf p q → f < q := by
    intro q hq
    by_contra hle
    exact hq (allOn_mono h.lo (not_lt.mp hle) hf.2.2.1)
  refine ⟨hpf,?_⟩
  rcases h.near with ⟨hblock,hstops⟩ | hnot
  · rcases hstops with hleft | hnot
    · exact absurd hblock (not_le.mpr hleft)
    · exact hwithin _ hnot
  · have hlt := hwithin _ hnot
    omega

/-- The loads of both entry points, in every build with the packed automaton
and for every scan. A finished run has met no failed assertion, no subtraction
below zero, no sum past the buffer and no mask shift outside `8..=56`. -/
theorem loads_in_bounds (e : Endian) (w : ℕ) (s : Variant) (X : Externs) :
    (∀ b : Buf, ∃ v t, run (store b) (verify (dfaBuild e w s) X b) = .ok (v, t) ∧
      ∀ i ∈ reads t, i < b.length) ∧
    ∀ (buf : Buf) (start stop : ℕ), start ≤ stop → stop+SLACK ≤ buf.length →
      ∃ v t, run (store buf) (verifyWithSlack (dfaBuild e w s) X buf start stop) = .ok (v, t) ∧
        ∀ i ∈ reads t, start ≤ i ∧ i < stop+7 ∧ i < buf.length ∧
          (stop ≤ i → 1 ≤ stop-start ∧ stop-start ≤ 7) := by
  constructor
  · intro b
    obtain ⟨v,t,hr,-⟩ := dfa_valid e w s X 0 (Nat.zero_le b.length) le_rfl
    exact ⟨v,t,hr,fun i hi => run_store_lt hr hi⟩
  · intro buf start stop hs hlen
    obtain ⟨v,t,hr,hran,-⟩ := dfa_withSlack_valid e w s X hs hlen
    refine ⟨v,t,hr,?_⟩
    intro i hi
    have hin := run_store_lt hr hi
    have hb := ran_reads (by omega) hran i hi
    rw [reach] at hb
    split_ifs at hb with hpad <;> omega

theorem loads_of_padded_field :
    (∃ v t, run (store [0x41,0xC3]) (verify (dfaBuild .big 64 .avx2) ⟨isValidUtf8,isValidUtf8⟩
      [0x41,0xC3]) = .ok (v, t) ∧ ∀ i ∈ reads t, i < 2) ∧
    ∃ v t, run (store (List.replicate 12 0x41))
        (verifyWithSlack (dfaBuild .big 64 .avx2) ⟨isValidUtf8,isValidUtf8⟩
          (List.replicate 12 0x41) 1 4) = .ok (v, t) ∧
      ∀ i ∈ reads t, 1 ≤ i ∧ i < 4+7 ∧ i < 12 ∧ (4 ≤ i → 1 ≤ 4-1 ∧ 4-1 ≤ 7) := by
  have h := loads_in_bounds .big 64 .avx2 ⟨isValidUtf8,isValidUtf8⟩
  exact ⟨h.1 _,h.2 (List.replicate 12 0x41) 1 4 (by decide) (by decide)⟩

/-- A finished run with result `v` entered the slow path exactly when the range
has a byte that is not below `80`. It entered it once, less than a block before
the first such byte, and returned its result. -/
def HandsOffExactly (e : Endian) (STEP : ℕ) (buf : Buf) (start stop : ℕ) (v : Bool) (t : Log) :
    Prop :=
  ((∀ b ∈ slice buf start stop, b < 0x80) ∧ v = true ∧ marks t = []) ∨
  ((¬ ∀ b ∈ slice buf start stop, b < 0x80) ∧ ∃ p f, marks t = [.enter p stop,.leave v] ∧
    (∃ u, run (store buf) (Multibyte.verifyMultibyte e buf p stop) = .ok (v, u)) ∧
    start ≤ p ∧ (∀ b ∈ slice buf start p, b < 0x80) ∧
    FirstNonAscii buf start stop f ∧ p ≤ f ∧ f < p+STEP)

theorem ran_handsOff {e : Endian} {w : ℕ} {s : Variant} {X : Externs} {PAD : ℕ} {buf : Buf}
    {start stop : ℕ} {v : Bool} {t : Log} (hlen : stop ≤ buf.length)
    (h : Ran ((dfaBuild e w s).parts X) PAD (Stops (s.imp e) buf stop) buf start stop v t) :
    HandsOffExactly e (s.imp e).STEP buf start stop v t := by
  have h16 := variant_step e s
  rcases ran_marks hlen h with ⟨hascii,rfl,hm⟩ | ⟨p,u,hp,hrun,hm⟩
  · exact Or.inl ⟨hascii,rfl,hm⟩
  · have hnot : ¬ Ascii buf start stop := by
      intro hall
      have hlo := hp.lo
      have hhi := hp.hi
      rcases hp.near with ⟨hblock,hleft | hnot⟩ | hnot
      · exact absurd hblock (not_le.mpr hleft)
      · have hfull : p+(s.imp e).STEP ≤ stop := by
          have hstep : ((dfaBuild e w s).parts X).imp.STEP = (s.imp e).STEP := rfl
          omega
        exact hnot (allOn_mono hlo hfull hall)
      · exact hnot (allOn_mono hlo (min_le_left _ _) hall)
    obtain ⟨f,hf⟩ := exists_firstNonAscii (hp.lo.trans hp.hi.le) hlen hnot
    exact Or.inr ⟨hnot,p,f,hm,hrun,hp.lo,hp.ascii,hf,handed_near hp hf⟩

theorem slow_path_exact (e : Endian) (w : ℕ) (s : Variant) (X : Externs) :
    (∀ b : Buf, ∃ v t, run (store b) (verify (dfaBuild e w s) X b) = .ok (v, t) ∧
      HandsOffExactly e (s.imp e).STEP b 0 b.length v t) ∧
    ∀ (buf : Buf) (start stop : ℕ), start ≤ stop → stop+SLACK ≤ buf.length →
      ∃ v t, run (store buf) (verifyWithSlack (dfaBuild e w s) X buf start stop) = .ok (v, t) ∧
        HandsOffExactly e (s.imp e).STEP buf start stop v t := by
  constructor
  · intro b
    obtain ⟨v,t,hr,hran,-⟩ := dfa_valid e w s X 0 (Nat.zero_le b.length) le_rfl
    exact ⟨v,t,hr,ran_handsOff le_rfl hran⟩
  · intro buf start stop hs hlen
    obtain ⟨v,t,hr,hran,-⟩ := dfa_withSlack_valid e w s X hs hlen
    exact ⟨v,t,hr,ran_handsOff (by omega) hran⟩

theorem slow_path_skipped_over_slack :
    (∃ v t, run (store [0x41,0xC3]) (verify (dfaBuild .little 64 .neon)
        ⟨isValidUtf8,isValidUtf8⟩ [0x41,0xC3]) = .ok (v, t) ∧
      HandsOffExactly .little 32 [0x41,0xC3] 0 2 v t) ∧
    ∃ t, run (store [0xFF,0x41,0x42,0xFF,0xFF,0xFF,0xFF,0xFF,0xFF,0xFF,0xFF])
        (verifyWithSlack (dfaBuild .little 64 .neon) ⟨isValidUtf8,isValidUtf8⟩
          [0xFF,0x41,0x42,0xFF,0xFF,0xFF,0xFF,0xFF,0xFF,0xFF,0xFF] 1 3) = .ok (true, t) ∧
      marks t = [] := by
  have h := slow_path_exact .little 64 .neon ⟨isValidUtf8,isValidUtf8⟩
  refine ⟨h.1 _,?_⟩
  obtain ⟨v,t,hr,hoff⟩ :=
    h.2 [0xFF,0x41,0x42,0xFF,0xFF,0xFF,0xFF,0xFF,0xFF,0xFF,0xFF] 1 3 (by decide) (by decide)
  rcases hoff with ⟨-,rfl,hm⟩ | ⟨hnot,-⟩
  · exact ⟨t,hr,hm⟩
  · exact absurd (List.all_eq_true.mp (by decide : ([0x41,0x42] : Buf).all (· < 0x80) = true))
      (fun h => hnot (fun b hb => decide_eq_true_iff.mp (h b hb)))

/-- A range with a dead prefix that ends at `r`, the shortest one among others,
is rejected even when nothing can be read `STEP-1` bytes past `r`; for the slow
path alone, 7 bytes past `r`. -/
theorem prompt_rejection (e : Endian) (w : ℕ) (s : Variant) (X : Externs) :
    (∀ (b : Buf) (r : ℕ), r ≤ b.length → Dead (slice b 0 r) →
      ∃ t, run (below (r+(s.imp e).STEP-1) (store b)) (verify (dfaBuild e w s) X b) =
        .ok (false, t)) ∧
    (∀ (buf : Buf) (start stop r : ℕ), start ≤ r → r ≤ stop → stop+SLACK ≤ buf.length →
      Dead (slice buf start r) →
      ∃ t, run (below (r+(s.imp e).STEP-1) (store buf))
        (verifyWithSlack (dfaBuild e w s) X buf start stop) = .ok (false, t)) ∧
    ∀ (buf : Buf) (start stop r : ℕ), start ≤ r → r ≤ stop → stop ≤ buf.length →
      Dead (slice buf start r) →
      ∃ t, run (below (r+7) (store buf)) (Multibyte.verifyMultibyte e buf start stop) =
        .ok (false, t) := by
  have hno : ∀ (buf : Buf) (start stop r : ℕ), start ≤ r → r ≤ stop →
      Dead (slice buf start r) → ¬ WellFormed (slice buf start stop) := by
    intro buf start stop r hr hrs hdead
    rw [← slice_append buf hr hrs]
    exact hdead _
  refine ⟨?_,?_,?_⟩
  · intro b r hr hdead
    obtain ⟨v,t,hrun,hran,hv⟩ := dfa_valid e w s X 0 (Nat.zero_le b.length) le_rfl
    obtain rfl := Bool.eq_false_iff.mpr (fun h => hno b 0 _ r (Nat.zero_le r) hr hdead (hv.mp h))
    exact ⟨t,run_below hrun (ran_prompt (Nat.zero_le r) hr le_rfl hdead hran)⟩
  · intro buf start stop r hr hrs hlen hdead
    obtain ⟨v,t,hrun,hran,hv⟩ := dfa_withSlack_valid e w s X (hr.trans hrs) hlen
    obtain rfl := Bool.eq_false_iff.mpr (fun h => hno buf start stop r hr hrs hdead (hv.mp h))
    exact ⟨t,run_below hrun (ran_prompt hr hrs (by omega) hdead hran)⟩
  · intro buf start stop r hr hrs hlen hdead
    obtain ⟨t,c,hrun,-,-,hlive,hq⟩ := Multibyte.verifyMultibyte_reaches e (hr.trans hrs) hlen
    have hfalse : decide (Multibyte.stateAt buf start stop = dfaAccept) = false :=
      decide_eq_false (fun h => hno buf start stop r hr hrs hdead ((dfaRun_accept _).mp h))
    rw [hfalse] at hrun
    exact ⟨t,run_below (reaches_done.mp hrun) (slow_prompt hr hrs hdead hlive hq)⟩

theorem prompt_rejection_of_overlong :
    (∃ t, run (below (1+16-1) (store (0xC0::List.replicate 40 0x41)))
      (verify (dfaBuild .little 64 .swar) ⟨isValidUtf8,isValidUtf8⟩
        (0xC0::List.replicate 40 0x41)) = .ok (false, t)) ∧
    (∃ t, run (below (2+16-1) (store (0x41::0xC0::List.replicate 40 0x41)))
      (verifyWithSlack (dfaBuild .little 64 .swar) ⟨isValidUtf8,isValidUtf8⟩
        (0x41::0xC0::List.replicate 40 0x41) 1 30) = .ok (false, t)) ∧
    ∃ t, run (below (2+7) (store (0x41::0xC0::List.replicate 40 0x41)))
      (Multibyte.verifyMultibyte .little (0x41::0xC0::List.replicate 40 0x41) 0 42) =
        .ok (false, t) := by
  have h := prompt_rejection .little 64 .swar ⟨isValidUtf8,isValidUtf8⟩
  exact ⟨h.1 (0xC0::List.replicate 40 0x41) 1 (by decide) (by decide),
    h.2.1 (0x41::0xC0::List.replicate 40 0x41) 1 30 2 (by decide) (by decide) (by decide)
      (by decide),
    h.2.2 (0x41::0xC0::List.replicate 40 0x41) 0 42 2 (by decide) (by decide) (by decide)
      (by decide)⟩

end SmoothUtf8.RunLogs
