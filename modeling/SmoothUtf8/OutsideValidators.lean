import SmoothUtf8.SlackBufApi

/-!
# The validators outside the crate

Nothing is assumed of them here. Every run still returns and reads inside the
buffer, and its verdict is the crate's own or one answer it asked for. A verdict
that is wrong, or a `str` made of bytes that are not UTF-8, is thus the fault of an
outside validator that misjudged what this build asks it about.
-/

set_option autoImplicit false

namespace SmoothUtf8.OutsideValidators
open Library.CheckedProgram Library.Slice
open LeafLoads Table37 ShiftDfa SignBits AsciiSkip VerifyImpl EntryPoints SlackBufApi

def Delegates (B : Build) (n : ℕ) : Prop := B.simdutf8 = true ∧ B.LONG_THRESHOLD ≤ n

/-- Where the verdict of a run comes from: the crate, or the one outside validator
that it asked and the stretch that it asked about. -/
inductive Answered (B : Build) (X : Externs) (buf : Buf) (start stop : ℕ) : Bool → Prop where
  | own {v : Bool} (hshort : ¬ Delegates B (stop-start))
      (halone : B.slowPath = .shiftDfa ∨ Ascii buf start stop)
      (h : v = true ↔ WellFormed (slice buf start stop)) : Answered B X buf start stop v
  | long (h : Delegates B (stop-start)) :
      Answered B X buf start stop (X.simdutf8 (slice buf start stop))
  | slow {p : ℕ} (hshort : ¬ Delegates B (stop-start)) (hslow : B.slowPath = .coreStr)
      (hlo : start ≤ p) (hhi : p < stop) (hascii : Ascii buf start p)
      (hnot : ¬ Ascii buf p stop) : Answered B X buf start stop (X.coreStr (slice buf p stop))

/-- An outside validator gives the wrong answer `v` about `s`, or about what follows
the bytes below `80` at its front. -/
inductive Misjudged (B : Build) (X : Externs) (v : Bool) (s : List UInt8) : Prop where
  | long (h : Delegates B s.length) (hv : X.simdutf8 s = v) (hbad : ¬ (v = true ↔ WellFormed s))
  | slow {a c : List UInt8} (hslow : B.slowPath = .coreStr) (hs : s = a++c)
      (hascii : ∀ b ∈ a, b < 0x80) (hv : X.coreStr c = v) (hbad : ¬ (v = true ↔ WellFormed c))

section Runs

variable {B : Build} {X : Externs} {buf : Buf} {start stop : ℕ}

theorem Answered.misjudged {v : Bool} (h : Answered B X buf start stop v)
    (hlen : stop ≤ buf.length) (hbad : ¬ (v = true ↔ WellFormed (slice buf start stop))) :
    Misjudged B X v (slice buf start stop) := by
  cases h with
  | own hshort halone h => exact absurd h hbad
  | long h =>
    rw [← length_slice buf hlen] at h
    exact .long h rfl hbad
  | @slow p hshort hslow hlo hhi hascii hnot =>
    rw [(ascii_cut hlo hhi.le hascii).1] at hbad
    exact .slow hslow (slice_append buf hlo hhi.le).symm hascii rfl hbad

theorem multibyte_answers (B : Build) (X : Externs) (hs : start ≤ stop)
    (hlen : stop ≤ buf.length) :
    ∃ v t, run (store buf) (B.verifyMultibyte X buf start stop) = .ok (v, t) ∧ marks t = [] ∧
      (B.slowPath = .shiftDfa ∧ (v = true ↔ WellFormed (slice buf start stop)) ∨
        B.slowPath = .coreStr ∧ v = X.coreStr (slice buf start stop)) := by
  rw [Build.verifyMultibyte]
  cases hslow : B.slowPath with
  | shiftDfa =>
    obtain ⟨t,c,hr,-,-,-,hquiet⟩ := Multibyte.verifyMultibyte_reaches B.endian hs hlen
    refine ⟨_,t,reaches_done.mp hr,hquiet.2,Or.inl ⟨rfl,?_⟩⟩
    rw [decide_eq_true_iff]
    exact dfaRun_accept _
  | coreStr =>
    have hrun : run (store buf) (do
        let s ← index buf start stop
        pure (X.coreStr s)) = .ok (X.coreStr (slice buf start stop), []) := by
      rw [index_pos hs hlen]
      rfl
    exact ⟨_,[],hrun,rfl,Or.inr ⟨rfl,rfl⟩⟩

theorem handed_not_ascii {PAD p : ℕ} {t : Log}
    (h : Handed (B.parts X) PAD (Stops (B.parts X).imp buf stop) buf start stop p t) :
    ¬ Ascii buf p stop := by
  intro hall
  have hhi := h.hi
  rcases h.near with ⟨hblock,hstops⟩ | hnot
  · rcases hstops with hleft | hnot
    · exact absurd hblock (not_le.mpr hleft)
    · exact hnot (allOn_mono le_rfl (by omega) hall)
  · exact hnot (allOn_mono le_rfl (min_le_left _ _) hall)

/-- A run returns with one verdict of its own or of the slow path, and makes no `str`. -/
theorem verifyImpl_answered (PAD : ℕ) (hs : start ≤ stop) (hlen : stop+PAD ≤ buf.length)
    (hshort : ¬ Delegates B (stop-start)) :
    ∃ v t, run (store buf) (verifyImpl (B.parts X) PAD buf start stop) = .ok (v, t) ∧
      Answered B X buf start stop v ∧ ∀ s, .unchecked s ∉ marks t := by
  have hin : stop ≤ buf.length := by omega
  have hslow : ∀ p, start ≤ p → p < stop →
      ∃ v t, run (store buf) ((B.parts X).verifyMultibyte buf p stop) = .ok (v, t) := by
    intro p _ hp
    obtain ⟨v,t,hr,-⟩ := multibyte_answers B X hp.le hin
    exact ⟨v,t,hr⟩
  have h16 := step_pos B X
  obtain ⟨v,t,hr,hran⟩ := verifyImpl_ran (B.parts X) PAD (Stops (B.parts X).imp buf stop)
    (by omega) hs hlen (skip_stops B X hs hin) hslow
  refine ⟨v,t,hr,?_⟩
  cases hran with
  | passed h =>
    exact ⟨.own hshort (Or.inr h.ascii) (iff_of_true rfl (ascii_wellFormed h.ascii)),
      by simp [h.quiet.2]⟩
  | @handed p t u v h hrun =>
    obtain ⟨v',u',hr',hmarks,hanswer⟩ := multibyte_answers B X h.hi.le hin
    obtain ⟨rfl,rfl⟩ := run_unique hrun hr'
    constructor
    · rcases hanswer with ⟨halone,hv⟩ | ⟨hcore,rfl⟩
      · exact .own hshort (Or.inl halone) (hv.trans (ascii_cut h.lo h.hi.le h.ascii).1.symm)
      · exact .slow hshort hcore h.lo h.hi h.ascii (handed_not_ascii h)
    · simp [h.quiet.2, hmarks]

theorem verifyLong_answered (hs : start ≤ stop) (hlen : stop ≤ buf.length)
    (hlong : Delegates B (stop-start)) :
    ∃ v t, run (store buf) (verifyLong X buf start stop) = .ok (v, t) ∧
      Answered B X buf start stop v ∧ ∀ s, .unchecked s ∉ marks t := by
  rw [verifyLong, index_pos hs hlen]
  exact ⟨_,[],rfl,.long hlong,by simp⟩

theorem verify_answered (B : Build) (X : Externs) (b : Buf) :
    ∃ v t, run (store b) (EntryPoints.verify B X b) = .ok (v, t) ∧
      Answered B X b 0 b.length v ∧ ∀ s, .unchecked s ∉ marks t := by
  rw [EntryPoints.verify]
  by_cases hlong : Delegates B (b.length-0)
  · rw [if_pos (show B.simdutf8 = true ∧ B.LONG_THRESHOLD ≤ b.length from hlong)]
    exact verifyLong_answered (Nat.zero_le _) le_rfl hlong
  · rw [if_neg (show ¬ (B.simdutf8 = true ∧ B.LONG_THRESHOLD ≤ b.length) from hlong)]
    exact verifyImpl_answered 0 (Nat.zero_le _) le_rfl hlong

theorem verifyWithSlack_answered (B : Build) (X : Externs) (hs : start ≤ stop)
    (hlen : stop+SLACK ≤ buf.length) :
    ∃ v t, run (store buf) (verifyWithSlack B X buf start stop) = .ok (v, t) ∧
      Answered B X buf start stop v ∧ ∀ s, .unchecked s ∉ marks t := by
  rw [verifyWithSlack_eq B X hs hlen]
  by_cases hlong : Delegates B (stop-start)
  · rw [if_pos (show B.simdutf8 = true ∧ B.LONG_THRESHOLD ≤ stop-start from hlong)]
    exact verifyLong_answered hs (by omega) hlong
  · rw [if_neg (show ¬ (B.simdutf8 = true ∧ B.LONG_THRESHOLD ≤ stop-start) from hlong)]
    exact verifyImpl_answered SLACK hs hlen hlong

end Runs

section Methods

variable {B : Build} {X : Externs}

theorem fromUtf8_blamed (B : Build) (X : Externs) (b : Buf) :
    ∃ o t, run (store b) (fromUtf8 B X b) = .ok (o, t) ∧
      ∀ s, .unchecked s ∈ marks t → ¬ WellFormed s → Misjudged B X true s := by
  obtain ⟨v,t,hr,hanswered,hfree⟩ := verify_answered B X b
  have hfrom := Encoding.fromUtf8_run hr
  cases v with
  | true =>
    refine ⟨_,_,hfrom,fun s hs hbad => ?_⟩
    rw [marks_append, List.mem_append] at hs
    rcases hs with hs | hs
    · exact absurd hs (hfree s)
    · obtain rfl : s = b := by simpa using hs
      have h := hanswered.misjudged le_rfl
      rw [slice_all] at h
      exact h (fun hw => hbad (hw.mp rfl))
  | false => exact ⟨_,_,hfrom,fun s hs => absurd hs (hfree s)⟩

theorem slackVerify_answered (B : Build) (X : Externs) {sb : SlackBuf B.pointerWidth}
    {r : RangeUsize B.pointerWidth} (h : Inside sb r) :
    ∃ v t, run (store sb.bytes) (sb.verify B X r) = .ok (v, t) ∧
      Answered B X sb.bytes r.start.toNat r.stop.toNat v ∧ ∀ s, .unchecked s ∉ marks t := by
  rw [SlackBuf.verify, Prog.check_pos ((range_iff sb r).mpr h), Prog.done_bind]
  exact verifyWithSlack_answered B X h.1 h.2

structure Accounted (B : Build) (X : Externs) (r : Reply) : Prop where
  clean : Clean r
  blamed : ∀ t s, r = .ok t → .unchecked s ∈ marks t → ¬ WellFormed s → Misjudged B X true s

theorem Accounted.of_panics {α : Type} {o : Outcome Mark Fault α} (h : Panics o) :
    Accounted B X (reply o) := by
  rw [Panics] at h
  rw [h, reply]
  constructor
  · exact Or.inr rfl
  · intro t s hr
    cases hr

theorem Accounted.of_free {α : Type} {o : Outcome Mark Fault α} {a : α} {t : Log}
    (h : o = .ok (a, t)) (hfree : ∀ s, .unchecked s ∉ marks t) : Accounted B X (reply o) := by
  rw [h, reply]
  constructor
  · exact Or.inl ⟨t,rfl⟩
  · intro t' s hr hs
    cases hr
    exact absurd hs (hfree s)

theorem slackVerify_accounted (sb : SlackBuf B.pointerWidth) (r : RangeUsize B.pointerWidth) :
    Accounted B X (reply (run (store sb.bytes) (sb.verify B X r))) := by
  by_cases h : Inside sb r
  · obtain ⟨v,t,hr,-,hfree⟩ := slackVerify_answered B X h
    exact .of_free hr hfree
  · exact .of_panics (verify_panics h)

theorem toStr_accounted (sb : SlackBuf B.pointerWidth) (r : RangeUsize B.pointerWidth) :
    Accounted B X (reply (run (store sb.bytes) (sb.toStr B X r))) := by
  by_cases h : Inside sb r
  · obtain ⟨v,t,hr,hanswered,hfree⟩ := slackVerify_answered B X h
    have hstr := toStr_run h hr
    cases v with
    | true =>
      rw [hstr, if_pos rfl, reply]
      constructor
      · exact Or.inl ⟨_,rfl⟩
      · intro u s hu hs hbad
        cases hu
        rw [marks_append, List.mem_append] at hs
        rcases hs with hs | hs
        · exact absurd hs (hfree s)
        · obtain rfl : s = slice sb.bytes r.start.toNat r.stop.toNat := by simpa using hs
          exact hanswered.misjudged ((Nat.le_add_right _ SLACK).trans h.2)
            (fun hw => hbad (hw.mp rfl))
    | false => exact .of_free hstr hfree
  · have hp := verify_panics (X := X) h
    apply Accounted.of_panics
    rw [Panics, SlackBuf.toStr, run_bind, hp]

theorem leU32_accounted (sb : SlackBuf B.pointerWidth) (i : BitVec B.pointerWidth) :
    Accounted B X (reply (run (store sb.bytes) (sb.leU32 B.endian i))) := by
  by_cases h : i.toNat+SLACK ≤ sb.bytes.length
  · apply Accounted.of_free (leU32_returns B.endian h)
    simp [touched]
  · exact .of_panics ((leU32_guarded B.endian sb i).2 h)

theorem method_accounted {α : Type} {f : SlackBuf B.pointerWidth → Exec α}
    (h : ∀ sb, Accounted B X (reply (run (store sb.bytes) (f sb))))
    (sbs : List (SlackBuf B.pointerWidth)) (k : ℕ) : Accounted B X (method sbs k f) := by
  rw [method]
  cases sbs[k]? with
  | none => exact .of_free (o := .ok ((), [])) rfl (by simp)
  | some sb => exact h sb

theorem call_accounted (sbs : List (SlackBuf B.pointerWidth)) (c : Call B.pointerWidth) :
    Accounted B X (call B X sbs c).2 := by
  have hpure : ∀ (α : Type) (m : Memory UInt8) (a : α),
      Accounted B X (reply (run m (pure a : Exec α))) :=
    fun α m a => .of_free (a := a) (t := []) rfl (by simp)
  cases c with
  | new buf => exact hpure Unit (store []) ()
  | newEmbeddedSlack buf =>
    rw [call, held_reply, newEmbeddedSlack]
    split_ifs
    · exact hpure _ _ _
    · exact .of_panics rfl
  | newAddSlack v =>
    rw [call, held_reply, newAddSlack]
    split_ifs
    · exact hpure _ _ _
    · exact .of_panics rfl
  | asBytes k => exact method_accounted (fun sb => hpure _ _ _) sbs k
  | payloadLen k => exact method_accounted (fun sb => hpure _ _ _) sbs k
  | verify k range => exact method_accounted (fun sb => slackVerify_accounted sb range) sbs k
  | toStr k range => exact method_accounted (fun sb => toStr_accounted sb range) sbs k
  | leU32 k i => exact method_accounted (fun sb => leU32_accounted sb i) sbs k

theorem session_accounted (sbs : List (SlackBuf B.pointerWidth)) (cs : List (Call B.pointerWidth)) :
    ∀ r ∈ session B X sbs cs, Accounted B X r :=
  Library.Service.forall_answers call_accounted sbs cs

end Methods

/-- Whatever the outside validators answer, every run returns and reads inside its
buffer, no history of calls does worse than panic, and a wrong verdict, like a `str` that
is not UTF-8, comes of one wrong answer to what this build asks. -/
theorem outside_blamed (B : Build) (X : Externs) :
    (∀ b : Buf, ∃ v t, run (store b) (EntryPoints.verify B X b) = .ok (v, t) ∧
      (∀ i ∈ reads t, i < b.length) ∧ Answered B X b 0 b.length v ∧
      (¬ (v = true ↔ WellFormed b) → Misjudged B X v b)) ∧
    (∀ (buf : Buf) (start stop : ℕ), start ≤ stop → stop+SLACK ≤ buf.length →
      ∃ v t, run (store buf) (verifyWithSlack B X buf start stop) = .ok (v, t) ∧
        (∀ i ∈ reads t, i < buf.length) ∧ Answered B X buf start stop v ∧
        (¬ (v = true ↔ WellFormed (slice buf start stop)) →
          Misjudged B X v (slice buf start stop))) ∧
    (∀ b : Buf, ∃ o t, run (store b) (fromUtf8 B X b) = .ok (o, t) ∧
      ∀ s, .unchecked s ∈ marks t → ¬ WellFormed s → Misjudged B X true s) ∧
    ∀ cs : List (Call B.pointerWidth), ∀ r ∈ session B X [] cs, Accounted B X r := by
  constructor
  · intro b
    obtain ⟨v,t,hr,hanswered,-⟩ := verify_answered B X b
    have hwrong := hanswered.misjudged le_rfl
    rw [slice_all] at hwrong
    exact ⟨v,t,hr,fun i hi => run_store_lt hr hi,hanswered,hwrong⟩
  constructor
  · intro buf start stop hs hlen
    obtain ⟨v,t,hr,hanswered,-⟩ := verifyWithSlack_answered B X hs hlen
    exact ⟨v,t,hr,fun i hi => run_store_lt hr hi,hanswered,hanswered.misjudged (by omega)⟩
  constructor
  · exact fromUtf8_blamed B X
  · exact session_accounted []

/-- A build that delegates, with validators that accept everything: a short input is
still rejected. -/
theorem outside_blamed_short :
    ∃ t, run (store [0xFF]) (EntryPoints.verify ⟨.little,64,.swar,.shiftDfa,true,false⟩
      ⟨fun _ => true,fun _ => true⟩ [0xFF]) = .ok (false, t) := by
  obtain ⟨v,t,hr,-,-,hwrong⟩ :=
    (outside_blamed ⟨.little,64,.swar,.shiftDfa,true,false⟩ ⟨fun _ => true,fun _ => true⟩).1 [0xFF]
  cases v with
  | false => exact ⟨t,hr⟩
  | true =>
    have hbad : ¬ WellFormed [0xFF] := by decide
    cases hwrong (fun hw => hbad (hw.mp rfl)) with
    | long h => exact absurd h.2 (by decide)
    | slow hslow => cases hslow

end SmoothUtf8.OutsideValidators
