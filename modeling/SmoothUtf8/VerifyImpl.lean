import SmoothUtf8.AsciiSkip
import SmoothUtf8.Multibyte

/-!
# The fast path

`verify_short` and `verify_impl` are embedded over any prefix scan and any
slow path. One statement describes every run: it ends with `true` on a range
that is all below `80`, or hands the rest of the range to the slow path from an
index before which everything is below `80`.
-/

set_option autoImplicit false

namespace SmoothUtf8.VerifyImpl
open Library.CheckedProgram Library.ByteWord Library.Slice
open LeafLoads Table37 SignBits AsciiSkip

structure Parts where
  endian : Endian
  usizeMax : ℕ
  imp : Imp
  verifyMultibyte : Buf → ℕ → ℕ → Exec Bool

def slowPath (P : Parts) (buf : Buf) (start stop : ℕ) : Exec Bool := do
  Prog.note (.enter start stop)
  let ret ← P.verifyMultibyte buf start stop
  Prog.note (.leave ret)
  pure ret

def maskShift (n : ℕ) : Exec (BitVec 64) := do
  Prog.check (8 ≤ n ∧ n ≤ 56) .maskShift
  pure (signBits >>> n)

def verifyShort (P : Parts) (PAD : ℕ) (buf : Buf) (start stop : ℕ) : Exec Bool := do
  da (start ≤ stop ∧ stop-start < 8 ∧ min (stop+PAD) P.usizeMax ≤ buf.length)
  if 8 ≤ PAD then
    if start = stop then pure true
    else
      let left ← usizeSub stop start
      let bytes ← load64 P.endian buf start
      let unused ← usizeSub 8 left
      let mask ← maskShift (unused*8)
      if bytes &&& mask ≠ 0 then slowPath P buf start stop else pure true
  else
    let width ← usizeSub stop start
    if 4 ≤ width then
      let lo ← load32 P.endian buf start
      let i ← usizeSub stop 4
      let hi ← load32 P.endian buf i
      if (lo ||| hi) &&& 0x80808080 ≠ 0 then slowPath P buf start stop else pure true
    else if 2 ≤ width then
      let lo ← load16 P.endian buf start
      let i ← usizeSub stop 2
      let hi ← load16 P.endian buf i
      if (lo ||| hi) &&& 0x8080 ≠ 0 then slowPath P buf start stop else pure true
    else if start < stop then
      let b ← load8 buf start
      if 0x80 ≤ b then slowPath P buf start stop else pure true
    else pure true

/-- One pass of the word loop. It leaves on the left with a word that has a
sign bit and on the right when fewer than 8 bytes remain. -/
def wordPass (P : Parts) (buf : Buf) (stop p : ℕ) : Exec (Turn ℕ (ℕ ⊕ ℕ)) := do
  let left ← usizeSub stop p
  if 8 ≤ left then
    let bytes ← load64 P.endian buf p
    if bytes &&& signBits ≠ 0 then pure (.leave (.inl p))
    else
      let p ← usizeAdd buf p 8
      pure (.again p)
  else pure (.leave (.inr p))

def lastWindow (P : Parts) (buf : Buf) (stop : ℕ) : ℕ ⊕ ℕ → Exec Bool
  | .inl p => slowPath P buf p stop
  | .inr p =>
    if p < stop then do
      let i ← usizeSub stop 8
      let bytes ← load64 P.endian buf i
      if bytes &&& signBits ≠ 0 then slowPath P buf p stop else pure true
    else pure true

def verifyImpl (P : Parts) (PAD : ℕ) (buf : Buf) (start stop : ℕ) : Exec Bool := do
  da (start ≤ stop ∧ min (stop+PAD) P.usizeMax ≤ buf.length)
  let width ← usizeSub stop start
  if width < 8 then verifyShort P PAD buf start stop
  else
    let p ← P.imp.skip buf start stop
    let left ← usizeSub stop p
    if P.imp.STEP ≤ left then slowPath P buf p stop
    else
      let words ← loop .endless (wordPass P buf stop) (stop-p+1) p
      lastWindow P buf stop words

def reach (PAD start stop : ℕ) : ℕ :=
  if 8 ≤ PAD ∧ start < stop ∧ stop-start < 8 then start+8 else stop

structure Passed (PAD : ℕ) (buf : Buf) (start stop : ℕ) (t : Log) : Prop where
  ascii : Ascii buf start stop
  quiet : Quiet start (reach PAD start stop) t

/-- The range is handed to the slow path from `p`. Either the scan returned
`p`, with a block or more left, or one of the next 8 bytes is not below `80`. -/
structure Handed (P : Parts) (PAD : ℕ) (R : ℕ → Prop) (buf : Buf) (start stop p : ℕ) (t : Log) :
    Prop where
  lo : start ≤ p
  hi : p < stop
  ascii : Ascii buf start p
  near : (P.imp.STEP ≤ stop-p ∧ R p) ∨ ¬ Ascii buf p (min stop (p+8))
  quiet : Quiet start (min (reach PAD start stop) (p+max 8 P.imp.STEP)) t

def HandOff (P : Parts) (PAD : ℕ) (R : ℕ → Prop) (buf : Buf) (start stop : ℕ) (t : Log)
    (q : Exec Bool) : Prop :=
  (Passed PAD buf start stop t ∧ q = .done true) ∨
  (∃ p, Handed P PAD R buf start stop p t ∧ q = slowPath P buf p stop)

theorem reach_ge (PAD : ℕ) {start stop : ℕ} : stop ≤ reach PAD start stop := by
  rw [reach]
  split_ifs with h
  · omega
  · exact le_rfl

theorem reach_bare {PAD start stop : ℕ} (h : ¬ (8 ≤ PAD ∧ start < stop ∧ stop-start < 8)) :
    reach PAD start stop = stop := if_neg h

/-- How many bytes `verify_short` loads from the start of the range on, and how many
up to its end. -/
def shortLoads (PAD start stop : ℕ) : ℕ × ℕ :=
  if start = stop then (0, 0)
  else if 8 ≤ PAD then (8, 0)
  else if 4 ≤ stop-start then (4, 4)
  else if 2 ≤ stop-start then (2, 2)
  else (1, 0)

def shortLog (PAD start stop : ℕ) : Log :=
  touched start (shortLoads PAD start stop).1++
    touched (stop-(shortLoads PAD start stop).2) (shortLoads PAD start stop).2

theorem shortLoads_cover (PAD : ℕ) {start stop : ℕ} (hs : start ≤ stop) (h8 : stop-start < 8) :
    (shortLoads PAD start stop).1+(shortLoads PAD start stop).2 ≤ 8 ∧
    stop ≤ start+(shortLoads PAD start stop).1+(shortLoads PAD start stop).2 ∧
    start+(shortLoads PAD start stop).1 ≤ reach PAD start stop ∧
    start+(shortLoads PAD start stop).2 ≤ stop := by
  rw [shortLoads, reach]
  split_ifs <;> simp only <;> omega

theorem quiet_shortLog {PAD start stop : ℕ} (hs : start ≤ stop) (h8 : stop-start < 8) :
    Quiet start (reach PAD start stop) (shortLog PAD start stop) := by
  obtain ⟨-,-,hfront,hback⟩ := shortLoads_cover PAD hs h8
  have hreach : stop ≤ reach PAD start stop := reach_ge PAD
  exact (quiet_touched le_rfl hfront).append (quiet_touched (by omega) (by omega))

/-- The program passes the range exactly when it is all below `80`, and hands it to the
slow path otherwise. -/
def Tested (P : Parts) (buf : Buf) (start stop : ℕ) (prog : Exec Bool) (t : Log) : Prop :=
  (Ascii buf start stop ∧ Reaches (store buf) prog t (.done true)) ∨
  (¬ Ascii buf start stop ∧ Reaches (store buf) prog t (slowPath P buf start stop))

theorem tested_ite {P : Parts} {buf : Buf} {start stop : ℕ} {prog : Exec Bool} {t : Log}
    {c : Prop} [Decidable c] (hexact : ¬ c ↔ Ascii buf start stop)
    (hrun : Reaches (store buf) prog t (if c then slowPath P buf start stop else .done true)) :
    Tested P buf start stop prog t := by
  by_cases hc : c
  · rw [if_pos hc] at hrun
    exact Or.inr ⟨fun ha => hexact.mpr ha hc,hrun⟩
  · rw [if_neg hc] at hrun
    exact Or.inl ⟨hexact.mp hc,hrun⟩

/-- A test of the last 8 bytes or fewer ends the run one way or the other. -/
theorem Tested.handOff {P : Parts} {PAD : ℕ} {R : ℕ → Prop} {buf : Buf} {start stop p : ℕ}
    {t u : Log} {prog : Exec Bool} (h : Tested P buf p stop prog u) (hs : start ≤ p)
    (hp : p ≤ stop) (hfront : Ascii buf start p)
    (hquiet : Quiet start (reach PAD start stop) (t++u)) (hreach : reach PAD start stop ≤ p+8) :
    ∃ u q, Reaches (store buf) prog u q ∧ HandOff P PAD R buf start stop (t++u) q := by
  rcases h with ⟨hascii,hr⟩ | ⟨hnot,hr⟩
  · have hall := (allOn_split hs hp).mpr ⟨hfront,hascii⟩
    exact ⟨u,_,hr,Or.inl ⟨⟨hall,hquiet⟩,rfl⟩⟩
  · have hpos : p < stop := by
      apply lt_of_le_of_ne hp
      rintro rfl
      exact hnot (allOn_self _ _ _)
    have hnear : ¬ Ascii buf p (min stop (p+8)) := by
      rwa [Nat.min_eq_left ((reach_ge PAD).trans hreach)]
    have hfar : reach PAD start stop ≤ min (reach PAD start stop) (p+max 8 P.imp.STEP) :=
      le_min le_rfl (by omega)
    exact ⟨u,_,hr,Or.inr ⟨p,⟨hs,hpos,hfront,Or.inr hnear,hquiet.mono le_rfl hfar⟩,rfl⟩⟩

/-- Two loads of `n` bytes from both ends of a range of `n` to `2 n` bytes. -/
theorem overlap_run {P : Parts} {buf : Buf} {start stop n : ℕ} {m : BitVec (8*n)}
    (hm : IsSignMask n n m) (load : ℕ → Exec (BitVec (8*n)))
    (hload : ∀ i, i+n ≤ buf.length →
      Reaches (store buf) (load i) (touched i n) (.done (pack n buf i)))
    (hs : start ≤ stop) (hn : n ≤ stop-start) (h2 : stop-start ≤ 2*n) (hlen : stop ≤ buf.length) :
    Tested P buf start stop (do
      let lo ← load start
      let i ← usizeSub stop n
      let hi ← load i
      if (lo ||| hi) &&& m ≠ 0 then slowPath P buf start stop else pure true)
      (touched start n++touched (stop-n) n) := by
  have hend : stop-n+n = stop := by omega
  have hlo := hload start (by omega)
  have hhi := hload (stop-n) (by omega)
  have hexact : ¬ (pack n buf start ||| pack n buf (stop-n)) &&& m ≠ 0 ↔ Ascii buf start stop := by
    have hl := pack_and_mask hm le_rfl (show start+n ≤ buf.length by omega)
    have hh := pack_and_mask hm le_rfl (show stop-n+n ≤ buf.length by omega)
    rw [hend] at hh
    rw [not_not]
    exact (or_and_eq_zero _ _ _).trans ((and_congr hl hh).trans
      (allOn_overlap (by omega) (by omega) (by omega)))
  apply tested_ite hexact
  refine (hlo.then _).trans ?_
  rw [usizeSub_pos (show n ≤ stop by omega), Prog.done_bind]
  exact hhi.then _

/-- One load that reaches behind the range, masked to the bytes of the range. -/
theorem padded_run {P : Parts} {buf : Buf} {start stop : ℕ} (hs : start < stop)
    (h8 : stop-start < 8) (hin : start+8 ≤ buf.length) :
    Tested P buf start stop (do
      let left ← usizeSub stop start
      let bytes ← load64 P.endian buf start
      let unused ← usizeSub 8 left
      let mask ← maskShift (unused*8)
      if bytes &&& mask ≠ 0 then slowPath P buf start stop else pure true)
      (touched start 8) := by
  have hmask : maskShift ((8-(stop-start))*8) =
      .done (signBits >>> ((8-(stop-start))*8)) := by
    rw [maskShift, Prog.check_pos (by omega)]
    rfl
  have hexact := pack_and_mask (isSignMask_shift signBits_mask h8.le) h8.le hin
  rw [show start+(stop-start) = stop by omega] at hexact
  apply tested_ite (not_not.trans hexact)
  simp only [usizeSub_pos hs.le, usizeSub_pos h8.le, hmask, Prog.done_bind]
  exact (reaches_load64 P.endian hin).then _

/-- `verify_short` loads as its padding and the length of the range say, and then
tests the range. -/
theorem verifyShort_run (P : Parts) (PAD : ℕ) {buf : Buf} {start stop : ℕ} (hs : start ≤ stop)
    (h8 : stop-start < 8) (hlen : stop+PAD ≤ buf.length) :
    Tested P buf start stop (verifyShort P PAD buf start stop) (shortLog PAD start stop) := by
  have hin : stop ≤ buf.length := by omega
  rw [verifyShort, da_pos ⟨hs,h8,(min_le_left _ _).trans hlen⟩, Prog.done_bind]
  by_cases hempty : start = stop
  · subst hempty
    have hnone : shortLog PAD start start = [] := by simp [shortLog, shortLoads, touched]
    have hpass : Tested P buf start start (.done true) [] :=
      Or.inl ⟨allOn_self _ _ _,Reaches.refl _ _⟩
    rw [hnone]
    by_cases hpad : 8 ≤ PAD
    · rw [if_pos hpad, if_pos rfl]
      exact hpass
    · rw [if_neg hpad, usizeSub_pos le_rfl, Prog.done_bind, if_neg (by omega), if_neg (by omega),
        if_neg (lt_irrefl start)]
      exact hpass
  · rw [if_neg hempty, shortLog, shortLoads, if_neg hempty]
    by_cases hpad : 8 ≤ PAD
    · rw [if_pos hpad, if_pos hpad]
      have hrun := padded_run (P := P) (show start < stop by omega) h8
        (show start+8 ≤ buf.length by omega)
      simpa [touched] using hrun
    · rw [if_neg hpad, if_neg hpad, usizeSub_pos hs, Prog.done_bind]
      by_cases h4 : 4 ≤ stop-start
      · rw [if_pos h4, if_pos h4]
        exact overlap_run signBits32_mask (load32 P.endian buf)
          (fun i hi => reaches_load32 P.endian hi) hs h4 (by omega) hin
      · rw [if_neg h4, if_neg h4]
        by_cases h2 : 2 ≤ stop-start
        · rw [if_pos h2, if_pos h2]
          exact overlap_run signBits16_mask (load16 P.endian buf)
            (fun i hi => reaches_load16 P.endian hi) hs h2 (by omega) hin
        · obtain rfl : stop = start+1 := by omega
          have hlt : start < buf.length := by omega
          rw [if_neg h2, if_neg h2, if_pos (Nat.lt_succ_self start)]
          have hload := (reaches_load8 hlt).then (fun b =>
            if 0x80 ≤ b then slowPath P buf start (start+1) else pure true)
          have hrun := tested_ite (not_le.trans (ascii_one hlt).symm) hload
          simpa [touched] using hrun

theorem verifyShort_handOff (P : Parts) (PAD : ℕ) (R : ℕ → Prop) {buf : Buf} {start stop : ℕ}
    (hs : start ≤ stop) (h8 : stop-start < 8) (hlen : stop+PAD ≤ buf.length) :
    ∃ u q, Reaches (store buf) (verifyShort P PAD buf start stop) u q ∧
      HandOff P PAD R buf start stop u q := by
  have hreach : reach PAD start stop ≤ start+8 := by
    rw [reach]
    split_ifs <;> omega
  have hrun := verifyShort_run P PAD hs h8 hlen
  exact hrun.handOff (t := []) le_rfl hs (allOn_self _ _ _) (quiet_shortLog hs h8) hreach

/-- A pass over a full word goes on exactly when the word is below `80`. -/
theorem word_full (P : Parts) {buf : Buf} {stop p : ℕ} (h8 : 8 ≤ stop-p)
    (hlen : stop ≤ buf.length) :
    (Ascii buf p (p+8) ∧
      Reaches (store buf) (wordPass P buf stop p) (touched p 8) (.done (.again (p+8)))) ∨
    (¬ Ascii buf p (p+8) ∧
      Reaches (store buf) (wordPass P buf stop p) (touched p 8) (.done (.leave (.inl p)))) := by
  have hin : p+8 ≤ buf.length := by omega
  have hexact := pack_and_mask signBits_mask le_rfl hin
  have hload := (reaches_load64 P.endian hin).then (fun bytes =>
    if bytes &&& signBits ≠ 0 then .done (.leave (.inl p))
    else (.done (.again (p+8)) : Exec (Turn ℕ (ℕ ⊕ ℕ))))
  rw [wordPass, usizeSub_pos (show p ≤ stop by omega), Prog.done_bind, if_pos h8]
  simp only [usizeAdd_pos hin, Prog.done_bind, Prog.pure_def]
  by_cases hz : pack 8 buf p &&& signBits = 0
  · rw [if_neg (not_not_intro hz)] at hload
    exact Or.inl ⟨hexact.mp hz,hload⟩
  · rw [if_pos hz] at hload
    exact Or.inr ⟨fun ha => hz (hexact.mpr ha),hload⟩

theorem word_rest (P : Parts) {buf : Buf} {stop p : ℕ} (hp : p ≤ stop) (h8 : ¬ 8 ≤ stop-p) :
    wordPass P buf stop p = .done (.leave (.inr p)) := by
  rw [wordPass, usizeSub_pos hp, Prog.done_bind, if_neg h8]
  rfl

structure AtWord (buf : Buf) (start stop q p : ℕ) (t : Log) : Prop where
  lo : q ≤ p
  hi : p ≤ stop
  ascii : Ascii buf start p
  quiet : Quiet start stop t

def WordsDone (buf : Buf) (start stop q : ℕ) (t : Log) (r : Exec (ℕ ⊕ ℕ)) : Prop :=
  ∃ p, AtWord buf start stop q p t ∧
    ((p+8 ≤ stop ∧ ¬ Ascii buf p (p+8) ∧ r = .done (.inl p)) ∨
    (stop < p+8 ∧ r = .done (.inr p)))

theorem word_pass (P : Parts) {buf : Buf} {start stop q : ℕ} (hsq : start ≤ q)
    (hlen : stop ≤ buf.length) (p : ℕ) (t : Log) (h : AtWord buf start stop q p t) :
    (∃ p' u, Reaches (store buf) (wordPass P buf stop p) u (.done (.again p')) ∧
      AtWord buf start stop q p' (t++u) ∧ stop-p' < stop-p) ∨
    (∃ u r, Reaches (store buf) (wordPass P buf stop p) u (r >>= fun a => .done (.leave a)) ∧
      WordsDone buf start stop q (t++u) r) := by
  have hlo := h.lo
  have hp := h.hi
  by_cases h8 : 8 ≤ stop-p
  · have hq : Quiet start stop (t++touched p 8) :=
      h.quiet.append (quiet_touched (by omega) (by omega))
    rcases word_full P h8 hlen with ⟨hascii,hr⟩ | ⟨hnot,hr⟩
    · have hfront : Ascii buf start (p+8) :=
        (allOn_split (by omega) (by omega)).mpr ⟨h.ascii,hascii⟩
      exact Or.inl ⟨p+8,_,hr,⟨by omega,by omega,hfront,hq⟩,by omega⟩
    · exact Or.inr ⟨_,.done (.inl p),hr,p,⟨hlo,hp,h.ascii,hq⟩,Or.inl ⟨by omega,hnot,rfl⟩⟩
  · rw [word_rest P hp h8]
    refine Or.inr ⟨[],.done (.inr p),Reaches.refl _ _,p,?_,Or.inr ⟨by omega,rfl⟩⟩
    rwa [List.append_nil]

theorem window_run (P : Parts) {buf : Buf} {stop p : ℕ} (hp : p < stop) (h8 : 8 ≤ stop)
    (hlen : stop ≤ buf.length) :
    Reaches (store buf) (lastWindow P buf stop (.inr p)) (touched (stop-8) 8)
      (if pack 8 buf (stop-8) &&& signBits ≠ 0 then slowPath P buf p stop else .done true) := by
  rw [lastWindow, if_pos hp, usizeSub_pos h8, Prog.done_bind]
  exact (reaches_load64 P.endian (by omega)).then _

theorem window_rest (P : Parts) {buf : Buf} {stop p : ℕ} (h : ¬ p < stop) :
    lastWindow P buf stop (.inr p) = .done true := by
  rw [lastWindow, if_neg h]
  rfl

/-- From an index before which everything is below `80`, the word loop and the
last window end the run one way or the other. -/
theorem words_handOff (P : Parts) (PAD : ℕ) (R : ℕ → Prop) {buf : Buf} {start stop q : ℕ}
    {t : Log} (hsq : start ≤ q) (hq : q ≤ stop) (hlen : stop ≤ buf.length)
    (h8 : 8 ≤ stop-start) (hleft : stop-q < P.imp.STEP) (hascii : Ascii buf start q)
    (hquiet : Quiet start stop t) :
    ∃ u r, Reaches (store buf) (do
      let words ← loop .endless (wordPass P buf stop) (stop-q+1) q
      lastWindow P buf stop words) u r ∧ HandOff P PAD R buf start stop (t++u) r := by
  have hreach : reach PAD start stop = stop := reach_bare (by omega)
  obtain ⟨u,r,hu,p,hp,hcase⟩ := loop_reaches .endless (wordPass P buf stop)
    (AtWord buf start stop q) (WordsDone buf start stop q) (fun p => stop-p)
    (word_pass P hsq hlen) (stop-q+1) q t ⟨le_rfl,hq,hascii,hquiet⟩ (Nat.lt_succ_self _)
  have hlo := hp.lo
  have hhi := hp.hi
  have hfar : stop ≤ min (reach PAD start stop) (p+max 8 P.imp.STEP) := le_min hreach.ge (by omega)
  have hrun := hu.bind (lastWindow P buf stop)
  rcases hcase with ⟨hfull,hnot,rfl⟩ | ⟨hrest,rfl⟩
  · have hnear : ¬ Ascii buf p (min stop (p+8)) := by rwa [Nat.min_eq_right hfull]
    exact ⟨u,_,hrun,Or.inr ⟨p,⟨by omega,by omega,hp.ascii,Or.inr hnear,
      hp.quiet.mono le_rfl hfar⟩,rfl⟩⟩
  · by_cases hend : p < stop
    · have hstop : stop-8+8 = stop := by omega
      have hin : stop-8+8 ≤ buf.length := by omega
      have hexact := pack_and_mask signBits_mask le_rfl hin
      have hwindow : ¬ pack 8 buf (stop-8) &&& signBits ≠ 0 ↔ Ascii buf p stop := by
        rw [hstop] at hexact
        rw [not_not]
        refine hexact.trans ⟨allOn_mono (by omega) le_rfl,fun ha => ?_⟩
        exact allOn_mono (by omega) le_rfl ((allOn_split (by omega) hhi).mpr ⟨hp.ascii,ha⟩)
      have hq : Quiet start (reach PAD start stop) (t++u++touched (stop-8) 8) := by
        rw [hreach]
        exact hp.quiet.append (quiet_touched (by omega) hstop.le)
      have htest := tested_ite hwindow (window_run P hend (by omega) hlen)
      obtain ⟨v,r,hv,hr⟩ := htest.handOff (by omega) hhi hp.ascii hq (by omega)
      exact ⟨u++v,r,hrun.trans hv,List.append_assoc t u v ▸ hr⟩
    · obtain rfl : p = stop := by omega
      refine ⟨u,_,hrun,Or.inl ⟨⟨hp.ascii,hp.quiet.mono le_rfl hreach.ge⟩,?_⟩⟩
      rw [Prog.done_bind, window_rest P hend]

theorem verifyImpl_skip (P : Parts) (PAD : ℕ) {buf : Buf} {start stop q : ℕ} {t : Log}
    (hs : start ≤ stop) (hlen : stop+PAD ≤ buf.length) (h8 : ¬ stop-start < 8) (hq : q ≤ stop)
    (hskip : Reaches (store buf) (P.imp.skip buf start stop) t (.done q)) :
    Reaches (store buf) (verifyImpl P PAD buf start stop) t
      (if P.imp.STEP ≤ stop-q then slowPath P buf q stop
        else do
          let words ← loop .endless (wordPass P buf stop) (stop-q+1) q
          lastWindow P buf stop words) := by
  have hrun := hskip.then (fun p => do
    let left ← usizeSub stop p
    if P.imp.STEP ≤ left then slowPath P buf p stop
    else
      let words ← loop .endless (wordPass P buf stop) (stop-p+1) p
      lastWindow P buf stop words)
  rw [usizeSub_pos hq, Prog.done_bind] at hrun
  rw [verifyImpl, da_pos ⟨hs,(min_le_left _ _).trans hlen⟩, Prog.done_bind, usizeSub_pos hs,
    Prog.done_bind, if_neg h8]
  exact hrun

theorem verifyImpl_short (P : Parts) (PAD : ℕ) {buf : Buf} {start stop : ℕ} (hs : start ≤ stop)
    (hlen : stop+PAD ≤ buf.length) (h8 : stop-start < 8) :
    verifyImpl P PAD buf start stop = verifyShort P PAD buf start stop := by
  rw [verifyImpl, da_pos ⟨hs,(min_le_left _ _).trans hlen⟩, Prog.done_bind, usizeSub_pos hs,
    Prog.done_bind, if_pos h8]

/-- Every run of `verify_impl` passes the range or hands it off, given what the
scan returns on this range. -/
theorem verifyImpl_handOff (P : Parts) (PAD : ℕ) (R : ℕ → Prop) {buf : Buf} {start stop : ℕ}
    (hstep : 0 < P.imp.STEP) (hs : start ≤ stop) (hlen : stop+PAD ≤ buf.length)
    (hskip : ∃ q t, SkipsTo P.imp buf start stop q t ∧ R q) :
    ∃ u r, Reaches (store buf) (verifyImpl P PAD buf start stop) u r ∧
      HandOff P PAD R buf start stop u r := by
  by_cases h8 : stop-start < 8
  · rw [verifyImpl_short P PAD hs hlen h8]
    exact verifyShort_handOff P PAD R hs h8 hlen
  · obtain ⟨q,t,hq,hR⟩ := hskip
    have hlo := hq.lo
    have hreach : reach PAD start stop = stop := reach_bare (fun h => h8 h.2.2)
    have hrun := verifyImpl_skip P PAD hs hlen h8 hq.hi hq.reaches
    by_cases hblock : P.imp.STEP ≤ stop-q
    · rw [if_pos hblock] at hrun
      have hfar : min stop (q+P.imp.STEP) ≤
          min (reach PAD start stop) (q+max 8 P.imp.STEP) := by
        rw [hreach]
        exact min_le_min le_rfl (Nat.add_le_add_left (le_max_right 8 _) q)
      exact ⟨t,_,hrun,Or.inr ⟨q,⟨hlo,by omega,hq.ascii,Or.inl ⟨hblock,hR⟩,
        hq.quiet.mono le_rfl hfar⟩,rfl⟩⟩
    · rw [if_neg hblock] at hrun
      obtain ⟨u,r,hu,hr⟩ := words_handOff P PAD R hlo hq.hi (by omega) (by omega) (by omega)
        hq.ascii (hq.quiet.mono le_rfl (min_le_left _ _))
      exact ⟨t++u,r,hrun.trans hu,hr⟩

theorem slowPath_run {P : Parts} {m : Memory UInt8} {buf : Buf} {start stop : ℕ} {v : Bool}
    {w : Log} (h : run m (P.verifyMultibyte buf start stop) = .ok (v, w)) :
    run m (slowPath P buf start stop) =
      .ok (v, .mark (.enter start stop)::w++[.mark (.leave v)]) := by
  have hleave : Reaches m (do Prog.note (.leave v); pure v : Exec Bool) [.mark (.leave v)]
      (.done v) := (reaches_note m _).then _
  have hcall := ((reaches_done.mpr h).then (fun ret => do
    Prog.note (.leave ret)
    pure ret : Bool → Exec Bool)).trans hleave
  exact reaches_done.mp (((reaches_note m _).then _).trans hcall)

def Decides (P : Parts) (buf : Buf) (start stop : ℕ) (q : Exec Bool) : Prop :=
  (Ascii buf start stop ∧ q = .done true) ∨
  ∃ p, start ≤ p ∧ p < stop ∧ Ascii buf start p ∧ q = slowPath P buf p stop

theorem HandOff.decides {P : Parts} {PAD : ℕ} {R : ℕ → Prop} {buf : Buf} {start stop : ℕ}
    {t : Log} {q : Exec Bool} (h : HandOff P PAD R buf start stop t q) :
    Decides P buf start stop q := by
  rcases h with ⟨hpass,he⟩ | ⟨p,hhand,he⟩
  · exact Or.inl ⟨hpass.ascii,he⟩
  · exact Or.inr ⟨p,hhand.lo,hhand.hi,hhand.ascii,he⟩

/-- Of the scan only this is used: its result lies in the range, after bytes
below `80`. Where it stopped, and what it read, does not matter. -/
theorem verifyImpl_decides (P : Parts) (PAD : ℕ) {buf : Buf} {start stop q : ℕ} {t : Log}
    (hstep : 0 < P.imp.STEP) (hs : start ≤ stop) (hlen : stop+PAD ≤ buf.length)
    (hskip : Reaches (store buf) (P.imp.skip buf start stop) t (.done q)) (hlo : start ≤ q)
    (hq : q ≤ stop) (hascii : Ascii buf start q) :
    ∃ u r, Reaches (store buf) (verifyImpl P PAD buf start stop) u r ∧
      Decides P buf start stop r := by
  by_cases h8 : stop-start < 8
  · obtain ⟨u,r,hr,hoff⟩ := verifyShort_handOff P PAD (fun _ => True) hs h8 hlen
    rw [verifyImpl_short P PAD hs hlen h8]
    exact ⟨u,r,hr,hoff.decides⟩
  · have hrun := verifyImpl_skip P PAD hs hlen h8 hq hskip
    by_cases hblock : P.imp.STEP ≤ stop-q
    · rw [if_pos hblock] at hrun
      exact ⟨t,_,hrun,Or.inr ⟨q,hlo,by omega,hascii,rfl⟩⟩
    · rw [if_neg hblock] at hrun
      obtain ⟨u,r,hu,hoff⟩ := words_handOff P PAD (fun _ => True) hlo hq (by omega) (by omega)
        (by omega) hascii (quiet_nil start stop)
      exact ⟨t++u,r,hrun.trans hu,hoff.decides⟩

inductive Ran (P : Parts) (PAD : ℕ) (R : ℕ → Prop) (buf : Buf) (start stop : ℕ) :
    Bool → Log → Prop where
  | passed {t : Log} (h : Passed PAD buf start stop t) : Ran P PAD R buf start stop true t
  | handed {p : ℕ} {t w : Log} {v : Bool} (h : Handed P PAD R buf start stop p t)
      (hslow : run (store buf) (P.verifyMultibyte buf p stop) = .ok (v, w)) :
      Ran P PAD R buf start stop v (t++(.mark (.enter p stop)::w++[.mark (.leave v)]))

/-- With a slow path that returns on every range, `verify_impl` returns. -/
theorem verifyImpl_ran (P : Parts) (PAD : ℕ) (R : ℕ → Prop) {buf : Buf} {start stop : ℕ}
    (hstep : 0 < P.imp.STEP) (hs : start ≤ stop) (hlen : stop+PAD ≤ buf.length)
    (hskip : ∃ q t, SkipsTo P.imp buf start stop q t ∧ R q)
    (hslow : ∀ p, start ≤ p → p < stop →
      ∃ v w, run (store buf) (P.verifyMultibyte buf p stop) = .ok (v, w)) :
    ∃ v t, run (store buf) (verifyImpl P PAD buf start stop) = .ok (v, t) ∧
      Ran P PAD R buf start stop v t := by
  obtain ⟨t,q,hr,hoff⟩ := verifyImpl_handOff P PAD R hstep hs hlen hskip
  rcases hoff with ⟨hpass,rfl⟩ | ⟨p,hhand,rfl⟩
  · exact ⟨true,t,reaches_done.mp hr,.passed hpass⟩
  · obtain ⟨v,w,hw⟩ := hslow p hhand.lo hhand.hi
    exact ⟨v,_,reaches_done.mp (hr.trans (reaches_done.mpr (slowPath_run hw))),.handed hhand hw⟩

end SmoothUtf8.VerifyImpl
