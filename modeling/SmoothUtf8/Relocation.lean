import SmoothUtf8.Library.TwinRuns
import SmoothUtf8.OutsideValidators

/-!
# Ranges that are moved

The same bytes as a range of another buffer, at another place, between other
bytes: the run is the same but for the place. Every load, every call of the slow
path and every answer moves along with the range, so nothing about the buffer
but the bytes of the range can be seen in a run.
-/

set_option autoImplicit false

namespace SmoothUtf8.Relocation
open Library.CheckedProgram Library.ByteWord Library.TwinRuns Library.Slice
open LeafLoads Table37 ShiftDfa SignBits Multibyte AsciiSkip VerifyImpl EntryPoints
open OutsideValidators

def relocate (start₀ start : ℕ) : Event Mark → Event Mark
  | .read i => .read (start+(i-start₀))
  | .mark (.enter p stop) => .mark (.enter (start+(p-start₀)) (start+(stop-start₀)))
  | .mark x => .mark x

structure Moved (buf buf' : Buf) (start stop start' stop' : ℕ) : Prop where
  lo : start ≤ stop
  hi : stop ≤ buf.length
  lo' : start' ≤ stop'
  hi' : stop' ≤ buf'.length
  same : slice buf' start' stop' = slice buf start stop

def Mates (start start' p p' : ℕ) : Prop := ∃ j, p = start+j ∧ p' = start'+j

def MatesIn (start stop start' p p' : ℕ) : Prop := Mates start start' p p' ∧ p ≤ stop

variable {e : Endian} {buf buf' : Buf} {start stop start' stop' : ℕ}

theorem Moved.width (h : Moved buf buf' start stop start' stop') :
    stop'-start' = stop-start := by
  rw [← length_slice buf h.hi, ← length_slice buf' h.hi', h.same]

theorem Mates.self (start start' : ℕ) : Mates start start' start start' := ⟨0,rfl,rfl⟩

theorem Mates.add {p p' : ℕ} (h : Mates start start' p p') (n : ℕ) :
    Mates start start' (p+n) (p'+n) := by
  obtain ⟨j,rfl,rfl⟩ := h
  exact ⟨j+n,Nat.add_assoc _ _ _,Nat.add_assoc _ _ _⟩

theorem Moved.left (h : Moved buf buf' start stop start' stop') {p p' : ℕ}
    (hp : Mates start start' p p') (hle : p ≤ stop) : p' ≤ stop' ∧ stop'-p' = stop-p := by
  obtain ⟨j,rfl,rfl⟩ := hp
  have hlo := h.lo
  have hlo' := h.lo'
  have hwidth := h.width
  constructor
  · omega
  · omega

theorem Moved.stretch (h : Moved buf buf' start stop start' stop') {p p' n : ℕ}
    (hp : Mates start start' p p') (hn : p+n ≤ stop) :
    p'+n ≤ stop' ∧ slice buf' p' (p'+n) = slice buf p (p+n) := by
  obtain ⟨j,rfl,rfl⟩ := hp
  have hlo' := h.lo'
  have hwidth := h.width
  have hin : ∀ (l : Buf) (s t : ℕ), s+j+n ≤ t → slice l (s+j) (s+j+n) =
      ((slice l s t).drop j).take n := by
    intro l s t hst
    simp only [slice, List.drop_take, List.drop_drop, List.take_take]
    congr 1
    omega
  refine ⟨by omega,?_⟩
  rw [hin buf' start' stop' (by omega), hin buf start stop hn, h.same]

theorem Moved.rest (h : Moved buf buf' start stop start' stop') {p p' : ℕ}
    (hp : Mates start start' p p') (hle : p ≤ stop) : slice buf' p' stop' = slice buf p stop := by
  obtain ⟨hle',hleft⟩ := h.left hp hle
  have hsame := (h.stretch (n := stop-p) hp (by omega)).2
  rwa [Nat.add_sub_of_le hle, ← hleft, Nat.add_sub_of_le hle'] at hsame

theorem Moved.pack (h : Moved buf buf' start stop start' stop') {p p' n : ℕ}
    (hp : Mates start start' p p') (hn : p+n ≤ stop) :
    LeafLoads.pack n buf' p' = LeafLoads.pack n buf p := congrArg _ (h.stretch hp hn).2

theorem touched_relocate {p p' : ℕ} (n : ℕ) (hp : Mates start start' p p') :
    touched p' n = (touched p n).map (relocate start start') := by
  obtain ⟨j,rfl,rfl⟩ := hp
  rw [touched, touched, List.map_map]
  apply List.ext_getElem
  · simp
  · intro i hi hi'
    simp [relocate]
    omega

theorem touched_two {p p' q q' : ℕ} (n m : ℕ) (hp : Mates start start' p p')
    (hq : Mates start start' q q') :
    touched p' n++touched q' m = (touched p n++touched q m).map (relocate start start') := by
  rw [List.map_append, touched_relocate n hp, touched_relocate m hq]

theorem twins_usizeSub {α α' : Type} {m m' : Memory UInt8} {ρ : Event Mark → Event Mark}
    {a b a' b' : ℕ} {f : ℕ → Exec α} {f' : ℕ → Exec α'} {V : α → α' → Prop}
    (h : b ≤ a → b' ≤ a' → Twins m m' ρ (f (a-b)) (f' (a'-b')) V) :
    Twins m m' ρ (usizeSub a b >>= f) (usizeSub a' b' >>= f') V := by
  rw [usizeSub, usizeSub, Prog.bind_assoc, Prog.bind_assoc]
  exact twins_check h

section SlowPath

def SamePass (start stop start' : ℕ) (s s' : BitVec 64 × ℕ) : Prop :=
  s'.1 = s.1 ∧ MatesIn start stop start' s.2 s'.2

def SameExit (start stop start' : ℕ) : Option (BitVec 64 × ℕ) → Option (BitVec 64 × ℕ) → Prop
  | none, none => True
  | some s, some s' => SamePass start stop start' s s'
  | _, _ => False

theorem chunk_twins (h : Moved buf buf' start stop start' stop') (s s' : BitVec 64 × ℕ)
    (hs : SamePass start stop start' s s') :
    Twins (store buf) (store buf') (relocate start start') (chunk e buf stop s)
      (chunk e buf' stop' s')
      (Agree (SamePass start stop start') (SameExit start stop start')) := by
  obtain ⟨state,p⟩ := s
  obtain ⟨state',p'⟩ := s'
  obtain ⟨hstate,hp,hle⟩ := hs
  simp only at hstate hp hle
  obtain ⟨hle',hleft⟩ := h.left hp hle
  by_cases h8 : 8 ≤ stop-p
  · have hsame := (h.stretch (n := 8) hp (by omega)).2
    apply Twins.of_reaches _ (chunk_full e h8 h.hi) (chunk_full e (by omega) h.hi')
      (touched_relocate 8 hp)
    apply twins_done
    rw [hsame, hstate]
    by_cases hrej : dfaRun state (slice buf p (p+8)) = dfaReject
    · rw [if_pos hrej, if_pos hrej]
      exact trivial
    · rw [if_neg hrej, if_neg hrej]
      exact ⟨rfl,hp.add 8,by simp only; omega⟩
  · rw [chunk_rest e hle h8, chunk_rest e hle' (by omega)]
    apply twins_done
    exact ⟨hstate,hp,hle⟩

theorem tail_twins (h : Moved buf buf' start stop start' stop') (s s' : BitVec 64 × ℕ)
    (hs : SamePass start stop start' s s') :
    Twins (store buf) (store buf') (relocate start start') (tail buf stop s)
      (tail buf' stop' s') (Agree (SamePass start stop start') (fun st st' => st' = st)) := by
  obtain ⟨state,p⟩ := s
  obtain ⟨state',p'⟩ := s'
  obtain ⟨hstate,hp,hle⟩ := hs
  simp only at hstate hp hle
  obtain ⟨hle',hleft⟩ := h.left hp hle
  by_cases hlt : p < stop
  · have hsame := (h.stretch (n := 1) hp hlt).2
    apply Twins.of_reaches _ (tail_byte hlt h.hi) (tail_byte (by omega) h.hi')
      (touched_relocate 1 hp)
    apply twins_done
    rw [hsame, hstate]
    exact ⟨rfl,hp.add 1,hlt⟩
  · rw [tail_end hlt, tail_end (show ¬ p' < stop' by omega)]
    exact twins_done hstate

/-- The slow path may be entered at any place of the range. -/
theorem verifyMultibyte_twins (h : Moved buf buf' start stop start' stop') {p p' : ℕ}
    (hp : Mates start start' p p') (hle : p ≤ stop) :
    Twins (store buf) (store buf') (relocate start start') (verifyMultibyte e buf p stop)
      (verifyMultibyte e buf' p' stop') (fun v v' => v' = v) := by
  have hfirst : SamePass start stop start' (dfaAccept, p) (dfaAccept, p') := ⟨rfl,hp,hle⟩
  rw [verifyMultibyte, verifyMultibyte, (h.left hp hle).2]
  apply (twins_loop (chunk_twins h) _ hfirst).bind
  intro r r' hr
  cases r with
  | none =>
    cases r' with
    | none => exact twins_done rfl
    | some s' => exact hr.elim
  | some s =>
    cases r' with
    | none => exact hr.elim
    | some s' =>
      apply (twins_loop (tail_twins h) _ hr).bind
      rintro st _ rfl
      exact twins_done rfl

/-- A validator outside the crate is handed the rest of the range. -/
theorem index_twins (f : List UInt8 → Bool) (h : Moved buf buf' start stop start' stop')
    {p p' : ℕ} (hp : Mates start start' p p') (hle : p ≤ stop) :
    Twins (store buf) (store buf') (relocate start start')
      (do
        let s ← index buf p stop
        pure (f s))
      (do
        let s ← index buf' p' stop'
        pure (f s)) (fun v v' => v' = v) := by
  rw [index_pos hle h.hi, index_pos (h.left hp hle).1 h.hi', h.rest hp hle]
  exact twins_done rfl

theorem multibyte_twins (B : Build) (X : Externs) (h : Moved buf buf' start stop start' stop')
    {p p' : ℕ} (hp : Mates start start' p p') (hle : p ≤ stop) :
    Twins (store buf) (store buf') (relocate start start') (B.verifyMultibyte X buf p stop)
      (B.verifyMultibyte X buf' p' stop') (fun v v' => v' = v) := by
  rw [Build.verifyMultibyte, Build.verifyMultibyte]
  cases B.slowPath with
  | shiftDfa => exact verifyMultibyte_twins h hp hle
  | coreStr => exact index_twins X.coreStr h hp hle

end SlowPath

section FastPath

def ProbeMoves (step : ℕ) (probe : Buf → ℕ → Exec (Option ℕ)) : Prop :=
  ∀ (buf buf' : Buf) (start stop start' stop' p p' : ℕ),
    Moved buf buf' start stop start' stop' → Mates start start' p p' → p+step ≤ stop →
    ∃ u r r', Reaches (store buf) (probe buf p) u (.done r) ∧
      Reaches (store buf') (probe buf' p') (u.map (relocate start start')) (.done r') ∧
      Option.Rel (Mates start start') r r'

theorem swar_moves (e : Endian) : ProbeMoves 16 (Swar.probe e) := by
  intro buf buf' start stop start' stop' p p' h hp hn
  have hend := (h.stretch hp hn).1
  have hrun := swar_run e (hn.trans h.hi)
  have hrun' := swar_run e (hend.trans h.hi')
  rw [h.pack hp (by omega), h.pack (hp.add 8) (by omega),
    touched_two 8 8 hp (hp.add 8)] at hrun'
  split_ifs at hrun hrun'
  · exact ⟨_,_,_,hrun,hrun',.some hp⟩
  · exact ⟨_,_,_,hrun,hrun',.none⟩

theorem neon_moves : ProbeMoves 32 Neon.probe := by
  intro buf buf' start stop start' stop' p p' h hp hn
  have hend := (h.stretch hp hn).1
  have hlow := (h.stretch (n := 16) hp (by omega)).2
  have hhigh := (h.stretch (n := 16) (hp.add 16) (by omega)).2
  have hrun := neon_run (hn.trans h.hi)
  have hrun' := neon_run (hend.trans h.hi')
  rw [hlow, hhigh, touched_two 16 16 hp (hp.add 16)] at hrun'
  split_ifs at hrun hrun'
  · exact ⟨_,_,_,hrun,hrun',.some hp⟩
  · exact ⟨_,_,_,hrun,hrun',.none⟩

theorem avx2_moves : ProbeMoves 32 Avx2.probe := by
  intro buf buf' start stop start' stop' p p' h hp hn
  obtain ⟨hend,hsame⟩ := h.stretch hp hn
  have hrun := avx2_run (hn.trans h.hi)
  have hrun' := avx2_run (hend.trans h.hi')
  rw [hsame, touched_relocate 32 hp] at hrun'
  split_ifs at hrun hrun'
  · exact ⟨_,_,_,hrun,hrun',.some (hp.add _)⟩
  · exact ⟨_,_,_,hrun,hrun',.none⟩

theorem scan_moves {step : ℕ} {probe : Buf → ℕ → Exec (Option ℕ)} (hprobe : ProbeMoves step probe)
    (h : Moved buf buf' start stop start' stop') :
    Twins (store buf) (store buf') (relocate start start')
      (scan step (probe buf) buf start stop) (scan step (probe buf') buf' start' stop')
      (Mates start start') := by
  rw [scan, scan, h.width]
  apply twins_check
  intro _ _
  refine twins_loop (I := MatesIn start stop start') (fun p p' hp => ?_) _
    ⟨Mates.self start start',h.lo⟩
  obtain ⟨hp,hle⟩ := hp
  obtain ⟨hle',hleft⟩ := h.left hp hle
  by_cases hfull : step ≤ stop-p
  · obtain ⟨u,r,r',hr,hr',hrel⟩ := hprobe buf buf' start stop start' stop' p p' h hp (by omega)
    apply Twins.of_reaches _ (scan_block hle h.hi hfull hr)
      (scan_block hle' h.hi' (by omega) hr') rfl
    apply twins_done
    cases hrel with
    | none => exact ⟨hp.add step,by omega⟩
    | some hq => exact hq
  · rw [scan_rest hle hfull, scan_rest hle' (by omega)]
    exact twins_done hp

theorem variant_moves (s : Variant) (h : Moved buf buf' start stop start' stop') :
    Twins (store buf) (store buf') (relocate start start') ((s.imp e).skip buf start stop)
      ((s.imp e).skip buf' start' stop') (Mates start start') := by
  cases s with
  | swar => exact scan_moves (swar_moves e) h
  | avx2 => exact scan_moves avx2_moves h
  | neon => exact scan_moves neon_moves h

variable {B : Build} {X : Externs}

theorem slowPath_twins (h : Moved buf buf' start stop start' stop') {p p' : ℕ}
    (hp : Mates start start' p p') (hle : p ≤ stop) :
    Twins (store buf) (store buf') (relocate start start')
      (slowPath (B.parts X) buf p stop)
      (slowPath (B.parts X) buf' p' stop') (fun v v' => v' = v) := by
  have henter : relocate start start' (.mark (.enter p stop)) = .mark (.enter p' stop') := by
    obtain ⟨hle',hleft⟩ := h.left hp hle
    obtain ⟨j,rfl,rfl⟩ := hp
    rw [relocate, Nat.add_sub_cancel_left, show start'+(stop-start) = stop' by omega]
  apply twins_note henter
  apply (multibyte_twins B X h hp hle).bind
  rintro v _ rfl
  apply twins_note rfl
  exact twins_done rfl

theorem wordPass_twins (h : Moved buf buf' start stop start' stop') (p p' : ℕ)
    (hp : MatesIn start stop start' p p') :
    Twins (store buf) (store buf') (relocate start start')
      (wordPass (B.parts X) buf stop p)
      (wordPass (B.parts X) buf' stop' p')
      (Agree (MatesIn start stop start')
        (Sum.LiftRel (MatesIn start stop start') (MatesIn start stop start'))) := by
  obtain ⟨hp,hle⟩ := hp
  obtain ⟨hle',hleft⟩ := h.left hp hle
  by_cases h8 : 8 ≤ stop-p
  · have hascii : Ascii buf' p' (p'+8) ↔ Ascii buf p (p+8) := by
      rw [Ascii, Ascii, AllOn, AllOn, (h.stretch hp (by omega)).2]
    have hword' := word_full (B.parts X) (show 8 ≤ stop'-p' by omega) h.hi'
    rw [hascii] at hword'
    rcases word_full (B.parts X) h8 h.hi with ⟨hblock,hr⟩ | ⟨hnot,hr⟩
    · have hr' := (hword'.resolve_right (fun h => h.1 hblock)).2
      apply Twins.of_reaches _ hr hr' (touched_relocate 8 hp)
      apply twins_done
      exact ⟨hp.add 8,by omega⟩
    · have hr' := (hword'.resolve_left (fun h => hnot h.1)).2
      apply Twins.of_reaches _ hr hr' (touched_relocate 8 hp)
      exact twins_done (.inl ⟨hp,hle⟩)
  · rw [word_rest _ hle h8, word_rest _ hle' (by omega)]
    exact twins_done (.inr ⟨hp,hle⟩)

theorem lastWindow_twins (h : Moved buf buf' start stop start' stop') (h8 : 8 ≤ stop-start)
    (r r' : ℕ ⊕ ℕ)
    (hr : Sum.LiftRel (MatesIn start stop start') (MatesIn start stop start') r r') :
    Twins (store buf) (store buf') (relocate start start')
      (lastWindow (B.parts X) buf stop r)
      (lastWindow (B.parts X) buf' stop' r') (fun v v' => v' = v) := by
  have hlo := h.lo
  have hlo' := h.lo'
  have hwidth := h.width
  cases hr with
  | inl hp => exact slowPath_twins h hp.1 hp.2
  | @inr p p' hp =>
    obtain ⟨hp,hle⟩ := hp
    obtain ⟨hle',hleft⟩ := h.left hp hle
    by_cases hlt : p < stop
    · have hlast : Mates start start' (stop-8) (stop'-8) := ⟨stop-8-start,by omega,by omega⟩
      apply Twins.of_reaches _ (window_run _ hlt (by omega) h.hi)
        (window_run _ (show p' < stop' by omega) (by omega) h.hi') (touched_relocate 8 hlast)
      rw [h.pack hlast (by omega)]
      apply twins_ite Iff.rfl
      · intro _
        exact slowPath_twins h hp hle
      · intro _
        exact twins_done rfl
    · rw [window_rest _ hlt, window_rest _ (show ¬ p' < stop' by omega)]
      exact twins_done rfl

/-- The same loads, and the same test of the bytes that are left. -/
theorem tested_twins (h : Moved buf buf' start stop start' stop') {p p' : ℕ}
    (hp : Mates start start' p p') (hle : p ≤ stop) {prog prog' : Exec Bool} {t t' : Log}
    (hrun : Tested (B.parts X) buf p stop prog t)
    (hrun' : Tested (B.parts X) buf' p' stop' prog' t') (ht : t' = t.map (relocate start start')) :
    Twins (store buf) (store buf') (relocate start start') prog prog' (fun v v' => v' = v) := by
  have hascii : Ascii buf' p' stop' ↔ Ascii buf p stop := by
    rw [Ascii, Ascii, AllOn, AllOn, h.rest hp hle]
  rw [Tested, hascii] at hrun'
  rcases hrun with ⟨hall,hr⟩ | ⟨hnot,hr⟩
  · have hr' := (hrun'.resolve_right (fun h => h.1 hall)).2
    apply Twins.of_reaches _ hr hr' ht
    exact twins_done rfl
  · have hr' := (hrun'.resolve_left (fun h => hnot h.1)).2
    exact (slowPath_twins h hp hle).of_reaches hr hr' ht

theorem shortLog_relocate (PAD : ℕ) (h : Moved buf buf' start stop start' stop')
    (h8 : stop-start < 8) :
    shortLog PAD start' stop' = (shortLog PAD start stop).map (relocate start start') := by
  have hlo := h.lo
  have hlo' := h.lo'
  have hwidth := h.width
  have hempty : start' = stop' ↔ start = stop := by omega
  have hloads : shortLoads PAD start' stop' = shortLoads PAD start stop := by
    simp only [shortLoads, hempty, hwidth]
  have hback := (shortLoads_cover PAD hlo h8).2.2.2
  rw [shortLog, shortLog, hloads]
  apply touched_two
  · exact Mates.self start start'
  · exact ⟨stop-(shortLoads PAD start stop).2-start,by omega,by omega⟩

theorem verifyShort_twins (PAD : ℕ) (h : Moved buf buf' start stop start' stop')
    (h8 : stop-start < 8) (hpad : stop+PAD ≤ buf.length) (hpad' : stop'+PAD ≤ buf'.length) :
    Twins (store buf) (store buf') (relocate start start')
      (verifyShort (B.parts X) PAD buf start stop)
      (verifyShort (B.parts X) PAD buf' start' stop') (fun v v' => v' = v) := by
  have h8' : stop'-start' < 8 := h.width ▸ h8
  exact tested_twins h (Mates.self start start') h.lo (verifyShort_run _ PAD h.lo h8 hpad)
    (verifyShort_run _ PAD h.lo' h8' hpad') (shortLog_relocate PAD h h8)

theorem verifyImpl_twins (PAD : ℕ) (h : Moved buf buf' start stop start' stop')
    (hpad : stop+PAD ≤ buf.length) (hpad' : stop'+PAD ≤ buf'.length) :
    Twins (store buf) (store buf') (relocate start start')
      (verifyImpl (B.parts X) PAD buf start stop)
      (verifyImpl (B.parts X) PAD buf' start' stop') (fun v v' => v' = v) := by
  have hlo := h.lo
  have hlo' := h.lo'
  have hwidth := h.width
  apply twins_check
  intro _ _
  apply twins_usizeSub
  intro _ _
  apply twins_ite (by omega)
  · intro h8
    exact verifyShort_twins PAD h h8 hpad hpad'
  · intro h8
    apply (variant_moves B.skip h).bind
    rintro q q' ⟨j,rfl,rfl⟩
    apply twins_usizeSub
    intro hle _
    have hleft : stop'-(start'+j) = stop-(start+j) := by omega
    rw [hleft]
    apply twins_ite Iff.rfl
    · intro _
      exact slowPath_twins h ⟨j,rfl,rfl⟩ hle
    · intro _
      apply (twins_loop (wordPass_twins h) _ ⟨⟨j,rfl,rfl⟩,hle⟩).bind
      exact lastWindow_twins h (by omega)

theorem verifyWithSlack_twins (h : Moved buf buf' start stop start' stop')
    (hlen : stop+SLACK ≤ buf.length) (hlen' : stop'+SLACK ≤ buf'.length) :
    Twins (store buf) (store buf') (relocate start start') (verifyWithSlack B X buf start stop)
      (verifyWithSlack B X buf' start' stop') (fun v v' => v' = v) := by
  rw [verifyWithSlack_eq B X h.lo hlen, verifyWithSlack_eq B X h.lo' hlen', h.width]
  apply twins_ite Iff.rfl
  · intro _
    exact index_twins X.simdutf8 h ⟨0,rfl,rfl⟩ h.lo
  · intro _
    exact verifyImpl_twins SLACK h hlen hlen'

end FastPath

/-- The same bytes as another range of another buffer give the same run, moved:
the verdict is the same, and each load and each call of the slow path is at the
same place of the range. Whatever validators the build delegates to, they are asked
about the same bytes. -/
theorem runs_relocate (B : Build) (X : Externs) (buf buf' : Buf) (start stop start' stop' : ℕ)
    (hs : start ≤ stop) (hlen : stop+SLACK ≤ buf.length) (hs' : start' ≤ stop')
    (hlen' : stop'+SLACK ≤ buf'.length)
    (hsame : slice buf' start' stop' = slice buf start stop) :
    ∃ v t, run (store buf) (verifyWithSlack B X buf start stop) = .ok (v, t) ∧
      run (store buf') (verifyWithSlack B X buf' start' stop') =
        .ok (v, t.map (relocate start start')) := by
  obtain ⟨v,t,hr,-⟩ := verifyWithSlack_answered B X hs hlen
  obtain ⟨v',t',hr',-⟩ := verifyWithSlack_answered B X hs' hlen'
  have hmoved : Moved buf buf' start stop start' stop' :=
    ⟨hs,by omega,hs',by omega,hsame⟩
  obtain ⟨rfl,rfl⟩ := (verifyWithSlack_twins hmoved hlen hlen').finished v t v' t' hr hr'
  exact ⟨v',t,hr,hr'⟩

theorem runs_relocate_garbage :
    ∃ v t, run (store ([0x41,0x42,0xC3]++List.replicate 8 0))
        (verifyWithSlack ⟨.little,64,.swar,.coreStr,true,false⟩ ⟨isValidUtf8,isValidUtf8⟩
          ([0x41,0x42,0xC3]++List.replicate 8 0) 0 3) = .ok (v, t) ∧
      run (store ([0xFF]++[0x41,0x42,0xC3]++List.replicate 8 0xA9))
        (verifyWithSlack ⟨.little,64,.swar,.coreStr,true,false⟩ ⟨isValidUtf8,isValidUtf8⟩
          ([0xFF]++[0x41,0x42,0xC3]++List.replicate 8 0xA9) 1 4) =
        .ok (v, t.map (relocate 0 1)) :=
  runs_relocate ⟨.little,64,.swar,.coreStr,true,false⟩ ⟨isValidUtf8,isValidUtf8⟩
    ([0x41,0x42,0xC3]++List.replicate 8 0) ([0xFF]++[0x41,0x42,0xC3]++List.replicate 8 0xA9)
    0 3 1 4 (by decide) (by decide) (by decide) (by decide) (by decide)

end SmoothUtf8.Relocation
