import SmoothUtf8.SignBits

/-!
# The slow path

`verify_multibyte` takes eight bytes a pass, skips a pass when it stands
between characters on eight bytes below `80`, and leaves early once the state
rejects. None of this can be seen in its result, which is the plain fold of
`step` over the range. The log shows how far it looked: never eight bytes past
the last position from which the range could still have been completed.
-/

set_option autoImplicit false

namespace SmoothUtf8.Multibyte
open Library.CheckedProgram Library.ByteWord Library.Slice
open LeafLoads Table37 ShiftDfa SignBits

/-- The part of a chunk's pass that follows its load. It leaves with nothing
when the state rejects. -/
def chunkWord (buf : Buf) (state : BitVec 64) (p : ℕ) (w : BitVec 64) :
    Exec (Turn (BitVec 64 × ℕ) (Option (BitVec 64 × ℕ))) :=
  if state = dfaAccept ∧ w &&& signBits = 0 then do
    let p ← usizeAdd buf p 8
    pure (.again (state, p))
  else do
    let state := step state (byteAt w 0)
    let state := step state (byteAt w 1)
    let state := step state (byteAt w 2)
    let state := step state (byteAt w 3)
    let state := step state (byteAt w 4)
    let state := step state (byteAt w 5)
    let state := step state (byteAt w 6)
    let state := step state (byteAt w 7)
    let p ← usizeAdd buf p 8
    if state = dfaReject then pure (.leave none) else pure (.again (state, p))

def chunk (e : Endian) (buf : Buf) (stop : ℕ) :
    BitVec 64 × ℕ → Exec (Turn (BitVec 64 × ℕ) (Option (BitVec 64 × ℕ)))
  | (state, p) => do
    let left ← usizeSub stop p
    if 8 ≤ left then
      let w ← load64 e buf p
      chunkWord buf state p w
    else pure (.leave (some (state, p)))

def tail (buf : Buf) (stop : ℕ) : BitVec 64 × ℕ → Exec (Turn (BitVec 64 × ℕ) (BitVec 64))
  | (state, p) =>
    if p < stop then do
      let b ← load8 buf p
      let p ← usizeAdd buf p 1
      pure (.again (step state b, p))
    else pure (.leave state)

def verifyMultibyte (e : Endian) (buf : Buf) (start stop : ℕ) : Exec Bool := do
  match ← loop .endless (chunk e buf stop) (stop-start+1) (dfaAccept, start) with
  | none => pure false
  | some s =>
    let state ← loop .endless (tail buf stop) (stop-start+1) s
    pure (decide (state = dfaAccept))

def stateAt (buf : Buf) (start p : ℕ) : BitVec 64 := dfaRun dfaAccept (slice buf start p)

theorem stateAt_split (buf : Buf) {start p e : ℕ} (hs : start ≤ p) (hp : p ≤ e) :
    stateAt buf start e = dfaRun (stateAt buf start p) (slice buf p e) := by
  rw [stateAt, ← slice_append buf hs hp, dfaRun_append]
  rfl

theorem stateAt_self (buf : Buf) (start : ℕ) : stateAt buf start start = dfaAccept := by
  rw [stateAt, slice_self]
  rfl

theorem stateAt_dead {buf : Buf} {start p e : ℕ} (hs : start ≤ p) (hp : p ≤ e)
    (h : stateAt buf start p = dfaReject) : stateAt buf start e = dfaReject := by
  rw [stateAt_split buf hs hp, h, dfaRun_dead]

/-- The eight unrolled steps fold over the bytes of the word. -/
theorem chunkWord_steps {buf : Buf} {state : BitVec 64} {p : ℕ} (w : BitVec 64)
    (hin : p+8 ≤ buf.length) (h : ¬ (state = dfaAccept ∧ w &&& signBits = 0)) :
    chunkWord buf state p w = if dfaRun state (@toBytes 8 w) = dfaReject
      then .done (.leave none) else .done (.again (dfaRun state (@toBytes 8 w), p+8)) := by
  rw [chunkWord, if_neg h, usizeAdd_pos hin]
  rfl

theorem chunkWord_skip {buf : Buf} {state : BitVec 64} {p : ℕ} {w : BitVec 64}
    (hin : p+8 ≤ buf.length) (h : state = dfaAccept ∧ w &&& signBits = 0) :
    chunkWord buf state p w = .done (.again (state, p+8)) := by
  rw [chunkWord, if_pos h, usizeAdd_pos hin]
  rfl

/-- One pass over a full chunk. The pass that skips is no exception. -/
theorem chunk_full (e : Endian) {buf : Buf} {stop p : ℕ} {state : BitVec 64} (h8 : 8 ≤ stop-p)
    (hlen : stop ≤ buf.length) :
    Reaches (store buf) (chunk e buf stop (state, p)) (touched p 8)
      (.done (if dfaRun state (slice buf p (p+8)) = dfaReject then .leave none
        else .again (dfaRun state (slice buf p (p+8)), p+8))) := by
  have hin : p+8 ≤ buf.length := by omega
  have hload := (reaches_load64 e hin).then (chunkWord buf state p)
  rw [chunk, usizeSub_pos (show p ≤ stop by omega), Prog.done_bind, if_pos h8]
  by_cases hskip : state = dfaAccept ∧ pack 8 buf p &&& signBits = 0
  · have hascii := (pack_and_mask signBits_mask le_rfl hin).mp hskip.2
    have hstay : dfaRun state (slice buf p (p+8)) = state := by
      rw [hskip.1]
      exact dfaRun_ascii hascii
    rw [chunkWord_skip hin hskip] at hload
    rw [hstay, if_neg (hskip.1 ▸ accept_ne_reject)]
    exact hload
  · rw [chunkWord_steps _ hin hskip, toBytes_pack hin] at hload
    rwa [apply_ite Prog.done]

theorem chunk_rest (e : Endian) {buf : Buf} {stop p : ℕ} {state : BitVec 64} (hp : p ≤ stop)
    (h8 : ¬ 8 ≤ stop-p) : chunk e buf stop (state, p) = .done (.leave (some (state, p))) := by
  rw [chunk, usizeSub_pos hp, Prog.done_bind, if_neg h8]
  rfl

theorem tail_byte {buf : Buf} {stop p : ℕ} {state : BitVec 64} (hlt : p < stop)
    (hlen : stop ≤ buf.length) :
    Reaches (store buf) (tail buf stop (state, p)) (touched p 1)
      (.done (.again (dfaRun state (slice buf p (p+1)), p+1))) := by
  have hin : p < buf.length := by omega
  rw [tail, if_pos hlt, slice_one buf hin]
  simp only [usizeAdd_pos (show p+1 ≤ buf.length from hin), Prog.done_bind, Prog.pure_def]
  exact (reaches_load8 hin).then _

theorem tail_end {buf : Buf} {stop p : ℕ} {state : BitVec 64} (h : ¬ p < stop) :
    tail buf stop (state, p) = .done (.leave state) := by
  rw [tail, if_neg h]
  rfl

structure AtPass (buf : Buf) (start stop : ℕ) (s : BitVec 64 × ℕ) (t : Log) : Prop where
  lo : start ≤ s.2
  hi : s.2 ≤ stop
  state : s.1 = stateAt buf start s.2
  live : s.1 ≠ dfaReject
  quiet : Quiet start s.2 t

def ChunksDone (buf : Buf) (start stop : ℕ) (t : Log) (q : Exec (Option (BitVec 64 × ℕ))) :
    Prop :=
  (∃ c, start ≤ c ∧ c+8 ≤ stop ∧ stateAt buf start c ≠ dfaReject ∧ Quiet start (c+8) t ∧
    stateAt buf start stop = dfaReject ∧ q = .done none) ∨
  (∃ s, AtPass buf start stop s t ∧ stop-s.2 < 8 ∧ q = .done (some s))

theorem chunk_pass (e : Endian) {buf : Buf} {start stop : ℕ} (hlen : stop ≤ buf.length)
    (s : BitVec 64 × ℕ) (t : Log) (h : AtPass buf start stop s t) :
    (∃ s' u, Reaches (store buf) (chunk e buf stop s) u (.done (.again s')) ∧
      AtPass buf start stop s' (t++u) ∧ stop-s'.2 < stop-s.2) ∨
    (∃ u q, Reaches (store buf) (chunk e buf stop s) u (q >>= fun a => .done (.leave a)) ∧
      ChunksDone buf start stop (t++u) q) := by
  obtain ⟨state,p⟩ := s
  have hs : start ≤ p := h.lo
  have hp : p ≤ stop := h.hi
  have hst : state = stateAt buf start p := h.state
  by_cases h8 : 8 ≤ stop-p
  · have hfull : Reaches (store buf) (chunk e buf stop (state,p)) (touched p 8) _ :=
      chunk_full e h8 hlen
    have hq : Quiet start (p+8) (t++touched p 8) :=
      (h.quiet.mono le_rfl (by simp)).append (quiet_touched hs le_rfl)
    have hnext := stateAt_split buf hs (Nat.le_add_right p 8)
    rw [← hst] at hnext
    rw [← hnext] at hfull
    by_cases hrej : stateAt buf start (p+8) = dfaReject
    · rw [if_pos hrej] at hfull
      exact Or.inr ⟨_,.done none,hfull,Or.inl ⟨p,hs,by omega,hst ▸ h.live,hq,
        stateAt_dead (by omega) (by omega) hrej,rfl⟩⟩
    · rw [if_neg hrej] at hfull
      exact Or.inl ⟨_,_,hfull,⟨by simp; omega,by simp; omega,rfl,hrej,hq⟩,by simp; omega⟩
  · rw [chunk_rest e hp h8]
    refine Or.inr ⟨[],.done (some (state,p)),Reaches.refl _ _,Or.inr ⟨(state,p),?_,by omega,rfl⟩⟩
    rwa [List.append_nil]

structure AtTail (buf : Buf) (start stop : ℕ) (s : BitVec 64 × ℕ) (t : Log) : Prop where
  lo : start ≤ s.2
  hi : s.2 ≤ stop
  state : s.1 = stateAt buf start s.2
  quiet : Quiet start stop t

theorem tail_pass {buf : Buf} {start stop : ℕ} (hlen : stop ≤ buf.length)
    (s : BitVec 64 × ℕ) (t : Log) (h : AtTail buf start stop s t) :
    (∃ s' u, Reaches (store buf) (tail buf stop s) u (.done (.again s')) ∧
      AtTail buf start stop s' (t++u) ∧ stop-s'.2 < stop-s.2) ∨
    (∃ u q, Reaches (store buf) (tail buf stop s) u (q >>= fun a => .done (.leave a)) ∧
      Quiet start stop (t++u) ∧ q = .done (stateAt buf start stop)) := by
  obtain ⟨state,p⟩ := s
  have hs : start ≤ p := h.lo
  have hp : p ≤ stop := h.hi
  have hst : state = stateAt buf start p := h.state
  by_cases hlt : p < stop
  · have hbyte : Reaches (store buf) (tail buf stop (state,p)) (touched p 1) _ :=
      tail_byte hlt hlen
    have hnext := stateAt_split buf hs (Nat.le_succ p)
    have hq : Quiet start stop (t++touched p 1) := h.quiet.append (quiet_touched hs hlt)
    rw [hst, ← hnext] at hbyte
    rw [hst]
    exact Or.inl ⟨_,_,hbyte,⟨by simp; omega,hlt,rfl,hq⟩,by simp; omega⟩
  · obtain rfl : p = stop := by omega
    rw [tail_end hlt]
    exact Or.inr ⟨[],.done state,Reaches.refl _ _,by simpa using h.quiet,by rw [hst]⟩

/-- The slow path returns whether the plain fold accepts. All it reads lies in
the range, below eight bytes past a position `c` where the fold still lives. -/
theorem verifyMultibyte_reaches (e : Endian) {buf : Buf} {start stop : ℕ} (hs : start ≤ stop)
    (hlen : stop ≤ buf.length) :
    ∃ t c, Reaches (store buf) (verifyMultibyte e buf start stop) t
        (.done (decide (stateAt buf start stop = dfaAccept))) ∧
      start ≤ c ∧ c ≤ stop ∧ stateAt buf start c ≠ dfaReject ∧
      Quiet start (min stop (c+8)) t := by
  have hfirst : AtPass buf start stop (dfaAccept, start) [] :=
    ⟨le_rfl,hs,(stateAt_self buf start).symm,accept_ne_reject,quiet_nil _ _⟩
  obtain ⟨t,q,hr,hq⟩ := loop_reaches .endless (chunk e buf stop) (AtPass buf start stop)
    (ChunksDone buf start stop) (fun s => stop-s.2) (chunk_pass e hlen) (stop-start+1)
    (dfaAccept, start) [] hfirst (Nat.lt_succ_self _)
  rw [List.nil_append] at hq
  have hrest := hr.bind (fun r => match r with
    | none => pure false
    | some s => do
      let state ← loop .endless (tail buf stop) (stop-start+1) s
      pure (decide (state = dfaAccept)))
  rcases hq with ⟨c,hsc,hce,hlive,hquiet,hrej,rfl⟩ | ⟨s,hs',hleft,rfl⟩
  · refine ⟨t,c,?_,hsc,by omega,hlive,by rwa [Nat.min_eq_right hce]⟩
    rw [hrej, decide_eq_false accept_ne_reject.symm]
    exact hrest
  · have hlo := hs'.lo
    have hhi := hs'.hi
    obtain ⟨u,q,hu,hquiet,rfl⟩ := loop_reaches .endless (tail buf stop)
      (AtTail buf start stop) (fun t q => Quiet start stop t ∧ q = .done (stateAt buf start stop))
      (fun s => stop-s.2) (tail_pass hlen) (stop-start+1) s t
      ⟨hlo,hhi,hs'.state,hs'.quiet.mono le_rfl hhi⟩ (by omega)
    refine ⟨t++u,s.2,hrest.trans (hu.then _),hlo,hhi,hs'.state ▸ hs'.live,?_⟩
    rwa [Nat.min_eq_left (by omega)]

/-- The optimised loop returns what the plain fold decides, so the same bytes at
another place of another buffer give the same result. -/
theorem verifyMultibyte_eq_fold (e : Endian) (buf : Buf) (start stop : ℕ) (hs : start ≤ stop)
    (hlen : stop ≤ buf.length) :
    (∃ t, run (store buf) (verifyMultibyte e buf start stop) =
      .ok (decide ((slice buf start stop).foldl step dfaAccept = dfaAccept), t)) ∧
    ∀ (buf' : Buf) (start' stop' : ℕ), start' ≤ stop' → stop' ≤ buf'.length →
      slice buf' start' stop' = slice buf start stop →
      ∃ t, run (store buf') (verifyMultibyte e buf' start' stop') =
        .ok (decide ((slice buf start stop).foldl step dfaAccept = dfaAccept), t) := by
  constructor
  · obtain ⟨t,c,hr,-⟩ := verifyMultibyte_reaches e hs hlen
    exact ⟨t,reaches_done.mp hr⟩
  · intro buf' start' stop' hs' hlen' hsame
    obtain ⟨t,c,hr,-⟩ := verifyMultibyte_reaches e hs' hlen'
    rw [stateAt, hsame] at hr
    exact ⟨t,reaches_done.mp hr⟩

theorem verifyMultibyte_eq_fold_straddling :
    ∃ t, run (store [0x41,0x41,0x41,0x41,0x41,0x41,0x41,0xE4,0xB8,0x96])
      (verifyMultibyte .big [0x41,0x41,0x41,0x41,0x41,0x41,0x41,0xE4,0xB8,0x96] 0 10) =
        .ok (true, t) := by
  obtain ⟨t,h⟩ := (verifyMultibyte_eq_fold .big
    [0x41,0x41,0x41,0x41,0x41,0x41,0x41,0xE4,0xB8,0x96] 0 10 (by decide) (by decide)).1
  have hfold := (dfaRun_accept
    (slice [0x41,0x41,0x41,0x41,0x41,0x41,0x41,0xE4,0xB8,0x96] 0 10)).mpr (by decide)
  rw [dfaRun] at hfold
  rw [decide_eq_true hfold] at h
  exact ⟨t,h⟩

end SmoothUtf8.Multibyte
