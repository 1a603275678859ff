import SmoothUtf8.Library.SlotWord
import SmoothUtf8.LittleEndian

/-!
# The specification the source is proved against

`spec.rs` states the automaton a second time, as a case distinction on the
ranges of the table, and runs it from the front. The packed rows agree with it on
every state and over every string. The functions whose bodies the source trusts,
the loads and the row lookup, return what their contracts say.
-/

set_option autoImplicit false

namespace SmoothUtf8.VerusSpec
open Library.CheckedProgram Library.ByteWord Library.Slice Library.SlotWord
open Table37 ShiftDfa LeafLoads SignBits LittleEndian

def isState (s : BitVec 64) : Prop :=
  s = State.reject ∨ s = State.accept ∨ s = State.c1 ∨ s = State.c2 ∨ s = State.e0 ∨
    s = State.ed ∨ s = State.f0 ∨ s = State.c3 ∨ s = State.f4

instance (s : BitVec 64) : Decidable (isState s) := inferInstanceAs (Decidable (_ ∨ _))

def specStep (s : BitVec 64) (b : UInt8) : BitVec 64 :=
  if s = State.accept then
    if b ≤ 0x7F then State.accept
    else if 0xC2 ≤ b ∧ b ≤ 0xDF then State.c1
    else if b = 0xE0 then State.e0
    else if b = 0xED then State.ed
    else if 0xE1 ≤ b ∧ b ≤ 0xEF then State.c2
    else if b = 0xF0 then State.f0
    else if b = 0xF4 then State.f4
    else if 0xF1 ≤ b ∧ b ≤ 0xF3 then State.c3
    else State.reject
  else if s = State.c1 then if cont b then State.accept else State.reject
  else if s = State.c2 then if cont b then State.c1 else State.reject
  else if s = State.c3 then if cont b then State.c2 else State.reject
  else if s = State.e0 then if 0xA0 ≤ b ∧ b ≤ 0xBF then State.c1 else State.reject
  else if s = State.ed then if 0x80 ≤ b ∧ b ≤ 0x9F then State.c1 else State.reject
  else if s = State.f0 then if 0x90 ≤ b ∧ b ≤ 0xBF then State.c2 else State.reject
  else if s = State.f4 then if 0x80 ≤ b ∧ b ≤ 0x8F then State.c2 else State.reject
  else State.reject

def run : BitVec 64 → List UInt8 → BitVec 64
  | st, [] => st
  | st, b::s => run (specStep st b) s

theorem isState_iff (s : BitVec 64) : isState s ↔ s ∈ states := by
  simp [isState, states]

theorem spec_cells : ∀ n < 256, ∀ st ∈ states,
    slot (specRow (UInt8.ofNat n)) st = specStep st (UInt8.ofNat n) := by
  have h : ((List.range 256).all fun n => states.all fun st =>
      slot (specRow (UInt8.ofNat n)) st = specStep st (UInt8.ofNat n)) = true := by
    decide +kernel
  simpa only [List.all_eq_true, List.mem_range, decide_eq_true_eq] using h

theorem step_specStep {st : BitVec 64} (hst : isState st) (b : UInt8) :
    step st b = specStep st b := by
  have hcell := spec_cells b.toNat b.toNat_lt st ((isState_iff st).mp hst)
  rw [UInt8.ofNat_toNat] at hcell
  rw [step, row_eq_specRow, hcell]

theorem isState_specStep {st : BitVec 64} (hst : isState st) (b : UInt8) :
    isState (specStep st b) := by
  rw [← step_specStep hst, isState_iff]
  exact (step_pending ((isState_iff st).mp hst) b).1

theorem dfaRun_run {st : BitVec 64} (hst : isState st) (s : List UInt8) :
    dfaRun st s = run st s ∧ isState (run st s) := by
  induction s generalizing st with
  | nil => exact ⟨rfl,hst⟩
  | cons b s ih =>
    obtain ⟨hrun,hstate⟩ := ih (isState_specStep hst b)
    rw [run, ← hrun, ← step_specStep hst]
    rw [← hrun, ← step_specStep hst] at hstate
    exact ⟨rfl,hstate⟩

theorem specStep_other {st : BitVec 64} (hst : ¬ isState st) (b : UInt8) :
    specStep st b = State.reject := by
  simp only [isState, not_or] at hst
  simp only [specStep, hst, if_false]

theorem run_reject (s : List UInt8) : run State.reject s = State.reject := by
  have hstate : isState State.reject := Or.inl rfl
  rw [← (dfaRun_run hstate s).1]
  exact dfaRun_dead s

/-- The packed rows run as the case distinction does, from every state and over
every string, and stay among the states; from the accepting one they decide the
executable table. From anything else the case distinction rejects at once. -/
theorem spec_automaton :
    (∀ st : BitVec 64, isState st → ∀ s : List UInt8,
      dfaRun st s = run st s ∧ isState (run st s)) ∧
    (∀ s : List UInt8, run State.accept s = State.accept ↔ isValidUtf8 s = true) ∧
    ∀ st : BitVec 64, ¬ isState st → ∀ (b : UInt8) (s : List UInt8),
      run st (b::s) = State.reject := by
  constructor
  · intro st hst s
    exact dfaRun_run hst s
  constructor
  · intro s
    have hstate : isState State.accept := Or.inr (Or.inl rfl)
    rw [isValidUtf8_iff, ← dfaRun_accept, ← (dfaRun_run hstate s).1]
    rfl
  · intro st hst b s
    rw [run, specStep_other hst]
    exact run_reject s

theorem spec_automaton_emoji :
    dfaRun State.c2 [0x98,0x80] = run State.c2 [0x98,0x80] ∧ run 7 [0x41] = State.reject :=
  ⟨(spec_automaton.1 State.c2 (by decide) [0x98,0x80]).1,spec_automaton.2.2 7 (by decide) 0x41 []⟩

/-! ## Trusted bodies -/

def widened (w : ℕ) (s : List UInt8) (i : ℕ) : BitVec w := (s.getD i 0).toBitVec.setWidth w

def pack64 (s : List UInt8) (i : ℕ) : BitVec 64 :=
  widened 64 s i ||| widened 64 s (i+1) <<< 8 ||| widened 64 s (i+2) <<< 16 |||
    widened 64 s (i+3) <<< 24 ||| widened 64 s (i+4) <<< 32 ||| widened 64 s (i+5) <<< 40 |||
    widened 64 s (i+6) <<< 48 ||| widened 64 s (i+7) <<< 56

def pack32 (s : List UInt8) (i : ℕ) : BitVec 32 :=
  widened 32 s i ||| widened 32 s (i+1) <<< 8 ||| widened 32 s (i+2) <<< 16 |||
    widened 32 s (i+3) <<< 24

def pack16 (s : List UInt8) (i : ℕ) : BitVec 16 := widened 16 s i ||| widened 16 s (i+1) <<< 8

def byte64 (x : BitVec 64) (j : ℕ) : UInt8 := UInt8.ofBitVec (((x >>> (8*j)) &&& 0xFF).setWidth 8)

theorem pack_orSlots {n : ℕ} {buf : Buf} {i : ℕ} (h : i+n ≤ buf.length) :
    pack n buf i = orSlots 8 (fun j => widened (8*n) buf (i+j)) n := by
  have hbyte : ∀ j < n, (widened (8*n) buf (i+j)).toNat = (buf.getD (i+j) 0).toNat := by
    intro j hj
    have hlt : (buf.getD (i+j) 0).toNat < 2^(8*n) :=
      (UInt8.toNat_lt _).trans_le (Nat.pow_le_pow_right (by decide) (by omega))
    rw [widened, BitVec.toNat_setWidth]
    exact Nat.mod_eq_of_lt hlt
  have hfits : Fits 8 (fun j => widened (8*n) buf (i+j)) n := by
    intro j hj
    rw [hbyte j hj]
    exact UInt8.toNat_lt _
  apply BitVec.eq_of_toNat_eq
  rw [toNat_pack h, (toNat_orSlots hfits (by omega)).1, littleEndian]
  apply Finset.sum_congr rfl
  intro j hj
  rw [hbyte j (Finset.mem_range.mp hj), Nat.mul_comm j 8, Nat.pow_mul]

theorem pack_pack64 {buf : Buf} {i : ℕ} (h : i+8 ≤ buf.length) : pack 8 buf i = pack64 buf i := by
  rw [pack_orSlots h]
  simp [orSlots, placed, List.range_succ, pack64]

theorem pack_pack32 {buf : Buf} {i : ℕ} (h : i+4 ≤ buf.length) : pack 4 buf i = pack32 buf i := by
  rw [pack_orSlots h]
  simp [orSlots, placed, List.range_succ, pack32]

theorem pack_pack16 {buf : Buf} {i : ℕ} (h : i+2 ≤ buf.length) : pack 2 buf i = pack16 buf i := by
  rw [pack_orSlots h]
  simp [orSlots, placed, List.range_succ, pack16]

theorem byte64_byteAt (x : BitVec 64) (j : ℕ) : byte64 x j = byteAt x j := by
  rw [byte64, byteAt]
  congr 1
  ext k hk
  have hmask : ∀ k (h : k < 8), (255#8)[k] = true := by decide
  simp [hmask]

theorem byte64_pack64 {buf : Buf} {i j : ℕ} (h : i+8 ≤ buf.length) (hj : j < 8) :
    buf[i+j]? = some (byte64 (pack64 buf i) j) := by
  rw [byte64_byteAt, ← pack_pack64 h]
  exact byteAt_pack h hj

/-- On either host every function the source's proof trusts returns what its
contract says: the loads the or of their bytes, read nowhere else, from which
each byte is recovered, and the row lookup the literal row. -/
theorem trusted_bodies (e : Endian) (buf : Buf) (i : ℕ) :
    (i+8 ≤ buf.length →
      Reaches (store buf) (load64 e buf i) (touched i 8) (.done (pack64 buf i)) ∧
        ∀ j < 8, buf[i+j]? = some (byte64 (pack64 buf i) j)) ∧
    (i+4 ≤ buf.length →
      Reaches (store buf) (load32 e buf i) (touched i 4) (.done (pack32 buf i))) ∧
    (i+2 ≤ buf.length →
      Reaches (store buf) (load16 e buf i) (touched i 2) (.done (pack16 buf i))) ∧
    (∀ h : i < buf.length, Reaches (store buf) (load8 buf i) (touched i 1) (.done buf[i])) ∧
    ∀ b : UInt8, row b = specRow b := by
  constructor
  · intro h
    constructor
    · rw [← pack_pack64 h]
      exact reaches_load64 e h
    · intro j hj
      exact byte64_pack64 h hj
  constructor
  · intro h
    rw [← pack_pack32 h]
    exact reaches_load32 e h
  constructor
  · intro h
    rw [← pack_pack16 h]
    exact reaches_load16 e h
  constructor
  · intro h
    exact reaches_load8 h
  · exact row_eq_specRow

theorem trusted_bodies_big :
    Reaches (store [0xC3,0xA9]) (load16 .big [0xC3,0xA9] 0) (touched 0 2)
      (.done (pack16 [0xC3,0xA9] 0)) ∧
    pack16 [0xC3,0xA9] 0 = 0xA9C3 :=
  ⟨(trusted_bodies .big [0xC3,0xA9] 0).2.2.1 (by decide),by decide⟩

/-! ## Trailing zeros -/

def signMask (n : ℕ) : BitVec 64 := signBits >>> ((8-n)*8)

/-- `ascii` of the source: the trailing zeros under the mask, in bytes. -/
def asciiCount (bytes : BitVec 64) (n : ℕ) : ℕ := (bytes &&& signMask n).ctz.toNat/8

def allAscii (s : List UInt8) (i j : ℕ) : Prop := ∀ k, i ≤ k → k < j → s.getD k 0 < 0x80

theorem allAscii_iff {s : List UInt8} {i j : ℕ} (hj : j ≤ s.length) :
    allAscii s i j ↔ Ascii s i j := by
  have hbyte : ∀ k, i ≤ k → k < j → (slice s i j)[k-i]? = some (s.getD k 0) := by
    intro k hlo hhi
    rw [getElem?_slice s (k-i) (by omega), Nat.add_sub_cancel' hlo, List.getD_eq_getElem?_getD,
      List.getElem?_eq_getElem (by omega), Option.getD_some]
  constructor
  · intro h a ha
    obtain ⟨n,hn⟩ := List.mem_iff_getElem?.mp ha
    have hlt : n < j-i := by
      rw [← length_slice s hj]
      exact (List.getElem?_eq_some_iff.mp hn).1
    have hget := hbyte (i+n) (Nat.le_add_right i n) (by omega)
    rw [Nat.add_sub_cancel_left, hn] at hget
    rw [Option.some.inj hget]
    exact h (i+n) (Nat.le_add_right i n) (by omega)
  · intro h k hlo hhi
    exact h _ (List.mem_of_getElem? (hbyte k hlo hhi))

theorem byte64_sign (x : BitVec 64) (j : ℕ) :
    byte64 x j < 0x80 ↔ x.getLsbD (8*j+7) = false := by
  rw [byte64_byteAt, byteAt, lt_sign_iff]
  simp

theorem getLsbD_signMask {n k : ℕ} (hn : n ≤ 8) (hk : k < 64) :
    (signMask n).getLsbD k = decide (k%8 = 7 ∧ k/8 < n) :=
  isSignMask_shift signBits_mask hn k hk

section Masked

variable {n : ℕ} {x : BitVec 64}

theorem masked_sign (hn : n ≤ 8) {j : ℕ} (hj : j < n) :
    (x &&& signMask n).getLsbD (8*j+7) = x.getLsbD (8*j+7) := by
  rw [BitVec.getLsbD_and, getLsbD_signMask hn (by omega)]
  simp [show (8*j+7)%8 = 7 by omega, show (8*j+7)/8 < n by omega]

theorem masked_set (hn : n ≤ 8) {k : ℕ} (h : (x &&& signMask n).getLsbD k = true) :
    k%8 = 7 ∧ k/8 < n := by
  have hk : k < 64 := BitVec.lt_of_getLsbD h
  rw [BitVec.getLsbD_and, getLsbD_signMask hn hk, Bool.and_eq_true] at h
  exact of_decide_eq_true h.2

theorem ctz_before (hn : n ≤ 8) {j : ℕ} (hj : j < n)
    (h : j < asciiCount x n) : byte64 x j < 0x80 := by
  rw [byte64_sign, ← masked_sign hn hj]
  rw [asciiCount] at h
  apply BitVec.getLsbD_false_of_lt_ctz
  omega

theorem asciiCount_lt : asciiCount x n < 8 ↔ x &&& signMask n ≠ 0#64 := by
  rw [← BitVec.ctz_lt_iff_ne_zero, BitVec.lt_def, asciiCount]
  show _ ↔ _ < 64
  omega

theorem asciiCount_le : asciiCount x n ≤ 8 := by
  have h : (x &&& signMask n).ctz ≤ 64#64 := by
    rw [BitVec.ctz_eq_reverse_clz]
    exact BitVec.clz_le
  rw [BitVec.le_def] at h
  exact Nat.div_le_of_le_mul h

/-- The byte behind the trailing zeros is the first with its sign bit set. -/
theorem ctz_found (hn : n ≤ 8) (h : asciiCount x n < 8) :
    asciiCount x n < n ∧ ¬ byte64 x (asciiCount x n) < 0x80 := by
  have hne := asciiCount_lt.mp h
  rw [asciiCount]
  have hset := BitVec.getLsbD_true_ctz_of_ne_zero hne
  obtain ⟨hsign,hlt⟩ := masked_set hn hset
  have hplace : 8*((x &&& signMask n).ctz.toNat/8)+7 = (x &&& signMask n).ctz.toNat := by omega
  rw [byte64_sign, ← masked_sign hn hlt, hplace, hset]
  exact ⟨hlt,Bool.noConfusion⟩

end Masked

/-- For any word whose first `n` bytes are those of the sequence, the count of
trailing zeros under the mask is eight when all of them are below `80`, and
otherwise the place of the first that is not; the word is zero under the mask in
the first case only. -/
theorem tz_ascii (buf : List UInt8) (i n : ℕ) (bytes : BitVec 64) (hn : n ≤ 8)
    (hbytes : ∀ j < n, byte64 bytes j = buf.getD (i+j) 0) :
    asciiCount bytes n ≤ 8 ∧
    (asciiCount bytes n < 8 → asciiCount bytes n < n ∧ allAscii buf i (i+asciiCount bytes n) ∧
      0x80 ≤ buf.getD (i+asciiCount bytes n) 0) ∧
    (asciiCount bytes n = 8 → allAscii buf i (i+n)) ∧
    (bytes &&& signMask n = 0 ↔ allAscii buf i (i+n)) := by
  have hfront : ∀ j ≤ n, j ≤ asciiCount bytes n → allAscii buf i (i+j) := by
    intro j hj hcount k hlo hhi
    have hk := hbytes (k-i) (by omega)
    rw [Nat.add_sub_cancel' hlo] at hk
    rw [← hk]
    exact ctz_before hn (by omega) (by omega)
  have hstop : asciiCount bytes n < 8 → asciiCount bytes n < n ∧
      0x80 ≤ buf.getD (i+asciiCount bytes n) 0 := by
    intro h
    obtain ⟨hlt,hsign⟩ := ctz_found hn h
    rw [hbytes _ hlt] at hsign
    exact ⟨hlt,not_lt.mp hsign⟩
  constructor
  · exact asciiCount_le
  constructor
  · intro h
    obtain ⟨hlt,hbad⟩ := hstop h
    exact ⟨hlt,hfront _ hlt.le le_rfl,hbad⟩
  constructor
  · intro h
    exact hfront n le_rfl (by omega)
  · constructor
    · intro h
      have hcount : ¬ asciiCount bytes n < 8 := by
        rw [asciiCount_lt]
        exact not_not_intro h
      exact hfront n le_rfl (by omega)
    · intro hall
      by_contra hne
      obtain ⟨hlt,hbad⟩ := hstop (asciiCount_lt.mpr hne)
      exact absurd hbad (not_le.mpr (hall _ (Nat.le_add_right i _) (Nat.add_lt_add_left hlt i)))

theorem tz_ascii_word :
    asciiCount 0xFF80C341 3 = 1 ∧ asciiCount 0xFF80C341 3 < 3 ∧
      allAscii [0x41,0xC3,0x80] 0 (0+asciiCount 0xFF80C341 3) := by
  have hcount : asciiCount 0xFF80C341 3 = 1 := by decide +kernel
  have h := (tz_ascii [0x41,0xC3,0x80] 0 3 0xFF80C341 (by decide) (by decide)).2.1 (by
    rw [hcount]
    decide)
  exact ⟨hcount,h.1,h.2.1⟩

end SmoothUtf8.VerusSpec
