import Mathlib.Algebra.BigOperators.Intervals
import Mathlib.Algebra.BigOperators.Ring.Finset
import Mathlib.Data.Nat.Digits.Defs
import Mathlib.Tactic.Common
import Mathlib.Tactic.Ring

/-!
# Words packed from bytes

A word of `n` bytes is their base-256 sum, least significant byte first. Bit
`i` of the word is bit `i % 8` of byte `i / 8`; byte extraction, byte reversal
and every sign-bit test on packed bytes follow from that one statement.
-/

set_option autoImplicit false

namespace Library.ByteWord

def leNat (bs : List UInt8) : ℕ := Nat.ofDigits 256 (bs.map UInt8.toNat)

def leWord (n : ℕ) (bs : List UInt8) : BitVec (8*n) := BitVec.ofNat (8*n) (leNat bs)

def beWord (n : ℕ) (bs : List UInt8) : BitVec (8*n) := leWord n bs.reverse

def byteAt {w : ℕ} (x : BitVec w) (k : ℕ) : UInt8 := UInt8.ofBitVec ((x >>> (8*k)).setWidth 8)

def toBytes {n : ℕ} (x : BitVec (8*n)) : List UInt8 := (List.range n).map (byteAt x)

def swapBytes {n : ℕ} (x : BitVec (8*n)) : BitVec (8*n) := leWord n (toBytes x).reverse

theorem leNat_cons (b : UInt8) (bs : List UInt8) : leNat (b::bs) = 2^8*leNat bs+b.toNat := by
  simp [leNat, Nat.ofDigits_cons, Nat.add_comm]

theorem leNat_lt (bs : List UInt8) : leNat bs < 2^(8*bs.length) := by
  induction bs with
  | nil => simp [leNat]
  | cons b bs ih =>
    have hb : b.toNat < 2^8 := b.toNat_lt
    rw [leNat_cons, List.length_cons, Nat.mul_succ, Nat.add_comm, pow_add]
    omega

theorem leNat_sum (bs : List UInt8) :
    leNat bs = ∑ j ∈ Finset.range bs.length, (bs.getD j 0).toNat*256^j := by
  induction bs with
  | nil => simp [leNat]
  | cons b bs ih =>
    rw [leNat_cons, ih, List.length_cons, Finset.sum_range_succ', Finset.mul_sum]
    simp only [List.getD_cons_succ, List.getD_cons_zero, pow_zero, Nat.mul_one, pow_succ]
    congr 1
    apply Finset.sum_congr rfl
    intro j _
    ring

theorem toNat_leWord (n : ℕ) (bs : List UInt8) (hn : bs.length = n) :
    (leWord n bs).toNat = leNat bs := by
  rw [leWord, BitVec.toNat_ofNat, Nat.mod_eq_of_lt (hn ▸ leNat_lt bs)]

theorem testBit_leNat (bs : List UInt8) (i : ℕ) :
    (leNat bs).testBit i = (bs.getD (i/8) 0).toBitVec.getLsbD (i%8) := by
  induction bs generalizing i with
  | nil => simp [leNat]
  | cons b bs ih =>
    have hb : b.toNat < 2^8 := b.toNat_lt
    rw [leNat_cons, Nat.testBit_two_pow_mul_add _ hb]
    by_cases hi : i < 8
    · simp [hi, Nat.div_eq_of_lt hi, Nat.mod_eq_of_lt hi]
      rfl
    · have hd : i/8 = (i-8)/8+1 := by omega
      have hm : i%8 = (i-8)%8 := by omega
      rw [if_neg hi, ih, hd, hm, List.getD_cons_succ]

theorem getLsbD_leWord (n : ℕ) (bs : List UInt8) (i : ℕ) (hi : i < 8*n) :
    (leWord n bs).getLsbD i = (bs.getD (i/8) 0).toBitVec.getLsbD (i%8) := by
  rw [leWord, BitVec.getLsbD_ofNat, testBit_leNat, decide_eq_true hi, Bool.true_and]

theorem byteAt_leWord (n : ℕ) (bs : List UInt8) (k : ℕ) (hk : k < n) :
    byteAt (leWord n bs) k = bs.getD k 0 := by
  apply UInt8.toBitVec_inj.mp
  apply BitVec.eq_of_getLsbD_eq
  intro i hi
  have hd : (8*k+i)/8 = k := by omega
  have hm : (8*k+i)%8 = i := by omega
  simp [byteAt, hi, getLsbD_leWord n bs (8*k+i) (by omega), hd, hm]

theorem toBytes_leWord (n : ℕ) (bs : List UInt8) (hn : bs.length = n) :
    toBytes (leWord n bs) = bs := by
  apply List.ext_getElem
  · simp [toBytes, hn]
  · intro k hk hk'
    have hlt : k < n := by omega
    simp [toBytes, byteAt_leWord n bs k hlt, hk']

/-- Swapping the bytes of a big-endian word makes it little-endian. -/
theorem swapBytes_beWord (n : ℕ) (bs : List UInt8) (hn : bs.length = n) :
    swapBytes (beWord n bs) = leWord n bs := by
  rw [swapBytes, beWord, toBytes_leWord n bs.reverse (by simpa using hn), List.reverse_reverse]

theorem lt_sign_iff (b : UInt8) : b < 0x80 ↔ b.toBitVec.getLsbD 7 = false := by
  have h : b.toBitVec.getLsbD 7 = b.toNat.testBit 7 := rfl
  have hb := b.toNat_lt
  rw [h, Nat.testBit_eq_decide_div_mod_eq, UInt8.lt_iff_toNat_lt]
  simp only [UInt8.reduceToNat, decide_eq_false_iff_not]
  omega

def IsSignMask (n k : ℕ) (m : BitVec (8*n)) : Prop :=
  ∀ i < 8*n, m.getLsbD i = decide (i%8 = 7 ∧ i/8 < k)

instance (n k : ℕ) (m : BitVec (8*n)) : Decidable (IsSignMask n k m) :=
  inferInstanceAs (Decidable (∀ i < 8*n, _))

theorem isSignMask_shift {n k : ℕ} {m : BitVec (8*n)} (hm : IsSignMask n n m) (hk : k ≤ n) :
    IsSignMask n k (m >>> ((n-k)*8)) := by
  intro i hi
  have hr : ((n-k)*8+i)%8 = i%8 := by omega
  have hd : ((n-k)*8+i)/8 = (n-k)+i/8 := by omega
  rw [BitVec.getLsbD_ushiftRight]
  by_cases hin : (n-k)*8+i < 8*n
  · rw [hm _ hin, hr, hd]
    apply decide_eq_decide.mpr
    omega
  · rw [BitVec.getLsbD_of_ge _ _ (not_lt.mp hin)]
    apply Eq.symm
    apply decide_eq_false
    omega

theorem forall_take_iff {P : UInt8 → Prop} {bs : List UInt8} {k : ℕ} (hk : k ≤ bs.length) :
    (∀ b ∈ bs.take k, P b) ↔ ∀ j < k, P (bs.getD j 0) := by
  constructor
  · intro h j hj
    have hlt : j < bs.length := by omega
    rw [List.getD_eq_getElem?_getD, List.getElem?_eq_getElem hlt]
    exact h _ (List.mem_take_iff_getElem.mpr ⟨j,by omega,rfl⟩)
  · intro h b hb
    obtain ⟨j,hj,rfl⟩ := List.mem_take_iff_getElem.mp hb
    have hlt : j < bs.length := by omega
    have hp := h j (by omega)
    rwa [List.getD_eq_getElem?_getD, List.getElem?_eq_getElem hlt] at hp

/-- A packed sign test is exact: no selected bit is set if and only if every
byte it covers is below `0x80`. -/
theorem leWord_and_signMask {n k : ℕ} {m : BitVec (8*n)} (hm : IsSignMask n k m) (hk : k ≤ n)
    {bs : List UInt8} (hn : bs.length = n) :
    leWord n bs &&& m = 0#(8*n) ↔ ∀ b ∈ bs.take k, b < 0x80 := by
  rw [forall_take_iff (hn.symm ▸ hk)]
  constructor
  · intro h j hj
    rw [lt_sign_iff]
    have hb := congrArg (fun x => x.getLsbD (8*j+7)) h
    have hd : (8*j+7)/8 = j := by omega
    have hr : (8*j+7)%8 = 7 := by omega
    simpa [hm (8*j+7) (by omega), getLsbD_leWord n bs (8*j+7) (by omega), hd, hr, hj] using hb
  · intro h
    apply BitVec.eq_of_getLsbD_eq
    intro i hi
    rw [BitVec.getLsbD_and, BitVec.getLsbD_zero]
    by_cases hs : i%8 = 7 ∧ i/8 < k
    · have hb := (lt_sign_iff _).mp (h (i/8) hs.2)
      rw [getLsbD_leWord n bs i hi, hs.1, hb, Bool.false_and]
    · rw [hm i hi, decide_eq_false hs, Bool.and_false]

theorem or_and_eq_zero {w : ℕ} (x y m : BitVec w) :
    (x ||| y) &&& m = 0#w ↔ x &&& m = 0#w ∧ y &&& m = 0#w := by
  rw [BitVec.and_or_distrib_right]
  exact BitVec.or_eq_zero_iff

end Library.ByteWord
