import Mathlib.Algebra.BigOperators.Intervals
import Mathlib.Tactic.Common

/-!
# Words made of slots

A word is filled slot by slot: each value is shifted to its slot and ored in.
While the values fit their slots and the slots fit the word, nothing overlaps
and nothing is lost. The word is then the sum of its slots, and shifting and
masking reads one of them back.
-/

set_option autoImplicit false

namespace Library.SlotWord

variable {w k n : ℕ} {d : ℕ → BitVec w}

def placed (k : ℕ) (d : ℕ → BitVec w) (i : ℕ) : BitVec w := d i <<< (i*k)

def orSlots (k : ℕ) (d : ℕ → BitVec w) (n : ℕ) : BitVec w :=
  (List.range n).foldl (fun r i => r ||| placed k d i) 0#w

def Fits (k : ℕ) (d : ℕ → BitVec w) (n : ℕ) : Prop := ∀ i < n, (d i).toNat < 2^k

theorem Fits.of_succ (h : Fits k d (n+1)) : Fits k d n := fun i hi => h i (by omega)

theorem orSlots_succ (k : ℕ) (d : ℕ → BitVec w) (n : ℕ) :
    orSlots k d (n+1) = orSlots k d n ||| placed k d n := by
  simp [orSlots, List.range_succ]

theorem getLsbD_placed (hk : 0 < k) {i j : ℕ} (hd : (d i).toNat < 2^k) (hj : j < w) :
    (placed k d i).getLsbD j = (decide (j/k = i) && (d i).getLsbD (j%k)) := by
  have hslot : j/k = i ↔ i*k ≤ j ∧ j < i*k+k := by
    rw [Nat.div_eq_iff hk]
    omega
  rw [placed, BitVec.getLsbD_shiftLeft, decide_eq_true hj, Bool.true_and]
  by_cases hlt : j < i*k
  · rw [decide_eq_true hlt, decide_eq_false (fun h => absurd (hslot.mp h).1 (not_le.mpr hlt))]
    rfl
  have hge : i*k ≤ j := not_lt.mp hlt
  rw [decide_eq_false hlt, Bool.not_false, Bool.true_and]
  by_cases hin : j < i*k+k
  · have hdiv : j/k = i := hslot.mpr ⟨hge,hin⟩
    have hmod : j%k = j-i*k := by rw [Nat.mod_eq_sub_div_mul, hdiv]
    rw [decide_eq_true hdiv, Bool.true_and, hmod]
  · have hhigh : 2^k ≤ 2^(j-i*k) := Nat.pow_le_pow_right (by decide) (by omega)
    have hbit : (d i).getLsbD (j-i*k) = false := Nat.testBit_lt_two_pow (hd.trans_le hhigh)
    rw [hbit, decide_eq_false (fun h => hin (hslot.mp h).2)]
    rfl

/-- Bit `j` of the word is bit `j % k` of the value in slot `j / k`. -/
theorem getLsbD_orSlots (hk : 0 < k) (hd : Fits k d n) {j : ℕ} (hj : j < w) :
    (orSlots k d n).getLsbD j = (decide (j/k < n) && (d (j/k)).getLsbD (j%k)) := by
  induction n with
  | zero => simp [orSlots]
  | succ n ih =>
    rw [orSlots_succ, BitVec.getLsbD_or, ih hd.of_succ,
      getLsbD_placed hk (hd n (Nat.lt_succ_self n)) hj]
    by_cases hn : j/k = n
    · rw [hn]
      simp
    · have hlt : j/k < n+1 ↔ j/k < n := by omega
      simp [hn, hlt]

theorem placed_apart (hk : 0 < k) (hd : Fits k d n) {i j : ℕ} (hi : i < n) (hj : j < n)
    (hij : i ≠ j) : placed k d i &&& placed k d j = 0#w := by
  apply BitVec.eq_of_getLsbD_eq
  intro b hb
  rw [BitVec.getLsbD_and, BitVec.getLsbD_zero, getLsbD_placed hk (hd i hi) hb,
    getLsbD_placed hk (hd j hj) hb]
  by_cases h : b/k = i
  · rw [decide_eq_false (fun h' => hij (h.symm.trans h')), Bool.false_and, Bool.and_false]
  · rw [decide_eq_false h, Bool.false_and, Bool.false_and]

/-- Shift and mask read a slot back. -/
theorem orSlots_read (hk : 0 < k) (hd : Fits k d n) (hw : n*k ≤ w) {i : ℕ} (hi : i < n) :
    (orSlots k d n >>> (i*k)) &&& BitVec.ofNat w (2^k-1) = d i := by
  have hend : i*k+k ≤ w := by
    have h := Nat.mul_le_mul_right k (show i+1 ≤ n from hi)
    rw [Nat.succ_mul] at h
    omega
  apply BitVec.eq_of_getLsbD_eq
  intro b hb
  rw [BitVec.getLsbD_and, BitVec.getLsbD_ushiftRight, BitVec.getLsbD_ofNat, decide_eq_true hb,
    Bool.true_and, Nat.testBit_two_pow_sub_one]
  by_cases hbk : b < k
  · have hdiv : (i*k+b)/k = i := by
      rw [Nat.add_comm, Nat.add_mul_div_right _ _ hk, Nat.div_eq_of_lt hbk, Nat.zero_add]
    have hmod : (i*k+b)%k = b := by
      rw [Nat.add_comm, Nat.add_mul_mod_self_right, Nat.mod_eq_of_lt hbk]
    rw [getLsbD_orSlots hk hd (by omega), hdiv, hmod]
    simp [hi, hbk]
  · have hhigh : 2^k ≤ 2^b := Nat.pow_le_pow_right (by decide) (not_lt.mp hbk)
    have hbit : (d i).getLsbD b = false := Nat.testBit_lt_two_pow ((hd i hi).trans_le hhigh)
    simp [hbk, hbit]

theorem toNat_placed (hw : n*k ≤ w) {i : ℕ} (hi : i < n) (hd : (d i).toNat < 2^k) :
    (placed k d i).toNat = (d i).toNat*2^(i*k) := by
  have hlt : (d i).toNat*2^(i*k) < 2^w := by
    have h := Nat.mul_le_mul_right k (show i+1 ≤ n from hi)
    calc (d i).toNat*2^(i*k) < 2^k*2^(i*k) := Nat.mul_lt_mul_of_pos_right hd (Nat.two_pow_pos _)
      _ = 2^((i+1)*k) := by rw [← pow_add, Nat.succ_mul, Nat.add_comm]
      _ ≤ 2^w := Nat.pow_le_pow_right (by decide) (h.trans hw)
  rw [placed, BitVec.toNat_shiftLeft, Nat.shiftLeft_eq, Nat.mod_eq_of_lt hlt]

/-- The or of the placed values is their sum, so none is lost and none overlaps. -/
theorem toNat_orSlots (hd : Fits k d n) (hw : n*k ≤ w) :
    (orSlots k d n).toNat = ∑ i ∈ Finset.range n, (d i).toNat*2^(i*k) ∧
      (orSlots k d n).toNat < 2^(n*k) := by
  induction n with
  | zero => simp [orSlots]
  | succ n ih =>
    have hle : n*k ≤ w := (Nat.mul_le_mul_right k (Nat.le_succ n)).trans hw
    obtain ⟨hsum,hlt⟩ := ih hd.of_succ hle
    have hn := hd n (Nat.lt_succ_self n)
    have hor : (orSlots k d (n+1)).toNat = 2^(n*k)*(d n).toNat+(orSlots k d n).toNat := by
      rw [orSlots_succ, BitVec.toNat_or, toNat_placed hw (Nat.lt_succ_self n) hn, Nat.or_comm,
        Nat.mul_comm, Nat.two_pow_add_eq_or_of_lt hlt]
    constructor
    · rw [hor, Finset.sum_range_succ, ← hsum, Nat.mul_comm, Nat.add_comm]
    · calc (orSlots k d (n+1)).toNat < 2^(n*k)*(d n).toNat+2^(n*k) := by omega
        _ = 2^(n*k)*((d n).toNat+1) := (Nat.mul_succ _ _).symm
        _ ≤ 2^(n*k)*2^k := Nat.mul_le_mul_left _ hn
        _ = 2^((n+1)*k) := by rw [← pow_add, Nat.succ_mul]

end Library.SlotWord
