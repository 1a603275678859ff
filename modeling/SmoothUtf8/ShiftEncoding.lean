import SmoothUtf8.Library.SlotWord
import SmoothUtf8.ShiftDfa

/-!
# The shift encoding of a table automaton

`build_rows` is taken as a function of its two tables. For every pair of tables
of the right kind the packed rows step exactly as the table does: state `12 i`
of the table is state `6 i` of the packed automaton, which is the place of its
slot in every row.
-/

set_option autoImplicit false

namespace SmoothUtf8.ShiftEncoding
open Library.SlotWord ShiftDfa

/-- Tables of the source's kind: twelve byte classes, and nine rows of twelve
next states, each a multiple of 12 up to 96. -/
structure Tables where
  classes : Vector UInt8 256
  trans : Vector UInt8 256
  class_lt : ∀ b : Fin 256, (classes.get b).toNat < 12
  next_mul : ∀ n < 108, 12 ∣ trans[n]!.toNat
  next_le : ∀ n < 108, trans[n]!.toNat ≤ 96

def nextState (classes trans : Vector UInt8 256) (state byte : UInt8) : UInt8 :=
  trans.get (state+classes.get byte.toFin).toFin

def stepOn (rows : Vector (BitVec 64) 256) (state : BitVec 64) (byte : UInt8) : BitVec 64 :=
  slot (rows.get byte.toFin) state

def slotValue (trans : Vector UInt8 256) (cls s : ℕ) : BitVec 64 :=
  BitVec.ofNat 64 (trans[s*12+cls]!/12).toNat*6

theorem packRow_slots (trans : Vector UInt8 256) (cls : ℕ) :
    packRow trans cls = orSlots 6 (slotValue trans cls) 9 := rfl

theorem Tables.next_index (T : Tables) {s c : ℕ} (hs : s < 9) (hc : c < 12) :
    ∃ j < 9, T.trans[s*12+c]!.toNat = 12*j := by
  have hn : s*12+c < 108 := by omega
  obtain ⟨j,hj⟩ := T.next_mul _ hn
  have hle := T.next_le _ hn
  exact ⟨j,by omega,hj⟩

theorem slotValue_index {trans : Vector UInt8 256} {cls s j : ℕ}
    (h : trans[s*12+cls]!.toNat = 12*j) : slotValue trans cls s = BitVec.ofNat 64 (6*j) := by
  have hdiv : (trans[s*12+cls]!/12).toNat = j := by
    rw [UInt8.toNat_div, h]
    exact Nat.mul_div_cancel_left j (by decide)
  rw [slotValue, hdiv, Nat.mul_comm, BitVec.ofNat_mul]
  rfl

theorem slotValue_toNat {trans : Vector UInt8 256} {cls s j : ℕ} (hj : j < 9)
    (h : trans[s*12+cls]!.toNat = 12*j) : (slotValue trans cls s).toNat = 6*j := by
  rw [slotValue_index h, BitVec.toNat_ofNat, Nat.mod_eq_of_lt (by omega)]

theorem Tables.fits (T : Tables) {c : ℕ} (hc : c < 12) : Fits 6 (slotValue T.trans c) 9 := by
  intro s hs
  obtain ⟨j,hj,hnext⟩ := T.next_index hs hc
  rw [slotValue_toNat hj hnext]
  omega

theorem get_buildRows (classes trans : Vector UInt8 256) (b : Fin 256) :
    (buildRows classes trans).get b = packRow trans (classes.get b).toNat := get_ofFn _ b

theorem get_eq_getElem! {α : Type} [Inhabited α] {n : ℕ} (v : Vector α n) (i : Fin n) :
    v.get i = v[(i : ℕ)]! := (getElem!_pos v i i.isLt).symm

/-- The sum of a state and a class of the source's kind does not wrap. -/
theorem Tables.nextState_index (T : Tables) {i j : ℕ} (hi : i < 9) (byte : UInt8)
    (hnext : T.trans[i*12+(T.classes.get byte.toFin).toNat]!.toNat = 12*j) :
    nextState T.classes T.trans (UInt8.ofNat (12*i)) byte = UInt8.ofNat (12*j) := by
  have hc := T.class_lt byte.toFin
  have hstate : (UInt8.ofNat (12*i)).toNat = 12*i :=
    UInt8.toNat_ofNat_of_lt' (show 12*i < 256 by omega)
  have hsum : (UInt8.ofNat (12*i)+T.classes.get byte.toFin).toNat =
      i*12+(T.classes.get byte.toFin).toNat := by
    rw [UInt8.toNat_add, hstate, Nat.mod_eq_of_lt (by omega), Nat.mul_comm]
  rw [nextState, get_eq_getElem!, ← hnext, UInt8.ofNat_toNat]
  exact congrArg (fun n => T.trans[n]!) hsum

theorem packed_shift {i : ℕ} (hi : i < 9) : (BitVec.ofNat 64 (6*i) &&& 63).toNat = i*6 := by
  have hmask : (63 : BitVec 64).toNat = 2^6-1 := rfl
  rw [BitVec.toNat_and, BitVec.toNat_ofNat, Nat.mod_eq_of_lt (by omega), hmask,
    Nat.and_two_pow_sub_one_eq_mod, Nat.mod_eq_of_lt (by omega), Nat.mul_comm]

/-- One step of the table and one of the packed rows lead to the same index. -/
theorem Tables.step_index (T : Tables) {i : ℕ} (hi : i < 9) (byte : UInt8) :
    ∃ j < 9, nextState T.classes T.trans (UInt8.ofNat (12*i)) byte = UInt8.ofNat (12*j) ∧
      stepOn (buildRows T.classes T.trans) (BitVec.ofNat 64 (6*i)) byte =
        BitVec.ofNat 64 (6*j) := by
  have hc := T.class_lt byte.toFin
  obtain ⟨j,hj,hnext⟩ := T.next_index hi hc
  refine ⟨j,hj,T.nextState_index hi byte hnext,?_⟩
  rw [stepOn, get_buildRows, packRow_slots, slot, packed_shift hi, ← slotValue_index hnext]
  exact orSlots_read (by decide) (T.fits hc) (by decide) hi

def SameIndex (x : BitVec 64) (st : UInt8) : Prop :=
  ∃ j < 9, st = UInt8.ofNat (12*j) ∧ x = BitVec.ofNat 64 (6*j)

theorem Tables.sameIndex_step (T : Tables) {x : BitVec 64} {st : UInt8} (h : SameIndex x st)
    (byte : UInt8) : SameIndex (stepOn (buildRows T.classes T.trans) x byte)
      (nextState T.classes T.trans st byte) := by
  obtain ⟨i,hi,rfl,rfl⟩ := h
  exact T.step_index hi byte

theorem Tables.sameIndex_run (T : Tables) (s : List UInt8) {x : BitVec 64} {st : UInt8}
    (h : SameIndex x st) : SameIndex (s.foldl (stepOn (buildRows T.classes T.trans)) x)
      (s.foldl (nextState T.classes T.trans) st) := by
  induction s generalizing x st with
  | nil => exact h
  | cons b s ih => exact ih (T.sameIndex_step h b)

theorem classTable_lt (b : Fin 256) : (classTable.get b).toNat < 12 := by
  have h : (classTable.toList.all fun c => c.toNat < 12) = true := by decide +kernel
  simp only [List.all_eq_true, decide_eq_true_eq] at h
  exact h _ (by simp [Vector.get])

def tables : Tables where
  classes := classTable
  trans := transTable
  class_lt := classTable_lt
  next_mul := by
    have h : ((List.range 108).all fun n => 12 ∣ transTable[n]!.toNat) = true := by decide +kernel
    simpa only [List.all_eq_true, List.mem_range, decide_eq_true_eq] using h
  next_le := by
    have h : ((List.range 108).all fun n => transTable[n]!.toNat ≤ 96) = true := by decide +kernel
    simpa only [List.all_eq_true, List.mem_range, decide_eq_true_eq] using h

/-- A packed row as a number: the sum of its nine slots, in 54 bits, no two of
them sharing a bit. -/
theorem Tables.row_slots (T : Tables) (b : Fin 256) :
    ((buildRows T.classes T.trans).get b).toNat = ∑ s ∈ Finset.range 9,
        (T.trans[s*12+(T.classes.get b).toNat]!.toNat/12*6)*2^(s*6) ∧
      ((buildRows T.classes T.trans).get b).toNat < 2^54 ∧
      ∀ s s' : Fin 9, s ≠ s' →
        (slotValue T.trans (T.classes.get b).toNat s <<< (s.val*6)) &&&
          (slotValue T.trans (T.classes.get b).toNat s' <<< (s'.val*6)) = 0 := by
  have hfits := T.fits (T.class_lt b)
  obtain ⟨hsum,hlt⟩ := toNat_orSlots hfits (show 9*6 ≤ 64 by decide)
  rw [get_buildRows, packRow_slots]
  refine ⟨hsum.trans (Finset.sum_congr rfl fun s hs => ?_),hlt,fun s s' hne => ?_⟩
  · obtain ⟨j,hj,hnext⟩ := T.next_index (Finset.mem_range.mp hs) (T.class_lt b)
    rw [slotValue_toNat hj hnext, hnext, Nat.mul_div_cancel_left j (by decide), Nat.mul_comm 6]
  · exact placed_apart (by decide) hfits s.isLt s'.isLt (fun h => hne (Fin.ext h))

/-- Over any string and from any state, the packed rows of any tables of the
source's kind run as the tables do, and the crate's own rows as the crate's
tables do. -/
theorem shift_encoding_simulates :
    (∀ (T : Tables) (i : Fin 9) (s : List UInt8), ∃ j : Fin 9,
      s.foldl (nextState T.classes T.trans) (UInt8.ofNat (12*i)) = UInt8.ofNat (12*j) ∧
      s.foldl (stepOn (buildRows T.classes T.trans)) (BitVec.ofNat 64 (6*i)) =
        BitVec.ofNat 64 (6*j)) ∧
    (∀ (i : Fin 9) (s : List UInt8), ∃ j : Fin 9,
      s.foldl (nextState classTable transTable) (UInt8.ofNat (12*i)) = UInt8.ofNat (12*j) ∧
      s.foldl step (BitVec.ofNat 64 (6*i)) = BitVec.ofNat 64 (6*j)) ∧
    ∀ (T : Tables) (b : Fin 256),
      ((buildRows T.classes T.trans).get b).toNat = ∑ s ∈ Finset.range 9,
          (T.trans[s*12+(T.classes.get b).toNat]!.toNat/12*6)*2^(s*6) ∧
        ((buildRows T.classes T.trans).get b).toNat < 2^54 ∧
        ∀ s s' : Fin 9, s ≠ s' →
          (slotValue T.trans (T.classes.get b).toNat s <<< (s.val*6)) &&&
            (slotValue T.trans (T.classes.get b).toNat s' <<< (s'.val*6)) = 0 := by
  have hrun : ∀ (T : Tables) (i : Fin 9) (s : List UInt8), ∃ j : Fin 9,
      s.foldl (nextState T.classes T.trans) (UInt8.ofNat (12*i)) = UInt8.ofNat (12*j) ∧
      s.foldl (stepOn (buildRows T.classes T.trans)) (BitVec.ofNat 64 (6*i)) =
        BitVec.ofNat 64 (6*j) := by
    intro T i s
    obtain ⟨j,hj,hst,hx⟩ := T.sameIndex_run s ⟨i,i.isLt,rfl,rfl⟩
    exact ⟨⟨j,hj⟩,hst,hx⟩
  exact ⟨hrun,hrun tables,fun T b => T.row_slots b⟩

theorem shift_encoding_simulates_twice :
    [0xE2,0x82].foldl (nextState classTable transTable) 12 = 24 ∧
    (∃ j : Fin 9, [0xE2,0x82].foldl (nextState classTable transTable) 12 = UInt8.ofNat (12*j) ∧
      [0xE2,0x82].foldl step 6 = BitVec.ofNat 64 (6*j)) ∧
    (slotValue transTable (classTable.get 0x80).toNat 1 <<< (1*6)) &&&
      (slotValue transTable (classTable.get 0x80).toNat 2 <<< (2*6)) = 0 := by
  refine ⟨by decide +kernel,shift_encoding_simulates.2.1 1 [0xE2,0x82],?_⟩
  exact (shift_encoding_simulates.2.2 tables 0x80).2.2 1 2 (by decide)

end SmoothUtf8.ShiftEncoding
