import SmoothUtf8.Library.SmallestAutomaton
import SmoothUtf8.ShiftEncoding
import SmoothUtf8.StateMeaning

/-!
# The size of the tables

The automaton the rows are packed from has nine states and twelve byte classes.
Both counts are the least: every automaton of the well-formed strings that reads
bytes through classes carries the states of this one in its own states, and the
classes of this one in its own classes. Of the next-state table only the first
108 entries are ever read.
-/

set_option autoImplicit false

namespace SmoothUtf8.TableAutomaton
open Table37 ShiftDfa ShiftEncoding StateMeaning Library.SmallestAutomaton

def utf8Language : Language UInt8 := {s | WellFormed s}

theorem mem_utf8Language (s : List UInt8) : s ∈ utf8Language ↔ WellFormed s := Iff.rfl

theorem coarse_dfaRun : Coarse utf8Language (dfaRun dfaAccept) := by
  intro s s' hquotient
  apply (dfaRun_eq_iff s s').mpr
  intro t
  have hmem := Set.ext_iff.mp hquotient t
  exact hmem

/-! ## Classes -/

theorem class_formula (b : UInt8) : classTable.get b.toFin = classByte b := by
  have hc := get_of_toList classTable_list b.toFin
  rw [show UInt8.ofNat b.toFin = b from UInt8.ofNat_toNat] at hc
  exact hc

def classSample : List UInt8 := [0x00,0x80,0xC2,0xE1,0xED,0xF4,0xF1,0xA0,0xC0,0x90,0xE0,0xF0]

theorem classSample_class {c : ℕ} (hc : c < 12) :
    ∃ b ∈ classSample, classTable.get b.toFin = UInt8.ofNat c := by
  have h : ((List.range 12).all fun c => classSample.any fun b =>
      classByte b = UInt8.ofNat c) = true := by
    decide
  simp only [List.all_eq_true, List.any_eq_true, List.mem_range, decide_eq_true_eq] at h
  obtain ⟨b,hb,hclass⟩ := h c hc
  exact ⟨b,hb,(class_formula b).trans hclass⟩

theorem samples_separated {b b' : UInt8} (hb : b ∈ classSample) (hb' : b' ∈ classSample)
    (hne : b ≠ b') : ∃ st ∈ states, slot (specRow b) st ≠ slot (specRow b') st := by
  have h : (classSample.all fun b => classSample.all fun b' => b ≠ b' →
      states.any fun st => slot (specRow b) st ≠ slot (specRow b') st) = true := by
    decide
  simp only [List.all_eq_true, List.any_eq_true, decide_eq_true_eq] at h
  exact h b hb b' hb' hne

theorem row_class (b : UInt8) : row b = packRow transTable (classTable.get b.toFin).toNat :=
  get_buildRows classTable transTable b.toFin

theorem dfaRun_snoc (s : List UInt8) (b : UInt8) :
    dfaRun dfaAccept (s++[b]) = step (dfaRun dfaAccept s) b := dfaRun_append dfaAccept s [b]

theorem row_congr {b b' : UInt8} (h : classTable.get b.toFin = classTable.get b'.toFin) :
    row b = row b' := by
  rw [row_class, row_class, h]

theorem sample_of (b : UInt8) :
    ∃ x ∈ classSample, classTable.get x.toFin = classTable.get b.toFin := by
  obtain ⟨x,hx,hclass⟩ := classSample_class (classTable_lt b.toFin)
  exact ⟨x,hx,hclass.trans UInt8.ofNat_toNat⟩

theorem classes_separated {b b' : UInt8}
    (h : classTable.get b.toFin ≠ classTable.get b'.toFin) :
    ∃ st ∈ states, step st b ≠ step st b' := by
  obtain ⟨x,hx,hclass⟩ := sample_of b
  obtain ⟨x',hx',hclass'⟩ := sample_of b'
  have hne : x ≠ x' := by
    intro he
    apply h
    rw [← hclass, ← hclass', he]
  obtain ⟨st,hst,hslot⟩ := samples_separated hx hx' hne
  rw [← row_eq_specRow, ← row_eq_specRow, row_congr hclass, row_congr hclass'] at hslot
  exact ⟨st,hst,hslot⟩

/-- Two bytes share a class exactly when no string tells them apart. -/
theorem interchangeable_class (b b' : UInt8) : Interchangeable utf8Language b b' ↔
    classTable.get b.toFin = classTable.get b'.toFin := by
  constructor
  · intro h
    by_contra hne
    obtain ⟨st,hst,hstep⟩ := classes_separated hne
    obtain ⟨s,hs⟩ := states_reached hst
    apply hstep
    rw [← hs, ← dfaRun_snoc, ← dfaRun_snoc]
    apply (dfaRun_eq_iff _ _).mpr
    intro t
    rw [List.append_assoc, List.append_assoc]
    exact h s t
  · intro h u v
    have hstep : dfaRun dfaAccept (u++b::v) = dfaRun dfaAccept (u++b'::v) := by
      rw [dfaRun_append, dfaRun_append, dfaRun, List.foldl_cons, step, row_congr h]
      rfl
    rw [mem_utf8Language, mem_utf8Language, ← dfaRun_accept, ← dfaRun_accept, hstep]

/-! ## States -/

theorem multiples_toNat {i : ℕ} (hi : i < 9) : (BitVec.ofNat 64 (6*i)).toNat = 6*i := by
  rw [BitVec.toNat_ofNat, Nat.mod_eq_of_lt (by omega)]

theorem multiples_injective {i j : ℕ} (hi : i < 9) (hj : j < 9)
    (h : BitVec.ofNat 64 (6*i) = BitVec.ofNat 64 (6*j)) : i = j := by
  have hnat := congrArg BitVec.toNat h
  rw [multiples_toNat hi, multiples_toNat hj] at hnat
  exact Nat.eq_of_mul_eq_mul_left (by decide) hnat

/-- Over states and classes of any kind, a table that decides well-formedness has
the crate's states as a function of its own and the crate's classes as a function
of its own, hence at least nine states and twelve classes. -/
theorem tables_smallest {σ κ : Type} [Fintype σ] [Fintype κ] (classes : UInt8 → κ)
    (next : σ → κ → σ) (start : σ) (accept : Set σ)
    (h : ∀ s : List UInt8, s.foldl (fun st b => next st (classes b)) start ∈ accept ↔
      WellFormed s) :
    (∃ f : σ → BitVec 64, ∀ s : List UInt8,
      f (s.foldl (fun st b => next st (classes b)) start) = dfaRun dfaAccept s) ∧
    (∃ g : κ → UInt8, ∀ b : UInt8, g (classes b) = classTable.get b.toFin) ∧
    9 ≤ Fintype.card σ ∧ 12 ≤ Fintype.card κ := by
  have hM : (ofTable classes next start accept).accepts = utf8Language := by
    ext s
    exact h s
  obtain ⟨f,hf⟩ := coarse_map coarse_dfaRun hM
  obtain ⟨g,hg⟩ := class_map hM (fun b b' => (interchangeable_class b b').mp)
  have hstates : 9 ≤ Fintype.card σ := by
    choose w hw using fun i : Fin 9 => states_reached (multiples_states i.isLt)
    apply card_of_map f (fun i => (ofTable classes next start accept).eval (w i))
    intro i j hij
    simp only [hf, hw] at hij
    exact Fin.ext (multiples_injective i.isLt j.isLt hij)
  have hclasses : 12 ≤ Fintype.card κ := by
    choose w _ hw using fun c : Fin 12 => classSample_class c.isLt
    apply card_of_map g (fun c => classes (w c))
    intro c c' hcc
    simp only [hg, hw] at hcc
    have hnat := congrArg UInt8.toNat hcc
    rw [UInt8.toNat_ofNat_of_lt' (show (c : ℕ) < 256 by omega),
      UInt8.toNat_ofNat_of_lt' (show (c' : ℕ) < 256 by omega)] at hnat
    exact Fin.ext hnat
  exact ⟨⟨f,hf⟩,⟨g,hg⟩,hstates,hclasses⟩

/-! ## The crate's own tables -/

def crateClass (b : UInt8) : Fin 12 := ⟨(classTable.get b.toFin).toNat,classTable_lt b.toFin⟩

theorem crateNext_mem (st : {st // st ∈ states}) (c : Fin 12) :
    slot (packRow transTable c) st ∈ states := by
  obtain ⟨b,-,hclass⟩ := classSample_class c.isLt
  have hrow : row b = packRow transTable c := by
    rw [row_class, hclass, UInt8.toNat_ofNat_of_lt' (show (c : ℕ) < 256 by omega)]
  rw [← hrow]
  exact (step_pending st.property b).1

def crateNext (st : {st // st ∈ states}) (c : Fin 12) : {st // st ∈ states} :=
  ⟨slot (packRow transTable c) st,crateNext_mem st c⟩

theorem crateRun (s : List UInt8) (st : {st // st ∈ states}) :
    (s.foldl (fun st b => crateNext st (crateClass b)) st).val = dfaRun st s := by
  induction s generalizing st with
  | nil => rfl
  | cons b s ih =>
    rw [List.foldl_cons, ih, dfaRun, dfaRun, List.foldl_cons, step, row_class]
    rfl

theorem crate_accepts (s : List UInt8) :
    s.foldl (fun st b => crateNext st (crateClass b)) ⟨dfaAccept,accept_mem⟩ ∈
      ({⟨dfaAccept,accept_mem⟩} : Set {st // st ∈ states}) ↔ WellFormed s := by
  rw [Set.mem_singleton_iff, Subtype.ext_iff, crateRun]
  exact dfaRun_accept s

/-- The crate's tables decide well-formedness with the least number of states and of
classes, nine and twelve. -/
theorem tables_smallest_attained :
    (∀ s : List UInt8,
      s.foldl (fun st b => crateNext st (crateClass b)) ⟨dfaAccept,accept_mem⟩ ∈
        ({⟨dfaAccept,accept_mem⟩} : Set {st // st ∈ states}) ↔ WellFormed s) ∧
    Fintype.card {st // st ∈ states} = 9 ∧ Fintype.card (Fin 12) = 12 ∧
    9 ≤ Fintype.card {st // st ∈ states} ∧ 12 ≤ Fintype.card (Fin 12) :=
  ⟨crate_accepts,by decide,by decide,
    (tables_smallest crateClass crateNext _ _ crate_accepts).2.2⟩

/-! ## The table's padding -/

theorem packRow_congr {trans : Vector UInt8 256} (h : ∀ n < 108, trans[n]! = transTable[n]!)
    {c : ℕ} (hc : c < 12) : packRow trans c = packRow transTable c := by
  rw [packRow, packRow]
  apply List.foldl_ext
  intro row s hs
  have hlt := List.mem_range.mp hs
  rw [h (s*12+c) (by omega)]

theorem buildRows_congr {trans : Vector UInt8 256} (h : ∀ n < 108, trans[n]! = transTable[n]!) :
    buildRows classTable trans = rowTable := by
  rw [rowTable, buildRows, buildRows]
  congr 1
  funext b
  exact packRow_congr h (classTable_lt b)

def padded (trans : Vector UInt8 256) (h : ∀ n < 108, trans[n]! = transTable[n]!) : Tables where
  classes := classTable
  trans := trans
  class_lt := classTable_lt
  next_mul n hn := by
    rw [h n hn]
    exact tables.next_mul n hn
  next_le n hn := by
    rw [h n hn]
    exact tables.next_le n hn

theorem padded_run {trans : Vector UInt8 256} (h : ∀ n < 108, trans[n]! = transTable[n]!)
    (s : List UInt8) :
    SameIndex (dfaRun dfaAccept s) (s.foldl (nextState classTable trans) 12) := by
  have hrun := (padded trans h).sameIndex_run s ⟨1,by decide,rfl,rfl⟩
  have hrows : buildRows (padded trans h).classes (padded trans h).trans = rowTable :=
    buildRows_congr h
  rw [hrows] at hrun
  exact hrun

/-- Read without packing, `state = TRANS[state + CLASS[byte]]` decides the same
strings, and whatever fills the table from entry 108 on is never read. -/
theorem table_run (trans : Vector UInt8 256) (h : ∀ n < 108, trans[n]! = transTable[n]!)
    (s : List UInt8) :
    (s.foldl (nextState classTable trans) 12).toNat = 2*(dfaRun dfaAccept s).toNat ∧
    (s.foldl (nextState classTable trans) 12 = 12 ↔ WellFormed s) ∧
    (s.foldl (nextState classTable trans) 12 = 0 ↔ Dead s) ∧
    ∀ b : UInt8, (s.foldl (nextState classTable trans) 12).toNat+
      (classTable.get b.toFin).toNat < 108 := by
  obtain ⟨j,hj,hst,hx⟩ := padded_run h s
  have hnat : (s.foldl (nextState classTable trans) 12).toNat = 12*j := by
    rw [hst, UInt8.toNat_ofNat_of_lt' (show 12*j < 256 by omega)]
  have hrun : (dfaRun dfaAccept s).toNat = 6*j := by
    rw [hx, multiples_toNat hj]
  have haccept := dfaRun_accept s
  have hreject := dfaRun_reject s
  rw [← BitVec.toNat_inj, hrun] at haccept hreject
  constructor
  · omega
  constructor
  · rw [← haccept, ← UInt8.toNat_inj, hnat]
    show 12*j = 12 ↔ 6*j = 6
    omega
  constructor
  · rw [← hreject, ← UInt8.toNat_inj, hnat]
    show 12*j = 0 ↔ 6*j = 0
    omega
  · intro b
    have hclass := classTable_lt b.toFin
    omega

/-- With every entry of the tail sent to state 5 instead of 0, a two-byte
character is read as before. -/
theorem table_run_filled :
    (∀ n < 108, (Vector.ofFn fun i : Fin 256 => if i.val < 108 then transTable.get i else 60)[n]! =
      transTable[n]!) ∧
    ([0xC3,0xA9].foldl (nextState classTable
      (Vector.ofFn fun i : Fin 256 => if i.val < 108 then transTable.get i else 60)) 12 = 12 ↔
      WellFormed [0xC3,0xA9]) := by
  have h : ∀ n < 108, (Vector.ofFn fun i : Fin 256 =>
      if i.val < 108 then transTable.get i else 60)[n]! = transTable[n]! := by
    intro n hn
    have hlt : n < 256 := by omega
    rw [getElem!_pos _ n hlt, getElem!_pos _ n hlt, Vector.getElem_ofFn]
    exact if_pos hn
  exact ⟨h,(table_run _ h [0xC3,0xA9]).2.1⟩

end SmoothUtf8.TableAutomaton
