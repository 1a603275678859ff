import SmoothUtf8.Table37

/-!
# The packed automaton and the table it reads

`CLASS` and `TRANS` are copied from the source; the rows are packed from them
by the source's loop. A state is compared with what is left to read of a row of
the table, one byte at a time, and from that every fold of `step` is read off:
the accepting state is the boundary between rows and the rejecting state is a
dead end.
-/

set_option autoImplicit false

namespace SmoothUtf8.ShiftDfa
open Table37 Library.RowGrammar Library.PrefixCode

set_option maxRecDepth 4000 in
def classTable : Vector UInt8 256 := #v[
     0,0,0,0,0,0,0,0,0,0,0,0,0,0,0,0,  0,0,0,0,0,0,0,0,0,0,0,0,0,0,0,0,
     0,0,0,0,0,0,0,0,0,0,0,0,0,0,0,0,  0,0,0,0,0,0,0,0,0,0,0,0,0,0,0,0,
     0,0,0,0,0,0,0,0,0,0,0,0,0,0,0,0,  0,0,0,0,0,0,0,0,0,0,0,0,0,0,0,0,
     0,0,0,0,0,0,0,0,0,0,0,0,0,0,0,0,  0,0,0,0,0,0,0,0,0,0,0,0,0,0,0,0,
     1,1,1,1,1,1,1,1,1,1,1,1,1,1,1,1,  9,9,9,9,9,9,9,9,9,9,9,9,9,9,9,9,
     7,7,7,7,7,7,7,7,7,7,7,7,7,7,7,7,  7,7,7,7,7,7,7,7,7,7,7,7,7,7,7,7,
     8,8,2,2,2,2,2,2,2,2,2,2,2,2,2,2,  2,2,2,2,2,2,2,2,2,2,2,2,2,2,2,2,
    10,3,3,3,3,3,3,3,3,3,3,3,3,4,3,3, 11,6,6,6,5,8,8,8,8,8,8,8,8,8,8,8]

set_option maxRecDepth 4000 in
def transTable : Vector UInt8 256 := #v[
     0, 0, 0, 0, 0, 0, 0, 0, 0, 0, 0, 0,
    12, 0,24,36,60,96,84, 0, 0, 0,48,72,
     0,12, 0, 0, 0, 0, 0,12, 0,12, 0, 0,
     0,24, 0, 0, 0, 0, 0,24, 0,24, 0, 0,
     0, 0, 0, 0, 0, 0, 0,24, 0, 0, 0, 0,
     0,24, 0, 0, 0, 0, 0, 0, 0,24, 0, 0,
     0, 0, 0, 0, 0, 0, 0,36, 0,36, 0, 0,
     0,36, 0, 0, 0, 0, 0,36, 0,36, 0, 0,
     0,36, 0, 0, 0, 0, 0, 0, 0, 0, 0, 0,
     0,0,0,0,0,0,0,0,0,0,0,0,0,0,0,0,0,0,0,0,0,0,0,0,0,0,0,0,0,0,0,0,
     0,0,0,0,0,0,0,0,0,0,0,0,0,0,0,0,0,0,0,0,0,0,0,0,0,0,0,0,0,0,0,0,
     0,0,0,0,0,0,0,0,0,0,0,0,0,0,0,0,0,0,0,0,0,0,0,0,0,0,0,0,0,0,0,0,
     0,0,0,0,0,0,0,0,0,0,0,0,0,0,0,0,0,0,0,0,0,0,0,0,0,0,0,0,0,0,0,0,
     0,0,0,0,0,0,0,0,0,0,0,0,0,0,0,0,0,0,0,0]

def packRow (trans : Vector UInt8 256) (cls : ℕ) : BitVec 64 :=
  (List.range 9).foldl (fun row s =>
    row ||| (BitVec.ofNat 64 (trans[s*12+cls]!/12).toNat*6) <<< (s*6)) 0

def buildRows (classes trans : Vector UInt8 256) : Vector (BitVec 64) 256 :=
  Vector.ofFn (fun b => packRow trans (classes.get b).toNat)

def rowTable : Vector (BitVec 64) 256 := buildRows classTable transTable

def row (byte : UInt8) : BitVec 64 := rowTable.get byte.toFin

def slot (r state : BitVec 64) : BitVec 64 := (r >>> (state &&& 63).toNat) &&& 63

def step (state : BitVec 64) (byte : UInt8) : BitVec 64 := slot (row byte) state

namespace State

def reject : BitVec 64 := 0

def accept : BitVec 64 := 6

def c1 : BitVec 64 := 12

def c2 : BitVec 64 := 18

def e0 : BitVec 64 := 24

def ed : BitVec 64 := 30

def f0 : BitVec 64 := 36

def c3 : BitVec 64 := 42

def f4 : BitVec 64 := 48

end State

def dfaAccept : BitVec 64 := 6

def dfaReject : BitVec 64 := 0

def states : List (BitVec 64) :=
  [State.reject,State.accept,State.c1,State.c2,State.e0,State.ed,State.f0,State.c3,State.f4]

/-- The source's literal transcription of the packed rows. -/
def specRow (b : UInt8) : BitVec 64 :=
  if b ≤ 0x7F then 0x0000000000000180
  else if b ≤ 0x8F then 0x0012480300306000
  else if b ≤ 0x9F then 0x0000492300306000
  else if b ≤ 0xBF then 0x000049200C306000
  else if b ≤ 0xC1 then 0
  else if b ≤ 0xDF then 0x0000000000000300
  else if b = 0xE0 then 0x0000000000000600
  else if b ≤ 0xEC then 0x0000000000000480
  else if b = 0xED then 0x0000000000000780
  else if b ≤ 0xEF then 0x0000000000000480
  else if b = 0xF0 then 0x0000000000000900
  else if b ≤ 0xF3 then 0x0000000000000A80
  else if b = 0xF4 then 0x0000000000000C00
  else 0

def classByte (b : UInt8) : UInt8 :=
  if b ≤ 0x7F then 0
  else if b ≤ 0x8F then 1
  else if b ≤ 0x9F then 9
  else if b ≤ 0xBF then 7
  else if b ≤ 0xC1 then 8
  else if b ≤ 0xDF then 2
  else if b = 0xE0 then 10
  else if b ≤ 0xEC then 3
  else if b = 0xED then 4
  else if b ≤ 0xEF then 3
  else if b = 0xF0 then 11
  else if b ≤ 0xF3 then 6
  else if b = 0xF4 then 5
  else 8

theorem classTable_list :
    classTable.toList = (List.range 256).map (fun n => classByte (UInt8.ofNat n)) := by
  decide +kernel

theorem get_of_toList {α : Type} {n : ℕ} {v : Vector α n} {f : ℕ → α}
    (h : v.toList = (List.range n).map f) (i : Fin n) : v.get i = f i := by
  have hi : (i : ℕ) < v.toList.length := by simp
  have hg := List.getElem_of_eq h hi
  rw [List.getElem_map, List.getElem_range] at hg
  exact hg

theorem get_ofFn {α : Type} {n : ℕ} (f : Fin n → α) (i : Fin n) :
    (Vector.ofFn f).get i = f i := by
  show (Vector.ofFn f)[(i : ℕ)] = f i
  simp

theorem row_formula (b : UInt8) : row b = packRow transTable (classByte b).toNat := by
  have hc := get_of_toList classTable_list b.toFin
  rw [show UInt8.ofNat b.toFin = b from UInt8.ofNat_toNat] at hc
  rw [row, rowTable, buildRows, get_ofFn, hc]

theorem ite_both {α β : Type} (R : α → β → Prop) {c : Prop} [Decidable c] {x y : α} {u v : β}
    (hp : R x u) (hn : R y v) : R (if c then x else y) (if c then u else v) := by
  by_cases h : c
  · rw [if_pos h, if_pos h]
    exact hp
  · rw [if_neg h, if_neg h]
    exact hn

def Packs (c : UInt8) (r : BitVec 64) : Prop := packRow transTable c.toNat = r

instance (c : UInt8) (r : BitVec 64) : Decidable (Packs c r) := inferInstanceAs (Decidable (_ = _))

theorem packs_spec (b : UInt8) : Packs (classByte b) (specRow b) := by
  rw [classByte, specRow]
  iterate 13
    refine ite_both Packs ?_ ?_
    · decide +kernel
  decide +kernel

/-- The source's compile-time check of all 256 packed rows. -/
theorem row_eq_specRow (b : UInt8) : row b = specRow b := (row_formula b).trans (packs_spec b)

def pending (st : BitVec 64) : Option (Row UInt8) :=
  if st = State.accept then some []
  else if st = State.c1 then some [(0x80,0xBF)]
  else if st = State.c2 then some [(0x80,0xBF),(0x80,0xBF)]
  else if st = State.e0 then some [(0xA0,0xBF),(0x80,0xBF)]
  else if st = State.ed then some [(0x80,0x9F),(0x80,0xBF)]
  else if st = State.f0 then some [(0x90,0xBF),(0x80,0xBF),(0x80,0xBF)]
  else if st = State.c3 then some [(0x80,0xBF),(0x80,0xBF),(0x80,0xBF)]
  else if st = State.f4 then some [(0x80,0x8F),(0x80,0xBF),(0x80,0xBF)]
  else none

def stretches : List ((UInt8 × UInt8) × BitVec 64) :=
  [((0x00,0x7F),0x0000000000000180),
   ((0x80,0x8F),0x0012480300306000),
   ((0x90,0x9F),0x0000492300306000),
   ((0xA0,0xBF),0x000049200C306000),
   ((0xC0,0xC1),0),
   ((0xC2,0xDF),0x0000000000000300),
   ((0xE0,0xE0),0x0000000000000600),
   ((0xE1,0xEC),0x0000000000000480),
   ((0xED,0xED),0x0000000000000780),
   ((0xEE,0xEF),0x0000000000000480),
   ((0xF0,0xF0),0x0000000000000900),
   ((0xF1,0xF3),0x0000000000000A80),
   ((0xF4,0xF4),0x0000000000000C00),
   ((0xF5,0xFF),0)]

def OnStretch (b : UInt8) (r : BitVec 64) : Prop := ∃ g ∈ stretches, Within g.1 b ∧ r = g.2

theorem ite_upto {b : UInt8} {r r' : BitVec 64} (lo hi next : UInt8) (hlo : lo ≤ b)
    (hg : ((lo,hi),r) ∈ stretches) (hn : hi.toNat+1 = next.toNat)
    (h : next ≤ b → OnStretch b r') : OnStretch b (if b ≤ hi then r else r') := by
  by_cases hb : b ≤ hi
  · rw [if_pos hb]
    exact ⟨_,hg,⟨hlo,hb⟩,rfl⟩
  · rw [if_neg hb]
    apply h
    rw [UInt8.le_iff_toNat_le] at *
    omega

theorem ite_only {b : UInt8} {r r' : BitVec 64} (x next : UInt8) (hlo : x ≤ b)
    (hg : ((x,x),r) ∈ stretches) (hn : x.toNat+1 = next.toNat)
    (h : next ≤ b → OnStretch b r') : OnStretch b (if b = x then r else r') := by
  have hx : b = x ↔ b ≤ x := ⟨fun h => h.le,fun h => le_antisymm h hlo⟩
  simp only [hx]
  exact ite_upto x x next hlo hg hn h

theorem row_stretch (b : UInt8) : OnStretch b (row b) := by
  rw [row_eq_specRow, specRow]
  refine ite_upto 0x00 0x7F 0x80 UInt8.zero_le (by decide) rfl (fun h => ?_)
  refine ite_upto 0x80 0x8F 0x90 h (by decide) rfl (fun h => ?_)
  refine ite_upto 0x90 0x9F 0xA0 h (by decide) rfl (fun h => ?_)
  refine ite_upto 0xA0 0xBF 0xC0 h (by decide) rfl (fun h => ?_)
  refine ite_upto 0xC0 0xC1 0xC2 h (by decide) rfl (fun h => ?_)
  refine ite_upto 0xC2 0xDF 0xE0 h (by decide) rfl (fun h => ?_)
  refine ite_only 0xE0 0xE1 h (by decide) rfl (fun h => ?_)
  refine ite_upto 0xE1 0xEC 0xED h (by decide) rfl (fun h => ?_)
  refine ite_only 0xED 0xEE h (by decide) rfl (fun h => ?_)
  refine ite_upto 0xEE 0xEF 0xF0 h (by decide) rfl (fun h => ?_)
  refine ite_only 0xF0 0xF1 h (by decide) rfl (fun h => ?_)
  refine ite_upto 0xF1 0xF3 0xF4 h (by decide) rfl (fun h => ?_)
  refine ite_only 0xF4 0xF5 h (by decide) rfl (fun h => ?_)
  exact ⟨((0xF5,0xFF),0),by decide,⟨h,UInt8.le_iff_toNat_le.mpr (Nat.le_of_lt_succ b.toNat_lt)⟩,rfl⟩

def Simulates (r : BitVec 64) (b : UInt8) (st : BitVec 64) : Prop :=
  slot r st ∈ states ∧ pending (slot r st) = utf8.advance (pending st) b

instance (r : BitVec 64) (b : UInt8) (st : BitVec 64) : Decidable (Simulates r b st) :=
  inferInstanceAs (Decidable (_ ∧ _))

theorem stretch_cells : ∀ g ∈ stretches, ∀ st ∈ states, Simulates g.2 g.1.1 st := by
  have h : (stretches.all fun g => states.all fun st => Simulates g.2 g.1.1 st) = true := by
    decide +kernel
  simpa only [List.all_eq_true, decide_eq_true_eq] using h

theorem ranges_uncut : ∀ g ∈ stretches, ∀ rw ∈ rows37, ∀ r ∈ rw, Uncut r g.1 := by
  have h : (stretches.all fun g => rows37.all fun rw => rw.all fun r => Uncut r g.1) = true := by
    decide +kernel
  simpa only [List.all_eq_true, decide_eq_true_eq] using h

theorem pending_uncut :
    ∀ st ∈ states, ∀ g ∈ stretches, ∀ rs ∈ pending st, ∀ r ∈ rs, Uncut r g.1 := by
  have h : (states.all fun st => stretches.all fun g =>
      (pending st).all fun rs => rs.all fun r => Uncut r g.1) = true := by
    decide +kernel
  simpa only [List.all_eq_true, Option.all_eq_true, Option.mem_def, decide_eq_true_eq] using h

/-- One step of the packed automaton reads one byte of the row in progress. -/
theorem step_pending {st : BitVec 64} (hst : st ∈ states) (b : UInt8) :
    step st b ∈ states ∧ pending (step st b) = utf8.advance (pending st) b := by
  obtain ⟨g,hg,hb,hr⟩ := row_stretch b
  have hlo : Within g.1 g.1.1 := ⟨le_rfl,hb.1.trans hb.2⟩
  have hcell := stretch_cells g hg st hst
  rw [step, hr, ← utf8.advance_congr (pending st) (pending_uncut st hst g hg)
    (ranges_uncut g hg) hlo hb]
  exact hcell

def dfaRun (st : BitVec 64) (s : List UInt8) : BitVec 64 := s.foldl step st

theorem dfaRun_append (st : BitVec 64) (s t : List UInt8) :
    dfaRun st (s++t) = dfaRun (dfaRun st s) t := List.foldl_append

theorem dfaRun_pending {st : BitVec 64} (hst : st ∈ states) (s : List UInt8) :
    dfaRun st s ∈ states ∧ pending (dfaRun st s) = utf8.consume (pending st) s := by
  induction s generalizing st with
  | nil => exact ⟨hst,rfl⟩
  | cons b s ih =>
    obtain ⟨hmem,hp⟩ := step_pending hst b
    obtain ⟨hmem',hp'⟩ := ih hmem
    exact ⟨hmem',hp'.trans (congrArg (fun q => utf8.consume q s) hp)⟩

theorem accept_mem : dfaAccept ∈ states := by decide

theorem reject_mem : dfaReject ∈ states := by decide

theorem pending_boundary {st : BitVec 64} (hst : st ∈ states) :
    pending st = some [] ↔ st = dfaAccept := by
  revert st
  have h : (states.all fun st => pending st = some [] ↔ st = dfaAccept) = true := by decide
  simpa only [List.all_eq_true, decide_eq_true_eq] using h

theorem pending_dead {st : BitVec 64} (hst : st ∈ states) :
    pending st = none ↔ st = dfaReject := by
  revert st
  have h : (states.all fun st => pending st = none ↔ st = dfaReject) = true := by decide
  simpa only [List.all_eq_true, decide_eq_true_eq] using h

/-- The fold accepts exactly the well-formed strings. -/
theorem dfaRun_accept (s : List UInt8) : dfaRun dfaAccept s = dfaAccept ↔ WellFormed s := by
  obtain ⟨hmem,hp⟩ := dfaRun_pending accept_mem s
  rw [← pending_boundary hmem, hp, wellFormed_messages]
  exact utf8.consume_messages s

/-- The fold rejects exactly what no continuation completes. -/
theorem dfaRun_reject (s : List UInt8) : dfaRun dfaAccept s = dfaReject ↔ Dead s := by
  obtain ⟨hmem,hp⟩ := dfaRun_pending accept_mem s
  rw [← pending_dead hmem, hp, dead_iff]
  exact Iff.rfl

theorem dfaRun_dead (s : List UInt8) : dfaRun dfaReject s = dfaReject := by
  obtain ⟨hmem,hp⟩ := dfaRun_pending reject_mem s
  rw [← pending_dead hmem, hp, (pending_dead reject_mem).mpr rfl]
  exact utf8.consume_dead s

theorem dfaRun_ascii {s : List UInt8} (h : ∀ b ∈ s, b < 0x80) :
    dfaRun dfaAccept s = dfaAccept := (dfaRun_accept s).mpr (wellFormed_ascii h)

theorem accept_ne_reject : dfaAccept ≠ dfaReject := by decide

end SmoothUtf8.ShiftDfa
