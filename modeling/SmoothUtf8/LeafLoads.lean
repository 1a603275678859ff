import SmoothUtf8.Library.ByteWord
import SmoothUtf8.Library.CheckedProgram
import SmoothUtf8.Library.Slice

/-!
# Leaf loads and checked index arithmetic

The crate is embedded as checked programs over the bytes of one slice. A
debug assertion, a panic, a subtraction below zero, a sum beyond the slice's
length, a mask shift outside `8..=56`, an unchecked sub-slice that is not inside
the slice and a loop that does not end are faults of the embedding; a load
outside the slice is an unmapped read. A slice's length
is a `usize`, so a sum that stays within it does not wrap.
-/

set_option autoImplicit false

namespace SmoothUtf8.LeafLoads
open Library.CheckedProgram Library.ByteWord Library.Slice

inductive Fault where
  | assertion
  | panic
  | underflow
  | pastLen
  | maskShift
  | outside
  | endless
  deriving DecidableEq, Repr

/-- What a run leaves in its log besides the bytes it read: a call of
`verify_multibyte` with its arguments, the return of that call, and the bytes
handed to `from_utf8_unchecked`. -/
inductive Mark where
  | enter (start stop : ℕ)
  | leave (ret : Bool)
  | unchecked (s : List UInt8)
  deriving DecidableEq, Repr

abbrev Exec (α : Type) := Prog UInt8 Mark Fault α

abbrev Log := List (Event Mark)

abbrev Buf := List UInt8

def da (c : Prop) [Decidable c] : Exec Unit := Prog.check c .assertion

def usizeSub (a b : ℕ) : Exec ℕ := do
  Prog.check (b ≤ a) .underflow
  pure (a-b)

def usizeAdd (buf : Buf) (a b : ℕ) : Exec ℕ := do
  Prog.check (a+b ≤ buf.length) .pastLen
  pure (a+b)

theorem da_pos {c : Prop} [Decidable c] (h : c) : da c = .done () := Prog.check_pos h

theorem usizeSub_pos {a b : ℕ} (h : b ≤ a) : usizeSub a b = .done (a-b) := by
  simp [usizeSub, Prog.check_pos h]

theorem usizeAdd_pos {buf : Buf} {a b : ℕ} (h : a+b ≤ buf.length) :
    usizeAdd buf a b = .done (a+b) := by
  simp [usizeAdd, Prog.check_pos h]

inductive Endian where
  | little
  | big
  deriving DecidableEq, Repr

def readUnaligned (e : Endian) (n i : ℕ) : Exec (BitVec (8*n)) := do
  let bs ← Prog.cells i n
  match e with
  | .little => pure (leWord n bs)
  | .big => pure (beWord n bs)

def fromLe {n : ℕ} (e : Endian) (raw : BitVec (8*n)) : BitVec (8*n) :=
  match e with
  | .little => raw
  | .big => swapBytes raw

def loadRaw (n : ℕ) (e : Endian) (i : ℕ) : Exec (BitVec (8*n)) := do
  let raw ← readUnaligned e n i
  pure (fromLe e raw)

def load64Raw (e : Endian) (i : ℕ) : Exec (BitVec 64) := loadRaw 8 e i

def load32Raw (e : Endian) (i : ℕ) : Exec (BitVec 32) := loadRaw 4 e i

def load16Raw (e : Endian) (i : ℕ) : Exec (BitVec 16) := loadRaw 2 e i

/-- One byte has no order: the source makes no `from_le` call here. -/
def load8Raw (i : ℕ) : Exec UInt8 := Prog.cell i

def load64 (e : Endian) (buf : Buf) (i : ℕ) : Exec (BitVec 64) := do
  da (i+8 ≤ buf.length)
  load64Raw e i

def load32 (e : Endian) (buf : Buf) (i : ℕ) : Exec (BitVec 32) := do
  da (i+4 ≤ buf.length)
  load32Raw e i

def load16 (e : Endian) (buf : Buf) (i : ℕ) : Exec (BitVec 16) := do
  da (i+2 ≤ buf.length)
  load16Raw e i

def load8 (buf : Buf) (i : ℕ) : Exec UInt8 := do
  da (i < buf.length)
  load8Raw i

def pack (n : ℕ) (buf : Buf) (i : ℕ) : BitVec (8*n) := leWord n (slice buf i (i+n))

def touched (i n : ℕ) : Log := (List.range' i n).map .read

theorem reaches_stretch {buf : Buf} {i n : ℕ} (h : i+n ≤ buf.length) :
    Reaches (store buf) (Prog.cells i n : Exec Buf) (touched i n) (.done (slice buf i (i+n))) :=
  take_drop_slice buf i n ▸ reaches_cells buf i n h

/-- On either host a load in bounds reads its `n` bytes and packs them
little-endian. -/
theorem reaches_loadRaw (n : ℕ) (e : Endian) {buf : Buf} {i : ℕ} (h : i+n ≤ buf.length) :
    Reaches (store buf) (loadRaw n e i) (touched i n) (.done (pack n buf i)) := by
  have hc := reaches_stretch h
  unfold loadRaw readUnaligned
  rw [Prog.bind_assoc]
  cases e with
  | little => exact hc.then _
  | big =>
    rw [pack, ← swapBytes_beWord n _ (length_slice_add buf h)]
    exact hc.then _

theorem reaches_load64 (e : Endian) {buf : Buf} {i : ℕ} (h : i+8 ≤ buf.length) :
    Reaches (store buf) (load64 e buf i) (touched i 8) (.done (pack 8 buf i)) := by
  rw [load64, da_pos h]
  exact reaches_loadRaw 8 e h

theorem reaches_load32 (e : Endian) {buf : Buf} {i : ℕ} (h : i+4 ≤ buf.length) :
    Reaches (store buf) (load32 e buf i) (touched i 4) (.done (pack 4 buf i)) := by
  rw [load32, da_pos h]
  exact reaches_loadRaw 4 e h

theorem reaches_load16 (e : Endian) {buf : Buf} {i : ℕ} (h : i+2 ≤ buf.length) :
    Reaches (store buf) (load16 e buf i) (touched i 2) (.done (pack 2 buf i)) := by
  rw [load16, da_pos h]
  exact reaches_loadRaw 2 e h

theorem reaches_load8 {buf : Buf} {i : ℕ} (h : i < buf.length) :
    Reaches (store buf) (load8 buf i) (touched i 1) (.done buf[i]) := by
  rw [load8, da_pos h]
  exact reaches_cell (List.getElem?_eq_getElem h)

def Quiet (lo hi : ℕ) (t : Log) : Prop := (∀ i ∈ reads t, lo ≤ i ∧ i < hi) ∧ marks t = []

theorem quiet_nil (lo hi : ℕ) : Quiet lo hi [] := ⟨by simp,rfl⟩

theorem quiet_touched {lo hi i n : ℕ} (hlo : lo ≤ i) (hhi : i+n ≤ hi) :
    Quiet lo hi (touched i n) := by
  refine ⟨?_,marks_map_read _⟩
  intro j hj
  rw [touched, reads_map_read, List.mem_range'_1] at hj
  omega

theorem Quiet.append {lo hi : ℕ} {t u : Log} (ht : Quiet lo hi t) (hu : Quiet lo hi u) :
    Quiet lo hi (t++u) := by
  refine ⟨?_,by simp [ht.2, hu.2]⟩
  intro i hi
  rw [reads_append, List.mem_append] at hi
  exact hi.elim (ht.1 i) (hu.1 i)

theorem Quiet.mono {lo hi lo' hi' : ℕ} {t : Log} (ht : Quiet lo hi t) (hlo : lo' ≤ lo)
    (hhi : hi ≤ hi') : Quiet lo' hi' t :=
  ⟨fun i hi => ⟨hlo.trans (ht.1 i hi).1,(ht.1 i hi).2.trans_le hhi⟩,ht.2⟩

end SmoothUtf8.LeafLoads
