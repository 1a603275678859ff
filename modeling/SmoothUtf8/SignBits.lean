import SmoothUtf8.LeafLoads
import SmoothUtf8.ShiftDfa

/-!
# Sign-bit tests on loaded words

Every fast path of the source tests loaded words against a mask of sign bits.
Each test is exact on the bytes its mask covers, and a stretch of bytes found
below `80` in this way can be cut off the front of the range under validation.
-/

set_option autoImplicit false

namespace SmoothUtf8.SignBits
open Library.ByteWord Library.Slice LeafLoads Table37 ShiftDfa

def signBits : BitVec 64 := 0x8080808080808080

theorem signBits_mask : IsSignMask 8 8 signBits := by decide

theorem signBits32_mask : IsSignMask 4 4 0x80808080#32 := by decide

theorem signBits16_mask : IsSignMask 2 2 0x8080#16 := by decide

def Ascii (buf : Buf) (s e : ℕ) : Prop := AllOn (· < 0x80) buf s e

theorem ascii_one {buf : Buf} {i : ℕ} (h : i < buf.length) :
    Ascii buf i (i+1) ↔ buf[i] < 0x80 := allOn_one h

/-- A masked load is zero exactly when the bytes under the mask are below `80`. -/
theorem pack_and_mask {n k : ℕ} {m : BitVec (8*n)} (hm : IsSignMask n k m) (hk : k ≤ n)
    {buf : Buf} {i : ℕ} (h : i+n ≤ buf.length) :
    pack n buf i &&& m = 0#(8*n) ↔ Ascii buf i (i+k) := by
  rw [pack, leWord_and_signMask hm hk (length_slice_add buf h), slice_take buf i n k hk]
  exact Iff.rfl

theorem toBytes_pack {n : ℕ} {buf : Buf} {i : ℕ} (h : i+n ≤ buf.length) :
    toBytes (pack n buf i) = slice buf i (i+n) := toBytes_leWord n _ (length_slice_add buf h)

theorem ascii_wellFormed {buf : Buf} {s e : ℕ} (h : Ascii buf s e) :
    WellFormed (slice buf s e) := wellFormed_ascii h

/-- Cutting off an ASCII front changes neither validity nor hopelessness. -/
theorem ascii_cut {buf : Buf} {s p e : ℕ} (hs : s ≤ p) (hp : p ≤ e) (h : Ascii buf s p) :
    (WellFormed (slice buf s e) ↔ WellFormed (slice buf p e)) ∧
      (Dead (slice buf s e) ↔ Dead (slice buf p e)) := by
  rw [← slice_append buf hs hp]
  exact ⟨wellFormed_ascii_append h,dead_ascii_append h⟩

end SmoothUtf8.SignBits
