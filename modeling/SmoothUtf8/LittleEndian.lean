import SmoothUtf8.SlackBufApi

/-!
# What the leaf loads decode

Whatever the byte order of the host, a load in bounds yields the little-endian
sum of the bytes it covers. The bytes come back out by shifting, and a shifted
sign mask tests as many of the first bytes as it keeps.
-/

set_option autoImplicit false

namespace SmoothUtf8.LittleEndian
open Library.CheckedProgram Library.ByteWord Library.Slice
open LeafLoads SignBits EntryPoints SlackBufApi

def littleEndian (buf : Buf) (i n : ℕ) : ℕ :=
  ∑ j ∈ Finset.range n, (buf.getD (i+j) 0).toNat*256^j

theorem getD_slice (buf : Buf) {i n j : ℕ} (hj : j < n) :
    (slice buf i (i+n)).getD j 0 = buf.getD (i+j) 0 := by
  rw [List.getD_eq_getElem?_getD, List.getD_eq_getElem?_getD, getElem?_slice buf j (by omega)]

theorem toNat_pack {n : ℕ} {buf : Buf} {i : ℕ} (h : i+n ≤ buf.length) :
    (pack n buf i).toNat = littleEndian buf i n := by
  have hl := length_slice_add buf h
  rw [pack, toNat_leWord n _ hl, leNat_sum, hl, littleEndian]
  apply Finset.sum_congr rfl
  intro j hj
  rw [getD_slice buf (Finset.mem_range.mp hj)]

theorem byteAt_pack {n k : ℕ} {buf : Buf} {i : ℕ} (h : i+n ≤ buf.length) (hk : k < n) :
    buf[i+k]? = some (byteAt (pack n buf i) k) := by
  have hlt : i+k < buf.length := by omega
  rw [pack, byteAt_leWord n _ k hk, getD_slice buf hk, List.getD_eq_getElem?_getD,
    List.getElem?_eq_getElem hlt, Option.getD_some]

/-- A load that packs in bounds has the little-endian sum as its value. -/
theorem load_value {n : ℕ} {buf : Buf} {i : ℕ} {prog : Exec (BitVec (8*n))} {t : Log}
    (h : i+n ≤ buf.length) (hload : Reaches (store buf) prog t (.done (pack n buf i))) :
    ∃ x u, run (store buf) prog = .ok (x, u) ∧ x.toNat = littleEndian buf i n :=
  ⟨pack n buf i,t,reaches_done.mp hload,toNat_pack h⟩

/-- Every leaf load decodes little-endian on either host. The bytes of a wide
load are extracted in order, its sign tests are exact for every mask the source
makes, and `le_u32` decodes like `load32`. -/
theorem leafLoads_littleEndian (e : Endian) :
    (∀ (buf : Buf) (i : ℕ), i+8 ≤ buf.length →
      ∃ x t, run (store buf) (load64 e buf i) = .ok (x, t) ∧ x.toNat = littleEndian buf i 8 ∧
        (∀ k < 8, buf[i+k]? = some (UInt8.ofBitVec ((x >>> (8*k)).setWidth 8))) ∧
        ∀ n, 1 ≤ n → n ≤ 8 →
          (x &&& (signBits >>> ((8-n)*8)) = 0 ↔ ∀ b ∈ slice buf i (i+n), b < 0x80)) ∧
    (∀ (buf : Buf) (i : ℕ), i+4 ≤ buf.length →
      ∃ x t, run (store buf) (load32 e buf i) = .ok (x, t) ∧ x.toNat = littleEndian buf i 4) ∧
    (∀ (buf : Buf) (i : ℕ), i+2 ≤ buf.length →
      ∃ x t, run (store buf) (load16 e buf i) = .ok (x, t) ∧ x.toNat = littleEndian buf i 2) ∧
    (∀ (buf : Buf) (i : ℕ), i+1 ≤ buf.length →
      ∃ x t, run (store buf) (load8 buf i) = .ok (x, t) ∧ x.toNat = littleEndian buf i 1) ∧
    ∀ (w : ℕ) (sb : SlackBuf w) (i : BitVec w), i ≤ sb.payloadLen →
      ∃ x t, run (store sb.bytes) (sb.leU32 e i) = .ok (x, t) ∧
        x.toNat = littleEndian sb.bytes i.toNat 4 := by
  refine ⟨fun buf i h => ?_,fun buf i h => load_value h (reaches_load32 e h),
    fun buf i h => load_value h (reaches_load16 e h),fun buf i h => ?_,fun w sb i h => ?_⟩
  · refine ⟨pack 8 buf i,_,reaches_done.mp (reaches_load64 e h),toNat_pack h,?_,?_⟩
    · exact fun k hk => byteAt_pack h hk
    · exact fun n _ hn => pack_and_mask (isSignMask_shift signBits_mask hn) hn h
  · refine ⟨_,_,reaches_done.mp (reaches_load8 h),?_⟩
    rw [littleEndian, Finset.sum_range_one, List.getD_eq_getElem?_getD, Nat.add_zero,
      List.getElem?_eq_getElem h, Option.getD_some, pow_zero, Nat.mul_one]
  · have hin := (at_iff sb i).mp h
    have h4 := SLACK_ge
    exact ⟨_,_,leU32_returns e hin,toNat_pack (by omega)⟩

theorem leafLoads_littleEndian_big :
    (∃ x t, run (store [0x01,0x02,0x03,0x04,0x05,0x06,0x07,0x08,0x09])
        (load64 .big [0x01,0x02,0x03,0x04,0x05,0x06,0x07,0x08,0x09] 1) = .ok (x, t) ∧
      x.toNat = 0x0908070605040302) ∧
    ∃ x t, run (store [0x01,0x02,0x03,0x04,0x05,0x06,0x07,0x08,0x09])
        (load16 .big [0x01,0x02,0x03,0x04,0x05,0x06,0x07,0x08,0x09] 7) = .ok (x, t) ∧
      x.toNat = 0x0908 := by
  have h := leafLoads_littleEndian .big
  constructor
  · obtain ⟨x,t,hr,hx,-⟩ := h.1 [0x01,0x02,0x03,0x04,0x05,0x06,0x07,0x08,0x09] 1 (by decide)
    exact ⟨x,t,hr,hx.trans (by decide)⟩
  · obtain ⟨x,t,hr,hx⟩ := h.2.2.1 [0x01,0x02,0x03,0x04,0x05,0x06,0x07,0x08,0x09] 7 (by decide)
    exact ⟨x,t,hr,hx.trans (by decide)⟩

end SmoothUtf8.LittleEndian
