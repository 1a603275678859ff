import SmoothUtf8.Fields
import SmoothUtf8.Validity

/-!
# The crate's own checks

The fuzz targets and the helpers of the test suite, as the programs they are: they
build their buffers, call the crate and assert. In a build with right validators none
of their assertions fails, whatever they are given; they end early only where a
vector of that length cannot exist.
-/

set_option autoImplicit false

namespace SmoothUtf8.Harness
open Library.CheckedProgram Library.Slice
open LeafLoads Table37 AsciiSkip EntryPoints SlackBufApi Fields

/-- How a check ends early: in a call of the crate, at an assertion of its own, or
because a vector cannot grow. -/
inductive Ending where
  | stopped (s : Stop Fault)
  | failed
  | capacity
  deriving DecidableEq, Repr

abbrev Step (α : Type) := Except Ending α

def call {α : Type} (buf : Buf) (p : Exec α) : Step α :=
  match run (store buf) p with
  | .ok (a, _) => .ok a
  | .error s => .error (.stopped s)

def assert (c : Prop) [Decidable c] : Step Unit := if c then .ok () else .error .failed

def vec (w : ℕ) (bytes : Buf) : Step (Bytes w) :=
  if h : bytes.length < 2^(w-1) then .ok ⟨bytes,h⟩ else .error .capacity

def stdStr (X : Externs) (b : Buf) : Option Buf := if X.coreStr b then some b else none

def rangeUsize (w start stop : ℕ) : RangeUsize w := ⟨BitVec.ofNat w start,BitVec.ofNat w stop⟩

section Targets

variable (B : Build) (X : Externs)

def verifyVsStd (data : Bytes B.pointerWidth) : Step Unit := do
  let ours ← call data.bytes (verify B X data.bytes)
  let std := X.coreStr data.bytes
  assert (ours = std)

structure Case where
  body : Bytes B.pointerWidth
  start : BitVec 16
  len : BitVec 16
  slackFill : UInt8

/-- The fuzz target on an arbitrary range of an arbitrary body. The end saturates
before it is cut to the body. -/
def fuzzWithSlack (c : Case B) : Step Unit := do
  let bodyLen := c.body.bytes.length
  let start := min c.start.toNat bodyLen
  let stop := min (min (start+c.len.toNat) B.usizeMax) bodyLen
  let logical ← call c.body.bytes (index c.body.bytes start stop)
  let std := X.coreStr logical
  let safe ← call logical (verify B X logical)
  assert (safe = std)
  let buf ← vec B.pointerWidth (c.body.bytes++List.replicate SLACK c.slackFill)
  let slack ← call buf.bytes (verifyWithSlack B X buf.bytes start stop)
  assert (slack = std)

def check (b : Bytes B.pointerWidth) : Step Unit := do
  let wantStr := stdStr X b.bytes
  let want := wantStr.isSome
  let ours ← call b.bytes (verify B X b.bytes)
  assert (ours = want)
  let ourStr ← call b.bytes (fromUtf8 B X b.bytes)
  assert (ourStr = wantStr)
  let buf ← vec B.pointerWidth (b.bytes++List.replicate SLACK 0xA5)
  let range := rangeUsize B.pointerWidth 0 b.bytes.length
  let got ← call buf.bytes (verifyWithSlack B X buf.bytes range.start.toNat range.stop.toNat)
  assert (got = want)
  let sb ← call buf.bytes (unwrap (new buf))
  let ours ← call sb.bytes (sb.verify B X range)
  assert (ours = want)
  let ourStr ← call sb.bytes (sb.toStr B X range)
  assert (ourStr = wantStr)

def propRangeOffset (pre body : Buf) : Step Unit := do
  let want := X.coreStr body
  let start := pre.length
  let stop := (pre++body).length
  let buf ← vec B.pointerWidth (pre++body++List.replicate SLACK 0x5A)
  let got ← call buf.bytes (verifyWithSlack B X buf.bytes start stop)
  assert (got = want)
  let sb ← call buf.bytes (unwrap (new buf))
  let ours ← call sb.bytes (sb.verify B X (rangeUsize B.pointerWidth start stop))
  assert (ours = want)

def checkSkipContract (buf : Buf) (start stop : ℕ) : Step Unit := do
  let imp := B.skip.imp B.endian
  assert (start ≤ stop ∧ stop ≤ buf.length)
  let q ← call buf (imp.skip buf start stop)
  assert (start ≤ q ∧ q ≤ stop)
  assert ((slice buf start q).all (· < 0x80) = true)
  if imp.STEP ≤ stop-q then assert ((slice buf q (q+imp.STEP)).any (0x80 ≤ ·) = true) else .ok ()

end Targets

theorem call_ok {α : Type} {buf : Buf} {p : Exec α} {a : α} {t : Log}
    (h : run (store buf) p = .ok (a, t)) : call buf p = .ok a := by
  rw [call, h]

theorem assert_pos {c : Prop} [Decidable c] (h : c) : assert c = .ok () := if_pos h

@[simp] theorem ok_bind {α γ : Type} (a : α) (f : α → Step γ) :
    ((.ok a : Step α) >>= f) = f a := rfl

variable {B : Build} {X : Externs}

theorem verdict_std (hX : X.Sound) {b : Buf} {v : Bool} (hv : v = true ↔ WellFormed b) :
    v = X.coreStr b := Bool.eq_iff_iff.mpr (hv.trans (hX.2 b).symm)

theorem verify_std (hX : X.Sound) (b : Buf) : call b (verify B X b) = .ok (X.coreStr b) := by
  obtain ⟨v,t,hr,hv⟩ := verify_valid (B.sound_of hX) b
  rw [call_ok hr, verdict_std hX hv]

theorem fromUtf8_std (hX : X.Sound) (b : Buf) : call b (fromUtf8 B X b) = .ok (stdStr X b) := by
  obtain ⟨v,t,hr,hv⟩ := verify_valid (B.sound_of hX) b
  have hfrom := Encoding.fromUtf8_run hr
  rw [stdStr, ← verdict_std hX hv]
  cases v with
  | true => exact call_ok hfrom
  | false => exact call_ok hfrom

theorem verifyWithSlack_std (hX : X.Sound) {buf : Buf} {start stop : ℕ} (hs : start ≤ stop)
    (hlen : stop+SLACK ≤ buf.length) : call buf (verifyWithSlack B X buf start stop) =
      .ok (X.coreStr (slice buf start stop)) := by
  obtain ⟨v,t,hr,hv⟩ := verifyWithSlack_valid (B.sound_of hX) hs hlen
  rw [call_ok hr, verdict_std hX hv]

theorem verifyVsStd_passes (hX : X.Sound) (data : Bytes B.pointerWidth) :
    verifyVsStd B X data = .ok () := by
  rw [verifyVsStd, verify_std hX]
  exact assert_pos rfl

theorem slice_padded (b : Buf) (n : ℕ) (fill : UInt8) {start stop : ℕ} (hlen : stop ≤ b.length) :
    slice (b++List.replicate n fill) start stop = slice b start stop := by
  by_cases hs : start ≤ stop
  · rw [slice, slice, List.drop_append_of_le_length (by omega), List.take_append_of_le_length]
    simp
    omega
  · simp [slice, show stop-start = 0 by omega]

theorem length_padded (b : Buf) (n : ℕ) (fill : UInt8) :
    (b++List.replicate n fill).length = b.length+n := by simp

theorem slackVerify_std (hX : X.Sound) {sb : SlackBuf B.pointerWidth}
    {r : RangeUsize B.pointerWidth} (h : Inside sb r) : call sb.bytes (sb.verify B X r) =
      .ok (X.coreStr (slice sb.bytes r.start.toNat r.stop.toNat)) := by
  obtain ⟨v,t,hr,hv⟩ := verify_returns (B.sound_of hX) h
  rw [call_ok hr, verdict_std hX hv]

theorem slackToStr_std (hX : X.Sound) {sb : SlackBuf B.pointerWidth}
    {r : RangeUsize B.pointerWidth} (h : Inside sb r) : call sb.bytes (sb.toStr B X r) =
      .ok (stdStr X (slice sb.bytes r.start.toNat r.stop.toNat)) := by
  obtain ⟨v,t,hr,hv⟩ := verify_returns (B.sound_of hX) h
  obtain ⟨u,hu⟩ := toStr_returns h hr
  rw [call_ok hu, stdStr, ← verdict_std hX hv]

theorem vec_bind {w : ℕ} {bytes : Buf} {f : Bytes w → Step Unit}
    (h : ∀ hfits : bytes.length < 2^(w-1), f ⟨bytes,hfits⟩ = .ok ()) :
    (vec w bytes >>= f) = (vec w bytes).map (fun _ => ()) := by
  rw [vec]
  by_cases hfits : bytes.length < 2^(w-1)
  · rw [dif_pos hfits]
    exact h hfits
  · rw [dif_neg hfits]
    rfl

theorem length_usize (b : Bytes B.pointerWidth) : b.bytes.length ≤ B.usizeMax := by
  have hpow : 2^(B.pointerWidth-1) ≤ 2^B.pointerWidth :=
    Nat.pow_le_pow_right (by decide) (Nat.sub_le _ 1)
  have hfits := b.fits
  rw [Build.usizeMax]
  omega

theorem fuzzWithSlack_passes (hX : X.Sound) (c : Case B) : fuzzWithSlack B X c =
    (vec B.pointerWidth (c.body.bytes++List.replicate SLACK c.slackFill)).map (fun _ => ()) := by
  have hmax := length_usize c.body
  rw [fuzzWithSlack]
  generalize hstart : min c.start.toNat c.body.bytes.length = start
  generalize hstop : min (min (start+c.len.toNat) B.usizeMax) c.body.bytes.length = stop
  have hs : start ≤ stop := by omega
  have hlen : stop ≤ c.body.bytes.length := by omega
  have hindex : call c.body.bytes (index c.body.bytes start stop) =
      .ok (slice c.body.bytes start stop) := by
    rw [index_pos hs hlen]
    rfl
  simp only [hindex, ok_bind, verify_std hX, assert_pos]
  apply vec_bind
  intro hfits
  have hlength := length_padded c.body.bytes SLACK c.slackFill
  have hpadded : stop+SLACK ≤ (c.body.bytes++List.replicate SLACK c.slackFill).length := by omega
  simp only [verifyWithSlack_std hX hs hpadded, slice_padded _ _ _ hlen, ok_bind, assert_pos]

theorem rangeUsize_toNat {w start stop : ℕ} (hs : start ≤ stop) (h : stop < 2^(w-1)) :
    (rangeUsize w start stop).start.toNat = start ∧
      (rangeUsize w start stop).stop.toNat = stop := by
  have hpow : 2^(w-1) ≤ 2^w := Nat.pow_le_pow_right (by decide) (Nat.sub_le w 1)
  rw [rangeUsize, BitVec.toNat_ofNat, BitVec.toNat_ofNat, Nat.mod_eq_of_lt (by omega),
    Nat.mod_eq_of_lt (by omega)]
  exact ⟨rfl,rfl⟩

theorem check_passes (hX : X.Sound) (b : Bytes B.pointerWidth) : check B X b =
    (vec B.pointerWidth (b.bytes++List.replicate SLACK 0xA5)).map (fun _ => ()) := by
  have hwant : (stdStr X b.bytes).isSome = X.coreStr b.bytes := by
    rw [stdStr]
    cases X.coreStr b.bytes with
    | true => rfl
    | false => rfl
  have hrange := rangeUsize_toNat (Nat.zero_le b.bytes.length) b.fits
  rw [check]
  simp only [verify_std hX, fromUtf8_std hX, hwant, ok_bind, assert_pos]
  apply vec_bind
  intro hfits
  have hlength := length_padded b.bytes SLACK 0xA5
  have hslack : SLACK ≤ (b.bytes++List.replicate SLACK 0xA5).length := by omega
  have hbytes : slice (b.bytes++List.replicate SLACK 0xA5) 0 b.bytes.length = b.bytes := by
    rw [slice_padded _ _ _ le_rfl, slice_all]
  have hinside : Inside (⟨⟨_,hfits⟩,hslack⟩ : SlackBuf B.pointerWidth)
      (rangeUsize B.pointerWidth 0 b.bytes.length) := by
    rw [Inside, hrange.1, hrange.2]
    exact ⟨Nat.zero_le _,hlength.ge⟩
  have hnew : call (b.bytes++List.replicate SLACK 0xA5) (unwrap (new ⟨_,hfits⟩)) =
      .ok (⟨⟨_,hfits⟩,hslack⟩ : SlackBuf B.pointerWidth) := by
    rw [new_some hslack]
    rfl
  have hverify := slackVerify_std hX hinside
  have hstr := slackToStr_std hX hinside
  rw [hrange.1, hrange.2, hbytes] at hverify hstr
  simp only [hrange, verifyWithSlack_std hX (Nat.zero_le _) hlength.ge, hbytes, hnew, hverify, hstr,
    ok_bind, assert_pos]

theorem propRangeOffset_passes (hX : X.Sound) (pre body : Buf) : propRangeOffset B X pre body =
    (vec B.pointerWidth (pre++body++List.replicate SLACK 0x5A)).map (fun _ => ()) := by
  apply vec_bind
  intro hfits
  have hlength := length_padded (pre++body) SLACK 0x5A
  have hs : pre.length ≤ (pre++body).length := by simp
  have hslack : SLACK ≤ (pre++body++List.replicate SLACK 0x5A).length := by omega
  have hrange := rangeUsize_toNat hs (show (pre++body).length < 2^(B.pointerWidth-1) by omega)
  have hbytes :
      slice (pre++body++List.replicate SLACK 0x5A) pre.length (pre++body).length = body := by
    rw [List.length_append]
    exact Validity.slice_embedded pre body _
  have hinside : Inside (⟨⟨_,hfits⟩,hslack⟩ : SlackBuf B.pointerWidth)
      (rangeUsize B.pointerWidth pre.length (pre++body).length) := by
    rw [Inside, hrange.1, hrange.2]
    exact ⟨hs,hlength.ge⟩
  have hnew : call (pre++body++List.replicate SLACK 0x5A) (unwrap (new ⟨_,hfits⟩)) =
      .ok (⟨⟨_,hfits⟩,hslack⟩ : SlackBuf B.pointerWidth) := by
    rw [new_some hslack]
    rfl
  have hverify := slackVerify_std hX hinside
  rw [hrange.1, hrange.2, hbytes] at hverify
  simp only [verifyWithSlack_std hX hs hlength.ge, hbytes, hnew, hverify, ok_bind, assert_pos]

theorem checkSkipContract_passes {buf : Buf} {start stop : ℕ} (hs : start ≤ stop)
    (hlen : stop ≤ buf.length) : checkSkipContract B buf start stop = .ok () := by
  obtain ⟨q,t,hq,hstops⟩ := variant_contract B.endian B.skip buf start stop hs hlen
  have hascii : (slice buf start q).all (· < 0x80) = true :=
    List.all_eq_true.mpr (fun b hb => decide_eq_true (hq.ascii b hb))
  rw [checkSkipContract]
  simp only [assert_pos (And.intro hs hlen), call_ok (reaches_done.mp hq.reaches),
    assert_pos (And.intro hq.lo hq.hi), assert_pos hascii, ok_bind]
  split_ifs with hblock
  · have hnot := hstops.resolve_left (not_lt.mpr hblock)
    apply assert_pos
    by_contra hnone
    apply hnot
    intro b hb
    by_contra hbad
    exact hnone (List.any_eq_true.mpr ⟨b,hb,decide_eq_true (not_lt.mp hbad)⟩)
  · rfl

/-- None of the crate's own assertions fails, in any build and on anything the
checks may be given. A check that pads its input ends as the growth of the vector
does, which ends in no other way than for want of capacity. -/
theorem checks_pass (B : Build) (X : Externs) (hX : X.Sound) :
    (∀ data : Bytes B.pointerWidth, verifyVsStd B X data = .ok ()) ∧
    (∀ c : Case B, fuzzWithSlack B X c = (vec B.pointerWidth
      (c.body.bytes++List.replicate SLACK c.slackFill)).map (fun _ => ())) ∧
    (∀ b : Bytes B.pointerWidth, check B X b = (vec B.pointerWidth
      (b.bytes++List.replicate SLACK 0xA5)).map (fun _ => ())) ∧
    (∀ pre body : Buf, propRangeOffset B X pre body = (vec B.pointerWidth
      (pre++body++List.replicate SLACK 0x5A)).map (fun _ => ())) ∧
    ∀ (buf : Buf) (start stop : ℕ), start ≤ stop → stop ≤ buf.length →
      checkSkipContract B buf start stop = .ok () :=
  ⟨verifyVsStd_passes hX,fuzzWithSlack_passes hX,check_passes hX,propRangeOffset_passes hX,
    fun _ _ _ hs hlen => checkSkipContract_passes hs hlen⟩

/-- A range whose end saturates, over a body that is not UTF-8 as a whole. -/
theorem checks_pass_saturated :
    fuzzWithSlack (portable .little) ⟨isValidUtf8,isValidUtf8⟩
      ⟨⟨[0xFF,0xC3,0xA9],by decide⟩,1,0xFFFF,0x80⟩ = .ok () := by
  have h := checks_pass (portable .little) ⟨isValidUtf8,isValidUtf8⟩
    ⟨isValidUtf8_iff,isValidUtf8_iff⟩
  rw [h.2.1 ⟨⟨[0xFF,0xC3,0xA9],by decide⟩,1,0xFFFF,0x80⟩]
  rfl

end SmoothUtf8.Harness
