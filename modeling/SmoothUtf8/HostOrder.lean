import SmoothUtf8.Sessions

/-!
# The byte order of the host

Every wide load of the crate is followed by `from_le`, which undoes the order in
which the host has put the bytes together. So no byte order is left in any
program: on a host of either order the entry points and the methods of the safe
wrapper are the same program, with the same loads, results and panics on every
memory.
-/

set_option autoImplicit false

namespace SmoothUtf8.HostOrder
open Library.CheckedProgram Library.ByteWord
open LeafLoads Multibyte AsciiSkip VerifyImpl EntryPoints SlackBufApi Sessions

theorem loadRaw_order (n i : ℕ) (e e' : Endian) : loadRaw n e i = loadRaw n e' i := by
  have hlittle : ∀ e : Endian, loadRaw n e i = loadRaw n .little i := by
    intro e
    cases e with
    | little => rfl
    | big =>
      rw [loadRaw, loadRaw, readUnaligned, readUnaligned, Prog.bind_assoc, Prog.bind_assoc]
      apply Prog.cells_bind_congr
      intro bs hbs
      exact congrArg Prog.done (swapBytes_beWord n bs hbs)
  rw [hlittle e, hlittle e']

theorem load64_order (e e' : Endian) : load64 e = load64 e' := by
  funext buf i
  exact congrArg (fun p => da (i+8 ≤ buf.length) >>= fun _ => p) (loadRaw_order 8 i e e')

theorem load32_order (e e' : Endian) : load32 e = load32 e' := by
  funext buf i
  exact congrArg (fun p => da (i+4 ≤ buf.length) >>= fun _ => p) (loadRaw_order 4 i e e')

theorem load16_order (e e' : Endian) : load16 e = load16 e' := by
  funext buf i
  exact congrArg (fun p => da (i+2 ≤ buf.length) >>= fun _ => p) (loadRaw_order 2 i e e')

theorem verifyMultibyte_order (e e' : Endian) : verifyMultibyte e = verifyMultibyte e' := by
  have hchunk : chunk e = chunk e' := by
    funext buf stop s
    rw [chunk, chunk, load64_order e e']
  funext buf start stop
  rw [verifyMultibyte, verifyMultibyte, hchunk]

theorem variant_order (e e' : Endian) (s : Variant) : s.imp e = s.imp e' := by
  cases s with
  | swar =>
    have hprobe : Swar.probe e = Swar.probe e' := by
      funext buf p
      rw [Swar.probe, Swar.probe, load64_order e e']
    have hskip : Swar.skip e = Swar.skip e' := by
      funext buf start stop
      rw [Swar.skip, Swar.skip, hprobe]
    exact congrArg (Imp.mk Swar.STEP) hskip
  | avx2 => rfl
  | neon => rfl

/-- `verify_impl` uses the byte order of its parts in its loads only. -/
theorem verifyImpl_order (P : Parts) (e : Endian) :
    verifyImpl {P with endian := e} = verifyImpl P := by
  have hshort : verifyShort {P with endian := e} = verifyShort P := by
    funext PAD buf start stop
    rw [verifyShort, verifyShort, load64_order e P.endian, load32_order e P.endian,
      load16_order e P.endian]
    rfl
  have hword : wordPass {P with endian := e} = wordPass P := by
    funext buf stop p
    rw [wordPass, wordPass, load64_order e P.endian]
  have hwindow : lastWindow {P with endian := e} = lastWindow P := by
    funext buf stop r
    cases r with
    | inl p => rfl
    | inr p =>
      rw [lastWindow, lastWindow, load64_order e P.endian]
      rfl
  funext PAD buf start stop
  rw [verifyImpl, verifyImpl, hshort, hword, hwindow]
  rfl

def Build.on (B : Build) (e : Endian) : Build := {B with endian := e}

theorem multibyte_order (B : Build) (X : Externs) (e : Endian) :
    (Build.on B e).verifyMultibyte X = B.verifyMultibyte X := by
  obtain ⟨endian,w,skip,slowPath,simdutf8,aarch64⟩ := B
  cases slowPath with
  | shiftDfa => exact verifyMultibyte_order e endian
  | coreStr => rfl

theorem parts_order (B : Build) (X : Externs) (e : Endian) :
    (Build.on B e).parts X = {B.parts X with endian := e} := by
  rw [Build.parts, Build.parts, multibyte_order B X e]
  have himp := variant_order e B.endian B.skip
  exact congrArg (fun I => Parts.mk e B.usizeMax I (B.verifyMultibyte X)) himp

theorem verify_order (B : Build) (X : Externs) (e : Endian) :
    EntryPoints.verify (Build.on B e) X = EntryPoints.verify B X := by
  funext b
  rw [EntryPoints.verify, EntryPoints.verify, parts_order, verifyImpl_order]
  rfl

theorem verifyWithSlack_order (B : Build) (X : Externs) (e : Endian) :
    verifyWithSlack (Build.on B e) X = verifyWithSlack B X := by
  funext buf start stop
  rw [verifyWithSlack, verifyWithSlack, parts_order, verifyImpl_order]
  rfl

theorem fromUtf8_order (B : Build) (X : Externs) (e : Endian) :
    fromUtf8 (Build.on B e) X = fromUtf8 B X := by
  funext b
  rw [fromUtf8, fromUtf8, verify_order]

theorem asserted_congr {α : Type} (c : Prop) [Decidable c] {p q : Exec α} (h : p = q) :
    ((Prog.check c .panic : Exec Unit) >>= fun _ => p) = (Prog.check c .panic >>= fun _ => q) := by
  rw [h]

theorem method_order (B : Build) (X : Externs) (e : Endian) (sb : SlackBuf B.pointerWidth)
    (r : RangeUsize B.pointerWidth) :
    SlackBuf.verify (Build.on B e) X sb r = SlackBuf.verify B X sb r := by
  apply asserted_congr
  rw [verifyWithSlack_order]
  rfl

theorem toStr_order (B : Build) (X : Externs) (e : Endian) (sb : SlackBuf B.pointerWidth)
    (r : RangeUsize B.pointerWidth) :
    SlackBuf.toStr (Build.on B e) X sb r = SlackBuf.toStr B X sb r :=
  congrArg (fun p : Exec Bool => p >>= _) (method_order B X e sb r)

theorem leU32_order {w : ℕ} (e e' : Endian) (sb : SlackBuf w) (i : BitVec w) :
    sb.leU32 e i = sb.leU32 e' i :=
  asserted_congr (i ≤ sb.payloadLen) (loadRaw_order 4 i.toNat e e')

theorem serve_order (B : Build) (X : Externs) (e : Endian) (sbs : List (SlackBuf B.pointerWidth))
    (r : Request B.pointerWidth) : serve (Build.on B e) X sbs r = serve B X sbs r := by
  cases r with
  | verify b =>
    exact congrArg (fun f => (sbs, answer .verdict (run (store b.bytes) (f b.bytes))))
      (verify_order B X e)
  | fromUtf8 b =>
    exact congrArg (fun f => (sbs, answer .str (run (store b.bytes) (f b.bytes))))
      (fromUtf8_order B X e)
  | toStr b =>
    exact congrArg (fun f => (sbs, answer .str (run (store b.bytes) (f b.bytes))))
      (fromUtf8_order B X e)
  | verifyWithSlack buf r =>
    exact congrArg (fun f => (sbs, answer .verdict (run (store buf.bytes)
      (f buf.bytes r.start.toNat r.stop.toNat)))) (verifyWithSlack_order B X e)
  | newUnchecked buf => rfl
  | new buf => rfl
  | newEmbeddedSlack buf => rfl
  | newAddSlack v => rfl
  | asBytes k => rfl
  | payloadLen k => rfl
  | slackVerify k r =>
    have hverify := funext (fun sb => method_order B X e sb r)
    exact congrArg (fun f => (sbs, ask SlackBuf.asBytes sbs k .verdict f)) hverify
  | slackToStr k r =>
    have htoStr := funext (fun sb => toStr_order B X e sb r)
    exact congrArg (fun f => (sbs, ask SlackBuf.asBytes sbs k .str f)) htoStr
  | leU32 k i =>
    have hleU32 := funext (fun sb : SlackBuf B.pointerWidth => leU32_order e B.endian sb i)
    exact congrArg (fun f => (sbs, ask SlackBuf.asBytes sbs k (fun x => .number x.toNat) f)) hleU32

/-- A build for a host of either byte order is one program, in its entry points
and in all that a client calls, unsafe calls against their contract included. -/
theorem host_order_unseen (B : Build) (X : Externs) (e : Endian) :
    (∀ b : Buf, EntryPoints.verify (Build.on B e) X b = EntryPoints.verify B X b) ∧
    (∀ (buf : Buf) (start stop : ℕ),
      verifyWithSlack (Build.on B e) X buf start stop = verifyWithSlack B X buf start stop) ∧
    (∀ b : Buf, fromUtf8 (Build.on B e) X b = fromUtf8 B X b) ∧
    ∀ (sbs : List (SlackBuf B.pointerWidth)) (rs : List (Request B.pointerWidth)),
      Library.Service.answers (serve (Build.on B e) X) sbs rs =
        Library.Service.answers (serve B X) sbs rs := by
  refine ⟨fun b => ?_,fun buf start stop => ?_,fun b => ?_,fun sbs rs => ?_⟩
  · rw [verify_order]
  · rw [verifyWithSlack_order]
  · rw [fromUtf8_order]
  · have hserve : serve (Build.on B e) X = serve B X := by
      ext sbs r : 2
      exact serve_order B X e sbs r
    exact congrArg (fun f => Library.Service.answers f sbs rs) hserve

end SmoothUtf8.HostOrder
