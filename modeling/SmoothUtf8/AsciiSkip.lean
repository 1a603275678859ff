import SmoothUtf8.SignBits

/-!
# The three prefix scans

A scan advances by whole blocks while its probe finds a block all below `80`.
The probes differ: two 8-byte words and a mask, one 32-byte vector and
`movemask`, two 16-byte vectors and `umaxv`. Each probe is exact on its block,
and one rule for the loop gives the contract of all three.
-/

set_option autoImplicit false

namespace SmoothUtf8.AsciiSkip
open Library.CheckedProgram Library.ByteWord Library.Slice
open LeafLoads Table37 SignBits

structure Imp where
  STEP : ℕ
  skip : Buf → ℕ → ℕ → Exec ℕ

/-- One pass of a scan. The probe answers with the index to return when the
block at `p` is not all below `80`. -/
def scanPass (step : ℕ) (probe : ℕ → Exec (Option ℕ)) (buf : Buf) (stop p : ℕ) :
    Exec (Turn ℕ ℕ) := do
  let left ← usizeSub stop p
  if step ≤ left then
    match ← probe p with
    | some q => pure (.leave q)
    | none =>
      let p ← usizeAdd buf p step
      pure (.again p)
  else pure (.leave p)

def scan (step : ℕ) (probe : ℕ → Exec (Option ℕ)) (buf : Buf) (start stop : ℕ) : Exec ℕ := do
  da (start ≤ stop ∧ stop ≤ buf.length)
  loop .endless (scanPass step probe buf stop) (stop-start+1) start

namespace Swar

def STEP : ℕ := 16

def probe (e : Endian) (buf : Buf) (p : ℕ) : Exec (Option ℕ) := do
  let a ← load64 e buf p
  let p8 ← usizeAdd buf p 8
  let b ← load64 e buf p8
  if (a ||| b) &&& signBits ≠ 0 then pure (some p) else pure none

def skip (e : Endian) (buf : Buf) (start stop : ℕ) : Exec ℕ :=
  scan STEP (probe e buf) buf start stop

def imp (e : Endian) : Imp := ⟨STEP,skip e⟩

end Swar

namespace Avx2

def STEP : ℕ := 32

def loadu (p : ℕ) : Exec (List UInt8) := Prog.cells p 32

/-- `_mm256_movemask_epi8` as a `u32`: bit `i` is the sign bit of lane `i`. -/
def movemask (v : List UInt8) : BitVec 32 :=
  (BitVec.ofBoolListLE (v.map (fun b => b.toBitVec.getLsbD 7))).setWidth 32

def probe (buf : Buf) (p : ℕ) : Exec (Option ℕ) := do
  let v ← loadu p
  let m := movemask v
  if m ≠ 0 then
    let q ← usizeAdd buf p m.ctz.toNat
    pure (some q)
  else pure none

def skip (buf : Buf) (start stop : ℕ) : Exec ℕ := scan STEP (probe buf) buf start stop

def imp : Imp := ⟨STEP,skip⟩

end Avx2

namespace Neon

def STEP : ℕ := 32

def vld1q (p : ℕ) : Exec (List UInt8) := Prog.cells p 16

def vorrq (a b : List UInt8) : List UInt8 := List.zipWith (· ||| ·) a b

def vmaxvq (v : List UInt8) : UInt8 := v.foldl max 0

def probe (buf : Buf) (p : ℕ) : Exec (Option ℕ) := do
  let a ← vld1q p
  let p16 ← usizeAdd buf p 16
  let b ← vld1q p16
  if 0x80 ≤ vmaxvq (vorrq a b) then pure (some p) else pure none

def skip (buf : Buf) (start stop : ℕ) : Exec ℕ := scan STEP (probe buf) buf start stop

def imp : Imp := ⟨STEP,skip⟩

end Neon

theorem movemask_bit {v : List UInt8} (hv : v.length = 32) (i : ℕ) (hi : i < 32) :
    (Avx2.movemask v).getLsbD i = false ↔ v.getD i 0 < 0x80 := by
  have hlt : i < v.length := by omega
  rw [lt_sign_iff, Avx2.movemask, BitVec.getLsbD_setWidth, BitVec.getLsbD_ofBoolListLE]
  simp [hi, hlt]

theorem movemask_lanes {v : List UInt8} (hv : v.length = 32) (k : ℕ) (hk : k ≤ 32) :
    (∀ i < k, (Avx2.movemask v).getLsbD i = false) ↔ ∀ b ∈ v.take k, b < 0x80 := by
  rw [forall_take_iff (hv.symm ▸ hk)]
  exact forall₂_congr (fun i hi => movemask_bit hv i (by omega))

theorem movemask_zero {v : List UInt8} (hv : v.length = 32) :
    Avx2.movemask v = 0 ↔ ∀ b ∈ v, b < 0x80 := by
  have hall := movemask_lanes hv 32 le_rfl
  rw [List.take_of_length_le hv.le] at hall
  rw [← hall]
  constructor
  · intro h i _
    rw [h]
    exact BitVec.getLsbD_zero
  · intro h
    apply BitVec.eq_of_getLsbD_eq
    intro i hi
    rw [h i hi]
    exact BitVec.getLsbD_zero.symm

theorem movemask_first {v : List UInt8} (hv : v.length = 32) (hm : Avx2.movemask v ≠ 0) :
    (Avx2.movemask v).ctz.toNat < 32 ∧
      (∀ b ∈ v.take (Avx2.movemask v).ctz.toNat, b < 0x80) ∧
      ¬ ∀ b ∈ v.take ((Avx2.movemask v).ctz.toNat+1), b < 0x80 := by
  have hlt : (Avx2.movemask v).ctz.toNat < 32 := by
    have h := BitVec.ctz_lt_iff_ne_zero.mpr hm
    rw [BitVec.lt_def] at h
    exact h
  refine ⟨hlt,?_,?_⟩
  · rw [← movemask_lanes hv _ hlt.le]
    intro i hi
    exact BitVec.getLsbD_false_of_lt_ctz hi
  · rw [← movemask_lanes hv _ hlt]
    intro h
    have hset := BitVec.getLsbD_true_ctz_of_ne_zero hm
    exact absurd (h _ (Nat.lt_succ_self _)) (by simp [hset])

theorem or_lt_sign (a b : UInt8) : a ||| b < 0x80 ↔ a < 0x80 ∧ b < 0x80 := by
  rw [lt_sign_iff, lt_sign_iff, lt_sign_iff, UInt8.toBitVec_or, BitVec.getLsbD_or,
    Bool.or_eq_false_iff]

theorem vorrq_lt_sign {a b : List UInt8} (h : a.length = b.length) :
    (∀ x ∈ Neon.vorrq a b, x < 0x80) ↔ (∀ x ∈ a, x < 0x80) ∧ ∀ x ∈ b, x < 0x80 := by
  induction a generalizing b with
  | nil =>
    rw [List.length_eq_zero_iff.mp h.symm]
    simp [Neon.vorrq]
  | cons x a ih =>
    cases b with
    | nil => simp at h
    | cons y b =>
      have hrest := ih (Nat.succ.inj h)
      rw [Neon.vorrq] at hrest ⊢
      rw [List.zipWith_cons_cons, List.forall_mem_cons, List.forall_mem_cons,
        List.forall_mem_cons, or_lt_sign, hrest, and_and_and_comm]

theorem foldl_max_lt (v : List UInt8) (m : UInt8) :
    v.foldl max m < 0x80 ↔ m < 0x80 ∧ ∀ x ∈ v, x < 0x80 := by
  induction v generalizing m with
  | nil => simp
  | cons x v ih => rw [List.foldl_cons, ih, max_lt_iff, List.forall_mem_cons, and_assoc]

theorem vmaxvq_lt_sign (v : List UInt8) : Neon.vmaxvq v < 0x80 ↔ ∀ x ∈ v, x < 0x80 := by
  rw [Neon.vmaxvq, foldl_max_lt]
  exact and_iff_right (by decide)

/-- A probe decides whether its block is all below `80`, reads inside it, and
otherwise answers with an index that stands in the relation `Found` to it. -/
def ProbeExact (step : ℕ) (Found : ℕ → ℕ → Prop) (buf : Buf) (probe : ℕ → Exec (Option ℕ)) :
    Prop :=
  ∀ p, p+step ≤ buf.length → ∃ u, Quiet p (p+step) u ∧
    ((Ascii buf p (p+step) ∧ Reaches (store buf) (probe p) u (.done none)) ∨
    (¬ Ascii buf p (p+step) ∧ ∃ q, Found p q ∧ Reaches (store buf) (probe p) u (.done (some q))))

theorem ascii_two {buf : Buf} {p n : ℕ} :
    Ascii buf p (p+(n+n)) ↔ Ascii buf p (p+n) ∧ Ascii buf (p+n) (p+n+n) := by
  rw [← Nat.add_assoc]
  exact allOn_split (Nat.le_add_right p n) (Nat.le_add_right _ n)

theorem probe_test {buf : Buf} {p step : ℕ} {u : Log} {c : Prop} [Decidable c]
    {prog : Exec (Option ℕ)} (hq : Quiet p (p+step) u) (hexact : ¬ c ↔ Ascii buf p (p+step))
    (hrun : Reaches (store buf) prog u (if c then .done (some p) else .done none)) :
    ∃ u, Quiet p (p+step) u ∧ ((Ascii buf p (p+step) ∧ Reaches (store buf) prog u (.done none)) ∨
      (¬ Ascii buf p (p+step) ∧ ∃ q, q = p ∧ Reaches (store buf) prog u (.done (some q)))) := by
  refine ⟨u,hq,?_⟩
  by_cases hc : c
  · rw [if_pos hc] at hrun
    exact Or.inr ⟨fun ha => hexact.mpr ha hc,p,rfl,hrun⟩
  · rw [if_neg hc] at hrun
    exact Or.inl ⟨hexact.mp hc,hrun⟩

/-- What each probe loads, and what it decides by. -/
theorem swar_run (e : Endian) {buf : Buf} {p : ℕ} (h : p+16 ≤ buf.length) :
    Reaches (store buf) (Swar.probe e buf p) (touched p 8++touched (p+8) 8)
      (if (pack 8 buf p ||| pack 8 buf (p+8)) &&& signBits ≠ 0 then .done (some p)
        else .done none) := by
  refine ((reaches_load64 e (show p+8 ≤ buf.length by omega)).then _).trans ?_
  rw [usizeAdd_pos (show p+8 ≤ buf.length by omega), Prog.done_bind]
  exact (reaches_load64 e (show p+8+8 ≤ buf.length by omega)).then _

theorem neon_run {buf : Buf} {p : ℕ} (h : p+32 ≤ buf.length) :
    Reaches (store buf) (Neon.probe buf p) (touched p 16++touched (p+16) 16)
      (if 0x80 ≤ Neon.vmaxvq (Neon.vorrq (slice buf p (p+16)) (slice buf (p+16) (p+16+16)))
        then .done (some p) else .done none) := by
  refine ((reaches_stretch (show p+16 ≤ buf.length by omega)).then _).trans ?_
  rw [usizeAdd_pos (show p+16 ≤ buf.length by omega), Prog.done_bind]
  exact (reaches_stretch (show p+16+16 ≤ buf.length by omega)).then _

theorem avx2_run {buf : Buf} {p : ℕ} (h : p+32 ≤ buf.length) :
    Reaches (store buf) (Avx2.probe buf p) (touched p 32)
      (if Avx2.movemask (slice buf p (p+32)) ≠ 0
        then .done (some (p+(Avx2.movemask (slice buf p (p+32))).ctz.toNat))
        else .done none) := by
  have hrun : Reaches (store buf) (Avx2.probe buf p) (touched p 32)
      (if Avx2.movemask (slice buf p (p+32)) ≠ 0 then do
          let q ← usizeAdd buf p (Avx2.movemask (slice buf p (p+32))).ctz.toNat
          pure (some q)
        else .done none) := (reaches_stretch h).then _
  by_cases hz : Avx2.movemask (slice buf p (p+32)) = 0
  · rw [if_neg (not_not_intro hz)] at hrun ⊢
    exact hrun
  · have hlt := (movemask_first (length_slice_add buf h) hz).1
    rw [if_pos hz, usizeAdd_pos (by omega)] at hrun
    rw [if_pos hz]
    exact hrun

theorem swar_probe (e : Endian) (buf : Buf) :
    ProbeExact 16 (fun p q => q = p) buf (Swar.probe e buf) := by
  intro p h
  have hq : Quiet p (p+16) (touched p 8++touched (p+8) 8) :=
    (quiet_touched le_rfl (by omega)).append (quiet_touched (by omega) le_rfl)
  have hexact : Ascii buf p (p+16) ↔ (pack 8 buf p ||| pack 8 buf (p+8)) &&& signBits = 0 := by
    rw [show p+16 = p+(8+8) by omega, ascii_two]
    rw [← pack_and_mask signBits_mask le_rfl (show p+8 ≤ buf.length by omega)]
    rw [← pack_and_mask signBits_mask le_rfl (show p+8+8 ≤ buf.length by omega)]
    exact (or_and_eq_zero _ _ _).symm
  exact probe_test hq (not_not.trans hexact.symm) (swar_run e h)

theorem neon_probe (buf : Buf) : ProbeExact 32 (fun p q => q = p) buf (Neon.probe buf) := by
  intro p h
  have hq : Quiet p (p+32) (touched p 16++touched (p+16) 16) :=
    (quiet_touched le_rfl (by omega)).append (quiet_touched (by omega) le_rfl)
  have ha := length_slice_add buf (show p+16 ≤ buf.length by omega)
  have hb := length_slice_add buf (show p+16+16 ≤ buf.length by omega)
  have hexact : Ascii buf p (p+32) ↔
      Neon.vmaxvq (Neon.vorrq (slice buf p (p+16)) (slice buf (p+16) (p+16+16))) < 0x80 := by
    rw [show p+32 = p+(16+16) by omega, ascii_two, vmaxvq_lt_sign,
      vorrq_lt_sign (ha.trans hb.symm)]
    exact Iff.rfl
  exact probe_test hq (not_le.trans hexact.symm) (neon_run h)

theorem avx2_probe (buf : Buf) :
    ProbeExact 32 (fun p q => p ≤ q ∧ q < p+32 ∧ Ascii buf p q ∧ ¬ Ascii buf p (q+1)) buf
      (Avx2.probe buf) := by
  intro p h
  have hl := length_slice_add buf h
  have hrun := avx2_run h
  refine ⟨touched p 32,quiet_touched le_rfl le_rfl,?_⟩
  by_cases hz : Avx2.movemask (slice buf p (p+32)) = 0
  · rw [if_neg (not_not_intro hz)] at hrun
    exact Or.inl ⟨(movemask_zero hl).mp hz,hrun⟩
  · obtain ⟨hlt,hbefore,hthere⟩ := movemask_first hl hz
    rw [if_pos hz] at hrun
    rw [slice_take buf p 32 _ hlt.le] at hbefore
    rw [slice_take buf p 32 _ hlt] at hthere
    exact Or.inr ⟨fun ha => hz ((movemask_zero hl).mpr ha),_,
      ⟨Nat.le_add_right p _,Nat.add_lt_add_left hlt p,hbefore,hthere⟩,hrun⟩

structure AtBlock (step : ℕ) (buf : Buf) (start stop p : ℕ) (t : Log) : Prop where
  blocks : ∃ k, p = start+step*k
  hi : p ≤ stop
  ascii : Ascii buf start p
  quiet : Quiet start p t

def ScanDone (step : ℕ) (Found : ℕ → ℕ → Prop) (buf : Buf) (start stop : ℕ) (t : Log)
    (q : Exec ℕ) : Prop :=
  (∃ p, AtBlock step buf start stop p t ∧ stop-p < step ∧ q = .done p) ∨
  (∃ p u v r, AtBlock step buf start stop p u ∧ Quiet p (p+step) v ∧ t = u++v ∧
    p+step ≤ stop ∧ ¬ Ascii buf p (p+step) ∧ Found p r ∧ q = .done r)

/-- A pass over a full block goes on, or leaves, as its probe answers. -/
theorem scan_block {step : ℕ} {probe : ℕ → Exec (Option ℕ)} {buf : Buf} {stop p : ℕ} {u : Log}
    {r : Option ℕ} (hp : p ≤ stop) (hlen : stop ≤ buf.length) (hfull : step ≤ stop-p)
    (h : Reaches (store buf) (probe p) u (.done r)) :
    Reaches (store buf) (scanPass step probe buf stop p) u
      (.done (r.elim (.again (p+step)) .leave)) := by
  rw [scanPass, usizeSub_pos hp, Prog.done_bind, if_pos hfull]
  simp only [usizeAdd_pos (show p+step ≤ buf.length by omega), Prog.done_bind, Prog.pure_def]
  cases r with
  | none => exact h.then _
  | some q => exact h.then _

theorem scan_rest {step : ℕ} {probe : ℕ → Exec (Option ℕ)} {buf : Buf} {stop p : ℕ}
    (hp : p ≤ stop) (hfull : ¬ step ≤ stop-p) :
    scanPass step probe buf stop p = .done (.leave p) := by
  rw [scanPass, usizeSub_pos hp, Prog.done_bind, if_neg hfull]
  rfl

theorem scan_pass {step : ℕ} {Found : ℕ → ℕ → Prop} {buf : Buf} {probe : ℕ → Exec (Option ℕ)}
    (hprobe : ProbeExact step Found buf probe) (hstep : 0 < step) {start stop : ℕ}
    (hlen : stop ≤ buf.length) (p : ℕ) (t : Log) (h : AtBlock step buf start stop p t) :
    (∃ p' u, Reaches (store buf) (scanPass step probe buf stop p) u (.done (.again p')) ∧
      AtBlock step buf start stop p' (t++u) ∧ stop-p' < stop-p) ∨
    (∃ u q, Reaches (store buf) (scanPass step probe buf stop p) u
        (q >>= fun a => .done (.leave a)) ∧ ScanDone step Found buf start stop (t++u) q) := by
  have hp := h.hi
  obtain ⟨k,hk⟩ := h.blocks
  have hsp : start ≤ p := by omega
  by_cases hfull : step ≤ stop-p
  · obtain ⟨u,hu,hcase⟩ := hprobe p (by omega)
    rcases hcase with ⟨hascii,hr⟩ | ⟨hnot,r,hfound,hr⟩
    · refine Or.inl ⟨p+step,u,scan_block hp hlen hfull hr,⟨⟨k+1,?_⟩,by omega,?_,?_⟩,by omega⟩
      · rw [hk, Nat.mul_succ, Nat.add_assoc]
      · exact (allOn_split hsp (Nat.le_add_right p step)).mpr ⟨h.ascii,hascii⟩
      · exact (h.quiet.mono le_rfl (by omega)).append (hu.mono hsp le_rfl)
    · exact Or.inr ⟨u,.done r,scan_block hp hlen hfull hr,
        Or.inr ⟨p,t,u,r,h,hu,rfl,by omega,hnot,hfound,rfl⟩⟩
  · rw [scan_rest hp hfull]
    refine Or.inr ⟨[],.done p,Reaches.refl _ _,Or.inl ⟨p,?_,by omega,rfl⟩⟩
    rwa [List.append_nil]

theorem scan_reaches {step : ℕ} {Found : ℕ → ℕ → Prop} {buf : Buf}
    {probe : ℕ → Exec (Option ℕ)} (hprobe : ProbeExact step Found buf probe) (hstep : 0 < step)
    {start stop : ℕ} (hs : start ≤ stop) (hlen : stop ≤ buf.length) :
    ∃ t q, Reaches (store buf) (scan step probe buf start stop) t q ∧
      ScanDone step Found buf start stop t q := by
  rw [scan, da_pos ⟨hs,hlen⟩]
  exact loop_reaches .endless (scanPass step probe buf stop) (AtBlock step buf start stop)
    (ScanDone step Found buf start stop) (fun p => stop-p) (scan_pass hprobe hstep hlen)
    (stop-start+1) start [] ⟨⟨0,rfl⟩,hs,allOn_self _ _ _,quiet_nil _ _⟩ (Nat.lt_succ_self _)

structure SkipsTo (I : Imp) (buf : Buf) (start stop q : ℕ) (t : Log) : Prop where
  reaches : Reaches (store buf) (I.skip buf start stop) t (.done q)
  lo : start ≤ q
  hi : q ≤ stop
  ascii : Ascii buf start q
  quiet : Quiet start (min stop (q+I.STEP)) t

def Stops (I : Imp) (buf : Buf) (stop q : ℕ) : Prop :=
  stop-q < I.STEP ∨ ¬ Ascii buf q (q+I.STEP)

def Contract (I : Imp) : Prop :=
  ∀ buf start stop, start ≤ stop → stop ≤ buf.length →
    ∃ q t, SkipsTo I buf start stop q t ∧ Stops I buf stop q

/-- The contract of the module holds of any scan whose probe answers inside
its block, after bytes below `80`. -/
theorem scan_contract {step : ℕ} {Found : Buf → ℕ → ℕ → Prop} {probe : Buf → ℕ → Exec (Option ℕ)}
    (hprobe : ∀ buf, ProbeExact step (Found buf) buf (probe buf)) (hstep : 0 < step)
    (hfound : ∀ buf p r, Found buf p r → p ≤ r ∧ r < p+step ∧ Ascii buf p r) :
    Contract ⟨step,fun buf start stop => scan step (probe buf) buf start stop⟩ := by
  intro buf start stop hs hlen
  obtain ⟨t,q,hr,hdone⟩ := scan_reaches (hprobe buf) hstep hs hlen
  rcases hdone with ⟨p,hp,hleft,rfl⟩ | ⟨p,u,v,r,hp,hv,rfl,hfull,hnot,hf,rfl⟩
  · obtain ⟨k,hk⟩ := hp.blocks
    have hle := hp.hi
    have hfront : p ≤ min stop (p+step) := le_min hle (Nat.le_add_right p step)
    exact ⟨p,t,⟨hr,by omega,hle,hp.ascii,hp.quiet.mono le_rfl hfront⟩,Or.inl hleft⟩
  · obtain ⟨k,hk⟩ := hp.blocks
    obtain ⟨hpr,hrp,hascii⟩ := hfound buf p r hf
    have hsp : start ≤ p := by omega
    refine ⟨r,u++v,⟨hr,by omega,by omega,?_,?_⟩,Or.inr (fun ha => hnot ?_)⟩
    · exact (allOn_split hsp hpr).mpr ⟨hp.ascii,hascii⟩
    · have hfront : p ≤ min stop (r+step) := le_min hp.hi (by omega)
      have hblock : p+step ≤ min stop (r+step) := le_min hfull (by omega)
      exact (hp.quiet.mono le_rfl hfront).append (hv.mono hsp hblock)
    · have hrest := allOn_mono le_rfl (Nat.add_le_add_right hpr step) ha
      exact (allOn_split hpr hrp.le).mpr ⟨hascii,hrest⟩

inductive Variant where
  | swar
  | avx2
  | neon
  deriving DecidableEq, Repr

def Variant.imp (e : Endian) : Variant → Imp
  | .swar => Swar.imp e
  | .avx2 => Avx2.imp
  | .neon => Neon.imp

theorem found_here {step : ℕ} (hstep : 0 < step) (buf : Buf) (p r : ℕ) (h : r = p) :
    p ≤ r ∧ r < p+step ∧ Ascii buf p r := by
  subst h
  exact ⟨le_rfl,Nat.lt_add_of_pos_right hstep,allOn_self _ _ _⟩

theorem variant_contract (e : Endian) (v : Variant) : Contract (v.imp e) := by
  cases v with
  | swar => exact scan_contract (swar_probe e) (by decide) (found_here (by decide))
  | avx2 =>
    exact scan_contract avx2_probe (by decide) (fun buf p r hr => ⟨hr.1,hr.2.1,hr.2.2.1⟩)
  | neon => exact scan_contract neon_probe (by decide) (found_here (by decide))

theorem variant_step (e : Endian) (v : Variant) : 16 ≤ (v.imp e).STEP := by
  cases v with
  | swar => exact le_rfl
  | avx2 => exact (by decide : 16 ≤ 32)
  | neon => exact (by decide : 16 ≤ 32)

end SmoothUtf8.AsciiSkip
