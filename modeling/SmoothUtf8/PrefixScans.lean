import SmoothUtf8.RunLogs
import Mathlib.Order.Bounds.Basic

/-!
# What the prefix scans return

Each scan returns the end of the longest front below `80` whose length is a
multiple of its grain, among the whole blocks of the range. So the result is a
function of the bytes of the range alone. `verify_impl` asks for much less: any
scan that stays in the range and passes nothing but bytes below `80` will do.
-/

set_option autoImplicit false

namespace SmoothUtf8.PrefixScans
open Library.CheckedProgram Library.Slice
open LeafLoads Table37 ShiftDfa SignBits AsciiSkip VerifyImpl RunLogs

def Fronts (g n : ℕ) (s : List UInt8) : Set ℕ := {d | d ≤ n ∧ g ∣ d ∧ ∀ b ∈ s.take d, b < 0x80}

theorem mem_fronts {g n d : ℕ} {buf : Buf} {start stop : ℕ} (hs : start ≤ stop)
    (hn : n ≤ stop-start) : d ∈ Fronts g n (slice buf start stop) ↔
      d ≤ n ∧ g ∣ d ∧ Ascii buf start (start+d) := by
  have htake : d ≤ n → (slice buf start stop).take d = slice buf start (start+d) := by
    intro hd
    have h := slice_take buf start (stop-start) d (hd.trans hn)
    rwa [Nat.add_sub_cancel' hs] at h
  constructor
  · intro h
    exact ⟨h.1,h.2.1,fun b hb => h.2.2 b (htake h.1 ▸ hb)⟩
  · intro h
    exact ⟨h.1,h.2.1,fun b hb => h.2.2 b (htake h.1 ▸ hb)⟩

theorem blocks_le {step start stop k : ℕ} (hstep : 0 < step) (hk : start+step*k ≤ stop) :
    step*k ≤ step*((stop-start)/step) := by
  apply Nat.mul_le_mul_left
  rw [Nat.le_div_iff_mul_le hstep, Nat.mul_comm]
  omega

theorem blocks_last {step start stop k : ℕ} (hleft : stop-(start+step*k) < step) :
    step*((stop-start)/step) ≤ step*k := by
  apply Nat.mul_le_mul_left
  apply Nat.le_of_lt_succ
  apply Nat.div_lt_of_lt_mul
  rw [Nat.mul_succ]
  omega

/-- Where a scan stops, as a property of the bytes of its range. A probe that
fails must answer with the end of the longest front, in its grain, of its block.
So a longer front of the range would cover the place that the probe found. -/
theorem scan_front {step g : ℕ} {Found : ℕ → ℕ → Prop} {buf : Buf}
    {probe : ℕ → Exec (Option ℕ)} (hprobe : ProbeExact step Found buf probe) (hstep : 0 < step)
    (hg : g ∣ step) (hfound : ∀ p r, ¬ Ascii buf p (p+step) → Found p r →
      p ≤ r ∧ r < p+step ∧ g ∣ r-p ∧ Ascii buf p r ∧ ¬ Ascii buf p (r+g))
    {start stop : ℕ} (hs : start ≤ stop) (hlen : stop ≤ buf.length) :
    ∃ d t, run (store buf) (scan step probe buf start stop) = .ok (start+d, t) ∧
      IsGreatest (Fronts g (step*((stop-start)/step)) (slice buf start stop)) d := by
  have hblocks : step*((stop-start)/step) ≤ stop-start := Nat.mul_div_le _ _
  obtain ⟨t,q,hr,hdone⟩ := scan_reaches hprobe hstep hs hlen
  rcases hdone with ⟨p,hp,hleft,rfl⟩ | ⟨p,u,v,r,hp,-,-,hfull,hnot,hf,rfl⟩
  · obtain ⟨k,rfl⟩ := hp.blocks
    refine ⟨step*k,t,reaches_done.mp hr,?_,fun d hd => hd.1.trans (blocks_last hleft)⟩
    exact (mem_fronts hs hblocks).mpr ⟨blocks_le hstep hp.hi,hg.mul_right k,hp.ascii⟩
  · obtain ⟨k,hk⟩ := hp.blocks
    obtain ⟨hpr,hrp,hdvd,hascii,hbad⟩ := hfound p r hnot hf
    have hsp : start ≤ p := by omega
    have hsum : start+(r-start) = r := by omega
    have hnext : step*(k+1) ≤ step*((stop-start)/step) := by
      apply blocks_le hstep
      rw [Nat.mul_succ]
      omega
    rw [Nat.mul_succ] at hnext
    have hd : g ∣ r-start := by
      have hrk : r-start = step*k+(r-p) := by omega
      rw [hrk]
      exact dvd_add (hg.mul_right k) hdvd
    refine ⟨r-start,t,?_,?_,?_⟩
    · rw [hsum]
      exact reaches_done.mp hr
    · rw [mem_fronts hs hblocks, hsum]
      exact ⟨by omega,hd,(allOn_split hsp hpr).mpr ⟨hp.ascii,hascii⟩⟩
    · intro d hmem
      obtain ⟨-,hgd,hfront⟩ := (mem_fronts hs hblocks).mp hmem
      by_contra hlt
      have hgap : g ≤ d-(r-start) := Nat.le_of_dvd (by omega) (Nat.dvd_sub hgd hd)
      exact hbad (allOn_mono hsp (by omega) hfront)

theorem found_front {step : ℕ} (hstep : 0 < step) {buf : Buf} (p r : ℕ)
    (hnot : ¬ Ascii buf p (p+step)) (h : r = p) :
    p ≤ r ∧ r < p+step ∧ step ∣ r-p ∧ Ascii buf p r ∧ ¬ Ascii buf p (r+step) := by
  subst h
  rw [Nat.sub_self]
  exact ⟨le_rfl,Nat.lt_add_of_pos_right hstep,dvd_zero _,allOn_self _ _ _,hnot⟩

def grain : Variant → ℕ
  | .swar => 16
  | .avx2 => 1
  | .neon => 32

theorem variant_front (e : Endian) (v : Variant) {buf : Buf} {start stop : ℕ} (hs : start ≤ stop)
    (hlen : stop ≤ buf.length) :
    ∃ d t, run (store buf) ((v.imp e).skip buf start stop) = .ok (start+d, t) ∧
      IsGreatest (Fronts (grain v) ((v.imp e).STEP*((stop-start)/(v.imp e).STEP))
        (slice buf start stop)) d := by
  cases v with
  | swar =>
    exact scan_front (swar_probe e buf) (by decide) dvd_rfl (found_front (by decide)) hs hlen
  | avx2 =>
    refine scan_front (avx2_probe buf) (by decide) (one_dvd _) (fun p r _ hf => ?_) hs hlen
    exact ⟨hf.1,hf.2.1,one_dvd _,hf.2.2.1,hf.2.2.2⟩
  | neon =>
    exact scan_front (neon_probe buf) (by decide) dvd_rfl (found_front (by decide)) hs hlen

theorem front_blocks {g d : ℕ} (hg : 0 < g) {buf : Buf} {start stop : ℕ} (hs : start ≤ stop)
    (h : IsGreatest (Fronts g (g*((stop-start)/g)) (slice buf start stop)) d) :
    ∃ k, d = g*k ∧ IsGreatest {k | start+g*k ≤ stop ∧ Ascii buf start (start+g*k)} k := by
  have hblocks : g*((stop-start)/g) ≤ stop-start := Nat.mul_div_le _ _
  obtain ⟨hle,⟨k,rfl⟩,hascii⟩ := (mem_fronts hs hblocks).mp h.1
  refine ⟨k,rfl,⟨by omega,hascii⟩,fun k' hk' => ?_⟩
  have hmem := (mem_fronts hs hblocks).mpr ⟨blocks_le hg hk'.1,dvd_mul_right g k',hk'.2⟩
  exact Nat.le_of_mul_le_mul_left (h.2 hmem) hg

/-- With bytes as grain the longest front ends at the first byte that is not
below `80`, or at the end. -/
theorem front_bytes {n d : ℕ} {buf : Buf} {start stop : ℕ} (hs : start ≤ stop)
    (hlen : stop ≤ buf.length) (hn : n ≤ stop-start)
    (h : IsGreatest (Fronts 1 n (slice buf start stop)) d) :
    FirstNonAscii buf start (start+n) (start+d) ∨ Ascii buf start (start+n) ∧ d = n := by
  obtain ⟨hle,-,hascii⟩ := (mem_fronts hs hn).mp h.1
  rcases hle.lt_or_eq with hlt | rfl
  · have hin : start+d < buf.length := by omega
    refine Or.inl ⟨Nat.le_add_right _ _,by omega,hascii,buf[start+d],
      List.getElem?_eq_getElem hin,?_⟩
    by_contra hbelow
    have hnext : Ascii buf start (start+(d+1)) :=
      (allOn_split (Nat.le_add_right start d) (Nat.le_succ _)).mpr
        ⟨hascii,(ascii_one hin).mpr (not_le.mp hbelow)⟩
    have hmem := (mem_fronts hs hn).mpr ⟨Nat.succ_le_of_lt hlt,one_dvd _,hnext⟩
    exact absurd (h.2 hmem) (Nat.not_succ_le_self d)
  · exact Or.inr ⟨hascii,rfl⟩

theorem variant_local (e : Endian) (v : Variant) {buf buf' : Buf} {start stop start' stop' : ℕ}
    (hs : start ≤ stop) (hlen : stop ≤ buf.length) (hs' : start' ≤ stop')
    (hlen' : stop' ≤ buf'.length) (hsame : slice buf' start' stop' = slice buf start stop)
    {d : ℕ} {t : Log} (h : run (store buf) ((v.imp e).skip buf start stop) = .ok (start+d, t)) :
    ∃ t', run (store buf') ((v.imp e).skip buf' start' stop') = .ok (start'+d, t') := by
  obtain ⟨c,u,hr,hc⟩ := variant_front e v hs hlen
  obtain ⟨c',u',hr',hc'⟩ := variant_front e v hs' hlen'
  have hwidth : stop'-start' = stop-start := by
    rw [← length_slice buf hlen, ← length_slice buf' hlen', hsame]
  rw [hsame, hwidth] at hc'
  have hd : start+c = start+d := (run_unique hr h).1
  obtain rfl : c = d := Nat.add_left_cancel hd
  obtain rfl : c' = c := hc'.unique hc
  exact ⟨u',hr'⟩

theorem variant_stops (e : Endian) (v : Variant) {buf : Buf} {start stop q : ℕ} {t : Log}
    (hs : start ≤ stop) (hlen : stop ≤ buf.length)
    (h : run (store buf) ((v.imp e).skip buf start stop) = .ok (q, t)) :
    q ≤ stop ∧ Ascii buf start q ∧ Stops (v.imp e) buf stop q := by
  obtain ⟨p,u,hp,hstops⟩ := variant_contract e v buf start stop hs hlen
  obtain ⟨rfl,-⟩ := run_unique (reaches_done.mp hp.reaches) h
  exact ⟨hp.hi,hp.ascii,hstops⟩

/-- The exact result of each scan. The word and vector scans count whole blocks,
the `movemask` scan stops on the first byte not below `80`; in each the result
depends on the bytes of the range only, and meets the contract of the module. -/
theorem skip_exact (e : Endian) (buf : Buf) (start stop : ℕ) (hs : start ≤ stop)
    (hlen : stop ≤ buf.length) :
    (∃ k t, run (store buf) (Swar.skip e buf start stop) = .ok (start+16*k, t) ∧
      IsGreatest {k | start+16*k ≤ stop ∧ ∀ b ∈ slice buf start (start+16*k), b < 0x80} k) ∧
    (∃ k t, run (store buf) (Neon.skip buf start stop) = .ok (start+32*k, t) ∧
      IsGreatest {k | start+32*k ≤ stop ∧ ∀ b ∈ slice buf start (start+32*k), b < 0x80} k) ∧
    (∃ q t, run (store buf) (Avx2.skip buf start stop) = .ok (q, t) ∧
      (FirstNonAscii buf start (start+32*((stop-start)/32)) q ∨
        (∀ b ∈ slice buf start (start+32*((stop-start)/32)), b < 0x80) ∧
          q = start+32*((stop-start)/32))) ∧
    ∀ v : Variant, ∃ d t,
      run (store buf) ((v.imp e).skip buf start stop) = .ok (start+d, t) ∧ start+d ≤ stop ∧
      (∀ b ∈ slice buf start (start+d), b < 0x80) ∧
      (stop-(start+d) < (v.imp e).STEP ∨
        ¬ ∀ b ∈ slice buf (start+d) (start+d+(v.imp e).STEP), b < 0x80) ∧
      ∀ (buf' : Buf) (start' stop' : ℕ), start' ≤ stop' → stop' ≤ buf'.length →
        slice buf' start' stop' = slice buf start stop →
        ∃ t', run (store buf') ((v.imp e).skip buf' start' stop') = .ok (start'+d, t') := by
  refine ⟨?_,?_,?_,fun v => ?_⟩
  · obtain ⟨d,t,hr,hd⟩ := variant_front e .swar hs hlen
    obtain ⟨k,rfl,hk⟩ := front_blocks (by decide) hs hd
    exact ⟨k,t,hr,hk⟩
  · obtain ⟨d,t,hr,hd⟩ := variant_front e .neon hs hlen
    obtain ⟨k,rfl,hk⟩ := front_blocks (by decide) hs hd
    exact ⟨k,t,hr,hk⟩
  · obtain ⟨d,t,hr,hd⟩ := variant_front e .avx2 hs hlen
    refine ⟨start+d,t,hr,?_⟩
    rcases front_bytes hs hlen (Nat.mul_div_le _ _) hd with hfirst | ⟨hall,rfl⟩
    · exact Or.inl hfirst
    · exact Or.inr ⟨hall,rfl⟩
  · obtain ⟨d,t,hr,-⟩ := variant_front e v hs hlen
    obtain ⟨hle,hascii,hstops⟩ := variant_stops e v hs hlen hr
    exact ⟨d,t,hr,hle,hascii,hstops,fun buf' start' stop' hs' hlen' hsame =>
      variant_local e v hs hlen hs' hlen' hsame hr⟩

theorem skip_exact_long_field :
    ∃ t, run (store (List.replicate 40 0x41)) (Swar.skip .big (List.replicate 40 0x41) 3 38) =
      .ok (35, t) := by
  obtain ⟨k,t,hr,hk⟩ := (skip_exact .big (List.replicate 40 0x41) 3 38 (by decide) (by decide)).1
  have hall : ((slice (List.replicate 40 0x41) 3 35).all fun b => b < (0x80 : UInt8)) = true := by
    decide
  simp only [List.all_eq_true, decide_eq_true_eq] at hall
  have hle : 3+16*k ≤ 38 := hk.1.1
  have hge : 2 ≤ k := hk.2 ⟨by decide,hall⟩
  obtain rfl : k = 2 := by omega
  exact ⟨t,hr⟩

/-- What the source asks of a scan it has not verified: the result lies in the
range and only bytes below `80` come before it. -/
def SafeSkip (I : Imp) : Prop :=
  ∀ (buf : Buf) (start stop : ℕ), start ≤ stop → stop ≤ buf.length →
    ∃ q t, run (store buf) (I.skip buf start stop) = .ok (q, t) ∧ start ≤ q ∧ q ≤ stop ∧
      ∀ b ∈ slice buf start q, b < 0x80

def partsOver (e : Endian) (pointerWidth : ℕ) (I : Imp) : Parts :=
  ⟨e,2^pointerWidth-1,I,Multibyte.verifyMultibyte e⟩

/-- Over any safe scan and with any padding `verify_impl` decides the row
grammar on its range, and its run, the scan included, stays inside the buffer. -/
theorem verifyImpl_of_safeSkip (e : Endian) (w : ℕ) (I : Imp) (hstep : 1 ≤ I.STEP)
    (hskip : SafeSkip I) (PAD : ℕ) (buf : Buf) (start stop : ℕ) (hs : start ≤ stop)
    (hlen : stop+PAD ≤ buf.length) :
    ∃ v t, run (store buf) (verifyImpl (partsOver e w I) PAD buf start stop) = .ok (v, t) ∧
      (v = true ↔ WellFormed (slice buf start stop)) ∧ ∀ i ∈ reads t, i < buf.length := by
  have hin : stop ≤ buf.length := by omega
  obtain ⟨q,t,hq,hlo,hhi,hascii⟩ := hskip buf start stop hs hin
  obtain ⟨u,r,hr,hdecides⟩ := verifyImpl_decides (partsOver e w I) PAD hstep hs hlen
    (reaches_done.mpr hq) hlo hhi hascii
  rcases hdecides with ⟨hall,rfl⟩ | ⟨p,hsp,hp,hfront,rfl⟩
  · have hrun := reaches_done.mp hr
    exact ⟨true,u,hrun,iff_of_true rfl (ascii_wellFormed hall),fun i hi => run_store_lt hrun hi⟩
  · obtain ⟨w',c,hslow,-⟩ := Multibyte.verifyMultibyte_reaches e hp.le hin
    have hcall := slowPath_run (P := partsOver e w I) (reaches_done.mp hslow)
    have hrun := reaches_done.mp (hr.trans (reaches_done.mpr hcall))
    refine ⟨_,_,hrun,?_,fun i hi => run_store_lt hrun hi⟩
    rw [decide_eq_true_iff]
    exact (dfaRun_accept _).trans (ascii_cut hsp hp.le hfront).1.symm

def oneByte : Imp where
  STEP := 5
  skip buf start stop :=
    .done (if start < stop ∧ buf.getD start 0x80 < 0x80 then start+1 else start)

theorem oneByte_safe : SafeSkip oneByte := by
  intro buf start stop hs hlen
  have hrun : run (store buf) (oneByte.skip buf start stop) =
      .ok (if start < stop ∧ buf.getD start 0x80 < 0x80 then start+1 else start, []) := rfl
  by_cases h : start < stop ∧ buf.getD start 0x80 < 0x80
  · have hlt : start < buf.length := by omega
    have hbyte : buf[start] < 0x80 := by simpa [hlt] using h.2
    rw [if_pos h] at hrun
    exact ⟨start+1,[],hrun,Nat.le_succ _,h.1,(ascii_one hlt).mpr hbyte⟩
  · rw [if_neg h] at hrun
    exact ⟨start,[],hrun,le_rfl,hs,allOn_self _ _ _⟩

theorem verifyImpl_of_oneByte :
    ∃ t, run (store (List.replicate 9 0x41++[0xC3,0xA9,0x41])) (verifyImpl
      (partsOver .little 64 oneByte) 0 (List.replicate 9 0x41++[0xC3,0xA9,0x41]) 0 12) =
        .ok (true, t) := by
  obtain ⟨v,t,hr,hv,-⟩ := verifyImpl_of_safeSkip .little 64 oneByte (by decide) oneByte_safe 0
    (List.replicate 9 0x41++[0xC3,0xA9,0x41]) 0 12 (by decide) (by decide)
  obtain rfl : v = true := hv.mpr (by decide)
  exact ⟨t,hr⟩

end SmoothUtf8.PrefixScans
