import SmoothUtf8.SlackBufApi

/-!
# Fields of one buffer

A padded buffer is validated field by field. Over consecutive fields nothing is
gained or lost: all of them pass exactly when the stretch they cover passes as a
whole and no cut falls inside a character. A field that is inverted, or that runs
into the slack, panics whatever the others hold.
-/

set_option autoImplicit false

namespace SmoothUtf8.Fields
open Library.CheckedProgram Library.Slice Library.PrefixCode
open LeafLoads Table37 EntryPoints SlackBufApi

theorem wellFormed_cut {b : Buf} {s m e : ℕ} (hs : s ≤ m) (hm : m ≤ e) (he : e ≤ b.length) :
    WellFormed (slice b s m) ∧ WellFormed (slice b m e) ↔
      WellFormed (slice b s e) ∧ (m < e → ¬ cont (b.getD m 0)) := by
  have hhead : (∀ x ∈ (slice b m e).head?, utf8.syncCode.Lead x) ↔
      (m < e → ¬ cont (b.getD m 0)) := by
    rw [List.head?_eq_getElem?]
    by_cases hlt : m < e
    · rw [getElem?_slice b 0 (by omega), Nat.add_zero, List.getElem?_eq_getElem (by omega),
        List.getD_eq_getElem?_getD, List.getElem?_eq_getElem (by omega)]
      simp only [hlt, Option.mem_def, Option.some.injEq, forall_eq', Option.getD_some, true_imp_iff]
      exact Iff.rfl
    · obtain rfl : m = e := by omega
      simp
  rw [← slice_append b hs hm, ← hhead]
  constructor
  · intro h
    have hall := wellFormed_append h.1 h.2
    exact ⟨hall,(cut_iff utf8.syncCode hall).mp h.1⟩
  · intro h
    have hfront := (cut_iff utf8.syncCode h.1).mpr h.2
    exact ⟨hfront,cancel_left utf8.code hfront h.1⟩

variable {B : Build} {X : Externs}

def Passes (B : Build) (X : Externs) (sb : SlackBuf B.pointerWidth)
    (r : RangeUsize B.pointerWidth) : Prop :=
  ∃ t, run (store sb.bytes) (sb.verify B X r) = .ok (true, t)

theorem passes_iff (hB : B.Sound X) (sb : SlackBuf B.pointerWidth)
    (r : RangeUsize B.pointerWidth) : Passes B X sb r ↔
      Inside sb r ∧ WellFormed (slice sb.bytes r.start.toNat r.stop.toNat) := by
  by_cases h : Inside sb r
  · obtain ⟨v,t,hr,hv⟩ := verify_returns hB h
    rw [Passes, hr, ← hv]
    simp [h]
  · have hp : run (store sb.bytes) (sb.verify B X r) = .error (.fault .panic) := verify_panics h
    rw [Passes, hp]
    simp [h]

/-- Two adjoining fields pass exactly when the joined one does and the cut between
them is a boundary. -/
theorem passes_join (hB : B.Sound X) (sb : SlackBuf B.pointerWidth)
    {p q z : BitVec B.pointerWidth} (hpq : p ≤ q) (hqz : q ≤ z) :
    Passes B X sb ⟨p,q⟩ ∧ Passes B X sb ⟨q,z⟩ ↔
      Passes B X sb ⟨p,z⟩ ∧ (q < z → ¬ cont (sb.bytes.getD q.toNat 0)) := by
  rw [BitVec.le_def] at hpq hqz
  simp only [passes_iff hB, Inside, BitVec.lt_def]
  by_cases hz : z.toNat+SLACK ≤ sb.bytes.length
  · have hcut := wellFormed_cut hpq hqz (show z.toNat ≤ sb.bytes.length by omega)
    have hq : q.toNat+SLACK ≤ sb.bytes.length := by omega
    simp only [hpq, hqz, hq, hz, hpq.trans hqz, true_and]
    exact hcut
  · simp [hz]

section Cuts

variable {w : ℕ}

def fields (p : BitVec w) : List (BitVec w) → List (RangeUsize w)
  | [] => []
  | q::qs => ⟨p,q⟩::fields q qs

end Cuts

theorem passes_ordered (hB : B.Sound X) {sb : SlackBuf B.pointerWidth}
    {p q : BitVec B.pointerWidth} (h : Passes B X sb ⟨p,q⟩) : p ≤ q :=
  BitVec.le_def.mpr ((passes_iff hB sb _).mp h).1.1

/-- Consecutive fields all pass exactly when the cuts are in order, the stretch
from the first cut to the last passes, and every cut in between is a boundary. -/
theorem fields_pass (hB : B.Sound X) (sb : SlackBuf B.pointerWidth)
    (p q : BitVec B.pointerWidth) (qs : List (BitVec B.pointerWidth)) :
    (∀ r ∈ fields p (q::qs), Passes B X sb r) ↔
      (p::q::qs).Pairwise (· ≤ ·) ∧ Passes B X sb ⟨p,qs.getLastD q⟩ ∧
        ∀ c ∈ q::qs, c < qs.getLastD q → ¬ cont (sb.bytes.getD c.toNat 0) := by
  induction qs generalizing p q with
  | nil =>
    constructor
    · intro h
      have hpq := h ⟨p,q⟩ (by simp [fields])
      simp [hpq, passes_ordered hB hpq]
    · intro h r hr
      obtain rfl : r = ⟨p,q⟩ := by simpa [fields] using hr
      exact h.2.1
  | cons q' qs ih =>
    have hsplit : (∀ r ∈ fields p (q::q'::qs), Passes B X sb r) ↔
        Passes B X sb ⟨p,q⟩ ∧ ∀ r ∈ fields q (q'::qs), Passes B X sb r := by
      rw [fields, List.forall_mem_cons]
    rw [hsplit, ih, List.getLastD_cons]
    constructor
    · intro h
      obtain ⟨hpq,hsorted,hrest,hinner⟩ := h
      have hle := passes_ordered hB hpq
      have hqz := passes_ordered hB hrest
      have hfirst : ∀ c ∈ q::q'::qs, p ≤ c := by
        intro c hc
        rcases List.mem_cons.mp hc with rfl | hc
        · exact hle
        · exact BitVec.le_trans hle ((List.pairwise_cons.mp hsorted).1 c hc)
      obtain ⟨hwhole,hcut⟩ := (passes_join hB sb hle hqz).mp ⟨hpq,hrest⟩
      exact ⟨List.pairwise_cons.mpr ⟨hfirst,hsorted⟩,hwhole,
        List.forall_mem_cons.mpr ⟨hcut,hinner⟩⟩
    · intro h
      obtain ⟨hsorted,hwhole,hinner⟩ := h
      obtain ⟨hp,hsorted⟩ := List.pairwise_cons.mp hsorted
      obtain ⟨hcut,hinner⟩ := List.forall_mem_cons.mp hinner
      have hqz := (List.pairwise_cons.mp hsorted).1 _ List.getLastD_mem_cons
      obtain ⟨hpq,hrest⟩ := (passes_join hB sb (hp q (by simp)) hqz).mpr ⟨hwhole,hcut⟩
      exact ⟨hpq,hsorted,hrest,hinner⟩

theorem fields_pass_empty :
    Passes (portable .little) ⟨isValidUtf8,isValidUtf8⟩ eAcute ⟨0,2⟩ ∧
      Passes (portable .little) ⟨isValidUtf8,isValidUtf8⟩ eAcute ⟨2,2⟩ := by
  have hB := portable_sound .little ⟨isValidUtf8,isValidUtf8⟩
  have hwhole : Passes (portable .little) ⟨isValidUtf8,isValidUtf8⟩ eAcute ⟨0,2⟩ := by
    apply (passes_iff hB eAcute ⟨0,2⟩).mpr
    exact ⟨⟨by decide,by decide⟩,by decide⟩
  have hall := (fields_pass hB eAcute 0 2 [2]).mpr ⟨by decide,hwhole,by simp⟩
  exact ⟨hall ⟨0,2⟩ (by simp [fields]),hall ⟨2,2⟩ (by simp [fields])⟩

/-! ## Two fields -/

def unwrap {α : Type} : Option α → Exec α
  | some a => pure a
  | none => .fault .panic

def twoFields (B : Build) (X : Externs) (sb : SlackBuf B.pointerWidth)
    (a b : RangeUsize B.pointerWidth) : Exec Bool := do
  let u ← sb.verify B X a
  let v ← sb.verify B X b
  pure (u && v)

def probeTwoFields (B : Build) (X : Externs) (buf : Bytes B.pointerWidth)
    (a b : RangeUsize B.pointerWidth) : Exec Bool := do
  let sb ← unwrap (new buf)
  twoFields B X sb a b

theorem new_some {w : ℕ} {buf : Bytes w} (h : SLACK ≤ buf.bytes.length) :
    new buf = some ⟨buf,h⟩ := dif_pos h

theorem new_none {w : ℕ} {buf : Bytes w} (h : ¬ SLACK ≤ buf.bytes.length) :
    new buf = none := dif_neg h

section Probe

variable {sb : SlackBuf B.pointerWidth} {a b : RangeUsize B.pointerWidth}

theorem twoFields_returns (hB : B.Sound X) (ha : Inside sb a) (hb : Inside sb b) :
    ∃ v t, run (store sb.bytes) (twoFields B X sb a b) = .ok (v, t) ∧
      (v = true ↔ Passes B X sb a ∧ Passes B X sb b) := by
  obtain ⟨u,t,hu,hua⟩ := verify_returns hB ha
  obtain ⟨v,t',hv,hvb⟩ := verify_returns hB hb
  have hrun : Reaches (store sb.bytes) (twoFields B X sb a b) (t++(t'++[])) (.done (u && v)) :=
    ((reaches_done.mpr hu).then _).trans (((reaches_done.mpr hv).then _).trans (Reaches.refl _ _))
  have hpa : Passes B X sb a ↔ u = true := by simp [passes_iff hB, ha, hua]
  have hpb : Passes B X sb b ↔ v = true := by simp [passes_iff hB, hb, hvb]
  exact ⟨u && v,_,reaches_done.mp hrun,by rw [hpa, hpb, Bool.and_eq_true]⟩

theorem twoFields_panics (hB : B.Sound X) (h : ¬ (Inside sb a ∧ Inside sb b)) :
    Panics (run (store sb.bytes) (twoFields B X sb a b)) := by
  rw [Panics, twoFields, run_bind]
  by_cases ha : Inside sb a
  · have hb : run (store sb.bytes) (sb.verify B X b) = .error (.fault .panic) :=
      verify_panics (fun hb => h ⟨ha,hb⟩)
    obtain ⟨u,t,hu,-⟩ := verify_returns hB ha
    rw [hu]
    simp only [run_bind, hb, logged_error]
  · have hp : run (store sb.bytes) (sb.verify B X a) = .error (.fault .panic) := verify_panics ha
    rw [hp]

end Probe

/-- The two fields do not disturb one another: the caller panics exactly where the
buffer has no slack or one of the ranges does not fit, and otherwise tells whether
both fields pass, which for adjoining fields is a question about the joined one. -/
theorem probeTwoFields_sound (hB : B.Sound X) (buf : Bytes B.pointerWidth)
    (a b : RangeUsize B.pointerWidth) :
    (∀ h : SLACK ≤ buf.bytes.length, Inside ⟨buf,h⟩ a → Inside ⟨buf,h⟩ b →
      ∃ v t, run (store buf.bytes) (probeTwoFields B X buf a b) = .ok (v, t) ∧
        (v = true ↔ Passes B X ⟨buf,h⟩ a ∧ Passes B X ⟨buf,h⟩ b) ∧
        (a.stop = b.start → (v = true ↔ Passes B X ⟨buf,h⟩ ⟨a.start,b.stop⟩ ∧
          (b.start < b.stop → ¬ cont (buf.bytes.getD b.start.toNat 0))))) ∧
    ((∀ h : SLACK ≤ buf.bytes.length, ¬ (Inside ⟨buf,h⟩ a ∧ Inside ⟨buf,h⟩ b)) →
      Panics (run (store buf.bytes) (probeTwoFields B X buf a b))) := by
  by_cases hslack : SLACK ≤ buf.bytes.length
  · have hstart : probeTwoFields B X buf a b = twoFields B X ⟨buf,hslack⟩ a b := by
      rw [probeTwoFields, new_some hslack]
      rfl
    rw [hstart]
    constructor
    · intro h ha hb
      obtain ⟨v,t,hr,hv⟩ := twoFields_returns hB ha hb
      have hjoin : a.stop = b.start → (v = true ↔ Passes B X ⟨buf,h⟩ ⟨a.start,b.stop⟩ ∧
          (b.start < b.stop → ¬ cont (buf.bytes.getD b.start.toNat 0))) := by
        intro hab
        cases a with
        | mk p q =>
          cases b with
          | mk q' z =>
            obtain rfl : q = q' := hab
            exact hv.trans
              (passes_join hB ⟨buf,h⟩ (BitVec.le_def.mpr ha.1) (BitVec.le_def.mpr hb.1))
      exact ⟨v,t,hr,hv,hjoin⟩
    · intro h
      exact twoFields_panics hB (h hslack)
  · rw [probeTwoFields, new_none hslack]
    exact ⟨fun h => absurd h hslack,fun _ => rfl⟩

theorem probeTwoFields_sound_cut :
    ∃ t, run (store eAcute.bytes) (probeTwoFields (portable .little) ⟨isValidUtf8,isValidUtf8⟩
      eAcute.toBytes ⟨0,1⟩ ⟨1,2⟩) = .ok (false, t) := by
  have hB := portable_sound .little ⟨isValidUtf8,isValidUtf8⟩
  obtain ⟨v,t,hr,-,hv⟩ := (probeTwoFields_sound hB eAcute.toBytes ⟨0,1⟩ ⟨1,2⟩).1 eAcute.slack
    ⟨by decide,by decide⟩ ⟨by decide,by decide⟩
  cases v with
  | true =>
    have hcut := ((hv rfl).mp rfl).2 (by decide)
    exact absurd (show cont 0xA9 by decide) hcut
  | false => exact ⟨t,hr⟩

end SmoothUtf8.Fields
