import SmoothUtf8.Encoding
import SmoothUtf8.Library.Service

/-!
# The safe wrapper

A `SlackBuf` carries the invariant its constructors establish. Indices and
lengths are machine words here, so that a range may be inverted or end at
`usize::MAX` and the subtraction in `payload_len` wraps as it would in a release
build. Behind the wrapper's assertions every call meets the precondition of
`verify_with_slack`, and no sequence of calls reads outside a buffer.
-/

set_option autoImplicit false

namespace SmoothUtf8.SlackBufApi
open Library.CheckedProgram Library.ByteWord Library.Service Library.Slice
open LeafLoads Table37 AsciiSkip EntryPoints

structure Bytes (w : ℕ) where
  bytes : Buf
  fits : bytes.length < 2^(w-1)

structure RangeUsize (w : ℕ) where
  start : BitVec w
  stop : BitVec w
  deriving DecidableEq, Repr

structure SlackBuf (w : ℕ) extends Bytes w where
  slack : SLACK ≤ bytes.length

section Methods

variable {w : ℕ}

def new (buf : Bytes w) : Option (SlackBuf w) :=
  if h : SLACK ≤ buf.bytes.length then some ⟨buf,h⟩ else none

def newEmbeddedSlack (buf : Bytes w) : Exec (SlackBuf w) :=
  if h : SLACK ≤ buf.bytes.length then pure ⟨buf,h⟩ else .fault .panic

/-- `extend_from_slice` panics when the vector would outgrow `isize::MAX`. -/
def newAddSlack (v : Bytes w) : Exec (SlackBuf w) :=
  if h : (v.bytes++List.replicate SLACK 0).length < 2^(w-1) then
    pure ⟨⟨v.bytes++List.replicate SLACK 0,h⟩,by simp⟩
  else .fault .panic

def SlackBuf.asBytes (sb : SlackBuf w) : Buf := sb.bytes

def SlackBuf.payloadLen (sb : SlackBuf w) : BitVec w :=
  BitVec.ofNat w sb.bytes.length-BitVec.ofNat w SLACK

def getUnchecked (buf : Buf) (start stop : ℕ) : Exec (List UInt8) := do
  Prog.check (start ≤ stop ∧ stop ≤ buf.length) .outside
  pure (slice buf start stop)

def SlackBuf.leU32 (e : Endian) (sb : SlackBuf w) (i : BitVec w) : Exec (BitVec 32) := do
  Prog.check (i ≤ sb.payloadLen) .panic
  let raw ← readUnaligned e 4 i.toNat
  pure (fromLe e raw)

end Methods

def SlackBuf.verify (B : Build) (X : Externs) (sb : SlackBuf B.pointerWidth)
    (range : RangeUsize B.pointerWidth) : Exec Bool := do
  Prog.check (range.start ≤ range.stop ∧ range.stop ≤ sb.payloadLen) .panic
  verifyWithSlack B X sb.bytes range.start.toNat range.stop.toNat

def SlackBuf.toStr (B : Build) (X : Externs) (sb : SlackBuf B.pointerWidth)
    (range : RangeUsize B.pointerWidth) : Exec (Option (List UInt8)) := do
  if ← sb.verify B X range then
    let s ← getUnchecked sb.bytes range.start.toNat range.stop.toNat
    Prog.note (.unchecked s)
    pure (some s)
  else pure none

/-- The slice is long enough and short enough for its subtraction not to wrap. -/
theorem payloadLen_toNat {w : ℕ} (sb : SlackBuf w) :
    sb.payloadLen.toNat+SLACK = sb.bytes.length := by
  have hfits := sb.fits
  have hslack := sb.slack
  have hpow : 2^(w-1) ≤ 2^w := Nat.pow_le_pow_right (by decide) (Nat.sub_le w 1)
  have hword : ∀ n ≤ sb.bytes.length, (BitVec.ofNat w n).toNat = n := by
    intro n hn
    rw [BitVec.toNat_ofNat, Nat.mod_eq_of_lt (by omega)]
  have hl := hword _ le_rfl
  have hs := hword _ hslack
  have hle : BitVec.ofNat w SLACK ≤ BitVec.ofNat w sb.bytes.length := by
    rw [BitVec.le_def, hl, hs]
    exact hslack
  rw [SlackBuf.payloadLen, BitVec.toNat_sub_of_le hle, hl, hs]
  exact Nat.sub_add_cancel hslack

theorem at_iff {w : ℕ} (sb : SlackBuf w) (i : BitVec w) :
    i ≤ sb.payloadLen ↔ i.toNat+SLACK ≤ sb.bytes.length := by
  have h := payloadLen_toNat sb
  rw [BitVec.le_def]
  omega

def Panics {α : Type} (o : Outcome Mark Fault α) : Prop := o = .error (.fault .panic)

def Guarded {α : Type} (c : Prop) (o : Outcome Mark Fault α) : Prop :=
  (c → ∃ a t, o = .ok (a, t)) ∧ (¬ c → Panics o)

theorem Guarded.panics_iff {α : Type} {c : Prop} {o : Outcome Mark Fault α} (h : Guarded c o) :
    Panics o ↔ ¬ c := by
  constructor
  · intro hp hc
    obtain ⟨a,t,ho⟩ := h.1 hc
    rw [Panics, ho] at hp
    cases hp
  · exact h.2

theorem check_panics {α : Type} {c : Prop} [Decidable c] {m : Memory UInt8} {k : Unit → Exec α}
    (h : ¬ c) : Panics (run m ((Prog.check c .panic : Exec Unit) >>= k)) := by
  rw [Prog.check, if_neg h]
  rfl

def Inside {w : ℕ} (sb : SlackBuf w) (r : RangeUsize w) : Prop :=
  r.start.toNat ≤ r.stop.toNat ∧ r.stop.toNat+SLACK ≤ sb.bytes.length

theorem not_inside_iff {w : ℕ} {sb : SlackBuf w} {r : RangeUsize w} :
    ¬ Inside sb r ↔ r.stop.toNat < r.start.toNat ∨ sb.asBytes.length < r.stop.toNat+SLACK := by
  rw [Inside, not_and_or, not_le, not_le]
  exact Iff.rfl

/-- The wrapper's assertion is the precondition of `verify_with_slack`. -/
theorem range_iff {w : ℕ} (sb : SlackBuf w) (r : RangeUsize w) :
    (r.start ≤ r.stop ∧ r.stop ≤ sb.payloadLen) ↔ Inside sb r := by
  rw [at_iff, BitVec.le_def]
  exact Iff.rfl

theorem verify_panics {B : Build} {X : Externs} {sb : SlackBuf B.pointerWidth}
    {r : RangeUsize B.pointerWidth} (h : ¬ Inside sb r) :
    Panics (run (store sb.bytes) (sb.verify B X r)) :=
  check_panics (fun hc => h ((range_iff sb r).mp hc))

theorem verify_returns {B : Build} {X : Externs} (hB : B.Sound X) {sb : SlackBuf B.pointerWidth}
    {r : RangeUsize B.pointerWidth} (h : Inside sb r) :
    ∃ v t, run (store sb.bytes) (sb.verify B X r) = .ok (v, t) ∧
      (v = true ↔ WellFormed (slice sb.bytes r.start.toNat r.stop.toNat)) := by
  rw [SlackBuf.verify, Prog.check_pos ((range_iff sb r).mpr h), Prog.done_bind]
  exact verifyWithSlack_valid hB h.1 h.2

theorem verify_guarded {B : Build} {X : Externs} (hB : B.Sound X) (sb : SlackBuf B.pointerWidth)
    (r : RangeUsize B.pointerWidth) :
    Guarded (Inside sb r) (run (store sb.bytes) (sb.verify B X r)) := by
  refine ⟨fun h => ?_,verify_panics⟩
  obtain ⟨v,t,hr,-⟩ := verify_returns hB h
  exact ⟨v,t,hr⟩

/-- `to_str` returns the bytes of a well-formed range and nothing otherwise. Its log
is that of its validation, and the `str` it makes. -/
theorem toStr_run {B : Build} {X : Externs} {sb : SlackBuf B.pointerWidth}
    {r : RangeUsize B.pointerWidth} {v : Bool} {t : Log} (h : Inside sb r)
    (hv : run (store sb.bytes) (sb.verify B X r) = .ok (v, t)) :
    run (store sb.bytes) (sb.toStr B X r) = if v then
      .ok (some (slice sb.bytes r.start.toNat r.stop.toNat),
        t++[.mark (.unchecked (slice sb.bytes r.start.toNat r.stop.toNat))])
      else .ok (none, t) := by
  have hin : r.stop.toNat ≤ sb.bytes.length := (Nat.le_add_right _ SLACK).trans h.2
  have hget : getUnchecked sb.bytes r.start.toNat r.stop.toNat =
      .done (slice sb.bytes r.start.toNat r.stop.toNat) := by
    rw [getUnchecked, Prog.check_pos ⟨h.1,hin⟩]
    rfl
  rw [SlackBuf.toStr, hget]
  have hthen := (reaches_done.mpr hv).then (fun b => if b then (do
      let s ← (.done (slice sb.bytes r.start.toNat r.stop.toNat) : Exec (List UInt8))
      Prog.note (.unchecked s)
      pure (some s)) else pure none : Bool → Exec (Option (List UInt8)))
  cases v with
  | true => exact reaches_done.mp (hthen.trans ((reaches_note _ _).then _))
  | false => exact reaches_done.mp (List.append_nil t ▸ hthen.trans (Reaches.refl _ _))

theorem toStr_returns {B : Build} {X : Externs} {sb : SlackBuf B.pointerWidth}
    {r : RangeUsize B.pointerWidth} {v : Bool} {t : Log} (h : Inside sb r)
    (hv : run (store sb.bytes) (sb.verify B X r) = .ok (v, t)) :
    ∃ u, run (store sb.bytes) (sb.toStr B X r) =
      .ok (if v then some (slice sb.bytes r.start.toNat r.stop.toNat) else none, u) := by
  have hrun := toStr_run h hv
  cases v with
  | true => exact ⟨_,hrun⟩
  | false => exact ⟨_,hrun⟩

theorem toStr_guarded {B : Build} {X : Externs} (hB : B.Sound X) (sb : SlackBuf B.pointerWidth)
    (r : RangeUsize B.pointerWidth) :
    Guarded (Inside sb r) (run (store sb.bytes) (sb.toStr B X r)) := by
  constructor
  · intro h
    obtain ⟨v,t,hr,-⟩ := verify_returns hB h
    obtain ⟨u,hu⟩ := toStr_returns h hr
    exact ⟨_,u,hu⟩
  · intro h
    have hp := verify_panics (X := X) h
    rw [Panics, SlackBuf.toStr, run_bind, hp]

/-- The source's compile-time assertion. -/
theorem SLACK_ge : 4 ≤ SLACK := by decide

theorem leU32_returns {w : ℕ} (e : Endian) {sb : SlackBuf w} {i : BitVec w}
    (h : i.toNat+SLACK ≤ sb.bytes.length) :
    run (store sb.bytes) (sb.leU32 e i) =
      .ok (pack 4 sb.bytes i.toNat, touched i.toNat 4) := by
  have h4 := SLACK_ge
  have hload : Reaches (store sb.bytes) (loadRaw 4 e i.toNat) (touched i.toNat 4) _ :=
    reaches_loadRaw 4 e (by omega)
  rw [SlackBuf.leU32, Prog.check_pos ((at_iff sb i).mpr h), Prog.done_bind]
  exact reaches_done.mp hload

theorem leU32_guarded {w : ℕ} (e : Endian) (sb : SlackBuf w) (i : BitVec w) :
    Guarded (i.toNat+SLACK ≤ sb.bytes.length) (run (store sb.bytes) (sb.leU32 e i)) :=
  ⟨fun h => ⟨_,_,leU32_returns e h⟩,fun h => check_panics (fun hc => h ((at_iff sb i).mp hc))⟩

theorem newEmbeddedSlack_guarded {w : ℕ} (buf : Bytes w) :
    Guarded (SLACK ≤ buf.bytes.length) (run (store []) (newEmbeddedSlack buf)) := by
  rw [newEmbeddedSlack]
  constructor
  · intro h
    rw [dif_pos h]
    exact ⟨_,[],rfl⟩
  · intro h
    rw [dif_neg h]
    rfl

theorem newAddSlack_guarded {w : ℕ} (v : Bytes w) :
    Guarded (v.bytes.length+SLACK < 2^(w-1)) (run (store []) (newAddSlack v)) := by
  have hlen : (v.bytes++List.replicate SLACK 0).length = v.bytes.length+SLACK := by simp
  rw [newAddSlack]
  constructor
  · intro h
    rw [dif_pos (hlen ▸ h)]
    exact ⟨_,[],rfl⟩
  · intro h
    rw [dif_neg (hlen ▸ h)]
    rfl

inductive Call (w : ℕ) where
  | new (buf : Bytes w)
  | newEmbeddedSlack (buf : Bytes w)
  | newAddSlack (v : Bytes w)
  | asBytes (k : ℕ)
  | payloadLen (k : ℕ)
  | verify (k : ℕ) (range : RangeUsize w)
  | toStr (k : ℕ) (range : RangeUsize w)
  | leU32 (k : ℕ) (i : BitVec w)

abbrev Reply := Except (Stop Fault) Log

def reply {α : Type} : Outcome Mark Fault α → Reply
  | .ok (_, t) => .ok t
  | .error s => .error s

def held {w : ℕ} (sbs : List (SlackBuf w)) :
    Outcome Mark Fault (SlackBuf w) → List (SlackBuf w) × Reply
  | .ok (sb, t) => (sbs++[sb], .ok t)
  | .error s => (sbs, .error s)

def method {w : ℕ} {α : Type} (sbs : List (SlackBuf w)) (k : ℕ) (f : SlackBuf w → Exec α) : Reply :=
  match sbs[k]? with
  | some sb => reply (run (store sb.bytes) (f sb))
  | none => .ok []

def call (B : Build) (X : Externs) (sbs : List (SlackBuf B.pointerWidth)) :
    Call B.pointerWidth → List (SlackBuf B.pointerWidth) × Reply
  | .new buf => (sbs++(new buf).toList, .ok [])
  | .newEmbeddedSlack buf => held sbs (run (store []) (newEmbeddedSlack buf))
  | .newAddSlack v => held sbs (run (store []) (newAddSlack v))
  | .asBytes k => (sbs, method sbs k (fun sb => pure sb.asBytes))
  | .payloadLen k => (sbs, method sbs k (fun sb => pure sb.payloadLen))
  | .verify k range => (sbs, method sbs k (fun sb => sb.verify B X range))
  | .toStr k range => (sbs, method sbs k (fun sb => sb.toStr B X range))
  | .leU32 k i => (sbs, method sbs k (fun sb => sb.leU32 B.endian i))

/-- A sequence of calls. A caught panic does not end it. -/
def session (B : Build) (X : Externs) :
    List (SlackBuf B.pointerWidth) → List (Call B.pointerWidth) → List Reply :=
  answers (call B X)

def Clean (r : Reply) : Prop := (∃ t, r = .ok t) ∨ r = .error (.fault .panic)

theorem Guarded.clean {α : Type} {c : Prop} {o : Outcome Mark Fault α} (h : Guarded c o) :
    Clean (reply o) := by
  by_cases hc : c
  · obtain ⟨a,t,ho⟩ := h.1 hc
    exact Or.inl ⟨t,by rw [ho, reply]⟩
  · have hp : o = .error (.fault .panic) := h.2 hc
    exact Or.inr (by rw [hp, reply])

theorem held_reply {w : ℕ} (sbs : List (SlackBuf w)) (o : Outcome Mark Fault (SlackBuf w)) :
    (held sbs o).2 = reply o := by
  rcases o with s | ⟨sb,t⟩ <;> rfl

theorem method_clean {w : ℕ} {α : Type} {f : SlackBuf w → Exec α}
    (h : ∀ sb, Clean (reply (run (store sb.bytes) (f sb)))) (sbs : List (SlackBuf w)) (k : ℕ) :
    Clean (method sbs k f) := by
  rw [method]
  cases sbs[k]? with
  | none => exact Or.inl ⟨[],rfl⟩
  | some sb => exact h sb

theorem call_clean {B : Build} {X : Externs} (hB : B.Sound X)
    (sbs : List (SlackBuf B.pointerWidth)) (c : Call B.pointerWidth) :
    Clean (call B X sbs c).2 := by
  cases c with
  | new buf => exact Or.inl ⟨[],rfl⟩
  | newEmbeddedSlack buf =>
    rw [call, held_reply]
    exact (newEmbeddedSlack_guarded buf).clean
  | newAddSlack v =>
    rw [call, held_reply]
    exact (newAddSlack_guarded v).clean
  | asBytes k => exact method_clean (fun sb => Or.inl ⟨[],rfl⟩) sbs k
  | payloadLen k => exact method_clean (fun sb => Or.inl ⟨[],rfl⟩) sbs k
  | verify k range => exact method_clean (fun sb => (verify_guarded hB sb range).clean) sbs k
  | toStr k range => exact method_clean (fun sb => (toStr_guarded hB sb range).clean) sbs k
  | leU32 k i => exact method_clean (fun sb => (leU32_guarded B.endian sb i).clean) sbs k

theorem session_clean {B : Build} {X : Externs} (hB : B.Sound X)
    (sbs : List (SlackBuf B.pointerWidth)) (cs : List (Call B.pointerWidth)) :
    ∀ r ∈ session B X sbs cs, Clean r :=
  forall_answers (call_clean hB) sbs cs

/-- `verify` and `to_str` panic exactly on the ranges that break the unsafe
function's contract, and otherwise agree with `from_utf8` of the range. -/
theorem range_methods {B : Build} {X : Externs} (hB : B.Sound X) (sb : SlackBuf B.pointerWidth)
    (r : RangeUsize B.pointerWidth) :
    (Panics (run (store sb.bytes) (sb.verify B X r)) ↔
      r.stop.toNat < r.start.toNat ∨ sb.asBytes.length < r.stop.toNat+SLACK) ∧
    (Panics (run (store sb.bytes) (sb.toStr B X r)) ↔
      r.stop.toNat < r.start.toNat ∨ sb.asBytes.length < r.stop.toNat+SLACK) ∧
    (¬ (r.stop.toNat < r.start.toNat ∨ sb.asBytes.length < r.stop.toNat+SLACK) →
      ∃ v t o u u', run (store sb.bytes) (sb.verify B X r) = .ok (v, t) ∧
        (v = true ↔ WellFormed (slice sb.asBytes r.start.toNat r.stop.toNat)) ∧
        run (store sb.bytes) (sb.toStr B X r) = .ok (o, u) ∧
        o = (if v then some (slice sb.asBytes r.start.toNat r.stop.toNat) else none) ∧
        run (store (slice sb.asBytes r.start.toNat r.stop.toNat))
          (fromUtf8 B X (slice sb.asBytes r.start.toNat r.stop.toNat)) = .ok (o, u')) := by
  rw [← not_inside_iff]
  refine ⟨(verify_guarded hB sb r).panics_iff,(toStr_guarded hB sb r).panics_iff,fun hn => ?_⟩
  have h : Inside sb r := not_not.mp hn
  obtain ⟨v,t,hr,hv⟩ := verify_returns hB h
  obtain ⟨u,hu⟩ := toStr_returns h hr
  obtain ⟨v',t',hr',hv'⟩ := verify_valid hB (slice sb.asBytes r.start.toNat r.stop.toNat)
  obtain rfl : v' = v := Bool.eq_iff_iff.mpr (hv'.trans hv.symm)
  have hfrom := Encoding.fromUtf8_run hr'
  cases v' with
  | true => exact ⟨true,t,_,u,_,hr,hv,hu,rfl,hfrom⟩
  | false => exact ⟨false,t,_,u,_,hr,hv,hu,rfl,hfrom⟩

theorem leU32_methods {w : ℕ} (e : Endian) (sb : SlackBuf w) (i : BitVec w) :
    (Panics (run (store sb.bytes) (sb.leU32 e i)) ↔ sb.asBytes.length < i.toNat+SLACK) ∧
    (¬ sb.asBytes.length < i.toNat+SLACK →
      ∃ x t, run (store sb.bytes) (sb.leU32 e i) = .ok (x, t) ∧
        ∀ j ∈ reads t, j < sb.asBytes.length) := by
  refine ⟨(leU32_guarded e sb i).panics_iff.trans not_le,fun h => ?_⟩
  have hr := leU32_returns e (not_lt.mp h)
  exact ⟨_,_,hr,fun j hj => run_store_lt hr hj⟩

theorem new_methods {w : ℕ} (buf : Bytes w) :
    ((new buf = none ↔ buf.bytes.length < SLACK) ∧
      ∀ sb, new buf = some sb → sb.asBytes = buf.bytes) ∧
    (Panics (run (store []) (newEmbeddedSlack buf)) ↔ buf.bytes.length < SLACK) ∧
      ∀ sb t, run (store []) (newEmbeddedSlack buf) = .ok (sb, t) → sb.asBytes = buf.bytes := by
  have hpanics := (newEmbeddedSlack_guarded buf).panics_iff.trans not_le
  by_cases h : SLACK ≤ buf.bytes.length
  · rw [new, newEmbeddedSlack, dif_pos h, dif_pos h]
    rw [newEmbeddedSlack, dif_pos h] at hpanics
    refine ⟨⟨by simp [h],fun sb hsb => ?_⟩,hpanics,fun sb t hsb => ?_⟩
    · obtain rfl := Option.some.inj hsb
      rfl
    · obtain ⟨rfl,-⟩ := run_done_ok.mp hsb
      rfl
  · have hp : run (store []) (newEmbeddedSlack buf) = .error (.fault .panic) :=
      (newEmbeddedSlack_guarded buf).2 h
    rw [new, dif_neg h]
    refine ⟨⟨iff_of_true rfl (not_le.mp h),fun sb hsb => ?_⟩,hpanics,fun sb t hsb => ?_⟩
    · cases hsb
    · rw [hp] at hsb
      cases hsb

/-- `new_add_slack` keeps the vector's bytes in front as the whole payload, and
panics only where the longer vector could not exist. -/
theorem newAddSlack_payload {w : ℕ} (v : Bytes w) :
    (Panics (run (store []) (newAddSlack v)) ↔ 2^(w-1) ≤ v.bytes.length+SLACK) ∧
    ∀ sb t, run (store []) (newAddSlack v) = .ok (sb, t) →
      sb.asBytes = v.bytes++List.replicate SLACK 0 ∧ sb.payloadLen.toNat = v.bytes.length := by
  refine ⟨(newAddSlack_guarded v).panics_iff.trans not_lt,fun sb t hsb => ?_⟩
  have hlen : (v.bytes++List.replicate SLACK 0).length = v.bytes.length+SLACK := by simp
  rw [newAddSlack] at hsb
  split_ifs at hsb with h
  · obtain ⟨rfl,-⟩ := run_done_ok.mp hsb
    exact ⟨rfl,Nat.add_right_cancel ((payloadLen_toNat _).trans hlen)⟩
  · cases hsb

/-- The safe interface in a build with right validators: what each method does
on every argument, what the constructors establish, and how any sequence of
calls ends. -/
theorem slackBuf_sound (B : Build) (X : Externs) (hB : B.Sound X) :
    (∀ (sb : SlackBuf B.pointerWidth) (r : RangeUsize B.pointerWidth),
      (Panics (run (store sb.bytes) (sb.verify B X r)) ↔
        r.stop.toNat < r.start.toNat ∨ sb.asBytes.length < r.stop.toNat+SLACK) ∧
      (Panics (run (store sb.bytes) (sb.toStr B X r)) ↔
        r.stop.toNat < r.start.toNat ∨ sb.asBytes.length < r.stop.toNat+SLACK) ∧
      (¬ (r.stop.toNat < r.start.toNat ∨ sb.asBytes.length < r.stop.toNat+SLACK) →
        ∃ v t o u u', run (store sb.bytes) (sb.verify B X r) = .ok (v, t) ∧
          (v = true ↔ WellFormed (slice sb.asBytes r.start.toNat r.stop.toNat)) ∧
          run (store sb.bytes) (sb.toStr B X r) = .ok (o, u) ∧
          o = (if v then some (slice sb.asBytes r.start.toNat r.stop.toNat) else none) ∧
          run (store (slice sb.asBytes r.start.toNat r.stop.toNat))
            (fromUtf8 B X (slice sb.asBytes r.start.toNat r.stop.toNat)) = .ok (o, u'))) ∧
    (∀ (sb : SlackBuf B.pointerWidth) (i : BitVec B.pointerWidth),
      (Panics (run (store sb.bytes) (sb.leU32 B.endian i)) ↔
        sb.asBytes.length < i.toNat+SLACK) ∧
      (¬ sb.asBytes.length < i.toNat+SLACK →
        ∃ x t, run (store sb.bytes) (sb.leU32 B.endian i) = .ok (x, t) ∧
          ∀ j ∈ reads t, j < sb.asBytes.length)) ∧
    (∀ sb : SlackBuf B.pointerWidth, sb.payloadLen.toNat+SLACK = sb.asBytes.length) ∧
    (∀ buf : Bytes B.pointerWidth,
      ((new buf = none ↔ buf.bytes.length < SLACK) ∧
        ∀ sb, new buf = some sb → sb.asBytes = buf.bytes) ∧
      (Panics (run (store []) (newEmbeddedSlack buf)) ↔ buf.bytes.length < SLACK) ∧
        ∀ sb t, run (store []) (newEmbeddedSlack buf) = .ok (sb, t) → sb.asBytes = buf.bytes) ∧
    (∀ v : Bytes B.pointerWidth,
      (Panics (run (store []) (newAddSlack v)) ↔
        2^(B.pointerWidth-1) ≤ v.bytes.length+SLACK) ∧
      ∀ sb t, run (store []) (newAddSlack v) = .ok (sb, t) →
        sb.asBytes = v.bytes++List.replicate SLACK 0 ∧
          sb.payloadLen.toNat = v.bytes.length) ∧
    ∀ cs : List (Call B.pointerWidth), ∀ reply ∈ session B X [] cs,
      (∃ t, reply = .ok t) ∨ reply = .error (.fault .panic) :=
  ⟨range_methods hB,leU32_methods B.endian,payloadLen_toNat,new_methods,newAddSlack_payload,
    session_clean hB []⟩

def eAcute : SlackBuf 64 :=
  ⟨⟨[0xC3, 0xA9]++List.replicate 8 0xFF,by decide⟩,by decide⟩

theorem slackBuf_sound_eAcute :
    (∃ t u, run (store eAcute.bytes)
        (eAcute.verify (portable .little) ⟨isValidUtf8,isValidUtf8⟩ ⟨0,2⟩) = .ok (true, t) ∧
      run (store eAcute.bytes)
        (eAcute.toStr (portable .little) ⟨isValidUtf8,isValidUtf8⟩ ⟨0,2⟩) =
          .ok (some [0xC3, 0xA9], u)) ∧
    Panics (run (store eAcute.bytes)
      (eAcute.verify (portable .little) ⟨isValidUtf8,isValidUtf8⟩ ⟨2,1⟩)) ∧
    Panics (run (store eAcute.bytes)
      (eAcute.toStr (portable .little) ⟨isValidUtf8,isValidUtf8⟩ ⟨0,BitVec.allOnes 64⟩)) ∧
    Panics (run (store eAcute.bytes) (eAcute.leU32 .little 3)) := by
  have h := slackBuf_sound (portable .little) ⟨isValidUtf8,isValidUtf8⟩ (portable_sound _ _)
  have hword : WellFormed [0xC3, 0xA9] := by decide
  refine ⟨?_,(h.1 eAcute ⟨2,1⟩).1.mpr (by decide),(h.1 eAcute ⟨0,_⟩).2.1.mpr (by decide),
    (h.2.1 eAcute 3).1.mpr (by decide)⟩
  obtain ⟨v,t,o,u,u',hr,hv,hu,ho,-⟩ := (h.1 eAcute ⟨0,2⟩).2.2 (by decide)
  obtain rfl : v = true := hv.mpr hword
  exact ⟨t,u,hr,hu.trans (by rw [ho]; rfl)⟩

end SmoothUtf8.SlackBufApi
