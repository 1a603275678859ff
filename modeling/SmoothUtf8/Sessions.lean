import SmoothUtf8.Library.Service
import SmoothUtf8.LittleEndian

/-!
# What a client sees

The whole public interface as a service: the free functions, the constructors
and the methods of the buffers held so far, each with the value it returns. It
refines a service that runs no program: that one keeps lists of bytes, computes
in unbounded numbers and asks the row grammar. So two builds with right
validators cannot be told apart by any history of calls.
-/

set_option autoImplicit false

namespace SmoothUtf8.Sessions
open Library.CheckedProgram Library.Slice Library.Service
open LeafLoads Table37 EntryPoints SlackBufApi LittleEndian

def toStr (B : Build) (X : Externs) (b : Buf) : Exec (Option (List UInt8)) := fromUtf8 B X b

/-- `new_unchecked`, whose contract is a debug assertion. -/
def newUnchecked {w : ℕ} (buf : Bytes w) : Exec (SlackBuf w) :=
  if h : SLACK ≤ buf.bytes.length then pure ⟨buf,h⟩ else .fault .assertion

inductive Request (w : ℕ) where
  | verify (b : Bytes w)
  | fromUtf8 (b : Bytes w)
  | toStr (b : Bytes w)
  | verifyWithSlack (buf : Bytes w) (range : RangeUsize w)
  | newUnchecked (buf : Bytes w)
  | new (buf : Bytes w)
  | newEmbeddedSlack (buf : Bytes w)
  | newAddSlack (v : Bytes w)
  | asBytes (k : ℕ)
  | payloadLen (k : ℕ)
  | slackVerify (k : ℕ) (range : RangeUsize w)
  | slackToStr (k : ℕ) (range : RangeUsize w)
  | leU32 (k : ℕ) (i : BitVec w)

inductive Answer where
  | verdict (v : Bool)
  | str (s : Option (List UInt8))
  | wrapped (some : Bool)
  | bytes (s : List UInt8)
  | number (n : ℕ)
  | absent
  | panic
  | broken (s : Stop Fault)
  deriving DecidableEq

def answer {α : Type} (f : α → Answer) : Outcome Mark Fault α → Answer
  | .ok (a, _) => f a
  | .error (.fault .panic) => .panic
  | .error s => .broken s

section Serve

variable {w : ℕ}

def hold (sbs : List (SlackBuf w)) :
    Outcome Mark Fault (SlackBuf w) → List (SlackBuf w) × Answer
  | .ok (sb, _) => (sbs++[sb], .wrapped true)
  | .error s => (sbs, answer (fun _ : Unit => .absent) (.error s))

def ask {σ α : Type} (bytes : σ → Buf) (sbs : List σ) (k : ℕ) (f : α → Answer)
    (method : σ → Exec α) : Answer :=
  match sbs[k]? with
  | some sb => answer f (run (store (bytes sb)) (method sb))
  | none => .absent

end Serve

def serve (B : Build) (X : Externs) (sbs : List (SlackBuf B.pointerWidth)) :
    Request B.pointerWidth → List (SlackBuf B.pointerWidth) × Answer
  | .verify b => (sbs, answer .verdict (run (store b.bytes) (EntryPoints.verify B X b.bytes)))
  | .fromUtf8 b => (sbs, answer .str (run (store b.bytes) (EntryPoints.fromUtf8 B X b.bytes)))
  | .toStr b => (sbs, answer .str (run (store b.bytes) (toStr B X b.bytes)))
  | .verifyWithSlack buf range => (sbs, answer .verdict (run (store buf.bytes)
      (EntryPoints.verifyWithSlack B X buf.bytes range.start.toNat range.stop.toNat)))
  | .newUnchecked buf => hold sbs (run (store []) (newUnchecked buf))
  | .new buf => (sbs++(new buf).toList, .wrapped (new buf).isSome)
  | .newEmbeddedSlack buf => hold sbs (run (store []) (newEmbeddedSlack buf))
  | .newAddSlack v => hold sbs (run (store []) (newAddSlack v))
  | .asBytes k => (sbs, ask SlackBuf.asBytes sbs k .bytes (fun sb => pure sb.asBytes))
  | .payloadLen k =>
    (sbs, ask SlackBuf.asBytes sbs k .number (fun sb => pure sb.payloadLen.toNat))
  | .slackVerify k range =>
    (sbs, ask SlackBuf.asBytes sbs k .verdict (fun sb => sb.verify B X range))
  | .slackToStr k range => (sbs, ask SlackBuf.asBytes sbs k .str (fun sb => sb.toStr B X range))
  | .leU32 k i => (sbs, ask SlackBuf.asBytes sbs k (fun x => .number x.toNat)
      (fun sb => sb.leU32 B.endian i))

def Allowed {w : ℕ} : Request w → Prop
  | .verifyWithSlack buf range => range.start.toNat ≤ range.stop.toNat ∧
      range.stop.toNat+SLACK ≤ buf.bytes.length
  | .newUnchecked buf => SLACK ≤ buf.bytes.length
  | _ => True

def rangeAnswer (f : List UInt8 → Answer) (b : Buf) (start stop : ℕ) : Answer :=
  if start ≤ stop ∧ stop+SLACK ≤ b.length then f (slice b start stop) else .panic

def specStr (b : Buf) : Answer := .str (if WellFormed b then some b else none)

def specVerdict (b : Buf) : Answer := .verdict (decide (WellFormed b))

def specAsk (held : List Buf) (k : ℕ) (f : Buf → Answer) : Answer :=
  match held[k]? with
  | some b => f b
  | none => .absent

/-- The interface as it is meant: no program, no machine word, no build. -/
def spec {w : ℕ} (held : List Buf) : Request w → List Buf × Answer
  | .verify b => (held, specVerdict b.bytes)
  | .fromUtf8 b => (held, specStr b.bytes)
  | .toStr b => (held, specStr b.bytes)
  | .verifyWithSlack buf range =>
    (held, specVerdict (slice buf.bytes range.start.toNat range.stop.toNat))
  | .newUnchecked buf => (held++[buf.bytes], .wrapped true)
  | .new buf =>
    if SLACK ≤ buf.bytes.length then (held++[buf.bytes], .wrapped true)
    else (held, .wrapped false)
  | .newEmbeddedSlack buf =>
    if SLACK ≤ buf.bytes.length then (held++[buf.bytes], .wrapped true) else (held, .panic)
  | .newAddSlack v =>
    if v.bytes.length+SLACK < 2^(w-1) then
      (held++[v.bytes++List.replicate SLACK 0], .wrapped true)
    else (held, .panic)
  | .asBytes k => (held, specAsk held k .bytes)
  | .payloadLen k => (held, specAsk held k (fun b => .number (b.length-SLACK)))
  | .slackVerify k range => (held, specAsk held k
      (fun b => rangeAnswer specVerdict b range.start.toNat range.stop.toNat))
  | .slackToStr k range => (held, specAsk held k
      (fun b => rangeAnswer specStr b range.start.toNat range.stop.toNat))
  | .leU32 k i => (held, specAsk held k (fun b =>
      if i.toNat+SLACK ≤ b.length then .number (littleEndian b i.toNat 4) else .panic))

theorem answer_ok {α : Type} {f : α → Answer} {o : Outcome Mark Fault α} {a : α} {t : Log}
    (h : o = .ok (a, t)) : answer f o = f a := by
  rw [h, answer]

theorem answer_panics {α : Type} {f : α → Answer} {o : Outcome Mark Fault α} (h : Panics o) :
    answer f o = .panic := by
  rw [Panics] at h
  rw [h, answer]

theorem answer_verdict {o : Outcome Mark Fault Bool} {v : Bool} {t : Log} {b : Buf}
    (h : o = .ok (v, t)) (hv : v = true ↔ WellFormed b) : answer .verdict o = specVerdict b := by
  have hdecide : v = decide (WellFormed b) := Bool.eq_iff_iff.mpr (hv.trans decide_eq_true_iff.symm)
  rw [answer_ok h, hdecide, specVerdict]

theorem answer_str {o : Outcome Mark Fault (Option (List UInt8))} {v : Bool} {t : Log} {b : Buf}
    (h : o = .ok (if v then some b else none, t)) (hv : v = true ↔ WellFormed b) :
    answer .str o = specStr b := by
  rw [answer_ok h, specStr]
  by_cases hb : WellFormed b
  · rw [if_pos hb, if_pos (hv.mpr hb)]
  · rw [if_neg hb, if_neg (fun h => hb (hv.mp h))]

section Methods

variable {w : ℕ}

theorem ask_some {σ α : Type} {bytes : σ → Buf} {sbs : List σ} {k : ℕ} {sb : σ}
    (h : sb ∈ sbs[k]?) (f : α → Answer) (method : σ → Exec α) :
    ask bytes sbs k f method = answer f (run (store (bytes sb)) (method sb)) := by
  rw [ask, Option.mem_def.mp h]

theorem ask_spec {σ α : Type} {bytes : σ → Buf} {sbs : List σ} {k : ℕ} {f : α → Answer}
    {method : σ → Exec α} {g : Buf → Answer}
    (h : ∀ sb ∈ sbs[k]?, answer f (run (store (bytes sb)) (method sb)) = g (bytes sb)) :
    ask bytes sbs k f method = specAsk (sbs.map bytes) k g := by
  rw [ask, specAsk, List.getElem?_map]
  cases hk : sbs[k]? with
  | none => rfl
  | some sb => exact h sb hk

theorem hold_spec {c : Prop} [Decidable c] {o : Outcome Mark Fault (SlackBuf w)} {b : Buf}
    (h : Guarded c o) (hb : ∀ sb t, o = .ok (sb, t) → sb.bytes = b) (sbs : List (SlackBuf w)) :
    (hold sbs o).2 =
        (if c then (sbs.map (fun sb => sb.bytes)++[b], Answer.wrapped true)
          else (sbs.map (fun sb => sb.bytes), .panic)).2 ∧
      (if c then (sbs.map (fun sb => sb.bytes)++[b], Answer.wrapped true)
        else (sbs.map (fun sb => sb.bytes), .panic)).1 =
        (hold sbs o).1.map (fun sb => sb.bytes) := by
  by_cases hc : c
  · obtain ⟨sb,t,ho⟩ := h.1 hc
    rw [if_pos hc, ho, hold, List.map_append, ← hb sb t ho]
    exact ⟨rfl,rfl⟩
  · have hp := h.2 hc
    rw [Panics] at hp
    rw [if_neg hc, hp, hold]
    exact ⟨rfl,rfl⟩

theorem newEmbeddedSlack_spec (sbs : List (SlackBuf w)) (buf : Bytes w) :
    (hold sbs (run (store []) (newEmbeddedSlack buf))).2 =
        (spec (sbs.map (fun sb => sb.bytes)) (.newEmbeddedSlack buf)).2 ∧
      (spec (sbs.map (fun sb => sb.bytes)) (.newEmbeddedSlack buf)).1 =
        (hold sbs (run (store []) (newEmbeddedSlack buf))).1.map (fun sb => sb.bytes) :=
  hold_spec (newEmbeddedSlack_guarded buf) (new_methods buf).2.2 sbs

theorem newAddSlack_spec (sbs : List (SlackBuf w)) (v : Bytes w) :
    (hold sbs (run (store []) (newAddSlack v))).2 =
        (spec (sbs.map (fun sb => sb.bytes)) (.newAddSlack v)).2 ∧
      (spec (sbs.map (fun sb => sb.bytes)) (.newAddSlack v)).1 =
        (hold sbs (run (store []) (newAddSlack v))).1.map (fun sb => sb.bytes) :=
  hold_spec (newAddSlack_guarded v) (fun sb t h => ((newAddSlack_payload v).2 sb t h).1) sbs

end Methods

section Build

variable {B : Build} {X : Externs}

theorem fromUtf8_spec (hB : B.Sound X) (b : Buf) :
    answer .str (run (store b) (EntryPoints.fromUtf8 B X b)) = specStr b := by
  obtain ⟨v,t,hr,hv⟩ := verify_valid hB b
  have hfrom := Encoding.fromUtf8_run hr
  cases v with
  | true => exact answer_str (v := true) hfrom hv
  | false => exact answer_str (v := false) hfrom hv

theorem rangeAnswer_inside (f : List UInt8 → Answer) {sb : SlackBuf B.pointerWidth}
    {r : RangeUsize B.pointerWidth} (h : Inside sb r) :
    rangeAnswer f sb.bytes r.start.toNat r.stop.toNat =
      f (slice sb.bytes r.start.toNat r.stop.toNat) := if_pos h

theorem rangeAnswer_outside (f : List UInt8 → Answer) {sb : SlackBuf B.pointerWidth}
    {r : RangeUsize B.pointerWidth} (h : ¬ Inside sb r) :
    rangeAnswer f sb.bytes r.start.toNat r.stop.toNat = .panic := if_neg h

theorem slackVerify_spec (hB : B.Sound X) (r : RangeUsize B.pointerWidth)
    (sb : SlackBuf B.pointerWidth) :
    answer .verdict (run (store sb.bytes) (sb.verify B X r)) =
      rangeAnswer specVerdict sb.bytes r.start.toNat r.stop.toNat := by
  by_cases h : Inside sb r
  · obtain ⟨v,t,hr,hv⟩ := verify_returns hB h
    rw [rangeAnswer_inside _ h]
    exact answer_verdict hr hv
  · rw [rangeAnswer_outside _ h]
    exact answer_panics (verify_panics h)

theorem slackToStr_spec (hB : B.Sound X) (r : RangeUsize B.pointerWidth)
    (sb : SlackBuf B.pointerWidth) :
    answer .str (run (store sb.bytes) (sb.toStr B X r)) =
      rangeAnswer specStr sb.bytes r.start.toNat r.stop.toNat := by
  by_cases h : Inside sb r
  · obtain ⟨v,t,hr,hv⟩ := verify_returns hB h
    obtain ⟨u,hu⟩ := toStr_returns h hr
    rw [rangeAnswer_inside _ h]
    exact answer_str hu hv
  · rw [rangeAnswer_outside _ h]
    exact answer_panics ((toStr_guarded hB sb r).2 h)

theorem leU32_spec (i : BitVec B.pointerWidth) (sb : SlackBuf B.pointerWidth) :
    answer (fun x => .number x.toNat) (run (store sb.bytes) (sb.leU32 B.endian i)) =
      if i.toNat+SLACK ≤ sb.bytes.length then .number (littleEndian sb.bytes i.toNat 4)
      else .panic := by
  by_cases h : i.toNat+SLACK ≤ sb.bytes.length
  · have h4 := SLACK_ge
    rw [if_pos h, answer_ok (leU32_returns B.endian h), toNat_pack (by omega)]
  · rw [if_neg h]
    exact answer_panics ((leU32_guarded B.endian sb i).2 h)

theorem payloadLen_spec (sb : SlackBuf B.pointerWidth) :
    sb.payloadLen.toNat = sb.bytes.length-SLACK := by
  have h := payloadLen_toNat sb
  omega

/-- One call is answered as it is meant, and the buffers held stay the same lists
of bytes. -/
theorem serve_refines (hB : B.Sound X) :
    Refines (fun sbs held => held = sbs.map (fun sb => sb.bytes)) Allowed (serve B X) spec := by
  rintro sbs _ r rfl hr
  cases r with
  | verify b =>
    obtain ⟨v,t,hr,hv⟩ := verify_valid hB b.bytes
    exact ⟨answer_verdict hr hv,rfl⟩
  | fromUtf8 b => exact ⟨fromUtf8_spec hB b.bytes,rfl⟩
  | toStr b => exact ⟨fromUtf8_spec hB b.bytes,rfl⟩
  | verifyWithSlack buf range =>
    obtain ⟨v,t,hr,hv⟩ := verifyWithSlack_valid hB hr.1 hr.2
    exact ⟨answer_verdict hr hv,rfl⟩
  | newUnchecked buf =>
    have hlen : SLACK ≤ buf.bytes.length := hr
    rw [serve, newUnchecked, dif_pos hlen]
    exact ⟨rfl,by simp [spec, hold, run]⟩
  | new buf =>
    rw [serve, spec, SlackBufApi.new]
    by_cases h : SLACK ≤ buf.bytes.length
    · simp [h]
    · simp [h]
  | newEmbeddedSlack buf => exact newEmbeddedSlack_spec sbs buf
  | newAddSlack v => exact newAddSlack_spec sbs v
  | asBytes k => exact ⟨ask_spec (fun sb _ => rfl),rfl⟩
  | payloadLen k => exact ⟨ask_spec (fun sb _ => congrArg _ (payloadLen_spec sb)),rfl⟩
  | slackVerify k range => exact ⟨ask_spec (fun sb _ => slackVerify_spec hB range sb),rfl⟩
  | slackToStr k range => exact ⟨ask_spec (fun sb _ => slackToStr_spec hB range sb),rfl⟩
  | leU32 k i => exact ⟨ask_spec (fun sb _ => leU32_spec i sb),rfl⟩

end Build

/-- Any history of calls that keeps the contracts of the unsafe functions is
answered by a build with right validators as it is meant. -/
theorem sessions_refine (B : Build) (X : Externs) (hB : B.Sound X)
    (rs : List (Request B.pointerWidth)) (hrs : ∀ r ∈ rs, Allowed r) :
    answers (serve B X) [] rs = answers spec [] rs :=
  ((serve_refines hB).history rfl rs hrs).1

theorem sessions_refine_eAcute :
    answers (serve (portable .big) ⟨isValidUtf8,isValidUtf8⟩) []
      [.newAddSlack ⟨[0x41,0xC3,0xA9],by decide⟩,.slackToStr 0 ⟨1,3⟩,.slackVerify 0 ⟨1,2⟩,
        .slackVerify 0 ⟨2,1⟩,.leU32 0 1,.payloadLen 0,.asBytes 1] =
      [.wrapped true,.str (some [0xC3,0xA9]),.verdict false,.panic,.number 0xA9C3,.number 3,
        .absent] := by
  rw [sessions_refine (portable .big) ⟨isValidUtf8,isValidUtf8⟩ (portable_sound _ _) _
    (by simp [Allowed])]
  decide

end SmoothUtf8.Sessions
