import SmoothUtf8.Sessions

/-!
# The two copies of the wrapper

The source keeps the wrapper twice: a copy whose lengths and ranges are
preconditions that a checker proves, and the copy that is published, where they
are assertions and an invariant of the type. The published copy is the checked
one behind a guard: on any history it answers as the checked copy where the
precondition holds, and panics and keeps its buffers elsewhere.
-/

set_option autoImplicit false

namespace SmoothUtf8.VerusSurface
open Library.CheckedProgram Library.Slice Library.Service
open LeafLoads Table37 EntryPoints SlackBufApi Sessions

abbrev SlackBuf (w : ℕ) := Bytes w

section Methods

variable {w : ℕ}

def newUnchecked (buf : Bytes w) : SlackBuf w := buf

def newEmbeddedSlack (buf : Bytes w) : SlackBuf w := buf

def asBytes (sb : SlackBuf w) : Buf := sb.bytes

def payloadLen (sb : SlackBuf w) : BitVec w :=
  BitVec.ofNat w sb.bytes.length-BitVec.ofNat w SLACK

def verify (V : Build) (Y : Externs) (sb : SlackBuf w) (range : RangeUsize w) : Exec Bool :=
  verifyWithSlack V Y sb.bytes range.start.toNat range.stop.toNat

end Methods

inductive Shared (w : ℕ) where
  | newUnchecked (buf : Bytes w)
  | newEmbeddedSlack (buf : Bytes w)
  | asBytes (k : ℕ)
  | payloadLen (k : ℕ)
  | verify (k : ℕ) (range : RangeUsize w)

section Surface

variable {w : ℕ}

def Shared.published : Shared w → Request w
  | .newUnchecked buf => .newUnchecked buf
  | .newEmbeddedSlack buf => .newEmbeddedSlack buf
  | .asBytes k => .asBytes k
  | .payloadLen k => .payloadLen k
  | .verify k range => .slackVerify k range

def checked (V : Build) (Y : Externs) (sbs : List (SlackBuf w)) :
    Shared w → List (SlackBuf w) × Answer
  | .newUnchecked buf => (sbs++[newUnchecked buf], .wrapped true)
  | .newEmbeddedSlack buf => (sbs++[newEmbeddedSlack buf], .wrapped true)
  | .asBytes k => (sbs, ask asBytes sbs k .bytes (fun sb => pure (asBytes sb)))
  | .payloadLen k => (sbs, ask asBytes sbs k .number (fun sb => pure (payloadLen sb).toNat))
  | .verify k range => (sbs, ask asBytes sbs k .verdict (fun sb => verify V Y sb range))

def Requires (sbs : List (SlackBuf w)) : Shared w → Prop
  | .newUnchecked buf => SLACK ≤ buf.bytes.length
  | .newEmbeddedSlack buf => SLACK ≤ buf.bytes.length
  | .asBytes _ => True
  | .payloadLen k => ∀ sb ∈ sbs[k]?, SLACK ≤ sb.bytes.length
  | .verify k range => ∀ sb ∈ sbs[k]?, range.start.toNat ≤ range.stop.toNat ∧
      range.stop.toNat+SLACK ≤ sb.bytes.length

instance (sbs : List (SlackBuf w)) : (r : Shared w) → Decidable (Requires sbs r)
  | .newUnchecked buf => inferInstanceAs (Decidable (SLACK ≤ buf.bytes.length))
  | .newEmbeddedSlack buf => inferInstanceAs (Decidable (SLACK ≤ buf.bytes.length))
  | .asBytes _ => .isTrue trivial
  | .payloadLen k => inferInstanceAs (Decidable (∀ sb ∈ sbs[k]?, SLACK ≤ sb.bytes.length))
  | .verify k range => inferInstanceAs (Decidable (∀ sb ∈ sbs[k]?,
      range.start.toNat ≤ range.stop.toNat ∧ range.stop.toNat+SLACK ≤ sb.bytes.length))

def Ensures (sbs : List (SlackBuf w)) : Shared w → List (SlackBuf w) × Answer → Prop
  | .newUnchecked buf, r => r = (sbs++[buf], .wrapped true)
  | .newEmbeddedSlack buf, r => r = (sbs++[buf], .wrapped true)
  | .asBytes k, r => r.1 = sbs ∧ ∀ sb ∈ sbs[k]?, r.2 = .bytes sb.bytes
  | .payloadLen k, r => r.1 = sbs ∧ ∀ sb ∈ sbs[k]?, r.2 = .number (sb.bytes.length-SLACK)
  | .verify k range, r => r.1 = sbs ∧ ∀ sb ∈ sbs[k]?, r.2 = .verdict
      (isValidUtf8 (slice sb.bytes range.start.toNat range.stop.toNat))

theorem payloadLen_long {sb : SlackBuf w} (h : SLACK ≤ sb.bytes.length) :
    (payloadLen sb).toNat = sb.bytes.length-SLACK := by
  have hlen : (payloadLen sb).toNat+SLACK = sb.bytes.length := payloadLen_toNat ⟨sb,h⟩
  omega

theorem verify_long {V : Build} {Y : Externs} (hV : V.Sound Y) {sb : SlackBuf w}
    {range : RangeUsize w} (h : range.start.toNat ≤ range.stop.toNat ∧
      range.stop.toNat+SLACK ≤ sb.bytes.length) :
    answer .verdict (run (store sb.bytes) (verify V Y sb range)) =
      specVerdict (slice sb.bytes range.start.toNat range.stop.toNat) := by
  obtain ⟨v,t,hr,hv⟩ := verifyWithSlack_valid hV h.1 h.2
  exact answer_verdict hr hv

theorem checked_ensures {V : Build} {Y : Externs} (hV : V.Sound Y) (sbs : List (SlackBuf w))
    (r : Shared w) (h : Requires sbs r) : Ensures sbs r (checked V Y sbs r) := by
  cases r with
  | newUnchecked buf => rfl
  | newEmbeddedSlack buf => rfl
  | asBytes k =>
    constructor
    · rfl
    · intro sb hsb
      exact ask_some hsb .bytes _
  | payloadLen k =>
    constructor
    · rfl
    · intro sb hsb
      have hlen := payloadLen_long (h sb hsb)
      rw [← hlen]
      exact ask_some hsb .number _
  | verify k range =>
    constructor
    · rfl
    · intro sb hsb
      have hverdict : checked V Y sbs (.verify k range) = (sbs, _) :=
        congrArg _ ((ask_some hsb .verdict _).trans (verify_long hV (h sb hsb)))
      have hgrammar := isValidUtf8_iff (slice sb.bytes range.start.toNat range.stop.toNat)
      rw [hverdict, specVerdict, Bool.eq_iff_iff.mpr (hgrammar.trans decide_eq_true_iff.symm)]

def Slacked (sbs : List (SlackBuf w)) (held : List Buf) : Prop :=
  held = sbs.map (fun sb => sb.bytes) ∧ ∀ sb ∈ sbs, SLACK ≤ sb.bytes.length

theorem Slacked.wrap {sbs : List (SlackBuf w)} {held : List Buf} (h : Slacked sbs held)
    {buf : Bytes w} (hbuf : SLACK ≤ buf.bytes.length) :
    Slacked (sbs++[buf]) (held++[buf.bytes]) := by
  constructor
  · rw [h.1, List.map_append]
    rfl
  · intro sb hsb
    rcases List.mem_append.mp hsb with hsb | hsb
    · exact h.2 sb hsb
    · rw [List.mem_singleton.mp hsb]
      exact hbuf

theorem Slacked.lookup {sbs : List (SlackBuf w)} {held : List Buf} (h : Slacked sbs held)
    (k : ℕ) : held[k]? = sbs[k]?.map (fun sb => sb.bytes) := by
  rw [h.1, List.getElem?_map]

theorem Slacked.ask_specAsk {sbs : List (SlackBuf w)} {held : List Buf} (h : Slacked sbs held)
    {k : ℕ} {α : Type} {f : α → Answer} {method : SlackBuf w → Exec α} {g : Buf → Answer}
    (hg : ∀ sb ∈ sbs[k]?, answer f (run (store sb.bytes) (method sb)) = g sb.bytes) :
    ask asBytes sbs k f method = specAsk held k g := by
  rw [h.1]
  exact ask_spec hg

end Surface

section Copies

variable {V : Build} {Y : Externs} {w : ℕ}

/-- Behind the guard the checked copy answers one call as it is meant. -/
theorem guarded_refines (hV : V.Sound Y) :
    Refines Slacked (fun r : Shared w => Allowed r.published)
      (guarded Requires .panic (checked V Y)) (fun held r => spec held r.published) := by
  intro sbs held r hs hr
  cases r with
  | newUnchecked buf =>
    have hlen : Requires sbs (.newUnchecked buf) := hr
    rw [guarded_pass _ hlen]
    exact ⟨rfl,hs.wrap hlen⟩
  | newEmbeddedSlack buf =>
    simp only [Shared.published, spec]
    by_cases hlen : Requires sbs (.newEmbeddedSlack buf)
    · rw [guarded_pass _ hlen, if_pos (show SLACK ≤ buf.bytes.length from hlen)]
      exact ⟨rfl,hs.wrap hlen⟩
    · rw [guarded_refuse _ hlen, if_neg (show ¬ SLACK ≤ buf.bytes.length from hlen)]
      exact ⟨rfl,hs⟩
  | asBytes k =>
    rw [guarded_pass (r := Shared.asBytes k) _ trivial]
    exact ⟨hs.ask_specAsk (fun sb _ => rfl),hs⟩
  | payloadLen k =>
    have hlen : Requires sbs (.payloadLen k) := fun sb hsb => hs.2 sb (List.mem_of_getElem? hsb)
    rw [guarded_pass _ hlen]
    exact ⟨hs.ask_specAsk (fun sb hsb => congrArg _ (payloadLen_long (hlen sb hsb))),hs⟩
  | verify k range =>
    by_cases h : Requires sbs (.verify k range)
    · rw [guarded_pass _ h]
      constructor
      · apply hs.ask_specAsk
        intro sb hsb
        rw [rangeAnswer, if_pos (h sb hsb)]
        exact verify_long hV (h sb hsb)
      · exact hs
    · rw [guarded_refuse _ h]
      constructor
      · simp only [Requires, not_forall] at h
        obtain ⟨sb,hsb,h⟩ := h
        have hk : held[k]? = some sb.bytes := by rw [hs.lookup, Option.mem_def.mp hsb]; rfl
        simp only [Shared.published, spec, specAsk, hk]
        rw [rangeAnswer, if_neg h]
      · exact hs

def published (B : Build) (X : Externs) (sbs : List (SlackBufApi.SlackBuf B.pointerWidth))
    (r : Shared B.pointerWidth) : List (SlackBufApi.SlackBuf B.pointerWidth) × Answer :=
  serve B X sbs r.published

/-- The published wrapper is the checked one with its preconditions asserted: any
history that keeps the contract of the unsafe constructor is answered alike by both, and
ends with the same bytes held. A history that meets the preconditions is answered as by the
checked copy bare, whose every call keeps its `ensures` clause. -/
theorem copies_in_sync (B : Build) (X : Externs) (hB : B.Sound X) (V : Build) (Y : Externs)
    (hV : V.Sound Y) (rs : List (Shared B.pointerWidth))
    (hrs : ∀ r ∈ rs, Allowed r.published) :
    answers (published B X) [] rs = answers (guarded Requires .panic (checked V Y)) [] rs ∧
    (final (published B X) [] rs).map (fun sb => sb.bytes) =
      (final (guarded Requires .panic (checked V Y)) [] rs).map (fun sb => sb.bytes) ∧
    (Meets Requires (checked V Y) [] rs →
      answers (published B X) [] rs = answers (checked V Y) [] rs) ∧
    ∀ (sbs : List (SlackBuf B.pointerWidth)) (r : Shared B.pointerWidth), Requires sbs r →
      Ensures sbs r (checked V Y sbs r) := by
  have hpublished : Refines (fun sbs held => held = sbs.map (fun sb => sb.bytes))
      (fun r : Shared B.pointerWidth => Allowed r.published) (published B X)
      (fun held r => spec held r.published) :=
    fun sbs held r => serve_refines hB sbs held r.published
  have hleft := hpublished.history (s := []) (t := []) rfl rs hrs
  have hright := (guarded_refines hV).history (s := []) (t := []) ⟨rfl,by simp⟩ rs hrs
  have hsame := hleft.1.trans hright.1.symm
  refine ⟨hsame,hleft.2.symm.trans hright.2.1,fun h => ?_,checked_ensures hV⟩
  rw [hsame, guarded_answers .panic h]

/-- A buffer too short to wrap, a range that is inverted and one that reaches into the
slack: the published copy panics at each and answers the rest. -/
theorem copies_in_sync_refused :
    answers (published (portable .big) ⟨isValidUtf8,isValidUtf8⟩) []
      [.newEmbeddedSlack ⟨[0x41],by decide⟩,.newUnchecked ⟨0xC3::List.replicate 8 0xA9,by decide⟩,
        .verify 0 ⟨1,0⟩,.verify 0 ⟨0,2⟩,.payloadLen 0,.verify 0 ⟨0,1⟩] =
      [.panic,.wrapped true,.panic,.panic,.number 1,.verdict false] := by
  have h := (copies_in_sync (portable .big) ⟨isValidUtf8,isValidUtf8⟩ (portable_sound _ _)
    (portable .little) ⟨isValidUtf8,isValidUtf8⟩ (portable_sound _ _)
    [.newEmbeddedSlack ⟨[0x41],by decide⟩,.newUnchecked ⟨0xC3::List.replicate 8 0xA9,by decide⟩,
      .verify 0 ⟨1,0⟩,.verify 0 ⟨0,2⟩,.payloadLen 0,.verify 0 ⟨0,1⟩]
    (by simp [Allowed, Shared.published]; decide)).1
  rw [h]
  decide +kernel

end Copies

end SmoothUtf8.VerusSurface
