import SmoothUtf8.EntryPoints

/-!
# What the entry points accept

The portable build accepts exactly the well-formed strings, in a buffer of its
own or inside a larger one. All builds agree with it, and what is accepted can
be joined and cut at character boundaries.
-/

set_option autoImplicit false

namespace SmoothUtf8.Validity
open Library.CheckedProgram Library.Slice Library.PrefixCode
open LeafLoads Table37 AsciiSkip EntryPoints

/-- `verify` returns on every slice, and returns `true` exactly on the
concatenations of rows of the table. -/
theorem verify_iff_wellFormed (e : Endian) (X : Externs) (b : Buf) :
    ∃ v t, run (store b) (verify (portable e) X b) = .ok (v, t) ∧
      (v = true ↔ WellFormed b) ∧ v = isValidUtf8 b := by
  obtain ⟨v,t,hr,hv⟩ := verify_valid (portable_sound e X) b
  exact ⟨v,t,hr,hv,Bool.eq_iff_iff.mpr (hv.trans (isValidUtf8_iff b).symm)⟩

theorem slice_embedded (pre s post : Buf) :
    slice (pre++s++post) pre.length (pre.length+s.length) = s := by
  simp [slice]

/-- `verify_with_slack` judges the bytes of the range only: it agrees with
`verify` on the range cut out, and on the range moved between any other bytes. -/
theorem verifyWithSlack_iff_wellFormed (e : Endian) (X : Externs) (buf : Buf) (start stop : ℕ)
    (hs : start ≤ stop) (hlen : stop+SLACK ≤ buf.length) :
    ∃ v t, run (store buf) (verifyWithSlack (portable e) X buf start stop) = .ok (v, t) ∧
      (v = true ↔ WellFormed (slice buf start stop)) ∧
      (∃ u, run (store (slice buf start stop))
        (verify (portable e) X (slice buf start stop)) = .ok (v, u)) ∧
      ∀ pre post : Buf, SLACK ≤ post.length →
        ∃ u, run (store (pre++slice buf start stop++post))
          (verifyWithSlack (portable e) X (pre++slice buf start stop++post) pre.length
            (pre.length+(slice buf start stop).length)) = .ok (v, u) := by
  have hX := portable_sound e X
  obtain ⟨v,t,hr,hv⟩ := verifyWithSlack_valid hX hs hlen
  refine ⟨v,t,hr,hv,?_,?_⟩
  · obtain ⟨v',u,hu,hv'⟩ := verify_valid hX (slice buf start stop)
    obtain rfl : v' = v := Bool.eq_iff_iff.mpr (hv'.trans hv.symm)
    exact ⟨u,hu⟩
  · intro pre post hpost
    have hin : pre.length+(slice buf start stop).length+SLACK ≤
        (pre++slice buf start stop++post).length := by
      simp only [List.length_append]
      omega
    obtain ⟨v',u,hu,hv'⟩ := verifyWithSlack_valid hX (Nat.le_add_right _ _) hin
    rw [slice_embedded] at hv'
    obtain rfl : v' = v := Bool.eq_iff_iff.mpr (hv'.trans hv.symm)
    exact ⟨u,hu⟩

theorem verifyWithSlack_padded_field :
    ∃ t, run (store [0xFF,0x41,0xC3,0xA9,0xFF,0xFF,0xFF,0xFF,0xFF,0xFF,0xFF,0xFF])
      (verifyWithSlack (portable .little) ⟨isValidUtf8,isValidUtf8⟩
        [0xFF,0x41,0xC3,0xA9,0xFF,0xFF,0xFF,0xFF,0xFF,0xFF,0xFF,0xFF] 1 4) =
      .ok (true, t) := by
  obtain ⟨v,t,hr,hv,-⟩ := verifyWithSlack_iff_wellFormed .little ⟨isValidUtf8,isValidUtf8⟩
    [0xFF,0x41,0xC3,0xA9,0xFF,0xFF,0xFF,0xFF,0xFF,0xFF,0xFF,0xFF] 1 4 (by decide) (by decide)
  obtain rfl : v = true := hv.mpr (by decide)
  exact ⟨t,hr⟩

/-- Any two builds return, and return the same, from both entry points. -/
theorem builds_agree (X : Externs) (hX : X.Sound) (B B' : Build) :
    (∀ b : Buf, ∃ v t t', run (store b) (verify B X b) = .ok (v, t) ∧
      run (store b) (verify B' X b) = .ok (v, t')) ∧
    ∀ (buf : Buf) (start stop : ℕ), start ≤ stop → stop+SLACK ≤ buf.length →
      ∃ v t t', run (store buf) (verifyWithSlack B X buf start stop) = .ok (v, t) ∧
        run (store buf) (verifyWithSlack B' X buf start stop) = .ok (v, t') := by
  have hsound : ∀ C : Build, C.Sound X := fun C => C.sound_of hX
  constructor
  · intro b
    obtain ⟨v,t,hr,hv⟩ := verify_valid (hsound B) b
    obtain ⟨v',t',hr',hv'⟩ := verify_valid (hsound B') b
    obtain rfl : v' = v := Bool.eq_iff_iff.mpr (hv'.trans hv.symm)
    exact ⟨v',t,t',hr,hr'⟩
  · intro buf start stop hs hlen
    obtain ⟨v,t,hr,hv⟩ := verifyWithSlack_valid (hsound B) hs hlen
    obtain ⟨v',t',hr',hv'⟩ := verifyWithSlack_valid (hsound B') hs hlen
    obtain rfl : v' = v := Bool.eq_iff_iff.mpr (hv'.trans hv.symm)
    exact ⟨v',t,t',hr,hr'⟩

theorem portable_neon_agree :
    (∃ v t t', run (store (List.replicate 70 0x41))
        (verify (portable .little) ⟨isValidUtf8,isValidUtf8⟩ (List.replicate 70 0x41)) =
        .ok (v, t) ∧
      run (store (List.replicate 70 0x41))
        (verify ⟨.little,64,.neon,.shiftDfa,true,true⟩ ⟨isValidUtf8,isValidUtf8⟩
          (List.replicate 70 0x41)) = .ok (v, t')) ∧
    ∃ v t t', run (store (List.replicate 48 0xF4))
        (verifyWithSlack (portable .little) ⟨isValidUtf8,isValidUtf8⟩ (List.replicate 48 0xF4)
          3 40) = .ok (v, t) ∧
      run (store (List.replicate 48 0xF4))
        (verifyWithSlack ⟨.little,64,.neon,.shiftDfa,true,true⟩ ⟨isValidUtf8,isValidUtf8⟩
          (List.replicate 48 0xF4) 3 40) = .ok (v, t') := by
  have h := builds_agree ⟨isValidUtf8,isValidUtf8⟩ ⟨isValidUtf8_iff,isValidUtf8_iff⟩
    (portable .little) ⟨.little,64,.neon,.shiftDfa,true,true⟩
  exact ⟨h.1 _,h.2 _ 3 40 (by decide) (by decide)⟩

def Accepts (e : Endian) (X : Externs) (b : Buf) : Prop :=
  ∃ t, run (store b) (verify (portable e) X b) = .ok (true, t)

theorem accepts_iff (e : Endian) (X : Externs) (b : Buf) : Accepts e X b ↔ WellFormed b := by
  obtain ⟨v,t,hr,hv⟩ := verify_valid (portable_sound e X) b
  rw [← hv]
  constructor
  · intro h
    obtain ⟨u,hu⟩ := h
    exact (run_unique hr hu).1
  · intro h
    exact ⟨t,h ▸ hr⟩

/-- Two of a front, a back and the whole being accepted imply the third, and an
accepted whole has an accepted front exactly where no continuation byte follows. -/
theorem verify_composition (e : Endian) (X : Externs) (a c : Buf) :
    (Accepts e X a → Accepts e X c → Accepts e X (a++c)) ∧
    (Accepts e X a → Accepts e X (a++c) → Accepts e X c) ∧
    (Accepts e X c → Accepts e X (a++c) → Accepts e X a) ∧
    (Accepts e X (a++c) → (Accepts e X a ↔ c = [] ∨ ∃ x r, c = x::r ∧ ¬ cont x)) := by
  simp only [accepts_iff]
  refine ⟨wellFormed_append,cancel_left utf8.code,cancel_right utf8.syncCode,fun hac => ?_⟩
  refine (cut_iff utf8.syncCode hac).trans ?_
  cases c with
  | nil => simp
  | cons x r =>
    constructor
    · intro h
      exact Or.inr ⟨x,r,rfl,h x rfl⟩
    · intro h y hy
      obtain ⟨x',r',he,hx⟩ := h.resolve_left (List.cons_ne_nil x r)
      obtain ⟨rfl,-⟩ := List.cons.inj he
      exact Option.mem_some_iff.mp hy ▸ hx

theorem verify_joined_fields :
    Accepts .little ⟨isValidUtf8,isValidUtf8⟩ [0x41,0xC3,0xA9] ∧
      Accepts .little ⟨isValidUtf8,isValidUtf8⟩ [0xC3,0xA9] ∧
      Accepts .little ⟨isValidUtf8,isValidUtf8⟩ [0x41] ∧
      ¬ Accepts .little ⟨isValidUtf8,isValidUtf8⟩ [0x41,0xC3] := by
  have ha : Accepts .little ⟨isValidUtf8,isValidUtf8⟩ [0x41] := (accepts_iff _ _ _).mpr (by decide)
  have hc : Accepts .little ⟨isValidUtf8,isValidUtf8⟩ [0xC3,0xA9] :=
    (accepts_iff _ _ _).mpr (by decide)
  have h := verify_composition .little ⟨isValidUtf8,isValidUtf8⟩ [0x41] [0xC3,0xA9]
  have hac := h.1 ha hc
  have hcut := (verify_composition .little ⟨isValidUtf8,isValidUtf8⟩ [0x41,0xC3] [0xA9]).2.2.2 hac
  refine ⟨hac,h.2.1 ha hac,h.2.2.1 hc hac,fun hbad => ?_⟩
  obtain ⟨x,r,he,hx⟩ := (hcut.mp hbad).resolve_left (List.cons_ne_nil _ _)
  obtain ⟨rfl,-⟩ := List.cons.inj he
  exact hx (by decide)

end SmoothUtf8.Validity
