import SmoothUtf8.RunLogs

/-!
# Scalar values and their encodings

The encoder is arithmetic on the code point and mentions neither the table nor
the automaton. Its values are exactly the words of the table, so the accepted
strings are exactly the encodings of scalar lists, each of a single one.
-/

set_option autoImplicit false

namespace SmoothUtf8.Encoding
open Library.CheckedProgram Library.PrefixCode Library.RowGrammar
open LeafLoads Table37 AsciiSkip EntryPoints RunLogs

structure Scalar where
  cp : ℕ
  valid : cp ≤ 0xD7FF ∨ (0xE000 ≤ cp ∧ cp ≤ 0x10FFFF)

def trail (cp s : ℕ) : UInt8 := UInt8.ofNat (0x80 ||| ((cp >>> s) &&& 0x3F))

def enc (c : Scalar) : List UInt8 :=
  if c.cp ≤ 0x7F then [UInt8.ofNat c.cp]
  else if c.cp ≤ 0x7FF then [UInt8.ofNat (0xC0 ||| (c.cp >>> 6)),trail c.cp 0]
  else if c.cp ≤ 0xFFFF then
    [UInt8.ofNat (0xE0 ||| (c.cp >>> 12)),trail c.cp 6,trail c.cp 0]
  else [UInt8.ofNat (0xF0 ||| (c.cp >>> 18)),trail c.cp 12,trail c.cp 6,trail c.cp 0]

example : enc ⟨0x20AC,by decide⟩ = [0xE2, 0x82, 0xAC] := by decide

theorem marked_toNat (i a : ℕ) {b : ℕ} (h : b < 2^i) (hb : 2^i*a+b < 256) :
    (UInt8.ofNat (2^i*a ||| b)).toNat = 2^i*a+b := by
  rw [← Nat.two_pow_add_eq_or_of_lt h a, UInt8.toNat_ofNat_of_lt' hb]

theorem trail_toNat (cp s : ℕ) : (trail cp s).toNat = 128+cp/2^s%64 := by
  have hm : (cp >>> s) &&& 0x3F = cp/2^s%64 := by
    rw [show 0x3F = 2^6-1 from rfl, Nat.and_two_pow_sub_one_eq_mod, Nat.shiftRight_eq_div_pow]
  rw [trail, hm]
  exact marked_toNat 7 1 (by omega) (by omega)

theorem enc_one {c : Scalar} (hhi : c.cp ≤ 0x7F) :
    ∃ a : UInt8, enc c = [a] ∧ a.toNat = c.cp := by
  refine ⟨UInt8.ofNat c.cp,?_,UInt8.toNat_ofNat_of_lt' (lt_of_le_of_lt hhi (by decide))⟩
  rw [enc, if_pos hhi]

theorem enc_two {c : Scalar} (hlo : 0x80 ≤ c.cp) (hhi : c.cp ≤ 0x7FF) :
    ∃ a b : UInt8, enc c = [a,b] ∧ a.toNat = 192+c.cp/64 ∧ b.toNat = 128+c.cp%64 := by
  refine ⟨UInt8.ofNat (0xC0 ||| (c.cp >>> 6)),trail c.cp 0,?_,?_,?_⟩
  · rw [enc, if_neg (by omega), if_pos hhi]
  · rw [Nat.shiftRight_eq_div_pow]
    exact marked_toNat 5 6 (by omega) (by omega)
  · rw [trail_toNat, Nat.pow_zero, Nat.div_one]

theorem enc_three {c : Scalar} (hlo : 0x800 ≤ c.cp) (hhi : c.cp ≤ 0xFFFF) :
    ∃ a b d : UInt8, enc c = [a,b,d] ∧ a.toNat = 224+c.cp/4096 ∧ b.toNat = 128+c.cp/64%64 ∧
      d.toNat = 128+c.cp%64 := by
  refine ⟨UInt8.ofNat (0xE0 ||| (c.cp >>> 12)),trail c.cp 6,trail c.cp 0,?_,?_,trail_toNat _ 6,?_⟩
  · rw [enc, if_neg (by omega), if_neg (by omega), if_pos hhi]
  · rw [Nat.shiftRight_eq_div_pow]
    exact marked_toNat 4 14 (by omega) (by omega)
  · rw [trail_toNat, Nat.pow_zero, Nat.div_one]

theorem enc_four {c : Scalar} (hlo : 0x10000 ≤ c.cp) :
    ∃ a b d f : UInt8, enc c = [a,b,d,f] ∧ a.toNat = 240+c.cp/262144 ∧
      b.toNat = 128+c.cp/4096%64 ∧ d.toNat = 128+c.cp/64%64 ∧ f.toNat = 128+c.cp%64 := by
  have hv := c.valid
  refine ⟨UInt8.ofNat (0xF0 ||| (c.cp >>> 18)),trail c.cp 12,trail c.cp 6,trail c.cp 0,?_,?_,
    trail_toNat _ 12,trail_toNat _ 6,?_⟩
  · rw [enc, if_neg (by omega), if_neg (by omega), if_neg (by omega)]
  · rw [Nat.shiftRight_eq_div_pow]
    exact marked_toNat 3 30 (by omega) (by omega)
  · rw [trail_toNat, Nat.pow_zero, Nat.div_one]

theorem within_toNat {lo hi a : UInt8} (h : lo.toNat ≤ a.toNat) (h' : a.toNat ≤ hi.toNat) :
    Within (lo,hi) a := ⟨UInt8.le_iff_toNat_le.mpr h,UInt8.le_iff_toNat_le.mpr h'⟩

theorem cont_within {a : UInt8} {n : ℕ} (h : a.toNat = 128+n) (hn : n < 64) :
    Within (0x80,0xBF) a :=
  within_toNat (show 128 ≤ a.toNat by omega) (show a.toNat ≤ 191 by omega)

theorem three_word {a b d : UInt8} (lo hi lo' hi' : UInt8)
    (hrow : [(lo,hi),(lo',hi'),(0x80,0xBF)] ∈ rows37) (ha : lo.toNat ≤ a.toNat)
    (ha' : a.toNat ≤ hi.toNat) (hb : lo'.toNat ≤ b.toNat) (hb' : b.toNat ≤ hi'.toNat)
    (hd : Within (0x80,0xBF) d) : [a,b,d] ∈ utf8.words :=
  ⟨_,hrow,.cons (within_toNat ha ha') (.cons (within_toNat hb hb') (.cons hd .nil))⟩

theorem four_word {a b d f : UInt8} (lo hi lo' hi' : UInt8)
    (hrow : [(lo,hi),(lo',hi'),(0x80,0xBF),(0x80,0xBF)] ∈ rows37) (ha : lo.toNat ≤ a.toNat)
    (ha' : a.toNat ≤ hi.toNat) (hb : lo'.toNat ≤ b.toNat) (hb' : b.toNat ≤ hi'.toNat)
    (hd : Within (0x80,0xBF) d) (hf : Within (0x80,0xBF) f) : [a,b,d,f] ∈ utf8.words :=
  ⟨_,hrow,.cons (within_toNat ha ha') (.cons (within_toNat hb hb') (.cons hd (.cons hf .nil)))⟩

/-- The encoding of a scalar value matches a row of the table. -/
theorem enc_word (c : Scalar) : enc c ∈ utf8.words := by
  have hv := c.valid
  by_cases h1 : c.cp ≤ 0x7F
  · obtain ⟨a,he,ha⟩ := enc_one h1
    rw [he]
    exact ⟨[(0x00,0x7F)],by decide,.cons (within_toNat (Nat.zero_le _)
      (show a.toNat ≤ 127 by omega)) .nil⟩
  by_cases h2 : c.cp ≤ 0x7FF
  · obtain ⟨a,b,he,ha,hb⟩ := enc_two (by omega) h2
    rw [he]
    exact ⟨[(0xC2,0xDF),(0x80,0xBF)],by decide,.cons (within_toNat (show 194 ≤ a.toNat by omega)
      (show a.toNat ≤ 223 by omega)) (.cons (cont_within hb (by omega)) .nil)⟩
  by_cases h3 : c.cp ≤ 0xFFFF
  · obtain ⟨a,b,d,he,ha,hb,hd⟩ := enc_three (by omega) h3
    have hd' := cont_within hd (by omega)
    rw [he]
    by_cases he0 : c.cp ≤ 0xFFF
    · exact three_word 0xE0 0xE0 0xA0 0xBF (by decide) (show 224 ≤ _ by omega)
        (show _ ≤ 224 by omega) (show 160 ≤ _ by omega) (show _ ≤ 191 by omega) hd'
    by_cases hec : c.cp ≤ 0xCFFF
    · exact three_word 0xE1 0xEC 0x80 0xBF (by decide) (show 225 ≤ _ by omega)
        (show _ ≤ 236 by omega) (show 128 ≤ _ by omega) (show _ ≤ 191 by omega) hd'
    by_cases hed : c.cp ≤ 0xD7FF
    · exact three_word 0xED 0xED 0x80 0x9F (by decide) (show 237 ≤ _ by omega)
        (show _ ≤ 237 by omega) (show 128 ≤ _ by omega) (show _ ≤ 159 by omega) hd'
    · exact three_word 0xEE 0xEF 0x80 0xBF (by decide) (show 238 ≤ _ by omega)
        (show _ ≤ 239 by omega) (show 128 ≤ _ by omega) (show _ ≤ 191 by omega) hd'
  · obtain ⟨a,b,d,f,he,ha,hb,hd,hf⟩ := enc_four (show 0x10000 ≤ c.cp by omega)
    have hd' := cont_within hd (by omega)
    have hf' := cont_within hf (by omega)
    rw [he]
    by_cases hf0 : c.cp ≤ 0x3FFFF
    · exact four_word 0xF0 0xF0 0x90 0xBF (by decide) (show 240 ≤ _ by omega)
        (show _ ≤ 240 by omega) (show 144 ≤ _ by omega) (show _ ≤ 191 by omega) hd' hf'
    by_cases hf3 : c.cp ≤ 0xFFFFF
    · exact four_word 0xF1 0xF3 0x80 0xBF (by decide) (show 241 ≤ _ by omega)
        (show _ ≤ 243 by omega) (show 128 ≤ _ by omega) (show _ ≤ 191 by omega) hd' hf'
    · exact four_word 0xF4 0xF4 0x80 0x8F (by decide) (show 244 ≤ _ by omega)
        (show _ ≤ 244 by omega) (show 128 ≤ _ by omega) (show _ ≤ 143 by omega) hd' hf'

def dec : List UInt8 → ℕ
  | [a] => a.toNat
  | [a,b] => a.toNat%32*64+b.toNat%64
  | [a,b,d] => a.toNat%16*4096+b.toNat%64*64+d.toNat%64
  | [a,b,d,f] => a.toNat%8*262144+b.toNat%64*4096+d.toNat%64*64+f.toNat%64
  | _ => 0

theorem dec_enc (c : Scalar) : dec (enc c) = c.cp := by
  have hv := c.valid
  by_cases h1 : c.cp ≤ 0x7F
  · obtain ⟨a,he,ha⟩ := enc_one h1
    rw [he, dec, ha]
  by_cases h2 : c.cp ≤ 0x7FF
  · obtain ⟨a,b,he,ha,hb⟩ := enc_two (by omega) h2
    rw [he, dec]
    omega
  by_cases h3 : c.cp ≤ 0xFFFF
  · obtain ⟨a,b,d,he,ha,hb,hd⟩ := enc_three (by omega) h3
    rw [he, dec]
    omega
  · obtain ⟨a,b,d,f,he,ha,hb,hd,hf⟩ := enc_four (show 0x10000 ≤ c.cp by omega)
    rw [he, dec]
    omega

theorem enc_injective : Function.Injective enc := by
  intro c c' h
  have hcp : c.cp = c'.cp := by rw [← dec_enc c, h, dec_enc]
  cases c
  cases c'
  subst hcp
  rfl

theorem cont_bounds {b : UInt8} (h : cont b) : 128 ≤ b.toNat ∧ b.toNat ≤ 191 :=
  ⟨UInt8.le_iff_toNat_le.mp h.1,UInt8.le_iff_toNat_le.mp h.2⟩

theorem one_scalar {a : UInt8} (ha : a.toNat ≤ 127) : ∃ c, enc c = [a] := by
  obtain ⟨a',he,hea⟩ := @enc_one ⟨a.toNat,by omega⟩ ha
  obtain rfl : a' = a := UInt8.toNat_inj.mp hea
  exact ⟨_,he⟩

theorem two_scalar {a b : UInt8} (ha : 194 ≤ a.toNat ∧ a.toNat ≤ 223) (hb : cont b) :
    ∃ c, enc c = [a,b] := by
  have hb' := cont_bounds hb
  obtain ⟨n,hn⟩ : ∃ n, n = (a.toNat-192)*64+(b.toNat-128) := ⟨_,rfl⟩
  obtain ⟨a',b',he,hea,heb⟩ := @enc_two ⟨n,by omega⟩ (show 0x80 ≤ n by omega)
    (show n ≤ 0x7FF by omega)
  dsimp only at hea heb
  obtain rfl : a' = a := UInt8.toNat_inj.mp (by omega)
  obtain rfl : b' = b := UInt8.toNat_inj.mp (by omega)
  exact ⟨_,he⟩

theorem three_scalar {a b d : UInt8} (ha : 224 ≤ a.toNat ∧ a.toNat ≤ 239) (hb : cont b)
    (hd : cont d) (hlow : a.toNat = 224 → 160 ≤ b.toNat) (hsur : a.toNat = 237 → b.toNat ≤ 159) :
    ∃ c, enc c = [a,b,d] := by
  have hb' := cont_bounds hb
  have hd' := cont_bounds hd
  obtain ⟨n,hn⟩ : ∃ n, n = (a.toNat-224)*4096+(b.toNat-128)*64+(d.toNat-128) := ⟨_,rfl⟩
  obtain ⟨a',b',d',he,hea,heb,hed⟩ := @enc_three ⟨n,by omega⟩ (show 0x800 ≤ n by omega)
    (show n ≤ 0xFFFF by omega)
  dsimp only at hea heb hed
  obtain rfl : a' = a := UInt8.toNat_inj.mp (by omega)
  obtain rfl : b' = b := UInt8.toNat_inj.mp (by omega)
  obtain rfl : d' = d := UInt8.toNat_inj.mp (by omega)
  exact ⟨_,he⟩

theorem four_scalar {a b d f : UInt8} (ha : 240 ≤ a.toNat ∧ a.toNat ≤ 244) (hb : cont b)
    (hd : cont d) (hf : cont f) (hlow : a.toNat = 240 → 144 ≤ b.toNat)
    (htop : a.toNat = 244 → b.toNat ≤ 143) : ∃ c, enc c = [a,b,d,f] := by
  have hb' := cont_bounds hb
  have hd' := cont_bounds hd
  have hf' := cont_bounds hf
  obtain ⟨n,hn⟩ : ∃ n, n = (a.toNat-240)*262144+(b.toNat-128)*4096+(d.toNat-128)*64+
    (f.toNat-128) := ⟨_,rfl⟩
  obtain ⟨a',b',d',f',he,hea,heb,hed,hef⟩ := @enc_four ⟨n,by omega⟩ (show 0x10000 ≤ n by omega)
  dsimp only at hea heb hed hef
  obtain rfl : a' = a := UInt8.toNat_inj.mp (by omega)
  obtain rfl : b' = b := UInt8.toNat_inj.mp (by omega)
  obtain rfl : d' = d := UInt8.toNat_inj.mp (by omega)
  obtain rfl : f' = f := UInt8.toNat_inj.mp (by omega)
  exact ⟨_,he⟩

theorem word_scalar {w : List UInt8} (hw : w ∈ utf8.words) : ∃ c, enc c = w := by
  have hle : ∀ {x y : UInt8}, x ≤ y → x.toNat ≤ y.toNat := fun h => UInt8.le_iff_toNat_le.mp h
  rcases word_cases hw with ⟨a,rfl,ha⟩ | ⟨a,b,rfl,ha,ha',hb⟩ | ⟨b,d,rfl,hb,hb',hd⟩ |
    ⟨a,b,d,rfl,ha,ha',hb,hd⟩ | ⟨b,d,rfl,hb,hb',hd⟩ | ⟨a,b,d,rfl,ha,ha',hb,hd⟩ |
    ⟨b,d,f,rfl,hb,hb',hd,hf⟩ | ⟨a,b,d,f,rfl,ha,ha',hb,hd,hf⟩ | ⟨b,d,f,rfl,hb,hb',hd,hf⟩
  · exact one_scalar (hle ha)
  · exact two_scalar ⟨hle ha,hle ha'⟩ hb
  · exact three_scalar (by decide) ⟨le_trans (by decide) hb,hb'⟩ hd (fun _ => hle hb)
      (fun h => absurd h (by decide))
  · have hlo : 225 ≤ a.toNat := hle ha
    have hhi : a.toNat ≤ 236 := hle ha'
    exact three_scalar (by omega) hb hd (by omega) (by omega)
  · exact three_scalar (by decide) ⟨hb,le_trans hb' (by decide)⟩ hd
      (fun h => absurd h (by decide)) (fun _ => hle hb')
  · have hlo : 238 ≤ a.toNat := hle ha
    have hhi : a.toNat ≤ 239 := hle ha'
    exact three_scalar (by omega) hb hd (by omega) (by omega)
  · exact four_scalar (by decide) ⟨le_trans (by decide) hb,hb'⟩ hd hf (fun _ => hle hb)
      (fun h => absurd h (by decide))
  · have hlo : 241 ≤ a.toNat := hle ha
    have hhi : a.toNat ≤ 243 := hle ha'
    exact four_scalar (by omega) hb hd hf (by omega) (by omega)
  · exact four_scalar (by decide) ⟨hb,le_trans hb' (by decide)⟩ hd hf
      (fun h => absurd h (by decide)) (fun _ => hle hb')

def IsStr (b : List UInt8) : Prop := ∃ cs : List Scalar, b = cs.flatMap enc

/-- The well-formed strings are the encodings of scalar lists. -/
theorem wellFormed_iff_encoded (b : List UInt8) : WellFormed b ↔ IsStr b := by
  constructor
  · intro h
    obtain ⟨ws,rfl,hws⟩ := h
    induction ws with
    | nil => exact ⟨[],rfl⟩
    | cons w ws ih =>
      obtain ⟨cs,hcs⟩ := ih (fun w' hw' => hws w' (by simp [hw']))
      obtain ⟨c,hc⟩ := word_scalar (hws w (by simp))
      exact ⟨c::cs,by rw [List.flatten_cons, List.flatMap_cons, hc, hcs]⟩
  · intro h
    obtain ⟨cs,rfl⟩ := h
    rw [List.flatMap_def]
    refine flatten_messages utf8.code (fun w hw => ?_)
    obtain ⟨c,-,rfl⟩ := List.mem_map.mp hw
    exact enc_word c

theorem encoded_unique {cs cs' : List Scalar} (h : cs.flatMap enc = cs'.flatMap enc) :
    cs = cs' := by
  have hwords : ∀ l : List Scalar, ∀ w ∈ l.map enc, w ∈ utf8.code.words := by
    intro l w hw
    obtain ⟨c,-,rfl⟩ := List.mem_map.mp hw
    exact enc_word c
  rw [List.flatMap_def, List.flatMap_def] at h
  exact List.map_injective_iff.mpr enc_injective
    (factors_unique utf8.code _ _ (hwords cs) (hwords cs') h)

theorem fromUtf8_run {B : Build} {X : Externs} {b : Buf} {v : Bool} {t : Log}
    (h : run (store b) (verify B X b) = .ok (v, t)) :
    run (store b) (fromUtf8 B X b) =
      if v then .ok (some b, t++[.mark (.unchecked b)]) else .ok (none, t) := by
  have hthen := (reaches_done.mpr h).then (fun r => if r then (do
      Prog.note (.unchecked b)
      pure (some b)) else pure none : Bool → Exec (Option (List UInt8)))
  cases v with
  | true => exact reaches_done.mp (hthen.trans ((reaches_note _ _).then _))
  | false => exact reaches_done.mp (List.append_nil t ▸ hthen.trans (Reaches.refl _ _))

/-- `verify` accepts exactly the encodings of scalar lists, each of a single
list. `from_utf8` returns the bytes themselves in that case and nothing
otherwise, and makes a `str` of encoded bytes only. -/
theorem fromUtf8_iff_encoded (e : Endian) (X : Externs) (b : Buf) :
    (∃ v t, run (store b) (verify (portable e) X b) = .ok (v, t) ∧ (v = true ↔ IsStr b)) ∧
    (∀ cs cs' : List Scalar, b = cs.flatMap enc → b = cs'.flatMap enc → cs = cs') ∧
    ∃ o t, run (store b) (fromUtf8 (portable e) X b) = .ok (o, t) ∧
      (o = some b ↔ IsStr b) ∧ (o = none ↔ ¬ IsStr b) ∧
      ∀ s, .unchecked s ∈ marks t → IsStr s := by
  obtain ⟨v,t,hr,hv,hfree⟩ := verify_unchecked_free e 64 .swar X b
  rw [wellFormed_iff_encoded] at hv
  have hfrom := fromUtf8_run hr
  refine ⟨⟨v,t,hr,hv⟩,fun cs cs' h h' => encoded_unique (h.symm.trans h'),?_⟩
  cases v with
  | true =>
    have hstr : IsStr b := hv.mp rfl
    refine ⟨some b,_,hfrom,iff_of_true rfl hstr,by simp [hstr],fun s hs => ?_⟩
    rw [marks_append, List.mem_append] at hs
    rcases hs with hs | hs
    · exact absurd hs (hfree s)
    · obtain rfl : s = b := by simpa using hs
      exact hstr
  | false =>
    have hstr : ¬ IsStr b := fun h => Bool.false_ne_true (hv.mpr h)
    exact ⟨none,_,hfrom,by simp [hstr],iff_of_true rfl hstr,fun s hs => absurd hs (hfree s)⟩

end SmoothUtf8.Encoding
