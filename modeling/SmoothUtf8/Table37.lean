import SmoothUtf8.Library.RowGrammar
import Mathlib.Tactic.Common

/-!
# Unicode Table 3-7 as a row grammar

The nine rows are data. A byte string is well formed when it is a
concatenation of words that match a row; no automaton and no code is mentioned.
The executable specification of the source, which reads one row at a time from
the front, is then identified with this grammar.
-/

set_option autoImplicit false

namespace SmoothUtf8.Table37
open Library.RowGrammar Library.PrefixCode

instance byteOrder : LinearOrder UInt8 where
  le_refl a := UInt8.le_refl a
  le_trans a b c := UInt8.le_trans
  le_antisymm a b := UInt8.le_antisymm
  lt_iff_le_not_ge a b := by
    rw [UInt8.lt_iff_toNat_lt, UInt8.le_iff_toNat_le, UInt8.le_iff_toNat_le]
    omega
  le_total := UInt8.le_total
  toDecidableLE := inferInstance
  toDecidableEq := inferInstance
  toDecidableLT := inferInstance

def rows37 : List (Row UInt8) :=
  [[(0x00,0x7F)],
   [(0xC2,0xDF),(0x80,0xBF)],
   [(0xE0,0xE0),(0xA0,0xBF),(0x80,0xBF)],
   [(0xE1,0xEC),(0x80,0xBF),(0x80,0xBF)],
   [(0xED,0xED),(0x80,0x9F),(0x80,0xBF)],
   [(0xEE,0xEF),(0x80,0xBF),(0x80,0xBF)],
   [(0xF0,0xF0),(0x90,0xBF),(0x80,0xBF),(0x80,0xBF)],
   [(0xF1,0xF3),(0x80,0xBF),(0x80,0xBF),(0x80,0xBF)],
   [(0xF4,0xF4),(0x80,0x8F),(0x80,0xBF),(0x80,0xBF)]]

/-- `s` is a concatenation of byte sequences each matching a row of the table. -/
def WellFormed (s : List UInt8) : Prop :=
  ∃ ws : List (List UInt8), s = ws.flatten ∧
    ∀ w ∈ ws, ∃ row ∈ rows37, List.Forall₂ (fun r b => r.1 ≤ b ∧ b ≤ r.2) row w

theorem rows37_ranges : ∀ row ∈ rows37, ∀ r ∈ row, r.1 ≤ r.2 := by
  have h : (rows37.all fun row => row.all fun r => r.1 ≤ r.2) = true := by decide
  simpa only [List.all_eq_true, decide_eq_true_eq] using h

theorem rows37_apart : ∀ row ∈ rows37, ∀ row' ∈ rows37, ∀ r ∈ row.head?, ∀ r' ∈ row'.head?,
    row = row' ∨ r.2 < r'.1 ∨ r'.2 < r.1 := by
  have h : (rows37.all fun row => rows37.all fun row' => row.head?.all fun r =>
      row'.head?.all fun r' => row = row' ∨ r.2 < r'.1 ∨ r'.2 < r.1) = true := by decide
  simpa only [List.all_eq_true, Option.all_eq_true, Option.mem_def, decide_eq_true_eq] using h

theorem rows37_lead : ∀ row ∈ rows37, ∀ r ∈ row.head?, r.2 < 0x80 ∨ 0xBF < r.1 := by
  have h : (rows37.all fun row => row.head?.all fun r => r.2 < 0x80 ∨ 0xBF < r.1) = true := by
    decide
  simpa only [List.all_eq_true, Option.all_eq_true, Option.mem_def, decide_eq_true_eq] using h

theorem rows37_rest : ∀ row ∈ rows37, ∀ r ∈ row.tail, 0x80 ≤ r.1 ∧ r.2 ≤ 0xBF := by
  have h : (rows37.all fun row => row.tail.all fun r => 0x80 ≤ r.1 ∧ r.2 ≤ 0xBF) = true := by
    decide
  simpa only [List.all_eq_true, decide_eq_true_eq] using h

def utf8 : SyncGrammar UInt8 where
  rows := rows37
  row_nonempty := by decide
  range_nonempty := rows37_ranges
  lead_apart := rows37_apart
  inner := (0x80,0xBF)
  lead_outside := rows37_lead
  rest_inside := rows37_rest

theorem wellFormed_messages (s : List UInt8) : WellFormed s ↔ s ∈ utf8.messages := Iff.rfl

instance (s : List UInt8) : Decidable (WellFormed s) :=
  decidable_of_iff _ (utf8.consume_messages s)

theorem wellFormed_nil : WellFormed [] := nil_messages utf8.code

theorem wellFormed_append {s t : List UInt8} (hs : WellFormed s) (ht : WellFormed t) :
    WellFormed (s++t) := messages_append utf8.code hs ht

theorem wellFormed_ascii {s : List UInt8} (h : ∀ b ∈ s, b < 0x80) : WellFormed s := by
  induction s with
  | nil => exact wellFormed_nil
  | cons b s ih =>
    have hb : b ≤ 0x7F := by
      have hlt := h b (by simp)
      rw [UInt8.lt_iff_toNat_lt] at hlt
      exact UInt8.le_iff_toNat_le.mpr (Nat.le_of_lt_succ hlt)
    have hw : [b] ∈ utf8.words := ⟨[(0x00,0x7F)],by decide,.cons ⟨UInt8.zero_le,hb⟩ .nil⟩
    exact word_append utf8.code hw (ih (fun b' hb' => h b' (by simp [hb'])))

theorem wellFormed_ascii_append {a s : List UInt8} (h : ∀ b ∈ a, b < 0x80) :
    WellFormed (a++s) ↔ WellFormed s :=
  ⟨fun hs => cancel_left utf8.code (wellFormed_ascii h) hs,
    fun hs => wellFormed_append (wellFormed_ascii h) hs⟩

def Dead (s : List UInt8) : Prop := ∀ t, ¬ WellFormed (s++t)

theorem dead_iff (s : List UInt8) : Dead s ↔ utf8.consume (some []) s = none :=
  (utf8.consume_dead_iff s).symm

instance (s : List UInt8) : Decidable (Dead s) := decidable_of_iff _ (dead_iff s).symm

theorem dead_ascii_append {a s : List UInt8} (h : ∀ b ∈ a, b < 0x80) :
    Dead (a++s) ↔ Dead s := by
  simp only [Dead, List.append_assoc, wellFormed_ascii_append h]

def cont (b : UInt8) : Prop := 0x80 ≤ b ∧ b ≤ 0xBF

instance (b : UInt8) : Decidable (cont b) := inferInstanceAs (Decidable (_ ∧ _))

def table37 (s : List UInt8) : ℕ :=
  if 1 ≤ s.length ∧ s.getD 0 0 ≤ 0x7F then 1
  else if 2 ≤ s.length ∧ 0xC2 ≤ s.getD 0 0 ∧ s.getD 0 0 ≤ 0xDF ∧ cont (s.getD 1 0) then 2
  else if 3 ≤ s.length ∧ s.getD 0 0 = 0xE0 ∧ 0xA0 ≤ s.getD 1 0 ∧ s.getD 1 0 ≤ 0xBF ∧
    cont (s.getD 2 0) then 3
  else if 3 ≤ s.length ∧ 0xE1 ≤ s.getD 0 0 ∧ s.getD 0 0 ≤ 0xEC ∧ cont (s.getD 1 0) ∧
    cont (s.getD 2 0) then 3
  else if 3 ≤ s.length ∧ s.getD 0 0 = 0xED ∧ 0x80 ≤ s.getD 1 0 ∧ s.getD 1 0 ≤ 0x9F ∧
    cont (s.getD 2 0) then 3
  else if 3 ≤ s.length ∧ 0xEE ≤ s.getD 0 0 ∧ s.getD 0 0 ≤ 0xEF ∧ cont (s.getD 1 0) ∧
    cont (s.getD 2 0) then 3
  else if 4 ≤ s.length ∧ s.getD 0 0 = 0xF0 ∧ 0x90 ≤ s.getD 1 0 ∧ s.getD 1 0 ≤ 0xBF ∧
    cont (s.getD 2 0) ∧ cont (s.getD 3 0) then 4
  else if 4 ≤ s.length ∧ 0xF1 ≤ s.getD 0 0 ∧ s.getD 0 0 ≤ 0xF3 ∧ cont (s.getD 1 0) ∧
    cont (s.getD 2 0) ∧ cont (s.getD 3 0) then 4
  else if 4 ≤ s.length ∧ s.getD 0 0 = 0xF4 ∧ 0x80 ≤ s.getD 1 0 ∧ s.getD 1 0 ≤ 0x8F ∧
    cont (s.getD 2 0) ∧ cont (s.getD 3 0) then 4
  else 0

def isValidUtf8 (s : List UInt8) : Bool :=
  if _ : s = [] then true
  else if _ : 0 < table37 s then isValidUtf8 (s.drop (table37 s)) else false
termination_by s.length
decreasing_by
  rename_i hs hn
  have hl := List.length_pos_iff.mpr hs
  simp only [List.length_drop]
  omega

theorem take_getD (s : List UInt8) (n : ℕ) (h : n ≤ s.length) :
    s.take n = (List.range n).map (fun i => s.getD i 0) := by
  apply List.ext_getElem
  · simp [h]
  · intro i hi hi'
    have hlt : i < s.length := by simp at hi; omega
    simp [hlt]

theorem table37_word (s : List UInt8) (h : 0 < table37 s) :
    table37 s ≤ s.length ∧ s.take (table37 s) ∈ utf8.words := by
  have hword : ∀ (n : ℕ) (row : Row UInt8), row ∈ rows37 → n ≤ s.length →
      List.Forall₂ Within row ((List.range n).map (fun i => s.getD i 0)) →
      n ≤ s.length ∧ s.take n ∈ utf8.words := by
    intro n row hrow hn hm
    exact ⟨hn,row,hrow,(take_getD s n hn).symm ▸ hm⟩
  have hif : ∀ (c : Prop) [Decidable c] (n m : ℕ),
      (c → n ≤ s.length ∧ s.take n ∈ utf8.words) →
      (0 < m → m ≤ s.length ∧ s.take m ∈ utf8.words) →
      0 < (if c then n else m) →
        (if c then n else m) ≤ s.length ∧ s.take (if c then n else m) ∈ utf8.words := by
    intro c _ n m hn hm
    by_cases hc : c
    · simpa only [if_pos hc] using fun _ => hn hc
    · simpa only [if_neg hc] using hm
  refine hif _ _ _ ?_ (hif _ _ _ ?_ (hif _ _ _ ?_ (hif _ _ _ ?_ (hif _ _ _ ?_
    (hif _ _ _ ?_ (hif _ _ _ ?_ (hif _ _ _ ?_ (hif _ _ _ ?_ ?_)))))))) h
  · rintro ⟨hl,ha⟩
    exact hword _ [(0x00,0x7F)] (by decide) hl (.cons ⟨UInt8.zero_le,ha⟩ .nil)
  · rintro ⟨hl,ha,ha',hb⟩
    exact hword _ [(0xC2,0xDF),(0x80,0xBF)] (by decide) hl (.cons ⟨ha,ha'⟩ (.cons hb .nil))
  · rintro ⟨hl,ha,hb,hb',hc⟩
    exact hword _ [(0xE0,0xE0),(0xA0,0xBF),(0x80,0xBF)] (by decide) hl
      (.cons ⟨ha.ge,ha.le⟩ (.cons ⟨hb,hb'⟩ (.cons hc .nil)))
  · rintro ⟨hl,ha,ha',hb,hc⟩
    exact hword _ [(0xE1,0xEC),(0x80,0xBF),(0x80,0xBF)] (by decide) hl
      (.cons ⟨ha,ha'⟩ (.cons hb (.cons hc .nil)))
  · rintro ⟨hl,ha,hb,hb',hc⟩
    exact hword _ [(0xED,0xED),(0x80,0x9F),(0x80,0xBF)] (by decide) hl
      (.cons ⟨ha.ge,ha.le⟩ (.cons ⟨hb,hb'⟩ (.cons hc .nil)))
  · rintro ⟨hl,ha,ha',hb,hc⟩
    exact hword _ [(0xEE,0xEF),(0x80,0xBF),(0x80,0xBF)] (by decide) hl
      (.cons ⟨ha,ha'⟩ (.cons hb (.cons hc .nil)))
  · rintro ⟨hl,ha,hb,hb',hc,hd⟩
    exact hword _ [(0xF0,0xF0),(0x90,0xBF),(0x80,0xBF),(0x80,0xBF)] (by decide) hl
      (.cons ⟨ha.ge,ha.le⟩ (.cons ⟨hb,hb'⟩ (.cons hc (.cons hd .nil))))
  · rintro ⟨hl,ha,ha',hb,hc,hd⟩
    exact hword _ [(0xF1,0xF3),(0x80,0xBF),(0x80,0xBF),(0x80,0xBF)] (by decide) hl
      (.cons ⟨ha,ha'⟩ (.cons hb (.cons hc (.cons hd .nil))))
  · rintro ⟨hl,ha,hb,hb',hc,hd⟩
    exact hword _ [(0xF4,0xF4),(0x80,0x8F),(0x80,0xBF),(0x80,0xBF)] (by decide) hl
      (.cons ⟨ha.ge,ha.le⟩ (.cons ⟨hb,hb'⟩ (.cons hc (.cons hd .nil))))
  · exact fun h0 => absurd h0 (lt_irrefl 0)

theorem word_cases {w : List UInt8} (hw : w ∈ utf8.words) :
    (∃ a, w = [a] ∧ a ≤ 0x7F) ∨
    (∃ a b, w = [a,b] ∧ 0xC2 ≤ a ∧ a ≤ 0xDF ∧ cont b) ∨
    (∃ b c, w = [0xE0,b,c] ∧ 0xA0 ≤ b ∧ b ≤ 0xBF ∧ cont c) ∨
    (∃ a b c, w = [a,b,c] ∧ 0xE1 ≤ a ∧ a ≤ 0xEC ∧ cont b ∧ cont c) ∨
    (∃ b c, w = [0xED,b,c] ∧ 0x80 ≤ b ∧ b ≤ 0x9F ∧ cont c) ∨
    (∃ a b c, w = [a,b,c] ∧ 0xEE ≤ a ∧ a ≤ 0xEF ∧ cont b ∧ cont c) ∨
    (∃ b c d, w = [0xF0,b,c,d] ∧ 0x90 ≤ b ∧ b ≤ 0xBF ∧ cont c ∧ cont d) ∨
    (∃ a b c d, w = [a,b,c,d] ∧ 0xF1 ≤ a ∧ a ≤ 0xF3 ∧ cont b ∧ cont c ∧ cont d) ∨
    (∃ b c d, w = [0xF4,b,c,d] ∧ 0x80 ≤ b ∧ b ≤ 0x8F ∧ cont c ∧ cont d) := by
  obtain ⟨row,hrow,hm⟩ := hw
  simp only [utf8, rows37, List.mem_cons, List.not_mem_nil, or_false] at hrow
  rcases hrow with rfl | rfl | rfl | rfl | rfl | rfl | rfl | rfl | rfl <;>
    simp only [Matches, List.forall₂_cons_left_iff, List.forall₂_nil_left_iff, Within] at hm
  · obtain ⟨a,_,ha,rfl,rfl⟩ := hm
    exact Or.inl ⟨a,rfl,ha.2⟩
  · obtain ⟨a,_,ha,⟨b,_,hb,rfl,rfl⟩,rfl⟩ := hm
    exact Or.inr (Or.inl ⟨a,b,rfl,ha.1,ha.2,hb⟩)
  · obtain ⟨a,_,ha,⟨b,_,hb,⟨c,_,hc,rfl,rfl⟩,rfl⟩,rfl⟩ := hm
    obtain rfl := le_antisymm ha.1 ha.2
    exact Or.inr (Or.inr (Or.inl ⟨b,c,rfl,hb.1,hb.2,hc⟩))
  · obtain ⟨a,_,ha,⟨b,_,hb,⟨c,_,hc,rfl,rfl⟩,rfl⟩,rfl⟩ := hm
    exact Or.inr (Or.inr (Or.inr (Or.inl ⟨a,b,c,rfl,ha.1,ha.2,hb,hc⟩)))
  · obtain ⟨a,_,ha,⟨b,_,hb,⟨c,_,hc,rfl,rfl⟩,rfl⟩,rfl⟩ := hm
    obtain rfl := le_antisymm ha.1 ha.2
    exact Or.inr (Or.inr (Or.inr (Or.inr (Or.inl ⟨b,c,rfl,hb.1,hb.2,hc⟩))))
  · obtain ⟨a,_,ha,⟨b,_,hb,⟨c,_,hc,rfl,rfl⟩,rfl⟩,rfl⟩ := hm
    exact Or.inr (Or.inr (Or.inr (Or.inr (Or.inr (Or.inl ⟨a,b,c,rfl,ha.1,ha.2,hb,hc⟩)))))
  · obtain ⟨a,_,ha,⟨b,_,hb,⟨c,_,hc,⟨d,_,hd,rfl,rfl⟩,rfl⟩,rfl⟩,rfl⟩ := hm
    obtain rfl := le_antisymm ha.1 ha.2
    exact Or.inr (Or.inr (Or.inr (Or.inr (Or.inr (Or.inr (Or.inl
      ⟨b,c,d,rfl,hb.1,hb.2,hc,hd⟩))))))
  · obtain ⟨a,_,ha,⟨b,_,hb,⟨c,_,hc,⟨d,_,hd,rfl,rfl⟩,rfl⟩,rfl⟩,rfl⟩ := hm
    exact Or.inr (Or.inr (Or.inr (Or.inr (Or.inr (Or.inr (Or.inr (Or.inl
      ⟨a,b,c,d,rfl,ha.1,ha.2,hb,hc,hd⟩)))))))
  · obtain ⟨a,_,ha,⟨b,_,hb,⟨c,_,hc,⟨d,_,hd,rfl,rfl⟩,rfl⟩,rfl⟩,rfl⟩ := hm
    obtain rfl := le_antisymm ha.1 ha.2
    exact Or.inr (Or.inr (Or.inr (Or.inr (Or.inr (Or.inr (Or.inr (Or.inr
      ⟨b,c,d,rfl,hb.1,hb.2,hc,hd⟩)))))))

theorem table37_pos_iff (s : List UInt8) : 0 < table37 s ↔
    (1 ≤ s.length ∧ s.getD 0 0 ≤ 0x7F) ∨
    (2 ≤ s.length ∧ 0xC2 ≤ s.getD 0 0 ∧ s.getD 0 0 ≤ 0xDF ∧ cont (s.getD 1 0)) ∨
    (3 ≤ s.length ∧ s.getD 0 0 = 0xE0 ∧ 0xA0 ≤ s.getD 1 0 ∧ s.getD 1 0 ≤ 0xBF ∧
      cont (s.getD 2 0)) ∨
    (3 ≤ s.length ∧ 0xE1 ≤ s.getD 0 0 ∧ s.getD 0 0 ≤ 0xEC ∧ cont (s.getD 1 0) ∧
      cont (s.getD 2 0)) ∨
    (3 ≤ s.length ∧ s.getD 0 0 = 0xED ∧ 0x80 ≤ s.getD 1 0 ∧ s.getD 1 0 ≤ 0x9F ∧
      cont (s.getD 2 0)) ∨
    (3 ≤ s.length ∧ 0xEE ≤ s.getD 0 0 ∧ s.getD 0 0 ≤ 0xEF ∧ cont (s.getD 1 0) ∧
      cont (s.getD 2 0)) ∨
    (4 ≤ s.length ∧ s.getD 0 0 = 0xF0 ∧ 0x90 ≤ s.getD 1 0 ∧ s.getD 1 0 ≤ 0xBF ∧
      cont (s.getD 2 0) ∧ cont (s.getD 3 0)) ∨
    (4 ≤ s.length ∧ 0xF1 ≤ s.getD 0 0 ∧ s.getD 0 0 ≤ 0xF3 ∧ cont (s.getD 1 0) ∧
      cont (s.getD 2 0) ∧ cont (s.getD 3 0)) ∨
    (4 ≤ s.length ∧ s.getD 0 0 = 0xF4 ∧ 0x80 ≤ s.getD 1 0 ∧ s.getD 1 0 ≤ 0x8F ∧
      cont (s.getD 2 0) ∧ cont (s.getD 3 0)) := by
  have hif : ∀ (c : Prop) [Decidable c] (n m : ℕ),
      (0 < if c then n+1 else m) ↔ c ∨ 0 < m := by
    intro c _ n m
    by_cases hc : c <;> simp [hc]
  rw [table37, hif, hif, hif, hif, hif, hif, hif, hif, hif]
  simp only [lt_irrefl, or_false]

theorem table37_append {w t : List UInt8} (hw : w ∈ utf8.words) :
    table37 (w++t) = w.length := by
  have hpos : 0 < table37 (w++t) := by
    rw [table37_pos_iff]
    rcases word_cases hw with ⟨a,rfl,h⟩ | ⟨a,b,rfl,h⟩ | ⟨b,c,rfl,h⟩ | ⟨a,b,c,rfl,h⟩ |
      ⟨b,c,rfl,h⟩ | ⟨a,b,c,rfl,h⟩ | ⟨b,c,d,rfl,h⟩ | ⟨a,b,c,d,rfl,h⟩ | ⟨b,c,d,rfl,h⟩ <;>
      simp [h]
  obtain ⟨hl,hp⟩ := table37_word (w++t) hpos
  have he := (first_word_unique utf8.code hp hw
    (List.take_append_drop (table37 (w++t)) (w++t))).1
  have hlen := congrArg List.length he
  rwa [List.length_take, Nat.min_eq_left hl] at hlen

/-- The executable specification decides the row grammar. -/
theorem isValidUtf8_iff (s : List UInt8) : isValidUtf8 s = true ↔ WellFormed s := by
  rw [wellFormed_messages]
  induction s using isValidUtf8.induct with
  | case1 =>
    rw [isValidUtf8, dif_pos rfl]
    exact ⟨fun _ => nil_messages utf8.code,fun _ => rfl⟩
  | case2 s hs hn ih =>
    obtain ⟨-,hw⟩ := table37_word s hn
    rw [isValidUtf8, dif_neg hs, dif_pos hn, ih]
    constructor
    · intro h
      rw [← List.take_append_drop (table37 s) s]
      exact word_append utf8.code hw h
    · intro h
      rw [← List.take_append_drop (table37 s) s] at h
      have hwm := word_append utf8.code hw (nil_messages utf8.code)
      rw [List.append_nil] at hwm
      exact cancel_left utf8.code hwm h
  | case3 s hs hn =>
    rw [isValidUtf8, dif_neg hs, dif_neg hn]
    constructor
    · exact fun h => absurd h Bool.false_ne_true
    · intro h
      rcases messages_cases utf8.code h with he | ⟨w,hw,r,-,rfl⟩
      · exact absurd he hs
      · rw [table37_append hw] at hn
        have hl := List.length_pos_iff.mpr (word_ne_nil utf8.code hw)
        exact absurd hl hn

example : WellFormed [0x68, 0xE4, 0xB8, 0x96, 0xF0, 0x9F, 0x8C, 0x8D] := by decide

example : ¬ WellFormed [0xED, 0xA0, 0x80] := by decide

end SmoothUtf8.Table37
