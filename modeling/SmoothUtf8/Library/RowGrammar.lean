import SmoothUtf8.Library.PrefixCode
import Mathlib.Data.List.Find
import Mathlib.Data.List.Forall2

/-!
# Grammars given by a table of rows

A row is a list of letter ranges; it stands for the words that meet its ranges
letter by letter. When different rows start in disjoint ranges, what is left of
the row in progress is all that a reader has to remember. The reader defined
here is compared with the concatenations of row words, which are defined
without it.
-/

set_option autoImplicit false

namespace Library.RowGrammar
open Library.PrefixCode

section Ranges

variable {α : Type} [LinearOrder α]

def Within (r : α × α) (a : α) : Prop := r.1 ≤ a ∧ a ≤ r.2

instance (r : α × α) (a : α) : Decidable (Within r a) := inferInstanceAs (Decidable (_ ∧ _))

theorem within_apart {r r' : α × α} {a : α} (h : r.2 < r'.1 ∨ r'.2 < r.1)
    (hr : Within r a) : ¬ Within r' a := by
  intro hr'
  rcases h with h | h
  · exact absurd (hr'.1.trans hr.2) (not_le.mpr h)
  · exact absurd (hr.1.trans hr'.2) (not_le.mpr h)

theorem within_injective {r r' : α × α} (hr : r.1 ≤ r.2) (hr' : r'.1 ≤ r'.2)
    (h : ∀ a, Within r a ↔ Within r' a) : r = r' := by
  have hlo : Within r' r.1 := (h _).mp ⟨le_rfl,hr⟩
  have hhi : Within r' r.2 := (h _).mp ⟨hr,le_rfl⟩
  have hlo' : Within r r'.1 := (h _).mpr ⟨le_rfl,hr'⟩
  have hhi' : Within r r'.2 := (h _).mpr ⟨hr',le_rfl⟩
  exact Prod.ext (le_antisymm hlo'.1 hlo.1) (le_antisymm hhi.2 hhi'.2)

def Uncut (r g : α × α) : Prop := g.2 < r.1 ∨ r.2 < g.1 ∨ r.1 ≤ g.1 ∧ g.2 ≤ r.2

instance (r g : α × α) : Decidable (Uncut r g) := inferInstanceAs (Decidable (_ ∨ _))

theorem uncut_within {r g : α × α} {a b : α} (h : Uncut r g) (ha : Within g a)
    (hb : Within g b) : Within r a ↔ Within r b := by
  rcases h with h | h | h
  · exact iff_of_false (fun hr => absurd (hr.1.trans ha.2) (not_le.mpr h))
      (fun hr => absurd (hr.1.trans hb.2) (not_le.mpr h))
  · exact iff_of_false (fun hr => absurd (ha.1.trans hr.2) (not_le.mpr h))
      (fun hr => absurd (hb.1.trans hr.2) (not_le.mpr h))
  · exact iff_of_true ⟨h.1.trans ha.1,ha.2.trans h.2⟩ ⟨h.1.trans hb.1,hb.2.trans h.2⟩

abbrev Row (α : Type) := List (α × α)

def Matches (row : Row α) (s : List α) : Prop := List.Forall₂ Within row s

end Ranges

structure Grammar (α : Type) [LinearOrder α] where
  rows : List (Row α)
  row_nonempty : ∀ row ∈ rows, row ≠ []
  range_nonempty : ∀ row ∈ rows, ∀ r ∈ row, r.1 ≤ r.2
  lead_apart : ∀ row ∈ rows, ∀ row' ∈ rows, ∀ r ∈ row.head?, ∀ r' ∈ row'.head?,
    row = row' ∨ r.2 < r'.1 ∨ r'.2 < r.1

variable {α : Type} [LinearOrder α]

namespace Grammar

variable (G : Grammar α)

def words : Language α := {s | ∃ row ∈ G.rows, Matches row s}

theorem lead_unique {r r' : α × α} {rs rs' : Row α} {a : α} (h : r::rs ∈ G.rows)
    (h' : r'::rs' ∈ G.rows) (ha : Within r a) (ha' : Within r' a) : rs = rs' := by
  rcases G.lead_apart _ h _ h' r rfl r' rfl with he | hd
  · exact (List.cons.inj he).2
  · exact absurd ha' (within_apart hd ha)

theorem words_cons {a : α} {s : List α} :
    a::s ∈ G.words ↔ ∃ r rs, r::rs ∈ G.rows ∧ Within r a ∧ Matches rs s := by
  constructor
  · rintro ⟨row,hrow,hm⟩
    obtain ⟨r,rs,hr,hrs,rfl⟩ := List.forall₂_cons_right_iff.mp hm
    exact ⟨r,rs,hrow,hr,hrs⟩
  · rintro ⟨r,rs,hrow,hr,hrs⟩
    exact ⟨r::rs,hrow,List.Forall₂.cons hr hrs⟩

theorem nil_notMem_words : [] ∉ G.words := by
  rintro ⟨row,hrow,hm⟩
  exact G.row_nonempty row hrow (List.forall₂_nil_right_iff.mp hm)

theorem words_prefix_free (u : List α) (hu : u ∈ G.words) (v : List α) (hv : v ∈ G.words)
    (huv : u <+: v) : u = v := by
  cases u with
  | nil => exact absurd hu G.nil_notMem_words
  | cons a u =>
    obtain ⟨t,rfl⟩ := huv
    obtain ⟨r,rs,hrow,ha,hm⟩ := G.words_cons.mp hu
    obtain ⟨r',rs',hrow',ha',hm'⟩ := G.words_cons.mp hv
    have hrs := G.lead_unique hrow hrow' ha ha'
    subst hrs
    have hl : u.length = (u++t).length := hm.length_eq.symm.trans hm'.length_eq
    have ht : t = [] := List.length_eq_zero_iff.mp (by simpa using hl)
    simp [ht]

def code : Code α where
  words := G.words
  nil_notMem := G.nil_notMem_words
  prefix_free := G.words_prefix_free

def messages : Language α := G.code.messages

def lead (a : α) : Option (Row α) :=
  (G.rows.find? (fun row => row.head?.any (fun r => decide (Within r a)))).map List.tail

/-- One letter read. `some rs` is a row in progress with `rs` left of it,
`some []` is the boundary between rows and `none` is a dead end. -/
def advance : Option (Row α) → α → Option (Row α)
  | none, _ => none
  | some [], a => G.lead a
  | some (r::rs), a => if Within r a then some rs else none

/-- Letters that no range of the table tells apart are read alike. -/
theorem advance_congr {g : α × α} {a b : α} (q : Option (Row α))
    (hq : ∀ rs ∈ q, ∀ r ∈ rs, Uncut r g) (hg : ∀ row ∈ G.rows, ∀ r ∈ row, Uncut r g)
    (ha : Within g a) (hb : Within g b) : G.advance q a = G.advance q b := by
  match q with
  | none => rfl
  | some [] =>
    show G.lead a = G.lead b
    rw [lead, lead]
    congr 1
    apply List.find?_congr
    intro row hrow
    cases row with
    | nil => rfl
    | cons r rs => simp [uncut_within (hg _ hrow r (by simp)) ha hb]
  | some (r::rs) =>
    have hr := uncut_within (hq _ rfl r (by simp)) ha hb
    simp only [advance, hr]

def consume (q : Option (Row α)) (s : List α) : Option (Row α) := s.foldl G.advance q

theorem consume_dead (s : List α) : G.consume none s = none := by
  induction s with
  | nil => rfl
  | cons a s ih => exact ih

theorem lead_some {a : α} {rs : Row α} :
    G.lead a = some rs ↔ ∃ r, r::rs ∈ G.rows ∧ Within r a := by
  constructor
  · intro h
    obtain ⟨row,hf,rfl⟩ := Option.map_eq_some_iff.mp h
    have hrow := List.mem_of_find?_eq_some hf
    have ha := List.find?_some hf
    cases row with
    | nil => exact absurd rfl (G.row_nonempty _ hrow)
    | cons r rs => exact ⟨r,hrow,by simpa using ha⟩
  · rintro ⟨r,hrow,ha⟩
    cases hf : G.rows.find? (fun row => row.head?.any (fun r => decide (Within r a))) with
    | none =>
      have hn := List.find?_eq_none.mp hf _ hrow
      simp [ha] at hn
    | some row =>
      have hrow' := List.mem_of_find?_eq_some hf
      have ha' := List.find?_some hf
      cases row with
      | nil => exact absurd rfl (G.row_nonempty _ hrow')
      | cons r' rs' =>
        have hrs := G.lead_unique hrow hrow' ha (by simpa using ha')
        simp [lead, hf, hrs]

def Completes : Option (Row α) → List α → Prop
  | none, _ => False
  | some rs, s => ∃ u v, s = u++v ∧ Matches rs u ∧ v ∈ G.messages

theorem completes_boundary (s : List α) : G.Completes (some []) s ↔ s ∈ G.messages := by
  constructor
  · rintro ⟨u,v,rfl,hu,hv⟩
    rw [List.forall₂_nil_left_iff.mp hu]
    exact hv
  · intro hs
    exact ⟨[],s,rfl,List.Forall₂.nil,hs⟩

theorem completes_nil (q : Option (Row α)) : G.Completes q [] ↔ q = some [] := by
  cases q with
  | none => simp [Completes]
  | some rs =>
    constructor
    · rintro ⟨u,v,he,hu,hv⟩
      obtain ⟨rfl,rfl⟩ := List.append_eq_nil_iff.mp he.symm
      rw [List.forall₂_nil_right_iff.mp hu]
    · intro h
      rw [h, completes_boundary]
      exact nil_messages G.code

theorem messages_lead (a : α) (s : List α) :
    a::s ∈ G.messages ↔ G.Completes (G.lead a) s := by
  constructor
  · intro h
    rcases messages_cases G.code h with he | ⟨w,hw,v,hv,he⟩
    · simp at he
    · cases w with
      | nil => exact absurd hw G.nil_notMem_words
      | cons b u =>
        obtain ⟨rfl,rfl⟩ := List.cons.inj he
        obtain ⟨r,rs,hrow,ha,hm⟩ := G.words_cons.mp hw
        rw [G.lead_some.mpr ⟨r,hrow,ha⟩]
        exact ⟨u,v,rfl,hm,hv⟩
  · intro h
    cases hl : G.lead a with
    | none => simp [hl, Completes] at h
    | some rs =>
      rw [hl] at h
      obtain ⟨u,v,rfl,hu,hv⟩ := h
      obtain ⟨r,hrow,ha⟩ := G.lead_some.mp hl
      have hw : a::u ∈ G.words := G.words_cons.mpr ⟨r,rs,hrow,ha,hu⟩
      exact word_append G.code hw hv

theorem completes_cons (q : Option (Row α)) (a : α) (s : List α) :
    G.Completes q (a::s) ↔ G.Completes (G.advance q a) s := by
  match q with
  | none => exact Iff.rfl
  | some [] => rw [completes_boundary, messages_lead, advance]
  | some (r::rs) =>
    by_cases ha : Within r a
    · rw [advance, if_pos ha]
      constructor
      · rintro ⟨u,v,he,hu,hv⟩
        obtain ⟨b,u',hb,hu',rfl⟩ := List.forall₂_cons_left_iff.mp hu
        exact ⟨u',v,(List.cons.inj he).2,hu',hv⟩
      · rintro ⟨u,v,rfl,hu,hv⟩
        exact ⟨a::u,v,rfl,List.Forall₂.cons ha hu,hv⟩
    · rw [advance, if_neg ha]
      constructor
      · rintro ⟨u,v,he,hu,hv⟩
        obtain ⟨b,u',hb,hu',rfl⟩ := List.forall₂_cons_left_iff.mp hu
        obtain ⟨rfl,-⟩ := List.cons.inj he
        exact ha hb
      · exact False.elim

theorem completes_append (q : Option (Row α)) (s t : List α) :
    G.Completes q (s++t) ↔ G.Completes (G.consume q s) t := by
  induction s generalizing q with
  | nil => exact Iff.rfl
  | cons a s ih => rw [List.cons_append, completes_cons, ih]; rfl

/-- The reader is back at a boundary exactly after what may follow. -/
theorem consume_boundary (q : Option (Row α)) (s : List α) :
    G.consume q s = some [] ↔ G.Completes q s := by
  rw [← completes_nil, ← completes_append, List.append_nil]

theorem consume_messages (s : List α) : G.consume (some []) s = some [] ↔ s ∈ G.messages := by
  rw [consume_boundary, completes_boundary]

theorem messages_residual (s t : List α) :
    s++t ∈ G.messages ↔ G.Completes (G.consume (some []) s) t := by
  rw [← completes_boundary, completes_append]

def Open (q : Option (Row α)) : Prop := ∀ rs ∈ q, ∀ r ∈ rs, r.1 ≤ r.2

theorem advance_open (q : Option (Row α)) (a : α) (hq : Open q) : Open (G.advance q a) := by
  intro rs hrs r hr
  match q with
  | none => simp [advance] at hrs
  | some [] =>
    obtain ⟨r',hrow,-⟩ := G.lead_some.mp (Option.mem_def.mp hrs)
    exact G.range_nonempty _ hrow r (by simp [hr])
  | some (r'::rs') =>
    by_cases ha : Within r' a
    · simp only [advance, if_pos ha, Option.mem_def, Option.some.injEq] at hrs
      subst hrs
      exact hq _ rfl r (by simp [hr])
    · simp [advance, ha] at hrs

theorem consume_open (q : Option (Row α)) (s : List α) (hq : Open q) :
    Open (G.consume q s) := by
  induction s generalizing q with
  | nil => exact hq
  | cons a s ih => exact ih _ (G.advance_open q a hq)

theorem matches_lows (rs : Row α) (h : ∀ r ∈ rs, r.1 ≤ r.2) : Matches rs (rs.map Prod.fst) := by
  induction rs with
  | nil => exact List.Forall₂.nil
  | cons r rs ih =>
    exact List.Forall₂.cons ⟨le_refl _,h r (by simp)⟩ (ih (fun r' hr' => h r' (by simp [hr'])))

/-- The reader is at a dead end exactly when nothing that follows can help. -/
theorem consume_dead_iff (s : List α) :
    G.consume (some []) s = none ↔ ∀ t, s++t ∉ G.messages := by
  constructor
  · intro h t ht
    rw [messages_residual, h] at ht
    exact ht
  · intro h
    cases hq : G.consume (some []) s with
    | none => rfl
    | some rs =>
      have ho := G.consume_open (some []) s (by simp [Open]) rs hq
      have hc := h (rs.map Prod.fst)
      rw [messages_residual, hq] at hc
      exact absurd ⟨_,[],by simp,matches_lows rs ho,nil_messages G.code⟩ hc

theorem matches_injective {rs rs' : Row α} (ho : ∀ r ∈ rs, r.1 ≤ r.2)
    (ho' : ∀ r ∈ rs', r.1 ≤ r.2) (h : ∀ s, Matches rs s ↔ Matches rs' s) : rs = rs' := by
  induction rs generalizing rs' with
  | nil =>
    have hnil : Matches rs' [] := (h []).mp List.Forall₂.nil
    exact (List.forall₂_nil_right_iff.mp hnil).symm
  | cons r rs ih =>
    have hlow := (h _).mp (matches_lows (r::rs) ho)
    obtain ⟨r',rs',-,-,rfl⟩ := List.forall₂_cons_right_iff.mp hlow
    have hr : r.1 ≤ r.2 := ho r (by simp)
    have hr' : r'.1 ≤ r'.2 := ho' r' (by simp)
    have hrest := matches_lows rs (fun x hx => ho x (by simp [hx]))
    have hrest' := matches_lows rs' (fun x hx => ho' x (by simp [hx]))
    have hfirst : ∀ a, Within r a ↔ Within r' a := by
      intro a
      constructor
      · intro ha
        exact (List.forall₂_cons.mp ((h _).mp (List.Forall₂.cons ha hrest))).1
      · intro ha
        exact (List.forall₂_cons.mp ((h _).mpr (List.Forall₂.cons ha hrest'))).1
    obtain rfl := within_injective hr hr' hfirst
    have hlo : Within r r.1 := ⟨le_rfl,hr⟩
    have htail : ∀ s, Matches rs s ↔ Matches rs' s := by
      intro s
      constructor
      · intro hs
        exact (List.forall₂_cons.mp ((h _).mp (List.Forall₂.cons hlo hs))).2
      · intro hs
        exact (List.forall₂_cons.mp ((h _).mpr (List.Forall₂.cons hlo hs))).2
    have hrs : rs = rs' :=
      ih (fun x hx => ho x (by simp [hx])) (fun x hx => ho' x (by simp [hx])) htail
    rw [hrs]

theorem completes_row {rs : Row α} {s : List α} (h : Matches rs s) : G.Completes (some rs) s :=
  ⟨s,[],(List.append_nil s).symm,h,nil_messages G.code⟩

theorem completes_length {rs : Row α} {s : List α} (h : G.Completes (some rs) s) :
    rs.length ≤ s.length := by
  obtain ⟨u,v,rfl,hu,-⟩ := h
  rw [hu.length_eq, List.length_append]
  exact Nat.le_add_right _ _

theorem completes_shortest {rs : Row α} {s : List α} (hs : s.length = rs.length)
    (h : G.Completes (some rs) s) : Matches rs s := by
  obtain ⟨u,v,rfl,hu,-⟩ := h
  have hl := hu.length_eq
  have hv : v = [] := by
    apply List.length_eq_zero_iff.mp
    rw [List.length_append] at hs
    omega
  rw [hv, List.append_nil]
  exact hu

/-- What may follow determines what is left of the row. -/
theorem completes_injective {q q' : Option (Row α)} (hq : Open q) (hq' : Open q')
    (h : ∀ s, G.Completes q s ↔ G.Completes q' s) : q = q' := by
  have hlow : ∀ {rs : Row α}, (∀ r ∈ rs, r.1 ≤ r.2) → G.Completes (some rs) (rs.map Prod.fst) :=
    fun ho => G.completes_row (matches_lows _ ho)
  match q, q' with
  | none, none => rfl
  | none, some rs' => exact False.elim ((h _).mpr (hlow (hq' rs' rfl)))
  | some rs, none => exact False.elim ((h _).mp (hlow (hq rs rfl)))
  | some rs, some rs' =>
    have hle := G.completes_length ((h _).mpr (hlow (hq' rs' rfl)))
    have hge := G.completes_length ((h _).mp (hlow (hq rs rfl)))
    rw [List.length_map] at hle hge
    have hl : rs.length = rs'.length := le_antisymm hle hge
    have hm : ∀ s, Matches rs s ↔ Matches rs' s := by
      intro s
      constructor
      · intro hs
        exact G.completes_shortest (hs.length_eq.symm.trans hl) ((h s).mp (G.completes_row hs))
      · intro hs
        exact G.completes_shortest (hs.length_eq.symm.trans hl.symm)
          ((h s).mpr (G.completes_row hs))
    rw [matches_injective (hq rs rfl) (hq' rs' rfl) hm]

/-- The reader keeps apart exactly the strings that some continuation keeps
apart: it has no two states for one residual. -/
theorem consume_eq_iff (s s' : List α) :
    G.consume (some []) s = G.consume (some []) s' ↔
      ∀ t, s++t ∈ G.messages ↔ s'++t ∈ G.messages := by
  have hopen : ∀ u, Open (G.consume (some []) u) :=
    fun u => G.consume_open (some []) u (by simp [Open])
  constructor
  · intro h t
    rw [messages_residual, messages_residual, h]
  · intro h
    apply G.completes_injective (hopen s) (hopen s')
    intro t
    rw [← messages_residual, ← messages_residual]
    exact h t

end Grammar

/-- A table whose later ranges lie in one range that no row starts in. -/
structure SyncGrammar (α : Type) [LinearOrder α] extends Grammar α where
  inner : α × α
  lead_outside : ∀ row ∈ rows, ∀ r ∈ row.head?, r.2 < inner.1 ∨ inner.2 < r.1
  rest_inside : ∀ row ∈ rows, ∀ r ∈ row.tail, inner.1 ≤ r.1 ∧ r.2 ≤ inner.2

theorem matches_inside {rs : Row α} {s : List α} {r : α × α} (hm : Matches rs s)
    (h : ∀ r' ∈ rs, r.1 ≤ r'.1 ∧ r'.2 ≤ r.2) : ∀ a ∈ s, Within r a := by
  induction hm with
  | nil => simp
  | @cons r' a rs s ha hm ih =>
    intro b hb
    rcases List.mem_cons.mp hb with rfl | hb
    · have hr := h r' (by simp)
      exact ⟨hr.1.trans ha.1,ha.2.trans hr.2⟩
    · exact ih (fun r'' hr'' => h r'' (by simp [hr''])) b hb

def SyncGrammar.syncCode (G : SyncGrammar α) : SyncCode α where
  toCode := G.code
  Lead a := ¬ Within G.inner a
  lead_first := by
    intro w hw a ha
    cases w with
    | nil => simp at ha
    | cons b w =>
      obtain ⟨r,rs,hrow,hr,-⟩ := G.words_cons.mp hw
      obtain rfl : b = a := by simpa using ha
      exact within_apart (G.lead_outside _ hrow r rfl) hr
  lead_only := by
    intro w hw a ha
    cases w with
    | nil => simp at ha
    | cons b w =>
      obtain ⟨r,rs,hrow,-,hm⟩ := G.words_cons.mp hw
      exact not_not_intro (matches_inside hm (G.rest_inside _ hrow) a ha)

end Library.RowGrammar
