import Mathlib.Algebra.Order.Group.Nat
import Mathlib.Data.List.Basic
import Mathlib.Tactic.Common

/-!
# Stretches of a list

`slice l s e` is the stretch of `l` from index `s` up to index `e`. Stretches
that meet are joined by append, and a property of all letters of a stretch is
split and restricted with the stretch.
-/

set_option autoImplicit false

namespace Library.Slice

variable {α : Type}

def slice (l : List α) (s e : ℕ) : List α := (l.drop s).take (e-s)

@[simp] theorem slice_self (l : List α) (s : ℕ) : slice l s s = [] := by simp [slice]

@[simp] theorem slice_all (l : List α) : slice l 0 l.length = l := by simp [slice]

theorem length_slice (l : List α) {s e : ℕ} (he : e ≤ l.length) : (slice l s e).length = e-s := by
  simp only [slice, List.length_take, List.length_drop]
  omega

theorem length_slice_add (l : List α) {s n : ℕ} (h : s+n ≤ l.length) :
    (slice l s (s+n)).length = n := by
  rw [length_slice l h, Nat.add_sub_cancel_left]

theorem take_drop_slice (l : List α) (s n : ℕ) : (l.drop s).take n = slice l s (s+n) := by
  rw [slice, Nat.add_sub_cancel_left]

theorem slice_take (l : List α) (s n k : ℕ) (hk : k ≤ n) :
    (slice l s (s+n)).take k = slice l s (s+k) := by
  simp [slice, List.take_take, Nat.min_eq_left hk]

theorem slice_append (l : List α) {s m e : ℕ} (hs : s ≤ m) (hm : m ≤ e) :
    slice l s m++slice l m e = slice l s e := by
  have he : e-s = (m-s)+(e-m) := by omega
  have hd : l.drop m = (l.drop s).drop (m-s) := by
    rw [List.drop_drop, Nat.add_sub_cancel' hs]
  rw [slice, slice, slice, he, hd, List.take_add]

theorem slice_one (l : List α) {s : ℕ} (h : s < l.length) : slice l s (s+1) = [l[s]] := by
  rw [slice, Nat.add_sub_cancel_left, List.drop_eq_getElem_cons h, List.take_succ_cons,
    List.take_zero]

theorem getElem?_slice (l : List α) {s e : ℕ} (i : ℕ) (hi : i < e-s) :
    (slice l s e)[i]? = l[s+i]? := by
  simp [slice, hi]

def AllOn (P : α → Prop) (l : List α) (s e : ℕ) : Prop := ∀ a ∈ slice l s e, P a

theorem allOn_self (P : α → Prop) (l : List α) (s : ℕ) : AllOn P l s s := by simp [AllOn]

theorem allOn_split {P : α → Prop} {l : List α} {s m e : ℕ} (hs : s ≤ m) (hm : m ≤ e) :
    AllOn P l s e ↔ AllOn P l s m ∧ AllOn P l m e := by
  simp only [AllOn, ← slice_append l hs hm, List.mem_append, or_imp, forall_and]

theorem allOn_mono {P : α → Prop} {l : List α} {s e s' e' : ℕ} (hs : s ≤ s') (he : e' ≤ e)
    (h : AllOn P l s e) : AllOn P l s' e' := by
  by_cases hle : s' ≤ e'
  · have hr := ((allOn_split hs (hle.trans he)).mp h).2
    exact ((allOn_split hle he).mp hr).1
  · have hz : e'-s' = 0 := by omega
    simp [AllOn, slice, hz]

theorem allOn_overlap {P : α → Prop} {l : List α} {s m m' e : ℕ} (hs : s ≤ m') (hm : m' ≤ m)
    (he : m ≤ e) : AllOn P l s m ∧ AllOn P l m' e ↔ AllOn P l s e := by
  constructor
  · intro h
    exact (allOn_split (hs.trans hm) he).mpr ⟨h.1,allOn_mono hm le_rfl h.2⟩
  · intro h
    exact ⟨allOn_mono le_rfl he h,allOn_mono hs le_rfl h⟩

theorem allOn_one {P : α → Prop} {l : List α} {s : ℕ} (hs : s < l.length) :
    AllOn P l s (s+1) ↔ P l[s] := by
  simp [AllOn, slice_one l hs]

theorem first_failure {P : α → Prop} {l : List α} {s e : ℕ} (hs : s ≤ e) (he : e ≤ l.length)
    (h : ¬ AllOn P l s e) :
    ∃ f, s ≤ f ∧ f < e ∧ AllOn P l s f ∧ ∃ a, l[f]? = some a ∧ ¬ P a := by
  induction e, hs using Nat.le_induction with
  | base => exact absurd (allOn_self P l s) h
  | succ e hse ih =>
    have hlt : e < l.length := he
    by_cases hp : AllOn P l s e
    · refine ⟨e,hse,Nat.lt_succ_self e,hp,l[e],List.getElem?_eq_getElem hlt,fun ha => h ?_⟩
      exact (allOn_split hse (Nat.le_succ e)).mpr ⟨hp,(allOn_one hlt).mpr ha⟩
    · obtain ⟨f,hsf,hfe,hf⟩ := ih (by omega) hp
      exact ⟨f,hsf,by omega,hf⟩

end Library.Slice
