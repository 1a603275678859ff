import Mathlib.Computability.Language

/-!
# Prefix codes and self-synchronising codes

The messages of a code are the concatenations of its words. A code carries the
proof that no word extends another, so a message factors in one way and a
message cancels from the left. A self-synchronising code also tells the first
letter of a word from every other letter; its messages can be cut exactly in
front of a first letter.
-/

set_option autoImplicit false

namespace Library.PrefixCode
open scoped Computability

structure Code (α : Type) where
  words : Language α
  nil_notMem : [] ∉ words
  prefix_free : ∀ u ∈ words, ∀ v ∈ words, u <+: v → u = v

structure SyncCode (α : Type) extends Code α where
  Lead : α → Prop
  lead_first : ∀ w ∈ words, ∀ a ∈ w.head?, Lead a
  lead_only : ∀ w ∈ words, ∀ a ∈ w.tail, ¬ Lead a

variable {α : Type}

def Code.messages (C : Code α) : Language α := C.words∗

theorem nil_messages (C : Code α) : [] ∈ C.messages := Language.nil_mem_kstar _

theorem flatten_messages (C : Code α) {ws : List (List α)} (h : ∀ w ∈ ws, w ∈ C.words) :
    ws.flatten ∈ C.messages := Language.join_mem_kstar h

theorem word_append (C : Code α) {w s : List α} (hw : w ∈ C.words) (hs : s ∈ C.messages) :
    w++s ∈ C.messages := by
  obtain ⟨ws,rfl,hws⟩ := Language.mem_kstar.mp hs
  rw [← List.flatten_cons]
  exact flatten_messages C (by simpa using ⟨hw,hws⟩)

theorem messages_append (C : Code α) {a c : List α} (ha : a ∈ C.messages)
    (hc : c ∈ C.messages) : a++c ∈ C.messages := by
  obtain ⟨us,rfl,hus⟩ := Language.mem_kstar.mp ha
  obtain ⟨vs,rfl,hvs⟩ := Language.mem_kstar.mp hc
  rw [← List.flatten_append]
  exact flatten_messages C (fun w hw => (List.mem_append.mp hw).elim (hus w) (hvs w))

theorem messages_cases (C : Code α) {s : List α} (hs : s ∈ C.messages) :
    s = [] ∨ ∃ w ∈ C.words, ∃ r ∈ C.messages, s = w++r := by
  obtain ⟨ws,rfl,hws⟩ := Language.mem_kstar.mp hs
  cases ws with
  | nil => exact Or.inl rfl
  | cons w ws =>
    exact Or.inr ⟨w,hws w (by simp),ws.flatten,
      flatten_messages C (fun v hv => hws v (by simp [hv])),rfl⟩

theorem word_ne_nil (C : Code α) {w : List α} (hw : w ∈ C.words) : w ≠ [] :=
  fun h => C.nil_notMem (h ▸ hw)

theorem first_word_unique (C : Code α) {u v s t : List α} (hu : u ∈ C.words)
    (hv : v ∈ C.words) (h : u++s = v++t) : u = v ∧ s = t := by
  have huv : u = v := by
    have hpu : u <+: v++t := ⟨s,h⟩
    rcases List.prefix_or_prefix_of_prefix hpu ⟨t,rfl⟩ with hp | hp
    · exact C.prefix_free u hu v hv hp
    · exact (C.prefix_free v hv u hu hp).symm
  subst huv
  exact ⟨rfl,List.append_cancel_left h⟩

/-- A message has one factorization into words. -/
theorem factors_unique (C : Code α) (us vs : List (List α)) (hu : ∀ w ∈ us, w ∈ C.words)
    (hv : ∀ w ∈ vs, w ∈ C.words) (h : us.flatten = vs.flatten) : us = vs := by
  induction us generalizing vs with
  | nil =>
    cases vs with
    | nil => rfl
    | cons v vs =>
      have hn := word_ne_nil C (hv v (by simp))
      simp [hn] at h
  | cons u us ih =>
    have hn := word_ne_nil C (hu u (by simp))
    cases vs with
    | nil => simp [hn] at h
    | cons v vs =>
      obtain ⟨rfl,ht⟩ := first_word_unique C (hu u (by simp)) (hv v (by simp)) h
      rw [ih vs (fun w hw => hu w (by simp [hw])) (fun w hw => hv w (by simp [hw])) ht]

theorem cancel_left (C : Code α) {a c : List α} (ha : a ∈ C.messages)
    (hac : a++c ∈ C.messages) : c ∈ C.messages := by
  obtain ⟨ws,rfl,hws⟩ := Language.mem_kstar.mp ha
  induction ws with
  | nil => exact hac
  | cons w ws ih =>
    have hw := hws w (by simp)
    rw [List.flatten_cons, List.append_assoc] at hac
    rcases messages_cases C hac with he | ⟨v,hv,r,hr,he⟩
    · have hn := word_ne_nil C hw
      simp [hn] at he
    · obtain ⟨-,rfl⟩ := first_word_unique C hw hv he
      have htail : ∀ u ∈ ws, u ∈ C.words := fun u hu => hws u (by simp [hu])
      exact ih htail (flatten_messages C htail) hr

theorem messages_head_lead (C : SyncCode α) {s : List α} (hs : s ∈ C.messages) {a : α}
    (ha : a ∈ s.head?) : C.Lead a := by
  rcases messages_cases C.toCode hs with rfl | ⟨w,hw,r,hr,rfl⟩
  · simp at ha
  · have hn := word_ne_nil C.toCode hw
    rw [List.head?_append_of_ne_nil w hn] at ha
    exact C.lead_first w hw a ha

theorem cut_messages (C : SyncCode α) {a c : List α} (hac : a++c ∈ C.messages)
    (hc : ∀ b ∈ c.head?, C.Lead b) : a ∈ C.messages := by
  obtain ⟨ws,he,hws⟩ := Language.mem_kstar.mp hac
  induction ws generalizing a with
  | nil =>
    have ha : a = [] := (List.append_eq_nil_iff.mp he).1
    exact ha ▸ nil_messages C.toCode
  | cons w ws ih =>
    have hw := hws w (by simp)
    have htail : ∀ u ∈ ws, u ∈ C.words := fun u hu => hws u (by simp [hu])
    rcases List.append_eq_append_iff.mp he with ⟨m,rfl,hm⟩ | ⟨m,rfl,hm⟩
    · cases m with
      | nil => simpa using word_append C.toCode hw (nil_messages C.toCode)
      | cons b m =>
        have hb : C.Lead b := hc b (by simp [hm])
        cases a with
        | nil => exact nil_messages C.toCode
        | cons d a => exact absurd hb (C.lead_only _ hw b (by simp))
    · exact word_append C.toCode hw
        (ih (hm ▸ flatten_messages C.toCode htail) hm.symm htail)

/-- The cut criterion of a self-synchronising code. -/
theorem cut_iff (C : SyncCode α) {a c : List α} (hac : a++c ∈ C.messages) :
    a ∈ C.messages ↔ ∀ b ∈ c.head?, C.Lead b :=
  ⟨fun ha _ hb => messages_head_lead C (cancel_left C.toCode ha hac) hb,cut_messages C hac⟩

theorem cancel_right (C : SyncCode α) {a c : List α} (hc : c ∈ C.messages)
    (hac : a++c ∈ C.messages) : a ∈ C.messages :=
  cut_messages C hac (fun _ hb => messages_head_lead C hc hb)

end Library.PrefixCode
