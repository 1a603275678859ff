import Mathlib.Data.List.Basic
import Mathlib.Tactic.Common

/-!
# Checked programs over a partial memory

A program is a tree: it reads cells, leaves marks, stops with a fault or
returns. Memory is consulted only by `read`, so one tree can be run on a
memory, on a restriction of it and on any memory that agrees where it looks.
A run returns the value together with every cell read and every mark left.
-/

set_option autoImplicit false

namespace Library.CheckedProgram

inductive Prog (β ι ε α : Type) where
  | done (a : α)
  | fault (e : ε)
  | read (i : ℕ) (next : β → Prog β ι ε α)
  | mark (x : ι) (next : Prog β ι ε α)

inductive Event (ι : Type) where
  | read (i : ℕ)
  | mark (x : ι)
  deriving DecidableEq, Repr

/-- A run ends badly in one of two ways: the program's own fault, or a read
of a cell the memory does not have. -/
inductive Stop (ε : Type) where
  | fault (e : ε)
  | unmapped (i : ℕ)
  deriving DecidableEq, Repr

abbrev Memory (β : Type) := ℕ → Option β

abbrev Outcome (ι ε α : Type) := Except (Stop ε) (α × List (Event ι))

namespace Prog

variable {β ι ε α γ δ σ : Type}

def bind : Prog β ι ε α → (α → Prog β ι ε γ) → Prog β ι ε γ
  | .done a, f => f a
  | .fault e, _ => .fault e
  | .read i next, f => .read i (fun b => (next b).bind f)
  | .mark x next, f => .mark x (next.bind f)

instance : Monad (Prog β ι ε) where
  pure := .done
  bind := bind

@[simp] theorem pure_def (a : α) : (pure a : Prog β ι ε α) = .done a := rfl

@[simp] theorem done_bind (a : α) (f : α → Prog β ι ε γ) : (.done a >>= f) = f a := rfl

@[simp] theorem fault_bind (e : ε) (f : α → Prog β ι ε γ) :
    ((.fault e : Prog β ι ε α) >>= f) = .fault e := rfl

@[simp] theorem read_bind (i : ℕ) (next : β → Prog β ι ε α) (f : α → Prog β ι ε γ) :
    (.read i next >>= f) = .read i (fun b => next b >>= f) := rfl

@[simp] theorem mark_bind (x : ι) (next : Prog β ι ε α) (f : α → Prog β ι ε γ) :
    (.mark x next >>= f) = .mark x (next >>= f) := rfl

theorem bind_done (p : Prog β ι ε α) : (p >>= .done) = p := by
  induction p with
  | done a => rfl
  | fault e => rfl
  | read i next ih => simp only [read_bind, ih]
  | mark x next ih => simp only [mark_bind, ih]

theorem bind_assoc (p : Prog β ι ε α) (f : α → Prog β ι ε γ) (g : γ → Prog β ι ε δ) :
    ((p >>= f) >>= g) = (p >>= fun a => f a >>= g) := by
  induction p with
  | done a => rfl
  | fault e => rfl
  | read i next ih => simp only [read_bind, ih]
  | mark x next ih => simp only [mark_bind, ih]

def check (c : Prop) [Decidable c] (e : ε) : Prog β ι ε Unit :=
  if c then .done () else .fault e

theorem check_pos {c : Prop} [Decidable c] {e : ε} (h : c) :
    (check c e : Prog β ι ε Unit) = .done () := if_pos h

def cell (i : ℕ) : Prog β ι ε β := .read i .done

def note (x : ι) : Prog β ι ε Unit := .mark x (.done ())

def cells : ℕ → ℕ → Prog β ι ε (List β)
  | _, 0 => pure []
  | i, n+1 => do
    let b ← cell i
    let bs ← cells (i+1) n
    pure (b::bs)

theorem cells_succ (i n : ℕ) : (cells i (n+1) : Prog β ι ε (List β)) =
    .read i (fun b => cells (i+1) n >>= fun bs => .done (b::bs)) := rfl

theorem cells_bind_congr {i n : ℕ} {f g : List β → Prog β ι ε α}
    (h : ∀ bs, bs.length = n → f bs = g bs) :
    ((cells i n : Prog β ι ε (List β)) >>= f) = (cells i n >>= g) := by
  induction n generalizing i f g with
  | zero => exact h [] rfl
  | succ n ih =>
    rw [cells_succ, read_bind, read_bind]
    apply congrArg (Prog.read i)
    funext b
    rw [bind_assoc, bind_assoc]
    apply ih
    intro bs hbs
    exact h (b::bs) (congrArg Nat.succ hbs)

end Prog

inductive Turn (σ α : Type) where
  | again (s : σ)
  | leave (a : α)

section Run

variable {β ι ε α γ σ : Type}

def logged (t : List (Event ι)) : Outcome ι ε α → Outcome ι ε α
  | .ok (a, u) => .ok (a, t++u)
  | .error s => .error s

def run (m : Memory β) : Prog β ι ε α → Outcome ι ε α
  | .done a => .ok (a, [])
  | .fault e => .error (.fault e)
  | .read i next =>
    match m i with
    | some b => logged [.read i] (run m (next b))
    | none => .error (.unmapped i)
  | .mark x next => logged [.mark x] (run m next)

@[simp] theorem logged_ok (t : List (Event ι)) (r : α × List (Event ι)) :
    logged t (.ok r : Outcome ι ε α) = .ok (r.1, t++r.2) := rfl

@[simp] theorem logged_error (t : List (Event ι)) (s : Stop ε) :
    logged t (.error s : Outcome ι ε α) = .error s := rfl

@[simp] theorem logged_nil (o : Outcome ι ε α) : logged [] o = o := by
  rcases o with s | ⟨a,u⟩ <;> rfl

@[simp] theorem logged_logged (t u : List (Event ι)) (o : Outcome ι ε α) :
    logged t (logged u o) = logged (t++u) o := by
  rcases o with s | ⟨a,v⟩ <;> simp

/-- Running a sequence runs its second part after the first and keeps both logs. -/
theorem run_bind (m : Memory β) (p : Prog β ι ε α) (f : α → Prog β ι ε γ) :
    run m (p >>= f) =
      match run m p with
      | .ok (a, t) => logged t (run m (f a))
      | .error s => .error s := by
  induction p with
  | done a => simp [run]
  | fault e => rfl
  | read i next ih =>
    simp only [Prog.read_bind, run]
    cases m i with
    | none => rfl
    | some b =>
      simp only [ih]
      rcases run m (next b) with s | ⟨a,t⟩ <;> simp
  | mark x next ih =>
    simp only [Prog.mark_bind, run, ih]
    rcases run m next with s | ⟨a,t⟩ <;> simp

/-- `p` runs to the point where `q` is left to run, logging `t` on the way. -/
def Reaches (m : Memory β) (p : Prog β ι ε α) (t : List (Event ι)) (q : Prog β ι ε α) : Prop :=
  run m p = logged t (run m q)

theorem Reaches.refl (m : Memory β) (p : Prog β ι ε α) : Reaches m p [] p :=
  (logged_nil _).symm

theorem Reaches.trans {m : Memory β} {p q r : Prog β ι ε α} {t u : List (Event ι)}
    (h : Reaches m p t q) (k : Reaches m q u r) : Reaches m p (t++u) r := by
  unfold Reaches at *
  rw [h, k, logged_logged]

theorem Reaches.bind {m : Memory β} {p q : Prog β ι ε α} {t : List (Event ι)}
    (h : Reaches m p t q) (f : α → Prog β ι ε γ) : Reaches m (p >>= f) t (q >>= f) := by
  unfold Reaches at *
  rw [run_bind, run_bind, h]
  rcases run m q with s | ⟨a,u⟩ <;> simp

theorem Reaches.then {m : Memory β} {p : Prog β ι ε α} {a : α} {t : List (Event ι)}
    (h : Reaches m p t (.done a)) (f : α → Prog β ι ε γ) : Reaches m (p >>= f) t (f a) :=
  h.bind f

theorem reaches_done {m : Memory β} {p : Prog β ι ε α} {a : α} {t : List (Event ι)} :
    Reaches m p t (.done a) ↔ run m p = .ok (a, t) := by
  simp [Reaches, run]

theorem reaches_cell {m : Memory β} {i : ℕ} {b : β} (h : m i = some b) :
    Reaches m (Prog.cell i : Prog β ι ε β) [.read i] (.done b) := by
  simp [Reaches, Prog.cell, run, h]

theorem reaches_note (m : Memory β) (x : ι) :
    Reaches m (Prog.note x : Prog β ι ε Unit) [.mark x] (.done ()) := rfl

def reads (t : List (Event ι)) : List ℕ :=
  t.filterMap (fun e => match e with | .read i => some i | .mark _ => none)

def marks (t : List (Event ι)) : List ι :=
  t.filterMap (fun e => match e with | .read _ => none | .mark x => some x)

@[simp] theorem reads_nil : reads ([] : List (Event ι)) = [] := rfl

@[simp] theorem marks_nil : marks ([] : List (Event ι)) = [] := rfl

@[simp] theorem reads_append (t u : List (Event ι)) : reads (t++u) = reads t++reads u :=
  List.filterMap_append

@[simp] theorem marks_append (t u : List (Event ι)) : marks (t++u) = marks t++marks u :=
  List.filterMap_append

@[simp] theorem reads_read (i : ℕ) (t : List (Event ι)) :
    reads (.read i::t) = i::reads t := rfl

@[simp] theorem reads_mark (x : ι) (t : List (Event ι)) : reads (.mark x::t) = reads t := rfl

@[simp] theorem marks_read (i : ℕ) (t : List (Event ι)) : marks (.read i::t) = marks t := rfl

@[simp] theorem marks_mark (x : ι) (t : List (Event ι)) :
    marks (.mark x::t) = x::marks t := rfl

@[simp] theorem reads_map_read (is : List ℕ) :
    reads (is.map (Event.read : ℕ → Event ι)) = is := by
  induction is with
  | nil => rfl
  | cons i is ih => simp [ih]

@[simp] theorem marks_map_read (is : List ℕ) :
    marks (is.map (Event.read : ℕ → Event ι)) = [] := by
  induction is with
  | nil => rfl
  | cons i is ih => simpa using ih

theorem run_unique {m : Memory β} {p : Prog β ι ε α} {a b : α} {t u : List (Event ι)}
    (h : run m p = .ok (a, t)) (k : run m p = .ok (b, u)) : a = b ∧ t = u :=
  Prod.mk.inj (Except.ok.inj (h.symm.trans k))

theorem run_done_ok {m : Memory β} {a b : α} {t : List (Event ι)} :
    run m (.done a : Prog β ι ε α) = .ok (b, t) ↔ a = b ∧ t = [] := by
  simp [run, eq_comm]

theorem run_read_ok {m : Memory β} {i : ℕ} {next : β → Prog β ι ε α} {a : α}
    {t : List (Event ι)} : run m (.read i next) = .ok (a, t) ↔
      ∃ b u, m i = some b ∧ run m (next b) = .ok (a, u) ∧ t = .read i::u := by
  simp only [run]
  cases m i with
  | none => simp
  | some b => rcases h : run m (next b) with s | ⟨a',u⟩ <;> simp [h, eq_comm]

theorem run_mark_ok {m : Memory β} {x : ι} {next : Prog β ι ε α} {a : α}
    {t : List (Event ι)} : run m (.mark x next) = .ok (a, t) ↔
      ∃ u, run m next = .ok (a, u) ∧ t = .mark x::u := by
  simp only [run]
  rcases h : run m next with s | ⟨a',u⟩ <;> simp [eq_comm]

theorem run_bind_ok {m : Memory β} {p : Prog β ι ε α} {f : α → Prog β ι ε γ} {c : γ}
    {t : List (Event ι)} : run m (p >>= f) = .ok (c, t) ↔
      ∃ a u v, run m p = .ok (a, u) ∧ run m (f a) = .ok (c, v) ∧ t = u++v := by
  rw [run_bind]
  rcases run m p with s | ⟨a,u⟩
  · simp
  · rcases h : run m (f a) with s | ⟨c',v⟩ <;> simp [h, eq_comm]

theorem run_mapped {m : Memory β} {p : Prog β ι ε α} {a : α} {t : List (Event ι)}
    (h : run m p = .ok (a, t)) {i : ℕ} (hi : i ∈ reads t) : ∃ b, m i = some b := by
  induction p generalizing t with
  | done a' =>
    obtain ⟨rfl,rfl⟩ := run_done_ok.mp h
    simp at hi
  | fault e => simp [run] at h
  | read j next ih =>
    obtain ⟨b,u,hj,hu,rfl⟩ := run_read_ok.mp h
    rcases List.mem_cons.mp hi with rfl | hi
    · exact ⟨b,hj⟩
    · exact ih b hu hi
  | mark x next ih =>
    obtain ⟨u,hu,rfl⟩ := run_mark_ok.mp h
    exact ih hu hi

/-- Frame rule. A finished run depends only on the cells it read, so it is
repeated on every memory that agrees with the first one there. -/
theorem run_frame {m m' : Memory β} {p : Prog β ι ε α} {a : α} {t : List (Event ι)}
    (h : run m p = .ok (a, t)) (hm : ∀ i ∈ reads t, m' i = m i) : run m' p = .ok (a, t) := by
  induction p generalizing t with
  | done a' => exact h
  | fault e => simp [run] at h
  | read j next ih =>
    obtain ⟨b,u,hj,hu,rfl⟩ := run_read_ok.mp h
    have hj' : m' j = some b := (hm j (by simp)).trans hj
    exact run_read_ok.mpr ⟨b,u,hj',ih b hu (fun i hi => hm i (by simp [hi])),rfl⟩
  | mark x next ih =>
    obtain ⟨u,hu,rfl⟩ := run_mark_ok.mp h
    exact run_mark_ok.mpr ⟨u,ih hu hm,rfl⟩

end Run

section Loop

variable {β ι ε α σ : Type}

/-- `body` is repeated from state `s` until it leaves; a loop that has not left
after its fuel faults with `stuck`. -/
def loop (stuck : ε) (body : σ → Prog β ι ε (Turn σ α)) : ℕ → σ → Prog β ι ε α
  | 0, _ => .fault stuck
  | n+1, s => do
    match ← body s with
    | .again s' => loop stuck body n s'
    | .leave a => pure a

/-- Loop rule. Each pass either re-establishes the invariant at a smaller
measure, or comes to a last program `q` whose result is the loop's result. The
invariant and the exit condition see the whole log of the loop. -/
theorem loop_reaches {m : Memory β} (stuck : ε) (body : σ → Prog β ι ε (Turn σ α))
    (I : σ → List (Event ι) → Prop) (Q : List (Event ι) → Prog β ι ε α → Prop) (μ : σ → ℕ)
    (hbody : ∀ s t, I s t →
      (∃ s' u, Reaches m (body s) u (.done (.again s')) ∧ I s' (t++u) ∧ μ s' < μ s) ∨
      (∃ u q, Reaches m (body s) u (q >>= fun a => .done (.leave a)) ∧ Q (t++u) q)) :
    ∀ (n : ℕ) (s : σ) (t : List (Event ι)), I s t → μ s < n →
      ∃ u q, Reaches m (loop stuck body n s) u q ∧ Q (t++u) q := by
  intro n
  induction n with
  | zero => intro s t hs hn; omega
  | succ n ih =>
    intro s t hs hn
    rcases hbody s t hs with ⟨s',u,hr,hi,hlt⟩ | ⟨u,q,hr,hq⟩
    · obtain ⟨v,q,hv,hq⟩ := ih s' (t++u) hi (by omega)
      exact ⟨u++v,q,(hr.then _).trans hv,by simpa using hq⟩
    · refine ⟨u,q,?_,hq⟩
      have h := hr.bind (fun r => match r with
        | .again s' => loop stuck body n s'
        | .leave a => pure a)
      rw [Prog.bind_assoc] at h
      exact (Prog.bind_done q) ▸ h

end Loop

section Store

variable {β ι ε α : Type}

def store (l : List β) : Memory β := fun i => l[i]?

def below (L : ℕ) (m : Memory β) : Memory β := fun i => if i < L then m i else none

theorem run_store_lt {l : List β} {p : Prog β ι ε α} {a : α} {t : List (Event ι)}
    (h : run (store l) p = .ok (a, t)) {i : ℕ} (hi : i ∈ reads t) : i < l.length := by
  obtain ⟨b,hb⟩ := run_mapped h hi
  exact (List.getElem?_eq_some_iff.mp hb).1

theorem run_below {m : Memory β} {p : Prog β ι ε α} {a : α} {t : List (Event ι)} {L : ℕ}
    (h : run m p = .ok (a, t)) (hL : ∀ i ∈ reads t, i < L) : run (below L m) p = .ok (a, t) :=
  run_frame h (fun i hi => if_pos (hL i hi))

theorem reaches_cells (l : List β) (i n : ℕ) (h : i+n ≤ l.length) :
    Reaches (store l) (Prog.cells i n : Prog β ι ε (List β))
      ((List.range' i n).map .read) (.done ((l.drop i).take n)) := by
  induction n generalizing i with
  | zero => simpa [Prog.cells] using Reaches.refl (store l) (.done [])
  | succ n ih =>
    have hi : i < l.length := by omega
    have hb : store l i = some l[i] := List.getElem?_eq_getElem hi
    rw [List.drop_eq_getElem_cons hi, List.take_succ_cons, List.range'_succ, List.map_cons]
    exact ((reaches_cell hb).then _).trans ((ih (i+1) (by omega)).then _)

end Store

end Library.CheckedProgram
