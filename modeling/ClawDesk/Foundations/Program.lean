import Mathlib.Logic.Function.Basic
import Mathlib.Data.List.Basic

/-!
# Programs over an effect signature

A fallible, effectful procedure is a **tree of operations**: it either returns,
or asks its environment for one operation and continues with the answer.  The
environment is not fixed by the tree, so one and the same program can be read
in four ways:

* `Trace` — the list of operations asked and answers received along one path.
  Nothing is assumed about the answers: every failure and every schedule of the
  environment is a path.
* `expand` — the program over a lower signature in which each operation has
  been replaced by the program that implements it.  `Trace.of_expand` says that
  a path of the implementation reads back as a path of the abstract program.
* `eval` — the run against a deterministic handler, which computes.
* `Runs` — a run against a relation that says which answers a state allows.

`andThen` is the early return of fallible procedures: the first error ends the
whole computation.
-/

namespace ClawDesk.Foundations

/-- A program asking operations `e : E`, answered in `R e`, and returning an
`α`. -/
inductive Prog (E : Type) (R : E → Type) (α : Type) : Type
  | ret (a : α)
  | op (e : E) (k : R e → Prog E R α)

namespace Prog

variable {E E' : Type} {R : E → Type} {R' : E' → Type} {α β γ ε : Type}

/-- Sequencing: graft the continuation at every leaf. -/
def bind : Prog E R α → (α → Prog E R β) → Prog E R β
  | ret a, f => f a
  | op e k, f => op e fun r => (k r).bind f

/-- Ask a single operation. -/
def ask (e : E) : Prog E R (R e) := op e ret

instance : Monad (Prog E R) where
  pure := ret
  bind := bind

/-- Early return on the first error. -/
def andThen (p : Prog E R (Except ε α)) (f : α → Prog E R (Except ε β)) :
    Prog E R (Except ε β) :=
  p.bind fun
    | .ok a => f a
    | .error err => ret (.error err)

/-- Convert the error of a fallible program. -/
def mapError {ε' : Type} (p : Prog E R (Except ε α)) (f : ε → ε') :
    Prog E R (Except ε' α) :=
  p.bind fun r => ret (r.mapError f)

@[simp] theorem ret_bind (a : α) (f : α → Prog E R β) : (ret a).bind f = f a := rfl

@[simp] theorem op_bind (e : E) (k : R e → Prog E R α) (f : α → Prog E R β) :
    (op e k).bind f = op e fun r => (k r).bind f := rfl

@[simp] theorem ask_bind (e : E) (f : R e → Prog E R β) : (ask e).bind f = op e f := rfl

@[simp] theorem pure_eq (a : α) : (pure a : Prog E R α) = ret a := rfl

@[simp] theorem bind_eq (p : Prog E R α) (f : α → Prog E R β) : p >>= f = p.bind f := rfl

@[simp] theorem bind_ret (p : Prog E R α) : p.bind ret = p := by
  induction p with
  | ret a => rfl
  | op e k ih => exact congrArg (op e) (funext ih)

theorem bind_assoc (p : Prog E R α) (f : α → Prog E R β) (g : β → Prog E R γ) :
    (p.bind f).bind g = p.bind fun a => (f a).bind g := by
  induction p with
  | ret a => rfl
  | op e k ih => exact congrArg (op e) (funext ih)

@[simp] theorem ret_ok_andThen (a : α) (f : α → Prog E R (Except ε β)) :
    (ret (.ok a) : Prog E R (Except ε α)).andThen f = f a := rfl

/-! ### Paths -/

/-- `p.Trace l a`: answering the operations of `p` as recorded in `l` makes it
return `a`. -/
inductive Trace : Prog E R α → List (Sigma R) → α → Prop
  | ret (a : α) : Trace (ret a) [] a
  | op {e : E} {k : R e → Prog E R α} {l : List (Sigma R)} {a : α} (r : R e)
      (rest : Trace (k r) l a) : Trace (op e k) (⟨e, r⟩ :: l) a

@[simp] theorem trace_ret {a b : α} {l : List (Sigma R)} :
    (ret a : Prog E R α).Trace l b ↔ l = [] ∧ a = b := by
  constructor
  · rintro ⟨⟩
    exact ⟨rfl, rfl⟩
  · rintro ⟨rfl, rfl⟩
    exact .ret a

theorem trace_op {e : E} {k : R e → Prog E R α} {l : List (Sigma R)} {a : α} :
    (op e k).Trace l a ↔ ∃ r l', l = ⟨e, r⟩ :: l' ∧ (k r).Trace l' a := by
  constructor
  · rintro (_ | ⟨r, rest⟩)
    exact ⟨r, _, rfl, rest⟩
  · rintro ⟨r, l', rfl, rest⟩
    exact .op r rest

/-- A path of a sequence splits at the point where the first half returned. -/
theorem trace_bind {p : Prog E R α} {f : α → Prog E R β} {l : List (Sigma R)} {b : β} :
    (p.bind f).Trace l b ↔ ∃ l₁ l₂ a, l = l₁ ++ l₂ ∧ p.Trace l₁ a ∧ (f a).Trace l₂ b := by
  induction p generalizing l with
  | ret a =>
      constructor
      · intro h
        exact ⟨[], l, a, rfl, .ret a, h⟩
      · rintro ⟨l₁, l₂, a', rfl, h₁, h₂⟩
        obtain ⟨rfl, rfl⟩ := trace_ret.mp h₁
        exact h₂
  | op e k ih =>
      rw [op_bind, trace_op]
      constructor
      · rintro ⟨r, l', rfl, h⟩
        obtain ⟨l₁, l₂, a, rfl, h₁, h₂⟩ := (ih r).mp h
        exact ⟨⟨e, r⟩ :: l₁, l₂, a, rfl, .op r h₁, h₂⟩
      · rintro ⟨l₁, l₂, a, rfl, h₁, h₂⟩
        obtain ⟨r, l', rfl, h⟩ := trace_op.mp h₁
        exact ⟨r, l' ++ l₂, rfl, (ih r).mpr ⟨l', l₂, a, rfl, h, h₂⟩⟩

/-- …and where that is a single operation, after its answer. -/
theorem trace_ask_bind {e : E} {f : R e → Prog E R β} {l : List (Sigma R)} {b : β} :
    ((ask e).bind f).Trace l b ↔ ∃ r l', l = ⟨e, r⟩ :: l' ∧ (f r).Trace l' b :=
  trace_op

/-- Returning what a program gave takes no operation. -/
theorem trace_bind_ret {p : Prog E R α} {g : α → β} {l : List (Sigma R)} {b : β} :
    (p.bind fun a => ret (g a)).Trace l b ↔ ∃ a, p.Trace l a ∧ g a = b := by
  rw [trace_bind]
  constructor
  · rintro ⟨l₁, l₂, a, rfl, h₁, h₂⟩
    obtain ⟨rfl, hb⟩ := trace_ret.mp h₂
    rw [List.append_nil]
    exact ⟨a, h₁, hb⟩
  · rintro ⟨a, h, hb⟩
    exact ⟨l, [], a, (List.append_nil l).symm, h, trace_ret.mpr ⟨rfl, hb⟩⟩

/-- Every result the program can return satisfies `Q`, whatever the answers. -/
def Ensures : Prog E R α → (α → Prop) → Prop
  | ret a, Q => Q a
  | op _ k, Q => ∀ r, (k r).Ensures Q

@[simp] theorem ensures_ret {a : α} {Q : α → Prop} : (ret a : Prog E R α).Ensures Q ↔ Q a :=
  Iff.rfl

theorem Ensures.ask {e : E} {f : R e → Prog E R α} {Q : α → Prop}
    (h : ∀ r, (f r).Ensures Q) : ((ask e).bind f).Ensures Q := h

theorem Ensures.bind {p : Prog E R α} {f : α → Prog E R β} {Q : α → Prop} {Q' : β → Prop}
    (h : p.Ensures Q) (next : ∀ a, Q a → (f a).Ensures Q') : (p.bind f).Ensures Q' := by
  induction p with
  | ret a => exact next a h
  | op e k ih => exact fun r => ih r (h r)

theorem Ensures.of_trace {p : Prog E R α} {Q : α → Prop} {l : List (Sigma R)} {a : α}
    (h : p.Ensures Q) (trace : p.Trace l a) : Q a := by
  induction trace with
  | ret a => exact h
  | op r _ ih => exact ih (h r)

theorem ensures_true (p : Prog E R α) : p.Ensures fun _ => True := by
  induction p with
  | ret a => trivial
  | op e k ih => exact ih

/-- Every operation the program can ask satisfies `ok`, whatever the answers. -/
def Asks (ok : E → Prop) : Prog E R α → Prop
  | ret _ => True
  | op e k => ok e ∧ ∀ r, (k r).Asks ok

theorem Asks.ask {ok : E → Prop} {e : E} {f : R e → Prog E R α} (he : ok e)
    (h : ∀ r, (f r).Asks ok) : ((ask e).bind f).Asks ok := ⟨he, h⟩

theorem asks_ask {ok : E → Prop} {e : E} (he : ok e) : (ask e : Prog E R (R e)).Asks ok :=
  ⟨he, fun _ => trivial⟩

theorem Asks.bind {ok : E → Prop} {p : Prog E R α} {f : α → Prog E R β} (h : p.Asks ok)
    (next : ∀ a, (f a).Asks ok) : (p.bind f).Asks ok := by
  induction p with
  | ret a => exact next a
  | op e k ih => exact ⟨h.1, fun r => ih r (h.2 r)⟩

theorem Asks.andThen {ok : E → Prop} {p : Prog E R (Except ε α)}
    {f : α → Prog E R (Except ε β)} (h : p.Asks ok) (next : ∀ a, (f a).Asks ok) :
    (p.andThen f).Asks ok := by
  refine h.bind fun r => ?_
  cases r with
  | ok a => exact next a
  | error err => trivial

theorem Asks.mono {ok ok' : E → Prop} {p : Prog E R α} (h : p.Asks ok)
    (weaken : ∀ e, ok e → ok' e) : p.Asks ok' := by
  induction p with
  | ret a => trivial
  | op e k ih => exact ⟨weaken e h.1, fun r => ih r (h.2 r)⟩

/-! ### Implementing one signature by another -/

/-- Replace every operation by the program that implements it. -/
def expand (impl : (e : E) → Prog E' R' (R e)) : Prog E R α → Prog E' R' α
  | ret a => ret a
  | op e k => (impl e).bind fun r => (k r).expand impl

theorem expand_ask (impl : (e : E) → Prog E' R' (R e)) (e : E) :
    (ask e).expand impl = impl e := bind_ret (impl e)

/-- A sequence is replaced half by half. -/
theorem expand_bind (impl : (e : E) → Prog E' R' (R e)) (p : Prog E R α) (f : α → Prog E R β) :
    (p.bind f).expand impl = (p.expand impl).bind fun a => (f a).expand impl := by
  induction p with
  | ret a => rfl
  | op e k ih =>
      rw [op_bind, expand, expand, bind_assoc]
      congr 1
      funext r
      exact ih r

/-- `l` is the concatenation of paths of the implementations of the operations
of `L`, each returning the answer that `L` records. -/
inductive Implements (impl : (e : E) → Prog E' R' (R e)) :
    List (Sigma R) → List (Sigma R') → Prop
  | nil : Implements impl [] []
  | cons {e : E} {r : R e} {L : List (Sigma R)} {l₁ l₂ : List (Sigma R')}
      (head : (impl e).Trace l₁ r) (tail : Implements impl L l₂) :
      Implements impl (⟨e, r⟩ :: L) (l₁ ++ l₂)

/-- Every answer in `L` is one that the implementing program can give. -/
theorem Implements.exists_trace {impl : (e : E) → Prog E' R' (R e)} {L : List (Sigma R)}
    {l : List (Sigma R')} (h : Implements impl L l) {e : E} {r : R e}
    (hmem : (⟨e, r⟩ : Sigma R) ∈ L) : ∃ l', (impl e).Trace l' r := by
  induction h with
  | nil => simp at hmem
  | cons head _ ih =>
      rcases List.mem_cons.mp hmem with heq | hmem
      · cases heq
        exact ⟨_, head⟩
      · exact ih hmem

/-- **Refinement.**  Every path of the expanded program implements a path of the
program above it, with the same result. -/
theorem Trace.of_expand {impl : (e : E) → Prog E' R' (R e)} {p : Prog E R α}
    {l : List (Sigma R')} {a : α} (h : (p.expand impl).Trace l a) :
    ∃ L, p.Trace L a ∧ Implements impl L l := by
  induction p generalizing l with
  | ret b =>
      obtain ⟨rfl, rfl⟩ := trace_ret.mp h
      exact ⟨[], .ret _, .nil⟩
  | op e k ih =>
      obtain ⟨l₁, l₂, r, rfl, h₁, h₂⟩ := trace_bind.mp h
      obtain ⟨L, hL, himpl⟩ := ih r h₂
      exact ⟨⟨e, r⟩ :: L, .op r hL, .cons h₁ himpl⟩

/-! ### Deterministic runs -/

/-- Run against a handler that answers every operation from a state. -/
def eval {σ : Type} (handle : (e : E) → σ → R e × σ) : Prog E R α → σ → α × σ
  | ret a, s => (a, s)
  | op e k, s => (k (handle e s).1).eval handle (handle e s).2

@[simp] theorem eval_ret {σ : Type} (handle : (e : E) → σ → R e × σ) (a : α) (s : σ) :
    (ret a : Prog E R α).eval handle s = (a, s) := rfl

@[simp] theorem eval_op {σ : Type} (handle : (e : E) → σ → R e × σ) (e : E)
    (k : R e → Prog E R α) (s : σ) :
    (op e k).eval handle s = (k (handle e s).1).eval handle (handle e s).2 := rfl

@[simp] theorem eval_bind {σ : Type} (handle : (e : E) → σ → R e × σ) (p : Prog E R α)
    (f : α → Prog E R β) (s : σ) :
    (p.bind f).eval handle s =
      (f (p.eval handle s).1).eval handle (p.eval handle s).2 := by
  induction p generalizing s with
  | ret a => rfl
  | op e k ih => exact ih _ _

/-- The path such a run takes. -/
def path {σ : Type} (handle : (e : E) → σ → R e × σ) : Prog E R α → σ → List (Sigma R)
  | ret _, _ => []
  | op e k, s => ⟨e, (handle e s).1⟩ :: (k (handle e s).1).path handle (handle e s).2

theorem trace_path {σ : Type} (handle : (e : E) → σ → R e × σ) (p : Prog E R α) (s : σ) :
    p.Trace (p.path handle s) (p.eval handle s).1 := by
  induction p generalizing s with
  | ret a => exact .ret a
  | op e k ih => exact .op _ (ih _ _)

/-- Every answer on the path is the handler's. -/
theorem exists_of_mem_path {σ : Type} {handle : (e : E) → σ → R e × σ} {p : Prog E R α} {s : σ}
    {e : E} {r : R e} (h : (⟨e, r⟩ : Sigma R) ∈ p.path handle s) : ∃ s', r = (handle e s').1 := by
  induction p generalizing s with
  | ret a => simp [path] at h
  | op e' k ih =>
      rcases List.mem_cons.mp h with heq | hmem
      · cases heq
        exact ⟨s, rfl⟩
      · exact ih _ hmem

/-! ### Runs against a relation -/

section Runs

variable {σ : Type} {exec : (e : E) → σ → R e → σ → Prop}

/-- From `s`, every operation answered in a way `exec` allows, the program returns `a` and
leaves the state `s'`. -/
inductive Runs (exec : (e : E) → σ → R e → σ → Prop) : Prog E R α → σ → α → σ → Prop
  | ret (a : α) (s : σ) : Runs exec (ret a) s a s
  | op {e : E} {k : R e → Prog E R α} {s s₁ s' : σ} {r : R e} {a : α}
      (answer : exec e s r s₁) (rest : Runs exec (k r) s₁ a s') : Runs exec (op e k) s a s'

@[simp] theorem runs_ret {a b : α} {s s' : σ} :
    (ret a : Prog E R α).Runs exec s b s' ↔ b = a ∧ s' = s := by
  constructor
  · rintro ⟨⟩
    exact ⟨rfl, rfl⟩
  · rintro ⟨rfl, rfl⟩
    exact .ret b s'

theorem runs_op {e : E} {k : R e → Prog E R α} {s s' : σ} {a : α} :
    (op e k).Runs exec s a s' ↔ ∃ r s₁, exec e s r s₁ ∧ (k r).Runs exec s₁ a s' := by
  constructor
  · rintro (_ | ⟨answer, rest⟩)
    exact ⟨_, _, answer, rest⟩
  · rintro ⟨r, s₁, answer, rest⟩
    exact .op answer rest

/-- A run of a sequence passes through the state in which the first half returned. -/
theorem runs_bind {p : Prog E R α} {f : α → Prog E R β} {s s' : σ} {b : β} :
    (p.bind f).Runs exec s b s' ↔ ∃ a s₁, p.Runs exec s a s₁ ∧ (f a).Runs exec s₁ b s' := by
  induction p generalizing s with
  | ret a =>
      constructor
      · exact fun h => ⟨a, s, .ret a s, h⟩
      · rintro ⟨a', s₁, h₁, h₂⟩
        obtain ⟨rfl, rfl⟩ := runs_ret.mp h₁
        exact h₂
  | op e k ih =>
      rw [op_bind, runs_op]
      constructor
      · rintro ⟨r, s₁, answer, h⟩
        obtain ⟨a, s₂, h₁, h₂⟩ := (ih r).mp h
        exact ⟨a, s₂, .op answer h₁, h₂⟩
      · rintro ⟨a, s₂, h₁, h₂⟩
        obtain ⟨r, s₁, answer, rest⟩ := runs_op.mp h₁
        exact ⟨r, s₁, answer, (ih r).mpr ⟨a, s₂, rest, h₂⟩⟩

/-- What every operation the program may ask keeps, its runs keep. -/
theorem Runs.keeps {ok : E → Prop} {I : σ → Prop} {p : Prog E R α} {s s' : σ} {a : α}
    (h : p.Runs exec s a s') (asks : p.Asks ok)
    (kept : ∀ {e s r s₁}, ok e → exec e s r s₁ → I s → I s₁) (hs : I s) : I s' := by
  induction h with
  | ret a s => exact hs
  | op answer _ ih => exact ih (asks.2 _) (kept asks.1 answer hs)

/-- A handler that answers as allowed makes a run. -/
theorem runs_eval {handle : (e : E) → σ → R e × σ}
    (answers : ∀ e s, exec e s (handle e s).1 (handle e s).2) (p : Prog E R α) (s : σ) :
    p.Runs exec s (p.eval handle s).1 (p.eval handle s).2 := by
  induction p generalizing s with
  | ret a => exact .ret a s
  | op e k ih => exact .op (answers e s) (ih _ _)

end Runs

/-! ### Runs that stop -/

/-- Run against a handler for as long as there are signals, one for each operation; then
the process stops, and only the state is left. -/
def evalFor {σ S : Type} (handle : S → (e : E) → σ → R e × σ) : List S → Prog E R α → σ → σ
  | signal :: signals, op e k, s =>
      evalFor handle signals (k (handle signal e s).1) (handle signal e s).2
  | _, _, s => s

@[simp] theorem evalFor_nil {σ S : Type} (handle : S → (e : E) → σ → R e × σ)
    (p : Prog E R α) (s : σ) : p.evalFor handle [] s = s := by
  cases p <;> rfl

@[simp] theorem evalFor_ret {σ S : Type} (handle : S → (e : E) → σ → R e × σ)
    (signals : List S) (a : α) (s : σ) : (ret a : Prog E R α).evalFor handle signals s = s := by
  cases signals <;> rfl

@[simp] theorem evalFor_op {σ S : Type} (handle : S → (e : E) → σ → R e × σ) (signal : S)
    (signals : List S) (e : E) (k : R e → Prog E R α) (s : σ) :
    (op e k).evalFor handle (signal :: signals) s =
      (k (handle signal e s).1).evalFor handle signals (handle signal e s).2 := rfl

end Prog

end ClawDesk.Foundations
