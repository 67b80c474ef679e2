import ClawDesk.Foundations.Program
import Mathlib.Logic.Relation

/-!
# Interleaved calls over a shared world

Any number of **calls**, each a program, run against one shared world.  A step
of the system is one operation of one call, a step of the surroundings (time,
for example), the start of a call, or the crash of one.  Nothing is assumed
about the schedule.

The shared state carries the **log** of every operation asked and answered, so
that what a call has seen, written or been granted is a function of the log and
not of extra bookkeeping in the programs.

`Proto` collects what an argument about such runs needs: an invariant and a
claim about each single operation (`assert`).  What a call knows must be
`Stable` under the moves of the others; `Proto.Safe` is the weakest precondition
of a program under this interference.  It is a fold over the program, so a
call's proof is composed with `Safe.bind` from one lemma per function.
`Proto.Good.run` is the rule: if every call that may be started is safe, the
invariant holds in every reachable configuration and every operation ever
performed meets its claim.

Calls that never overlap are a `Serial` run; `Proto.serial` is the same rule for
them.
-/

namespace ClawDesk.Foundations

variable {Tid E : Type} {R : E → Type} {σ : Type}

/-- One operation of one call, with the answer it received. -/
structure Event (Tid E : Type) (R : E → Type) where
  tid : Tid
  op : E
  res : R op

/-- What all calls share: the world, and the log of everything done to it,
newest first. -/
structure Shared (Tid E : Type) (R : E → Type) (σ : Type) where
  world : σ
  log : List (Event Tid E R)

/-- The shared state after the event `ev` has left the world at `w`. -/
def Shared.push (s : Shared Tid E R σ) (ev : Event Tid E R) (w : σ) :
    Shared Tid E R σ :=
  ⟨w, ev :: s.log⟩

@[simp] theorem Shared.push_world (s : Shared Tid E R σ) (ev : Event Tid E R) (w : σ) :
    (s.push ev w).world = w := rfl

@[simp] theorem Shared.push_log (s : Shared Tid E R σ) (ev : Event Tid E R) (w : σ) :
    (s.push ev w).log = ev :: s.log := rfl

/-- Call `t` has not performed any operation. -/
def Shared.Silent (s : Shared Tid E R σ) (t : Tid) : Prop := ∀ ev ∈ s.log, ev.tid ≠ t

theorem Shared.Silent.push {s : Shared Tid E R σ} {t : Tid} {ev : Event Tid E R} {w : σ}
    (h : s.Silent t) (other : ev.tid ≠ t) : (s.push ev w).Silent t := by
  intro ev' hev'
  rcases List.mem_cons.mp hev' with rfl | hmem
  · exact other
  · exact h ev' hmem

/-- How the world answers an operation, and how it changes by itself. -/
structure System (E : Type) (R : E → Type) (σ : Type) where
  exec : (e : E) → σ → R e → σ → Prop
  env : σ → σ → Prop

/-- What a program may return when nothing interferes with it. -/
def System.Yields {α : Type} (sys : System E R σ) : Prog E R α → σ → α → Prop
  | .ret a, _, b => a = b
  | .op e k, w, b => ∃ r w', sys.exec e w r w' ∧ sys.Yields (k r) w' b

/-- A configuration: the shared state and what is left of every call that has
been started. -/
structure Config (Tid E : Type) (R : E → Type) (σ : Type) where
  shared : Shared Tid E R σ
  call : Tid → Option (Prog E R Unit)

/-- No call has been started. -/
def Config.idle (Tid E : Type) (R : E → Type) {σ : Type} (w : σ) : Config Tid E R σ :=
  ⟨⟨w, []⟩, fun _ => none⟩

/-- What a step of the system does. -/
inductive Action (Tid E : Type) (R : E → Type) (σ : Type) where
  | op (ev : Event Tid E R) (w : σ)
  | env (w : σ)
  | start (t : Tid) (p : Prog E R Unit)
  | crash (t : Tid)

/-- The world has moved by itself. -/
def Shared.drift (s : Shared Tid E R σ) (w : σ) : Shared Tid E R σ := ⟨w, s.log⟩

@[simp] theorem Shared.drift_world (s : Shared Tid E R σ) (w : σ) :
    (s.drift w).world = w := rfl

@[simp] theorem Shared.drift_log (s : Shared Tid E R σ) (w : σ) :
    (s.drift w).log = s.log := rfl

section Steps

variable [DecidableEq Tid]

/-- The configuration in which the shared state is `s` and call `t` has `p` left
to do. -/
def Config.set (c : Config Tid E R σ) (s : Shared Tid E R σ) (t : Tid)
    (p : Prog E R Unit) : Config Tid E R σ :=
  ⟨s, Function.update c.call t (some p)⟩

/-- The steps of the system.  A call identifier is used for one call only, and a
crashed call does nothing more. -/
inductive Step (sys : System E R σ) (client : Tid → Prog E R Unit → Prop) :
    Config Tid E R σ → Action Tid E R σ → Config Tid E R σ → Prop
  | op {c : Config Tid E R σ} {t : Tid} {e : E} {k : R e → Prog E R Unit} {r : R e} {w : σ}
      (running : c.call t = some (.op e k)) (answer : sys.exec e c.shared.world r w) :
      Step sys client c (.op ⟨t, e, r⟩ w) (c.set (c.shared.push ⟨t, e, r⟩ w) t (k r))
  | env {c : Config Tid E R σ} {w : σ} (moves : sys.env c.shared.world w) :
      Step sys client c (.env w) ⟨c.shared.drift w, c.call⟩
  | start {c : Config Tid E R σ} {t : Tid} {p : Prog E R Unit}
      (unused : c.call t = none) (allowed : client t p) :
      Step sys client c (.start t p) (c.set c.shared t p)
  | crash {c : Config Tid E R σ} {t : Tid} :
      Step sys client c (.crash t) (c.set c.shared t (.ret ()))

/-- Runs all of whose operations meet the condition `cond` on the shared state
they find. -/
inductive Run (sys : System E R σ) (client : Tid → Prog E R Unit → Prop)
    (cond : Shared Tid E R σ → Event Tid E R → Prop) :
    Config Tid E R σ → Config Tid E R σ → Prop
  | refl (c : Config Tid E R σ) : Run sys client cond c c
  | tail {c c' c'' : Config Tid E R σ} {a : Action Tid E R σ}
      (run : Run sys client cond c c') (step : Step sys client c' a c'')
      (meets : ∀ ev w, a = .op ev w → cond c'.shared ev) :
      Run sys client cond c c''

theorem Run.trans {sys : System E R σ} {client : Tid → Prog E R Unit → Prop}
    {cond : Shared Tid E R σ → Event Tid E R → Prop} {c c' c'' : Config Tid E R σ}
    (h₁ : Run sys client cond c c') (h₂ : Run sys client cond c' c'') :
    Run sys client cond c c'' := by
  induction h₂ with
  | refl => exact h₁
  | tail _ step meets ih => exact .tail ih step meets

/-- A run of a system that answers less often is a run. -/
theorem Run.mono {sys sys' : System E R σ} {client : Tid → Prog E R Unit → Prop}
    {cond cond' : Shared Tid E R σ → Event Tid E R → Prop} {c c' : Config Tid E R σ}
    (hexec : ∀ s ev w, cond' s ev → sys'.exec ev.op s.world ev.res w →
      cond s ev ∧ sys.exec ev.op s.world ev.res w)
    (henv : ∀ w w', sys'.env w w' → sys.env w w') (run : Run sys' client cond' c c') :
    Run sys client cond c c' := by
  induction run with
  | refl => exact .refl c
  | @tail c₁ c₂ a _ step meets ih =>
      cases step with
      | @op t e k r w running answer =>
          obtain ⟨hcond, hanswer⟩ := hexec c₁.shared ⟨t, e, r⟩ w (meets _ _ rfl) answer
          refine .tail ih (.op running hanswer) fun ev w h => ?_
          obtain ⟨rfl, -⟩ := Action.op.inj h
          exact hcond
      | env moves => exact .tail ih (.env (henv _ _ moves)) fun _ _ h => nomatch h
      | start unused allowed => exact .tail ih (.start unused allowed) fun _ _ h => nomatch h
      | crash => exact .tail ih .crash fun _ _ h => nomatch h

/-! ### Executing a schedule -/

/-- A deterministic way for the world to answer, and to let time pass. -/
structure Driver (sys : System E R σ) where
  serve : (e : E) → σ → R e × σ
  tick : ℕ → σ → σ
  exec_serve : ∀ e w, sys.exec e w (serve e w).1 (serve e w).2
  env_tick : ∀ n w, sys.env w (tick n w)

/-- One decision of a scheduler. -/
inductive Choice (Tid E : Type) (R : E → Type) where
  | op (t : Tid)
  | tick (n : ℕ)
  | start (t : Tid) (p : Prog E R Unit)
  | crash (t : Tid)

/-- Carry out one decision; one that does not apply changes nothing. -/
def Config.next {sys : System E R σ} (d : Driver sys) (c : Config Tid E R σ) :
    Choice Tid E R → Config Tid E R σ
  | .op t =>
      match c.call t with
      | some (.op e k) =>
          c.set (c.shared.push ⟨t, e, (d.serve e c.shared.world).1⟩
            (d.serve e c.shared.world).2) t (k (d.serve e c.shared.world).1)
      | _ => c
  | .tick n => ⟨c.shared.drift (d.tick n c.shared.world), c.call⟩
  | .start t p =>
      match c.call t with
      | none => c.set c.shared t p
      | some _ => c
  | .crash t => c.set c.shared t (.ret ())

/-- Carry out a schedule. -/
def Config.follow {sys : System E R σ} (d : Driver sys) :
    Config Tid E R σ → List (Choice Tid E R) → Config Tid E R σ
  | c, [] => c
  | c, choice :: rest => (c.next d choice).follow d rest

/-- Every operation of the schedule meets `cond` on the state it finds. -/
def Config.Meets {sys : System E R σ} (d : Driver sys)
    (cond : Shared Tid E R σ → Event Tid E R → Prop) :
    Config Tid E R σ → List (Choice Tid E R) → Prop
  | _, [] => True
  | c, .op t :: rest =>
      (match c.call t with
        | some (.op e _) => cond c.shared ⟨t, e, (d.serve e c.shared.world).1⟩
        | _ => True) ∧ (c.next d (.op t)).Meets d cond rest
  | c, choice :: rest => (c.next d choice).Meets d cond rest

instance Config.decidableMeets {sys : System E R σ} (d : Driver sys)
    (cond : Shared Tid E R σ → Event Tid E R → Prop) [∀ s ev, Decidable (cond s ev)] :
    ∀ (schedule : List (Choice Tid E R)) (c : Config Tid E R σ), Decidable (c.Meets d cond schedule)
  | [], _ => isTrue trivial
  | .op t :: rest, c =>
      @instDecidableAnd _ _
        (match c.call t with
          | some (.op _ _) => inferInstance
          | some (.ret _) => isTrue trivial
          | none => isTrue trivial)
        (decidableMeets d cond rest _)
  | .tick _ :: rest, _ => decidableMeets d cond rest _
  | .start _ _ :: rest, _ => decidableMeets d cond rest _
  | .crash _ :: rest, _ => decidableMeets d cond rest _

/-- A schedule that starts allowed calls only, and whose operations meet the
condition, is a run. -/
theorem Run.follow {sys : System E R σ} {d : Driver sys}
    {client : Tid → Prog E R Unit → Prop}
    {cond : Shared Tid E R σ → Event Tid E R → Prop} {schedule : List (Choice Tid E R)}
    (allowed : ∀ t p, .start t p ∈ schedule → client t p) {c : Config Tid E R σ}
    (meets : c.Meets d cond schedule) : Run sys client cond c (c.follow d schedule) := by
  induction schedule generalizing c with
  | nil => exact .refl c
  | cons choice rest ih =>
      have hrest {c' : Config Tid E R σ} (hmeets : c'.Meets d cond rest) :=
        ih (fun t p h => allowed t p (List.mem_cons_of_mem _ h)) hmeets
      cases choice with
      | op t =>
          obtain ⟨hcond, hmeets⟩ := meets
          refine .trans ?_ (hrest hmeets)
          rw [Config.next]
          split
          · next running =>
              rw [running] at hcond
              refine .tail (.refl c) (.op running (d.exec_serve _ _)) fun ev w h => ?_
              obtain ⟨rfl, -⟩ := Action.op.inj h
              exact hcond
          · exact .refl c
      | tick n =>
          refine .trans ?_ (hrest meets)
          exact .tail (.refl c) (.env (d.env_tick _ _)) fun _ _ h => nomatch h
      | start t p =>
          refine .trans ?_ (hrest meets)
          rw [Config.next]
          split
          · next unused =>
              exact .tail (.refl c) (.start unused (allowed t p List.mem_cons_self))
                fun _ _ h => nomatch h
          · exact .refl c
      | crash t =>
          refine .trans ?_ (hrest meets)
          exact .tail (.refl c) .crash fun _ _ h => nomatch h

/-- Call `t` is about to perform an operation. -/
def Config.ready (c : Config Tid E R σ) (t : Tid) : Bool :=
  match c.call t with
  | some (.op _ _) => true
  | _ => false

/-- To let such a call go on is a step. -/
theorem Config.exists_step {sys : System E R σ} (d : Driver sys)
    (client : Tid → Prog E R Unit → Prop) (c : Config Tid E R σ) (t : Tid)
    (h : c.ready t = true) : ∃ ev, ev.tid = t ∧
      Step sys client c (.op ev (c.next d (.op t)).shared.world) (c.next d (.op t)) := by
  unfold Config.ready at h
  split at h
  · next e k running =>
      have hnext : c.next d (.op t) =
          c.set (c.shared.push ⟨t, e, (d.serve e c.shared.world).1⟩
            (d.serve e c.shared.world).2) t (k (d.serve e c.shared.world).1) := by
        rw [Config.next, running]
      rw [hnext]
      exact ⟨_, rfl, .op running (d.exec_serve _ _)⟩
  · contradiction

/-- No condition is always met. -/
theorem Config.meets_true {sys : System E R σ} (d : Driver sys) (c : Config Tid E R σ)
    (schedule : List (Choice Tid E R)) : c.Meets d (fun _ _ => True) schedule := by
  induction schedule generalizing c with
  | nil => trivial
  | cons choice rest ih =>
      cases choice with
      | op t => exact ⟨by split <;> trivial, ih _⟩
      | _ => exact ih _

end Steps

/-! ## Reasoning about runs -/

/-- The data of an argument about calls over the system `sys`, in runs whose
operations meet `cond`. -/
structure Proto (Tid E : Type) (R : E → Type) (σ : Type) where
  sys : System E R σ
  cond : Shared Tid E R σ → Event Tid E R → Prop
  /-- Holds in every reachable state. -/
  inv : Shared Tid E R σ → Prop
  /-- The claim about a single operation, in the state it finds. -/
  assert : Shared Tid E R σ → Event Tid E R → Prop

namespace Proto

variable {α β : Type} (P : Proto Tid E R σ)

/-- What call `t` may see happen while it is not running: the world moves by
itself, or another call performs an operation. -/
inductive Moves (t : Tid) : Shared Tid E R σ → Shared Tid E R σ → Prop
  | env {s : Shared Tid E R σ} {w : σ} (inv : P.inv s) (moves : P.sys.env s.world w) :
      Moves t s (s.drift w)
  | op {s : Shared Tid E R σ} {ev : Event Tid E R} {w : σ} (other : ev.tid ≠ t)
      (inv : P.inv s) (meets : P.cond s ev) (claim : P.assert s ev)
      (answer : P.sys.exec ev.op s.world ev.res w) (inv' : P.inv (s.push ev w)) :
      Moves t s (s.push ev w)

/-- Any number of such moves. -/
def Rely (t : Tid) : Shared Tid E R σ → Shared Tid E R σ → Prop :=
  Relation.ReflTransGen (P.Moves t)

/-- What call `t` knows stays true while it is not running. -/
def Stable (t : Tid) (Φ : Shared Tid E R σ → Prop) : Prop :=
  ∀ ⦃s s'⦄, P.Moves t s s' → Φ s → Φ s'

/-- The weakest precondition of a program run by call `t`: between any two
operations the others may move, every operation keeps the invariant and meets
its claim, and the result satisfies `Q`. -/
def Safe (t : Tid) : Prog E R α → (α → Shared Tid E R σ → Prop) → Shared Tid E R σ → Prop
  | .ret a, Q, s => Q a s
  | .op e k, Q, s =>
      ∀ s₁, P.Rely t s s₁ → P.inv s₁ → ∀ r w, P.cond s₁ ⟨t, e, r⟩ →
        P.sys.exec e s₁.world r w →
          P.assert s₁ ⟨t, e, r⟩ ∧ P.inv (s₁.push ⟨t, e, r⟩ w) ∧
            Safe t (k r) Q (s₁.push ⟨t, e, r⟩ w)

variable {P}

theorem Stable.rely {t : Tid} {Φ : Shared Tid E R σ → Prop} (h : P.Stable t Φ)
    {s s' : Shared Tid E R σ} (hrely : P.Rely t s s') (hs : Φ s) : Φ s' := by
  induction hrely with
  | refl => exact hs
  | tail _ hstep ih => exact h hstep ih

theorem Stable.and {t : Tid} {Φ Ψ : Shared Tid E R σ → Prop} (h₁ : P.Stable t Φ)
    (h₂ : P.Stable t Ψ) : P.Stable t fun s => Φ s ∧ Ψ s :=
  fun _ _ hstep hs => ⟨h₁ hstep hs.1, h₂ hstep hs.2⟩

theorem stable_const {t : Tid} {p : Prop} : P.Stable t fun _ => p := fun _ _ _ h => h

theorem stable_silent {t : Tid} : P.Stable t fun s => s.Silent t := by
  rintro s s' (⟨-, -⟩ | ⟨other, -, -, -, -, -⟩) h
  · exact h
  · exact h.push other

@[simp] theorem safe_ret {t : Tid} {a : α} {Q : α → Shared Tid E R σ → Prop}
    {s : Shared Tid E R σ} : P.Safe t (.ret a : Prog E R α) Q s ↔ Q a s := Iff.rfl

/-- The rule for one operation: what the call knows is stable, so it still holds
in the state the operation finds. -/
theorem Safe.op {t : Tid} {e : E} {k : R e → Prog E R α}
    {Q : α → Shared Tid E R σ → Prop} {s : Shared Tid E R σ}
    {Φ : Shared Tid E R σ → Prop} (stable : P.Stable t Φ) (hs : Φ s)
    (step : ∀ s₁, Φ s₁ → P.inv s₁ → ∀ r w, P.cond s₁ ⟨t, e, r⟩ →
      P.sys.exec e s₁.world r w →
        P.assert s₁ ⟨t, e, r⟩ ∧ P.inv (s₁.push ⟨t, e, r⟩ w) ∧
          P.Safe t (k r) Q (s₁.push ⟨t, e, r⟩ w)) : P.Safe t (.op e k) Q s :=
  fun s₁ hrely => step s₁ (stable.rely hrely hs)

/-- …in the form in which a program asks it. -/
theorem Safe.ask {t : Tid} {e : E} {f : R e → Prog E R α}
    {Q : α → Shared Tid E R σ → Prop} {s : Shared Tid E R σ}
    {Φ : Shared Tid E R σ → Prop} (stable : P.Stable t Φ) (hs : Φ s)
    (step : ∀ s₁, Φ s₁ → P.inv s₁ → ∀ r w, P.cond s₁ ⟨t, e, r⟩ →
      P.sys.exec e s₁.world r w →
        P.assert s₁ ⟨t, e, r⟩ ∧ P.inv (s₁.push ⟨t, e, r⟩ w) ∧
          P.Safe t (f r) Q (s₁.push ⟨t, e, r⟩ w)) :
    P.Safe t ((Prog.ask e).bind f) Q s :=
  Safe.op stable hs step

/-- Sequencing: the post-condition of the first half is the pre-condition of
the second. -/
theorem safe_bind {t : Tid} {p : Prog E R α} {f : α → Prog E R β}
    {Q : β → Shared Tid E R σ → Prop} {s : Shared Tid E R σ} :
    P.Safe t (p.bind f) Q s ↔ P.Safe t p (fun a s' => P.Safe t (f a) Q s') s := by
  induction p generalizing s with
  | ret a => rfl
  | op e k ih =>
      refine forall_congr' fun s₁ => forall_congr' fun _ => forall_congr' fun _ =>
        forall_congr' fun r => forall_congr' fun w => forall_congr' fun _ =>
          forall_congr' fun _ => ?_
      simp only [ih r]

/-- Weakening the post-condition. -/
theorem Safe.mono {t : Tid} {p : Prog E R α} {Q Q' : α → Shared Tid E R σ → Prop}
    {s : Shared Tid E R σ} (h : P.Safe t p Q s) (weaken : ∀ a s', Q a s' → Q' a s') :
    P.Safe t p Q' s := by
  induction p generalizing s with
  | ret a => exact weaken a s h
  | op e k ih =>
      intro s₁ hrely hinv r w hcond hexec
      obtain ⟨hassert, hinv', hrest⟩ := h s₁ hrely hinv r w hcond hexec
      exact ⟨hassert, hinv', ih r hrest⟩

/-- The rule for `p; f`, with a lemma for `p` at hand. -/
theorem Safe.bind {t : Tid} {p : Prog E R α} {f : α → Prog E R β}
    {Q : α → Shared Tid E R σ → Prop} {Q' : β → Shared Tid E R σ → Prop}
    {s : Shared Tid E R σ} (h : P.Safe t p Q s)
    (next : ∀ a s', Q a s' → P.Safe t (f a) Q' s') : P.Safe t (p.bind f) Q' s :=
  safe_bind.mpr (h.mono next)

/-- The rule for early return: an error leaves with the state it was found in. -/
theorem Safe.andThen {ε : Type} {t : Tid} {p : Prog E R (Except ε α)}
    {f : α → Prog E R (Except ε β)}
    {Q : Except ε α → Shared Tid E R σ → Prop} {Q' : Except ε β → Shared Tid E R σ → Prop}
    {s : Shared Tid E R σ} (h : P.Safe t p Q s)
    (ok : ∀ a s', Q (.ok a) s' → P.Safe t (f a) Q' s')
    (error : ∀ err s', Q (.error err) s' → Q' (.error err) s') :
    P.Safe t (p.andThen f) Q' s := by
  refine h.bind fun a s' hq => ?_
  cases a with
  | ok a => exact ok a s' hq
  | error err => exact error err s' hq

section Expand

variable {E' : Type} {R' : E' → Type} {impl : (e : E') → Prog E R (R' e)}

/-- Sequencing, for a program whose operations are implemented by other programs. -/
theorem Safe.expand_bind {t : Tid} {p : Prog E' R' α} {f : α → Prog E' R' β}
    {Q : α → Shared Tid E R σ → Prop} {Q' : β → Shared Tid E R σ → Prop}
    {s : Shared Tid E R σ} (h : P.Safe t (p.expand impl) Q s)
    (next : ∀ a s', Q a s' → P.Safe t ((f a).expand impl) Q' s') :
    P.Safe t ((p.bind f).expand impl) Q' s := by
  rw [Prog.expand_bind]
  exact h.bind next

/-- …and early return. -/
theorem Safe.expand_andThen {ε : Type} {t : Tid} {p : Prog E' R' (Except ε α)}
    {f : α → Prog E' R' (Except ε β)}
    {Q : Except ε α → Shared Tid E R σ → Prop} {Q' : Except ε β → Shared Tid E R σ → Prop}
    {s : Shared Tid E R σ} (h : P.Safe t (p.expand impl) Q s)
    (ok : ∀ a s', Q (.ok a) s' → P.Safe t ((f a).expand impl) Q' s')
    (error : ∀ err s', Q (.error err) s' → Q' (.error err) s') :
    P.Safe t ((p.andThen f).expand impl) Q' s := by
  refine Safe.expand_bind h fun a s' hq => ?_
  cases a with
  | ok a => exact ok a s' hq
  | error err => exact error err s' hq

/-- A single operation is the program that implements it. -/
theorem Safe.expand_ask {t : Tid} {e : E'} {Q : R' e → Shared Tid E R σ → Prop}
    {s : Shared Tid E R σ} (h : P.Safe t (impl e) Q s) :
    P.Safe t ((Prog.ask e : Prog E' R' (R' e)).expand impl) Q s := by
  rw [Prog.expand_ask]
  exact h

end Expand

/-- A waiting call does not notice what it may rely on. -/
theorem Safe.of_rely {t : Tid} {p : Prog E R Unit} {s s' : Shared Tid E R σ}
    (h : P.Safe t p (fun _ _ => True) s) (hrely : P.Rely t s s') :
    P.Safe t p (fun _ _ => True) s' := by
  cases p with
  | ret a => trivial
  | op e k => exact fun s₁ hs₁ => h s₁ (hrely.trans hs₁)

/-- Every call that has been started is safe from here on, and only started
calls have done anything. -/
structure Good (P : Proto Tid E R σ) (c : Config Tid E R σ) : Prop where
  inv : P.inv c.shared
  silent : ∀ t, c.call t = none → c.shared.Silent t
  safe : ∀ t p, c.call t = some p → P.Safe t p (fun _ _ => True) c.shared

theorem good_idle {w : σ} (h : P.inv ⟨w, []⟩) : P.Good (Config.idle Tid E R w) :=
  ⟨h, fun _ _ _ hev => by simp [Config.idle] at hev,
    fun _ _ hp => by simp [Config.idle] at hp⟩

section Sound

variable [DecidableEq Tid] {client : Tid → Prog E R Unit → Prop}

/-- What the rule asks of the surroundings and of the calls that may start. -/
structure Adequate (P : Proto Tid E R σ) (client : Tid → Prog E R Unit → Prop) : Prop where
  env_inv : ∀ {s : Shared Tid E R σ} {w}, P.inv s → P.sys.env s.world w → P.inv (s.drift w)
  client_safe : ∀ {t p} {s : Shared Tid E R σ}, client t p → P.inv s → s.Silent t →
    P.Safe t p (fun _ _ => True) s

/-- Only call `t` moved, and the others could rely on what it did. -/
theorem Good.set {c : Config Tid E R σ} (good : P.Good c) {s : Shared Tid E R σ} {t : Tid}
    {p : Prog E R Unit} (hinv : P.inv s) (hsafe : P.Safe t p (fun _ _ => True) s)
    (hsilent : ∀ t', t' ≠ t → c.shared.Silent t' → s.Silent t')
    (hrely : ∀ t', t' ≠ t → P.Rely t' c.shared s) : P.Good (c.set s t p) := by
  refine ⟨hinv, fun t' hnone => ?_, fun t' p' hp => ?_⟩
  · by_cases ht : t' = t
    · subst ht
      simp [Config.set] at hnone
    · exact hsilent t' ht (good.silent t' (by simpa [Config.set, Function.update_of_ne ht]
        using hnone))
  · by_cases ht : t' = t
    · subst ht
      have : p = p' := by simpa [Config.set] using hp
      exact this ▸ hsafe
    · have hp' : c.call t' = some p' := by
        simpa [Config.set, Function.update_of_ne ht] using hp
      exact (good.safe t' p' hp').of_rely (hrely t' ht)

/-- **One step.**  The invariant and the safety of every call survive a step
that meets the condition. -/
theorem Good.step (had : P.Adequate client) {c c' : Config Tid E R σ}
    {a : Action Tid E R σ} (good : P.Good c) (step : Step P.sys client c a c')
    (meets : ∀ ev w, a = .op ev w → P.cond c.shared ev) : P.Good c' := by
  cases step with
  | op running answer =>
      obtain ⟨hassert, hinv, hrest⟩ := good.safe _ _ running c.shared .refl good.inv _ _
        (meets _ _ rfl) answer
      exact good.set hinv hrest (fun t' ht h => h.push (Ne.symm ht)) fun t' ht =>
        .single (.op (Ne.symm ht) good.inv (meets _ _ rfl) hassert answer hinv)
  | env moves =>
      exact ⟨had.env_inv good.inv moves, good.silent, fun t p hp =>
        (good.safe t p hp).of_rely (.single (.env good.inv moves))⟩
  | start unused allowed =>
      exact good.set good.inv (had.client_safe allowed good.inv (good.silent _ unused))
        (fun _ _ h => h) fun _ _ => .refl
  | crash => exact good.set good.inv trivial (fun _ _ h => h) fun _ _ => .refl

/-- **Soundness.**  Along every run that meets the condition the invariant
holds and every call stays safe. -/
theorem Good.run (had : P.Adequate client) {c c' : Config Tid E R σ} (good : P.Good c)
    (run : Run P.sys client P.cond c c') : P.Good c' := by
  induction run with
  | refl => exact good
  | tail _ step meets ih => exact ih.step had step meets

/-- …and every operation performed meets its claim. -/
theorem Good.assert_of_step {c c' : Config Tid E R σ} {ev : Event Tid E R} {w : σ}
    (good : P.Good c) (step : Step P.sys client c (.op ev w) c')
    (meets : P.cond c.shared ev) : P.assert c.shared ev := by
  cases step with
  | op running answer =>
      exact (good.safe _ _ running c.shared .refl good.inv _ _ meets answer).1

end Sound

/-! ### Operations of no concern -/

/-- Operations that satisfy `ok` keep the invariant and meet their claim, and what
call `t` knows survives them as it survives the moves of the others. -/
structure Frames (P : Proto Tid E R σ) (t : Tid) (ok : E → Prop)
    (Φ : Shared Tid E R σ → Prop) : Prop where
  stable : P.Stable t Φ
  step : ∀ {s e r w}, ok e → Φ s → P.inv s → P.cond s ⟨t, e, r⟩ → P.sys.exec e s.world r w →
    P.assert s ⟨t, e, r⟩ ∧ P.inv (s.push ⟨t, e, r⟩ w) ∧ Φ (s.push ⟨t, e, r⟩ w)

/-- The rule for a program that asks nothing else. -/
theorem Safe.frame {t : Tid} {p : Prog E R α} {ok : E → Prop} {Φ : Shared Tid E R σ → Prop}
    {s : Shared Tid E R σ} (hΦ : P.Frames t ok Φ) (h : p.Asks ok) (hs : Φ s) :
    P.Safe t p (fun _ => Φ) s := by
  induction p generalizing s with
  | ret a => exact hs
  | op e k ih =>
      refine Safe.op hΦ.stable hs fun s₁ h₁ hinv r w hcond hexec => ?_
      obtain ⟨hassert, hinv', h₂⟩ := hΦ.step h.1 h₁ hinv hcond hexec
      exact ⟨hassert, hinv', ih r (h.2 r) h₂⟩

/-- What no operation of the program changes, and none of the others either, is still
there at its end. -/
theorem Safe.keeping {t : Tid} {p : Prog E R α} {ok : E → Prop} {Φ : Shared Tid E R σ → Prop}
    {Q : α → Shared Tid E R σ → Prop} {s : Shared Tid E R σ} (h : P.Safe t p Q s)
    (asks : p.Asks ok) (stable : P.Stable t Φ)
    (keep : ∀ {s e r w}, ok e → Φ s → Φ (s.push ⟨t, e, r⟩ w)) (hs : Φ s) :
    P.Safe t p (fun a s' => Q a s' ∧ Φ s') s := by
  induction p generalizing s with
  | ret a => exact ⟨h, hs⟩
  | op e k ih =>
      intro s₁ hrely hinv r w hcond hexec
      obtain ⟨hassert, hinv', hrest⟩ := h s₁ hrely hinv r w hcond hexec
      exact ⟨hassert, hinv', ih r hrest (asks.2 r) (keep asks.1 (stable.rely hrely hs))⟩

/-- What a program can return at all, it returns here. -/
theorem Safe.ensures {t : Tid} {p : Prog E R α} {Q : α → Prop}
    {Q' : α → Shared Tid E R σ → Prop} {s : Shared Tid E R σ} (h : P.Safe t p Q' s)
    (ensures : p.Ensures Q) : P.Safe t p (fun a s' => Q a ∧ Q' a s') s := by
  induction p generalizing s with
  | ret a => exact ⟨ensures, h⟩
  | op e k ih =>
      intro s₁ hrely hinv r w hcond hexec
      obtain ⟨hassert, hinv', hrest⟩ := h s₁ hrely hinv r w hcond hexec
      exact ⟨hassert, hinv', ih r hrest (ensures r)⟩

end Proto

/-! ## One call after another -/

/-- Calls that never overlap: what is left of the call at hand, and the shared
state.  The next call may begin at any moment, and what is left of the one before
is then lost. -/
inductive Serial (sys : System E R σ) (client : Prog E R Unit → Prop)
    (cond : Shared Unit E R σ → Event Unit E R → Prop) (s₀ : Shared Unit E R σ) :
    Prog E R Unit → Shared Unit E R σ → Prop
  | idle : Serial sys client cond s₀ (.ret ()) s₀
  | call {p q : Prog E R Unit} {s : Shared Unit E R σ} (run : Serial sys client cond s₀ p s)
      (allowed : client q) : Serial sys client cond s₀ q s
  | env {p : Prog E R Unit} {s : Shared Unit E R σ} {w : σ}
      (run : Serial sys client cond s₀ p s) (moves : sys.env s.world w) :
      Serial sys client cond s₀ p (s.drift w)
  | op {e : E} {k : R e → Prog E R Unit} {s : Shared Unit E R σ} {r : R e} {w : σ}
      (run : Serial sys client cond s₀ (.op e k) s) (meets : cond s ⟨(), e, r⟩)
      (answer : sys.exec e s.world r w) :
      Serial sys client cond s₀ (k r) (s.push ⟨(), e, r⟩ w)

/-- **Soundness for calls that never overlap.**  There is nobody to rely on, and
so a call is safe wherever it begins. -/
theorem Proto.serial {P : Proto Unit E R σ} {client : Prog E R Unit → Prop}
    {s₀ s : Shared Unit E R σ} {p : Prog E R Unit}
    (env_inv : ∀ {s : Shared Unit E R σ} {w}, P.inv s → P.sys.env s.world w → P.inv (s.drift w))
    (client_safe : ∀ {q} {s : Shared Unit E R σ}, client q → P.inv s →
      P.Safe () q (fun _ _ => True) s)
    (start : P.inv s₀) (run : Serial P.sys client P.cond s₀ p s) :
    P.inv s ∧ P.Safe () p (fun _ _ => True) s := by
  induction run with
  | idle => exact ⟨start, trivial⟩
  | call _ allowed ih => exact ⟨ih.1, client_safe allowed ih.1⟩
  | env _ moves ih => exact ⟨env_inv ih.1 moves, ih.2.of_rely (.single (.env ih.1 moves))⟩
  | op _ meets answer ih => exact (ih.2 _ .refl ih.1 _ _ meets answer).2

/-- Nobody interferes with the only call there is. -/
theorem Proto.stable_of_env {P : Proto Unit E R σ} {Φ : Shared Unit E R σ → Prop}
    (env : ∀ s w, P.sys.env s.world w → Φ s → Φ (s.drift w)) : P.Stable () Φ := by
  rintro s s' (⟨-, hmoves⟩ | ⟨other, -⟩) h
  · exact env _ _ hmoves h
  · exact absurd rfl other

/-- The call at hand performs its next operations, answered by the driver. -/
def Driver.advance {sys : System E R σ} (d : Driver sys) :
    ℕ → Prog E R Unit → Shared Unit E R σ → Prog E R Unit × Shared Unit E R σ
  | n + 1, .op e k, s =>
      d.advance n (k (d.serve e s.world).1)
        (s.push ⟨(), e, (d.serve e s.world).1⟩ (d.serve e s.world).2)
  | _, p, s => (p, s)

/-- Each of these operations meets `cond` on the state it finds. -/
def Driver.Admits {sys : System E R σ} (d : Driver sys)
    (cond : Shared Unit E R σ → Event Unit E R → Prop) :
    ℕ → Prog E R Unit → Shared Unit E R σ → Prop
  | n + 1, .op e k, s =>
      cond s ⟨(), e, (d.serve e s.world).1⟩ ∧
        d.Admits cond n (k (d.serve e s.world).1)
          (s.push ⟨(), e, (d.serve e s.world).1⟩ (d.serve e s.world).2)
  | _, _, _ => True

instance Driver.decidableAdmits {sys : System E R σ} (d : Driver sys)
    (cond : Shared Unit E R σ → Event Unit E R → Prop) [∀ s ev, Decidable (cond s ev)] :
    ∀ n p s, Decidable (d.Admits cond n p s)
  | 0, _, _ => isTrue trivial
  | _ + 1, .ret _, _ => isTrue trivial
  | n + 1, .op _ _, _ => @instDecidableAnd _ _ _ (d.decidableAdmits cond n _ _)

theorem Serial.advance {sys : System E R σ} {d : Driver sys} {client : Prog E R Unit → Prop}
    {cond : Shared Unit E R σ → Event Unit E R → Prop} {s₀ s : Shared Unit E R σ}
    {p : Prog E R Unit} {n : ℕ} (run : Serial sys client cond s₀ p s)
    (admits : d.Admits cond n p s) :
    Serial sys client cond s₀ (d.advance n p s).1 (d.advance n p s).2 := by
  induction n generalizing p s with
  | zero => exact run
  | succ n ih =>
      cases p with
      | ret a => exact run
      | op e k => exact ih (.op run admits.1 (d.exec_serve e s.world)) admits.2

/-! ## Conditions on the log -/

section Since

variable {α : Type} {mark p : α → Prop} {a : α} {log : List α}

/-- Since the newest entry with `mark` there has been one with `p`; the newest entry is
the first. -/
def Since (mark p : α → Prop) : List α → Prop
  | [] => False
  | a :: log => ¬ mark a ∧ (p a ∨ Since mark p log)

instance Since.decidable (mark p : α → Prop) [DecidablePred mark] [DecidablePred p] :
    ∀ log, Decidable (Since mark p log)
  | [] => isFalse id
  | _ :: log => @instDecidableAnd _ _ _ (@instDecidableOr _ _ _ (Since.decidable mark p log))

theorem since_cons (h : ¬ mark a) : Since mark p (a :: log) ↔ p a ∨ Since mark p log :=
  and_iff_right h

end Since

end ClawDesk.Foundations
