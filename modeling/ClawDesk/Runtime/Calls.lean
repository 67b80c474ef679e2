import ClawDesk.Runtime.Store

/-!
# Calls and what they have seen

A **call** is one invocation of a procedure of the runtime.  Calls interleave
operation by operation, so what a call read may be out of date when it writes.
`Undisturbed t k` says that it is not: since call `t` last read or wrote the
entry `k`, no other call wrote it.  It is a function of the log.

Whatever depends on the entry `k` only stays true while `k` is undisturbed
(`stable_whileUndisturbed`); this is how the proofs about single procedures
carry a fact from a read to the write that relies on it.
-/

namespace ClawDesk.Runtime

open Foundations

/-- One call: the request it serves, and a number that tells it from other calls
with the same request. -/
structure Call (Req : Type) where
  serial : ℕ
  request : Req
  deriving DecidableEq

section Log

variable {Tid : Type}

/-- The event changed the entry `k`. -/
def Wrote (k : Key) : Event Tid Op Op.Res → Prop
  | ⟨_, .put k' _, .ok _⟩ => k' = k
  | ⟨_, .delete k', .ok _⟩ => k' = k
  | _ => False

/-- The event told its call what is stored under `k`.  Nothing is stored under
a run id that has just been drawn. -/
def Saw (k : Key) : Event Tid Op Op.Res → Prop
  | ⟨_, .get k', .ok _⟩ => k' = k
  | ⟨_, .newRunId, id⟩ => k = .run id
  | ev => Wrote k ev

/-- Since call `t` last saw the entry `k`, no other call wrote it.  The log is
read newest first. -/
def Undisturbed (t : Tid) (k : Key) : List (Event Tid Op Op.Res) → Prop
  | [] => False
  | ev :: log => (ev.tid = t ∧ Saw k ev) ∨ (¬ Wrote k ev ∧ Undisturbed t k log)

theorem Wrote.saw {k : Key} {ev : Event Tid Op Op.Res} (h : Wrote k ev) : Saw k ev := by
  obtain ⟨t, e, r⟩ := ev
  cases e <;> first | exact h | exact h.elim

/-- What another call did without disturbing `k` was not a write of `k`. -/
theorem Undisturbed.of_other {t : Tid} {k : Key} {ev : Event Tid Op Op.Res}
    {log : List (Event Tid Op Op.Res)} (other : ev.tid ≠ t)
    (h : Undisturbed t k (ev :: log)) : ¬ Wrote k ev ∧ Undisturbed t k log :=
  h.resolve_left fun ⟨htid, _⟩ => other htid

/-- An operation that does not write `k` leaves it undisturbed. -/
theorem undisturbed_cons {t : Tid} {k : Key} {ev : Event Tid Op Op.Res}
    {log : List (Event Tid Op Op.Res)} (hsaw : ¬ Saw k ev) :
    Undisturbed t k (ev :: log) ↔ Undisturbed t k log := by
  constructor
  · rintro (⟨-, h⟩ | ⟨-, h⟩)
    · exact absurd h hsaw
    · exact h
  · exact fun h => .inr ⟨fun hw => hsaw hw.saw, h⟩

/-- A call that has done nothing has seen nothing. -/
theorem not_undisturbed {t : Tid} {k : Key} {log : List (Event Tid Op Op.Res)}
    (silent : ∀ ev ∈ log, ev.tid ≠ t) : ¬ Undisturbed t k log := by
  induction log with
  | nil => exact id
  | cons ev log ih =>
      intro h
      exact ih (fun ev' h' => silent ev' (List.mem_cons_of_mem _ h'))
        (h.of_other (silent ev List.mem_cons_self)).2

/-- Entries change only by the operations that write them. -/
theorem lookup_of_not_wrote {t : Tid} {e : Op} {r : e.Res} {w w' : World} {k : Key}
    (h : World.exec e w r w') (hw : ¬ Wrote k (⟨t, e, r⟩ : Event Tid Op Op.Res)) :
    w'.store.lookup k = w.store.lookup k := by
  cases e with
  | put k' v =>
      rcases h with ⟨rfl, rfl⟩ | ⟨-, rfl⟩
      · exact AList.lookup_insert_ne (Ne.symm hw)
      · rfl
  | delete k' =>
      rcases h with ⟨rfl, rfl⟩ | ⟨-, rfl⟩
      · exact AList.lookup_erase_ne (Ne.symm hw)
      · rfl
  | _ => exact World.lookup_of_exec h (by simp) (by simp)

end Log

/-! ### Knowledge that lasts -/

section Stable

variable {Tid : Type} {P : Proto Tid Op Op.Res World}

/-- `Ψ` holds as long as no other call has written `k`. -/
def WhileUndisturbed (t : Tid) (k : Key) (Ψ : Shared Tid Op Op.Res World → Prop)
    (s : Shared Tid Op Op.Res World) : Prop :=
  Undisturbed t k s.log → Ψ s

/-- Operations of the call itself that do not touch `k` keep what it knows. -/
theorem WhileUndisturbed.push {t : Tid} {k : Key} {Ψ : Shared Tid Op Op.Res World → Prop}
    {s : Shared Tid Op Op.Res World} {ev : Event Tid Op Op.Res} {w : World}
    (h : WhileUndisturbed t k Ψ s) (hsaw : ¬ Saw k ev) (hΨ : Ψ s → Ψ (s.push ev w)) :
    WhileUndisturbed t k Ψ (s.push ev w) :=
  fun hund => hΨ (h ((undisturbed_cons hsaw).mp hund))

/-- What depends on the entry `k` only lasts while `k` is undisturbed. -/
theorem stable_whileUndisturbed {t : Tid} {k : Key}
    {Ψ : Shared Tid Op Op.Res World → Prop} (hsys : P.sys = runtimeSystem)
    (env : ∀ s n, s.world.now ≤ n → Ψ s → Ψ (s.drift { s.world with now := n }))
    (op : ∀ (s : Shared Tid Op Op.Res World) (ev : Event Tid Op Op.Res) (w : World),
      ¬ Wrote k ev → P.cond s ev → P.assert s ev → World.exec ev.op s.world ev.res w →
        Ψ s → Ψ (s.push ev w)) :
    P.Stable t (WhileUndisturbed t k Ψ) := by
  rintro s s' (⟨-, hmoves⟩ | ⟨other, -, hcond, hassert, hexec, -⟩) h
  · obtain ⟨n, hn, rfl⟩ : World.passes _ _ := by rw [hsys] at hmoves; exact hmoves
    exact fun hund => env s n hn (h hund)
  · intro hund
    obtain ⟨hw, hund⟩ := hund.of_other other
    rw [hsys] at hexec
    exact op _ _ _ hw hcond hassert hexec (h hund)

/-- What a call last saw under `k` is there as long as no other call has
written `k`. -/
theorem stable_lookup {t : Tid} {k : Key} {v : Option k.Val} (hsys : P.sys = runtimeSystem) :
    P.Stable t (WhileUndisturbed t k fun s => s.world.store.lookup k = v) := by
  refine stable_whileUndisturbed hsys (fun s n _ h => h) ?_
  intro s ev w hw _ _ hexec h
  exact (lookup_of_not_wrote hexec hw).trans h

/-- Time does not run backwards. -/
theorem stable_le_now {t : Tid} {n : Instant} (hsys : P.sys = runtimeSystem) :
    P.Stable t fun s => n ≤ s.world.now := by
  rintro s s' (⟨-, hmoves⟩ | ⟨-, -, -, -, hexec, -⟩) h
  · obtain ⟨m, hm, rfl⟩ : World.passes _ _ := by rw [hsys] at hmoves; exact hmoves
    exact h.trans hm
  · rw [hsys] at hexec
    exact h.trans (World.now_of_exec hexec).ge

/-! ### Store access -/

variable {α : Type} {t : Tid} {k : Key} {Φ : Shared Tid Op Op.Res World → Prop}
  {Q : Except RuntimeError α → Shared Tid Op Op.Res World → Prop}
  {s : Shared Tid Op Op.Res World}

/-- A read either shows what is stored or fails. -/
theorem safe_getEntry {f : Option k.Val → Proc (Except RuntimeError α)}
    (hsys : P.sys = runtimeSystem) (stable : P.Stable t Φ) (hs : Φ s)
    (ok : ∀ s₁, Φ s₁ → P.inv s₁ → P.cond s₁ ⟨t, .get k, .ok (s₁.world.store.lookup k)⟩ →
      P.assert s₁ ⟨t, .get k, .ok (s₁.world.store.lookup k)⟩ ∧
        P.inv (s₁.push ⟨t, .get k, .ok (s₁.world.store.lookup k)⟩ s₁.world) ∧
          P.Safe t (f (s₁.world.store.lookup k)) Q
            (s₁.push ⟨t, .get k, .ok (s₁.world.store.lookup k)⟩ s₁.world))
    (error : ∀ s₁ err, Φ s₁ → P.inv s₁ → P.cond s₁ ⟨t, .get k, .error err⟩ →
      P.assert s₁ ⟨t, .get k, .error err⟩ ∧
        P.inv (s₁.push ⟨t, .get k, .error err⟩ s₁.world) ∧
          Q (.error (.storage err)) (s₁.push ⟨t, .get k, .error err⟩ s₁.world)) :
    P.Safe t ((getEntry k).andThen f) Q s := by
  refine Proto.Safe.op stable hs fun s₁ h₁ hinv r w hcond hexec => ?_
  rw [hsys] at hexec
  obtain ⟨rfl, rfl | ⟨err, rfl⟩⟩ := hexec
  · exact ok s₁ h₁ hinv hcond
  · exact error s₁ err h₁ hinv hcond

/-- A write either happens or fails. -/
theorem safe_putEntry {v : k.Val} {f : Unit → Proc (Except RuntimeError α)}
    (hsys : P.sys = runtimeSystem) (stable : P.Stable t Φ) (hs : Φ s)
    (ok : ∀ s₁, Φ s₁ → P.inv s₁ → P.cond s₁ ⟨t, .put k v, .ok ()⟩ →
      P.assert s₁ ⟨t, .put k v, .ok ()⟩ ∧
        P.inv (s₁.push ⟨t, .put k v, .ok ()⟩ (s₁.world.put k v)) ∧
          P.Safe t (f ()) Q (s₁.push ⟨t, .put k v, .ok ()⟩ (s₁.world.put k v)))
    (error : ∀ s₁ err, Φ s₁ → P.inv s₁ → P.cond s₁ ⟨t, .put k v, .error err⟩ →
      P.assert s₁ ⟨t, .put k v, .error err⟩ ∧
        P.inv (s₁.push ⟨t, .put k v, .error err⟩ s₁.world) ∧
          Q (.error (.storage err)) (s₁.push ⟨t, .put k v, .error err⟩ s₁.world)) :
    P.Safe t ((putEntry k v).andThen f) Q s := by
  refine Proto.Safe.op stable hs fun s₁ h₁ hinv r w hcond hexec => ?_
  rw [hsys] at hexec
  obtain ⟨rfl, rfl⟩ | ⟨⟨err, rfl⟩, rfl⟩ := hexec
  · exact ok s₁ h₁ hinv hcond
  · exact error s₁ err h₁ hinv hcond

end Stable

end ClawDesk.Runtime
