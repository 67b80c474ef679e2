import ClawDesk.Runtime.Calls

/-!
# The lease manager

Distributed run ownership with fence tokens.  Only one worker may actively
execute a run at a time; a lease says who, until when, and under which token.

Acquiring and renewing are a read of the lease entry followed by a write; the
store has no compare-and-swap.  Every validity check reads the clock anew.
-/

namespace ClawDesk.Runtime

open Foundations

/-- `p && q`, the second only asked when the first holds. -/
def both (p q : Proc Bool) : Proc Bool := p.bind fun b => if b then q else .ret false

/-- `!p`. -/
def negate (p : Proc Bool) : Proc Bool := p.bind fun b => .ret !b

/-- `lease.is_valid()`. -/
def Lease.checkValid (lease : Lease) : Proc Bool :=
  (ask .clock).bind fun now => .ret (lease.isValid now)

/-- `lease.is_held_by(worker_id)`: the clock is read only when the worker matches. -/
def Lease.checkHeldBy (lease : Lease) (workerId : WorkerId) : Proc Bool :=
  both (.ret (decide (lease.workerId = workerId))) lease.checkValid

/-- Manages per-run worker leases: the default time to live, and the process
whose `FENCE_COUNTER` it draws from. -/
structure LeaseManager where
  defaultTtlSecs : ℕ
  process : Process
  deriving DecidableEq

namespace LeaseManager

variable (lm : LeaseManager)

/-- Renew an existing lease, for a caller that presents its token. -/
def renew (runId : RunId) (workerId : WorkerId) (expectedFence : ℕ) :
    Proc (Except RuntimeError Lease) :=
  (getEntry (.lease runId)).andThen fun
    | none => .ret (.error (.runNotFound runId))
    | some existing =>
        if existing.fenceToken ≠ expectedFence then
          .ret (.error (.staleLease runId expectedFence existing.fenceToken))
        else
          (existing.checkHeldBy workerId).bind fun held =>
            if !held then .ret (.error (.leaseConflict runId existing.workerId))
            else
              (ask .clock).bind fun now =>
                (putEntry (.lease runId) (existing.renew lm.defaultTtlSecs now)).andThen fun _ =>
                  .ret (.ok (existing.renew lm.defaultTtlSecs now))

/-- The last part of `acquire`: draw a token and store a new lease. -/
def grant (runId : RunId) (workerId : WorkerId) : Proc (Except RuntimeError Lease) :=
  (ask (.fetchAddFence lm.process)).bind fun fence =>
    (ask .clock).bind fun now =>
      (putEntry (.lease runId) (Lease.new runId workerId lm.defaultTtlSecs fence now)).andThen
        fun _ => .ret (.ok (Lease.new runId workerId lm.defaultTtlSecs fence now))

/-- Attempt to acquire a lease for a run on behalf of a worker.  A failed read is
treated as an absent lease. -/
def acquire (runId : RunId) (workerId : WorkerId) : Proc (Except RuntimeError Lease) :=
  (ask (.get (.lease runId))).bind fun
    | .ok (some existing) =>
        (both existing.checkValid (negate (existing.checkHeldBy workerId))).bind fun conflict =>
          if conflict then .ret (.error (.leaseConflict runId existing.workerId))
          else
            (both existing.checkValid (existing.checkHeldBy workerId)).bind fun own =>
              if own then lm.renew runId workerId existing.fenceToken
              else lm.grant runId workerId
    | _ => lm.grant runId workerId

/-- The last part of `release`: delete the entry, whatever the store answers. -/
def deleteLease (runId : RunId) : Proc (Except RuntimeError Unit) :=
  (ask (.delete (.lease runId))).bind fun _ => .ret (.ok ())

/-- Release a lease, for a caller that presents its token.  A failed read is
treated as an absent lease. -/
def release (runId : RunId) (workerId : WorkerId) (fenceToken : ℕ) :
    Proc (Except RuntimeError Unit) :=
  (ask (.get (.lease runId))).bind fun
    | .ok (some existing) =>
        if existing.fenceToken ≠ fenceToken then
          .ret (.error (.staleLease runId fenceToken existing.fenceToken))
        else
          (existing.checkHeldBy workerId).bind fun held =>
            if !held then .ret (.error (.leaseConflict runId existing.workerId))
            else deleteLease runId
    | _ => deleteLease runId

/-- Load the current lease for a run, if any. -/
def loadLease (runId : RunId) : Proc (Except RuntimeError (Option Lease)) :=
  getEntry (.lease runId)

/-- The leases a scan found, with the runs they are for. -/
def leasesOf : List (Sigma Key.Val) → List Lease
  | [] => []
  | ⟨.lease _, lease⟩ :: rest => lease :: leasesOf rest
  | _ :: rest => leasesOf rest

/-- Scan for all expired leases. -/
def scanExpired : Proc (Except RuntimeError (List (RunId × Lease))) :=
  (scanEntries Key.leasesPrefix).andThen fun entries =>
    (ask .clock).bind fun now =>
      .ret (.ok (((leasesOf entries).filter fun lease => lease.expiresAt < now).map
        fun lease => (lease.runId, lease)))

/-- Validate that a given token is still current for a run. -/
def validateFence (runId : RunId) (fenceToken : ℕ) : Proc (Except RuntimeError Lease) :=
  (loadLease runId).andThen fun
    | none => .ret (.error (.runNotFound runId))
    | some lease =>
        if lease.fenceToken ≠ fenceToken then
          .ret (.error (.staleLease runId fenceToken lease.fenceToken))
        else
          lease.checkValid.bind fun valid =>
            if !valid then .ret (.error (.staleLease runId fenceToken lease.fenceToken))
            else .ret (.ok lease)

end LeaseManager

/-! ### What the procedures touch -/

/-- The operations of a procedure on the lease of one run. -/
def OnLease (runId : RunId) : Op → Prop
  | .get k => k = .lease runId
  | .put k _ => k = .lease runId
  | .delete k => k = .lease runId
  | .clock => True
  | .fetchAddFence _ => True
  | _ => False

/-- …of one that only looks at it. -/
def ReadsLease (runId : RunId) : Op → Prop
  | .get k => k = .lease runId
  | .clock => True
  | _ => False

/-- …and of one that may delete it. -/
def OnRelease (runId : RunId) (e : Op) : Prop := ReadsLease runId e ∨ e = .delete (.lease runId)

variable {runId : RunId} {workerId : WorkerId} {e : Op}

theorem ReadsLease.onLease (h : ReadsLease runId e) : OnLease runId e := by
  cases e <;> first | exact h | exact h.elim

theorem OnRelease.onLease (h : OnRelease runId e) : OnLease runId e := by
  rcases h with h | rfl
  · exact h.onLease
  · exact rfl

theorem checkValid_asks (lease : Lease) : lease.checkValid.Asks (ReadsLease runId) :=
  .ask trivial fun _ => trivial

theorem both_asks {ok : Op → Prop} {p q : Proc Bool} (hp : p.Asks ok) (hq : q.Asks ok) :
    (both p q).Asks ok := by
  refine hp.bind fun b => ?_
  cases b with
  | true => exact hq
  | false => trivial

theorem checkHeldBy_asks (lease : Lease) : (lease.checkHeldBy workerId).Asks (ReadsLease runId) :=
  both_asks trivial (checkValid_asks lease)

theorem grant_asks (lm : LeaseManager) : (lm.grant runId workerId).Asks (OnLease runId) := by
  refine .ask trivial fun fence => .ask trivial fun now => .andThen (.ask rfl fun _ => ?_) ?_
  · trivial
  · intro _
    trivial

theorem renew_asks (lm : LeaseManager) {fence : ℕ} :
    (lm.renew runId workerId fence).Asks (OnLease runId) := by
  refine .andThen (.ask rfl fun _ => trivial) fun found => ?_
  cases found with
  | none => trivial
  | some existing =>
      dsimp only
      split_ifs
      · trivial
      refine ((checkHeldBy_asks existing).mono fun _ => ReadsLease.onLease).bind fun held => ?_
      cases held with
      | false => trivial
      | true => exact .ask trivial fun now => .andThen (.ask rfl fun _ => trivial) fun _ => trivial

theorem acquire_asks (lm : LeaseManager) : (lm.acquire runId workerId).Asks (OnLease runId) := by
  refine .ask rfl fun found => ?_
  rcases found with err | _ | existing
  · exact grant_asks lm
  · exact grant_asks lm
  · have hvalid : existing.checkValid.Asks (ReadsLease runId) := checkValid_asks existing
    have hheld : (existing.checkHeldBy workerId).Asks (ReadsLease runId) :=
      checkHeldBy_asks existing
    have hother : (negate (existing.checkHeldBy workerId)).Asks (ReadsLease runId) :=
      hheld.bind fun _ => trivial
    refine ((both_asks hvalid hother).mono fun _ => ReadsLease.onLease).bind fun conflict => ?_
    cases conflict with
    | true => trivial
    | false =>
        refine ((both_asks hvalid hheld).mono fun _ => ReadsLease.onLease).bind fun own => ?_
        cases own with
        | true => exact renew_asks lm
        | false => exact grant_asks lm

theorem deleteLease_asks : (LeaseManager.deleteLease runId).Asks (OnRelease runId) :=
  .ask (.inr rfl) fun _ => trivial

theorem release_asks {fence : ℕ} :
    (LeaseManager.release runId workerId fence).Asks (OnRelease runId) := by
  refine .ask (.inl rfl) fun found => ?_
  rcases found with err | _ | existing
  · exact deleteLease_asks
  · exact deleteLease_asks
  · dsimp only
    split_ifs
    · trivial
    refine ((checkHeldBy_asks existing).mono fun _ => .inl).bind fun held => ?_
    cases held with
    | false => trivial
    | true => exact deleteLease_asks

theorem validateFence_asks {fence : ℕ} :
    (LeaseManager.validateFence runId fence).Asks (ReadsLease runId) := by
  refine .andThen (.ask rfl fun _ => trivial) fun found => ?_
  cases found with
  | none => trivial
  | some lease =>
      dsimp only
      split_ifs
      · trivial
      refine (checkValid_asks lease).bind fun valid => ?_
      cases valid <;> trivial

/-! ### Calls on leases -/

/-- A worker's request to its lease manager. -/
inductive LeaseRequest where
  | acquire (manager : LeaseManager) (runId : RunId) (workerId : WorkerId)
  | renew (manager : LeaseManager) (runId : RunId) (workerId : WorkerId) (fence : ℕ)
  | release (runId : RunId) (workerId : WorkerId) (fence : ℕ)
  | validateFence (runId : RunId) (fence : ℕ)
  deriving DecidableEq

/-- Serve the request and return to the caller. -/
def LeaseRequest.serve : LeaseRequest → Proc Unit
  | acquire manager runId workerId =>
      (manager.acquire runId workerId).bind fun result => ask (.report (.lease result))
  | renew manager runId workerId fence =>
      (manager.renew runId workerId fence).bind fun result => ask (.report (.lease result))
  | release runId workerId fence =>
      (LeaseManager.release runId workerId fence).bind fun result => ask (.report (.done result))
  | validateFence runId fence =>
      (LeaseManager.validateFence runId fence).bind fun result =>
        ask (.report (.lease result))

abbrev LeaseCall := Call LeaseRequest

/-! ### Validity checks between the operations of others

A check reads the clock and nothing else, so it keeps whatever the call knows.
A negative answer is a lasting fact, since time does not run backwards; a
positive one is not. -/

section Checks

variable {Tid : Type} {P : Proto Tid Op Op.Res World} {t : Tid}

/-- Reading the clock is of no concern to `P`. -/
structure ClockFree (P : Proto Tid Op Op.Res World) : Prop where
  sys : P.sys = runtimeSystem
  inv : ∀ {s t}, P.inv s → P.inv (s.push ⟨t, .clock, s.world.now⟩ s.world)
  assert : ∀ {s t n}, P.assert s ⟨t, .clock, n⟩

/-- What call `t` knows, through its own clock readings and the moves of others. -/
structure Lasting (P : Proto Tid Op Op.Res World) (t : Tid)
    (Φ : Shared Tid Op Op.Res World → Prop) : Prop where
  stable : P.Stable t Φ
  clock : ∀ {s n}, Φ s → Φ (s.push ⟨t, .clock, n⟩ s.world)

theorem lasting_const (p : Prop) : Lasting P t fun _ => p := ⟨Proto.stable_const, id⟩

theorem Lasting.and {Φ Ψ : Shared Tid Op Op.Res World → Prop} (h₁ : Lasting P t Φ)
    (h₂ : Lasting P t Ψ) : Lasting P t fun s => Φ s ∧ Ψ s :=
  ⟨h₁.stable.and h₂.stable, fun h => ⟨h₁.clock h.1, h₂.clock h.2⟩⟩

theorem Lasting.or {Φ Ψ : Shared Tid Op Op.Res World → Prop} (h₁ : Lasting P t Φ)
    (h₂ : Lasting P t Ψ) : Lasting P t fun s => Φ s ∨ Ψ s :=
  ⟨fun _ _ hmoves h => h.imp (h₁.stable hmoves) (h₂.stable hmoves),
    fun h => h.imp h₁.clock h₂.clock⟩

theorem lasting_le_now (hfree : ClockFree P) (n : Instant) :
    Lasting P t fun s => n ≤ s.world.now :=
  ⟨stable_le_now hfree.sys, id⟩

/-- What a call knows after it has read the lease `existing`. -/
structure HasRead (ttl : WorkerId → ℕ) (t : Tid) (runId : RunId) (existing : Lease)
    (s : Shared Tid Op Op.Res World) : Prop where
  current : WhileUndisturbed t (.lease runId)
    (fun s => s.world.store.lookup (.lease runId) = some existing) s
  bounded : existing.expiresAt ≤ s.world.now + durationSeconds (ttl existing.workerId)

theorem lasting_hasRead (hfree : ClockFree P) {ttl : WorkerId → ℕ} {runId : RunId}
    {existing : Lease} : Lasting P t (HasRead ttl t runId existing) where
  stable s s' hmoves h := by
    have hnow := stable_le_now hfree.sys hmoves le_rfl
    exact ⟨stable_lookup hfree.sys hmoves h.current, h.bounded.trans (by simpa using hnow)⟩
  clock h := ⟨h.current.push id id, h.bounded⟩

/-- No lease stored for the run is in force. -/
def Lapsed (runId : RunId) (s : Shared Tid Op Op.Res World) : Prop :=
  ∀ e, s.world.store.lookup (.lease runId) = some e → e.expiresAt ≤ s.world.now

theorem lasting_lapsed (hfree : ClockFree P) {runId : RunId} :
    Lasting P t (WhileUndisturbed t (.lease runId) (Lapsed runId)) where
  stable := by
    refine stable_whileUndisturbed hfree.sys (fun s n hn h e he => (h e he).trans hn) ?_
    intro s ev w hw _ _ hexec h e he
    rw [Shared.push_world, lookup_of_not_wrote hexec hw] at he
    exact (h e he).trans (World.now_of_exec hexec).ge
  clock h := h.push id id

variable {Φ : Shared Tid Op Op.Res World → Prop} {s : Shared Tid Op Op.Res World}

theorem safe_clock (hfree : ClockFree P) (hΦ : Lasting P t Φ) (hs : Φ s) :
    P.Safe t (ask .clock) (fun now s' => Φ s' ∧ now = s'.world.now) s := by
  refine Proto.Safe.op hΦ.stable hs fun s₁ h₁ hinv n w _ hexec => ?_
  rw [hfree.sys] at hexec
  obtain ⟨rfl, rfl⟩ := hexec
  exact ⟨hfree.assert, hfree.inv hinv, hΦ.clock h₁, rfl⟩

theorem safe_checkValid (hfree : ClockFree P) (hΦ : Lasting P t Φ) (lease : Lease) (hs : Φ s) :
    P.Safe t lease.checkValid
      (fun valid s' => Φ s' ∧ (valid = false → lease.expiresAt ≤ s'.world.now)) s := by
  refine (safe_clock hfree hΦ hs).bind fun now s' ⟨h', hnow⟩ => ⟨h', fun hvalid => ?_⟩
  simpa [Lease.isValid, hnow] using hvalid

theorem safe_checkHeldBy (hfree : ClockFree P) (hΦ : Lasting P t Φ) (lease : Lease)
    (workerId : WorkerId) (hs : Φ s) :
    P.Safe t (lease.checkHeldBy workerId)
      (fun held s' => Φ s' ∧ (held = true → lease.workerId = workerId) ∧
        (held = false → lease.workerId = workerId → lease.expiresAt ≤ s'.world.now)) s := by
  rw [Lease.checkHeldBy, both, Prog.ret_bind]
  by_cases hworker : lease.workerId = workerId
  · simp only [hworker, decide_true, if_true]
    exact (safe_checkValid hfree hΦ lease hs).mono fun valid s' ⟨h', hvalid⟩ =>
      ⟨h', fun _ => trivial, fun hfalse _ => hvalid hfalse⟩
  · simp [hworker, hs]

/-- No conflict: the lease has run out, or it is the worker's own. -/
theorem safe_conflict (hfree : ClockFree P) (hΦ : Lasting P t Φ) (lease : Lease)
    (workerId : WorkerId) (hs : Φ s) :
    P.Safe t (both lease.checkValid (negate (lease.checkHeldBy workerId)))
      (fun conflict s' => Φ s' ∧ (conflict = false →
        lease.expiresAt ≤ s'.world.now ∨ lease.workerId = workerId)) s := by
  refine (safe_checkValid hfree hΦ lease hs).bind fun valid s₁ ⟨h₁, hvalid⟩ => ?_
  cases valid with
  | false => exact ⟨h₁, fun _ => .inl (hvalid rfl)⟩
  | true =>
      refine (safe_checkHeldBy hfree hΦ lease workerId h₁).bind fun held s₂ ⟨h₂, hheld, _⟩ => ?_
      exact ⟨h₂, fun hconflict => .inr (hheld (by simpa using hconflict))⟩

/-- The worker's own valid lease, or one that has run out unless it is another's. -/
theorem safe_own (hfree : ClockFree P) (hΦ : Lasting P t Φ) (lease : Lease)
    (workerId : WorkerId) (hs : Φ s) :
    P.Safe t (both lease.checkValid (lease.checkHeldBy workerId))
      (fun own s' => Φ s' ∧ (own = true → lease.workerId = workerId) ∧
        (own = false → lease.workerId = workerId → lease.expiresAt ≤ s'.world.now)) s := by
  refine (safe_checkValid hfree hΦ lease hs).bind fun valid s₁ ⟨h₁, hvalid⟩ => ?_
  cases valid with
  | false => exact ⟨h₁, by simp, fun _ _ => hvalid rfl⟩
  | true => exact safe_checkHeldBy hfree hΦ lease workerId h₁

end Checks

end ClawDesk.Runtime
