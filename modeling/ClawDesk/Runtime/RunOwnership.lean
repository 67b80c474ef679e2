import ClawDesk.Runtime.Recovery

/-!
# Who may write a run

Starts, resumptions, cancellations, recovery scans and retries from the dead letter
queue, by any number of workers, interleaved operation by operation.

A worker looks at its lease once, before it asks the agent, and at the stored record
once, when it begins.  The checkpoint and the final record are written without a
further look.  `Orderly` says that nothing happened in the meantime, `Permitted` what
may then be written, and `RunInv` is the invariant: a lease in force of a call that has
seen the latest record is the one that is stored.
-/

namespace ClawDesk.Runtime.RunOwnership

open Foundations

/-! ### The calls -/

/-- What a call was made for. -/
inductive Procedure where
  | start
  | resume
  | cancel
  | scanAndRecover
  | retryFromDlq
  deriving DecidableEq

abbrev RunCall := Call Procedure
abbrev RunEvent := Event RunCall Op Op.Res
abbrev RunShared := Shared RunCall Op Op.Res World

/-- The calls: by any worker, of any run, at any time.  Each worker's manager has one
default time to live. -/
inductive Client (ttl : WorkerId → ℕ) : RunCall → Proc Unit → Prop
  | start {serial : ℕ} (runner : DurableAgentRunner) (config : AgentConfig)
      (sessionKey : String) (history : List ChatMessage) (systemPrompt : String)
      (retryPolicy : RetryPolicy)
      (uses : runner.leaseManager.defaultTtlSecs = ttl runner.workerId) :
      Client ttl ⟨serial, .start⟩
        ((runner.start config sessionKey history systemPrompt retryPolicy).bind fun _ => .ret ())
  | resume {serial : ℕ} (runner : DurableAgentRunner) (runId : RunId)
      (uses : runner.leaseManager.defaultTtlSecs = ttl runner.workerId) :
      Client ttl ⟨serial, .resume⟩ ((runner.resume runId).bind fun _ => .ret ())
  | cancel {serial : ℕ} (runId : RunId) (reason : String) :
      Client ttl ⟨serial, .cancel⟩
        ((DurableAgentRunner.cancel runId reason).bind fun _ => .ret ())
  | scanAndRecover {serial : ℕ} :
      Client ttl ⟨serial, .scanAndRecover⟩ (RecoveryManager.scanAndRecover.bind fun _ => .ret ())
  | retryFromDlq {serial : ℕ} (runId : RunId) :
      Client ttl ⟨serial, .retryFromDlq⟩
        ((RecoveryManager.retryFromDlq runId).bind fun _ => .ret ())

/-! ### What the log says about leases -/

/-- Call `t` stored the lease `ℓ` for the run. -/
abbrev granted (t : RunCall) (id : RunId) (ℓ : Lease) : RunEvent :=
  ⟨t, .put (.lease id) ℓ, .ok ()⟩

/-- Call `t` deleted the run's lease. -/
abbrev dropped (t : RunCall) (id : RunId) : RunEvent := ⟨t, .delete (.lease id), .ok ()⟩

/-- The lease `ℓ` is what call `t` has last written under the run's lease entry. -/
def Owns (t : RunCall) (id : RunId) (ℓ : Lease) : List RunEvent → Prop
  | [] => False
  | ev :: log => ev = granted t id ℓ ∨ (¬ (ev.tid = t ∧ Wrote (.lease id) ev) ∧ Owns t id ℓ log)

/-- A lease with another token was stored for the run after call `t` had stored one. -/
def Superseded (t : RunCall) (id : RunId) : List RunEvent → Prop
  | [] => False
  | ev :: log =>
      (∃ t' ℓ ℓ', ev = granted t' id ℓ' ∧ granted t id ℓ ∈ log ∧ ℓ.fenceToken ≠ ℓ'.fenceToken) ∨
        Superseded t id log

/-! ### The condition and the guarantee -/

/-- The four things that must not happen. -/
structure Orderly (s : RunShared) (ev : RunEvent) : Prop where
  /-- A record or a checkpoint is written by a call that has not seen the latest
  record. -/
  current : ∀ id, Wrote (.run id) ev ∨ Wrote (.checkpoint id) ev →
    ev.tid.request ≠ .retryFromDlq → Undisturbed ev.tid (.run id) s.log
  /-- …or, like a renewal, by a call whose lease has run out. -/
  inForce : ∀ id ℓ, Wrote (.run id) ev ∨ Wrote (.checkpoint id) ev ∨
    (∃ ℓ', ev = granted ev.tid id ℓ') → Owns ev.tid id ℓ s.log → s.world.now < ℓ.expiresAt
  /-- A lease is stored on the strength of a read that another call has overtaken. -/
  exclusive : ∀ id ℓ, ev = granted ev.tid id ℓ → Undisturbed ev.tid (.lease id) s.log
  /-- A lease entry is deleted while another call, which has seen the latest record,
  has a lease in force. -/
  spared : ∀ id, ev = dropped ev.tid id → ∀ t ℓ, t ≠ ev.tid → Owns t id ℓ s.log →
    Undisturbed t (.run id) s.log → ℓ.expiresAt ≤ s.world.now

/-- What the operation of call `t` that leaves the world at `w` has kept. -/
structure Kept (s : RunShared) (t : RunCall) (w : World) : Prop where
  /-- Nobody but `retry_from_dlq` writes over a terminal record. -/
  terminal {id run} : t.request ≠ .retryFromDlq →
    s.world.store.lookup (.run id) = some run → run.isTerminal = true →
      w.store.lookup (.run id) = some run
  /-- A worker whose token has been superseded changes neither record nor checkpoint. -/
  fenced {id} : Superseded t id s.log →
    w.store.lookup (.run id) = s.world.store.lookup (.run id) ∧
      w.store.lookup (.checkpoint id) = s.world.store.lookup (.checkpoint id)

/-- The same, of the operation itself. -/
structure Permitted (s : RunShared) (ev : RunEvent) : Prop where
  terminal {id run} : ev.tid.request ≠ .retryFromDlq →
    s.world.store.lookup (.run id) = some run → run.isTerminal = true → ¬ Wrote (.run id) ev
  fenced {id} : Superseded ev.tid id s.log →
    ¬ Wrote (.run id) ev ∧ ¬ Wrote (.checkpoint id) ev

theorem Permitted.kept {s : RunShared} {t : RunCall} {e : Op} {r : e.Res} {w : World}
    (h : Permitted s ⟨t, e, r⟩) (hexec : World.exec e s.world r w) : Kept s t w where
  terminal hretry hlookup hterminal :=
    (lookup_of_not_wrote hexec (h.terminal hretry hlookup hterminal)).trans hlookup
  fenced hsuperseded :=
    ⟨lookup_of_not_wrote hexec (h.fenced hsuperseded).1,
      lookup_of_not_wrote hexec (h.fenced hsuperseded).2⟩

/-! ### The invariant -/

/-- A lease in force of a call that has seen the latest record is the stored one, or
an earlier state of it, and has not been superseded. -/
structure RunInv (ttl : WorkerId → ℕ) (id : RunId) (s : RunShared) : Prop where
  held : ∀ {t ℓ}, Owns t id ℓ s.log → Undisturbed t (.run id) s.log →
    s.world.now < ℓ.expiresAt → ¬ Superseded t id s.log ∧
      ∃ e, s.world.store.lookup (.lease id) = some e ∧ e.workerId = ℓ.workerId ∧
        e.fenceToken = ℓ.fenceToken ∧ ℓ.expiresAt ≤ e.expiresAt
  /-- …so that a renewal never brings the expiry forward. -/
  bounded : ∀ {e}, s.world.store.lookup (.lease id) = some e →
    e.expiresAt ≤ s.world.now + durationSeconds (ttl e.workerId)
  /-- A call works under one token. -/
  oneToken : ∀ {t ℓ ℓ'}, granted t id ℓ ∈ s.log → granted t id ℓ' ∈ s.log →
    ℓ.fenceToken = ℓ'.fenceToken
  named : ∀ {run}, s.world.store.lookup (.run id) = some run → run.id = id

/-- The argument of this module. -/
def proto (ttl : WorkerId → ℕ) : Proto RunCall Op Op.Res World where
  sys := runtimeSystem
  cond := Orderly
  inv s := ∀ id, RunInv ttl id s
  assert := Permitted

variable {ttl : WorkerId → ℕ} {s : RunShared} {t : RunCall} {id : RunId}

theorem inv_initial (now : Instant) : RunInv ttl id ⟨World.initial now, []⟩ := by
  constructor
  · exact fun h => h.elim
  all_goals simp [World.initial]

theorem RunInv.drift {w : World} (h : RunInv ttl id s) (hmoves : World.passes s.world w) :
    RunInv ttl id (s.drift w) := by
  obtain ⟨n, hn, rfl⟩ := hmoves
  refine ⟨fun howns hund hnow => h.held howns hund (lt_of_le_of_lt hn hnow), fun hlookup => ?_,
    h.oneToken, h.named⟩
  exact (h.bounded hlookup).trans (by simpa using hn)

/-! ### Leases along the log -/

section Log

variable {ℓ : Lease} {ev : RunEvent} {log : List RunEvent}

theorem mem_granted_of_not_wrote (hw : ¬ (ev.tid = t ∧ Wrote (.lease id) ev)) :
    granted t id ℓ ∈ ev :: log ↔ granted t id ℓ ∈ log := by
  constructor
  · intro hmem
    rcases List.mem_cons.mp hmem with rfl | hmem
    · exact absurd ⟨rfl, rfl⟩ hw
    · exact hmem
  · exact List.mem_cons_of_mem _

theorem owns_of_not_wrote (hw : ¬ (ev.tid = t ∧ Wrote (.lease id) ev)) :
    Owns t id ℓ (ev :: log) ↔ Owns t id ℓ log := by
  constructor
  · rintro (rfl | ⟨-, h⟩)
    · exact absurd ⟨rfl, rfl⟩ hw
    · exact h
  · exact fun h => .inr ⟨hw, h⟩

theorem superseded_of_not_wrote (hw : ¬ Wrote (.lease id) ev) :
    Superseded t id (ev :: log) ↔ Superseded t id log := by
  constructor
  · rintro (⟨t', ℓ, ℓ', rfl, -⟩ | h)
    · exact absurd rfl hw
    · exact h
  · exact .inr

/-- Writing a lease tells nobody anything about the record. -/
theorem undisturbed_of_wrote_lease {id' : RunId} (h : Undisturbed t (.run id) (ev :: log))
    (hw : Wrote (.lease id') ev) : Undisturbed t (.run id) log := by
  refine (undisturbed_cons fun hsaw => ?_).mp h
  obtain ⟨t', e, r⟩ := ev
  cases e with
  | put k v | delete k =>
      cases r with
      | error err => exact hw
      | ok _ => exact Key.noConfusion ((show k = .lease id' from hw).symm.trans hsaw)
  | _ => exact hw

theorem Owns.mem (h : Owns t id ℓ log) : granted t id ℓ ∈ log := by
  induction log with
  | nil => exact h.elim
  | cons ev log ih =>
      rcases h with rfl | ⟨-, h⟩
      · exact List.mem_cons_self
      · exact List.mem_cons_of_mem _ (ih h)

theorem Superseded.exists_granted (h : Superseded t id log) : ∃ ℓ, granted t id ℓ ∈ log := by
  induction log with
  | nil => exact h.elim
  | cons ev log ih =>
      rcases h with ⟨-, ℓ, -, -, hmem, -⟩ | h
      · exact ⟨ℓ, List.mem_cons_of_mem _ hmem⟩
      · obtain ⟨ℓ, hmem⟩ := ih h
        exact ⟨ℓ, List.mem_cons_of_mem _ hmem⟩

/-- A grant under another token later in the log supersedes an earlier one. -/
theorem superseded_of_getElem? {t' : RunCall} {ℓ' : Lease} {i j : ℕ}
    (hnew : log[i]? = some (granted t' id ℓ')) (hold : log[j]? = some (granted t id ℓ))
    (hij : i < j) (hne : ℓ.fenceToken ≠ ℓ'.fenceToken) : Superseded t id log := by
  induction log generalizing i j with
  | nil => contradiction
  | cons ev log ih =>
      obtain ⟨j, rfl⟩ := Nat.exists_eq_succ_of_ne_zero (Nat.ne_zero_of_lt hij)
      rw [List.getElem?_cons_succ] at hold
      cases i with
      | zero =>
          obtain rfl : ev = granted t' id ℓ' := by simpa using hnew
          exact .inl ⟨t', ℓ, ℓ', rfl, List.mem_of_getElem? hold, hne⟩
      | succ i =>
          rw [List.getElem?_cons_succ] at hnew
          exact .inr (ih hnew hold (Nat.lt_of_succ_lt_succ hij))

/-- A call is superseded by a lease that is stored under another token than its own. -/
theorem not_superseded_granted {t' : RunCall} {v : Lease} (hold : ¬ Superseded t id log)
    (htoken : ∀ ℓ, granted t id ℓ ∈ log → ℓ.fenceToken = v.fenceToken) :
    ¬ Superseded t id (granted t' id v :: log) := by
  rintro (⟨t'', ℓ, ℓ', heq, hmem, hne⟩ | h)
  · obtain rfl : v = ℓ' := by simpa using (Event.mk.inj heq).2.1
    exact hne (htoken ℓ hmem)
  · exact hold h

end Log

/-! ### What a call stands on -/

/-- Call `t` has stored no lease. -/
def Unleased (t : RunCall) (s : RunShared) : Prop := ∀ id ℓ, granted t id ℓ ∉ s.log

/-- The run's lease entry was last written by call `t`, as far as its own writes go,
with a lease that carries the token. -/
def Leased (t : RunCall) (id : RunId) (fence : ℕ) (s : RunShared) : Prop :=
  ∃ ℓ, Owns t id ℓ s.log ∧ ℓ.fenceToken = fence

/-- Call `t` has stored no lease, or has one for the run. -/
def Stands (t : RunCall) (id : RunId) (s : RunShared) : Prop :=
  Unleased t s ∨ (t.request ≠ .retryFromDlq ∧ ∃ ℓ, Owns t id ℓ s.log)

/-- The stored record of the run is not terminal, as long as no other call has
written it.  A retry from the dead letter queue does not care. -/
def Live (t : RunCall) (id : RunId) (s : RunShared) : Prop :=
  t.request ≠ .retryFromDlq → WhileUndisturbed t (.run id) (fun s =>
    ∀ run, s.world.store.lookup (.run id) = some run → run.isTerminal = false) s

/-- What depends on the lease writes of call `t` only. -/
structure Steady (t : RunCall) (K : RunShared → Prop) : Prop where
  drift : ∀ {s w}, K s → K (s.drift w)
  push : ∀ {s ev w}, (∀ id, ¬ (ev.tid = t ∧ Wrote (.lease id) ev)) → K s → K (s.push ev w)

theorem steady_unleased : Steady t (Unleased t) where
  drift h := h
  push hw h id ℓ hmem := h id ℓ ((mem_granted_of_not_wrote (hw id)).mp hmem)

theorem steady_leased {fence : ℕ} : Steady t (Leased t id fence) where
  drift h := h
  push hw := by
    rintro ⟨ℓ, howns, hfence⟩
    exact ⟨ℓ, (owns_of_not_wrote (hw id)).mpr howns, hfence⟩

theorem Steady.stable {K : RunShared → Prop} (hK : Steady t K) : (proto ttl).Stable t K := by
  rintro s s' (⟨-, -⟩ | ⟨other, -, -, -, -, -⟩) h
  · exact hK.drift h
  · exact hK.push (fun _ hw => other hw.1) h

theorem stable_live : (proto ttl).Stable t (Live t id) := by
  intro s s' hmoves h hretry
  refine stable_whileUndisturbed rfl (fun s n _ h => h) ?_ hmoves (h hretry)
  intro s ev w hw _ _ hexec h run hlookup
  rw [Shared.push_world, lookup_of_not_wrote hexec hw] at hlookup
  exact h run hlookup

/-! ### What an operation leaves -/

/-- An operation that does not write the run's lease entry. -/
theorem RunInv.frame {e : Op} {r : e.Res} {w : World} (h : RunInv ttl id s)
    (hexec : World.exec e s.world r w)
    (hlease : ¬ Wrote (.lease id) (⟨t, e, r⟩ : RunEvent))
    (hsaw : ∀ {ℓ}, Saw (.run id) (⟨t, e, r⟩ : RunEvent) → Owns t id ℓ s.log →
      Undisturbed t (.run id) s.log)
    (named : ∀ {run}, w.store.lookup (.run id) = some run → run.id = id) :
    RunInv ttl id (s.push ⟨t, e, r⟩ w) where
  held {t' ℓ} howns hund hnow := by
    replace howns := (owns_of_not_wrote fun hw => hlease hw.2).mp howns
    have hund' : Undisturbed t' (.run id) s.log := by
      rcases hund with ⟨rfl, hsaw'⟩ | ⟨-, hund⟩
      · exact hsaw hsaw' howns
      · exact hund
    have hnow' : s.world.now < ℓ.expiresAt := World.now_of_exec hexec ▸ hnow
    obtain ⟨hnot, hstored⟩ := h.held howns hund' hnow'
    refine ⟨mt (superseded_of_not_wrote hlease).mp hnot, ?_⟩
    rwa [Shared.push_world, lookup_of_not_wrote hexec hlease]
  bounded hlookup := by
    rw [Shared.push_world, lookup_of_not_wrote hexec hlease] at hlookup
    exact World.now_of_exec hexec ▸ h.bounded hlookup
  oneToken hmem hmem' :=
    h.oneToken ((mem_granted_of_not_wrote fun hw => hlease hw.2).mp hmem)
      ((mem_granted_of_not_wrote fun hw => hlease hw.2).mp hmem')
  named := named

/-- The lease `v` may take the place of what is stored: that has run out, or it is an
earlier state of `v`. -/
def Replaces (id : RunId) (v : Lease) (s : RunShared) : Prop :=
  ∀ e, s.world.store.lookup (.lease id) = some e → e.expiresAt ≤ s.world.now ∨
    (v.workerId = e.workerId ∧ v.fenceToken = e.fenceToken ∧ e.expiresAt ≤ v.expiresAt)

/-- Storing a lease. -/
theorem RunInv.stored {v : Lease} (h : RunInv ttl id s) (hcond : Orderly s (granted t id v))
    (hbound : v.expiresAt ≤ s.world.now + durationSeconds (ttl v.workerId))
    (hreplaces : Replaces id v s) (hmine : Unleased t s ∨ Leased t id v.fenceToken s) :
    RunInv ttl id (s.push (granted t id v) (s.world.put (.lease id) v)) := by
  have hlookup : (s.world.put (.lease id) v).store.lookup (.lease id) = some v :=
    AList.lookup_insert _
  have htoken : ∀ ℓ, granted t id ℓ ∈ s.log → ℓ.fenceToken = v.fenceToken := by
    intro ℓ hmem
    rcases hmine with hun | ⟨ℓ₀, howns, hfence⟩
    · exact absurd hmem (hun id ℓ)
    · exact (h.oneToken hmem howns.mem).trans hfence
  constructor
  · intro t' ℓ howns hund hnow
    have hund' : Undisturbed t' (.run id) s.log :=
      undisturbed_of_wrote_lease hund (.refl (Key.lease id))
    rcases howns with heq | ⟨-, howns⟩
    · -- The lease is the new one.
      obtain ⟨rfl, hop, -⟩ := Event.mk.inj heq
      obtain rfl : v = ℓ := by simpa using hop
      refine ⟨not_superseded_granted (fun hsuper => ?_) htoken, v, hlookup, rfl, rfl, le_rfl⟩
      rcases hmine with hun | ⟨ℓ₀, howns, -⟩
      · obtain ⟨ℓ, hmem⟩ := hsuper.exists_granted
        exact hun id ℓ hmem
      · have hforce := hcond.inForce id ℓ₀ (.inr (.inr ⟨v, rfl⟩)) howns
        exact (h.held howns hund' hforce).1 hsuper
    · -- It is an older one in force, and so the new one is a later state of it.
      obtain ⟨hnot, e, he, hworker, hfence, hle⟩ := h.held howns hund' hnow
      rcases hreplaces e he with hlapsed | ⟨hworker', hfence', hle'⟩
      · exact absurd (lt_of_lt_of_le hnow hle) hlapsed.not_gt
      refine ⟨not_superseded_granted hnot fun ℓ' hmem => ?_, v, hlookup, hworker'.trans hworker,
        hfence'.trans hfence, hle.trans hle'⟩
      rw [h.oneToken hmem howns.mem, hfence', hfence]
  · intro e he
    obtain rfl : v = e := Option.some.inj (hlookup.symm.trans he)
    exact hbound
  · intro t' ℓ ℓ' hmem hmem'
    have hcases {ℓ} (hmem : granted t' id ℓ ∈ granted t id v :: s.log) :
        granted t' id ℓ ∈ s.log ∨ (t' = t ∧ ℓ = v) := by
      rcases List.mem_cons.mp hmem with heq | hmem
      · obtain ⟨rfl, hop, -⟩ := Event.mk.inj heq
        exact .inr ⟨rfl, by simpa using hop⟩
      · exact .inl hmem
    rcases hcases hmem with hold | ⟨rfl, rfl⟩ <;> rcases hcases hmem' with hold' | ⟨htid, rfl⟩
    · exact h.oneToken hold hold'
    · exact htoken ℓ (htid ▸ hold)
    · exact (htoken ℓ' hold').symm
    · rfl
  · intro run hrun
    rw [Shared.push_world, World.put_store, AList.lookup_insert_ne (by simp)] at hrun
    exact h.named hrun

/-- Deleting a lease, which takes it away from nobody but the call itself. -/
theorem RunInv.dropped (h : RunInv ttl id s) (hcond : Orderly s (dropped t id)) :
    RunInv ttl id (s.push (dropped t id) (s.world.erase (.lease id))) where
  held {t' ℓ} howns hund hnow := by
    have hund' : Undisturbed t' (.run id) s.log :=
      undisturbed_of_wrote_lease hund (.refl (Key.lease id))
    rcases howns with heq | ⟨hother, howns⟩
    · cases heq
    · have hne : t' ≠ t := fun htid => hother ⟨htid.symm, rfl⟩
      exact absurd hnow (hcond.spared id rfl t' ℓ hne howns hund').not_gt
  bounded he := by
    rw [Shared.push_world, World.erase_store, AList.lookup_erase] at he
    cases he
  oneToken hmem hmem' := by
    rw [Shared.push_log] at hmem hmem'
    exact h.oneToken (by simpa using hmem) (by simpa using hmem')
  named hrun := by
    rw [Shared.push_world, World.erase_store, AList.lookup_erase_ne (by simp)] at hrun
    exact h.named hrun

/-! ### Operations of no concern -/

/-- Operations that show or change neither a record nor a checkpoint nor, deletions
apart, a lease. -/
def Quiet : Op → Prop
  | .get (.run _) => False
  | .put (.run _) _ => False
  | .put (.lease _) _ => False
  | .put (.checkpoint _) _ => False
  | .delete (.run _) => False
  | .delete (.lease _) => False
  | .delete (.checkpoint _) => False
  | .newRunId => False
  | _ => True

/-- …and the deletion of a lease. -/
def Loose (e : Op) : Prop := Quiet e ∨ ∃ id, e = .delete (.lease id)

/-- The event shows or changes neither a record nor a checkpoint nor a lease. -/
structure Idle (ev : RunEvent) : Prop where
  record : ∀ id, ¬ Saw (.run id) ev
  lease : ∀ id, ¬ Wrote (.lease id) ev
  checkpoint : ∀ id, ¬ Wrote (.checkpoint id) ev

section Idle

variable {e : Op} {r : e.Res} {w : World}

theorem idle_quiet (h : Quiet e) : Idle ⟨t, e, r⟩ := by
  have hno {k : Key} (hk : ∃ id, k = .run id ∨ k = .lease id ∨ k = .checkpoint id) :
      ¬ Wrote k (⟨t, e, r⟩ : RunEvent) := by
    intro hw
    cases e with
    | put k' v | delete k' =>
        cases r with
        | error err => exact hw
        | ok _ =>
            obtain rfl : k' = k := hw
            obtain ⟨id, rfl | rfl | rfl⟩ := hk <;> exact h
    | _ => exact hw
  refine ⟨fun id hsaw => ?_, fun id => hno ⟨id, .inr (.inl rfl)⟩,
    fun id => hno ⟨id, .inr (.inr rfl)⟩⟩
  cases e with
  | get k =>
      cases r with
      | error err => exact hsaw
      | ok _ =>
          obtain rfl : k = .run id := hsaw
          exact h
  | newRunId => exact h
  | _ => exact hno ⟨id, .inl rfl⟩ hsaw

theorem idle_clock {n : Instant} : Idle ⟨t, .clock, n⟩ := idle_quiet trivial

/-- A write that failed. -/
theorem idle_failed {k : Key} {v : k.Val} {err : StorageError} :
    Idle ⟨t, .put k v, .error err⟩ :=
  ⟨fun _ h => h, fun _ h => h, fun _ h => h⟩

theorem Idle.permitted {ev : RunEvent} (h : Idle ev) : Permitted s ev where
  terminal _ _ _ hw := h.record _ hw.saw
  fenced _ := ⟨fun hw => h.record _ hw.saw, h.checkpoint _⟩

theorem RunInv.idle (h : RunInv ttl id s) (hidle : Idle ⟨t, e, r⟩)
    (hexec : World.exec e s.world r w) : RunInv ttl id (s.push ⟨t, e, r⟩ w) := by
  refine h.frame hexec (hidle.lease id) (fun hsaw => absurd hsaw (hidle.record id))
    fun {run} hlookup => ?_
  rw [lookup_of_not_wrote hexec fun hw => hidle.record id hw.saw] at hlookup
  exact h.named hlookup

theorem Live.frame {ev : RunEvent} (h : Live t id s) (hsaw : ¬ Saw (.run id) ev)
    (hlookup : w.store.lookup (.run id) = s.world.store.lookup (.run id)) :
    Live t id (s.push ev w) := by
  intro hretry
  refine (h hretry).push hsaw fun hlive run hrun => hlive run ?_
  rwa [Shared.push_world, hlookup] at hrun

theorem Live.idle (h : Live t id s) (hidle : Idle ⟨t, e, r⟩) (hexec : World.exec e s.world r w) :
    Live t id (s.push ⟨t, e, r⟩ w) :=
  h.frame (hidle.record id) (lookup_of_not_wrote hexec fun hw => hidle.record id hw.saw)

theorem Steady.idle {K : RunShared → Prop} {ev : RunEvent} (hK : Steady t K) (hidle : Idle ev)
    (h : K s) : K (s.push ev w) :=
  hK.push (fun id hw => hidle.lease id hw.2) h

end Idle

/-- Deleting a lease, or trying to. -/
theorem loose_step {e : Op} {r : e.Res} {w : World} (hloose : Loose e)
    (hinv : ∀ id, RunInv ttl id s) (hcond : Orderly s ⟨t, e, r⟩)
    (hexec : World.exec e s.world r w) :
    Permitted s ⟨t, e, r⟩ ∧ ∀ id, RunInv ttl id (s.push ⟨t, e, r⟩ w) := by
  rcases hloose with hquiet | ⟨id, rfl⟩
  · exact ⟨(idle_quiet hquiet).permitted, fun id => (hinv id).idle (idle_quiet hquiet) hexec⟩
  rcases hexec with ⟨rfl, rfl⟩ | ⟨⟨err, rfl⟩, rfl⟩
  · refine ⟨⟨fun _ _ _ => nofun, fun _ => ⟨nofun, nofun⟩⟩, fun id' => ?_⟩
    by_cases hid : id' = id
    · subst hid
      exact (hinv id').dropped hcond
    · have hw : ¬ Wrote (.lease id') (dropped t id) := fun hw => hid (Key.lease.inj hw).symm
      refine (hinv id').frame (.inl ⟨rfl, rfl⟩) hw nofun fun {run} hlookup => ?_
      rw [World.erase_store, AList.lookup_erase_ne (by simp)] at hlookup
      exact (hinv id').named hlookup
  · have hidle : Idle ⟨t, .delete (.lease id), .error err⟩ :=
      ⟨fun _ h => h, fun _ h => h, fun _ h => h⟩
    exact ⟨hidle.permitted, fun id' => (hinv id').idle hidle (.inr ⟨⟨err, rfl⟩, rfl⟩)⟩

theorem frames_steady {K : RunShared → Prop} (hK : Steady t K) :
    (proto ttl).Frames t Quiet K where
  stable := hK.stable
  step hquiet h hinv _ hexec :=
    ⟨(idle_quiet hquiet).permitted, fun id => (hinv id).idle (idle_quiet hquiet) hexec,
      hK.idle (idle_quiet hquiet) h⟩

/-- What a call stands on and the record it has seen survive its quiet operations. -/
theorem frames_live {K : RunShared → Prop} (hK : Steady t K) :
    (proto ttl).Frames t Quiet fun s => K s ∧ Live t id s where
  stable := hK.stable.and stable_live
  step hquiet h hinv _ hexec :=
    ⟨(idle_quiet hquiet).permitted, fun id => (hinv id).idle (idle_quiet hquiet) hexec,
      hK.idle (idle_quiet hquiet) h.1, h.2.idle (idle_quiet hquiet) hexec⟩

/-- A call that has stored no lease keeps to that when it deletes one. -/
theorem frames_unleased : (proto ttl).Frames t Loose (Unleased t) where
  stable := steady_unleased.stable
  step hloose h hinv hcond hexec := by
    obtain ⟨hpermitted, hinv'⟩ := loose_step hloose hinv hcond hexec
    refine ⟨hpermitted, hinv', fun id ℓ hmem => h id ℓ ?_⟩
    rcases List.mem_cons.mp hmem with heq | hmem
    · obtain ⟨-, hop, -⟩ := Event.mk.inj heq
      subst hop
      rcases hloose with hquiet | ⟨id', hid'⟩
      · exact hquiet.elim
      · cases hid'
    · exact hmem

/-- …and nothing need be known at the end of a call. -/
theorem frames_loose : (proto ttl).Frames t Loose fun _ => True where
  stable := Proto.stable_const
  step hloose _ hinv hcond hexec := by
    obtain ⟨hpermitted, hinv'⟩ := loose_step hloose hinv hcond hexec
    exact ⟨hpermitted, hinv', trivial⟩

end ClawDesk.Runtime.RunOwnership
