import ClawDesk.Runtime.Dag
import ClawDesk.Runtime.Recovery

/-!
# Does a run stay suspended at its gate?

When a gate suspends a pipeline, `execute` stores the run as suspended and
returns.  It does not release the lease, as the agent runner's `handle_failure`
does, so the lease runs out while the human is still thinking; the next
`scan_and_recover` takes the run for an orphan and puts it back to pending
(`requeued_at_gate`) or into the dead letter queue.

Nothing else disturbs it: as long as no check for expired leases finds the lease
of a waiting run, a run that has been stored as suspended at a gate is still
stored so, and is not in the queue (`stays_suspended`).
-/

namespace ClawDesk.Runtime.GateSuspension

open Foundations Agents

abbrev RunEvent := Event Unit Op Op.Res
abbrev RunShared := Shared Unit Op Op.Res World

/-! ### Waiting for a human -/

/-- The run is suspended at a human gate. -/
def atGate (run : WorkflowRun) : Bool :=
  match run.state with
  | .suspended (.humanGate _ _) => true
  | _ => false

/-- The store has the run suspended at a human gate. -/
def Waiting (id : RunId) (w : World) : Prop :=
  ∃ run ∈ w.store.lookup (.run id), atGate run = true

instance (id : RunId) (w : World) : Decidable (Waiting id w) :=
  inferInstanceAs (Decidable (∃ run ∈ w.store.lookup (.run id), atGate run = true))

/-- The leases that the last operation has scanned. -/
def scanned : List RunEvent → List Lease
  | ⟨_, .scan _, .ok entries⟩ :: _ => LeaseManager.leasesOf entries
  | _ => []

/-- A reading of the clock. -/
def reading : RunEvent → Option Instant
  | ⟨_, .clock, now⟩ => some now
  | _ => none

/-- When the leases that have just been scanned are compared with the clock, none
of a waiting run has expired. -/
def Spared (s : RunShared) (ev : RunEvent) : Prop :=
  ∀ now ∈ reading ev, ∀ lease ∈ scanned s.log, Waiting lease.runId s.world →
    now ≤ lease.expiresAt

instance (s : RunShared) (ev : RunEvent) : Decidable (Spared s ev) :=
  inferInstanceAs (Decidable (∀ now ∈ reading ev, ∀ lease ∈ scanned s.log, _))

/-- The calls: executions of pipelines by any worker, under any retry policy, and
scans for expired leases. -/
inductive Client : Proc Unit → Prop
  | execute (ex : DagExecutor) (pipeline : AgentPipeline) (retryPolicy : RetryPolicy) :
      Client ((ex.execute pipeline retryPolicy).bind fun _ => .ret ())
  | recover : Client (RecoveryManager.scanAndRecover.bind fun _ => .ret ())

/-! ### The invariant -/

/-- The event stored the run. -/
abbrev saved (id : RunId) (run : WorkflowRun) : RunEvent := ⟨(), .put (.run id) run, .ok ()⟩

/-- The event put the run into the dead letter queue. -/
abbrev deadLettered (id : RunId) (entry : DeadLetterEntry) : RunEvent :=
  ⟨(), .put (.dlq id) entry, .ok ()⟩

/-- A run that was stored as waiting at its gate still is. -/
structure Inv (s : RunShared) : Prop where
  kept : ∀ {id run}, saved id run ∈ s.log → atGate run = true →
    s.world.store.lookup (.run id) = some run
  alive : ∀ {id run entry}, saved id run ∈ s.log → atGate run = true →
    deadLettered id entry ∉ s.log
  named : ∀ {id run}, s.world.store.lookup (.run id) = some run → run.id = id
  /-- No record of a run is ever lost. -/
  stored : ∀ {id run}, saved id run ∈ s.log → (s.world.store.lookup (.run id)).isSome
  queued : ∀ {id entry}, deadLettered id entry ∈ s.log →
    (s.world.store.lookup (.dlq id)).isSome

/-- The argument of this module. -/
def proto : Proto Unit Op Op.Res World where
  sys := runtimeSystem
  cond := Spared
  inv := Inv
  assert _ _ := True

/-- The run has not been stored as waiting at its gate. -/
def NotGated (id : RunId) (s : RunShared) : Prop := ∀ run, saved id run ∈ s.log → atGate run = false

/-- …nor been put into the dead letter queue. -/
def Untouched (id : RunId) (s : RunShared) : Prop :=
  NotGated id s ∧ ∀ entry, deadLettered id entry ∉ s.log

variable {s : RunShared} {id : RunId} {run : WorkflowRun}

theorem inv_initial (now : Instant) : Inv ⟨World.initial now, []⟩ := by
  constructor <;> simp [World.initial]

theorem inv_drift {w : World} (h : Inv s) (hmoves : World.passes s.world w) :
    Inv (s.drift w) := by
  obtain ⟨n, -, rfl⟩ := hmoves
  exact ⟨h.kept, h.alive, h.named, h.stored, h.queued⟩

/-- What is known of the log lasts between two operations. -/
theorem stable_log {p : List RunEvent → Prop} : proto.Stable () fun s => p s.log :=
  Proto.stable_of_env fun _ _ _ h => h

/-! ### Operations of no concern -/

/-- Operations that write neither a run record nor the dead letter queue. -/
def Quiet : Op → Prop
  | .put (.run _) _ => False
  | .put (.dlq _) _ => False
  | .delete k => ∃ id, k = .lease id
  | _ => True

theorem quiet_onLease {e : Op} (h : OnLease id e) : Quiet e := by
  cases e with
  | put k v =>
      obtain rfl : k = .lease id := h
      trivial
  | delete k => exact ⟨id, h⟩
  | _ => trivial

theorem lookup_quiet {e : Op} {r : e.Res} {w w' : World} {k : Key} (h : Quiet e)
    (hexec : World.exec e w r w') (hk : k = .run id ∨ k = .dlq id) :
    w'.store.lookup k = w.store.lookup k := by
  refine World.lookup_of_exec hexec ?_ ?_
  · rintro v rfl
    rcases hk with rfl | rfl <;> exact h
  · rintro rfl
    obtain ⟨id', hlease⟩ := h
    rcases hk with rfl | rfl <;> exact Key.noConfusion hlease

theorem saved_ne_quiet {e : Op} {r : e.Res} (h : Quiet e) :
    saved id run ≠ ⟨(), e, r⟩ := by
  intro heq
  obtain ⟨-, rfl, -⟩ := Event.mk.inj heq
  exact h

theorem deadLettered_ne_quiet {e : Op} {r : e.Res} {entry : DeadLetterEntry} (h : Quiet e) :
    deadLettered id entry ≠ ⟨(), e, r⟩ := by
  intro heq
  obtain ⟨-, rfl, -⟩ := Event.mk.inj heq
  exact h

/-- The event neither stored a run nor put one into the queue. -/
structure Idle (ev : RunEvent) : Prop where
  saved_ne : ∀ id run, saved id run ≠ ev
  dead_ne : ∀ id entry, deadLettered id entry ≠ ev

theorem idle_quiet {e : Op} {r : e.Res} (h : Quiet e) : Idle ⟨(), e, r⟩ :=
  ⟨fun _ _ => saved_ne_quiet h, fun _ _ => deadLettered_ne_quiet h⟩

variable {ev : RunEvent} {log : List RunEvent}

theorem Idle.saved_mem (h : Idle ev) : saved id run ∈ ev :: log ↔ saved id run ∈ log := by
  rw [List.mem_cons, or_iff_right (h.saved_ne id run)]

theorem Idle.dead_mem (h : Idle ev) {entry : DeadLetterEntry} :
    deadLettered id entry ∈ ev :: log ↔ deadLettered id entry ∈ log := by
  rw [List.mem_cons, or_iff_right (h.dead_ne id entry)]

theorem Inv.frame {w : World} (h : Inv s) (idle : Idle ev)
    (hrun : ∀ id, w.store.lookup (.run id) = s.world.store.lookup (.run id))
    (hdlq : ∀ id, w.store.lookup (.dlq id) = s.world.store.lookup (.dlq id)) :
    Inv (s.push ev w) := by
  refine ⟨?_, ?_, ?_, ?_, ?_⟩
  · intro id run hsaved
    rw [Shared.push_world, hrun]
    exact h.kept (idle.saved_mem.mp hsaved)
  · intro id run entry hsaved hgate hdead
    exact h.alive (idle.saved_mem.mp hsaved) hgate (idle.dead_mem.mp hdead)
  · intro id run
    rw [Shared.push_world, hrun]
    exact h.named
  · intro id run hsaved
    rw [Shared.push_world, hrun]
    exact h.stored (idle.saved_mem.mp hsaved)
  · intro id entry hdead
    rw [Shared.push_world, hdlq]
    exact h.queued (idle.dead_mem.mp hdead)

theorem Inv.quiet {e : Op} {r : e.Res} {w : World} (h : Inv s) (hquiet : Quiet e)
    (hexec : World.exec e s.world r w) : Inv (s.push ⟨(), e, r⟩ w) :=
  h.frame (idle_quiet hquiet) (fun _ => lookup_quiet hquiet hexec (.inl rfl))
    fun _ => lookup_quiet hquiet hexec (.inr rfl)

theorem NotGated.idle {w : World} (h : NotGated id s) (idle : Idle ev) :
    NotGated id (s.push ev w) := fun run hsaved => h run (idle.saved_mem.mp hsaved)

theorem Untouched.idle {w : World} (h : Untouched id s) (idle : Idle ev) :
    Untouched id (s.push ev w) :=
  ⟨h.1.idle idle, fun entry hdead => h.2 entry (idle.dead_mem.mp hdead)⟩

theorem frames_untouched : proto.Frames () Quiet (Untouched id) where
  stable := stable_log (p := fun log => (∀ run, saved id run ∈ log → atGate run = false) ∧
    ∀ entry, deadLettered id entry ∉ log)
  step hquiet h hinv _ hexec := ⟨trivial, hinv.quiet hquiet hexec, h.idle (idle_quiet hquiet)⟩

theorem frames_notGated {ids : List RunId} :
    proto.Frames () Quiet fun s => ∀ id ∈ ids, NotGated id s where
  stable := stable_log (p := fun log => ∀ id ∈ ids, ∀ run, saved id run ∈ log → atGate run = false)
  step hquiet h hinv _ hexec :=
    ⟨trivial, hinv.quiet hquiet hexec, fun id hid => (h id hid).idle (idle_quiet hquiet)⟩

/-! ### Storing a run -/

/-- **A save** of a run that is not waiting at its gate: either it is not to wait
there after the save, or it has not been put into the queue. -/
theorem Inv.save (h : Inv s) (free : NotGated run.id s)
    (waits : atGate run = true → ∀ entry, deadLettered run.id entry ∉ s.log) :
    Inv (s.push (saved run.id run) (s.world.put (.run run.id) run)) := by
  have hlookup (id : RunId) : (s.world.put (.run run.id) run).store.lookup (.run id) =
      if run.id = id then some run else s.world.store.lookup (.run id) := by
    split_ifs with hid
    · subst hid
      exact AList.lookup_insert _
    · exact AList.lookup_insert_ne (by simpa using Ne.symm hid)
  have hmem {id : RunId} {run' : WorkflowRun} (hsaved : saved id run' ∈ saved run.id run :: s.log) :
      (id = run.id ∧ run' = run) ∨ saved id run' ∈ s.log := by
    rcases List.mem_cons.mp hsaved with heq | hold
    · obtain ⟨-, hop, -⟩ := Event.mk.inj heq
      obtain ⟨hkey, hval⟩ := Op.put.inj hop
      exact .inl ⟨Key.run.inj hkey, eq_of_heq hval⟩
    · exact .inr hold
  have hdead {id : RunId} {entry : DeadLetterEntry}
      (hqueued : deadLettered id entry ∈ saved run.id run :: s.log) :
      deadLettered id entry ∈ s.log := by
    rcases List.mem_cons.mp hqueued with heq | hold
    · obtain ⟨-, hop, -⟩ := Event.mk.inj heq
      exact Key.noConfusion (Op.put.inj hop).1
    · exact hold
  refine ⟨?_, ?_, ?_, ?_, ?_⟩
  · intro id run' hsaved hgate
    rw [Shared.push_world, hlookup]
    rcases hmem hsaved with ⟨rfl, rfl⟩ | hold
    · rw [if_pos rfl]
    · have hid : run.id ≠ id := by
        rintro rfl
        exact Bool.false_ne_true ((free run' hold).symm.trans hgate)
      rw [if_neg hid]
      exact h.kept hold hgate
  · intro id run' entry hsaved hgate hqueued
    rcases hmem hsaved with ⟨rfl, rfl⟩ | hold
    · exact waits hgate entry (hdead hqueued)
    · exact h.alive hold hgate (hdead hqueued)
  · intro id run' hfound
    rw [Shared.push_world, hlookup] at hfound
    split_ifs at hfound with hid
    · exact Option.some.inj hfound ▸ hid
    · exact h.named hfound
  · intro id run' hsaved
    rw [Shared.push_world, hlookup]
    split_ifs with hid
    · rfl
    · rcases hmem hsaved with ⟨rfl, -⟩ | hold
      · exact absurd rfl hid
      · exact h.stored hold
  · intro id entry hqueued
    rw [Shared.push_world, World.put_store, AList.lookup_insert_ne (by simp)]
    exact h.queued (hdead hqueued)

/-- Saving a run that does not wait leaves every other fact about the log. -/
theorem NotGated.save {w : World} (h : NotGated id s) (hgate : atGate run = false) :
    NotGated id (s.push (saved run.id run) w) := by
  intro run' hsaved
  rcases List.mem_cons.mp hsaved with heq | hold
  · obtain ⟨-, hop, -⟩ := Event.mk.inj heq
    obtain rfl : run' = run := eq_of_heq (Op.put.inj hop).2
    exact hgate
  · exact h run' hold

theorem Untouched.save {w : World} (h : Untouched id s) (hgate : atGate run = false) :
    Untouched id (s.push (saved run.id run) w) := by
  refine ⟨h.1.save hgate, fun entry hqueued => ?_⟩
  rcases List.mem_cons.mp hqueued with heq | hold
  · obtain ⟨-, hop, -⟩ := Event.mk.inj heq
    exact Key.noConfusion (Op.put.inj hop).1
  · exact h.2 entry hold

/-- A write that failed. -/
theorem idle_error {k : Key} {v : k.Val} {err : StorageError} :
    Idle ⟨(), .put k v, .error err⟩ := by
  constructor
  · rintro id run ⟨⟩
  · rintro id entry ⟨⟩

theorem quiet_onIndex {e : Op} (h : CheckpointStore.OnIndex e) : Quiet e := by
  cases e with
  | put k v =>
      cases k with
      | indexState | indexWorker => trivial
      | _ => exact h.elim
  | _ => exact h.elim

theorem safe_saveRun {Φ Ψ : RunShared → Prop} (hΦ : proto.Stable () Φ)
    (hΨ : proto.Frames () Quiet Ψ) (free : ∀ s, Φ s → NotGated run.id s)
    (waits : atGate run = true → ∀ s, Φ s → ∀ entry, deadLettered run.id entry ∉ s.log)
    (ok : ∀ s w, Φ s → Ψ (s.push (saved run.id run) w))
    (error : ∀ s ev w, Φ s → Idle ev → Ψ (s.push ev w)) (h : Φ s) :
    proto.Safe () (CheckpointStore.saveRun run) (fun _ => Ψ) s := by
  refine safe_putEntry rfl hΦ h (fun s₁ h₁ hinv _ => ⟨trivial, ?_, ?_⟩)
    fun s₁ err h₁ hinv _ => ⟨trivial, ?_, error _ _ _ h₁ idle_error⟩
  · exact hinv.save (free _ h₁) fun hgate => waits hgate _ h₁
  · exact .frame hΨ ((CheckpointStore.indexes_asks run).mono fun _ => quiet_onIndex) (ok _ _ h₁)
  · exact hinv.frame idle_error (fun _ => rfl) fun _ => rfl

theorem frames_true : proto.Frames () Quiet fun _ => True where
  stable := Proto.stable_const
  step hquiet _ hinv _ hexec := ⟨trivial, hinv.quiet hquiet hexec, trivial⟩

/-- The executor saves a run that goes on. -/
theorem safe_saveRun_running (h : Untouched run.id s) (hgate : atGate run = false) :
    proto.Safe () (CheckpointStore.saveRun run) (fun _ => Untouched run.id) s := by
  refine safe_saveRun frames_untouched.stable frames_untouched (fun _ h => h.1) ?_
    (fun _ _ h => h.save hgate) (fun _ _ _ h => h.idle) h
  intro htrue
  exact absurd (hgate.symm.trans htrue) Bool.false_ne_true

/-- The executor suspends a run. -/
theorem safe_saveRun_suspended (h : Untouched run.id s) :
    proto.Safe () (CheckpointStore.saveRun run) (fun _ _ => True) s :=
  safe_saveRun frames_untouched.stable frames_true (fun _ h => h.1) (fun _ _ h => h.2)
    (fun _ _ _ => trivial) (fun _ _ _ _ _ => trivial) h

/-! ### The executor -/

section Executor

variable {ex : DagExecutor}

theorem quiet_onStep {e : Op} (h : OnStep e) : Quiet e := by
  cases e with
  | put k v =>
      cases k with
      | journal => trivial
      | _ => exact h.elim
  | delete => exact h.elim
  | _ => trivial

/-- The operation saves a run. -/
def Saves : DagOp → Prop
  | .saveRun _ => True
  | _ => False

/-- Nothing else is of concern. -/
theorem collaborator_asks (e : DagOp) (h : ¬ Saves e) : (DagOp.run ex e).Asks Quiet := by
  cases e with
  | clock | newRunId | elapsedMs | sleep => exact Prog.asks_ask trivial
  | saveRun run => exact absurd trivial h
  | acquire => exact (acquire_asks _).mono fun _ => quiet_onLease
  | renew => exact (renew_asks _).mono fun _ => quiet_onLease
  | release => exact release_asks.mono fun _ h => quiet_onLease h.onLease
  | loadCheckpoint => exact .ask trivial fun _ => trivial
  | saveCheckpoint => exact .andThen (.ask trivial fun _ => trivial) fun _ => trivial
  | step run step stepIdx context =>
      exact (timedStep_onStep step run stepIdx context).1.mono fun _ => quiet_onStep

/-- What the executor knows of the run survives its collaborators. -/
theorem safe_call {Φ : RunShared → Prop} (hΦ : proto.Frames () Quiet Φ) (e : DagOp)
    (he : ¬ Saves e) (h : Φ s) :
    proto.Safe () ((call e).expand (DagOp.run ex)) (fun _ => Φ) s :=
  .expand_ask (.frame hΦ (collaborator_asks e he) h)

/-- A step hands back the run it was given. -/
theorem safe_step (step : PipelineStep) (stepIdx : ℕ) (context : Json)
    (h : Untouched run.id s) :
    proto.Safe () ((call (.step run step stepIdx context)).expand (DagOp.run ex))
      (fun result s' => result.1.id = run.id ∧ Untouched run.id s') s := by
  obtain ⟨hasks, hid⟩ := timedStep_onStep step run stepIdx context
  have hframe : proto.Safe () (timedStep step run stepIdx context)
      (fun _ => Untouched run.id) s :=
    .frame frames_untouched (hasks.mono fun _ => quiet_onStep) h
  have hstep := hframe.ensures hid
  exact Proto.Safe.expand_ask hstep

/-- A suspended run is not touched again, and the loop has ended. -/
theorem safe_suspendRun {st : Progress} (stepIdx : ℕ) (reason : SuspendReason)
    (h : Untouched st.run.id s) :
    proto.Safe () ((suspendRun st stepIdx reason).expand (DagOp.run ex))
      (fun result _ => ∀ st', result ≠ .ok st') s := by
  refine .expand_bind (safe_call frames_untouched .clock id h) fun now s₁ h₁ => ?_
  refine .expand_andThen (.expand_ask (safe_saveRun_suspended h₁)) (fun _ s₂ _ => ?_)
    fun _ _ _ _ => nofun
  exact .expand_andThen (safe_call frames_true (.saveCheckpoint _ _) id trivial)
    (fun _ _ _ _ => nofun) fun _ _ _ _ => nofun

/-- **The loop.**  As long as it goes on, the run has not been suspended. -/
theorem safe_pipelineLoop {policy : ErrorPolicy} {steps : List (PipelineStep × ℕ)}
    {st : Progress} (h : Untouched st.run.id s) :
    proto.Safe () ((pipelineLoop policy steps st).expand (DagOp.run ex))
      (fun result s' => ∀ st', result = .ok st' → Untouched st'.run.id s') s := by
  induction steps generalizing st s with
  | nil =>
      rintro st' ⟨⟩
      exact h
  | cons head rest ih =>
      obtain ⟨step, stepIdx⟩ := head
      unfold pipelineLoop
      refine .expand_andThen (safe_call frames_untouched (.renew _ _) id h)
        (fun renewed s₁ h₁ => ?_) fun _ _ _ _ => nofun
      refine .expand_bind (safe_step step stepIdx st.context h₁) ?_
      rintro ⟨run, result | reason | ⟨error, durationMs⟩⟩ s₂ ⟨hrun, h₂⟩
      · dsimp only
        have h₂ : Untouched run.id s₂ := hrun ▸ h₂
        refine .expand_andThen (safe_call frames_untouched (.saveCheckpoint _ _) id h₂)
          (fun _ s₃ h₃ => ?_) fun _ _ _ _ => nofun
        exact ih h₃
      · exact (safe_suspendRun stepIdx reason (hrun ▸ h₂)).mono
          fun result _ hne st' heq => absurd heq (hne st')
      · dsimp only
        have h₂ : Untouched run.id s₂ := hrun ▸ h₂
        cases policy with
        | failFast =>
            rintro st' ⟨⟩
            exact h₂
        | continueOnError => exact ih h₂
        | retry maxAttempts backoffMs =>
            dsimp only
            split_ifs
            · refine .expand_bind (safe_call frames_untouched (.sleep _) id h₂) fun _ s₃ h₃ => ?_
              refine .expand_bind (safe_call frames_untouched (.saveCheckpoint _ _) id h₃)
                fun _ s₄ h₄ => ?_
              exact ih h₄
            · rintro st' ⟨⟩
              exact h₂

theorem safe_finishRun {pipeline : AgentPipeline} {st : Progress} (h : Untouched st.run.id s) :
    proto.Safe () ((finishRun pipeline st).expand (DagOp.run ex)) (fun _ _ => True) s := by
  refine .expand_bind (safe_call frames_untouched .elapsedMs id h) fun totalDurationMs s₁ h₁ => ?_
  refine .expand_bind (safe_call frames_untouched .clock id h₁) fun now s₂ h₂ => ?_
  refine .expand_andThen (.expand_ask (safe_saveRun_running h₂ ?_)) (fun _ s₃ _ => ?_)
    fun _ _ _ => trivial
  · -- The run ends as completed or as failed.
    unfold atGate
    dsimp only
    split_ifs <;> rfl
  · exact .expand_bind (safe_call frames_true (.release _ _) id trivial) fun _ _ _ => trivial

theorem safe_runFrom {pipeline : AgentPipeline} {fence start : ℕ}
    {stepResults : List StepResult} {context : Json} (h : Untouched run.id s) :
    proto.Safe ()
      ((runFrom pipeline run fence start stepResults context).expand (DagOp.run ex))
      (fun _ _ => True) s :=
  .expand_andThen (safe_pipelineLoop h) (fun _ _ hst => safe_finishRun (hst _ rfl))
    fun _ _ _ => trivial

/-- A run that has just been drawn has not been stored. -/
theorem safe_newRunId :
    proto.Safe () (ask .newRunId) (fun id s' => Untouched id s') s := by
  refine Proto.Safe.op (Proto.stable_const (p := True)) trivial fun s₁ _ hinv r w _ hexec => ?_
  refine ⟨trivial, hinv.quiet trivial hexec, ?_⟩
  obtain ⟨⟨-, hfresh⟩, rfl⟩ := hexec
  have hnone {k : Key} (hk : k.runId = r) (hfound : (s₁.world.store.lookup k).isSome) : False :=
    hfresh (List.mem_map.mpr ⟨k, AList.mem_keys.mp (AList.lookup_isSome.mp hfound), hk⟩)
  refine Untouched.idle ⟨fun run hsaved => ?_, fun entry hdead => ?_⟩ (idle_quiet trivial)
  · exact (hnone rfl (hinv.stored hsaved)).elim
  · exact hnone rfl (hinv.queued hdead)

theorem safe_execute {pipeline : AgentPipeline} {retryPolicy : RetryPolicy} :
    proto.Safe () (ex.execute pipeline retryPolicy) (fun _ _ => True) s := by
  refine .expand_bind (safe_call frames_true .clock id trivial) fun created s₁ _ => ?_
  refine .expand_bind (.expand_ask safe_newRunId) fun runId s₂ h₂ => ?_
  refine .expand_bind (safe_call frames_untouched .clock id h₂) fun updated s₃ h₃ => ?_
  refine .expand_andThen (.expand_ask (safe_saveRun_running h₃ rfl)) (fun _ s₄ h₄ => ?_)
    fun _ _ _ => trivial
  refine .expand_andThen (safe_call frames_untouched (.acquire _) id h₄) (fun lease s₅ h₅ => ?_)
    fun _ _ _ => trivial
  refine .expand_andThen (safe_call frames_untouched (.loadCheckpoint _) id h₅)
    (fun checkpoint s₆ h₆ => ?_) fun _ _ _ => trivial
  rcases checkpoint with _ | ⟨_ | ⟨stepIndex, stepResults, context⟩⟩
  · exact safe_runFrom h₆
  · exact safe_runFrom h₆
  · exact safe_runFrom h₆

end Executor

/-! ### Recovery -/

section Recovery

variable {ids : List RunId}

/-- **A run that does not wait may be put into the queue.** -/
theorem Inv.enqueue {entry : DeadLetterEntry} (h : Inv s) (free : NotGated id s) :
    Inv (s.push (deadLettered id entry) (s.world.put (.dlq id) entry)) := by
  have hsaved {id' : RunId} {run : WorkflowRun}
      (hmem : saved id' run ∈ deadLettered id entry :: s.log) : saved id' run ∈ s.log := by
    rcases List.mem_cons.mp hmem with heq | hold
    · obtain ⟨-, hop, -⟩ := Event.mk.inj heq
      exact Key.noConfusion (Op.put.inj hop).1
    · exact hold
  have hrun (id' : RunId) : (s.world.put (.dlq id) entry).store.lookup (.run id') =
      s.world.store.lookup (.run id') := AList.lookup_insert_ne (by simp)
  have hdead {id' : RunId} {entry' : DeadLetterEntry}
      (hmem : deadLettered id' entry' ∈ deadLettered id entry :: s.log) :
      id' = id ∨ deadLettered id' entry' ∈ s.log := by
    rcases List.mem_cons.mp hmem with heq | hold
    · obtain ⟨-, hop, -⟩ := Event.mk.inj heq
      exact .inl (Key.dlq.inj (Op.put.inj hop).1)
    · exact .inr hold
  refine ⟨?_, ?_, ?_, ?_, ?_⟩
  · intro id' run hmem hgate
    rw [Shared.push_world, hrun]
    exact h.kept (hsaved hmem) hgate
  · intro id' run entry' hmem hgate hqueued
    rcases hdead hqueued with rfl | hold
    · exact Bool.false_ne_true ((free run (hsaved hmem)).symm.trans hgate)
    · exact h.alive (hsaved hmem) hgate hold
  · intro id' run
    rw [Shared.push_world, hrun]
    exact h.named
  · intro id' run hmem
    rw [Shared.push_world, hrun]
    exact h.stored (hsaved hmem)
  · intro id' entry' hqueued
    rw [Shared.push_world, World.put_store]
    by_cases hid : id' = id
    · subst hid
      rw [AList.lookup_insert]
      rfl
    · rw [AList.lookup_insert_ne (by simpa using hid)]
      exact h.queued ((hdead hqueued).resolve_left hid)

theorem NotGated.enqueue {id' : RunId} {entry : DeadLetterEntry} {w : World}
    (h : NotGated id s) : NotGated id (s.push (deadLettered id' entry) w) := by
  intro run hmem
  rcases List.mem_cons.mp hmem with heq | hold
  · obtain ⟨-, hop, -⟩ := Event.mk.inj heq
    exact Key.noConfusion (Op.put.inj hop).1
  · exact h run hold

theorem safe_enqueue {entry : DeadLetterEntry} (hid : entry.runId ∈ ids)
    (h : ∀ id ∈ ids, NotGated id s) :
    proto.Safe () (DeadLetterQueue.enqueue entry) (fun _ s' => ∀ id ∈ ids, NotGated id s') s :=
  have hframes : proto.Frames () Quiet fun s => ∀ id ∈ ids, NotGated id s := frames_notGated
  safe_putEntry rfl hframes.stable h
    (fun _ h₁ hinv _ => ⟨trivial, hinv.enqueue (h₁ _ hid), fun id hid => (h₁ id hid).enqueue⟩)
    fun _ _ h₁ hinv _ => ⟨trivial, hinv.frame idle_error (fun _ => rfl) fun _ => rfl,
      fun id hid => (h₁ id hid).idle idle_error⟩

theorem safe_saveAs {state : RunState} (hid : run.id ∈ ids)
    (hgate : ∀ now, atGate { run with state := state, updatedAt := now } = false)
    (h : ∀ id ∈ ids, NotGated id s) :
    proto.Safe () (saveAs run state) (fun _ s' => ∀ id ∈ ids, NotGated id s') s := by
  refine .bind (.frame frames_notGated (Prog.asks_ask trivial) h) fun now s₁ h₁ => ?_
  refine safe_saveRun frames_notGated.stable frames_notGated (fun _ h => h _ hid) ?_
    (fun _ _ h id hid => (h id hid).save (hgate now))
    (fun _ _ _ h idle id hid => (h id hid).idle idle)
    h₁
  intro htrue
  exact absurd ((hgate now).symm.trans htrue) Bool.false_ne_true

/-- The record that recovery loads is the run's. -/
theorem safe_loadRun (h : ∀ id ∈ ids, NotGated id s) :
    proto.Safe () (CheckpointStore.loadRun id)
      (fun found s' => (∀ id ∈ ids, NotGated id s') ∧
        ∀ run, found = .ok (some run) → run.id = id) s := by
  refine Proto.Safe.op frames_notGated.stable h fun s₁ h₁ hinv r w _ hexec => ?_
  have hidle : Idle ⟨(), .get (.run id), r⟩ := idle_quiet trivial
  refine ⟨trivial, hinv.quiet trivial hexec, fun id hid => (h₁ id hid).idle hidle, ?_⟩
  obtain ⟨rfl, rfl | ⟨err, rfl⟩⟩ := hexec
  · intro run hfound
    exact hinv.named (by simpa [Except.mapError] using hfound)
  · intro run hfound
    simp [Except.mapError] at hfound

/-- **Recovering a run that does not wait** leaves alone every run that does. -/
theorem safe_recoverRun {lease : Lease} (hid : id ∈ ids) (h : ∀ id ∈ ids, NotGated id s) :
    proto.Safe () (RecoveryManager.recoverRun id lease)
      (fun _ s' => ∀ id ∈ ids, NotGated id s') s := by
  refine .bind (.frame frames_notGated (release_asks.mono fun _ h => quiet_onLease h.onLease) h)
    fun _ s₁ h₁ => ?_
  refine .andThen (safe_loadRun h₁) (fun found s₂ ⟨h₂, hnamed⟩ => ?_) fun _ _ h₂ => h₂.1
  cases found with
  | none => exact h₂
  | some run =>
      obtain rfl := hnamed run rfl
      dsimp only
      split_ifs
      · exact h₂
      · exact .andThen (safe_saveAs hid (fun _ => rfl) h₂) (fun _ s₃ h₃ => h₃) fun _ _ h₃ => h₃
      · refine .andThen (.frame frames_notGated (.ask trivial fun _ => trivial) h₂)
          (fun checkpoint s₃ h₃ => ?_) fun _ _ h₃ => h₃
        refine .andThen (safe_enqueue hid h₃) (fun _ s₄ h₄ => ?_) fun _ _ h₄ => h₄
        exact .andThen (safe_saveAs hid (fun _ => rfl) h₄) (fun _ s₅ h₅ => h₅) fun _ _ h₅ => h₅

theorem safe_recoverAll {expired : List (RunId × Lease)} {actions : List RecoveryAction}
    (h : ∀ id ∈ expired.map Prod.fst, NotGated id s) :
    proto.Safe () (RecoveryManager.recoverAll expired actions) (fun _ _ => True) s := by
  induction expired generalizing s actions with
  | nil => trivial
  | cons head rest ih =>
      obtain ⟨id, lease⟩ := head
      refine .andThen (safe_recoverRun List.mem_cons_self h) (fun action s₁ h₁ => ?_)
        fun _ _ _ => trivial
      exact ih fun id hid => h₁ id (List.mem_cons_of_mem _ hid)

/-- What the last scan found lasts until the clock is read. -/
theorem safe_scanLeases :
    proto.Safe () (scanEntries Key.leasesPrefix)
      (fun found s' => ∀ entries, found = .ok entries →
        scanned s'.log = LeaseManager.leasesOf entries) s := by
  refine Proto.Safe.op (Proto.stable_const (p := True)) trivial fun s₁ _ hinv r w _ hexec => ?_
  refine ⟨trivial, hinv.quiet trivial hexec, ?_⟩
  intro entries hfound
  cases r with
  | error err => contradiction
  | ok found =>
      obtain rfl : found = entries := Except.ok.inj hfound
      rfl

/-- **No expired lease of a waiting run is found.** -/
theorem safe_scanExpired :
    proto.Safe () LeaseManager.scanExpired
      (fun result s' => ∀ expired, result = .ok expired →
        ∀ id ∈ expired.map Prod.fst, NotGated id s') s := by
  refine .andThen safe_scanLeases (fun entries s₁ h₁ => ?_) fun _ _ _ _ heq => nomatch heq
  refine Proto.Safe.ask (stable_log (p := fun log => scanned log = LeaseManager.leasesOf entries))
    (h₁ entries rfl) fun s₂ h₂ hinv now w hcond hexec => ⟨trivial, hinv.quiet trivial hexec, ?_⟩
  intro expired heq id hid run hmem
  obtain rfl := Except.ok.inj heq
  rw [List.map_map] at hid
  obtain ⟨lease, hfound, rfl⟩ := List.mem_map.mp hid
  obtain ⟨hscanned, hexpired⟩ := List.mem_filter.mp hfound
  have hsaved : saved lease.runId run ∈ s₂.log :=
    (idle_quiet (e := .clock) trivial).saved_mem.mp hmem
  -- Otherwise the run waits at its gate, and its lease has not expired.
  by_contra hgate
  have hgate := Bool.eq_true_of_not_eq_false hgate
  have hwaiting : Waiting lease.runId s₂.world := ⟨run, hinv.kept hsaved hgate, hgate⟩
  have hle : now ≤ lease.expiresAt := hcond now rfl lease (h₂ ▸ hscanned) hwaiting
  exact absurd (of_decide_eq_true hexpired) hle.not_gt

theorem safe_scanAndRecover :
    proto.Safe () RecoveryManager.scanAndRecover (fun _ _ => True) s :=
  .andThen safe_scanExpired (fun expired _ h => safe_recoverAll (h expired rfl))
    fun _ _ _ => trivial

end Recovery

/-! ### The run stays suspended -/

/-- **Every call is safe.** -/
theorem client_safe {p : Proc Unit} (h : Client p) : proto.Safe () p (fun _ _ => True) s := by
  cases h with
  | execute => exact .bind safe_execute fun _ _ _ => trivial
  | recover => exact .bind safe_scanAndRecover fun _ _ _ => trivial

/-- **As long as no lease of a waiting run is found expired, a run that has been
stored as suspended at a gate stays so**, and is not put into the queue. -/
theorem stays_suspended {now : Instant} {p : Proc Unit}
    (calls : Serial runtimeSystem Client Spared ⟨World.initial now, []⟩ p s) :
    ∀ id run, saved id run ∈ s.log → atGate run = true →
      s.world.store.lookup (.run id) = some run ∧ ∀ entry, deadLettered id entry ∉ s.log := by
  obtain ⟨hinv, -⟩ := Proto.serial inv_drift (fun h _ => client_safe h) (inv_initial now) calls
  intro id run hsaved hgate
  exact ⟨hinv.kept hsaved hgate, fun entry => hinv.alive hsaved hgate⟩

/-! ### A lease that runs out at the gate -/

/-- A pipeline that asks a human. -/
def gated : AgentPipeline where
  steps := [.gate "ship?" 3600 .skip]
  errorPolicy := .failFast
  name := "release"

/-- A worker with leases of half a minute. -/
def executor : DagExecutor := ⟨⟨30, 0⟩, "w"⟩

def executed (retryPolicy : RetryPolicy) : Proc Unit :=
  (executor.execute gated retryPolicy).bind fun _ => .ret ()

def recovered : Proc Unit := RecoveryManager.scanAndRecover.bind fun _ => .ret ()

/-- No agent is asked. -/
def world : Driver runtimeSystem := reliable (.error (.other ""))

/-- The pipeline waits at its gate. -/
def suspended (retryPolicy : RetryPolicy) : Proc Unit × RunShared :=
  world.advance 60 (executed retryPolicy) ⟨World.initial 0, []⟩

/-- …and so many seconds later there is a scan for expired leases. -/
def later (retryPolicy : RetryPolicy) (secs : ℕ) : RunShared :=
  (suspended retryPolicy).2.drift
    (world.tick (secs * 1000000000) (suspended retryPolicy).2.world)

def afterScan (retryPolicy : RetryPolicy) (secs : ℕ) : Proc Unit × RunShared :=
  world.advance 60 recovered (later retryPolicy secs)

theorem serial_afterScan (cond : RunShared → RunEvent → Prop) (retryPolicy : RetryPolicy) (secs : ℕ)
    (h : world.Admits cond 60 (executed retryPolicy) ⟨World.initial 0, []⟩)
    (h' : world.Admits cond 60 recovered (later retryPolicy secs)) :
    Serial runtimeSystem Client cond ⟨World.initial 0, []⟩ (afterScan retryPolicy secs).1
      (afterScan retryPolicy secs).2 := by
  have hexecute := Serial.advance
    (.call .idle (Client.execute executor gated retryPolicy)) h
  exact .advance (.call (.env hexecute (world.env_tick _ _)) .recover) h'

/-- A scan in time finds no expired lease. -/
theorem stays_suspended_inTime : ∃ run,
    saved (freshRunId []) run ∈ (afterScan .none 20).2.log ∧ atGate run = true ∧
    (afterScan .none 20).2.world.store.lookup (.run (freshRunId [])) = some run ∧
    ∀ entry, deadLettered (freshRunId []) entry ∉ (afterScan .none 20).2.log := by
  have hsaved : (afterScan .none 20).2.log[5]? = some (saved (freshRunId []) _) := rfl
  have hmem := List.mem_of_getElem? hsaved
  have hcalls : Serial runtimeSystem Client Spared ⟨World.initial 0, []⟩ (afterScan .none 20).1
      (afterScan .none 20).2 :=
    serial_afterScan Spared .none 20 (by decide +kernel) (by decide +kernel)
  exact ⟨_, hmem, rfl, stays_suspended hcalls _ _ hmem rfl⟩

/-- **A minute later the run is put back to pending, or into the dead letter queue.** -/
theorem requeued_at_gate :
    (∃ p s run run', Serial runtimeSystem Client (fun _ _ => True) ⟨World.initial 0, []⟩ p s ∧
      saved (freshRunId []) run ∈ s.log ∧ atGate run = true ∧
      s.world.store.lookup (.run (freshRunId [])) = some run' ∧ run'.state = .pending) ∧
    ∃ p s run entry, Serial runtimeSystem Client (fun _ _ => True) ⟨World.initial 0, []⟩ p s ∧
      saved (freshRunId []) run ∈ s.log ∧ atGate run = true ∧
      deadLettered (freshRunId []) entry ∈ s.log := by
  constructor
  · have hsaved : (afterScan .defaultPipeline 60).2.log[11]? = some (saved (freshRunId []) _) := rfl
    have hcalls := serial_afterScan (fun _ _ => True) .defaultPipeline 60
      (by decide +kernel) (by decide +kernel)
    exact ⟨_, _, _, _, hcalls,
      List.mem_of_getElem? hsaved, rfl, rfl, rfl⟩
  · have hsaved : (afterScan .none 60).2.log[14]? = some (saved (freshRunId []) _) := rfl
    have hqueued : (afterScan .none 60).2.log[4]? = some (deadLettered (freshRunId []) _) := rfl
    have hcalls := serial_afterScan (fun _ _ => True) .none 60
      (by decide +kernel) (by decide +kernel)
    exact ⟨_, _, _, _, hcalls,
      List.mem_of_getElem? hsaved, rfl, List.mem_of_getElem? hqueued⟩

end ClawDesk.Runtime.GateSuspension
