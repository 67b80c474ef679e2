import ClawDesk.Runtime.RunOwnership

/-!
# A run has one owner

If every record and checkpoint is written by a call that has seen the latest record and
whose lease, if it has one, is still in force, and if leases are taken and deleted in an
orderly way, then nobody but `retry_from_dlq` writes over a terminal record, and no
worker writes whose fence token has been superseded (`ownership_kept`).

Otherwise a worker whose lease ran out in the meantime writes over its successor
(`superseded_writes`), and a run that was cancelled in the meantime is completed
(`cancelled_overwritten`).
-/

namespace ClawDesk.Runtime.RunOwnership

open Foundations

variable {ttl : WorkerId → ℕ} {s : RunShared} {t : RunCall} {id : RunId}

/-! ### Reading and writing a run -/

/-- A call that stands on a lease in force has not been superseded. -/
theorem Stands.not_superseded (hstands : Stands t id s) (h : RunInv ttl id s)
    (hund : t.request ≠ .retryFromDlq → Undisturbed t (.run id) s.log)
    (hforce : ∀ ℓ, Owns t id ℓ s.log → s.world.now < ℓ.expiresAt) : ¬ Superseded t id s.log := by
  intro hsuper
  rcases hstands with hun | ⟨hretry, ℓ, howns⟩
  · obtain ⟨ℓ, hmem⟩ := hsuper.exists_granted
    exact hun id ℓ hmem
  · exact (h.held howns (hund hretry) (hforce ℓ howns)).1 hsuper

/-- Writing the record. -/
theorem saved_step {run : WorkflowRun} (hinv : ∀ id, RunInv ttl id s)
    (hcond : Orderly s ⟨t, .put (.run run.id) run, .ok ()⟩) (hstands : Stands t run.id s)
    (hlive : Live t run.id s) :
    Permitted s ⟨t, .put (.run run.id) run, .ok ()⟩ ∧ ∀ id, RunInv ttl id
      (s.push ⟨t, .put (.run run.id) run, .ok ()⟩ (s.world.put (.run run.id) run)) := by
  have hund := hcond.current run.id (.inl rfl)
  refine ⟨⟨fun {id run'} hretry hlookup hterminal hw => ?_,
    fun {id} hsuper => ⟨fun hw => ?_, nofun⟩⟩,
    fun id => (hinv id).frame (.inl ⟨rfl, rfl⟩) nofun (fun hsaw howns => ?_)
      fun {run'} hlookup => ?_⟩
  · -- What is stored is what the call has seen.
    obtain rfl : run.id = id := Key.run.inj hw
    exact Bool.false_ne_true ((hlive hretry (hund hretry) run' hlookup).symm.trans hterminal)
  · obtain rfl : run.id = id := Key.run.inj hw
    exact hstands.not_superseded (hinv _) hund (fun ℓ => hcond.inForce _ ℓ (.inl rfl)) hsuper
  · obtain rfl : run.id = id := Key.run.inj hsaw
    rcases hstands with hun | ⟨hretry, -⟩
    · exact absurd howns.mem (hun _ _)
    · exact hund hretry
  · by_cases hid : run.id = id
    · subst hid
      obtain rfl : run = run' := by simpa using hlookup
      rfl
    · rw [World.put_store, AList.lookup_insert_ne (by simpa using Ne.symm hid)] at hlookup
      exact (hinv id).named hlookup

theorem quiet_onIndex {e : Op} (h : CheckpointStore.OnIndex e) : Quiet e := by
  cases e with
  | put k v =>
      cases k with
      | indexState | indexWorker => trivial
      | _ => exact h.elim
  | _ => exact h.elim

section Save

variable {K : RunShared → Prop} {run : WorkflowRun}

theorem safe_saveRun (hK : Steady t K) (stands : ∀ s, K s → Stands t run.id s)
    (h : K s ∧ Live t run.id s) :
    (proto ttl).Safe t (CheckpointStore.saveRun run)
      (fun _ s' => K s' ∧ (run.isTerminal = false → Live t run.id s')) s := by
  have hindexes := (CheckpointStore.indexes_asks run).mono fun _ => quiet_onIndex
  refine safe_putEntry rfl (hK.stable.and stable_live) h (fun s₁ h₁ hinv hcond => ?_)
    fun s₁ err h₁ hinv _ => ⟨idle_failed.permitted,
      fun id => (hinv id).idle idle_failed (.inr ⟨⟨err, rfl⟩, rfl⟩),
      hK.idle idle_failed h₁.1, fun _ => h₁.2.idle idle_failed (.inr ⟨⟨err, rfl⟩, rfl⟩)⟩
  obtain ⟨hpermitted, hinv'⟩ := saved_step hinv hcond (stands s₁ h₁.1) h₁.2
  refine ⟨hpermitted, hinv', ?_⟩
  have hK₂ : K (s₁.push ⟨t, .put (.run run.id) run, .ok ()⟩ (s₁.world.put (.run run.id) run)) :=
    hK.push (fun _ hw => nomatch hw.2) h₁.1
  cases hterminal : run.isTerminal with
  | true =>
      exact (Proto.Safe.frame (frames_steady hK) hindexes hK₂).mono fun _ _ h => ⟨h, nofun⟩
  | false =>
      refine (Proto.Safe.frame (frames_live hK) hindexes ⟨hK₂, fun _ _ run' hlookup => ?_⟩).mono
        fun _ _ h => ⟨h.1, fun _ => h.2⟩
      obtain rfl : run = run' := by simpa using hlookup
      exact hterminal

theorem safe_saveAs {state : RunState} (hK : Steady t K) (stands : ∀ s, K s → Stands t run.id s)
    (h : K s ∧ Live t run.id s) :
    (proto ttl).Safe t (saveAs run state)
      (fun _ s' => K s' ∧ (state.isTerminal = false → Live t run.id s')) s :=
  .bind (.frame (frames_live hK) (Prog.asks_ask trivial) h) fun _ _ h₁ =>
    safe_saveRun hK stands h₁

theorem safe_saveCheckpoint {checkpoint : Checkpoint} (hK : Steady t K)
    (stands : ∀ s, K s → Stands t id s) (h : K s ∧ Live t id s) :
    (proto ttl).Safe t (CheckpointStore.saveCheckpoint id checkpoint)
      (fun _ s' => K s' ∧ Live t id s') s := by
  refine safe_putEntry rfl (hK.stable.and stable_live) h (fun s₁ h₁ hinv hcond => ⟨?_, ?_, ?_⟩)
    fun s₁ err h₁ hinv _ => ⟨idle_failed.permitted,
      fun id => (hinv id).idle idle_failed (.inr ⟨⟨err, rfl⟩, rfl⟩),
      hK.idle idle_failed h₁.1, h₁.2.idle idle_failed (.inr ⟨⟨err, rfl⟩, rfl⟩)⟩
  · refine ⟨fun _ _ _ => nofun, fun {id'} hsuper => ⟨nofun, fun hw => ?_⟩⟩
    obtain rfl : id = id' := Key.checkpoint.inj hw
    exact (stands s₁ h₁.1).not_superseded (hinv _) (hcond.current _ (.inr rfl))
      (fun ℓ => hcond.inForce _ ℓ (.inr (.inl rfl))) hsuper
  · refine fun id' => (hinv id').frame (.inl ⟨rfl, rfl⟩) nofun nofun fun {run} hlookup => ?_
    rw [World.put_store, AList.lookup_insert_ne (by simp)] at hlookup
    exact (hinv id').named hlookup
  · exact ⟨hK.push (fun _ hw => nomatch hw.2) h₁.1,
      h₁.2.frame nofun (AList.lookup_insert_ne (by simp))⟩

end Save

/-- A call that has stored no lease reads a record. -/
theorem safe_loadRun (h : Unleased t s) :
    (proto ttl).Safe t (CheckpointStore.loadRun id)
      (fun found s' => Unleased t s' ∧ ∀ run, found = .ok (some run) →
        run.id = id ∧ (run.isTerminal = false → Live t id s')) s := by
  refine Proto.Safe.op steady_unleased.stable h fun s₁ h₁ hinv r w _ hexec => ?_
  have hread : ∀ id', RunInv ttl id' (s₁.push ⟨t, .get (.run id), r⟩ w) := by
    refine fun id' => (hinv id').frame hexec (fun hw => hw) (fun _ howns => ?_) ?_
    · exact absurd howns.mem (h₁ _ _)
    · rw [hexec.1]
      exact (hinv id').named
  have hun : Unleased t (s₁.push ⟨t, .get (.run id), r⟩ w) :=
    steady_unleased.push (fun _ hw => hw.2) h₁
  refine ⟨⟨fun _ _ _ hw => hw, fun _ => ⟨fun hw => hw, fun hw => hw⟩⟩, hread, hun, ?_⟩
  obtain ⟨rfl, rfl | ⟨err, rfl⟩⟩ := hexec
  · intro run hfound
    have hlookup : s₁.world.store.lookup (.run id) = some run := by
      simpa [Except.mapError] using hfound
    refine ⟨(hinv id).named hlookup, fun hterminal _ _ run' hlookup' => ?_⟩
    obtain rfl : run = run' := Option.some.inj (hlookup.symm.trans hlookup')
    exact hterminal
  · simp [Except.mapError]

/-! ### Taking and renewing a lease -/

theorem clockFree : ClockFree (proto ttl) where
  sys := rfl
  inv h id := (h id).idle idle_clock ⟨rfl, rfl⟩
  assert := idle_clock.permitted

section Lease

variable {K : RunShared → Prop} {runId : RunId} {workerId : WorkerId} {lm : LeaseManager}
  {fence : ℕ}

theorem lasting_live (hK : Steady t K) :
    Lasting (proto ttl) t fun s => K s ∧ Live t id s where
  stable := hK.stable.and stable_live
  clock h := ⟨hK.idle idle_clock h.1, h.2.frame (idle_clock.record id) rfl⟩

/-- Storing a lease, by a call that has none for the run or one with the same token. -/
theorem granted_step {v : Lease} (hinv : ∀ id, RunInv ttl id s)
    (hcond : Orderly s (granted t runId v))
    (hbound : v.expiresAt ≤ s.world.now + durationSeconds (ttl v.workerId))
    (hreplaces : Replaces runId v s)
    (hmine : Unleased t s ∨ Leased t runId v.fenceToken s) (hlive : Live t runId s) :
    Permitted s (granted t runId v) ∧
      (∀ id, RunInv ttl id (s.push (granted t runId v) (s.world.put (.lease runId) v))) ∧
        Leased t runId v.fenceToken (s.push (granted t runId v) (s.world.put (.lease runId) v)) ∧
          Live t runId (s.push (granted t runId v) (s.world.put (.lease runId) v)) := by
  refine ⟨⟨fun _ _ _ => nofun, fun _ => ⟨nofun, nofun⟩⟩, fun id => ?_, ⟨v, .inl rfl, rfl⟩,
    hlive.frame nofun (AList.lookup_insert_ne (by simp))⟩
  by_cases hid : id = runId
  · subst hid
    exact (hinv id).stored hcond hbound hreplaces hmine
  · have hw : ¬ Wrote (.lease id) (granted t runId v) := fun hw => hid (Key.lease.inj hw).symm
    refine (hinv id).frame (.inl ⟨rfl, rfl⟩) hw nofun fun {run} hlookup => ?_
    rw [World.put_store, AList.lookup_insert_ne (by simp)] at hlookup
    exact (hinv id).named hlookup

/-- What a call that has taken or renewed a lease stands on. -/
def Holding (t : RunCall) (runId : RunId) (result : Except RuntimeError Lease) (s : RunShared) :
    Prop :=
  ∀ ℓ, result = .ok ℓ → Leased t runId ℓ.fenceToken s ∧ Live t runId s

theorem safe_grant (httl : lm.defaultTtlSecs = ttl workerId)
    (h : (Unleased t s ∧ Live t runId s) ∧
      WhileUndisturbed t (.lease runId) (Lapsed runId) s) :
    (proto ttl).Safe t (lm.grant runId workerId) (Holding t runId) s := by
  have hknown : Lasting (proto ttl) t fun s => (Unleased t s ∧ Live t runId s) ∧
      WhileUndisturbed t (.lease runId) (Lapsed runId) s :=
    (lasting_live steady_unleased).and (lasting_lapsed clockFree)
  refine Proto.Safe.ask hknown.stable h fun s₁ h₁ hinv fence w _ hexec => ?_
  have hidle : Idle ⟨t, .fetchAddFence lm.process, fence⟩ := idle_quiet trivial
  refine ⟨hidle.permitted, fun id => (hinv id).idle hidle hexec, ?_⟩
  obtain ⟨rfl, rfl⟩ := hexec
  refine .bind (safe_clock clockFree hknown ⟨⟨steady_unleased.idle hidle h₁.1.1,
    h₁.1.2.frame (hidle.record runId) rfl⟩, h₁.2.push (fun h => h) fun h => h⟩)
    fun now s₂ ⟨h₂, hnow⟩ => ?_
  refine safe_putEntry rfl (hknown.stable.and (stable_le_now rfl)) ⟨h₂, hnow.le⟩
    (fun s₃ ⟨⟨⟨hun, hlive⟩, hlapsed⟩, hnow₃⟩ hinv₃ hcond => ?_)
    (fun s₃ err _ hinv₃ _ => ⟨idle_failed.permitted,
      fun id => (hinv₃ id).idle idle_failed (.inr ⟨⟨err, rfl⟩, rfl⟩), by rintro ℓ ⟨⟩⟩)
  obtain ⟨hpermitted, hinv', hleased, hlive'⟩ := granted_step hinv₃ hcond
    (by simpa [Lease.new, httl] using hnow₃)
    (fun e he => .inl (hlapsed (hcond.exclusive _ _ rfl) e he)) (.inl hun) hlive
  refine ⟨hpermitted, hinv', ?_⟩
  rintro ℓ ⟨⟩
  exact ⟨hleased, hlive'⟩

theorem hasRead_get {existing : Lease} (h : RunInv ttl runId s)
    (hlookup : s.world.store.lookup (.lease runId) = some existing) :
    HasRead ttl t runId existing
      (s.push ⟨t, .get (.lease runId), .ok (some existing)⟩ s.world) :=
  ⟨fun _ => hlookup, h.bounded hlookup⟩

/-- A renewal leaves a call with the token it had, or was about to take over. -/
theorem safe_renew (hK : Steady t K) (mine : ∀ s, K s → Unleased t s ∨ Leased t runId fence s)
    (httl : lm.defaultTtlSecs = ttl workerId) (h : K s ∧ Live t runId s) :
    (proto ttl).Safe t (lm.renew runId workerId fence) (fun result s' =>
      Holding t runId result s' ∧ (K s' ∨ Leased t runId fence s') ∧ Live t runId s') s := by
  have hlive : Lasting (proto ttl) t fun s => K s ∧ Live t runId s := lasting_live hK
  have hidle {r} : Idle ⟨t, .get (.lease runId), r⟩ := idle_quiet trivial
  refine safe_getEntry rfl hlive.stable h
    (fun s₁ h₁ hinv _ => ⟨hidle.permitted, fun id => (hinv id).idle hidle ⟨rfl, .inl rfl⟩, ?_⟩)
    (fun s₁ err h₁ hinv _ => ⟨hidle.permitted,
      fun id => (hinv id).idle hidle ⟨rfl, .inr ⟨err, rfl⟩⟩, by rintro ℓ ⟨⟩,
      .inl (hK.idle hidle h₁.1), h₁.2.frame (hidle.record runId) rfl⟩)
  have h₁' {r} : K (s₁.push ⟨t, .get (.lease runId), r⟩ s₁.world) ∧
      Live t runId (s₁.push ⟨t, .get (.lease runId), r⟩ s₁.world) :=
    ⟨hK.idle hidle h₁.1, h₁.2.frame (hidle.record runId) rfl⟩
  cases hlookup : s₁.world.store.lookup (.lease runId) with
  | none => exact ⟨by rintro ℓ ⟨⟩, .inl h₁'.1, h₁'.2⟩
  | some existing =>
      dsimp only
      split_ifs with hfence
      · exact ⟨by rintro ℓ ⟨⟩, .inl h₁'.1, h₁'.2⟩
      replace hfence := not_not.mp hfence
      have hknown : Lasting (proto ttl) t fun s => (K s ∧ Live t runId s) ∧
          HasRead ttl t runId existing s := hlive.and (lasting_hasRead clockFree)
      refine .bind (safe_checkHeldBy clockFree hknown existing workerId
        ⟨h₁', hasRead_get (hinv runId) hlookup⟩) fun held s₂ ⟨h₂, hheld, _⟩ => ?_
      cases held with
      | false => exact ⟨by rintro ℓ ⟨⟩, .inl h₂.1.1, h₂.1.2⟩
      | true =>
          obtain rfl := hheld rfl
          refine .bind (safe_clock clockFree hknown h₂) fun now s₃ ⟨h₃, hnow⟩ => ?_
          have hextends : existing.expiresAt ≤
              now + durationSeconds (ttl existing.workerId) := hnow ▸ h₃.2.bounded
          refine safe_putEntry rfl (hknown.stable.and (stable_le_now rfl)) ⟨h₃, hnow.le⟩
            (fun s₄ ⟨⟨⟨hk, hlive₄⟩, hread⟩, hnow₄⟩ hinv₄ hcond => ?_)
            (fun s₄ err ⟨⟨⟨hk, hlive₄⟩, _⟩, _⟩ hinv₄ _ => ⟨idle_failed.permitted,
              fun id => (hinv₄ id).idle idle_failed (.inr ⟨⟨err, rfl⟩, rfl⟩),
              by rintro ℓ ⟨⟩, .inl (hK.idle idle_failed hk),
              hlive₄.frame (idle_failed.record runId) rfl⟩)
          have hreplaces : Replaces runId (existing.renew lm.defaultTtlSecs now) s₄ := by
            intro e he
            obtain rfl : existing = e := by
              simpa [hread.current (hcond.exclusive _ _ rfl)] using he
            exact .inr ⟨rfl, rfl, by simpa [Lease.renew, httl] using hextends⟩
          obtain ⟨hpermitted, hinv', hleased, hlive'⟩ := granted_step hinv₄ hcond
            (by simpa [Lease.renew, httl] using hnow₄) hreplaces
            (by simpa [Lease.renew, hfence] using mine s₄ hk) hlive₄
          refine ⟨hpermitted, hinv', ?_, .inr (hfence ▸ hleased), hlive'⟩
          rintro ℓ ⟨⟩
          exact ⟨hleased, hlive'⟩

/-- Call `t` has not been shown any lease. -/
def Untouched (t : RunCall) (s : RunShared) : Prop :=
  ∀ ev ∈ s.log, ev.tid = t → ∀ id, ¬ Saw (.lease id) ev

theorem Untouched.unleased (h : Untouched t s) : Unleased t s :=
  fun id _ hmem => h _ hmem rfl id (.refl (Key.lease id))

theorem not_undisturbed_of_untouched {log : List RunEvent}
    (h : ∀ ev ∈ log, ev.tid = t → ∀ id, ¬ Saw (.lease id) ev) :
    ¬ Undisturbed t (.lease runId) log := by
  induction log with
  | nil => exact fun h => h
  | cons ev log ih =>
      rintro (⟨htid, hsaw⟩ | ⟨-, hund⟩)
      · exact h ev List.mem_cons_self htid runId hsaw
      · exact ih (fun ev' hmem => h ev' (List.mem_cons_of_mem _ hmem)) hund

theorem Untouched.push {ev : RunEvent} {w : World} (h : Untouched t s)
    (hsaw : ev.tid = t → ∀ id, ¬ Saw (.lease id) ev) : Untouched t (s.push ev w) := by
  intro ev' hmem
  rcases List.mem_cons.mp hmem with rfl | hmem
  · exact hsaw
  · exact h ev' hmem

theorem stable_untouched : (proto ttl).Stable t (Untouched t) := by
  rintro s s' (⟨-, -⟩ | ⟨other, -, -, -, -, -⟩) h
  · exact h
  · exact h.push fun htid => absurd htid other

theorem safe_acquire (httl : lm.defaultTtlSecs = ttl workerId)
    (h : Untouched t s ∧ Live t runId s) :
    (proto ttl).Safe t (lm.acquire runId workerId) (Holding t runId) s := by
  have hlive : Lasting (proto ttl) t fun s => Unleased t s ∧ Live t runId s :=
    lasting_live steady_unleased
  refine Proto.Safe.ask (stable_untouched.and stable_live) h fun s₁ h₁ hinv r w _ hexec => ?_
  have hidle : Idle ⟨t, .get (.lease runId), r⟩ := idle_quiet trivial
  refine ⟨hidle.permitted, fun id => (hinv id).idle hidle hexec, ?_⟩
  have h₁' : Unleased t (s₁.push ⟨t, .get (.lease runId), r⟩ w) ∧
      Live t runId (s₁.push ⟨t, .get (.lease runId), r⟩ w) :=
    ⟨steady_unleased.idle hidle h₁.1.unleased, h₁.2.idle hidle hexec⟩
  obtain ⟨rfl, rfl | ⟨err, rfl⟩⟩ := hexec
  · cases hlookup : s₁.world.store.lookup (.lease runId) with
    | none =>
        rw [hlookup] at h₁'
        refine safe_grant httl ⟨h₁', fun _ e he => ?_⟩
        simp [hlookup] at he
    | some existing =>
        rw [hlookup] at h₁'
        have hknown : Lasting (proto ttl) t fun s => (Unleased t s ∧ Live t runId s) ∧
            HasRead ttl t runId existing s := hlive.and (lasting_hasRead clockFree)
        refine .bind (safe_conflict clockFree hknown existing workerId
          ⟨h₁', hasRead_get (hinv runId) hlookup⟩) fun conflict s₂ ⟨h₂, hconflict⟩ => ?_
        cases conflict with
        | true => rintro ℓ ⟨⟩
        | false =>
            have hknown' := hknown.and ((lasting_le_now clockFree existing.expiresAt).or
              (lasting_const (existing.workerId = workerId)))
            refine .bind (safe_own clockFree hknown' existing workerId ⟨h₂, hconflict rfl⟩)
              fun own s₃ ⟨⟨h₃, hmine⟩, _, hlapsed⟩ => ?_
            cases own with
            | true =>
                exact (safe_renew steady_unleased (fun _ => .inl) httl h₃.1).mono fun _ _ h => h.1
            | false =>
                refine safe_grant httl ⟨h₃.1, fun hund e he => ?_⟩
                obtain rfl : existing = e := by simpa [h₃.2.current hund] using he
                exact hmine.elim (fun h => h) (hlapsed rfl)
  · -- A failed read shows nothing.
    refine safe_grant httl ⟨h₁', fun hund => ?_⟩
    rcases hund with ⟨-, hsaw⟩ | ⟨-, hund⟩
    · exact hsaw.elim
    · exact absurd hund (not_undisturbed_of_untouched h₁.1)

end Lease

/-! ### One lemma per procedure -/

theorem quiet_asks {e : Op} {runId : RunId} (h : ReadsLease runId e) : Quiet e := by
  cases e with
  | get k =>
      obtain rfl : k = .lease runId := h
      trivial
  | clock => trivial
  | _ => exact h.elim

theorem loose_onRelease {e : Op} {runId : RunId} (h : OnRelease runId e) : Loose e := by
  rcases h with h | rfl
  · exact .inl (quiet_asks h)
  · exact .inr ⟨runId, rfl⟩

section Run

variable {runner : DurableAgentRunner} {run : WorkflowRun} {config : AgentConfig}
  {history : List ChatMessage} {systemPrompt : String} {fence : ℕ}

/-- What a worker knows while it works on a run. -/
def Working (t : RunCall) (id : RunId) (fence : ℕ) (s : RunShared) : Prop :=
  Leased t id fence s ∧ Live t id s

theorem stands_leased (hretry : t.request ≠ .retryFromDlq) (s : RunShared)
    (h : Leased t id fence s) : Stands t id s :=
  .inr ⟨hretry, h.imp fun _ h => h.1⟩

theorem safe_recordResponse {response : AgentResponse}
    (hretry : t.request ≠ .retryFromDlq)
    (httl : runner.leaseManager.defaultTtlSecs = ttl runner.workerId)
    (h : Working t run.id fence s) :
    (proto ttl).Safe t (runner.recordResponse run config history systemPrompt fence response)
      (fun result s' => Working t result.1.id fence s') s := by
  refine .bind (.frame (frames_live steady_leased) (Prog.asks_ask trivial) h) fun now s₁ h₁ => ?_
  refine .bind (.frame (frames_live steady_leased)
    (.andThen (.ask trivial fun _ => trivial) fun _ => trivial) h₁) fun appended s₂ h₂ => ?_
  cases appended with
  | error err => exact h₂
  | ok _ =>
      refine .bind (safe_saveCheckpoint steady_leased (stands_leased hretry) h₂)
        fun saved s₃ h₃ => ?_
      cases saved with
      | error err => exact h₃
      | ok _ =>
          refine .bind (safe_renew steady_leased (fun _ => .inr) httl h₃)
            fun _ s₄ ⟨_, hleased, hlive⟩ => ?_
          exact ⟨hleased.elim (fun h => h) fun h => h, hlive⟩

theorem safe_executeWithDurability (hretry : t.request ≠ .retryFromDlq)
    (httl : runner.leaseManager.defaultTtlSecs = ttl runner.workerId)
    (h : Working t run.id fence s) :
    (proto ttl).Safe t (runner.executeWithDurability run config history systemPrompt fence)
      (fun result s' => Working t result.1.id fence s') s := by
  have hdeadline : (DurableAgentRunner.checkDeadline run).Asks Quiet := by
    unfold DurableAgentRunner.checkDeadline
    cases run.deadline with
    | none => trivial
    | some deadline => exact .ask trivial fun _ => trivial
  refine .bind (.frame (frames_live steady_leased) hdeadline h) fun late s₁ h₁ => ?_
  cases late with
  | true => exact h₁
  | false =>
      refine .bind (.frame (frames_live steady_leased)
        (validateFence_asks.mono fun _ => quiet_asks) h₁) fun fenced s₂ h₂ => ?_
      cases fenced with
      | error err => exact h₂
      | ok _ =>
          refine .bind (.frame (frames_live steady_leased) (Prog.asks_ask trivial) h₂)
            fun created s₃ h₃ => ?_
          cases created with
          | error err => exact h₃
          | ok _ =>
              refine .bind (.frame (frames_live steady_leased) (Prog.asks_ask trivial) h₃)
                fun answered s₄ h₄ => ?_
              cases answered with
              | error err => exact h₄
              | ok response => exact safe_recordResponse hretry httl h₄

theorem safe_saveFailure {error : ClawDeskError} (hretry : t.request ≠ .retryFromDlq)
    (h : Working t run.id fence s) :
    (proto ttl).Safe t (DurableAgentRunner.saveFailure run error) (fun _ _ => True) s := by
  have hstands : ∀ s, Leased t run.id fence s → Stands t run.id s := stands_leased hretry
  unfold DurableAgentRunner.saveFailure
  split_ifs
  · refine .bind (.frame (frames_live steady_leased) (Prog.asks_ask trivial) h)
      fun delay s₁ h₁ => ?_
    exact (safe_saveAs steady_leased hstands h₁).mono fun _ _ _ => trivial
  · exact (safe_saveAs steady_leased hstands h).mono fun _ _ _ => trivial

theorem safe_release {runId : RunId} {workerId : WorkerId} :
    (proto ttl).Safe t (LeaseManager.release runId workerId fence) (fun _ _ => True) s :=
  .frame frames_loose (release_asks.mono fun _ => loose_onRelease) trivial

theorem safe_handleFailure {error : ClawDeskError} (hretry : t.request ≠ .retryFromDlq)
    (h : Working t run.id fence s) :
    (proto ttl).Safe t (runner.handleFailure run error fence) (fun _ _ => True) s :=
  .andThen (safe_saveFailure hretry h) (fun _ _ _ => .bind safe_release fun _ _ _ => trivial)
    fun _ _ _ => trivial

/-- The end of a run: the record is written for the last time and the lease released. -/
theorem safe_executeAndFinish (hretry : t.request ≠ .retryFromDlq)
    (httl : runner.leaseManager.defaultTtlSecs = ttl runner.workerId)
    (h : Working t run.id fence s) :
    (proto ttl).Safe t (runner.executeAndFinish run config history systemPrompt fence)
      (fun _ _ => True) s := by
  refine .bind (safe_executeWithDurability hretry httl h) fun result s₁ h₁ => ?_
  obtain ⟨run', outcome⟩ := result
  cases outcome with
  | ok content =>
      refine .andThen (safe_saveAs steady_leased (stands_leased hretry) h₁) (fun _ s₂ _ => ?_)
        fun _ _ _ => trivial
      exact .andThen safe_release (fun _ _ _ => trivial) fun _ _ _ => trivial
  | error err =>
      exact .andThen (safe_handleFailure hretry h₁) (fun _ _ _ => trivial) fun _ _ _ => trivial

end Run

/-- The operations that are not on a lease. -/
def OffLease : Op → Prop
  | .get (.lease _) => False
  | .put (.lease _) _ => False
  | .delete (.lease _) => False
  | _ => True

theorem OffLease.not_saw {e : Op} {r : e.Res} (h : OffLease e) :
    ¬ Saw (.lease id) (⟨t, e, r⟩ : RunEvent) := by
  intro hsaw
  cases e with
  | get k | put k v | delete k =>
      cases r with
      | error err => exact hsaw
      | ok _ =>
          obtain rfl : k = .lease id := hsaw
          exact h
  | newRunId => exact Key.noConfusion (show Key.lease id = .run _ from hsaw)
  | _ => exact hsaw

/-- A call that has not been shown a lease keeps to that off the leases. -/
theorem Untouched.offLease {e : Op} {r : e.Res} {w : World} (he : OffLease e)
    (h : Untouched t s) : Untouched t (s.push ⟨t, e, r⟩ w) :=
  h.push fun _ _ => he.not_saw

theorem saveRun_asks (run : WorkflowRun) : (CheckpointStore.saveRun run).Asks OffLease := by
  refine .andThen (.ask trivial fun _ => trivial) fun _ => ?_
  refine (CheckpointStore.indexes_asks run).mono fun e h => ?_
  cases e with
  | put k v =>
      cases k with
      | indexState | indexWorker => trivial
      | _ => exact h.elim
  | _ => exact h.elim

theorem lasting_untouched : Lasting (proto ttl) t (Untouched t) where
  stable := stable_untouched
  clock h := h.offLease trivial

theorem untouched_of_silent (h : s.Silent t) : Untouched t s :=
  fun ev hmem htid => absurd htid (h ev hmem)

/-- A new run id has no record. -/
theorem safe_newRunId (h : Untouched t s) :
    (proto ttl).Safe t (ask .newRunId) (fun id s' => Untouched t s' ∧ Live t id s') s := by
  refine Proto.Safe.op stable_untouched h fun s₁ h₁ hinv runId w _ hexec => ?_
  refine ⟨⟨fun _ _ _ hw => hw, fun _ => ⟨fun hw => hw, fun hw => hw⟩⟩, fun id => ?_,
    h₁.offLease trivial, fun _ _ run hlookup => ?_⟩
  · refine (hinv id).frame hexec (fun hw => hw)
      (fun _ howns => absurd howns.mem (h₁.unleased id _)) ?_
    rw [hexec.2]
    exact (hinv id).named
  · rw [Shared.push_world, hexec.2] at hlookup
    have hmem : Key.run runId ∈ s₁.world.store.keys :=
      AList.mem_keys.mp (AList.lookup_isSome.mp (Option.isSome_of_eq_some hlookup))
    exact absurd (List.mem_map.mpr ⟨Key.run runId, hmem, rfl⟩) hexec.1.2

section Run

variable {runner : DurableAgentRunner} {run : WorkflowRun} {runId : RunId}

/-- The first write of a call: the run is put to running. -/
theorem safe_saveFirst (hrunning : run.isTerminal = false) (h : Untouched t s)
    (hlive : Live t run.id s) :
    (proto ttl).Safe t (CheckpointStore.saveRun run)
      (fun _ s' => Untouched t s' ∧ Live t run.id s') s := by
  have hsaved : (proto ttl).Safe t (CheckpointStore.saveRun run) _ s :=
    safe_saveRun steady_unleased (fun _ => .inl) ⟨h.unleased, hlive⟩
  exact (hsaved.keeping (saveRun_asks run) stable_untouched (fun he h => h.offLease he) h).mono
    fun _ _ ⟨⟨_, hlive'⟩, h'⟩ => ⟨h', hlive' hrunning⟩

theorem safe_start {config : AgentConfig} {sessionKey : String} {history : List ChatMessage}
    {systemPrompt : String} {retryPolicy : RetryPolicy} (hretry : t.request ≠ .retryFromDlq)
    (httl : runner.leaseManager.defaultTtlSecs = ttl runner.workerId) (hsilent : s.Silent t) :
    (proto ttl).Safe t (runner.start config sessionKey history systemPrompt retryPolicy)
      (fun _ _ => True) s := by
  refine .bind (safe_clock clockFree lasting_untouched (untouched_of_silent hsilent))
    fun created s₁ ⟨h₁, _⟩ => ?_
  refine .bind (safe_newRunId h₁) fun runId s₂ ⟨h₂, hlive₂⟩ => ?_
  have hlasting : Lasting (proto ttl) t fun s => Untouched t s ∧ Live t runId s :=
    ⟨stable_untouched.and stable_live,
      fun h => ⟨h.1.offLease trivial, h.2.frame (idle_clock.record runId) rfl⟩⟩
  refine .bind (safe_clock clockFree hlasting ⟨h₂, hlive₂⟩) fun updated s₃ ⟨⟨h₃, hlive₃⟩, _⟩ => ?_
  refine .andThen (safe_saveFirst rfl h₃ hlive₃) (fun _ s₄ h₄ => ?_) fun _ _ _ => trivial
  refine .andThen (safe_acquire httl h₄) (fun lease s₅ h₅ => ?_) fun _ _ _ => trivial
  exact safe_executeAndFinish hretry httl (h₅ lease rfl)

theorem id_resumePoint {checkpoint : Option Checkpoint}
    {point : WorkflowRun × AgentConfig × List ChatMessage × String}
    (h : DurableAgentRunner.resumePoint run checkpoint = some point) : point.1.id = run.id := by
  unfold DurableAgentRunner.resumePoint at h
  split at h
  · obtain rfl := Option.some.inj h
    rfl
  · obtain rfl := Option.some.inj h
    rfl
  · contradiction

theorem safe_resume (hretry : t.request ≠ .retryFromDlq)
    (httl : runner.leaseManager.defaultTtlSecs = ttl runner.workerId) (hsilent : s.Silent t) :
    (proto ttl).Safe t (runner.resume runId) (fun _ _ => True) s := by
  have huntouched := untouched_of_silent hsilent
  have hload : (proto ttl).Safe t (CheckpointStore.loadRun runId) _ s :=
    safe_loadRun huntouched.unleased
  have hasks : (CheckpointStore.loadRun runId).Asks OffLease := .ask trivial fun _ => trivial
  refine .andThen (hload.keeping hasks stable_untouched (fun he h => h.offLease he) huntouched)
    (fun found s₁ ⟨⟨_, hfound⟩, h₁⟩ => ?_) fun _ _ _ => trivial
  cases found with
  | none => trivial
  | some run =>
      obtain ⟨rfl, hlive₁⟩ := hfound run rfl
      dsimp only
      split_ifs with hterminal
      · trivial
      replace hterminal := Bool.eq_false_iff.mpr hterminal
      refine .andThen (safe_acquire httl ⟨h₁, hlive₁ hterminal⟩) (fun lease s₂ h₂ => ?_)
        fun _ _ _ => trivial
      refine .andThen (.frame (frames_live steady_leased) (.ask trivial fun _ => trivial)
        (h₂ lease rfl)) (fun checkpoint s₃ h₃ => ?_) fun _ _ _ => trivial
      cases hpoint : DurableAgentRunner.resumePoint run checkpoint with
      | none => trivial
      | some point =>
          rw [← id_resumePoint hpoint] at h₃
          refine .bind (.frame (frames_live steady_leased) (Prog.asks_ask trivial) h₃)
            fun now s₄ h₄ => ?_
          refine .andThen (safe_saveRun steady_leased (stands_leased hretry) h₄)
            (fun _ s₅ ⟨hleased, hlive⟩ => ?_) fun _ _ _ => trivial
          exact safe_executeAndFinish hretry httl ⟨hleased, hlive rfl⟩

/-- `cancel` writes the record first and then releases whatever lease it finds. -/
theorem safe_cancel {reason : String} (h : Unleased t s) :
    (proto ttl).Safe t (DurableAgentRunner.cancel runId reason) (fun _ _ => True) s := by
  refine .andThen (safe_loadRun h) (fun found s₁ ⟨h₁, hfound⟩ => ?_) fun _ _ _ => trivial
  cases found with
  | none => trivial
  | some run =>
      obtain ⟨rfl, hlive⟩ := hfound run rfl
      dsimp only
      split_ifs with hterminal
      · trivial
      refine .andThen (safe_saveAs steady_unleased (fun _ => .inl)
        ⟨h₁, hlive (Bool.eq_false_iff.mpr hterminal)⟩) (fun _ s₂ _ => ?_) fun _ _ _ => trivial
      cases run.workerId with
      | none => trivial
      | some workerId =>
          refine .bind (.frame frames_loose (.ask (.inl trivial) fun _ => trivial) trivial)
            fun found s₃ _ => ?_
          rcases found with err | - | lease
          · trivial
          · trivial
          · exact .bind safe_release fun _ _ _ => trivial

/-- Recovery reads the record anew for every expired lease. -/
theorem safe_recoverRun {lease : Lease} (h : Unleased t s) :
    (proto ttl).Safe t (RecoveryManager.recoverRun runId lease) (fun _ => Unleased t) s := by
  refine .bind (.frame frames_unleased (release_asks.mono fun _ => loose_onRelease) h)
    fun _ s₁ h₁ => ?_
  refine .andThen (safe_loadRun h₁) (fun found s₂ ⟨h₂, hfound⟩ => ?_) fun _ _ h₂ => h₂.1
  cases found with
  | none => exact h₂
  | some run =>
      obtain ⟨rfl, hlive⟩ := hfound run rfl
      dsimp only
      split_ifs with hterminal
      · exact h₂
      all_goals replace hlive := hlive (Bool.eq_false_iff.mpr hterminal)
      · have hlive' : Live t { run with workerId := none : WorkflowRun }.id s₂ := hlive
        exact .andThen (safe_saveAs steady_unleased (fun _ => .inl) ⟨h₂, hlive'⟩)
          (fun _ _ h₃ => h₃.1) fun _ _ h₃ => h₃.1
      · refine .andThen (.frame (frames_live steady_unleased) (.ask trivial fun _ => trivial)
          ⟨h₂, hlive⟩) (fun checkpoint s₃ h₃ => ?_) fun _ _ h₃ => h₃.1
        refine .andThen (.frame (frames_live steady_unleased)
          (.andThen (.ask trivial fun _ => trivial) fun _ => trivial) h₃)
          (fun _ s₄ h₄ => ?_) fun _ _ h₄ => h₄.1
        exact .andThen (safe_saveAs steady_unleased (fun _ => .inl) h₄) (fun _ _ h₅ => h₅.1)
          fun _ _ h₅ => h₅.1

theorem safe_recoverAll {expired : List (RunId × Lease)} {actions : List RecoveryAction}
    (h : Unleased t s) :
    (proto ttl).Safe t (RecoveryManager.recoverAll expired actions) (fun _ _ => True) s := by
  induction expired generalizing s actions with
  | nil => trivial
  | cons head rest ih =>
      exact .andThen (safe_recoverRun h) (fun _ _ h₁ => ih h₁) fun _ _ _ => trivial

theorem safe_scanAndRecover (h : Unleased t s) :
    (proto ttl).Safe t RecoveryManager.scanAndRecover (fun _ _ => True) s := by
  have hasks : LeaseManager.scanExpired.Asks Loose :=
    .andThen (.ask (.inl trivial) fun _ => trivial) fun _ => .ask (.inl trivial) fun _ => trivial
  exact .andThen (.frame frames_unleased hasks h) (fun _ _ h₁ => safe_recoverAll h₁)
    fun _ _ _ => trivial

/-- A retry may write over a terminal record. -/
theorem safe_retryFromDlq (hretry : t.request = .retryFromDlq) (h : Unleased t s) :
    (proto ttl).Safe t (RecoveryManager.retryFromDlq runId) (fun _ _ => True) s := by
  refine .andThen (.frame frames_unleased (.ask (.inl trivial) fun _ => trivial) h)
    (fun entry s₁ h₁ => ?_) fun _ _ _ => trivial
  cases entry with
  | none => trivial
  | some entry =>
      refine .andThen (safe_loadRun h₁) (fun found s₂ ⟨h₂, _⟩ => ?_) fun _ _ _ => trivial
      cases found with
      | none => trivial
      | some run =>
          refine .andThen (safe_saveAs steady_unleased (fun _ => .inl)
            ⟨h₂, fun hne => absurd hretry hne⟩) (fun _ s₃ _ => ?_) fun _ _ _ => trivial
          exact .frame frames_loose (.ask (.inl trivial) fun _ => trivial) trivial

end Run

/-- **Every call is safe.** -/
theorem adequate : (proto ttl).Adequate (Client ttl) where
  env_inv hinv hmoves id := (hinv id).drift hmoves
  client_safe {t p s} hclient _ hsilent := by
    have hun : Unleased t s := (untouched_of_silent hsilent).unleased
    cases hclient with
    | start runner _ _ _ _ _ uses =>
        exact .bind (safe_start nofun uses hsilent) fun _ _ _ => trivial
    | resume runner runId uses =>
        exact .bind (safe_resume nofun uses hsilent) fun _ _ _ => trivial
    | cancel => exact .bind (safe_cancel hun) fun _ _ _ => trivial
    | scanAndRecover => exact .bind (safe_scanAndRecover hun) fun _ _ _ => trivial
    | retryFromDlq => exact .bind (safe_retryFromDlq rfl hun) fun _ _ _ => trivial

/-- A worker with leases of half a minute. -/
def worker (workerId : WorkerId) : DurableAgentRunner where
  leaseManager := { defaultTtlSecs := 30, process := 0 }
  workerId := workerId

/-- The agent's answer. -/
def answer : AgentResponse where
  content := "done"
  totalRounds := 1
  inputTokens := 0
  outputTokens := 0
  finishReason := .stop
  toolMessages := []

def startA : RunCall := ⟨0, .start⟩
def resumeB : RunCall := ⟨2, .resume⟩

def started : Proc Unit :=
  ((worker "a").start ⟨"m"⟩ "s" [] "" .defaultAgent).bind fun _ => .ret ()

def cancelled : Proc Unit :=
  (DurableAgentRunner.cancel (freshRunId []) "stop").bind fun _ => .ret ()

def resumed : Proc Unit := ((worker "b").resume (freshRunId [])).bind fun _ => .ret ()

theorem client_started : Client (fun _ => 30) startA started := .start _ _ _ _ _ _ rfl

/-- Worker `a` is about to ask its agent. -/
def asking : List (Choice RunCall Op Op.Res) :=
  .start startA started :: List.replicate 13 (.op startA)

/-- The lease runs out before the agent answers, and worker `b` takes the next one. -/
def takenOver : List (Choice RunCall Op Op.Res) :=
  asking ++ .tick 31000000000 :: .start resumeB resumed :: List.replicate 7 (.op resumeB) ++
    List.replicate 3 (.op startA)

/-- What a schedule leads to, from an empty store. -/
def after (schedule : List (Choice RunCall Op Op.Res)) : Config RunCall Op Op.Res World :=
  (Config.idle RunCall Op Op.Res (World.initial 0)).follow (reliable (.ok answer)) schedule

/-- …and the next operation of worker `a`. -/
def next (schedule : List (Choice RunCall Op Op.Res)) : Config RunCall Op Op.Res World :=
  (after schedule).next (reliable (.ok answer)) (.op startA)

/-- The record of the run, after a schedule. -/
def record (cfg : Config RunCall Op Op.Res World) : Option WorkflowRun :=
  cfg.shared.world.store.lookup (.run (freshRunId []))

/-- The checkpoint of the run, after a schedule. -/
def checkpointed (cfg : Config RunCall Op Op.Res World) : Option Checkpoint :=
  cfg.shared.world.store.lookup (.checkpoint (freshRunId []))

theorem client_of_mem_takenOver {p : Proc Unit} (h : .start t p ∈ takenOver) :
    Client (fun _ => 30) t p := by
  have hcases : (t = startA ∧ p = started) ∨ t = resumeB ∧ p = resumed := by
    simpa [takenOver, asking] using h
  rcases hcases with ⟨rfl, rfl⟩ | ⟨rfl, rfl⟩
  · exact client_started
  · exact .resume _ _ rfl

def leaseA : Lease := ⟨freshRunId [], "a", 0, 30000000000, 30, 1⟩
def leaseB : Lease := ⟨freshRunId [], "b", 31000000000, 61000000000, 30, 2⟩

theorem superseded_takenOver : Superseded startA (freshRunId []) (after takenOver).shared.log := by
  have hnew : (after takenOver).shared.log[3]? =
      some (granted resumeB (freshRunId []) leaseB) := rfl
  have hold : (after takenOver).shared.log[13]? =
      some (granted startA (freshRunId []) leaseA) := rfl
  exact superseded_of_getElem? hnew hold (by decide) (by decide)

/-- **A superseded worker writes**: its lease runs out while the agent is asked, another worker
takes the next one, and the checkpoint is written without a further look. -/
theorem superseded_writes : ∃ cfg ev w cfg',
    Run runtimeSystem (Client fun _ => 30) (fun _ _ => True)
      (Config.idle RunCall Op Op.Res (World.initial 0)) cfg ∧
    Step runtimeSystem (Client fun _ => 30) cfg (.op ev w) cfg' ∧ ¬ Kept cfg.shared ev.tid w := by
  have hready : (after takenOver).ready startA = true := rfl
  obtain ⟨ev, htid, step⟩ := Config.exists_step (reliable (.ok answer)) (Client fun _ => 30)
    (after takenOver) startA hready
  refine ⟨_, ev, _, _, .follow ?_ (Config.meets_true _ _ _), step, fun hkept => ?_⟩
  · exact fun _ _ h => client_of_mem_takenOver h
  · rw [htid] at hkept
    have hsame : checkpointed (next takenOver) = checkpointed (after takenOver) :=
      (hkept.fenced superseded_takenOver).2
    have hbefore : (checkpointed (after takenOver)).isSome = false := rfl
    have hafter : (checkpointed (next takenOver)).isSome = true := rfl
    rw [hsame, hbefore] at hafter
    cases hafter

end ClawDesk.Runtime.RunOwnership
