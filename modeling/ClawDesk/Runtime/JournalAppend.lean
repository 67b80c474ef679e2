import ClawDesk.Runtime.DurableRunner

/-!
# Is the journal append-only?

`start` and then any number of crashes and `resume`s, one call after another.  The
sequence counter is a field of the run record, and the record is saved later than
the entries it numbers.  A call that crashes in between leaves a record that does
not count its entry; the next call works on a copy of that record and appends
under the same number (`entry_overwritten`).

`Sync` follows, along the log, whether the stored record and the copy of it that
the call at hand works on count every entry.  As long as no call appends from a
copy that does not, and no number outgrows the ten digits of a key, every append
goes to a key of its own and `load_all` returns what was appended, in order
(`journal_appendOnly`).
-/

namespace ClawDesk.Runtime.JournalAppend

open Foundations

abbrev RunEvent := Event Unit Op Op.Res
abbrev RunShared := Shared Unit Op Op.Res World

/-! ### Entries appended -/

/-- The entry that the event appended to the run's journal. -/
def appendedBy (id : RunId) : RunEvent → Option JournalEntry
  | ⟨_, .put (.journal id' _) entry, .ok _⟩ => if id' = id then some entry else none
  | _ => none

/-- Every entry appended to the run's journal, in the order of the appends. -/
def appended (id : RunId) (log : List RunEvent) : List JournalEntry :=
  (log.filterMap (appendedBy id)).reverse

/-- No append put another entry in the place of one that was there. -/
def AppendOnly (log : List RunEvent) : Prop :=
  ∀ id n entry entry', (⟨(), .put (.journal id n) entry, .ok ()⟩ : RunEvent) ∈ log →
    (⟨(), .put (.journal id n) entry', .ok ()⟩ : RunEvent) ∈ log → entry = entry'

/-- What `load_all` returns, if the store answers, is what was appended. -/
def Complete (id : RunId) (s : RunShared) : Prop :=
  ∀ entries, runtimeSystem.Yields (ActivityJournal.loadAll id) s.world (.ok entries) ↔
    entries = appended id s.log

/-! ### Which copies of the record are up to date -/

/-- Do the stored record of a run, and the copy of it that the call at hand works
on, count every entry appended so far? -/
structure Sync where
  record : Bool
  copy : Bool

/-- A call numbers its entry in its copy before it appends it. -/
def Sync.next (id : RunId) (sync : Sync) : RunEvent → Sync
  | ⟨_, .get (.run id'), .ok _⟩ => if id' = id then { sync with copy := sync.record } else sync
  | ⟨_, .put (.run id') _, .ok _⟩ => if id' = id then { sync with record := sync.copy } else sync
  | ⟨_, .put (.journal id' _) _, .ok _⟩ =>
      if id' = id then { sync with record := false } else sync
  | ⟨_, .newRunId, r⟩ => if r = id then ⟨true, true⟩ else sync
  | _ => sync

variable {id id' : RunId} {sync : Sync}

/-- Reading a record makes a copy. -/
theorem next_get {found : Option WorkflowRun} :
    sync.next id ⟨(), .get (.run id'), .ok found⟩ =
      if id' = id then { sync with copy := sync.record } else sync := rfl

/-- Writing the record puts the copy in its place. -/
theorem next_put {run : WorkflowRun} :
    sync.next id ⟨(), .put (.run id') run, .ok ()⟩ =
      if id' = id then { sync with record := sync.copy } else sync := rfl

/-- An append leaves the record behind. -/
theorem next_append {n : ℕ} {entry : JournalEntry} :
    sync.next id ⟨(), .put (.journal id' n) entry, .ok ()⟩ =
      if id' = id then { sync with record := false } else sync := rfl

/-- A new run has no entries. -/
theorem next_draw : sync.next id ⟨(), .newRunId, id'⟩ =
    if id' = id then ⟨true, true⟩ else sync := rfl

/-- …after the log, which is read newest first. -/
def syncOf (id : RunId) : List RunEvent → Sync
  | [] => ⟨true, true⟩
  | ev :: log => (syncOf id log).next id ev

/-- The journal and the number under which the event puts an entry. -/
def numbered : RunEvent → Option (RunId × ℕ)
  | ⟨_, .put (.journal id n) _, _⟩ => some (id, n)
  | _ => none

/-- An entry is appended from a copy that counts every entry so far, and its
number fits its key. -/
def Counted (s : RunShared) (ev : RunEvent) : Prop :=
  ∀ slot ∈ numbered ev, (syncOf slot.1 s.log).copy = true ∧ slot.2 < 10 ^ 10

instance (s : RunShared) (ev : RunEvent) : Decidable (Counted s ev) :=
  inferInstanceAs (Decidable (∀ slot ∈ numbered ev, _))

/-- The calls: starts of new runs and resumptions, by any worker. -/
inductive Client : Proc Unit → Prop
  | start (runner : DurableAgentRunner) (config : AgentConfig) (sessionKey : String)
      (history : List ChatMessage) (systemPrompt : String) (retryPolicy : RetryPolicy) :
      Client ((runner.start config sessionKey history systemPrompt retryPolicy).bind
        fun _ => .ret ())
  | resume (runner : DurableAgentRunner) (runId : RunId) :
      Client ((runner.resume runId).bind fun _ => .ret ())

/-! ### The invariant -/

/-- The store holds what was appended, under ascending numbers. -/
structure Inv (s : RunShared) : Prop where
  stored : ∀ {id n entry}, s.world.store.lookup (.journal id n) = some entry ↔
    entry ∈ appended id s.log ∧ entry.seq = n
  ascending : ∀ id, (appended id s.log).Pairwise fun a b => a.seq < b.seq
  fits : ∀ {id}, ∀ entry ∈ appended id s.log, entry.seq < 10 ^ 10
  /-- A put under a key is of an entry with the number of the key. -/
  keyed : ∀ {id n entry}, (⟨(), .put (.journal id n) entry, .ok ()⟩ : RunEvent) ∈ s.log →
    entry.seq = n
  counted : ∀ {id run}, (syncOf id s.log).record = true →
    s.world.store.lookup (.run id) = some run → ∀ entry ∈ appended id s.log,
      entry.seq < run.nextSeq
  named : ∀ {id run}, s.world.store.lookup (.run id) = some run → run.id = id

/-- The argument of this module. -/
def proto : Proto Unit Op Op.Res World where
  sys := runtimeSystem
  cond := Counted
  inv := Inv
  assert _ _ := True

/-- What a call knows of the copy it works on. -/
def Counts (run : WorkflowRun) (s : RunShared) : Prop :=
  (syncOf run.id s.log).copy = true → ∀ entry ∈ appended run.id s.log, entry.seq < run.nextSeq

variable {s : RunShared} {run : WorkflowRun}

theorem inv_initial (now : Instant) : Inv ⟨World.initial now, []⟩ := by
  constructor <;> simp [World.initial, appended]

/-- Time is of no concern. -/
theorem stable_counts : proto.Stable () (Counts run) :=
  Proto.stable_of_env fun _ _ _ h => h

theorem inv_drift {w : World} (h : Inv s) (hmoves : World.passes s.world w) :
    Inv (s.drift w) := by
  obtain ⟨n, -, rfl⟩ := hmoves
  exact ⟨h.stored, h.ascending, h.fits, h.keyed, h.counted, h.named⟩

/-! ### What an operation other than an append leaves -/

theorem appended_cons {id : RunId} {ev : RunEvent} {log : List RunEvent}
    (h : appendedBy id ev = none) : appended id (ev :: log) = appended id log := by
  unfold appended
  rw [List.filterMap_cons_none h]

/-- What is left to show of an operation that appends nothing is that the records
are still good. -/
theorem Inv.frame {ev : RunEvent} {w : World} (h : Inv s)
    (adds : ∀ id, appendedBy id ev = none)
    (journals : ∀ id n, w.store.lookup (.journal id n) = s.world.store.lookup (.journal id n))
    (records : ∀ id run, w.store.lookup (.run id) = some run → run.id = id ∧
      (((syncOf id s.log).next id ev).record = true → ∀ entry ∈ appended id s.log,
        entry.seq < run.nextSeq)) : Inv (s.push ev w) := by
  have hlog (id : RunId) : appended id (s.push ev w).log = appended id s.log :=
    appended_cons (adds id)
  refine ⟨?_, ?_, ?_, ?_, ?_, ?_⟩
  · intro id n entry
    rw [hlog, Shared.push_world, journals]
    exact h.stored
  · intro id
    rw [hlog]
    exact h.ascending id
  · intro id
    rw [hlog]
    exact h.fits
  · intro id n entry hmem
    rcases List.mem_cons.mp hmem with rfl | hmem
    · -- A put under a journal key is an append.
      have hadds := adds id
      simp [appendedBy] at hadds
    · exact h.keyed hmem
  · intro id run hsync hlookup
    rw [hlog]
    exact (records id run hlookup).2 hsync
  · exact fun hlookup => (records _ _ hlookup).1

/-- Operations on neither a run record nor a journal. -/
def Quiet : Op → Prop
  | .get (.run _) => False
  | .put (.run _) _ => False
  | .put (.journal _ _) _ => False
  | .delete (.run _) => False
  | .delete (.journal _ _) => False
  | .newRunId => False
  | _ => True

theorem quiet_onLease {id : RunId} {e : Op} (h : OnLease id e) : Quiet e := by
  cases e with
  | get k | put k v | delete k =>
      obtain rfl : k = .lease id := h
      trivial
  | newRunId => exact h
  | _ => trivial

theorem appendedBy_quiet {id : RunId} {e : Op} {r : e.Res} (h : Quiet e) :
    appendedBy id ⟨(), e, r⟩ = none := by
  cases e with
  | put k v =>
      cases k with
      | journal => exact h.elim
      | _ => rfl
  | _ => rfl

theorem next_quiet {id : RunId} {e : Op} {r : e.Res} {sync : Sync} (h : Quiet e) :
    sync.next id ⟨(), e, r⟩ = sync := by
  cases e with
  | get k | put k v =>
      cases k with
      | run | journal => first | exact h.elim | rfl
      | _ => rfl
  | newRunId => exact h.elim
  | _ => rfl

/-- A quiet operation leaves the records and the journals as they are. -/
theorem lookup_quiet {e : Op} {r : e.Res} {w w' : World} {k : Key} (h : Quiet e)
    (hexec : World.exec e w r w') (hk : (∃ id, k = .run id) ∨ ∃ id n, k = .journal id n) :
    w'.store.lookup k = w.store.lookup k := by
  refine World.lookup_of_exec hexec ?_ ?_
  · rintro v rfl
    obtain ⟨id, rfl⟩ | ⟨id, n, rfl⟩ := hk <;> exact h
  · rintro rfl
    obtain ⟨id, rfl⟩ | ⟨id, n, rfl⟩ := hk <;> exact h

theorem Inv.quiet {e : Op} {r : e.Res} {w : World} (h : Inv s) (hquiet : Quiet e)
    (hexec : World.exec e s.world r w) : Inv (s.push ⟨(), e, r⟩ w) := by
  refine h.frame (fun _ => appendedBy_quiet hquiet)
    (fun id n => lookup_quiet hquiet hexec (.inr ⟨id, n, rfl⟩)) fun id run hlookup => ?_
  rw [lookup_quiet hquiet hexec (.inl ⟨id, rfl⟩)] at hlookup
  rw [next_quiet hquiet]
  exact ⟨h.named hlookup, fun hsync => h.counted hsync hlookup⟩

theorem Counts.quiet {e : Op} {r : e.Res} {w : World} (h : Counts run s) (hquiet : Quiet e) :
    Counts run (s.push ⟨(), e, r⟩ w) := by
  unfold Counts
  rw [Shared.push_log, appended_cons (appendedBy_quiet hquiet), syncOf, next_quiet hquiet]
  exact h

theorem frames_counts : proto.Frames () Quiet (Counts run) where
  stable := stable_counts
  step hquiet h hinv _ hexec := ⟨trivial, hinv.quiet hquiet hexec, h.quiet hquiet⟩

/-- What is asked of the store about a lease is of no concern. -/
theorem safe_onLease {α : Type} {p : Proc α} {id : RunId} (hp : p.Asks (OnLease id))
    (h : Counts run s) : proto.Safe () p (fun _ => Counts run) s :=
  .frame frames_counts (hp.mono fun _ => quiet_onLease) h

/-- An operation that failed. -/
theorem Inv.failed {e : Op} {r : e.Res} (h : Inv s)
    (adds : ∀ id, appendedBy id ⟨(), e, r⟩ = none)
    (sync : ∀ id sync, Sync.next id sync ⟨(), e, r⟩ = sync) :
    Inv (s.push ⟨(), e, r⟩ s.world) := by
  refine h.frame adds (fun _ _ => rfl) fun id run hlookup => ?_
  rw [sync]
  exact ⟨h.named hlookup, fun hsync => h.counted hsync hlookup⟩

/-! ### Reading and writing the record -/

/-- A fresh run id has no journal. -/
theorem appended_eq_nil {id : RunId} (h : Inv s) (hfresh : id ∉ s.world.store.keys.map Key.runId) :
    appended id s.log = [] := by
  refine List.eq_nil_iff_forall_not_mem.mpr fun entry hmem => hfresh ?_
  have hlookup : s.world.store.lookup (.journal id entry.seq) = some entry :=
    h.stored.mpr ⟨hmem, rfl⟩
  exact List.mem_map.mpr ⟨.journal id entry.seq,
    AList.mem_keys.mp (AList.lookup_isSome.mp (Option.isSome_of_eq_some hlookup)), rfl⟩

/-- The copy a call has read counts what the record counts. -/
theorem safe_loadRun {id : RunId} :
    proto.Safe () (CheckpointStore.loadRun id)
      (fun found s' => ∀ run, found = .ok (some run) → run.id = id ∧ Counts run s') s := by
  refine Proto.Safe.op (Proto.stable_const (p := True)) trivial fun s₁ _ hinv r w _ hexec => ?_
  obtain ⟨rfl, rfl | ⟨err, rfl⟩⟩ := hexec
  · refine ⟨trivial, ?_, ?_⟩
    · refine hinv.frame (fun _ => rfl) (fun _ _ => rfl) fun id' run hlookup => ?_
      refine ⟨hinv.named hlookup, fun hsync => hinv.counted ?_ hlookup⟩
      rw [next_get] at hsync
      split_ifs at hsync <;> exact hsync
    · intro run hfound
      have hlookup : s₁.world.store.lookup (.run id) = some run := by
        simpa [Except.mapError] using hfound
      obtain rfl := hinv.named hlookup
      refine ⟨rfl, fun hsync => ?_⟩
      rw [Shared.push_log, appended_cons rfl]
      rw [Shared.push_log, syncOf, next_get, if_pos rfl] at hsync
      exact hinv.counted hsync hlookup
  · exact ⟨trivial, hinv.failed (fun _ => rfl) fun _ _ => rfl, by simp [Except.mapError]⟩

theorem quiet_onIndex {e : Op} (h : CheckpointStore.OnIndex e) : Quiet e := by
  cases e with
  | put k v =>
      cases k with
      | indexState | indexWorker => trivial
      | _ => exact h.elim
  | _ => exact h.elim

/-- A save puts the copy in the place of the record. -/
theorem safe_saveRun (h : Counts run s) :
    proto.Safe () (CheckpointStore.saveRun run) (fun _ => Counts run) s := by
  refine safe_putEntry rfl stable_counts h (fun s₁ h₁ hinv _ => ⟨trivial, ?_, ?_⟩)
    fun s₁ err h₁ hinv _ => ⟨trivial, hinv.failed (fun _ => rfl) fun _ _ => rfl, ?_⟩
  · refine hinv.frame (fun _ => rfl) (fun id n => AList.lookup_insert_ne (by simp)) ?_
    intro id run' hlookup
    rw [next_put]
    by_cases hid : run.id = id
    · subst hid
      obtain rfl : run = run' := by simpa using hlookup
      rw [if_pos rfl]
      exact ⟨rfl, h₁⟩
    · rw [World.put_store, AList.lookup_insert_ne (by simpa using Ne.symm hid)] at hlookup
      rw [if_neg hid]
      exact ⟨hinv.named hlookup, fun hsync => hinv.counted hsync hlookup⟩
  · refine .frame frames_counts
      ((CheckpointStore.indexes_asks run).mono fun _ => quiet_onIndex) ?_
    intro hsync
    rw [Shared.push_log, appended_cons rfl]
    rw [Shared.push_log, syncOf, next_put, if_pos rfl] at hsync
    exact h₁ hsync
  · intro hsync
    rw [Shared.push_log, appended_cons rfl]
    exact h₁ hsync

theorem safe_saveAs (h : Counts run s) (state : RunState) :
    proto.Safe () (saveAs run state) (fun _ => Counts run) s := by
  have hclock : (Prog.ask .clock : Proc _).Asks (OnLease run.id) := Prog.asks_ask trivial
  exact .bind (safe_onLease hclock h) fun _ _ h₁ => safe_saveRun h₁

/-! ### Appending -/

/-- The event of an append. -/
abbrev appendEvent (runId : RunId) (entry : JournalEntry) : RunEvent :=
  ⟨(), .put (.journal runId entry.seq) entry, .ok ()⟩

theorem appended_append (id : RunId) (entry : JournalEntry) (log : List RunEvent) :
    appended id (appendEvent id entry :: log) = appended id log ++ [entry] := by
  unfold appended
  rw [List.filterMap_cons, appendedBy, if_pos rfl, List.reverse_cons]

theorem appended_append_ne {id runId : RunId} (hne : runId ≠ id) (entry : JournalEntry)
    (log : List RunEvent) : appended id (appendEvent runId entry :: log) = appended id log :=
  appended_cons (if_neg hne)

/-- **An append.**  The copy counts every entry so far, so its number is above all
of theirs. -/
theorem Inv.append {runId : RunId} {entry : JournalEntry} (h : Inv s)
    (above : ∀ old ∈ appended runId s.log, old.seq < entry.seq) (fits : entry.seq < 10 ^ 10) :
    Inv (s.push (appendEvent runId entry)
      (s.world.put (.journal runId entry.seq) entry)) := by
  refine ⟨?_, ?_, ?_, ?_, ?_, ?_⟩
  · intro id n (e : JournalEntry)
    rw [Shared.push_log, Shared.push_world, World.put_store]
    by_cases hid : runId = id
    · subst hid
      rw [appended_append, List.mem_append, List.mem_singleton]
      by_cases hn : n = entry.seq
      · subst hn
        rw [AList.lookup_insert, Option.some_inj]
        constructor
        · rintro rfl
          exact ⟨.inr rfl, rfl⟩
        · rintro ⟨hold | rfl, hseq⟩
          · exact absurd hseq (above e hold).ne
          · rfl
      · rw [AList.lookup_insert_ne (by simpa using hn), h.stored]
        constructor
        · exact fun ⟨hold, hseq⟩ => ⟨.inl hold, hseq⟩
        · rintro ⟨hold | rfl, hseq⟩
          · exact ⟨hold, hseq⟩
          · exact absurd hseq.symm hn
    · rw [appended_append_ne hid, AList.lookup_insert_ne (by simp [Ne.symm hid])]
      exact h.stored
  · intro id
    rw [Shared.push_log]
    by_cases hid : runId = id
    · subst hid
      rw [appended_append]
      refine List.pairwise_append.mpr ⟨h.ascending _, List.pairwise_singleton _ _, ?_⟩
      intro old hold e he
      obtain rfl := List.mem_singleton.mp he
      exact above old hold
    · rw [appended_append_ne hid]
      exact h.ascending id
  · intro id e he
    rw [Shared.push_log] at he
    by_cases hid : runId = id
    · subst hid
      rw [appended_append, List.mem_append, List.mem_singleton] at he
      rcases he with hold | rfl
      · exact h.fits e hold
      · exact fits
    · rw [appended_append_ne hid] at he
      exact h.fits e he
  · intro id n e hmem
    rcases List.mem_cons.mp hmem with heq | hmem
    · obtain ⟨-, hop, -⟩ := Event.mk.inj heq
      obtain ⟨hkey, hentry⟩ := Op.put.inj hop
      obtain ⟨-, rfl⟩ := Key.journal.inj hkey
      exact congrArg JournalEntry.seq (eq_of_heq hentry)
    · exact h.keyed hmem
  · intro id run' hsync hlookup
    rw [Shared.push_log, syncOf, next_append] at hsync
    rw [Shared.push_world, World.put_store, AList.lookup_insert_ne (by simp)] at hlookup
    rw [Shared.push_log]
    by_cases hid : runId = id
    · rw [if_pos hid] at hsync
      exact absurd hsync Bool.false_ne_true
    · rw [if_neg hid] at hsync
      rw [appended_append_ne hid]
      exact h.counted hsync hlookup
  · intro id run' hlookup
    rw [Shared.push_world, World.put_store, AList.lookup_insert_ne (by simp)] at hlookup
    exact h.named hlookup

/-- The copy counts the entry that has been appended under its number. -/
theorem safe_append {entry : JournalEntry} (h : Counts run s) (hseq : entry.seq = run.nextSeq) :
    proto.Safe () (ActivityJournal.append run.id entry)
      (fun _ => Counts { run with nextSeq := run.nextSeq + 1 }) s := by
  refine safe_putEntry rfl stable_counts h (fun s₁ h₁ hinv hcond => ⟨trivial, ?_, ?_⟩)
    fun s₁ err h₁ hinv _ => ⟨trivial, hinv.failed (fun _ => rfl) fun _ _ => rfl, ?_⟩
  · obtain ⟨hcopy, hfits⟩ := hcond (run.id, entry.seq) rfl
    exact hinv.append (fun old hold => hseq ▸ h₁ hcopy old hold) hfits
  · intro hsync old hold
    show old.seq < run.nextSeq + 1
    rw [Shared.push_log, appended_append, List.mem_append, List.mem_singleton] at hold
    rw [Shared.push_log, syncOf, next_append, if_pos rfl] at hsync
    rcases hold with hold | rfl
    · exact (h₁ hsync old hold).trans (Nat.lt_succ_self _)
    · exact hseq ▸ Nat.lt_succ_self _
  · intro hsync old hold
    rw [Shared.push_log, appended_cons rfl] at hold
    exact (h₁ hsync old hold).trans (Nat.lt_succ_self _)

/-! ### One lemma per procedure of the runner -/

section Runner

variable {runner : DurableAgentRunner} {config : AgentConfig} {history : List ChatMessage}
  {systemPrompt : String} {fence : ℕ}

/-- Quiet programs keep what the call knows of its copy. -/
theorem safe_quiet {α : Type} {p : Proc α} (hp : p.Asks Quiet) (h : Counts run s) :
    proto.Safe () p (fun _ => Counts run) s := .frame frames_counts hp h

theorem safe_recordResponse (h : Counts run s) (response : AgentResponse) :
    proto.Safe () (runner.recordResponse run config history systemPrompt fence response)
      (fun result => Counts result.1) s := by
  refine .bind (safe_quiet (Prog.asks_ask trivial) h) fun completedAt s₁ h₁ => ?_
  refine .bind (@safe_append s₁ run _ h₁ rfl) fun appended s₂ h₂ => ?_
  cases appended with
  | error e => exact h₂
  | ok _ =>
      refine .bind (safe_quiet ?_ h₂) fun saved s₃ h₃ => ?_
      · exact .andThen (.ask trivial fun _ => trivial) fun _ => trivial
      cases saved with
      | error e => exact h₃
      | ok _ => exact .bind (safe_onLease (renew_asks _) h₃) fun _ s₄ h₄ => h₄

theorem safe_executeWithDurability (h : Counts run s) :
    proto.Safe () (runner.executeWithDurability run config history systemPrompt fence)
      (fun result => Counts result.1) s := by
  refine .bind (safe_quiet ?_ h) fun late s₁ h₁ => ?_
  · unfold DurableAgentRunner.checkDeadline
    cases run.deadline with
    | none => trivial
    | some deadline => exact .ask trivial fun _ => trivial
  cases late with
  | true => exact h₁
  | false =>
      refine .bind (safe_onLease (validateFence_asks.mono fun _ => ReadsLease.onLease) h₁)
        fun valid s₂ h₂ => ?_
      cases valid with
      | error e => exact h₂
      | ok _ =>
          refine .bind (safe_quiet (Prog.asks_ask trivial) h₂) fun created s₃ h₃ => ?_
          cases created with
          | error e => exact h₃
          | ok _ =>
              refine .bind (safe_quiet (Prog.asks_ask trivial) h₃) fun answer s₄ h₄ => ?_
              cases answer with
              | error e => exact h₄
              | ok response => exact safe_recordResponse h₄ response

theorem safe_handleFailure (h : Counts run s) (error : ClawDeskError) :
    proto.Safe () (runner.handleFailure run error fence) (fun _ => Counts run) s := by
  have saved : proto.Safe () (DurableAgentRunner.saveFailure run error)
      (fun _ => Counts run) s := by
    unfold DurableAgentRunner.saveFailure
    split_ifs
    · refine .bind (safe_quiet (Prog.asks_ask trivial) h) fun delay s₁ h₁ => ?_
      exact safe_saveAs h₁ _
    · exact safe_saveAs h _
  refine saved.andThen (fun _ s₁ h₁ => ?_) fun _ _ h₁ => h₁
  exact .bind (safe_onLease (release_asks.mono fun _ => OnRelease.onLease) h₁) fun _ s₂ h₂ => h₂

/-- Whatever comes of the execution, the call keeps to one copy. -/
theorem safe_executeAndFinish (h : Counts run s) :
    proto.Safe () (runner.executeAndFinish run config history systemPrompt fence)
      (fun _ _ => True) s := by
  refine safe_executeWithDurability h |>.bind fun result s₁ h₁ => ?_
  obtain ⟨run, error | content⟩ := result
  · exact .andThen (safe_handleFailure h₁ error) (fun _ _ _ => trivial) fun _ _ _ => trivial
  · refine .andThen (safe_saveAs h₁ _) (fun _ s₂ h₂ => ?_) fun _ _ _ => trivial
    exact .andThen (safe_onLease (release_asks.mono fun _ => OnRelease.onLease) h₂)
      (fun _ _ _ => trivial) fun _ _ _ => trivial

/-- A run that has just been drawn has no entries, so any copy counts them. -/
theorem safe_newRunId :
    proto.Safe () (ask .newRunId) (fun id s' => ∀ run : WorkflowRun, run.id = id → Counts run s')
      s := by
  refine Proto.Safe.op (Proto.stable_const (p := True)) trivial fun s₁ _ hinv r w _ hexec => ?_
  obtain ⟨⟨-, hfresh⟩, rfl⟩ := hexec
  have hnil := appended_eq_nil hinv hfresh
  refine ⟨trivial, ?_, ?_⟩
  · refine hinv.frame (fun _ => rfl) (fun _ _ => rfl) fun id run hlookup => ?_
    refine ⟨hinv.named hlookup, fun hsync => ?_⟩
    rw [next_draw] at hsync
    by_cases hid : r = id
    · rw [← hid, hnil]
      simp
    · rw [if_neg hid] at hsync
      exact hinv.counted hsync hlookup
  · rintro run rfl -
    rw [Shared.push_log, appended_cons rfl, hnil]
    simp

theorem safe_start {sessionKey : String} {retryPolicy : RetryPolicy} :
    proto.Safe () (runner.start config sessionKey history systemPrompt retryPolicy)
      (fun _ _ => True) s := by
  refine Proto.Safe.ask (Proto.stable_const (p := True)) trivial
    fun s₁ _ hinv created w _ hexec => ⟨trivial, hinv.quiet trivial hexec, ?_⟩
  refine .bind safe_newRunId fun runId s₂ h₂ => ?_
  refine .bind (safe_quiet (Prog.asks_ask trivial)
    (h₂ (WorkflowRun.new runId created (.agentLoop config sessionKey) retryPolicy) rfl))
    fun updated s₃ h₃ => ?_
  refine .andThen (safe_saveRun h₃) (fun _ s₄ h₄ => ?_) fun _ _ _ => trivial
  refine .andThen (safe_onLease (acquire_asks _) h₄) (fun lease s₅ h₅ => ?_) fun _ _ _ => trivial
  exact safe_executeAndFinish h₅

/-- What a resumed run goes on from is the copy it has read. -/
theorem counts_resumePoint {checkpoint : Option Checkpoint}
    {point : WorkflowRun × AgentConfig × List ChatMessage × String}
    (hpoint : DurableAgentRunner.resumePoint run checkpoint = some point) (h : Counts run s) :
    Counts point.1 s := by
  unfold DurableAgentRunner.resumePoint at hpoint
  split at hpoint
  · obtain rfl := Option.some.inj hpoint
    exact h
  · obtain rfl := Option.some.inj hpoint
    exact h
  · contradiction

theorem safe_resume {runId : RunId} :
    proto.Safe () (runner.resume runId) (fun _ _ => True) s := by
  refine .andThen safe_loadRun (fun found s₁ hfound => ?_) fun _ _ _ => trivial
  cases found with
  | none => trivial
  | some run =>
      obtain ⟨rfl, h₁⟩ := hfound run rfl
      dsimp only
      split_ifs
      · trivial
      refine .andThen (safe_onLease (acquire_asks _) h₁) (fun lease s₂ h₂ => ?_)
        fun _ _ _ => trivial
      refine .andThen (safe_quiet (Prog.asks_ask trivial) h₂) (fun checkpoint s₃ h₃ => ?_)
        fun _ _ _ => trivial
      cases hpoint : DurableAgentRunner.resumePoint run checkpoint with
      | none => trivial
      | some point =>
          have h₃ := counts_resumePoint hpoint h₃
          refine .bind (safe_quiet (Prog.asks_ask trivial) h₃) fun now s₄ h₄ => ?_
          refine .andThen (safe_saveRun h₄) (fun _ s₅ h₅ => ?_) fun _ _ _ => trivial
          exact safe_executeAndFinish h₅

/-- **Every call is safe.** -/
theorem client_safe {p : Proc Unit} (h : Client p) : proto.Safe () p (fun _ _ => True) s := by
  cases h with
  | start => exact .bind safe_start fun _ _ _ => trivial
  | resume => exact .bind safe_resume fun _ _ _ => trivial

end Runner

/-! ### What `load_all` returns -/

/-- Below `10 ^ 10` the keys of a journal are ordered like the numbers. -/
theorem seq_lt_of_text_lt {id : RunId} {m n : ℕ} (hm : m < 10 ^ 10)
    (h : (Key.journal id m).text < (Key.journal id n).text) : m < n := by
  by_contra hle
  rcases (Nat.le_of_not_lt hle).lt_or_eq with hlt | rfl
  · have htexts : (Key.journal id n).text < (Key.journal id m).text :=
      List.Lex.append_left _ (List.Lex.append_left _ (List.Lex.append_left _
        (decimal_lt_decimal hm hlt) _) _) _
    exact lt_asymm h htexts
  · exact lt_irrefl _ h

theorem mem_entries {id : RunId} {entry : JournalEntry} (h : Inv s) :
    entry ∈ (s.world.scan (Key.journalPrefix id)).filterMap ActivityJournal.entryOf ↔
      entry ∈ appended id s.log := by
  rw [List.mem_filterMap]
  constructor
  · rintro ⟨⟨k, v⟩, hmem, hentry⟩
    obtain ⟨hkey, hlookup⟩ := World.mem_scan.mp hmem
    obtain ⟨n, rfl⟩ := Key.prefix_journal.mp hkey
    obtain rfl : v = entry := Option.some.inj hentry
    exact (h.stored.mp hlookup).1
  · intro hmem
    refine ⟨⟨.journal id entry.seq, entry⟩, World.mem_scan.mpr ⟨?_, ?_⟩, rfl⟩
    · exact Key.prefix_journal.mpr ⟨_, rfl⟩
    · exact h.stored.mpr ⟨hmem, rfl⟩

theorem ascending_entries {id : RunId} (h : Inv s) :
    ((s.world.scan (Key.journalPrefix id)).filterMap ActivityJournal.entryOf).Pairwise
      fun a b => a.seq < b.seq := by
  rw [List.pairwise_filterMap]
  refine (World.scan_sorted _ _).imp_of_mem ?_
  rintro ⟨k, v⟩ ⟨k', v'⟩ hmem hmem' hlt a ha b hb
  obtain ⟨hkey, hlookup⟩ := World.mem_scan.mp hmem
  obtain ⟨hkey', hlookup'⟩ := World.mem_scan.mp hmem'
  obtain ⟨n, rfl⟩ := Key.prefix_journal.mp hkey
  obtain ⟨n', rfl⟩ := Key.prefix_journal.mp hkey'
  obtain rfl : v = a := Option.some.inj ha
  obtain rfl : v' = b := Option.some.inj hb
  obtain ⟨hv, hn⟩ := h.stored.mp hlookup
  obtain ⟨-, hn'⟩ := h.stored.mp hlookup'
  rw [hn, hn']
  exact seq_lt_of_text_lt (hn ▸ h.fits _ hv) hlt

theorem Inv.complete (h : Inv s) (id : RunId) : Complete id s := by
  have hsame : (s.world.scan (Key.journalPrefix id)).filterMap ActivityJournal.entryOf =
      appended id s.log := by
    have : Std.Irrefl fun a b : JournalEntry => a.seq < b.seq := ⟨fun _ => lt_irrefl _⟩
    have : Std.Antisymm fun a b : JournalEntry => a.seq < b.seq :=
      ⟨fun _ _ hab hba => absurd hba hab.asymm⟩
    exact (ascending_entries h).eq_of_mem_iff (h.ascending id) fun _ => mem_entries h
  intro entries
  rw [← hsame]
  constructor
  · rintro ⟨found, w, ⟨rfl, rfl | ⟨err, rfl⟩⟩, hyields⟩
    · exact (Except.ok.inj hyields).symm
    · contradiction
  · rintro rfl
    exact ⟨_, _, ⟨rfl, .inl rfl⟩, rfl⟩

theorem Inv.appendOnly (h : Inv s) : AppendOnly s.log := by
  intro id n entry entry' hmem hmem'
  have hstored {e : JournalEntry}
      (he : (⟨(), .put (.journal id n) e, .ok ()⟩ : RunEvent) ∈ s.log) :
      s.world.store.lookup (.journal id n) = some e := by
    refine h.stored.mpr ⟨?_, h.keyed he⟩
    exact List.mem_reverse.mpr (List.mem_filterMap.mpr ⟨_, he, if_pos rfl⟩)
  exact Option.some.inj ((hstored hmem).symm.trans (hstored hmem'))

/-- **The journal is append-only while every append counts the entries before it.** -/
theorem journal_appendOnly {now : Instant} {p : Proc Unit}
    (run : Serial runtimeSystem Client Counted ⟨World.initial now, []⟩ p s) :
    AppendOnly s.log ∧ ∀ id, Complete id s := by
  obtain ⟨hinv, -⟩ := Proto.serial inv_drift (fun h _ => client_safe h) (inv_initial now) run
  exact ⟨hinv.appendOnly, hinv.complete⟩

/-! ### A crash between the entry and the record -/

/-- A worker with leases of half a minute. -/
def worker : DurableAgentRunner where
  leaseManager := { defaultTtlSecs := 30, process := 0 }
  workerId := "w"

/-- An agent's answer. -/
def answer (content : String) : AgentResponse where
  content := content
  totalRounds := 1
  inputTokens := 0
  outputTokens := 0
  finishReason := .stop
  toolMessages := []

def started : Proc Unit :=
  (worker.start ⟨"m"⟩ "s" [] "" .defaultAgent).bind fun _ => .ret ()

def resumed : Proc Unit := (worker.resume (freshRunId [])).bind fun _ => .ret ()

/-- `start` crashes after so many operations. -/
def afterStart (n : ℕ) : Proc Unit × RunShared :=
  (reliable (.ok (answer "a"))).advance n started ⟨World.initial 0, []⟩

/-- …and then the run is resumed. -/
def afterResume (n m : ℕ) : Proc Unit × RunShared :=
  (reliable (.ok (answer "b"))).advance m resumed (afterStart n).2

/-- A crash before the agent is asked does no harm. -/
theorem journal_appendOnly_resumed :
    (appended (freshRunId []) (afterResume 12 40).2.log).length = 1 ∧
    AppendOnly (afterResume 12 40).2.log ∧ ∀ id, Complete id (afterResume 12 40).2 := by
  have hstart : Serial runtimeSystem Client Counted ⟨World.initial 0, []⟩
      (afterStart 12).1 (afterStart 12).2 :=
    .advance (.call .idle (.start worker _ _ _ _ _)) (by decide +kernel)
  have hresume : Serial runtimeSystem Client Counted ⟨World.initial 0, []⟩
      (afterResume 12 40).1 (afterResume 12 40).2 :=
    .advance (.call hstart (.resume worker _)) (by decide +kernel)
  exact ⟨rfl, journal_appendOnly hresume⟩

/-- **A crash right after the entry has been appended.**  The resumed call appends
under the same number, and `load_all` has lost the first entry. -/
theorem entry_overwritten : ∃ p s, Serial runtimeSystem Client (fun _ _ => True)
    ⟨World.initial 0, []⟩ p s ∧ ¬ AppendOnly s.log ∧ ¬ Complete (freshRunId []) s := by
  have hstart : Serial runtimeSystem Client (fun _ _ => True) ⟨World.initial 0, []⟩
      (afterStart 16).1 (afterStart 16).2 :=
    .advance (.call .idle (.start worker _ _ _ _ _)) (by decide +kernel)
  have hresume : Serial runtimeSystem Client (fun _ _ => True) ⟨World.initial 0, []⟩
      (afterResume 16 21).1 (afterResume 16 21).2 :=
    .advance (.call hstart (.resume worker _)) (by decide +kernel)
  -- The two events, and what the journal holds after them.
  have hfirst : (afterResume 16 21).2.log[21]? = some ⟨(), .put (.journal (freshRunId []) 0)
      (llmCallEntry 0 ⟨"m"⟩ (answer "a") 0 0), .ok ()⟩ := rfl
  have hsecond : (afterResume 16 21).2.log[0]? = some ⟨(), .put (.journal (freshRunId []) 0)
      (llmCallEntry 0 ⟨"m"⟩ (answer "b") 0 0), .ok ()⟩ := rfl
  refine ⟨_, _, hresume, fun honly => ?_, fun hcomplete => ?_⟩
  · have heq := honly _ _ _ _ (List.mem_of_getElem? hfirst) (List.mem_of_getElem? hsecond)
    exact absurd heq (by decide)
  · have hall := (hcomplete _).mp ⟨_, _, ⟨rfl, .inl rfl⟩, rfl⟩
    exact absurd (congrArg List.length hall) (by decide +kernel)

end ClawDesk.Runtime.JournalAppend
