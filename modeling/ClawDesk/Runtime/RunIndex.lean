import ClawDesk.Runtime.Checkpoint

/-!
# The secondary indexes over a history of saves

`save_run` writes an index entry for the state and the worker of the run it
saves and never removes the entries of earlier saves.  So an index lists a run
under every state and every worker it was ever saved with (`scan_state`,
`scan_worker`), and it agrees with the latest saves exactly when no run was ever
saved under a label or a worker other than its latest (`indexes_exact_iff`).
-/

namespace ClawDesk.Runtime.RunIndex

open Foundations CheckpointStore

/-! ### A history of saves -/

/-- What a run of a procedure leaves, with nothing failing. -/
def perform {α : Type} (p : Proc α) (w : World) : α × World :=
  p.eval (fun e w => w.serve (.error (.other "")) e) w

/-- Save the runs of the list one after another. -/
def saveAll (runs : List WorkflowRun) (w : World) : World :=
  runs.foldl (fun w run => (perform (saveRun run) w).2) w

/-- The last run of the list saved under the id. -/
def latest (runs : List WorkflowRun) (id : RunId) : Option WorkflowRun :=
  (runs.filter fun run => run.id = id).getLast?

/-- The state index lists exactly the runs whose latest save has the label, each
once. -/
def StateIndexExact (runs : List WorkflowRun) (w : World) (label : String) : Prop :=
  ∃ ids, (perform (loadRunsByState label) w).1 = .ok ids ∧ ids.Nodup ∧
    ∀ id, id ∈ ids ↔ ∃ run, latest runs id = some run ∧ run.state.label = label

/-- The worker index lists exactly the runs whose latest save has the worker, each
once. -/
def WorkerIndexExact (runs : List WorkflowRun) (w : World) (workerId : WorkerId) : Prop :=
  ∃ ids, (perform (loadRunsByWorker workerId) w).1 = .ok ids ∧ ids.Nodup ∧
    ∀ id, id ∈ ids ↔ ∃ run, latest runs id = some run ∧ run.workerId = some workerId

variable {runs : List WorkflowRun} {w : World} {id : RunId}

theorem latest_mem {run : WorkflowRun} (h : latest runs id = some run) :
    run ∈ runs ∧ run.id = id := by
  simpa using List.mem_of_getLast? h

theorem exists_latest {run : WorkflowRun} (hmem : run ∈ runs) :
    ∃ last, latest runs run.id = some last := by
  rw [← Option.isSome_iff_exists, latest, List.getLast?_isSome]
  exact List.ne_nil_of_mem (List.mem_filter.mpr ⟨hmem, by simp⟩)

/-! ### What the index keys hold -/

/-- Under every index key there is the run's id if some save wrote it. -/
structure Indexed (runs : List WorkflowRun) (w : World) : Prop where
  state : ∀ label id v, w.store.lookup (.indexState label id) = some v ↔
    v = id ∧ ∃ run ∈ runs, run.id = id ∧ run.state.label = label
  worker : ∀ workerId id v, w.store.lookup (.indexWorker workerId id) = some v ↔
    v = id ∧ ∃ run ∈ runs, run.id = id ∧ run.workerId = some workerId

theorem indexed_initial (now : Instant) : Indexed [] (World.initial now) := by
  constructor <;> simp [World.initial]

/-- What a save leaves in the store. -/
theorem perform_saveRun (run : WorkflowRun) (w : World) :
    (perform (saveRun run) w).2 =
      let w' := (w.put (.run run.id) run).put (.indexState run.state.label run.id) run.id
      run.workerId.elim w' fun workerId => w'.put (.indexWorker workerId run.id) run.id := by
  obtain ⟨id, workflowType, state, retryPolicy, attempt, parentRunId, workerId⟩ := run
  cases workerId <;> rfl

theorem lookup_state_saveRun (run : WorkflowRun) (label : String) (id : RunId) :
    (perform (saveRun run) w).2.store.lookup (.indexState label id) =
      if run.state.label = label ∧ run.id = id then some id
      else w.store.lookup (.indexState label id) := by
  have hput : (((w.put (.run run.id) run).put (.indexState run.state.label run.id)
      run.id).store.lookup (.indexState label id)) =
      if run.state.label = label ∧ run.id = id then some id
      else w.store.lookup (.indexState label id) := by
    split_ifs with h
    · obtain ⟨rfl, rfl⟩ := h
      exact AList.lookup_insert _
    · rw [World.put_store, AList.lookup_insert_ne fun heq => h ?_, World.put_store,
        AList.lookup_insert_ne (by simp)]
      obtain ⟨rfl, rfl⟩ := Key.indexState.inj heq
      exact ⟨rfl, rfl⟩
  rw [perform_saveRun]
  cases run.workerId with
  | none => exact hput
  | some workerId =>
      rw [Option.elim_some, World.put_store, AList.lookup_insert_ne (by simp)]
      exact hput

theorem lookup_worker_saveRun (run : WorkflowRun) (workerId : WorkerId) (id : RunId) :
    (perform (saveRun run) w).2.store.lookup (.indexWorker workerId id) =
      if run.workerId = some workerId ∧ run.id = id then some id
      else w.store.lookup (.indexWorker workerId id) := by
  have hput : (((w.put (.run run.id) run).put (.indexState run.state.label run.id)
      run.id).store.lookup (.indexWorker workerId id)) =
      w.store.lookup (.indexWorker workerId id) := by
    rw [World.put_store, AList.lookup_insert_ne (by simp), World.put_store,
      AList.lookup_insert_ne (by simp)]
  rw [perform_saveRun]
  cases hworker : run.workerId with
  | none => simp
  | some worker =>
      rw [Option.elim_some, World.put_store]
      split_ifs with h
      · obtain ⟨h, rfl⟩ := h
        obtain rfl := Option.some.inj h
        exact AList.lookup_insert _
      · rw [AList.lookup_insert_ne fun heq => h ?_]
        · exact hput
        · obtain ⟨rfl, rfl⟩ := Key.indexWorker.inj heq
          exact ⟨rfl, rfl⟩

/-- An index key that a save writes if the run has the attribute `P`. -/
theorem indexed_entry {P : WorkflowRun → Prop} {run : WorkflowRun} [Decidable (P run)]
    {old : Option RunId} (hold : ∀ v, old = some v ↔ v = id ∧ ∃ r ∈ runs, r.id = id ∧ P r)
    (v : RunId) :
    (if P run ∧ run.id = id then some id else old) = some v ↔
      v = id ∧ ∃ r ∈ runs ++ [run], r.id = id ∧ P r := by
  split_ifs with hnew
  · rw [Option.some_inj, eq_comm]
    exact (and_iff_left ⟨run, by simp, hnew.2, hnew.1⟩).symm
  · rw [hold]
    refine and_congr_right fun _ => ⟨fun ⟨r, hr, hrest⟩ => ⟨r, by simp [hr], hrest⟩, ?_⟩
    rintro ⟨r, hr, hid, hP⟩
    rcases List.mem_append.mp hr with hr | hr
    · exact ⟨r, hr, hid, hP⟩
    · obtain rfl := List.mem_singleton.mp hr
      exact absurd ⟨hP, hid⟩ hnew

/-- **One save.** -/
theorem Indexed.saveRun (h : Indexed runs w) (run : WorkflowRun) :
    Indexed (runs ++ [run]) (perform (saveRun run) w).2 := by
  refine ⟨fun label id v => ?_, fun workerId id v => ?_⟩
  · rw [lookup_state_saveRun]
    exact indexed_entry (h.state label id) v
  · rw [lookup_worker_saveRun]
    exact indexed_entry (h.worker workerId id) v

/-- **A history of saves.** -/
theorem indexed_saveAll (runs : List WorkflowRun) (now : Instant) :
    Indexed runs (saveAll runs (World.initial now)) := by
  induction runs using List.reverseRecOn with
  | nil => exact indexed_initial now
  | append_singleton runs run ih =>
      rw [saveAll, List.foldl_append]
      exact ih.saveRun run

/-! ### What a scan of an index returns -/

theorem colon_notMem_label (state : RunState) : ':' ∉ state.label.toList := by
  cases state <;> rw [RunState.label] <;> decide

/-- The ids in a scan whose entries are those of the runs in `S`. -/
theorem runIds_of_scan {pre : List Char} {S : RunId → Prop} {entry : RunId → Sigma Key.Val}
    (hentry : ∀ id, runIdOf (entry id) = some id)
    (hscan : ∀ e, e ∈ w.scan pre ↔ ∃ id, S id ∧ e = entry id) :
    ((w.scan pre).filterMap runIdOf).Nodup ∧
      ∀ id, id ∈ (w.scan pre).filterMap runIdOf ↔ S id := by
  constructor
  · have hne : (w.scan pre).Pairwise (· ≠ ·) := by
      refine (w.scan_sorted pre).imp ?_
      rintro a _ h rfl
      exact List.lt_irrefl _ h
    refine List.pairwise_filterMap.mpr (hne.imp_of_mem ?_)
    intro a b ha hb hne i hi j hj
    obtain ⟨ia, -, rfl⟩ := (hscan a).mp ha
    obtain ⟨ib, -, rfl⟩ := (hscan b).mp hb
    obtain rfl : ia = i := by simpa [hentry] using hi
    obtain rfl : ib = j := by simpa [hentry] using hj
    exact fun heq => hne (congrArg entry heq)
  · intro id
    rw [List.mem_filterMap]
    constructor
    · rintro ⟨e, he, hid⟩
      obtain ⟨id', hS, rfl⟩ := (hscan e).mp he
      obtain rfl : id' = id := by simpa [hentry] using hid
      exact hS
    · exact fun hS => ⟨entry id, (hscan _).mpr ⟨id, hS, rfl⟩, hentry id⟩

/-- A state scan returns the runs that were ever saved under the label. -/
theorem scan_state (h : Indexed runs w) (label : String) (e : Sigma Key.Val) :
    e ∈ w.scan (Key.indexStatePrefix label) ↔
      ∃ id, (∃ run ∈ runs, run.id = id ∧ run.state.label = label) ∧
        e = ⟨.indexState label id, id⟩ := by
  obtain ⟨k, v⟩ := e
  rw [World.mem_scan]
  constructor
  · rintro ⟨hpre, hlookup⟩
    obtain ⟨label', id, rfl⟩ := Key.exists_of_prefix_indexState hpre
    obtain ⟨hv, run, hmem, hid, hlabel⟩ := (h.state label' id v).mp hlookup
    obtain rfl : label = label' :=
      (Key.prefix_indexState (hlabel ▸ colon_notMem_label run.state)).mp hpre
    exact ⟨id, ⟨run, hmem, hid, hlabel⟩, by rw [hv]⟩
  · rintro ⟨_, ⟨run, hmem, rfl, rfl⟩, ⟨⟩⟩
    exact ⟨(Key.prefix_indexState (colon_notMem_label run.state)).mpr rfl,
      (h.state _ _ _).mpr ⟨rfl, run, hmem, rfl, rfl⟩⟩

/-- A worker scan returns the runs that were ever saved with the worker. -/
theorem scan_worker (h : Indexed runs w) (workerId : WorkerId)
    (hcolon : ∀ run ∈ runs, ∀ worker, run.workerId = some worker → ':' ∉ worker.toList)
    (e : Sigma Key.Val) :
    e ∈ w.scan (Key.indexWorkerPrefix workerId) ↔
      ∃ id, (∃ run ∈ runs, run.id = id ∧ run.workerId = some workerId) ∧
        e = ⟨.indexWorker workerId id, id⟩ := by
  obtain ⟨k, v⟩ := e
  rw [World.mem_scan]
  constructor
  · rintro ⟨hpre, hlookup⟩
    obtain ⟨worker', id, rfl⟩ := Key.exists_of_prefix_indexWorker hpre
    obtain ⟨hv, run, hmem, hid, hworker⟩ := (h.worker worker' id v).mp hlookup
    obtain rfl := (Key.prefix_indexWorker (hcolon run hmem _ hworker)).mp hpre
    exact ⟨id, ⟨run, hmem, hid, hworker⟩, by rw [hv]⟩
  · rintro ⟨_, ⟨run, hmem, rfl, hworker⟩, ⟨⟩⟩
    exact ⟨(Key.prefix_indexWorker (hcolon run hmem _ hworker)).mpr rfl,
      (h.worker _ _ _).mpr ⟨rfl, run, hmem, rfl, hworker⟩⟩

/-! ### When the indexes agree with the latest saves -/

/-- No run was ever saved under a label or with a worker other than its latest. -/
def Steady (runs : List WorkflowRun) : Prop :=
  ∀ run ∈ runs, ∀ last, latest runs run.id = some last →
    run.state.label = last.state.label ∧
      ∀ worker, run.workerId = some worker → last.workerId = some worker

theorem stateIndexExact_iff (h : Indexed runs w) (label : String) :
    StateIndexExact runs w label ↔ ∀ id, (∃ run ∈ runs, run.id = id ∧ run.state.label = label) ↔
      ∃ run, latest runs id = some run ∧ run.state.label = label := by
  obtain ⟨hnodup, hmem⟩ := runIds_of_scan (fun _ => rfl) (scan_state h label)
  constructor
  · rintro ⟨ids, hids, -, hexact⟩ id
    obtain rfl : (w.scan (Key.indexStatePrefix label)).filterMap runIdOf = ids :=
      Except.ok.inj hids
    rw [← hmem, hexact]
  · exact fun hexact => ⟨_, rfl, hnodup, fun id => (hmem id).trans (hexact id)⟩

theorem workerIndexExact_iff (h : Indexed runs w) (workerId : WorkerId)
    (hcolon : ∀ run ∈ runs, ∀ worker, run.workerId = some worker → ':' ∉ worker.toList) :
    WorkerIndexExact runs w workerId ↔
      ∀ id, (∃ run ∈ runs, run.id = id ∧ run.workerId = some workerId) ↔
        ∃ run, latest runs id = some run ∧ run.workerId = some workerId := by
  obtain ⟨hnodup, hmem⟩ := runIds_of_scan (fun _ => rfl) (scan_worker h workerId hcolon)
  constructor
  · rintro ⟨ids, hids, -, hexact⟩ id
    obtain rfl : (w.scan (Key.indexWorkerPrefix workerId)).filterMap runIdOf = ids :=
      Except.ok.inj hids
    rw [← hmem, hexact]
  · exact fun hexact => ⟨_, rfl, hnodup, fun id => (hmem id).trans (hexact id)⟩

/-- **The indexes agree with the latest saves exactly when no run changed its
label or its worker.** -/
theorem indexes_exact_iff (runs : List WorkflowRun) (now : Instant)
    (hcolon : ∀ run ∈ runs, ∀ worker, run.workerId = some worker → ':' ∉ worker.toList) :
    ((∀ label, StateIndexExact runs (saveAll runs (World.initial now)) label) ∧
      ∀ workerId, WorkerIndexExact runs (saveAll runs (World.initial now)) workerId) ↔
    Steady runs := by
  have h := indexed_saveAll runs now
  simp only [stateIndexExact_iff h, workerIndexExact_iff h _ hcolon]
  constructor
  · rintro ⟨hstate, hworker⟩ run hmem last hlast
    constructor
    · obtain ⟨r, hr, hlabel⟩ := (hstate run.state.label run.id).mp ⟨run, hmem, rfl, rfl⟩
      obtain rfl : last = r := Option.some.inj (hlast.symm.trans hr)
      exact hlabel.symm
    · intro worker hw
      obtain ⟨r, hr, hrw⟩ := (hworker worker run.id).mp ⟨run, hmem, rfl, hw⟩
      obtain rfl : last = r := Option.some.inj (hlast.symm.trans hr)
      exact hrw
  · intro hsteady
    refine ⟨fun label id => ⟨?_, ?_⟩, fun worker id => ⟨?_, ?_⟩⟩
    · rintro ⟨run, hmem, rfl, rfl⟩
      obtain ⟨last, hlast⟩ := exists_latest hmem
      exact ⟨last, hlast, (hsteady run hmem last hlast).1.symm⟩
    · rintro ⟨last, hlast, hlabel⟩
      exact ⟨last, (latest_mem hlast).1, (latest_mem hlast).2, hlabel⟩
    · rintro ⟨run, hmem, rfl, hw⟩
      obtain ⟨last, hlast⟩ := exists_latest hmem
      exact ⟨last, hlast, (hsteady run hmem last hlast).2 worker hw⟩
    · rintro ⟨last, hlast, hw⟩
      exact ⟨last, (latest_mem hlast).1, (latest_mem hlast).2, hw⟩

/-! ### A run that completes -/

/-- A run in the given state. -/
def sample (state : RunState) (workerId : Option WorkerId) : WorkflowRun :=
  { WorkflowRun.new (freshRunId []) 0 (.a2aTask "t") .none with
    state := state
    workerId := workerId }

theorem indexes_exact_iff_running :
    (∀ label, StateIndexExact [sample (.running "w") (some "w")]
      (saveAll [sample (.running "w") (some "w")] (World.initial 0)) label) ∧
    ∀ workerId, WorkerIndexExact [sample (.running "w") (some "w")]
      (saveAll [sample (.running "w") (some "w")] (World.initial 0)) workerId := by
  refine (indexes_exact_iff _ 0 ?_).mpr ?_
  · intro run hmem worker hworker
    obtain rfl := List.mem_singleton.mp hmem
    obtain rfl : "w" = worker := Option.some.inj hworker
    decide
  · intro run hmem last hlast
    obtain rfl := List.mem_singleton.mp hmem
    obtain rfl : sample (.running "w") (some "w") = last := Option.some.inj hlast
    exact ⟨rfl, fun _ => id⟩

/-- **A completed run is still listed as running.** -/
theorem stale_state_index :
    ¬ StateIndexExact [sample (.running "w") (some "w"), sample (.completed .null) (some "w")]
      (saveAll [sample (.running "w") (some "w"), sample (.completed .null) (some "w")]
        (World.initial 0)) "running" := by
  rw [stateIndexExact_iff (indexed_saveAll _ 0)]
  intro h
  obtain ⟨r, hr, hlabel⟩ :=
    (h (freshRunId [])).mp ⟨sample (.running "w") (some "w"), by simp, rfl, rfl⟩
  obtain rfl : sample (.completed .null) (some "w") = r := Option.some.inj hr
  exact absurd hlabel (by decide)

end ClawDesk.Runtime.RunIndex
