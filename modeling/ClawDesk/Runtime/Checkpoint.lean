import ClawDesk.Runtime.Store

/-!
# The checkpoint store

Run records, the secondary indexes over them, and the one checkpoint a run has.
A later save overwrites an earlier one.
-/

namespace ClawDesk.Runtime.CheckpointStore

open Foundations

/-- Save a checkpoint for a run, over any previous one. -/
def saveCheckpoint (runId : RunId) (checkpoint : Checkpoint) : Proc (Except RuntimeError Unit) :=
  (putEntry (.checkpoint runId) checkpoint).andThen fun _ => .ret (.ok ())

/-- Load the latest checkpoint for a run. -/
def loadCheckpoint (runId : RunId) : Proc (Except RuntimeError (Option Checkpoint)) :=
  getEntry (.checkpoint runId)

/-- Persist a run: the record, its state index entry, and its worker index entry
if it has a worker. -/
def saveRun (run : WorkflowRun) : Proc (Except RuntimeError Unit) :=
  (putEntry (.run run.id) run).andThen fun _ =>
    (putEntry (.indexState run.state.label run.id) run.id).andThen fun _ =>
      match run.workerId with
      | some workerId =>
          (putEntry (.indexWorker workerId run.id) run.id).andThen fun _ => .ret (.ok ())
      | none => .ret (.ok ())

/-- Load a run by id. -/
def loadRun (runId : RunId) : Proc (Except RuntimeError (Option WorkflowRun)) :=
  getEntry (.run runId)

/-- The run id stored in an index entry. -/
def runIdOf : Sigma Key.Val → Option RunId
  | ⟨.indexState _ _, id⟩ => some id
  | ⟨.indexWorker _ _, id⟩ => some id
  | _ => none

/-- Load all runs in a given state. -/
def loadRunsByState (stateLabel : String) : Proc (Except RuntimeError (List RunId)) :=
  (scanEntries (Key.indexStatePrefix stateLabel)).andThen fun entries =>
    .ret (.ok (entries.filterMap runIdOf))

/-- Load all runs owned by a specific worker. -/
def loadRunsByWorker (workerId : WorkerId) : Proc (Except RuntimeError (List RunId)) :=
  (scanEntries (Key.indexWorkerPrefix workerId)).andThen fun entries =>
    .ret (.ok (entries.filterMap runIdOf))

/-! ### What a save touches -/

/-- The operations on the secondary indexes. -/
def OnIndex : Op → Prop
  | .put (.indexState _ _) _ => True
  | .put (.indexWorker _ _) _ => True
  | _ => False

/-- After the record, a save writes index entries only. -/
theorem indexes_asks (run : WorkflowRun) :
    ((putEntry (.indexState run.state.label run.id) run.id).andThen fun _ =>
      match run.workerId with
      | some workerId =>
          (putEntry (.indexWorker workerId run.id) run.id).andThen fun _ => .ret (.ok ())
      | none => (.ret (.ok ()) : Proc (Except RuntimeError Unit))).Asks OnIndex := by
  refine .andThen (.ask trivial fun _ => trivial) fun _ => ?_
  cases run.workerId with
  | none => trivial
  | some workerId => exact .andThen (.ask trivial fun _ => trivial) fun _ => trivial

end ClawDesk.Runtime.CheckpointStore
