import Mathlib.Data.List.AList
import Mathlib.Data.List.Perm.Basic
import Mathlib.Data.List.Sort
import Mathlib.Data.Multiset.Count

/-!
# The lane of a session

Each session has a lane, the mutex that its runs have to lock.  `acquire` first evicts idle
lanes, looks its own lane up, takes a reference to the mutex and waits for it; when the
watchdog fires it makes a new lane instead.  `gc` drops the lanes whose mutex nobody refers to.

Tasks are numbered, and an action is what one of them does between two points at which another
can run.  An action that a task cannot take leaves everything as it is.
-/

namespace ClawDesk.Agents.SessionLane

/-- The address of a lane's entry, and so of its mutex. -/
abbrev LaneId := ℕ

/-- The settings of a manager, with times in milliseconds; its map is in `Lanes`. -/
structure SessionLaneManager where
  watchdogTimeout : ℕ
  maxLanes : ℕ

namespace SessionLaneManager

/-- Create a manager with custom timeout and capacity. -/
def withCapacity (timeoutDur maxLanes : ℕ) : SessionLaneManager := ⟨timeoutDur, maxLanes⟩

/-- Create a manager with a custom watchdog timeout. -/
def withTimeout (timeoutDur : ℕ) : SessionLaneManager := ⟨timeoutDur, 10000⟩

def new : SessionLaneManager := withTimeout (300 * 1000)

end SessionLaneManager

/-- What the tasks share: the map, the entries, and the clock of the timers. -/
structure Lanes where
  lanes : AList fun _ : String => LaneId
  lastAccess : LaneId → ℕ
  nextLane : LaneId
  now : ℕ

namespace Lanes

/-- Nothing is there yet. -/
def new : Lanes := ⟨∅, fun _ => 0, 0, 0⟩

/-- `LaneEntry::new`, at the time of the wall clock. -/
def newLane (ln : Lanes) (epochMs : ℕ) : Lanes :=
  { ln with lastAccess := Function.update ln.lastAccess ln.nextLane epochMs
            nextLane := ln.nextLane + 1 }

/-- `LaneEntry::touch`. -/
def touch (ln : Lanes) (lane : LaneId) (epochMs : ℕ) : Lanes :=
  { ln with lastAccess := Function.update ln.lastAccess lane epochMs }

def insert (ln : Lanes) (sessionId : String) (lane : LaneId) : Lanes :=
  { ln with lanes := ln.lanes.insert sessionId lane }

def remove (ln : Lanes) (sessionId : String) : Lanes :=
  { ln with lanes := ln.lanes.erase sessionId }

def laneCount (ln : Lanes) : ℕ := ln.lanes.entries.length

/-- `entry(session_id).or_insert_with(LaneEntry::new)`, under the lock of its shard. -/
def entry (ln : Lanes) (sessionId : String) (epochMs : ℕ) : LaneId × Lanes :=
  match ln.lanes.lookup sessionId with
  | some lane => (lane, ln)
  | none => (ln.nextLane, (ln.newLane epochMs).insert sessionId ln.nextLane)

def pass (ln : Lanes) (ms : ℕ) : Lanes := { ln with now := ln.now + ms }

end Lanes

/-- Where a task is: in `acquire`, with a live guard, or in `gc`. -/
inductive Task where
  /-- `acquire` is called. -/
  | acquiring (sessionId : String)
  /-- `maybe_evict` goes through the map, and has seen some sessions. -/
  | scanning (sessionId : String) (excess : ℕ) (seen : List String)
      (candidates : List (String × ℕ))
  /-- …has still to remove these. -/
  | evicting (sessionId : String) (rest : List String)
  /-- `acquire` has the entry. -/
  | entered (sessionId : String) (lane : LaneId)
  | touched (sessionId : String) (lane : LaneId)
  /-- …has a reference to the mutex. -/
  | cloned (sessionId : String) (lane : LaneId)
  /-- …waits for it, until the deadline. -/
  | waiting (sessionId : String) (lane : LaneId) (deadline : ℕ)
  /-- The watchdog has fired, and the reference goes next. -/
  | abandoning (sessionId : String) (lane : LaneId)
  /-- …has locked a new lane, which is not in the map yet. -/
  | installing (sessionId : String) (lane : LaneId)
  /-- The guard is live. -/
  | guarded (sessionId : String) (lane : LaneId) (since : ℕ)
  /-- The guard is dropped, or `acquire` was cancelled; the reference goes next. -/
  | dropping (sessionId : String) (lane : LaneId)
  | released
  /-- `gc` goes through the map. -/
  | collecting (before : ℕ)
  /-- …has returned; `none` if the subtraction overflows. -/
  | collected (removed : Option ℕ)

namespace Task

/-- The task has a strong reference to the mutex, besides that of the entry. -/
def refersTo (lane : LaneId) : Task → Bool
  | cloned _ lane' | waiting _ lane' _ | abandoning _ lane' | installing _ lane'
  | guarded _ lane' _ | dropping _ lane' => decide (lane' = lane)
  | _ => false

/-- The task has locked the mutex. -/
def locks (lane : LaneId) : Task → Bool
  | installing _ lane' | guarded _ lane' _ => decide (lane' = lane)
  | _ => false

end Task

/-- What a task does next, where there is a choice. -/
inductive Choice where
  | next
  /-- The iteration over the map comes to this session. -/
  | visit (sessionId : String)
  /-- The watchdog fires. -/
  | fire
  /-- The future of `acquire` is dropped. -/
  | cancel

/-- The lanes and all tasks. -/
structure State where
  lanes : Lanes
  tasks : List Task

namespace State

def new : State := ⟨.new, []⟩

def strongCount (st : State) (lane : LaneId) : ℕ := st.tasks.countP (·.refersTo lane) + 1

/-- Only the entry refers to the mutex. -/
def idle (st : State) (lane : LaneId) : Bool := decide (st.strongCount lane ≤ 1)

def locked (st : State) (lane : LaneId) : Bool := st.tasks.any (·.locks lane)

end State

/-- The sessions to evict: the oldest candidates, as many as are too many. -/
def oldest (excess : ℕ) (candidates : List (String × ℕ)) : List String :=
  ((candidates.insertionSort fun a b => a.2 ≤ b.2).take (min candidates.length excess)).map (·.1)

/-- What a task does to the lanes, and where it is then; `none` where it has no such choice.
The mutex goes to any task that waits for it, also after its deadline. -/
def State.advance (m : SessionLaneManager) (st : State) (epochMs : ℕ) :
    Task → Choice → Option (Lanes × Task)
  | .acquiring s, .next =>
      if st.lanes.laneCount ≤ m.maxLanes then some (st.lanes, .evicting s [])
      else some (st.lanes, .scanning s (st.lanes.laneCount - m.maxLanes) [] [])
  -- an entry that is inserted behind the iteration is not seen
  | .scanning s excess seen candidates, .visit k =>
      if k ∈ seen then none
      else (st.lanes.lanes.lookup k).map fun lane =>
        (st.lanes, .scanning s excess (k :: seen)
          (if st.idle lane then candidates ++ [(k, st.lanes.lastAccess lane)] else candidates))
  | .scanning s excess _ candidates, .next =>
      some (st.lanes, .evicting s (oldest excess candidates))
  | .evicting s (k :: rest), .next => some (st.lanes.remove k, .evicting s rest)
  | .evicting s [], .next =>
      some ((st.lanes.entry s epochMs).2, .entered s (st.lanes.entry s epochMs).1)
  | .entered s lane, .next => some (st.lanes.touch lane epochMs, .touched s lane)
  | .touched s lane, .next => some (st.lanes, .cloned s lane)
  | .cloned s lane, .next =>
      some (st.lanes, .waiting s lane (st.lanes.now + m.watchdogTimeout))
  | .waiting s lane _, .next =>
      if st.locked lane then none else some (st.lanes, .guarded s lane st.lanes.now)
  | .waiting s lane deadline, .fire =>
      if deadline ≤ st.lanes.now then some (st.lanes, .abandoning s lane) else none
  | .waiting s lane _, .cancel => some (st.lanes, .dropping s lane)
  | .abandoning s _, .next =>
      some (st.lanes.newLane epochMs, .installing s st.lanes.nextLane)
  | .installing s lane, .next => some (st.lanes.insert s lane, .guarded s lane st.lanes.now)
  | .installing s lane, .cancel => some (st.lanes, .dropping s lane)
  | .guarded s lane _, .next => some (st.lanes, .dropping s lane)
  | .dropping _ _, .next => some (st.lanes, .released)
  -- the shards are locked one by one, so other tasks run between two entries
  | .collecting before, .visit k =>
      (st.lanes.lanes.lookup k).map fun lane =>
        (if 1 < st.strongCount lane then st.lanes else st.lanes.remove k, .collecting before)
  | .collecting before, .next =>
      some (st.lanes, .collected
        (if st.lanes.laneCount ≤ before then some (before - st.lanes.laneCount) else none))
  | _, _ => none

/-- What happens next. -/
inductive Action where
  | acquire (sessionId : String)
  | gc
  | pass (ms : ℕ)
  /-- A task advances, at some time of the wall clock. -/
  | advance (task : ℕ) (choice : Choice) (epochMs : ℕ)

def State.perform (m : SessionLaneManager) (st : State) : Action → Option State
  | .acquire s => some ⟨st.lanes, st.tasks ++ [.acquiring s]⟩
  | .gc => some ⟨st.lanes, st.tasks ++ [.collecting st.lanes.laneCount]⟩
  | .pass ms => some ⟨st.lanes.pass ms, st.tasks⟩
  | .advance i choice epochMs =>
      st.tasks[i]?.bind fun task => (st.advance m epochMs task choice).map
        fun (lanes, task') => ⟨lanes, st.tasks.set i task'⟩

def State.step (m : SessionLaneManager) (st : State) (a : Action) : State :=
  (st.perform m a).getD st

/-! ### Lanes and their tasks -/

namespace Lanes

variable {ln : Lanes} {sessionId s : String} {lane : LaneId} {epochMs ms : ℕ}

theorem lookup_insert (hs : s ≠ sessionId) :
    (ln.insert sessionId lane).lanes.lookup s = ln.lanes.lookup s := AList.lookup_insert_ne hs

@[simp] theorem lookup_insert_self :
    (ln.insert sessionId lane).lanes.lookup sessionId = some lane := AList.lookup_insert _

theorem lookup_remove (hs : s ≠ sessionId) :
    (ln.remove sessionId).lanes.lookup s = ln.lanes.lookup s := AList.lookup_erase_ne hs

@[simp] theorem lookup_remove_self : (ln.remove sessionId).lanes.lookup sessionId = none :=
  AList.lookup_erase ..

end Lanes

namespace Task

/-- The lane that a task has looked up or made, and the session it is for. -/
def lane? : Task → Option (String × LaneId)
  | entered s lane | touched s lane | cloned s lane | waiting s lane _ | abandoning s lane
  | installing s lane | guarded s lane _ | dropping s lane => some (s, lane)
  | _ => none

/-- The task stands between its lookup and its reference to the mutex. -/
def enters (sessionId : String) : Task → Bool
  | entered s _ | touched s _ => decide (s = sessionId)
  | _ => false

/-- The task is a live guard that is not hung. -/
def runs (m : SessionLaneManager) (now : ℕ) (sessionId : String) : Task → Bool
  | guarded s _ since => decide (s = sessionId ∧ now < since + m.watchdogTimeout)
  | _ => false

/-- The task is about to wait for the lane of the session, waits for it, or is a live guard
that is not hung. -/
def needs (m : SessionLaneManager) (now : ℕ) (sessionId : String) : Task → Bool
  | entered s _ | touched s _ | cloned s _ | waiting s _ _ => decide (s = sessionId)
  | guarded s _ since => decide (s = sessionId ∧ now < since + m.watchdogTimeout)
  | _ => false

variable {m : SessionLaneManager} {now ms : ℕ} {s : String} {lane : LaneId} {task : Task}

theorem lane?_of_locks (h : task.locks lane = true) : ∃ s, task.lane? = some (s, lane) := by
  cases task <;> simp_all [locks, lane?]

theorem lane?_of_needs (h : task.needs m now s = true) : ∃ lane, task.lane? = some (s, lane) := by
  cases task <;> simp_all [needs, lane?]

theorem needs_of_runs (h : task.runs m now s = true) : task.needs m now s = true := by
  cases task <;> simp_all [needs, runs]

theorem locks_of_runs (h : task.runs m now s = true) (hlane : task.lane? = some (s, lane)) :
    task.locks lane = true := by
  cases task <;> simp_all [locks, runs, lane?]

/-- A run that is hung remains so. -/
theorem needs_of_needs_add (h : task.needs m (now + ms) s = true) : task.needs m now s = true := by
  cases task with
  | guarded s' lane since =>
      simp only [needs, decide_eq_true_eq] at h ⊢
      exact ⟨h.1, by omega⟩
  | _ => exact h

/-- Whoever has a lane, and no reference to its mutex, is about to take one. -/
theorem enters_of_lane? (hlane : task.lane? = some (s, lane)) (h : task.refersTo lane = false) :
    task.enters s = true := by
  cases task <;> simp_all [enters, refersTo, lane?]

end Task

end ClawDesk.Agents.SessionLane
