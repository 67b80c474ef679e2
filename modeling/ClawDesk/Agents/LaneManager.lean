import ClawDesk.Agents.TransactionalLane
import Mathlib.Data.List.AList
import Mathlib.Data.Multiset.AddSub
import Mathlib.Logic.Relation

/-!
# The lanes of the sessions

`acquire` looks up the mutex of a session, or makes one, and takes a reference to
it under the lock of the map; it then waits for that mutex without holding the
map.  `gc` takes the lock of the map and drops every mutex of which the map holds
the only reference.  Tasks are anonymous, and a step is what one of them does
between two points at which another can run.

A reference to a mutex keeps its lane in the map (`Inv.lane`), because it is
counted (`Inv.counted`); so all references of one session are to one mutex, and
its lock is exclusive (`guard_unique`).
-/

namespace ClawDesk.Agents

/-- The address of a mutex. -/
abbrev MutexId := ℕ

/-- What the tasks share: the map and its lock, and for every mutex its count of
strong references and whether it is locked. -/
structure TransactionalLaneManager where
  lanes : AList fun _ : String => MutexId
  lanesLocked : Bool
  nextMutex : MutexId
  strongCount : MutexId → ℕ
  locked : MutexId → Bool

namespace TransactionalLaneManager

/-- Create a new transactional lane manager. -/
def new : TransactionalLaneManager where
  lanes := ∅
  lanesLocked := false
  nextMutex := 0
  strongCount := fun _ => 0
  locked := fun _ => false

/-- `Arc::new(Mutex::new(()))`, inserted under the session. -/
def insertLane (lm : TransactionalLaneManager) (sessionId : String) : TransactionalLaneManager :=
  { lm with
    lanes := lm.lanes.insert sessionId lm.nextMutex
    nextMutex := lm.nextMutex + 1
    strongCount := Function.update lm.strongCount lm.nextMutex 1
    locked := Function.update lm.locked lm.nextMutex false }

/-- `Arc::clone`. -/
def cloneArc (lm : TransactionalLaneManager) (mutex : MutexId) : TransactionalLaneManager :=
  { lm with strongCount := Function.update lm.strongCount mutex (lm.strongCount mutex + 1) }

/-- A reference goes out of scope. -/
def dropArc (lm : TransactionalLaneManager) (mutex : MutexId) : TransactionalLaneManager :=
  { lm with strongCount := Function.update lm.strongCount mutex (lm.strongCount mutex - 1) }

/-- The mutex of a session, made if it is missing. -/
def lane (lm : TransactionalLaneManager) (sessionId : String) :
    MutexId × TransactionalLaneManager :=
  match lm.lanes.lookup sessionId with
  | some mutex => (mutex, lm)
  | none => (lm.nextMutex, lm.insertLane sessionId)

/-- The part of `acquire` under the lock of the map. -/
def cloneLane (lm : TransactionalLaneManager) (sessionId : String) :
    MutexId × TransactionalLaneManager :=
  let (mutex, lm) := lm.lane sessionId
  (mutex, lm.cloneArc mutex)

/-- The test of `gc`. -/
def retains (lm : TransactionalLaneManager) (mutex : MutexId) : Bool :=
  decide (1 < lm.strongCount mutex)

/-- An entry that `gc` does not retain. -/
def removeLane (lm : TransactionalLaneManager) (sessionId : String) (mutex : MutexId) :
    TransactionalLaneManager :=
  { lm.dropArc mutex with lanes := lm.lanes.erase sessionId }

def setLanesLocked (lm : TransactionalLaneManager) (locked : Bool) : TransactionalLaneManager :=
  { lm with lanesLocked := locked }

def setLocked (lm : TransactionalLaneManager) (mutex : MutexId) (locked : Bool) :
    TransactionalLaneManager :=
  { lm with locked := Function.update lm.locked mutex locked }

end TransactionalLaneManager

/-- Where a task is. -/
inductive LaneTask where
  /-- `acquire` waits for the lock of the map. -/
  | acquiring (sessionId : String)
  /-- …has it. -/
  | looking (sessionId : String)
  /-- …waits for the mutex of the session, under the watchdog. -/
  | waiting (sessionId : String) (mutex : MutexId)
  /-- …has returned a guard, which is alive. -/
  | guarded (sessionId : String) (mutex : MutexId)
  /-- The mutex is unlocked, or no longer waited for; its reference goes next. -/
  | dropping (sessionId : String) (mutex : MutexId)
  /-- The same after the watchdog has fired. -/
  | abandoning (sessionId : String) (mutex : MutexId)
  | failed (e : TransactionalLaneError)
  /-- `gc` waits for the lock of the map. -/
  | collecting
  /-- …has it, and these entries are still to be looked at. -/
  | retaining (before : ℕ) (rest : List (String × MutexId))
  /-- …has returned. -/
  | collected (n : ℕ)

/-- The manager and its tasks. -/
structure LaneState where
  manager : TransactionalLaneManager
  tasks : Multiset LaneTask

namespace LaneState

open TransactionalLaneManager

/-- What the tasks do. -/
inductive Step : LaneState → LaneState → Prop
  | acquire {lm tasks} (sessionId : String) :
      Step ⟨lm, tasks⟩ ⟨lm, .acquiring sessionId ::ₘ tasks⟩
  | enter {lm : TransactionalLaneManager} {tasks sessionId} (free : lm.lanesLocked = false) :
      Step ⟨lm, .acquiring sessionId ::ₘ tasks⟩
        ⟨lm.setLanesLocked true, .looking sessionId ::ₘ tasks⟩
  | look {lm : TransactionalLaneManager} {tasks sessionId} :
      Step ⟨lm, .looking sessionId ::ₘ tasks⟩
        ⟨(lm.cloneLane sessionId).2.setLanesLocked false,
          .waiting sessionId (lm.cloneLane sessionId).1 ::ₘ tasks⟩
  | lock {lm : TransactionalLaneManager} {tasks sessionId mutex}
      (free : lm.locked mutex = false) :
      Step ⟨lm, .waiting sessionId mutex ::ₘ tasks⟩
        ⟨lm.setLocked mutex true, .guarded sessionId mutex ::ₘ tasks⟩
  /-- The watchdog fires. -/
  | timeout {lm tasks sessionId mutex} :
      Step ⟨lm, .waiting sessionId mutex ::ₘ tasks⟩ ⟨lm, .abandoning sessionId mutex ::ₘ tasks⟩
  | fail {lm : TransactionalLaneManager} {tasks sessionId mutex} :
      Step ⟨lm, .abandoning sessionId mutex ::ₘ tasks⟩
        ⟨lm.dropArc mutex, .failed (.watchdogTimeout sessionId) ::ₘ tasks⟩
  /-- The caller of `acquire` gives up: it waits for the map, or for the mutex. -/
  | cancelEntry {lm tasks sessionId} : Step ⟨lm, .acquiring sessionId ::ₘ tasks⟩ ⟨lm, tasks⟩
  | cancel {lm tasks sessionId mutex} :
      Step ⟨lm, .waiting sessionId mutex ::ₘ tasks⟩ ⟨lm, .dropping sessionId mutex ::ₘ tasks⟩
  /-- The guard is dropped, which unlocks the mutex first. -/
  | unlock {lm : TransactionalLaneManager} {tasks sessionId mutex} :
      Step ⟨lm, .guarded sessionId mutex ::ₘ tasks⟩
        ⟨lm.setLocked mutex false, .dropping sessionId mutex ::ₘ tasks⟩
  | drop {lm : TransactionalLaneManager} {tasks sessionId mutex} :
      Step ⟨lm, .dropping sessionId mutex ::ₘ tasks⟩ ⟨lm.dropArc mutex, tasks⟩
  | gc {lm tasks} : Step ⟨lm, tasks⟩ ⟨lm, .collecting ::ₘ tasks⟩
  | collect {lm : TransactionalLaneManager} {tasks} (free : lm.lanesLocked = false) :
      Step ⟨lm, .collecting ::ₘ tasks⟩
        ⟨lm.setLanesLocked true,
          .retaining lm.lanes.entries.length (lm.lanes.entries.map fun e => (e.1, e.2)) ::ₘ tasks⟩
  | retain {lm : TransactionalLaneManager} {tasks before sessionId mutex rest}
      (used : lm.retains mutex = true) :
      Step ⟨lm, .retaining before ((sessionId, mutex) :: rest) ::ₘ tasks⟩
        ⟨lm, .retaining before rest ::ₘ tasks⟩
  | remove {lm : TransactionalLaneManager} {tasks before sessionId mutex rest}
      (idle : lm.retains mutex = false) :
      Step ⟨lm, .retaining before ((sessionId, mutex) :: rest) ::ₘ tasks⟩
        ⟨lm.removeLane sessionId mutex, .retaining before rest ::ₘ tasks⟩
  | done {lm : TransactionalLaneManager} {tasks before} :
      Step ⟨lm, .retaining before [] ::ₘ tasks⟩
        ⟨lm.setLanesLocked false, .collected (before - lm.lanes.entries.length) ::ₘ tasks⟩

/-- The states a new manager can get into. -/
def Reachable : LaneState → Prop := Relation.ReflTransGen Step ⟨.new, 0⟩

end LaneState

/-! ### What a task holds -/

namespace LaneTask

/-- The reference a task holds, and the session it took it for. -/
def lane? : LaneTask → Option (String × MutexId)
  | waiting sessionId mutex | guarded sessionId mutex | dropping sessionId mutex
  | abandoning sessionId mutex => some (sessionId, mutex)
  | _ => none

/-- The task holds a reference to the mutex. -/
def refersTo (mutex : MutexId) : LaneTask → Bool
  | waiting _ mutex' | guarded _ mutex' | dropping _ mutex' | abandoning _ mutex' =>
      decide (mutex' = mutex)
  | _ => false

/-- The task is a live guard, which has locked the mutex. -/
def locks (mutex : MutexId) : LaneTask → Bool
  | guarded _ mutex' => decide (mutex' = mutex)
  | _ => false

/-- The task is a live guard of the session. -/
def guards (sessionId : String) : LaneTask → Bool
  | guarded sessionId' _ => decide (sessionId' = sessionId)
  | _ => false

/-- The task holds the lock of the map. -/
def ownsLanes : LaneTask → Bool
  | looking _ => true
  | retaining _ _ => true
  | _ => false

theorem refersTo_iff {task : LaneTask} {mutex : MutexId} :
    task.refersTo mutex = true ↔ ∃ sessionId, task.lane? = some (sessionId, mutex) := by
  cases task <;> simp [refersTo, lane?]

theorem countP_singleton (p : LaneTask → Bool) (task : LaneTask) :
    ({task} : Multiset LaneTask).countP (fun t => p t = true) = (p task).toNat := by
  rw [← Multiset.cons_zero, Multiset.countP_cons, Multiset.countP_zero]
  cases p task <;> rfl

end LaneTask

namespace LaneState

open TransactionalLaneManager LaneTask

variable {lm lm' : TransactionalLaneManager} {old new tasks : Multiset LaneTask}
  {sessionId : String} {mutex : MutexId}

/-! ### The invariant -/

/-- Every reference is to the mutex that the map has for its session, and is counted;
the two kinds of locks are exclusive. -/
structure Inv (st : LaneState) : Prop where
  injective : ∀ {sid sid' m}, st.manager.lanes.lookup sid = some m →
    st.manager.lanes.lookup sid' = some m → sid = sid'
  fresh : ∀ {sid m}, st.manager.lanes.lookup sid = some m → m < st.manager.nextMutex
  lane : ∀ task ∈ st.tasks, ∀ {sid m}, task.lane? = some (sid, m) →
    st.manager.lanes.lookup sid = some m
  counted : ∀ {sid m}, st.manager.lanes.lookup sid = some m →
    st.manager.strongCount m = st.tasks.countP (·.refersTo m) + 1
  exclusive : ∀ m, st.tasks.countP (·.locks m) = (st.manager.locked m).toNat
  owner : st.tasks.countP (·.ownsLanes) = st.manager.lanesLocked.toNat
  pending : ∀ {before rest}, .retaining before rest ∈ st.tasks →
    (∀ e ∈ rest, st.manager.lanes.lookup e.1 = some e.2) ∧ (rest.map Prod.fst).Nodup

theorem inv_new : Inv ⟨.new, 0⟩ := by
  constructor <;> simp [TransactionalLaneManager.new]

/-- Some tasks change, and the map does not: the counts must change with them. -/
theorem Inv.replace {ts ts' : Multiset LaneTask} (h : Inv ⟨lm, ts⟩) (hold : ts = old + tasks)
    (hnew : ts' = new + tasks) (hlanes : lm'.lanes = lm.lanes)
    (hnext : lm'.nextMutex = lm.nextMutex)
    (hlane : ∀ task ∈ new, ∀ {sid m}, task.lane? = some (sid, m) →
      lm.lanes.lookup sid = some m)
    (hcounted : ∀ m, old.countP (·.refersTo m) < lm.strongCount m →
      lm'.strongCount m + old.countP (·.refersTo m) =
        lm.strongCount m + new.countP (·.refersTo m))
    (hexclusive : ∀ m, (lm'.locked m).toNat + old.countP (·.locks m) =
      (lm.locked m).toNat + new.countP (·.locks m))
    (howner : lm'.lanesLocked.toNat + old.countP (·.ownsLanes) =
      lm.lanesLocked.toNat + new.countP (·.ownsLanes))
    (hpending : ∀ {before rest}, .retaining before rest ∈ new →
      (∀ e ∈ rest, lm.lanes.lookup e.1 = some e.2) ∧ (rest.map Prod.fst).Nodup) :
    Inv ⟨lm', ts'⟩ := by
  subst hold hnew
  constructor
  · exact fun hs hs' => h.injective (hlanes ▸ hs) (hlanes ▸ hs')
  · intro sid m hs
    show m < lm'.nextMutex
    rw [hnext]
    exact h.fresh (hlanes ▸ hs)
  · intro task htask sid m hm
    show lm'.lanes.lookup sid = some m
    rw [hlanes]
    rcases Multiset.mem_add.mp htask with hnew | hold
    · exact hlane task hnew hm
    · exact h.lane task (Multiset.mem_add.mpr (.inr hold)) hm
  · intro sid m hs
    have hm := h.counted (hlanes ▸ hs)
    simp only [Multiset.countP_add] at hm ⊢
    have := hcounted m (by omega)
    omega
  · intro m
    have hm := h.exclusive m
    have := hexclusive m
    simp only [Multiset.countP_add] at hm ⊢
    omega
  · have hm := h.owner
    simp only [Multiset.countP_add] at hm ⊢
    omega
  · intro before rest hmem
    show (∀ e ∈ rest, lm'.lanes.lookup e.1 = some e.2) ∧ _
    rw [hlanes]
    rcases Multiset.mem_add.mp hmem with hnew | hold
    · exact hpending hnew
    · exact h.pending (Multiset.mem_add.mpr (.inr hold))

/-- A new lane is referred to by the map only. -/
theorem Inv.insertLane (h : Inv ⟨lm, tasks⟩) (hnone : lm.lanes.lookup sessionId = none) :
    Inv ⟨lm.insertLane sessionId, tasks⟩ := by
  have hlookup {sid m} (hs : (lm.lanes.insert sessionId lm.nextMutex).lookup sid = some m) :
      (sid = sessionId ∧ m = lm.nextMutex) ∨ lm.lanes.lookup sid = some m := by
    by_cases hsid : sid = sessionId
    · subst hsid
      rw [AList.lookup_insert] at hs
      exact .inl ⟨rfl, (Option.some.inj hs).symm⟩
    · rw [AList.lookup_insert_ne hsid] at hs
      exact .inr hs
  have hold {sid m} (hs : lm.lanes.lookup sid = some m) :
      (lm.lanes.insert sessionId lm.nextMutex).lookup sid = some m := by
    rwa [AList.lookup_insert_ne]
    rintro rfl
    rw [hnone] at hs
    cases hs
  have hunused : ∀ task ∈ tasks, ∀ {sid}, task.lane? ≠ some (sid, lm.nextMutex) :=
    fun task htask sid hlane => lt_irrefl _ (h.fresh (h.lane task htask hlane))
  constructor
  · intro sid sid' m hs hs'
    rcases hlookup hs with ⟨rfl, rfl⟩ | hin <;> rcases hlookup hs' with ⟨rfl, hm⟩ | hin'
    · rfl
    · exact absurd (h.fresh hin') (lt_irrefl _)
    · subst hm
      exact absurd (h.fresh hin) (lt_irrefl _)
    · exact h.injective hin hin'
  · intro sid m hs
    show m < lm.nextMutex + 1
    rcases hlookup hs with ⟨rfl, rfl⟩ | hs
    · exact Nat.lt_succ_self _
    · exact Nat.lt_succ_of_lt (h.fresh hs)
  · exact fun task htask sid m hm => hold (h.lane task htask hm)
  · intro sid m hs
    show Function.update lm.strongCount lm.nextMutex 1 m = _
    rcases hlookup hs with ⟨rfl, rfl⟩ | hs
    · rw [Function.update_self, Multiset.countP_eq_zero.mpr]
      intro task htask href
      obtain ⟨sid, hlane⟩ := refersTo_iff.mp href
      exact hunused task htask hlane
    · rw [Function.update_of_ne (h.fresh hs).ne]
      exact h.counted hs
  · intro m
    show _ = (Function.update lm.locked lm.nextMutex false m).toNat
    by_cases hm : m = lm.nextMutex
    · subst hm
      rw [Function.update_self, Bool.toNat_false, Multiset.countP_eq_zero]
      intro task htask hlocks
      cases task with
      | guarded sid m =>
          obtain rfl : m = lm.nextMutex := of_decide_eq_true hlocks
          exact hunused _ htask rfl
      | _ => cases hlocks
    · rw [Function.update_of_ne hm]
      exact h.exclusive m
  · exact h.owner
  · intro before rest hmem
    obtain ⟨hrest, hnodup⟩ := h.pending hmem
    exact ⟨fun e he => hold (hrest e he), hnodup⟩

/-- Whoever owns the map has locked it. -/
theorem Inv.lanesLocked {task : LaneTask} (h : Inv ⟨lm, task ::ₘ tasks⟩)
    (howns : task.ownsLanes = true) : lm.lanesLocked = true := by
  have hcount : (task ::ₘ tasks).countP (·.ownsLanes) = lm.lanesLocked.toNat := h.owner
  rw [Multiset.countP_cons, if_pos howns] at hcount
  cases hlocked : lm.lanesLocked with
  | true => rfl
  | false =>
      rw [hlocked] at hcount
      cases hcount

/-- Whoever has the lock of the map is alone with it. -/
theorem Inv.alone {task : LaneTask} (h : Inv ⟨lm, task ::ₘ tasks⟩)
    (howns : task.ownsLanes = true) : ∀ task' ∈ tasks, task'.ownsLanes = false := by
  have hcount : (task ::ₘ tasks).countP (·.ownsLanes) = lm.lanesLocked.toNat := h.owner
  have hle : lm.lanesLocked.toNat ≤ 1 := Bool.toNat_le _
  have hzero : tasks.countP (·.ownsLanes) = 0 := by
    rw [Multiset.countP_cons, if_pos howns] at hcount
    omega
  exact fun task' htask' => Bool.not_eq_true _ ▸ Multiset.countP_eq_zero.mp hzero task' htask'

/-- Nobody refers to a mutex that `gc` does not retain. -/
theorem Inv.unused (h : Inv ⟨lm, tasks⟩) (hs : lm.lanes.lookup sessionId = some mutex)
    (idle : lm.retains mutex = false) :
    ∀ task ∈ tasks, ∀ {sid}, task.lane? ≠ some (sid, mutex) := by
  have hcount : lm.strongCount mutex = tasks.countP (·.refersTo mutex) + 1 := h.counted hs
  have hidle : ¬ 1 < lm.strongCount mutex := of_decide_eq_false idle
  have hzero : tasks.countP (·.refersTo mutex) = 0 := by omega
  exact fun task htask sid hlane =>
    Multiset.countP_eq_zero.mp hzero task htask (refersTo_iff.mpr ⟨_, hlane⟩)

/-- A lane that is not retained is removed. -/
theorem Inv.removeLane {before : ℕ} {rest : List (String × MutexId)}
    (h : Inv ⟨lm, .retaining before ((sessionId, mutex) :: rest) ::ₘ tasks⟩)
    (idle : lm.retains mutex = false) :
    Inv ⟨lm.removeLane sessionId mutex, .retaining before rest ::ₘ tasks⟩ := by
  obtain ⟨hentries, hnodup⟩ := h.pending (Multiset.mem_cons_self _ _)
  have hs := hentries _ List.mem_cons_self
  have hunused := h.unused hs idle
  have hne {e} (he : e ∈ rest) : e.1 ≠ sessionId := fun heq =>
    (List.nodup_cons.mp hnodup).1 (List.mem_map.mpr ⟨e, he, heq⟩)
  have hlookup {sid m} (hsid : (lm.lanes.erase sessionId).lookup sid = some m) :
      sid ≠ sessionId ∧ lm.lanes.lookup sid = some m := by
    by_cases heq : sid = sessionId
    · subst heq
      simp at hsid
    · rw [AList.lookup_erase_ne heq] at hsid
      exact ⟨heq, hsid⟩
  have hcounts (p : LaneTask → Bool) (heq : p (.retaining before ((sessionId, mutex) :: rest)) =
      p (.retaining before rest)) :
      (LaneTask.retaining before rest ::ₘ tasks).countP (fun t => p t) =
        (LaneTask.retaining before ((sessionId, mutex) :: rest) ::ₘ tasks).countP fun t => p t := by
    simp only [Multiset.countP_cons, heq]
  constructor
  · exact fun h₁ h₂ => h.injective (hlookup h₁).2 (hlookup h₂).2
  · exact fun h₁ => h.fresh (hlookup h₁).2
  · intro task htask sid m hm
    have htask' : ∃ task' ∈ LaneTask.retaining before ((sessionId, mutex) :: rest) ::ₘ tasks,
        task'.lane? = some (sid, m) := by
      rcases Multiset.mem_cons.mp htask with rfl | htask
      · cases hm
      · exact ⟨task, Multiset.mem_cons_of_mem htask, hm⟩
    obtain ⟨task', hmem, hm'⟩ := htask'
    have hsid := h.lane task' hmem hm'
    show (lm.lanes.erase sessionId).lookup sid = some m
    rwa [AList.lookup_erase_ne]
    rintro rfl
    obtain rfl : m = mutex := Option.some.inj (hsid.symm.trans hs)
    exact hunused task' hmem hm'
  · intro sid m h₁
    obtain ⟨hsid, hold⟩ := hlookup h₁
    have hm : m ≠ mutex := by
      rintro rfl
      exact hsid (h.injective hold hs)
    show Function.update lm.strongCount mutex _ m = _
    rw [Function.update_of_ne hm, hcounts (·.refersTo m) rfl]
    exact h.counted hold
  · intro m
    rw [hcounts (·.locks m) rfl]
    exact h.exclusive m
  · rw [hcounts (·.ownsLanes) rfl]
    exact h.owner
  · intro before' rest' hmem
    rcases Multiset.mem_cons.mp hmem with heq | hmem
    · obtain ⟨rfl, rfl⟩ := LaneTask.retaining.inj heq
      refine ⟨fun e he => ?_, (List.nodup_cons.mp hnodup).2⟩
      show (lm.lanes.erase sessionId).lookup e.1 = some e.2
      rw [AList.lookup_erase_ne (hne he)]
      exact hentries e (List.mem_cons_of_mem _ he)
    · have hfalse := h.alone rfl _ hmem
      cases hfalse

/-- One task changes, and the map does not. -/
theorem Inv.move {task task' : LaneTask} (h : Inv ⟨lm, task ::ₘ tasks⟩)
    (hlanes : lm'.lanes = lm.lanes) (hnext : lm'.nextMutex = lm.nextMutex)
    (hlane : ∀ {sid m}, task'.lane? = some (sid, m) → lm.lanes.lookup sid = some m)
    (hcounted : ∀ m, (task.refersTo m).toNat < lm.strongCount m →
      lm'.strongCount m + (task.refersTo m).toNat = lm.strongCount m + (task'.refersTo m).toNat)
    (hexclusive : ∀ m, (lm'.locked m).toNat + (task.locks m).toNat =
      (lm.locked m).toNat + (task'.locks m).toNat)
    (howner : lm'.lanesLocked.toNat + task.ownsLanes.toNat =
      lm.lanesLocked.toNat + task'.ownsLanes.toNat)
    (hpending : ∀ {before rest}, task' = .retaining before rest →
      (∀ e ∈ rest, lm.lanes.lookup e.1 = some e.2) ∧ (rest.map Prod.fst).Nodup) :
    Inv ⟨lm', task' ::ₘ tasks⟩ := by
  refine h.replace (Multiset.singleton_add _ _).symm (Multiset.singleton_add _ _).symm hlanes hnext
    ?_ ?_ ?_ ?_ ?_
  · intro t ht
    obtain rfl := Multiset.mem_singleton.mp ht
    exact hlane
  · simpa only [countP_singleton] using hcounted
  · simpa only [countP_singleton] using hexclusive
  · simpa only [countP_singleton] using howner
  · exact fun hmem => hpending (Multiset.mem_singleton.mp hmem).symm

/-- A task starts. -/
theorem Inv.spawn {task' : LaneTask} (h : Inv ⟨lm, tasks⟩) (hlane : task'.lane? = none)
    (hcounts : ∀ m, task'.refersTo m = false ∧ task'.locks m = false)
    (howns : task'.ownsLanes = false) : Inv ⟨lm, task' ::ₘ tasks⟩ := by
  refine h.replace (Multiset.zero_add _).symm (Multiset.singleton_add _ _).symm rfl rfl
    ?_ ?_ ?_ ?_ ?_
  · intro t ht sid m hm
    obtain rfl := Multiset.mem_singleton.mp ht
    simp [hlane] at hm
  · intro m _
    simp only [countP_singleton, hcounts, Multiset.countP_zero, Bool.toNat_false]
  · intro m
    simp only [countP_singleton, hcounts, Multiset.countP_zero, Bool.toNat_false]
  · simp only [countP_singleton, howns, Multiset.countP_zero, Bool.toNat_false]
  · intro before rest hmem
    obtain rfl := (Multiset.mem_singleton.mp hmem).symm
    cases howns

/-- A task ends, and takes its reference with it. -/
theorem Inv.finish {task : LaneTask} (h : Inv ⟨lm, task ::ₘ tasks⟩)
    (hlanes : lm'.lanes = lm.lanes) (hnext : lm'.nextMutex = lm.nextMutex)
    (hcounted : ∀ m, (task.refersTo m).toNat < lm.strongCount m →
      lm'.strongCount m + (task.refersTo m).toNat = lm.strongCount m)
    (hexclusive : ∀ m, (lm'.locked m).toNat + (task.locks m).toNat = (lm.locked m).toNat)
    (howner : lm'.lanesLocked.toNat + task.ownsLanes.toNat = lm.lanesLocked.toNat) :
    Inv ⟨lm', tasks⟩ := by
  refine h.replace (Multiset.singleton_add _ _).symm (Multiset.zero_add _).symm hlanes hnext
    ?_ ?_ ?_ ?_ ?_
  · exact fun task htask => absurd htask (Multiset.notMem_zero _)
  · simpa only [countP_singleton, Multiset.countP_zero, Nat.add_zero] using hcounted
  · simpa only [countP_singleton, Multiset.countP_zero, Nat.add_zero] using hexclusive
  · simpa only [countP_singleton, Multiset.countP_zero, Nat.add_zero] using howner
  · exact fun hmem => absurd hmem (Multiset.notMem_zero _)

/-- A reference is taken from the map. -/
theorem Inv.cloneArc (h : Inv ⟨lm, .looking sessionId ::ₘ tasks⟩)
    (hs : lm.lanes.lookup sessionId = some mutex) :
    Inv ⟨(lm.cloneArc mutex).setLanesLocked false, .waiting sessionId mutex ::ₘ tasks⟩ := by
  refine h.move rfl rfl ?_ ?_ (fun _ => rfl) ?_ nofun
  · rintro sid m ⟨⟩
    exact hs
  · intro m _
    show Function.update lm.strongCount mutex _ m + _ = _
    by_cases hm : m = mutex
    · subst hm
      simp [refersTo]
    · simp [refersTo, Function.update_of_ne hm, Ne.symm hm]
  · simp [setLanesLocked, ownsLanes, h.lanesLocked rfl]

/-- The counts after a reference has gone out of scope. -/
theorem dropArc_strongCount {m : MutexId} (hpos : (decide (mutex = m)).toNat < lm.strongCount m) :
    (lm.dropArc mutex).strongCount m + (decide (mutex = m)).toNat = lm.strongCount m := by
  show Function.update lm.strongCount mutex _ m + _ = _
  by_cases hm : m = mutex
  · subst hm
    rw [decide_eq_true rfl, Bool.toNat_true] at hpos
    rw [Function.update_self, decide_eq_true rfl, Bool.toNat_true]
    omega
  · rw [Function.update_of_ne hm, decide_eq_false (Ne.symm hm), Bool.toNat_false, Nat.add_zero]

/-- **One step.** -/
theorem Inv.step {st st' : LaneState} (h : Inv st) (step : Step st st') : Inv st' := by
  cases step with
  | acquire sessionId => exact h.spawn rfl (fun _ => ⟨rfl, rfl⟩) rfl
  | gc => exact h.spawn rfl (fun _ => ⟨rfl, rfl⟩) rfl
  | enter free =>
      refine h.move rfl rfl nofun (fun _ _ => rfl) (fun _ => rfl) ?_ nofun
      simp [setLanesLocked, ownsLanes, free]
  | look =>
      rename_i lm tasks sessionId
      rw [cloneLane, TransactionalLaneManager.lane]
      cases hs : lm.lanes.lookup sessionId with
      | some mutex => exact h.cloneArc hs
      | none => exact (h.insertLane hs).cloneArc (AList.lookup_insert _)
  | lock free =>
      rename_i lm tasks sessionId mutex
      refine h.move rfl rfl ?_ (fun _ _ => rfl) ?_ rfl nofun
      · rintro sid m ⟨⟩
        exact h.lane _ (Multiset.mem_cons_self _ _) rfl
      · intro m
        show (Function.update lm.locked mutex true m).toNat + 0 = _ + (decide (mutex = m)).toNat
        by_cases hm : m = mutex
        · subst hm
          simp [free]
        · simp [Function.update_of_ne hm, Ne.symm hm]
  | timeout =>
      refine h.move rfl rfl ?_ (fun _ _ => rfl) (fun _ => rfl) rfl nofun
      rintro sid m ⟨⟩
      exact h.lane _ (Multiset.mem_cons_self _ _) rfl
  | cancel =>
      refine h.move rfl rfl ?_ (fun _ _ => rfl) (fun _ => rfl) rfl nofun
      rintro sid m ⟨⟩
      exact h.lane _ (Multiset.mem_cons_self _ _) rfl
  | cancelEntry => exact h.finish rfl rfl (fun _ _ => rfl) (fun _ => rfl) rfl
  | drop => exact h.finish rfl rfl (fun _ hpos => dropArc_strongCount hpos) (fun _ => rfl) rfl
  | fail =>
      exact h.move rfl rfl nofun (fun _ hpos => dropArc_strongCount hpos) (fun _ => rfl) rfl nofun
  | unlock =>
      rename_i lm tasks sessionId mutex
      have hlocked : 1 ≤ (lm.locked mutex).toNat := by
        have hcount := h.exclusive mutex
        rw [← hcount]
        exact Multiset.countP_pos.mpr ⟨_, Multiset.mem_cons_self _ _, decide_eq_true rfl⟩
      refine h.move rfl rfl ?_ (fun _ _ => rfl) ?_ rfl nofun
      · rintro sid m ⟨⟩
        exact h.lane _ (Multiset.mem_cons_self _ _) rfl
      · intro m
        show (Function.update lm.locked mutex false m).toNat + (decide (mutex = m)).toNat = _
        by_cases hm : m = mutex
        · subst hm
          cases hl : lm.locked m with
          | true => simp [locks]
          | false => simp [hl] at hlocked
        · simp [locks, Function.update_of_ne hm, Ne.symm hm]
  | collect free =>
      rename_i lm tasks
      refine h.move rfl rfl nofun (fun _ _ => rfl) (fun _ => rfl) ?_ ?_
      · simp [setLanesLocked, ownsLanes, free]
      · rintro before rest ⟨⟩
        refine ⟨fun e he => ?_, ?_⟩
        · obtain ⟨entry, hentry, rfl⟩ := List.mem_map.mp he
          exact AList.mem_lookup_iff.mpr hentry
        · rw [List.map_map]
          exact lm.lanes.nodupKeys
  | retain used =>
      refine h.move rfl rfl nofun (fun _ _ => rfl) (fun _ => rfl) rfl ?_
      rintro before rest ⟨⟩
      obtain ⟨hentries, hnodup⟩ := h.pending (Multiset.mem_cons_self _ _)
      exact ⟨fun e he => hentries e (List.mem_cons_of_mem _ he), (List.nodup_cons.mp hnodup).2⟩
  | remove idle => exact h.removeLane idle
  | done =>
      refine h.move rfl rfl nofun (fun _ _ => rfl) (fun _ => rfl) ?_ nofun
      simp [setLanesLocked, ownsLanes, h.lanesLocked rfl]

/-- **A run.** -/
theorem Reachable.inv {st : LaneState} (h : Reachable st) : Inv st := by
  induction h with
  | refl => exact inv_new
  | tail _ step ih => exact ih.step step

/-- The guards of a session are those that have locked its mutex. -/
theorem Inv.countP_guards (h : Inv ⟨lm, tasks⟩) (hs : lm.lanes.lookup sessionId = some mutex) :
    tasks.countP (·.guards sessionId) = tasks.countP (·.locks mutex) := by
  refine Multiset.countP_congr rfl fun task htask => propext ?_
  cases task with
  | guarded sid m =>
      have hsid : lm.lanes.lookup sid = some m := h.lane _ htask rfl
      simp only [guards, locks, decide_eq_true_eq]
      constructor
      · rintro rfl
        exact Option.some.inj (hsid.symm.trans hs)
      · rintro rfl
        exact h.injective hsid hs
  | _ => rfl

theorem Inv.guards_le (h : Inv ⟨lm, tasks⟩) (sessionId : String) :
    tasks.countP (·.guards sessionId) ≤ 1 := by
  cases hs : lm.lanes.lookup sessionId with
  | some mutex =>
      rw [h.countP_guards hs, h.exclusive mutex]
      exact Bool.toNat_le _
  | none =>
      rw [Multiset.countP_eq_zero.mpr]
      · exact Nat.zero_le 1
      · intro task htask hguards
        cases task with
        | guarded sid m =>
            obtain rfl := of_decide_eq_true hguards
            have hsid : lm.lanes.lookup sid = some m := h.lane _ htask rfl
            rw [hs] at hsid
            cases hsid
        | _ => cases hguards

/-- No step touches a lane that is held or waited for. -/
theorem Inv.lookup_step {st st' : LaneState} (h : Inv st) (step : Step st st') {task : LaneTask}
    (htask : task ∈ st.tasks) (hlane : task.lane? = some (sessionId, mutex)) :
    st'.manager.lanes.lookup sessionId = some mutex := by
  have hs := h.lane task htask hlane
  cases step with
  | look =>
      rename_i lm tasks sid
      rw [cloneLane, TransactionalLaneManager.lane]
      cases hsid : lm.lanes.lookup sid with
      | some m => exact hs
      | none =>
          refine Eq.trans (AList.lookup_insert_ne ?_) hs
          rintro rfl
          exact absurd (hs.symm.trans hsid) nofun
  | remove idle =>
      rename_i lm tasks before sid m rest
      have hsid := (h.pending (Multiset.mem_cons_self _ _)).1 _ List.mem_cons_self
      refine Eq.trans (AList.lookup_erase_ne ?_) hs
      rintro rfl
      obtain rfl : mutex = m := Option.some.inj (hs.symm.trans hsid)
      exact h.unused hsid idle task htask hlane
  | _ => exact hs

/-- **One guard per session.**  In every state the tasks can get into, at most one
guard of a session is alive.  Whoever holds or awaits a mutex does so for the one
in the map, and no step removes or replaces it. -/
theorem guard_unique {st : LaneState} (h : Reachable st) :
    (∀ sessionId, st.tasks.countP (·.guards sessionId) ≤ 1) ∧
    ∀ task ∈ st.tasks, ∀ sessionId mutex, task.lane? = some (sessionId, mutex) →
      st.manager.lanes.lookup sessionId = some mutex ∧
        ∀ st', Step st st' → st'.manager.lanes.lookup sessionId = some mutex :=
  ⟨h.inv.guards_le, fun task htask _ _ hlane =>
    ⟨h.inv.lane task htask hlane, fun _ step => h.inv.lookup_step step htask hlane⟩⟩

/-- A guard is alive and a second `acquire` waits, when `gc` looks at the lane. -/
theorem guard_unique_contended : ∃ st : LaneState,
    st.tasks = {.retaining 1 [("s", 0)], .waiting "s" 0, .guarded "s" 0} ∧
    (∀ sessionId, st.tasks.countP (·.guards sessionId) ≤ 1) ∧
    ∀ task ∈ st.tasks, ∀ sessionId mutex, task.lane? = some (sessionId, mutex) →
      st.manager.lanes.lookup sessionId = some mutex ∧
        ∀ st', Step st st' → st'.manager.lanes.lookup sessionId = some mutex := by
  have hguarded : Reachable _ :=
    (((Relation.ReflTransGen.refl.tail (.acquire "s")).tail (.enter rfl)).tail .look).tail
      (.lock rfl)
  have hwaiting : Reachable _ := ((hguarded.tail (.acquire "s")).tail (.enter rfl)).tail .look
  have hretaining : Reachable _ := (hwaiting.tail .gc).tail (.collect rfl)
  exact ⟨_, rfl, guard_unique hretaining⟩

end LaneState

end ClawDesk.Agents
