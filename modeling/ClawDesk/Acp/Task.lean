import ClawDesk.Foundations.Fold
import ClawDesk.Foundations.Json
import Mathlib.Data.Int.Notation
import Mathlib.Data.List.Induction

/-!
# The life of a task

`apply_event` is a match on the state of a task and an event.  Its arms decide the
next state and assign the result or the error on the way, each arm for itself; the
transition is recorded once, after the match.

An event that is refused changes nothing, nothing leaves a terminal state, and the
history is a chain of proper transitions (`chain_history`).  The output is there
exactly when the task is completed.  The arms that leave `Submitted` assign nothing,
however, so a task that fails or is canceled before any work began has lost the
error or the reason it was given; in every other history they are kept
(`task_sound_iff`).
-/

namespace ClawDesk.Acp

open Foundations

/-! ### States and events -/

/-- Task lifecycle states. -/
inductive TaskState where
  | submitted
  | working
  | inputRequired
  | completed
  | failed
  | canceled
  deriving DecidableEq

namespace TaskState

/-- Whether this is a terminal state (no further transitions). -/
def isTerminal : TaskState → Bool
  | completed | failed | canceled => true
  | _ => false

/-- What `{:?}` prints. -/
def debug : TaskState → String
  | submitted => "Submitted"
  | working => "Working"
  | inputRequired => "InputRequired"
  | completed => "Completed"
  | failed => "Failed"
  | canceled => "Canceled"

end TaskState

/-- Events that drive task state transitions. -/
inductive TaskEvent where
  | work
  | complete (output : Json)
  | requestInput (prompt : String)
  | provideInput (input : Json)
  | cancel (reason : Option String)
  | fail (error : String)
  | progress (percent : Float) (message : Option String)
  | timeout

/-- `std::mem::discriminant`, as `{:?}` prints it. -/
def TaskEvent.discriminant : TaskEvent → String
  | work => "Discriminant(0)"
  | complete _ => "Discriminant(1)"
  | requestInput _ => "Discriminant(2)"
  | provideInput _ => "Discriminant(3)"
  | cancel _ => "Discriminant(4)"
  | fail _ => "Discriminant(5)"
  | progress _ _ => "Discriminant(6)"
  | timeout => "Discriminant(7)"

/-- `f64::clamp`, which lets a number that is not a number through. -/
def clamp (x min max : Float) : Float :=
  let x := if x < min then min else x
  if x > max then max else x

/-- Record of a state transition. -/
structure TaskTransition where
  fromState : TaskState
  toState : TaskState
  event : String
  timestamp : ℤ

/-- A task: the unit of work delegated between agents. -/
structure Task where
  id : String
  state : TaskState
  requesterId : String
  executorId : String
  input : Json
  /-- Output data (populated on completion). -/
  output : Option Json
  /-- Error message (populated on failure). -/
  error : Option String
  createdAt : ℤ
  updatedAt : ℤ
  progress : Float
  history : List TaskTransition

/-- An event, and the two readings of the clock its application takes. -/
structure TaskDelivery where
  event : TaskEvent
  recordedAt : ℤ
  updatedAt : ℤ

namespace Task

/-- Create a new task. -/
def new (id requesterId executorId : String) (input : Json) (now : ℤ) : Task where
  id := id
  state := .submitted
  requesterId := requesterId
  executorId := executorId
  input := input
  output := none
  error := none
  createdAt := now
  updatedAt := now
  progress := 0.0
  history := []

/-- The match of `apply_event`: the next state, and the task with what the arm
assigns. -/
def transition (task : Task) (event : TaskEvent) : Except String (TaskState × Task) :=
  match task.state, event with
  -- from `Submitted`
  | .submitted, .work => .ok (.working, task)
  | .submitted, .cancel _ => .ok (.canceled, task)
  | .submitted, .fail _ => .ok (.failed, task)
  | .submitted, .timeout => .ok (.failed, task)
  -- from `Working`
  | .working, .complete output => .ok (.completed, { task with output := some output })
  | .working, .requestInput _ => .ok (.inputRequired, task)
  | .working, .fail error => .ok (.failed, { task with error := some error })
  | .working, .cancel reason => .ok (.canceled, { task with error := reason })
  | .working, .progress percent _ =>
      .ok (.working, { task with progress := clamp percent 0.0 1.0 })
  | .working, .timeout => .ok (.failed, { task with error := some "task timed out" })
  -- from `InputRequired`
  | .inputRequired, .provideInput _ => .ok (.working, task)
  | .inputRequired, .cancel reason => .ok (.canceled, { task with error := reason })
  | .inputRequired, .fail error => .ok (.failed, { task with error := some error })
  | .inputRequired, .timeout => .ok (.failed, { task with error := some "input request timed out" })
  -- invalid transitions
  | state, event => .error ("invalid transition: " ++ state.debug ++ " + " ++ event.discriminant)

/-- The transition is recorded if the state changes. -/
def record (task : Task) (prev : TaskState) (d : TaskDelivery) (next : TaskState) : Task :=
  if next ≠ prev then
    { task with history := task.history ++ [⟨prev, next, d.event.discriminant, d.recordedAt⟩] }
  else task

/-- Apply an event to the task, transitioning its state. -/
def applyEvent (task : Task) (d : TaskDelivery) : Except String TaskState × Task :=
  if task.state.isTerminal then
    (.error ("task " ++ task.id ++ " is in terminal state " ++ task.state.debug ++
      ", cannot apply event"), task)
  else
    match task.transition d.event with
    | .error err => (.error err, task)
    | .ok (next, task') =>
        (.ok next, { task'.record task.state d next with state := next, updatedAt := d.updatedAt })

/-- One event after another. -/
def applyAll (task : Task) (ds : List TaskDelivery) : Task :=
  ds.foldl (fun task d => (task.applyEvent d).2) task

end Task

/-! ### What a history should say -/

/-- A chain of proper transitions between two states. -/
def Chain : TaskState → List TaskTransition → TaskState → Prop
  | s, [], s' => s = s'
  | s, tr :: rest, s' => tr.fromState = s ∧ tr.fromState ≠ tr.toState ∧ Chain tr.toState rest s'

/-- The delivery `d` is the one of the sequence that brings the task into state
`s`. -/
def Brings (task : Task) (ds : List TaskDelivery) (s : TaskState) (d : TaskDelivery) : Prop :=
  ∃ before after, ds = before ++ d :: after ∧ (task.applyAll before).state ≠ s ∧
    (task.applyAll (before ++ [d])).state = s

/-- The task agrees with the events it was given. -/
structure Sound (task : Task) (ds : List TaskDelivery) : Prop where
  refused : ∀ d err, ((task.applyAll ds).applyEvent d).1 = .error err →
    ((task.applyAll ds).applyEvent d).2 = task.applyAll ds
  terminal : (task.applyAll ds).state.isTerminal = true →
    ∀ more, (task.applyAll (ds ++ more)).state = (task.applyAll ds).state
  history : Chain .submitted (task.applyAll ds).history (task.applyAll ds).state
  completed : (task.applyAll ds).state = .completed ↔ ∃ v, (task.applyAll ds).output = some v
  /-- The output is that of the event that completed the task. -/
  output : ∀ v, (task.applyAll ds).output = some v →
    ∃ d, Brings task ds .completed d ∧ d.event = .complete v
  failed : (task.applyAll ds).state = .failed → (task.applyAll ds).error.isSome = true
  failError : ∀ d err, Brings task ds .failed d → d.event = .fail err →
    (task.applyAll ds).error = some err
  cancelReason : ∀ d reason, Brings task ds .canceled d → d.event = .cancel (some reason) →
    (task.applyAll ds).error = some reason

/-- The event says why the task ends. -/
def TaskEvent.Explains : TaskEvent → Prop
  | fail _ | timeout | cancel (some _) => True
  | _ => False

/-- No event that says why the task ends finds it still `Submitted`. -/
def Begun (task : Task) (ds : List TaskDelivery) : Prop :=
  ∀ before d after, ds = before ++ d :: after → (task.applyAll before).state = .submitted →
    ¬ d.event.Explains

/-! ### One event -/

namespace Task

/-- What the arms assign. -/
structure Arm (task : Task) (event : TaskEvent) (next : TaskState) (task' : Task) : Prop where
  history : task'.history = task.history
  proper : next ≠ .submitted
  unassigned : task.state = .submitted → task' = task
  going : next.isTerminal = false → task'.output = task.output ∧ task'.error = task.error
  output : next ≠ .completed → task'.output = task.output
  completed : next = .completed → ∃ v, event = .complete v ∧ task'.output = some v
  failed : next = .failed → task.state ≠ .submitted →
    task'.error.isSome = true ∧ ∀ err, event = .fail err → task'.error = some err
  canceled : next = .canceled → task.state ≠ .submitted →
    ∀ reason, event = .cancel reason → task'.error = reason
  /-- From `Submitted` only an event that says why leads to `Failed`. -/
  explained : next = .failed → task.state = .submitted → event.Explains

theorem arm_of_transition {task task' : Task} {event : TaskEvent} {next : TaskState}
    (h : task.transition event = .ok (next, task')) : Arm task event next task' := by
  unfold transition at h
  split at h
  case h_15 => contradiction
  all_goals
    obtain ⟨rfl, rfl⟩ := Prod.mk.inj (Except.ok.inj h)
    constructor <;> simp_all [TaskState.isTerminal, TaskEvent.Explains]

variable {task : Task} {ds : List TaskDelivery} {d : TaskDelivery}

@[simp] theorem record_output (prev : TaskState) (next : TaskState) :
    (task.record prev d next).output = task.output := by
  unfold record
  split_ifs <;> rfl

@[simp] theorem record_error (prev : TaskState) (next : TaskState) :
    (task.record prev d next).error = task.error := by
  unfold record
  split_ifs <;> rfl

/-- An event is refused, and changes nothing, or it is an arm of the match. -/
theorem applyEvent_cases (task : Task) (d : TaskDelivery) :
    ((∃ err, (task.applyEvent d).1 = .error err) ∧ (task.applyEvent d).2 = task) ∨
    ∃ next task', task.state.isTerminal = false ∧ Arm task d.event next task' ∧
      task.applyEvent d = (.ok next,
        { task'.record task.state d next with state := next, updatedAt := d.updatedAt }) := by
  unfold applyEvent
  split_ifs with hterminal
  · exact .inl ⟨⟨_, rfl⟩, rfl⟩
  · split
    · exact .inl ⟨⟨_, rfl⟩, rfl⟩
    · next next task' htransition =>
        exact .inr ⟨next, task', Bool.eq_false_iff.mpr hterminal,
          arm_of_transition htransition, rfl⟩

theorem applyEvent_of_isTerminal (h : task.state.isTerminal = true) (d : TaskDelivery) :
    (task.applyEvent d).2 = task := by
  rw [applyEvent, if_pos h]

@[simp] theorem applyAll_nil (task : Task) : task.applyAll [] = task := rfl

theorem applyAll_append (task : Task) (ds more : List TaskDelivery) :
    task.applyAll (ds ++ more) = (task.applyAll ds).applyAll more := List.foldl_append

theorem applyAll_concat (task : Task) (ds : List TaskDelivery) (d : TaskDelivery) :
    task.applyAll (ds ++ [d]) = ((task.applyAll ds).applyEvent d).2 :=
  applyAll_append task ds [d]

theorem applyAll_of_isTerminal (h : task.state.isTerminal = true) (ds : List TaskDelivery) :
    task.applyAll ds = task := by
  induction ds with
  | nil => rfl
  | cons d ds ih =>
      show (task.applyEvent d).2.applyAll ds = task
      rw [applyEvent_of_isTerminal h, ih]

end Task

/-! ### Which event brought the task where it is -/

section Histories

variable {task : Task} {ds : List TaskDelivery} {d d' : TaskDelivery} {s : TaskState}

theorem brings_concat (h : Brings task (ds ++ [d]) s d') : Brings task ds s d' ∨
    (d' = d ∧ (task.applyAll ds).state ≠ s ∧ (task.applyAll (ds ++ [d])).state = s) := by
  obtain ⟨before, after, hsplit, hne, heq⟩ := h
  rcases concat_eq_append_cons hsplit with ⟨rfl, rfl, -⟩ | ⟨init, -, hinit⟩
  · exact .inr ⟨rfl, hne, heq⟩
  · exact .inl ⟨before, init, hinit, hne, heq⟩

theorem Brings.concat (h : Brings task ds s d') (d : TaskDelivery) :
    Brings task (ds ++ [d]) s d' := by
  obtain ⟨before, after, rfl, hne, heq⟩ := h
  exact ⟨before, after ++ [d], by simp, hne, heq⟩

/-- A terminal state that was reached is the present one. -/
theorem Brings.state_eq (h : Brings task ds s d') (hs : s.isTerminal = true) :
    (task.applyAll ds).state = s := by
  obtain ⟨before, after, rfl, -, rfl⟩ := h
  have hsplit : before ++ d' :: after = (before ++ [d']) ++ after := by simp
  rw [hsplit, Task.applyAll_append task, Task.applyAll_of_isTerminal hs]

/-- Only the last event can have ended a task that was going before it. -/
theorem brings_of_going (hgoing : (task.applyAll ds).state.isTerminal = false)
    (hs : s.isTerminal = true) (h : Brings task (ds ++ [d]) s d') :
    d' = d ∧ (task.applyAll (ds ++ [d])).state = s := by
  rcases brings_concat h with hold | ⟨rfl, -, heq⟩
  · rw [hold.state_eq hs] at hgoing
    exact absurd hs (Bool.eq_false_iff.mp hgoing)
  · exact ⟨rfl, heq⟩

theorem brings_of_refused (heq : (task.applyAll (ds ++ [d])).state = (task.applyAll ds).state)
    (h : Brings task (ds ++ [d]) s d') : Brings task ds s d' := by
  rcases brings_concat h with hold | ⟨-, hne, hs⟩
  · exact hold
  · exact absurd (heq.symm.trans hs) hne

/-! ### What holds in every history -/

/-- A task no event has been applied to. -/
structure Fresh (task : Task) : Prop where
  state : task.state = .submitted
  output : task.output = none
  error : task.error = none
  history : task.history = []

theorem fresh_new (id requesterId executorId : String) (input : Json) (now : ℤ) :
    Fresh (Task.new id requesterId executorId input now) := ⟨rfl, rfl, rfl, rfl⟩

theorem chain_append {s₁ s₂ : TaskState} {trs : List TaskTransition} {tr : TaskTransition}
    (h : Chain s₁ trs s₂) (hfrom : tr.fromState = s₂) (hne : tr.fromState ≠ tr.toState) :
    Chain s₁ (trs ++ [tr]) tr.toState := by
  induction trs generalizing s₁ with
  | nil =>
      obtain rfl : s₁ = s₂ := h
      exact ⟨hfrom, hne, rfl⟩
  | cons head rest ih => exact ⟨h.1, h.2.1, ih h.2.2⟩

/-- **The history is a chain of proper transitions.** -/
theorem chain_history (hfresh : Fresh task) (ds : List TaskDelivery) :
    Chain .submitted (task.applyAll ds).history (task.applyAll ds).state := by
  induction ds using List.reverseRecOn with
  | nil =>
      rw [Task.applyAll_nil, hfresh.history, hfresh.state]
      exact rfl
  | append_singleton ds d ih =>
      rw [Task.applyAll_concat]
      rcases (task.applyAll ds).applyEvent_cases d with ⟨-, heq⟩ | ⟨next, task', -, harm, heq⟩
      · rw [heq]
        exact ih
      · rw [heq]
        show Chain _ (task'.record _ d next).history next
        unfold Task.record
        split_ifs with hne
        · show Chain _ (task'.history ++ [_]) next
          rw [harm.history]
          exact chain_append ih rfl (Ne.symm hne)
        · obtain rfl := not_not.mp hne
          rw [harm.history]
          exact ih

/-- A task that has not ended has neither output nor error. -/
theorem unassigned (hfresh : Fresh task) (ds : List TaskDelivery)
    (hgoing : (task.applyAll ds).state.isTerminal = false) :
    (task.applyAll ds).output = none ∧ (task.applyAll ds).error = none := by
  induction ds using List.reverseRecOn with
  | nil => exact ⟨hfresh.output, hfresh.error⟩
  | append_singleton ds d ih =>
      rw [Task.applyAll_concat] at hgoing ⊢
      rcases (task.applyAll ds).applyEvent_cases d with ⟨-, heq⟩ | ⟨next, task', hprev, harm, heq⟩
      · rw [heq] at hgoing ⊢
        exact ih hgoing
      · rw [heq] at hgoing ⊢
        obtain ⟨houtput, herror⟩ := harm.going hgoing
        simpa [houtput, herror] using ih hprev

/-- **A task has an output exactly when it is completed.** -/
theorem completed_iff (hfresh : Fresh task) (ds : List TaskDelivery) :
    (task.applyAll ds).state = .completed ↔ ∃ v, (task.applyAll ds).output = some v := by
  induction ds using List.reverseRecOn with
  | nil => simp [hfresh.state, hfresh.output]
  | append_singleton ds d ih =>
      rw [Task.applyAll_concat]
      rcases (task.applyAll ds).applyEvent_cases d with ⟨-, heq⟩ | ⟨next, task', hprev, harm, heq⟩
      · rw [heq]
        exact ih
      · rw [heq]
        by_cases hnext : next = .completed
        · obtain ⟨v, -, houtput⟩ := harm.completed hnext
          simp [hnext, houtput]
        · simp [hnext, harm.output hnext, (unassigned hfresh ds hprev).1]

/-- **…and it is the one the completing event came with.** -/
theorem exists_completing (hfresh : Fresh task) (ds : List TaskDelivery) {v : Json}
    (h : (task.applyAll ds).output = some v) :
    ∃ d, Brings task ds .completed d ∧ d.event = .complete v := by
  induction ds using List.reverseRecOn with
  | nil => simp [hfresh.output] at h
  | append_singleton ds d ih =>
      rw [Task.applyAll_concat] at h
      rcases (task.applyAll ds).applyEvent_cases d with ⟨-, heq⟩ | ⟨next, task', hprev, harm, heq⟩
      · rw [heq] at h
        obtain ⟨d', hd', hevent⟩ := ih h
        exact ⟨d', hd'.concat d, hevent⟩
      · rw [heq] at h
        by_cases hnext : next = .completed
        · obtain ⟨v', hevent, houtput⟩ := harm.completed hnext
          obtain rfl : v' = v := by simpa [houtput] using h
          refine ⟨d, ⟨ds, [], rfl, fun hstate => ?_, ?_⟩, hevent⟩
          · simp [hstate, TaskState.isTerminal] at hprev
          · rw [Task.applyAll_concat, heq]
            exact hnext
        · simp [harm.output hnext, (unassigned hfresh ds hprev).1] at h

/-! ### What is kept when a task ends -/

/-- An ended task says what the event that ended it said. -/
structure Explained (task : Task) (ds : List TaskDelivery) : Prop where
  failed : (task.applyAll ds).state = .failed → (task.applyAll ds).error.isSome = true
  failError : ∀ d err, Brings task ds .failed d → d.event = .fail err →
    (task.applyAll ds).error = some err
  cancelReason : ∀ d reason, Brings task ds .canceled d → d.event = .cancel (some reason) →
    (task.applyAll ds).error = some reason

theorem Begun.of_concat (h : Begun task (ds ++ [d])) : Begun task ds := by
  intro before d' after hsplit
  exact h before d' (after ++ [d]) (by simp [hsplit])

/-- **One event.** -/
theorem Explained.step (h : Explained task ds)
    (hbegun : (task.applyAll ds).state = .submitted → ¬ d.event.Explains) :
    Explained task (ds ++ [d]) := by
  rcases (task.applyAll ds).applyEvent_cases d with ⟨-, heq⟩ | ⟨next, task', hprev, harm, heq⟩
  · -- refused: nothing has changed
    replace heq := (Task.applyAll_concat task ds d).trans heq
    have hstate : (task.applyAll (ds ++ [d])).state = (task.applyAll ds).state := by rw [heq]
    refine ⟨?_, fun d' err hd' => ?_, fun d' reason hd' => ?_⟩
    · rw [heq]
      exact h.failed
    · rw [heq]
      exact h.failError d' err (brings_of_refused hstate hd')
    · rw [heq]
      exact h.cancelReason d' reason (brings_of_refused hstate hd')
  · replace heq := (Task.applyAll_concat task ds d).trans (congrArg Prod.snd heq)
    have hstate : (task.applyAll (ds ++ [d])).state = next := by rw [heq]
    have herror : (task.applyAll (ds ++ [d])).error = task'.error := by
      rw [heq]
      exact Task.record_error _ _
    rw [← hstate] at harm
    refine ⟨fun hfailed => ?_, fun d' err hd' hevent => ?_, fun d' reason hd' hevent => ?_⟩
    · by_cases hsub : (task.applyAll ds).state = .submitted
      · exact absurd (harm.explained hfailed hsub) (hbegun hsub)
      · rw [herror]
        exact (harm.failed hfailed hsub).1
    · obtain ⟨rfl, hfailed⟩ := brings_of_going hprev rfl hd'
      by_cases hsub : (task.applyAll ds).state = .submitted
      · exact absurd (hevent ▸ trivial) (hbegun hsub)
      · rw [herror]
        exact (harm.failed hfailed hsub).2 err hevent
    · obtain ⟨rfl, hcanceled⟩ := brings_of_going hprev rfl hd'
      by_cases hsub : (task.applyAll ds).state = .submitted
      · exact absurd (hevent ▸ trivial) (hbegun hsub)
      · rw [herror]
        exact harm.canceled hcanceled hsub (some reason) hevent

/-- **Any number of events.** -/
theorem explained_of_begun (hfresh : Fresh task) (h : Begun task ds) : Explained task ds := by
  induction ds using List.reverseRecOn with
  | nil =>
      refine ⟨fun hfailed => ?_, ?_, ?_⟩
      · rw [Task.applyAll_nil, hfresh.state] at hfailed
        contradiction
      all_goals
        rintro d _ ⟨before, after, hsplit, -⟩
        simp at hsplit
  | append_singleton ds d ih => exact (ih h.of_concat).step (h ds d [] (by simp))

/-- An event that ends a task which is still `Submitted` leaves no error behind. -/
theorem error_lost (hsub : task.state = .submitted) (herror : task.error = none)
    (hexplains : d.event.Explains) :
    (task.applyEvent d).2.state.isTerminal = true ∧ (task.applyEvent d).2.error = none ∧
      ((task.applyEvent d).2.state = .failed ∨
        (task.applyEvent d).2.state = .canceled ∧ ∃ reason, d.event = .cancel (some reason)) := by
  obtain ⟨event, recordedAt, updatedAt⟩ := d
  cases event with
  | fail | timeout =>
      simp [Task.applyEvent, Task.transition, hsub, TaskState.isTerminal, herror]
  | cancel reason =>
      cases reason with
      | none => exact hexplains.elim
      | some reason =>
          simp [Task.applyEvent, Task.transition, hsub, TaskState.isTerminal, herror]
  | _ => exact hexplains.elim

/-- **The condition is needed.** -/
theorem begun_of_explained (hfresh : Fresh task) (h : Explained task ds) : Begun task ds := by
  intro before d after hsplit hsub hexplains
  have hnone : (task.applyAll before).error = none :=
    (unassigned hfresh before (by rw [hsub]; rfl)).2
  obtain ⟨hterminal, herror, hstate⟩ := error_lost hsub hnone hexplains
  rw [← Task.applyAll_concat] at hterminal herror hstate
  have hend : task.applyAll ds = task.applyAll (before ++ [d]) := by
    rw [hsplit, List.append_cons, Task.applyAll_append, Task.applyAll_of_isTerminal hterminal]
  rcases hstate with hfailed | ⟨hcanceled, reason, hevent⟩
  · have hsome := h.failed (by rw [hend, hfailed])
    rw [hend, herror] at hsome
    contradiction
  · have hbrings : Brings task ds .canceled d := ⟨before, after, hsplit, by simp [hsub], hcanceled⟩
    have hsome := h.cancelReason d reason hbrings hevent
    rw [hend, herror] at hsome
    contradiction

theorem refused_unchanged {err : String} (h : (task.applyEvent d).1 = .error err) :
    (task.applyEvent d).2 = task := by
  rcases task.applyEvent_cases d with ⟨-, heq⟩ | ⟨next, task', -, -, heq⟩
  · exact heq
  · rw [heq] at h
    contradiction

theorem sound_iff_explained (hfresh : Fresh task) : Sound task ds ↔ Explained task ds := by
  constructor
  · exact fun h => ⟨h.failed, h.failError, h.cancelReason⟩
  · intro h
    refine ⟨fun d err => refused_unchanged, fun hterminal more => ?_, chain_history hfresh ds,
      completed_iff hfresh ds, fun v => exists_completing hfresh ds, h.failed, h.failError,
      h.cancelReason⟩
    rw [Task.applyAll_append, Task.applyAll_of_isTerminal hterminal]

end Histories

/-- **A task agrees with its events exactly when none of them ended it, with a word of
explanation, before it had begun.** -/
theorem task_sound_iff (id requesterId executorId : String) (input : Json) (now : ℤ)
    (ds : List TaskDelivery) :
    Sound (Task.new id requesterId executorId input now) ds ↔
      Begun (Task.new id requesterId executorId input now) ds :=
  have hfresh := fresh_new id requesterId executorId input now
  (sound_iff_explained hfresh).trans
    ⟨begun_of_explained hfresh, explained_of_begun hfresh⟩

/-- **A task that fails at once has no error.** -/
theorem error_dropped :
    ¬ Sound (Task.new "t" "a" "b" .null 0) [⟨.fail "no such skill", 1, 1⟩] := by
  intro h
  have hsome := h.failed rfl
  contradiction

end ClawDesk.Acp
