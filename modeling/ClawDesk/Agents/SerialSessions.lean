import ClawDesk.Agents.SessionLane
import ClawDesk.Foundations.Fold
import Mathlib.Data.Multiset.AddSub

/-!
# One run per session

The tasks of a session that need a lane have that of the map (`Serialised.kept`), so their runs
exclude each other (`Serialised.alone`).  Three places take a lane out of the map without asking
all of them (`Keeps`): `gc` does not see a task between its lookup of the entry and its reference
to the mutex, an eviction removes what was idle when it looked, and the watchdog neither asks how
long the run has the lane nor who else waits for it.
-/

namespace ClawDesk.Agents.SessionLane

open Foundations

/-! ### What the lanes are for -/

/-- What holds of the tasks at any time. -/
structure Serialised (m : SessionLaneManager) (st : State) : Prop where
  /-- A session has at most one live guard that is not hung. -/
  alone : ∀ s, st.tasks.countP (·.runs m st.lanes.now s) ≤ 1
  /-- The map still has the lane that a task waits for, is about to wait for, or holds with a
  run that is not hung. -/
  kept : ∀ task ∈ st.tasks, ∀ s lane, task.lane? = some (s, lane) →
    task.needs m st.lanes.now s = true → st.lanes.lanes.lookup s = some lane

namespace State

/-- The lane that an eviction or `gc` removes. -/
def drops (st : State) : Task → Choice → Option LaneId
  | .evicting _ (k :: _), .next => st.lanes.lanes.lookup k
  | .collecting _, .visit k => (st.lanes.lanes.lookup k).filter st.idle
  | _, _ => none

def dropped (st : State) : Action → Option LaneId
  | .advance i choice _ => st.tasks[i]?.bind (st.drops · choice)
  | _ => none

/-- No task has the lane that is removed. -/
def DropsUnused (st : State) (a : Action) : Prop :=
  ∀ lane, st.dropped a = some lane → ∀ task ∈ st.tasks, ∀ s, task.lane? ≠ some (s, lane)

/-! ### The condition -/

/-- No task has looked the lane of the session up without a reference to its mutex. -/
def unentered (st : State) (sessionId : String) : Bool :=
  st.tasks.all fun t => !t.enters sessionId

/-- Nobody waits for the session or is about to, and its guards are hung. -/
def deserted (m : SessionLaneManager) (st : State) (sessionId : String) : Bool :=
  st.tasks.all fun t => !t.needs m st.lanes.now sessionId

/-- What the source does not check of a task that removes or replaces a lane. -/
def keeps (m : SessionLaneManager) (st : State) : Task → Choice → Bool
  -- the candidate is still idle
  | .evicting _ (k :: _), .next => (st.lanes.lanes.lookup k).all st.idle && st.unentered k
  | .collecting _, .visit k => !(st.lanes.lanes.lookup k).any st.idle || st.unentered k
  | .installing s _, .next => st.deserted m s
  | _, _ => true

def Keeps (m : SessionLaneManager) (st : State) : Action → Prop
  | .advance i choice _ => st.tasks[i]?.all (st.keeps m · choice) = true
  | _ => True

instance (m : SessionLaneManager) (st : State) : ∀ a, Decidable (st.Keeps m a)
  | .advance i choice _ =>
      inferInstanceAs (Decidable (st.tasks[i]?.all (st.keeps m · choice) = true))
  | .acquire _ | .gc | .pass _ => inferInstanceAs (Decidable True)

end State

/-! ### The invariant -/

variable {m : SessionLaneManager} {owner : LaneId → String} {ln : Lanes} {tasks : Multiset Task}
  {old new task : Task} {st : State} {s : String} {lane : LaneId} {epochMs ms : ℕ}

/-- A lane belongs to one session, and its task finds it in the map while it needs it. -/
def Task.Fits (m : SessionLaneManager) (owner : LaneId → String) (ln : Lanes) (task : Task) :
    Prop :=
  ∀ s lane, task.lane? = some (s, lane) → owner lane = s ∧ lane < ln.nextLane ∧
    (task.needs m ln.now s = true → ln.lanes.lookup s = some lane)

/-- The lanes have owners, and every mutex is locked by one task at most. -/
structure Inv (m : SessionLaneManager) (owner : LaneId → String) (ln : Lanes)
    (tasks : Multiset Task) : Prop where
  owned : ∀ s lane, ln.lanes.lookup s = some lane → owner lane = s ∧ lane < ln.nextLane
  fits : ∀ task ∈ tasks, task.Fits m owner ln
  exclusive : ∀ lane, tasks.countP (fun t => t.locks lane = true) ≤ 1

theorem inv_new : Inv m owner .new 0 := by
  constructor <;> simp [Lanes.new]

/-- The lanes change, so that the tasks still fit. -/
theorem Inv.relabel {owner' : LaneId → String} {ln' : Lanes} (h : Inv m owner ln tasks)
    (howned : ∀ s lane, ln'.lanes.lookup s = some lane → owner' lane = s ∧ lane < ln'.nextLane)
    (hfits : ∀ task ∈ tasks, task.Fits m owner ln → task.Fits m owner' ln') :
    Inv m owner' ln' tasks :=
  ⟨howned, fun task htask => hfits task htask (h.fits task htask), h.exclusive⟩

theorem Inv.pass (h : Inv m owner ln tasks) : Inv m owner (ln.pass ms) tasks := by
  refine h.relabel h.owned fun task _ hfits s lane hlane => ?_
  obtain ⟨howner, hlt, hkept⟩ := hfits s lane hlane
  exact ⟨howner, hlt, fun hneeds => hkept (Task.needs_of_needs_add hneeds)⟩

theorem Inv.touch (h : Inv m owner ln tasks) : Inv m owner (ln.touch lane epochMs) tasks :=
  ⟨h.owned, h.fits, h.exclusive⟩

/-- The new lane belongs to whom we like. -/
theorem Inv.newLane (h : Inv m owner ln tasks) :
    Inv m (Function.update owner ln.nextLane s) (ln.newLane epochMs) tasks := by
  have howner {lane : LaneId} (hlt : lane < ln.nextLane) :
      Function.update owner ln.nextLane s lane = owner lane :=
    Function.update_of_ne hlt.ne s owner
  refine h.relabel (fun s' lane hlookup => ?_) fun task _ hfits s' lane hlane => ?_
  · obtain ⟨hs', hlt⟩ := h.owned s' lane hlookup
    exact ⟨(howner hlt).trans hs', Nat.lt_succ_of_lt hlt⟩
  · obtain ⟨hs', hlt, hkept⟩ := hfits s' lane hlane
    exact ⟨(howner hlt).trans hs', Nat.lt_succ_of_lt hlt, hkept⟩

/-- The map changes at a session whose lane nobody needs. -/
theorem Inv.remap {ln' : Lanes} (h : Inv m owner ln tasks)
    (hfree : ∀ task ∈ tasks, task.needs m ln.now s = false)
    (hself : ∀ lane, ln'.lanes.lookup s = some lane → owner lane = s ∧ lane < ln.nextLane)
    (hother : ∀ s', s' ≠ s → ln'.lanes.lookup s' = ln.lanes.lookup s')
    (hnext : ln'.nextLane = ln.nextLane) (hnow : ln'.now = ln.now) : Inv m owner ln' tasks := by
  refine h.relabel (fun s' lane' hlookup => ?_) fun task htask hfits s' lane' hlane => ?_
  · rw [hnext]
    by_cases hs : s' = s
    · subst hs
      exact hself lane' hlookup
    · exact h.owned s' lane' (hother s' hs ▸ hlookup)
  · obtain ⟨howner, hlt, hkept⟩ := hfits s' lane' hlane
    rw [hnext, hnow]
    refine ⟨howner, hlt, fun hneeds => ?_⟩
    by_cases hs : s' = s
    · subst hs
      rw [hfree task htask] at hneeds
      cases hneeds
    · rw [hother s' hs]
      exact hkept hneeds

theorem Inv.insert (h : Inv m owner ln tasks) (howner : owner lane = s) (hlt : lane < ln.nextLane)
    (hfree : ∀ task ∈ tasks, task.needs m ln.now s = false) :
    Inv m owner (ln.insert s lane) tasks := by
  refine h.remap hfree (fun lane' hlookup => ?_) (fun s' hs => Lanes.lookup_insert hs) rfl rfl
  rw [Lanes.lookup_insert_self] at hlookup
  obtain rfl := Option.some.inj hlookup
  exact ⟨howner, hlt⟩

theorem Inv.remove (h : Inv m owner ln tasks)
    (hfree : ∀ task ∈ tasks, task.needs m ln.now s = false) : Inv m owner (ln.remove s) tasks := by
  refine h.remap hfree (fun lane hlookup => ?_) (fun s' hs => Lanes.lookup_remove hs) rfl rfl
  rw [Lanes.lookup_remove_self] at hlookup
  cases hlookup

/-- One task goes on. -/
theorem Inv.replace (h : Inv m owner ln (old ::ₘ tasks)) (hfits : new.Fits m owner ln)
    (hlocks : ∀ lane, new.locks lane = true →
      old.locks lane = true ∨ ∀ task ∈ tasks, task.locks lane = false) :
    Inv m owner ln (new ::ₘ tasks) := by
  refine ⟨h.owned, ?_, fun lane => ?_⟩
  · intro task htask
    rcases Multiset.mem_cons.mp htask with rfl | htask
    · exact hfits
    · exact h.fits task (Multiset.mem_cons_of_mem htask)
  · have hle := h.exclusive lane
    rw [Multiset.countP_cons] at hle ⊢
    by_cases hnew : new.locks lane = true
    · rw [if_pos hnew]
      rcases hlocks lane hnew with hold | hnone
      · rwa [if_pos hold] at hle
      · have hzero : tasks.countP (fun t => t.locks lane = true) = 0 :=
          Multiset.countP_eq_zero.mpr fun task htask => by simp [hnone task htask]
        rw [hzero]
    · rw [if_neg hnew]
      omega

/-- A task that has no lane comes in. -/
theorem Inv.cons (h : Inv m owner ln tasks) (hlane : new.lane? = none) :
    Inv m owner ln (new ::ₘ tasks) := by
  refine ⟨h.owned, ?_, fun lane => ?_⟩
  · intro task htask
    rcases Multiset.mem_cons.mp htask with rfl | htask
    · intro s lane hsome
      rw [hlane] at hsome
      cases hsome
    · exact h.fits task htask
  · rw [Multiset.countP_cons_of_neg]
    · exact h.exclusive lane
    · intro hlocks
      obtain ⟨s, hsome⟩ := Task.lane?_of_locks hlocks
      rw [hlane] at hsome
      cases hsome

/-! ### Steps -/

/-- The tasks around the one that advances. -/
theorem exists_cons_set {tasks : List Task} {i : ℕ} (h : tasks[i]? = some old) :
    ∃ rest : Multiset Task, (tasks : Multiset Task) = old ::ₘ rest ∧
      ∀ new, (tasks.set i new : List Task) = (new ::ₘ rest : Multiset Task) := by
  obtain ⟨hi, rfl⟩ := List.getElem?_eq_some_iff.mp h
  refine ⟨tasks.eraseIdx i, ?_, fun new => ?_⟩
  · rw [Multiset.cons_coe]
    exact Multiset.coe_eq_coe.mpr (List.getElem_cons_eraseIdx_perm hi).symm
  · rw [Multiset.cons_coe]
    exact Multiset.coe_eq_coe.mpr (List.set_perm_cons_eraseIdx hi new)

/-- Nobody has an idle lane, but for those who enter. -/
theorem Inv.unused (h : Inv m owner st.lanes st.tasks)
    (hlookup : st.lanes.lanes.lookup s = some lane) (hidle : st.idle lane = true)
    (hun : st.unentered s = true) :
    ∀ task ∈ st.tasks, ∀ s', task.lane? ≠ some (s', lane) := by
  intro task htask s' hlane
  have hs : s' = s := (h.fits task htask s' lane hlane).1.symm.trans (h.owned s lane hlookup).1
  subst hs
  have hcount : st.tasks.countP (·.refersTo lane) = 0 := by
    have hle : st.tasks.countP (·.refersTo lane) + 1 ≤ 1 := of_decide_eq_true hidle
    omega
  have hrefers : task.refersTo lane = false := by
    simpa using List.countP_eq_zero.mp hcount task htask
  have henters := List.all_eq_true.mp hun task htask
  rw [Task.enters_of_lane? hlane hrefers] at henters
  cases henters

/-- …so nobody needs it. -/
theorem Inv.needs_of_unused (h : Inv m owner ln tasks)
    (hunused : ∀ lane, ln.lanes.lookup s = some lane →
      ∀ task ∈ tasks, task.lane? ≠ some (s, lane)) :
    ∀ task ∈ tasks, task.needs m ln.now s = false := by
  intro task htask
  rw [← Bool.not_eq_true]
  intro hneeds
  obtain ⟨lane, hlane⟩ := Task.lane?_of_needs hneeds
  have hlookup := (h.fits task htask s lane hlane).2.2 hneeds
  exact hunused lane hlookup task htask hlane

/-- An idle lane may go, unless somebody enters. -/
theorem Inv.drop (h : Inv m owner st.lanes st.tasks)
    (hidle : ∀ lane, st.lanes.lanes.lookup s = some lane → st.idle lane = true)
    (hun : st.unentered s = true) : Inv m owner (st.lanes.remove s) st.tasks :=
  h.remove (h.needs_of_unused fun lane hlookup task htask =>
    h.unused hlookup (hidle lane hlookup) hun task htask s)

theorem Task.Fits.of_none (hlane : new.lane? = none) : new.Fits m owner ln := by
  intro s lane hsome
  rw [hlane] at hsome
  cases hsome

theorem Task.Fits.of_eq (h : old.Fits m owner ln) (hlane : new.lane? = old.lane?)
    (hneeds : ∀ s, new.needs m ln.now s = true → old.needs m ln.now s = true) :
    new.Fits m owner ln := by
  intro s lane hsome
  obtain ⟨howner, hlt, hkept⟩ := h s lane (hlane ▸ hsome)
  exact ⟨howner, hlt, fun hnew => hkept (hneeds s hnew)⟩

/-- A task goes on with the lane it has. -/
theorem Inv.continue (h : Inv m owner ln (old ::ₘ tasks)) (hlane : new.lane? = old.lane?)
    (hneeds : ∀ s, new.needs m ln.now s = true → old.needs m ln.now s = true)
    (hlocks : ∀ lane, new.locks lane = true → old.locks lane = true) :
    Inv m owner ln (new ::ₘ tasks) :=
  h.replace ((h.fits old (Multiset.mem_cons_self _ _)).of_eq hlane hneeds)
    fun lane hnew => .inl (hlocks lane hnew)

/-- A task gives its lane up, and has still to drop it. -/
theorem Inv.giveUp (h : Inv m owner ln (old ::ₘ tasks)) (hlane : new.lane? = old.lane?)
    (hneeds : ∀ s, new.needs m ln.now s = false) (hlocks : ∀ lane, new.locks lane = false) :
    Inv m owner ln (new ::ₘ tasks) := by
  refine h.continue hlane (fun s hnew => ?_) fun lane hnew => ?_
  · rw [hneeds s] at hnew
    cases hnew
  · rw [hlocks lane] at hnew
    cases hnew

/-- A task goes on without a lane. -/
theorem Inv.leave (h : Inv m owner ln (old ::ₘ tasks)) (hlane : new.lane? = none) :
    Inv m owner ln (new ::ₘ tasks) := by
  refine h.replace (.of_none hlane) fun lane hlocks => ?_
  obtain ⟨s, hsome⟩ := Task.lane?_of_locks hlocks
  rw [hlane] at hsome
  cases hsome

/-- The lane that `entry` finds or makes. -/
theorem Inv.entry (h : Inv m owner ln tasks) : ∃ owner',
    Inv m owner' (ln.entry s epochMs).2 tasks ∧
      (ln.entry s epochMs).2.lanes.lookup s = some (ln.entry s epochMs).1 := by
  unfold Lanes.entry
  cases hlookup : ln.lanes.lookup s with
  | some lane => exact ⟨owner, h, hlookup⟩
  | none =>
      refine ⟨Function.update owner ln.nextLane s, ?_, Lanes.lookup_insert_self⟩
      refine h.newLane.insert (Function.update_self _ _ _) (Nat.lt_succ_self _) ?_
      refine h.needs_of_unused fun lane hsome => ?_
      rw [hlookup] at hsome
      cases hsome

theorem Inv.enter (h : Inv m owner ln (old ::ₘ tasks)) : ∃ owner',
    Inv m owner' (ln.entry s epochMs).2 (.entered s (ln.entry s epochMs).1 ::ₘ tasks) := by
  obtain ⟨owner', hentry, hlookup⟩ : ∃ owner', Inv m owner' (ln.entry s epochMs).2 (old ::ₘ tasks) ∧
      (ln.entry s epochMs).2.lanes.lookup s = some (ln.entry s epochMs).1 := h.entry
  refine ⟨owner', hentry.replace (fun s' lane hsome => ?_) fun lane hlocks => ?_⟩
  · obtain ⟨rfl, rfl⟩ := Prod.mk.inj (Option.some.inj hsome)
    obtain ⟨howner, hlt⟩ := hentry.owned _ _ hlookup
    exact ⟨howner, hlt, fun _ => hlookup⟩
  · cases hlocks

/-- The watchdog's new lane is locked before anybody sees it. -/
theorem Inv.install (h : Inv m owner ln (old ::ₘ tasks)) : ∃ owner',
    Inv m owner' (ln.newLane epochMs) (.installing s ln.nextLane ::ₘ tasks) := by
  refine ⟨Function.update owner ln.nextLane s, h.newLane.replace ?_ fun lane hlocks => .inr ?_⟩
  · intro s' lane hsome
    obtain ⟨rfl, rfl⟩ := Prod.mk.inj (Option.some.inj hsome)
    exact ⟨Function.update_self _ _ _, Nat.lt_succ_self _, fun hneeds => by cases hneeds⟩
  · obtain rfl : ln.nextLane = lane := of_decide_eq_true hlocks
    intro task htask
    rw [← Bool.not_eq_true]
    intro hlocks'
    obtain ⟨s', hsome⟩ := Task.lane?_of_locks hlocks'
    exact lt_irrefl _ (h.fits task (Multiset.mem_cons_of_mem htask) s' _ hsome).2.1

/-- A mutex that is free goes to a task that waits. -/
theorem Inv.lock {deadline : ℕ} (h : Inv m owner ln (.waiting s lane deadline ::ₘ tasks))
    (hfree : ∀ task ∈ tasks, task.locks lane = false) :
    Inv m owner ln (.guarded s lane ln.now ::ₘ tasks) := by
  refine h.replace ?_ fun lane' hlocks => .inr ?_
  · refine (h.fits _ (Multiset.mem_cons_self _ _)).of_eq rfl fun s' hneeds => ?_
    exact decide_eq_true (of_decide_eq_true hneeds).1
  · obtain rfl : lane = lane' := of_decide_eq_true hlocks
    exact hfree

/-- The new lane comes into the map. -/
theorem Inv.publish (h : Inv m owner ln (.installing s lane ::ₘ tasks))
    (hfree : ∀ task ∈ Task.installing s lane ::ₘ tasks, task.needs m ln.now s = false) :
    Inv m owner (ln.insert s lane) (.guarded s lane ln.now ::ₘ tasks) := by
  obtain ⟨howner, hlt, -⟩ := h.fits _ (Multiset.mem_cons_self _ _) s lane rfl
  refine (h.insert howner hlt hfree).replace ?_ fun _ hlocks => .inl hlocks
  intro s' lane' hsome
  obtain ⟨rfl, rfl⟩ := Prod.mk.inj (Option.some.inj hsome)
  exact ⟨howner, hlt, fun _ => Lanes.lookup_insert_self⟩

/-- One task advances. -/
theorem Inv.advance {i : ℕ} {choice : Choice} {ln' : Lanes}
    (h : Inv m owner st.lanes st.tasks) (hget : st.tasks[i]? = some old)
    (hkeeps : st.keeps m old choice = true)
    (hadvance : st.advance m epochMs old choice = some (ln', new)) :
    ∃ owner', Inv m owner' ln' (st.tasks.set i new : List Task) := by
  obtain ⟨rest, htasks, hset⟩ := exists_cons_set hget
  rw [hset new]
  have hcons : Inv m owner st.lanes (old ::ₘ rest) := htasks ▸ h
  cases old with
  | acquiring s =>
      cases choice with
      | next =>
          simp only [State.advance] at hadvance
          split at hadvance <;> cases hadvance <;> exact ⟨owner, hcons.leave rfl⟩
      | _ => cases hadvance
  | scanning s excess seen candidates =>
      cases choice with
      | next =>
          cases hadvance
          exact ⟨owner, hcons.leave rfl⟩
      | visit k =>
          simp only [State.advance, Option.ite_none_left_eq_some,
            Option.map_eq_some_iff] at hadvance
          obtain ⟨-, lane, -, heq⟩ := hadvance
          cases heq
          exact ⟨owner, hcons.leave rfl⟩
      | _ => cases hadvance
  | evicting s rest' =>
      cases rest' with
      | nil =>
          cases choice with
          | next =>
              cases hadvance
              exact hcons.enter
          | _ => cases hadvance
      | cons k rest' =>
          cases choice with
          | next =>
              cases hadvance
              obtain ⟨hidle, hun⟩ := Bool.and_eq_true_iff.mp hkeeps
              have hdrop := h.drop ((Option.all_eq_true _ _).mp hidle) hun
              rw [htasks] at hdrop
              exact ⟨owner, hdrop.leave rfl⟩
          | _ => cases hadvance
  | entered s lane =>
      cases choice with
      | next =>
          cases hadvance
          exact ⟨owner, hcons.touch.continue rfl (fun _ => id) fun _ => id⟩
      | _ => cases hadvance
  | touched s lane =>
      cases choice with
      | next =>
          cases hadvance
          exact ⟨owner, hcons.continue rfl (fun _ => id) fun _ => id⟩
      | _ => cases hadvance
  | cloned s lane =>
      cases choice with
      | next =>
          cases hadvance
          exact ⟨owner, hcons.continue rfl (fun _ => id) fun _ => id⟩
      | _ => cases hadvance
  | waiting s lane deadline =>
      cases choice with
      | next =>
          simp only [State.advance, Option.ite_none_left_eq_some] at hadvance
          obtain ⟨hfree, heq⟩ := hadvance
          cases heq
          refine ⟨owner, hcons.lock fun task htask => ?_⟩
          have hmem : task ∈ (st.tasks : Multiset Task) := htasks ▸ Multiset.mem_cons_of_mem htask
          exact Bool.eq_false_of_not_eq_true
            (List.any_eq_false.mp (Bool.eq_false_of_not_eq_true hfree) task hmem)
      | fire =>
          simp only [State.advance, Option.ite_none_right_eq_some] at hadvance
          obtain ⟨-, heq⟩ := hadvance
          cases heq
          exact ⟨owner, hcons.giveUp rfl (fun _ => rfl) fun _ => rfl⟩
      | cancel =>
          cases hadvance
          exact ⟨owner, hcons.giveUp rfl (fun _ => rfl) fun _ => rfl⟩
      | _ => cases hadvance
  | abandoning s lane =>
      cases choice with
      | next =>
          cases hadvance
          exact hcons.install
      | _ => cases hadvance
  | installing s lane =>
      cases choice with
      | next =>
          cases hadvance
          refine ⟨owner, hcons.publish fun task htask => ?_⟩
          have hmem : task ∈ (st.tasks : Multiset Task) := htasks ▸ htask
          simpa using List.all_eq_true.mp hkeeps task hmem
      | cancel =>
          cases hadvance
          exact ⟨owner, hcons.giveUp rfl (fun _ => rfl) fun _ => rfl⟩
      | _ => cases hadvance
  | guarded s lane since =>
      cases choice with
      | next =>
          cases hadvance
          exact ⟨owner, hcons.giveUp rfl (fun _ => rfl) fun _ => rfl⟩
      | _ => cases hadvance
  | dropping s lane =>
      cases choice with
      | next =>
          cases hadvance
          exact ⟨owner, hcons.leave rfl⟩
      | _ => cases hadvance
  | released => cases hadvance
  | collecting before =>
      cases choice with
      | next =>
          cases hadvance
          exact ⟨owner, hcons.leave rfl⟩
      | visit k =>
          simp only [State.advance, Option.map_eq_some_iff] at hadvance
          obtain ⟨lane, hlookup, heq⟩ := hadvance
          cases heq
          split
          · exact ⟨owner, hcons.leave rfl⟩
          · have hidle : st.idle lane = true := decide_eq_true (by omega)
            have hun : st.unentered k = true := by
              simpa [State.keeps, hlookup, hidle] using hkeeps
            have hdrop := h.drop (s := k) (fun lane' hlookup' => by
              rw [hlookup] at hlookup'
              obtain rfl := Option.some.inj hlookup'
              exact hidle) hun
            rw [htasks] at hdrop
            exact ⟨owner, hdrop.leave rfl⟩
      | _ => cases hadvance
  | collected removed => cases hadvance

/-- The invariant of a state. -/
def State.Sound (m : SessionLaneManager) (st : State) : Prop :=
  ∃ owner, Inv m owner st.lanes st.tasks

theorem State.Keeps.of_get {i : ℕ} {choice : Choice}
    (h : st.Keeps m (.advance i choice epochMs)) (hget : st.tasks[i]? = some old) :
    st.keeps m old choice = true := by
  simpa [State.Keeps, hget] using h

theorem State.Sound.step {a : Action} (h : st.Sound m) (hkeeps : st.Keeps m a) :
    (st.step m a).Sound m := by
  obtain ⟨owner, hinv⟩ := h
  cases a with
  | acquire s =>
      refine ⟨owner, ?_⟩
      show Inv m owner st.lanes (st.tasks ++ [.acquiring s] : List Task)
      rw [← Multiset.coe_add, Multiset.add_comm]
      exact hinv.cons rfl
  | gc =>
      refine ⟨owner, ?_⟩
      show Inv m owner st.lanes (st.tasks ++ [.collecting st.lanes.laneCount] : List Task)
      rw [← Multiset.coe_add, Multiset.add_comm]
      exact hinv.cons rfl
  | pass ms => exact ⟨owner, hinv.pass⟩
  | advance i choice epochMs =>
      cases hget : st.tasks[i]? with
      | none =>
          have hstep : st.step m (.advance i choice epochMs) = st := by
            simp [State.step, State.perform, hget]
          rw [hstep]
          exact ⟨owner, hinv⟩
      | some task =>
          cases hadvance : st.advance m epochMs task choice with
          | none =>
              have hstep : st.step m (.advance i choice epochMs) = st := by
                simp [State.step, State.perform, hget, hadvance]
              rw [hstep]
              exact ⟨owner, hinv⟩
          | some moved =>
              have hstep : st.step m (.advance i choice epochMs) =
                  ⟨moved.1, st.tasks.set i moved.2⟩ := by
                simp [State.step, State.perform, hget, hadvance]
              exact hstep ▸ hinv.advance hget (hkeeps.of_get hget) hadvance

/-! ### Runs -/

/-- Tasks that need the lane of the map exclude each other. -/
theorem State.Sound.serialised (h : st.Sound m) : Serialised m st := by
  obtain ⟨owner, hinv⟩ := h
  have kept : ∀ task ∈ st.tasks, ∀ s lane, task.lane? = some (s, lane) →
      task.needs m st.lanes.now s = true → st.lanes.lanes.lookup s = some lane :=
    fun task htask s lane hlane => (hinv.fits task htask s lane hlane).2.2
  refine ⟨fun s => ?_, kept⟩
  cases hlookup : st.lanes.lanes.lookup s with
  | none =>
      rw [List.countP_eq_zero.mpr]
      · exact Nat.zero_le 1
      · intro task htask hruns
        obtain ⟨lane, hlane⟩ := Task.lane?_of_needs (Task.needs_of_runs hruns)
        have hsome := kept task htask s lane hlane (Task.needs_of_runs hruns)
        rw [hlookup] at hsome
        cases hsome
  | some lane =>
      calc st.tasks.countP (·.runs m st.lanes.now s)
          ≤ st.tasks.countP (·.locks lane) := ?_
        _ ≤ 1 := by simpa using hinv.exclusive lane
      refine List.countP_mono_left fun task htask hruns => ?_
      obtain ⟨lane', hlane⟩ := Task.lane?_of_needs (Task.needs_of_runs hruns)
      have hsome := kept task htask s lane' hlane (Task.needs_of_runs hruns)
      obtain rfl := Option.some.inj (hlookup.symm.trans hsome)
      exact Task.locks_of_runs hruns hlane

theorem Inv.unused_of_drops {choice : Choice} (h : Inv m owner st.lanes st.tasks)
    (hkeeps : st.keeps m old choice = true) (hdrops : st.drops old choice = some lane) :
    ∀ task ∈ st.tasks, ∀ s, task.lane? ≠ some (s, lane) := by
  unfold State.drops at hdrops
  split at hdrops
  · obtain ⟨hidle, hun⟩ := Bool.and_eq_true_iff.mp hkeeps
    exact h.unused hdrops ((Option.all_eq_true _ _).mp hidle lane hdrops) hun
  next before k =>
    obtain ⟨hlookup, hidle⟩ := Option.filter_eq_some_iff.mp hdrops
    have hun : st.unentered k = true := by
      simpa [State.keeps, hlookup, hidle] using hkeeps
    exact h.unused hlookup hidle hun
  · cases hdrops

theorem State.Sound.dropsUnused {a : Action} (h : st.Sound m) (hkeeps : st.Keeps m a) :
    st.DropsUnused a := by
  obtain ⟨owner, hinv⟩ := h
  intro lane hdropped
  cases a with
  | advance i choice epochMs =>
      obtain ⟨task, hget, hdrops⟩ := Option.bind_eq_some_iff.mp hdropped
      exact hinv.unused_of_drops (hkeeps.of_get hget) hdrops
  | _ => cases hdropped

/-- **A session has one run at a time, and nobody loses the lane, as long as no lane leaves the
map that a task has, or will have.** -/
theorem serialised_of_keeps (actions : List Action)
    (hkeeps : EachStep (State.step m) .new actions (State.Keeps m)) :
    Serialised m (actions.foldl (State.step m) .new) ∧
      EachStep (State.step m) .new actions State.DropsUnused := by
  have hnew : State.new.Sound m := ⟨fun _ => "", inv_new⟩
  exact ⟨(hkeeps.invariant hnew fun _ _ h hk => h.step hk).serialised,
    hkeeps.imp hnew (fun _ _ h hk => h.step hk) fun _ _ h hk => h.dropsUnused hk⟩

/-! ### Runs of one session -/

/-- A task goes on, several times. -/
def goOn (i n : ℕ) : List Action := List.replicate n (.advance i .next 0)

/-- `acquire` up to the guard, or until it waits. -/
def acquired (i : ℕ) : List Action := .acquire "s" :: goOn i 6

/-- One task waits for a run that is hung, and `gc` runs afterwards. -/
def oneTimeout : List Action :=
  acquired 0 ++ acquired 1 ++ .pass 300000 :: .advance 1 .fire 0 :: goOn 1 4 ++
    [.gc, .advance 2 (.visit "s") 0] ++ acquired 3

theorem serialised_oneTimeout :
    Serialised .new (oneTimeout.foldl (State.step .new) .new) ∧
      EachStep (State.step .new) .new oneTimeout State.DropsUnused :=
  serialised_of_keeps oneTimeout (by decide +kernel)

/-- `gc` runs when a task has the entry and no reference to its mutex. -/
def gcBetween : List Action :=
  .acquire "s" :: goOn 0 2 ++ [.gc, .advance 1 (.visit "s") 0] ++ acquired 2 ++ goOn 0 4

/-- A lane that was idle is evicted when it is locked. -/
def staleCandidate : List Action :=
  acquired 0 ++ goOn 0 2 ++ .acquire "s" :: goOn 1 1 ++ .acquire "u" :: goOn 2 6 ++
    .acquire "v" :: goOn 3 1 ++ [.advance 3 (.visit "s") 0, .advance 3 (.visit "u") 0] ++
    goOn 3 1 ++ goOn 1 5 ++ goOn 3 1 ++ acquired 4

/-- The watchdog counts the time in the queue, behind runs of which none is hung. -/
def longQueue : List Action :=
  acquired 0 ++ acquired 1 ++ acquired 2 ++ .pass 299999 :: goOn 0 2 ++ goOn 1 1 ++
    [.pass 1, .advance 2 .fire 0] ++ goOn 2 2

/-- Two tasks wait for a run that is hung. -/
def twoTimeouts : List Action :=
  acquired 0 ++ acquired 1 ++ acquired 2 ++ .pass 300000 :: .advance 1 .fire 0 :: goOn 1 2 ++
    .advance 2 .fire 0 :: goOn 2 2

/-- A manager for one lane, with the watchdog of the source. -/
def narrow : SessionLaneManager := .withCapacity 300000 1

def afterAll (actions : List Action) : State := actions.foldl (State.step narrow) .new

theorem not_serialised_of_lt {actions : List Action}
    (h : 1 < (afterAll actions).tasks.countP (·.runs narrow (afterAll actions).lanes.now "s")) :
    ¬ Serialised narrow (afterAll actions) :=
  fun hserial => absurd (hserial.alone "s") (Nat.not_le.mpr h)

/-- **In each of these ways a session gets two runs, none of them hung.** -/
theorem two_runs :
    ¬ Serialised narrow (afterAll gcBetween) ∧ ¬ Serialised narrow (afterAll staleCandidate) ∧
      ¬ Serialised narrow (afterAll longQueue) ∧ ¬ Serialised narrow (afterAll twoTimeouts) := by
  refine ⟨?_, ?_, ?_, ?_⟩ <;> apply not_serialised_of_lt <;> decide +kernel

end ClawDesk.Agents.SessionLane
