import ClawDesk.Foundations.Digraph
import Mathlib.Algebra.GroupWithZero.Nat
import Mathlib.Data.List.Chain

/-!
# Cycles of task dependencies

`detect_cycle` searches the dependencies of a task depth first, with a stack of tasks and the ways
to them.  A task that is taken up is in the visiting set until a second copy of it comes off the
stack.

When nothing is found there is no cycle (`Inv.no_cycle`).  But a task stays in the visiting set
after all that it leads to has been searched, so a second way to it counts as a cycle.  What is
returned is right exactly if the search never meets a task again that does not lead back
(`detectCycle_correct_iff`).
-/

namespace ClawDesk.Cron

open Foundations Relation

/-! ### The search -/

/-- What a task depends on. -/
structure TaskDependency where
  taskId : String

structure CronTask where
  dependsOn : List TaskDependency

/-- The tasks by their ids. -/
abbrev Tasks := List (String × CronTask)

/-- The ids that a task depends on; none if there is no such task. -/
def dependsOn (tasks : Tasks) (taskId : String) : List String :=
  ((tasks.lookup taskId).map fun task => task.dependsOn.map (·.taskId)).getD []

/-- A task on the stack, with the way to it. -/
abbrev Frame := String × List String

structure Search where
  /-- The tasks in the set, the last one taken up first. -/
  visiting : List String
  visited : List String
  stack : List Frame

/-- The loop over the dependencies of a task: a way that closes a cycle, or the stack with what is
to be visited. -/
def pushDeps (visiting visited path : List String) :
    List String → List Frame → Except (List String) (List Frame)
  | [], stack => .ok stack
  | dep :: deps, stack =>
      if dep ∈ visiting then .error (path ++ [dep])
      else if dep ∈ visited then pushDeps visiting visited path deps stack
      else pushDeps visiting visited path deps ((dep, path ++ [dep]) :: stack)

/-- One round, for the frame that comes off the stack. -/
def visit (tasks : Tasks) (st : Search) (current : String) (path : List String)
    (stack : List Frame) : Except (List String) Search :=
  if current ∈ st.visited then .ok { st with stack := stack }
  else if current ∈ st.visiting then
    .ok ⟨st.visiting.erase current, current :: st.visited, stack⟩
  else
    (pushDeps (current :: st.visiting) st.visited path (dependsOn tasks current) stack).map
      fun stack => ⟨current :: st.visiting, st.visited, stack⟩

/-- The loop, for at most the given number of rounds: `none` if they are too few. -/
def searchLoop (tasks : Tasks) : ℕ → Search → Option (Option (List String))
  | 0, _ => none
  | rounds + 1, st =>
      match st.stack with
      | [] => some none
      | (current, path) :: stack =>
          match visit tasks st current path stack with
          | .error cycle => some (some cycle)
          | .ok st => searchLoop tasks rounds st

/-- The search before its first round. -/
def initial (taskId : String) : Search := ⟨[], [], [(taskId, [taskId])]⟩

/-- The number of all dependencies. -/
def dependencyCount (tasks : Tasks) : ℕ := (tasks.map fun t => t.2.dependsOn.length).sum

/-- Detect cycles in the dependency graph. -/
def detectCycle (taskId : String) (tasks : Tasks) : Option (Option (List String)) :=
  searchLoop tasks (dependencyCount tasks + 2) (initial taskId)

/-! ### What is to be found -/

/-- `a` depends on `b`. -/
def Depends (tasks : Tasks) (a b : String) : Prop := b ∈ dependsOn tasks a

/-- Some cycle can be reached from the task. -/
def CycleReachable (tasks : Tasks) (start : String) : Prop :=
  ∃ x, ReflTransGen (Depends tasks) start x ∧ TransGen (Depends tasks) x x

/-- A way along dependencies from the task, whose last element is met before. -/
def ClosesCycle (tasks : Tasks) (start : String) (cycle : List String) : Prop :=
  cycle.IsChain (Depends tasks) ∧ cycle.head? = some start ∧
    ∃ path last, cycle = path ++ [last] ∧ last ∈ path

/-- The result is what the search is for. -/
def CorrectResult (tasks : Tasks) (start : String) (result : Option (List String)) : Prop :=
  (result.isSome ↔ CycleReachable tasks start) ∧
    ∀ cycle, result = some cycle → ClosesCycle tasks start cycle

/-- One round that does not end the search. -/
def Round (tasks : Tasks) (st st' : Search) : Prop :=
  ∃ current path stack, st.stack = (current, path) :: stack ∧
    visit tasks st current path stack = .ok st'

/-- A task is taken up. -/
def Fresh (st : Search) (current : String) : Prop :=
  current ∉ st.visited ∧ current ∉ st.visiting

/-- If a task is taken up next and some of its dependencies are in the visiting set, then the first
of them depends on the task in turn. -/
def LeadsBack (tasks : Tasks) (st : Search) : Prop :=
  ∀ current path stack dep, st.stack = (current, path) :: stack → Fresh st current →
    (dependsOn tasks current).find? (· ∈ current :: st.visiting) = some dep →
    ReflTransGen (Depends tasks) dep current

/-- All that follows in the search from some state leads back. -/
def OnlyCycles (tasks : Tasks) (st : Search) : Prop :=
  ∀ st', ReflTransGen (Round tasks) st st' → LeadsBack tasks st'

section Search

variable {tasks : Tasks} {start current : String} {path path' visiting visited : List String}
  {stack : List Frame} {st st' : Search}

/-! ### One round -/

/-- What is pushed: the ways to the dependencies that are not visited, the last one on top. -/
def pushed (visited path deps : List String) : List Frame :=
  ((deps.filter (· ∉ visited)).map fun dep => (dep, path ++ [dep])).reverse

theorem pushDeps_of_found {dep : String} {deps : List String}
    (h : deps.find? (· ∈ visiting) = some dep) (stack : List Frame) :
    pushDeps visiting visited path deps stack = .error (path ++ [dep]) := by
  induction deps generalizing stack with
  | nil => cases h
  | cons d deps ih =>
      unfold pushDeps
      by_cases hd : d ∈ visiting
      · rw [List.find?_cons_of_pos (by simpa using hd)] at h
        obtain rfl := Option.some.inj h
        rw [if_pos hd]
      · rw [List.find?_cons_of_neg (by simpa using hd)] at h
        rw [if_neg hd]
        split_ifs
        · exact ih h stack
        · exact ih h _

theorem pushDeps_of_none {deps : List String} (h : ∀ dep ∈ deps, dep ∉ visiting)
    (stack : List Frame) :
    pushDeps visiting visited path deps stack = .ok (pushed visited path deps ++ stack) := by
  induction deps generalizing stack with
  | nil => rfl
  | cons d deps ih =>
      have hrest : ∀ dep ∈ deps, dep ∉ visiting := fun dep hdep =>
        h dep (List.mem_cons_of_mem d hdep)
      rw [pushDeps, if_neg (h d List.mem_cons_self)]
      split_ifs with hvisited
      · rw [ih hrest, pushed, pushed, List.filter_cons_of_neg (by simpa using hvisited)]
      · rw [ih hrest, pushed, pushed, List.filter_cons_of_pos (by simpa using hvisited),
          List.map_cons, List.reverse_cons, List.append_assoc, List.singleton_append]

/-- The search ends with the first dependency in the visiting set. -/
theorem visit_of_found (hfresh : Fresh st current) {dep : String}
    (hfind : (dependsOn tasks current).find? (· ∈ current :: st.visiting) = some dep)
    (path : List String) (stack : List Frame) :
    visit tasks st current path stack = .error (path ++ [dep]) := by
  rw [visit, if_neg hfresh.1, if_neg hfresh.2, pushDeps_of_found hfind]
  rfl

/-- **What one round does**, for the task that comes off the stack. -/
theorem visit_cases (tasks : Tasks) (st : Search) (current : String) (path : List String)
    (stack : List Frame) :
    (current ∈ st.visited ∧
      visit tasks st current path stack = .ok { st with stack := stack }) ∨
    (current ∈ st.visiting ∧ current ∉ st.visited ∧ visit tasks st current path stack =
      .ok ⟨st.visiting.erase current, current :: st.visited, stack⟩) ∨
    (Fresh st current ∧ (∀ dep ∈ dependsOn tasks current, dep ∉ current :: st.visiting) ∧
      visit tasks st current path stack = .ok ⟨current :: st.visiting, st.visited,
        pushed st.visited path (dependsOn tasks current) ++ stack⟩) ∨
    (Fresh st current ∧ ∃ dep,
      (dependsOn tasks current).find? (· ∈ current :: st.visiting) = some dep ∧
      visit tasks st current path stack = .error (path ++ [dep])) := by
  unfold visit
  by_cases hvisited : current ∈ st.visited
  · exact .inl ⟨hvisited, if_pos hvisited⟩
  · by_cases hvisiting : current ∈ st.visiting
    · exact .inr (.inl ⟨hvisiting, hvisited, (if_neg hvisited).trans (if_pos hvisiting)⟩)
    · rw [if_neg hvisited, if_neg hvisiting]
      cases hfind : (dependsOn tasks current).find? (· ∈ current :: st.visiting) with
      | none =>
          have hnone : ∀ dep ∈ dependsOn tasks current, dep ∉ current :: st.visiting := by
            intro dep hdep
            have hnot := List.find?_eq_none.mp hfind dep hdep
            simpa using hnot
          refine .inr (.inr (.inl ⟨⟨hvisited, hvisiting⟩, hnone, ?_⟩))
          rw [pushDeps_of_none hnone]
          rfl
      | some dep =>
          refine .inr (.inr (.inr ⟨⟨hvisited, hvisiting⟩, dep, rfl, ?_⟩))
          have herror := visit_of_found ⟨hvisited, hvisiting⟩ hfind path stack
          rwa [visit, if_neg hvisited, if_neg hvisiting] at herror

/-- A round that goes on. -/
theorem visit_eq_ok (h : visit tasks st current path stack = .ok st') :
    (current ∈ st.visited ∧ st' = { st with stack := stack }) ∨
    (current ∈ st.visiting ∧ st' = ⟨st.visiting.erase current, current :: st.visited, stack⟩) ∨
    (Fresh st current ∧ (∀ dep ∈ dependsOn tasks current, dep ∉ current :: st.visiting) ∧
      st' = ⟨current :: st.visiting, st.visited,
        pushed st.visited path (dependsOn tasks current) ++ stack⟩) := by
  rcases visit_cases tasks st current path stack with ⟨hvisited, hok⟩ | ⟨hvisiting, -, hok⟩ |
    ⟨hfresh, hnone, hok⟩ | ⟨-, dep, -, herror⟩
  · exact .inl ⟨hvisited, Except.ok.inj (h.symm.trans hok)⟩
  · exact .inr (.inl ⟨hvisiting, Except.ok.inj (h.symm.trans hok)⟩)
  · exact .inr (.inr ⟨hfresh, hnone, Except.ok.inj (h.symm.trans hok)⟩)
  · exact nomatch herror.symm.trans h

/-- A round that ends the search with a way. -/
theorem visit_eq_error (h : visit tasks st current path stack = .error path') :
    Fresh st current ∧ ∃ dep,
      (dependsOn tasks current).find? (· ∈ current :: st.visiting) = some dep ∧
      path' = path ++ [dep] := by
  rcases visit_cases tasks st current path stack with ⟨-, hok⟩ | ⟨-, -, hok⟩ | ⟨-, -, hok⟩ |
    ⟨hfresh, dep, hfind, herror⟩
  · exact nomatch hok.symm.trans h
  · exact nomatch hok.symm.trans h
  · exact nomatch hok.symm.trans h
  · exact ⟨hfresh, dep, hfind, Except.error.inj (h.symm.trans herror)⟩

/-! ### What the search has seen -/

def Seen (st : Search) (x : String) : Prop := x ∈ st.visiting ∨ x ∈ st.visited

/-- All that `x` leads to has been seen, or will be reached from the frames. -/
def Covered (tasks : Tasks) (st : Search) (frames : List Frame) (x : String) : Prop :=
  ∀ y, ReflTransGen (Depends tasks) x y →
    Seen st y ∨ ∃ f ∈ frames, ReflTransGen (Depends tasks) f.1 y

/-- The state of a search from `start`. -/
structure Inv (tasks : Tasks) (start : String) (st : Search) : Prop where
  frames : ∀ f ∈ st.stack,
    f.2.IsChain (Depends tasks) ∧ f.2.head? = some start ∧ f.2.getLast? = some f.1
  forward : st.visiting.Pairwise fun later earlier => ¬ Depends tasks later earlier
  no_self : ∀ x ∈ st.visiting, ¬ Depends tasks x x
  /-- All that a visited task leads to has been seen, … -/
  visited_covered : ∀ x ∈ st.visited, Covered tasks st [] x
  /-- … and it is on no cycle. -/
  visited_acyclic : ∀ x ∈ st.visited, ¬ TransGen (Depends tasks) x x
  /-- What a task leads to that is not on the way to a frame will be reached from the frames above
  it. -/
  pending : ∀ above f below, st.stack = above ++ f :: below → ∀ x ∈ st.visiting,
    (x = f.1 ∨ x ∉ f.2) → Covered tasks st above x
  start_covered : Covered tasks st st.stack start

theorem inv_initial (tasks : Tasks) (start : String) : Inv tasks start (initial start) where
  frames f hf := by
    rw [List.mem_singleton.mp hf]
    exact ⟨List.IsChain.singleton start, rfl, rfl⟩
  forward := List.Pairwise.nil
  no_self x hx := absurd hx List.not_mem_nil
  visited_covered x hx := absurd hx List.not_mem_nil
  visited_acyclic x hx := absurd hx List.not_mem_nil
  pending _ _ _ _ x hx := absurd hx List.not_mem_nil
  start_covered y hy := .inr ⟨_, List.mem_singleton_self _, hy⟩

/-- A frame whose task has been searched can be left out. -/
theorem Covered.drop {f : Frame} {frames : List Frame} {x : String}
    (h : Covered tasks st (f :: frames) x) (hf : Covered tasks st [] f.1) :
    Covered tasks st frames x := by
  intro y hy
  rcases h y hy with hseen | ⟨g, hg, hgy⟩
  · exact .inl hseen
  · rcases List.mem_cons.mp hg with rfl | hg
    · rcases hf y hgy with hseen | ⟨g, hg, -⟩
      · exact .inl hseen
      · exact absurd hg List.not_mem_nil
    · exact .inr ⟨g, hg, hgy⟩

theorem Covered.mono {frames frames' : List Frame} {x : String} (h : Covered tasks st frames x)
    (hseen : ∀ y, Seen st y → Seen st' y) (hframes : frames ⊆ frames') :
    Covered tasks st' frames' x := by
  intro y hy
  rcases h y hy with hy | ⟨f, hf, hfy⟩
  · exact .inl (hseen y hy)
  · exact .inr ⟨f, hframes hf, hfy⟩

/-! ### Each round keeps the state -/

/-- A task that is visited already. -/
theorem Inv.skip (h : Inv tasks start st) (hstack : st.stack = (current, path) :: stack)
    (hvisited : current ∈ st.visited) : Inv tasks start { st with stack := stack } where
  frames f hf := h.frames f (hstack ▸ List.mem_cons_of_mem _ hf)
  forward := h.forward
  no_self := h.no_self
  visited_covered := h.visited_covered
  visited_acyclic := h.visited_acyclic
  pending above f below hsplit x hx hf := by
    have hold := h.pending ((current, path) :: above) f below
      (hstack.trans (congrArg _ hsplit)) x hx hf
    exact hold.drop (h.visited_covered current hvisited)
  start_covered := by
    have hold := h.start_covered
    rw [hstack] at hold
    exact hold.drop (h.visited_covered current hvisited)

/-- A task whose second copy comes off the stack: all that it leads to has been searched, and it is
on no cycle. -/
theorem Inv.finish (h : Inv tasks start st) (hstack : st.stack = (current, path) :: stack)
    (hvisiting : current ∈ st.visiting) :
    Inv tasks start ⟨st.visiting.erase current, current :: st.visited, stack⟩ := by
  have hseen : ∀ y, Seen st y →
      Seen ⟨st.visiting.erase current, current :: st.visited, stack⟩ y := by
    rintro y (hy | hy)
    · by_cases hyc : y = current
      · exact .inr (hyc ▸ List.mem_cons_self)
      · exact .inl ((List.mem_erase_of_ne hyc).mpr hy)
    · exact .inr (List.mem_cons_of_mem current hy)
  have hcovered : Covered tasks st [] current :=
    h.pending [] (current, path) stack hstack current hvisiting (.inl rfl)
  -- a cycle through the task would stay among the tasks taken up, against their order
  have hacyclic : ¬ TransGen (Depends tasks) current current := by
    intro hcycle
    refine not_transGen_of_forward h.forward h.no_self (fun x hx hback => ?_) hcycle
    rcases hcovered x hx with hseenx | ⟨f, hf, -⟩
    · refine hseenx.resolve_right fun hvisited => h.visited_acyclic x hvisited ?_
      exact (hcycle.trans_right hback).trans_left hx
    · exact absurd hf List.not_mem_nil
  refine ⟨fun f hf => h.frames f (hstack ▸ List.mem_cons_of_mem _ hf),
    h.forward.sublist List.erase_sublist, fun x hx => h.no_self x (List.mem_of_mem_erase hx),
    fun x hx => ?_, fun x hx => ?_, fun above f below hsplit x hx hf => ?_, ?_⟩
  · rcases List.mem_cons.mp hx with rfl | hx
    · exact hcovered.mono hseen (List.Subset.refl _)
    · exact (h.visited_covered x hx).mono hseen (List.Subset.refl _)
  · rcases List.mem_cons.mp hx with rfl | hx
    · exact hacyclic
    · exact h.visited_acyclic x hx
  · have hold := h.pending ((current, path) :: above) f below
      (hstack.trans (congrArg _ hsplit)) x (List.mem_of_mem_erase hx) hf
    exact (hold.drop hcovered).mono hseen (List.Subset.refl _)
  · have hold := h.start_covered
    rw [hstack] at hold
    exact (hold.drop hcovered).mono hseen (List.Subset.refl _)

theorem mem_pushed {deps : List String} {f : Frame} :
    f ∈ pushed visited path deps ↔ ∃ dep ∈ deps, dep ∉ visited ∧ f = (dep, path ++ [dep]) := by
  rw [pushed, List.mem_reverse, List.mem_map]
  constructor
  · rintro ⟨dep, hdep, rfl⟩
    obtain ⟨hmem, hnot⟩ := List.mem_filter.mp hdep
    exact ⟨dep, hmem, of_decide_eq_true hnot, rfl⟩
  · rintro ⟨dep, hmem, hnot, rfl⟩
    exact ⟨dep, List.mem_filter.mpr ⟨hmem, decide_eq_true hnot⟩, rfl⟩

/-- A task that is taken up is replaced by what it depends on. -/
theorem Covered.expand {frames : List Frame} {x : String} (h : Inv tasks start st)
    (hx : Covered tasks st ((current, path) :: frames) x) :
    Covered tasks ⟨current :: st.visiting, st.visited, stack⟩
      (pushed st.visited path (dependsOn tasks current) ++ frames) x := by
  have hseen : ∀ y, Seen st y → Seen ⟨current :: st.visiting, st.visited, stack⟩ y :=
    fun y hy => hy.imp (List.mem_cons_of_mem current) id
  intro y hy
  rcases hx y hy with hy | ⟨f, hf, hfy⟩
  · exact .inl (hseen y hy)
  · rcases List.mem_cons.mp hf with rfl | hf
    · rcases ReflTransGen.cases_head hfy with rfl | ⟨dep, hdep, hrest⟩
      · exact .inl (.inl List.mem_cons_self)
      · by_cases hvisited : dep ∈ st.visited
        · rcases h.visited_covered dep hvisited y hrest with hy | ⟨g, hg, -⟩
          · exact .inl (hseen y hy)
          · exact absurd hg List.not_mem_nil
        · have hpushed : (dep, path ++ [dep]) ∈ pushed st.visited path (dependsOn tasks current) :=
            mem_pushed.mpr ⟨dep, hdep, hvisited, rfl⟩
          exact .inr ⟨_, List.mem_append_left _ hpushed, hrest⟩
    · exact .inr ⟨f, List.mem_append_right _ hf, hfy⟩

/-- A way goes on to what its last task depends on. -/
theorem way_concat {dep : String} (hchain : path.IsChain (Depends tasks))
    (hhead : path.head? = some start) (hlast : path.getLast? = some current)
    (hdep : Depends tasks current dep) :
    (path ++ [dep]).IsChain (Depends tasks) ∧ (path ++ [dep]).head? = some start := by
  constructor
  · refine List.isChain_append.mpr ⟨hchain, List.IsChain.singleton dep, ?_⟩
    intro x hx y hy
    obtain rfl : current = x := Option.some.inj (hlast.symm.trans hx)
    obtain rfl : dep = y := Option.some.inj hy
    exact hdep
  · rw [List.head?_append_of_ne_nil _ (List.ne_nil_of_mem (List.mem_of_getLast? hlast))]
    exact hhead

/-- An element of two lists put together, with what is before and after it. -/
theorem mem_or_split {α : Type} {first second above below : List α} {f : α}
    (h : first ++ second = above ++ f :: below) :
    f ∈ first ∨ ∃ between, above = first ++ between ∧ second = between ++ f :: below := by
  rcases List.append_eq_append_iff.mp h with h | ⟨rest, rfl, hrest⟩
  · exact .inr h
  · rcases List.cons_eq_append_iff.mp hrest with ⟨rfl, rfl⟩ | ⟨rest, rfl, -⟩
    · exact .inr ⟨[], by rw [List.append_nil, List.append_nil], rfl⟩
    · exact .inl (List.mem_append_right above List.mem_cons_self)

/-- **A task that is taken up**, none of whose dependencies is in the visiting set. -/
theorem Inv.takeUp (h : Inv tasks start st) (hstack : st.stack = (current, path) :: stack)
    (hnone : ∀ dep ∈ dependsOn tasks current, dep ∉ current :: st.visiting) :
    Inv tasks start ⟨current :: st.visiting, st.visited,
      pushed st.visited path (dependsOn tasks current) ++ stack⟩ := by
  obtain ⟨hchain, hhead, hlast⟩ := h.frames (current, path) (hstack ▸ List.mem_cons_self)
  have hcurrent : current ∈ path := List.mem_of_getLast? hlast
  have hseen : ∀ y, Seen st y → Seen ⟨current :: st.visiting, st.visited,
      pushed st.visited path (dependsOn tasks current) ++ stack⟩ y :=
    fun y hy => hy.imp (List.mem_cons_of_mem current) id
  refine ⟨fun f hf => ?_, ?_, fun x hx => ?_, fun x hx => ?_, h.visited_acyclic,
    fun above f below hsplit x hx hf => ?_, ?_⟩
  · rcases List.mem_append.mp hf with hf | hf
    · obtain ⟨dep, hdep, -, rfl⟩ := mem_pushed.mp hf
      obtain ⟨hchain', hhead'⟩ := way_concat hchain hhead hlast hdep
      exact ⟨hchain', hhead', List.getLast?_concat⟩
    · exact h.frames f (hstack ▸ List.mem_cons_of_mem _ hf)
  · refine List.pairwise_cons.mpr ⟨fun earlier hearlier hdep => ?_, h.forward⟩
    exact hnone earlier hdep (List.mem_cons_of_mem current hearlier)
  · rcases List.mem_cons.mp hx with rfl | hx
    · exact fun hdep => hnone x hdep List.mem_cons_self
    · exact h.no_self x hx
  · exact (h.visited_covered x hx).mono hseen (List.Subset.refl _)
  · -- the frame is one of those just pushed, or was on the stack before
    rcases mem_or_split hsplit with hpushed | ⟨above, rfl, hbelow⟩
    · obtain ⟨dep, hdep, -, rfl⟩ := mem_pushed.mp hpushed
      rcases hf with rfl | hf
      · exact absurd hx (hnone x hdep)
      · have hpath : x ∉ path := fun hx => hf (List.mem_append_left [dep] hx)
        rcases List.mem_cons.mp hx with rfl | hx
        · exact absurd hcurrent hpath
        · have hold := h.pending [] (current, path) stack hstack x hx (.inr hpath)
          exact hold.mono hseen (List.nil_subset above)
    · rcases List.mem_cons.mp hx with rfl | hx
      · refine Covered.expand h fun y hy => ?_
        exact .inr ⟨(x, path), List.mem_cons_self, hy⟩
      · have hold := h.pending ((current, path) :: above) f below
          (hstack.trans (congrArg _ hbelow)) x hx hf
        exact hold.expand h
  · have hold := h.start_covered
    rw [hstack] at hold
    exact hold.expand h

/-- **A round keeps the state.** -/
theorem Inv.round (h : Inv tasks start st) (hround : Round tasks st st') : Inv tasks start st' := by
  obtain ⟨current, path, stack, hstack, hvisit⟩ := hround
  rcases visit_eq_ok hvisit with ⟨hvisited, rfl⟩ | ⟨hvisiting, rfl⟩ | ⟨-, hnone, rfl⟩
  · exact h.skip hstack hvisited
  · exact h.finish hstack hvisiting
  · exact h.takeUp hstack hnone

/-! ### The end of the search -/

/-- **When nothing is left to visit, there is no cycle.** -/
theorem Inv.no_cycle (h : Inv tasks start st) (hstack : st.stack = []) :
    ¬ CycleReachable tasks start := by
  rintro ⟨x, hx, hcycle⟩
  have hcovered : Covered tasks st [] start := hstack ▸ h.start_covered
  refine not_transGen_of_forward h.forward h.no_self (fun y hxy hyx => ?_) hcycle
  -- all of the cycle has been seen, and none of it is visited
  rcases hcovered y (hx.trans hxy) with hseen | ⟨f, hf, -⟩
  · refine hseen.resolve_right fun hvisited => h.visited_acyclic y hvisited ?_
    exact (hcycle.trans_right hyx).trans_left hxy
  · exact absurd hf List.not_mem_nil

/-- **When a dependency is found in the visiting set, the result is right if it leads back.** -/
theorem Inv.correct_iff (h : Inv tasks start st) (hstack : st.stack = (current, path) :: stack)
    (hfresh : Fresh st current) {dep : String}
    (hfind : (dependsOn tasks current).find? (· ∈ current :: st.visiting) = some dep) :
    CorrectResult tasks start (some (path ++ [dep])) ↔
      ReflTransGen (Depends tasks) dep current := by
  obtain ⟨hchain, hhead, hlast⟩ := h.frames (current, path) (hstack ▸ List.mem_cons_self)
  have hcurrent : current ∈ path := List.mem_of_getLast? hlast
  have hdep : Depends tasks current dep := List.mem_of_find?_eq_some hfind
  have hmem : dep ∈ current :: st.visiting := by
    have hfound := List.find?_some hfind
    exact of_decide_eq_true hfound
  constructor
  · rintro ⟨-, hcloses⟩
    obtain ⟨-, -, way, last, hsplit, hway⟩ := hcloses _ rfl
    obtain ⟨rfl, hlast'⟩ := List.append_inj' hsplit rfl
    obtain rfl : dep = last := List.singleton_inj.mp hlast'
    exact reflTransGen_getLast hchain hlast hway
  · intro hback
    have hpath : dep ∈ path := by
      -- otherwise all that the dependency leads to would have been seen, the task among it
      by_contra hpath
      rcases List.mem_cons.mp hmem with rfl | hvisiting
      · exact hpath hcurrent
      · rcases h.pending [] (current, path) stack hstack dep hvisiting (.inr hpath) current hback
          with hseen | ⟨f, hf, -⟩
        · exact hseen.elim hfresh.2 hfresh.1
        · exact absurd hf List.not_mem_nil
    have hreach : ReflTransGen (Depends tasks) start current :=
      reflTransGen_head hchain hhead hcurrent
    refine ⟨iff_of_true rfl ⟨current, hreach, TransGen.head' hdep hback⟩, ?_⟩
    rintro cycle hcycle
    obtain rfl := Option.some.inj hcycle
    obtain ⟨hchain', hhead'⟩ := way_concat hchain hhead hlast hdep
    exact ⟨hchain', hhead', path, dep, rfl, hpath⟩

/-! ### The rounds are enough -/

/-- The number of dependencies of a task that is not seen. -/
def openDep (seen : List String) (t : String × CronTask) : ℕ :=
  if t.1 ∈ seen then 0 else t.2.dependsOn.length

/-- The number of dependencies of the tasks that are not seen. -/
def openDeps (seen : List String) (tasks : Tasks) : ℕ := (tasks.map (openDep seen)).sum

theorem openDep_anti {seen seen' : List String} (h : seen ⊆ seen') (t : String × CronTask) :
    openDep seen' t ≤ openDep seen t := by
  unfold openDep
  by_cases hseen : t.1 ∈ seen
  · rw [if_pos hseen, if_pos (h hseen)]
  · rw [if_neg hseen]
    split_ifs
    · exact Nat.zero_le _
    · exact Nat.le_refl _

theorem openDeps_anti {seen seen' : List String} (h : seen ⊆ seen') (tasks : Tasks) :
    openDeps seen' tasks ≤ openDeps seen tasks := by
  induction tasks with
  | nil => exact Nat.le_refl 0
  | cons t tasks ih =>
      show openDep seen' t + openDeps seen' tasks ≤ openDep seen t + openDeps seen tasks
      exact Nat.add_le_add (openDep_anti h t) ih

theorem openDeps_nil (tasks : Tasks) : openDeps [] tasks = dependencyCount tasks := by
  refine congrArg List.sum (List.map_congr_left fun t _ => ?_)
  exact if_neg List.not_mem_nil

/-- A task that is taken up no longer counts with its dependencies. -/
theorem openDeps_takeUp {seen seen' : List String} (h : seen ⊆ seen') (hnew : current ∉ seen)
    (hseen : current ∈ seen') (tasks : Tasks) :
    (dependsOn tasks current).length + openDeps seen' tasks ≤ openDeps seen tasks := by
  induction tasks with
  | nil => exact Nat.le_refl 0
  | cons t tasks ih =>
      obtain ⟨taskId, task⟩ := t
      simp only [openDeps, List.map_cons, List.sum_cons] at ih ⊢
      by_cases hid : current = taskId
      · have hdeps : (dependsOn ((taskId, task) :: tasks) current).length =
            openDep seen (taskId, task) := by
          simp only [dependsOn, hid, List.lookup_cons_self, Option.map_some, Option.getD_some,
            List.length_map]
          exact (if_neg (hid ▸ hnew)).symm
        have hnone : openDep seen' (taskId, task) = 0 := if_pos (hid ▸ hseen)
        have hrest := openDeps_anti h tasks
        simp only [openDeps] at hrest
        omega
      · have hdeps : dependsOn ((taskId, task) :: tasks) current = dependsOn tasks current := by
          rw [dependsOn, dependsOn, List.lookup_cons, beq_false_of_ne hid]
        have hhead := openDep_anti h (taskId, task)
        rw [hdeps]
        omega

/-- What is left to be done. -/
def Search.weight (tasks : Tasks) (st : Search) : ℕ :=
  st.stack.length + openDeps (st.visiting ++ st.visited) tasks

theorem length_pushed_le (visited path deps : List String) :
    (pushed visited path deps).length ≤ deps.length := by
  rw [pushed, List.length_reverse, List.length_map]
  exact List.length_filter_le _ _

/-- Each round leaves less to be done. -/
theorem weight_lt (hstack : st.stack = (current, path) :: stack)
    (h : visit tasks st current path stack = .ok st') : st'.weight tasks < st.weight tasks := by
  have hlength : st.stack.length = stack.length + 1 := congrArg List.length hstack
  unfold Search.weight
  rcases visit_eq_ok h with ⟨-, rfl⟩ | ⟨-, rfl⟩ | ⟨⟨hvisited, hvisiting⟩, -, rfl⟩
  · show stack.length + openDeps (st.visiting ++ st.visited) tasks < _
    omega
  · have hanti : openDeps (st.visiting.erase current ++ current :: st.visited) tasks ≤
        openDeps (st.visiting ++ st.visited) tasks := by
      refine openDeps_anti (fun x hx => ?_) tasks
      by_cases hxc : x = current
      · exact List.mem_append_right _ (hxc ▸ List.mem_cons_self)
      · rcases List.mem_append.mp hx with hx | hx
        · exact List.mem_append_left _ ((List.mem_erase_of_ne hxc).mpr hx)
        · exact List.mem_append_right _ (List.mem_cons_of_mem current hx)
    show stack.length + openDeps (st.visiting.erase current ++ current :: st.visited) tasks < _
    omega
  · have hnew : current ∉ st.visiting ++ st.visited := fun hmem =>
      (List.mem_append.mp hmem).elim hvisiting hvisited
    have htake := openDeps_takeUp (List.subset_cons_self current (st.visiting ++ st.visited)) hnew
      List.mem_cons_self tasks
    have hpushed := length_pushed_le st.visited path (dependsOn tasks current)
    show (pushed st.visited path (dependsOn tasks current) ++ stack).length +
      openDeps (current :: (st.visiting ++ st.visited)) tasks < _
    rw [List.length_append]
    omega

/-- The only round from a state. -/
theorem Round.unique (hstack : st.stack = (current, path) :: stack) (h : Round tasks st st') :
    visit tasks st current path stack = .ok st' := by
  obtain ⟨c, p, s, hstack', hvisit⟩ := h
  obtain ⟨hframe, rfl⟩ := List.cons.inj (hstack.symm.trans hstack')
  obtain ⟨rfl, rfl⟩ := Prod.mk.inj hframe
  exact hvisit

/-- What `LeadsBack` says of the task that comes off the stack. -/
theorem leadsBack_iff (hstack : st.stack = (current, path) :: stack) :
    LeadsBack tasks st ↔ ∀ dep, Fresh st current →
      (dependsOn tasks current).find? (· ∈ current :: st.visiting) = some dep →
      ReflTransGen (Depends tasks) dep current := by
  refine ⟨fun h dep => h current path stack dep hstack, fun h c p s dep hstack' => ?_⟩
  obtain ⟨hframe, rfl⟩ := List.cons.inj (hstack.symm.trans hstack')
  obtain ⟨rfl, rfl⟩ := Prod.mk.inj hframe
  exact h dep

/-- A round that goes on leaves the result to the rest of the search. -/
theorem onlyCycles_of_ok (hstack : st.stack = (current, path) :: stack)
    (h : visit tasks st current path stack = .ok st') :
    OnlyCycles tasks st ↔ OnlyCycles tasks st' := by
  have hround : Round tasks st st' := ⟨current, path, stack, hstack, h⟩
  refine ⟨fun hall later hlater => hall later (hlater.head hround), fun hall later hlater => ?_⟩
  rcases ReflTransGen.cases_head hlater with rfl | ⟨next, hnext, hlater⟩
  · refine (leadsBack_iff hstack).mpr fun dep hfresh hfind => ?_
    exact nomatch h.symm.trans (visit_of_found hfresh hfind path stack)
  · obtain rfl := Except.ok.inj (h.symm.trans (Round.unique hstack hnext))
    exact hall later hlater

/-- Where no round goes on, only this state counts. -/
theorem onlyCycles_of_end (hend : ∀ st', ¬ Round tasks st st') :
    OnlyCycles tasks st ↔ LeadsBack tasks st := by
  refine ⟨fun hall => hall st .refl, fun hback later hlater => ?_⟩
  rcases ReflTransGen.cases_head hlater with rfl | ⟨next, hround, -⟩
  · exact hback
  · exact absurd hround (hend next)

theorem searchLoop_of_ok (hstack : st.stack = (current, path) :: stack)
    (h : visit tasks st current path stack = .ok st') (rounds : ℕ) :
    searchLoop tasks (rounds + 1) st = searchLoop tasks rounds st' := by
  simp only [searchLoop, hstack, h]

theorem searchLoop_of_error (hstack : st.stack = (current, path) :: stack)
    (h : visit tasks st current path stack = .error path') (rounds : ℕ) :
    searchLoop tasks (rounds + 1) st = some (some path') := by
  simp only [searchLoop, hstack, h]

/-- **The rest of the search**, from any state of it. -/
theorem searchLoop_correct_iff (h : Inv tasks start st) {rounds : ℕ}
    (hrounds : st.weight tasks < rounds) :
    (∃ result, searchLoop tasks rounds st = some result ∧ CorrectResult tasks start result) ↔
      OnlyCycles tasks st := by
  induction rounds generalizing st with
  | zero => exact absurd hrounds (Nat.not_lt_zero _)
  | succ rounds ih =>
      cases hstack : st.stack with
      | nil =>
          have hnone : searchLoop tasks (rounds + 1) st = some none := by
            simp only [searchLoop, hstack]
          have hend : ∀ st', ¬ Round tasks st st' := by
            rintro st' ⟨c, p, s, hcons, -⟩
            cases hstack.symm.trans hcons
          rw [onlyCycles_of_end hend]
          refine iff_of_true ⟨none, hnone, ?_, fun cycle hcycle => nomatch hcycle⟩ ?_
          · exact iff_of_false Bool.false_ne_true (h.no_cycle hstack)
          · intro c p s dep hcons
            cases hstack.symm.trans hcons
      | cons frame stack =>
          obtain ⟨current, path⟩ := frame
          cases hvisit : visit tasks st current path stack with
          | ok st' =>
              have hless := weight_lt hstack hvisit
              rw [searchLoop_of_ok hstack hvisit, onlyCycles_of_ok hstack hvisit]
              exact ih (h.round ⟨current, path, stack, hstack, hvisit⟩) (by omega)
          | error cycle =>
              have hend : ∀ st', ¬ Round tasks st st' := fun st' hround =>
                nomatch hvisit.symm.trans (hround.unique hstack)
              rw [searchLoop_of_error hstack hvisit, onlyCycles_of_end hend, leadsBack_iff hstack]
              obtain ⟨hfresh, dep, hfind, rfl⟩ := visit_eq_error hvisit
              have hiff := h.correct_iff hstack hfresh hfind
              constructor
              · rintro ⟨result, hresult, hcorrect⟩ dep' - hfind'
                obtain rfl := Option.some.inj hresult
                obtain rfl := Option.some.inj (hfind.symm.trans hfind')
                exact hiff.mp hcorrect
              · intro hback
                exact ⟨_, rfl, hiff.mpr (hback dep hfresh hfind)⟩

end Search

/-- **When the search for cycles is right**: exactly if it never meets a task again that does not
lead back. -/
theorem detectCycle_correct_iff (tasks : Tasks) (start : String) :
    (∃ result, detectCycle start tasks = some result ∧ CorrectResult tasks start result) ↔
      OnlyCycles tasks (initial start) := by
  refine searchLoop_correct_iff (inv_initial tasks start) ?_
  show 1 + openDeps [] tasks < dependencyCount tasks + 2
  rw [openDeps_nil]
  omega

/-! ### Two ways to one task -/

/-- `top` depends on `left` and on `right`, and each of these on `bottom`. -/
def diamond : Tasks :=
  [("top", ⟨[⟨"left"⟩, ⟨"right"⟩]⟩), ("left", ⟨[⟨"bottom"⟩]⟩), ("right", ⟨[⟨"bottom"⟩]⟩)]

/-- The tasks of the diamond in layers. -/
def diamondLayer (taskId : String) : ℕ :=
  if taskId = "top" then 2 else if taskId = "bottom" then 0 else 1

theorem diamondLayer_lt {a b : String} (h : Depends diamond a b) :
    diamondLayer b < diamondLayer a := by
  by_cases htop : a = "top"
  · subst htop
    rcases List.mem_pair.mp h with rfl | rfl <;> decide
  · by_cases hleft : a = "left"
    · subst hleft
      rw [List.mem_singleton.mp h]
      decide
    · by_cases hright : a = "right"
      · subst hright
        rw [List.mem_singleton.mp h]
        decide
      · have hnone : diamond.lookup a = none := by
          simp only [diamond, List.lookup_cons, beq_false_of_ne htop, beq_false_of_ne hleft,
            beq_false_of_ne hright, List.lookup_nil]
        rw [Depends, dependsOn, hnone] at h
        exact absurd h List.not_mem_nil

theorem diamond_acyclic : Acyclic (Depends diamond) := by
  have hlayers : ∀ a b, TransGen (Depends diamond) a b → diamondLayer b < diamondLayer a := by
    intro a b h
    induction h with
    | single hab => exact diamondLayer_lt hab
    | tail _ hbc ih => exact (diamondLayer_lt hbc).trans ih
  exact fun a hcycle => Nat.lt_irrefl _ (hlayers a a hcycle)

/-- **A diamond is reported as a cycle**, with a way whose last task it does not meet before. -/
theorem diamond_reported :
    detectCycle "top" diamond = some (some ["top", "left", "bottom"]) ∧
      ¬ CycleReachable diamond "top" ∧ ¬ ClosesCycle diamond "top" ["top", "left", "bottom"] := by
  refine ⟨by decide, ?_, ?_⟩
  · rintro ⟨x, -, hcycle⟩
    exact diamond_acyclic x hcycle
  · rintro ⟨-, -, way, last, hsplit, hmem⟩
    obtain ⟨rfl, hlast⟩ : ["top", "left"] = way ∧ ["bottom"] = [last] :=
      List.append_inj' hsplit rfl
    obtain rfl : "bottom" = last := List.singleton_inj.mp hlast
    exact absurd hmem (by decide)

end ClawDesk.Cron
