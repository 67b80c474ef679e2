import ClawDesk.Foundations.Interleaving
import Mathlib.Algebra.Group.Nat.Defs
import Mathlib.Data.Fintype.Basic

/-!
# The versioned configuration

One cell holds the current snapshot of all registries.  A writer loads it, forks it with
one registry replaced and a new generation number, and stores the fork, without a look at
what the cell holds by then.

So a writer undoes what was stored since it loaded.  In runs in which nobody who replaces
another registry stores in between, and the generations are stored in the order in which they were
drawn, no update is lost and the generation never decreases (`no_lost_update`).
-/

namespace ClawDesk.Gateway

open Foundations

/-! ### Snapshots -/

/-- The registries of a snapshot. -/
inductive Registry where
  | channels
  | providers
  | skills
  | agents
  | a2a
  deriving DecidableEq

instance : Fintype Registry where
  elems := {.channels, .providers, .skills, .agents, .a2a}
  complete r := by cases r <;> decide

/-- A versioned, structurally-shared configuration snapshot, generic over the types of the
registries. -/
structure ConfigSnapshot (V : Registry → Type) where
  generation : UInt64
  channels : V .channels
  providers : V .providers
  skills : V .skills
  agents : V .agents
  a2a : V .a2a
  createdAt : ℕ
  fingerprint : String

/-- Builder for forking a snapshot. -/
structure SnapshotBuilder (V : Registry → Type) where
  channels : V .channels
  providers : V .providers
  skills : V .skills
  agents : V .agents
  a2a : V .a2a

variable {V : Registry → Type}

namespace SnapshotBuilder

def get (builder : SnapshotBuilder V) : (r : Registry) → V r
  | .channels => builder.channels
  | .providers => builder.providers
  | .skills => builder.skills
  | .agents => builder.agents
  | .a2a => builder.a2a

/-- Replace a registry. -/
def set (builder : SnapshotBuilder V) : (r : Registry) → V r → SnapshotBuilder V
  | .channels, channels => { builder with channels := channels }
  | .providers, providers => { builder with providers := providers }
  | .skills, skills => { builder with skills := skills }
  | .agents, agents => { builder with agents := agents }
  | .a2a, a2a => { builder with a2a := a2a }

def setChannels (builder : SnapshotBuilder V) : V .channels → SnapshotBuilder V :=
  builder.set .channels

def setProviders (builder : SnapshotBuilder V) : V .providers → SnapshotBuilder V :=
  builder.set .providers

def setSkills (builder : SnapshotBuilder V) : V .skills → SnapshotBuilder V :=
  builder.set .skills

def setAgents (builder : SnapshotBuilder V) : V .agents → SnapshotBuilder V :=
  builder.set .agents

def setA2a (builder : SnapshotBuilder V) : V .a2a → SnapshotBuilder V :=
  builder.set .a2a

theorem get_set_of_ne {builder : SnapshotBuilder V} {r r' : Registry} {v : V r} (h : r' ≠ r) :
    (builder.set r v).get r' = builder.get r' := by
  cases r <;> cases r' <;> first | exact absurd rfl h | rfl

end SnapshotBuilder

/-- The registries that a fork starts from. -/
def ConfigSnapshot.builder (snapshot : ConfigSnapshot V) : SnapshotBuilder V where
  channels := snapshot.channels
  providers := snapshot.providers
  skills := snapshot.skills
  agents := snapshot.agents
  a2a := snapshot.a2a

def ConfigSnapshot.get (snapshot : ConfigSnapshot V) (r : Registry) : V r := snapshot.builder.get r

/-- A mutation that replaces one registry, by a value that may depend on what the builder
holds. -/
structure Replacement (V : Registry → Type) where
  registry : Registry
  value : SnapshotBuilder V → V registry

def Replacement.mutate (m : Replacement V) (builder : SnapshotBuilder V) : SnapshotBuilder V :=
  builder.set m.registry (m.value builder)

/-! ### Operations -/

/-- The atomic steps of a writer. -/
inductive MvccOp (V : Registry → Type) where
  /-- `current.load_full()`. -/
  | load
  /-- `GENERATION_COUNTER.fetch_add(1)`. -/
  | nextGeneration
  /-- `Instant::now()`. -/
  | now
  /-- Push to the history and trim it, under its lock. -/
  | push (snapshot : ConfigSnapshot V)
  /-- `current.store`. -/
  | store (snapshot : ConfigSnapshot V)

@[reducible] def MvccOp.Res : MvccOp V → Type
  | load => ConfigSnapshot V
  | nextGeneration => UInt64
  | now => ℕ
  | push _ => Unit
  | store _ => Unit

abbrev MvccProc (V : Registry → Type) (α : Type) := Prog (MvccOp V) MvccOp.Res α

/-- Fork a new generation from this snapshot. -/
def ConfigSnapshot.fork (snapshot : ConfigSnapshot V)
    (mutate : SnapshotBuilder V → SnapshotBuilder V) : MvccProc V (ConfigSnapshot V) :=
  let builder := mutate snapshot.builder
  (Prog.ask MvccOp.nextGeneration).bind fun generation =>
  (Prog.ask MvccOp.now).bind fun createdAt =>
  .ret {
    generation := generation
    channels := builder.channels
    providers := builder.providers
    skills := builder.skills
    agents := builder.agents
    a2a := builder.a2a
    createdAt := createdAt
    fingerprint := "" }

/-- The store, with the counter of generations, which all stores share. -/
structure MvccConfigStore (V : Registry → Type) where
  current : ConfigSnapshot V
  history : List (ConfigSnapshot V)
  maxHistory : ℕ
  generationCounter : ℕ

namespace MvccConfigStore

/-- Commit a new snapshot. -/
def commit (snapshot : ConfigSnapshot V) : MvccProc V UInt64 :=
  (Prog.ask (MvccOp.push snapshot)).bind fun _ =>
  (Prog.ask (MvccOp.store snapshot)).bind fun _ => .ret snapshot.generation

/-- Fork the current snapshot, apply mutations, and commit. -/
def forkAndCommit (mutate : SnapshotBuilder V → SnapshotBuilder V) : MvccProc V UInt64 :=
  (Prog.ask MvccOp.load).bind fun current => (current.fork mutate).bind commit

/-- A new store.  The initial snapshot has drawn its generation. -/
def new (initial : ConfigSnapshot V) (maxHistory : ℕ) : MvccConfigStore V where
  current := initial
  history := [initial]
  maxHistory := maxHistory
  generationCounter := initial.generation.toNat + 1

/-- How an operation is answered.  The counter has 64 bits and wraps around. -/
def exec : (e : MvccOp V) → MvccConfigStore V → e.Res → MvccConfigStore V → Prop
  | .load, w, r, w' => r = w.current ∧ w' = w
  | .nextGeneration, w, r, w' =>
      r = UInt64.ofNat w.generationCounter ∧
        w' = { w with generationCounter := w.generationCounter + 1 }
  | .now, w, _, w' => w' = w
  | .push snapshot, w, _, w' =>
      let history := w.history ++ [snapshot]
      w' = { w with history := history.drop (history.length - w.maxHistory) }
  | .store snapshot, w, _, w' => w' = { w with current := snapshot }

/-- Generations are drawn for other stores. -/
def drawnElsewhere (w w' : MvccConfigStore V) : Prop :=
  ∃ n, w.generationCounter ≤ n ∧ w' = { w with generationCounter := n }

def mvccSystem : System (MvccOp V) MvccOp.Res (MvccConfigStore V) := ⟨exec, drawnElsewhere⟩

end MvccConfigStore

/-! ### Runs -/

def MvccOp.Loads : MvccOp V → Prop
  | load => True
  | _ => False

def MvccOp.Draws : MvccOp V → Prop
  | nextGeneration => True
  | _ => False

def MvccOp.Stores : MvccOp V → Prop
  | store _ => True
  | _ => False

instance : DecidablePred (MvccOp.Loads (V := V))
  | .load => isTrue trivial
  | .nextGeneration | .now | .push _ | .store _ => isFalse id

instance : DecidablePred (MvccOp.Draws (V := V))
  | .nextGeneration => isTrue trivial
  | .load | .now | .push _ | .store _ => isFalse id

instance : DecidablePred (MvccOp.Stores (V := V))
  | .store _ => isTrue trivial
  | .load | .nextGeneration | .now | .push _ => isFalse id

namespace MvccConfigStore

variable {Tid : Type} (calls : Tid → Replacement V)

abbrev MvccEvent (Tid : Type) (V : Registry → Type) := Event Tid (MvccOp V) MvccOp.Res
abbrev MvccState (Tid : Type) (V : Registry → Type) :=
  Shared Tid (MvccOp V) MvccOp.Res (MvccConfigStore V)

/-- The calls that may start: each replaces one registry. -/
def Client (t : Tid) (p : MvccProc V Unit) : Prop :=
  p = (forkAndCommit (calls t).mutate).bind fun _ => .ret ()

/-- The value set by the last committed call that replaced the registry. -/
def lastSet (initial : ConfigSnapshot V) (r : Registry) : List (MvccEvent Tid V) → V r
  | [] => initial.get r
  | ev :: log =>
      match ev.op with
      | .store snapshot =>
          if (calls ev.tid).registry = r then snapshot.get r else lastSet initial r log
      | _ => lastSet initial r log

def LoadOf (t : Tid) (ev : MvccEvent Tid V) : Prop := ev.tid = t ∧ ev.op.Loads
def DrawOf (t : Tid) (ev : MvccEvent Tid V) : Prop := ev.tid = t ∧ ev.op.Draws
def StoreOf (t : Tid) (ev : MvccEvent Tid V) : Prop := ev.tid = t ∧ ev.op.Stores

/-- The event replaces the registry. -/
def Replaces (r : Registry) (ev : MvccEvent Tid V) : Prop :=
  ev.op.Stores ∧ (calls ev.tid).registry = r

instance [DecidableEq Tid] (t : Tid) : DecidablePred (LoadOf (V := V) t) :=
  fun _ => inferInstanceAs (Decidable (_ ∧ _))

instance [DecidableEq Tid] (t : Tid) : DecidablePred (DrawOf (V := V) t) :=
  fun _ => inferInstanceAs (Decidable (_ ∧ _))

instance [DecidableEq Tid] (t : Tid) : DecidablePred (StoreOf (V := V) t) :=
  fun _ => inferInstanceAs (Decidable (_ ∧ _))

instance (r : Registry) : DecidablePred (Replaces calls r) :=
  fun _ => inferInstanceAs (Decidable (_ ∧ _))

/-- Since the call has loaded the snapshot, the registry has been replaced. -/
def Replaced (t : Tid) (r : Registry) (log : List (MvccEvent Tid V)) : Prop :=
  Since (LoadOf t) (Replaces calls r) log

/-- Since the call has drawn its generation, another one has drawn a later one and
stored. -/
def Overtaken (t : Tid) (log : List (MvccEvent Tid V)) : Prop :=
  ∃ u, Since (DrawOf t) (DrawOf u) log ∧ Since (DrawOf t) (StoreOf u) log

/-- A call stores only if nobody has stored another registry since it loaded and nobody
with a later generation has stored; and the counter does not wrap around. -/
def Timely (s : MvccState Tid V) (ev : MvccEvent Tid V) : Prop :=
  match ev.op with
  | .store _ =>
      (∀ r, r ≠ (calls ev.tid).registry → ¬ Replaced calls ev.tid r s.log) ∧
        ¬ Overtaken ev.tid s.log
  | .nextGeneration => s.world.generationCounter < 2 ^ 64
  | _ => True

instance [DecidableEq Tid] (t : Tid) (r : Registry) (log : List (MvccEvent Tid V)) :
    Decidable (Replaced calls t r log) := inferInstanceAs (Decidable (Since _ _ log))

instance [DecidableEq Tid] [Fintype Tid] (t : Tid) (log : List (MvccEvent Tid V)) :
    Decidable (Overtaken t log) := inferInstanceAs (Decidable (∃ _, _))

instance [DecidableEq Tid] [Fintype Tid] (s : MvccState Tid V) :
    (ev : MvccEvent Tid V) → Decidable (Timely calls s ev)
  | ⟨_, .store _, _⟩ => inferInstanceAs (Decidable (_ ∧ _))
  | ⟨_, .nextGeneration, _⟩ => inferInstanceAs (Decidable (_ < _))
  | ⟨_, .load, _⟩ | ⟨_, .now, _⟩ | ⟨_, .push _, _⟩ => isTrue trivial

/-! ### The invariant -/

variable {calls} {initial snapshot base : ConfigSnapshot V} {t u : Tid} {r : Registry}
  {g : UInt64} {s : MvccState Tid V} {ev : MvccEvent Tid V} {log : List (MvccEvent Tid V)}
  {w : MvccConfigStore V}

/-- The snapshot holds what was set last, and its generation has been drawn. -/
structure Inv (calls : Tid → Replacement V) (initial : ConfigSnapshot V)
    (s : MvccState Tid V) : Prop where
  latest : ∀ r, s.world.current.get r = lastSet calls initial r s.log
  drawn : ∀ {u} {g : UInt64}, (⟨u, .nextGeneration, g⟩ : MvccEvent Tid V) ∈ s.log →
    g.toNat < s.world.generationCounter
  generation : s.world.current.generation.toNat < s.world.generationCounter

/-- What a store does: nothing to the other registries, and nothing to the order of the
generations. -/
def Keeps (calls : Tid → Replacement V) (s : MvccState Tid V) (ev : MvccEvent Tid V) : Prop :=
  ∀ snapshot, ev.op = .store snapshot →
    (∀ r, r ≠ (calls ev.tid).registry → snapshot.get r = s.world.current.get r) ∧
      s.world.current.generation ≤ snapshot.generation ∧
      (⟨ev.tid, .nextGeneration, snapshot.generation⟩ : MvccEvent Tid V) ∈ s.log

/-- What the argument tracks. -/
def proto (calls : Tid → Replacement V) (initial : ConfigSnapshot V) :
    Proto Tid (MvccOp V) MvccOp.Res (MvccConfigStore V) where
  sys := mvccSystem
  cond := Timely calls
  inv := Inv calls initial
  assert := Keeps calls

theorem inv_new (maxHistory : ℕ) : Inv calls initial ⟨new initial maxHistory, []⟩ where
  latest _ := rfl
  drawn h := absurd h List.not_mem_nil
  generation := Nat.lt_succ_self _

theorem inv_drift (h : Inv calls initial s) (hmoves : drawnElsewhere s.world w) :
    Inv calls initial (s.drift w) := by
  obtain ⟨n, hn, rfl⟩ := hmoves
  exact ⟨h.latest, fun hmem => Nat.lt_of_lt_of_le (h.drawn hmem) hn,
    Nat.lt_of_lt_of_le h.generation hn⟩

/-- Only a store changes the snapshot. -/
theorem current_of_exec {e : MvccOp V} {res : e.Res} {w w' : MvccConfigStore V}
    (hexec : exec e w res w') :
    (∃ snapshot, e = .store snapshot ∧ w'.current = snapshot) ∨
      ¬ e.Stores ∧ w'.current = w.current := by
  cases e with
  | load => exact .inr ⟨id, congrArg current hexec.2⟩
  | nextGeneration => exact .inr ⟨id, hexec.2 ▸ rfl⟩
  | now => exact .inr ⟨id, congrArg current hexec⟩
  | push snapshot => exact .inr ⟨id, hexec ▸ rfl⟩
  | store snapshot => exact .inl ⟨snapshot, rfl, hexec ▸ rfl⟩

/-- Only a draw changes the counter. -/
theorem counter_of_exec {e : MvccOp V} {res : e.Res} {w w' : MvccConfigStore V}
    (hdraws : ¬ e.Draws) (hexec : exec e w res w') :
    w'.generationCounter = w.generationCounter := by
  cases e with
  | load => rw [hexec.2]
  | nextGeneration => exact absurd trivial hdraws
  | now => exact congrArg generationCounter hexec
  | push snapshot => exact hexec ▸ rfl
  | store snapshot => exact hexec ▸ rfl

/-- An operation that neither stores nor draws. -/
theorem Inv.quiet (h : Inv calls initial s) (hstores : ¬ ev.op.Stores) (hdraws : ¬ ev.op.Draws)
    (hexec : exec ev.op s.world ev.res w) : Inv calls initial (s.push ev w) := by
  have hcurrent : w.current = s.world.current := by
    rcases current_of_exec hexec with ⟨snapshot, hop, -⟩ | ⟨-, hcurrent⟩
    · rw [hop] at hstores
      exact absurd trivial hstores
    · exact hcurrent
  have hcounter : w.generationCounter = s.world.generationCounter := counter_of_exec hdraws hexec
  refine ⟨fun r => ?_, fun {u g} hmem => ?_, ?_⟩
  · rw [Shared.push_world, hcurrent, h.latest r, Shared.push_log, lastSet]
    split
    · next hop =>
        rw [hop] at hstores
        exact absurd trivial hstores
    · rfl
  · rw [Shared.push_world, hcounter]
    rcases List.mem_cons.mp hmem with rfl | hmem
    · exact absurd trivial hdraws
    · exact h.drawn hmem
  · rw [Shared.push_world, hcurrent, hcounter]
    exact h.generation

/-- A draw, before the counter wraps around. -/
theorem Inv.draw (h : Inv calls initial s) (hcounter : s.world.generationCounter < 2 ^ 64) :
    Inv calls initial (s.push ⟨t, .nextGeneration, UInt64.ofNat s.world.generationCounter⟩
      { s.world with generationCounter := s.world.generationCounter + 1 }) := by
  refine ⟨h.latest, fun {u g} hmem => ?_, Nat.lt_succ_of_lt h.generation⟩
  rcases List.mem_cons.mp hmem with heq | hmem
  · cases heq
    rw [UInt64.toNat_ofNat_of_lt' hcounter]
    exact Nat.lt_succ_self _
  · exact Nat.lt_succ_of_lt (h.drawn hmem)

/-- A store that keeps the other registries. -/
theorem Inv.store (h : Inv calls initial s) (hkeeps : Keeps calls s ⟨t, .store snapshot, ()⟩) :
    Inv calls initial
      (s.push ⟨t, .store snapshot, ()⟩ { s.world with current := snapshot }) := by
  obtain ⟨hsame, -, hdrawn⟩ := hkeeps snapshot rfl
  refine ⟨fun r => ?_, fun {u g} hmem => ?_, h.drawn hdrawn⟩
  · show snapshot.get r = if (calls t).registry = r then snapshot.get r
      else lastSet calls initial r s.log
    by_cases hr : (calls t).registry = r
    · rw [if_pos hr]
    · rw [if_neg hr, ← h.latest r]
      exact hsame r (Ne.symm hr)
  · rcases List.mem_cons.mp hmem with heq | hmem
    · cases heq
    · exact h.drawn hmem

/-! ### What a call knows -/

/-- The call has loaded `base`, which holds what the store holds, registry by registry,
until the registry is replaced. -/
def HasLoaded (calls : Tid → Replacement V) (t : Tid) (base : ConfigSnapshot V)
    (s : MvccState Tid V) : Prop :=
  ∀ r, ¬ Replaced calls t r s.log → base.get r = s.world.current.get r

/-- The call has drawn `g`.  What was drawn before it is smaller, and so is what the store
holds, until the call is overtaken. -/
structure HasDrawn (t : Tid) (g : UInt64) (s : MvccState Tid V) : Prop where
  own : (⟨t, .nextGeneration, g⟩ : MvccEvent Tid V) ∈ s.log
  earlier : ∀ {u} {g' : UInt64}, (⟨u, .nextGeneration, g'⟩ : MvccEvent Tid V) ∈ s.log → g' ≤ g ∨
    Since (DrawOf t) (DrawOf u) s.log
  newest : ¬ Overtaken t s.log → s.world.current.generation ≤ g

/-- Other operations than the next load. -/
theorem HasLoaded.push (h : HasLoaded calls t base s) (hmark : ¬ LoadOf t ev)
    (hkeeps : Keeps calls s ev) (hexec : exec ev.op s.world ev.res w) :
    HasLoaded calls t base (s.push ev w) := by
  intro r hnot
  unfold Replaced at hnot
  rw [Shared.push_log, since_cons hmark] at hnot
  have hbase : base.get r = s.world.current.get r := h r fun hr => hnot (.inr hr)
  rw [hbase, Shared.push_world]
  rcases current_of_exec hexec with ⟨snapshot, hop, hcurrent⟩ | ⟨-, hcurrent⟩
  · have hr : r ≠ (calls ev.tid).registry := by
      rintro rfl
      exact hnot (.inl ⟨hop ▸ trivial, rfl⟩)
    rw [hcurrent]
    exact ((hkeeps snapshot hop).1 r hr).symm
  · rw [hcurrent]

/-- Other operations than the next draw. -/
theorem HasDrawn.push (h : HasDrawn t g s) (hmark : ¬ DrawOf t ev)
    (hkeeps : Keeps calls s ev) (hexec : exec ev.op s.world ev.res w) :
    HasDrawn t g (s.push ev w) := by
  refine ⟨List.mem_cons_of_mem _ h.own, fun {u g'} hmem => ?_, fun hnot => ?_⟩
  · rw [Shared.push_log, since_cons hmark]
    rcases List.mem_cons.mp hmem with rfl | hmem
    · exact .inr (.inl ⟨rfl, trivial⟩)
    · exact (h.earlier hmem).imp_right .inr
  · have hbefore : s.world.current.generation ≤ g := by
      apply h.newest
      rintro ⟨u, hdrew, hstored⟩
      exact hnot ⟨u, (since_cons hmark).mpr (.inr hdrew), (since_cons hmark).mpr (.inr hstored)⟩
    rw [Shared.push_world]
    rcases current_of_exec hexec with ⟨snapshot, hop, hcurrent⟩ | ⟨-, hcurrent⟩
    · rw [hcurrent]
      rcases h.earlier (hkeeps snapshot hop).2.2 with hle | hdrew
      · exact hle
      · refine absurd ⟨ev.tid, ?_, ?_⟩ hnot
        · exact (since_cons hmark).mpr (.inr hdrew)
        · exact (since_cons hmark).mpr (.inl ⟨rfl, hop ▸ trivial⟩)
    · rwa [hcurrent]

theorem stable_hasLoaded : (proto calls initial).Stable t (HasLoaded calls t base) := by
  rintro s s' (⟨-, n, -, rfl⟩ | ⟨other, -, -, hkeeps, hexec, -⟩) h
  · exact h
  · exact h.push (fun hmark => other hmark.1) hkeeps hexec

theorem stable_hasDrawn : (proto calls initial).Stable t (HasDrawn t g) := by
  rintro s s' (⟨-, n, -, rfl⟩ | ⟨other, -, -, hkeeps, hexec, -⟩) h
  · exact ⟨h.own, h.earlier, h.newest⟩
  · exact h.push (fun hmark => other hmark.1) hkeeps hexec

/-- An operation that is no store claims nothing. -/
theorem keeps_of_not_stores (h : ¬ ev.op.Stores) : Keeps calls s ev := by
  intro snapshot hop
  rw [hop] at h
  exact absurd trivial h

/-- The number is the largest one drawn so far. -/
theorem hasDrawn_draw (h : Inv calls initial s) (hcounter : s.world.generationCounter < 2 ^ 64) :
    HasDrawn t (UInt64.ofNat s.world.generationCounter)
      (s.push ⟨t, .nextGeneration, UInt64.ofNat s.world.generationCounter⟩
        { s.world with generationCounter := s.world.generationCounter + 1 }) := by
  have hle {g : UInt64} (hg : g.toNat < s.world.generationCounter) :
      g ≤ UInt64.ofNat s.world.generationCounter := by
    rw [UInt64.le_iff_toNat_le, UInt64.toNat_ofNat_of_lt' hcounter]
    exact Nat.le_of_lt hg
  refine ⟨List.mem_cons_self, fun {u g} hmem => .inl ?_, fun _ => hle h.generation⟩
  rcases List.mem_cons.mp hmem with heq | hmem
  · cases heq
    exact UInt64.le_refl _
  · exact hle (h.drawn hmem)

/-- `commit`, of a fork of `base` with generation `g`. -/
theorem safe_commit (hloaded : HasLoaded calls t base s) (hdrawn : HasDrawn t snapshot.generation s)
    (hfork : ∀ r, r ≠ (calls t).registry → snapshot.get r = base.get r) :
    (proto calls initial).Safe t (commit snapshot) (fun _ _ => True) s := by
  refine Proto.Safe.op (stable_hasLoaded.and stable_hasDrawn) ⟨hloaded, hdrawn⟩
    fun s₁ h₁ hinv _ w _ hexec => ?_
  have hquiet : Keeps calls s₁ ⟨t, .push snapshot, ()⟩ := keeps_of_not_stores id
  refine ⟨hquiet, hinv.quiet id id hexec, ?_⟩
  refine Proto.Safe.op (stable_hasLoaded.and stable_hasDrawn)
    ⟨h₁.1.push (fun hmark => hmark.2) hquiet hexec, h₁.2.push (fun hmark => hmark.2) hquiet hexec⟩
    fun s₂ h₂ hinv _ w hcond hexec => ?_
  obtain ⟨hundisturbed, hinorder⟩ := hcond
  have hkeeps : Keeps calls s₂ ⟨t, .store snapshot, ()⟩ := by
    rintro _ heq
    cases heq
    exact ⟨fun r hr => (hfork r hr).trans (h₂.1 r (hundisturbed r hr)), h₂.2.newest hinorder,
      h₂.2.own⟩
  obtain rfl := hexec
  exact ⟨hkeeps, hinv.store hkeeps, trivial⟩

/-- **A writer is safe.** -/
theorem safe_forkAndCommit :
    (proto calls initial).Safe t (forkAndCommit (calls t).mutate) (fun _ _ => True) s := by
  refine Proto.Safe.op (Proto.stable_const (p := True)) trivial fun s₁ _ hinv base w _ hexec => ?_
  refine ⟨keeps_of_not_stores id, hinv.quiet id id hexec, ?_⟩
  obtain ⟨rfl, rfl⟩ := hexec
  have hloaded : HasLoaded calls t s₁.world.current
      (s₁.push ⟨t, .load, s₁.world.current⟩ s₁.world) := fun _ _ => rfl
  refine Proto.Safe.op stable_hasLoaded hloaded fun s₂ h₂ hinv g w hcond hexec => ?_
  have hdraw : Keeps calls s₂ ⟨t, .nextGeneration, g⟩ := keeps_of_not_stores id
  have hmark : ¬ LoadOf t (⟨t, .nextGeneration, g⟩ : MvccEvent Tid V) := fun hmark => hmark.2
  have hloaded := h₂.push hmark hdraw hexec
  obtain ⟨rfl, rfl⟩ := hexec
  refine ⟨hdraw, hinv.draw hcond, ?_⟩
  refine Proto.Safe.op (stable_hasLoaded.and stable_hasDrawn) ⟨hloaded, hasDrawn_draw hinv hcond⟩
    fun s₃ h₃ hinv createdAt w _ hexec => ?_
  have hnow : Keeps calls s₃ ⟨t, .now, createdAt⟩ := keeps_of_not_stores id
  refine ⟨hnow, hinv.quiet id id hexec, ?_⟩
  exact safe_commit (h₃.1.push (fun hmark => hmark.2) hnow hexec)
    (h₃.2.push (fun hmark => hmark.2) hnow hexec) fun r hr => SnapshotBuilder.get_set_of_ne hr

theorem adequate : (proto calls initial).Adequate (Client calls) where
  env_inv := inv_drift
  client_safe {t p s} hclient _ _ := by
    obtain rfl : p = _ := hclient
    exact .bind safe_forkAndCommit fun _ _ _ => trivial

section

variable [DecidableEq Tid] {maxHistory : ℕ}
  {c c' : Config Tid (MvccOp V) MvccOp.Res (MvccConfigStore V)}

/-- The runs of writers whose operations are timely, on a new store. -/
abbrev TimelyRun (calls : Tid → Replacement V)
    (c c' : Config Tid (MvccOp V) MvccOp.Res (MvccConfigStore V)) : Prop :=
  Run mvccSystem (Client calls) (Timely calls) c c'

theorem good_run (run : TimelyRun calls (Config.idle _ _ _ (new initial maxHistory)) c) :
    (proto calls initial).Good c :=
  (Proto.good_idle (P := proto calls initial) (inv_new maxHistory)).run adequate run

/-- One step, seen from the generation of the snapshot. -/
theorem generation_step {a : Action Tid (MvccOp V) MvccOp.Res (MvccConfigStore V)}
    (good : (proto calls initial).Good c) (step : Step mvccSystem (Client calls) c a c')
    (meets : ∀ ev w, a = .op ev w → Timely calls c.shared ev) :
    c.shared.world.current.generation ≤ c'.shared.world.current.generation := by
  have hkeeps ev w (heq : a = .op ev w) : Keeps calls c.shared ev :=
    good.assert_of_step (heq ▸ step) (meets ev w heq)
  cases step with
  | op running answer =>
      rcases current_of_exec answer with ⟨snapshot, hop, hcurrent⟩ | ⟨-, hcurrent⟩
      · exact hcurrent ▸ (hkeeps _ _ rfl snapshot hop).2.1
      · exact hcurrent ▸ UInt64.le_refl _
  | env moves =>
      obtain ⟨n, -, rfl⟩ := moves
      exact UInt64.le_refl _
  | start => exact UInt64.le_refl _
  | crash => exact UInt64.le_refl _

/-- **No update is lost.**  Any number of writers, each of which replaces one registry, on a
new store.  In every run in which nobody stores over a snapshot in which another registry has been
replaced since it was loaded, nor over a later generation, the current snapshot contains, for each
registry, the value set by the last committed call that replaced it, and the
generation never decreases. -/
theorem no_lost_update (before : TimelyRun calls (Config.idle _ _ _ (new initial maxHistory)) c)
    (after : TimelyRun calls c c') :
    (∀ r, c'.shared.world.current.get r = lastSet calls initial r c'.shared.log) ∧
      c.shared.world.current.generation ≤ c'.shared.world.current.generation := by
  refine ⟨(good_run (before.trans after)).inv.latest, ?_⟩
  induction after with
  | refl => exact UInt64.le_refl _
  | tail run step meets ih =>
      exact UInt64.le_trans ih (generation_step (good_run (before.trans run)) step meets)

end

/-! ### Runs of the code -/

/-- The store, with time standing still and no draw elsewhere. -/
def quiet : Driver (mvccSystem (V := V)) where
  serve
    | .load, w => (w.current, w)
    | .nextGeneration, w =>
        (UInt64.ofNat w.generationCounter,
          { w with generationCounter := w.generationCounter + 1 })
    | .now, w => ((0 : ℕ), w)
    | .push snapshot, w =>
        ((), { w with
          history := (w.history ++ [snapshot]).drop
            ((w.history ++ [snapshot]).length - w.maxHistory) })
    | .store snapshot, w => ((), { w with current := snapshot })
  tick _ w := w
  exec_serve e w := by
    cases e with
    | load => exact ⟨rfl, rfl⟩
    | nextGeneration => exact ⟨rfl, rfl⟩
    | now => rfl
    | push => rfl
    | store => rfl
  env_tick _ w := ⟨w.generationCounter, Nat.le_refl _, rfl⟩

/-- A snapshot with texts for registries. -/
def plain : ConfigSnapshot fun _ => String where
  generation := 1
  channels := "channels"
  providers := "providers"
  skills := "skills"
  agents := "agents"
  a2a := "a2a"
  createdAt := 0
  fingerprint := ""

/-- One call sets the providers, the other one the skills. -/
def twoWriters : Bool → Replacement fun _ => String
  | false => ⟨.providers, fun _ => "new_providers"⟩
  | true => ⟨.skills, fun _ => "new_skills"⟩

/-- Both calls start. -/
def started (schedule : List (Choice Bool (MvccOp fun _ => String) MvccOp.Res)) :
    List (Choice Bool (MvccOp fun _ => String) MvccOp.Res) :=
  .start false ((forkAndCommit (twoWriters false).mutate).bind fun _ => .ret ()) ::
    .start true ((forkAndCommit (twoWriters true).mutate).bind fun _ => .ret ()) :: schedule

/-- What a schedule of the two leads to. -/
def after (schedule : List (Choice Bool (MvccOp fun _ => String) MvccOp.Res)) :
    Config Bool (MvccOp fun _ => String) MvccOp.Res (MvccConfigStore fun _ => String) :=
  (Config.idle _ _ _ (new plain 10)).follow quiet (started schedule)

/-- One writer after the other. -/
def serial : List (Choice Bool (MvccOp fun _ => String) MvccOp.Res) :=
  [.op false, .op false, .op false, .op false, .op false, .op true, .op true, .op true, .op true,
    .op true]

theorem client_of_mem {schedule : List (Choice Bool (MvccOp fun _ => String) MvccOp.Res)}
    (hops : ∀ choice ∈ schedule, ∃ t, choice = .op t) (t : Bool)
    (p : MvccProc (fun _ => String) Unit)
    (h : .start t p ∈ started schedule) : Client twoWriters t p := by
  rcases List.mem_cons.mp h with heq | h
  · cases heq
    rfl
  rcases List.mem_cons.mp h with heq | h
  · cases heq
    rfl
  · obtain ⟨u, hu⟩ := hops _ h
    cases hu

theorem no_lost_update_serial :
    (after serial).shared.world.current.get .providers = "new_providers" ∧
    (after serial).shared.world.current.get .skills = "new_skills" ∧
    plain.generation ≤ (after serial).shared.world.current.generation := by
  have hops : ∀ choice ∈ serial, ∃ t, choice = .op t := by
    simp [serial]
  have hmeets : (Config.idle _ _ _ (new plain 10)).Meets quiet (Timely twoWriters)
      (started serial) := by decide
  obtain ⟨hlatest, hgeneration⟩ := no_lost_update (.refl _)
    (Run.follow (client_of_mem hops) hmeets)
  exact ⟨hlatest .providers, hlatest .skills, hgeneration⟩

/-- Both load before either stores; the one with the later generation has stored, and the other
one is about to. -/
def halfway : List (Choice Bool (MvccOp fun _ => String) MvccOp.Res) :=
  [.op false, .op false, .op true, .op true, .op true, .op true, .op true, .op false, .op false]

/-- **A lost update**: the skills that the second call has set are not in the snapshot that the
first one stores, and the generation falls. -/
theorem update_lost : ∃ c c' : Config Bool (MvccOp fun _ => String) MvccOp.Res
      (MvccConfigStore fun _ => String),
    Run mvccSystem (Client twoWriters) (fun _ _ => True) (Config.idle _ _ _ (new plain 10)) c ∧
    Run mvccSystem (Client twoWriters) (fun _ _ => True) c c' ∧
    (∀ t, c'.call t = some (.ret ())) ∧
    c'.shared.world.current.get .skills ≠ lastSet twoWriters plain .skills c'.shared.log ∧
    ¬ c.shared.world.current.generation ≤ c'.shared.world.current.generation := by
  have hops : ∀ choice ∈ halfway, ∃ t, choice = .op t := by
    simp [halfway]
  refine ⟨after halfway, (after halfway).follow quiet [.op false],
    Run.follow (client_of_mem hops) (Config.meets_true _ _ _),
    Run.follow (by simp) (Config.meets_true _ _ _), ?_, ?_, ?_⟩
  · intro t
    cases t <;> rfl
  · decide
  · decide

end MvccConfigStore

end ClawDesk.Gateway
