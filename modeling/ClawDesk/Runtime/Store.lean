import ClawDesk.Foundations.Interleaving
import ClawDesk.Runtime.Keys
import Mathlib.Algebra.Order.BigOperators.Group.List
import Mathlib.Data.Char
import Mathlib.Data.List.AList
import Mathlib.Data.List.Sort

/-!
# The world the runtime works in

The runtime's procedures are programs over the operations below: reads and
writes of the shared store, clock readings, draws from the fence counter of the
process, calls to an agent.  `World.exec` says how each is answered and what it
does.  Any store operation may fail, and then changes nothing; time never runs
backwards; what an agent answers is arbitrary.

`FENCE_COUNTER` is a static of the process.  A `Process` is one process
lifetime: a restart is a new `Process`, whose counter starts at 1 again.
-/

namespace ClawDesk.Runtime

open Foundations

/-- One lifetime of an operating-system process. -/
abbrev Process := ℕ

/-- What a call on a lease hands back to its caller. -/
inductive Report where
  | lease (result : Except RuntimeError Lease)
  | done (result : Except RuntimeError Unit)

/-- The operations a procedure of the runtime may ask for. -/
inductive Op where
  | get (k : Key)
  | put (k : Key) (v : k.Val)
  | delete (k : Key)
  | scan (pre : List Char)
  /-- `Utc::now()`. -/
  | clock
  /-- `FENCE_COUNTER.fetch_add(1)` in the given process. -/
  | fetchAddFence (p : Process)
  /-- `RunId::new()`. -/
  | newRunId
  /-- `runner_factory.create_runner(config)`. -/
  | createRunner (config : AgentConfig)
  /-- `runner.run(history, system_prompt)`. -/
  | runAgent (config : AgentConfig) (history : List ChatMessage) (systemPrompt : String)
  /-- The same under `tokio::time::timeout`; no answer when the time is up. -/
  | runAgentWithin (secs : ℕ) (config : AgentConfig) (history : List ChatMessage)
      (systemPrompt : String)
  /-- `agent_configs.get(agent_id)`. -/
  | agentConfig (agentId : String)
  | sleep (ms : ℕ)
  /-- `start.elapsed().as_millis()`. -/
  | elapsedMs
  /-- The printed form of `retry_policy.delay_for_attempt(attempt)`, a computation
  in floating point. -/
  | printDelay (policy : RetryPolicy) (attempt : ℕ)
  /-- The call returns to its caller. -/
  | report (r : Report)

/-- What an operation is answered with. -/
@[reducible] def Op.Res : Op → Type
  | get k => Except StorageError (Option k.Val)
  | put _ _ => Except StorageError Unit
  | delete _ => Except StorageError Unit
  | scan _ => Except StorageError (List (Sigma Key.Val))
  | clock => Instant
  | fetchAddFence _ => ℕ
  | newRunId => RunId
  | createRunner _ => Except ClawDeskError Unit
  | runAgent _ _ _ => Except ClawDeskError AgentResponse
  | runAgentWithin _ _ _ _ => Option (Except ClawDeskError AgentResponse)
  | agentConfig _ => Option AgentConfig
  | sleep _ => Unit
  | elapsedMs => ℕ
  | printDelay _ _ => String
  | report _ => Unit

/-- A procedure of the runtime. -/
abbrev Proc (α : Type) : Type := Prog Op Op.Res α

/-- Ask one operation. -/
abbrev ask (e : Op) : Proc e.Res := Prog.ask e

/-- The shared world. -/
structure World where
  store : AList Key.Val
  now : Instant
  fenceCounter : Process → ℕ
  /-- Run ids handed out so far. -/
  drawn : List RunId

namespace World

/-- Nothing stored, no counter used. -/
def initial (now : Instant) : World where
  store := ∅
  now := now
  fenceCounter := fun _ => 1
  drawn := []

/-- The entries whose keys start with `pre`, in the order of the keys. -/
def scan (w : World) (pre : List Char) : List (Sigma Key.Val) :=
  (w.store.entries.filter fun e => e.1.startsWith pre).insertionSort
    fun a b => a.1.text ≤ b.1.text

def put (w : World) (k : Key) (v : k.Val) : World := { w with store := w.store.insert k v }

def erase (w : World) (k : Key) : World := { w with store := w.store.erase k }

/-- How an operation is answered.  A new run id is one that no call has drawn and
no key mentions. -/
def exec : (e : Op) → World → e.Res → World → Prop
  | .get k, w, r, w' => w' = w ∧ (r = .ok (w.store.lookup k) ∨ ∃ err, r = .error err)
  | .put k v, w, r, w' => (r = .ok () ∧ w' = w.put k v) ∨ ((∃ err, r = .error err) ∧ w' = w)
  | .delete k, w, r, w' => (r = .ok () ∧ w' = w.erase k) ∨ ((∃ err, r = .error err) ∧ w' = w)
  | .scan pre, w, r, w' => w' = w ∧ (r = .ok (w.scan pre) ∨ ∃ err, r = .error err)
  | .clock, w, r, w' => r = w.now ∧ w' = w
  | .fetchAddFence p, w, r, w' =>
      r = w.fenceCounter p ∧
        w' = { w with fenceCounter := Function.update w.fenceCounter p (w.fenceCounter p + 1) }
  | .newRunId, w, r, w' =>
      (r ∉ w.drawn ∧ r ∉ w.store.keys.map Key.runId) ∧ w' = { w with drawn := r :: w.drawn }
  | .createRunner _, w, _, w' => w' = w
  | .runAgent _ _ _, w, _, w' => w' = w
  | .runAgentWithin _ _ _ _, w, _, w' => w' = w
  | .agentConfig _, w, _, w' => w' = w
  | .sleep _, w, _, w' => w' = w
  | .elapsedMs, w, _, w' => w' = w
  | .printDelay _ _, w, _, w' => w' = w
  | .report _, w, _, w' => w' = w

/-- Time passes. -/
def passes (w w' : World) : Prop := ∃ t, w.now ≤ t ∧ w' = { w with now := t }

@[simp] theorem put_store (w : World) (k : Key) (v : k.Val) :
    (w.put k v).store = w.store.insert k v := rfl

@[simp] theorem erase_store (w : World) (k : Key) : (w.erase k).store = w.store.erase k := rfl

/-- A scan returns what is stored under the keys with the prefix. -/
theorem mem_scan {w : World} {pre : List Char} {k : Key} {v : k.Val} :
    (⟨k, v⟩ : Sigma Key.Val) ∈ w.scan pre ↔ pre <+: k.text ∧ w.store.lookup k = some v := by
  rw [scan, List.mem_insertionSort, List.mem_filter, Key.startsWith_iff, and_comm,
    ← AList.mem_lookup_iff, Option.mem_def]

/-- Keys come strictly in order, so no key comes twice. -/
theorem scan_sorted (w : World) (pre : List Char) :
    (w.scan pre).Pairwise fun a b => a.1.text < b.1.text := by
  have hle : (w.scan pre).Pairwise fun a b => a.1.text ≤ b.1.text := by
    have : Std.Total (fun a b : Sigma Key.Val => a.1.text ≤ b.1.text) :=
      ⟨fun a b => le_total a.1.text b.1.text⟩
    have : IsTrans (Sigma Key.Val) (fun a b : Sigma Key.Val => a.1.text ≤ b.1.text) :=
      ⟨fun _ _ _ => le_trans⟩
    exact List.pairwise_insertionSort _ _
  have hne : (w.scan pre).Pairwise fun a b => a.1.text ≠ b.1.text := by
    have hnodup : (w.scan pre).NodupKeys :=
      (List.perm_nodupKeys (List.perm_insertionSort _ _)).mpr
        (w.store.nodupKeys.sublist List.filter_sublist)
    exact hnodup.pairwise_ne.imp fun h heq => h (Key.text_injective heq)
  exact (hle.and hne).imp fun ⟨h, hne⟩ => lt_of_le_of_ne h hne

/-- An operation changes no entry but the one it writes. -/
theorem lookup_of_exec {e : Op} {w w' : World} {r : e.Res} {k : Key} (h : exec e w r w')
    (hput : ∀ v, e ≠ .put k v) (hdelete : e ≠ .delete k) :
    w'.store.lookup k = w.store.lookup k := by
  cases e with
  | put k' v =>
      rcases h with ⟨-, rfl⟩ | ⟨-, rfl⟩
      · have hk : k ≠ k' := fun hk => hput (hk ▸ v) (by subst hk; rfl)
        exact AList.lookup_insert_ne hk
      · rfl
  | delete k' =>
      rcases h with ⟨-, rfl⟩ | ⟨-, rfl⟩
      · have hk : k ≠ k' := fun hk => hdelete (by rw [hk])
        exact AList.lookup_erase_ne hk
      · rfl
  | get | scan => rw [h.1]
  | clock | fetchAddFence | newRunId => rw [h.2]
  | _ => exact h ▸ rfl

/-- Operations take no time. -/
theorem now_of_exec {e : Op} {w w' : World} {r : e.Res} (h : exec e w r w') :
    w'.now = w.now := by
  cases e with
  | put | delete => rcases h with ⟨-, rfl⟩ | ⟨-, rfl⟩ <;> rfl
  | get | scan => rw [h.1]
  | clock | fetchAddFence | newRunId => rw [h.2]
  | _ => exact h ▸ rfl

/-- The counters of the processes only grow. -/
theorem fenceCounter_le_of_exec {e : Op} {w w' : World} {r : e.Res} (h : exec e w r w')
    (p : Process) : w.fenceCounter p ≤ w'.fenceCounter p := by
  cases e with
  | put | delete => rcases h with ⟨-, rfl⟩ | ⟨-, rfl⟩ <;> exact le_rfl
  | get | scan => rw [h.1]
  | clock | newRunId => rw [h.2]
  | fetchAddFence q =>
      rw [h.2]
      by_cases hp : p = q
      · subst hp
        simp
      · simp [hp]
  | _ => exact (congrArg (·.fenceCounter p) h).ge

end World

/-- The system the runtime's calls run in. -/
def runtimeSystem : System Op Op.Res World where
  exec := World.exec
  env := World.passes

/-! ### Store access -/

/-- `store.get(&key)?`. -/
def getEntry (k : Key) : Proc (Except RuntimeError (Option k.Val)) :=
  (ask (.get k)).mapError .storage

/-- `store.put(&key, &bytes)?`. -/
def putEntry (k : Key) (v : k.Val) : Proc (Except RuntimeError Unit) :=
  (ask (.put k v)).mapError .storage

/-- `store.scan(&prefix)?`. -/
def scanEntries (pre : List Char) : Proc (Except RuntimeError (List (Sigma Key.Val))) :=
  (ask (.scan pre)).mapError .storage

/-! ### A world in which nothing fails -/

/-- A run id longer than all the given ones. -/
def freshRunId (used : List RunId) : RunId where
  text := String.ofList (List.replicate (1 + (used.map (·.text.toList.length)).sum) 'r')
  noColon := by simp

theorem freshRunId_notMem (used : List RunId) : freshRunId used ∉ used := by
  intro hmem
  have hle := List.le_sum_of_mem (List.mem_map_of_mem (f := fun r => r.text.toList.length) hmem)
  simp [freshRunId] at hle

/-- Every store operation succeeds and every agent answers `reply`. -/
def World.serve (reply : Except ClawDeskError AgentResponse) : (e : Op) → World → e.Res × World
  | .get k, w => (.ok (w.store.lookup k), w)
  | .put k v, w => (.ok (), w.put k v)
  | .delete k, w => (.ok (), w.erase k)
  | .scan pre, w => (.ok (w.scan pre), w)
  | .clock, w => (w.now, w)
  | .fetchAddFence p, w =>
      (w.fenceCounter p,
        { w with fenceCounter := Function.update w.fenceCounter p (w.fenceCounter p + 1) })
  | .newRunId, w =>
      (freshRunId (w.drawn ++ w.store.keys.map Key.runId),
        { w with drawn := freshRunId (w.drawn ++ w.store.keys.map Key.runId) :: w.drawn })
  | .createRunner _, w => (.ok (), w)
  | .runAgent _ _ _, w => (reply, w)
  | .runAgentWithin _ _ _ _, w => (some reply, w)
  | .agentConfig _, w => (none, w)
  | .sleep _, w => ((), w)
  | .elapsedMs, w => (0, w)
  | .printDelay _ _, w => ("", w)
  | .report _, w => ((), w)

theorem World.exec_serve (reply : Except ClawDeskError AgentResponse) (e : Op) (w : World) :
    World.exec e w (w.serve reply e).1 (w.serve reply e).2 := by
  cases e with
  | get | scan => exact ⟨rfl, .inl rfl⟩
  | put | delete => exact .inl ⟨rfl, rfl⟩
  | clock => exact ⟨rfl, rfl⟩
  | fetchAddFence => exact ⟨rfl, rfl⟩
  | newRunId =>
      have h := freshRunId_notMem (w.drawn ++ w.store.keys.map Key.runId)
      rw [List.mem_append, not_or] at h
      exact ⟨h, rfl⟩
  | _ => rfl

/-- The reliable world as a driver of schedules; time passes in nanoseconds. -/
def reliable (reply : Except ClawDeskError AgentResponse) : Driver runtimeSystem where
  serve := World.serve reply
  tick n w := { w with now := w.now + n }
  exec_serve := World.exec_serve reply
  env_tick n w := ⟨w.now + n, Int.le_add_of_nonneg_right (by simp), rfl⟩

end ClawDesk.Runtime
