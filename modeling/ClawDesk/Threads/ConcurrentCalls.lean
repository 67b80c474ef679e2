import ClawDesk.Foundations.Fold
import ClawDesk.Foundations.OwnLog
import ClawDesk.Threads.SequentialRuns

/-!
# Concurrent calls on one store

The lock is taken for each single access, and so the accesses of several calls may come in any
order (`Interleaving`).  A call that has finished made the accesses of one of a few paths
(`trace_appendMessage`, `trace_deleteMessage`, `trace_updateThread`).
-/

namespace ClawDesk.Threads

open Foundations

/-- A call that may run beside others. -/
inductive Call where
  | appendMessage (m : NewMessage)
  | deleteMessage (threadId : Uuid) (timestampUs : ℕ) (msgId : Uuid)
  | updateThread (id : Uuid) (updater : Updater) (now : Instant)

/-- Its accesses. -/
def Call.program : Call → Proc Unit
  | .appendMessage m => do
      let _ ← Threads.appendMessage m
  | .deleteMessage t ts m => do
      let _ ← Threads.deleteMessage t ts m
  | .updateThread id updater now => do
      let _ ← Threads.updateThread id updater.apply now

/-- An access of a call, with its answer. -/
abbrev Happening (Tid : Type) : Type := Event Tid Access Access.Res

/-- What is stored, and what has happened so far. -/
abbrev State (Tid : Type) : Type := Shared Tid Access Access.Res World

variable {Tid : Type}

/-- The next access. -/
def perform (s : State Tid) (ev : Happening Tid) : State Tid :=
  s.push ev (World.serve ev.op s.world).2

/-- What is left of a run. -/
def World.outcome (w : World) (events : List (Happening Tid)) : State Tid :=
  events.foldl perform ⟨w, []⟩

/-- The accesses of calls in some order: the store answers every one of them, and every call has
finished, or it never began. -/
structure Interleaving [DecidableEq Tid] (calls : Tid → Call) (w : World)
    (events : List (Happening Tid)) : Prop where
  answered : EachStep perform ⟨w, []⟩ events fun s ev =>
    ev.res = (World.serve ev.op s.world).1
  finished : ∀ t, own t events = [] ∨ (calls t).program.Trace (own t events) ()

theorem log_outcome (w : World) (events : List (Happening Tid)) :
    (w.outcome events).log = events.reverse := by
  induction events using List.reverseRecOn with
  | nil => rfl
  | append_singleton events ev ih =>
      rw [World.outcome, List.foldl_append, List.reverse_append, ← ih]
      rfl

/-! ### Schedules -/

section Schedules

variable [DecidableEq Tid]

/-- The accesses of the calls in the order of a schedule, and what is left of the calls. -/
def play : (Tid → Proc Unit) → World → List Tid → List (Happening Tid) × (Tid → Proc Unit)
  | left, _, [] => ([], left)
  | left, w, c :: schedule =>
      match left c with
      | .ret _ => play left w schedule
      | .op e k =>
          let rest := play (Function.update left c (k (World.serve e w).1)) (World.serve e w).2
            schedule
          (⟨c, e, (World.serve e w).1⟩ :: rest.1, rest.2)

theorem answered_play (left : Tid → Proc Unit) (s : State Tid) (schedule : List Tid) :
    EachStep perform s (play left s.world schedule).1 fun s ev =>
      ev.res = (World.serve ev.op s.world).1 := by
  induction schedule generalizing left s with
  | nil => exact eachStep_nil
  | cons c schedule ih =>
      rw [play]
      cases left c with
      | ret _ => exact ih left s
      | op e k => exact eachStep_cons.mpr ⟨rfl, ih _ (perform s ⟨c, e, _⟩)⟩

theorem trace_play (left : Tid → Proc Unit) (w : World) (schedule : List Tid) (c : Tid)
    (h : (play left w schedule).2 c = .ret ()) :
    (left c).Trace (own c (play left w schedule).1) () := by
  induction schedule generalizing left w with
  | nil =>
      have hret : left c = .ret () := h
      rw [hret]
      exact .ret ()
  | cons c' schedule ih =>
      rw [play] at h ⊢
      cases hleft : left c' with
      | ret _ =>
          rw [hleft] at h
          exact ih left w h
      | op e k =>
          rw [hleft] at h
          have hrest := ih _ _ h
          show (left c).Trace (own c ((⟨c', e, _⟩ : Happening Tid) :: _)) ()
          by_cases hc : c' = c
          · rw [own_cons_of_eq hc, ← hc, hleft]
            rw [← hc, Function.update_self] at hrest
            exact .op _ hrest
          · rw [Function.update_of_ne (Ne.symm hc)] at hrest
            rwa [own_cons_of_ne hc]

/-- Every schedule by which all calls finish is such a run. -/
theorem interleaving_play {calls : Tid → Call} {w : World} {schedule : List Tid}
    (h : ∀ c, (play (fun c => (calls c).program) w schedule).2 c = .ret ()) :
    Interleaving calls w (play (fun c => (calls c).program) w schedule).1 where
  answered := answered_play _ ⟨w, []⟩ schedule
  finished c := Or.inr (trace_play _ w schedule c (h c))

end Schedules

/-! ### What calls have read -/

/-- The record of a thread that a call has read last; its accesses are newest first. -/
def lastThread (id : Uuid) : List (Sigma Access.Res) → Option ThreadMeta
  | [] => none
  | ⟨.get (.thread id'), r⟩ :: earlier => if id' = id then r else lastThread id earlier
  | _ :: earlier => lastThread id earlier

/-- The value of a counter that a call has read last. -/
def lastCounter (c : Counter) : List (Sigma Access.Res) → ℕ
  | [] => 0
  | ⟨.get (.counter c'), r⟩ :: earlier => if c' = c then r.getD 0 else lastCounter c earlier
  | _ :: earlier => lastCounter c earlier

/-! ### Paths of finished calls -/

variable {l : List (Sigma Access.Res)}

/-- What a record becomes when a message is appended. -/
def ThreadMeta.touched (metadata : ThreadMeta) (now : Instant) : ThreadMeta :=
  { metadata with messageCount := (metadata.messageCount + 1) % 2 ^ 64, updatedAt := now }

/-- What it becomes when a message is deleted. -/
def ThreadMeta.reduced (metadata : ThreadMeta) : ThreadMeta :=
  { metadata with messageCount := metadata.messageCount - 1 }

/-- What it becomes when it is updated. -/
def ThreadMeta.updated (metadata : ThreadMeta) (updater : Updater) (now : Instant) : ThreadMeta :=
  { updater.apply metadata with updatedAt := now }

/-- The accesses of `putThread`. -/
def putThreadPath (id : Uuid) (oldUpdated : Instant) (metadata : ThreadMeta) :
    List (Sigma Access.Res) :=
  [⟨.put (.thread id) metadata, ()⟩,
    ⟨.delete (.idxAgentThread metadata.agentId (timestampMicros oldUpdated) id), ()⟩,
    ⟨.put (.idxAgentThread metadata.agentId (timestampMicros metadata.updatedAt) id) (), ()⟩]

theorem trace_putThread {id : Uuid} {old : Instant} {metadata : ThreadMeta}
    (h : (putThread id old metadata).Trace l ()) : l = putThreadPath id old metadata := by
  obtain ⟨_, _, rfl, h₁⟩ := Prog.trace_op.mp h
  obtain ⟨_, _, rfl, h₂⟩ := Prog.trace_op.mp h₁
  obtain ⟨_, _, rfl, h₃⟩ := Prog.trace_op.mp h₂
  obtain ⟨rfl, -⟩ := Prog.trace_ret.mp h₃
  rfl

/-- The accesses to the global counter. -/
def counterPath (n : Option ℕ) (n' : ℕ) : List (Sigma Access.Res) :=
  [⟨.get (.counter .messages), n⟩, ⟨.put (.counter .messages) n', ()⟩]

theorem trace_incrementCounter (h : (incrementCounter .messages).Trace l ()) :
    ∃ n, l = counterPath n ((n.getD 0 + 1) % 2 ^ 64) := by
  obtain ⟨n, _, rfl, h₁⟩ := Prog.trace_op.mp h
  obtain ⟨_, _, rfl, h₂⟩ := Prog.trace_op.mp h₁
  obtain ⟨rfl, -⟩ := Prog.trace_ret.mp h₂
  exact ⟨n, rfl⟩

theorem trace_decrementCounter (h : (decrementCounter .messages).Trace l ()) :
    ∃ n, l = counterPath n (n.getD 0 - 1) := by
  obtain ⟨n, _, rfl, h₁⟩ := Prog.trace_op.mp h
  obtain ⟨_, _, rfl, h₂⟩ := Prog.trace_op.mp h₁
  obtain ⟨rfl, -⟩ := Prog.trace_ret.mp h₂
  exact ⟨n, rfl⟩

/-- The accesses of `touchThread`. -/
inductive TouchPath (id : Uuid) (now : Instant) : List (Sigma Access.Res) → Prop
  | missing : TouchPath id now [⟨.get (.thread id), none⟩]
  | stored (metadata : ThreadMeta) : TouchPath id now (⟨.get (.thread id), some metadata⟩ ::
      putThreadPath id metadata.updatedAt (metadata.touched now))

theorem trace_touchThread {id : Uuid} {now : Instant} (h : (touchThread id now).Trace l ()) :
    TouchPath id now l := by
  obtain ⟨found, _, rfl, h₁⟩ := Prog.trace_op.mp h
  cases found with
  | none =>
      obtain ⟨rfl, -⟩ := Prog.trace_ret.mp h₁
      exact .missing
  | some metadata =>
      obtain rfl := trace_putThread h₁
      exact .stored metadata

/-- A call drops what its procedure returns. -/
theorem exists_trace_of_call {α : Type} {p : Proc α}
    (h : (p.bind fun _ => .ret ()).Trace l ()) : ∃ a, p.Trace l a := by
  obtain ⟨a, h, -⟩ := Prog.trace_bind_ret.mp h
  exact ⟨a, h⟩

/-- The accesses of `appendMessage`. -/
inductive AppendPath (m : NewMessage) : List (Sigma Access.Res) → Prop
  | mk {touch : List (Sigma Access.Res)} (n : Option ℕ)
      (touched : TouchPath m.threadId m.touched touch) : AppendPath m
        (⟨.put (.message m.threadId (timestampMicros m.now) m.id) (m.message false), ()⟩ ::
          (touch ++ counterPath n ((n.getD 0 + 1) % 2 ^ 64)))

theorem trace_appendMessage {m : NewMessage} (h : (Call.appendMessage m).program.Trace l ()) :
    AppendPath m l := by
  obtain ⟨a, h⟩ := exists_trace_of_call h
  obtain ⟨_, _, rfl, h₁⟩ := Prog.trace_op.mp h
  have h₂ : ((touchThread m.threadId m.touched).bind fun _ =>
      (incrementCounter .messages).bind fun _ => .ret (m.message false)).Trace _ a := h₁
  obtain ⟨touch, _, _, rfl, htouch, h₃⟩ := Prog.trace_bind.mp h₂
  obtain ⟨_, hcounter, -⟩ := Prog.trace_bind_ret.mp h₃
  obtain ⟨n, rfl⟩ := trace_incrementCounter hcounter
  exact .mk n (trace_touchThread htouch)

/-- The accesses by which `deleteMessage` writes the record of the thread. -/
inductive ReducePath (id : Uuid) : List (Sigma Access.Res) → Prop
  | missing : ReducePath id [⟨.get (.thread id), none⟩]
  | stored (metadata : ThreadMeta) : ReducePath id
      [⟨.get (.thread id), some metadata⟩, ⟨.put (.thread id) metadata.reduced, ()⟩]

/-- The accesses of `deleteMessage`. -/
inductive DeletePath (t : Uuid) (ts : ℕ) (m : Uuid) : List (Sigma Access.Res) → Prop
  | missing : DeletePath t ts m [⟨.get (.message t ts m), none⟩]
  | stored {reduce : List (Sigma Access.Res)} (msg : Message) (n : Option ℕ)
      (reduced : ReducePath t reduce) : DeletePath t ts m
        (⟨.get (.message t ts m), some msg⟩ ::
          ((if msg.hasAttachment then [⟨.delete (.attachment m), ()⟩] else []) ++
            ⟨.delete (.message t ts m), ()⟩ :: (reduce ++ counterPath n (n.getD 0 - 1))))

/-- What `deleteMessage` does after the message is gone. -/
theorem trace_reduce {t : Uuid} {a : Bool}
    (h : (do
      if let some metadata ← getThread t then
        ask (.put (.thread t) metadata.reduced)
      decrementCounter .messages
      return true : Proc Bool).Trace l a) :
    ∃ reduce n, ReducePath t reduce ∧ l = reduce ++ counterPath n (n.getD 0 - 1) := by
  obtain ⟨found, _, rfl, h₁⟩ := Prog.trace_op.mp h
  cases found with
  | none =>
      have h₂ : ((decrementCounter .messages).bind fun _ => .ret true).Trace _ a := h₁
      obtain ⟨_, hcounter, -⟩ := Prog.trace_bind_ret.mp h₂
      obtain ⟨n, rfl⟩ := trace_decrementCounter hcounter
      exact ⟨_, n, .missing, rfl⟩
  | some metadata =>
      obtain ⟨_, _, rfl, h₂⟩ := Prog.trace_op.mp h₁
      have h₃ : ((decrementCounter .messages).bind fun _ => .ret true).Trace _ a := h₂
      obtain ⟨_, hcounter, -⟩ := Prog.trace_bind_ret.mp h₃
      obtain ⟨n, rfl⟩ := trace_decrementCounter hcounter
      exact ⟨_, n, .stored metadata, rfl⟩

theorem trace_deleteMessage {t m : Uuid} {ts : ℕ}
    (h : (Call.deleteMessage t ts m).program.Trace l ()) : DeletePath t ts m l := by
  obtain ⟨a, h⟩ := exists_trace_of_call h
  obtain ⟨found, _, rfl, h₁⟩ := Prog.trace_op.mp h
  cases found with
  | none =>
      obtain ⟨rfl, -⟩ := Prog.trace_ret.mp h₁
      exact .missing
  | some msg =>
      cases hflag : msg.hasAttachment with
      | true =>
          simp only [Prog.ret_bind, hflag, if_true] at h₁
          obtain ⟨_, _, rfl, h₂⟩ := Prog.trace_op.mp h₁
          obtain ⟨_, _, rfl, h₃⟩ := Prog.trace_op.mp h₂
          obtain ⟨reduce, n, hreduce, rfl⟩ := trace_reduce h₃
          have hpath : DeletePath t ts m _ := .stored msg n hreduce
          rw [hflag, if_pos rfl] at hpath
          exact hpath
      | false =>
          simp only [Prog.ret_bind, hflag, Bool.false_eq_true, if_false] at h₁
          obtain ⟨_, _, rfl, h₂⟩ := Prog.trace_op.mp h₁
          obtain ⟨reduce, n, hreduce, rfl⟩ := trace_reduce h₂
          have hpath : DeletePath t ts m _ := .stored msg n hreduce
          rw [hflag, if_neg (by simp)] at hpath
          exact hpath

/-- The accesses of `updateThread`. -/
inductive UpdatePath (id : Uuid) (updater : Updater) (now : Instant) :
    List (Sigma Access.Res) → Prop
  | missing : UpdatePath id updater now [⟨.get (.thread id), none⟩]
  | stored (metadata : ThreadMeta) : UpdatePath id updater now
      (⟨.get (.thread id), some metadata⟩ ::
        putThreadPath id metadata.updatedAt (metadata.updated updater now))

theorem trace_updateThread {id : Uuid} {updater : Updater} {now : Instant}
    (h : (Call.updateThread id updater now).program.Trace l ()) :
    UpdatePath id updater now l := by
  obtain ⟨a, h⟩ := exists_trace_of_call h
  obtain ⟨found, _, rfl, h₁⟩ := Prog.trace_op.mp h
  cases found with
  | none =>
      obtain ⟨rfl, -⟩ := Prog.trace_ret.mp h₁
      exact .missing
  | some metadata =>
      have h₂ : ((putThread id metadata.updatedAt (metadata.updated updater now)).bind fun _ =>
          .ret (.ok (metadata.updated updater now))).Trace _ a := h₁
      obtain ⟨_, hput, -⟩ := Prog.trace_bind_ret.mp h₂
      obtain rfl := trace_putThread hput
      exact .stored metadata

end ClawDesk.Threads
