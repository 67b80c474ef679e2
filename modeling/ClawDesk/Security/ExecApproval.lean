import ClawDesk.Foundations.Interleaving
import Mathlib.Algebra.GroupWithZero.Nat
import Mathlib.Algebra.Order.BigOperators.Group.List
import Mathlib.Algebra.Order.Group.Nat

/-!
# Approval of executions

A request waits for a decision: somebody approves it, somebody denies it, or its time runs out.
That its time has run out is found out by those who ask for its status or wait for it; who
approves or denies does not look at the deadline.

A decision is final, and all who see one see the same.  But a request that nobody has asked for
since its deadline can still be approved.  In runs in which every approval that comes at the
deadline or later finds a request that has been decided, or that somebody has asked for by then,
every approval is in time (`approvals_in_time`).
-/

namespace ClawDesk.Security

open Foundations

/-! ### Requests -/

/-- Risk level of a command. -/
inductive RiskLevel where
  | low
  | medium
  | high
  deriving DecidableEq

/-- Current state of an execution approval request. -/
inductive ApprovalStatus where
  | pending
  | approved (approver : String) (time : ℤ)
  | denied (approver : String) (time : ℤ) (reason : Option String)
  | timedOut (time : ℤ)
  deriving DecidableEq

def ApprovalStatus.isTerminal (status : ApprovalStatus) : Bool := status ≠ .pending

/-- When the request was decided. -/
def ApprovalStatus.time : ApprovalStatus → Option ℤ
  | pending => none
  | approved _ time => some time
  | denied _ time _ => some time
  | timedOut time => some time

/-- A single approval request. -/
structure ApprovalRequest (Uuid : Type) where
  id : Uuid
  toolName : String
  command : String
  risk : RiskLevel
  createdAt : ℤ
  expiresAt : ℤ
  context : Option String
  deriving DecidableEq

/-- A request and its state. -/
structure ApprovalEntry (Uuid : Type) where
  request : ApprovalRequest Uuid
  status : ApprovalStatus
  deriving DecidableEq

/-- Errors returned by approval operations. -/
inductive ApprovalError (Uuid : Type) where
  | notFound (id : Uuid)
  | alreadyFinalized (id : Uuid)
  deriving DecidableEq

/-- What a reader is told. -/
inductive ApprovalAnswer (Uuid : Type) where
  | status (status : Option ApprovalStatus)
  | decision (decision : Except (ApprovalError Uuid) ApprovalStatus)

/-- The state that a reader sees. -/
def ApprovalAnswer.seen {Uuid : Type} : ApprovalAnswer Uuid → Option ApprovalStatus
  | .status seen => seen
  | .decision (.ok seen) => some seen
  | .decision (.error _) => none

/-! ### Operations -/

/-- The atomic steps: readings of the clock, and what is done to one entry while its guard is
held. -/
inductive ApprovalOp (Uuid : Type) where
  /-- `Utc::now()`. -/
  | now
  /-- Insert a pending request under a new id. -/
  | insert (toolName command : String) (risk : RiskLevel) (context : Option String)
      (createdAt expiresAt : ℤ)
  | approve (id : Uuid) (approver : String)
  | deny (id : Uuid) (approver : String) (reason : Option String)
  /-- `ensure_timeout_if_needed`. -/
  | ensureTimeout (id : Uuid)
  | get (id : Uuid)
  /-- Wait for a notification, for so long at most. -/
  | await (remaining : ℤ)
  /-- `retain`, at one entry. -/
  | sweep (id : Uuid) (cutoff : ℤ)
  /-- A reader is told the state. -/
  | reply (id : Uuid) (answer : ApprovalAnswer Uuid)

/-- The answers.  `ensureTimeout` reads the clock only if the request is pending. -/
@[reducible] def ApprovalOp.Res {Uuid : Type} : ApprovalOp Uuid → Type
  | now => ℤ
  | insert .. => ApprovalRequest Uuid
  | approve .. => Except (ApprovalError Uuid) Unit
  | deny .. => Except (ApprovalError Uuid) Unit
  | ensureTimeout _ => Option ℤ
  | get _ => Option (ApprovalEntry Uuid)
  | await _ => Unit
  | sweep .. => Unit
  | reply .. => Unit

abbrev ApprovalProc (Uuid α : Type) := Prog (ApprovalOp Uuid) ApprovalOp.Res α

/-- The entries, the ids that have been given out, and the clock. -/
structure ApprovalWorld (Uuid : Type) where
  entries : Uuid → Option (ApprovalEntry Uuid)
  issued : List Uuid
  clock : ℤ

namespace ApprovalWorld

variable {Uuid : Type} [DecidableEq Uuid]

def new (clock : ℤ) : ApprovalWorld Uuid := ⟨fun _ => none, [], clock⟩

def insert (w : ApprovalWorld Uuid) (request : ApprovalRequest Uuid) : ApprovalWorld Uuid :=
  { w with
    entries := Function.update w.entries request.id (some ⟨request, .pending⟩)
    issued := request.id :: w.issued }

def setStatus (w : ApprovalWorld Uuid) (id : Uuid) (entry : ApprovalEntry Uuid)
    (status : ApprovalStatus) : ApprovalWorld Uuid :=
  { w with entries := Function.update w.entries id (some { entry with status := status }) }

/-- Decide a request, unless it has been decided. -/
def finalize (w : ApprovalWorld Uuid) (id : Uuid) (status : ApprovalStatus) :
    Except (ApprovalError Uuid) Unit × ApprovalWorld Uuid :=
  match w.entries id with
  | none => (.error (.notFound id), w)
  | some entry =>
      if entry.status.isTerminal then (.error (.alreadyFinalized id), w)
      else (.ok (), w.setStatus id entry status)

/-- Approve a request. -/
def approve (w : ApprovalWorld Uuid) (id : Uuid) (approver : String) :
    Except (ApprovalError Uuid) Unit × ApprovalWorld Uuid :=
  w.finalize id (.approved approver w.clock)

/-- Deny a request. -/
def deny (w : ApprovalWorld Uuid) (id : Uuid) (approver : String) (reason : Option String) :
    Except (ApprovalError Uuid) Unit × ApprovalWorld Uuid :=
  w.finalize id (.denied approver w.clock reason)

/-- A pending request whose time has run out, by a second reading of the clock for the state. -/
def ensureTimeout (w : ApprovalWorld Uuid) (id : Uuid) (time : ℤ) :
    Option ℤ × ApprovalWorld Uuid :=
  match w.entries id with
  | none => (none, w)
  | some entry =>
      if entry.status = .pending then
        (some w.clock,
          if entry.request.expiresAt ≤ w.clock then
            { w.setStatus id entry (.timedOut time) with clock := time }
          else w)
      else (none, w)

/-- Remove an entry that was decided before the cutoff. -/
def sweep (w : ApprovalWorld Uuid) (id : Uuid) (cutoff : ℤ) : ApprovalWorld Uuid :=
  match (w.entries id).bind fun entry => entry.status.time with
  | none => w
  | some time =>
      if cutoff ≤ time then w else { w with entries := Function.update w.entries id none }

/-- How an operation is answered. -/
def exec : (e : ApprovalOp Uuid) → ApprovalWorld Uuid → e.Res → ApprovalWorld Uuid → Prop
  | .now, w, r, w' => r = w.clock ∧ w' = w
  | .insert toolName command risk context createdAt expiresAt, w, r, w' =>
      ∃ id ∉ w.issued, r = ⟨id, toolName, command, risk, createdAt, expiresAt, context⟩ ∧
        w' = w.insert r
  | .approve id approver, w, r, w' => (r, w') = w.approve id approver
  | .deny id approver reason, w, r, w' => (r, w') = w.deny id approver reason
  | .ensureTimeout id, w, r, w' => ∃ time, w.clock ≤ time ∧ (r, w') = w.ensureTimeout id time
  | .get id, w, r, w' => r = w.entries id ∧ w' = w
  | .await _, w, _, w' => w' = w
  | .sweep id cutoff, w, _, w' => w' = w.sweep id cutoff
  | .reply _ _, w, _, w' => w' = w

/-- Time passes. -/
def passes (w w' : ApprovalWorld Uuid) : Prop :=
  ∃ clock, w.clock ≤ clock ∧ w' = { w with clock := clock }

def approvalSystem : System (ApprovalOp Uuid) ApprovalOp.Res (ApprovalWorld Uuid) := ⟨exec, passes⟩

end ApprovalWorld

/-! ### Calls -/

namespace ExecApprovalManager

variable {Uuid : Type}

/-- `chrono::Duration::from_std`, in nanoseconds, with 60 s for what is out of range. -/
def chronoDuration (duration : ℕ) : ℤ :=
  if duration ≤ (2 ^ 63 - 1) * 10 ^ 6 then duration else 60 * 10 ^ 9

/-- Create a new pending approval request. -/
def createRequest (defaultTtl : ℕ) (toolName command : String) (risk : RiskLevel)
    (context : Option String) : ApprovalProc Uuid (ApprovalRequest Uuid) :=
  (Prog.ask ApprovalOp.now).bind fun createdAt =>
  Prog.ask (ApprovalOp.insert toolName command risk context createdAt
    (createdAt + chronoDuration defaultTtl))

/-- Read current status. -/
def status (id : Uuid) : ApprovalProc Uuid (Option ApprovalStatus) :=
  (Prog.ask (ApprovalOp.ensureTimeout id)).bind fun _ =>
  (Prog.ask (ApprovalOp.get id)).bind fun entry => .ret (entry.map (·.status))

/-- Wait until the request is decided; none while it still waits after so many rounds. -/
def waitForDecision (id : Uuid) :
    ℕ → ApprovalProc Uuid (Option (Except (ApprovalError Uuid) ApprovalStatus))
  | 0 => .ret none
  | rounds + 1 =>
      (Prog.ask (ApprovalOp.ensureTimeout id)).bind fun _ =>
      (Prog.ask (ApprovalOp.get id)).bind fun
        | none => .ret (some (.error (.notFound id)))
        | some entry =>
            if entry.status.isTerminal then .ret (some (.ok entry.status))
            else
              (Prog.ask ApprovalOp.now).bind fun now =>
              if entry.request.expiresAt ≤ now then
                (Prog.ask (ApprovalOp.ensureTimeout id)).bind fun _ => waitForDecision id rounds
              else
                (Prog.ask (ApprovalOp.await (entry.request.expiresAt - now))).bind fun _ =>
                waitForDecision id rounds

/-- The entries, one after the other. -/
def sweepAll (cutoff : ℤ) : List Uuid → ApprovalProc Uuid Unit
  | [] => .ret ()
  | id :: ids => (Prog.ask (ApprovalOp.sweep id cutoff)).bind fun _ => sweepAll cutoff ids

/-- Remove terminal requests older than the provided age, wherever the walk over the map leads. -/
def cleanupTerminalOlderThan (age : ℕ) (ids : List Uuid) : ApprovalProc Uuid Unit :=
  (Prog.ask ApprovalOp.now).bind fun now => sweepAll (now - chronoDuration age) ids

/-- The calls that may start. -/
inductive Client {Tid : Type} : Tid → ApprovalProc Uuid Unit → Prop
  | createRequest (t : Tid) (defaultTtl : ℕ) (toolName command : String) (risk : RiskLevel)
      (context : Option String) :
      Client t ((createRequest defaultTtl toolName command risk context).bind fun _ => .ret ())
  | approve (t : Tid) (id : Uuid) (approver : String) :
      Client t ((Prog.ask (ApprovalOp.approve id approver)).bind fun _ => .ret ())
  | deny (t : Tid) (id : Uuid) (approver : String) (reason : Option String) :
      Client t ((Prog.ask (ApprovalOp.deny id approver reason)).bind fun _ => .ret ())
  | status (t : Tid) (id : Uuid) :
      Client t ((status id).bind fun status => Prog.ask (ApprovalOp.reply id (.status status)))
  | waitForDecision (t : Tid) (id : Uuid) (rounds : ℕ) :
      Client t ((waitForDecision id rounds).bind fun
        | some decision => Prog.ask (ApprovalOp.reply id (.decision decision))
        | none => .ret ())
  | cleanup (t : Tid) (age : ℕ) (ids : List Uuid) : Client t (cleanupTerminalOlderThan age ids)

end ExecApprovalManager

/-! ### Runs -/

namespace ApprovalWorld

variable {Tid Uuid : Type} [DecidableEq Uuid]

abbrev ApprovalEvent (Tid Uuid : Type) := Event Tid (ApprovalOp Uuid) ApprovalOp.Res
abbrev ApprovalLog (Tid Uuid : Type) := List (ApprovalEvent Tid Uuid)
abbrev ApprovalState (Tid Uuid : Type) :=
  Shared Tid (ApprovalOp Uuid) ApprovalOp.Res (ApprovalWorld Uuid)

/-- The request has been approved or denied. -/
def Decided (id : Uuid) (log : ApprovalLog Tid Uuid) : Prop :=
  (∃ t approver, (⟨t, .approve id approver, .ok ()⟩ : ApprovalEvent Tid Uuid) ∈ log) ∨
    ∃ t approver reason, (⟨t, .deny id approver reason, .ok ()⟩ : ApprovalEvent Tid Uuid) ∈ log

/-- Somebody has asked for the request when its time had run out. -/
def Polled (id : Uuid) (deadline : ℤ) (log : ApprovalLog Tid Uuid) : Prop :=
  ∃ t now, (⟨t, .ensureTimeout id, some now⟩ : ApprovalEvent Tid Uuid) ∈ log ∧ deadline ≤ now

/-- An approval that comes at the deadline or later finds a request that has been decided, or that
somebody has asked for by then. -/
def Timely (s : ApprovalState Tid Uuid) (ev : ApprovalEvent Tid Uuid) : Prop :=
  ∀ id approver entry, ev.op = .approve id approver → s.world.entries id = some entry →
    entry.request.expiresAt ≤ s.world.clock →
    Decided id s.log ∨ Polled id entry.request.expiresAt s.log

/-! ### What an operation does -/

variable {w w' : ApprovalWorld Uuid} {id : Uuid} {ev : ApprovalEvent Tid Uuid}
  {s : ApprovalState Tid Uuid} {entry : ApprovalEntry Uuid} {status : ApprovalStatus} {t : Tid}

/-- What becomes of an entry. -/
inductive Becomes (ev : ApprovalEvent Tid Uuid) (w : ApprovalWorld Uuid) (issued : List Uuid)
    (id : Uuid) : Option (ApprovalEntry Uuid) → Prop
  | kept : Becomes ev w issued id (w.entries id)
  | created (request : ApprovalRequest Uuid) (fresh : id ∉ w.issued)
      (now : id ∈ issued) :
      Becomes ev w issued id (some ⟨request, .pending⟩)
  | approved (entry : ApprovalEntry Uuid) (approver : String) (held : w.entries id = some entry)
      (pending : entry.status = .pending)
      (event : ev = ⟨ev.tid, .approve id approver, .ok ()⟩) :
      Becomes ev w issued id (some { entry with status := .approved approver w.clock })
  | denied (entry : ApprovalEntry Uuid) (approver : String) (reason : Option String)
      (held : w.entries id = some entry) (pending : entry.status = .pending)
      (event : ev = ⟨ev.tid, .deny id approver reason, .ok ()⟩) :
      Becomes ev w issued id (some { entry with status := .denied approver w.clock reason })
  | timedOut (entry : ApprovalEntry Uuid) (time : ℤ) (held : w.entries id = some entry)
      (pending : entry.status = .pending) :
      Becomes ev w issued id (some { entry with status := .timedOut time })
  | removed (entry : ApprovalEntry Uuid) (held : w.entries id = some entry)
      (terminal : entry.status ≠ .pending) : Becomes ev w issued id none

theorem isTerminal_iff : status.isTerminal = true ↔ status ≠ .pending := decide_eq_true_iff

theorem entries_setStatus (w : ApprovalWorld Uuid) (id : Uuid) (entry : ApprovalEntry Uuid)
    (status : ApprovalStatus) :
    (w.setStatus id entry status).entries id = some { entry with status := status } :=
  Function.update_self ..

/-- A decision is made on a pending request only. -/
theorem finalize_cases (w : ApprovalWorld Uuid) (id : Uuid) (status : ApprovalStatus) :
    (∃ entry, w.entries id = some entry ∧ entry.status = .pending ∧
      w.finalize id status = (.ok (), w.setStatus id entry status)) ∨
    (∃ error, w.finalize id status = (.error error, w)) := by
  rw [finalize]
  cases hheld : w.entries id with
  | none => exact .inr ⟨_, rfl⟩
  | some entry =>
      dsimp only
      split_ifs with hterminal
      · exact .inr ⟨_, rfl⟩
      · exact .inl ⟨entry, rfl, not_not.mp (mt isTerminal_iff.mpr hterminal), rfl⟩

theorem ensureTimeout_cases (w : ApprovalWorld Uuid) (id : Uuid) (time : ℤ) :
    (∃ entry, w.entries id = some entry ∧ entry.status = .pending ∧
      entry.request.expiresAt ≤ w.clock ∧ w.ensureTimeout id time =
        (some w.clock, { w.setStatus id entry (.timedOut time) with clock := time })) ∨
    (∃ entry, w.entries id = some entry ∧ w.clock < entry.request.expiresAt ∧
      w.ensureTimeout id time = (some w.clock, w)) ∨
    w.ensureTimeout id time = (none, w) := by
  rw [ensureTimeout]
  cases hheld : w.entries id with
  | none => exact .inr (.inr rfl)
  | some entry =>
      dsimp only
      split_ifs with hpending hexpired
      · exact .inl ⟨entry, rfl, hpending, hexpired, rfl⟩
      · exact .inr (.inl ⟨entry, rfl, Int.not_le.mp hexpired, rfl⟩)
      · exact .inr (.inr rfl)

theorem sweep_cases (w : ApprovalWorld Uuid) (id : Uuid) (cutoff : ℤ) :
    w.sweep id cutoff = w ∨ ∃ entry, w.entries id = some entry ∧ entry.status ≠ .pending ∧
      w.sweep id cutoff = { w with entries := Function.update w.entries id none } := by
  rw [sweep]
  cases hheld : w.entries id with
  | none => exact .inl rfl
  | some entry =>
      cases htime : entry.status.time with
      | none => exact .inl (by rw [Option.bind_some, htime])
      | some time =>
          rw [Option.bind_some, htime]
          dsimp only
          split_ifs
          · exact .inl rfl
          · refine .inr ⟨entry, rfl, ?_, rfl⟩
            rintro hpending
            rw [hpending] at htime
            cases htime

/-- What an operation leaves: nothing is written, or one entry is. -/
inductive Effect (ev : ApprovalEvent Tid Uuid) (w : ApprovalWorld Uuid) :
    ApprovalWorld Uuid → Prop
  | nothing : Effect ev w w
  | writes {id : Uuid} {value : Option (ApprovalEntry Uuid)} {issued : List Uuid} {clock : ℤ}
      (hissued : ∀ other ∈ w.issued, other ∈ issued) (hbecomes : Becomes ev w issued id value) :
      Effect ev w ⟨Function.update w.entries id value, issued, clock⟩

/-- **What an operation can do.** -/
theorem effect_of_exec (hexec : exec ev.op w ev.res w') : Effect ev w w' := by
  obtain ⟨t, op, res⟩ := ev
  dsimp only at hexec
  cases op with
  -- the decisions and the timeout write a pending entry only, the sweep removes a decided one
  | now => exact hexec.2 ▸ .nothing
  | insert =>
      obtain ⟨new, hfresh, hr, rfl⟩ := hexec
      exact .writes (fun _ => List.mem_cons_of_mem _) (.created _ (hr ▸ hfresh) List.mem_cons_self)
  | approve =>
      rcases finalize_cases w _ _ with ⟨entry, hheld, hpending, heq⟩ | ⟨error, heq⟩
      · obtain ⟨rfl, rfl⟩ := Prod.mk.inj (hexec.trans heq)
        exact .writes (fun _ h => h) (.approved entry _ hheld hpending rfl)
      · obtain ⟨-, rfl⟩ := Prod.mk.inj (hexec.trans heq)
        exact .nothing
  | deny =>
      rcases finalize_cases w _ _ with ⟨entry, hheld, hpending, heq⟩ | ⟨error, heq⟩
      · obtain ⟨rfl, rfl⟩ := Prod.mk.inj (hexec.trans heq)
        exact .writes (fun _ h => h) (.denied entry _ _ hheld hpending rfl)
      · obtain ⟨-, rfl⟩ := Prod.mk.inj (hexec.trans heq)
        exact .nothing
  | ensureTimeout =>
      obtain ⟨time, -, heq'⟩ := hexec
      rcases ensureTimeout_cases w _ time with
        ⟨entry, hheld, hpending, -, heq⟩ | ⟨-, -, -, heq⟩ | heq
      · obtain ⟨rfl, rfl⟩ := Prod.mk.inj (heq'.trans heq)
        exact .writes (fun _ h => h) (.timedOut entry time hheld hpending)
      · obtain ⟨-, rfl⟩ := Prod.mk.inj (heq'.trans heq)
        exact .nothing
      · obtain ⟨-, rfl⟩ := Prod.mk.inj (heq'.trans heq)
        exact .nothing
  | get => exact hexec.2 ▸ .nothing
  | await => exact hexec ▸ .nothing
  | sweep swept cutoff =>
      rcases sweep_cases w swept cutoff with heq | ⟨entry, hheld, hterminal, heq⟩
      · rw [hexec.trans heq]
        exact .nothing
      · rw [hexec.trans heq]
        exact .writes (fun _ h => h) (.removed entry hheld hterminal)
  | reply => exact hexec ▸ .nothing

/-- What becomes of an entry, be it the one that is written or another. -/
theorem becomes_of_exec (hexec : exec ev.op w ev.res w') (id : Uuid) :
    Becomes ev w w'.issued id (w'.entries id) := by
  cases effect_of_exec hexec with
  | nothing => exact .kept
  | @writes written value issued clock hissued hbecomes =>
      by_cases hid : id = written
      · subst hid
        simpa using hbecomes
      · dsimp only
        rw [Function.update_of_ne hid]
        exact .kept

/-- Ids stay given out. -/
theorem issued_of_exec (hexec : exec ev.op w ev.res w') (h : id ∈ w.issued) : id ∈ w'.issued := by
  cases effect_of_exec hexec with
  | nothing => exact h
  | writes hissued => exact hissued id h

/-! ### What every operation keeps -/

/-- The request has been decided, or it has been removed. -/
def Ended (w : ApprovalWorld Uuid) (id : Uuid) : Prop :=
  id ∈ w.issued ∧ ∀ entry, w.entries id = some entry → entry.status ≠ .pending

/-- The request has been decided in this way, if it is still there. -/
def EndedAs (w : ApprovalWorld Uuid) (id : Uuid) (status : ApprovalStatus) : Prop :=
  id ∈ w.issued ∧ ∀ entry, w.entries id = some entry → entry.status = status

/-- From the one state to the other a request keeps what it asks for, leaves the pending state
once at most, and does not come back. -/
def Settles (w w' : ApprovalWorld Uuid) : Prop :=
  ∀ id ∈ w.issued, id ∈ w'.issued ∧ ∀ entry', w'.entries id = some entry' →
    ∃ entry, w.entries id = some entry ∧ entry.request = entry'.request ∧
      (entry.status = .pending ∨ entry'.status = entry.status)

omit [DecidableEq Uuid] in
theorem settles_refl (w : ApprovalWorld Uuid) : Settles w w :=
  fun _ h => ⟨h, fun entry hentry => ⟨entry, hentry, rfl, .inr rfl⟩⟩

omit [DecidableEq Uuid] in
theorem Settles.trans {w'' : ApprovalWorld Uuid} (h : Settles w w') (h' : Settles w' w'') :
    Settles w w'' := by
  intro id hissued
  obtain ⟨hissued', hentries⟩ := h id hissued
  obtain ⟨hissued'', hentries'⟩ := h' id hissued'
  refine ⟨hissued'', fun entry'' hentry'' => ?_⟩
  obtain ⟨entry', hentry', hrequest', hstatus'⟩ := hentries' entry'' hentry''
  obtain ⟨entry, hentry, hrequest, hstatus⟩ := hentries entry' hentry'
  refine ⟨entry, hentry, hrequest.trans hrequest', ?_⟩
  rcases hstatus with hpending | hsame
  · exact .inl hpending
  · rw [hsame] at hstatus'
    exact hstatus'

theorem settles_of_exec (hexec : exec ev.op w ev.res w') : Settles w w' := by
  intro id hissued
  refine ⟨issued_of_exec hexec hissued, fun entry' hentry' => ?_⟩
  have hbecomes := becomes_of_exec hexec id
  generalize w'.entries id = value at hbecomes hentry'
  cases hbecomes with
  | kept => exact ⟨entry', hentry', rfl, .inr rfl⟩
  | created request fresh => exact absurd hissued fresh
  | approved entry approver held pending =>
      obtain rfl := Option.some.inj hentry'
      exact ⟨entry, held, rfl, .inl pending⟩
  | denied entry approver reason held pending =>
      obtain rfl := Option.some.inj hentry'
      exact ⟨entry, held, rfl, .inl pending⟩
  | timedOut entry time held pending =>
      obtain rfl := Option.some.inj hentry'
      exact ⟨entry, held, rfl, .inl pending⟩
  | removed => cases hentry'

omit [DecidableEq Uuid] in
theorem settles_of_passes (h : passes w w') : Settles w w' := by
  obtain ⟨clock, -, rfl⟩ := h
  exact settles_refl w

omit [DecidableEq Uuid] in
theorem Settles.ended (h : Settles w w') (hended : Ended w id) : Ended w' id := by
  obtain ⟨hissued, hentries⟩ := h id hended.1
  refine ⟨hissued, fun entry' hentry' => ?_⟩
  obtain ⟨entry, hentry, -, hpending | hsame⟩ := hentries entry' hentry'
  · exact absurd hpending (hended.2 entry hentry)
  · exact hsame ▸ hended.2 entry hentry

omit [DecidableEq Uuid] in
theorem Settles.endedAs (h : Settles w w') (hended : EndedAs w id status)
    (hterminal : status ≠ .pending) : EndedAs w' id status := by
  obtain ⟨hissued, hentries⟩ := h id hended.1
  refine ⟨hissued, fun entry' hentry' => ?_⟩
  obtain ⟨entry, hentry, -, hpending | hsame⟩ := hentries entry' hentry'
  · exact absurd ((hended.2 entry hentry).symm.trans hpending) hterminal
  · exact hsame.trans (hended.2 entry hentry)

/-! ### The invariant -/

/-- What has been decided, polled or seen is so, and what is approved was approved in time. -/
structure Inv (s : ApprovalState Tid Uuid) : Prop where
  issued : ∀ id entry, s.world.entries id = some entry → id ∈ s.world.issued
  decided : ∀ id, Decided id s.log → Ended s.world id
  polled : ∀ t id now, (⟨t, .ensureTimeout id, some now⟩ : ApprovalEvent Tid Uuid) ∈ s.log →
    id ∈ s.world.issued ∧ ∀ entry, s.world.entries id = some entry →
      entry.request.expiresAt ≤ now → entry.status ≠ .pending
  seen : ∀ t id entry, (⟨t, .get id, some entry⟩ : ApprovalEvent Tid Uuid) ∈ s.log →
    entry.status ≠ .pending → EndedAs s.world id entry.status
  agree : ∀ t t' id entry entry', (⟨t, .get id, some entry⟩ : ApprovalEvent Tid Uuid) ∈ s.log →
    (⟨t', .get id, some entry'⟩ : ApprovalEvent Tid Uuid) ∈ s.log →
    entry.status ≠ .pending → entry'.status ≠ .pending → entry.status = entry'.status
  replies : ∀ t id answer, (⟨t, .reply id answer, ()⟩ : ApprovalEvent Tid Uuid) ∈ s.log →
    ∀ status, answer.seen = some status →
      ∃ entry, (⟨t, .get id, some entry⟩ : ApprovalEvent Tid Uuid) ∈ s.log ∧ entry.status = status
  inTime : ∀ id entry approver time, s.world.entries id = some entry →
    entry.status = .approved approver time → time < entry.request.expiresAt ∧
      ∃ t, (⟨t, .approve id approver, .ok ()⟩ : ApprovalEvent Tid Uuid) ∈ s.log

/-- An approval that is accepted comes before the deadline, and a reader is told what it has
seen. -/
structure Claim (s : ApprovalState Tid Uuid) (ev : ApprovalEvent Tid Uuid) : Prop where
  inTime : ∀ id approver, ev = ⟨ev.tid, .approve id approver, .ok ()⟩ →
    ∃ entry, s.world.entries id = some entry ∧ entry.status = .pending ∧
      s.world.clock < entry.request.expiresAt
  replies : ∀ id answer status, ev.op = .reply id answer → answer.seen = some status →
    ∃ entry, (⟨ev.tid, .get id, some entry⟩ : ApprovalEvent Tid Uuid) ∈ s.log ∧
      entry.status = status

omit [DecidableEq Uuid] in
theorem inv_new (clock : ℤ) : Inv (⟨new clock, []⟩ : ApprovalState Tid Uuid) where
  issued _ _ h := nomatch h
  decided _ h := by
    rcases h with ⟨t, approver, hmem⟩ | ⟨t, approver, reason, hmem⟩
    · exact absurd hmem List.not_mem_nil
    · exact absurd hmem List.not_mem_nil
  polled _ _ _ h := absurd h List.not_mem_nil
  seen _ _ _ h := absurd h List.not_mem_nil
  agree _ _ _ _ _ h := absurd h List.not_mem_nil
  replies _ _ _ h := absurd h List.not_mem_nil
  inTime _ _ _ _ h := nomatch h

omit [DecidableEq Uuid] in
theorem Inv.drift (h : Inv s) (hpasses : passes s.world w) : Inv (s.drift w) := by
  obtain ⟨clock, -, rfl⟩ := hpasses
  exact ⟨h.issued, h.decided, h.polled, h.seen, h.agree, h.replies, h.inTime⟩

/-- A decision ends the request. -/
theorem Inv.ended_finalize (h : Inv s) (hok : (.ok (), w) = s.world.finalize id status)
    (hterminal : status ≠ .pending) : Ended w id := by
  rcases finalize_cases s.world id status with ⟨entry, hheld, -, heq⟩ | ⟨error, heq⟩
  · obtain ⟨-, rfl⟩ := Prod.mk.inj (hok.trans heq)
    refine ⟨h.issued id entry hheld, fun entry' hentry' => ?_⟩
    obtain rfl : _ = entry' := Option.some.inj ((entries_setStatus ..).symm.trans hentry')
    exact hterminal
  · cases (Prod.mk.inj (hok.trans heq)).1

theorem Inv.issued_push (h : Inv s) (hexec : exec ev.op s.world ev.res w)
    (hentry : w.entries id = some entry) : id ∈ w.issued := by
  have hbecomes := becomes_of_exec hexec id
  generalize w.entries id = value at hbecomes hentry
  cases hbecomes with
  | kept => exact issued_of_exec hexec (h.issued id entry hentry)
  | created request fresh now => exact now
  | approved entry approver held => exact issued_of_exec hexec (h.issued id entry held)
  | denied entry approver reason held => exact issued_of_exec hexec (h.issued id entry held)
  | timedOut entry time held => exact issued_of_exec hexec (h.issued id entry held)
  | removed => cases hentry

theorem Inv.decided_push (h : Inv s) (hexec : exec ev.op s.world ev.res w)
    (hdecided : Decided id (ev :: s.log)) : Ended w id := by
  have hsettles : Settles s.world w := settles_of_exec hexec
  rcases hdecided with ⟨t, approver, hmem⟩ | ⟨t, approver, reason, hmem⟩
  · rcases List.mem_cons.mp hmem with rfl | hmem
    · exact h.ended_finalize hexec (by simp)
    · exact hsettles.ended (h.decided id (.inl ⟨t, approver, hmem⟩))
  · rcases List.mem_cons.mp hmem with rfl | hmem
    · exact h.ended_finalize hexec (by simp)
    · exact hsettles.ended (h.decided id (.inr ⟨t, approver, reason, hmem⟩))

/-- A request whose time has run out is not pending when it has been looked at. -/
theorem Inv.polled_push (h : Inv s) (hexec : exec ev.op s.world ev.res w) {now : ℤ}
    (hmem : (⟨t, .ensureTimeout id, some now⟩ : ApprovalEvent Tid Uuid) ∈ ev :: s.log) :
    id ∈ w.issued ∧ ∀ entry, w.entries id = some entry → entry.request.expiresAt ≤ now →
      entry.status ≠ .pending := by
  rcases List.mem_cons.mp hmem with rfl | hmem
  · -- it is looked at right now: it is timed out, or its time has not run out
    obtain ⟨time, -, heq'⟩ := hexec
    rcases ensureTimeout_cases s.world id time with
      ⟨entry, hheld, -, -, heq⟩ | ⟨entry, hheld, hlt, heq⟩ | heq
    · obtain ⟨-, rfl⟩ := Prod.mk.inj (heq'.trans heq)
      refine ⟨h.issued id entry hheld, fun entry' hentry' _ => ?_⟩
      obtain rfl : _ = entry' := Option.some.inj ((entries_setStatus ..).symm.trans hentry')
      exact ApprovalStatus.noConfusion
    · obtain ⟨hnow, rfl⟩ := Prod.mk.inj (heq'.trans heq)
      refine ⟨h.issued id entry hheld, fun entry' hentry' hle => ?_⟩
      obtain rfl := Option.some.inj (hheld.symm.trans hentry')
      obtain rfl := Option.some.inj hnow
      exact absurd hle (Int.not_le.mpr hlt)
    · cases (Prod.mk.inj (heq'.trans heq)).1
  · obtain ⟨hissued, hentries⟩ := h.polled t id now hmem
    obtain ⟨hissued', hentries'⟩ := settles_of_exec hexec id hissued
    refine ⟨hissued', fun entry' hentry' hle => ?_⟩
    obtain ⟨entry, hentry, hrequest, hpending | hsame⟩ := hentries' entry' hentry'
    · exact absurd hpending (hentries entry hentry (hrequest ▸ hle))
    · exact hsame ▸ hentries entry hentry (hrequest ▸ hle)

theorem Inv.seen_push (h : Inv s) (hexec : exec ev.op s.world ev.res w)
    (hmem : (⟨t, .get id, some entry⟩ : ApprovalEvent Tid Uuid) ∈ ev :: s.log)
    (hne : entry.status ≠ .pending) : EndedAs w id entry.status := by
  rcases List.mem_cons.mp hmem with rfl | hmem
  · obtain ⟨hheld, rfl⟩ := hexec
    refine ⟨h.issued id entry hheld.symm, fun entry' hentry' => ?_⟩
    rw [Option.some.inj (hheld.trans hentry')]
  · exact (settles_of_exec hexec).endedAs (h.seen t id entry hmem hne) hne

/-- Two readers see the same decision. -/
theorem Inv.agree_push (h : Inv s) (hexec : exec ev.op s.world ev.res w) {t' : Tid}
    {entry' : ApprovalEntry Uuid}
    (hmem : (⟨t, .get id, some entry⟩ : ApprovalEvent Tid Uuid) ∈ ev :: s.log)
    (hmem' : (⟨t', .get id, some entry'⟩ : ApprovalEvent Tid Uuid) ∈ ev :: s.log)
    (hne : entry.status ≠ .pending) (hne' : entry'.status ≠ .pending) :
    entry.status = entry'.status := by
  -- a reader of now sees the entry, which stands as an earlier reader saw it
  rcases List.mem_cons.mp hmem with heq | hold <;> rcases List.mem_cons.mp hmem' with heq' | hold'
  · cases heq.trans heq'.symm
    rfl
  · subst heq
    exact (h.seen t' id entry' hold' hne').2 entry hexec.1.symm
  · subst heq'
    exact ((h.seen t id entry hold hne).2 entry' hexec.1.symm).symm
  · exact h.agree t t' id entry entry' hold hold' hne hne'

omit [DecidableEq Uuid] in
theorem Inv.replies_push (h : Inv s) (hclaim : Claim s ev) {answer : ApprovalAnswer Uuid}
    (hmem : (⟨t, .reply id answer, ()⟩ : ApprovalEvent Tid Uuid) ∈ ev :: s.log)
    (hseen : answer.seen = some status) :
    ∃ entry, (⟨t, .get id, some entry⟩ : ApprovalEvent Tid Uuid) ∈ ev :: s.log ∧
      entry.status = status := by
  rcases List.mem_cons.mp hmem with rfl | hmem
  · obtain ⟨entry, hget, hstatus⟩ := hclaim.replies id answer status rfl hseen
    exact ⟨entry, List.mem_cons_of_mem _ hget, hstatus⟩
  · obtain ⟨entry, hget, hstatus⟩ := h.replies t id answer hmem status hseen
    exact ⟨entry, List.mem_cons_of_mem _ hget, hstatus⟩

theorem Inv.inTime_push (h : Inv s) (hclaim : Claim s ev) (hexec : exec ev.op s.world ev.res w)
    {approver : String} {time : ℤ} (hentry : w.entries id = some entry)
    (hstatus : entry.status = .approved approver time) :
    time < entry.request.expiresAt ∧
      ∃ t, (⟨t, .approve id approver, .ok ()⟩ : ApprovalEvent Tid Uuid) ∈ ev :: s.log := by
  have hbecomes := becomes_of_exec hexec id
  generalize w.entries id = value at hbecomes hentry
  cases hbecomes with
  | kept =>
      obtain ⟨hlt, t, hmem⟩ := h.inTime id entry approver time hentry hstatus
      exact ⟨hlt, t, List.mem_cons_of_mem _ hmem⟩
  | created => cases Option.some.inj hentry; cases hstatus
  | approved held approver' hheld pending event =>
      obtain rfl := Option.some.inj hentry
      obtain ⟨rfl, rfl⟩ := ApprovalStatus.approved.inj hstatus
      obtain ⟨held', hheld', -, hlt⟩ := hclaim.inTime id approver' event
      obtain rfl := Option.some.inj (hheld.symm.trans hheld')
      exact ⟨hlt, ev.tid, event ▸ List.mem_cons_self⟩
  | denied => cases Option.some.inj hentry; cases hstatus
  | timedOut => cases Option.some.inj hentry; cases hstatus
  | removed => cases hentry

/-- **Every operation that meets its claim keeps the invariant.** -/
theorem Inv.push (h : Inv s) (hclaim : Claim s ev) (hexec : exec ev.op s.world ev.res w) :
    Inv (s.push ev w) where
  issued _ _ := h.issued_push hexec
  decided _ := h.decided_push hexec
  polled _ _ _ := h.polled_push hexec
  seen _ _ _ := h.seen_push hexec
  agree _ _ _ _ _ := h.agree_push hexec
  replies _ _ _ hmem _ := h.replies_push hclaim hmem
  inTime _ _ _ _ := h.inTime_push hclaim hexec

/-- **What the condition gives.** -/
theorem Inv.claim_inTime (h : Inv s) (htimely : Timely s ev) (hexec : exec ev.op s.world ev.res w)
    (id : Uuid) (approver : String) (hev : ev = ⟨ev.tid, .approve id approver, .ok ()⟩) :
    ∃ entry, s.world.entries id = some entry ∧ entry.status = .pending ∧
      s.world.clock < entry.request.expiresAt := by
  have hop : ev.op = .approve id approver := by rw [hev]
  rw [hev] at hexec
  rcases finalize_cases s.world id (.approved approver s.world.clock) with
    ⟨entry, hheld, hpending, -⟩ | ⟨error, heq⟩
  · refine ⟨entry, hheld, hpending, Int.not_le.mp fun hle => ?_⟩
    rcases htimely id approver entry hop hheld hle with hdecided | ⟨t, now, hmem, hnow⟩
    · exact (h.decided id hdecided).2 entry hheld hpending
    · exact (h.polled t id now hmem).2 entry hheld hnow hpending
  · cases (Prod.mk.inj (hexec.trans heq)).1

end ApprovalWorld

/-! ### Every call -/

namespace ExecApprovalManager

open ApprovalWorld

variable {Tid Uuid : Type} [DecidableEq Uuid] {id : Uuid} {t : Tid} {s : ApprovalState Tid Uuid}

/-- What the argument tracks. -/
def proto (Tid Uuid : Type) [DecidableEq Uuid] :
    Proto Tid (ApprovalOp Uuid) ApprovalOp.Res (ApprovalWorld Uuid) where
  sys := approvalSystem
  cond := Timely
  inv := Inv
  assert := Claim

/-- The operation tells nobody anything. -/
def Untold : ApprovalOp Uuid → Prop
  | .reply .. => False
  | _ => True

theorem claim_of_untold {e : ApprovalOp Uuid} {r : e.Res} {w : ApprovalWorld Uuid}
    (huntold : Untold e) (hinv : Inv s) (htimely : Timely s ⟨t, e, r⟩)
    (hexec : exec e s.world r w) : Claim s ⟨t, e, r⟩ where
  inTime := hinv.claim_inTime htimely hexec
  replies id answer status hop := by
    cases hop
    exact huntold.elim

/-- Such operations keep the invariant. -/
theorem frames_untold : (proto Tid Uuid).Frames t Untold fun _ => True where
  stable := Proto.stable_const
  step huntold _ hinv htimely hexec :=
    have hclaim := claim_of_untold huntold hinv htimely hexec
    ⟨hclaim, hinv.push hclaim hexec, trivial⟩

/-- The call has seen the state. -/
def Knows (t : Tid) (id : Uuid) (status : Option ApprovalStatus) (s : ApprovalState Tid Uuid) :
    Prop :=
  ∀ st, status = some st →
    ∃ entry, (⟨t, .get id, some entry⟩ : ApprovalEvent Tid Uuid) ∈ s.log ∧ entry.status = st

theorem stable_knows {status : Option ApprovalStatus} :
    (proto Tid Uuid).Stable t (Knows t id status) := by
  rintro s s' (⟨-, -⟩ | ⟨-, -, -, -, -, -⟩) h st hst
  · exact h st hst
  · obtain ⟨entry, hmem, hstatus⟩ := h st hst
    exact ⟨entry, List.mem_cons_of_mem _ hmem, hstatus⟩

/-- A reader tells what it has seen. -/
theorem safe_reply {answer : ApprovalAnswer Uuid} (h : Knows t id answer.seen s) :
    (proto Tid Uuid).Safe t (Prog.ask (ApprovalOp.reply id answer))
      (fun _ _ => True) s := by
  refine Proto.Safe.op stable_knows h fun s₁ h₁ hinv _ w _ hexec => ?_
  have hclaim : Claim s₁ ⟨t, .reply id answer, ()⟩ := by
    refine ⟨fun id' approver hev => ?_, fun id' answer' status hop hseen => ?_⟩
    · cases hev
    · cases hop
      exact h₁ status hseen
  exact ⟨hclaim, hinv.push hclaim hexec, trivial⟩

/-- An operation that tells nobody anything, and what comes after it. -/
theorem safe_op {α : Type} {e : ApprovalOp Uuid} {k : e.Res → ApprovalProc Uuid α}
    {Q : α → ApprovalState Tid Uuid → Prop} (huntold : Untold e)
    (next : ∀ (s' : ApprovalState Tid Uuid) r w, exec e s'.world r w →
      (proto Tid Uuid).Safe t (k r) Q (s'.push ⟨t, e, r⟩ w)) :
    (proto Tid Uuid).Safe t (.op e k) Q s := by
  intro s₁ _ hinv r w htimely hexec
  have hclaim := claim_of_untold huntold hinv htimely hexec
  exact ⟨hclaim, hinv.push hclaim hexec, next s₁ r w hexec⟩

theorem safe_status :
    (proto Tid Uuid).Safe t (status id) (Knows t id) s := by
  refine safe_op (e := .ensureTimeout id) trivial fun _ _ _ _ => ?_
  refine safe_op (e := .get id) trivial fun s₁ found w _ st hst => ?_
  obtain ⟨entry, rfl, rfl⟩ := Option.map_eq_some_iff.mp hst
  exact ⟨entry, List.mem_cons_self, rfl⟩

/-- A waiter, by the number of rounds. -/
theorem safe_waitForDecision (rounds : ℕ) :
    (proto Tid Uuid).Safe t (waitForDecision id rounds)
      (fun decision s => ∀ d, decision = some d → Knows t id (ApprovalAnswer.decision d).seen s)
      s := by
  induction rounds generalizing s with
  | zero => exact fun d hd => nomatch hd
  | succ rounds ih =>
      refine safe_op (e := .ensureTimeout id) trivial fun _ _ _ _ => ?_
      refine safe_op (e := .get id) trivial fun s₁ found w _ => ?_
      cases found with
      | none =>
          rintro d hd st hst
          obtain rfl := Option.some.inj hd
          cases hst
      | some entry =>
          rw [Prog.ret_bind]
          dsimp only
          split_ifs with hterminal
          · rintro d hd st hst
            obtain rfl := Option.some.inj hd
            exact ⟨entry, List.mem_cons_self, Option.some.inj hst⟩
          · refine safe_op (e := .now) trivial fun _ now _ _ => ?_
            rw [Prog.ret_bind]
            split_ifs
            · exact safe_op (e := .ensureTimeout id) trivial fun _ _ _ _ => ih
            · exact safe_op (e := .await _) trivial fun _ _ _ _ => ih

omit [DecidableEq Uuid] in
theorem asks_sweepAll (cutoff : ℤ) (ids : List Uuid) : (sweepAll cutoff ids).Asks Untold := by
  induction ids with
  | nil => trivial
  | cons id ids ih => exact .ask trivial fun _ => ih

/-- **Every call is safe.** -/
theorem adequate : (proto Tid Uuid).Adequate Client where
  env_inv hinv hpasses := hinv.drift hpasses
  client_safe {t p s} hclient hinv _ := by
    have huntold {p : ApprovalProc Uuid Unit} (hasks : p.Asks Untold) :
        (proto Tid Uuid).Safe t p (fun _ _ => True) s :=
      .frame frames_untold hasks trivial
    cases hclient with
    | createRequest => exact huntold (.ask trivial fun _ => .ask trivial fun _ => trivial)
    | approve => exact huntold (.ask trivial fun _ => trivial)
    | deny => exact huntold (.ask trivial fun _ => trivial)
    | status id => exact Proto.Safe.bind safe_status fun _ _ hknows => safe_reply hknows
    | waitForDecision id rounds =>
        refine Proto.Safe.bind (safe_waitForDecision rounds) fun decision s' hknows => ?_
        cases decision with
        | none => trivial
        | some decision => exact safe_reply (hknows decision rfl)
    | cleanup age ids => exact huntold (.ask trivial fun _ => asks_sweepAll _ ids)

section

variable [DecidableEq Tid] {clock : ℤ}
  {c c' : Config Tid (ApprovalOp Uuid) ApprovalOp.Res (ApprovalWorld Uuid)}

/-- The runs of such calls that meet the condition. -/
abbrev ApprovalRun (cond : ApprovalState Tid Uuid → ApprovalEvent Tid Uuid → Prop)
    (c c' : Config Tid (ApprovalOp Uuid) ApprovalOp.Res (ApprovalWorld Uuid)) : Prop :=
  Run approvalSystem Client cond c c'

/-- No call has been started, on a manager without requests. -/
abbrev idle (Tid Uuid : Type) (clock : ℤ) :
    Config Tid (ApprovalOp Uuid) ApprovalOp.Res (ApprovalWorld Uuid) :=
  Config.idle Tid _ _ (ApprovalWorld.new clock)

theorem good_run (run : ApprovalRun Timely (idle Tid Uuid clock) c) :
    (proto Tid Uuid).Good c :=
  (Proto.good_idle (P := proto Tid Uuid) (inv_new clock)).run adequate run

theorem settles_of_run {cond : ApprovalState Tid Uuid → ApprovalEvent Tid Uuid → Prop}
    (run : ApprovalRun cond c c') : Settles c.shared.world c'.shared.world := by
  induction run with
  | refl => exact settles_refl _
  | tail _ step _ ih =>
      refine ih.trans ?_
      cases step with
      | @op t e _ r _ _ answer => exact @settles_of_exec Tid Uuid _ _ _ ⟨t, e, r⟩ answer
      | env moves => exact settles_of_passes moves
      | start => exact settles_refl _
      | crash => exact settles_refl _

/-- A reader has been told this state of the request. -/
def Told (id : Uuid) (status : ApprovalStatus) (log : ApprovalLog Tid Uuid) : Prop :=
  ∃ t answer, (⟨t, .reply id answer, ()⟩ : ApprovalEvent Tid Uuid) ∈ log ∧
    answer.seen = some status

/-- **Approvals are in time.**  In every run in which an approval that comes at the deadline or
later finds a request that has been decided, or that somebody has asked for by then, a request is
decided once, all readers are told the same decision, and a request is approved only by an
approval that came before its deadline. -/
theorem approvals_in_time (before : ApprovalRun Timely (idle Tid Uuid clock) c)
    (after : ApprovalRun Timely c c') :
    Settles c.shared.world c'.shared.world ∧
    (∀ id status status', Told id status c'.shared.log → Told id status' c'.shared.log →
      status ≠ .pending → status' ≠ .pending → status = status') ∧
    (∀ id entry approver time, c'.shared.world.entries id = some entry →
      entry.status = .approved approver time → time < entry.request.expiresAt ∧
        ∃ t, (⟨t, .approve id approver, .ok ()⟩ : ApprovalEvent Tid Uuid) ∈ c'.shared.log) ∧
    (∀ t id approver w c'',
      Step approvalSystem Client c' (.op ⟨t, .approve id approver, .ok ()⟩ w) c'' →
      Timely c'.shared (⟨t, .approve id approver, .ok ()⟩ : ApprovalEvent Tid Uuid) →
      ∃ entry, c'.shared.world.entries id = some entry ∧ entry.status = .pending ∧
        c'.shared.world.clock < entry.request.expiresAt) := by
  have hgood := good_run (before.trans after)
  refine ⟨settles_of_run after, ?_, hgood.inv.inTime, ?_⟩
  · rintro id status status' ⟨t, answer, hmem, hseen⟩ ⟨t', answer', hmem', hseen'⟩ hne hne'
    obtain ⟨entry, hget, rfl⟩ := hgood.inv.replies t id answer hmem status hseen
    obtain ⟨entry', hget', rfl⟩ := hgood.inv.replies t' id answer' hmem' status' hseen'
    exact hgood.inv.agree t t' id entry entry' hget hget' hne hne'
  · intro t id approver w c'' step htimely
    exact (hgood.assert_of_step step htimely).inTime id approver rfl

end

/-! ### Runs of the code -/

/-- New ids count up, and no time passes while a guard is held. -/
def counting :
    Driver (approvalSystem : System (ApprovalOp ℕ) ApprovalOp.Res (ApprovalWorld ℕ)) where
  serve
    | .now, w => (w.clock, w)
    | .insert toolName command risk context createdAt expiresAt, w =>
        let request : ApprovalRequest ℕ :=
          ⟨w.issued.sum + 1, toolName, command, risk, createdAt, expiresAt, context⟩
        (request, w.insert request)
    | .approve id approver, w => w.approve id approver
    | .deny id approver reason, w => w.deny id approver reason
    | .ensureTimeout id, w => w.ensureTimeout id w.clock
    | .get id, w => (w.entries id, w)
    | .await _, w => ((), w)
    | .sweep id cutoff, w => ((), w.sweep id cutoff)
    | .reply _ _, w => ((), w)
  tick n w := { w with clock := w.clock + n }
  exec_serve e w := by
    cases e with
    | now => exact ⟨rfl, rfl⟩
    | insert =>
        refine ⟨_, fun hmem => ?_, rfl, rfl⟩
        have hle := List.le_sum_of_mem hmem
        omega
    | approve => rfl
    | deny => rfl
    | ensureTimeout => exact ⟨w.clock, Int.le_refl _, rfl⟩
    | get => exact ⟨rfl, rfl⟩
    | await => rfl
    | sweep => rfl
    | reply => rfl
  env_tick n w := ⟨w.clock + n, Int.le_add_of_nonneg_right (Int.natCast_nonneg n), rfl⟩

/-- A request with a deadline after 60 s, and an approval after the given time. -/
def approveAfter (time : ℕ) : List (Choice Bool (ApprovalOp ℕ) ApprovalOp.Res) :=
  [.start false
      ((createRequest (60 * 10 ^ 9) "shell_exec" "ls -la" .low none).bind fun _ => .ret ()),
    .op false, .op false, .tick time,
    .start true ((Prog.ask (ApprovalOp.approve 1 "alice")).bind fun _ => .ret ()), .op true]

theorem client_of_approveAfter (time : ℕ) (t : Bool) (p : ApprovalProc ℕ Unit)
    (h : .start t p ∈ approveAfter time) : Client t p := by
  simp only [approveAfter, List.mem_cons, Choice.start.injEq, List.not_mem_nil, reduceCtorEq,
    false_or, or_false] at h
  rcases h with ⟨rfl, rfl⟩ | ⟨rfl, rfl⟩
  · exact .createRequest ..
  · exact .approve ..

/-- What it leads to. -/
def afterApproval (time : ℕ) : Config Bool (ApprovalOp ℕ) ApprovalOp.Res (ApprovalWorld ℕ) :=
  (idle Bool ℕ 0).follow counting (approveAfter time)

/-- The request. -/
def listing (status : ApprovalStatus) : ApprovalEntry ℕ where
  request := ⟨1, "shell_exec", "ls -la", .low, 0, 60 * 10 ^ 9, none⟩
  status := status

theorem approvals_in_time_early :
    (afterApproval 1).shared.world.entries 1 = some (listing (.approved "alice" 1)) ∧
      (1 : ℤ) < 60 * 10 ^ 9 := by
  have hmeets : (idle Bool ℕ 0).Meets counting Timely (approveAfter 1) := by
    refine ⟨?_, ?_, ?_, trivial⟩
    · intro id approver entry hop
      cases hop
    · intro id approver entry hop
      cases hop
    · intro id approver entry hop hentry hle
      cases hop
      cases hentry
      exact absurd hle (by decide)
  have hentry : (afterApproval 1).shared.world.entries 1 =
      some (listing (.approved "alice" 1)) := rfl
  obtain ⟨-, -, hinTime, -⟩ := approvals_in_time (.refl _)
    (Run.follow (client_of_approveAfter 1) hmeets)
  exact ⟨hentry, (hinTime 1 _ "alice" 1 hentry rfl).1⟩

/-- **An approval at the deadline is accepted** when nobody has asked for the request. -/
theorem late_approval : ∃ c : Config Bool (ApprovalOp ℕ) ApprovalOp.Res (ApprovalWorld ℕ),
    ApprovalRun (fun _ _ => True) (idle Bool ℕ 0) c ∧ ∃ entry,
      c.shared.world.entries 1 = some entry ∧
        entry.status = .approved "alice" entry.request.expiresAt :=
  ⟨afterApproval (60 * 10 ^ 9), Run.follow (client_of_approveAfter _) (Config.meets_true _ _ _),
    listing (.approved "alice" (60 * 10 ^ 9)), rfl, rfl⟩

end ExecApprovalManager

end ClawDesk.Security
