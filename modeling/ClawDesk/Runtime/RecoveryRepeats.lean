import ClawDesk.Runtime.RunOwner

/-!
# A recovered lease is recovered again

Recovery begins with a release, and a release succeeds only while the lease is in force.  So
an expired lease outlives every operation of the scan that reports it (`LeftBehind.recoverAll`),
and the next scan reports it again.  Recovery is idempotent exactly when there is nothing to
recover (`recoveredOnce_iff`).
-/

namespace ClawDesk.Runtime

open Foundations
open LeaseManager RecoveryManager
open RunOwnership (OffLease saveRun_asks)

/-- Time passes, and then the operation is answered by a store that does not fail. -/
def Answers (e : Op) (w : World) (r : e.Res) (w' : World) : Prop :=
  ∃ reply w₀, w.passes w₀ ∧ w₀.serve reply e = (r, w')

theorem answers_serve (reply : Except ClawDeskError AgentResponse) (e : Op) (w : World) :
    Answers e w (w.serve reply e).1 (w.serve reply e).2 :=
  ⟨reply, w, ⟨w.now, le_rfl, rfl⟩, rfl⟩

theorem Answers.now_le {e : Op} {w w' : World} {r : e.Res} (answer : Answers e w r w') :
    w.now ≤ w'.now := by
  obtain ⟨reply, _, ⟨now, hle, rfl⟩, hserve⟩ := answer
  have hexec := World.exec_serve reply e { w with now := now }
  rw [hserve] at hexec
  exact hle.trans (World.now_of_exec hexec).ge

/-- Time does not run backwards while a procedure runs. -/
theorem now_le_of_runs {α : Type} {p : Proc α} {w w' : World} {a : α}
    (run : p.Runs Answers w a w') : w.now ≤ w'.now := by
  induction run with
  | ret a w => exact le_rfl
  | op answer _ ih => exact answer.now_le.trans ih

/-- What recovery promises of the leases it found and the world it leaves: none of them is
still stored, and a second scan at the same instant finds nothing and changes nothing. -/
structure RecoveredOnce (expired : List (RunId × Lease)) (w : World) : Prop where
  removed : ∀ found ∈ expired, found.2 ∉ leasesOf (w.scan Key.leasesPrefix)
  rescan : ∀ r w', scanAndRecover.Runs Answers w r w' → w'.now = w.now → r = Except.ok [] ∧ w' = w

/-! ### The scan -/

section Scan

variable {w w' : World} {lease : Lease} {expired : List (RunId × Lease)}

theorem mem_leasesOf {entries : List (Sigma Key.Val)} :
    lease ∈ leasesOf entries ↔ ∃ runId, (⟨.lease runId, lease⟩ : Sigma Key.Val) ∈ entries := by
  induction entries with
  | nil => simp [leasesOf]
  | cons entry rest ih =>
      obtain ⟨k, v⟩ := entry
      cases k <;> simp [leasesOf, ih, exists_or]

/-- The scan sees every stored lease, whatever run it is stored under. -/
theorem mem_leasesOf_scan :
    lease ∈ leasesOf (w.scan Key.leasesPrefix) ↔
      ∃ runId, w.store.lookup (.lease runId) = some lease := by
  refine mem_leasesOf.trans (exists_congr fun runId => World.mem_scan.trans ?_)
  exact and_iff_right (List.prefix_append _ _)

/-- A scan changes nothing and reports the leases that have run out when it reads the
clock. -/
theorem scanExpired_runs {r : Except RuntimeError (List (RunId × Lease))}
    (h : scanExpired.Runs Answers w r w') :
    ∃ now, w.now ≤ now ∧ w' = { w with now := now } ∧
      r = .ok (((leasesOf (w.scan Key.leasesPrefix)).filter fun lease => lease.expiresAt < now).map
        fun lease => (lease.runId, lease)) := by
  obtain ⟨_, w₁, ⟨_, _, ⟨now₁, hle₁, rfl⟩, hscan⟩, h⟩ := Prog.runs_op.mp h
  obtain ⟨rfl, rfl⟩ := Prod.mk.inj hscan
  obtain ⟨_, w₂, ⟨_, _, ⟨now₂, hle₂, rfl⟩, hclock⟩, h⟩ := Prog.runs_op.mp h
  obtain ⟨rfl, rfl⟩ := Prod.mk.inj hclock
  obtain ⟨rfl, rfl⟩ := Prog.runs_ret.mp h
  exact ⟨now₂, hle₁.trans hle₂, rfl, rfl⟩

end Scan

/-! ### What recovery leaves behind -/

/-- The lease is stored and no longer in force. -/
structure LeftBehind (k : RunId) (lease : Lease) (w : World) : Prop where
  stored : w.store.lookup (.lease k) = some lease
  lapsed : lease.expiresAt ≤ w.now

namespace LeftBehind

variable {k runId : RunId} {lease : Lease} {w w' : World} {e : Op} {r : e.Res}

theorem answered (h : LeftBehind k lease w) (answer : Answers e w r w')
    (hput : ∀ v, e ≠ .put (.lease k) v) (hdelete : e ≠ .delete (.lease k)) :
    LeftBehind k lease w' := by
  obtain ⟨reply, w₀, ⟨now, hle, rfl⟩, hserve⟩ := answer
  have hexec : World.exec e { w with now := now } r w' := by
    have hexec := World.exec_serve reply e { w with now := now }
    rwa [hserve] at hexec
  exact ⟨(World.lookup_of_exec hexec hput hdelete).trans h.stored,
    (h.lapsed.trans hle).trans (World.now_of_exec hexec).ge⟩

theorem offLease (ok : OffLease e) (answer : Answers e w r w') (h : LeftBehind k lease w) :
    LeftBehind k lease w' :=
  h.answered answer (fun _ he => by rw [he] at ok; exact ok) (fun he => by rw [he] at ok; exact ok)

/-- A release of another run's lease does not touch this one. -/
theorem onRelease (hne : runId ≠ k) (ok : OnRelease runId e) (answer : Answers e w r w')
    (h : LeftBehind k lease w) : LeftBehind k lease w' := by
  refine h.answered answer ?_ ?_
  · rintro v rfl
    rcases ok with ok | ok
    · exact ok
    · exact nomatch ok
  · rintro rfl
    rcases ok with ok | ok
    · exact ok
    · injection ok with hkey
      exact hne (Key.lease.inj hkey).symm

/-- No worker holds a lease that has run out. -/
theorem not_held {workerId : WorkerId} {held : Bool} (h : LeftBehind k lease w)
    (run : (lease.checkHeldBy workerId).Runs Answers w held w') :
    held = false ∧ LeftBehind k lease w' := by
  rw [Lease.checkHeldBy, both, Prog.ret_bind] at run
  split_ifs at run
  · obtain ⟨now, w₂, answer, run⟩ := Prog.runs_op.mp run
    have h₂ : LeftBehind k lease w₂ := h.answered answer (by simp) (by simp)
    obtain ⟨_, _, -, hclock⟩ := answer
    obtain ⟨rfl, rfl⟩ := Prod.mk.inj hclock
    obtain ⟨rfl, rfl⟩ := Prog.runs_ret.mp run
    exact ⟨decide_eq_false h₂.lapsed.not_gt, h₂⟩
  · obtain ⟨rfl, rfl⟩ := Prog.runs_ret.mp run
    exact ⟨rfl, h⟩

/-- **A lease that has run out cannot be released.** -/
theorem release {workerId : WorkerId} {fence : ℕ} {result : Except RuntimeError Unit}
    (h : LeftBehind k lease w)
    (run : (LeaseManager.release runId workerId fence).Runs Answers w result w') :
    LeftBehind k lease w' := by
  by_cases hne : runId = k
  swap
  · exact run.keeps release_asks (onRelease hne) h
  subst hne
  obtain ⟨found, w₁, answer, run⟩ := Prog.runs_op.mp run
  have h₁ : LeftBehind runId lease w₁ := h.answered answer (by simp) (by simp)
  obtain ⟨_, _, ⟨now, -, rfl⟩, hget⟩ := answer
  obtain ⟨rfl, rfl⟩ := Prod.mk.inj hget
  simp only [h.stored, Prog.ret_bind] at run
  split_ifs at run with hfence
  · obtain ⟨-, rfl⟩ := Prog.runs_ret.mp run
    exact h₁
  · obtain ⟨held, w₂, check, run⟩ := Prog.runs_bind.mp run
    obtain ⟨rfl, h₂⟩ := h₁.not_held check
    obtain ⟨-, rfl⟩ := Prog.runs_ret.mp run
    exact h₂

end LeftBehind

/-! ### Recovering -/

theorem saveAs_asks (run : WorkflowRun) (state : RunState) : (saveAs run state).Asks OffLease :=
  .ask trivial fun _ => saveRun_asks _

/-- After the release, recovery leaves the leases alone. -/
theorem LeftBehind.recoverRun {k runId : RunId} {lease found : Lease} {w w' : World}
    {r : Except RuntimeError RecoveryAction} (h : LeftBehind k lease w)
    (run : (RecoveryManager.recoverRun runId found).Runs Answers w r w') :
    LeftBehind k lease w' := by
  obtain ⟨_, w₁, released, run⟩ := Prog.runs_bind.mp run
  refine run.keeps ?_ offLease (h.release released)
  refine .andThen (.ask trivial fun _ => trivial) fun loaded => ?_
  cases loaded with
  | none => trivial
  | some run =>
      dsimp only
      split_ifs
      · trivial
      · exact .andThen (saveAs_asks _ _) fun _ => trivial
      · refine .andThen (.ask trivial fun _ => trivial) fun checkpoint => ?_
        refine .andThen (.andThen (.ask trivial fun _ => trivial) fun _ => trivial) fun _ => ?_
        exact .andThen (saveAs_asks _ _) fun _ => trivial

theorem LeftBehind.recoverAll {k : RunId} {lease : Lease} {expired : List (RunId × Lease)}
    {actions : List RecoveryAction} {w w' : World} {r : Except RuntimeError (List RecoveryAction)}
    (h : LeftBehind k lease w)
    (run : (RecoveryManager.recoverAll expired actions).Runs Answers w r w') :
    LeftBehind k lease w' := by
  induction expired generalizing actions w with
  | nil =>
      obtain ⟨-, rfl⟩ := Prog.runs_ret.mp run
      exact h
  | cons found rest ih =>
      obtain ⟨result, w₁, recovered, run⟩ := Prog.runs_bind.mp run
      have h₁ : LeftBehind k lease w₁ := h.recoverRun recovered
      cases result with
      | ok action => exact ih h₁ run
      | error err =>
          obtain ⟨-, rfl⟩ := Prog.runs_ret.mp run
          exact h₁

section Recovery

variable {w w₁ w' : World} {expired : List (RunId × Lease)}
  {result : Except RuntimeError (List RecoveryAction)}

/-- What the scan reports is left behind by the whole recovery. -/
theorem leftBehind_of_scan (scanned : scanExpired.Runs Answers w (.ok expired) w₁)
    (recovered : (recoverAll expired []).Runs Answers w₁ result w') {found : RunId × Lease}
    (hfound : found ∈ expired) : ∃ k, LeftBehind k found.2 w' := by
  obtain ⟨now, -, rfl, hexpired⟩ := scanExpired_runs scanned
  obtain rfl := Except.ok.inj hexpired
  obtain ⟨lease, hmem, rfl⟩ := List.mem_map.mp hfound
  obtain ⟨hstored, hlapsed⟩ := List.mem_filter.mp hmem
  obtain ⟨k, hk⟩ := mem_leasesOf_scan.mp hstored
  have hleft : LeftBehind k lease { w with now := now } := ⟨hk, (of_decide_eq_true hlapsed).le⟩
  exact ⟨k, hleft.recoverAll recovered⟩

/-- **Every reported lease is still stored when the recovery is over.** -/
theorem reported_stays (scanned : scanExpired.Runs Answers w (.ok expired) w₁)
    (recovered : (recoverAll expired []).Runs Answers w₁ result w') {found : RunId × Lease}
    (hfound : found ∈ expired) : found.2 ∈ leasesOf (w'.scan Key.leasesPrefix) := by
  obtain ⟨k, hleft⟩ := leftBehind_of_scan scanned recovered hfound
  exact mem_leasesOf_scan.mpr ⟨k, hleft.stored⟩

/-- Nothing expired: nothing reported. -/
theorem expired_eq_nil_iff (scanned : scanExpired.Runs Answers w (.ok expired) w₁) :
    expired = [] ↔ ∀ lease ∈ leasesOf (w.scan Key.leasesPrefix), w₁.now ≤ lease.expiresAt := by
  obtain ⟨now, -, rfl, hexpired⟩ := scanExpired_runs scanned
  rw [Except.ok.inj hexpired, List.map_eq_nil_iff, List.filter_eq_nil_iff]
  simp only [decide_eq_true_eq, not_lt]

/-- A scan that finds nothing at this instant changes nothing. -/
theorem scanAndRecover_of_current {r : Except RuntimeError (List RecoveryAction)}
    (current : ∀ lease ∈ leasesOf (w.scan Key.leasesPrefix), w.now ≤ lease.expiresAt)
    (run : scanAndRecover.Runs Answers w r w') (hnow : w'.now = w.now) : r = .ok [] ∧ w' = w := by
  obtain ⟨found, w₁, scanned, run⟩ := Prog.runs_bind.mp run
  obtain ⟨now, hle, rfl, rfl⟩ := scanExpired_runs scanned
  -- no time can have passed before the clock was read
  obtain rfl : now = w.now := by
    have hle' : now ≤ w'.now := now_le_of_runs run
    exact le_antisymm (hle'.trans hnow.le) hle
  have hnil := (expired_eq_nil_iff scanned).mpr current
  simp only [hnil, recoverAll] at run
  exact Prog.runs_ret.mp run

/-- **Recovery is idempotent exactly when it finds no expired lease.** -/
theorem recoveredOnce_iff {actions : List RecoveryAction}
    (scanned : scanExpired.Runs Answers w (.ok expired) w₁)
    (recovered : (recoverAll expired []).Runs Answers w₁ (.ok actions) w') :
    RecoveredOnce expired w' ↔
      ∀ lease ∈ leasesOf (w.scan Key.leasesPrefix), w₁.now ≤ lease.expiresAt := by
  rw [← expired_eq_nil_iff scanned]
  constructor
  · intro h
    refine List.eq_nil_iff_forall_not_mem.mpr fun found hfound => ?_
    exact h.removed found hfound (reported_stays scanned recovered hfound)
  · rintro rfl
    obtain ⟨-, rfl⟩ := Prog.runs_ret.mp recovered
    refine ⟨fun found hfound => absurd hfound List.not_mem_nil, fun r w'' run hnow => ?_⟩
    refine scanAndRecover_of_current ?_ run hnow
    have hcurrent := (expired_eq_nil_iff scanned).mp rfl
    obtain ⟨now, -, rfl, -⟩ := scanExpired_runs scanned
    exact hcurrent

/-- The next scan reports everything again. -/
theorem reported_again {again : List (RunId × Lease)} {w₂ : World}
    (scanned : scanExpired.Runs Answers w (.ok expired) w₁)
    (recovered : (recoverAll expired []).Runs Answers w₁ result w')
    (rescanned : scanExpired.Runs Answers w' (.ok again) w₂) :
    ∀ found ∈ expired, found ∈ again := by
  intro found hfound
  have hstays := reported_stays scanned recovered hfound
  have hle : w₁.now ≤ w'.now := now_le_of_runs recovered
  obtain ⟨now, -, rfl, hexpired⟩ := scanExpired_runs scanned
  obtain ⟨now', hle', rfl, hagain⟩ := scanExpired_runs rescanned
  obtain rfl := Except.ok.inj hexpired
  obtain rfl := Except.ok.inj hagain
  obtain ⟨lease, hmem, rfl⟩ := List.mem_map.mp hfound
  have hlapsed : lease.expiresAt < now := of_decide_eq_true (List.mem_filter.mp hmem).2
  have hlapsed' : lease.expiresAt < now' := hlapsed.trans_le (hle.trans hle')
  exact List.mem_map_of_mem (List.mem_filter.mpr ⟨hstays, decide_eq_true hlapsed'⟩)

end Recovery

/-! ### An abandoned run -/

theorem noColon_r : ':' ∉ "r".toList := by decide

def runR : RunId := ⟨"r", noColon_r⟩

/-- The lease of a worker that has disappeared; it runs out at 30 seconds. -/
def abandonedLease : Lease := ⟨runR, "a", 0, 30000000000, 30, 1⟩

def abandonedRun : WorkflowRun :=
  { WorkflowRun.new runR 0 (.agentLoop ⟨"m"⟩ "s") .defaultAgent with
    workerId := some "a"
    state := .running "a"
    attempt := 1 }

def abandoned (secs : ℕ) : World :=
  ((World.initial (durationSeconds secs)).put (.run runR) abandonedRun).put (.lease runR)
    abandonedLease

/-- A procedure in a world that does not fail. -/
def served {α : Type} (p : Proc α) (w : World) : α × World :=
  p.eval (World.serve (.error (.other "no agent"))) w

theorem runs_served {α : Type} (p : Proc α) (w : World) :
    p.Runs Answers w (served p w).1 (served p w).2 :=
  Prog.runs_eval (answers_serve _) p w

/-- While the lease is in force the scan finds nothing, as often as it is made. -/
theorem recoveredOnce_abandoned : RecoveredOnce [] (abandoned 29) := by
  have hscan : scanExpired.Runs Answers (abandoned 29) (.ok []) (abandoned 29) :=
    runs_served scanExpired (abandoned 29)
  refine (recoveredOnce_iff hscan (runs_served (recoverAll [] []) _)).mpr fun lease hlease => ?_
  have hleases : leasesOf ((abandoned 29).scan Key.leasesPrefix) = [abandonedLease] := rfl
  rw [hleases, List.mem_singleton] at hlease
  subst hlease
  decide

/-- **One expired lease, recovered at every scan**: each of two scans in a row puts the run back
to pending, and the lease is still there. -/
theorem abandoned_recovered_twice :
    let found : List (RunId × Lease) := [(runR, abandonedLease)]
    let once := (served (recoverAll found []) (abandoned 31)).2
    scanExpired.Runs Answers (abandoned 31) (.ok found) (abandoned 31) ∧
      (recoverAll found []).Runs Answers (abandoned 31) (.ok [.requeued runR 1]) once ∧
      scanAndRecover.Runs Answers once (.ok [.requeued runR 1]) (served scanAndRecover once).2 ∧
      ¬ RecoveredOnce found once := by
  intro found once
  refine ⟨runs_served scanExpired (abandoned 31), runs_served (recoverAll found []) _,
    runs_served scanAndRecover once, fun h => ?_⟩
  refine h.removed (runR, abandonedLease) List.mem_cons_self ?_
  have hleases : leasesOf (once.scan Key.leasesPrefix) = [abandonedLease] := rfl
  rw [hleases]
  exact List.mem_cons_self

end ClawDesk.Runtime
