import ClawDesk.Agents.DistributedLock

/-!
# Superseded fencing tokens

When another instance has acquired a lock, the tokens obtained before must not be
valid any more.  Two things stand in the way.  The instances count
independently, so the new holder may draw the number the old one had; and a
renewal may store the entry it read, after the lock has been taken over.  A run
in which neither happens is `Orderly`, and in these no superseded token is ever
valid again (`superseded_token_invalid`).

The counter of one instance never repeats itself, which is what the argument
rests on: a token that was stored for an instance was drawn by one of its calls
(`Inv.drawn`), and no two calls draw the same one (`Inv.distinct`).
-/

namespace ClawDesk.Agents.FencingTokens

open ClawDesk.Foundations
open ClawDesk.Runtime (Instant durationSeconds)

abbrev LockState := Shared LockCall LockOp LockOp.Res LockWorld
abbrev LockEvent := Event LockCall LockOp LockOp.Res

/-- The calls that may start. -/
def Client (c : LockCall) (p : LockProc Unit) : Prop := p = c.request.serve

variable {c : LockCall} {s : LockState} {A B : String} {key : String} {T : ℕ}
  {log : List LockEvent} {ev : LockEvent}

/-! ### What the log says -/

/-- The event stored an entry with token `T` for instance `A`. -/
def Stores (A key : String) (T : ℕ) : LockEvent → Prop
  | ⟨c, .put key' entry, .ok _⟩ => key' = key ∧ c.instanceId = A ∧ entry.fencingToken = T
  | _ => False

/-- Instance `A` obtained token `T`. -/
def Obtained (A key : String) (T : ℕ) (log : List LockEvent) : Prop :=
  ∃ ev ∈ log, Stores A key T ev

/-- The call tries to acquire a lock. -/
def Acquires : LockRequest → Prop
  | .tryAcquire _ _ _ => True
  | _ => False

/-- The event gave the lock to instance `B`. -/
def AcquiredBy (B key : String) (ev : LockEvent) : Prop :=
  Acquires ev.tid.request ∧ ∃ T, Stores B key T ev

/-- An instance acquired the lock after another had obtained token `T`. -/
def Superseded (key : String) (T : ℕ) : List LockEvent → Prop
  | [] => False
  | ev :: log =>
      (∃ A B, A ≠ B ∧ AcquiredBy B key ev ∧ Obtained A key T log) ∨ Superseded key T log

/-- Since call `c` read the entry, another instance has acquired the lock. -/
def Overtaken (c : LockCall) (key : String) : List LockEvent → Prop
  | [] => False
  | ev :: log =>
      ¬ (ev.tid = c ∧ ev.op = .get key) ∧
        ((∃ B, B ≠ c.instanceId ∧ AcquiredBy B key ev) ∨ Overtaken c key log)

/-- The call has tried to store an entry. -/
def HasPut (c : LockCall) (log : List LockEvent) : Prop :=
  ∃ ev ∈ log, ev.tid = c ∧ ∃ key entry, ev.op = .put key entry

/-- An entry is stored under a token that no other instance has obtained, and
renewed only if no other instance has acquired the lock since it was read. -/
def Orderly (s : LockState) (ev : LockEvent) : Prop :=
  ∀ key entry, ev.op = .put key entry →
    (Acquires ev.tid.request → ∀ A, Obtained A key entry.fencingToken s.log →
      A = ev.tid.instanceId) ∧
    (¬ Acquires ev.tid.request → ¬ Overtaken ev.tid key s.log)

theorem Obtained.cons (h : Obtained A key T log) : Obtained A key T (ev :: log) := by
  obtain ⟨ev', hmem, hstores⟩ := h
  exact ⟨ev', List.mem_cons_of_mem _ hmem, hstores⟩

theorem obtained_cons :
    Obtained A key T (ev :: log) ↔ Stores A key T ev ∨ Obtained A key T log := by
  simp [Obtained]

theorem Superseded.obtained (h : Superseded key T log) : ∃ A, Obtained A key T log := by
  induction log with
  | nil => exact h.elim
  | cons ev log ih =>
      rcases h with ⟨A, -, -, -, hA⟩ | h
      · exact ⟨A, hA.cons⟩
      · obtain ⟨A, hA⟩ := ih h
        exact ⟨A, hA.cons⟩

/-- The order of two events, read off the log. -/
theorem superseded_of_sublist {older newer : LockEvent} (order : [newer, older].Sublist log)
    (obtained : Stores A key T older) (acquired : AcquiredBy B key newer) (other : A ≠ B) :
    Superseded key T log := by
  induction log with
  | nil => cases order
  | cons ev log ih =>
      cases order with
      | cons _ rest => exact .inr (ih rest)
      | cons_cons _ rest =>
          exact .inl ⟨A, B, other, acquired, older, rest.subset List.mem_cons_self, obtained⟩

/-- A token of one instance is superseded only by another. -/
theorem superseded_cons (hA : Obtained A key T log)
    (unique : ∀ A', Obtained A' key T log → A' = A) :
    Superseded key T (ev :: log) ↔ (∃ B, B ≠ A ∧ AcquiredBy B key ev) ∨ Superseded key T log := by
  constructor
  · rintro (⟨A', B, hne, hacquired, hA'⟩ | h)
    · obtain rfl := unique A' hA'
      exact .inl ⟨B, hne.symm, hacquired⟩
    · exact .inr h
  · rintro (⟨B, hne, hacquired⟩ | h)
    · exact .inl ⟨A, B, hne.symm, hacquired, hA⟩
    · exact .inr h

/-! ### The invariant -/

/-- Tokens tell instances apart, and what is stored has not been superseded. -/
structure Inv (s : LockState) : Prop where
  unique : ∀ {A A' key T}, Obtained A key T s.log → Obtained A' key T s.log → A = A'
  current : ∀ {key e}, s.world.store.lookup key = some (.ok e) →
    Obtained e.holderId key e.fencingToken s.log ∧ ¬ Superseded key e.fencingToken s.log
  drawn : ∀ {A key T}, Obtained A key T s.log →
    ∃ c, (⟨c, .nextToken A, T⟩ : LockEvent) ∈ s.log ∧ HasPut c s.log
  bounded : ∀ {c A} {n : ℕ},
    (⟨c, .nextToken A, n⟩ : LockEvent) ∈ s.log → n ≤ s.world.fencingCounter A
  distinct : ∀ {c c' A} {n : ℕ}, (⟨c, .nextToken A, n⟩ : LockEvent) ∈ s.log →
    (⟨c', .nextToken A, n⟩ : LockEvent) ∈ s.log → c = c'

theorem HasPut.cons (h : HasPut c log) : HasPut c (ev :: log) := by
  obtain ⟨ev', hmem, hput⟩ := h
  exact ⟨ev', List.mem_cons_of_mem _ hmem, hput⟩

theorem inv_initial (now : Instant) : Inv ⟨LockWorld.initial now, []⟩ := by
  constructor <;> simp [Obtained, LockWorld.initial]

theorem inv_drift {w : LockWorld} (h : Inv s) (hmoves : LockWorld.passes s.world w) :
    Inv (s.drift w) := by
  obtain ⟨n, -, rfl⟩ := hmoves
  exact ⟨h.unique, h.current, h.drawn, h.bounded, h.distinct⟩

/-- Operations that store nothing and draw nothing keep the invariant. -/
theorem Inv.quiet {w : LockWorld} (h : Inv s) (hstores : ∀ A key T, ¬ Stores A key T ev)
    (hdraws : ∀ A n, ev ≠ ⟨ev.tid, .nextToken A, n⟩)
    (hlookup : ∀ key v, w.store.lookup key = some v → s.world.store.lookup key = some v)
    (hcounter : w.fencingCounter = s.world.fencingCounter) : Inv (s.push ev w) := by
  have hobtained {A key T} : Obtained A key T (ev :: s.log) ↔ Obtained A key T s.log := by
    simp [obtained_cons, hstores]
  have hsuperseded {key T} : Superseded key T (ev :: s.log) → Superseded key T s.log := by
    rintro (⟨-, B, -, ⟨-, T, hB⟩, -⟩ | h)
    · exact absurd hB (hstores B key T)
    · exact h
  have hdrawn {c A n} : (⟨c, .nextToken A, n⟩ : LockEvent) ∈ ev :: s.log ↔
      (⟨c, .nextToken A, n⟩ : LockEvent) ∈ s.log := by
    rw [List.mem_cons]
    refine or_iff_right fun heq => ?_
    subst heq
    exact hdraws A n rfl
  refine ⟨fun hA hA' => h.unique (hobtained.mp hA) (hobtained.mp hA'), fun hlook => ?_,
    fun hA => ?_, fun hmem => ?_, fun hmem hmem' => h.distinct (hdrawn.mp hmem) (hdrawn.mp hmem')⟩
  · obtain ⟨hA, hnot⟩ := h.current (hlookup _ _ hlook)
    exact ⟨hA.cons, fun hs => hnot (hsuperseded hs)⟩
  · obtain ⟨c, hmem, hput⟩ := h.drawn (hobtained.mp hA)
    exact ⟨c, List.mem_cons_of_mem _ hmem, hput.cons⟩
  · rw [Shared.push_world, hcounter]
    exact h.bounded (hdrawn.mp hmem)

/-- A fresh draw. -/
theorem Inv.draw (h : Inv s) (I : String) :
    Inv (s.push ⟨c, .nextToken I, s.world.fencingCounter I + 1⟩
      { s.world with
        fencingCounter :=
          Function.update s.world.fencingCounter I (s.world.fencingCounter I + 1) }) := by
  have hcases {c' A} {n : ℕ}
      (hmem : (⟨c', .nextToken A, n⟩ : LockEvent) ∈
        (⟨c, .nextToken I, s.world.fencingCounter I + 1⟩ : LockEvent) :: s.log) :
      (c' = c ∧ A = I ∧ n = s.world.fencingCounter I + 1) ∨
        (⟨c', .nextToken A, n⟩ : LockEvent) ∈ s.log := by
    rcases List.mem_cons.mp hmem with heq | hold
    · obtain ⟨rfl, hop, hn⟩ := Event.mk.inj heq
      obtain rfl : A = I := LockOp.nextToken.inj hop
      exact .inl ⟨rfl, rfl, eq_of_heq hn⟩
    · exact .inr hold
  refine ⟨fun hA hA' => h.unique (by simpa [obtained_cons, Stores] using hA)
      (by simpa [obtained_cons, Stores] using hA'), fun hlook => ?_, fun hA => ?_,
    fun hmem => ?_, fun {c₁ c₂ A n} hmem hmem' => ?_⟩
  · obtain ⟨hA, hnot⟩ := h.current hlook
    refine ⟨hA.cons, ?_⟩
    rintro (⟨-, B, -, ⟨-, T, hB⟩, -⟩ | hs)
    · exact hB
    · exact hnot hs
  · obtain ⟨c', hmem, hput⟩ := h.drawn (by simpa [obtained_cons, Stores] using hA)
    exact ⟨c', List.mem_cons_of_mem _ hmem, hput.cons⟩
  · rename_i c' A n
    rcases hcases hmem with ⟨-, rfl, rfl⟩ | hold
    · simp
    · have hle := h.bounded hold
      by_cases hA : A = I
      · subst hA
        simp only [Shared.push_world, Function.update_self]
        omega
      · simpa [Function.update_of_ne hA] using hle
  · -- A number drawn before is not above the counter.
    have hnew {c'} (hold : (⟨c', .nextToken I, s.world.fencingCounter I + 1⟩ : LockEvent) ∈
        s.log) : False := by
      have := h.bounded hold
      omega
    rcases hcases hmem with ⟨rfl, rfl, rfl⟩ | hold <;>
      rcases hcases hmem' with ⟨rfl, hA, hn⟩ | hold'
    · rfl
    · exact (hnew hold').elim
    · subst hA hn
      exact (hnew hold).elim
    · exact h.distinct hold hold'

/-- An entry is stored whose token belongs to the instance and is not superseded. -/
theorem Inv.stored {entry : DistributedLockEntry} (h : Inv s)
    (holder : entry.holderId = c.instanceId)
    (owner : ∀ A, Obtained A key entry.fencingToken s.log → A = c.instanceId)
    (valid : ¬ Superseded key entry.fencingToken (⟨c, .put key entry, .ok ()⟩ :: s.log))
    (drawn : ∃ c', (⟨c', .nextToken c.instanceId, entry.fencingToken⟩ : LockEvent) ∈ s.log ∧
      HasPut c' (⟨c, .put key entry, .ok ()⟩ :: s.log)) :
    Inv (s.push ⟨c, .put key entry, .ok ()⟩
      { s.world with store := s.world.store.insert key (.ok entry) }) := by
  have hobtained {A key' T} (hA : Obtained A key' T (⟨c, .put key entry, .ok ()⟩ :: s.log)) :
      (key' = key ∧ A = c.instanceId ∧ T = entry.fencingToken) ∨ Obtained A key' T s.log := by
    rcases obtained_cons.mp hA with ⟨rfl, rfl, rfl⟩ | hold
    · exact .inl ⟨rfl, rfl, rfl⟩
    · exact .inr hold
  have hdrawn {c' A n} (hmem : (⟨c', .nextToken A, n⟩ : LockEvent) ∈
      (⟨c, .put key entry, .ok ()⟩ : LockEvent) :: s.log) :
      (⟨c', .nextToken A, n⟩ : LockEvent) ∈ s.log := by
    simpa using hmem
  refine ⟨fun {A A' key' T} hA hA' => ?_, fun {key' e} hlook => ?_, fun {A key' T} hA => ?_,
    fun hmem => h.bounded (hdrawn hmem), fun hmem hmem' => h.distinct (hdrawn hmem) (hdrawn hmem')⟩
  · rcases hobtained hA with ⟨rfl, rfl, rfl⟩ | hold <;>
      rcases hobtained hA' with ⟨hkey, rfl, hT⟩ | hold'
    · rfl
    · exact (owner _ hold').symm
    · subst hkey hT
      exact owner _ hold
    · exact h.unique hold hold'
  · by_cases hkey : key' = key
    · subst hkey
      obtain rfl : entry = e := by
        simpa [AList.lookup_insert] using hlook
      refine ⟨?_, valid⟩
      rw [holder]
      exact obtained_cons.mpr (.inl ⟨rfl, rfl, rfl⟩)
    · rw [Shared.push_world, AList.lookup_insert_ne hkey] at hlook
      obtain ⟨hA, hnot⟩ := h.current hlook
      refine ⟨hA.cons, ?_⟩
      rintro (⟨-, B, -, ⟨-, T, rfl, -⟩, -⟩ | hs)
      · exact hkey rfl
      · exact hnot hs
  · rcases hobtained hA with ⟨rfl, rfl, rfl⟩ | hold
    · obtain ⟨c', hmem, hput⟩ := drawn
      exact ⟨c', List.mem_cons_of_mem _ hmem, hput⟩
    · obtain ⟨c', hmem, hput⟩ := h.drawn hold
      exact ⟨c', List.mem_cons_of_mem _ hmem, hput.cons⟩

/-! ### Calls -/

/-- What the argument tracks. -/
def proto : Proto LockCall LockOp LockOp.Res LockWorld where
  sys := lockSystem
  cond := Orderly
  inv := Inv
  assert _ _ := True

/-- Operations that only read, or delete. -/
def Quiet : LockOp → Prop
  | .put _ _ => False
  | .nextToken _ => False
  | _ => True

theorem Inv.of_quiet {e : LockOp} {r : e.Res} {w : LockWorld} (h : Inv s) (hquiet : Quiet e)
    (hexec : LockWorld.exec e s.world r w) : Inv (s.push ⟨c, e, r⟩ w) := by
  have hstores : ∀ A key T, ¬ Stores A key T (⟨c, e, r⟩ : LockEvent) := by
    cases e <;> first | exact hquiet.elim | exact fun _ _ _ => id
  have hdraws : ∀ A n, (⟨c, e, r⟩ : LockEvent) ≠ ⟨c, .nextToken A, n⟩ := by
    rintro A n heq
    obtain rfl : e = .nextToken A := (Event.mk.inj heq).2.1
    exact hquiet
  refine h.quiet hstores hdraws ?_ ?_
  · intro key v hlook
    cases e with
    | delete key' =>
        rcases hexec with ⟨-, rfl⟩ | ⟨-, rfl⟩
        · by_cases hkey : key = key'
          · subst hkey
            simp at hlook
          · rwa [AList.lookup_erase_ne hkey] at hlook
        · exact hlook
    | get key' => rwa [hexec.1] at hlook
    | scan pre => rwa [hexec.1] at hlook
    | clock => rwa [hexec.2] at hlook
    | put | nextToken => exact hquiet.elim
  · cases e with
    | delete key' => rcases hexec with ⟨-, rfl⟩ | ⟨-, rfl⟩ <;> rfl
    | get key' => rw [hexec.1]
    | scan pre => rw [hexec.1]
    | clock => rw [hexec.2]
    | put | nextToken => exact hquiet.elim

/-- Calls that ask nothing else know nothing and need to know nothing. -/
theorem frames_quiet : proto.Frames c Quiet fun _ => True where
  stable := Proto.stable_const
  step hquiet _ hinv _ hexec := ⟨trivial, hinv.of_quiet hquiet hexec, trivial⟩

open DistributedLockManager

theorem deleteEntry_asks : (deleteEntry key).Asks Quiet := by
  refine .ask trivial fun r => ?_
  cases r <;> trivial

theorem release_asks (m : DistributedLockManager) (sessionId : String) :
    (m.release sessionId).Asks Quiet := by
  refine .ask trivial fun r => ?_
  rcases r with err | _ | err | existing
  · exact deleteEntry_asks
  · exact deleteEntry_asks
  · exact deleteEntry_asks
  · dsimp only
    split_ifs
    · trivial
    · exact deleteEntry_asks

theorem cleanUp_asks (now : Instant) (entries : List (String × LockBytes)) (cleaned : ℕ) :
    (cleanUp now entries cleaned).Asks Quiet := by
  induction entries generalizing cleaned with
  | nil => trivial
  | cons found entries ih =>
      obtain ⟨key, err | entry⟩ := found
      · exact ih cleaned
      · rw [cleanUp]
        split_ifs
        · exact .ask trivial fun _ => ih _
        · exact ih cleaned

theorem gcExpired_asks : gcExpired.Asks Quiet := by
  refine .ask trivial fun r => ?_
  cases r with
  | error err => trivial
  | ok entries => exact .ask trivial fun now => (cleanUp_asks now entries 0).bind fun _ => trivial

/-- The call has drawn token `T` and not yet stored anything. -/
structure HasDrawn (c : LockCall) (T : ℕ) (s : LockState) : Prop where
  draw : (⟨c, .nextToken c.instanceId, T⟩ : LockEvent) ∈ s.log
  unused : ¬ HasPut c s.log

/-- The call has stored nothing. -/
theorem stable_not_hasPut : proto.Stable c fun s => ¬ HasPut c s.log := by
  rintro s s' (⟨-, -⟩ | ⟨other, -, -, -, -, -⟩) h
  · exact h
  · rintro ⟨ev, hmem, htid, hput⟩
    rcases List.mem_cons.mp hmem with rfl | hmem
    · exact other htid
    · exact h ⟨ev, hmem, htid, hput⟩

theorem stable_hasDrawn : proto.Stable c (HasDrawn c T) := by
  intro s s' hmoves h
  refine ⟨?_, stable_not_hasPut hmoves h.unused⟩
  rcases hmoves with ⟨-, -⟩ | ⟨-, -, -, -, -, -⟩
  · exact h.draw
  · exact List.mem_cons_of_mem _ h.draw

/-- Storing nothing is nothing stored. -/
theorem not_hasPut_cons {e : LockOp} {r : e.Res} (h : ¬ HasPut c s.log)
    (he : ∀ key entry, e ≠ .put key entry) : ¬ HasPut c (⟨c, e, r⟩ :: s.log) := by
  rintro ⟨ev, hmem, htid, key, entry, hput⟩
  rcases List.mem_cons.mp hmem with rfl | hmem
  · exact he key entry hput
  · exact h ⟨ev, hmem, htid, key, entry, hput⟩

/-- A failed write keeps the invariant. -/
theorem Inv.failed {entry : DistributedLockEntry} {err : String} (h : Inv s) :
    Inv (s.push ⟨c, .put key entry, .error err⟩ s.world) := by
  refine h.quiet (fun _ _ _ => id) ?_ (fun _ _ => id) rfl
  rintro A n heq
  cases heq

theorem safe_tryAcquire {m : DistributedLockManager} {sessionId purpose : String}
    (hreq : c.request = .tryAcquire m sessionId purpose) (hsilent : s.Silent c) :
    proto.Safe c (m.tryAcquire sessionId purpose) (fun _ _ => True) s := by
  have hnone : ¬ HasPut c s.log := fun ⟨ev, hmem, htid, _⟩ => hsilent ev hmem htid
  have hinstance : c.instanceId = m.instanceId := by
    rw [LockCall.instanceId, hreq, LockRequest.manager]
  refine Proto.Safe.op stable_not_hasPut hnone fun s₁ h₁ hinv r w _ hexec => ?_
  refine ⟨trivial, hinv.of_quiet trivial hexec, ?_⟩
  refine Proto.Safe.op stable_not_hasPut (not_hasPut_cons h₁ nofun) fun s₂ h₂ hinv r w _ hexec => ?_
  refine ⟨trivial, hinv.of_quiet trivial hexec, ?_⟩
  rw [Prog.ret_bind]
  split
  · trivial
  · refine Proto.Safe.op stable_not_hasPut (not_hasPut_cons h₂ nofun)
      fun s₃ h₃ hinv token w _ hexec => ?_
    obtain ⟨rfl, rfl⟩ := hexec
    refine ⟨trivial, hinv.draw _, ?_⟩
    rw [← hinstance]
    refine Proto.Safe.op stable_hasDrawn ⟨List.mem_cons_self, not_hasPut_cons h₃ nofun⟩
      fun s₄ h₄ hinv r w hcond hexec => ?_
    refine ⟨trivial, ?_, by cases r <;> trivial⟩
    rcases hexec with ⟨rfl, rfl⟩ | ⟨⟨err, rfl⟩, rfl⟩
    · have hacquires : Acquires c.request := by
        rw [hreq]
        trivial
      have howner := (hcond _ _ rfl).1 hacquires
      -- Not even this instance has obtained the token: another call would have drawn it.
      have hnobody : ∀ A, ¬ Obtained A (lockKey sessionId)
          (s₃.world.fencingCounter c.instanceId + 1) s₄.log := by
        intro A hA
        obtain rfl := howner A hA
        obtain ⟨c', hdraw, hput⟩ := hinv.drawn hA
        obtain rfl := hinv.distinct hdraw h₄.draw
        exact h₄.unused hput
      refine hinv.stored hinstance.symm howner ?_
        ⟨c, h₄.draw, ⟨c, _, _⟩, List.mem_cons_self, rfl, _, _, rfl⟩
      rintro (⟨A, -, -, -, hA⟩ | hs)
      · exact hnobody A hA
      · obtain ⟨A, hA⟩ := hs.obtained
        exact hnobody A hA
    · exact hinv.failed

/-- The call has read an entry of its own instance with token `T`, and unless it has
been overtaken the token is not superseded. -/
structure HasRead (c : LockCall) (key : String) (T : ℕ) (s : LockState) : Prop where
  own : Obtained c.instanceId key T s.log
  valid : ¬ Overtaken c key s.log → ¬ Superseded key T s.log

theorem stable_hasRead : proto.Stable c (HasRead c key T) := by
  rintro s s' (⟨-, -⟩ | ⟨other, hinv, -, -, -, -⟩) h
  · exact ⟨h.own, h.valid⟩
  · refine ⟨h.own.cons, fun hnot hs => ?_⟩
    have hread {ev : LockEvent} (other : ev.tid ≠ c) : ¬ (ev.tid = c ∧ ev.op = .get key) :=
      fun ⟨htid, _⟩ => other htid
    have hunique A' (hA' : Obtained A' key T s.log) := hinv.unique hA' h.own
    rcases (superseded_cons h.own hunique).mp hs with hnew | hold
    · exact hnot ⟨hread other, .inl hnew⟩
    · exact h.valid (fun hover => hnot ⟨hread other, .inr hover⟩) hold

theorem safe_renew {m : DistributedLockManager} {sessionId : String}
    (hreq : c.request = .renew m sessionId) :
    proto.Safe c (m.renew sessionId) (fun _ _ => True) s := by
  have hinstance : c.instanceId = m.instanceId := by
    rw [LockCall.instanceId, hreq, LockRequest.manager]
  refine Proto.Safe.op (Proto.stable_const (p := True)) trivial fun s₁ _ hinv now w _ hexec => ?_
  refine ⟨trivial, hinv.of_quiet trivial hexec, ?_⟩
  refine Proto.Safe.op (Proto.stable_const (p := True)) trivial fun s₂ _ hinv r w _ hexec => ?_
  refine ⟨trivial, hinv.of_quiet trivial hexec, ?_⟩
  rcases r with err | _ | err | existing
  · trivial
  · trivial
  · trivial
  · obtain ⟨rfl, hfound | ⟨err, herr⟩⟩ := hexec
    · obtain ⟨hown, hvalid⟩ := hinv.current (Except.ok.inj hfound).symm
      rw [Prog.ret_bind]
      dsimp only
      split_ifs with hholder
      · trivial
      · have hholder : existing.holderId = c.instanceId := (not_not.mp hholder).trans hinstance.symm
        rw [hholder] at hown
        have hread : HasRead c (lockKey sessionId) existing.fencingToken
            (s₂.push ⟨c, .get (lockKey sessionId), .ok (some (.ok existing))⟩ s₂.world) := by
          refine ⟨hown.cons, ?_⟩
          rintro - (⟨-, B, -, ⟨-, T, hB⟩, -⟩ | hs)
          · exact hB
          · exact hvalid hs
        refine Proto.Safe.op stable_hasRead hread fun s₃ h₃ hinv r w hcond hexec => ?_
        refine ⟨trivial, ?_, by cases r <;> trivial⟩
        rcases hexec with ⟨rfl, rfl⟩ | ⟨⟨err, rfl⟩, rfl⟩
        · have hrenews : ¬ Acquires c.request := by
            rw [hreq]
            exact id
          have hunique A (hA : Obtained A (lockKey sessionId) existing.fencingToken s₃.log) :=
            hinv.unique hA h₃.own
          obtain ⟨c', hdraw, hput⟩ := hinv.drawn h₃.own
          refine hinv.stored hholder hunique ?_ ⟨c', hdraw, hput.cons⟩
          intro hs
          rcases (superseded_cons h₃.own hunique).mp hs with ⟨B, -, hacquires, -⟩ | hold
          · exact hrenews hacquires
          · exact h₃.valid ((hcond _ _ rfl).2 hrenews) hold
        · exact hinv.failed
    · cases herr

/-- **Every call is safe.** -/
theorem adequate : proto.Adequate Client where
  env_inv := inv_drift
  client_safe {c p s} hclient hinv hsilent := by
    obtain rfl : p = c.request.serve := hclient
    obtain ⟨serial, request⟩ := c
    cases request with
    | tryAcquire m sessionId purpose =>
        exact .bind (safe_tryAcquire rfl hsilent) fun _ _ _ => trivial
    | renew m sessionId => exact .bind (safe_renew rfl) fun _ _ _ => trivial
    | release m sessionId =>
        exact .bind (.frame frames_quiet (release_asks m sessionId) trivial) fun _ _ _ => trivial
    | gcExpired m => exact .bind (.frame frames_quiet gcExpired_asks trivial) fun _ _ _ => trivial

/-- A token is valid only while an entry that carries it is stored. -/
theorem exists_of_yields {w : LockWorld} {sessionId : String}
    (h : lockSystem.Yields (validateFencingToken sessionId T) w true) :
    ∃ e, w.store.lookup (lockKey sessionId) = some (.ok e) ∧ e.fencingToken = T := by
  obtain ⟨r, w', ⟨rfl, rfl | ⟨err, rfl⟩⟩, hvalid⟩ := h
  · revert hvalid
    cases hlook : w'.store.lookup (lockKey sessionId) with
    | none => exact fun hvalid => nomatch hvalid
    | some found =>
        cases found with
        | error err => exact fun hvalid => nomatch hvalid
        | ok e => exact fun hvalid => ⟨e, rfl, of_decide_eq_true hvalid⟩
  · cases hvalid

/-- Validation always answers. -/
theorem exists_yields (w : LockWorld) (sessionId : String) (T : ℕ) :
    ∃ valid, lockSystem.Yields (validateFencingToken sessionId T) w valid := by
  rcases hlook : w.store.lookup (lockKey sessionId) with _ | err | e
  · exact ⟨_, .ok none, w, ⟨rfl, .inl (by rw [hlook])⟩, rfl⟩
  · exact ⟨_, .ok (some (.error err)), w, ⟨rfl, .inl (by rw [hlook])⟩, rfl⟩
  · exact ⟨_, .ok (some (.ok e)), w, ⟨rfl, .inl (by rw [hlook])⟩, rfl⟩

/-- **Superseded tokens are invalid.**  In every run in which no entry is stored
under a token of another instance, and none is renewed after another instance has
acquired the lock, a token obtained before the last takeover is never valid
again. -/
theorem superseded_token_invalid {now : Instant}
    {cfg : Config LockCall LockOp LockOp.Res LockWorld}
    (run : Run lockSystem Client Orderly
      (Config.idle LockCall LockOp LockOp.Res (LockWorld.initial now)) cfg)
    {sessionId : String} {older newer : LockEvent}
    (order : [newer, older].Sublist cfg.shared.log)
    (obtained : Stores A (lockKey sessionId) T older)
    (acquired : AcquiredBy B (lockKey sessionId) newer) (other : A ≠ B) (valid : Bool) :
    lockSystem.Yields (validateFencingToken sessionId T) cfg.shared.world valid ↔
      valid = false := by
  have hinv := ((Proto.good_idle (P := proto) (inv_initial now)).run adequate run).inv
  have hnot : ¬ lockSystem.Yields (validateFencingToken sessionId T) cfg.shared.world true := by
    intro hvalid
    obtain ⟨e, hlook, rfl⟩ := exists_of_yields hvalid
    exact (hinv.current hlook).2 (superseded_of_sublist order obtained acquired other)
  cases valid with
  | true => simpa using hnot
  | false =>
      obtain ⟨valid, hvalid⟩ := exists_yields cfg.shared.world sessionId T
      cases valid with
      | true => exact absurd hvalid hnot
      | false => exact iff_of_true hvalid rfl

/-! ### Runs of the code -/

/-- A store on which every operation succeeds. -/
def reliable : Driver lockSystem where
  serve
    | .get key, w => (.ok (w.store.lookup key), w)
    | .put key entry, w => (.ok (), { w with store := w.store.insert key (.ok entry) })
    | .delete key, w => (.ok (), { w with store := w.store.erase key })
    | .scan pre, w => (.ok (w.scan pre), w)
    | .clock, w => (w.now, w)
    | .nextToken I, w =>
        ((w.fencingCounter I + 1 : ℕ),
          { w with
            fencingCounter := Function.update w.fencingCounter I (w.fencingCounter I + 1) })
  tick n w := { w with now := w.now + n }
  exec_serve e w := by
    cases e with
    | get key => exact ⟨rfl, .inl rfl⟩
    | put key entry => exact .inl ⟨rfl, rfl⟩
    | delete key => exact .inl ⟨rfl, rfl⟩
    | scan pre => exact ⟨rfl, .inl ⟨_, rfl, .refl _⟩⟩
    | clock => exact ⟨rfl, rfl⟩
    | nextToken I => exact ⟨rfl, rfl⟩
  env_tick n w := ⟨w.now + n, Int.le_add_of_nonneg_right (by simp), rfl⟩

def acquireA : LockCall := ⟨0, .tryAcquire (.new "a") "s" ""⟩
def acquireB : LockCall := ⟨1, .tryAcquire (.new "b") "s" ""⟩
def acquireOther : LockCall := ⟨2, .tryAcquire (.new "b") "t" ""⟩

/-- A call from start to end: the clock, the stored entry, a token, the new entry. -/
def acquiring (c : LockCall) : List (Choice LockCall LockOp LockOp.Res) :=
  [.start c c.request.serve, .op c, .op c, .op c, .op c]

/-- The lock of the first instance runs out, and the second acquires it. -/
def takeover : List (Choice LockCall LockOp LockOp.Res) :=
  acquiring acquireA ++ .tick 31000000000 :: acquiring acquireB

/-- What a schedule leads to, from an empty store. -/
def after (schedule : List (Choice LockCall LockOp LockOp.Res)) :
    Config LockCall LockOp LockOp.Res LockWorld :=
  (Config.idle LockCall LockOp LockOp.Res (LockWorld.initial 0)).follow reliable schedule

def entryA : DistributedLockEntry := (DistributedLockManager.new "a").entry 0 1 ""
def entryB (token : ℕ) : DistributedLockEntry :=
  (DistributedLockManager.new "b").entry 31000000000 token ""

/-- The second instance has acquired another lock before. -/
def ahead : List (Choice LockCall LockOp LockOp.Res) := acquiring acquireOther ++ takeover

def entryOther : DistributedLockEntry := (DistributedLockManager.new "b").entry 0 1 ""

theorem log_takeover : (after takeover).shared.log =
    [⟨acquireB, .put (lockKey "s") (entryB 1), .ok ()⟩, ⟨acquireB, .nextToken "b", (1 : ℕ)⟩,
      ⟨acquireB, .get (lockKey "s"), .ok (some (.ok entryA))⟩,
      ⟨acquireB, .clock, (31000000000 : ℤ)⟩, ⟨acquireA, .put (lockKey "s") entryA, .ok ()⟩,
      ⟨acquireA, .nextToken "a", (1 : ℕ)⟩, ⟨acquireA, .get (lockKey "s"), .ok none⟩,
      ⟨acquireA, .clock, (0 : ℤ)⟩] := rfl

theorem log_other : (after (acquiring acquireOther)).shared.log =
    [⟨acquireOther, .put (lockKey "t") entryOther, .ok ()⟩, ⟨acquireOther, .nextToken "b", (1 : ℕ)⟩,
      ⟨acquireOther, .get (lockKey "t"), .ok none⟩, ⟨acquireOther, .clock, (0 : ℤ)⟩] := rfl

theorem log_ahead : (after ahead).shared.log =
    ⟨acquireB, .put (lockKey "s") (entryB 2), .ok ()⟩ :: ⟨acquireB, .nextToken "b", (2 : ℕ)⟩ ::
      ⟨acquireB, .get (lockKey "s"), .ok (some (.ok entryA))⟩ ::
      ⟨acquireB, .clock, (31000000000 : ℤ)⟩ :: ⟨acquireA, .put (lockKey "s") entryA, .ok ()⟩ ::
      ⟨acquireA, .nextToken "a", (1 : ℕ)⟩ :: ⟨acquireA, .get (lockKey "s"), .ok none⟩ ::
      ⟨acquireA, .clock, (0 : ℤ)⟩ :: (after (acquiring acquireOther)).shared.log := rfl

theorem orderly_ahead : (Config.idle LockCall LockOp LockOp.Res (LockWorld.initial 0)).Meets
    reliable Orderly ahead := by
  have quiet {s : LockState} {c : LockCall} {e : LockOp} {r : e.Res}
      (he : ∀ key entry, e ≠ .put key entry) : Orderly s ⟨c, e, r⟩ :=
    fun key entry hop => absurd hop (he key entry)
  have fresh {s : LockState} {c : LockCall} {sessionId : String} {entry : DistributedLockEntry}
      {r} (hacquires : Acquires c.request)
      (hnone : ∀ A, ¬ Obtained A (lockKey sessionId) entry.fencingToken s.log) :
      Orderly s ⟨c, .put (lockKey sessionId) entry, r⟩ := by
    rintro key entry ⟨⟩
    exact ⟨fun _ A hA => absurd hA (hnone A), fun hnot => absurd hacquires hnot⟩
  have hkey : lockKey "t" ≠ lockKey "s" := by decide
  refine ⟨quiet nofun, quiet nofun, quiet nofun, fresh trivial ?_, quiet nofun, quiet nofun,
    quiet nofun, fresh trivial ?_, quiet nofun, quiet nofun, quiet nofun, fresh trivial ?_, trivial⟩
  · intro A hA
    have hA : Obtained A (lockKey "t") 1 [⟨acquireOther, .nextToken "b", (1 : ℕ)⟩,
      ⟨acquireOther, .get (lockKey "t"), .ok none⟩, ⟨acquireOther, .clock, (0 : ℤ)⟩] := hA
    simp [Obtained, Stores] at hA
  · intro A hA
    have hA : Obtained A (lockKey "s") 1 (⟨acquireA, .nextToken "a", (1 : ℕ)⟩ ::
      ⟨acquireA, .get (lockKey "s"), .ok none⟩ :: ⟨acquireA, .clock, (0 : ℤ)⟩ ::
        (after (acquiring acquireOther)).shared.log) := hA
    simp [Obtained, Stores, log_other, hkey] at hA
  · intro A hA
    have hA : Obtained A (lockKey "s") 2 (⟨acquireB, .nextToken "b", (2 : ℕ)⟩ ::
      ⟨acquireB, .get (lockKey "s"), .ok (some (.ok entryA))⟩ ::
        ⟨acquireB, .clock, (31000000000 : ℤ)⟩ :: ⟨acquireA, .put (lockKey "s") entryA, .ok ()⟩ ::
        ⟨acquireA, .nextToken "a", (1 : ℕ)⟩ :: ⟨acquireA, .get (lockKey "s"), .ok none⟩ ::
        ⟨acquireA, .clock, (0 : ℤ)⟩ :: (after (acquiring acquireOther)).shared.log) := hA
    simp [Obtained, Stores, log_other, hkey, entryA, DistributedLockManager.entry] at hA

theorem client_of_mem {c : LockCall}
    {p : LockProc Unit} (h : .start c p ∈ ahead) : Client c p := by
  obtain ⟨rfl, rfl⟩ | ⟨rfl, rfl⟩ | ⟨rfl, rfl⟩ :
      (c = acquireOther ∧ p = acquireOther.request.serve) ∨
      (c = acquireA ∧ p = acquireA.request.serve) ∨ c = acquireB ∧ p = acquireB.request.serve := by
    simpa [ahead, takeover, acquiring] using h
  all_goals rfl

theorem superseded_token_invalid_ahead :
    lockSystem.Yields (validateFencingToken "s" 1) (after ahead).shared.world false ∧
      ¬ lockSystem.Yields (validateFencingToken "s" 1) (after ahead).shared.world true := by
  have order : [(⟨acquireB, .put (lockKey "s") (entryB 2), .ok ()⟩ : LockEvent),
      ⟨acquireA, .put (lockKey "s") entryA, .ok ()⟩].Sublist (after ahead).shared.log := by
    simp [log_ahead]
  have hiff := @superseded_token_invalid "a" "b" 1 0 _
    (.follow (fun _ _ => client_of_mem) orderly_ahead) "s" _ _ order ⟨rfl, rfl, rfl⟩
    ⟨trivial, 2, rfl, rfl, rfl⟩ (by decide)
  exact ⟨(hiff false).mpr rfl, fun h => nomatch (hiff true).mp h⟩

/-- **Two instances number alike**: the lock of the first has run out, the second has
acquired it, and the token of the first is valid. -/
theorem stale_token_valid : ∃ cfg, Run lockSystem Client (fun _ _ => True)
    (Config.idle LockCall LockOp LockOp.Res (LockWorld.initial 0)) cfg ∧
    ∃ older newer : LockEvent, [newer, older].Sublist cfg.shared.log ∧
      Stores "a" (lockKey "s") 1 older ∧ AcquiredBy "b" (lockKey "s") newer ∧
      entryA.expiresAt < (entryB 1).acquiredAt ∧
      lockSystem.Yields (validateFencingToken "s" 1) cfg.shared.world true := by
  refine ⟨after takeover, .follow ?_ (Config.meets_true _ _ _),
    ⟨acquireA, .put (lockKey "s") entryA, .ok ()⟩,
    ⟨acquireB, .put (lockKey "s") (entryB 1), .ok ()⟩,
    by rw [log_takeover]; simp, ⟨rfl, rfl, rfl⟩, ⟨trivial, 1, rfl, rfl, rfl⟩, by decide, ?_⟩
  · exact fun c p h => client_of_mem (List.mem_append_right _ h)
  · exact ⟨.ok (some (.ok (entryB 1))), _, ⟨rfl, .inl rfl⟩, rfl⟩

end ClawDesk.Agents.FencingTokens
