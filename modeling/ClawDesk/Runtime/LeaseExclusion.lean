import ClawDesk.Runtime.Lease

/-!
# At most one holder

Any number of workers acquire, renew and release leases on one store, their
store operations interleaved in any order, with time passing in between.

Acquiring is a read followed by a write, so two workers that both read before
either writes are both granted the lease (`two_holders`).  Nothing else goes
wrong: in a run in which no lease entry is written on the strength of a read
that another worker has overtaken, and in which `acquire` returns before the
lease it obtained has run out, no two workers hold a lease for the same run
(`holder_unique`).
-/

namespace ClawDesk.Runtime.LeaseExclusion

open Foundations

abbrev LeaseEvent := Event LeaseCall Op Op.Res
abbrev LeaseState := Shared LeaseCall Op Op.Res World

/-! ### Who holds a lease -/

/-- The event stored the lease `ℓ` for the run. -/
def Stored (runId : RunId) (ℓ : Lease) (ev : LeaseEvent) : Prop :=
  ∃ c, ev = ⟨c, .put (.lease runId) ℓ, .ok ()⟩

/-- The event deleted the run's lease on a release of `ℓ`. -/
def Released (runId : RunId) (ℓ : Lease) (ev : LeaseEvent) : Prop :=
  ∃ c, ev = ⟨c, .delete (.lease runId), .ok ()⟩ ∧
    c.request = .release runId ℓ.workerId ℓ.fenceToken

/-- `ℓ` has been stored for the run and not released since. -/
def Given (runId : RunId) (ℓ : Lease) : List LeaseEvent → Prop
  | [] => False
  | ev :: log => Stored runId ℓ ev ∨ (¬ Released runId ℓ ev ∧ Given runId ℓ log)

/-- The request is one that returns a lease for the run to the worker. -/
def ReturnsLease (runId : RunId) (workerId : WorkerId) : LeaseRequest → Prop
  | .acquire _ r w => r = runId ∧ w = workerId
  | .renew _ r w _ => r = runId ∧ w = workerId
  | _ => False

/-- A lease for the run has been returned to the worker, which has neither
expired nor been released. -/
def Holds (s : LeaseState) (workerId : WorkerId) (runId : RunId) : Prop :=
  ∃ c ℓ, (⟨c, .report (.lease (.ok ℓ)), ()⟩ : LeaseEvent) ∈ s.log ∧
    ReturnsLease runId workerId c.request ∧ s.world.now < ℓ.expiresAt ∧ Given runId ℓ s.log

/-! ### The calls and the condition on them -/

/-- Each worker's manager has one default time to live. -/
def UsesTtl (ttl : WorkerId → ℕ) : LeaseRequest → Prop
  | .acquire manager _ w => manager.defaultTtlSecs = ttl w
  | .renew manager _ w _ => manager.defaultTtlSecs = ttl w
  | _ => True

/-- Any worker may make any request at any time. -/
def Client (ttl : WorkerId → ℕ) (c : LeaseCall) (p : Proc Unit) : Prop :=
  p = c.request.serve ∧ UsesTtl ttl c.request

/-- The two things that must not happen: a lease entry is written on the
strength of a read that another call has overtaken, or `acquire` returns a lease
that has expired or been released in the meantime. -/
structure Orderly (s : LeaseState) (ev : LeaseEvent) : Prop where
  current : ∀ runId, Wrote (.lease runId) ev → Undisturbed ev.tid (.lease runId) s.log
  inForce : ∀ {manager runId w ℓ}, ev.tid.request = .acquire manager runId w →
    ev.op = .report (.lease (.ok ℓ)) → s.world.now < ℓ.expiresAt ∧ Given runId ℓ s.log

/-! ### The invariant -/

/-- A lease that is in force is the stored one, or an earlier state of it. -/
structure Inv (ttl : WorkerId → ℕ) (s : LeaseState) : Prop where
  held : ∀ {runId ℓ}, Given runId ℓ s.log → s.world.now < ℓ.expiresAt →
    ∃ e, s.world.store.lookup (.lease runId) = some e ∧ e.workerId = ℓ.workerId ∧
      e.fenceToken = ℓ.fenceToken ∧ ℓ.expiresAt ≤ e.expiresAt
  /-- …so that a renewal never brings the expiry forward. -/
  bounded : ∀ {runId e}, s.world.store.lookup (.lease runId) = some e →
    e.expiresAt ≤ s.world.now + durationSeconds (ttl e.workerId)
  returned : ∀ {c ℓ runId w}, (⟨c, .report (.lease (.ok ℓ)), ()⟩ : LeaseEvent) ∈ s.log →
    ReturnsLease runId w c.request → ℓ.workerId = w

/-- The argument of this module. -/
def proto (ttl : WorkerId → ℕ) : Proto LeaseCall Op Op.Res World where
  sys := runtimeSystem
  cond := Orderly
  inv := Inv ttl
  assert _ _ := True

variable {ttl : WorkerId → ℕ} {s : LeaseState} {c : LeaseCall} {runId : RunId}

theorem Stored.wrote {ℓ : Lease} {ev : LeaseEvent} (h : Stored runId ℓ ev) :
    Wrote (.lease runId) ev := by
  obtain ⟨c, rfl⟩ := h
  exact rfl

theorem Released.wrote {ℓ : Lease} {ev : LeaseEvent} (h : Released runId ℓ ev) :
    Wrote (.lease runId) ev := by
  obtain ⟨c, rfl, -⟩ := h
  exact rfl

theorem given_of_not_wrote {ℓ : Lease} {ev : LeaseEvent} {log : List LeaseEvent}
    (hw : ¬ Wrote (.lease runId) ev) : Given runId ℓ (ev :: log) ↔ Given runId ℓ log := by
  constructor
  · rintro (h | ⟨-, h⟩)
    · exact absurd h.wrote hw
    · exact h
  · exact fun h => .inr ⟨fun hr => hw hr.wrote, h⟩

/-- The part of the invariant that speaks about one run carries over when the
run's entry is not written. -/
theorem Inv.frame {e : Op} {r : e.Res} {w : World} (h : Inv ttl s)
    (hexec : World.exec e s.world r w)
    (returned : ∀ {ℓ runId w}, e = .report (.lease (.ok ℓ)) →
      ReturnsLease runId w c.request → ℓ.workerId = w)
    (written : ∀ runId, Wrote (.lease runId) (⟨c, e, r⟩ : LeaseEvent) →
      (∀ ℓ, Given runId ℓ (⟨c, e, r⟩ :: s.log) → w.now < ℓ.expiresAt →
        ∃ e, w.store.lookup (.lease runId) = some e ∧ e.workerId = ℓ.workerId ∧
          e.fenceToken = ℓ.fenceToken ∧ ℓ.expiresAt ≤ e.expiresAt) ∧
      ∀ e, w.store.lookup (.lease runId) = some e →
        e.expiresAt ≤ w.now + durationSeconds (ttl e.workerId)) :
    Inv ttl (s.push ⟨c, e, r⟩ w) where
  held {runId ℓ} hgiven hnow := by
    by_cases hw : Wrote (.lease runId) (⟨c, e, r⟩ : LeaseEvent)
    · exact (written runId hw).1 ℓ hgiven hnow
    · simp only [Shared.push_world, lookup_of_not_wrote hexec hw]
      exact h.held ((given_of_not_wrote hw).mp hgiven) (World.now_of_exec hexec ▸ hnow)
  bounded {runId e'} hlookup := by
    by_cases hw : Wrote (.lease runId) (⟨c, e, r⟩ : LeaseEvent)
    · exact (written runId hw).2 e' hlookup
    · have hnow := World.now_of_exec hexec
      rw [Shared.push_world, lookup_of_not_wrote hexec hw] at hlookup
      simpa only [Shared.push_world, hnow] using h.bounded hlookup
  returned {c' ℓ runId w'} hmem hreq := by
    rcases List.mem_cons.mp hmem with heq | hmem
    · obtain ⟨rfl, hop, -⟩ := Event.mk.inj heq
      exact returned hop.symm hreq
    · exact h.returned hmem hreq

/-- Operations other than writing an entry or returning a lease keep the
invariant. -/
theorem Inv.passive {e : Op} {r : e.Res} {w : World} (h : Inv ttl s)
    (hexec : World.exec e s.world r w)
    (hwrote : ∀ runId, ¬ Wrote (.lease runId) (⟨c, e, r⟩ : LeaseEvent))
    (hreport : ∀ ℓ, e ≠ .report (.lease (.ok ℓ))) : Inv ttl (s.push ⟨c, e, r⟩ w) :=
  h.frame hexec (fun he => absurd he (hreport _)) fun runId hw => absurd hw (hwrote runId)

/-- Storing a lease that every lease in force is an earlier state of. -/
theorem Inv.stored {v : Lease} (h : Inv ttl s)
    (hbound : v.expiresAt ≤ s.world.now + durationSeconds (ttl v.workerId))
    (hcovers : ∀ ℓ, Given runId ℓ s.log → s.world.now < ℓ.expiresAt →
      v.workerId = ℓ.workerId ∧ v.fenceToken = ℓ.fenceToken ∧ ℓ.expiresAt ≤ v.expiresAt) :
    Inv ttl (s.push ⟨c, .put (.lease runId) v, .ok ()⟩ (s.world.put (.lease runId) v)) := by
  refine h.frame (.inl ⟨rfl, rfl⟩) (by simp) ?_
  intro r (hw : Key.lease runId = Key.lease r)
  obtain rfl := Key.lease.inj hw
  have hlookup : (s.world.put (.lease runId) v).store.lookup (.lease runId) = some v :=
    AList.lookup_insert _
  refine ⟨fun ℓ hgiven hnow => ⟨v, hlookup, ?_⟩, fun e he => ?_⟩
  · rcases hgiven with ⟨c', heq⟩ | ⟨-, hgiven⟩
    · obtain ⟨rfl, rfl⟩ : c = c' ∧ v = ℓ := by simpa using heq
      exact ⟨rfl, rfl, le_rfl⟩
    · exact hcovers ℓ hgiven hnow
  · obtain rfl : v = e := by simpa [hlookup] using he
    exact hbound

/-- Deleting the entry on a release of every lease in force. -/
theorem Inv.deleted (h : Inv ttl s)
    (hreleases : ∀ ℓ, Given runId ℓ s.log → s.world.now < ℓ.expiresAt →
      c.request = .release runId ℓ.workerId ℓ.fenceToken) :
    Inv ttl (s.push ⟨c, .delete (.lease runId), .ok ()⟩ (s.world.erase (.lease runId))) := by
  refine h.frame (.inl ⟨rfl, rfl⟩) (by simp) ?_
  intro r (hw : Key.lease runId = Key.lease r)
  obtain rfl := Key.lease.inj hw
  refine ⟨fun ℓ hgiven hnow => ?_, fun e he => ?_⟩
  · rcases hgiven with ⟨c', heq⟩ | ⟨hnot, hgiven⟩
    · simp at heq
    · exact absurd ⟨c, rfl, hreleases ℓ hgiven hnow⟩ hnot
  · simp [AList.lookup_erase] at he

theorem Orderly.passive {e : Op} {r : e.Res}
    (hwrote : ∀ runId, ¬ Wrote (.lease runId) (⟨c, e, r⟩ : LeaseEvent))
    (hreport : ∀ ℓ, e ≠ .report (.lease (.ok ℓ))) : Orderly s ⟨c, e, r⟩ :=
  ⟨fun r hw => absurd hw (hwrote r), fun _ he => absurd he (hreport _)⟩

theorem clockFree : ClockFree (proto ttl) where
  sys := rfl
  inv h := Inv.passive h ⟨rfl, rfl⟩ (fun _ => id) (by simp)
  assert := trivial

theorem inv_drift {w : World} (h : Inv ttl s) (hmoves : World.passes s.world w) :
    Inv ttl (s.drift w) := by
  obtain ⟨n, hn, rfl⟩ := hmoves
  refine ⟨fun hgiven hnow => h.held hgiven (lt_of_le_of_lt hn hnow), fun hlookup => ?_,
    h.returned⟩
  exact (h.bounded hlookup).trans (by simpa using hn)

/-! ### One lemma per procedure -/

/-- What a procedure that returns a lease promises about it. -/
def ForWorker (workerId : WorkerId) (result : Except RuntimeError Lease) : Prop :=
  ∀ ℓ, result = .ok ℓ → ℓ.workerId = workerId

theorem safe_grant {lm : LeaseManager} {workerId : WorkerId}
    (httl : lm.defaultTtlSecs = ttl workerId)
    (hs : WhileUndisturbed c (.lease runId) (Lapsed runId) s) :
    (proto ttl).Safe c (lm.grant runId workerId) (fun result _ => ForWorker workerId result) s := by
  refine Proto.Safe.ask (lasting_lapsed clockFree).stable hs fun s₁ h₁ hinv fence w _ hexec => ?_
  refine ⟨trivial, hinv.passive hexec (fun _ => id) (by simp), ?_⟩
  obtain ⟨rfl, rfl⟩ := hexec
  refine .bind (safe_clock clockFree (lasting_lapsed clockFree) (h₁.push id id))
    fun now s₂ ⟨h₂, hnow⟩ => ?_
  refine safe_putEntry rfl ((lasting_lapsed clockFree).stable.and (stable_le_now rfl)) ⟨h₂, hnow.le⟩
    (fun s₃ ⟨h₃, hnow₃⟩ hinv₃ hcond => ⟨trivial, ?_, ?_⟩)
    (fun s₃ err ⟨h₃, hnow₃⟩ hinv₃ hcond => ⟨trivial, ?_, ?_⟩)
  · refine hinv₃.stored ?_ fun ℓ hgiven hℓ => ?_
    · simpa [Lease.new, httl] using hnow₃
    · obtain ⟨e, he, -, -, hle⟩ := hinv₃.held hgiven hℓ
      have hlapsed : e.expiresAt ≤ s₃.world.now := h₃ (hcond.current _ rfl) e he
      exact absurd (hℓ.trans_le hle) hlapsed.not_gt
  · rintro ℓ ⟨⟩
    rfl
  · exact hinv₃.passive (.inr ⟨⟨err, rfl⟩, rfl⟩) (fun _ => id) (by simp)
  · rintro ℓ ⟨⟩

theorem hasRead_get {existing : Lease} (h : Inv ttl s)
    (hlookup : s.world.store.lookup (.lease runId) = some existing) :
    HasRead ttl c runId existing
      (s.push ⟨c, .get (.lease runId), .ok (some existing)⟩ s.world) :=
  ⟨fun _ => hlookup, h.bounded hlookup⟩

theorem safe_renew {lm : LeaseManager} {workerId : WorkerId} {fence : ℕ}
    (httl : lm.defaultTtlSecs = ttl workerId) :
    (proto ttl).Safe c (lm.renew runId workerId fence)
      (fun result _ => ForWorker workerId result) s := by
  refine safe_getEntry rfl (Proto.stable_const (p := True)) trivial
    (fun s₁ _ hinv _ => ⟨trivial, hinv.passive ⟨rfl, .inl rfl⟩ (fun _ => id) (by simp), ?_⟩)
    (fun s₁ err _ hinv _ => ⟨trivial, hinv.passive ⟨rfl, .inr ⟨err, rfl⟩⟩ (fun _ => id) (by simp),
      by rintro ℓ ⟨⟩⟩)
  cases hlookup : s₁.world.store.lookup (.lease runId) with
  | none => rintro ℓ ⟨⟩
  | some existing =>
      dsimp only
      split_ifs with hfence
      · rintro ℓ ⟨⟩
      refine .bind (safe_checkHeldBy clockFree (lasting_hasRead clockFree) existing workerId
        (hasRead_get hinv hlookup)) fun held s₂ ⟨h₂, hheld, _⟩ => ?_
      cases held with
      | false => rintro ℓ ⟨⟩
      | true =>
          obtain rfl := hheld rfl
          refine .bind (safe_clock clockFree (lasting_hasRead clockFree) h₂)
            fun now s₃ ⟨h₃, hnow⟩ => ?_
          have hextends : existing.expiresAt ≤
              now + durationSeconds (ttl existing.workerId) := hnow ▸ h₃.bounded
          refine safe_putEntry rfl ((lasting_hasRead clockFree).stable.and (stable_le_now rfl))
            ⟨h₃, hnow.le⟩
            (fun s₄ ⟨h₄, hnow₄⟩ hinv₄ hcond => ⟨trivial, hinv₄.stored ?_ ?_, ?_⟩)
            (fun s₄ err _ hinv₄ _ => ⟨trivial,
              hinv₄.passive (.inr ⟨⟨err, rfl⟩, rfl⟩) (fun _ => id) (by simp), by rintro ℓ ⟨⟩⟩)
          · simpa [Lease.renew, httl] using hnow₄
          · intro ℓ hgiven hℓ
            obtain ⟨e, he, hworker, htoken, hle⟩ := hinv₄.held hgiven hℓ
            obtain rfl : existing = e := by
              simpa [h₄.current (hcond.current _ rfl)] using he
            exact ⟨hworker, htoken, hle.trans (by simpa [Lease.renew, httl] using hextends)⟩
          · rintro ℓ ⟨⟩
            rfl

theorem safe_acquire {lm : LeaseManager} {workerId : WorkerId}
    (httl : lm.defaultTtlSecs = ttl workerId) (hsilent : s.Silent c) :
    (proto ttl).Safe c (lm.acquire runId workerId)
      (fun result _ => ForWorker workerId result) s := by
  refine Proto.Safe.ask Proto.stable_silent hsilent fun s₁ hsilent₁ hinv r w _ hexec => ?_
  refine ⟨trivial, hinv.passive hexec (fun _ => id) (by simp), ?_⟩
  obtain ⟨rfl, rfl | ⟨err, rfl⟩⟩ := hexec
  · cases hlookup : s₁.world.store.lookup (.lease runId) with
    | none =>
        refine safe_grant httl fun _ e he => ?_
        simp [hlookup] at he
    | some existing =>
        refine .bind (safe_conflict clockFree (lasting_hasRead clockFree) existing workerId
          (hasRead_get hinv hlookup)) fun conflict s₂ ⟨h₂, hconflict⟩ => ?_
        cases conflict with
        | true => rintro ℓ ⟨⟩
        | false =>
            have hknown : Lasting (proto ttl) c fun s => HasRead ttl c runId existing s ∧
                (existing.expiresAt ≤ s.world.now ∨ existing.workerId = workerId) :=
              (lasting_hasRead clockFree).and ((lasting_le_now clockFree _).or (lasting_const _))
            refine .bind (safe_own clockFree hknown existing workerId ⟨h₂, hconflict rfl⟩)
              fun own s₃ ⟨⟨h₃, hmine⟩, _, hlapsed⟩ => ?_
            cases own with
            | true => exact safe_renew httl
            | false =>
                refine safe_grant httl fun hund e he => ?_
                obtain rfl : existing = e := by simpa [h₃.current hund] using he
                exact hmine.elim id (hlapsed rfl)
  · refine safe_grant httl fun hund => ?_
    exact absurd ((undisturbed_cons id).mp hund) (not_undisturbed hsilent₁)

/-- The lease stored for the run, if any, is the one to be released. -/
def ToRelease (runId : RunId) (w : WorkerId) (fence : ℕ) (s : LeaseState) : Prop :=
  ∀ e, s.world.store.lookup (.lease runId) = some e → e.workerId = w ∧ e.fenceToken = fence

theorem stable_toRelease {w : WorkerId} {fence : ℕ} :
    (proto ttl).Stable c (WhileUndisturbed c (.lease runId) (ToRelease runId w fence)) := by
  refine stable_whileUndisturbed rfl (fun s n _ h => h) ?_
  intro s ev world hw _ _ hexec h e he
  rw [Shared.push_world, lookup_of_not_wrote hexec hw] at he
  exact h e he

theorem safe_deleteLease {w : WorkerId} {fence : ℕ}
    (hreq : c.request = .release runId w fence)
    (hs : WhileUndisturbed c (.lease runId) (ToRelease runId w fence) s) :
    (proto ttl).Safe c (LeaseManager.deleteLease runId) (fun _ _ => True) s := by
  refine Proto.Safe.ask stable_toRelease hs fun s₁ h₁ hinv r world hcond hexec => ?_
  refine ⟨trivial, ?_, trivial⟩
  rcases hexec with ⟨rfl, rfl⟩ | ⟨⟨err, rfl⟩, rfl⟩
  · refine hinv.deleted fun ℓ hgiven hℓ => ?_
    obtain ⟨e, he, hworker, htoken, -⟩ := hinv.held hgiven hℓ
    obtain ⟨rfl, rfl⟩ := h₁ (hcond.current _ rfl) e he
    rw [hreq, hworker, htoken]
  · exact hinv.passive (.inr ⟨⟨err, rfl⟩, rfl⟩) (fun _ => id) (by simp)

theorem safe_release {w : WorkerId} {fence : ℕ}
    (hreq : c.request = .release runId w fence) (hsilent : s.Silent c) :
    (proto ttl).Safe c (LeaseManager.release runId w fence) (fun _ _ => True) s := by
  refine Proto.Safe.ask Proto.stable_silent hsilent fun s₁ hsilent₁ hinv r world _ hexec => ?_
  refine ⟨trivial, hinv.passive hexec (fun _ => id) (by simp), ?_⟩
  obtain ⟨rfl, rfl | ⟨err, rfl⟩⟩ := hexec
  · cases hlookup : s₁.world.store.lookup (.lease runId) with
    | none =>
        refine safe_deleteLease hreq fun _ e he => ?_
        simp [hlookup] at he
    | some existing =>
        dsimp only
        split_ifs with hfence
        · trivial
        refine .bind (safe_checkHeldBy clockFree (lasting_hasRead clockFree) existing w
          (hasRead_get hinv hlookup)) fun held s₂ ⟨h₂, hheld, _⟩ => ?_
        cases held with
        | false => trivial
        | true =>
            refine safe_deleteLease hreq fun hund e he => ?_
            obtain rfl : existing = e := by simpa [h₂.current hund] using he
            exact ⟨hheld rfl, not_not.mp hfence⟩
  · refine safe_deleteLease hreq fun hund => ?_
    exact absurd ((undisturbed_cons id).mp hund) (not_undisturbed hsilent₁)

theorem safe_validateFence {fence : ℕ} :
    (proto ttl).Safe c (LeaseManager.validateFence runId fence) (fun _ _ => True) s := by
  refine safe_getEntry rfl (Proto.stable_const (p := True)) trivial
    (fun s₁ _ hinv _ => ⟨trivial, hinv.passive ⟨rfl, .inl rfl⟩ (fun _ => id) (by simp), ?_⟩)
    (fun s₁ err _ hinv _ => ⟨trivial, hinv.passive ⟨rfl, .inr ⟨err, rfl⟩⟩ (fun _ => id) (by simp),
      trivial⟩)
  cases s₁.world.store.lookup (.lease runId) with
  | none => trivial
  | some lease =>
      dsimp only
      split_ifs with hfence
      · trivial
      refine .bind (safe_checkValid clockFree (lasting_const True) lease trivial)
        fun valid s₂ _ => ?_
      cases valid <;> trivial

/-- Returning to the caller. -/
theorem safe_report {report : Report}
    (h : ∀ {ℓ runId w}, report = .lease (.ok ℓ) → ReturnsLease runId w c.request →
      ℓ.workerId = w) :
    (proto ttl).Safe c (ask (.report report)) (fun _ _ => True) s := by
  refine Proto.Safe.op (Proto.stable_const (p := True)) trivial fun s₁ _ hinv r world _ hexec => ?_
  exact ⟨trivial, hinv.frame hexec (fun heq => h (by simpa using heq)) fun _ => False.elim, trivial⟩

/-- **Every call is safe.** -/
theorem adequate : (proto ttl).Adequate (Client ttl) where
  env_inv := inv_drift
  client_safe {c p s} hclient hinv hsilent := by
    obtain ⟨rfl, httl⟩ := hclient
    obtain ⟨serial, request⟩ := c
    cases request with
    | acquire manager runId w =>
        refine .bind (safe_acquire httl hsilent) fun result s' h => safe_report ?_
        rintro ℓ r w' heq ⟨-, rfl⟩
        exact h ℓ (by simpa using heq)
    | renew manager runId w fence =>
        refine .bind (safe_renew httl) fun result s' h => safe_report ?_
        rintro ℓ r w' heq ⟨-, rfl⟩
        exact h ℓ (by simpa using heq)
    | release runId w fence =>
        refine .bind (safe_release rfl hsilent) fun result s' _ => safe_report ?_
        rintro ℓ r w' heq
        simp at heq
    | validateFence runId fence =>
        exact .bind safe_validateFence fun result s' _ => safe_report fun _ => False.elim

theorem inv_initial (now : Instant) : Inv ttl ⟨World.initial now, []⟩ where
  held h := h.elim
  bounded h := by simp [World.initial] at h
  returned h := by simp at h

theorem Inv.eq_of_holds (h : Inv ttl s) {A B : WorkerId} (hA : Holds s A runId)
    (hB : Holds s B runId) : A = B := by
  obtain ⟨c, ℓ, hmem, hreq, hnow, hgiven⟩ := hA
  obtain ⟨c', ℓ', hmem', hreq', hnow', hgiven'⟩ := hB
  obtain ⟨e, he, hworker, -, -⟩ := h.held hgiven hnow
  obtain ⟨e', he', hworker', -, -⟩ := h.held hgiven' hnow'
  obtain rfl : e = e' := Option.some.inj (he.symm.trans he')
  rw [← h.returned hmem hreq, ← h.returned hmem' hreq', ← hworker, hworker']

/-- **Mutual exclusion.**  In every run in which every lease entry is written on
the strength of a current read and `acquire` returns in time, at most one worker
holds a lease for a run; and when `acquire` returns a lease to a worker, no other
worker holds one. -/
theorem holder_unique {now : Instant} {cfg : Config LeaseCall Op Op.Res World}
    (run : Run runtimeSystem (Client ttl) Orderly
      (Config.idle LeaseCall Op Op.Res (World.initial now)) cfg) :
    (∀ A B runId, Holds cfg.shared A runId → Holds cfg.shared B runId → A = B) ∧
    ∀ cfg' ev w, Step runtimeSystem (Client ttl) cfg (.op ev w) cfg' → Orderly cfg.shared ev →
      ∀ manager runId B ℓ, ev.tid.request = .acquire manager runId B →
        ev.op = .report (.lease (.ok ℓ)) → ∀ A, Holds cfg.shared A runId → A = B := by
  have hgood := (Proto.good_idle (P := proto ttl) (inv_initial now)).run adequate run
  refine ⟨fun A B runId => hgood.inv.eq_of_holds, ?_⟩
  intro cfg' ev w step hcond manager runId B ℓ hreq hop A hA
  have hinv' : Inv ttl cfg'.shared := (hgood.step adequate step fun _ _ h => by
    obtain ⟨rfl, rfl⟩ := Action.op.inj h
    exact hcond).inv
  obtain ⟨hnow, hgiven⟩ := hcond.inForce hreq hop
  cases step with
  | op running answer =>
      rename_i t e k r
      obtain rfl : e = .report (.lease (.ok ℓ)) := hop
      obtain rfl : w = cfg.shared.world := answer
      have hgiven_push {ℓ'} (h : Given runId ℓ' cfg.shared.log) :
          Given runId ℓ' (⟨t, .report (.lease (.ok ℓ)), r⟩ :: cfg.shared.log) :=
        (given_of_not_wrote id).mpr h
      refine hinv'.eq_of_holds ?_ ⟨t, ℓ, List.mem_cons_self, ?_, hnow, hgiven_push hgiven⟩
      · obtain ⟨c', ℓ', hmem, hreq', hnow', hgiven'⟩ := hA
        exact ⟨c', ℓ', List.mem_cons_of_mem _ hmem, hreq', hnow', hgiven_push hgiven'⟩
      · rw [show t.request = _ from hreq]
        exact ⟨rfl, rfl⟩

/-! ### Runs of the code -/

def run₀ : RunId := ⟨"r", by decide⟩

def acquireA : LeaseCall := ⟨0, .acquire ⟨30, 0⟩ run₀ "a"⟩
def acquireB : LeaseCall := ⟨1, .acquire ⟨30, 0⟩ run₀ "b"⟩
def leaseA : Lease := Lease.new run₀ "a" 30 1 0
def leaseB : Lease := Lease.new run₀ "b" 30 2 0

/-- One worker acquires the lease undisturbed. -/
def alone : List (Choice LeaseCall Op Op.Res) :=
  [.start acquireA acquireA.request.serve, .op acquireA, .op acquireA, .op acquireA,
    .op acquireA, .op acquireA]

/-- Both workers read before either writes. -/
def race : List (Choice LeaseCall Op Op.Res) :=
  [.start acquireA acquireA.request.serve, .start acquireB acquireB.request.serve,
    .op acquireA, .op acquireB, .op acquireA, .op acquireA, .op acquireA, .op acquireA,
    .op acquireB, .op acquireB, .op acquireB, .op acquireB]

/-- What a schedule leads to, from an empty store and with no time passing. -/
def after (schedule : List (Choice LeaseCall Op Op.Res)) : Config LeaseCall Op Op.Res World :=
  (Config.idle LeaseCall Op Op.Res (World.initial 0)).follow
    (reliable (.error (.other ""))) schedule

theorem log_alone : (after alone).shared.log =
    [⟨acquireA, .report (.lease (.ok leaseA)), ()⟩, ⟨acquireA, .put (.lease run₀) leaseA, .ok ()⟩,
      ⟨acquireA, .clock, (0 : ℤ)⟩, ⟨acquireA, .fetchAddFence 0, (1 : ℕ)⟩,
      ⟨acquireA, .get (.lease run₀), .ok none⟩] := rfl

theorem log_race : (after race).shared.log =
    [⟨acquireB, .report (.lease (.ok leaseB)), ()⟩, ⟨acquireB, .put (.lease run₀) leaseB, .ok ()⟩,
      ⟨acquireB, .clock, (0 : ℤ)⟩, ⟨acquireB, .fetchAddFence 0, (2 : ℕ)⟩,
      ⟨acquireA, .report (.lease (.ok leaseA)), ()⟩, ⟨acquireA, .put (.lease run₀) leaseA, .ok ()⟩,
      ⟨acquireA, .clock, (0 : ℤ)⟩, ⟨acquireA, .fetchAddFence 0, (1 : ℕ)⟩,
      ⟨acquireB, .get (.lease run₀), .ok none⟩, ⟨acquireA, .get (.lease run₀), .ok none⟩] := rfl

theorem holder_unique_alone : Holds (after alone).shared "a" run₀ ∧
    ∀ A B runId, Holds (after alone).shared A runId → Holds (after alone).shared B runId →
      A = B := by
  refine ⟨⟨acquireA, leaseA, ?_, ⟨rfl, rfl⟩, by decide, ?_⟩,
    (@holder_unique (fun _ => 30) 0 _ (.follow (d := reliable _) ?_ ?_)).1⟩
  · simp [log_alone]
  · simp [log_alone, Given, Stored, Released]
  · intro c p h
    obtain ⟨rfl, rfl⟩ : c = acquireA ∧ p = acquireA.request.serve := by simpa [alone] using h
    exact ⟨rfl, rfl⟩
  · have passive {s e} {r : Op.Res e} (hw : ∀ runId, ¬ Wrote (.lease runId)
        (⟨acquireA, e, r⟩ : LeaseEvent)) (he : ∀ ℓ, e ≠ .report (.lease (.ok ℓ))) :
        Orderly s ⟨acquireA, e, r⟩ := .passive hw he
    refine ⟨passive (fun _ => id) (by simp), passive (fun _ => id) (by simp),
      passive (fun _ => id) (by simp), ?_, ?_, trivial⟩
    · refine show Orderly _ _ from ⟨fun r hw => ?_, fun _ he => nomatch he⟩
      obtain rfl : run₀ = r := Key.lease.inj hw
      exact .inr ⟨id, .inr ⟨id, .inl ⟨rfl, rfl⟩⟩⟩
    · refine show Orderly _ _ from ⟨fun r => False.elim, ?_⟩
      rintro manager r w ℓ ⟨⟩ ⟨⟩
      exact ⟨by decide, .inl ⟨acquireA, rfl⟩⟩

/-- **Two workers that race for a lease both get it.** -/
theorem two_holders : ∃ cfg, Run runtimeSystem (Client fun _ => 30) (fun _ _ => True)
    (Config.idle LeaseCall Op Op.Res (World.initial 0)) cfg ∧
    Holds cfg.shared "a" run₀ ∧ Holds cfg.shared "b" run₀ ∧ "a" ≠ "b" := by
  refine ⟨after race, .follow ?_ (Config.meets_true _ _ _),
    ⟨acquireA, leaseA, ?_, ⟨rfl, rfl⟩, by decide, ?_⟩,
    ⟨acquireB, leaseB, ?_, ⟨rfl, rfl⟩, by decide, ?_⟩, by decide⟩
  · intro c p h
    obtain ⟨rfl, rfl⟩ | ⟨rfl, rfl⟩ : (c = acquireA ∧ p = acquireA.request.serve) ∨
        c = acquireB ∧ p = acquireB.request.serve := by simpa [race] using h
    · exact ⟨rfl, rfl⟩
    · exact ⟨rfl, rfl⟩
  all_goals simp [log_race, Given, Stored, Released]

end ClawDesk.Runtime.LeaseExclusion
