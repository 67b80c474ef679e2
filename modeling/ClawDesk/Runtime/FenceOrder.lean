import ClawDesk.Runtime.Lease

/-!
# Fence tokens over time

A fence token is drawn from a counter of the process, while the lease it is
stored with outlives the process.  After a restart the counter starts at 1
again, so a lease may be granted under a token that an earlier holder still has
(`token_repeated`).

In a run in which every lease is granted on the strength of a current read, and
under a token drawn from the counter of the previous grant or larger than the
previous token, the tokens of a run increase from grant to grant, and no call
that presents a superseded token succeeds (`tokens_increase`).
-/

namespace ClawDesk.Runtime.FenceOrder

open Foundations

abbrev LeaseEvent := Event LeaseCall Op Op.Res
abbrev LeaseState := Shared LeaseCall Op Op.Res World

/-! ### Grants -/

/-- The token a call has drawn, and the process whose counter it came from. -/
def drew (c : LeaseCall) : List LeaseEvent → Option (Process × ℕ)
  | [] => none
  | ⟨c', .fetchAddFence p, f⟩ :: log => if c' = c then some (p, f) else drew c log
  | _ :: log => drew c log

/-- The lease the event stored for the run. -/
def storedLease (runId : RunId) : LeaseEvent → Option Lease
  | ⟨_, .put k v, .ok _⟩ =>
      if h : k = .lease runId then some (cast (congrArg Key.Val h) v) else none
  | _ => none

/-- The grants of a run, newest first: the process that drew the token, and the
token.  A lease stored by a call that drew no token is a renewal. -/
def grants (runId : RunId) : List LeaseEvent → List (Process × ℕ)
  | [] => []
  | ev :: log =>
      match storedLease runId ev, drew ev.tid log with
      | some ℓ, some (p, _) => (p, ℓ.fenceToken) :: grants runId log
      | _, _ => grants runId log

/-- The tokens of all grants but the last. -/
def superseded (runId : RunId) (log : List LeaseEvent) : List ℕ :=
  (grants runId log).tail.map Prod.snd

/-- The request presents a token for the run. -/
def Presents (runId : RunId) (fence : ℕ) : LeaseRequest → Prop
  | .acquire _ _ _ => False
  | .renew _ r _ f => r = runId ∧ f = fence
  | .release r _ f => r = runId ∧ f = fence
  | .validateFence r f => r = runId ∧ f = fence

/-- The call has returned without an error. -/
def Succeeded (c : LeaseCall) (log : List LeaseEvent) : Prop :=
  ∃ ev ∈ log, ev.tid = c ∧
    (ev.op = .report (.done (.ok ())) ∨ ∃ ℓ, ev.op = .report (.lease (.ok ℓ)))

/-- The token had not been superseded by the time the call did its first
operation. -/
def NotStale (c : LeaseCall) (runId : RunId) (fence : ℕ) (log : List LeaseEvent) : Prop :=
  ∀ older, older <:+ log → (∀ ev ∈ older, ev.tid ≠ c) → fence ∉ superseded runId older

/-! ### The calls and the condition on them -/

/-- Any worker of any process may make any request at any time. -/
def Client (c : LeaseCall) (p : Proc Unit) : Prop := p = c.request.serve

structure Ordered (s : LeaseState) (ev : LeaseEvent) : Prop where
  /-- Lease entries are written on the strength of a read that no other call has
  overtaken. -/
  current : ∀ runId, Wrote (.lease runId) ev → Undisturbed ev.tid (.lease runId) s.log
  /-- A grant draws from the counter of the previous grant, or the counter it
  draws from is ahead of the previous token. -/
  ahead : ∀ {runId ℓ p f g}, storedLease runId ev = some ℓ → drew ev.tid s.log = some (p, f) →
    (grants runId s.log).head? = some g → g.1 = p ∨ g.2 < f
  /-- A release under a superseded token finds the lease that supersedes it. -/
  found : ∀ {runId w f res}, ev.tid.request = .release runId w f → f ∈ superseded runId s.log →
    ev = ⟨ev.tid, .get (.lease runId), res⟩ → ∃ e, res = .ok (some e)

/-! ### The invariant -/

structure Inv (s : LeaseState) : Prop where
  increasing : ∀ runId, ((grants runId s.log).map Prod.snd).Pairwise (· > ·)
  drawn : ∀ {runId g}, g ∈ grants runId s.log → g.2 < s.world.fenceCounter g.1
  /-- The stored lease carries the token of the last grant. -/
  latest : ∀ {runId e}, s.world.store.lookup (.lease runId) = some e →
    ∃ g, (grants runId s.log).head? = some g ∧ e.fenceToken = g.2
  honest : ∀ {c runId fence}, Presents runId fence c.request → Succeeded c s.log →
    NotStale c runId fence s.log

def proto : Proto LeaseCall Op Op.Res World where
  sys := runtimeSystem
  cond := Ordered
  inv := Inv
  assert _ _ := True

variable {s : LeaseState} {c : LeaseCall} {runId : RunId} {fence : ℕ}

theorem storedLease_eq_none {ev : LeaseEvent} (h : ¬ Wrote (.lease runId) ev) :
    storedLease runId ev = none := by
  obtain ⟨c, e, r⟩ := ev
  cases e with
  | put k v =>
      cases r with
      | ok u => exact dif_neg h
      | error err => rfl
  | _ => rfl

theorem wrote_of_storedLease {ev : LeaseEvent} {ℓ : Lease} (h : storedLease runId ev = some ℓ) :
    Wrote (.lease runId) ev := by
  by_contra hw
  simp [storedLease_eq_none hw] at h

@[simp] theorem storedLease_put {ℓ : Lease} :
    storedLease runId ⟨c, .put (.lease runId) ℓ, .ok ()⟩ = some ℓ :=
  dif_pos rfl

theorem grants_of_not_wrote {ev : LeaseEvent} {log : List LeaseEvent}
    (h : ¬ Wrote (.lease runId) ev) : grants runId (ev :: log) = grants runId log := by
  rw [grants, storedLease_eq_none h]

theorem grants_of_undrawn {ev : LeaseEvent} {log : List LeaseEvent}
    (h : drew ev.tid log = none) : grants runId (ev :: log) = grants runId log := by
  rw [grants, h]
  split <;> simp_all

theorem grants_of_drew {ℓ : Lease} {log : List LeaseEvent} {p : Process} {f : ℕ}
    (h : drew c log = some (p, f)) :
    grants runId (⟨c, .put (.lease runId) ℓ, .ok ()⟩ :: log) =
      (p, ℓ.fenceToken) :: grants runId log := by
  rw [grants, storedLease_put, h]

theorem grants_suffix {older log : List LeaseEvent} (h : older <:+ log) :
    grants runId older <:+ grants runId log := by
  induction log with
  | nil => rw [List.suffix_nil.mp h]
  | cons ev log ih =>
      rcases List.suffix_cons_iff.mp h with rfl | h
      · exact List.suffix_rfl
      · refine (ih h).trans ?_
        rw [grants]
        split
        · exact List.suffix_cons _ _
        · exact List.suffix_rfl

/-- Once superseded, always superseded. -/
theorem superseded_mono {older log : List LeaseEvent} (h : older <:+ log)
    (hmem : fence ∈ superseded runId older) : fence ∈ superseded runId log := by
  obtain ⟨newer, hnewer⟩ : grants runId older <:+ grants runId log := grants_suffix h
  rw [superseded, ← hnewer]
  cases newer with
  | nil => exact hmem
  | cons g newer =>
      rw [List.cons_append, List.tail_cons, List.map_append]
      obtain ⟨g', hg', rfl⟩ := List.mem_map.mp hmem
      exact List.mem_append_right _ (List.mem_map_of_mem (List.mem_of_mem_tail hg'))

/-! ### Keeping the invariant -/

/-- What a call that presents a token may return. -/
theorem NotStale.cons {ev : LeaseEvent} {log : List LeaseEvent}
    (h : NotStale c runId fence log) (hown : ∃ ev' ∈ ev :: log, ev'.tid = c) :
    NotStale c runId fence (ev :: log) := by
  intro older hsuffix hsilent
  rcases List.suffix_cons_iff.mp hsuffix with rfl | hsuffix
  · obtain ⟨ev', hev', htid⟩ := hown
    exact absurd htid (hsilent ev' hev')
  · exact h older hsuffix hsilent

/-- A token that has not been superseded yet. -/
theorem notStale_of_notMem {log : List LeaseEvent} (h : fence ∉ superseded runId log) :
    NotStale c runId fence log :=
  fun _ hsuffix _ hmem => h (superseded_mono hsuffix hmem)

theorem Succeeded.of_cons {ev : LeaseEvent} {log : List LeaseEvent}
    (h : Succeeded c (ev :: log)) (hev : ∀ report, ev.op ≠ .report report) : Succeeded c log := by
  obtain ⟨ev', hmem, htid, hop⟩ := h
  rcases List.mem_cons.mp hmem with rfl | hmem
  · rcases hop with hop | ⟨ℓ, hop⟩
    · exact absurd hop (hev _)
    · exact absurd hop (hev _)
  · exact ⟨ev', hmem, htid, hop⟩

theorem Inv.honest_push {e : Op} {r : e.Res} (h : Inv s)
    (hreport : ∀ {runId fence}, Presents runId fence c.request →
      Succeeded c (⟨c, e, r⟩ :: s.log) → NotStale c runId fence s.log)
    {c' : LeaseCall} (hpres : Presents runId fence c'.request)
    (hsucc : Succeeded c' (⟨c, e, r⟩ :: s.log)) :
    NotStale c' runId fence (⟨c, e, r⟩ :: s.log) := by
  by_cases hc : c = c'
  · subst hc
    exact (hreport hpres hsucc).cons ⟨_, List.mem_cons_self, rfl⟩
  · obtain ⟨ev, hmem, htid, hop⟩ := hsucc
    rcases List.mem_cons.mp hmem with rfl | hmem
    · exact absurd htid hc
    · exact (h.honest hpres ⟨ev, hmem, htid, hop⟩).cons ⟨ev, List.mem_cons_of_mem _ hmem, htid⟩

theorem Inv.frame {e : Op} {r : e.Res} {w : World} (h : Inv s)
    (hexec : World.exec e s.world r w)
    (hgrants : ∀ runId, grants runId (⟨c, e, r⟩ :: s.log) = grants runId s.log)
    (hstored : ∀ runId e', w.store.lookup (.lease runId) = some e' →
      ∃ g, (grants runId s.log).head? = some g ∧ e'.fenceToken = g.2)
    (hreport : ∀ {runId fence}, Presents runId fence c.request →
      Succeeded c (⟨c, e, r⟩ :: s.log) → NotStale c runId fence s.log) :
    Inv (s.push ⟨c, e, r⟩ w) where
  increasing runId := by
    rw [Shared.push_log, hgrants]
    exact h.increasing runId
  drawn {runId g} hg := by
    rw [Shared.push_log, hgrants] at hg
    exact (h.drawn hg).trans_le (World.fenceCounter_le_of_exec hexec _)
  latest {runId e'} he' := by
    rw [Shared.push_log, hgrants]
    exact hstored runId e' he'
  honest hpres hsucc := h.honest_push hreport hpres hsucc

/-- Operations other than writing a lease and returning keep the invariant. -/
theorem Inv.passive {e : Op} {r : e.Res} {w : World} (h : Inv s)
    (hexec : World.exec e s.world r w)
    (hwrote : ∀ runId, ¬ Wrote (.lease runId) (⟨c, e, r⟩ : LeaseEvent))
    (hreport : ∀ report, e ≠ .report report) : Inv (s.push ⟨c, e, r⟩ w) := by
  refine h.frame hexec (fun runId => grants_of_not_wrote (hwrote runId)) ?_ ?_
  · intro runId e' he'
    rw [lookup_of_not_wrote hexec (hwrote runId)] at he'
    exact h.latest he'
  · exact fun hpres hsucc => h.honest hpres (hsucc.of_cons hreport)

theorem Ordered.passive {e : Op} {r : e.Res}
    (hwrote : ∀ runId, ¬ Wrote (.lease runId) (⟨c, e, r⟩ : LeaseEvent))
    (hrequest : ∀ runId w f, c.request ≠ .release runId w f) : Ordered s ⟨c, e, r⟩ where
  current runId hw := absurd hw (hwrote runId)
  ahead hstored := by simp [storedLease_eq_none (hwrote _)] at hstored
  found hreq := absurd hreq (hrequest _ _ _)

theorem clockFree : ClockFree proto where
  sys := rfl
  inv h := Inv.passive h ⟨rfl, rfl⟩ (fun _ => id) (by simp)
  assert := trivial

theorem inv_drift {w : World} (h : Inv s) (hmoves : World.passes s.world w) :
    Inv (s.drift w) := by
  obtain ⟨n, hn, rfl⟩ := hmoves
  exact ⟨h.increasing, h.drawn, h.latest, h.honest⟩

/-- A token that is larger than that of the last grant is larger than all. -/
theorem Inv.lt_of_head {f : ℕ} (h : Inv s)
    (hahead : ∀ g, (grants runId s.log).head? = some g → g.2 < f) :
    ∀ g ∈ grants runId s.log, g.2 < f := by
  have hinc := h.increasing runId
  intro g hg
  cases hlog : grants runId s.log with
  | nil => simp [hlog] at hg
  | cons g₀ rest =>
      have hg₀ : g₀.2 < f := hahead g₀ (by rw [hlog]; rfl)
      rw [hlog, List.map_cons, List.pairwise_cons] at hinc
      rcases List.mem_cons.mp (hlog ▸ hg) with rfl | hrest
      · exact hg₀
      · exact (hinc.1 _ (List.mem_map_of_mem hrest)).trans hg₀

/-- A new grant, under a token ahead of the last one. -/
theorem Inv.granted {p : Process} {v : Lease} (h : Inv s)
    (hdrew : drew c s.log = some (p, v.fenceToken)) (hbelow : v.fenceToken < s.world.fenceCounter p)
    (hahead : ∀ g, (grants runId s.log).head? = some g → g.2 < v.fenceToken) :
    Inv (s.push ⟨c, .put (.lease runId) v, .ok ()⟩ (s.world.put (.lease runId) v)) := by
  have hexec : World.exec (.put (.lease runId) v) s.world (.ok ())
      (s.world.put (.lease runId) v) := .inl ⟨rfl, rfl⟩
  have hgrants (r : RunId) : grants r (⟨c, .put (.lease runId) v, .ok ()⟩ :: s.log) =
      if r = runId then (p, v.fenceToken) :: grants r s.log else grants r s.log := by
    split_ifs with hr
    · subst hr
      exact grants_of_drew hdrew
    · exact grants_of_not_wrote fun hw => hr (Key.lease.inj hw).symm
  refine ⟨fun r => ?_, fun {r g} hg => ?_, fun {r e'} he' => ?_, fun hpres hsucc => ?_⟩
  · rw [Shared.push_log, hgrants]
    split_ifs with hr
    · subst hr
      refine List.pairwise_cons.mpr ⟨fun f hf => ?_, h.increasing r⟩
      obtain ⟨g, hg, rfl⟩ := List.mem_map.mp hf
      exact h.lt_of_head hahead g hg
    · exact h.increasing r
  · rw [Shared.push_log, hgrants] at hg
    split_ifs at hg with hr
    · rcases List.mem_cons.mp hg with rfl | hg
      · exact hbelow
      · exact h.drawn hg
    · exact h.drawn hg
  · rw [Shared.push_log, hgrants]
    split_ifs with hr
    · subst hr
      obtain rfl : v = e' := by simpa [AList.lookup_insert] using he'
      exact ⟨_, rfl, rfl⟩
    · rw [Shared.push_world, lookup_of_not_wrote (t := c) hexec
        fun hw => hr (Key.lease.inj hw).symm] at he'
      exact h.latest he'
  · exact h.honest_push (fun hpres hsucc => h.honest hpres (hsucc.of_cons (by simp))) hpres hsucc

/-- A renewal keeps the token of the last grant. -/
theorem Inv.renewed {v e : Lease} (h : Inv s) (hdrew : drew c s.log = none)
    (hlookup : s.world.store.lookup (.lease runId) = some e) (hsame : v.fenceToken = e.fenceToken) :
    Inv (s.push ⟨c, .put (.lease runId) v, .ok ()⟩ (s.world.put (.lease runId) v)) := by
  refine h.frame (.inl ⟨rfl, rfl⟩) (fun runId => grants_of_undrawn hdrew) ?_
    (fun hpres hsucc => h.honest hpres (hsucc.of_cons (by simp)))
  intro r e' he'
  by_cases hr : r = runId
  · subst hr
    obtain rfl : v = e' := by simpa [AList.lookup_insert] using he'
    obtain ⟨g, hg, heq⟩ := h.latest hlookup
    exact ⟨g, hg, hsame.trans heq⟩
  · rw [World.put_store, AList.lookup_insert_ne (by simpa using hr)] at he'
    exact h.latest he'

theorem Inv.deleted (h : Inv s) :
    Inv (s.push ⟨c, .delete (.lease runId), .ok ()⟩ (s.world.erase (.lease runId))) := by
  refine h.frame (.inl ⟨rfl, rfl⟩) (fun r => ?_) ?_
    (fun hpres hsucc => h.honest hpres (hsucc.of_cons (by simp)))
  · rw [grants]
    rfl
  · intro r e' he'
    by_cases hr : r = runId
    · subst hr
      simp [AList.lookup_erase] at he'
    · rw [World.erase_store, AList.lookup_erase_ne (by simpa using hr)] at he'
      exact h.latest he'

/-- The token of the stored lease has not been superseded. -/
theorem Inv.notMem_superseded {e : Lease} (h : Inv s)
    (hlookup : s.world.store.lookup (.lease runId) = some e) :
    e.fenceToken ∉ superseded runId s.log := by
  obtain ⟨g, hg, heq⟩ := h.latest hlookup
  have hinc := h.increasing runId
  rw [superseded]
  cases hlog : grants runId s.log with
  | nil => simp
  | cons g₀ rest =>
      obtain rfl : g₀ = g := by simpa [hlog] using hg
      rw [hlog, List.map_cons, List.pairwise_cons] at hinc
      intro hmem
      exact absurd (hinc.1 _ hmem) (by simp [heq])

/-! ### What calls know -/

/-- The token had not been superseded when the call did its first operation. -/
def Fresh (c : LeaseCall) (runId : RunId) (fence : ℕ) (s : LeaseState) : Prop :=
  NotStale c runId fence s.log ∧ ∃ ev ∈ s.log, ev.tid = c

theorem Fresh.push {ev : LeaseEvent} {w : World} (h : Fresh c runId fence s) :
    Fresh c runId fence (s.push ev w) := by
  obtain ⟨hstale, ev', hmem, htid⟩ := h
  have hmem' := List.mem_cons_of_mem ev hmem
  exact ⟨hstale.cons ⟨ev', hmem', htid⟩, ev', hmem', htid⟩

theorem fresh_of_notMem {e : Op} {r : e.Res} {w : World}
    (h : fence ∉ superseded runId s.log) : Fresh c runId fence (s.push ⟨c, e, r⟩ w) :=
  ⟨(notStale_of_notMem h).cons ⟨_, List.mem_cons_self, rfl⟩, _, List.mem_cons_self, rfl⟩

theorem lasting_fresh : Lasting proto c (Fresh c runId fence) where
  stable := by
    rintro s s' (⟨-, -⟩ | ⟨-, -, -, -, -, -⟩) h
    · exact h
    · exact h.push
  clock h := h.push

theorem drew_of_ne {ev : LeaseEvent} {log : List LeaseEvent} (h : ev.tid ≠ c) :
    drew c (ev :: log) = drew c log := by
  obtain ⟨c', e, r⟩ := ev
  cases e with
  | fetchAddFence p => exact if_neg h
  | _ => rfl

theorem drew_of_silent (h : s.Silent c) : drew c s.log = none := by
  obtain ⟨w, log⟩ := s
  induction log with
  | nil => rfl
  | cons ev log ih =>
      rw [drew_of_ne (h ev List.mem_cons_self)]
      exact ih fun ev' hmem => h ev' (List.mem_cons_of_mem _ hmem)

theorem lasting_drew {d : Option (Process × ℕ)} : Lasting proto c fun s => drew c s.log = d where
  stable := by
    rintro s s' (⟨-, -⟩ | ⟨other, -, -, -, -, -⟩) h
    · exact h
    · exact (drew_of_ne other).trans h
  clock h := h

/-- What a call knows after it has drawn the token `f`. -/
structure HasDrawn (c : LeaseCall) (runId : RunId) (p : Process) (f : ℕ) (s : LeaseState) :
    Prop where
  drew : drew c s.log = some (p, f)
  below : f < s.world.fenceCounter p
  ahead : WhileUndisturbed c (.lease runId) (fun s =>
    ∀ g, (grants runId s.log).head? = some g → g.1 = p → g.2 < f) s

theorem lasting_hasDrawn {p : Process} {f : ℕ} : Lasting proto c (HasDrawn c runId p f) where
  stable s s' hmoves h := by
    refine ⟨lasting_drew.stable hmoves h.drew, ?_, ?_⟩
    · rcases hmoves with ⟨-, n, hn, rfl⟩ | ⟨-, -, -, -, hexec, -⟩
      · exact h.below
      · exact h.below.trans_le (World.fenceCounter_le_of_exec hexec p)
    · refine stable_whileUndisturbed rfl (fun s n _ h => h) ?_ hmoves h.ahead
      intro s ev w hw _ _ _ h
      rw [Shared.push_log, grants_of_not_wrote hw]
      exact h
  clock h := ⟨h.drew, h.below, h.ahead.push id id⟩

theorem hasDrawn_draw {p : Process} {f : ℕ} {w : World} (h : Inv s)
    (hexec : World.exec (.fetchAddFence p) s.world f w) :
    HasDrawn c runId p f (s.push ⟨c, .fetchAddFence p, f⟩ w) := by
  obtain ⟨rfl, rfl⟩ := hexec
  refine ⟨if_pos rfl, by simp, fun _ g hg hp => ?_⟩
  rw [Shared.push_log, grants_of_not_wrote id] at hg
  exact hp ▸ h.drawn (List.mem_of_mem_head? hg)

/-- What a call knows after it has read the lease `existing`. -/
structure HasRead (c : LeaseCall) (runId : RunId) (existing : Lease) (s : LeaseState) : Prop where
  undrawn : drew c s.log = none
  current : WhileUndisturbed c (.lease runId)
    (fun s => s.world.store.lookup (.lease runId) = some existing) s
  fresh : Fresh c runId existing.fenceToken s

theorem lasting_hasRead {existing : Lease} : Lasting proto c (HasRead c runId existing) where
  stable _ _ hmoves h :=
    ⟨lasting_drew.stable hmoves h.undrawn, stable_lookup rfl hmoves h.current,
      lasting_fresh.stable hmoves h.fresh⟩
  clock h := ⟨h.undrawn, h.current.push id id, h.fresh.push⟩

theorem hasRead_get {existing : Lease} (h : Inv s) (hdrew : drew c s.log = none)
    (hlookup : s.world.store.lookup (.lease runId) = some existing) :
    HasRead c runId existing (s.push ⟨c, .get (.lease runId), .ok (some existing)⟩ s.world) :=
  ⟨hdrew, fun _ => hlookup, fresh_of_notMem (h.notMem_superseded hlookup)⟩

/-! ### One lemma per procedure -/

theorem safe_grant {lm : LeaseManager} {workerId : WorkerId} :
    proto.Safe c (lm.grant runId workerId) (fun _ _ => True) s := by
  refine Proto.Safe.ask (Proto.stable_const (p := True)) trivial fun s₁ _ hinv fence w _ hexec => ?_
  refine ⟨trivial, hinv.passive hexec (fun _ => id) (by simp), ?_⟩
  have hdrawn : HasDrawn c runId lm.process fence _ := hasDrawn_draw hinv hexec
  refine .bind (safe_clock clockFree lasting_hasDrawn hdrawn) fun now s₂ ⟨h₂, _⟩ => ?_
  refine safe_putEntry rfl lasting_hasDrawn.stable h₂
    (fun s₃ h₃ hinv₃ hcond => ⟨trivial, hinv₃.granted h₃.drew h₃.below ?_, trivial⟩)
    (fun s₃ err _ hinv₃ _ => ⟨trivial,
      hinv₃.passive (.inr ⟨⟨err, rfl⟩, rfl⟩) (fun _ => id) (by simp), trivial⟩)
  intro g hg
  rcases hcond.ahead storedLease_put h₃.drew hg with hp | hlt
  · exact h₃.ahead (hcond.current _ rfl) g hg hp
  · exact hlt

theorem safe_renew {lm : LeaseManager} {workerId : WorkerId} (hs : drew c s.log = none) :
    proto.Safe c (lm.renew runId workerId fence)
      (fun result s' => (∃ ℓ, result = .ok ℓ) → Fresh c runId fence s') s := by
  refine safe_getEntry rfl lasting_drew.stable hs
    (fun s₁ h₁ hinv _ => ⟨trivial, hinv.passive ⟨rfl, .inl rfl⟩ (fun _ => id) (by simp), ?_⟩)
    (fun s₁ err _ hinv _ => ⟨trivial, hinv.passive ⟨rfl, .inr ⟨err, rfl⟩⟩ (fun _ => id) (by simp),
      by rintro ⟨ℓ, ⟨⟩⟩⟩)
  cases hlookup : s₁.world.store.lookup (.lease runId) with
  | none => rintro ⟨ℓ, ⟨⟩⟩
  | some existing =>
      dsimp only
      split_ifs with hfence
      · rintro ⟨ℓ, ⟨⟩⟩
      obtain rfl := not_not.mp hfence
      refine .bind (safe_checkHeldBy clockFree lasting_hasRead existing workerId
        (hasRead_get hinv h₁ hlookup)) fun held s₂ ⟨h₂, _, _⟩ => ?_
      cases held with
      | false => rintro ⟨ℓ, ⟨⟩⟩
      | true =>
          refine .bind (safe_clock clockFree lasting_hasRead h₂) fun now s₃ ⟨h₃, _⟩ => ?_
          refine safe_putEntry rfl lasting_hasRead.stable h₃
            (fun s₄ h₄ hinv₄ hcond => ⟨trivial, ?_, fun _ => h₄.fresh.push⟩)
            (fun s₄ err _ hinv₄ _ => ⟨trivial,
              hinv₄.passive (.inr ⟨⟨err, rfl⟩, rfl⟩) (fun _ => id) (by simp),
              by rintro ⟨ℓ, ⟨⟩⟩⟩)
          exact hinv₄.renewed h₄.undrawn (h₄.current (hcond.current _ rfl)) rfl

theorem safe_acquire {lm : LeaseManager} {workerId : WorkerId} (hsilent : s.Silent c) :
    proto.Safe c (lm.acquire runId workerId) (fun _ _ => True) s := by
  refine Proto.Safe.ask Proto.stable_silent hsilent fun s₁ hsilent₁ hinv r w _ hexec => ?_
  refine ⟨trivial, hinv.passive hexec (fun _ => id) (by simp), ?_⟩
  obtain ⟨rfl, rfl | ⟨err, rfl⟩⟩ := hexec
  · cases hlookup : s₁.world.store.lookup (.lease runId) with
    | none => exact safe_grant
    | some existing =>
        refine .bind (safe_conflict clockFree lasting_hasRead existing workerId
          (hasRead_get hinv (drew_of_silent hsilent₁) hlookup)) fun conflict s₂ ⟨h₂, _⟩ => ?_
        cases conflict with
        | true => trivial
        | false =>
            refine .bind (safe_own clockFree lasting_hasRead existing workerId h₂)
              fun own s₃ ⟨h₃, _⟩ => ?_
            cases own with
            | true => exact (safe_renew h₃.undrawn).mono fun _ _ _ => trivial
            | false => exact safe_grant
  · exact safe_grant

theorem safe_deleteLease (hs : Fresh c runId fence s) :
    proto.Safe c (LeaseManager.deleteLease runId) (fun _ s' => Fresh c runId fence s') s := by
  refine Proto.Safe.ask lasting_fresh.stable hs fun s₁ h₁ hinv r w hcond hexec => ?_
  refine ⟨trivial, ?_, h₁.push⟩
  rcases hexec with ⟨rfl, rfl⟩ | ⟨⟨err, rfl⟩, rfl⟩
  · exact hinv.deleted
  · exact hinv.passive (.inr ⟨⟨err, rfl⟩, rfl⟩) (fun _ => id) (by simp)

theorem safe_release {workerId : WorkerId} (hreq : c.request = .release runId workerId fence) :
    proto.Safe c (LeaseManager.release runId workerId fence)
      (fun result s' => result = .ok () → Fresh c runId fence s') s := by
  refine Proto.Safe.ask (Proto.stable_const (p := True)) trivial fun s₁ _ hinv r w hcond hexec => ?_
  refine ⟨trivial, hinv.passive hexec (fun _ => id) (by simp), ?_⟩
  -- A release that finds no lease presents a token that is not superseded.
  have hfound (hnone : ∀ e, r ≠ .ok (some e)) : fence ∉ superseded runId s₁.log := fun hmem => by
    obtain ⟨e, he⟩ := hcond.found hreq hmem rfl
    exact hnone e he
  obtain ⟨rfl, rfl | ⟨err, rfl⟩⟩ := hexec
  · cases hlookup : s₁.world.store.lookup (.lease runId) with
    | none =>
        refine (safe_deleteLease (fresh_of_notMem (hfound ?_))).mono fun _ _ h _ => h
        simp [hlookup]
    | some existing =>
        dsimp only
        split_ifs with hfence
        · rintro ⟨⟩
        obtain rfl := not_not.mp hfence
        refine .bind (safe_checkHeldBy clockFree lasting_fresh existing workerId
          (fresh_of_notMem (hinv.notMem_superseded hlookup))) fun held s₂ ⟨h₂, _, _⟩ => ?_
        cases held with
        | false => rintro ⟨⟩
        | true => exact (safe_deleteLease h₂).mono fun _ _ h _ => h
  · exact (safe_deleteLease (fresh_of_notMem (hfound (by simp)))).mono fun _ _ h _ => h

theorem safe_validateFence :
    proto.Safe c (LeaseManager.validateFence runId fence)
      (fun result s' => (∃ ℓ, result = .ok ℓ) → Fresh c runId fence s') s := by
  refine safe_getEntry rfl (Proto.stable_const (p := True)) trivial
    (fun s₁ _ hinv _ => ⟨trivial, hinv.passive ⟨rfl, .inl rfl⟩ (fun _ => id) (by simp), ?_⟩)
    (fun s₁ err _ hinv _ => ⟨trivial, hinv.passive ⟨rfl, .inr ⟨err, rfl⟩⟩ (fun _ => id) (by simp),
      by rintro ⟨ℓ, ⟨⟩⟩⟩)
  cases hlookup : s₁.world.store.lookup (.lease runId) with
  | none => rintro ⟨ℓ, ⟨⟩⟩
  | some lease =>
      dsimp only
      split_ifs with hfence
      · rintro ⟨ℓ, ⟨⟩⟩
      obtain rfl := not_not.mp hfence
      refine .bind (safe_checkValid clockFree lasting_fresh lease
        (fresh_of_notMem (hinv.notMem_superseded hlookup))) fun valid s₂ ⟨h₂, _⟩ => ?_
      cases valid with
      | false => rintro ⟨ℓ, ⟨⟩⟩
      | true => exact fun _ => h₂

/-- Returning to the caller. -/
theorem safe_report {report : Report}
    (h : ∀ runId fence, Presents runId fence c.request →
      (report = .done (.ok ()) ∨ ∃ ℓ, report = .lease (.ok ℓ)) → Fresh c runId fence s) :
    proto.Safe c (ask (.report report)) (fun _ _ => True) s := by
  have hstable : proto.Stable c fun s => ∀ runId fence, Presents runId fence c.request →
      (report = .done (.ok ()) ∨ ∃ ℓ, report = .lease (.ok ℓ)) → Fresh c runId fence s :=
    fun _ _ hmoves h runId fence hpres hok => lasting_fresh.stable hmoves (h runId fence hpres hok)
  refine Proto.Safe.op hstable h fun s₁ h₁ hinv r w _ hexec => ?_
  refine ⟨trivial, hinv.frame hexec (fun _ => grants_of_not_wrote id) ?_ ?_, trivial⟩
  · intro runId e' he'
    obtain rfl : w = s₁.world := hexec
    exact hinv.latest he'
  · intro runId fence hpres hsucc
    obtain ⟨ev, hmem, htid, hop⟩ := hsucc
    rcases List.mem_cons.mp hmem with rfl | hmem
    · exact (h₁ runId fence hpres (by simpa using hop)).1
    · exact hinv.honest hpres ⟨ev, hmem, htid, hop⟩

/-- **Every call is safe.** -/
theorem adequate : proto.Adequate Client where
  env_inv := inv_drift
  client_safe {c p s} hclient hinv hsilent := by
    subst hclient
    obtain ⟨serial, request⟩ := c
    cases request with
    | acquire manager runId w =>
        exact .bind (safe_acquire hsilent) fun result s' _ => safe_report fun _ _ => False.elim
    | renew manager runId w fence =>
        refine .bind (safe_renew (drew_of_silent hsilent)) fun result s' h => safe_report ?_
        rintro r f ⟨rfl, rfl⟩ hok
        exact h (by simpa using hok)
    | release runId w fence =>
        refine .bind (safe_release rfl) fun result s' h => safe_report ?_
        rintro r f ⟨rfl, rfl⟩ hok
        exact h (by simpa using hok)
    | validateFence runId fence =>
        refine .bind safe_validateFence fun result s' h => safe_report ?_
        rintro r f ⟨rfl, rfl⟩ hok
        exact h (by simpa using hok)

theorem inv_initial (now : Instant) : Inv ⟨World.initial now, []⟩ where
  increasing _ := List.Pairwise.nil
  drawn h := by simp [grants] at h
  latest h := by simp [World.initial] at h
  honest _ hsucc := by
    obtain ⟨ev, hmem, -⟩ := hsucc
    simp at hmem

/-- **Fence order.**  In every run in which lease entries are written on the
strength of current reads and every grant is ahead of the previous one in its
counter, the tokens granted for a run increase, the stored lease carries the last
of them, and a call that presents a superseded token does not succeed. -/
theorem tokens_increase {now : Instant} {cfg : Config LeaseCall Op Op.Res World}
    (run : Run runtimeSystem Client Ordered
      (Config.idle LeaseCall Op Op.Res (World.initial now)) cfg) :
    (∀ runId, ((grants runId cfg.shared.log).map Prod.snd).Pairwise (· > ·)) ∧
    (∀ runId e, cfg.shared.world.store.lookup (.lease runId) = some e →
      e.fenceToken ∉ superseded runId cfg.shared.log) ∧
    ∀ c runId fence, Presents runId fence c.request → Succeeded c cfg.shared.log →
      NotStale c runId fence cfg.shared.log := by
  have hinv := ((Proto.good_idle (P := proto) (inv_initial now)).run adequate run).inv
  exact ⟨hinv.increasing, fun _ _ => hinv.notMem_superseded, fun _ _ _ => hinv.honest⟩

/-! ### Runs of the code -/

def run₀ : RunId := freshRunId []

/-- Worker `a` of process 0. -/
def acquireA : LeaseCall := ⟨0, .acquire ⟨30, 0⟩ run₀ "a"⟩

/-- Worker `b` of the same process. -/
def acquireB : LeaseCall := ⟨1, .acquire ⟨30, 0⟩ run₀ "b"⟩

/-- Worker `b` after a restart, in process 1. -/
def reacquireB : LeaseCall := ⟨1, .acquire ⟨30, 1⟩ run₀ "b"⟩

/-- Worker `a` with its old token. -/
def validateA : LeaseCall := ⟨2, .validateFence run₀ 1⟩

/-- Time for a lease to expire. -/
def expiry : Choice LeaseCall Op Op.Res := .tick 31000000000

/-- Start a call and let it take `n` operations. -/
def perform (c : LeaseCall) (n : ℕ) : List (Choice LeaseCall Op Op.Res) :=
  .start c c.request.serve :: List.replicate n (.op c)

/-- What a schedule leads to from an empty store. -/
def after (schedule : List (Choice LeaseCall Op Op.Res)) : Config LeaseCall Op Op.Res World :=
  (Config.idle LeaseCall Op Op.Res (World.initial 0)).follow
    (reliable (.error (.other ""))) schedule


theorem client_of_mem_perform {c c' : LeaseCall} {n : ℕ} {p : Proc Unit}
    (h : .start c' p ∈ perform c n) : Client c' p := by
  obtain ⟨rfl, rfl⟩ : c' = c ∧ p = c.request.serve := by simpa [perform] using h
  rfl

/-- Two grants from one counter, the first lease having expired; its token is
refused afterwards. -/
def expired : List (Choice LeaseCall Op Op.Res) :=
  perform acquireA 5 ++ expiry :: perform acquireB 7 ++ perform validateA 2

/-- The same with a restart between the grants. -/
def restarted : List (Choice LeaseCall Op Op.Res) :=
  perform acquireA 5 ++ expiry :: perform reacquireB 7 ++ perform validateA 3

theorem tokens_increase_expired :
    (grants run₀ (after expired).shared.log = [(0, 2), (0, 1)]) ∧
    (∀ runId, ((grants runId (after expired).shared.log).map Prod.snd).Pairwise (· > ·)) ∧
    ¬ Succeeded validateA (after expired).shared.log := by
  have hrun : Run runtimeSystem Client Ordered
      (Config.idle LeaseCall Op Op.Res (World.initial 0)) (after expired) := by
    refine .follow (d := reliable _) (fun c p h => ?_) ?_
    · simp only [expired, List.mem_append, List.mem_cons] at h
      rcases h with (h | ⟨⟨⟩⟩ | h) | h <;> exact client_of_mem_perform h
    · have passive {s c e} {r : Op.Res e} (hw : ∀ runId, ¬ Wrote (.lease runId)
          (⟨c, e, r⟩ : LeaseEvent)) (hreq : ∀ runId w f, c.request ≠ .release runId w f) :
          Ordered s ⟨c, e, r⟩ := .passive hw hreq
      refine ⟨passive (fun _ => id) nofun, passive (fun _ => id) nofun,
        passive (fun _ => id) nofun, ?_, passive (fun _ => id) nofun,
        passive (fun _ => id) nofun, passive (fun _ => id) nofun, passive (fun _ => id) nofun,
        passive (fun _ => id) nofun, passive (fun _ => id) nofun, ?_,
        passive (fun _ => id) nofun, passive (fun _ => id) nofun,
        passive (fun _ => id) nofun, trivial⟩
      · refine show Ordered _ _ from ⟨fun r hw => ?_, fun {r ℓ p f g} hs _ hg => ?_, nofun⟩
        · obtain rfl : run₀ = r := Key.lease.inj hw
          exact .inr ⟨id, .inr ⟨id, .inl ⟨rfl, rfl⟩⟩⟩
        · exact nomatch hg
      · refine show Ordered _ _ from ⟨fun r hw => ?_, fun {r ℓ p f g} hs hdrew hg => ?_, nofun⟩
        · obtain rfl : run₀ = r := Key.lease.inj hw
          exact .inr ⟨id, .inr ⟨id, .inr ⟨id, .inr ⟨id, .inl ⟨rfl, rfl⟩⟩⟩⟩⟩
        · have hw : Wrote (.lease r) (⟨acquireB, .put (.lease run₀) _, .ok ()⟩ : LeaseEvent) :=
            wrote_of_storedLease hs
          obtain rfl : run₀ = r := Key.lease.inj hw
          obtain rfl : (0, 1) = g := Option.some.inj hg
          obtain ⟨rfl, rfl⟩ : 0 = p ∧ 2 = f := Prod.mk.inj (Option.some.inj hdrew)
          exact .inl rfl
  obtain ⟨hinc, -, hhonest⟩ := tokens_increase hrun
  refine ⟨rfl, hinc, fun hsucc => ?_⟩
  refine hhonest validateA run₀ 1 ⟨rfl, rfl⟩ hsucc ((after expired).shared.log.drop 2)
    (List.drop_suffix _ _) ?_ (by decide)
  have htid : ∀ t ∈ ((after expired).shared.log.drop 2).map Event.tid, t ≠ validateA := by decide
  exact fun ev hmem => htid _ (List.mem_map_of_mem hmem)

/-- **After a restart a lease is granted under a token that an earlier holder
still has**, and the earlier holder's token is accepted. -/
theorem token_repeated : ∃ cfg, Run runtimeSystem Client (fun _ _ => True)
    (Config.idle LeaseCall Op Op.Res (World.initial 0)) cfg ∧
    grants run₀ cfg.shared.log = [(1, 1), (0, 1)] ∧
    Succeeded validateA cfg.shared.log ∧ ¬ NotStale validateA run₀ 1 cfg.shared.log := by
  refine ⟨after restarted, .follow (fun c p h => ?_) (Config.meets_true _ _ _), rfl, ?_, ?_⟩
  · simp only [restarted, List.mem_append, List.mem_cons] at h
    rcases h with (h | ⟨⟨⟩⟩ | h) | h <;> exact client_of_mem_perform h
  · exact ⟨_, List.mem_cons_self, rfl, .inr ⟨_, rfl⟩⟩
  · intro h
    refine h ((after restarted).shared.log.drop 3) (List.drop_suffix _ _) ?_ (by decide)
    have htid : ∀ t ∈ ((after restarted).shared.log.drop 3).map Event.tid, t ≠ validateA := by
      decide
    exact fun ev hmem => htid _ (List.mem_map_of_mem hmem)

end ClawDesk.Runtime.FenceOrder
