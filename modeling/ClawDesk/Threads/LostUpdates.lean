import ClawDesk.Threads.CallBalance

/-!
# Lost updates

The stored counts and index entries follow the balances of all accesses, as long as every write
finds what its call has read (`Undisturbed`); then no update is lost once all calls have finished
(`no_update_lost`).  Two messages that are appended at the same time may be counted as one
(`Session.update_lost_lockstep`).
-/

namespace ClawDesk.Threads

open Foundations

variable {Tid : Type} [DecidableEq Tid] {calls : Tid → Call} {w : World}
  {events : List (Happening Tid)} {s : State Tid} {ev : Happening Tid} {t : Uuid}
  {agent : String} {us : ℕ} {metadata : ThreadMeta}

/-- The id that is drawn for a message is not in use. -/
def Unused (s : State Tid) (ev : Happening Tid) : Prop :=
  match ev.op with
  | .put (.message t ts m) _ => .message t ts m ∉ s.world
  | _ => True

/-- A call that writes a record or the counter finds what it has read of it, and a count that can
be changed by one; and what a call deletes is still there. -/
def Undisturbed (calls : Tid → Call) (s : State Tid) (ev : Happening Tid) : Prop :=
  match ev.op with
  | .put (.thread id) _ => ∃ metadata ∈ s.world.lookup (.thread id),
      lastThread id (own ev.tid s.log) = some metadata ∧ (calls ev.tid).FitsThread metadata
  | .put (.counter .messages) _ =>
      lastCounter .messages (own ev.tid s.log) = s.world.counter .messages ∧
        (calls ev.tid).FitsCounter (s.world.counter .messages)
  | .delete (.message t ts m) => .message t ts m ∈ s.world
  | .delete (.idxAgentThread agent us t) => .idxAgentThread agent us t ∈ s.world
  | _ => True

instance decidableUnused : ∀ (s : State Tid) (ev : Happening Tid), Decidable (Unused s ev)
  | s, ⟨_, .put (.message t ts m) _, _⟩ => inferInstanceAs (Decidable (.message t ts m ∉ s.world))
  | _, ⟨_, .put (.thread _) _, _⟩ | _, ⟨_, .put (.attachment _) _, _⟩
  | _, ⟨_, .put (.idxAgentThread _ _ _) _, _⟩ | _, ⟨_, .put (.idxThreadAgent _) _, _⟩
  | _, ⟨_, .put (.counter _) _, _⟩ | _, ⟨_, .get _, _⟩ | _, ⟨_, .delete _, _⟩
  | _, ⟨_, .scan _, _⟩ => isTrue trivial

instance decidableUndisturbed (calls : Tid → Call) :
    ∀ (s : State Tid) (ev : Happening Tid), Decidable (Undisturbed calls s ev)
  | s, ⟨c, .put (.thread id) _, _⟩ => inferInstanceAs (Decidable
      (∃ metadata ∈ s.world.lookup (.thread id),
        lastThread id (own c s.log) = some metadata ∧ (calls c).FitsThread metadata))
  | s, ⟨c, .put (.counter .messages) _, _⟩ => inferInstanceAs (Decidable
      (lastCounter .messages (own c s.log) = s.world.counter .messages ∧
        (calls c).FitsCounter (s.world.counter .messages)))
  | s, ⟨_, .delete (.message t ts m), _⟩ =>
      inferInstanceAs (Decidable (.message t ts m ∈ s.world))
  | s, ⟨_, .delete (.idxAgentThread agent us t), _⟩ =>
      inferInstanceAs (Decidable (.idxAgentThread agent us t ∈ s.world))
  | _, ⟨_, .put (.message _ _ _) _, _⟩ | _, ⟨_, .put (.attachment _) _, _⟩
  | _, ⟨_, .put (.idxAgentThread _ _ _) _, _⟩ | _, ⟨_, .put (.idxThreadAgent _) _, _⟩
  | _, ⟨_, .put (.counter .threads) _, _⟩ | _, ⟨_, .delete (.thread _), _⟩
  | _, ⟨_, .delete (.attachment _), _⟩ | _, ⟨_, .delete (.idxThreadAgent _), _⟩
  | _, ⟨_, .delete (.counter _), _⟩ | _, ⟨_, .get _, _⟩ | _, ⟨_, .scan _, _⟩ => isTrue trivial

/-- What is known of every access of an undisturbed run. -/
structure Orderly (calls : Tid → Call) (s : State Tid) (ev : Happening Tid) : Prop where
  answered : ev.res = (World.serve ev.op s.world).1
  mild : ev.op.isMild = true
  unused : Unused s ev
  undisturbed : Undisturbed calls s ev

theorem exists_of_undisturbed {c : Tid} {id : Uuid} {v : ThreadMeta} {r : Unit}
    (h : Undisturbed calls s ⟨c, .put (.thread id) v, r⟩) :
    ∃ old, s.world.lookup (.thread id) = some old ∧
      lastThread id (own c s.log) = some old ∧ (calls c).FitsThread old := h

/-! ### What one access changes -/

theorem counter_insert_of_ne {k : Key} {v : k.Val} {c : Counter} (h : Key.counter c ≠ k) :
    World.counter (w.insert k v) c = w.counter c := by
  rw [World.counter, World.counter, AList.lookup_insert_ne h]

theorem counter_erase_of_ne {k : Key} {c : Counter} (h : Key.counter c ≠ k) :
    World.counter (w.erase k) c = w.counter c := by
  rw [World.counter, World.counter, AList.lookup_erase_ne h]

theorem balance_perform (f : Sigma Access.Res → List (Sigma Access.Res) → ℤ) (s : State Tid)
    (ev : Happening Tid) : balance f (perform s ev).log =
      f ⟨ev.op, ev.res⟩ (own ev.tid s.log) + balance f s.log := rfl

/-- The global counter follows the messages. -/
def Counts (s : State Tid) : Prop :=
  (s.world.counter .messages : ℤ) = keyCount s.world Key.isMessage + balance messageGain s.log

theorem Counts.perform (h : Counts s) (hev : Orderly calls s ev) : Counts (perform s ev) := by
  obtain ⟨c, op, r⟩ := ev
  obtain ⟨-, hmild, hunused, hundisturbed⟩ := hev
  unfold Counts at h ⊢
  rw [balance_perform]
  cases op with
  | get k =>
      have hgain : messageGain ⟨.get k, r⟩ (own c s.log) = 0 := rfl
      rwa [hgain, zero_add]
  | scan pre =>
      have hgain : messageGain ⟨.scan pre, r⟩ (own c s.log) = 0 := rfl
      rwa [hgain, zero_add]
  | put k v =>
      have hworld : (Threads.perform s ⟨c, .put k v, r⟩).world = s.world.insert k v := rfl
      rw [hworld]
      cases k with
      | message t ts m =>
          have hgain : messageGain ⟨.put (.message t ts m) v, r⟩ (own c s.log) = -1 := rfl
          rw [hgain, counter_insert_of_ne (by simp), keyCount_insert_of_notMem hunused rfl, h]
          push_cast
          ring
      | counter c' =>
          rw [keyCount_insert_of_neg rfl]
          cases c' with
          | messages =>
              have hgain : messageGain ⟨.put (.counter .messages) v, r⟩ (own c s.log) =
                  (v : ℤ) - lastCounter .messages (own c s.log) := rfl
              have hread : lastCounter .messages (own c s.log) = s.world.counter .messages :=
                hundisturbed.1
              rw [hgain, hread, h, World.counter, AList.lookup_insert, Option.getD_some]
              ring
          | threads =>
              have hgain : messageGain ⟨_, r⟩ (own c s.log) = 0 := rfl
              rw [hgain, zero_add, counter_insert_of_ne (by simp), h]
      | _ =>
          have hgain : messageGain ⟨_, r⟩ (own c s.log) = 0 := rfl
          rw [hgain, zero_add, counter_insert_of_ne (by simp), keyCount_insert_of_neg rfl, h]
  | delete k =>
      have hworld : (Threads.perform s ⟨c, .delete k, r⟩).world = s.world.erase k := rfl
      rw [hworld]
      cases k with
      | message t ts m =>
          have hgain : messageGain ⟨.delete (.message t ts m), r⟩ (own c s.log) = 1 := rfl
          have hcount : keyCount (s.world.erase (.message t ts m)) Key.isMessage + 1 =
              keyCount s.world Key.isMessage := keyCount_erase_of_mem hundisturbed rfl
          rw [hgain, counter_erase_of_ne (by simp), h, ← hcount]
          push_cast
          ring
      | counter c' => cases hmild
      | _ =>
          have hgain : messageGain ⟨_, r⟩ (own c s.log) = 0 := rfl
          rw [hgain, zero_add, counter_erase_of_ne (by simp), keyCount_erase_of_neg rfl, h]

/-- The count of a thread follows its messages. -/
def CountsThread (t : Uuid) (s : State Tid) : Prop :=
  ∀ metadata, s.world.lookup (.thread t) = some metadata →
    (metadata.messageCount : ℤ) =
      keyCount s.world (Key.isMessageOf t) + balance (threadGain t) s.log

theorem CountsThread.perform (h : CountsThread t s) (hev : Orderly calls s ev) :
    CountsThread t (perform s ev) := by
  obtain ⟨c, op, r⟩ := ev
  obtain ⟨-, hmild, hunused, hundisturbed⟩ := hev
  intro metadata hm
  rw [balance_perform]
  cases op with
  | get k =>
      have hgain : threadGain t ⟨.get k, r⟩ (own c s.log) = 0 := rfl
      rw [hgain, zero_add]
      exact h metadata hm
  | scan pre =>
      have hgain : threadGain t ⟨.scan pre, r⟩ (own c s.log) = 0 := rfl
      rw [hgain, zero_add]
      exact h metadata hm
  | put k v =>
      have hworld : (Threads.perform s ⟨c, .put k v, r⟩).world = s.world.insert k v := rfl
      rw [hworld] at hm ⊢
      cases k with
      | thread id =>
          have hgain : threadGain t ⟨.put (.thread id) v, r⟩ (own c s.log) = if id = t then
            (v.messageCount : ℤ) - (lastThread t (own c s.log)).elim 0 ThreadMeta.messageCount
              else 0 := rfl
          rw [hgain, keyCount_insert_of_neg rfl]
          by_cases ht : id = t
          · subst ht
            rw [AList.lookup_insert] at hm
            obtain rfl := Option.some.inj hm
            obtain ⟨old, hold, hread, -⟩ := exists_of_undisturbed hundisturbed
            rw [if_pos rfl, hread, Option.elim_some, h old hold]
            ring
          · rw [if_neg ht, zero_add]
            rw [AList.lookup_insert_ne (by simpa using Ne.symm ht)] at hm
            exact h metadata hm
      | message t' ts m =>
          have hgain : threadGain t ⟨.put (.message t' ts m) v, r⟩ (own c s.log) =
            if t' = t then -1 else 0 := rfl
          rw [AList.lookup_insert_ne (by simp)] at hm
          rw [hgain]
          by_cases ht : t' = t
          · rw [if_pos ht, keyCount_insert_of_notMem hunused (by simpa [Key.isMessageOf] using ht),
              h metadata hm]
            push_cast
            ring
          · rw [if_neg ht, zero_add, keyCount_insert_of_neg (by simpa [Key.isMessageOf] using ht)]
            exact h metadata hm
      | _ =>
          have hgain : threadGain t ⟨_, r⟩ (own c s.log) = 0 := rfl
          rw [AList.lookup_insert_ne (by simp)] at hm
          rw [hgain, zero_add, keyCount_insert_of_neg rfl]
          exact h metadata hm
  | delete k =>
      have hworld : (Threads.perform s ⟨c, .delete k, r⟩).world = s.world.erase k := rfl
      rw [hworld] at hm ⊢
      cases k with
      | thread id => cases hmild
      | message t' ts m =>
          have hgain : threadGain t ⟨.delete (.message t' ts m), r⟩ (own c s.log) =
            if t' = t then 1 else 0 := rfl
          rw [AList.lookup_erase_ne (by simp)] at hm
          rw [hgain]
          by_cases ht : t' = t
          · have hcount : keyCount (s.world.erase (.message t' ts m)) (Key.isMessageOf t) + 1 =
                keyCount s.world (Key.isMessageOf t) :=
              keyCount_erase_of_mem hundisturbed (by simpa [Key.isMessageOf] using ht)
            rw [if_pos ht, h metadata hm, ← hcount]
            push_cast
            ring
          · rw [if_neg ht, zero_add, keyCount_erase_of_neg (by simpa [Key.isMessageOf] using ht)]
            exact h metadata hm
      | _ =>
          have hgain : threadGain t ⟨_, r⟩ (own c s.log) = 0 := rfl
          rw [AList.lookup_erase_ne (by simp)] at hm
          rw [hgain, zero_add, keyCount_erase_of_neg rfl]
          exact h metadata hm

/-- The index has no more entries of a thread than its record has. -/
def Indexed (t : Uuid) (agent : String) (us : ℕ) (s : State Tid) : Prop :=
  ∀ metadata, s.world.lookup (.thread t) = some metadata →
    (if Key.idxAgentThread agent us t ∈ s.world then 1 else 0) +
      balance (indexGain t agent us) s.log ≤ metadata.entry agent us

omit [DecidableEq Tid] in
theorem idxAgentThread_ne {agent' : String} {us' : ℕ} {t' : Uuid}
    (h : ¬ (t' = t ∧ agent' = agent ∧ us' = us)) :
    Key.idxAgentThread agent us t ≠ .idxAgentThread agent' us' t' := by
  intro heq
  obtain ⟨rfl, rfl, rfl⟩ := Key.idxAgentThread.inj heq
  exact h ⟨rfl, rfl, rfl⟩

theorem Indexed.perform (h : Indexed t agent us s) (hev : Orderly calls s ev) :
    Indexed t agent us (perform s ev) := by
  obtain ⟨c, op, r⟩ := ev
  obtain ⟨-, hmild, hunused, hundisturbed⟩ := hev
  intro metadata hm
  rw [balance_perform]
  cases op with
  | get k =>
      have hgain : indexGain t agent us ⟨.get k, r⟩ (own c s.log) = 0 := rfl
      rw [hgain, zero_add]
      exact h metadata hm
  | scan pre =>
      have hgain : indexGain t agent us ⟨.scan pre, r⟩ (own c s.log) = 0 := rfl
      rw [hgain, zero_add]
      exact h metadata hm
  | put k v =>
      have hworld : (Threads.perform s ⟨c, .put k v, r⟩).world = s.world.insert k v := rfl
      rw [hworld] at hm ⊢
      cases k with
      | thread id =>
          have hgain : indexGain t agent us ⟨.put (.thread id) v, r⟩ (own c s.log) = if id = t then
            v.entry agent us - (lastThread t (own c s.log)).elim 0 (·.entry agent us) else 0 := rfl
          rw [hgain, if_congr (AList.mem_insert _ |>.trans (or_iff_right (by simp))) rfl rfl]
          by_cases ht : id = t
          · subst ht
            rw [AList.lookup_insert] at hm
            obtain rfl := Option.some.inj hm
            obtain ⟨old, hold, hread, -⟩ := exists_of_undisturbed hundisturbed
            have hbefore := h old hold
            rw [if_pos rfl, hread, Option.elim_some]
            linarith
          · rw [if_neg ht, zero_add]
            rw [AList.lookup_insert_ne (by simpa using Ne.symm ht)] at hm
            exact h metadata hm
      | idxAgentThread agent' us' t' =>
          have hgain : indexGain t agent us ⟨.put (.idxAgentThread agent' us' t') v, r⟩
              (own c s.log) = if t' = t ∧ agent' = agent ∧ us' = us then -1 else 0 := rfl
          rw [AList.lookup_insert_ne (by simp)] at hm
          have hbefore := h metadata hm
          rw [hgain]
          by_cases hkey : t' = t ∧ agent' = agent ∧ us' = us
          · obtain ⟨rfl, rfl, rfl⟩ := hkey
            rw [if_pos (AList.mem_insert _ |>.mpr (Or.inl rfl)), if_pos ⟨rfl, rfl, rfl⟩]
            split_ifs at hbefore <;> linarith
          · have hne := idxAgentThread_ne hkey
            rw [if_neg hkey, zero_add,
              if_congr (AList.mem_insert _ |>.trans (or_iff_right hne)) rfl rfl]
            exact hbefore
      | _ =>
          have hgain : indexGain t agent us ⟨_, r⟩ (own c s.log) = 0 := rfl
          rw [AList.lookup_insert_ne (by simp)] at hm
          rw [hgain, zero_add, if_congr (AList.mem_insert _ |>.trans (or_iff_right (by simp)))
            rfl rfl]
          exact h metadata hm
  | delete k =>
      have hworld : (Threads.perform s ⟨c, .delete k, r⟩).world = s.world.erase k := rfl
      rw [hworld] at hm ⊢
      cases k with
      | thread id => cases hmild
      | idxAgentThread agent' us' t' =>
          have hgain : indexGain t agent us ⟨.delete (.idxAgentThread agent' us' t'), r⟩
              (own c s.log) = if t' = t ∧ agent' = agent ∧ us' = us then 1 else 0 := rfl
          rw [AList.lookup_erase_ne (by simp)] at hm
          have hbefore := h metadata hm
          rw [hgain]
          by_cases hkey : t' = t ∧ agent' = agent ∧ us' = us
          · obtain ⟨rfl, rfl, rfl⟩ := hkey
            -- the entry was there
            have hmem : Key.idxAgentThread agent' us' t' ∈ s.world := hundisturbed
            rw [if_pos hmem] at hbefore
            rw [if_neg (by simp), if_pos ⟨rfl, rfl, rfl⟩]
            linarith
          · have hne := idxAgentThread_ne hkey
            rw [if_neg hkey, zero_add,
              if_congr (AList.mem_erase |>.trans (and_iff_right hne)) rfl rfl]
            exact hbefore
      | _ =>
          have hgain : indexGain t agent us ⟨_, r⟩ (own c s.log) = 0 := rfl
          rw [AList.lookup_erase_ne (by simp)] at hm
          rw [hgain, zero_add, if_congr (AList.mem_erase |>.trans (and_iff_right (by simp)))
            rfl rfl]
          exact h metadata hm

/-- The newest change of a thread's index entries can be seen in the index. -/
def Live (w : World) (t : Uuid) (s : State Tid) : Prop :=
  match s.log.find? (fun ev => ev.op.indexes t) with
  | some ev => ∀ agent us, ev.op = .put (.idxAgentThread agent us t) () →
      .idxAgentThread agent us t ∈ s.world
  | none => ∀ agent us, .idxAgentThread agent us t ∈ w → .idxAgentThread agent us t ∈ s.world

omit [DecidableEq Tid] in
theorem mem_perform_of_not_indexes (h : ev.op.indexes t = false) :
    .idxAgentThread agent us t ∈ (perform s ev).world ↔ .idxAgentThread agent us t ∈ s.world := by
  obtain ⟨c, op, r⟩ := ev
  cases op with
  | get k => rfl
  | scan pre => rfl
  | put k v =>
      refine (AList.mem_insert _).trans (or_iff_right ?_)
      rintro rfl
      simp [Access.indexes] at h
  | delete k =>
      refine AList.mem_erase.trans (and_iff_right ?_)
      rintro rfl
      simp [Access.indexes] at h

omit [DecidableEq Tid] in
theorem Live.perform (h : Live w t s) : Live w t (perform s ev) := by
  unfold Live at h ⊢
  have hlog : (Threads.perform s ev).log = ev :: s.log := rfl
  rw [hlog, List.find?_cons]
  cases hev : ev.op.indexes t with
  | true =>
      intro agent us hput
      obtain ⟨c, op, r⟩ := ev
      obtain rfl : op = .put (.idxAgentThread agent us t) () := hput
      exact (AList.mem_insert _).mpr (Or.inl rfl)
  | false =>
      cases hfound : s.log.find? (fun ev => ev.op.indexes t) with
      | none =>
          rw [hfound] at h
          intro agent us hmem
          exact (mem_perform_of_not_indexes hev).mpr (h agent us hmem)
      | some ev' =>
          rw [hfound] at h
          intro agent us hput
          exact (mem_perform_of_not_indexes hev).mpr (h agent us hput)

theorem Orderly.mem_thread (hev : Orderly calls s ev) :
    .thread t ∈ (perform s ev).world ↔ .thread t ∈ s.world := by
  obtain ⟨c, op, r⟩ := ev
  obtain ⟨-, hmild, hunused, hundisturbed⟩ := hev
  cases op with
  | get k => rfl
  | scan pre => rfl
  | put k v =>
      by_cases hk : Key.thread t = k
      · subst hk
        obtain ⟨old, hold, -⟩ := exists_of_undisturbed hundisturbed
        refine iff_of_true ((AList.mem_insert _).mpr (Or.inl rfl)) (AList.lookup_isSome.mp ?_)
        rw [hold]
        rfl
      · exact (AList.mem_insert _).trans (or_iff_right hk)
  | delete k =>
      refine AList.mem_erase.trans (and_iff_right ?_)
      rintro rfl
      cases hmild

/-- No thread comes and none goes. -/
def SameThreads (w : World) (t : Uuid) (s : State Tid) : Prop :=
  .thread t ∈ s.world ↔ .thread t ∈ w

theorem SameThreads.perform (h : SameThreads w t s) (hev : Orderly calls s ev) :
    SameThreads w t (perform s ev) := hev.mem_thread.trans h

theorem Orderly.finds (hev : Orderly calls s ev) (ht : .thread t ∈ s.world) :
    Finds t ⟨ev.op, ev.res⟩ (own ev.tid s.log) := by
  obtain ⟨c, op, r⟩ := ev
  have hanswer := hev.answered
  cases op with
  | get k =>
      cases k with
      | thread id =>
          rintro rfl hnone
          obtain rfl : r = s.world.lookup (.thread id) := hanswer
          exact AList.lookup_eq_none.mp hnone ht
      | _ => trivial
  | _ => trivial

/-- A thread that is stored is found. -/
def Found (t : Uuid) (s : State Tid) : Prop :=
  .thread t ∈ s.world ∧ ∀ c, Along (Finds t) (own c s.log)

theorem Found.perform (h : Found t s) (hev : Orderly calls s ev) : Found t (perform s ev) :=
  ⟨hev.mem_thread.mpr h.1, along_own_cons h.2 (hev.finds h.1)⟩

theorem Orderly.fits (hev : Orderly calls s ev) :
    (calls ev.tid).Fits ⟨ev.op, ev.res⟩ (own ev.tid s.log) := by
  obtain ⟨c, op, r⟩ := ev
  obtain ⟨-, -, -, hundisturbed⟩ := hev
  cases op with
  | put k v =>
      cases k with
      | thread id =>
          obtain ⟨old, -, hread, hfits⟩ := exists_of_undisturbed hundisturbed
          intro metadata hm
          obtain rfl := Option.some.inj (hread.symm.trans hm)
          exact hfits
      | counter c' =>
          cases c' with
          | messages =>
              have hread : lastCounter .messages (own c s.log) = s.world.counter .messages :=
                hundisturbed.1
              show (calls c).FitsCounter (lastCounter .messages (own c s.log))
              rw [hread]
              exact hundisturbed.2
          | threads => trivial
      | _ => trivial
  | _ => trivial

/-- Counts that calls have read can be written back changed by one. -/
def Fitting (calls : Tid → Call) (s : State Tid) : Prop :=
  ∀ c, Along (calls c).Fits (own c s.log)

theorem Fitting.perform (h : Fitting calls s) (hev : Orderly calls s ev) :
    Fitting calls (perform s ev) := along_own_cons h hev.fits

/-- Does an updater change the field of the thread? -/
def Changes {β : Type} (calls : Tid → Call) (φ : ThreadMeta → β) (id : Uuid) (ev : Happening Tid)
    (earlier : List (Happening Tid)) : Prop :=
  (∃ updater now, calls ev.tid = .updateThread id updater now) ∧
    ∃ metadata old, ev.op = .put (.thread id) metadata ∧
      lastThread id (own ev.tid earlier) = some old ∧ φ metadata ≠ φ old

/-- A value that is written stays as long as the field is written as it was read. -/
def Survives {β : Type} (φ : ThreadMeta → β) (id : Uuid) (s : State Tid) : Prop :=
  ∀ later ev earlier metadata, s.log = later ++ ev :: earlier →
    ev.op = .put (.thread id) metadata →
    (∀ l₁ ev' l₂, later = l₁ ++ ev' :: l₂ →
      ∀ metadata' old, ev'.op = .put (.thread id) metadata' →
        lastThread id (own ev'.tid (l₂ ++ ev :: earlier)) = some old → φ metadata' = φ old) →
    ∃ final, s.world.lookup (.thread id) = some final ∧ φ final = φ metadata

theorem Survives.perform {β : Type} {φ : ThreadMeta → β} {id : Uuid} (h : Survives φ id s)
    (hev : Orderly calls s ev) : Survives φ id (perform s ev) := by
  intro later ev₀ earlier metadata hsplit hput hlater
  have hlog : ev :: s.log = later ++ ev₀ :: earlier := hsplit
  rcases List.cons_eq_append_iff.mp hlog with ⟨rfl, heq⟩ | ⟨later, rfl, heq⟩
  · obtain ⟨rfl, rfl⟩ := List.cons_eq_cons.mp heq
    obtain ⟨c, op, r⟩ := ev₀
    obtain rfl : op = .put (.thread id) metadata := hput
    exact ⟨metadata, AList.lookup_insert _, rfl⟩
  · obtain ⟨final, hfinal, hφ⟩ := h later ev₀ earlier metadata heq hput fun l₁ ev' l₂ hl =>
      hlater (ev :: l₁) ev' l₂ (by rw [hl, List.cons_append])
    obtain ⟨c, op, r⟩ := ev
    obtain ⟨-, hmild, hunused, hundisturbed⟩ := hev
    cases op with
    | get k => exact ⟨final, hfinal, hφ⟩
    | scan pre => exact ⟨final, hfinal, hφ⟩
    | put k v =>
        by_cases hk : Key.thread id = k
        · subst hk
          obtain ⟨old, hold, hread, -⟩ := exists_of_undisturbed hundisturbed
          obtain rfl := Option.some.inj (hfinal.symm.trans hold)
          refine ⟨v, AList.lookup_insert _, ?_⟩
          rw [← hφ]
          exact hlater [] _ later rfl v final rfl (by rwa [← heq])
        · exact ⟨final, (AList.lookup_insert_ne hk).trans hfinal, hφ⟩
    | delete k =>
        have hk : Key.thread id ≠ k := by
          rintro rfl
          cases hmild
        exact ⟨final, (AList.lookup_erase_ne hk).trans hfinal, hφ⟩

/-! ### Whole runs -/

/-- What is claimed of calls that have all finished. -/
structure NoUpdateLost (calls : Tid → Call) (s : State Tid) : Prop where
  messageCount : ∀ {t metadata}, s.world.lookup (.thread t) = some metadata →
    metadata.messageCount = keyCount s.world (Key.isMessageOf t)
  counter : s.world.counter .messages = keyCount s.world Key.isMessage
  /-- What an updater has changed stays, unless a later updater changes it. -/
  field : ∀ {β : Type} {φ : ThreadMeta → β}, Unmaintained φ →
    ∀ {id later ev earlier metadata}, s.log = later ++ ev :: earlier →
      Changes calls φ id ev earlier → ev.op = .put (.thread id) metadata →
      (∀ l₁ ev' l₂, later = l₁ ++ ev' :: l₂ → ¬ Changes calls φ id ev' (l₂ ++ ev :: earlier)) →
      ∃ final, s.world.lookup (.thread id) = some final ∧ φ final = φ metadata
  index : ∀ {t metadata}, s.world.lookup (.thread t) = some metadata → ∀ agent us,
    .idxAgentThread agent us t ∈ s.world ↔
      agent = metadata.agentId ∧ us = timestampMicros metadata.updatedAt

theorem Interleaving.isMild (h : Interleaving calls w events) (hmem : ev ∈ events) :
    ev.op.isMild = true := by
  rcases h.finished ev.tid with hnone | htrace
  · have hown := mem_own hmem
    rw [hnone] at hown
    cases hown
  · exact isMild_of_trace htrace _ (mem_own hmem)

/-- The accesses of a call, newest first. -/
theorem Interleaving.own_log (h : Interleaving calls w events) (c : Tid) :
    own c (w.outcome events).log = [] ∨
      ∃ l, (calls c).program.Trace l () ∧ own c (w.outcome events).log = l.reverse := by
  rw [log_outcome, own_reverse]
  rcases h.finished c with hnone | htrace
  · rw [hnone]
    exact Or.inl rfl
  · exact Or.inr ⟨_, htrace, rfl⟩

theorem Interleaving.orderly (h : Interleaving calls w events)
    (hunused : EachStep perform ⟨w, []⟩ events Unused)
    (hundisturbed : EachStep perform ⟨w, []⟩ events (Undisturbed calls)) :
    EachStep perform ⟨w, []⟩ events (Orderly calls) := fun before ev after hsplit =>
  { answered := h.answered before ev after hsplit
    mild := h.isMild (by simp [hsplit])
    unused := hunused before ev after hsplit
    undisturbed := hundisturbed before ev after hsplit }

/-- What holds of a quantity that every finished call leaves balanced. -/
theorem Interleaving.balance_eq_zero (h : Interleaving calls w events)
    {f : Sigma Access.Res → List (Sigma Access.Res) → ℤ}
    (hf : ∀ c l, (calls c).program.Trace l () → own c (w.outcome events).log = l.reverse →
      total f l.reverse = 0) : balance f (w.outcome events).log = 0 := by
  refine Foundations.balance_eq_zero fun c => ?_
  rcases h.own_log c with hnone | ⟨l, htrace, hown⟩
  · rw [hnone]
    rfl
  · rw [hown]
    exact hf c l htrace hown

/-- The entry of a thread's record is in the index. -/
theorem Interleaving.exists_index (h : Interleaving calls w events) (hw : Consistent w)
    (hlive : Live w t (w.outcome events)) (ht : .thread t ∈ w) :
    ∃ agent us, .idxAgentThread agent us t ∈ (w.outcome events).world := by
  unfold Live at hlive
  cases hfound : (w.outcome events).log.find? (fun ev => ev.op.indexes t) with
  | none =>
      rw [hfound] at hlive
      obtain ⟨metadata, hm⟩ := Option.isSome_iff_exists.mp (AList.lookup_isSome.mpr ht)
      exact ⟨_, _, hlive _ _ ((hw.index hm _ _).mpr ⟨rfl, rfl⟩)⟩
  | some ev =>
      rw [hfound] at hlive
      have hown := find?_own hfound
      rcases h.own_log ev.tid with hnone | ⟨l, htrace, hl⟩
      · rw [hnone] at hown
        cases hown
      · rw [hl] at hown
        obtain ⟨agent, us, hput⟩ := find?_indexes_of_trace htrace hown
        exact ⟨agent, us, hlive agent us hput⟩

/-- A call that does not update the thread writes the field as it has read it. -/
theorem Interleaving.keepsField (h : Interleaving calls w events) {β : Type}
    {φ : ThreadMeta → β} (hφ : Unmaintained φ) {id : Uuid} {later earlier : List (Happening Tid)}
    (hcall : ∀ updater now, calls ev.tid ≠ .updateThread id updater now)
    (hsplit : (w.outcome events).log = later ++ ev :: earlier) {old : ThreadMeta}
    (hput : ev.op = .put (.thread id) metadata)
    (hread : lastThread id (own ev.tid earlier) = some old) : φ metadata = φ old := by
  have halong : Along (KeepsField φ id) (own ev.tid (later ++ ev :: earlier)) := by
    rw [← hsplit]
    rcases h.own_log ev.tid with hnone | ⟨l, htrace, hl⟩
    · rw [hnone]
      trivial
    · rw [hl]
      exact keepsField_of_trace hφ htrace hcall
  have hkeeps := Along.of_split (P := fun _ => KeepsField φ id) halong
  obtain ⟨c, op, r⟩ := ev
  obtain rfl : op = .put (.thread id) metadata := hput
  exact hkeeps rfl old hread

/-- **If every access is undisturbed, no update is lost.** -/
theorem no_update_lost {w : World} {events : List (Happening Tid)} (hw : Consistent w)
    (h : Interleaving calls w events) (hunused : EachStep perform ⟨w, []⟩ events Unused)
    (hundisturbed : EachStep perform ⟨w, []⟩ events (Undisturbed calls)) :
    NoUpdateLost calls (w.outcome events) := by
  have horderly := h.orderly hunused hundisturbed
  have hfits : Fitting calls (w.outcome events) :=
    horderly.invariant (fun _ => trivial) fun _ _ hs hev => hs.perform hev
  have hsame (t : Uuid) : SameThreads w t (w.outcome events) :=
    horderly.invariant Iff.rfl fun _ _ hs hev => hs.perform hev
  constructor
  case messageCount =>
    intro t metadata hm
    have ht : .thread t ∈ w := (hsame t).mp (AList.lookup_isSome.mp (by rw [hm]; rfl))
    have hfound : Found t (w.outcome events) :=
      horderly.invariant ⟨ht, fun _ => trivial⟩ fun _ _ hs hev => hs.perform hev
    have hcounts : CountsThread t (w.outcome events) :=
      horderly.invariant (fun metadata hm => by
        show (metadata.messageCount : ℤ) = keyCount w (Key.isMessageOf t) + 0
        rw [hw.messageCount hm, add_zero]) fun _ _ hs hev => hs.perform hev
    have hzero : balance (threadGain t) (w.outcome events).log = 0 :=
      h.balance_eq_zero fun c l htrace hown =>
        total_threadGain htrace (hown ▸ hfits c) (hown ▸ hfound.2 c)
    have hcount := hcounts metadata hm
    rw [hzero, add_zero] at hcount
    exact_mod_cast hcount
  case counter =>
    have hcounts : Counts (w.outcome events) :=
      horderly.invariant (by
        show (w.counter .messages : ℤ) = keyCount w Key.isMessage + 0
        rw [hw.messages, add_zero]) fun _ _ hs hev => hs.perform hev
    have hzero : balance messageGain (w.outcome events).log = 0 :=
      h.balance_eq_zero fun c l htrace hown => total_messageGain htrace (hown ▸ hfits c)
    unfold Counts at hcounts
    rw [hzero, add_zero] at hcounts
    exact_mod_cast hcounts
  case field =>
    intro β φ hφ id later ev earlier metadata hsplit hchange hput hlater
    have hsurvives : Survives φ id (w.outcome events) :=
      horderly.invariant (fun later ev earlier metadata hnil => by simp at hnil)
        fun _ _ hs hev => hs.perform hev
    refine hsurvives later ev earlier metadata hsplit hput ?_
    intro l₁ ev' l₂ hl metadata' old hput' hread
    by_contra hne
    by_cases hcall : ∃ updater now, calls ev'.tid = .updateThread id updater now
    · exact hlater l₁ ev' l₂ hl ⟨hcall, metadata', old, hput', hread, hne⟩
    · push Not at hcall
      have hlog : (w.outcome events).log = l₁ ++ ev' :: (l₂ ++ ev :: earlier) := by
        rw [hsplit, hl, List.append_assoc, List.cons_append]
      exact hne (h.keepsField hφ hcall hlog hput' hread)
  case index =>
    intro t metadata hm agent us
    have ht : .thread t ∈ w := (hsame t).mp (AList.lookup_isSome.mp (by rw [hm]; rfl))
    have hindexed (agent us) : Indexed t agent us (w.outcome events) := by
      refine horderly.invariant ?_ fun _ _ hs hev => hs.perform hev
      intro metadata hm
      show (if Key.idxAgentThread agent us t ∈ w then 1 else 0) + 0 ≤ metadata.entry agent us
      have hiff : .idxAgentThread agent us t ∈ w ↔
          metadata.agentId = agent ∧ timestampMicros metadata.updatedAt = us := by
        rw [hw.index hm, eq_comm, eq_comm (a := us)]
      rw [add_zero, if_congr hiff rfl rfl, ThreadMeta.entry]
    have hzero (agent us) : balance (indexGain t agent us) (w.outcome events).log = 0 :=
      h.balance_eq_zero fun c l htrace hown => total_indexGain htrace (hown ▸ hfits c)
    have hof {agent us} (hmem : .idxAgentThread agent us t ∈ (w.outcome events).world) :
        metadata.agentId = agent ∧ timestampMicros metadata.updatedAt = us := by
      have hle := hindexed agent us metadata hm
      rw [if_pos hmem, hzero, add_zero, ThreadMeta.entry] at hle
      by_contra hno
      rw [if_neg hno] at hle
      exact absurd hle (by norm_num)
    have hlive : Live w t (w.outcome events) :=
      horderly.invariant (fun _ _ hmem => hmem) fun _ _ hs _ => hs.perform
    obtain ⟨agent₀, us₀, hmem₀⟩ := h.exists_index hw hlive ht
    obtain ⟨rfl, rfl⟩ := hof hmem₀
    constructor
    · intro hmem
      exact ⟨(hof hmem).1.symm, (hof hmem).2.symm⟩
    · rintro ⟨rfl, rfl⟩
      exact hmem₀

/-! ### Two calls side by side -/

/-- A store with one thread. -/
def oneThread : World := step ∅ (.createThread 1 1000 "a" "new" none)

theorem consistent_oneThread : Consistent oneThread :=
  (kept_empty.step (by decide +kernel) (by decide +kernel)).consistent

namespace Session

/-- Two messages are appended, or one is appended and the thread is renamed. -/
def twoMessages : Bool → Call
  | false => .appendMessage greeting
  | true => .appendMessage reply

def messageAndRename : Bool → Call
  | false => .appendMessage greeting
  | true => .updateThread 1 rename 6000

/-- Access by access. -/
def lockstep : List (Happening Bool) :=
  (play (fun c => (twoMessages c).program) oneThread
    (List.replicate 7 [false, true]).flatten).1

/-- The thread is renamed between two accesses of the other call. -/
def inTurn : List (Happening Bool) :=
  (play (fun c => (messageAndRename c).program) oneThread
    [false, true, true, false, true, true, false, false, false, false, false]).1

theorem interleaving_lockstep : Interleaving twoMessages oneThread lockstep :=
  interleaving_play fun c => by cases c <;> rfl

theorem interleaving_inTurn : Interleaving messageAndRename oneThread inTurn :=
  interleaving_play fun c => by cases c <;> rfl

theorem no_update_lost_inTurn : NoUpdateLost messageAndRename (oneThread.outcome inTurn) :=
  no_update_lost consistent_oneThread interleaving_inTurn (by decide +kernel) (by decide +kernel)

/-- Both calls find no message and count one. -/
theorem update_lost_lockstep : Consistent oneThread ∧
    Interleaving twoMessages oneThread lockstep ∧
    EachStep perform ⟨oneThread, []⟩ lockstep Unused ∧
    ¬ NoUpdateLost twoMessages (oneThread.outcome lockstep) := by
  refine ⟨consistent_oneThread, interleaving_lockstep, by decide +kernel, ?_⟩
  intro h
  have hcounter : (oneThread.outcome lockstep).world.counter .messages ≠
      keyCount (oneThread.outcome lockstep).world Key.isMessage := by decide +kernel
  exact hcounter h.counter

end Session

end ClawDesk.Threads
