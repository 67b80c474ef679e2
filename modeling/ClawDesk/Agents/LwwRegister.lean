import ClawDesk.Foundations.Replication
import Mathlib.Data.Finset.Lattice.Lemmas
import Mathlib.Data.Prod.Lex
import Mathlib.Data.String.Basic

/-!
# The last-writer-wins register

A single value with the time and the agent of its last write.  Merging keeps the
register of the later write, ties broken by the agent; `stamp` is the pair that is
compared, and merging is the larger of two registers by it, the left one where the
stamps are equal.

So merging is associative and idempotent whatever the registers, and commutative
exactly where equal stamps mean equal values (`Unambiguous`): a clock that reads
the same at two writes of one agent breaks this.  Setting a value overwrites the
stamp as well, with an earlier one if the register came from an agent whose clock
is ahead.  Where no write is behind what its agent knew (`NeverBehind`), a register
is the latest write of its causal history.
-/

namespace ClawDesk.Agents

open Foundations Foundations.Replication

/-- A value with the time and the agent of its last write. -/
structure LwwRegister (T : Type) where
  value : T
  timestamp : ℤ
  /-- Agent that performed the last write, for tie-breaking. -/
  writer : String
  deriving DecidableEq

namespace LwwRegister

variable {T : Type}

/-- A register created when the clock reads `now`. -/
def new (value : T) (writer : String) (now : ℤ) : LwwRegister T where
  value := value
  timestamp := now
  writer := writer

/-- Set a new value when the clock reads `now`. -/
def set (self : LwwRegister T) (value : T) (writer : String) (now : ℤ) : LwwRegister T :=
  { self with value := value, timestamp := now, writer := writer }

def merge (self other : LwwRegister T) : LwwRegister T :=
  if other.timestamp > self.timestamp ∨
      (other.timestamp = self.timestamp ∧ other.writer > self.writer) then
    { self with value := other.value, timestamp := other.timestamp, writer := other.writer }
  else self

/-! ### The order of the stamps -/

/-- What decides between two registers. -/
def stamp (x : LwwRegister T) : ℤ ×ₗ String := toLex (x.timestamp, x.writer)

theorem ext_of_stamp {x y : LwwRegister T} (hstamp : x.stamp = y.stamp)
    (hvalue : x.value = y.value) : x = y := by
  obtain ⟨v, t, w⟩ := x
  obtain ⟨v', t', w'⟩ := y
  obtain ⟨rfl, rfl⟩ := Prod.mk.inj (toLex.injective hstamp)
  exact congrArg (fun v => LwwRegister.mk v t w) hvalue

/-- Merging keeps the larger register, the left one on a tie. -/
theorem merge_eq (x y : LwwRegister T) : x.merge y = if x.stamp < y.stamp then y else x := by
  have hlt : x.stamp < y.stamp ↔
      y.timestamp > x.timestamp ∨ (y.timestamp = x.timestamp ∧ y.writer > x.writer) := by
    rw [stamp, stamp, Prod.Lex.toLex_lt_toLex, gt_iff_lt, gt_iff_lt, eq_comm (a := x.timestamp)]
  simp only [merge, hlt]

theorem merge_of_lt {x y : LwwRegister T} (h : x.stamp < y.stamp) : x.merge y = y := by
  rw [merge_eq, if_pos h]

theorem merge_of_le {x y : LwwRegister T} (h : y.stamp ≤ x.stamp) : x.merge y = x := by
  rw [merge_eq, if_neg (not_lt.mpr h)]

theorem merge_choice (x y : LwwRegister T) : x.merge y = x ∨ x.merge y = y := by
  rcases lt_or_ge x.stamp y.stamp with h | h
  · exact .inr (merge_of_lt h)
  · exact .inl (merge_of_le h)

theorem stamp_merge (x y : LwwRegister T) : (x.merge y).stamp = max x.stamp y.stamp := by
  rcases lt_or_ge x.stamp y.stamp with h | h
  · rw [merge_of_lt h, max_eq_right h.le]
  · rw [merge_of_le h, max_eq_left h]

theorem merge_self (x : LwwRegister T) : x.merge x = x := merge_of_le le_rfl

theorem merge_assoc (x y z : LwwRegister T) : (x.merge y).merge z = x.merge (y.merge z) := by
  rcases lt_or_ge y.stamp z.stamp with hyz | hyz
  · rw [merge_of_lt hyz]
    rcases lt_or_ge x.stamp y.stamp with hxy | hxy
    · rw [merge_of_lt hxy, merge_of_lt hyz, merge_of_lt (hxy.trans hyz)]
    · rw [merge_of_le hxy]
  · rw [merge_of_le hyz]
    rcases lt_or_ge x.stamp y.stamp with hxy | hxy
    · rw [merge_of_lt hxy, merge_of_le hyz]
    · rw [merge_of_le hxy, merge_of_le (hyz.trans hxy)]

/-- Two registers commute unless they differ under one stamp. -/
theorem merge_comm_iff (x y : LwwRegister T) :
    x.merge y = y.merge x ↔ (x.stamp = y.stamp → x = y) := by
  rcases lt_trichotomy x.stamp y.stamp with h | h | h
  · rw [merge_of_lt h, merge_of_le h.le]
    exact iff_of_true rfl fun he => absurd he h.ne
  · rw [merge_of_le h.ge, merge_of_le h.le]
    exact ⟨fun he _ => he, fun he => he h⟩
  · rw [merge_of_le h.le, merge_of_lt h]
    exact iff_of_true rfl fun he => absurd he h.ne'

/-! ### Replicas -/

/-- What a call of `new` or `set` writes, with the reading of its replica's clock. -/
structure Write (T : Type) where
  value : T
  writer : String
  now : ℤ

/-- What a replica holds after a write. -/
def Write.register (w : Write T) : LwwRegister T := new w.value w.writer w.now

/-- A replica's first write creates its register, later ones set it. -/
def write (w : Write T) : Option (LwwRegister T) → Unit × Option (LwwRegister T)
  | none => ((), some (new w.value w.writer w.now))
  | some self => ((), some (self.set w.value w.writer w.now))

/-- A replica without a register takes the one it receives. -/
def receive : Option (LwwRegister T) → Option (LwwRegister T) → Option (LwwRegister T)
  | none, other => other
  | some self, none => some self
  | some self, some other => some (self.merge other)

/-- The register as a replicated data type. -/
def lww : DataType (Write T) Unit (Option (LwwRegister T)) where
  update := write
  merge := receive

@[simp]
theorem write_snd (w : Write T) (s : Option (LwwRegister T)) :
    (write w s).2 = some w.register := by
  cases s <;> rfl

variable {ι : Type}

/-- A network of registers. -/
abbrev LwwNet (ι T : Type) : Type := Net ι (Write T) Unit (Option (LwwRegister T))

abbrev LwwUpdate (ι T : Type) : Type := Update ι (Write T) Unit

/-- No replica's clock ever goes back. -/
def Clocked (updates : List (LwwUpdate ι T)) : Prop :=
  updates.Pairwise fun u v => u.replica = v.replica → u.action.now ≤ v.action.now

/-- Writes with one stamp write one value. -/
def Unambiguous (updates : List (LwwUpdate ι T)) : Prop :=
  ∀ u ∈ updates, ∀ v ∈ updates, u.action.register.stamp = v.action.register.stamp →
    u.action.value = v.action.value

/-- No write has an earlier stamp than one its replica knew of. -/
def NeverBehind (updates : List (LwwUpdate ι T)) : Prop :=
  ∀ u ∈ updates, ¬ Made updates u.past fun v => u.action.register.stamp < v.action.register.stamp

/-- Some replica holds the register, or has held it. -/
def Held (net : LwwNet ι T) (x : LwwRegister T) : Prop := ∃ s ∈ net.states, s.state = some x

/-- Merging is a join on the registers of a network. -/
structure MergeIsJoin (net : LwwNet ι T) : Prop where
  comm : ∀ x y, Held net x → Held net y → x.merge y = y.merge x
  assoc : ∀ x y z, Held net x → Held net y → Held net z →
    (x.merge y).merge z = x.merge (y.merge z)
  idem : ∀ x, Held net x → x.merge x = x

/-- Replicas that know of the same writes hold the same value. -/
def Converges (net : LwwNet ι T) : Prop :=
  ∀ s ∈ net.states, ∀ s' ∈ net.states, s.history = s'.history →
    s.state.map (·.value) = s'.state.map (·.value)

/-! ### The register of a history -/

/-- A state holds a write of its history, the latest one unless a write was behind. -/
structure LatestOf (updates : List (LwwUpdate ι T)) (H : Finset ℕ)
    (s : Option (LwwRegister T)) : Prop where
  empty : s = none → H = ∅
  written : ∀ x, s = some x → Made updates H fun u => u.action.register = x
  latest : NeverBehind updates → ∀ x, s = some x →
    ¬ Made updates H fun u => x.stamp < u.action.register.stamp

variable {updates : List (LwwUpdate ι T)} {H H' : Finset ℕ} {s s' : Option (LwwRegister T)}

theorem latestOf_none : LatestOf ([] : List (LwwUpdate ι T)) ∅ none where
  empty _ := rfl
  written x hx := by cases hx
  latest _ x hx := by cases hx

theorem NeverBehind.of_append {u : LwwUpdate ι T} (h : NeverBehind (updates ++ [u]))
    (causal : Causal updates) : NeverBehind updates := by
  intro v hv hbehind
  obtain ⟨i, hi⟩ := List.mem_iff_getElem?.mp hv
  exact h v (List.mem_append_left _ hv) ((made_append (causal i v hi)).mpr hbehind)

theorem LatestOf.append (h : LatestOf updates H s) (causal : Causal updates)
    (bounded : ∀ i ∈ H, i < updates.length) (u : LwwUpdate ι T) :
    LatestOf (updates ++ [u]) H s where
  empty := h.empty
  written x hx := (made_append bounded).mpr (h.written x hx)
  latest hnever x hx hmade :=
    h.latest (hnever.of_append causal) x hx ((made_append bounded).mp hmade)

/-- A write is the latest of its history, unless it is behind. -/
theorem LatestOf.write (bounded : ∀ i ∈ H, i < updates.length) (r : ι) (w : Write T)
    (s : Option (LwwRegister T)) :
    LatestOf (updates ++ [⟨r, w, (LwwRegister.write w s).1, H⟩]) (insert updates.length H)
      (LwwRegister.write w s).2 := by
  rw [write_snd]
  constructor
  · intro hnone
    cases hnone
  · rintro x ⟨rfl⟩
    exact (made_insert_length bounded).mpr (.inl rfl)
  · rintro hnever x ⟨rfl⟩ hmade
    rcases (made_insert_length bounded).mp hmade with hself | hbefore
    · exact lt_irrefl _ hself
    · exact hnever _ (List.mem_append_right _ (List.mem_singleton_self _))
        ((made_append bounded).mpr hbefore)

theorem LatestOf.receive (h : LatestOf updates H s) (h' : LatestOf updates H' s') :
    LatestOf updates (H ∪ H') (LwwRegister.receive s s') := by
  cases s with
  | none => rwa [h.empty rfl, Finset.empty_union]
  | some self =>
      cases s' with
      | none => rwa [h'.empty rfl, Finset.union_empty]
      | some other =>
          constructor
          · intro hnone
            cases hnone
          · rintro x ⟨rfl⟩
            rw [made_union]
            rcases merge_choice self other with hmerge | hmerge
            · exact .inl (h.written _ (congrArg some hmerge.symm))
            · exact .inr (h'.written _ (congrArg some hmerge.symm))
          · rintro hnever x ⟨rfl⟩ hmade
            rw [made_union] at hmade
            rcases hmade with ⟨i, hi, u, hu, hlt⟩ | ⟨i, hi, u, hu, hlt⟩
            · exact h.latest hnever self rfl
                ⟨i, hi, u, hu, (max_lt_iff.mp (stamp_merge self other ▸ hlt)).1⟩
            · exact h'.latest hnever other rfl
                ⟨i, hi, u, hu, (max_lt_iff.mp (stamp_merge self other ▸ hlt)).2⟩

variable [DecidableEq ι] {net : LwwNet ι T}

/-- What replicas that have no register at first get to. -/
abbrev LwwReachable (net : LwwNet ι T) : Prop := Reachable lww (fun _ => none) net

theorem latestOf (h : LwwReachable net) :
    ∀ s ∈ net.states, LatestOf net.updates s.history s.state :=
  Reachable.represents (fun _ => latestOf_none) (fun causal bounded h => h.append causal bounded _)
    (fun _ bounded _ => LatestOf.write bounded _ _ _) (fun h h' => h.receive h') h

/-- Every write has been the register of its replica. -/
theorem held_of_mem (h : LwwReachable net) :
    ∀ u ∈ net.updates, Held net u.action.register := by
  induction h with
  | refl => exact fun u hu => absurd hu List.not_mem_nil
  | tail reach step ih =>
      cases step with
      | update r w =>
          intro u hu
          rcases List.mem_append.mp hu with hu | hu
          · obtain ⟨s, hs, hx⟩ := ih u hu
            exact ⟨s, .inr hs, hx⟩
          · rw [List.mem_singleton.mp hu]
            exact ⟨_, .inl rfl, write_snd w _⟩
      | merge r known =>
          intro u hu
          obtain ⟨s, hs, hx⟩ := ih u hu
          exact ⟨s, .inr hs, hx⟩

/-- Every register is a write. -/
theorem Held.written (h : LwwReachable net) {x : LwwRegister T} (hx : Held net x) :
    ∃ u ∈ net.updates, u.action.register = x := by
  obtain ⟨s, hs, hx⟩ := hx
  obtain ⟨i, -, u, hu, rfl⟩ := (latestOf h s hs).written x hx
  exact ⟨u, List.mem_of_getElem? hu, rfl⟩

theorem Held.eq_of_stamp (h : LwwReachable net) (hwrites : Unambiguous net.updates)
    {x y : LwwRegister T} (hx : Held net x) (hy : Held net y) (hstamp : x.stamp = y.stamp) :
    x = y := by
  obtain ⟨u, hu, rfl⟩ := hx.written h
  obtain ⟨v, hv, rfl⟩ := hy.written h
  exact ext_of_stamp hstamp (hwrites u hu v hv hstamp)

/-- **Merging is a join exactly if the stamps tell the values apart.** -/
theorem mergeIsJoin_iff (h : LwwReachable net) : MergeIsJoin net ↔ Unambiguous net.updates := by
  constructor
  · intro hjoin u hu v hv hstamp
    have hcomm := hjoin.comm _ _ (held_of_mem h u hu) (held_of_mem h v hv)
    exact congrArg value ((merge_comm_iff _ _).mp hcomm hstamp)
  · intro hwrites
    refine ⟨fun x y hx hy => ?_, fun x y z _ _ _ => merge_assoc x y z, fun x _ => merge_self x⟩
    exact (merge_comm_iff x y).mpr fun hstamp => hx.eq_of_stamp h hwrites hy hstamp

/-- The latest register of a history has the largest stamp of it. -/
theorem stamp_le_of_history_eq (h : LwwReachable net) (hnever : NeverBehind net.updates)
    {s s' : Stamped (Option (LwwRegister T))} (hs : s ∈ net.states) (hs' : s' ∈ net.states)
    (hhistory : s.history = s'.history) {x y : LwwRegister T} (hx : s.state = some x)
    (hy : s'.state = some y) : x.stamp ≤ y.stamp := by
  obtain ⟨i, hi, u, hu, rfl⟩ := (latestOf h s hs).written x hx
  refine not_lt.mp fun hlt => (latestOf h s' hs').latest hnever y hy ?_
  exact ⟨i, hhistory ▸ hi, u, hu, hlt⟩

/-- **Replicas with the same history hold the same register**, if stamps tell the
values apart and no write is behind. -/
theorem converges_of_neverBehind (h : LwwReachable net) (hwrites : Unambiguous net.updates)
    (hnever : NeverBehind net.updates) : Converges net := by
  intro s hs s' hs' hhistory
  cases hx : s.state with
  | none =>
      have hempty := (latestOf h s hs).empty hx
      cases hy : s'.state with
      | none => rfl
      | some y =>
          obtain ⟨i, hi, -⟩ := (latestOf h s' hs').written y hy
          rw [← hhistory, hempty] at hi
          exact absurd hi (Finset.notMem_empty i)
  | some x =>
      cases hy : s'.state with
      | none =>
          obtain ⟨i, hi, -⟩ := (latestOf h s hs).written x hx
          rw [hhistory, (latestOf h s' hs').empty hy] at hi
          exact absurd hi (Finset.notMem_empty i)
      | some y =>
          have hxy := stamp_le_of_history_eq h hnever hs hs' hhistory hx hy
          have hyx := stamp_le_of_history_eq h hnever hs' hs hhistory.symm hy hx
          obtain rfl := Held.eq_of_stamp h hwrites ⟨s, hs, hx⟩ ⟨s', hs', hy⟩ (hxy.antisymm hyx)
          rfl

/-- **The register's laws**: merging is a join on the registers of every network in
which stamps tell the values apart, and on no other; if no write is behind either,
replicas that know of the same writes hold the same value. -/
theorem register_joins (h : LwwReachable net) :
    (MergeIsJoin net ↔ Unambiguous net.updates) ∧
      (Unambiguous net.updates → NeverBehind net.updates → Converges net) :=
  ⟨mergeIsJoin_iff h, converges_of_neverBehind h⟩

end LwwRegister

namespace Exchange

open LwwRegister

/-- One replica writes and the other takes the register over.  Then the replica `r`
writes, and the one that did not takes this in too. -/
def exchange (w₀ w₁ : Write String) (r : Bool) : LwwNet Bool String :=
  let created := (Net.initial fun _ => none).update lww false w₀
  let copied := created.merge lww true (created.current false)
  let written := copied.update lww r w₁
  written.merge lww (!r) (written.current r)

theorem exchange_reachable (w₀ w₁ : Write String) (r : Bool) :
    LwwReachable (exchange w₀ w₁ r) := by
  have hstart : LwwReachable (Net.initial (fun _ => none) : LwwNet Bool String) := .refl
  have hcreated := hstart.update false w₀
  have hcopied := hcreated.merge true (hcreated.current_mem false)
  have hwritten := hcopied.update r w₁
  exact hwritten.merge (!r) (hwritten.current_mem r)

theorem exchange_updates (w₀ w₁ : Write String) (r : Bool) :
    (exchange w₀ w₁ r).updates = [⟨false, w₀, (), ∅⟩, ⟨r, w₁, (), {0}⟩] := by
  cases r <;> rfl

theorem exchange_state (w₀ w₁ : Write String) (r : Bool) :
    ((exchange w₀ w₁ r).current r).state = some w₁.register ∧
      ((exchange w₀ w₁ r).current (!r)).state = some (w₀.register.merge w₁.register) := by
  cases r <;> exact ⟨rfl, rfl⟩

/-- In the end both know of both writes. -/
theorem exchange_history (w₀ w₁ : Write String) (r : Bool) :
    ((exchange w₀ w₁ r).current r).history = {0, 1} ∧
      ((exchange w₀ w₁ r).current (!r)).history = {0, 1} := by
  have hown : ((exchange w₀ w₁ r).current r).history = insert 1 {0} := by cases r <;> rfl
  have hother : ((exchange w₀ w₁ r).current (!r)).history = {0} ∪ insert 1 {0} := by
    cases r <;> rfl
  rw [hown, hother]
  decide

theorem exchange_not_converges {w₀ w₁ : Write String} (r : Bool)
    (hvalue : (w₀.register.merge w₁.register).value ≠ w₁.value) :
    ¬ Converges (exchange w₀ w₁ r) := by
  intro hconverges
  have hreach := exchange_reachable w₀ w₁ r
  have hsame := hconverges _ (hreach.current_mem r) _ (hreach.current_mem !r)
    ((exchange_history w₀ w₁ r).1.trans (exchange_history w₀ w₁ r).2.symm)
  rw [(exchange_state w₀ w₁ r).1, (exchange_state w₀ w₁ r).2] at hsame
  exact hvalue (Option.some.inj hsame).symm

/-- One agent writes twice in one tick of its clock.  The replica that has merged
both writes keeps the first. -/
theorem sameTick_diverges :
    ¬ ∀ net : LwwNet Bool String, LwwReachable net → Clocked net.updates →
      MergeIsJoin net ∧ Converges net := by
  intro hlaw
  have hclocked : Clocked (exchange ⟨"a", "w", 0⟩ ⟨"b", "w", 0⟩ false).updates := by
    rw [exchange_updates]
    simp [Clocked]
  refine exchange_not_converges false ?_ (hlaw _ (exchange_reachable _ _ _) hclocked).2
  rw [merge_of_le (by decide)]
  exact (by decide : "a" ≠ "b")

/-- Stamps that tell the values apart are not enough: an agent whose clock is behind
writes over what it has merged. -/
theorem behind_diverges :
    ∃ net : LwwNet Bool String, LwwReachable net ∧ Clocked net.updates ∧
      Unambiguous net.updates ∧ ¬ Converges net := by
  refine ⟨exchange ⟨"a", "w", 10⟩ ⟨"b", "v", 5⟩ true, exchange_reachable _ _ _, ?_, ?_,
    exchange_not_converges true ?_⟩
  · rw [exchange_updates]
    simp [Clocked]
  · rw [exchange_updates]
    simp [Unambiguous, stamp, Write.register, new]
  · rw [merge_of_le (by decide)]
    exact (by decide : "a" ≠ "b")

theorem register_joins_exchange :
    MergeIsJoin (exchange ⟨"a", "w", 0⟩ ⟨"b", "v", 5⟩ true) ∧
      Converges (exchange ⟨"a", "w", 0⟩ ⟨"b", "v", 5⟩ true) := by
  have hreach := exchange_reachable ⟨"a", "w", 0⟩ ⟨"b", "v", 5⟩ true
  have hwrites : Unambiguous (exchange ⟨"a", "w", 0⟩ ⟨"b", "v", 5⟩ true).updates := by
    rw [exchange_updates]
    simp [Unambiguous, stamp, Write.register, new]
  have hnever : NeverBehind (exchange ⟨"a", "w", 0⟩ ⟨"b", "v", 5⟩ true).updates := by
    rw [exchange_updates]
    rintro u hu ⟨i, hi, v, hv, hlt⟩
    simp at hu
    rcases hu with rfl | rfl
    · exact absurd hi (Finset.notMem_empty i)
    · obtain rfl := Finset.mem_singleton.mp hi
      obtain rfl := Option.some.inj hv
      exact absurd hlt (by decide)
  exact ⟨(register_joins hreach).1.mpr hwrites, (register_joins hreach).2 hwrites hnever⟩

end Exchange

end ClawDesk.Agents
