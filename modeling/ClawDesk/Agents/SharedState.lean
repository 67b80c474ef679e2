import ClawDesk.Foundations.Fold
import ClawDesk.Foundations.TextStore
import ClawDesk.Runtime.Types
import Mathlib.Logic.Function.Basic

/-!
# Shared state of agents

Agents that work together share a key-value store.  A handle belongs to a scope and
to a namespace in it, and each namespace is meant to be a map of its own.  The store
is one flat map whose keys are put together from the scope, the namespace and the key
with `::` and `/` between them, whatever characters the three have.

`Mirrors` says that the store is the private maps, under these keys.  It goes on being
so just where every key that is created can be taken apart again in one way only
(`Plain`), and no scope that is listed or emptied is the beginning of another one's
keys (`shared_conforms_iff`).

An operation holds the lock of the store throughout, so the operations of all handles
come one after the other.
-/

namespace ClawDesk.Agents

open ClawDesk.Foundations
open ClawDesk.Runtime (Instant)

variable {V : Type}

/-! ### The store -/

/-- A single entry in the shared state store. -/
structure StateEntry (V : Type) where
  value : V
  writtenBy : String
  writtenAt : Instant
  version : ℕ
  deriving DecidableEq

/-- In-memory shared state backend: keys are stored as `{scope}::{key}` in a flat map. -/
structure InMemorySharedState (V : Type) where
  store : AList fun _ : String => StateEntry V

namespace InMemorySharedState

def new : InMemorySharedState V := ⟨∅⟩

def scopedKey (scope key : String) : String := scope ++ "::" ++ key

/-- Get a state entry by scope and key. -/
def get (b : InMemorySharedState V) (scope key : String) : Option (StateEntry V) :=
  b.store.lookup (scopedKey scope key)

/-- Set a state entry. -/
def set (b : InMemorySharedState V) (scope key : String) (entry : StateEntry V) :
    InMemorySharedState V :=
  let entry := match b.get scope key with
    | some existing => { entry with version := existing.version + 1 }
    | none => entry
  ⟨b.store.insert (scopedKey scope key) entry⟩

/-- Compare-and-swap: set only if current value matches `expected`. -/
def cas [DecidableEq V] (b : InMemorySharedState V) (scope key : String) (expected : Option V)
    (newEntry : StateEntry V) : Bool × InMemorySharedState V :=
  match expected, b.get scope key with
  | none, none => (true, ⟨b.store.insert (scopedKey scope key) newEntry⟩)
  | some exp, some cur =>
      if cur.value = exp then
        (true, ⟨b.store.insert (scopedKey scope key)
          { newEntry with version := cur.version + 1 }⟩)
      else (false, b)
  | _, _ => (false, b)

/-- Delete a key from a scope. -/
def delete (b : InMemorySharedState V) (scope key : String) : Bool × InMemorySharedState V :=
  ((b.get scope key).isSome, ⟨b.store.erase (scopedKey scope key)⟩)

/-- List keys in a scope matching a prefix. -/
def listKeys (b : InMemorySharedState V) (scope pre : String) : List String :=
  let scopePrefix := scope ++ "::"
  let fullPrefix := scopePrefix ++ pre
  (b.store.keys.filter fun k => startsWith k fullPrefix).map fun k => stripPrefix k scopePrefix

/-- Get all key-value pairs in a scope. -/
def snapshot (b : InMemorySharedState V) (scope : String) : List (String × V) :=
  let scopePrefix := scope ++ "::"
  (b.store.entries.filter fun e => startsWith e.1 scopePrefix).map fun e =>
    (stripPrefix e.1 scopePrefix, e.2.value)

/-- Delete an entire scope. -/
def deleteScope (b : InMemorySharedState V) (scope : String) : InMemorySharedState V :=
  let scopePrefix := scope ++ "::"
  ⟨retain b.store fun k => !startsWith k scopePrefix⟩

end InMemorySharedState

/-! ### Handles -/

/-- Scoped shared state store for multi-agent collaboration. -/
structure SharedAgentState where
  scopeId : String
  /-- Namespace prefix for this agent within the scope. -/
  namespace_ : String
  deriving DecidableEq

namespace SharedAgentState

def fullKey (h : SharedAgentState) (key : String) : String := h.namespace_ ++ "/" ++ key

/-- The entry that a handle writes; the backend manages versioning. -/
def entry (h : SharedAgentState) (value : V) (now : Instant) : StateEntry V :=
  ⟨value, h.namespace_, now, 0⟩

variable (h : SharedAgentState) (b : InMemorySharedState V)

/-- Set a value under this agent's namespace. -/
def set (key : String) (value : V) (now : Instant) : InMemorySharedState V :=
  b.set h.scopeId (h.fullKey key) (h.entry value now)

/-- Get a value from this agent's namespace. -/
def get (key : String) : Option V := (b.get h.scopeId (h.fullKey key)).map StateEntry.value

/-- Get a value from another agent's namespace within the same scope. -/
def getFrom (ns key : String) : Option V :=
  (b.get h.scopeId (ns ++ "/" ++ key)).map StateEntry.value

/-- Compare-and-swap: only set if the current value matches `expected`. -/
def cas [DecidableEq V] (key : String) (expected : Option V) (newValue : V) (now : Instant) :
    Bool × InMemorySharedState V :=
  b.cas h.scopeId (h.fullKey key) expected (h.entry newValue now)

/-- Delete a key from this agent's namespace. -/
def delete (key : String) : Bool × InMemorySharedState V := b.delete h.scopeId (h.fullKey key)

/-- List all keys in this agent's namespace. -/
def listKeys : List String :=
  let pre := h.namespace_ ++ "/"
  (b.listKeys h.scopeId pre).map fun k => stripPrefix k pre

/-- Get a snapshot of all state in this scope. -/
def snapshot : List (String × V) := b.snapshot h.scopeId

/-- Delete the entire scope. -/
def cleanup : InMemorySharedState V := b.deleteScope h.scopeId

end SharedAgentState

/-! ### Keys that can be taken apart -/

/-- A key of a private map: the scope, the namespace, and the key. -/
structure Address where
  scope : String
  space : String
  key : String
  deriving DecidableEq

/-- The key under which the store has it. -/
def Address.flat (t : Address) : String :=
  InMemorySharedState.scopedKey t.scope (t.space ++ "/" ++ t.key)

theorem Address.toList_flat (t : Address) : t.flat.toList =
    t.scope.toList ++ ':' :: ':' :: t.space.toList ++ '/' :: t.key.toList := by
  unfold Address.flat InMemorySharedState.scopedKey
  simp [String.toList_append]

/-- The only `/` after the scope is the separator, and so is the only `::` before that. -/
structure Address.Plain (t : Address) : Prop where
  space : '/' ∉ t.space.toList
  key : '/' ∉ t.key.toList
  scope : ∀ a b, t.scope.toList ++ ':' :: ':' :: t.space.toList = a ++ ':' :: ':' :: b →
    a = t.scope.toList

theorem Address.eq_of_toList {t t' : Address} (hscope : t'.scope.toList = t.scope.toList)
    (hspace : t'.space.toList = t.space.toList) (hkey : t'.key.toList = t.key.toList) :
    t' = t := by
  obtain ⟨scope, space, key⟩ := t
  obtain ⟨scope', space', key'⟩ := t'
  obtain rfl := String.toList_inj.mp hscope
  obtain rfl := String.toList_inj.mp hspace
  obtain rfl := String.toList_inj.mp hkey
  rfl

/-- A slash before the last one is in the scope, and then the scope can be cut earlier. -/
theorem Address.Plain.not_earlier {t : Address} (h : t.Plain) {s n c : List Char} :
    s ++ ':' :: ':' :: n ++ '/' :: c ≠ t.scope.toList ++ ':' :: ':' :: t.space.toList := by
  intro heq
  rcases List.append_eq_append_iff.mp heq with ⟨d, hscope, hrest⟩ | ⟨d, -, hrest⟩
  · cases d with
    | nil => simp at hrest
    | cons x d =>
        have hcut := h.scope s (n ++ x :: d ++ ':' :: ':' :: t.space.toList) (by simp [hscope])
        have hlength := congrArg List.length hscope
        rw [← hcut] at hlength
        simp only [List.length_append, List.length_cons] at hlength
        omega
  · have hmem : '/' ∈ ':' :: ':' :: t.space.toList := by
      rw [hrest]
      simp
    simp only [List.mem_cons, Char.reduceEq, false_or] at hmem
    exact h.space hmem

/-- A plain key can be taken apart in one way only. -/
theorem Address.Plain.unique {t t' : Address} (h : t.Plain) (hflat : t'.flat = t.flat) :
    t' = t := by
  have hlist := congrArg String.toList hflat
  rw [toList_flat, toList_flat] at hlist
  have hsame : t'.scope.toList ++ ':' :: ':' :: t'.space.toList =
      t.scope.toList ++ ':' :: ':' :: t.space.toList ∧ t'.key.toList = t.key.toList := by
    rcases List.append_eq_append_iff.mp hlist with ⟨c, hleft, hright⟩ | ⟨c, hleft, hright⟩
    · cases c with
      | nil => exact ⟨by simpa using hleft.symm, by simpa using hright⟩
      | cons x c =>
          obtain ⟨rfl, -⟩ := List.cons.inj hright
          exact absurd hleft.symm h.not_earlier
    · cases c with
      | nil => exact ⟨by simpa using hleft, by simpa using hright.symm⟩
      | cons x c =>
          obtain ⟨-, hkey⟩ := List.cons.inj hright
          exact absurd (by rw [hkey]; simp) h.key
  have hscope := h.scope _ _ hsame.1.symm
  refine eq_of_toList hscope ?_ hsame.2
  have hrest := hsame.1
  rw [hscope] at hrest
  simpa using hrest

/-- **The plain keys are those that can be taken apart in one way only.** -/
theorem Address.plain_iff {t : Address} : t.Plain ↔ ∀ t' : Address, t'.flat = t.flat → t' = t := by
  refine ⟨fun h t' => h.unique, fun h => ⟨fun hspace => ?_, fun hkey => ?_, fun a b hcut => ?_⟩⟩
  · obtain ⟨n₁, n₂, hn⟩ := List.append_of_mem hspace
    have heq := h ⟨t.scope, String.ofList n₁, String.ofList (n₂ ++ '/' :: t.key.toList)⟩
      (String.toList_inj.mp (by simp [toList_flat, hn]))
    have hlength := congrArg (fun t => t.key.toList.length) heq
    simp only [String.toList_ofList, List.length_append, List.length_cons] at hlength
    omega
  · obtain ⟨k₁, k₂, hk⟩ := List.append_of_mem hkey
    have heq := h ⟨t.scope, String.ofList (t.space.toList ++ '/' :: k₁), String.ofList k₂⟩
      (String.toList_inj.mp (by simp [toList_flat, hk]))
    have hlength := congrArg (fun t => t.key.toList.length) heq
    simp only [String.toList_ofList, hk, List.length_append, List.length_cons] at hlength
    omega
  · have heq := h ⟨String.ofList a, String.ofList b, t.key⟩
      (String.toList_inj.mp (by simp [toList_flat, hcut]))
    rw [← heq, String.toList_ofList]

/-! ### The private maps -/

/-- The key of a handle's own namespace. -/
def SharedAgentState.address (h : SharedAgentState) (key : String) : Address :=
  ⟨h.scopeId, h.namespace_, key⟩

/-- What the store has under a key of a private map. -/
def InMemorySharedState.valueAt (b : InMemorySharedState V) (t : Address) : Option V :=
  (b.store.lookup t.flat).map StateEntry.value

namespace InMemorySharedState

variable {b : InMemorySharedState V} {t : Address} {scope : String}

/-- Every stored key can be taken apart in one way only. -/
def Tidy (b : InMemorySharedState V) : Prop := ∀ k ∈ b.store, ∃ t : Address, t.Plain ∧ t.flat = k

/-- What is stored under a scope's prefix has a namespace and a key after it. -/
def Whole (b : InMemorySharedState V) (scope : String) : Prop :=
  ∀ rest, scope ++ "::" ++ rest ∈ b.store → '/' ∈ rest.toList

theorem exists_of_slash {s : String} (h : '/' ∈ s.toList) :
    ∃ space key, s = space ++ "/" ++ key := by
  obtain ⟨space, key, hs⟩ := List.append_of_mem h
  refine ⟨String.ofList space, String.ofList key, String.toList_inj.mp ?_⟩
  simp [String.toList_append, hs]

theorem slash_mem (space key : String) : '/' ∈ (space ++ "/" ++ key).toList := by
  simp [String.toList_append]

theorem valueAt_eq_some {v : V} :
    b.valueAt t = some v ↔ ∃ e, b.store.lookup t.flat = some e ∧ e.value = v := by
  unfold valueAt
  rw [Option.map_eq_some_iff]

theorem flat_mem_of_valueAt (h : b.valueAt t ≠ none) : t.flat ∈ b.store := by
  rw [← AList.lookup_isSome, Option.isSome_iff_ne_none]
  intro hnone
  apply h
  rw [valueAt, hnone, Option.map_none]

theorem Tidy.plain (hb : Tidy b) (h : b.valueAt t ≠ none) : t.Plain := by
  obtain ⟨t₀, hplain, hflat⟩ := hb _ (flat_mem_of_valueAt h)
  obtain rfl := hplain.unique hflat.symm
  exact hplain

/-- Of the keys that are put together the same way the store has the value of one only. -/
theorem Tidy.valueAt_of_flat {t' : Address} (hb : Tidy b) (hflat : t'.flat = t.flat)
    (hne : t' ≠ t) : b.valueAt t' = none := by
  by_contra h
  exact hne ((hb.plain h).unique hflat.symm).symm

theorem valueAt_insert (e : StateEntry V) (t' : Address) :
    valueAt ⟨b.store.insert t.flat e⟩ t' =
      if t'.flat = t.flat then some e.value else b.valueAt t' := by
  unfold valueAt
  split_ifs with hflat
  · rw [hflat, AList.lookup_insert, Option.map_some]
  · rw [AList.lookup_insert_ne hflat]

/-- A write changes one private map just when its key is plain. -/
theorem Tidy.valueAt_insert_iff (hb : Tidy b) (e : StateEntry V) :
    valueAt ⟨b.store.insert t.flat e⟩ =
      Function.update b.valueAt t (some e.value) ↔ t.Plain := by
  constructor
  · intro h
    rw [Address.plain_iff]
    intro t' hflat
    by_contra hne
    have hvalue := congrFun h t'
    rw [valueAt_insert, if_pos hflat, Function.update_of_ne hne,
      hb.valueAt_of_flat hflat hne] at hvalue
    cases hvalue
  · intro h
    funext t'
    rw [valueAt_insert]
    split_ifs with hflat
    · rw [h.unique hflat, Function.update_self]
    · rw [Function.update_of_ne]
      rintro rfl
      exact hflat rfl

theorem Tidy.valueAt_erase (hb : Tidy b) :
    valueAt ⟨b.store.erase t.flat⟩ = Function.update b.valueAt t none := by
  funext t'
  by_cases hflat : t'.flat = t.flat
  · have hgone : valueAt ⟨b.store.erase t.flat⟩ t' = none := by
      unfold valueAt
      rw [hflat, AList.lookup_erase, Option.map_none]
    rw [hgone]
    by_cases heq : t' = t
    · rw [heq, Function.update_self]
    · rw [Function.update_of_ne heq, hb.valueAt_of_flat hflat heq]
  · have hne : t' ≠ t := by
      rintro rfl
      exact hflat rfl
    rw [Function.update_of_ne hne]
    unfold valueAt
    rw [AList.lookup_erase_ne hflat]

theorem Tidy.insert (hb : Tidy b) (h : t.Plain) (e : StateEntry V) :
    Tidy (⟨b.store.insert t.flat e⟩ : InMemorySharedState V) := by
  intro k hk
  rcases (AList.mem_insert _).mp hk with rfl | hk
  · exact ⟨t, h, rfl⟩
  · exact hb k hk

theorem Tidy.erase (hb : Tidy b) (k : String) :
    Tidy (⟨b.store.erase k⟩ : InMemorySharedState V) := by
  intro k' hk'
  rw [AList.mem_erase] at hk'
  exact hb k' hk'.2

theorem startsWith_flat (t : Address) : startsWith t.flat (t.scope ++ "::") = true :=
  startsWith_append _ _

theorem valueAt_deleteScope (t : Address) : (b.deleteScope scope).valueAt t =
    if startsWith t.flat (scope ++ "::") then none else b.valueAt t := by
  unfold valueAt deleteScope
  split_ifs with hstarts
  · rw [lookup_retain_of_neg (by rw [hstarts, Bool.not_true]), Option.map_none]
  · rw [lookup_retain_of_pos (by simpa using hstarts)]

theorem Tidy.deleteScope (hb : Tidy b) : Tidy (b.deleteScope scope) := by
  intro k hk
  rw [← AList.lookup_isSome, Option.isSome_iff_exists] at hk
  obtain ⟨e, he⟩ := hk
  apply hb
  rw [← AList.lookup_isSome, (lookup_retain.mp he).1, Option.isSome_some]

/-- Emptying a scope empties the private maps of it, and no others, just when it is whole. -/
theorem Tidy.deleteScope_iff (hb : Tidy b) :
    (∀ t, (b.deleteScope scope).valueAt t = if t.scope = scope then none else b.valueAt t) ↔
      Whole b scope := by
  constructor
  · intro h rest hmem
    obtain ⟨t, -, hflat⟩ := hb _ hmem
    have hvalue := h t
    rw [valueAt_deleteScope, hflat, if_pos (startsWith_append _ _)] at hvalue
    by_cases hscope : t.scope = scope
    · have hrest : t.space ++ "/" ++ t.key = rest := by
        rw [Address.flat, scopedKey, hscope] at hflat
        exact append_left_cancel hflat
      rw [← hrest]
      exact slash_mem _ _
    · rw [if_neg hscope] at hvalue
      rw [← hflat, ← AList.lookup_isSome] at hmem
      obtain ⟨e, he⟩ := Option.isSome_iff_exists.mp hmem
      rw [valueAt, he] at hvalue
      cases hvalue
  · intro h t
    rw [valueAt_deleteScope]
    by_cases hscope : t.scope = scope
    · rw [if_pos hscope, ← hscope, if_pos (startsWith_flat t)]
    · rw [if_neg hscope]
      split_ifs with hstarts
      · symm
        by_contra hstored
        obtain ⟨rest, hrest⟩ := startsWith_iff.mp hstarts
        have hmem := flat_mem_of_valueAt hstored
        rw [hrest] at hmem
        obtain ⟨space, key, rfl⟩ := exists_of_slash (h rest hmem)
        have heq : (⟨scope, space, key⟩ : Address) = t := (hb.plain hstored).unique hrest.symm
        exact hscope (congrArg Address.scope heq).symm
      · rfl

theorem mem_snapshot {name : String} {v : V} : (name, v) ∈ b.snapshot scope ↔
    ∃ e, b.store.lookup (scope ++ "::" ++ name) = some e ∧ e.value = v := by
  unfold snapshot
  simp only [List.mem_map, List.mem_filter, Prod.mk.injEq]
  constructor
  · rintro ⟨⟨k, e⟩, ⟨hmem, hstarts⟩, rfl, rfl⟩
    obtain ⟨rest, rfl⟩ := startsWith_iff.mp hstarts
    rw [stripPrefix_append]
    exact ⟨e, AList.mem_lookup_iff.mpr hmem, rfl⟩
  · rintro ⟨e, he, rfl⟩
    exact ⟨⟨_, e⟩, ⟨AList.mem_lookup_iff.mp he, startsWith_append _ _⟩, stripPrefix_append _ _, rfl⟩

/-- A snapshot of a scope is the private maps of it just when it is whole. -/
theorem snapshot_iff : (∀ name v, (name, v) ∈ b.snapshot scope ↔
    ∃ space key, name = space ++ "/" ++ key ∧ b.valueAt ⟨scope, space, key⟩ = some v) ↔
      Whole b scope := by
  constructor
  · intro h rest hmem
    rw [← AList.lookup_isSome] at hmem
    obtain ⟨e, he⟩ := Option.isSome_iff_exists.mp hmem
    obtain ⟨space, key, rfl, -⟩ := (h rest e.value).mp (mem_snapshot.mpr ⟨e, he, rfl⟩)
    exact slash_mem _ _
  · intro h name v
    rw [mem_snapshot]
    constructor
    · rintro ⟨e, he, rfl⟩
      have hmem : scope ++ "::" ++ name ∈ b.store := by
        rw [← AList.lookup_isSome, he, Option.isSome_some]
      obtain ⟨space, key, rfl⟩ := exists_of_slash (h name hmem)
      exact ⟨space, key, rfl, valueAt_eq_some.mpr ⟨e, he, rfl⟩⟩
    · rintro ⟨space, key, rfl, hvalue⟩
      exact valueAt_eq_some.mp hvalue

end InMemorySharedState

/-! ### What the operations of a handle do -/

namespace SharedAgentState

variable {h : SharedAgentState} {b : InMemorySharedState V} {key : String}

theorem set_eq (v : V) (now : Instant) : ∃ e : StateEntry V, e.value = v ∧
    h.set b key v now = ⟨b.store.insert (h.address key).flat e⟩ := by
  unfold SharedAgentState.set InMemorySharedState.set
  cases b.get h.scopeId (h.fullKey key) with
  | none => exact ⟨_, rfl, rfl⟩
  | some existing => exact ⟨_, rfl, rfl⟩

theorem cas_of_eq [DecidableEq V] {expected : Option V} (heq : b.valueAt (h.address key) = expected)
    (v : V) (now : Instant) : ∃ e : StateEntry V, e.value = v ∧
      h.cas b key expected v now = (true, ⟨b.store.insert (h.address key).flat e⟩) := by
  have hget : b.valueAt (h.address key) =
    (b.get h.scopeId (h.fullKey key)).map StateEntry.value := rfl
  rw [hget] at heq
  unfold SharedAgentState.cas InMemorySharedState.cas
  subst heq
  cases b.get h.scopeId (h.fullKey key) with
  | none => exact ⟨_, rfl, rfl⟩
  | some current =>
      dsimp only [Option.map_some]
      rw [if_pos rfl]
      exact ⟨_, rfl, rfl⟩

theorem cas_of_ne [DecidableEq V] {expected : Option V} (hne : b.valueAt (h.address key) ≠ expected)
    (v : V) (now : Instant) : h.cas b key expected v now = (false, b) := by
  have hget : b.valueAt (h.address key) =
    (b.get h.scopeId (h.fullKey key)).map StateEntry.value := rfl
  rw [hget] at hne
  unfold SharedAgentState.cas InMemorySharedState.cas
  cases hcurrent : b.get h.scopeId (h.fullKey key) with
  | none => cases expected with
    | none => exact absurd (by rw [hcurrent]; rfl) hne
    | some v' => rfl
  | some current => cases expected with
    | none => rfl
    | some v' =>
        have hvalue : current.value ≠ v' := by
          rintro rfl
          exact hne (by rw [hcurrent]; rfl)
        dsimp only
        rw [if_neg hvalue]

theorem get_eq : h.get b key = b.valueAt (h.address key) := rfl

theorem getFrom_eq (space : String) : h.getFrom b space key = b.valueAt ⟨h.scopeId, space, key⟩ :=
  rfl

theorem delete_eq : (h.delete b key).2 = ⟨b.store.erase (h.address key).flat⟩ := rfl

theorem delete_fst : (h.delete b key).1 = (b.valueAt (h.address key)).isSome :=
  Option.isSome_map.symm

theorem mem_listKeys : key ∈ h.listKeys b ↔ (b.valueAt (h.address key)).isSome := by
  have hkey : (b.valueAt (h.address key)).isSome ↔ (h.address key).flat ∈ b.store := by
    rw [InMemorySharedState.valueAt, Option.isSome_map, AList.lookup_isSome]
  have hflat (k : String) :
      (h.address k).flat = h.scopeId ++ "::" ++ (h.namespace_ ++ "/") ++ k := by
    simp only [Address.flat, InMemorySharedState.scopedKey, address, String.append_assoc]
  have hstrip (k : String) :
      stripPrefix (stripPrefix (h.scopeId ++ "::" ++ (h.namespace_ ++ "/") ++ k)
        (h.scopeId ++ "::")) (h.namespace_ ++ "/") = k := by
    rw [show h.scopeId ++ "::" ++ (h.namespace_ ++ "/") ++ k =
      h.scopeId ++ "::" ++ (h.namespace_ ++ "/" ++ k) from String.append_assoc]
    rw [stripPrefix_append, stripPrefix_append]
  rw [hkey]
  unfold SharedAgentState.listKeys InMemorySharedState.listKeys
  simp only [List.map_map, List.mem_map, List.mem_filter, Function.comp_apply]
  constructor
  · rintro ⟨k, ⟨hmem, hstarts⟩, rfl⟩
    obtain ⟨rest, rfl⟩ := startsWith_iff.mp hstarts
    rw [hstrip, hflat]
    exact hmem
  · intro hmem
    rw [hflat] at hmem
    exact ⟨_, ⟨hmem, startsWith_append _ _⟩, hstrip key⟩

end SharedAgentState

/-! ### Runs -/

/-- An operation of a handle. -/
inductive SharedOp (V : Type) where
  | set (h : SharedAgentState) (key : String) (value : V) (now : Instant)
  | get (h : SharedAgentState) (key : String)
  | getFrom (h : SharedAgentState) (space key : String)
  | cas (h : SharedAgentState) (key : String) (expected : Option V) (newValue : V) (now : Instant)
  | delete (h : SharedAgentState) (key : String)
  | listKeys (h : SharedAgentState)
  | snapshot (h : SharedAgentState)
  | cleanup (h : SharedAgentState)

/-- The store, the private maps as their own operations make them, and what the last swap
of a key expected to find there, when nothing else has written that key since. -/
structure SharedRun (V : Type) where
  backend : InMemorySharedState V
  spaces : Address → Option V
  swapped : Address → Option (Option V)

namespace SharedRun

def start : SharedRun V := ⟨InMemorySharedState.new, fun _ => none, fun _ => none⟩

def step [DecidableEq V] (r : SharedRun V) : SharedOp V → SharedRun V
  | .set h key value now =>
      ⟨h.set r.backend key value now, Function.update r.spaces (h.address key) (some value),
        Function.update r.swapped (h.address key) none⟩
  | .cas h key expected newValue now =>
      let backend := (h.cas r.backend key expected newValue now).2
      if r.spaces (h.address key) = expected then
        ⟨backend, Function.update r.spaces (h.address key) (some newValue),
          Function.update r.swapped (h.address key) (some expected)⟩
      else { r with backend := backend }
  | .delete h key =>
      ⟨(h.delete r.backend key).2, Function.update r.spaces (h.address key) none,
        Function.update r.swapped (h.address key) none⟩
  | .cleanup h =>
      ⟨h.cleanup r.backend, fun t => if t.scope = h.scopeId then none else r.spaces t,
        fun t => if t.scope = h.scopeId then none else r.swapped t⟩
  | .get .. | .getFrom .. | .listKeys .. | .snapshot .. => r

/-- The store has the private maps. -/
def Mirrors (r : SharedRun V) : Prop := ∀ t, r.backend.valueAt t = r.spaces t

/-- An operation answers as the private maps do, and of the swaps that expect the same no
second one succeeds. -/
def Answers [DecidableEq V] (r : SharedRun V) : SharedOp V → Prop
  | .get h key => h.get r.backend key = r.spaces (h.address key)
  | .getFrom h space key => h.getFrom r.backend space key = r.spaces ⟨h.scopeId, space, key⟩
  | .cas h key expected newValue now =>
      let swaps := (h.cas r.backend key expected newValue now).1 = true
      (swaps ↔ r.spaces (h.address key) = expected) ∧
        (swaps → r.swapped (h.address key) ≠ some expected)
  | .delete h key => (h.delete r.backend key).1 = (r.spaces (h.address key)).isSome
  | .listKeys h => ∀ key, key ∈ h.listKeys r.backend ↔ (r.spaces (h.address key)).isSome
  | .snapshot h => ∀ name v, (name, v) ∈ h.snapshot r.backend ↔
      ∃ space key, name = space ++ "/" ++ key ∧ r.spaces ⟨h.scopeId, space, key⟩ = some v
  | .set .. | .cleanup .. => True

/-- An operation answers as the private maps do, and leaves the store with their content. -/
def Conforms [DecidableEq V] (r : SharedRun V) (op : SharedOp V) : Prop :=
  r.Answers op ∧ (r.step op).Mirrors

/-- A key that is created is plain, a swap is not the second one that finds the value it
expects, and a scope that is listed or emptied is whole. -/
def Regular (r : SharedRun V) : SharedOp V → Prop
  | .set h key _ _ => (h.address key).Plain
  | .cas h key expected _ _ =>
      (expected = none → r.backend.valueAt (h.address key) = none → (h.address key).Plain) ∧
        (r.backend.valueAt (h.address key) = expected →
          r.swapped (h.address key) ≠ some expected)
  | .snapshot h | .cleanup h => r.backend.Whole h.scopeId
  | .get .. | .getFrom .. | .delete .. | .listKeys .. => True

/-- The invariant of regular runs. -/
structure Inv (r : SharedRun V) : Prop where
  mirrors : r.Mirrors
  tidy : r.backend.Tidy

variable {r : SharedRun V} {op : SharedOp V}

theorem Inv.start : (start : SharedRun V).Inv where
  mirrors := by
    intro t
    rfl
  tidy := by
    intro k hk
    cases hk

theorem mirrors_iff : r.Mirrors ↔ r.backend.valueAt = r.spaces := funext_iff.symm

theorem Inv.valueAt_eq (hr : r.Inv) : r.backend.valueAt = r.spaces := mirrors_iff.mp hr.mirrors

variable [DecidableEq V]

theorem Inv.conforms_iff_regular (hr : r.Inv) : r.Conforms op ↔ r.Regular op := by
  cases op with
  | set h key v now =>
      obtain ⟨e, rfl, hset⟩ := h.set_eq v now
      simp only [Conforms, Answers, Regular, true_and, mirrors_iff, step]
      rw [hset, ← hr.valueAt_eq]
      exact hr.tidy.valueAt_insert_iff e
  | get h key =>
      refine iff_of_true ⟨?_, hr.mirrors⟩ trivial
      exact SharedAgentState.get_eq.trans (hr.mirrors _)
  | getFrom h space key =>
      refine iff_of_true ⟨?_, hr.mirrors⟩ trivial
      exact (SharedAgentState.getFrom_eq space).trans (hr.mirrors _)
  | listKeys h =>
      refine iff_of_true ⟨?_, hr.mirrors⟩ trivial
      intro key
      rw [← hr.mirrors]
      exact SharedAgentState.mem_listKeys
  | snapshot h =>
      simp only [Conforms, Answers, Regular, step, ← hr.valueAt_eq]
      exact (and_iff_left hr.mirrors).trans InMemorySharedState.snapshot_iff
  | cleanup h =>
      simp only [Conforms, Answers, Regular, true_and, Mirrors, step, ← hr.valueAt_eq]
      exact hr.tidy.deleteScope_iff
  | delete h key =>
      refine iff_of_true ⟨?_, ?_⟩ trivial
      · exact SharedAgentState.delete_fst.trans (congrArg _ (hr.mirrors _))
      · rw [mirrors_iff]
        simp only [step, SharedAgentState.delete_eq, ← hr.valueAt_eq]
        exact hr.tidy.valueAt_erase
  | cas h key expected v now =>
      simp only [Conforms, Answers, Regular, mirrors_iff, step, ← hr.valueAt_eq]
      by_cases heq : r.backend.valueAt (h.address key) = expected
      · obtain ⟨e, rfl, hcas⟩ := SharedAgentState.cas_of_eq heq v now
        simp only [hcas, heq, if_true, forall_const, true_and]
        rw [hr.tidy.valueAt_insert_iff]
        constructor
        · rintro ⟨hfirst, hplain⟩
          exact ⟨fun _ _ => hplain, hfirst⟩
        · rintro ⟨hplain, hfirst⟩
          refine ⟨hfirst, ?_⟩
          by_cases hnone : expected = none
          · exact hplain hnone hnone
          · exact hr.tidy.plain (by rwa [heq])
      · simp only [SharedAgentState.cas_of_ne heq, heq, if_false]
        refine iff_of_true ⟨⟨by simp, by simp⟩, trivial⟩ ⟨?_, by simp⟩
        rintro rfl hnone
        exact absurd hnone heq

theorem Inv.step (hr : r.Inv) (h : r.Regular op) : (r.step op).Inv := by
  refine ⟨(hr.conforms_iff_regular.mpr h).2, ?_⟩
  cases op with
  | set a key v now =>
      obtain ⟨e, -, hset⟩ := a.set_eq v now
      dsimp only [SharedRun.step]
      rw [hset]
      exact hr.tidy.insert h e
  | get => exact hr.tidy
  | getFrom => exact hr.tidy
  | listKeys => exact hr.tidy
  | snapshot => exact hr.tidy
  | cleanup a => exact hr.tidy.deleteScope
  | delete a key => exact hr.tidy.erase _
  | cas a key expected v now =>
      have hbackend : (r.step (.cas a key expected v now)).backend =
          (a.cas r.backend key expected v now).2 := by
        dsimp only [SharedRun.step]
        split_ifs <;> rfl
      rw [hbackend]
      by_cases heq : r.backend.valueAt (a.address key) = expected
      · obtain ⟨e, -, hcas⟩ := SharedAgentState.cas_of_eq heq v now
        rw [hcas]
        by_cases hnone : expected = none
        · exact hr.tidy.insert (h.1 hnone (heq.trans hnone)) e
        · exact hr.tidy.insert (hr.tidy.plain (by rwa [heq])) e
      · rw [SharedAgentState.cas_of_ne heq]
        exact hr.tidy

end SharedRun

variable [DecidableEq V]

/-- **Every operation of a run answers, and leaves the store, as the private maps of the
namespaces would, just when every one of them is regular in the state that it finds.** -/
theorem shared_conforms_iff (ops : List (SharedOp V)) :
    EachStep SharedRun.step SharedRun.start ops SharedRun.Conforms ↔
      EachStep SharedRun.step SharedRun.start ops SharedRun.Regular :=
  eachStep_congr SharedRun.Inv (A := fun _ _ => True) (fun _ _ _ _ => trivial)
    SharedRun.Inv.start (fun _ _ hr _ h => hr.step h) (fun _ _ hr _ => hr.conforms_iff_regular)

/-! ### A slash in a namespace -/

namespace Slash

/-- An agent whose name is a path, as that of a helper of another agent can be. -/
def helper : SharedAgentState := ⟨"pipeline:abc", "writer/drafts"⟩

def writer : SharedAgentState := ⟨"pipeline:abc", "writer"⟩

def ops : List (SharedOp String) := [.set helper "outline" "mine" 0, .get writer "drafts/outline"]

/-- The writer reads under its own namespace what the helper has written under another. -/
theorem slash_not_conforms :
    writer.get (ops.foldl SharedRun.step SharedRun.start).backend "drafts/outline" = some "mine" ∧
      ¬ EachStep SharedRun.step SharedRun.start ops SharedRun.Conforms := by
  refine ⟨by decide, ?_⟩
  intro h
  have hread : writer.get (helper.set .new "outline" "mine" 0) "drafts/outline" = none :=
    (h [.set helper "outline" "mine" 0] (.get writer "drafts/outline") [] rfl).1
  exact absurd hread (by decide)

end Slash

end ClawDesk.Agents
