import ClawDesk.Foundations.Broadcast
import ClawDesk.Foundations.TreeOrder
import Mathlib.Data.Prod.Lex
import Mathlib.Order.Hom.Basic
import Mathlib.Data.String.Basic

/-!
# The replicated growable array

An ordered sequence.  Every element names the element it was inserted after;
among those inserted after the same one, later timestamps come first.  Deleted
elements stay as tombstones.

An insertion scans from behind its predecessor over the siblings of higher
priority.  The scan stops at the first element with another predecessor, so at the
first element that was inserted after one of those siblings.
-/

namespace ClawDesk.Agents

open Foundations

/-- Unique identifier of an element: a logical timestamp and the node for
tie-breaking. -/
structure RgaId where
  timestamp : ℕ
  nodeId : String
  deriving DecidableEq

namespace RgaId

/-- The derived order compares the fields one after the other. -/
def key (id : RgaId) : ℕ ×ₗ String := toLex (id.timestamp, id.nodeId)

theorem key_injective : Function.Injective key := by
  rintro ⟨t, n⟩ ⟨t', n'⟩ h
  obtain ⟨rfl, rfl⟩ := Prod.mk.inj (toLex.injective h)
  rfl

instance : LinearOrder RgaId := LinearOrder.lift' key key_injective

theorem lt_iff {a b : RgaId} : a < b ↔
    a.timestamp < b.timestamp ∨ (a.timestamp = b.timestamp ∧ a.nodeId < b.nodeId) :=
  Prod.Lex.toLex_lt_toLex

end RgaId

/-- An element of the array. -/
structure RgaElement (T : Type) where
  id : RgaId
  value : T
  /-- Whether this element has been deleted. -/
  deleted : Bool
  /-- The element this was inserted after, if not at the head. -/
  after : Option RgaId
  deriving DecidableEq

/-- A replicated growable array. -/
structure Rga (T : Type) where
  elements : List (RgaElement T)
  /-- Lamport clock of this node. -/
  clock : ℕ
  nodeId : String

namespace Rga

variable {T : Type}

def new (nodeId : String) : Rga T where
  elements := []
  clock := 0
  nodeId := nodeId

/-- The position behind the element `after`, or the head. -/
def afterPos (elements : List (RgaElement T)) : Option RgaId → ℕ
  | none => 0
  | some aid => ((elements.findIdx? fun e => e.id == aid).map (· + 1)).getD elements.length

/-- How many elements the scan skips: siblings that do not have a lower id. -/
def skipSiblings (after : Option RgaId) (id : RgaId) : List (RgaElement T) → ℕ
  | [] => 0
  | existing :: rest =>
      if existing.after ≠ after then 0
      else if existing.id < id then 0
      else skipSiblings after id rest + 1

/-- Where an element is put. -/
def insertPos (elements : List (RgaElement T)) (element : RgaElement T) : ℕ :=
  afterPos elements element.after +
    skipSiblings element.after element.id (elements.drop (afterPos elements element.after))

/-- `self.elements.insert(insert_pos, element)`. -/
def place (elements : List (RgaElement T)) (element : RgaElement T) : List (RgaElement T) :=
  elements.insertIdx (insertPos elements element) element

/-- Insert a value after the element `afterId`, or at the head.  Returns the
element's id. -/
def insertAfter (rga : Rga T) (afterId : Option RgaId) (value : T) : RgaId × Rga T :=
  let id : RgaId := ⟨rga.clock + 1, rga.nodeId⟩
  (id, { rga with
    clock := rga.clock + 1
    elements := place rga.elements ⟨id, value, false, afterId⟩ })

/-- The loop of `delete`: the first element with the id that is not deleted. -/
def markDeleted (id : RgaId) : List (RgaElement T) → Bool × List (RgaElement T)
  | [] => (false, [])
  | elem :: rest =>
      if elem.id = id ∧ elem.deleted = false then (true, { elem with deleted := true } :: rest)
      else ((markDeleted id rest).1, elem :: (markDeleted id rest).2)

/-- Delete the element with the given id.  Returns whether there was one. -/
def delete (rga : Rga T) (id : RgaId) : Bool × Rga T :=
  ((markDeleted id rga.elements).1, { rga with elements := (markDeleted id rga.elements).2 })

/-- The elements that are not deleted, in order. -/
def toVec (rga : Rga T) : List T := (rga.elements.filter fun e => !e.deleted).map (·.value)

/-- Number of elements that are not deleted. -/
def len (rga : Rga T) : ℕ := (rga.elements.filter fun e => !e.deleted).length

def isEmpty (rga : Rga T) : Bool := rga.len == 0

/-- Update the clock after observing a remote timestamp. -/
def observeTimestamp (rga : Rga T) (remoteTs : ℕ) : Rga T :=
  { rga with clock := max rga.clock remoteTs + 1 }

/-- Apply a remote insert operation. -/
def applyInsert (rga : Rga T) (element : RgaElement T) : Rga T :=
  { rga.observeTimestamp element.id.timestamp with elements := place rga.elements element }

/-- Apply a remote delete operation. -/
def applyDelete (rga : Rga T) (id : RgaId) : Rga T := (rga.delete id).2

/-! ### Where an element is put -/

/-- The ids of the elements, in order. -/
def ids (elements : List (RgaElement T)) : List RgaId := elements.map (·.id)

theorem insertIdx_append (front back : List (RgaElement T)) (e : RgaElement T) :
    (front ++ back).insertIdx front.length e = front ++ e :: back := by
  induction front with
  | nil => rfl
  | cons x front ih => simp [ih]

/-- What is before `afterPos` ends with the predecessor. -/
theorem exists_afterPos {elements : List (RgaElement T)} {after : Option RgaId}
    (present : ∀ a ∈ after, a ∈ ids elements) :
    ∃ front back, elements = front ++ back ∧ afterPos elements after = front.length ∧
      front.getLast?.map (·.id) = after := by
  cases after with
  | none => exact ⟨[], elements, rfl, rfl, rfl⟩
  | some aid =>
      obtain ⟨x, hx, hid⟩ := List.mem_map.mp (present aid rfl)
      cases hfind : elements.findIdx? fun e => e.id == aid with
      | none =>
          have := List.findIdx?_eq_none_iff.mp hfind x hx
          simp [hid] at this
      | some i =>
          obtain ⟨hi, hfound, -⟩ := List.findIdx?_eq_some_iff_getElem.mp hfind
          refine ⟨elements.take (i + 1), elements.drop (i + 1), by simp, ?_, ?_⟩
          · simp [afterPos, hfind]
            omega
          · simp [List.getLast?_take, hi]
            simpa using hfound

/-- What the scan skips, and where it stops. -/
theorem exists_skipSiblings (after : Option RgaId) (id : RgaId) (back : List (RgaElement T)) :
    ∃ siblings rest, back = siblings ++ rest ∧
      skipSiblings after id back = siblings.length ∧
      (∀ x ∈ siblings, x.after = after ∧ ¬ x.id < id) ∧
      ∀ x, rest.head? = some x → x.after = after → x.id < id := by
  induction back with
  | nil => exact ⟨[], [], rfl, rfl, by simp, by simp⟩
  | cons existing back ih =>
      rw [skipSiblings]
      split
      · next hafter =>
          refine ⟨[], existing :: back, rfl, rfl, by simp, ?_⟩
          rintro x ⟨⟩ h
          exact absurd h hafter
      · next hafter =>
          split
          · next hlt =>
              refine ⟨[], existing :: back, rfl, rfl, by simp, ?_⟩
              rintro x ⟨⟩ -
              exact hlt
          · next hlt =>
              obtain ⟨siblings, rest, rfl, hskip, hsiblings, hrest⟩ := ih
              refine ⟨existing :: siblings, rest, rfl, by simp [hskip], ?_, hrest⟩
              intro x hx
              rcases List.mem_cons.mp hx with rfl | hx
              · exact ⟨not_not.mp hafter, hlt⟩
              · exact hsiblings x hx

/-- **An element is put behind its predecessor and the siblings that directly
follow it and do not have a lower id.** -/
theorem exists_place {elements : List (RgaElement T)} {e : RgaElement T}
    (present : ∀ a ∈ e.after, a ∈ ids elements) :
    ∃ front siblings rest, elements = front ++ (siblings ++ rest) ∧
      place elements e = front ++ (siblings ++ e :: rest) ∧
      front.getLast?.map (·.id) = e.after ∧
      (∀ x ∈ siblings, x.after = e.after ∧ ¬ x.id < e.id) ∧
      ∀ x, rest.head? = some x → x.after = e.after → x.id < e.id := by
  obtain ⟨front, back, rfl, hpos, hlast⟩ := exists_afterPos present
  obtain ⟨siblings, rest, rfl, hskip, hsiblings, hrest⟩ := exists_skipSiblings e.after e.id back
  refine ⟨front, siblings, rest, rfl, ?_, hlast, hsiblings, hrest⟩
  rw [place, insertPos, hpos, List.drop_left, hskip, ← List.append_assoc, ← List.length_append,
    insertIdx_append, List.append_assoc]

theorem mem_place {elements : List (RgaElement T)} {e x : RgaElement T}
    (present : ∀ a ∈ e.after, a ∈ ids elements) :
    x ∈ place elements e ↔ x = e ∨ x ∈ elements := by
  obtain ⟨front, siblings, rest, rfl, hplace, -⟩ := exists_place present
  rw [hplace]
  simp only [List.mem_append, List.mem_cons]
  tauto

/-! ### What is deleted -/

/-- Mark an element if it is the one. -/
def markIf (id : RgaId) (x : RgaElement T) : RgaElement T :=
  if x.id = id then { x with deleted := true } else x

@[simp] theorem markIf_id (id : RgaId) (x : RgaElement T) : (markIf id x).id = x.id := by
  rw [markIf]
  split <;> rfl

@[simp] theorem markIf_after (id : RgaId) (x : RgaElement T) : (markIf id x).after = x.after := by
  rw [markIf]
  split <;> rfl

/-- What the elements were before marking: they differ in the mark only. -/
theorem mem_map_markIf {id : RgaId} {elements : List (RgaElement T)} {x : RgaElement T} :
    x ∈ elements.map (markIf id) ↔ ∃ b, { x with deleted := b } ∈ elements ∧
      (x.deleted = true ↔ x.id = id ∨ b = true) := by
  rw [List.mem_map]
  constructor
  · rintro ⟨y, hy, rfl⟩
    refine ⟨y.deleted, ?_⟩
    rw [markIf]
    split
    · next h => exact ⟨hy, by simp [h]⟩
    · next h => exact ⟨hy, by simp [h]⟩
  · rintro ⟨b, hy, hb⟩
    refine ⟨_, hy, ?_⟩
    rw [markIf]
    split
    · next h =>
        have : x.deleted = true := hb.mpr (.inl h)
        rw [← this]
    · next h =>
        have : x.deleted = b := by
          rw [Bool.eq_iff_iff, hb]
          exact or_iff_right h
        rw [← this]

/-- With distinct ids, the loop marks the element with the id. -/
theorem markDeleted_eq_map {id : RgaId} {elements : List (RgaElement T)}
    (nodup : (ids elements).Nodup) : (markDeleted id elements).2 = elements.map (markIf id) := by
  induction elements with
  | nil => rfl
  | cons x rest ih =>
      obtain ⟨hx, hrest⟩ := List.nodup_cons.mp nodup
      rw [markDeleted]
      split
      · next h =>
          obtain ⟨rfl, -⟩ := h
          have hother : rest.map (markIf x.id) = rest := by
            conv_rhs => rw [← List.map_id rest]
            refine List.map_congr_left fun y hy => ?_
            have hne : y.id ≠ x.id := fun heq => hx (List.mem_map.mpr ⟨y, hy, heq⟩)
            rw [markIf, if_neg hne, id_eq]
          simp [markIf, hother]
      · next h =>
          rw [ih hrest, List.map_cons, markIf]
          split
          · next hid =>
              have hdeleted : x.deleted = true := by simpa [hid] using h
              rw [← hdeleted]
          · rfl

end Rga

end ClawDesk.Agents
