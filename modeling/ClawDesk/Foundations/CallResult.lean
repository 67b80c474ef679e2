import Mathlib.Data.List.Infix
import Mathlib.Data.List.Count

/-!
# Calls and their results

A transcript as a sequence of events: a *call* event names some ids and calls some of
them, a *result* event answers one id, and everything else carries no id.  Three
properties say that calls and results fit together:

* `Owned`: every result answers an id that some call event names;
* `unanswered [] es = []`: every id called by the last call event is answered after it;
* `Fresh []`: between two call events no id is answered twice.

Each of them is established by one edit (`dropOrphans`, `answer`, `dropRepeats`), kept
by the later ones, and leaves its edit nothing to do.
-/

namespace ClawDesk.Foundations

/-- The ids of a call event: those it names and, among them, those it calls. -/
structure Calls (ι : Type) where
  known : List ι
  uses : List ι
  uses_known : ∀ id ∈ uses, id ∈ known

inductive CallEvent (ι : Type) where
  | call (calls : Calls ι)
  | result (id : ι)
  | other

namespace CallEvent

variable {ι : Type}

def isCall : CallEvent ι → Bool
  | call _ => true
  | _ => false

/-- The ids an event names. -/
def names : CallEvent ι → List ι
  | call c => c.known
  | _ => []

/-- The ids that the call events name. -/
def known (es : List (CallEvent ι)) : List ι := es.flatMap names

@[simp] theorem known_append (es fs : List (CallEvent ι)) :
    known (es ++ fs) = known es ++ known fs :=
  List.flatMap_append

theorem known_filter {keep : CallEvent ι → Bool} (h : ∀ c, keep (call c) = true)
    (es : List (CallEvent ι)) : known (es.filter keep) = known es := by
  induction es with
  | nil => rfl
  | cons e es ih =>
      unfold known at ih ⊢
      cases e with
      | call c => rw [List.filter_cons_of_pos (h c), List.flatMap_cons, List.flatMap_cons, ih]
      | result id => by_cases hk : keep (result id) <;> simp [hk, names, ih]
      | other => by_cases hk : keep other <;> simp [hk, names, ih]

theorem known_map_result (ids : List ι) : known (ids.map result) = [] := by
  simp [known, names]

/-! ### The three properties -/

/-- Every result answers an id that a call event names. -/
def Owned (es : List (CallEvent ι)) : Prop := ∀ id, result id ∈ es → id ∈ known es

/-- No id is answered twice between two call events; those in `seen` have been answered. -/
def Fresh : List ι → List (CallEvent ι) → Prop
  | _, [] => True
  | _, call _ :: rest => Fresh [] rest
  | seen, result id :: rest => id ∉ seen ∧ Fresh (id :: seen) rest
  | seen, other :: rest => Fresh seen rest

/-- Fewer answered ids are no obstacle. -/
theorem Fresh.mono {seen seen' : List ι} {es : List (CallEvent ι)} (h : Fresh seen es)
    (hsub : seen' ⊆ seen) : Fresh seen' es := by
  induction es generalizing seen seen' with
  | nil => trivial
  | cons e es ih =>
      cases e with
      | call c => exact h
      | result id => exact ⟨fun hid => h.1 (hsub hid), ih h.2 (List.cons_subset_cons id hsub)⟩
      | other => exact ih h hsub

variable [DecidableEq ι]

/-- Does the event answer `id`? -/
def answers (id : ι) : CallEvent ι → Bool
  | result id' => decide (id' = id)
  | _ => false

/-- What of `pending` and of the calls of the last call event has no result yet. -/
def unanswered : List ι → List (CallEvent ι) → List ι
  | pending, [] => pending
  | _, call c :: rest => unanswered c.uses rest
  | pending, result id :: rest => unanswered (pending.filter (· ≠ id)) rest
  | pending, other :: rest => unanswered pending rest

/-! ### The three edits -/

/-- Is the event kept when the ids in `ids` are the known ones? -/
def keptBy (ids : List ι) : CallEvent ι → Bool
  | result id => decide (id ∈ ids)
  | _ => true

def dropOrphans (es : List (CallEvent ι)) : List (CallEvent ι) := es.filter (keptBy (known es))

/-- Answer what is unanswered. -/
def answer (es : List (CallEvent ι)) : List (CallEvent ι) := es ++ (unanswered [] es).map result

/-- Drop the results of ids that have been answered since the last call event. -/
def dropRepeats : List ι → List (CallEvent ι) → List (CallEvent ι)
  | _, [] => []
  | _, call c :: rest => call c :: dropRepeats [] rest
  | seen, result id :: rest =>
      if id ∈ seen then dropRepeats seen rest else result id :: dropRepeats (id :: seen) rest
  | seen, other :: rest => other :: dropRepeats seen rest

/-! ### Ownership -/

theorem owned_dropOrphans (es : List (CallEvent ι)) : Owned (dropOrphans es) := by
  intro id hid
  have hkept := (List.mem_filter.mp hid).2
  rw [dropOrphans, known_filter fun _ => rfl]
  simpa [keptBy] using hkept

theorem owned_answer {es : List (CallEvent ι)} (h : Owned es)
    (hun : ∀ id ∈ unanswered [] es, id ∈ known es) : Owned (answer es) := by
  intro id hid
  rw [answer, known_append, known_map_result, List.append_nil]
  rcases List.mem_append.mp hid with hid | hid
  · exact h id hid
  · obtain ⟨id', hid', heq⟩ := List.mem_map.mp hid
    obtain rfl : id' = id := by injection heq
    exact hun id' hid'

/-! ### Answered calls -/

theorem mem_unanswered {pending : List ι} {es : List (CallEvent ι)} {id : ι}
    (h : id ∈ unanswered pending es) : id ∈ pending ∨ id ∈ known es := by
  induction es generalizing pending with
  | nil => exact Or.inl h
  | cons e es ih =>
      rw [known, List.flatMap_cons, List.mem_append]
      cases e with
      | call c =>
          rcases ih h with h | h
          · exact Or.inr (Or.inl (c.uses_known id h))
          · exact Or.inr (Or.inr h)
      | result id' =>
          rcases ih h with h | h
          · exact Or.inl (List.mem_of_mem_filter h)
          · exact Or.inr (Or.inr h)
      | other => exact (ih h).imp_right Or.inr

theorem unanswered_append (pending : List ι) (es fs : List (CallEvent ι)) :
    unanswered pending (es ++ fs) = unanswered (unanswered pending es) fs := by
  induction es generalizing pending with
  | nil => rfl
  | cons e es ih => cases e <;> exact ih _

/-- Without call events only the results count. -/
theorem unanswered_of_not_isCall {es : List (CallEvent ι)} (h : ∀ e ∈ es, e.isCall = false)
    (pending : List ι) :
    unanswered pending es = pending.filter fun id => !es.any (answers id) := by
  induction es generalizing pending with
  | nil => simp [unanswered]
  | cons e es ih =>
      have hrest := ih fun e he => h e (List.mem_cons_of_mem _ he)
      cases e with
      | call c => exact absurd (h _ List.mem_cons_self) (by simp [isCall])
      | result id =>
          rw [unanswered, hrest, List.filter_filter]
          refine List.filter_congr fun id' _ => ?_
          by_cases hid : id = id' <;> simp [answers, hid, eq_comm]
      | other =>
          rw [unanswered, hrest]
          simp [answers]

theorem unanswered_map_result (pending ids : List ι) :
    unanswered pending (ids.map result) = pending.filter fun id => decide (id ∉ ids) := by
  rw [unanswered_of_not_isCall (by simp [isCall])]
  refine List.filter_congr fun id _ => ?_
  induction ids with
  | nil => simp
  | cons id' ids ih =>
      by_cases hid : id' = id
      · simp [answers, hid]
      · simpa [answers, hid, Ne.symm hid] using ih

/-- **Every call is answered** once the unanswered ones are. -/
theorem unanswered_answer (es : List (CallEvent ι)) : unanswered [] (answer es) = [] := by
  rw [answer, unanswered_append, unanswered_map_result]
  simp

/-! ### Repeated results -/

theorem fresh_dropRepeats (seen : List ι) (es : List (CallEvent ι)) :
    Fresh seen (dropRepeats seen es) := by
  induction es generalizing seen with
  | nil => trivial
  | cons e es ih =>
      cases e with
      | call c => exact ih []
      | result id =>
          unfold dropRepeats
          split
          · exact ih seen
          · next hid => exact ⟨hid, ih (id :: seen)⟩
      | other => exact ih seen

theorem dropRepeats_sublist (seen : List ι) (es : List (CallEvent ι)) :
    (dropRepeats seen es).Sublist es := by
  induction es generalizing seen with
  | nil => exact List.Sublist.slnil
  | cons e es ih =>
      cases e with
      | call c => exact (ih []).cons_cons _
      | result id =>
          unfold dropRepeats
          split
          · exact (ih seen).cons _
          · exact (ih (id :: seen)).cons_cons _
      | other => exact (ih seen).cons_cons _

theorem known_dropRepeats (seen : List ι) (es : List (CallEvent ι)) :
    known (dropRepeats seen es) = known es := by
  induction es generalizing seen with
  | nil => rfl
  | cons e es ih =>
      unfold known at ih ⊢
      cases e with
      | call c => rw [dropRepeats, List.flatMap_cons, List.flatMap_cons, ih]
      | result id =>
          unfold dropRepeats
          split <;> simp [names, ih]
      | other => rw [dropRepeats, List.flatMap_cons, List.flatMap_cons, ih]

theorem owned_dropRepeats {es : List (CallEvent ι)} (h : Owned es) (seen : List ι) :
    Owned (dropRepeats seen es) := by
  intro id hid
  rw [known_dropRepeats]
  exact h id ((dropRepeats_sublist seen es).subset hid)

/-- A dropped result answers nothing that is pending. -/
theorem unanswered_dropRepeats {seen pending : List ι} (hseen : ∀ id ∈ pending, id ∉ seen)
    (es : List (CallEvent ι)) :
    unanswered pending (dropRepeats seen es) = unanswered pending es := by
  induction es generalizing seen pending with
  | nil => rfl
  | cons e es ih =>
      cases e with
      | call c => exact ih (by simp)
      | result id =>
          unfold dropRepeats
          split
          · next hid =>
              have hkeep : pending.filter (· ≠ id) = pending :=
                List.filter_eq_self.mpr fun id' hid' => by
                  have : id' ≠ id := fun he => hseen id' hid' (he ▸ hid)
                  simpa using this
              rw [unanswered, hkeep]
              exact ih hseen
          · refine ih fun id' hid' => ?_
            obtain ⟨hmem, hne⟩ := List.mem_filter.mp hid'
            have : id' ≠ id := by simpa using hne
            simp [this, hseen id' hmem]
      | other => exact ih hseen

/-- What has been answered is not answered again before the next call event… -/
theorem countP_answers_of_fresh {seen : List ι} {es : List (CallEvent ι)} (h : Fresh seen es)
    {stretch : List (CallEvent ι)} (hpre : stretch <+: es)
    (hcall : ∀ e ∈ stretch, e.isCall = false) (id : ι) :
    stretch.countP (answers id) ≤ if id ∈ seen then 0 else 1 := by
  induction es generalizing seen stretch with
  | nil => simp [List.prefix_nil.mp hpre]
  | cons e es ih =>
      cases stretch with
      | nil => simp
      | cons e' stretch =>
          obtain ⟨rfl, htail⟩ := List.cons_prefix_cons.mp hpre
          have hrest : ∀ e ∈ stretch, e.isCall = false := fun e he =>
            hcall e (List.mem_cons_of_mem _ he)
          cases e' with
          | call c => exact absurd (hcall _ List.mem_cons_self) (by simp [isCall])
          | result id' =>
              have hle := ih h.2 htail hrest
              rw [List.countP_cons]
              by_cases hid : id' = id
              · subst hid
                have hzero : stretch.countP (answers id') = 0 := by simpa using hle
                simp [answers, h.1, hzero]
              · simpa [answers, hid, Ne.symm hid] using hle
          | other => simpa [answers] using ih h htail hrest

/-- …so **every stretch without call events answers an id at most once**. -/
theorem countP_answers_le_one {seen : List ι} {es : List (CallEvent ι)} (h : Fresh seen es)
    {stretch : List (CallEvent ι)} (hin : stretch <:+: es)
    (hcall : ∀ e ∈ stretch, e.isCall = false) (id : ι) : stretch.countP (answers id) ≤ 1 := by
  induction es generalizing seen with
  | nil => simp [List.infix_nil.mp hin]
  | cons e es ih =>
      rcases List.infix_cons_iff.mp hin with hpre | htail
      · refine (countP_answers_of_fresh h hpre hcall id).trans ?_
        split <;> omega
      · cases e with
        | call c => exact ih h htail
        | result id' => exact ih h.2 htail
        | other => exact ih h htail

end CallEvent

end ClawDesk.Foundations
