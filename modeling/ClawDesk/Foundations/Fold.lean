import Mathlib.Data.List.Induction

/-!
# Machines that take one input after the other

The state after some inputs is a fold.  `EachStep` says something of every input, in
the state that it finds.  What one step preserves holds of a whole run
(`EachStep.invariant`), and two conditions that agree wherever the invariant holds
agree on whole runs (`eachStep_congr`).

Where a loop goes over a hash map, the order of its inputs is a parameter (`HashOrder`).
-/

namespace ClawDesk.Foundations

/-- An order in which the entries of hash maps are iterated. -/
structure HashOrder (α : Type) where
  order : List α → List α
  perm : ∀ l, (order l).Perm l

/-- A place in a list with one more entry is the last one, or one of those before. -/
theorem concat_eq_append_cons {α : Type} {l before after : List α} {x a : α}
    (h : l ++ [x] = before ++ a :: after) :
    (l = before ∧ x = a ∧ after = []) ∨ ∃ init, after = init ++ [x] ∧ l = before ++ a :: init := by
  rcases List.eq_nil_or_concat after with rfl | ⟨init, y, rfl⟩
  · obtain ⟨hl, hx⟩ := List.append_inj' h rfl
    exact .inl ⟨hl, (List.cons.inj hx).1, rfl⟩
  · rw [List.concat_eq_append, ← List.cons_append, ← List.append_assoc] at h
    obtain ⟨hl, hx⟩ := List.append_inj' h rfl
    obtain rfl := (List.cons.inj hx).1
    exact .inr ⟨init, List.concat_eq_append, hl⟩

variable {σ ι : Type} {step : σ → ι → σ} {start : σ} {inputs : List ι} {i : ι}
  {Inv : σ → Prop} {A P Q : σ → ι → Prop}

/-- Every input has the property, in the state that it finds. -/
def EachStep (step : σ → ι → σ) (start : σ) (inputs : List ι) (P : σ → ι → Prop) : Prop :=
  ∀ before i after, inputs = before ++ i :: after → P (before.foldl step start) i

theorem eachStep_nil : EachStep step start [] P := by
  intro before i after hsplit
  simp at hsplit

/-- The first input. -/
theorem eachStep_cons : EachStep step start (i :: inputs) P ↔
    P start i ∧ EachStep step (step start i) inputs P := by
  constructor
  · intro h
    refine ⟨h [] i inputs rfl, fun before j after hsplit => ?_⟩
    exact h (i :: before) j after (by rw [hsplit, List.cons_append])
  · rintro ⟨hfirst, hrest⟩ before j after hsplit
    rcases List.cons_eq_append_iff.mp hsplit with ⟨rfl, hj⟩ | ⟨init, rfl, hinputs⟩
    · obtain ⟨rfl, -⟩ := List.cons_eq_cons.mp hj
      exact hfirst
    · exact hrest init j after hinputs

instance EachStep.decidable (step : σ → ι → σ) (P : σ → ι → Prop) [∀ s i, Decidable (P s i)] :
    ∀ (inputs : List ι) (start : σ), Decidable (EachStep step start inputs P)
  | [], _ => isTrue eachStep_nil
  | i :: inputs, start =>
      @decidable_of_iff _ _ eachStep_cons.symm
        (@instDecidableAnd _ _ _ (EachStep.decidable step P inputs (step start i)))

/-- One more input. -/
theorem eachStep_concat : EachStep step start (inputs ++ [i]) P ↔
    EachStep step start inputs P ∧ P (inputs.foldl step start) i := by
  constructor
  · intro h
    refine ⟨fun before j after hsplit => ?_, h inputs i [] rfl⟩
    exact h before j (after ++ [i]) (by rw [hsplit, List.append_assoc, List.cons_append])
  · rintro ⟨hbefore, hlast⟩ before j after hsplit
    rcases concat_eq_append_cons hsplit with ⟨rfl, rfl, -⟩ | ⟨init, -, hinit⟩
    · exact hlast
    · exact hbefore before j init hinit

/-- The inputs in two parts. -/
theorem eachStep_append {later : List ι} : EachStep step start (inputs ++ later) P ↔
    EachStep step start inputs P ∧ EachStep step (inputs.foldl step start) later P := by
  induction inputs generalizing start with
  | nil => exact ⟨fun h => ⟨eachStep_nil, h⟩, fun h => h.2⟩
  | cons i inputs ih => rw [List.cons_append, eachStep_cons, eachStep_cons, ih, and_assoc,
      List.foldl_cons]

theorem EachStep.and (hP : EachStep step start inputs P) (hQ : EachStep step start inputs Q) :
    EachStep step start inputs fun s i => P s i ∧ Q s i :=
  fun before i after hsplit => ⟨hP before i after hsplit, hQ before i after hsplit⟩

/-- The invariant rule. -/
theorem EachStep.invariant (h : EachStep step start inputs P) (hstart : Inv start)
    (hstep : ∀ s i, Inv s → P s i → Inv (step s i)) : Inv (inputs.foldl step start) := by
  induction inputs using List.reverseRecOn with
  | nil => exact hstart
  | append_singleton inputs i ih =>
      rw [eachStep_concat] at h
      rw [List.foldl_append]
      exact hstep _ i (ih h.1) h.2

/-- A property of the inputs alone. -/
theorem eachStep_forall {p : ι → Prop} :
    EachStep step start inputs (fun _ i => p i) ↔ ∀ i ∈ inputs, p i := by
  constructor
  · intro h i hi
    obtain ⟨before, after, hsplit⟩ := List.append_of_mem hi
    exact h before i after hsplit
  · rintro h before i after rfl
    exact h i (List.mem_append_right _ List.mem_cons_self)

/-- What follows from the invariant follows at every step. -/
theorem EachStep.imp (h : EachStep step start inputs P) (hstart : Inv start)
    (hstep : ∀ s i, Inv s → P s i → Inv (step s i)) (himp : ∀ s i, Inv s → P s i → Q s i) :
    EachStep step start inputs Q := by
  rintro before i after rfl
  have hbefore : EachStep step start before P :=
    fun init j rest hsplit => h init j (rest ++ i :: after) (by simp [hsplit])
  exact himp _ i (hbefore.invariant hstart hstep) (h before i after rfl)

/-- Two properties that agree under the invariant, which one of them keeps. -/
theorem eachStep_congr (Inv : σ → Prop) (hA : EachStep step start inputs A) (hstart : Inv start)
    (hstep : ∀ s i, Inv s → A s i → Q s i → Inv (step s i))
    (hiff : ∀ s i, Inv s → A s i → (P s i ↔ Q s i)) :
    EachStep step start inputs P ↔ EachStep step start inputs Q := by
  induction inputs using List.reverseRecOn with
  | nil => exact iff_of_true eachStep_nil eachStep_nil
  | append_singleton inputs i ih =>
      rw [eachStep_concat] at hA
      rw [eachStep_concat, eachStep_concat, ih hA.1]
      refine and_congr_right fun hQ => hiff _ i ?_ hA.2
      exact (hA.1.and hQ).invariant hstart fun s j hs h => hstep s j hs h.1 h.2

end ClawDesk.Foundations
