import ClawDesk.Agents.OrSet

/-!
# What an observed-remove set contains

An element is in a replica exactly when the replica's causal history has an
addition of it that no removal of it in that history had observed
(`contains_iff_unobserved`).  One half says that a state's tags and removed tags
are those of its history (`TagsOfHistory`, by the rule for replicated data types);
the other that no tag is drawn twice (`TagsUnique`): a replica's counter is past
all tags it has drawn, and node ids tell replicas apart.
-/

namespace ClawDesk.Agents.OrSet

open Foundations Foundations.Replication

variable {ι T : Type} [DecidableEq T]

/-- The local updates of a replica. -/
inductive Change (T : Type) where
  | add (element : T)
  | remove (element : T)

/-- Carry out an update; an addition answers with its tag. -/
def change : Change T → OrSet T → Option String × OrSet T
  | .add element, s => (some (s.add element).1, (s.add element).2)
  | .remove element, s => (none, s.remove element)

/-- The observed-remove set as a replicated data type. -/
def orSet : DataType (Change T) (Option String) (OrSet T) where
  update := change
  merge := merge

/-- A network of observed-remove sets. -/
abbrev OrSetNet (ι T : Type) : Type := Net ι (Change T) (Option String) (OrSet T)

abbrev OrSetUpdate (ι T : Type) : Type := Update ι (Change T) (Option String)

/-- The update added the element `e` with the tag `t`. -/
def Adds (e : T) (t : String) (u : OrSetUpdate ι T) : Prop :=
  u.action = .add e ∧ u.answer = some t

/-- The history has an addition of `e` that no removal of `e` in it had observed. -/
def Unobserved (updates : List (OrSetUpdate ι T)) (H : Finset ℕ) (e : T) : Prop :=
  ∃ i ∈ H, (∃ u, updates[i]? = some u ∧ u.action = .add e) ∧
    ¬ Made updates H fun v => v.action = .remove e ∧ i ∈ v.past

/-! ### The tags of a history -/

/-- The tags are those of the additions in the history, and the removed ones those
that its removals had observed. -/
structure TagsOfHistory (updates : List (OrSetUpdate ι T)) (H : Finset ℕ) (s : OrSet T) : Prop where
  adds : ∀ e t, t ∈ s.tagsOf e ↔ Made updates H (Adds e t)
  removes : ∀ t, t ∈ s.removes ↔
    Made updates H fun v => ∃ e, v.action = .remove e ∧ Made updates v.past (Adds e t)

theorem tagsOfHistory_new (nodeId : String) :
    TagsOfHistory ([] : List (OrSetUpdate ι T)) ∅ (new nodeId) where
  adds e t := by
    rw [tagsOf_new]
    exact iff_of_false (Finset.notMem_empty t) not_made_empty
  removes t := iff_of_false (Finset.notMem_empty t) not_made_empty

variable {updates : List (OrSetUpdate ι T)} {H H' : Finset ℕ} {s s' : OrSet T}

omit [DecidableEq T] in
/-- What the removals of a history had observed is not changed by later updates. -/
theorem made_removes_append (causal : Causal updates) (u : OrSetUpdate ι T) (t : String) :
    (Made updates H fun v => ∃ e, v.action = .remove e ∧
        Made (updates ++ [u]) v.past (Adds e t)) ↔
      Made updates H fun v => ∃ e, v.action = .remove e ∧ Made updates v.past (Adds e t) := by
  refine made_congr fun i v hv => ?_
  simp only [made_append (causal i v hv)]

theorem TagsOfHistory.append (h : TagsOfHistory updates H s) (causal : Causal updates)
    (bounded : ∀ i ∈ H, i < updates.length) (u : OrSetUpdate ι T) :
    TagsOfHistory (updates ++ [u]) H s where
  adds e t := by rw [made_append bounded, h.adds]
  removes t := by rw [made_append bounded, made_removes_append causal, h.removes]

/-- An update changes the tags as it changes the history. -/
theorem TagsOfHistory.change (h : TagsOfHistory updates H s) (causal : Causal updates)
    (bounded : ∀ i ∈ H, i < updates.length) (r : ι) (a : Change T) :
    TagsOfHistory (updates ++ [⟨r, a, (change a s).1, H⟩]) (insert updates.length H)
      (OrSet.change a s).2 := by
  constructor
  · intro e t
    rw [made_insert_length bounded, ← h.adds]
    cases a with
    | add element =>
        show t ∈ (s.add element).2.tagsOf e ↔ _
        rw [mem_tagsOf_add]
        refine or_congr_left ?_
        simp [Adds, OrSet.change, eq_comm]
    | remove element =>
        show t ∈ (s.remove element).tagsOf e ↔ _
        rw [tagsOf_remove]
        simp [Adds]
  · intro t
    rw [made_insert_length bounded, made_removes_append causal, ← h.removes]
    cases a with
    | add element => simp [OrSet.change]
    | remove element =>
        show t ∈ (s.remove element).removes ↔ _
        rw [removes_remove, Finset.mem_union, or_comm, h.adds]
        refine or_congr_left ?_
        simp [made_append bounded]

theorem TagsOfHistory.merge (h : TagsOfHistory updates H s) (h' : TagsOfHistory updates H' s') :
    TagsOfHistory updates (H ∪ H') (s.merge s') where
  adds e t := by rw [mem_tagsOf_merge, made_union, h.adds, h'.adds]
  removes t := by rw [removes_merge, Finset.mem_union, made_union, h.removes, h'.removes]

/-! ### Fresh tags -/

variable [DecidableEq ι] {node : ι ↪ String} {net : OrSetNet ι T}

/-- What replicas with the node ids `node` get to. -/
abbrev NetReachable (node : ι ↪ String) (net : OrSetNet ι T) : Prop :=
  Reachable orSet (fun r => new (node r)) net

/-- No tag is drawn twice, and every replica's next tag is new. -/
structure TagsUnique (node : ι ↪ String) (net : OrSetNet ι T) : Prop where
  nodeId : ∀ r, (net.current r).state.nodeId = node r
  /-- A replica's counter is past all the tags it has drawn. -/
  drawn : ∀ (i : ℕ) u t, net.updates[i]? = some u → u.answer = some t →
    ∃ c ≤ (net.current u.replica).state.tagCounter, t = orSetTag (node u.replica) c
  unique : ∀ (i j : ℕ) u v t, net.updates[i]? = some u → net.updates[j]? = some v →
    u.answer = some t → v.answer = some t → i = j
  /-- Additions answer with a tag. -/
  tagged : ∀ (i : ℕ) u e, net.updates[i]? = some u → u.action = .add e → ∃ t, u.answer = some t

omit [DecidableEq ι] [DecidableEq T] in
/-- The next tag of a replica has not been drawn. -/
theorem TagsUnique.fresh (h : TagsUnique node net) (r : ι) {i : ℕ} {u : OrSetUpdate ι T}
    (hu : net.updates[i]? = some u) :
    u.answer ≠ some (orSetTag (net.current r).state.nodeId
      ((net.current r).state.tagCounter + 1)) := by
  intro hanswer
  obtain ⟨c, hc, htag⟩ := h.drawn i u _ hu hanswer
  rw [h.nodeId] at htag
  obtain ⟨hnode, rfl⟩ := orSetTag_inj htag
  obtain rfl := node.injective hnode
  omega

section Move

variable {r : ι} {s : Stamped (OrSet T)} {us : List (OrSetUpdate ι T)}

omit [DecidableEq T] in
theorem nodeId_move (h : ∀ r', (net.current r').state.nodeId = node r')
    (hs : s.state.nodeId = node r) (r' : ι) :
    ((net.move r s us).current r').state.nodeId = node r' := by
  by_cases hr : r' = r
  · subst hr
    simpa [Net.move] using hs
  · simpa [Net.move, hr] using h r'

omit [DecidableEq T] in
/-- Counters only grow. -/
theorem tagCounter_le_move (hs : (net.current r).state.tagCounter ≤ s.state.tagCounter) (r' : ι) :
    (net.current r').state.tagCounter ≤ ((net.move r s us).current r').state.tagCounter := by
  by_cases hr : r' = r
  · subst hr
    simpa [Net.move] using hs
  · simp [Net.move, hr]

end Move

theorem TagsUnique.merge (h : TagsUnique node net) (r : ι) (s : Stamped (OrSet T)) :
    TagsUnique node (net.merge orSet r s) where
  nodeId := nodeId_move h.nodeId (h.nodeId r)
  drawn i u t hu hanswer := by
    obtain ⟨c, hc, htag⟩ := h.drawn i u t hu hanswer
    refine ⟨c, hc.trans ?_, htag⟩
    apply tagCounter_le_move
    exact le_rfl
  unique := h.unique
  tagged := h.tagged

/-- The answer of an update is a tag that has not been drawn, if it is one. -/
theorem answer_change {a : Change T} {s : OrSet T} {t : String} (h : (change a s).1 = some t) :
    t = orSetTag s.nodeId (s.tagCounter + 1) ∧ (change a s).2.tagCounter = s.tagCounter + 1 := by
  cases a with
  | add element => exact ⟨(Option.some.inj h).symm, rfl⟩
  | remove element => cases h

theorem nodeId_change (a : Change T) (s : OrSet T) : (change a s).2.nodeId = s.nodeId := by
  cases a with
  | add element => rfl
  | remove element =>
      show (s.remove element).nodeId = s.nodeId
      rw [remove]
      split <;> rfl

theorem tagCounter_le_change (a : Change T) (s : OrSet T) :
    s.tagCounter ≤ (change a s).2.tagCounter := by
  cases a with
  | add element => exact Nat.le_succ _
  | remove element =>
      show s.tagCounter ≤ (s.remove element).tagCounter
      rw [remove]
      split <;> exact le_rfl

theorem TagsUnique.update (h : TagsUnique node net) (r : ι) (a : Change T) :
    TagsUnique node (net.update orSet r a) := by
  have hnode := nodeId_change a (net.current r).state
  have hle := tagCounter_le_change a (net.current r).state
  -- A new tag differs from those of all updates in the log.
  have hfresh {i : ℕ} {u : OrSetUpdate ι T} {t : String} (hu : net.updates[i]? = some u)
      (hanswer : u.answer = some t) (hnew : (change a (net.current r).state).1 = some t) :
      False := by
    obtain ⟨rfl, -⟩ := answer_change hnew
    exact h.fresh r hu hanswer
  constructor
  · exact nodeId_move h.nodeId (hnode.trans (h.nodeId r))
  · intro i u t hu hanswer
    rcases getElem?_concat_eq_some hu with hu | ⟨-, rfl⟩
    · obtain ⟨c, hc, htag⟩ := h.drawn i u t hu hanswer
      exact ⟨c, hc.trans (tagCounter_le_move hle _), htag⟩
    · obtain ⟨htag, hcounter⟩ := answer_change hanswer
      refine ⟨(net.current r).state.tagCounter + 1, ?_, by rw [htag, h.nodeId]⟩
      rw [← hcounter]
      simp [Net.update, Net.move, orSet]
  · intro i j u v t hu hv hanswer hanswer'
    rcases getElem?_concat_eq_some hu with hu | ⟨rfl, rfl⟩
    · rcases getElem?_concat_eq_some hv with hv | ⟨rfl, rfl⟩
      · exact h.unique i j u v t hu hv hanswer hanswer'
      · exact (hfresh hu hanswer hanswer').elim
    · rcases getElem?_concat_eq_some hv with hv | ⟨rfl, rfl⟩
      · exact (hfresh hv hanswer' hanswer).elim
      · rfl
  · intro i u e hu haction
    rcases getElem?_concat_eq_some hu with hu | ⟨rfl, rfl⟩
    · exact h.tagged i u e hu haction
    · obtain rfl : a = .add e := haction
      exact ⟨_, rfl⟩

/-- **No tag is ever drawn twice.** -/
theorem tagsUnique (h : NetReachable node net) : TagsUnique node net := by
  induction h with
  | refl =>
      refine ⟨fun r => rfl, ?_, ?_, ?_⟩
      all_goals intros; simp_all [Net.initial]
  | tail reach step ih =>
      cases step with
      | update r a => exact ih.update r a
      | merge r known => exact ih.merge r _

theorem tagsOfHistory (h : NetReachable node net) :
    ∀ s ∈ net.states, TagsOfHistory net.updates s.history s.state :=
  Reachable.represents (fun r => tagsOfHistory_new (node r))
    (fun causal bounded h => h.append causal bounded _)
    (fun causal bounded h => h.change causal bounded _ _) (fun h h' => h.merge h') h

/-! ### Correctness -/

/-- **An element is in a state exactly when its history has an unobserved addition.** -/
theorem contains_iff_unobserved (h : NetReachable node net) {s : Stamped (OrSet T)}
    (hs : s ∈ net.states) (e : T) :
    s.state.contains e = true ↔ Unobserved net.updates s.history e := by
  have htags := tagsOfHistory h s hs
  have hunique := tagsUnique h
  rw [contains_iff]
  constructor
  · rintro ⟨t, ht, hlive⟩
    obtain ⟨i, hi, u, hu, haction, hanswer⟩ := (htags.adds e t).mp ht
    refine ⟨i, hi, ⟨u, hu, haction⟩, ?_⟩
    rintro ⟨j, hj, v, hv, hremove, hpast⟩
    exact hlive ((htags.removes t).mpr
      ⟨j, hj, v, hv, e, hremove, i, hpast, u, hu, haction, hanswer⟩)
  · rintro ⟨i, hi, ⟨u, hu, haction⟩, hunobserved⟩
    obtain ⟨t, hanswer⟩ := hunique.tagged i u e hu haction
    refine ⟨t, (htags.adds e t).mpr ⟨i, hi, u, hu, haction, hanswer⟩, fun hremoved => ?_⟩
    obtain ⟨j, hj, v, hv, e', hremove, k, hk, w, hw, haction', hanswer'⟩ :=
      (htags.removes t).mp hremoved
    -- The tag names one addition, so the removal had observed this one.
    obtain rfl := hunique.unique i k u w t hu hw hanswer hanswer'
    obtain rfl : u = w := Option.some.inj (hu.symm.trans hw)
    obtain rfl : e = e' := Change.add.inj (haction.symm.trans haction')
    exact hunobserved ⟨j, hj, v, hv, hremove, hk⟩

/-- The tag that a replica draws next is in no state. -/
theorem next_tag_notMem (h : NetReachable node net) (r : ι) (e : T) {s : Stamped (OrSet T)}
    (hs : s ∈ net.states) :
    ((net.current r).state.add e).1 ∉ s.state.removes ∧
      ∀ e', ((net.current r).state.add e).1 ∉ s.state.tagsOf e' := by
  have htags := tagsOfHistory h s hs
  have hunique := tagsUnique h
  constructor
  · intro hmem
    obtain ⟨-, -, -, -, -, -, k, -, w, hw, -, hanswer⟩ := (htags.removes _).mp hmem
    exact hunique.fresh r hw hanswer
  · intro e' hmem
    obtain ⟨i, -, u, hu, -, hanswer⟩ := (htags.adds e' _).mp hmem
    exact hunique.fresh r hu hanswer

/-- Contains after an addition, whatever is merged that has not observed it. -/
theorem contains_add_merge_remove (h : NetReachable node net) (r : ι) (e : T)
    {s : Stamped (OrSet T)} (hs : s ∈ net.states) :
    (((net.current r).state.add e).2.merge (s.state.remove e)).contains e = true ∧
      ((s.state.remove e).merge ((net.current r).state.add e).2).contains e = true := by
  obtain ⟨hown, -⟩ := next_tag_notMem h r e (h.current_mem r)
  obtain ⟨hremoves, htags⟩ := next_tag_notMem h r e hs
  have hadded : ((net.current r).state.add e).1 ∈ ((net.current r).state.add e).2.tagsOf e :=
    mem_tagsOf_add.mpr (.inl ⟨rfl, rfl⟩)
  constructor
  · refine contains_iff.mpr ⟨_, mem_tagsOf_merge.mpr (.inl hadded), ?_⟩
    rw [removes_merge, removes_remove, removes_add]
    simp [hown, hremoves, htags]
  · refine contains_iff.mpr ⟨_, mem_tagsOf_merge.mpr (.inr hadded), ?_⟩
    rw [removes_merge, removes_remove, removes_add]
    simp [hown, hremoves, htags]

/-- **The observed-remove set is correct**: what it contains is determined by the
causal history, an addition takes effect, merging is a join, and an addition
survives the removals that have not observed it. -/
theorem orSet_correct (h : NetReachable node net) :
    (∀ r e, (net.current r).state.contains e = true ↔
      Unobserved net.updates (net.current r).history e) ∧
    (∀ r e, ((net.current r).state.add e).2.contains e = true) ∧
    (∀ s t u : OrSet T, (s.merge t).content = (t.merge s).content ∧
      ((s.merge t).merge u).content = (s.merge (t.merge u)).content ∧
      (s.merge s).content = s.content) ∧
    (∀ r, ∀ s ∈ net.states, ∀ e,
      (((net.current r).state.add e).2.merge (s.state.remove e)).contains e = true ∧
      ((s.state.remove e).merge ((net.current r).state.add e).2).contains e = true) := by
  refine ⟨fun r e => contains_iff_unobserved h (h.current_mem r) e, fun r e => ?_,
    fun s t u => ⟨content_merge_comm s t, content_merge_assoc s t u, content_merge_self s⟩,
    fun r s hs e => contains_add_merge_remove h r e hs⟩
  refine contains_iff.mpr ⟨_, mem_tagsOf_add.mpr (.inl ⟨rfl, rfl⟩), ?_⟩
  rw [removes_add]
  exact (next_tag_notMem h r e (h.current_mem r)).1

/-! ### Two replicas -/

/-- The node ids of two replicas. -/
def twoNodes : Bool ↪ String := ⟨fun b => if b then "node2" else "node1", by decide⟩

/-- `node2` removes what it got from `node1`, which adds it again meanwhile. -/
def addWins : OrSetNet Bool String :=
  let net₀ : OrSetNet Bool String := .initial fun r => new (twoNodes r)
  let net₁ := net₀.update orSet false (.add "hello")
  let net₂ := net₁.merge orSet true (net₁.current false)
  let net₃ := net₂.update orSet true (.remove "hello")
  let net₄ := net₃.update orSet false (.add "hello")
  net₄.merge orSet true (net₄.current false)

theorem orSet_correct_addWins :
    (addWins.current true).state.contains "hello" = true ∧
      Unobserved addWins.updates (addWins.current true).history "hello" := by
  have h₀ : Reachable (orSet (T := String)) (fun r => new (twoNodes r)) _ := .refl
  have h₁ := h₀.update false (.add "hello")
  have h₄ := ((h₁.merge true (h₁.current_mem false)).update true (.remove "hello")).update false
    (.add "hello")
  have hreach : NetReachable twoNodes addWins := h₄.merge true (h₄.current_mem false)
  have hcontains : (addWins.current true).state.contains "hello" = true := by decide
  exact ⟨hcontains, ((orSet_correct hreach).1 true "hello").mp hcontains⟩

end ClawDesk.Agents.OrSet
