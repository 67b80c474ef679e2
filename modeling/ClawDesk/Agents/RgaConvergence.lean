import ClawDesk.Agents.Rga

/-!
# When replicated arrays converge

The elements form a tree: every element is a child of the one it was inserted
after, and siblings with higher ids come first.  A replica is in order when it
lists its elements as a preorder walk of this tree does; two replicas in order
with the same elements agree.

A remote insertion keeps the order unless a sibling with a higher id already has a
child in the replica (`Unobstructed`): there the scan stops between the sibling
and its child, and the new element lands inside a subtree that it is not part of.
`diverged` is such a run.
-/

namespace ClawDesk.Agents.Rga

open Foundations Foundations.Broadcast

variable {ι T : Type}

/-! ### A network of arrays -/

/-- The local calls on a replica. -/
inductive Call (T : Type) where
  | insertAfter (afterId : Option RgaId) (value : T)
  | delete (id : RgaId)

/-- The operations that replicas send. -/
inductive Operation (T : Type) where
  | insert (element : RgaElement T)
  | delete (id : RgaId)

/-- The array as an operation-based data type.  An element comes after the one it
was inserted after, a deletion after the insertion. -/
def rga : DataType (Call T) (Operation T) (Rga T) where
  allowed
    | .insertAfter afterId _, s => ∀ a ∈ afterId, a ∈ ids s.elements
    | .delete id, s => id ∈ ids s.elements
  issue
    | .insertAfter afterId value, s =>
        (.insert ⟨(s.insertAfter afterId value).1, value, false, afterId⟩,
          (s.insertAfter afterId value).2)
    | .delete id, s => (.delete id, (s.delete id).2)
  ready
    | .insert element, s => ∀ a ∈ element.after, a ∈ ids s.elements
    | .delete id, s => id ∈ ids s.elements
  apply
    | .insert element, s => s.applyInsert element
    | .delete id, s => s.applyDelete id

abbrev RgaNet (ι T : Type) : Type := Net ι (Operation T) (Rga T)

/-- No sibling with a higher id has a child here. -/
def Unobstructed : Operation T → Rga T → Prop
  | .insert element, s => ∀ a ∈ s.elements, a.after = element.after → element.id < a.id →
      ∀ d ∈ s.elements, d.after ≠ some a.id
  | .delete _, _ => True

/-! ### The order of a replica -/

/-- The id of an element in the order of siblings, higher ids first. -/
def key (e : RgaElement T) : RgaIdᵒᵈ := OrderDual.toDual e.id

/-- The parent of an element in the tree. -/
def parentKey (e : RgaElement T) : Option RgaIdᵒᵈ := e.after.map OrderDual.toDual

/-- The log determines the tree: every element is inserted once, alive, and the
tree has its parent; nothing else has one. -/
structure LogOf (tree : Foundations.Tree RgaIdᵒᵈ) (ops : List (Operation T)) : Prop where
  once : ∀ (i j : ℕ) e e', ops[i]? = some (.insert e) → ops[j]? = some (.insert e') →
    e.id = e'.id → i = j
  alive : ∀ e, .insert e ∈ ops → e.deleted = false
  parent : ∀ e, .insert e ∈ ops → tree.parent (key e) = parentKey e
  known : ∀ b, ∀ c ∈ tree.parent b, ∃ e, .insert e ∈ ops ∧ key e = c

/-- The element is one that the applied operations leave. -/
def Listed (ops : List (Operation T)) (H : Finset ℕ) (x : RgaElement T) : Prop :=
  Made ops H (· = .insert { x with deleted := false }) ∧
    (x.deleted = true ↔ Made ops H (· = .delete x.id))

/-- The replica lists the elements that the applied operations leave, in the order
of the tree. -/
structure InOrder (tree : Foundations.Tree RgaIdᵒᵈ) (ops : List (Operation T)) (H : Finset ℕ)
    (s : Rga T) : Prop where
  listed : ∀ x, x ∈ s.elements ↔ Listed ops H x
  sorted : (s.elements.map key).Pairwise tree.Before
  clock : ∀ x ∈ s.elements, x.id.timestamp ≤ s.clock
  closed : ∀ x ∈ s.elements, ∀ a ∈ x.after, a ∈ ids s.elements
  deletes : ∀ id, Made ops H (· = .delete id) → id ∈ ids s.elements

/-- **Replicas in order that have applied the same operations agree.** -/
theorem InOrder.elements_eq {tree : Foundations.Tree RgaIdᵒᵈ} {ops : List (Operation T)}
    {H : Finset ℕ} {s s' : Rga T} (h : InOrder tree ops H s) (h' : InOrder tree ops H s') :
    s.elements = s'.elements :=
  Tree.eq_of_pairwise key h.sorted h'.sorted fun x => (h.listed x).trans (h'.listed x).symm

section Local

variable {tree : Foundations.Tree RgaIdᵒᵈ} {ops : List (Operation T)} {H : Finset ℕ} {s : Rga T}

theorem mem_ids {elements : List (RgaElement T)} {a : RgaId} :
    a ∈ ids elements ↔ OrderDual.toDual a ∈ elements.map key := by
  simp [ids, key]

theorem InOrder.nodup (h : InOrder tree ops H s) : (ids s.elements).Nodup := by
  have hsorted := List.pairwise_map.mp h.sorted
  rw [ids, List.Nodup, List.pairwise_map]
  refine hsorted.imp fun {x y} hlt heq => ?_
  rw [key, key, heq] at hlt
  exact Tree.before_irrefl _ hlt

/-- The elements have the parents that the tree gives them. -/
theorem InOrder.parent (log : LogOf tree ops) (h : InOrder tree ops H s) {x : RgaElement T}
    (hx : x ∈ s.elements) : tree.parent (key x) = parentKey x := by
  obtain ⟨⟨i, -, o, ho, rfl⟩, -⟩ := (h.listed x).mp hx
  have hparent := log.parent _ (List.mem_of_getElem? ho)
  exact hparent

theorem InOrder.closed_tree (log : LogOf tree ops) (h : InOrder tree ops H s) :
    tree.Closed (s.elements.map key) := by
  intro b hb c hc
  obtain ⟨x, hx, rfl⟩ := List.mem_map.mp hb
  rw [h.parent log hx, parentKey] at hc
  obtain ⟨a, ha, rfl⟩ := Option.map_eq_some_iff.mp hc
  exact mem_ids.mp (h.closed x hx a ha)

/-- An element not applied yet is not listed. -/
theorem InOrder.notMem_ids (log : LogOf tree ops) (h : InOrder tree ops H s) {i : ℕ}
    {e : RgaElement T} (sent : ops[i]? = some (.insert e)) (new : i ∉ H) :
    e.id ∉ ids s.elements := by
  intro hmem
  obtain ⟨x, hx, hid⟩ := List.mem_map.mp hmem
  obtain ⟨⟨j, hj, o, ho, rfl⟩, -⟩ := (h.listed x).mp hx
  obtain rfl := log.once i j _ _ sent ho hid.symm
  exact new hj

/-- Putting an element where nothing obstructs it keeps the order. -/
theorem InOrder.sorted_place (log : LogOf tree ops) (h : InOrder tree ops H s) {i : ℕ}
    {e : RgaElement T} (sent : ops[i]? = some (.insert e)) (new : i ∉ H)
    (present : ∀ a ∈ e.after, a ∈ ids s.elements) (clear : Unobstructed (.insert e) s) :
    ((place s.elements e).map key).Pairwise tree.Before := by
  have hparent : tree.parent (key e) = parentKey e := log.parent e (List.mem_of_getElem? sent)
  have hnew := h.notMem_ids log sent new
  have hsorted := h.sorted
  have hclosed := h.closed_tree log
  have hsibling {x : RgaElement T} (hx : x ∈ s.elements) :
      tree.parent (key x) = tree.parent (key e) ↔ x.after = e.after := by
    rw [hparent, h.parent log hx, parentKey, parentKey]
    exact (Option.map_injective OrderDual.toDual.injective).eq_iff
  have hne {x : RgaElement T} (hx : x ∈ s.elements) : x.id ≠ e.id := fun heq =>
    hnew (List.mem_map.mpr ⟨x, hx, heq⟩)
  obtain ⟨front, siblings, rest, hsplit, hplace, hlast, hskipped, hnext⟩ := exists_place present
  have hkeys : s.elements.map key = front.map key ++ (siblings.map key ++ rest.map key) := by
    rw [hsplit, List.map_append, List.map_append]
  have hmem {x : RgaElement T} (hx : x ∈ siblings ∨ x ∈ rest) : x ∈ s.elements := by
    rw [hsplit]
    simp only [List.mem_append]
    tauto
  rw [hplace, List.map_append, List.map_append, List.map_cons]
  rw [mem_ids, hkeys] at hnew
  rw [hkeys] at hsorted hclosed
  refine Tree.pairwise_insert hsorted hclosed hnew ?_ ?_ ?_ ?_
  · rw [hparent, parentKey, ← hlast, List.getLast?_map, Option.map_map]
    rfl
  · intro a ha
    obtain ⟨x, hx, rfl⟩ := List.mem_map.mp ha
    obtain ⟨hafter, hle⟩ := hskipped x hx
    refine ⟨(hsibling (hmem (.inl hx))).mpr hafter, ?_⟩
    exact lt_of_le_of_ne (not_lt.mp hle) fun heq =>
      hne (hmem (.inl hx)) (OrderDual.toDual.injective heq)
  · intro b hb hafter
    rw [List.head?_map] at hb
    obtain ⟨x, hx, rfl⟩ := Option.map_eq_some_iff.mp hb
    have hxrest := List.mem_of_mem_head? hx
    exact hnext x hx ((hsibling (hmem (.inr hxrest))).mp hafter)
  · rw [← hkeys]
    intro a ha hafter hlt d hd hchild
    obtain ⟨x, hx, rfl⟩ := List.mem_map.mp ha
    obtain ⟨y, hy, rfl⟩ := List.mem_map.mp hd
    refine clear x hx ((hsibling hx).mp hafter) hlt y hy ?_
    rw [h.parent log hy, parentKey] at hchild
    obtain ⟨c, hc, hcx⟩ := Option.map_eq_some_iff.mp hchild
    rw [hc]
    exact congrArg some (OrderDual.toDual.injective hcx)

/-! ### Operations -/

/-- **An insertion that is not obstructed keeps the replica in order.** -/
theorem InOrder.apply_insert (log : LogOf tree ops) (h : InOrder tree ops H s) {i : ℕ}
    {e : RgaElement T} (sent : ops[i]? = some (.insert e)) (new : i ∉ H)
    (present : ∀ a ∈ e.after, a ∈ ids s.elements) (clear : Unobstructed (.insert e) s)
    {clock : ℕ} (hclock : s.clock ≤ clock) (htimestamp : e.id.timestamp ≤ clock) :
    InOrder tree ops (insert i H) ⟨place s.elements e, clock, s.nodeId⟩ := by
  have halive := log.alive e (List.mem_of_getElem? sent)
  have hnew := h.notMem_ids log sent new
  have hids {a : RgaId} (ha : a ∈ ids s.elements) : a ∈ ids (place s.elements e) := by
    obtain ⟨x, hx, rfl⟩ := List.mem_map.mp ha
    exact List.mem_map_of_mem ((mem_place present).mpr (.inr hx))
  have hundeleted : ¬ Made ops H (· = .delete e.id) := fun hmade => hnew (h.deletes e.id hmade)
  constructor
  · intro x
    rw [mem_place present, h.listed, Listed, Listed, made_insert sent, made_insert sent]
    constructor
    · rintro (rfl | ⟨hinserted, hdeleted⟩)
      · refine ⟨.inl ?_, ?_⟩
        · rw [← halive]
        · simp [halive, hundeleted]
      · exact ⟨.inr hinserted, by simpa using hdeleted⟩
    · rintro ⟨heq | hinserted, hdeleted⟩
      · left
        obtain rfl := Operation.insert.inj heq
        have : x.deleted = false := by simpa [hundeleted] using hdeleted
        rw [← this]
      · exact .inr ⟨hinserted, by simpa using hdeleted⟩
  · exact h.sorted_place log sent new present clear
  · intro x hx
    rcases (mem_place present).mp hx with rfl | hx
    · exact htimestamp
    · exact (h.clock x hx).trans hclock
  · intro x hx a ha
    rcases (mem_place present).mp hx with rfl | hx
    · exact hids (present a ha)
    · exact hids (h.closed x hx a ha)
  · intro id hdeleted
    rw [made_insert sent] at hdeleted
    exact hids (h.deletes id (hdeleted.resolve_left nofun))

/-- **A deletion keeps the replica in order.** -/
theorem InOrder.apply_delete (h : InOrder tree ops H s) {i : ℕ} {id : RgaId}
    (sent : ops[i]? = some (.delete id)) (present : id ∈ ids s.elements) :
    InOrder tree ops (insert i H) (s.delete id).2 := by
  have hmarked : (s.delete id).2.elements = s.elements.map (markIf id) :=
    markDeleted_eq_map h.nodup
  have hids : ids (s.delete id).2.elements = ids s.elements := by
    rw [hmarked, ids, List.map_map, ids]
    exact List.map_congr_left fun x _ => markIf_id id x
  have hkeys : (s.delete id).2.elements.map key = s.elements.map key := by
    rw [hmarked, List.map_map]
    exact List.map_congr_left fun x _ => congrArg OrderDual.toDual (markIf_id id x)
  constructor
  · intro x
    rw [hmarked, mem_map_markIf, Listed, made_insert sent, made_insert sent]
    simp only [h.listed, Listed, reduceCtorEq, false_or, Operation.delete.injEq]
    constructor
    · rintro ⟨b, ⟨hinserted, hb⟩, hdeleted⟩
      exact ⟨hinserted, by rw [hdeleted, hb, eq_comm]⟩
    · rintro ⟨hinserted, hdeleted⟩
      classical
      refine ⟨decide (Made ops H (· = .delete x.id)), ⟨hinserted, decide_eq_true_iff⟩, ?_⟩
      rw [hdeleted, decide_eq_true_iff, eq_comm]
  · rw [hkeys]
    exact h.sorted
  · intro x hx
    rw [hmarked] at hx
    obtain ⟨y, hy, rfl⟩ := List.mem_map.mp hx
    rw [markIf_id]
    exact h.clock y hy
  · intro x hx a ha
    rw [hmarked] at hx
    obtain ⟨y, hy, rfl⟩ := List.mem_map.mp hx
    rw [markIf_after] at ha
    rw [hids]
    exact h.closed y hy a ha
  · intro id' hdeleted
    rw [hids]
    rcases (made_insert sent).mp hdeleted with heq | hmade
    · rw [← Operation.delete.inj heq]
      exact present
    · exact h.deletes id' hmade

/-! ### Growing the log -/

theorem InOrder.inserted (h : InOrder tree ops H s) {a : RgaId} (ha : a ∈ ids s.elements) :
    ∃ e, .insert e ∈ ops ∧ e.id = a := by
  obtain ⟨x, hx, rfl⟩ := List.mem_map.mp ha
  obtain ⟨⟨i, -, o, ho, rfl⟩, -⟩ := (h.listed x).mp hx
  exact ⟨_, List.mem_of_getElem? ho, rfl⟩

/-- Operations that are sent later do not concern a replica, as long as its elements
keep their order. -/
theorem InOrder.extend (h : InOrder tree ops H s) (bounded : ∀ i ∈ H, i < ops.length)
    (o : Operation T) {tree' : Foundations.Tree RgaIdᵒᵈ}
    (keeps : ∀ x ∈ s.elements, ∀ y ∈ s.elements, tree.Before (key x) (key y) →
      tree'.Before (key x) (key y)) : InOrder tree' (ops ++ [o]) H s where
  listed x := by
    rw [Listed, made_append bounded, made_append bounded]
    exact h.listed x
  sorted := by
    have hsorted := h.sorted
    rw [List.pairwise_map] at hsorted ⊢
    exact hsorted.imp_of_mem fun hx hy => keeps _ hx _ hy
  clock := h.clock
  closed := h.closed
  deletes id hdeleted := h.deletes id ((made_append bounded).mp hdeleted)

theorem LogOf.append_delete (log : LogOf tree ops) (id : RgaId) :
    LogOf tree (ops ++ [.delete id]) := by
  have hmem {e : RgaElement T} (he : .insert e ∈ ops ++ [.delete id]) : .insert e ∈ ops := by
    simpa using he
  have hget {i : ℕ} {e : RgaElement T} (he : (ops ++ [.delete id])[i]? = some (.insert e)) :
      ops[i]? = some (.insert e) :=
    (getElem?_concat_eq_some he).resolve_right fun h => nomatch h.2
  refine ⟨fun i j e e' hi hj => log.once i j e e' (hget hi) (hget hj),
    fun e he => log.alive e (hmem he), fun e he => log.parent e (hmem he), fun b c hc => ?_⟩
  obtain ⟨e, he, rfl⟩ := log.known b c hc
  exact ⟨e, List.mem_append_left _ he, rfl⟩

/-- A new element becomes a leaf of the tree, and the others keep their order. -/
theorem LogOf.exists_append_insert (log : LogOf tree ops) {e : RgaElement T}
    (new : ∀ e', .insert e' ∈ ops → e'.id ≠ e.id) (alive : e.deleted = false)
    (present : ∀ a ∈ e.after, ∃ e', .insert e' ∈ ops ∧ e'.id = a) :
    ∃ tree', LogOf tree' (ops ++ [.insert e]) ∧
      ∀ b c, b ≠ key e → c ≠ key e → (tree'.Before b c ↔ tree.Before b c) := by
  have hparent {c : RgaIdᵒᵈ} (hc : c ∈ parentKey e) : ∃ e', .insert e' ∈ ops ∧ key e' = c := by
    obtain ⟨a, ha, rfl⟩ := Option.map_eq_some_iff.mp hc
    obtain ⟨e', he', rfl⟩ := present a ha
    exact ⟨e', he', rfl⟩
  have hleaf : ∀ b, key e ∉ tree.parent b := by
    intro b hb
    obtain ⟨e', he', hkey⟩ := log.known b _ hb
    exact new e' he' (OrderDual.toDual.injective hkey)
  have hself : key e ∉ parentKey e := by
    intro h
    obtain ⟨e', he', hkey⟩ := hparent h
    exact new e' he' (OrderDual.toDual.injective hkey)
  refine ⟨tree.attach (key e) (parentKey e) hleaf hself, ⟨?_, ?_, ?_, ?_⟩,
    fun b c hb hc => Tree.attach_before hb hc⟩
  · intro i j e₁ e₂ hi hj hid
    rcases getElem?_concat_eq_some hi with hi | ⟨rfl, he₁⟩
    · rcases getElem?_concat_eq_some hj with hj | ⟨rfl, he₂⟩
      · exact log.once i j e₁ e₂ hi hj hid
      · rw [Operation.insert.inj he₂] at hid
        exact absurd hid (new e₁ (List.mem_of_getElem? hi))
    · rcases getElem?_concat_eq_some hj with hj | ⟨rfl, -⟩
      · rw [Operation.insert.inj he₁] at hid
        exact absurd hid.symm (new e₂ (List.mem_of_getElem? hj))
      · rfl
  · intro e' he'
    rcases List.mem_append.mp he' with he' | he'
    · exact log.alive e' he'
    · obtain rfl := Operation.insert.inj (List.mem_singleton.mp he')
      exact alive
  · intro e' he'
    rcases List.mem_append.mp he' with he' | he'
    · have hne : key e' ≠ key e := fun h => new e' he' (OrderDual.toDual.injective h)
      rw [Tree.attach_parent_of_ne hne]
      exact log.parent e' he'
    · obtain rfl := Operation.insert.inj (List.mem_singleton.mp he')
      exact Tree.attach_parent_self
  · intro b c hc
    by_cases hb : b = key e
    · subst hb
      rw [Tree.attach_parent_self] at hc
      obtain ⟨e', he', rfl⟩ := hparent hc
      exact ⟨e', List.mem_append_left _ he', rfl⟩
    · rw [Tree.attach_parent_of_ne hb] at hc
      obtain ⟨e', he', rfl⟩ := log.known b c hc
      exact ⟨e', List.mem_append_left _ he', rfl⟩

end Local

/-! ### Runs -/

/-- Every replica is in order, and its clock is past all ids that it has drawn. -/
structure Converging (node : ι ↪ String) (tree : Foundations.Tree RgaIdᵒᵈ)
    (net : RgaNet ι T) : Prop where
  log : LogOf tree net.ops
  bounded : ∀ r, ∀ i ∈ (net.replica r).applied, i < net.ops.length
  nodeId : ∀ r, (net.replica r).state.nodeId = node r
  drawn : ∀ r e, .insert e ∈ net.ops → e.id.nodeId = node r →
    e.id.timestamp ≤ (net.replica r).state.clock
  inOrder : ∀ r, InOrder tree net.ops (net.replica r).applied (net.replica r).state

variable {node : ι ↪ String} {tree : Foundations.Tree RgaIdᵒᵈ} {net : RgaNet ι T}

theorem converging_initial :
    Converging node (Tree.isolated) (.initial fun r => new (node r) : RgaNet ι T) where
  log := ⟨by simp [Net.initial], by simp [Net.initial], by simp [Net.initial],
    fun b c hc => nomatch hc⟩
  bounded r i hi := absurd hi (Finset.notMem_empty i)
  nodeId r := rfl
  drawn r e he := by simp [Net.initial] at he
  inOrder r := by
    refine ⟨fun x => iff_of_false (List.not_mem_nil) fun h => not_made_empty h.1, .nil,
      ?_, ?_, fun id h => absurd h not_made_empty⟩
    · rintro x ⟨⟩
    · rintro x ⟨⟩

/-- The id that a replica draws next has not been drawn. -/
theorem Converging.new_id (h : Converging node tree net) (r : ι) {e : RgaElement T}
    (he : .insert e ∈ net.ops) :
    e.id ≠ ⟨(net.replica r).state.clock + 1, (net.replica r).state.nodeId⟩ := by
  intro hid
  have hnode : e.id.nodeId = node r := by rw [hid, ← h.nodeId r]
  have hle := h.drawn r e he hnode
  rw [hid] at hle
  exact absurd hle (Nat.not_succ_le_self _)

variable [DecidableEq ι]

/-- What is left to check when one replica has changed. -/
theorem Converging.update {tree' : Foundations.Tree RgaIdᵒᵈ} {ops : List (Operation T)} {r : ι}
    {R : Replica (Rga T)} (log : LogOf tree' ops)
    (nodeId : ∀ r, (net.replica r).state.nodeId = node r)
    (hR : (∀ i ∈ R.applied, i < ops.length) ∧ R.state.nodeId = node r ∧
      (∀ e, .insert e ∈ ops → e.id.nodeId = node r → e.id.timestamp ≤ R.state.clock) ∧
      InOrder tree' ops R.applied R.state)
    (others : ∀ r' ≠ r, (∀ i ∈ (net.replica r').applied, i < ops.length) ∧
      (∀ e, .insert e ∈ ops → e.id.nodeId = node r' →
        e.id.timestamp ≤ (net.replica r').state.clock) ∧
      InOrder tree' ops (net.replica r').applied (net.replica r').state) :
    Converging node tree' ⟨ops, Function.update net.replica r R⟩ where
  log := log
  bounded := (Function.forall_update_iff net.replica fun _ R => ∀ i ∈ R.applied, i < ops.length).mpr
    ⟨hR.1, fun r' hr => (others r' hr).1⟩
  nodeId := (Function.forall_update_iff net.replica fun r R => R.state.nodeId = node r).mpr
    ⟨hR.2.1, fun r' _ => nodeId r'⟩
  drawn := (Function.forall_update_iff net.replica fun r R => ∀ e, .insert e ∈ ops →
      e.id.nodeId = node r → e.id.timestamp ≤ R.state.clock).mpr
    ⟨hR.2.2.1, fun r' hr => (others r' hr).2.1⟩
  inOrder := (Function.forall_update_iff net.replica fun _ R =>
      InOrder tree' ops R.applied R.state).mpr
    ⟨hR.2.2.2, fun r' hr => (others r' hr).2.2⟩

/-- A delivery changes one replica. -/
theorem Converging.deliver (h : Converging node tree net) (r : ι) {i : ℕ} {o : Operation T}
    (sent : net.ops[i]? = some o) (once : i ∉ (net.replica r).applied)
    (ready : rga.ready o (net.replica r).state) (clear : Unobstructed o (net.replica r).state) :
    Converging node tree (net.deliver rga r i o) := by
  have hbounded : ∀ j ∈ insert i (net.replica r).applied, j < net.ops.length := by
    intro j hj
    rcases Finset.mem_insert.mp hj with rfl | hj
    · exact (List.getElem?_eq_some_iff.mp sent).1
    · exact h.bounded r j hj
  refine .update h.log h.nodeId ⟨hbounded, ?_⟩ fun r' _ => ⟨h.bounded r', h.drawn r', h.inOrder r'⟩
  cases o with
  | insert e =>
      have hclock : (net.replica r).state.clock ≤
          max (net.replica r).state.clock e.id.timestamp + 1 := by omega
      refine ⟨h.nodeId r, fun e' he' hnode => (h.drawn r e' he' hnode).trans hclock, ?_⟩
      exact (h.inOrder r).apply_insert h.log sent once ready clear hclock
        ((le_max_right _ _).trans (Nat.le_succ _))
  | delete id => exact ⟨h.nodeId r, h.drawn r, (h.inOrder r).apply_delete sent ready⟩

/-- A local call sends one operation and changes one replica. -/
theorem Converging.issue (h : Converging node tree net) (r : ι) (a : Call T)
    (allowed : rga.allowed a (net.replica r).state) :
    ∃ tree', Converging node tree' (net.issue rga r a) := by
  have hnew : net.ops.length ∉ (net.replica r).applied := fun hmem =>
    absurd (h.bounded r _ hmem) (lt_irrefl _)
  have hbounded {o : Operation T} {r' : ι} :
      ∀ j ∈ (net.replica r').applied, j < (net.ops ++ [o]).length := by
    intro j hj
    have := h.bounded r' j hj
    rw [List.length_append]
    omega
  have hbounded' {o : Operation T} :
      ∀ j ∈ insert net.ops.length (net.replica r).applied, j < (net.ops ++ [o]).length := by
    intro j hj
    rcases Finset.mem_insert.mp hj with rfl | hj
    · simp
    · exact hbounded j hj
  cases a with
  | insertAfter afterId value =>
      let e : RgaElement T :=
        ⟨⟨(net.replica r).state.clock + 1, (net.replica r).state.nodeId⟩, value, false, afterId⟩
      obtain ⟨tree', hlog, hbefore⟩ := h.log.exists_append_insert (e := e)
        (fun e' he' => h.new_id r he') rfl fun a ha => (h.inOrder r).inserted (allowed a ha)
      have hinOrder (r' : ι) : InOrder tree' (net.ops ++ [.insert e]) (net.replica r').applied
          (net.replica r').state := by
        have hne {x : RgaElement T} (hx : x ∈ (net.replica r').state.elements) : key x ≠ key e := by
          obtain ⟨e', he', hid⟩ := (h.inOrder r').inserted (List.mem_map_of_mem hx)
          exact fun hkey => h.new_id r he' (hid.trans (OrderDual.toDual.injective hkey))
        exact (h.inOrder r').extend (h.bounded r') _ fun x hx y hy hlt =>
          (hbefore _ _ (hne hx) (hne hy)).mpr hlt
      -- The new id is higher than all ids in the replica, so no sibling has a higher one.
      have clear : Unobstructed (.insert e) (net.replica r).state := by
        intro x hx _ hlt
        have hle := (h.inOrder r).clock x hx
        have htimestamp : e.id.timestamp = (net.replica r).state.clock + 1 := rfl
        rw [RgaId.lt_iff] at hlt
        omega
      refine ⟨tree', .update hlog h.nodeId ⟨hbounded', h.nodeId r, ?_, ?_⟩
        fun r' hr => ⟨hbounded, ?_, hinOrder r'⟩⟩
      · intro e' he' hnode
        rcases List.mem_append.mp he' with he' | he'
        · exact (h.drawn r e' he' hnode).trans (Nat.le_succ _)
        · rw [Operation.insert.inj (List.mem_singleton.mp he')]
          exact le_rfl
      · exact (hinOrder r).apply_insert hlog List.getElem?_concat_length hnew allowed clear
          (Nat.le_succ _) le_rfl
      · intro e' he' hnode
        rcases List.mem_append.mp he' with he' | he'
        · exact h.drawn r' e' he' hnode
        · rw [Operation.insert.inj (List.mem_singleton.mp he')] at hnode
          exact absurd (node.injective ((h.nodeId r).symm.trans hnode)).symm hr
  | delete id =>
      have hdrawn {r' : ι} : ∀ e, .insert e ∈ net.ops ++ [.delete id] → e.id.nodeId = node r' →
          e.id.timestamp ≤ (net.replica r').state.clock := fun e he hnode =>
        h.drawn r' e (by simpa using he) hnode
      have hinOrder (r' : ι) := (h.inOrder r').extend (h.bounded r') (.delete id)
        fun _ _ _ _ hlt => hlt
      refine ⟨tree, .update (h.log.append_delete id) h.nodeId ?_ fun r' _ => ?_⟩
      · exact ⟨hbounded', h.nodeId r, hdrawn,
          (hinOrder r).apply_delete List.getElem?_concat_length allowed⟩
      · exact ⟨hbounded, hdrawn, hinOrder r'⟩

/-- **Convergence.**  In every run in which no remote insertion is obstructed, two
replicas that have applied the same operations list the same elements in the same
order, and show the same values. -/
theorem converged
    (h : Reachable rga Unobstructed (fun r => new (node r)) net) (r r' : ι)
    (same : (net.replica r).applied = (net.replica r').applied) :
    (net.replica r).state.elements = (net.replica r').state.elements ∧
      (net.replica r).state.toVec = (net.replica r').state.toVec := by
  have hconverging : ∃ tree, Converging node tree net := by
    refine Reachable.induct (P := fun net => ∃ tree, Converging node tree net)
      ⟨_, converging_initial⟩ ?_ ?_ h
    · rintro net r a ⟨tree, hnet⟩ allowed
      exact hnet.issue r a allowed
    · rintro net r i o ⟨tree, hnet⟩ sent once ready clear
      exact ⟨tree, hnet.deliver r sent once ready clear⟩
  obtain ⟨tree, hnet⟩ := hconverging
  have hr := hnet.inOrder r
  rw [same] at hr
  have helements := hr.elements_eq (hnet.inOrder r')
  exact ⟨helements, by rw [toVec, toVec, helements]⟩

/-! ### Two replicas -/

/-- The node ids of two replicas. -/
def twoNodes : Bool ↪ String where
  toFun b := if b then "n2" else "n1"
  inj' a b h := by cases a <;> cases b <;> first | rfl | exact absurd h (by decide)

abbrev TwoReachable (cond : Operation String → Rga String → Prop) : RgaNet Bool String → Prop :=
  Reachable rga cond fun r => new (twoNodes r)

def idP : RgaId := ⟨1, "n1"⟩
def idA : RgaId := ⟨3, "n2"⟩
def idB : RgaId := ⟨2, "n1"⟩
def idC : RgaId := ⟨4, "n2"⟩

/-- `n1` inserts `P`, which `n2` gets; `n2` inserts `A` behind it. -/
def started : RgaNet Bool String :=
  (((Net.initial fun r => new (twoNodes r)).issue rga false (.insertAfter none "P")).deliver rga
    true 0 (.insert ⟨idP, "P", false, none⟩)).issue rga true (.insertAfter (some idP) "A")

theorem reachable_started (cond : Operation String → Rga String → Prop)
    (meets : cond (.insert ⟨idP, "P", false, none⟩) (new "n2")) : TwoReachable cond started := by
  have h₀ : TwoReachable cond (.initial fun r => new (twoNodes r)) := .refl
  refine ((h₀.issue false ?_).deliver true rfl (Finset.notMem_empty 0) ?_ meets).issue true ?_
  · rintro a ⟨⟩
  · rintro a ⟨⟩
  · rintro a ⟨⟩
    decide

/-- `n1` inserts `B` behind `P`, and each gets what the other has inserted. -/
def agreed : RgaNet Bool String :=
  ((started.issue rga false (.insertAfter (some idP) "B")).deliver rga true 2
    (.insert ⟨idB, "B", false, some idP⟩)).deliver rga false 1 (.insert ⟨idA, "A", false, some idP⟩)

theorem converged_agreed : (agreed.replica false).state.toVec = ["P", "A", "B"] ∧
    (agreed.replica false).state.elements = (agreed.replica true).state.elements := by
  have hreach : TwoReachable Unobstructed agreed := by
    have hstart : TwoReachable Unobstructed started :=
      reachable_started _ fun a ha => absurd ha List.not_mem_nil
    refine ((hstart.issue false ?_).deliver true rfl ?_ ?_ ?_).deliver false rfl ?_ ?_ ?_
    · rintro a ⟨⟩
      decide
    · decide
    · rintro a ⟨⟩
      decide
    · show ∀ a ∈ _, _
      decide
    · decide
    · rintro a ⟨⟩
      decide
    · show ∀ a ∈ _, _
      decide
  exact ⟨by decide, (converged hreach false true (by decide)).1⟩

/-- `n2` also inserts `C` behind `A`, before it gets `B`. -/
def obstructed : RgaNet Bool String :=
  ((((started.issue rga true (.insertAfter (some idA) "C")).issue rga false
    (.insertAfter (some idP) "B")).deliver rga true 3 (.insert ⟨idB, "B", false, some idP⟩)).deliver
      rga false 1 (.insert ⟨idA, "A", false, some idP⟩)).deliver rga false 2
        (.insert ⟨idC, "C", false, some idA⟩)

/-- **Two replicas that have applied the same four insertions disagree.** -/
theorem diverged : TwoReachable (fun _ _ => True) obstructed ∧
    (obstructed.replica false).applied = (obstructed.replica true).applied ∧
    (obstructed.replica false).state.toVec = ["P", "A", "C", "B"] ∧
    (obstructed.replica true).state.toVec = ["P", "A", "B", "C"] := by
  refine ⟨?_, by decide, by decide, by decide⟩
  have hstart : TwoReachable (fun _ _ => True) started := reachable_started _ trivial
  refine ((((hstart.issue true ?_).issue false ?_).deliver true rfl ?_ ?_ trivial).deliver false rfl
    ?_ ?_ trivial).deliver false rfl ?_ ?_ trivial
  · rintro a ⟨⟩
    decide
  · rintro a ⟨⟩
    decide
  · decide
  · rintro a ⟨⟩
    decide
  · decide
  · rintro a ⟨⟩
    decide
  · decide
  · rintro a ⟨⟩
    decide

end ClawDesk.Agents.Rga
