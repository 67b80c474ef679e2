import ClawDesk.Foundations.Substring

/-!
# Texts cut at a separator

A text is cut at every occurrence of a separator into parts that are free of it (`exists_isCut`).
If the separator does not overlap itself, its occurrences are just the places between two parts
(`IsCut.exists_take_drop`).
-/

namespace ClawDesk.Foundations.Separated

variable {α : Type} {sep text front back p t : List α} {ps qs : List (List α)}

/-- The separator is not empty, and nothing but the whole of it is at its beginning and at its
end. -/
structure Unbordered (sep : List α) : Prop where
  ne_nil : sep ≠ []
  border : ∀ e, e <+: sep → e <:+ sep → e = [] ∨ e = sep

/-- The parts of a text. -/
structure IsCut (sep text : List α) (ps : List (List α)) : Prop where
  ne_nil : ps ≠ []
  free : ∀ p ∈ ps, ¬ sep <:+: p
  join : sep.intercalate ps = text

theorem intercalate_append (hps : ps ≠ []) (hqs : qs ≠ []) :
    sep.intercalate (ps ++ qs) = sep.intercalate ps ++ (sep ++ sep.intercalate qs) := by
  induction ps with
  | nil => exact absurd rfl hps
  | cons p ps ih =>
      cases ps with
      | nil =>
          rw [List.singleton_append, List.intercalate_cons_of_ne_nil hqs,
            List.intercalate_singleton, List.append_assoc]
      | cons p' ps =>
          rw [List.cons_append, List.intercalate_cons_of_ne_nil (by simp),
            ih (List.cons_ne_nil _ _), List.intercalate_cons_cons]
          simp only [List.append_assoc]

theorem length_intercalate_le (h : ps <+: qs) :
    (sep.intercalate ps).length ≤ (sep.intercalate qs).length := by
  obtain ⟨rest, rfl⟩ := h
  rcases eq_or_ne ps [] with rfl | hps
  · exact Nat.zero_le _
  rcases eq_or_ne rest [] with rfl | hrest
  · rw [List.append_nil]
  · rw [intercalate_append hps hrest, List.length_append]
    exact Nat.le_add_right _ _

/-- One part is a text without the separator. -/
theorem isCut_singleton (h : ¬ sep <:+: text) : IsCut sep text [text] :=
  ⟨List.cons_ne_nil _ _, by simpa using h, List.intercalate_singleton⟩

/-- What stands on both sides of a separator is cut by itself. -/
theorem IsCut.append (hfront : IsCut sep front ps) (hback : IsCut sep back qs) :
    IsCut sep (front ++ (sep ++ back)) (ps ++ qs) where
  ne_nil := List.append_ne_nil_of_left_ne_nil hfront.ne_nil _
  free := List.forall_mem_append.mpr ⟨hfront.free, hback.free⟩
  join := by rw [intercalate_append hfront.ne_nil hback.ne_nil, hfront.join, hback.join]

/-- **Every text is cut into parts**: the part before the first separator, and those of what
follows it. -/
theorem exists_isCut [DecidableEq α] (hsep : sep ≠ []) (text : List α) :
    ∃ ps, IsCut sep text ps := by
  induction hlength : text.length using Nat.strongRecOn generalizing text with
  | ind n ih =>
      cases hfind : Substring.find sep text with
      | none => exact ⟨_, isCut_singleton (Substring.find_eq_none_iff.mp hfind)⟩
      | some i =>
          obtain ⟨back, hback⟩ := Substring.eq_of_find hfind
          have hfirst : ¬ sep <:+: text.take i := by
            rintro ⟨u, v, huv⟩
            have hsplit : text = u ++ sep ++ (v ++ (sep ++ back)) := by
              rw [hback, ← huv]
              simp only [List.append_assoc]
            have hle := Substring.le_of_find hfind hsplit
            have hlen := congrArg List.length huv
            have hpos := List.length_pos_iff.mpr hsep
            simp only [List.length_append, List.length_take] at hlen
            omega
          have hlt : back.length < n := by
            have hlen := congrArg List.length hback
            have hpos := List.length_pos_iff.mpr hsep
            simp only [List.length_append] at hlen
            omega
          obtain ⟨qs, hqs⟩ := ih _ hlt back rfl
          have hcut := (isCut_singleton hfirst).append hqs
          rw [← List.append_assoc, ← hback] at hcut
          exact ⟨_, hcut⟩

/-- An occurrence of the separator behind one of its occurrences is this one, or begins after
its end. -/
theorem Unbordered.behind (hsep : Unbordered sep) (h : sep ++ t = front ++ (sep ++ back)) :
    (front = [] ∧ back = t) ∨ ∃ mid, front = sep ++ mid ∧ t = mid ++ (sep ++ back) := by
  rcases List.append_eq_append_iff.mp h with ⟨mid, hfront, ht⟩ | ⟨e, hcut, he⟩
  · exact Or.inr ⟨mid, hfront, ht⟩
  · have hbegin : e <+: sep := by
      refine List.prefix_of_prefix_length_le ⟨t, he.symm⟩ (List.prefix_append sep back) ?_
      rw [hcut, List.length_append]
      exact Nat.le_add_left _ _
    rcases hsep.border e hbegin ⟨front, hcut.symm⟩ with rfl | rfl
    · rw [List.append_nil] at hcut
      exact Or.inr ⟨[], by rw [hcut, List.append_nil], he.symm⟩
    · exact Or.inl ⟨List.self_eq_append_left.mp hcut, List.append_cancel_left he⟩

/-- Behind a part that is free of the separator, its next occurrence is the first one. -/
theorem Unbordered.behind_part (hsep : Unbordered sep) (hp : ¬ sep <:+: p)
    (h : p ++ (sep ++ t) = front ++ (sep ++ back)) :
    (front = p ∧ back = t) ∨ ∃ mid, front = p ++ (sep ++ mid) ∧ t = mid ++ (sep ++ back) := by
  rcases List.append_eq_append_iff.mp h with ⟨mid, rfl, hmid⟩ | ⟨mid, rfl, hmid⟩
  · rcases hsep.behind hmid with ⟨rfl, rfl⟩ | ⟨mid, rfl, rfl⟩
    · exact Or.inl ⟨List.append_nil _, rfl⟩
    · exact Or.inr ⟨mid, rfl, rfl⟩
  · rcases hsep.behind hmid with ⟨rfl, rfl⟩ | ⟨mid, rfl, -⟩
    · exact Or.inl ⟨(List.append_nil _).symm, rfl⟩
    · exact absurd ⟨front, mid, by rw [List.append_assoc]⟩ hp

/-- **The separator occurs between two parts only**, by induction on the parts. -/
theorem IsCut.exists_take_drop (hsep : Unbordered sep) (h : IsCut sep text ps)
    (hsplit : text = front ++ (sep ++ back)) :
    ∃ n < ps.length, IsCut sep front (ps.take n) ∧ IsCut sep back (ps.drop n) := by
  induction ps generalizing text front with
  | nil => exact absurd rfl h.ne_nil
  | cons p ps ih =>
      have hp := h.free p List.mem_cons_self
      cases ps with
      | nil =>
          have hjoin := h.join
          rw [List.intercalate_singleton, hsplit] at hjoin
          exact absurd ⟨front, back, by rw [List.append_assoc, hjoin]⟩ hp
      | cons q ps =>
          have hrest : IsCut sep (sep.intercalate (q :: ps)) (q :: ps) :=
            ⟨List.cons_ne_nil _ _, fun r hr => h.free r (List.mem_cons_of_mem _ hr), rfl⟩
          have hjoin := h.join
          rw [List.intercalate_cons_cons, List.append_assoc, hsplit] at hjoin
          rcases hsep.behind_part hp hjoin with ⟨rfl, rfl⟩ | ⟨mid, rfl, hmid⟩
          · refine ⟨1, by simp, ?_, hrest⟩
            exact isCut_singleton hp
          · obtain ⟨n, hn, hfront, hback⟩ := ih hrest hmid
            refine ⟨n + 1, Nat.succ_lt_succ hn, ?_, hback⟩
            exact (isCut_singleton hp).append hfront

/-- Between any two parts stands the separator. -/
theorem IsCut.take_drop {n : ℕ} (h : IsCut sep text ps) (hpos : 0 < n) (hn : n < ps.length) :
    text = sep.intercalate (ps.take n) ++ (sep ++ sep.intercalate (ps.drop n)) ∧
      IsCut sep (sep.intercalate (ps.take n)) (ps.take n) ∧
      IsCut sep (sep.intercalate (ps.drop n)) (ps.drop n) := by
  have htake : ps.take n ≠ [] := by
    apply List.ne_nil_of_length_pos
    rw [List.length_take]
    omega
  have hdrop : ps.drop n ≠ [] := by
    apply List.ne_nil_of_length_pos
    rw [List.length_drop]
    omega
  refine ⟨?_, ⟨htake, fun p hp => h.free p (List.mem_of_mem_take hp), rfl⟩,
    ⟨hdrop, fun p hp => h.free p (List.mem_of_mem_drop hp), rfl⟩⟩
  rw [← intercalate_append htake hdrop, List.take_append_drop, h.join]

/-- A text is its first part, or goes on behind it with the separator. -/
theorem IsCut.head (h : IsCut sep text (p :: ps)) : text = p ∨ ∃ t, text = p ++ (sep ++ t) := by
  have hjoin := h.join
  cases ps with
  | nil =>
      rw [List.intercalate_singleton] at hjoin
      exact Or.inl hjoin.symm
  | cons q ps =>
      rw [List.intercalate_cons_cons, List.append_assoc] at hjoin
      exact Or.inr ⟨_, hjoin.symm⟩

/-- A text is its last part, or the separator stands before it. -/
theorem IsCut.last (h : IsCut sep text ps) (hp : ps.getLast? = some p) :
    text = p ∨ ∃ t, text = t ++ (sep ++ p) := by
  obtain ⟨qs, rfl⟩ := List.getLast?_eq_some_iff.mp hp
  have hjoin := h.join
  rcases eq_or_ne qs [] with rfl | hqs
  · rw [List.nil_append, List.intercalate_singleton] at hjoin
    exact Or.inl hjoin.symm
  · rw [intercalate_append hqs (List.cons_ne_nil _ _), List.intercalate_singleton] at hjoin
    exact Or.inr ⟨_, hjoin.symm⟩

end ClawDesk.Foundations.Separated
