import ClawDesk.Foundations.Fold
import Mathlib.Data.Finset.Card
import Mathlib.Data.List.Sublists

/-!
# Queues that expire

Keys are registered at times that never decrease.  A key runs out after a while, and when there
is not enough room the oldest keys give way.  The queue holds the keys with their times,
the oldest first, and the log what has happened to it, the newest first.

A key that was registered is in the queue until it has run out, is removed, or as many keys as
there is room for were registered after it (`Tracks.kept`).
-/

namespace ClawDesk.Foundations.ExpiringQueue

/-- What happens to a key. -/
inductive Event (K : Type) where
  | registered (key : K) (time : ℕ)
  | removed (key : K)

variable {K : Type} [DecidableEq K]

/-- When the key was registered, and which keys have been since; none if it was removed. -/
def lastRegistered (key : K) : List (Event K) → Option (ℕ × Finset K)
  | [] => none
  | .registered k time :: log =>
      if k = key then some (time, ∅)
      else (lastRegistered key log).map fun last => (last.1, insert k last.2)
  | .removed k :: log => if k = key then none else lastRegistered key log

/-- Drop what has run out. -/
def expire (ttl now : ℕ) (queue : List (K × ℕ)) : List (K × ℕ) :=
  queue.filter fun p => now - p.2 < ttl

/-- Drop the oldest keys for which there is no room. -/
def trim (room : ℕ) (queue : List (K × ℕ)) : List (K × ℕ) := queue.drop (queue.length - room)

def remove (key : K) (queue : List (K × ℕ)) : List (K × ℕ) := queue.filter fun p => p.1 ≠ key

/-- The queue is what is left of the log. -/
structure Tracks (ttl room clock : ℕ) (log : List (Event K)) (queue : List (K × ℕ)) : Prop where
  nodup : (queue.map Prod.fst).Nodup
  sorted : queue.Pairwise fun a b => a.2 ≤ b.2
  past : ∀ p ∈ queue, p.2 ≤ clock
  registered : ∀ before key time rest, queue = before ++ (key, time) :: rest →
    ∃ since, lastRegistered key log = some (time, since) ∧ ∀ p ∈ rest, p.1 ∈ since
  kept : ∀ key time since, lastRegistered key log = some (time, since) →
    (key, time) ∈ queue ∨ time + ttl ≤ clock ∨ room ≤ since.card

variable {ttl room clock now time : ℕ} {key k : K} {log : List (Event K)}
  {queue queue' before : List (K × ℕ)} {since : Finset K}

theorem tracks_nil : Tracks ttl room clock ([] : List (Event K)) [] where
  nodup := List.nodup_nil
  sorted := List.Pairwise.nil
  past _ h := absurd h List.not_mem_nil
  registered before key time rest h := by simp at h
  kept _ _ _ h := absurd h (by simp [lastRegistered])

/-- Time passes. -/
theorem Tracks.mono (h : Tracks ttl room clock log queue) (hclock : clock ≤ now) :
    Tracks ttl room now log queue where
  nodup := h.nodup
  sorted := h.sorted
  past p hp := (h.past p hp).trans hclock
  registered := h.registered
  kept key time since hlast :=
    (h.kept key time since hlast).imp_right (Or.imp_left fun hle => hle.trans hclock)

theorem Tracks.registered_of_sublist (h : Tracks ttl room clock log queue)
    (hsub : queue'.Sublist queue) {rest : List (K × ℕ)}
    (hsplit : queue' = before ++ (key, time) :: rest) :
    ∃ since, lastRegistered key log = some (time, since) ∧ ∀ p ∈ rest, p.1 ∈ since := by
  rw [hsplit, List.append_sublist_iff] at hsub
  obtain ⟨l₁, l₂, rfl, -, hsub⟩ := hsub
  obtain ⟨r₁, r₂, rfl, hmem, hrest⟩ := List.cons_sublist_iff.mp hsub
  obtain ⟨r, r', rfl⟩ := List.append_of_mem hmem
  obtain ⟨since, hlast, hsince⟩ := h.registered (l₁ ++ r) key time (r' ++ r₂) (by simp)
  exact ⟨since, hlast, fun p hp => hsince p (List.mem_append_right _ (hrest.subset hp))⟩

/-- Some keys are dropped, each for a reason. -/
theorem Tracks.sublist (h : Tracks ttl room clock log queue) (hsub : queue'.Sublist queue)
    (hreason : ∀ p ∈ queue, p ∈ queue' ∨ p.2 + ttl ≤ clock ∨
      ∃ since, lastRegistered p.1 log = some (p.2, since) ∧ room ≤ since.card) :
    Tracks ttl room clock log queue' where
  nodup := h.nodup.sublist (hsub.map _)
  sorted := h.sorted.sublist hsub
  past p hp := h.past p (hsub.subset hp)
  registered _ _ _ _ hsplit := h.registered_of_sublist hsub hsplit
  kept key time since hlast := by
    rcases h.kept key time since hlast with hmem | hdone
    · rcases hreason _ hmem with hmem | hle | ⟨since', hlast', hroom⟩
      · exact .inl hmem
      · exact .inr (.inl hle)
      · rw [hlast] at hlast'
        cases hlast'
        exact .inr (.inr hroom)
    · exact .inr hdone

theorem Tracks.expire (h : Tracks ttl room clock log queue) :
    Tracks ttl room clock log (expire ttl clock queue) := by
  refine h.sublist List.filter_sublist fun p hp => ?_
  by_cases hlt : clock - p.2 < ttl
  · exact .inl (List.mem_filter.mpr ⟨hp, decide_eq_true hlt⟩)
  · have hpast : p.2 ≤ clock := h.past p hp
    exact .inr (.inl (by omega))

/-- A key that gives way to others has as many behind it as there is room for. -/
theorem Tracks.trim (h : Tracks ttl room clock log queue) :
    Tracks ttl room clock log (trim room queue) := by
  refine h.sublist (List.drop_sublist _ _) fun p hp => ?_
  obtain ⟨before, rest, rfl⟩ := List.append_of_mem hp
  by_cases hroom : rest.length < room
  · have hle : (before ++ p :: rest).length - room ≤ before.length := by
      simp only [List.length_append, List.length_cons]
      omega
    left
    unfold ExpiringQueue.trim
    rw [List.drop_append_of_le_length hle]
    exact List.mem_append_right _ List.mem_cons_self
  · obtain ⟨since, hlast, hsince⟩ := h.registered before p.1 p.2 rest rfl
    refine .inr (.inr ⟨since, hlast, ?_⟩)
    have hnodup : (rest.map Prod.fst).Nodup :=
      h.nodup.sublist (((List.sublist_cons_self _ _).trans (List.sublist_append_right _ _)).map _)
    calc room ≤ rest.length := not_lt.mp hroom
      _ = (rest.map Prod.fst).toFinset.card := by
          rw [List.toFinset_card_of_nodup hnodup, List.length_map]
      _ ≤ since.card := by
          apply Finset.card_le_card
          intro k hk
          obtain ⟨p', hp', rfl⟩ := List.mem_map.mp (List.mem_toFinset.mp hk)
          exact hsince p' hp'

theorem lastRegistered_removed_of_ne (h : k ≠ key) :
    lastRegistered k (.removed key :: log) = lastRegistered k log := if_neg h.symm

theorem lastRegistered_registered_of_ne (h : k ≠ key) :
    lastRegistered k (.registered key now :: log) =
      (lastRegistered k log).map fun last => (last.1, insert key last.2) := if_neg h.symm

/-- What is removed is not looked for any more. -/
theorem Tracks.remove (h : Tracks ttl room clock log queue) :
    Tracks ttl room clock (.removed key :: log) (remove key queue) where
  nodup := h.nodup.sublist (List.filter_sublist.map _)
  sorted := h.sorted.sublist List.filter_sublist
  past p hp := h.past p (List.mem_of_mem_filter hp)
  registered before k time rest hsplit := by
    have hmem : (k, time) ∈ ExpiringQueue.remove key queue :=
      hsplit ▸ List.mem_append_right _ List.mem_cons_self
    have hne : k ≠ key := by simpa using (List.mem_filter.mp hmem).2
    rw [lastRegistered_removed_of_ne hne]
    exact h.registered_of_sublist List.filter_sublist hsplit
  kept k time since hlast := by
    have hne : k ≠ key := by
      rintro rfl
      simp [lastRegistered] at hlast
    rw [lastRegistered_removed_of_ne hne] at hlast
    exact (h.kept k time since hlast).imp_left fun hmem =>
      List.mem_filter.mpr ⟨hmem, by simpa using hne⟩

/-- Behind each key of the longer queue are keys that were registered after it. -/
theorem Tracks.registered_concat (h : Tracks ttl room clock log queue)
    (hsub : before.Sublist queue) (hnew : key ∉ before.map Prod.fst)
    {front rest : List (K × ℕ)} (hsplit : before ++ [(key, clock)] = front ++ (k, time) :: rest) :
    ∃ since, lastRegistered k (.registered key clock :: log) = some (time, since) ∧
      ∀ p ∈ rest, p.1 ∈ since := by
  rcases concat_eq_append_cons hsplit with ⟨-, heq, rfl⟩ | ⟨rest, rfl, hbefore⟩
  · cases heq
    exact ⟨∅, if_pos rfl, fun p hp => absurd hp List.not_mem_nil⟩
  · have hne : k ≠ key := by
      rintro rfl
      exact hnew (List.mem_map_of_mem (hbefore ▸ List.mem_append_right _ List.mem_cons_self))
    obtain ⟨since, hlast, hsince⟩ := h.registered_of_sublist hsub hbefore
    refine ⟨insert key since, ?_, fun p hp => ?_⟩
    · rw [lastRegistered_registered_of_ne hne, hlast]
      rfl
    · rcases List.mem_append.mp hp with hp | hp
      · exact Finset.mem_insert_of_mem (hsince p hp)
      · rw [List.mem_singleton.mp hp]
        exact Finset.mem_insert_self _ _

/-- A registration of another key stays, or has its reason to go. -/
theorem Tracks.kept_concat (h : Tracks ttl room clock log queue)
    (hqueue : ∀ p ∈ queue, p.1 ≠ key → p ∈ before)
    (hlast : lastRegistered k (.registered key clock :: log) = some (time, since)) :
    (k, time) ∈ before ++ [(key, clock)] ∨ time + ttl ≤ clock ∨ room ≤ since.card := by
  by_cases hk : k = key
  · subst hk
    have hnow : lastRegistered k (.registered k clock :: log) = some (clock, ∅) := if_pos rfl
    rw [hnow] at hlast
    cases hlast
    exact .inl (List.mem_append_right _ (List.mem_singleton_self _))
  · rw [lastRegistered_registered_of_ne hk, Option.map_eq_some_iff] at hlast
    obtain ⟨⟨time', since'⟩, hlast, heq⟩ := hlast
    cases heq
    rcases h.kept k _ since' hlast with hmem | hle | hroom
    · exact .inl (List.mem_append_left _ (hqueue _ hmem hk))
    · exact .inr (.inl hle)
    · exact .inr (.inr (hroom.trans (Finset.card_le_card (Finset.subset_insert _ _))))

/-- A key is registered that is not in the queue, or is the last in it. -/
theorem Tracks.register (h : Tracks ttl room clock log queue)
    (hqueue : queue = before ∨ ∃ old, queue = before ++ [(key, old)])
    (hnew : key ∉ before.map Prod.fst) :
    Tracks ttl room clock (.registered key clock :: log) (before ++ [(key, clock)]) := by
  have hsub : before.Sublist queue := by
    rcases hqueue with rfl | ⟨old, rfl⟩
    · exact List.Sublist.refl _
    · exact List.sublist_append_left _ _
  have hothers : ∀ p ∈ queue, p.1 ≠ key → p ∈ before := by
    rcases hqueue with rfl | ⟨old, rfl⟩
    · exact fun p hp _ => hp
    · intro p hp hne
      rcases List.mem_append.mp hp with hp | hp
      · exact hp
      · exact absurd (congrArg Prod.fst (List.mem_singleton.mp hp)) hne
  refine ⟨?_, ?_, ?_, fun _ _ _ _ => h.registered_concat hsub hnew,
    fun _ _ _ => h.kept_concat hothers⟩
  · rw [List.map_append, List.nodup_append]
    refine ⟨h.nodup.sublist (hsub.map _), List.nodup_singleton _, ?_⟩
    rintro k hk _ hlast rfl
    obtain rfl : k = key := List.mem_singleton.mp hlast
    exact hnew hk
  · refine List.pairwise_append.mpr ⟨h.sorted.sublist hsub, List.pairwise_singleton _ _, ?_⟩
    intro p hp _ hlast
    rw [List.mem_singleton.mp hlast]
    exact h.past p (hsub.subset hp)
  · intro p hp
    rcases List.mem_append.mp hp with hp | hp
    · exact h.past p (hsub.subset hp)
    · rw [List.mem_singleton.mp hp]

end ClawDesk.Foundations.ExpiringQueue
