import Mathlib.Data.List.AList
import Mathlib.Data.List.Sort

/-!
# Ordered stores and buffers of writes

A store is scanned in the order of its keys (`scan`).  A buffer of writes is scanned the same
way, in whatever order the writes were issued (`scan_buffer`).  Writes to different keys can be
applied one after the other, up to any point: a key has what the write to it says if that has
been applied, and what it had before otherwise (`lookup_applyWrites_of_mem`,
`lookup_applyWrites_of_notMem`).
-/

namespace ClawDesk.Foundations

variable {K V : Type} {m : AList fun _ : K => V} {p : K → Bool} {k : K} {v : V}

/-! ### Scans -/

section Scan

variable [LinearOrder K]

/-- The entries whose keys pass a test, in the order of the keys. -/
def scan (m : AList fun _ : K => V) (p : K → Bool) : List (K × V) :=
  ((m.entries.filter fun e => p e.1).mergeSort fun a b => decide (a.1 ≤ b.1)).map
    fun e => (e.1, e.2)

theorem mem_scan [DecidableEq K] : (k, v) ∈ scan m p ↔ m.lookup k = some v ∧ p k = true := by
  have hlookup : m.lookup k = some v ↔ ⟨k, v⟩ ∈ m.entries := AList.mem_lookup_iff
  unfold scan
  rw [hlookup, List.mem_map]
  constructor
  · rintro ⟨⟨k', v'⟩, hmem, heq⟩
    obtain ⟨rfl, rfl⟩ := Prod.mk.inj heq
    exact List.mem_filter.mp (List.mem_mergeSort.mp hmem)
  · intro h
    exact ⟨⟨k, v⟩, List.mem_mergeSort.mpr (List.mem_filter.mpr h), rfl⟩

/-- Keys come strictly in order, so no key comes twice. -/
theorem pairwise_scan (m : AList fun _ : K => V) (p : K → Bool) :
    (scan m p).Pairwise fun a b => a.1 < b.1 := by
  unfold scan
  rw [List.pairwise_map]
  have hle : ((m.entries.filter fun e => p e.1).mergeSort
      fun a b => decide (a.1 ≤ b.1)).Pairwise fun a b => a.1 ≤ b.1 := by
    refine (List.pairwise_mergeSort ?_ ?_ _).imp of_decide_eq_true
    · intro a b c hab hbc
      exact decide_eq_true ((of_decide_eq_true hab).trans (of_decide_eq_true hbc))
    · intro a b
      rw [← Bool.decide_or]
      exact decide_eq_true (le_total a.1 b.1)
  have hnodup : ((m.entries.filter fun e => p e.1).mergeSort
      fun a b => decide (a.1 ≤ b.1)).NodupKeys :=
    (List.perm_nodupKeys (List.mergeSort_perm _ _)).mpr
      (m.nodupKeys.sublist List.filter_sublist)
  exact (hle.and hnodup.pairwise_ne).imp fun ⟨h, hne⟩ => lt_of_le_of_ne h hne

theorem nodup_keys_scan (m : AList fun _ : K => V) (p : K → Bool) :
    ((scan m p).map Prod.fst).Nodup := by
  rw [List.Nodup, List.pairwise_map]
  exact (pairwise_scan m p).imp ne_of_lt

/-- A scan is the only list with these entries in this order. -/
theorem scan_eq [DecidableEq K] {entries : List (K × V)}
    (horder : entries.Pairwise fun a b => a.1 < b.1)
    (hmem : ∀ k v, (k, v) ∈ entries ↔ m.lookup k = some v ∧ p k = true) : scan m p = entries := by
  have hnodup {l : List (K × V)} (hl : l.Pairwise fun a b => a.1 < b.1) : l.Nodup :=
    hl.imp fun h heq => h.ne (congrArg Prod.fst heq)
  have hperm : (scan m p).Perm entries := by
    rw [List.perm_ext_iff_of_nodup (hnodup (pairwise_scan m p)) (hnodup horder)]
    rintro ⟨k, v⟩
    rw [mem_scan, hmem]
  refine hperm.eq_of_pairwise ?_ (pairwise_scan m p) horder
  intro a b _ _ hab hba
  exact absurd hab hba.not_gt

/-- A scan with a test is the scan of everything, tested. -/
theorem filter_scan [DecidableEq K] :
    (scan m fun _ => true).filter (fun e => p e.1) = scan m p := by
  refine (scan_eq ((pairwise_scan m _).filter _) fun k v => ?_).symm
  rw [List.mem_filter, mem_scan]
  simp

omit [LinearOrder K] in
theorem lookup_buffer [DecidableEq K] {issued : List (K × V)}
    (hnodup : (issued.map Prod.fst).Nodup) :
    (issued.foldl (fun b e => b.insert e.1 e.2) m).lookup k = some v ↔
      (k, v) ∈ issued ∨ m.lookup k = some v ∧ k ∉ issued.map Prod.fst := by
  induction issued generalizing m with
  | nil => simp
  | cons e issued ih =>
      obtain ⟨k', v'⟩ := e
      rw [List.map_cons, List.nodup_cons] at hnodup
      rw [List.foldl_cons, ih hnodup.2, List.mem_cons, List.map_cons, List.mem_cons, not_or]
      rcases eq_or_ne k k' with rfl | hne
      · have hnot : (k, v) ∉ issued := fun h => hnodup.1 (List.mem_map.mpr ⟨_, h, rfl⟩)
        simp [AList.lookup_insert, hnodup.1, hnot, eq_comm]
      · simp [AList.lookup_insert_ne hne, hne]

/-- A buffer comes out in the order of its keys. -/
theorem scan_buffer [DecidableEq K] {issued entries : List (K × V)} (hperm : issued.Perm entries)
    (horder : entries.Pairwise fun a b => a.1 < b.1) :
    scan (issued.foldl (fun b e => b.insert e.1 e.2) ∅) (fun _ => true) = entries := by
  refine scan_eq horder fun k v => ?_
  have hnodup : (issued.map Prod.fst).Nodup := by
    rw [(hperm.map Prod.fst).nodup_iff, List.Nodup, List.pairwise_map]
    exact horder.imp ne_of_lt
  rw [lookup_buffer hnodup, hperm.mem_iff, AList.lookup_empty]
  simp

end Scan

/-! ### Writes -/

/-- Operation buffered in a pending transaction. -/
inductive PendingOp (V : Type) where
  | put (value : V)
  | delete

/-- What the key has afterwards. -/
def PendingOp.value : PendingOp V → Option V
  | put value => some value
  | delete => none

section Writes

variable [DecidableEq K]

def applyWrite (m : AList fun _ : K => V) (write : K × PendingOp V) : AList fun _ : K => V :=
  match write.2 with
  | .put value => m.insert write.1 value
  | .delete => m.erase write.1

variable {writes : List (K × PendingOp V)} {op : PendingOp V}

theorem lookup_applyWrite_self : (applyWrite m (k, op)).lookup k = op.value := by
  cases op with
  | put value => exact AList.lookup_insert m
  | delete => exact AList.lookup_erase k m

theorem lookup_applyWrite_of_ne {write : K × PendingOp V} (hne : k ≠ write.1) :
    (applyWrite m write).lookup k = m.lookup k := by
  obtain ⟨k', op⟩ := write
  cases op with
  | put value => exact AList.lookup_insert_ne hne
  | delete => exact AList.lookup_erase_ne hne

theorem lookup_applyWrites_of_notMem (h : k ∉ writes.map Prod.fst) :
    (writes.foldl applyWrite m).lookup k = m.lookup k := by
  induction writes generalizing m with
  | nil => rfl
  | cons write writes ih =>
      rw [List.map_cons, List.mem_cons, not_or] at h
      rw [List.foldl_cons, ih h.2, lookup_applyWrite_of_ne h.1]

theorem lookup_applyWrites_of_mem (hnodup : (writes.map Prod.fst).Nodup) (h : (k, op) ∈ writes) :
    (writes.foldl applyWrite m).lookup k = op.value := by
  induction writes generalizing m with
  | nil => cases h
  | cons write writes ih =>
      rw [List.map_cons, List.nodup_cons] at hnodup
      rw [List.foldl_cons]
      rcases List.mem_cons.mp h with rfl | h
      · rw [lookup_applyWrites_of_notMem hnodup.1, lookup_applyWrite_self]
      · exact ih hnodup.2 h

/-- The writes of a buffer whose keys pass a test, applied in the order of their keys. -/
theorem lookup_applyWrites_scan [LinearOrder K] {buffer : AList fun _ : K => PendingOp V} :
    ((scan buffer p).foldl applyWrite m).lookup k =
      if p k then (buffer.lookup k).elim (m.lookup k) PendingOp.value else m.lookup k := by
  have hskip (h : ∀ op, (k, op) ∉ scan buffer p) :
      ((scan buffer p).foldl applyWrite m).lookup k = m.lookup k := by
    refine lookup_applyWrites_of_notMem fun hmem => ?_
    obtain ⟨⟨_, op⟩, hop, rfl⟩ := List.mem_map.mp hmem
    exact h op hop
  split
  case isTrue hp =>
    cases hlookup : buffer.lookup k with
    | none => exact hskip fun op hop => by simp [mem_scan, hlookup] at hop
    | some op => exact lookup_applyWrites_of_mem (nodup_keys_scan _ _) (mem_scan.mpr ⟨hlookup, hp⟩)
  case isFalse hp => exact hskip fun op hop => hp (mem_scan.mp hop).2

end Writes

end ClawDesk.Foundations
