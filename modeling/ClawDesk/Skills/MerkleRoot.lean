import ClawDesk.Foundations.HashTree
import ClawDesk.Skills.StoreSync

/-!
# What the Merkle root of a catalog binds

The leaves are the texts `id:version` of the entries, in the order of their hashes.  As long as no
two of the strings that are hashed have the same hash, two catalogs have the same root just if their
trees are the same.

Two things are lost on the way there.  A text does not tell where the identifier ends, and at some
lengths a tree does not tell how often its last leaf stands in the list.  So the root tells two
catalogs apart just where these make no difference (`computeMerkleRoot_binds_iff`).
-/

namespace ClawDesk.Skills

open Foundations
open Foundations.HashTree (treeOf ofLevel pairUp leaf node leaves subtrees Repeats)

section MerkleRoot

variable (sha256 : List UInt8 → List UInt8)

/-- What is hashed for an entry. -/
def leafText (e : StoreEntry) : List UInt8 :=
  textBytes e.skillId ++ textBytes ":" ++ textBytes e.version

/-- The pair that the root is to bind. -/
def entryKey (e : StoreEntry) : String × String := (e.skillId, e.version)

/-- The leaves of the tree, in the order of their hashes. -/
def leafTexts (entries : List StoreEntry) : List (List UInt8) :=
  (entries.map leafText).mergeSort fun a b => decide (sha256 a ≤ sha256 b)

/-- The hash of a node above a list. -/
abbrev nodeHash : HashTree (List UInt8) → List UInt8 :=
  HashTree.value sha256 fun a b => sha256 (a ++ b)

/-- The string that a node above two others is the hash of. -/
def NodeInput (entries : List StoreEntry) (x : List UInt8) : Prop :=
  ∃ t, treeOf (leafTexts sha256 entries) = some t ∧
    ∃ left right, node left right ∈ t.subtrees ∧ x = nodeHash sha256 left ++ nodeHash sha256 right

/-- A string that is hashed for the root of a catalog. -/
def Hashed (entries : List StoreEntry) (x : List UInt8) : Prop :=
  x ∈ entries.map leafText ∨ NodeInput sha256 entries x

/-- SHA-256 as it is taken to be: with digests of 32 bytes, not all of them zero, different for the
different strings that are hashed for two catalogs.  No text of an entry is two digests. -/
structure Ideal (entries entries' : List StoreEntry) : Prop where
  size : ∀ x, (sha256 x).length = 32
  injective : ∀ x y, Hashed sha256 entries x → Hashed sha256 entries' y →
    sha256 x = sha256 y → x = y
  apart : ∀ x y, x ∈ entries.map leafText → NodeInput sha256 entries' y → x ≠ y
  apart' : ∀ x y, NodeInput sha256 entries x → y ∈ entries'.map leafText → x ≠ y
  nonzero : ∀ x, Hashed sha256 entries x ∨ Hashed sha256 entries' x →
    sha256 x ≠ List.replicate 32 0

/-! ### The root as the hash of a tree -/

variable {sha256} {entries entries' : List StoreEntry}

theorem nextLevel_map (level : List (HashTree (List UInt8))) :
    nextLevel sha256 (level.map (nodeHash sha256)) = (pairUp level).map (nodeHash sha256) := by
  fun_induction pairUp level with
  | case1 => rfl
  | case2 => rfl
  | case3 s t rest ih =>
      simp only [List.map_cons, nextLevel, ih]
      rfl

theorem merkleTop_map {level : List (HashTree (List UInt8))} {t : HashTree (List UInt8)}
    (h : ofLevel level = some t) :
    merkleTop sha256 (level.map (nodeHash sha256)) = nodeHash sha256 t := by
  fun_induction ofLevel level with
  | case1 level hshort =>
      rw [merkleTop, if_pos (by rwa [List.length_map])]
      rcases level with _ | ⟨s, rest⟩
      · cases h
      · obtain rfl := Option.some.inj h
        rfl
  | case2 level hlong ih =>
      rw [merkleTop, if_neg (by rwa [List.length_map]), nextLevel_map]
      exact ih h

theorem sort_leafHash (entries : List StoreEntry) :
    ((entries.map (leafHash sha256)).mergeSort fun a b => decide (a ≤ b)) =
      (leafTexts sha256 entries).map sha256 := by
  rw [leafTexts, List.map_mergeSort (s := fun a b => decide (a ≤ b)) fun _ _ _ _ => rfl,
    List.map_map]
  rfl

/-- **The root is the hash of the tree.** -/
theorem computeMerkleRoot_eq {t : HashTree (List UInt8)}
    (h : treeOf (leafTexts sha256 entries) = some t) :
    computeMerkleRoot sha256 entries = hexEncode (nodeHash sha256 t) := by
  have hne : entries.isEmpty = false := by
    rw [List.isEmpty_eq_false_iff]
    rintro rfl
    rw [leafTexts, List.map_nil, List.mergeSort_nil] at h
    simp [treeOf, ofLevel] at h
  have hleaves : (leafTexts sha256 entries).map sha256 =
      ((leafTexts sha256 entries).map leaf).map (nodeHash sha256) := by
    rw [List.map_map]
    rfl
  rw [computeMerkleRoot, hne, sort_leafHash, hleaves, merkleTop_map h]
  rfl

/-- Sorting by digest is ascending. -/
theorem pairwise_sort (digest : List UInt8 → List UInt8) (l : List (List UInt8)) :
    (l.mergeSort fun a b => decide (digest a ≤ digest b)).Pairwise
      fun a b => digest a ≤ digest b := by
  have htotal : ∀ a b : List UInt8,
      (decide (digest a ≤ digest b) || decide (digest b ≤ digest a)) = true := by
    intro a b
    rw [Bool.or_eq_true, decide_eq_true_eq, decide_eq_true_eq]
    exact List.le_total _ _
  have htrans : ∀ a b c : List UInt8, decide (digest a ≤ digest b) = true →
      decide (digest b ≤ digest c) = true → decide (digest a ≤ digest c) = true := by
    intro a b c hab hbc
    exact decide_eq_true (List.le_trans (of_decide_eq_true hab) (of_decide_eq_true hbc))
  exact (List.pairwise_mergeSort htrans htotal l).imp of_decide_eq_true

/-- Catalogs with the same leaves have the same root. -/
theorem computeMerkleRoot_of_perm (h : (entries.map leafText).Perm (entries'.map leafText)) :
    computeMerkleRoot sha256 entries = computeMerkleRoot sha256 entries' := by
  have hhashes : (entries.map (leafHash sha256)).Perm (entries'.map (leafHash sha256)) := by
    have hmap := h.map sha256
    rw [List.map_map, List.map_map] at hmap
    exact hmap
  have hsame : ((entries.map (leafHash sha256)).mergeSort fun a b => decide (a ≤ b)) =
      (entries'.map (leafHash sha256)).mergeSort fun a b => decide (a ≤ b) :=
    List.Perm.eq_of_pairwise (fun _ _ _ _ => List.le_antisymm) (pairwise_sort id _)
      (pairwise_sort id _)
      ((List.mergeSort_perm _ _).trans (hhashes.trans (List.mergeSort_perm _ _).symm))
  have hempty : entries.isEmpty = entries'.isEmpty := by
    have hlength := h.length_eq
    rw [List.length_map, List.length_map] at hlength
    rw [Bool.eq_iff_iff, List.isEmpty_iff_length_eq_zero, List.isEmpty_iff_length_eq_zero, hlength]
  rw [computeMerkleRoot, computeMerkleRoot, hempty, hsame]

/-! ### Hexadecimal digests -/

theorem hexDigit_inj {m n : ℕ} (hm : m < 16) (hn : n < 16) (h : hexDigit m = hexDigit n) :
    m = n := by
  have hall : ∀ a b : Fin 16, hexDigit a = hexDigit b → a = b := by decide
  exact congrArg Fin.val (hall ⟨m, hm⟩ ⟨n, hn⟩ h)

theorem hexEncode_inj {bytes bytes' : List UInt8} (h : hexEncode bytes = hexEncode bytes') :
    bytes = bytes' := by
  have hchars := String.ofList_injective h
  clear h
  induction bytes generalizing bytes' with
  | nil =>
      cases bytes' with
      | nil => rfl
      | cons => cases hchars
  | cons b bytes ih =>
      cases bytes' with
      | nil => cases hchars
      | cons b' bytes' =>
          simp only [List.flatMap_cons, List.cons_append, List.nil_append,
            List.cons.injEq] at hchars
          obtain ⟨hhigh, hlow, hrest⟩ := hchars
          have hb := b.toNat_lt
          have hb' := b'.toNat_lt
          have hhigh' := hexDigit_inj (by omega) (by omega) hhigh
          have hlow' := hexDigit_inj (by omega) (by omega) hlow
          have hbyte : b = b' := UInt8.toNat_inj.mp (by omega)
          rw [hbyte, ih hrest]

/-! ### What the root tells apart -/

/-- Two lists that differ in the number of copies of their last text, at lengths where the tree does
not show it. -/
def Doubles (l l' : List (List UInt8)) : Prop :=
  ∃ base last r r', base.getLast? ≠ some last ∧ 0 < r ∧ r < r' ∧
    l = base ++ List.replicate r last ∧ l' = base ++ List.replicate r' last ∧
    Repeats base.length (base.length + r) (base.length + r')

theorem Doubles.treeOf_eq {l l' : List (List UInt8)} (h : Doubles l l') : treeOf l = treeOf l' := by
  obtain ⟨base, last, r, r', hlast, hpos, hlt, rfl, rfl, hrepeats⟩ := h
  exact (HashTree.treeOf_replicate_iff hlast (Nat.add_pos_right _ hpos) hlt).mpr hrepeats

theorem Doubles.length_lt {l l' : List (List UInt8)} (h : Doubles l l') : l.length < l'.length := by
  obtain ⟨base, last, r, r', -, -, hlt, rfl, rfl, -⟩ := h
  rw [List.length_append, List.length_append, List.length_replicate, List.length_replicate]
  exact Nat.add_lt_add_left hlt _

theorem Doubles.ne_nil {l l' : List (List UInt8)} (h : Doubles l l') : l ≠ [] := by
  obtain ⟨base, last, r, r', -, hpos, -, rfl, -, -⟩ := h
  refine List.append_ne_nil_of_right_ne_nil _ fun hnil => ?_
  rw [List.replicate_eq_nil_iff] at hnil
  exact absurd hnil (Nat.ne_of_gt hpos)

/-- The texts of the entries tell the pairs of two catalogs apart, and no number of copies is lost
in a tree. -/
def Binds (sha256 : List UInt8 → List UInt8) (entries entries' : List StoreEntry) : Prop :=
  ((entries.map leafText).Perm (entries'.map leafText) →
    (entries.map entryKey).Perm (entries'.map entryKey)) ∧
  ¬ Doubles (leafTexts sha256 entries) (leafTexts sha256 entries') ∧
  ¬ Doubles (leafTexts sha256 entries') (leafTexts sha256 entries)

theorem perm_leafTexts (entries : List StoreEntry) :
    (leafTexts sha256 entries).Perm (entries.map leafText) := List.mergeSort_perm _ _

theorem mem_leafTexts {x : List UInt8} :
    x ∈ leafTexts sha256 entries ↔ x ∈ entries.map leafText := (perm_leafTexts entries).mem_iff

theorem leafTexts_pairwise (entries : List StoreEntry) :
    (leafTexts sha256 entries).Pairwise fun a b => sha256 a ≤ sha256 b :=
  pairwise_sort sha256 _

/-- Trees with the same root are the same. -/
theorem Ideal.tree_inj (h : Ideal sha256 entries entries') {t t' : HashTree (List UInt8)}
    (ht : treeOf (leafTexts sha256 entries) = some t)
    (ht' : treeOf (leafTexts sha256 entries') = some t')
    (heq : nodeHash sha256 t = nodeHash sha256 t') : t = t' := by
  have hleaf : ∀ {x : List UInt8}, leaf x ∈ t.subtrees → x ∈ entries.map leafText := fun hx =>
    mem_leafTexts.mp ((HashTree.treeOf_leaves ht).2 _ (HashTree.mem_leaves_of_mem_subtrees hx))
  have hleaf' : ∀ {x : List UInt8}, leaf x ∈ t'.subtrees → x ∈ entries'.map leafText := fun hx =>
    mem_leafTexts.mp ((HashTree.treeOf_leaves ht').2 _ (HashTree.mem_leaves_of_mem_subtrees hx))
  have hsize : ∀ u : HashTree (List UInt8), (nodeHash sha256 u).length = 32 := by
    intro u
    cases u <;> exact h.size _
  refine HashTree.value_inj (fun u hu v hv huv => ?_) heq
  cases u with
  | leaf x =>
      cases v with
      | leaf y => exact h.injective x y (Or.inl (hleaf hu)) (Or.inl (hleaf' hv)) huv
      | node left right =>
          have hnode : NodeInput sha256 entries' _ := ⟨t', ht', left, right, hv, rfl⟩
          exact h.apart x _ (hleaf hu) hnode
            (h.injective x _ (Or.inl (hleaf hu)) (Or.inr hnode) huv)
  | node left right =>
      have hnode : NodeInput sha256 entries _ := ⟨t, ht, left, right, hu, rfl⟩
      cases v with
      | leaf y =>
          exact h.apart' _ y hnode (hleaf' hv)
            (h.injective _ y (Or.inr hnode) (Or.inl (hleaf' hv)) huv)
      | node left' right' =>
          have hnode' : NodeInput sha256 entries' _ := ⟨t', ht', left', right', hv, rfl⟩
          exact List.append_inj (h.injective _ _ (Or.inr hnode) (Or.inr hnode') huv)
            ((hsize left).trans (hsize left').symm)

/-- Ascending lists with one tree are the same, or one doubles leaves of the other. -/
theorem eq_or_doubles {l more : List (List UInt8)} (htree : treeOf l = treeOf (l ++ more))
    (hmem : ∀ a ∈ more, a ∈ l) (hsorted : (l ++ more).Pairwise fun a b => sha256 a ≤ sha256 b)
    (hinj : ∀ a ∈ more, ∀ b ∈ l, sha256 a = sha256 b → a = b) :
    more = [] ∨ Doubles l (l ++ more) := by
  rcases more with _ | ⟨first, more⟩
  · exact Or.inl rfl
  · have hne : l ≠ [] := List.ne_nil_of_mem (hmem first List.mem_cons_self)
    have hlast := List.getLast?_eq_some_getLast hne
    have hcopies : first :: more = List.replicate (more.length + 1) (l.getLast hne) := by
      apply HashTree.eq_replicate_of_pairwise hsorted hlast hmem
      · exact fun a ha hle hge => hinj a ha _ (List.getLast_mem hne) (List.le_antisymm hle hge)
      · exact List.le_refl _
    generalize l.getLast hne = last at hlast hcopies
    obtain ⟨base, r, hbase, rfl⟩ := HashTree.exists_append_replicate l last
    have hpos : 0 < r := by
      apply Nat.pos_of_ne_zero
      rintro rfl
      rw [List.replicate_zero, List.append_nil] at hlast
      exact hbase hlast
    have hlonger : base ++ List.replicate r last ++ first :: more =
        base ++ List.replicate (r + (more.length + 1)) last := by
      rw [hcopies, List.append_assoc, List.replicate_append_replicate]
    rw [hlonger] at htree ⊢
    have hlt : r < r + (more.length + 1) := Nat.lt_add_of_pos_right (Nat.succ_pos _)
    exact Or.inr ⟨base, last, r, _, hbase, hpos, hlt, rfl, rfl,
      (HashTree.treeOf_replicate_iff hbase (Nat.add_pos_right _ hpos) hlt).mp htree⟩

theorem leafTexts_eq_nil : leafTexts sha256 entries = [] ↔ entries = [] := by
  rw [← List.length_eq_zero_iff, (perm_leafTexts entries).length_eq, List.length_map,
    List.length_eq_zero_iff]

/-- The root of a catalog with entries is not that of the empty one. -/
theorem root_ne_nil (h : ∀ x, Hashed sha256 entries x → sha256 x ≠ List.replicate 32 0)
    (hne : entries ≠ []) : computeMerkleRoot sha256 entries ≠ computeMerkleRoot sha256 [] := by
  have hleaves : leafTexts sha256 entries ≠ [] := leafTexts_eq_nil.not.mpr hne
  obtain ⟨t, ht⟩ := Option.isSome_iff_exists.mp (HashTree.treeOf_isSome hleaves)
  have hzero : String.ofList (List.replicate 64 '0') = hexEncode (List.replicate 32 0) := by decide
  have hempty : computeMerkleRoot sha256 [] = hexEncode (List.replicate 32 0) := hzero
  rw [computeMerkleRoot_eq ht, hempty]
  intro heq
  cases t with
  | leaf x =>
      refine h x (Or.inl ?_) (hexEncode_inj heq)
      exact mem_leafTexts.mp ((HashTree.treeOf_leaves ht).2 x List.mem_cons_self)
  | node left right =>
      exact h _ (Or.inr ⟨_, ht, left, right, HashTree.self_mem_subtrees _, rfl⟩) (hexEncode_inj heq)

theorem root_of_treeOf_eq
    (h : treeOf (leafTexts sha256 entries) = treeOf (leafTexts sha256 entries'))
    (hne : leafTexts sha256 entries ≠ []) :
    computeMerkleRoot sha256 entries = computeMerkleRoot sha256 entries' := by
  obtain ⟨t, ht⟩ := Option.isSome_iff_exists.mp (HashTree.treeOf_isSome hne)
  rw [computeMerkleRoot_eq ht, computeMerkleRoot_eq (h.symm.trans ht)]

/-- A catalog whose leaves are those of another and some of them again, with the same tree. -/
theorem perm_or_doubles {more : List (List UInt8)}
    (hmore : leafTexts sha256 entries' = leafTexts sha256 entries ++ more)
    (hmem : ∀ a ∈ more, a ∈ leafTexts sha256 entries)
    (htree : treeOf (leafTexts sha256 entries) = treeOf (leafTexts sha256 entries'))
    (hinj : ∀ a ∈ leafTexts sha256 entries', ∀ b ∈ leafTexts sha256 entries,
      sha256 a = sha256 b → a = b) :
    (entries.map leafText).Perm (entries'.map leafText) ∨
      Doubles (leafTexts sha256 entries) (leafTexts sha256 entries') := by
  have hsorted := @leafTexts_pairwise sha256 entries'
  have hperm := @perm_leafTexts sha256 entries'
  rw [hmore] at hsorted hperm htree hinj ⊢
  have hcross : ∀ a ∈ more, ∀ b ∈ leafTexts sha256 entries, sha256 a = sha256 b → a = b :=
    fun a ha => hinj a (List.mem_append_right _ ha)
  rcases eq_or_doubles htree hmem hsorted hcross with rfl | hdoubles
  · rw [List.append_nil] at hperm
    exact Or.inl ((perm_leafTexts entries).symm.trans hperm)
  · exact Or.inr hdoubles

/-- Catalogs with one tree have the same texts, or one doubles leaves of the other. -/
theorem Ideal.perm_or_doubles_of_treeOf (h : Ideal sha256 entries entries')
    {t : HashTree (List UInt8)} (ht : treeOf (leafTexts sha256 entries) = some t)
    (ht' : treeOf (leafTexts sha256 entries') = some t) :
    (entries.map leafText).Perm (entries'.map leafText) ∨
      Doubles (leafTexts sha256 entries) (leafTexts sha256 entries') ∨
      Doubles (leafTexts sha256 entries') (leafTexts sha256 entries) := by
  have hinj : ∀ a ∈ leafTexts sha256 entries, ∀ b ∈ leafTexts sha256 entries',
      sha256 a = sha256 b → a = b := fun a ha b hb =>
    h.injective a b (Or.inl (mem_leafTexts.mp ha)) (Or.inl (mem_leafTexts.mp hb))
  rcases HashTree.exists_append_of_treeOf ht ht' with ⟨more, hmore, hmem⟩ | ⟨more, hmore, hmem⟩
  · exact (perm_or_doubles hmore hmem (ht.trans ht'.symm) fun b hb a ha heq =>
      (hinj a ha b hb heq.symm).symm).imp_right Or.inl
  · exact (perm_or_doubles hmore hmem (ht'.trans ht.symm) hinj).imp List.Perm.symm Or.inr

/-- **Two catalogs have the same root just if they have the same texts, or differ in copies that the
tree does not show.** -/
theorem Ideal.root_eq_iff (h : Ideal sha256 entries entries') :
    computeMerkleRoot sha256 entries = computeMerkleRoot sha256 entries' ↔
      (entries.map leafText).Perm (entries'.map leafText) ∨
        Doubles (leafTexts sha256 entries) (leafTexts sha256 entries') ∨
        Doubles (leafTexts sha256 entries') (leafTexts sha256 entries) := by
  constructor
  · intro heq
    by_cases hnil : entries = []
    · subst hnil
      by_cases hnil' : entries' = []
      · exact Or.inl (by rw [hnil'])
      · exact absurd heq.symm (root_ne_nil (fun x hx => h.nonzero x (Or.inr hx)) hnil')
    by_cases hnil' : entries' = []
    · subst hnil'
      exact absurd heq (root_ne_nil (fun x hx => h.nonzero x (Or.inl hx)) hnil)
    have hleaves : leafTexts sha256 entries ≠ [] := leafTexts_eq_nil.not.mpr hnil
    have hleaves' : leafTexts sha256 entries' ≠ [] := leafTexts_eq_nil.not.mpr hnil'
    obtain ⟨t, ht⟩ := Option.isSome_iff_exists.mp (HashTree.treeOf_isSome hleaves)
    obtain ⟨t', ht'⟩ := Option.isSome_iff_exists.mp (HashTree.treeOf_isSome hleaves')
    rw [computeMerkleRoot_eq ht, computeMerkleRoot_eq ht'] at heq
    obtain rfl := h.tree_inj ht ht' (hexEncode_inj heq)
    exact h.perm_or_doubles_of_treeOf ht ht'
  · rintro (hperm | hdoubles | hdoubles)
    · exact computeMerkleRoot_of_perm hperm
    · exact root_of_treeOf_eq hdoubles.treeOf_eq hdoubles.ne_nil
    · exact (root_of_treeOf_eq hdoubles.treeOf_eq hdoubles.ne_nil).symm

/-- **The root tells catalogs apart by their pairs just where the texts do, and no copies are
lost.** -/
theorem computeMerkleRoot_binds_iff (sha256 : List UInt8 → List UInt8)
    (entries entries' : List StoreEntry) (h : Ideal sha256 entries entries') :
    (computeMerkleRoot sha256 entries = computeMerkleRoot sha256 entries' ↔
      (entries.map entryKey).Perm (entries'.map entryKey)) ↔ Binds sha256 entries entries' := by
  have htexts : ∀ list : List StoreEntry, list.map leafText = (list.map entryKey).map fun key =>
      textBytes key.1 ++ textBytes ":" ++ textBytes key.2 := by
    intro list
    rw [List.map_map]
    rfl
  have hlength : ∀ list : List StoreEntry, (leafTexts sha256 list).length = list.length := by
    intro list
    rw [(perm_leafTexts list).length_eq, List.length_map]
  have hcopies : (entries.map entryKey).Perm (entries'.map entryKey) →
      (leafTexts sha256 entries).length = (leafTexts sha256 entries').length := by
    intro hkeys
    have hcount := hkeys.length_eq
    rwa [List.length_map, List.length_map, ← hlength entries, ← hlength entries'] at hcount
  rw [h.root_eq_iff]
  constructor
  · refine fun hiff => ⟨fun hperm => hiff.mp (Or.inl hperm), fun hdoubles => ?_, fun hdoubles => ?_⟩
    · exact Nat.ne_of_lt hdoubles.length_lt (hcopies (hiff.mp (Or.inr (Or.inl hdoubles))))
    · exact Nat.ne_of_gt hdoubles.length_lt (hcopies (hiff.mp (Or.inr (Or.inr hdoubles))))
  · rintro ⟨hkeys, hno, hno'⟩
    constructor
    · rintro (hperm | hdoubles | hdoubles)
      · exact hkeys hperm
      · exact absurd hdoubles hno
      · exact absurd hdoubles hno'
    · intro hperm
      rw [htexts entries, htexts entries']
      exact Or.inl (hperm.map _)

end MerkleRoot

/-! ### Two catalogs -/

def skyDigest : List UInt8 :=
  [29, 181, 71, 81, 93, 155, 152, 114, 176, 189, 42, 44, 246, 47, 201, 54, 196, 244, 107, 194,
    239, 62, 147, 58, 180, 86, 34, 63, 20, 131, 242, 14]

def weatherDigest : List UInt8 :=
  [130, 2, 107, 69, 236, 36, 35, 52, 78, 68, 45, 224, 193, 103, 114, 45, 176, 184, 123, 152, 190,
    73, 249, 132, 180, 205, 135, 195, 237, 60, 155, 63]

def weatherDigest₂ : List UInt8 :=
  [127, 78, 73, 5, 123, 52, 145, 112, 167, 164, 163, 95, 175, 124, 85, 201, 60, 58, 195, 189, 251,
    17, 13, 255, 180, 4, 131, 124, 199, 68, 245, 66]

def pairDigest : List UInt8 :=
  [180, 211, 41, 208, 123, 193, 109, 23, 114, 228, 5, 64, 47, 89, 78, 34, 198, 17, 136, 192, 132,
    31, 129, 35, 60, 54, 110, 71, 14, 28, 153, 254]

/-- SHA-256 at four strings. -/
def tableHash (x : List UInt8) : List UInt8 :=
  if x = textBytes "sky:1" then skyDigest
  else if x = textBytes "weather:1" then weatherDigest
  else if x = textBytes "weather:2" then weatherDigest₂
  else if x = skyDigest ++ weatherDigest then pairDigest
  else List.replicate 32 1

def skyAndWeather : List StoreEntry := [⟨"sky", "1", .available⟩, ⟨"weather", "1", .available⟩]

def onlyWeather : List StoreEntry := [⟨"weather", "2", .available⟩]

theorem map_leafText_skyAndWeather :
    skyAndWeather.map leafText = [textBytes "sky:1", textBytes "weather:1"] := by decide +kernel

theorem map_leafText_onlyWeather : onlyWeather.map leafText = [textBytes "weather:2"] := by
  decide +kernel

theorem treeOf_skyAndWeather : treeOf (leafTexts tableHash skyAndWeather) =
    some (node (leaf (textBytes "sky:1")) (leaf (textBytes "weather:1"))) := by
  rw [leafTexts, map_leafText_skyAndWeather, List.mergeSort_of_pairwise (by decide +kernel),
    treeOf, HashTree.ofLevel_pairUp (by decide)]
  exact HashTree.ofLevel_singleton _

theorem treeOf_onlyWeather :
    treeOf (leafTexts tableHash onlyWeather) = some (leaf (textBytes "weather:2")) := by
  rw [leafTexts, map_leafText_onlyWeather, List.mergeSort_singleton]
  exact HashTree.ofLevel_singleton _

theorem nodeInput_skyAndWeather {x : List UInt8} (h : NodeInput tableHash skyAndWeather x) :
    x = skyDigest ++ weatherDigest := by
  obtain ⟨t, ht, left, right, hmem, rfl⟩ := h
  obtain rfl := Option.some.inj (ht.symm.trans treeOf_skyAndWeather)
  have hroot : node left right =
      node (leaf (textBytes "sky:1")) (leaf (textBytes "weather:1")) := by
    simpa [subtrees] using hmem
  obtain ⟨rfl, rfl⟩ := HashTree.node.inj hroot
  decide +kernel

theorem not_nodeInput_onlyWeather {x : List UInt8} : ¬ NodeInput tableHash onlyWeather x := by
  rintro ⟨t, ht, left, right, hmem, rfl⟩
  obtain rfl := Option.some.inj (ht.symm.trans treeOf_onlyWeather)
  simp [subtrees] at hmem

theorem mem_skyAndWeather {x : List UInt8} (h : x ∈ skyAndWeather.map leafText) :
    x = textBytes "sky:1" ∨ x = textBytes "weather:1" := by
  rw [map_leafText_skyAndWeather] at h
  simpa using h

theorem mem_onlyWeather {x : List UInt8} (h : x ∈ onlyWeather.map leafText) :
    x = textBytes "weather:2" := by
  rw [map_leafText_onlyWeather] at h
  exact List.mem_singleton.mp h

theorem hashed_skyAndWeather {x : List UInt8} (h : Hashed tableHash skyAndWeather x) :
    x = textBytes "sky:1" ∨ x = textBytes "weather:1" ∨ x = skyDigest ++ weatherDigest := by
  rcases h with htext | hnode
  · exact (mem_skyAndWeather htext).imp_right Or.inl
  · exact Or.inr (Or.inr (nodeInput_skyAndWeather hnode))

theorem hashed_onlyWeather {x : List UInt8} (h : Hashed tableHash onlyWeather x) :
    x = textBytes "weather:2" := by
  rcases h with htext | hnode
  · exact mem_onlyWeather htext
  · exact absurd hnode not_nodeInput_onlyWeather

theorem ideal_tableHash : Ideal tableHash skyAndWeather onlyWeather where
  size x := by
    unfold tableHash
    split_ifs <;> rfl
  injective x y hx hy heq := by
    obtain rfl := hashed_onlyWeather hy
    rcases hashed_skyAndWeather hx with rfl | rfl | rfl <;> exact absurd heq (by decide +kernel)
  apart x y _ hy := absurd hy not_nodeInput_onlyWeather
  apart' x y hx hy := by
    obtain rfl := nodeInput_skyAndWeather hx
    obtain rfl := mem_onlyWeather hy
    decide +kernel
  nonzero x hx heq := by
    rcases hx with hx | hx
    · rcases hashed_skyAndWeather hx with rfl | rfl | rfl <;> exact absurd heq (by decide +kernel)
    · obtain rfl := hashed_onlyWeather hx
      exact absurd heq (by decide +kernel)

theorem computeMerkleRoot_binds_iff_weather :
    Ideal tableHash skyAndWeather onlyWeather ∧
      ((computeMerkleRoot tableHash skyAndWeather = computeMerkleRoot tableHash onlyWeather ↔
          (skyAndWeather.map entryKey).Perm (onlyWeather.map entryKey)) ↔
        Binds tableHash skyAndWeather onlyWeather) :=
  ⟨ideal_tableHash, computeMerkleRoot_binds_iff tableHash skyAndWeather onlyWeather ideal_tableHash⟩

/-- Characters shifted between the identifier and the version, and a fourth copy of an entry that
is there three times: the root stays. -/
theorem computeMerkleRoot_keeps :
    ((∀ sha256, computeMerkleRoot sha256 [⟨"a:b", "c", .available⟩] =
        computeMerkleRoot sha256 [⟨"a", "b:c", .available⟩]) ∧
      ¬ ([⟨"a:b", "c", .available⟩].map entryKey).Perm
        ([⟨"a", "b:c", .available⟩].map entryKey)) ∧
    (∀ sha256, computeMerkleRoot sha256 (List.replicate 3 ⟨"sky", "1", .available⟩) =
        computeMerkleRoot sha256 (List.replicate 4 ⟨"sky", "1", .available⟩)) ∧
      ¬ ((List.replicate 3 (⟨"sky", "1", .available⟩ : StoreEntry)).map entryKey).Perm
        ((List.replicate 4 ⟨"sky", "1", .available⟩).map entryKey) := by
  refine ⟨⟨fun sha256 => ?_, ?_⟩, fun sha256 => ?_, ?_⟩
  · apply computeMerkleRoot_of_perm
    have htexts : [⟨"a:b", "c", .available⟩].map leafText =
        [⟨"a", "b:c", .available⟩].map leafText := by
      decide +kernel
    rw [htexts]
  · intro hperm
    exact absurd (List.singleton_perm_singleton.mp hperm) (by decide)
  · have htexts : ∀ k, leafTexts sha256 (List.replicate k ⟨"sky", "1", .available⟩) =
        [] ++ List.replicate k (leafText ⟨"sky", "1", .available⟩) := by
      intro k
      rw [leafTexts, List.map_replicate, List.nil_append]
      apply List.mergeSort_of_pairwise
      exact List.pairwise_replicate.mpr (Or.inr (decide_eq_true (List.le_refl _)))
    refine root_of_treeOf_eq ?_ ?_
    · have hlast : ([] : List (List UInt8)).getLast? ≠
          some (leafText ⟨"sky", "1", .available⟩) := Option.some_ne_none _ ∘ Eq.symm
      rw [htexts, htexts, HashTree.treeOf_replicate_iff hlast (by decide) (by decide)]
      exact ⟨0, 1, by decide, by decide, by decide, by decide, by decide⟩
    · rw [htexts]
      exact List.cons_ne_nil _ _
  · intro hperm
    exact absurd hperm.length_eq (by decide)

end ClawDesk.Skills
