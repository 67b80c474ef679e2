import Mathlib.Data.List.Induction
import Mathlib.Logic.Function.Basic

/-!
# Prefix tries

A trie stores a value for every word that was inserted, the later value for a word that
was inserted twice (`valueAt_insert`).  Walking down a trie along a text and keeping the
last value seen gives the value of the longest stored word that begins the text
(`longestMatch_eq_some_iff`).

Of a list of items with a key each, that is the item a scan of the list keeps when it
prefers longer keys, and the later one of two with keys of one length
(`longestMatch_insertAll`).
-/

namespace ClawDesk.Foundations

variable {κ β ι : Type}

/-- A node: the value stored for the word that leads to it, and the nodes below it. -/
inductive PrefixTrie (κ β : Type) where
  | node (value : Option β) (children : κ → Option (PrefixTrie κ β))

namespace PrefixTrie

def value : PrefixTrie κ β → Option β
  | node value _ => value

def children : PrefixTrie κ β → κ → Option (PrefixTrie κ β)
  | node _ children => children

/-- The trie in which nothing is stored. -/
def empty : PrefixTrie κ β := node none fun _ => none

/-- Store a value for a word. -/
def insert [DecidableEq κ] : PrefixTrie κ β → List κ → β → PrefixTrie κ β
  | t, [], b => node (some b) t.children
  | t, k :: ks, b =>
      node t.value (Function.update t.children k (some (((t.children k).getD empty).insert ks b)))

/-- The value stored for a word. -/
def valueAt : PrefixTrie κ β → List κ → Option β
  | t, [] => t.value
  | t, k :: ks => (t.children k).bind (·.valueAt ks)

/-- Walk down along a text, with the best value seen so far. -/
def walk : PrefixTrie κ β → Option β → List κ → Option β
  | _, best, [] => best
  | t, best, k :: ks =>
      match t.children k with
      | none => best
      | some next => next.walk (if next.value.isSome then next.value else best) ks

/-- The value of the longest stored word that begins the text. -/
def longestMatch (t : PrefixTrie κ β) (text : List κ) : Option β := t.walk t.value text

/-! ### What is stored -/

theorem valueAt_empty (ks : List κ) : (empty : PrefixTrie κ β).valueAt ks = none := by
  cases ks <;> rfl

/-- **An insertion** changes the value of its word and of no other. -/
theorem valueAt_insert [DecidableEq κ] (t : PrefixTrie κ β) (ks : List κ) (b : β)
    (word : List κ) :
    (t.insert ks b).valueAt word = if word = ks then some b else t.valueAt word := by
  induction ks generalizing t word with
  | nil =>
      cases word with
      | nil => rfl
      | cons k word => rfl
  | cons k ks ih =>
      cases word with
      | nil => rfl
      | cons k' word =>
          show (Function.update t.children k _ k').bind _ = _
          by_cases hk : k' = k
          · -- the child is the old one, or a new one in which nothing is stored
            subst hk
            have hchild : ((t.children k').getD empty).valueAt word =
                (t.children k').bind (·.valueAt word) := by
              cases t.children k' with
              | none => exact valueAt_empty word
              | some child => rfl
            rw [Function.update_self, Option.bind_some, ih, hchild]
            by_cases hword : word = ks
            · rw [if_pos hword, if_pos (congrArg (k' :: ·) hword)]
            · rw [if_neg hword, if_neg fun h => hword (List.cons.inj h).2]
              rfl
          · rw [Function.update_of_ne hk, if_neg fun h => hk (List.cons.inj h).1]
            rfl

/-! ### The walk -/

theorem valueAt_cons {t next : PrefixTrie κ β} {k : κ} (h : t.children k = some next)
    (ks : List κ) : t.valueAt (k :: ks) = next.valueAt ks := by
  rw [valueAt, h, Option.bind_some]

/-- Nothing is stored further down the text. -/
theorem walk_of_none {t : PrefixTrie κ β} {text : List κ}
    (h : ∀ word, word <+: text → word ≠ [] → t.valueAt word = none) (best : Option β) :
    t.walk best text = best := by
  induction text generalizing t best with
  | nil => rfl
  | cons k ks ih =>
      unfold walk
      cases hnext : t.children k with
      | none => rfl
      | some next =>
          have hbelow : ∀ word, word <+: ks → next.valueAt word = none := by
            intro word hword
            rw [← valueAt_cons hnext]
            exact h (k :: word) (List.cons_prefix_cons.mpr ⟨rfl, hword⟩) (List.cons_ne_nil k word)
          have hvalue : next.value = none := hbelow [] List.nil_prefix
          simp only [hvalue, Option.isSome_none, Bool.false_eq_true, if_false]
          exact ih (fun word hword _ => hbelow word hword) best

/-- A word is the longest stored one that begins the text. -/
def Longest (t : PrefixTrie κ β) (text word : List κ) (b : β) : Prop :=
  word <+: text ∧ t.valueAt word = some b ∧
    ∀ other, other <+: text → t.valueAt other ≠ none → other.length ≤ word.length

theorem Longest.walk {t : PrefixTrie κ β} {text word : List κ} {b : β}
    (h : t.Longest text word b) (hne : word ≠ []) (best : Option β) :
    t.walk best text = some b := by
  induction text generalizing t word best with
  | nil => exact absurd (List.prefix_nil.mp h.1) hne
  | cons k ks ih =>
      obtain ⟨hword, hvalue, hlongest⟩ := h
      obtain ⟨k', word, rfl⟩ := List.exists_cons_of_ne_nil hne
      obtain ⟨rfl, hrest⟩ := List.cons_prefix_cons.mp hword
      unfold PrefixTrie.walk
      cases hnext : t.children k' with
      | none =>
          rw [valueAt, hnext] at hvalue
          cases hvalue
      | some next =>
          rw [valueAt_cons hnext] at hvalue
          have hbelow : ∀ other, other <+: ks → next.valueAt other ≠ none →
              other.length ≤ word.length := by
            intro other hother hstored
            rw [← valueAt_cons hnext] at hstored
            exact Nat.le_of_succ_le_succ
              (hlongest (k' :: other) (List.cons_prefix_cons.mpr ⟨rfl, hother⟩) hstored)
          show next.walk _ ks = _
          by_cases hempty : word = []
          · -- the word ends here, and nothing is stored further down
            subst hempty
            rw [walk_of_none]
            · have hstored : next.value = some b := hvalue
              rw [hstored]
              rfl
            · intro other hother hne'
              by_contra hstored
              exact hne' (List.eq_nil_of_length_eq_zero
                (Nat.le_zero.mp (hbelow other hother hstored)))
          · exact ih ⟨hrest, hvalue, hbelow⟩ hempty _

/-- **The walk finds the longest stored word** that begins the text. -/
theorem Longest.longestMatch {t : PrefixTrie κ β} {text word : List κ} {b : β}
    (h : t.Longest text word b) : t.longestMatch text = some b := by
  by_cases hne : word = []
  · subst hne
    have hvalue : t.value = some b := h.2.1
    rw [PrefixTrie.longestMatch, walk_of_none, hvalue]
    intro other hother hne
    by_contra hstored
    exact hne (List.eq_nil_of_length_eq_zero (Nat.le_zero.mp (h.2.2 other hother hstored)))
  · exact h.walk hne t.value

theorem longestMatch_of_none {t : PrefixTrie κ β} {text : List κ}
    (h : ∀ word, word <+: text → t.valueAt word = none) : t.longestMatch text = none :=
  (walk_of_none (fun word hword _ => h word hword) t.value).trans (h [] List.nil_prefix)

/-! ### Items with keys -/

variable [DecidableEq κ] (key : ι → List κ) (value : ι → β) (text : List κ)

/-- Insert the items one after the other. -/
def insertAll (items : List ι) : PrefixTrie κ β :=
  items.foldl (fun t item => t.insert (key item) (value item)) empty

/-- Scan the items for the one with the longest key that begins the text, the last one if
several have it. -/
def scan (items : List ι) : Option ι :=
  items.foldl (fun best item =>
    if key item <+: text ∧ best.all (fun b => (key b).length ≤ (key item).length) then some item
    else best) none

variable {key value text}

theorem insertAll_concat (items : List ι) (item : ι) :
    insertAll key value (items ++ [item]) =
      (insertAll key value items).insert (key item) (value item) := List.foldl_append

theorem scan_concat (items : List ι) (item : ι) :
    scan key text (items ++ [item]) =
      if key item <+: text ∧ (scan key text items).all (fun b => (key b).length ≤ (key item).length)
      then some item else scan key text items := List.foldl_append

/-- A scan sees the keys only. -/
theorem scan_map {ι' : Type} (f : ι' → ι) (items : List ι') :
    scan key text (items.map f) = (scan (fun item => key (f item)) text items).map f := by
  induction items using List.reverseRecOn with
  | nil => rfl
  | append_singleton items item ih =>
      rw [List.map_append, List.map_singleton, scan_concat, scan_concat, ih, Option.all_map,
        apply_ite (Option.map f)]
      rfl

/-- Only keys are stored. -/
theorem valueAt_insertAll_of_ne {items : List ι} {word : List κ}
    (h : ∀ item ∈ items, key item ≠ word) : (insertAll key value items).valueAt word = none := by
  induction items using List.reverseRecOn with
  | nil => exact valueAt_empty word
  | append_singleton items item ih =>
      rw [insertAll_concat, valueAt_insert,
        if_neg fun hword => h item (List.mem_append_right _ List.mem_cons_self) hword.symm]
      exact ih fun other hother => h other (List.mem_append_left _ hother)

/-- What the scan selects: no key before it that begins the text is longer, and those
after it are all shorter. -/
structure Selected (key : ι → List κ) (text : List κ) (before : List ι) (item : ι)
    (after : List ι) : Prop where
  begins : key item <+: text
  before_le : ∀ other ∈ before, key other <+: text → (key other).length ≤ (key item).length
  after_lt : ∀ other ∈ after, key other <+: text → (key other).length < (key item).length

/-- **The scan**, whatever it ends with. -/
theorem scan_spec (items : List ι) :
    (scan key text items = none ∧ ∀ item ∈ items, ¬ key item <+: text) ∨
      ∃ before item after, items = before ++ item :: after ∧
        scan key text items = some item ∧ Selected key text before item after := by
  induction items using List.reverseRecOn with
  | nil => exact .inl ⟨rfl, fun item hitem => absurd hitem List.not_mem_nil⟩
  | append_singleton items new ih =>
      rw [scan_concat]
      rcases ih with ⟨hscan, hnone⟩ | ⟨before, item, after, rfl, hscan, hselected⟩
      · by_cases hnew : key new <+: text
        · refine .inr ⟨items, new, [], rfl, by simp [hnew, hscan], hnew, ?_, ?_⟩
          · exact fun other hother hbegins => absurd hbegins (hnone other hother)
          · exact fun other hother => absurd hother List.not_mem_nil
        · refine .inl ⟨by simp [hnew, hscan], fun item hitem => ?_⟩
          rcases List.mem_append.mp hitem with hitem | hitem
          · exact hnone item hitem
          · rwa [List.mem_singleton.mp hitem]
      · rw [hscan]
        by_cases htake : key new <+: text ∧ (key item).length ≤ (key new).length
        · -- the new item takes the place of the old one
          refine .inr ⟨before ++ item :: after, new, [], rfl, by simp [htake], htake.1, ?_, ?_⟩
          · intro other hother hbegins
            rcases List.mem_append.mp hother with hother | hother
            · exact Nat.le_trans (hselected.before_le other hother hbegins) htake.2
            · rcases List.mem_cons.mp hother with rfl | hother
              · exact htake.2
              · exact Nat.le_trans (Nat.le_of_lt (hselected.after_lt other hother hbegins)) htake.2
          · exact fun other hother => absurd hother List.not_mem_nil
        · refine .inr ⟨before, item, after ++ [new], by simp, ?_, hselected.begins,
            hselected.before_le, fun other hother hbegins => ?_⟩
          · rw [if_neg]
            simpa using htake
          · rcases List.mem_append.mp hother with hother | hother
            · exact hselected.after_lt other hother hbegins
            · obtain rfl := List.mem_singleton.mp hother
              exact Nat.not_le.mp fun hle => htake ⟨hbegins, hle⟩

/-- The selected item is the last one with its key. -/
theorem valueAt_insertAll_split {before after : List ι} {item : ι}
    (h : ∀ other ∈ after, key other ≠ key item) :
    (insertAll key value (before ++ item :: after)).valueAt (key item) = some (value item) := by
  induction after using List.reverseRecOn with
  | nil => rw [insertAll_concat, valueAt_insert, if_pos rfl]
  | append_singleton after other ih =>
      have hother := h other (List.mem_append_right _ List.mem_cons_self)
      rw [← List.cons_append, ← List.append_assoc, insertAll_concat, valueAt_insert,
        if_neg hother.symm]
      exact ih fun other hother => h other (List.mem_append_left _ hother)

/-- **The walk down the trie selects what the scan of the items selects.** -/
theorem longestMatch_insertAll (items : List ι) :
    (insertAll key value items).longestMatch text = (scan key text items).map value := by
  obtain ⟨hscan, hnone⟩ | ⟨before, item, after, hitems, hscan, hselected⟩ :
      (scan key text items = none ∧ _) ∨ _ := scan_spec items
  · rw [hscan]
    apply longestMatch_of_none
    intro word hword
    exact valueAt_insertAll_of_ne fun item hitem hkey => hnone item hitem (hkey ▸ hword)
  · rw [hscan, hitems]
    have hlongest : Longest (insertAll key value (before ++ item :: after)) text (key item)
        (value item) := by
      refine ⟨hselected.begins, ?_, fun other hother hstored => ?_⟩
      · exact valueAt_insertAll_split fun other hother hkey =>
          Nat.ne_of_lt (hselected.after_lt other hother (hkey ▸ hselected.begins))
            (congrArg List.length hkey)
      · by_contra hlong
        refine hstored (valueAt_insertAll_of_ne fun x hx hkey => hlong ?_)
        subst hkey
        rcases List.mem_append.mp hx with hx | hx
        · exact hselected.before_le x hx hother
        · rcases List.mem_cons.mp hx with rfl | hx
          · exact Nat.le_refl _
          · exact Nat.le_of_lt (hselected.after_lt x hx hother)
    exact hlongest.longestMatch

end PrefixTrie

end ClawDesk.Foundations
