import ClawDesk.Foundations.Json
import Mathlib.Algebra.Group.Nat.Defs
import Mathlib.Data.List.Nodup

/-!
# Values and their texts

A JSON library is two functions: `parse` gives the value a text denotes, if it
denotes one, and `serialize` prints a value.  What a program may rely on is
`JsonCodec.Lawful`:

* a parsed value is *sound*: nested to at most 127 levels, no object names a member
  twice, and its number texts are themselves number texts;
* a sound value is read back from its printed text, up to the texts of its numbers
  (`Json.forget` erases these);
* the last item of an array that ends in a letter is `true`, `false` or `null`;
* a natural number below `2 ^ 64` is read as it is printed.

The members of an object are edited by `Json.insertMember` and `Json.swapRemove`,
which keep them sound.
-/

namespace ClawDesk.Foundations

namespace Json

def asStr : Json → Option String
  | string s => some s
  | _ => none

/-- The text of the member `name`. -/
def textAt (v : Json) (name : String) : Option String := (v.get name).bind asStr

def isNumber : Json → Bool
  | number _ => true
  | _ => false

/-! ### Soundness -/

mutual

/-- How many arrays and objects are nested in each other. -/
def depth : Json → ℕ
  | array items => depthItems items + 1
  | object members => depthMembers members + 1
  | _ => 0

def depthItems : List Json → ℕ
  | [] => 0
  | v :: rest => max (depth v) (depthItems rest)

def depthMembers : List (String × Json) → ℕ
  | [] => 0
  | m :: rest => max (depth m.2) (depthMembers rest)

end

mutual

/-- Every number text satisfies `numeric`, and no object names a member twice. -/
def regular (numeric : String → Bool) : Json → Bool
  | number text => numeric text
  | array items => regularItems numeric items
  | object members => decide (members.map Prod.fst).Nodup && regularMembers numeric members
  | _ => true

def regularItems (numeric : String → Bool) : List Json → Bool
  | [] => true
  | v :: rest => regular numeric v && regularItems numeric rest

def regularMembers (numeric : String → Bool) : List (String × Json) → Bool
  | [] => true
  | m :: rest => regular numeric m.2 && regularMembers numeric rest

end

theorem depthMembers_le_iff {members : List (String × Json)} {n : ℕ} :
    depthMembers members ≤ n ↔ ∀ m ∈ members, m.2.depth ≤ n := by
  induction members with
  | nil => simp [depthMembers]
  | cons m rest ih => rw [depthMembers, Nat.max_le, ih, List.forall_mem_cons]

theorem regularMembers_iff {numeric : String → Bool} {members : List (String × Json)} :
    regularMembers numeric members = true ↔ ∀ m ∈ members, m.2.regular numeric = true := by
  induction members with
  | nil => simp [regularMembers]
  | cons m rest ih => rw [regularMembers, Bool.and_eq_true, ih, List.forall_mem_cons]

/-- Nested to at most 127 levels and regular. -/
structure Sound (numeric : String → Bool) (v : Json) : Prop where
  depth_le : v.depth ≤ 127
  regular : v.regular numeric = true

instance (numeric : String → Bool) (v : Json) : Decidable (Sound numeric v) :=
  decidable_of_iff (v.depth ≤ 127 ∧ v.regular numeric = true)
    ⟨fun h => ⟨h.1, h.2⟩, fun h => ⟨h.depth_le, h.regular⟩⟩

/-- A value that may stand in an object which is itself sound. -/
structure SoundMember (numeric : String → Bool) (v : Json) : Prop where
  depth_le : v.depth ≤ 126
  regular : v.regular numeric = true

theorem sound_object_iff {numeric : String → Bool} {members : List (String × Json)} :
    Sound numeric (object members) ↔
      (members.map Prod.fst).Nodup ∧ ∀ m ∈ members, SoundMember numeric m.2 := by
  constructor
  · rintro ⟨hdepth, hregular⟩
    simp only [depth, regular, Bool.and_eq_true, decide_eq_true_eq] at hdepth hregular
    refine ⟨hregular.1, fun m hm => ⟨?_, regularMembers_iff.mp hregular.2 m hm⟩⟩
    exact depthMembers_le_iff.mp (by omega) m hm
  · rintro ⟨hnodup, hmembers⟩
    refine ⟨?_, ?_⟩
    · have := depthMembers_le_iff.mpr fun m hm => (hmembers m hm).depth_le
      simp only [depth]
      omega
    · simp only [regular, Bool.and_eq_true, decide_eq_true_eq]
      exact ⟨hnodup, regularMembers_iff.mpr fun m hm => (hmembers m hm).regular⟩

theorem soundMember_bool (numeric : String → Bool) (b : Bool) : SoundMember numeric (bool b) :=
  ⟨by simp [depth], by simp [regular]⟩

theorem soundMember_string (numeric : String → Bool) (s : String) :
    SoundMember numeric (string s) :=
  ⟨by simp [depth], by simp [regular]⟩

theorem soundMember_number {numeric : String → Bool} {text : String}
    (h : numeric text = true) : SoundMember numeric (number text) :=
  ⟨by simp [depth], by simpa [regular] using h⟩

/-! ### Up to the texts of numbers -/

mutual

/-- Erase the texts of the numbers. -/
def forget : Json → Json
  | number _ => number ""
  | array items => array (forgetItems items)
  | object members => object (forgetMembers members)
  | v => v

def forgetItems : List Json → List Json
  | [] => []
  | v :: rest => forget v :: forgetItems rest

def forgetMembers : List (String × Json) → List (String × Json)
  | [] => []
  | m :: rest => (m.1, forget m.2) :: forgetMembers rest

end

theorem asStr_forget (v : Json) : v.forget.asStr = v.asStr := by
  cases v <;> simp [forget, asStr]

theorem lookup_forgetMembers (name : String) (members : List (String × Json)) :
    (forgetMembers members).lookup name = (members.lookup name).map forget := by
  induction members with
  | nil => simp [forgetMembers]
  | cons m rest ih =>
      obtain ⟨k, v⟩ := m
      rw [forgetMembers, List.lookup_cons, List.lookup_cons, ih]
      cases name == k <;> rfl

theorem get_forget (v : Json) (name : String) :
    v.forget.get name = (v.get name).map forget := by
  cases v with
  | object members => simp only [forget, get, lookup_forgetMembers]
  | _ => simp [forget, get]

theorem textAt_forget (v : Json) (name : String) : v.forget.textAt name = v.textAt name := by
  rw [textAt, textAt, get_forget, Option.bind_map]
  exact congrArg _ (funext asStr_forget)

/-- Values that differ only in the texts of their numbers have the same texts… -/
theorem textAt_eq_of_forget_eq {v w : Json} (h : v.forget = w.forget) (name : String) :
    v.textAt name = w.textAt name := by
  rw [← textAt_forget v, h, textAt_forget]

/-- Replace the member `name` where it stands, or append it. -/
def insertMember (name : String) (v : Json) : List (String × Json) → List (String × Json)
  | [] => [(name, v)]
  | m :: rest => if m.1 = name then (name, v) :: rest else m :: insertMember name v rest

/-- Remove the member `name`; the last member takes its place. -/
def swapRemove (name : String) : List (String × Json) → List (String × Json)
  | [] => []
  | m :: rest =>
      if m.1 = name then
        match rest.getLast? with
        | some last => last :: rest.dropLast
        | none => []
      else m :: swapRemove name rest

theorem lookup_cons_if (other name : String) (v : Json) (members : List (String × Json)) :
    ((name, v) :: members).lookup other =
      if other = name then some v else members.lookup other := by
  rw [List.lookup_cons]
  by_cases h : other = name
  · simp [h]
  · have hne : (other == name) = false := by simpa using h
    rw [hne, if_neg h]

theorem lookup_insertMember (name other : String) (v : Json) (members : List (String × Json)) :
    (insertMember name v members).lookup other =
      if other = name then some v else members.lookup other := by
  induction members with
  | nil =>
      rw [insertMember, lookup_cons_if]
  | cons m rest ih =>
      obtain ⟨k, w⟩ := m
      unfold insertMember
      by_cases hk : k = name
      · subst hk
        rw [if_pos rfl, lookup_cons_if, lookup_cons_if]
        split <;> rfl
      · rw [if_neg hk, lookup_cons_if, lookup_cons_if, ih]
        by_cases ho : other = k
        · subst ho
          simp [hk]
        · simp [ho]

theorem mem_insertMember {name : String} {v : Json} {members : List (String × Json)}
    {m : String × Json} (h : m ∈ insertMember name v members) : m = (name, v) ∨ m ∈ members := by
  induction members with
  | nil => exact Or.inl (by simpa [insertMember] using h)
  | cons m' rest ih =>
      unfold insertMember at h
      split at h
      · rcases List.mem_cons.mp h with h | h
        · exact Or.inl h
        · exact Or.inr (List.mem_cons_of_mem _ h)
      · rcases List.mem_cons.mp h with h | h
        · exact Or.inr (h ▸ List.mem_cons_self)
        · exact (ih h).imp_right (List.mem_cons_of_mem _)

theorem map_fst_insertMember (name : String) (v : Json) (members : List (String × Json)) :
    (insertMember name v members).map Prod.fst =
      if name ∈ members.map Prod.fst then members.map Prod.fst
      else members.map Prod.fst ++ [name] := by
  induction members with
  | nil => simp [insertMember]
  | cons m rest ih =>
      unfold insertMember
      by_cases hk : m.1 = name
      · simp [hk]
      · have hne : ¬name = m.1 := fun h => hk h.symm
        simp only [hk, if_false, List.map_cons, ih, List.mem_cons, hne, false_or]
        split <;> simp

theorem sound_insertMember {numeric : String → Bool} {name : String} {v : Json}
    {members : List (String × Json)} (hv : SoundMember numeric v)
    (h : Sound numeric (object members)) :
    Sound numeric (object (insertMember name v members)) := by
  rw [sound_object_iff] at h ⊢
  obtain ⟨hnodup, hmembers⟩ := h
  refine ⟨?_, fun m hm => ?_⟩
  · rw [map_fst_insertMember]
    split
    · exact hnodup
    · next hname =>
        refine List.nodup_append.mpr ⟨hnodup, List.nodup_singleton _, ?_⟩
        rintro a ha b hb rfl
        exact hname (List.mem_singleton.mp hb ▸ ha)
  · rcases mem_insertMember hm with rfl | hm
    · exact hv
    · exact hmembers m hm

/-- Where no name stands twice, `swapRemove` keeps exactly the other members. -/
theorem swapRemove_perm (name : String) {members : List (String × Json)}
    (h : (members.map Prod.fst).Nodup) :
    (swapRemove name members).Perm (members.filter fun m => m.1 ≠ name) := by
  induction members with
  | nil => simp [swapRemove]
  | cons m rest ih =>
      obtain ⟨hm, hrest⟩ := List.nodup_cons.mp h
      unfold swapRemove
      by_cases hk : m.1 = name
      · subst hk
        have hkeep : rest.filter (fun m' => m'.1 ≠ m.1) = rest :=
          List.filter_eq_self.mpr fun m' hm' => by
            have : m'.1 ≠ m.1 := fun he => hm (he ▸ List.mem_map_of_mem hm')
            simpa using this
        rw [if_pos rfl, List.filter_cons_of_neg (by simp), hkeep]
        cases hlast : rest.getLast? with
        | none => simp [List.getLast?_eq_none_iff.mp hlast]
        | some last =>
            -- the last member only changes its place
            have hsplit : rest.dropLast ++ [last] = rest :=
              List.dropLast_append_getLast? last hlast
            calc last :: rest.dropLast
                _ = [last] ++ rest.dropLast := rfl
                List.Perm _ (rest.dropLast ++ [last]) := List.perm_append_comm
                _ = rest := hsplit
      · rw [if_neg hk, List.filter_cons_of_pos (by simpa using hk)]
        exact (ih hrest).cons m

theorem lookup_eq_some_iff {members : List (String × Json)}
    (h : (members.map Prod.fst).Nodup) {name : String} {v : Json} :
    members.lookup name = some v ↔ (name, v) ∈ members := by
  induction members with
  | nil => simp
  | cons m rest ih =>
      obtain ⟨k, w⟩ := m
      obtain ⟨hk, hrest⟩ := List.nodup_cons.mp h
      rw [lookup_cons_if, List.mem_cons]
      by_cases hname : name = k
      · subst hname
        have hnot : (name, v) ∉ rest := fun hm => hk (List.mem_map.mpr ⟨(name, v), hm, rfl⟩)
        simp [hnot, eq_comm]
      · simp [hname, ih hrest]

theorem nodup_swapRemove (name : String) {members : List (String × Json)}
    (h : (members.map Prod.fst).Nodup) : ((swapRemove name members).map Prod.fst).Nodup := by
  refine ((swapRemove_perm name h).map Prod.fst).nodup_iff.mpr ?_
  exact h.sublist ((List.filter_sublist).map Prod.fst)

theorem lookup_swapRemove (name other : String) {members : List (String × Json)}
    (h : (members.map Prod.fst).Nodup) :
    (swapRemove name members).lookup other =
      if other = name then none else members.lookup other := by
  apply Option.ext
  intro v
  rw [lookup_eq_some_iff (nodup_swapRemove name h), (swapRemove_perm name h).mem_iff,
    List.mem_filter]
  by_cases ho : other = name
  · simp [ho]
  · simp [ho, lookup_eq_some_iff h]

theorem sound_swapRemove {numeric : String → Bool} (name : String)
    {members : List (String × Json)} (h : Sound numeric (object members)) :
    Sound numeric (object (swapRemove name members)) := by
  rw [sound_object_iff] at h ⊢
  refine ⟨nodup_swapRemove name h.1, fun m hm => h.2 m ?_⟩
  exact List.mem_of_mem_filter ((swapRemove_perm name h.1).mem_iff.mp hm)

end Json

/-! ### Codecs -/

/-- A JSON library: what it reads and what it prints. -/
structure JsonCodec where
  parse : String → Option Json
  serialize : Json → String

namespace JsonCodec

variable (codec : JsonCodec)

/-- Is this the text of a number? -/
def numeric (text : String) : Bool := (codec.parse text).any Json.isNumber

/-- What a program may rely on. -/
structure Lawful : Prop where
  sound : ∀ {s : String} {v : Json}, codec.parse s = some v → v.Sound codec.numeric
  reads : ∀ {v : Json}, v.Sound codec.numeric →
    ∃ v', codec.parse (codec.serialize v) = some v' ∧ v'.forget = v.forget
  ending : ∀ {s : String} {v : Json} {l : List Char} {c : Char}, codec.parse s = some v →
    s.toList = l ++ [c, ']'] → c.isAlpha = true → c = 'e' ∨ c = 'l'
  natural : ∀ {n : ℕ}, n < 2 ^ 64 →
    codec.parse (toString n) = some (.number (toString n))

/-- Sound values are printed without blanks and with the short escapes. -/
def Compact : Prop := ∀ {v : Json}, v.Sound codec.numeric → codec.serialize v = v.render

end JsonCodec

end ClawDesk.Foundations
