import ClawDesk.Foundations.JsonText

/-!
# Reading compact JSON

`Json.read` reads back what `Json.render` prints: a recursive-descent reader without
whitespace whose numbers are the natural numbers below `2 ^ 64`.  Every value with
such numbers is read back from its printed text (`read_render`), so the reader and
the printer together are a codec (`compactJson`), and a lawful one
(`compactJson_lawful`).
-/

namespace ClawDesk.Foundations

namespace Json

/-! ### The reader -/

def quoteMark : Char := Char.ofNat 34

/-- The character that a one-letter escape stands for. -/
def unescape (c : Char) : Option Char :=
  if c = quoteMark ∨ c = '\\' then some c
  else if c = 'b' then some (Char.ofNat 8)
  else if c = 't' then some (Char.ofNat 9)
  else if c = 'n' then some (Char.ofNat 10)
  else if c = 'f' then some (Char.ofNat 12)
  else if c = 'r' then some (Char.ofNat 13)
  else none

def hexValue (c : Char) : ℕ := if c.isDigit then c.toNat - 48 else c.toNat - 87

/-- The rest of a string literal, its opening quote read, and what follows it. -/
def readString : List Char → Option (List Char × List Char)
  | [] => none
  | c :: rest =>
      if c = quoteMark then some ([], rest)
      else if c = '\\' then
        match rest with
        | [] => none
        | e :: rest =>
            match unescape e with
            | some c => (readString rest).map fun p => (c :: p.1, p.2)
            | none =>
                match e, rest with
                | 'u', '0' :: '0' :: h :: l :: rest =>
                    (readString rest).map fun p =>
                      (Char.ofNat (16 * hexValue h + hexValue l) :: p.1, p.2)
                | _, _ => none
      else (readString rest).map fun p => (c :: p.1, p.2)

/-- Is this how a natural number below `2 ^ 64` is printed? -/
def isNatural (word : List Char) : Bool :=
  decide (Nat.ofDigitChars 10 word 0 < 2 ^ 64) &&
    decide (Nat.toDigits 10 (Nat.ofDigitChars 10 word 0) = word)

def naturalText (text : String) : Bool := isNatural text.toList

/-- The value of a bare word. -/
def atom (word : List Char) : Option Json :=
  if word = "null".toList then some null
  else if word = "true".toList then some (bool true)
  else if word = "false".toList then some (bool false)
  else if isNatural word then some (number (String.ofList word))
  else none

mutual

/-- A value and what follows it. -/
def readValue : ℕ → List Char → Option (Json × List Char)
  | 0, _ => none
  | _, [] => none
  | fuel + 1, c :: rest =>
      if c = quoteMark then (readString rest).map fun p => (string (String.ofList p.1), p.2)
      else if c = '[' then
        if rest.head? = some ']' then some (array [], rest.tail)
        else (readItems fuel rest).map fun p => (array p.1, p.2)
      else if c = '\x7b' then
        if rest.head? = some '\x7d' then some (object [], rest.tail)
        else (readMembers fuel rest).map fun p => (object p.1, p.2)
      else
        (atom ((c :: rest).takeWhile Char.isAlphanum)).map fun v =>
          (v, (c :: rest).dropWhile Char.isAlphanum)

/-- The items of an array, up to its closing bracket. -/
def readItems : ℕ → List Char → Option (List Json × List Char)
  | 0, _ => none
  | fuel + 1, cs =>
      match readValue fuel cs with
      | some (v, c :: rest) =>
          if c = ',' then (readItems fuel rest).map fun p => (v :: p.1, p.2)
          else if c = ']' then some ([v], rest)
          else none
      | _ => none

/-- The members of an object, up to its closing brace. -/
def readMembers : ℕ → List Char → Option (List (String × Json) × List Char)
  | 0, _ => none
  | _, [] => none
  | fuel + 1, q :: cs =>
      if q = quoteMark then
        match readString cs with
        | some (name, ':' :: cs) =>
            match readValue fuel cs with
            | some (v, c :: rest) =>
                if c = ',' then
                  (readMembers fuel rest).map fun p => ((String.ofList name, v) :: p.1, p.2)
                else if c = '\x7d' then some ([(String.ofList name, v)], rest)
                else none
            | _ => none
        | _ => none
      else none

end

/-- The value a text denotes. -/
def read (s : String) : Option Json :=
  match readValue (s.toList.length + 1) s.toList with
  | some (v, []) => some v
  | _ => none

/-! ### Strings -/

theorem eq_ofNat {c : Char} {n : ℕ} (h : c.toNat = n) : c = Char.ofNat n := by
  rw [← h, Char.ofNat_toNat]

theorem hexValue_hexDigit {n : ℕ} (h : n < 16) : hexValue (hexDigit n) = n := by
  revert n
  decide

/-- An escaped character is read as the character. -/
theorem readString_escapeChar (c : Char) (rest : List Char) :
    readString (escapeChar c ++ rest) = (readString rest).map fun p => (c :: p.1, p.2) := by
  unfold escapeChar
  split
  case h_1 h => rw [eq_ofNat h]; rfl
  case h_2 h => rw [eq_ofNat h]; rfl
  case h_3 h => rw [eq_ofNat h]; rfl
  case h_4 h => rw [eq_ofNat h]; rfl
  case h_5 h => rw [eq_ofNat h]; rfl
  case h_6 h => rw [eq_ofNat h]; rfl
  case h_7 h => rw [eq_ofNat h]; rfl
  case h_8 n hquote hslash _ _ _ _ _ =>
    split
    · next hlow =>
        have hchar : Char.ofNat (16 * hexValue (hexDigit (c.toNat / 16)) +
            hexValue (hexDigit (c.toNat % 16))) = c := by
          rw [hexValue_hexDigit (by omega), hexValue_hexDigit (by omega),
            show 16 * (c.toNat / 16) + c.toNat % 16 = c.toNat by omega, Char.ofNat_toNat]
        show (readString rest).map _ = _
        rw [hchar]
    · have hq : c ≠ quoteMark := fun h => hquote (h ▸ rfl)
      have hs : c ≠ '\\' := fun h => hslash (h ▸ rfl)
      rw [List.singleton_append, readString.eq_def]
      simp only [if_neg hq, if_neg hs]

theorem readString_quote (cs rest : List Char) :
    readString (cs.flatMap escapeChar ++ quoteMark :: rest) = some (cs, rest) := by
  induction cs with
  | nil =>
      rw [List.flatMap_nil, List.nil_append, readString.eq_def]
      simp only [if_true]
  | cons c cs ih => rw [List.flatMap_cons, List.append_assoc, readString_escapeChar, ih]; rfl

theorem toList_quote (s : String) :
    (quote s).toList = quoteMark :: (s.toList.flatMap escapeChar ++ [quoteMark]) := by
  simp [quote, quoteMark]

/-! ### Bare words -/

/-- No bare word goes on into `rest`. -/
def Stops (rest : List Char) : Prop := ∀ c ∈ rest.head?, c.isAlphanum = false

theorem takeWhile_word {word rest : List Char} (hword : ∀ c ∈ word, c.isAlphanum = true)
    (hrest : Stops rest) :
    (word ++ rest).takeWhile Char.isAlphanum = word ∧
      (word ++ rest).dropWhile Char.isAlphanum = rest := by
  rw [List.takeWhile_append_of_pos hword, List.dropWhile_append_of_pos hword]
  cases rest with
  | nil => simp
  | cons c rest =>
      have hc : c.isAlphanum = false := hrest c rfl
      simp [hc]

/-- What a bare word is made of. -/
theorem isAlphanum_of_isNatural {word : List Char} (h : isNatural word = true) :
    word ≠ [] ∧ ∀ c ∈ word, c.isDigit = true := by
  simp only [isNatural, Bool.and_eq_true, decide_eq_true_eq] at h
  rw [← h.2]
  exact ⟨Nat.toDigits_ne_nil, fun c hc => Nat.isDigit_of_mem_toDigits (by omega) (by omega) hc⟩

theorem atom_natural {word : List Char} (h : isNatural word = true) :
    atom word = some (number (String.ofList word)) := by
  obtain ⟨hne, hdigit⟩ := isAlphanum_of_isNatural h
  have hno : ∀ s : List Char, (∃ c ∈ s, c.isDigit = false) → word ≠ s := by
    rintro s ⟨c, hc, hcd⟩ rfl
    simp [hdigit c hc] at hcd
  unfold atom
  rw [if_neg (hno _ ⟨'n', by decide, by decide⟩), if_neg (hno _ ⟨'t', by decide, by decide⟩),
    if_neg (hno _ ⟨'f', by decide, by decide⟩), if_pos h]

/-- A bare word is read, and nothing of what follows it. -/
theorem readValue_word {word rest : List Char} {v : Json} (fuel : ℕ) (hne : word ≠ [])
    (hword : ∀ c ∈ word, c.isAlphanum = true) (hatom : atom word = some v)
    (hrest : Stops rest) : readValue (fuel + 1) (word ++ rest) = some (v, rest) := by
  obtain ⟨htake, hdrop⟩ := takeWhile_word hword hrest
  cases word with
  | nil => exact absurd rfl hne
  | cons c word =>
      have hc := hword c List.mem_cons_self
      have hquote : c ≠ quoteMark := by rintro rfl; revert hc; decide
      have hbracket : c ≠ '[' := by rintro rfl; revert hc; decide
      have hbrace : c ≠ '\x7b' := by rintro rfl; revert hc; decide
      rw [List.cons_append] at htake hdrop ⊢
      rw [readValue]
      simp only [if_neg hquote, if_neg hbracket, if_neg hbrace, htake, hdrop, hatom,
        Option.map_some]

/-! ### The round trip -/

def itemsText (items : List Json) : List Char :=
  [','].intercalate ((renderItems items).map String.toList)

def membersText (members : List (String × Json)) : List Char :=
  [','].intercalate ((renderMembers members).map String.toList)

theorem toList_render_array (items : List Json) :
    (render (array items)).toList = '[' :: (itemsText items ++ [']']) := by
  simp [render, itemsText]

theorem toList_render_object (members : List (String × Json)) :
    (render (object members)).toList = '\x7b' :: (membersText members ++ ['\x7d']) := by
  simp [render, membersText]

@[simp] theorem itemsText_singleton (v : Json) : itemsText [v] = (render v).toList := by
  simp [itemsText, renderItems]

theorem itemsText_cons (v w : Json) (items : List Json) :
    itemsText (v :: w :: items) = (render v).toList ++ ',' :: itemsText (w :: items) := by
  simp [itemsText, renderItems]

def memberText (m : String × Json) : List Char :=
  (quote m.1).toList ++ ':' :: (render m.2).toList

@[simp] theorem membersText_singleton (m : String × Json) : membersText [m] = memberText m := by
  simp [membersText, renderMembers, memberText]

theorem membersText_cons (m m' : String × Json) (members : List (String × Json)) :
    membersText (m :: m' :: members) = memberText m ++ ',' :: membersText (m' :: members) := by
  simp [membersText, renderMembers, memberText]

theorem stops_cons {c : Char} (h : c.isAlphanum = false) (rest : List Char) :
    Stops (c :: rest) := by
  rintro _ ⟨⟩
  exact h

/-- The first character of a printed value closes neither an array nor an object. -/
theorem head_render {v : Json} (h : v.regular naturalText = true)
    (rest : List Char) :
    ((render v).toList ++ rest).head? ≠ some ']' := by
  cases v with
  | null => simp [render]
  | bool b => cases b <;> simp [render]
  | number text =>
      obtain ⟨hne, hdigit⟩ := isAlphanum_of_isNatural (by simpa [regular, naturalText] using h)
      rw [render]
      cases htext : text.toList with
      | nil => exact absurd htext hne
      | cons c cs =>
          rintro ⟨⟩
          simpa using hdigit ']' (by rw [htext]; exact List.mem_cons_self)
  | string s => simp [render, toList_quote, quoteMark]
  | array items => simp [toList_render_array]
  | object members => simp [toList_render_object]

theorem head_items {v : Json} {items : List Json}
    (h : regularItems naturalText (v :: items) = true) (rest : List Char) :
    (itemsText (v :: items) ++ rest).head? ≠ some ']' := by
  have hv : v.regular naturalText = true := by
    rw [regularItems, Bool.and_eq_true] at h
    exact h.1
  cases items with
  | nil =>
      rw [itemsText_singleton]
      exact head_render hv rest
  | cons w items =>
      rw [itemsText_cons, List.append_assoc]
      exact head_render hv _

theorem head_members (m : String × Json) (members : List (String × Json)) (rest : List Char) :
    (membersText (m :: members) ++ rest).head? ≠ some '\x7d' := by
  cases members <;> simp [membersText_cons, memberText, toList_quote, quoteMark]

/-- A member is read up to the end of its value. -/
theorem readMembers_memberText {m : String × Json} {fuel : ℕ} {c : Char} {rest : List Char}
    (h : readValue fuel ((render m.2).toList ++ c :: rest) = some (m.2, c :: rest)) :
    readMembers (fuel + 1) (memberText m ++ c :: rest) =
      if c = ',' then (readMembers fuel rest).map fun p => (m :: p.1, p.2)
      else if c = '\x7d' then some ([m], rest)
      else none := by
  rw [memberText, toList_quote, List.append_assoc, List.cons_append, List.cons_append,
    List.append_assoc, List.singleton_append, readMembers, if_pos rfl, readString_quote]
  simp only [h, String.ofList_toList]

mutual

/-- **What is printed is read back.** -/
theorem readValue_render : ∀ (v : Json) (fuel : ℕ) (rest : List Char),
    v.regular naturalText = true →
    (render v).toList.length < fuel → Stops rest →
    readValue fuel ((render v).toList ++ rest) = some (v, rest)
  | _, 0, _ => fun _ hfuel _ => absurd hfuel (by omega)
  | null, fuel + 1, rest => by
      intro _ _ hrest
      refine readValue_word fuel ?_ ?_ rfl hrest <;> simp [render]
  | bool true, fuel + 1, rest => by
      intro _ _ hrest
      refine readValue_word fuel ?_ ?_ rfl hrest <;> simp [render]
  | bool false, fuel + 1, rest => by
      intro _ _ hrest
      refine readValue_word fuel ?_ ?_ rfl hrest <;> simp [render]
  | number text, fuel + 1, rest => by
      intro hregular _ hrest
      have hnatural : isNatural text.toList = true := by
        simpa [regular, naturalText] using hregular
      obtain ⟨hne, hdigit⟩ := isAlphanum_of_isNatural hnatural
      have hatom := atom_natural hnatural
      rw [String.ofList_toList] at hatom
      exact readValue_word fuel hne (fun c hc => by simp [Char.isAlphanum, hdigit c hc]) hatom
        hrest
  | string s, fuel + 1, rest => by
      intro _ _ _
      rw [render, toList_quote, List.cons_append, List.append_assoc, List.singleton_append,
        readValue]
      simp only [if_true, readString_quote, Option.map_some, String.ofList_toList]
  | array [], fuel + 1, rest => by
      intro _ _ _
      rw [toList_render_array, List.cons_append, readValue]
      simp [itemsText, renderItems, quoteMark]
  | array (v :: items), fuel + 1, rest => by
      intro hregular hfuel _
      have hitems : regularItems naturalText (v :: items) = true := by
        simpa [regular] using hregular
      rw [toList_render_array] at hfuel
      have hread := readItems_render (v :: items) fuel rest (by simp) hitems
        (by simp at hfuel; omega)
      rw [toList_render_array, List.cons_append, List.append_assoc, List.singleton_append,
        readValue]
      rw [if_neg (by decide), if_pos rfl, if_neg (head_items hitems _), hread]
      rfl
  | object [], fuel + 1, rest => by
      intro _ _ _
      rw [toList_render_object, List.cons_append, readValue]
      simp [membersText, renderMembers, quoteMark]
  | object (m :: members), fuel + 1, rest => by
      intro hregular hfuel _
      have hmembers : regularMembers naturalText (m :: members) = true := by
        rw [regular, Bool.and_eq_true] at hregular
        exact hregular.2
      rw [toList_render_object] at hfuel
      have hfuel' : fuel = fuel - 1 + 1 := by simp at hfuel; omega
      have hread := readMembers_render (m :: members) (fuel - 1) rest (by simp) hmembers
        (by simp at hfuel; omega)
      rw [← hfuel'] at hread
      rw [toList_render_object, List.cons_append, List.append_assoc, List.singleton_append,
        readValue]
      rw [if_neg (by decide), if_neg (by decide), if_pos rfl,
        if_neg (head_members m members _), hread]
      rfl

theorem readItems_render : ∀ (items : List Json) (fuel : ℕ) (rest : List Char), items ≠ [] →
    regularItems naturalText items = true →
    (itemsText items).length + 1 < fuel →
    readItems fuel (itemsText items ++ ']' :: rest) = some (items, rest)
  | _, 0, _, _, _, hfuel => absurd hfuel (by omega)
  | [], _, _, hne, _, _ => absurd rfl hne
  | [v], fuel + 1, rest, _, hregular, hfuel => by
      have hv := readValue_render v fuel (']' :: rest) (by simpa [regularItems] using hregular)
        (by simp at hfuel; omega) (stops_cons rfl rest)
      rw [itemsText_singleton, readItems, hv]
      simp
  | v :: w :: items, fuel + 1, rest, _, hregular, hfuel => by
      have hboth : v.regular naturalText = true ∧
          regularItems naturalText (w :: items) = true := by
        simpa [regularItems] using hregular
      rw [itemsText_cons, List.length_append, List.length_cons] at hfuel
      have hv := readValue_render v fuel (',' :: (itemsText (w :: items) ++ ']' :: rest))
        hboth.1 (by omega) (stops_cons rfl _)
      have hitems := readItems_render (w :: items) fuel rest (by simp) hboth.2 (by omega)
      rw [itemsText_cons, List.append_assoc, List.cons_append, readItems, hv]
      simp [hitems]

theorem readMembers_render : ∀ (members : List (String × Json)) (fuel : ℕ)
    (rest : List Char), members ≠ [] → regularMembers naturalText members = true →
    (membersText members).length + 1 < fuel + 1 →
    readMembers (fuel + 1) (membersText members ++ '\x7d' :: rest) = some (members, rest)
  | [] => fun _ _ hne => absurd rfl hne
  | [m] => by
      intro fuel rest _ hregular hfuel
      rw [membersText_singleton, memberText, List.length_append, List.length_cons] at hfuel
      have hv := readValue_render m.2 fuel ('\x7d' :: rest)
        (by simpa [regularMembers] using hregular) (by omega) (stops_cons rfl rest)
      rw [membersText_singleton, readMembers_memberText hv]
      simp
  | m :: m' :: members => by
      intro fuel rest _ hregular hfuel
      have hboth : m.2.regular naturalText = true ∧
          regularMembers naturalText (m' :: members) = true := by
        simpa [regularMembers] using hregular
      rw [membersText_cons, memberText, List.length_append, List.length_append,
        List.length_cons, List.length_cons] at hfuel
      have hv := readValue_render m.2 fuel
        (',' :: (membersText (m' :: members) ++ '\x7d' :: rest)) hboth.1 (by omega)
        (stops_cons rfl _)
      have hfuel' : fuel = fuel - 1 + 1 := by omega
      have hmembers := readMembers_render (m' :: members) (fuel - 1) rest (by simp) hboth.2
        (by omega)
      rw [← hfuel'] at hmembers
      rw [membersText_cons, List.append_assoc, List.cons_append, readMembers_memberText hv]
      simp [hmembers]

end

theorem read_render {v : Json} (h : v.regular naturalText = true) :
    read (render v) = some v := by
  have hread := readValue_render v ((render v).toList.length + 1) [] h (by omega) (by simp [Stops])
  rw [List.append_nil] at hread
  rw [read, hread]

/-! ### The codec -/

/-! ### The codec -/

theorem not_isAlpha_of_isDigit {c : Char} (h : c.isDigit = true) : c.isAlpha = false := by
  have h9 : c.toNat ≤ '9'.toNat := (Char.isDigit_iff_toNat.mp h).2
  -- Both ranges of letters lie above the digits.
  have above {lo : Char} (hlo : '9'.toNat < lo.toNat) : ¬ lo.val ≤ c.val := by
    intro hle
    exact absurd (UInt32.le_iff_toNat_le.mp hle) (Nat.not_le_of_lt (Nat.lt_of_le_of_lt h9 hlo))
  have hupper : c.isUpper = false := decide_eq_false fun hc => above (by decide) hc.1
  have hlower : c.isLower = false :=
    (congrArg (· && _) (decide_eq_false (above (by decide)))).trans (Bool.false_and _)
  show (c.isUpper || c.isLower) = false
  rw [hupper, hlower]
  rfl

/-- A printed value that ends in a letter is `true`, `false` or `null`. -/
theorem getLast_render {v : Json} (h : v.regular naturalText = true) {c : Char}
    (hlast : (render v).toList.getLast? = some c) (hc : c.isAlpha = true) :
    c = 'e' ∨ c = 'l' := by
  have hnot {d : Char} (hd : (render v).toList.getLast? = some d) (hdc : d.isAlpha = false) :
      False := by
    obtain rfl : c = d := Option.some.inj (hlast.symm.trans hd)
    rw [hc] at hdc
    contradiction
  cases v with
  | null => exact Or.inr (by simpa [render] using hlast.symm)
  | bool b =>
      left
      cases b <;> simpa [render] using hlast.symm
  | number text =>
      obtain ⟨-, hdigit⟩ := isAlphanum_of_isNatural (by simpa [regular, naturalText] using h)
      exact (hnot hlast (not_isAlpha_of_isDigit (hdigit c (List.mem_of_getLast? hlast)))).elim
  | string s =>
      refine (hnot (d := quoteMark) ?_ (by decide)).elim
      rw [render, toList_quote, ← List.cons_append, List.getLast?_concat]
  | array items =>
      refine (hnot (d := ']') ?_ (by decide)).elim
      rw [toList_render_array, ← List.cons_append, List.getLast?_concat]
  | object members =>
      refine (hnot (d := '\x7d') ?_ (by decide)).elim
      rw [toList_render_object, ← List.cons_append, List.getLast?_concat]

theorem itemsText_ne_nil {v : Json} {items : List Json}
    (h : regularItems naturalText (v :: items) = true) : itemsText (v :: items) ≠ [] := by
  intro hnil
  exact head_items h [']'] (by rw [hnil]; rfl)

theorem getLast_itemsText {v : Json} {items : List Json}
    (h : regularItems naturalText (v :: items) = true) {c : Char}
    (hlast : (itemsText (v :: items)).getLast? = some c) (hc : c.isAlpha = true) :
    c = 'e' ∨ c = 'l' := by
  induction items generalizing v with
  | nil =>
      rw [itemsText_singleton] at hlast
      exact getLast_render (by simpa [regularItems] using h) hlast hc
  | cons w items ih =>
      rw [regularItems, Bool.and_eq_true] at h
      have hne : itemsText (w :: items) ≠ [] := itemsText_ne_nil h.2
      rw [itemsText_cons, List.getLast?_append_of_ne_nil _ (by simp),
        List.getLast?_cons_of_ne_nil hne] at hlast
      exact ih h.2 hlast

/-- The last item of a printed array that ends in a letter is `true`, `false` or `null`. -/
theorem ending_render {v : Json} (h : v.regular naturalText = true) {l : List Char} {c : Char}
    (htext : (render v).toList = l ++ [c, ']']) (hc : c.isAlpha = true) :
    c = 'e' ∨ c = 'l' := by
  have hlast : (render v).toList.getLast? = some ']' := by simp [htext]
  cases v with
  | array items =>
      have hinit : '[' :: itemsText items = l ++ [c] := by
        rw [toList_render_array] at htext
        have hcut : ('[' :: itemsText items) ++ [']'] = (l ++ [c]) ++ [']'] := by simpa using htext
        exact List.append_cancel_right hcut
      have hclast : ('[' :: itemsText items).getLast? = some c := by simp [hinit]
      cases items with
      | nil =>
          obtain rfl : '[' = c := by simpa [itemsText, renderItems] using hclast
          revert hc
          decide
      | cons v items =>
          have hitems : regularItems naturalText (v :: items) = true := by
            simpa [regular] using h
          rw [List.getLast?_cons_of_ne_nil (itemsText_ne_nil hitems)] at hclast
          exact getLast_itemsText hitems hclast hc
  | null => simp [render] at hlast
  | bool b => cases b <;> simp [render] at hlast
  | number text =>
      obtain ⟨-, hdigit⟩ := isAlphanum_of_isNatural (by simpa [regular, naturalText] using h)
      exact absurd (hdigit ']' (List.mem_of_getLast? hlast)) (by decide)
  | string s =>
      rw [render, toList_quote, ← List.cons_append, List.getLast?_concat] at hlast
      exact absurd (Option.some.inj hlast) (by decide)
  | object members =>
      rw [toList_render_object, ← List.cons_append, List.getLast?_concat] at hlast
      exact absurd (Option.some.inj hlast) (by decide)

/-- Compact JSON as it is printed, with natural numbers below `2 ^ 64`. -/
def compactJson : JsonCodec where
  parse s := (read s).filter fun v => decide (v.Sound naturalText) && decide (render v = s)
  serialize := render

theorem compactJson_parse_iff {s : String} {v : Json} :
    compactJson.parse s = some v ↔ v.Sound naturalText ∧ render v = s := by
  simp only [compactJson, Option.filter_eq_some_iff, Bool.and_eq_true, decide_eq_true_eq]
  constructor
  · exact fun h => h.2
  · rintro ⟨hsound, rfl⟩
    exact ⟨read_render hsound.regular, hsound, rfl⟩

theorem compactJson_numeric : compactJson.numeric = naturalText := by
  funext text
  rw [Bool.eq_iff_iff, JsonCodec.numeric, Option.any_eq_true]
  constructor
  · rintro ⟨v, hparse, hv⟩
    obtain ⟨hsound, rfl⟩ := compactJson_parse_iff.mp hparse
    cases v with
    | number text => simpa [render, regular] using hsound.regular
    | _ => simp [isNumber] at hv
  · intro h
    exact ⟨number text, compactJson_parse_iff.mpr
      ⟨⟨by simp [depth], by simpa [regular] using h⟩, by simp [render]⟩, rfl⟩

theorem naturalText_toString {n : ℕ} (h : n < 2 ^ 64) : naturalText (toString n) = true := by
  have hlist : (toString n).toList = Nat.toDigits 10 n := by
    rw [Nat.toString_eq_repr, Nat.toList_repr]
  simp only [naturalText, isNatural, hlist, Nat.ofDigitChars_ten_toDigits, decide_true,
    Bool.and_true, decide_eq_true_eq]
  exact h

theorem compactJson_compact : compactJson.Compact := fun _ => rfl

/-- **Compact JSON is a lawful codec.** -/
theorem compactJson_lawful : compactJson.Lawful where
  sound h := by
    rw [compactJson_numeric]
    exact (compactJson_parse_iff.mp h).1
  reads {v} h := by
    rw [compactJson_numeric] at h
    exact ⟨v, compactJson_parse_iff.mpr ⟨h, rfl⟩, rfl⟩
  ending h htext hc := by
    obtain ⟨hsound, rfl⟩ := compactJson_parse_iff.mp h
    exact ending_render hsound.regular htext hc
  natural h := compactJson_parse_iff.mpr
    ⟨⟨by simp [depth], by simpa [regular] using naturalText_toString h⟩, by simp [render]⟩

end Json

end ClawDesk.Foundations
