import ClawDesk.Foundations.Substring

/-!
# Paths, by their letters

A path is read component by component without asking the file system: an empty
component and `.` stay, `..` goes up, and any other component is the name of an
entry (`normalize`).  `AtOrBelow` compares the locations that two paths name.

The letters of one path may begin those of another one without the second lying
below the first: that takes that the first one ends where a component of the
second does (`atOrBelow_iff`).
-/

namespace ClawDesk.Foundations.LexicalPath

/-- The components of a path, empty ones included. -/
def components (path : List Char) : List (List Char) := path.splitOn '/'

/-- Whether a component goes anywhere. -/
def isName (component : List Char) : Bool := component ≠ [] ∧ component ≠ ['.']

/-- `..`. -/
def dotdot : List Char := ['.', '.']

/-- The place a path names, seen from the root or from the current directory. -/
structure Location where
  absolute : Bool
  names : List (List Char)
  deriving DecidableEq

namespace Location

/-- One level up.  The root has nothing above it, and what is above the current directory
has no name. -/
def parent (loc : Location) : Location :=
  if loc.names = [] ∧ loc.absolute then loc
  else if loc.names = [] ∨ loc.names.getLast? = some dotdot then
    { loc with names := loc.names ++ [dotdot] }
  else { loc with names := loc.names.dropLast }

/-- Where a component leads. -/
def enter (loc : Location) (component : List Char) : Location :=
  if isName component = false then loc
  else if component = dotdot then loc.parent
  else { loc with names := loc.names ++ [component] }

/-- The location is `base` or is reached from it by going down. -/
def AtOrBelow (loc base : Location) : Prop :=
  loc.absolute = base.absolute ∧ base.names <+: loc.names ∧
    dotdot ∉ loc.names.drop base.names.length

instance (loc base : Location) : Decidable (loc.AtOrBelow base) :=
  inferInstanceAs (Decidable (_ ∧ _ ∧ _))

/-- The location is in a sibling of `base` whose name begins with the name of `base`. -/
def InLookalike (loc base : Location) : Prop :=
  ∃ above name more below, more ≠ [] ∧ base.names = above ++ [name] ∧
    loc.names = above ++ (name ++ more) :: below

/-- A look-alike sibling is elsewhere. -/
theorem InLookalike.not_atOrBelow {loc base : Location} (h : loc.InLookalike base) :
    ¬ loc.AtOrBelow base := by
  rintro ⟨-, hnames, -⟩
  obtain ⟨above, name, more, below, hmore, hbase, hloc⟩ := h
  rw [hbase, hloc, List.prefix_append_right_inj, List.cons_prefix_cons] at hnames
  exact hmore (List.self_eq_append_right.mp hnames.1)

end Location

/-- The location of a path. -/
def normalize (path : List Char) : Location :=
  (components path).foldl Location.enter ⟨path.head? = some '/', []⟩

/-- The names on a path, where it does not go up. -/
def names (path : List Char) : List (List Char) := (components path).filter isName

/-- What a path has after its last separator. -/
def lastComponent (path : List Char) : List Char := path.rtakeWhile (· ≠ '/')

/-! ### Paths that do not go up -/

theorem foldl_enter {comps : List (List Char)} (h : dotdot ∉ comps) (loc : Location) :
    comps.foldl Location.enter loc = ⟨loc.absolute, loc.names ++ comps.filter isName⟩ := by
  induction comps generalizing loc with
  | nil => simp
  | cons c comps ih =>
      rw [List.mem_cons, not_or] at h
      rw [List.foldl_cons, ih h.2]
      cases hc : isName c with
      | false => simp [Location.enter, hc]
      | true => simp [Location.enter, hc, Ne.symm h.1]

theorem normalize_eq {path : List Char} (h : dotdot ∉ components path) :
    normalize path = ⟨path.head? = some '/', names path⟩ := by
  unfold normalize
  rw [foldl_enter h]
  rfl

/-- A component is part of the text. -/
theorem infix_of_mem_components {path component : List Char} (h : component ∈ components path) :
    component <:+: path := by
  have hjoin : ['/'].intercalate (components path) = path := List.intercalate_splitOn '/'
  rw [← hjoin]
  generalize components path = comps at h
  induction comps with
  | nil => cases h
  | cons c comps ih =>
      cases comps with
      | nil =>
          rw [List.mem_singleton.mp h]
          simp
      | cons d comps =>
          rw [List.intercalate_cons_cons]
          rcases List.mem_cons.mp h with rfl | hmem
          · exact ((List.prefix_append _ _).trans (List.prefix_append _ _)).isInfix
          · exact (ih hmem).trans (List.suffix_append _ _).isInfix

/-! ### Names along a path -/

theorem names_append_sep (front back : List Char) :
    names (front ++ '/' :: back) = names front ++ names back := by
  unfold names components
  rw [List.splitOn_append_cons_self, List.filter_append]

theorem names_component {component : List Char} (h : '/' ∉ component) :
    names component = if isName component then [component] else [] := by
  unfold names components
  rw [List.splitOn_eq_singleton h, List.filter_singleton, Bool.cond_eq_ite]

/-- What comes before the last component is the same for all paths that continue it. -/
theorem exists_names_last (path : List Char) : ∃ above, ∀ rest,
    names (path ++ rest) = above ++ names (lastComponent path ++ rest) := by
  have hlast : path = lastComponent path ∨ ∃ front, path = front ++ '/' :: lastComponent path :=
    Substring.eq_or_cut_last '/' path
  rcases hlast with hwhole | ⟨front, hcut⟩
  · refine ⟨[], fun rest => ?_⟩
    rw [← hwhole, List.nil_append]
  · refine ⟨names front, fun rest => ?_⟩
    rw [← names_append_sep, ← List.cons_append, ← List.append_assoc, ← hcut]

/-- What follows the first component only adds names. -/
theorem exists_names_first (component rest : List Char) : ∃ below,
    names (component ++ rest) = names (component ++ rest.takeWhile (· ≠ '/')) ++ below := by
  rcases Substring.eq_or_cut_first '/' rest with hwhole | ⟨back, hcut⟩
  · refine ⟨[], ?_⟩
    rw [← hwhole, List.append_nil]
  · refine ⟨names back, ?_⟩
    rw [← names_append_sep, List.append_assoc, ← hcut]

theorem sep_notMem_lastComponent (path : List Char) : '/' ∉ lastComponent path := by
  intro hmem
  simpa using List.mem_rtakeWhile_imp hmem

/-- Nothing follows a separator at the end. -/
theorem lastComponent_of_getLast? {path : List Char} (h : path.getLast? = some '/') :
    lastComponent path = [] := by
  rw [lastComponent, List.rtakeWhile_eq_nil_iff]
  intro hne
  rw [List.getLast?_eq_some_getLast hne] at h
  simp [Option.some.inj h]

theorem sep_notMem_takeWhile (rest : List Char) : '/' ∉ rest.takeWhile (· ≠ '/') := by
  intro hmem
  simpa using List.mem_takeWhile_imp hmem

/-- A name with more letters is another name. -/
theorem isName_append {name more : List Char} (hname : isName name = true) :
    isName (name ++ more) = true := by
  unfold isName at *
  simp only [Bool.decide_and, Bool.and_eq_true, decide_eq_true_eq] at *
  refine ⟨by simp [hname.1], fun heq => ?_⟩
  rcases List.append_eq_singleton_iff.mp heq with ⟨hnil, -⟩ | ⟨hdot, -⟩
  · exact hname.1 hnil
  · exact hname.2 hdot

/-- **Where a text that begins a path names a place on it**: at the end of the path, at a
separator, and where its own last component goes nowhere. -/
theorem names_isPrefix_iff {base rest : List Char} : names base <+: names (base ++ rest) ↔
    (∀ c ∈ rest.head?, c = '/') ∨ isName (lastComponent base) = false := by
  obtain ⟨above, habove⟩ := exists_names_last base
  obtain ⟨below, hbelow⟩ := exists_names_first (lastComponent base) rest
  have hbase : names base = above ++ names (lastComponent base) := by
    simpa using habove []
  have hsep : '/' ∉ lastComponent base ++ rest.takeWhile (· ≠ '/') := by
    rw [List.mem_append, not_or]
    exact ⟨sep_notMem_lastComponent base, sep_notMem_takeWhile rest⟩
  rw [hbase, habove, List.prefix_append_right_inj, hbelow,
    names_component (sep_notMem_lastComponent base), names_component hsep]
  cases hname : isName (lastComponent base) with
  | false => simp
  | true =>
      rw [if_pos rfl, if_pos (isName_append hname), List.singleton_append, List.cons_prefix_cons]
      cases rest with
      | nil => simp
      | cons c rest =>
          by_cases hc : c = '/' <;> simp [hc]

/-- The text `base`, which begins `path`, ends where a component of it does. -/
def EndsAtComponent (base path : List Char) : Prop :=
  (base = [] → path.head? ≠ some '/') ∧
    ((∀ c ∈ path[base.length]?, c = '/') ∨ isName (lastComponent base) = false)

/-- **A path lies below a text that begins it where a component ends**, and only there. -/
theorem atOrBelow_iff {base path : List Char} (hbegins : base <+: path)
    (hup : ¬ dotdot <:+: path) :
    (normalize path).AtOrBelow (normalize base) ↔ EndsAtComponent base path := by
  have hpath : dotdot ∉ components path := fun hmem => hup (infix_of_mem_components hmem)
  have hbase : dotdot ∉ components base := fun hmem =>
    hup ((infix_of_mem_components hmem).trans hbegins.isInfix)
  have hdrop : dotdot ∉ (names path).drop (names base).length := fun hmem =>
    hpath (List.mem_of_mem_filter (List.mem_of_mem_drop hmem))
  obtain ⟨rest, rfl⟩ := hbegins
  rw [normalize_eq hpath, normalize_eq hbase, Location.AtOrBelow, EndsAtComponent,
    and_iff_left hdrop, names_isPrefix_iff, List.getElem?_append_right (le_refl _),
    Nat.sub_self, ← List.head?_eq_getElem?]
  refine and_congr_left fun _ => ?_
  cases base with
  | nil => simp
  | cons c base => simp

end ClawDesk.Foundations.LexicalPath
