import ClawDesk.Foundations.LexicalPath
import ClawDesk.Foundations.TextStore

/-!
# The path validator

The validator blocks the paths in which a blocked pattern occurs, and of the others allows
those that begin with the letters of the workspace root or of an extra allowed path.

A path can begin with the letters of the root and lie elsewhere.  So the accesses stay inside
exactly if the letters of a base end where a component of the path does, or another
base has the path below it (`confines_iff`); bases that end in a separator always do
(`confines_of_trailing_sep`).
-/

namespace ClawDesk.Security

open Foundations
open Foundations.LexicalPath (Location normalize components dotdot)

/-- Result of path validation. -/
inductive PathValidation where
  | allowed
  | blocked (path reason : String)
  deriving DecidableEq

/-- Path validator — ensures filesystem access stays within workspace bounds. -/
structure PathValidator where
  /-- Workspace root (all access must be within this directory). -/
  workspaceRoot : String
  /-- Additional allowed paths outside the workspace. -/
  allowedPaths : List String
  /-- Patterns that are always blocked. -/
  blockedPatterns : List String

namespace PathValidator

/-- Create a new path validator for the given workspace root. -/
def new (workspaceRoot : String) : PathValidator where
  workspaceRoot := workspaceRoot
  allowedPaths := []
  blockedPatterns := ["..", "~", "/etc/shadow", "/etc/passwd", ".ssh", ".gnupg",
    ".aws/credentials", ".env", "id_rsa", "id_ed25519"]

/-- Add an allowed path outside the workspace. -/
def allowPath (validator : PathValidator) (path : String) : PathValidator :=
  { validator with allowedPaths := validator.allowedPaths ++ [path] }

/-- `path.contains(pattern)`. -/
def occursIn (path pattern : String) : Bool := pattern.toList <:+: path.toList

/-- Validate that a file path is safe to access. -/
def validate (validator : PathValidator) (path : String) : PathValidation :=
  match validator.blockedPatterns.find? (occursIn path) with
  | some pattern => .blocked path ("contains blocked pattern: " ++ pattern)
  | none =>
      if startsWith path validator.workspaceRoot then .allowed
      else if validator.allowedPaths.any (startsWith path) then .allowed
      else .blocked path "path is outside workspace and allowed paths"

/-- The validator of a workspace with some extra paths. -/
def build (workspaceRoot : String) (allowed : List String) : PathValidator :=
  allowed.foldl allowPath (new workspaceRoot)

/-- The bases of a workspace: its root and the extra paths. -/
def bases (validator : PathValidator) : List String :=
  validator.workspaceRoot :: validator.allowedPaths

/-- A blocked pattern occurs in the path. -/
def HasBlockedPattern (validator : PathValidator) (path : String) : Prop :=
  ∃ pattern ∈ validator.blockedPatterns, occursIn path pattern = true

/-- The base is at the path or above it, by their components. -/
def Holds (base path : String) : Prop :=
  (normalize path.toList).AtOrBelow (normalize base.toList)

/-- **The accesses stay inside**: what is allowed is at or below a base, nothing goes up,
and a sibling of the root whose name extends that of the root is not mistaken for it. -/
structure Confines (validator : PathValidator) (path : String) : Prop where
  inside : validator.validate path = .allowed → ∃ base ∈ validator.bases, Holds base path
  up : dotdot ∈ components path.toList → ∃ reason, validator.validate path = .blocked path reason
  lookalike : (normalize path.toList).InLookalike (normalize validator.workspaceRoot.toList) →
    (∀ base ∈ validator.allowedPaths, ¬ Holds base path) →
    ∃ reason, validator.validate path = .blocked path reason

/-! ### What the validator does -/

section Validate

variable {validator : PathValidator} {workspaceRoot path : String} {allowed : List String}

theorem hasBlockedPattern_iff :
    validator.HasBlockedPattern path ↔ validator.blockedPatterns.find? (occursIn path) ≠ none := by
  rw [Option.ne_none_iff_isSome, List.find?_isSome]
  rfl

/-- **A path is allowed** if no blocked pattern occurs in it and it begins with a base. -/
theorem validate_eq_allowed_iff : validator.validate path = .allowed ↔
    ¬ validator.HasBlockedPattern path ∧ ∃ base ∈ validator.bases, startsWith path base = true := by
  rw [hasBlockedPattern_iff, not_not]
  unfold validate bases
  cases validator.blockedPatterns.find? (occursIn path) with
  | some pattern => simp
  | none =>
      by_cases hroot : startsWith path validator.workspaceRoot = true
      · simp [hroot]
      · simp [hroot]

/-- What is not allowed is blocked, under its own name. -/
theorem validate_ne_allowed (h : validator.validate path ≠ .allowed) :
    ∃ reason, validator.validate path = .blocked path reason := by
  revert h
  unfold validate
  cases validator.blockedPatterns.find? (occursIn path) with
  | some pattern => exact fun _ => ⟨_, rfl⟩
  | none =>
      dsimp only
      split_ifs with hroot hallowed
      · exact fun h => absurd rfl h
      · exact fun h => absurd rfl h
      · exact fun _ => ⟨_, rfl⟩

/-- Adding paths changes nothing else. -/
theorem foldl_allowPath (validator : PathValidator) (allowed : List String) :
    allowed.foldl allowPath validator =
      { validator with allowedPaths := validator.allowedPaths ++ allowed } := by
  induction allowed generalizing validator with
  | nil => simp
  | cons path allowed ih =>
      rw [List.foldl_cons, ih]
      simp [allowPath]

theorem build_eq : build workspaceRoot allowed =
    { new workspaceRoot with allowedPaths := allowed } := by
  rw [build, foldl_allowPath]
  rfl

@[simp] theorem bases_build : (build workspaceRoot allowed).bases = workspaceRoot :: allowed := by
  rw [build_eq]
  rfl

/-- `..` is a blocked pattern. -/
theorem notUp_of_notBlocked (h : ¬ (build workspaceRoot allowed).HasBlockedPattern path) :
    ¬ dotdot <:+: path.toList := by
  intro hup
  refine h ⟨"..", ?_, decide_eq_true hup⟩
  rw [build_eq]
  exact List.mem_cons_self

/-- The accesses stay inside as soon as what is allowed is below a base. -/
theorem confines_iff_inside : (build workspaceRoot allowed).Confines path ↔
    ((build workspaceRoot allowed).validate path = .allowed →
      ∃ base ∈ workspaceRoot :: allowed, Holds base path) := by
  constructor
  · intro h hallowed
    simpa using h.inside hallowed
  · intro hinside
    refine ⟨by simpa using hinside, fun hup => ?_, fun hlike hnone => ?_⟩
    · refine validate_ne_allowed fun hallowed => ?_
      have hblocked := (validate_eq_allowed_iff.mp hallowed).1
      exact notUp_of_notBlocked hblocked (LexicalPath.infix_of_mem_components hup)
    · refine validate_ne_allowed fun hallowed => ?_
      obtain ⟨base, hbase, hholds⟩ := hinside hallowed
      rw [build_eq] at hlike hnone
      rcases List.mem_cons.mp hbase with rfl | hmem
      · exact hlike.not_atOrBelow hholds
      · exact hnone base hmem hholds

end Validate

/-! ### Where the letters decide -/

/-- The path begins with the base, which ends where a component of the path does. -/
def BeginsAtComponent (base path : String) : Prop :=
  startsWith path base = true ∧ LexicalPath.EndsAtComponent base.toList path.toList

theorem holds_iff {base path : String} (hbegins : startsWith path base = true)
    (hup : ¬ dotdot <:+: path.toList) :
    Holds base path ↔ LexicalPath.EndsAtComponent base.toList path.toList :=
  LexicalPath.atOrBelow_iff (List.isPrefixOf_iff_prefix.mp hbegins) hup

/-- **When the accesses stay inside**: a blocked pattern occurs in the path, or it begins with
no base, or one that it begins with ends at a component, or one spelled in another way
has it below. -/
theorem confines_iff (workspaceRoot : String) (allowed : List String) (path : String) :
    (build workspaceRoot allowed).Confines path ↔
      (build workspaceRoot allowed).HasBlockedPattern path ∨
      (∀ base ∈ workspaceRoot :: allowed, startsWith path base = false) ∨
      (∃ base ∈ workspaceRoot :: allowed, BeginsAtComponent base path) ∨
      ∃ base ∈ workspaceRoot :: allowed, startsWith path base = false ∧ Holds base path := by
  rw [confines_iff_inside, validate_eq_allowed_iff, bases_build]
  by_cases hblocked : (build workspaceRoot allowed).HasBlockedPattern path
  · simp [hblocked]
  have hup := notUp_of_notBlocked hblocked
  constructor
  · intro hinside
    by_cases hsome : ∃ base ∈ workspaceRoot :: allowed, startsWith path base = true
    · obtain ⟨base, hbase, hholds⟩ := hinside ⟨hblocked, hsome⟩
      cases hbegins : startsWith path base with
      | true =>
          have hends := (holds_iff hbegins hup).mp hholds
          exact Or.inr (Or.inr (Or.inl ⟨base, hbase, hbegins, hends⟩))
      | false => exact Or.inr (Or.inr (Or.inr ⟨base, hbase, hbegins, hholds⟩))
    · refine Or.inr (Or.inl fun base hbase => ?_)
      rw [← Bool.not_eq_true]
      exact fun hbegins => hsome ⟨base, hbase, hbegins⟩
  · rintro (h | hnone | ⟨base, hbase, hbegins, hends⟩ | ⟨base, hbase, -, hholds⟩) ⟨-, hsome⟩
    · exact absurd h hblocked
    · obtain ⟨base, hbase, hbegins⟩ := hsome
      rw [hnone base hbase] at hbegins
      cases hbegins
    · exact ⟨base, hbase, (holds_iff hbegins hup).mpr hends⟩
    · exact ⟨base, hbase, hholds⟩

/-- The sibling `project-evil` passes for the workspace `project`. -/
theorem allows_lookalike :
    ¬ (build "/home/user/project" []).Confines "/home/user/project-evil/key" := by
  intro h
  obtain ⟨base, hbase, hholds⟩ := h.inside (by decide +kernel)
  obtain rfl : base = "/home/user/project" := by
    rwa [bases_build, List.mem_singleton] at hbase
  exact absurd hholds (by unfold Holds; decide +kernel)

/-- **Bases that end in a separator keep the accesses inside.** -/
theorem confines_of_trailing_sep {workspaceRoot : String} {allowed : List String}
    (hsep : ∀ base ∈ workspaceRoot :: allowed, base.toList.getLast? = some '/') (path : String) :
    (build workspaceRoot allowed).Confines path := by
  rw [confines_iff_inside, validate_eq_allowed_iff, bases_build]
  rintro ⟨hblocked, base, hbase, hbegins⟩
  refine ⟨base, hbase, (holds_iff hbegins (notUp_of_notBlocked hblocked)).mpr ⟨?_, Or.inr ?_⟩⟩
  · intro hnil
    have hlast := hsep base hbase
    rw [hnil] at hlast
    cases hlast
  · rw [LexicalPath.lastComponent_of_getLast? (hsep base hbase)]
    rfl

theorem confines_of_trailing_sep_project :
    (build "/home/user/project/" []).Confines "/home/user/project-evil/key" :=
  confines_of_trailing_sep (by decide) _

end PathValidator

end ClawDesk.Security
