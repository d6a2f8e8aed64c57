import KeyRegistry.Journal

/-!
# Filters of the journal

A filter is a list of directives. A directive sets how verbose the targets with
a given start may be, or all targets. For a target the directive with the
longest start counts, the last one of several, and a target without a directive
is silent.
-/

namespace KeyRegistry

/-- The rank of the most verbose level that passes; zero lets nothing pass. -/
abbrev Verbosity := Nat

structure Directive where
  start : List Char
  limit : Verbosity
  deriving DecidableEq, Repr

abbrev Filter := List Directive

namespace Filter

def verbosity? (word : List Char) : Option Verbosity :=
  match String.ofList (word.map Char.toLower) with
  | "off" | "0" => some 0
  | "error" | "1" => some Level.error.rank
  | "warn" | "2" => some Level.warn.rank
  | "info" | "3" => some Level.info.rank
  | "debug" | "4" => some Level.debug.rank
  | "trace" | "5" => some Level.trace.rank
  | _ => none

def isTargetChar (c : Char) : Bool :=
  c.isAlphanum || c = '_' || c = ':' || c = '-' || 0x80 ≤ c.toNat

/-- A level alone is for all targets, and a target alone is fully verbose. -/
def directive? (text : List Char) : Option Directive :=
  match verbosity? text with
  | some limit => some ⟨[], limit⟩
  | none =>
    let (target, behind) := text.span isTargetChar
    let start := if (verbosity? target).isSome then [] else target
    if target = [] then none
    else match behind with
      | [] | ['='] => some ⟨start, Level.trace.rank⟩
      | '=' :: r => (verbosity? r).map fun limit => ⟨start, limit⟩
      | _ => none

def cutAtCommas : List Char → List (List Char)
  | [] => [[]]
  | c :: r =>
    if c = ',' then [] :: cutAtCommas r
    else match cutAtCommas r with
      | [] => [[c]]
      | p :: ps => (c :: p) :: ps

/-- The filter that a text describes; without a directive only errors pass. -/
def ofText? (text : String) : Option Filter := do
  let ds ← ((cutAtCommas text.toList).filter (· ≠ [])).mapM directive?
  return if ds = [] then [⟨[], Level.error.rank⟩] else ds

/-- The directive that counts for a target. -/
def directiveFor? (f : Filter) (target : List Char) : Option Directive :=
  f.foldl (fun best d =>
    if !d.start.isPrefixOf target then best
    else match best with
      | some b => if b.start.length ≤ d.start.length then some d else best
      | none => some d) none

def limit (f : Filter) (target : String) : Verbosity :=
  match f.directiveFor? target.toList with
  | some d => d.limit
  | none => 0

def passes (f : Filter) (target : String) (level : Level) : Bool :=
  level.rank ≤ f.limit target

def upTo (level : Level) : Filter := [⟨[], level.rank⟩]

theorem passes_upTo (level other : Level) (target : String) :
    (upTo level).passes target other = decide (other.rank ≤ level.rank) := by
  simp [passes, limit, upTo, directiveFor?]

@[simp] theorem passes_nil (target : String) (level : Level) : passes [] target level = false := by
  cases level <;> rfl

end Filter

end KeyRegistry
