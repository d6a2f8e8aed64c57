import KeyRegistry.Path

/-!
# Namespaces

A namespace embeds the keys of a consumer, which are paths of their own, into
the subtree under one node. The empty name stands for the whole tree.
-/

namespace KeyRegistry

structure Namespace where
  root : String
  deriving DecidableEq, Repr

namespace Namespace

def trimmed (name : String) : List Char :=
  let open_ := name.toList.dropWhile (· = Path.separator)
  (open_.reverse.dropWhile (· = Path.separator)).reverse

/-- The namespace of a name, or the offending root and the rule it breaks. -/
def ofName (name : String) : Except (String × Path.Fault) Namespace :=
  match trimmed name with
  | [] => .ok ⟨Path.root⟩
  | cs =>
    let top := String.ofList (Path.separator :: cs)
    match Path.fault? top with
    | some fault => .error (top, fault)
    | none => .ok ⟨top⟩

def place (ns : Namespace) (key : String) : String :=
  if ns.root = Path.root then key
  else if key = Path.root then ns.root
  else ns.root ++ key

def resolve (ns : Namespace) (key : String) : Except Path.Fault String :=
  match Path.fault? key with
  | some fault => .error fault
  | none => .ok (ns.place key)

/-- The text behind the root, for texts that continue it at a separator. -/
def relativize (ns : Namespace) (full : String) : Option String :=
  if ns.root = Path.root then some full
  else if full = ns.root then some Path.root
  else if (ns.root.toList ++ [Path.separator]).isPrefixOf full.toList then
    some (String.ofList (full.toList.drop ns.root.toList.length))
  else none

/-- A full path as the consumer sees it; paths elsewhere stay as they are. -/
def shown (ns : Namespace) (full : String) : String :=
  (ns.relativize full).getD full

theorem resolve_of_valid (ns : Namespace) {key : String} (h : Path.Valid key) :
    ns.resolve key = .ok (ns.place key) := by
  simp [resolve, show Path.fault? key = none from h]

theorem resolve_eq_error_iff (ns : Namespace) (key : String) (fault : Path.Fault) :
    ns.resolve key = .error fault ↔ Path.fault? key = some fault := by
  unfold resolve
  split <;> simp_all

end Namespace

end KeyRegistry
