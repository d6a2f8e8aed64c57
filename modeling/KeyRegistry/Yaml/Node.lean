import KeyRegistry.Yaml.Property
import KeyRegistry.Yaml.Token

/-!
# Nodes

The tree that the tokens of a document form. Where a node is missing but its
place is marked, it is the plain scalar that stands for nothing. A node that has
properties alone is an empty plain scalar.
-/

namespace KeyRegistry.Yaml

structure Tag where
  lead : String
  suffix : String
  deriving DecidableEq, Repr

inductive Node
  | plain (t : String)
  | text (t : String)
  | alias (name : String)
  | anchored (name : String) (node : Node)
  | tagged (tag : Tag) (node : Node)
  | list (items : List Node)
  | map (members : List (Node × Node))
  deriving Inhabited

def Node.absent : Node := .plain "~"

/-! ## Tags -/

abbrev TagRules := List (String × String)

def coreTags : String := "tag:yaml.org,2002:"

/-- A handle with both marks needs a rule, two marks alone excepted. -/
def TagRules.resolve? (rules : TagRules) (handle suffix : String) : Option Tag :=
  match rules.lookup handle with
  | some lead => some ⟨lead, suffix⟩
  | none =>
    if handle = "!!" then some ⟨coreTags, suffix⟩
    else if isClosedHandle handle then none
    else some ⟨handle, suffix⟩

structure Properties where
  anchor : Option String := none
  tag : Option Tag := none

def Properties.isEmpty (p : Properties) : Bool := p.anchor.isNone && p.tag.isNone

def Properties.wrap (p : Properties) (node : Node) : Node :=
  let node := p.tag.elim node fun t => .tagged t node
  p.anchor.elim node fun name => .anchored name node

def properties? (rules : TagRules) : List Token → Option (Properties × List Token)
  | .anchor name :: .tag h s :: r => (rules.resolve? h s).map fun t => (⟨some name, some t⟩, r)
  | .tag h s :: .anchor name :: r => (rules.resolve? h s).map fun t => (⟨some name, some t⟩, r)
  | .anchor name :: r => some (⟨some name, none⟩, r)
  | .tag h s :: r => (rules.resolve? h s).map fun t => (⟨none, some t⟩, r)
  | ts => some ({}, ts)

/-! ## Collections -/

/-- Where a node may stand: within brackets, in a block, or in a block where the items of a
list need no indentation. -/
inductive Site
  | flow
  | block
  | member
  deriving DecidableEq, Repr

def isNext (these : List Token) (ts : List Token) : Bool :=
  ts.head?.any fun t => these.contains t

section

variable (rules : TagRules)

mutual

def node? : Nat → Site → List Token → Option (Node × List Token)
  | 0, _, _ => none
  | steps + 1, site, ts =>
    match ts with
    | .alias name :: r => some (.alias name, r)
    | _ => do
      let (p, ts) ← properties? rules ts
      let (node, r) ← match ts with
        | .scalar true t :: r => some (.plain t, r)
        | .scalar false t :: r => some (.text t, r)
        | .openList :: r => flowItems? steps true [] r
        | .openMap :: r => flowMembers? steps true [] r
        | .blockList :: r => if site = .flow then none else blockItems? steps [] r
        | .blockMap :: r => if site = .flow then none else blockMembers? steps [] r
        | .item :: _ =>
          if site = .member then looseItems? steps [] ts
          else if p.isEmpty then none else some (.plain "", ts)
        | _ => if p.isEmpty then none else some (.plain "", ts)
      return (p.wrap node, r)

def nodeUnless? : Nat → Site → List Token → List Token → Option (Node × List Token)
  | 0, _, _, _ => none
  | steps + 1, site, without, ts =>
    if isNext without ts then some (.absent, ts) else node? steps site ts

def nodeValue? : Nat → Site → List Token → List Token → Option (Node × List Token)
  | 0, _, _, _ => none
  | steps + 1, site, without, ts =>
    match ts with
    | .value :: r => nodeUnless? steps site without r
    | _ => some (.absent, ts)

/-- The items of an indented list behind those already read, which come last first. -/
def blockItems? : Nat → List Node → List Token → Option (Node × List Token)
  | 0, _, _ => none
  | steps + 1, read, ts =>
    match ts with
    | .blockEnd :: r => some (.list read.reverse, r)
    | .item :: r => do
      let (node, r) ← nodeUnless? steps .block [.item, .blockEnd] r
      blockItems? steps (node :: read) r
    | _ => none

/-- The same for items without indentation, which end before any other token. -/
def looseItems? : Nat → List Node → List Token → Option (Node × List Token)
  | 0, _, _ => none
  | steps + 1, read, ts =>
    match ts with
    | .item :: r => do
      let (node, r) ← nodeUnless? steps .block [.item, .key, .value, .blockEnd] r
      looseItems? steps (node :: read) r
    | _ => some (.list read.reverse, ts)

def blockMembers? : Nat → List (Node × Node) → List Token → Option (Node × List Token)
  | 0, _, _ => none
  | steps + 1, read, ts =>
    let without := [Token.key, .value, .blockEnd]
    match ts with
    | .blockEnd :: r => some (.map read.reverse, r)
    | .key :: r => do
      let (key, r) ← nodeUnless? steps .member without r
      let (v, r) ← nodeValue? steps .member without r
      blockMembers? steps ((key, v) :: read) r
    | .value :: _ => do
      let (v, r) ← nodeValue? steps .member without ts
      blockMembers? steps ((.absent, v) :: read) r
    | _ => none

/-- The items of a bracketed list, the first of which has no comma before it. -/
def flowItems? : Nat → Bool → List Node → List Token → Option (Node × List Token)
  | 0, _, _, _ => none
  | steps + 1, isFirst, read, ts =>
    let ts := if isFirst ∨ isNext [.closeList] ts then some ts
      else if isNext [.comma] ts then some ts.tail else none
    match ts with
    | none => none
    | some (.closeList :: r) => some (.list read.reverse, r)
    | some (.key :: r) => do
      let (key, r) ←
        if isNext [.value, .comma, .closeList] r then some (.absent, r.tail)
        else node? steps .flow r
      let (v, r) ← nodeValue? steps .flow [.comma, .closeList] r
      flowItems? steps false (.map [(key, v)] :: read) r
    | some ts => do
      let (node, r) ← node? steps .flow ts
      flowItems? steps false (node :: read) r

def flowMembers? : Nat → Bool → List (Node × Node) → List Token → Option (Node × List Token)
  | 0, _, _, _ => none
  | steps + 1, isFirst, read, ts =>
    let ts := if isFirst ∨ isNext [.closeMap] ts then some ts
      else if isNext [.comma] ts then some ts.tail else none
    match ts with
    | none => none
    | some (.closeMap :: r) => some (.map read.reverse, r)
    | some (.key :: r) => do
      let (key, r) ← nodeUnless? steps .flow [.value, .comma, .closeMap] r
      let (v, r) ← nodeValue? steps .flow [.comma, .closeMap] r
      flowMembers? steps false ((key, v) :: read) r
    | some (.value :: r) => do
      let (v, r) ← nodeValue? steps .flow [.comma, .closeMap] (.value :: r)
      flowMembers? steps false ((.absent, v) :: read) r
    | some ts => do
      let (key, r) ← node? steps .flow ts
      flowMembers? steps false ((key, .absent) :: read) r

end

end

/-- The node at the root of a document. Every token is taken in a bounded number of steps. -/
def Node.ofTokens? (rules : TagRules) (ts : List Token) : Option (Node × List Token) :=
  node? rules (4 * ts.length + 4) .block ts

end KeyRegistry.Yaml
