import KeyRegistry.Yaml.Layout
import KeyRegistry.Yaml.Value

/-!
# Documents

A text is one document, or none. Directives and a mark may come before its root,
and marks for its end behind it.
-/

namespace KeyRegistry.Yaml

/-- The directives of a document: only the last one has an effect, and the version is told
at most once. -/
def directives? (hasVersion : Bool) (rules : TagRules) :
    List Token → Option (TagRules × List Token)
  | .version :: r => if hasVersion then none else directives? true [] r
  | .tagRule handle lead :: r => directives? hasVersion [(handle, lead)] r
  | ts => some (rules, ts)

def markedRoot? (rules : TagRules) (ts : List Token) : Option (Node × List Token) :=
  match ts with
  | [] => some (.absent, ts)
  | t :: _ =>
    if t.isDirective ∨ t = .documentStart ∨ t = .documentEnd then some (.absent, ts)
    else Node.ofTokens? rules ts

def root? (ts : List Token) : Option (Node × List Token) := do
  let (rules, r) ← directives? false [] ts
  match r with
  | .documentStart :: r => markedRoot? rules r
  | _ => if ts.head?.any Token.isDirective then none else Node.ofTokens? [] ts

def isDocumentEnd (t : Token) : Bool := t == .documentEnd

def ofText? (text : String) : Option (List (String × Json)) := do
  match (← tokens? text).dropWhile isDocumentEnd with
  | [] => return []
  | ts =>
    let (node, r) ← root? ts
    if r.all isDocumentEnd then
      match ← node.value? with
      | .obj members => return members
      | _ => none
    else none

end KeyRegistry.Yaml
