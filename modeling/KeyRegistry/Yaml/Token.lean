/-!
# Tokens

What a text consists of: scalars and their properties, the marks of bracketed
collections, and the starts and ends of collections that indentation shows.
-/

namespace KeyRegistry.Yaml

inductive Token
  | version
  | tagRule (handle lead : String)
  | documentStart
  | documentEnd
  | blockList
  | blockMap
  | blockEnd
  | openList
  | closeList
  | openMap
  | closeMap
  | item
  | comma
  | key
  | value
  | alias (name : String)
  | anchor (name : String)
  | tag (handle suffix : String)
  /-- A plain scalar is one without quotes or a header. -/
  | scalar (plain : Bool) (text : String)
  deriving DecidableEq, Repr

def Token.isProperty : Token → Bool
  | .anchor _ | .tag .. => true
  | _ => false

def Token.isDirective : Token → Bool
  | .version | .tagRule .. => true
  | _ => false

end KeyRegistry.Yaml
