import KeyRegistry.Text.Digits
import KeyRegistry.Yaml.Plain

/-!
# Quoted scalars

Between single quotes a quote is written twice. Between double quotes a
backslash escapes, a line end too. Line ends are folded as in plain scalars, and
every further line has to be deep enough.
-/

namespace KeyRegistry.Yaml

def escapeValue? (c : Char) : Option Nat :=
  match c with
  | '0' => some 0
  | 'a' => some 7
  | 'b' => some 8
  | 't' | '\t' => some 9
  | 'n' => some 10
  | 'v' => some 11
  | 'f' => some 12
  | 'r' => some 13
  | 'e' => some 27
  | ' ' | '"' | '/' | '\\' => some c.toNat
  | 'N' => some 0x85
  | '_' => some 0xa0
  | 'L' => some 0x2028
  | 'P' => some 0x2029
  | _ => none

def escapeDigits? (c : Char) : Option Nat :=
  if c = 'x' then some 2 else if c = 'u' then some 4 else if c = 'U' then some 8 else none

inductive QuotedStretch
  | word
  | gap
  /-- Behind a line end that a backslash escapes. -/
  | escapedBreak
  /-- Behind such a line end, a gap and line ends that stand for themselves. -/
  | escapedGap (breaks : Nat)
  | backslash
  | code (missing value : Nat)
  deriving DecidableEq

def mayResume (depth : Int) (ps : List Placed) : Bool :=
  depth ≤ column ps && !isDocumentMark ps

def Folded.pushBreaks (f : Folded) (breaks : Nat) : Folded :=
  ⟨List.replicate breaks '\n' ++ f.text, [], none⟩

def quotedFrom? (quote : Char) (depth : Int) (s : QuotedStretch) (f : Folded) :
    List Placed → Option (String × List Placed)
  | [] => none
  | p :: r =>
    if p.char = nul then none
    else match s with
      | .backslash =>
        if isBreak p.char then quotedFrom? quote depth .escapedBreak f r
        else
          match escapeDigits? p.char, escapeValue? p.char with
          | some digits, _ => quotedFrom? quote depth (.code digits 0) f r
          | none, some n => quotedFrom? quote depth .word (f.push (Char.ofNat n)) r
          | none, none => none
      | .code missing value =>
        match Text.hexDigit? p.char with
        | none => none
        | some d =>
          let n := value * 16 + d
          if 1 < missing then quotedFrom? quote depth (.code (missing - 1) n) f r
          else if n.isValidChar then quotedFrom? quote depth .word (f.push (Char.ofNat n)) r
          else none
      | .escapedBreak | .escapedGap _ | .word | .gap =>
        let breaks? := match s with
          | .escapedBreak => some 0
          | .escapedGap breaks => some breaks
          | _ => none
        let isFurther := f.emptyLines.isSome || breaks?.isSome
        if isBreak p.char then
          match breaks? with
          | some breaks => quotedFrom? quote depth (.escapedGap (breaks + 1)) f r
          | none => quotedFrom? quote depth .gap f.pushBreak r
        else if isBlank p.char then
          if isFurther ∧ p.char = '\t' ∧ (p.place.column : Int) < depth then none
          else match breaks? with
            | some breaks => quotedFrom? quote depth (.escapedGap breaks) f r
            | none => quotedFrom? quote depth .gap (f.pushBlank p.char) r
        else if isFurther ∧ !mayResume depth (p :: r) ∧ ¬(s = .escapedBreak ∧ p.char = quote) then
          none
        else
          let f := breaks?.elim f f.pushBreaks
          if p.char = quote then
            match r with
            | q :: r' =>
              if quote = '\'' ∧ q.char = quote then
                quotedFrom? quote depth .word (f.push quote) r'
              else some (f.close.toString, q :: r')
            | [] => some (f.close.toString, [])
          else if quote = '"' ∧ p.char = '\\' then quotedFrom? quote depth .backslash f.close r
          else quotedFrom? quote depth .word (f.push p.char) r

/-- Whether what follows a closing quote can stand there: a line's end, within brackets a
mark, or a colon, which outside of brackets takes a scalar of one line as its key. -/
def mayFollowQuoted (inFlow isOneLine : Bool) (c : Char) : Bool :=
  isLineEnd c || (inFlow && (c = ',' || c = '\x7d' || c = ']')) ||
    (c = ':' && (inFlow || isOneLine))

def quoted? (inFlow : Bool) (depth : Int) : List Placed → Option (String × List Placed)
  | [] => none
  | p :: r => do
    let (t, rest) ← quotedFrom? p.char depth .word {} r
    let (_, rest) ← lineGap? rest
    let isOneLine := (next rest).place.line = p.place.line
    if mayFollowQuoted inFlow isOneLine (nextChar rest) then return (t, rest) else none

end KeyRegistry.Yaml
