/-!
# Files of the host

What a name leads to outside the files that a scenario has placed: the
directories that every host has, one file that is always empty, and nothing
else. A name is followed part by part, so the first part that leads nowhere
decides the fault.
-/

namespace KeyRegistry

inductive FileFault
  | absent
  | holdsNul
  | nameTooLong
  | notDirectory
  | isDirectory
  deriving DecidableEq, Repr

def FileFault.reason : FileFault → String
  | .absent => "No such file or directory (os error 2)"
  | .holdsNul => "file name contained an unexpected NUL byte"
  | .nameTooLong => "File name too long (os error 36)"
  | .notDirectory => "Not a directory (os error 20)"
  | .isDirectory => "Is a directory (os error 21)"

namespace Host

def directories : List (List String) :=
  [["bin"], ["boot"], ["dev"], ["etc"], ["home"], ["lib"], ["media"], ["mnt"], ["opt"], ["proc"],
    ["root"], ["run"], ["sbin"], ["srv"], ["sys"], ["tmp"], ["usr"], ["usr", "bin"],
    ["usr", "include"], ["usr", "lib"], ["usr", "local"], ["usr", "local", "bin"], ["usr", "sbin"],
    ["usr", "share"], ["usr", "src"], ["var"], ["var", "cache"], ["var", "lib"], ["var", "log"],
    ["var", "tmp"]]

def emptyFile : List String := ["dev", "null"]

/-- Where following a name has come: to a directory at a known place, to the working
directory or one around it, whose places are not known, or to the empty file. -/
inductive Spot
  | directory (parts : List String)
  | surroundings
  | emptyFile
  deriving DecidableEq, Repr

def longestName : Nat := 4095

def longestPart : Nat := 255

def Spot.follow (s : Spot) (part : String) : Except FileFault Spot :=
  match s with
  | .emptyFile => .error .notDirectory
  | .surroundings =>
    if part ∈ ["", ".", ".."] then .ok .surroundings
    else if longestPart < part.utf8ByteSize then .error .nameTooLong
    else .error .absent
  | .directory parts =>
    if part ∈ ["", "."] then .ok s
    else if part = ".." then .ok (.directory parts.dropLast)
    else if longestPart < part.utf8ByteSize then .error .nameTooLong
    else if parts ++ [part] ∈ directories then .ok (.directory (parts ++ [part]))
    else if parts ++ [part] = Host.emptyFile then .ok .emptyFile
    else .error .absent

def parts (name : String) : List String :=
  (name.toList.splitOn '/').map String.ofList

def find (name : String) : Except FileFault Spot :=
  if name.toList.contains (Char.ofNat 0) then .error .holdsNul
  else if name = "" then .error .absent
  else if longestName < name.utf8ByteSize then .error .nameTooLong
  else
    let start := if name.toList.head? = some '/' then Spot.directory [] else .surroundings
    (parts name).foldlM Spot.follow start

def read (name : String) : Except FileFault (List UInt8) := do
  match ← find name with
  | .emptyFile => return []
  | .directory _ | .surroundings => throw .isDirectory

end Host

end KeyRegistry
