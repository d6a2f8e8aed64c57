import KeyRegistry.Center.Handle
import KeyRegistry.Center.Lenient

/-!
# Commands of a scenario

A scenario is a list of steps over named objects in a fresh world. `Command` is
what one step asks for, and `Answer` what it comes to.
-/

namespace KeyRegistry.Scenario

inductive SessionCommand
  | request (r : Request)
  | watch (root name : String)
  | close
  | number
  | createWithParents (path : String) (data : List UInt8) (mode : Mode)
  | ensureAncestors (path : String)
  | ensurePath (path : String)
  | collectSubtree (path : String)
  | deleteRecursive (path : String)
  | applySeed (namespaceName source : String) (bytes : List UInt8) (overwrite : Bool)

inductive ReplicaCommand
  | start (session : String)
  | close (ms : Nat)
  | entry (path : String)
  | children (path : String)
  | await (ms : Nat)
  | describe

inductive CenterCommand
  | start
  | stop
  | isStarted
  | get (key : String)
  | getDirectly (key : String)
  | childNames (key : String)
  | countChildren (key : String)
  | isPresent (key : String)
  | persist (key value : String)
  | update (key value : String)
  | persistEphemeral (key value : String)
  | persistEphemeralSequential (key : String)
  | persistSequential (key value : String)
  | remove (key : String)
  | time (key : String)
  | sessionHandle (name : String)
  | replicaHandle (name : String)
  | clearInterrupted

inductive HandleCommand
  | create (key : String) (data : List UInt8) (mode : Mode)
  | stat (key : String)
  | data (key : String)
  | children (key : String)
  | delete (key : String)
  | deleteVersion (key : String) (version : Int32)

inductive ViewCommand
  | entry (key : String)
  | children (key : String)
  | initialized
  | await (ms : Nat)

inductive Command
  | connect (name servers : String) (credentials : Option Credentials) (undecided : Bool)
  | failConnects (count : Nat)
  | inject (error : ServiceError)
  | latency (ms : Nat)
  | expire (number : Nat)
  | peek (paths : List String)
  | advance (ms : Nat)
  | now
  | drainWatch (name : String)
  | dropWatch (name : String)
  | session (name : String) (c : SessionCommand)
  | newReplica (name root : String)
  | replica (name : String) (c : ReplicaCommand)
  | newCenter (name : String) (settings : Settings) (seed : Option (List UInt8))
      (lenient undecided : Bool)
  | center (name : String) (c : CenterCommand)
  | handle (name : String) (c : HandleCommand)
  | view (name : String) (c : ViewCommand)
  | newConnector (name : String) (settings : Settings) (undecided : Bool)
  | connectWith (connector session : String)

inductive Answer
  | nothing
  | flag (b : Bool)
  | number (n : Nat)
  | text (t : String)
  | maybeText (t : Option String)
  | texts (ts : List String)
  | stat (s : Stat)
  | maybeStat (s : Option Stat)
  | node (data : List UInt8) (stat : Stat)
  | maybeNode (n : Option (List UInt8 × Stat))
  | nodes (ns : List (Option (List UInt8 × Stat)))
  | maybeEntry (e : Option Entry)
  | outcomes (os : List Outcome)
  | opened (number : Nat)
  | events (es : List Event) (ended : Bool)
  | shutdown (s : Shutdown)
  | replica (root : String) (phase : ReplicaPhase) (size : Nat) (initialized : Bool)
  | seeded (r : SeedReport)
  | handle (number : Nat) (root : String)
  | time (told : Bool)
  | refused (e : ServiceError)
  | failed (e : RegistryError)
  | unknownName

inductive Binding
  | session (name : String) (s : SessionId)
  | watch (name : String) (ensemble watch : Nat)
  | noWatch (name : String)
  | replica (name : String) (m : Nat)
  | center (name : String) (c : Nat)
  | lenient (name : String) (l : LenientCenter)
  | sessionHandle (name : String) (h : SessionHandle)
  | replicaHandle (name : String) (h : ReplicaHandle)
  | connector (name : String) (c : Nat)

/-- A step's answer, the tally of the lenient center it was about, and its binding. -/
structure Result where
  answer : Answer
  tally : Option Tally := none
  binding : Option Binding := none

namespace Answer

def ofService {α : Type} (f : α → Answer) : Except ServiceError α → Answer
  | .ok a => f a
  | .error e => .refused e

def ofRegistry {α : Type} (f : α → Answer) : Except RegistryError α → Answer
  | .ok a => f a
  | .error e => .failed e

def ofValue : (r : Request) → r.Value → Answer
  | .stat _, s => .maybeStat s
  | .getData _, n => .node n.1 n.2
  | .getChildren _, names => .texts names
  | .create .., p => .text p
  | .setData .., s => .stat s
  | .delete .., _ => .nothing
  | .commit _, os => .outcomes os
  | .watch _, _ => .nothing

end Answer

end KeyRegistry.Scenario
