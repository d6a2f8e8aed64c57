import KeyRegistry.Tree

/-!
# The coordination ensemble

Sessions share a tree. A call to the service has two halves: `accept` takes the
next fault off the queue and says until when the call is held up, and `complete`
acts, in one step, if the session is still good and no fault was taken. A watch
collects the events within its root until its session ends.
-/

namespace KeyRegistry

inductive SessionPhase
  | live
  | expired
  | closed
  deriving DecidableEq, Repr

structure Session where
  identity : Option String
  phase : SessionPhase
  deriving DecidableEq, Repr

inductive WatchPhase
  /-- Registered: events arrive. -/
  | registered
  /-- The session is gone: what has arrived can still be read. -/
  | ended
  | dropped
  deriving DecidableEq, Repr

structure Watch where
  session : Nat
  root : String
  queue : List Event
  phase : WatchPhase
  deriving DecidableEq, Repr

def Watch.receive (events : List Event) (w : Watch) : Watch :=
  match w.phase with
  | .registered =>
    { w with queue := w.queue ++ events.filter fun ev => Path.isWithin w.root ev.path }
  | _ => w

structure Faults where
  failingConnects : Nat := 0
  pending : List ServiceError := []
  latencyMs : Nat := 0
  deriving DecidableEq, Repr

/-- The state of an ensemble. Session `i + 1` is at place `i` of `sessions`, and
a watch is known by its place in `watches`. -/
structure Ensemble where
  tree : Tree := .empty
  sessions : List Session := []
  watches : List Watch := []
  faults : Faults := {}
  connectAttempts : Nat := 0
  deriving DecidableEq, Repr

inductive Request
  | stat (path : String)
  | getData (path : String)
  | getChildren (path : String)
  | create (path : String) (data : List UInt8) (mode : Mode)
  | setData (path : String) (data : List UInt8) (version : Option Int32)
  | delete (path : String) (version : Option Int32)
  | commit (ops : List Operation)
  | watch (root : String)
  deriving DecidableEq, Repr

namespace Request

@[reducible] def Value : Request → Type
  | .stat _ => Option Stat
  | .getData _ => List UInt8 × Stat
  | .getChildren _ => List String
  | .create .. => String
  | .setData .. => Stat
  | .delete .. => Unit
  | .commit _ => List Outcome
  | .watch _ => Nat

@[reducible] def Answer (r : Request) : Type := Except ServiceError r.Value

end Request

/-- A call between its halves: the fault it will meet, if any, when it began, and when it
goes on. -/
structure Hold where
  fault : Option ServiceError
  start : Nat
  due : Nat
  deriving DecidableEq, Repr

def Hold.waits (h : Hold) : Bool := h.start < h.due

namespace Ensemble

def session? (e : Ensemble) (id : Nat) : Option Session :=
  if id = 0 then none else e.sessions[id - 1]?

def phase (e : Ensemble) (id : Nat) : SessionPhase :=
  ((e.session? id).map Session.phase).getD .closed

def setPhase (e : Ensemble) (id : Nat) (phase : SessionPhase) : Ensemble :=
  { e with sessions := e.sessions.modify (id - 1) fun s => { s with phase := phase } }

def caller (e : Ensemble) (id : Nat) : Caller :=
  ⟨id, (e.session? id).bind Session.identity⟩

def activeSessions (e : Ensemble) : Nat :=
  e.sessions.countP fun s => s.phase == .live

def watchCount (e : Ensemble) : Nat :=
  e.watches.countP fun w => w.phase == .registered

def nodeCount (e : Ensemble) : Nat := e.tree.nodes.length

/-- A node's data and stat, whoever asks. -/
def peek (e : Ensemble) (p : String) : Option (List UInt8 × Stat) :=
  (e.tree.node? p).map fun n => (n.data, n.stat)

/-! ## Faults -/

def failConnects (e : Ensemble) (count : Nat) : Ensemble :=
  { e with faults := { e.faults with failingConnects := count } }

def inject (e : Ensemble) (error : ServiceError) : Ensemble :=
  { e with faults := { e.faults with pending := e.faults.pending ++ [error] } }

def setLatency (e : Ensemble) (ms : Nat) : Ensemble :=
  { e with faults := { e.faults with latencyMs := ms } }

/-! ## Watches -/

/-- Hands events to every registered watch whose root they lie within. -/
def dispatch (e : Ensemble) (events : List Event) : Ensemble :=
  { e with watches := e.watches.map (Watch.receive events) }

/-- Ends the watches of a session; what they have received stays readable. -/
def endWatches (e : Ensemble) (id : Nat) : Ensemble :=
  { e with watches := e.watches.map fun w =>
      if w.session = id ∧ w.phase = .registered then { w with phase := .ended } else w }

def dropWatch (e : Ensemble) (w : Nat) : Ensemble :=
  { e with watches := e.watches.modify w fun w => { w with queue := [], phase := .dropped } }

def nextEvent? (e : Ensemble) (w : Nat) : Option (Event × Ensemble) :=
  match e.watches[w]? with
  | some ⟨session, root, event :: rest, phase⟩ =>
    some (event, { e with watches := e.watches.set w ⟨session, root, rest, phase⟩ })
  | _ => none

/-- Everything that has arrived, which is taken, and whether nothing more can arrive. -/
def drain (e : Ensemble) (w : Nat) : (List Event × Bool) × Ensemble :=
  match e.watches[w]? with
  | some watch =>
    ((watch.queue, watch.phase != .registered),
      { e with watches := e.watches.set w { watch with queue := [] } })
  | none => (([], true), e)

/-! ## Sessions -/

/-- One attempt to open a session. A refused attempt uses up one refusal. -/
def connect (e : Ensemble) (servers : String) (identity : Option String) :
    Except ServiceError Nat × Ensemble :=
  let e := { e with connectAttempts := e.connectAttempts + 1 }
  if 0 < e.faults.failingConnects then
    (.error (.connectionLoss s!"connection to {servers} refused"),
      e.failConnects (e.faults.failingConnects - 1))
  else
    (.ok (e.sessions.length + 1), { e with sessions := e.sessions ++ [⟨identity, .live⟩] })

/-- Takes out a session's watches and its ephemeral nodes, the latter in the given order. -/
def endSession (e : Ensemble) (id : Nat) (ephemerals : List String) : Ensemble :=
  let e := e.endWatches id
  let (tree, events) := e.tree.unlinkAll ephemerals
  dispatch { e with tree := tree } events

def ephemerals (e : Ensemble) (id : Nat) : List String :=
  (e.tree.ephemeralsOf id).mergeSort fun a b => a ≤ b

/-- Expires a live session, and says whether there was one. -/
def expire (e : Ensemble) (id : Nat) : Bool × Ensemble :=
  if e.phase id = .live then (true, (e.setPhase id .expired).endSession id (e.ephemerals id))
  else (false, e)

def close (e : Ensemble) (id : Nat) : Bool × Ensemble :=
  match e.phase id with
  | .closed => (false, e)
  | .expired => (true, e.setPhase id .closed)
  | .live => (true, (e.setPhase id .closed).endSession id (e.ephemerals id))

/-! ## Calls -/

/-- The first half of a call: refused on a closed session, else given the next fault. -/
def accept (e : Ensemble) (now id : Nat) : Except ServiceError (Hold × Ensemble) :=
  if e.phase id = .closed then .error .sessionClosed
  else
    .ok (⟨e.faults.pending.head?, now, now + e.faults.latencyMs⟩,
      { e with faults := { e.faults with pending := e.faults.pending.tail } })

/-- Keeps the outcome of a change: the new tree with its events handed out, or the old one. -/
def settle {α : Type} (e : Ensemble) : Except ServiceError (Change α) →
    Except ServiceError α × Ensemble
  | .ok c => (.ok c.value, dispatch { e with tree := c.tree } c.events)
  | .error error => (.error error, e)

def readable (e : Ensemble) (id : Nat) (p : String) : Except ServiceError Node := do
  checkPath p
  let n ← e.tree.node p
  Tree.authorize n p (e.caller id).identity
  return n

def perform (e : Ensemble) (id : Nat) : (r : Request) → r.Answer × Ensemble
  | .stat p => ((checkPath p).map fun _ => (e.tree.node? p).map Node.stat, e)
  | .getData p => ((e.readable id p).map fun n => (n.data, n.stat), e)
  | .getChildren p => ((e.readable id p).map Node.children, e)
  | .create p data mode => e.settle (e.tree.create p data mode (e.caller id))
  | .setData p data version => e.settle do
    checkPath p
    e.tree.setData p data version (e.caller id)
  | .delete p version => e.settle do
    checkPath p
    e.tree.delete p version (e.caller id)
  | .commit ops => e.settle do
    ops.forM fun op => checkPath op.path
    e.tree.applyAll (e.caller id) 0 ops
  | .watch root =>
    match checkPath root with
    | .error error => (.error error, e)
    | .ok () =>
      (.ok e.watches.length,
        { e with watches := e.watches ++ [⟨id, root, [], .registered⟩] })

def complete (e : Ensemble) (id : Nat) (fault : Option ServiceError) (r : Request) :
    r.Answer × Ensemble :=
  match e.phase id with
  | .closed => (.error .sessionClosed, e)
  | .expired => (.error .sessionExpired, e)
  | .live =>
    match fault with
    | some error => (.error error, e)
    | none => e.perform id r

@[simp] theorem nodeCount_dispatch (e : Ensemble) (events : List Event) :
    (e.dispatch events).nodeCount = e.nodeCount := rfl

@[simp] theorem tree_dispatch (e : Ensemble) (events : List Event) :
    (e.dispatch events).tree = e.tree := rfl

@[simp] theorem tree_endWatches (e : Ensemble) (id : Nat) : (e.endWatches id).tree = e.tree := rfl

theorem accept_of_closed {e : Ensemble} {id : Nat} (h : e.phase id = .closed) (now : Nat) :
    e.accept now id = .error .sessionClosed := by
  simp [accept, h]

theorem complete_of_closed {e : Ensemble} {id : Nat} (h : e.phase id = .closed)
    (fault : Option ServiceError) (r : Request) :
    e.complete id fault r = (.error .sessionClosed, e) := by
  simp [complete, h]

theorem complete_of_expired {e : Ensemble} {id : Nat} (h : e.phase id = .expired)
    (fault : Option ServiceError) (r : Request) :
    e.complete id fault r = (.error .sessionExpired, e) := by
  simp [complete, h]

end Ensemble

end KeyRegistry
