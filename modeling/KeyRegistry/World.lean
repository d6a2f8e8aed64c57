import KeyRegistry.Host
import KeyRegistry.Replica.Worker
import KeyRegistry.Settings

/-!
# The world of several clients

Everything that clients share: the clock, the ensembles, the replicas with their
workers, the centers, the seed files and the journal. A worker that can move
waits in a queue until it is its turn.
-/

namespace KeyRegistry

structure SessionId where
  ensemble : Nat
  number : Nat
  deriving DecidableEq, Repr

/-- Which ensemble a connector uses; an open choice is settled at first use. -/
inductive Backend
  | undecided
  | ensemble (index : Nat)
  deriving DecidableEq, Repr

structure Connector where
  settings : Settings
  backend : Backend
  deriving DecidableEq, Repr

structure Active where
  session : SessionId
  replica : Nat
  scope : Namespace
  deriving DecidableEq, Repr

/-- A registry center. Starts and stops take turns: `turns` holds the tickets
drawn, the first of which has the turn. The seed file of a center is one that was placed
for it or one of the host. -/
structure Center where
  connector : Nat
  ownsSeed : Bool := false
  active : Option Active := none
  turns : List Nat := []
  nextTicket : Nat := 0
  deriving DecidableEq, Repr

structure World where
  now : Nat := 0
  ensembles : List Ensemble := [{}]
  replicas : List Replica := []
  connectors : List Connector := []
  centers : List Center := []
  tallies : List Tally := []
  files : List (String × List UInt8) := []
  /-- The workers whose turn is due, first in first out. -/
  queue : List Nat := []
  /-- The workers whose calls are held up, in the order in which they began to wait. -/
  sleepers : List Nat := []
  journal : List Notice := []

namespace World

def shared : Nat := 0

def ensemble (w : World) (i : Nat) : Ensemble := (w.ensembles[i]?).getD {}

def setEnsemble (w : World) (i : Nat) (e : Ensemble) : World :=
  { w with ensembles := w.ensembles.set i e }

def replica? (w : World) (i : Nat) : Option Replica := w.replicas[i]?

def modifyReplica (w : World) (i : Nat) (f : Replica → Replica) : World :=
  { w with replicas := w.replicas.modify i f }

def modifyCenter (w : World) (i : Nat) (f : Center → Center) : World :=
  { w with centers := w.centers.modify i f }

def note (w : World) (n : Notice) : World := { w with journal := w.journal ++ [n] }

def noteAll (w : World) (ns : List Notice) : World := { w with journal := w.journal ++ ns }

/-! ## Workers -/

def workerMove? (w : World) (i : Nat) : Option Move := do
  let m ← w.replica? i
  let worker ← m.worker
  m.step w.now (w.ensemble worker.ensemble)

/-- Where a worker stands in line. First come those whose calls were held up, in the
order in which they began to wait, then those whose watch has ended, then those that
have an event, both in the order in which their watches were registered. -/
def workerPlace (w : World) (i : Nat) : List Nat :=
  match w.sleepers.idxOf? i, (w.replica? i).bind Replica.worker with
  | some k, _ => [0, k]
  | none, some v =>
    let phase := ((w.ensemble v.ensemble).watches[v.watch]?).map Watch.phase
    [if phase = some .registered then 2 else 1, v.ensemble, v.watch]
  | none, none => []

def ready (w : World) : List Nat :=
  ((List.range w.replicas.length).filter fun i => (w.workerMove? i).isSome).mergeSort
    fun i j => !(w.workerPlace j).lex (w.workerPlace i)

def rouse (w : World) : World :=
  { w with queue := w.queue ++ w.ready.filter fun i => i ∉ w.queue }

/-- Puts a worker behind all that wait, if its calls are held up. -/
def noteSleeper (w : World) (i : Nat) (m : Replica) : World :=
  let others := w.sleepers.filter (· ≠ i)
  { w with sleepers := if m.dueTimes = [] then others else others ++ [i] }

def runWorker (moves : Nat) (w : World) (i : Nat) : World :=
  match w.replica? i with
  | none => w
  | some m =>
    match m.worker with
    | none => w
    | some worker =>
      let v := Replica.run w.now moves Replica.turnEffort ⟨m, w.ensemble worker.ensemble, []⟩
      (((w.modifyReplica i fun _ => v.replica).setEnsemble worker.ensemble v.ensemble).noteAll
        v.notices).noteSleeper i v.replica

/-- Lets the queued workers run in turn until the queue is empty. -/
def runWorkers : Nat → World → World
  | 0, w => w
  | moves + 1, w =>
    match w.queue with
    | [] => w
    | i :: rest => runWorkers moves (runWorker moves { w with queue := rest } i).rouse

/-! ## Calls of clients -/

def accept (w : World) (s : SessionId) : Except ServiceError (Hold × World) :=
  match (w.ensemble s.ensemble).accept w.now s.number with
  | .ok (hold, e) => .ok (hold, w.setEnsemble s.ensemble e)
  | .error error => .error error

def complete (w : World) (s : SessionId) (fault : Option ServiceError) (r : Request) :
    r.Answer × World :=
  let (answer, e) := (w.ensemble s.ensemble).complete s.number fault r
  (answer, w.setEnsemble s.ensemble e)

def connect (w : World) (ensemble : Nat) (servers : String) (identity : Option String) :
    Except ServiceError SessionId × World :=
  match (w.ensemble ensemble).connect servers identity with
  | (.ok id, e) => (.ok ⟨ensemble, id⟩, (w.setEnsemble ensemble e).note (.sessionOpened id))
  | (.error error, e) => (.error error, w.setEnsemble ensemble e)

def closeSession (w : World) (s : SessionId) : World :=
  match (w.ensemble s.ensemble).close s.number with
  | (true, e) => (w.setEnsemble s.ensemble e).note (.sessionClosed s.number)
  | (false, _) => w

def expireSession (w : World) (s : SessionId) : Bool × World :=
  match (w.ensemble s.ensemble).expire s.number with
  | (true, e) => (true, (w.setEnsemble s.ensemble e).note (.sessionExpired s.number))
  | (false, _) => (false, w)

/-! ## Replicas -/

def addReplica (w : World) (root : String) : Nat × World :=
  (w.replicas.length, { w with replicas := w.replicas ++ [{ root := root }] })

def replicaPhase (w : World) (i : Nat) : ReplicaPhase :=
  ((w.replica? i).map Replica.phase).getD .closed

/-- Starts the worker of a latent replica on a registered watch, and says whether it did. -/
def spawn (w : World) (i : Nat) (s : SessionId) (watch : Nat) : Bool × World :=
  match w.replica? i with
  | some m =>
    if m.phase = .latent then
      let worker : Worker :=
        ⟨s.ensemble, s.number, watch, .filling 0 [(m.root, .untouched)], false, false⟩
      (true, (w.modifyReplica i fun m => { m with phase := .started, worker := some worker }).note
        (.replicaStarted m.root))
    else (false, w.setEnsemble s.ensemble ((w.ensemble s.ensemble).dropWatch watch))
  | none => (false, w)

/-- Closes a replica and asks its worker to stop; says whether there was one to ask. -/
def requestStop (w : World) (i : Nat) : Bool × World :=
  let running := w.replicaPhase i = .started
  (running, w.modifyReplica i fun m =>
    { m with phase := .closed, worker := m.worker.map fun v => { v with stopRequested := true } })

/-- Empties a replica whose worker has ended, or is cancelled if it has not. -/
def finishStop (w : World) (i : Nat) (timeoutMs : Nat) (ended : Bool) : Shutdown × World :=
  match w.replica? i with
  | none => (.notRunning, w)
  | some m =>
    let outcome := if ended then Shutdown.drained else .timedOut
    let w := if ended then w else
      (w.modifyReplica i fun m =>
        { m with worker := m.worker.map fun v => { v with cancelled := true } }).note
        (.replicaCancelled m.root timeoutMs)
    (outcome, (w.modifyReplica i fun m => { m with entries := [] }).note
      (.replicaClosed m.root outcome))

/-! ## Centers -/

def center? (w : World) (i : Nat) : Option Center := w.centers[i]?

def active? (w : World) (i : Nat) : Option Active := (w.center? i).bind Center.active

def setActive (w : World) (i : Nat) (a : Option Active) : World :=
  w.modifyCenter i fun c => { c with active := a }

def settings (w : World) (i : Nat) : Settings :=
  (((w.center? i).bind fun c => w.connectors[c.connector]?).map Connector.settings).getD {}

def drawTicket (w : World) (i : Nat) : Nat × World :=
  (((w.center? i).map Center.nextTicket).getD 0, w.modifyCenter i fun c =>
    { c with turns := c.turns ++ [c.nextTicket], nextTicket := c.nextTicket + 1 })

def hasTurn (w : World) (i ticket : Nat) : Bool :=
  (w.center? i).bind (fun c => c.turns.head?) == some ticket

def passTurn (w : World) (i : Nat) : World :=
  w.modifyCenter i fun c => { c with turns := c.turns.tail }

/-- The ensemble of a connector. An undecided one gets an ensemble of its own if
its servers name memory; nothing else is available. -/
def resolve (w : World) (i : Nat) : Except RegistryError Nat × World :=
  match w.connectors[i]? with
  | none => (.error .notStarted, w)
  | some c =>
    match c.backend with
    | .ensemble e => (.ok e, w)
    | .undecided =>
      if Settings.usesMemory c.settings.serverLists then
        let e := w.ensembles.length
        (.ok e, { w with
          ensembles := w.ensembles ++ [{}]
          connectors := w.connectors.set i { c with backend := .ensemble e } })
      else (.error (.configuration
        s!"server lists '{c.settings.serverLists}' require the `zookeeper` feature"), w)

def placeFile (w : World) (name : String) (bytes : List UInt8) : World :=
  { w with files := (name, bytes) :: w.files }

/-- A file that was placed, as it was placed last. -/
def placedFile (w : World) (name : String) : Except FileFault (List UInt8) :=
  match w.files.lookup name with
  | some bytes => .ok bytes
  | none => .error .absent

def seedFile (w : World) (i : Nat) (name : String) : Except FileFault (List UInt8) :=
  if ((w.center? i).map Center.ownsSeed).getD false then w.placedFile name else Host.read name

@[simp] theorem placedFile_placeFile (w : World) (name : String) (bytes : List UInt8) :
    (w.placeFile name bytes).placedFile name = .ok bytes := by
  simp [placedFile, placeFile]

def absorb (w : World) (tally : Nat) (operation key : String) (error : RegistryError) : World :=
  { w with tallies := w.tallies.modify tally fun t => t.count error.disposition }.note
    (.absorbed operation key error)

end World

end KeyRegistry
