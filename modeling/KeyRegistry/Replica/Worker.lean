import KeyRegistry.Journal
import KeyRegistry.Replica

/-!
# The worker of a replica

`Replica.step` is one move of the worker against the ensemble: it begins or ends
one call, stores a finished level, or takes one event. No move is possible while
every call is held up and no event waits. A request to stop ends the filling and
the listening at once, but not the refresh of a node, which is ended only by a
cancellation.
-/

namespace KeyRegistry

structure Move where
  replica : Replica
  ensemble : Ensemble
  notices : List Notice := []

namespace Replica

def withActivity (m : Replica) (w : Worker) (a : Activity) : Replica :=
  { m with worker := some { w with activity := a } }

/-- Ends the worker and unregisters its watch. -/
def stop (m : Replica) (w : Worker) (e : Ensemble) (notices : List Notice) : Move :=
  ⟨m.withActivity w .stopped, e.dropWatch w.watch, notices⟩

/-- After a failed filling the worker goes on with the events, if it has a session. -/
def failFilling (m : Replica) (w : Worker) (e : Ensemble) (error : ServiceError) : Move :=
  if error.endsSession then m.stop w e [.fillingCutShort m.root error]
  else ⟨m.withActivity w .listening, e, [.fillingIncomplete m.root error]⟩

def stepReading (now : Nat) (e : Ensemble) (session : Nat) (p : String) :
    Reading → Option (Reading × Ensemble × List Notice)
  | .untouched =>
    match e.accept now session with
    | .ok (hold, e) => some (.data hold, e, [])
    | .error error => some (.failed error, e, [])
  | .data hold =>
    if now < hold.due then none
    else match e.complete session hold.fault (.getData p) with
      | (.ok (data, stat), e) => some (.dataRead data stat, e, [])
      | (.error (.noNode _), e) => some (.finished none, e, [])
      | (.error (.noAuth _), e) => some (.finished none, e, [.nodeSkipped p])
      | (.error error, e) => some (.failed error, e, [])
  | .dataRead data stat =>
    match e.accept now session with
    | .ok (hold, e) => some (.children data stat hold, e, [])
    | .error error => some (.failed error, e, [])
  | .children data stat hold =>
    if now < hold.due then none
    else match e.complete session hold.fault (.getChildren p) with
      | (.ok names, e) => some (.finished (some (data, stat, names)), e, [])
      | (.error (.noNode _), e) => some (.finished (some (data, stat, [])), e, [])
      | (.error error, e) => some (.failed error, e, [])
  | .finished _ | .failed _ => none

/-- One move on a level: the first reading that can move does. -/
def stepLevel (now : Nat) (e : Ensemble) (session : Nat) :
    List (String × Reading) → Option (List (String × Reading) × Ensemble × List Notice)
  | [] => none
  | (p, r) :: rest =>
    match stepReading now e session p r with
    | some (r, e, notices) => some ((p, r) :: rest, e, notices)
    | none =>
      (stepLevel now e session rest).map fun (rest, e, notices) => ((p, r) :: rest, e, notices)

def narrowLimit : Nat := 30

/--
The failure that ends a level. On a narrow level every failure does; on a wide
one a failure is seen only after the readings before it are finished.
-/
def failureOf (level : List (String × Reading)) : Option ServiceError :=
  if level.length ≤ narrowLimit then level.findSome? fun r => r.2.failure?
  else (level.find? fun r => !r.2.isFinished).bind fun r => r.2.failure?

def finishedLevel : List (String × Reading) →
    Option (List (String × Option (List UInt8 × Stat × List String)))
  | [] => some []
  | (p, .finished found) :: rest => (finishedLevel rest).map ((p, found) :: ·)
  | _ :: _ => none

def storeLevel (m : Replica) : List (String × Option (List UInt8 × Stat × List String)) → Replica
  | [] => m
  | (p, some (data, stat, _)) :: rest => storeLevel (m.store ⟨p, data, stat⟩) rest
  | (_, none) :: rest => storeLevel m rest

def nextLevel (found : List (String × Option (List UInt8 × Stat × List String))) :
    List (String × Reading) :=
  found.flatMap fun
    | (p, some (_, _, names)) => names.map fun name => (Path.join p name, .untouched)
    | (_, none) => []

/-- Stores a finished level and turns to the next; after the last one the replica is filled. -/
def closeLevel (m : Replica) (w : Worker) (e : Ensemble) (stored : Nat)
    (found : List (String × Option (List UInt8 × Stat × List String))) : Move :=
  let stored := stored + found.countP fun f => f.2.isSome
  let m := m.storeLevel found
  match nextLevel found with
  | [] => ⟨{ m.withActivity w .listening with initialized := true }, e,
      [.replicaFilled m.root stored]⟩
  | level => ⟨m.withActivity w (.filling stored level), e, []⟩

def stepFilling (now : Nat) (m : Replica) (w : Worker) (e : Ensemble) (stored : Nat)
    (level : List (String × Reading)) : Option Move :=
  match finishedLevel level, failureOf level with
  | some found, _ => some (m.closeLevel w e stored found)
  | none, some error => some (m.failFilling w e error)
  | none, none =>
    (stepLevel now e w.session level).map fun (level, e, notices) =>
      ⟨m.withActivity w (.filling stored level), e, notices⟩

/-- After a failed refresh the worker goes on with the next event, if it has a session. -/
def failRefresh (m : Replica) (w : Worker) (e : Ensemble) (p : String) (error : ServiceError) :
    Move :=
  if error.endsSession then m.stop w e [.replicaLostSession m.root error]
  else ⟨m.withActivity w .listening, e, [.refreshFailed p error]⟩

/-- Takes the next event; a deletion needs no call. -/
def stepListening (now : Nat) (m : Replica) (w : Worker) (e : Ensemble) : Option Move :=
  match e.nextEvent? w.watch with
  | some (event, e) =>
    match event.kind with
    | .deleted => some ⟨m.evict event.path, e, []⟩
    | _ =>
      match e.accept now w.session with
      | .ok (hold, e) => some ⟨m.withActivity w (.refreshing event.path hold), e, []⟩
      | .error error => some (m.failRefresh w e event.path error)
  | none =>
    match e.watches[w.watch]?.map Watch.phase with
    | some .registered => none
    | _ => some (m.stop w e [.watchEnded m.root])

def stepRefreshing (now : Nat) (m : Replica) (w : Worker) (e : Ensemble) (p : String)
    (hold : Hold) : Option Move :=
  if now < hold.due then none
  else match e.complete w.session hold.fault (.getData p) with
    | (.ok (data, stat), e) => some ⟨(m.store ⟨p, data, stat⟩).withActivity w .listening, e, []⟩
    | (.error (.noNode _), e) => some ⟨(m.evict p).withActivity w .listening, e, []⟩
    | (.error (.noAuth _), e) => some ⟨m.withActivity w .listening, e, [.nodeSkipped p]⟩
    | (.error error, e) => some (m.failRefresh w e p error)

def step (now : Nat) (m : Replica) (e : Ensemble) : Option Move := do
  let w ← m.worker
  match w.activity with
  | .stopped => none
  | .refreshing p hold =>
    if w.cancelled then some (m.stop w e []) else m.stepRefreshing now w e p hold
  | .filling stored level =>
    if w.cancelled || w.stopRequested then some (m.stop w e [])
    else m.stepFilling now w e stored level
  | .listening =>
    if w.cancelled || w.stopRequested then some (m.stop w e []) else m.stepListening now w e

/-- The times at which held-up calls of the worker go on. -/
def dueTimes (m : Replica) : List Nat :=
  match m.worker with
  | none => []
  | some w =>
    match w.activity with
    | .filling _ level => level.filterMap fun
      | (_, .data hold) => some hold.due
      | (_, .children _ _ hold) => some hold.due
      | _ => none
    | .refreshing _ hold => [hold.due]
    | _ => []

/-! ## Turns -/

/-- How much of a turn the next move takes: one for an event, and one for the end of a wait. -/
def effort (now : Nat) (m : Replica) : Nat :=
  match m.worker.map Worker.activity with
  | some .listening => 1
  | some (.refreshing _ hold) => hold.waits.toNat
  | some (.filling _ level) =>
    if (failureOf level).isSome then 0
    else ((level.findSome? fun r => r.2.endsWait? now).getD false).toNat
  | _ => 0

def turnEffort : Nat := 128

/-- Moves until no move is possible, at most `moves` times and with at most `left` effort. -/
def run (now : Nat) : Nat → Nat → Move → Move
  | 0, _, v => v
  | moves + 1, left, v =>
    match v.replica.step now v.ensemble with
    | none => v
    | some next =>
      let effort := v.replica.effort now
      if left < effort then v
      else run now moves (left - effort) { next with notices := v.notices ++ next.notices }

theorem step_of_no_worker {m : Replica} (h : m.worker = none) (now : Nat) (e : Ensemble) :
    m.step now e = none := by
  simp [step, h]

end Replica

end KeyRegistry
