import KeyRegistry.Scenario.Command

/-!
# Named objects of a scenario

A name bound again loses its former object. A lost watch is unregistered, and a
replica that nothing holds any more has its worker stopped.
-/

namespace KeyRegistry.Scenario

structure Names where
  sessions : List (String × SessionId) := []
  watches : List (String × (Nat × Nat)) := []
  replicas : List (String × Nat) := []
  centers : List (String × (Nat ⊕ LenientCenter)) := []
  sessionHandles : List (String × SessionHandle) := []
  replicaHandles : List (String × ReplicaHandle) := []
  connectors : List (String × Nat) := []

/-- What a command on its way keeps in being. -/
inductive Grip
  | replica (m : Nat)
  | center (c : Nat)
  deriving DecidableEq, Repr

structure Stage where
  world : World := {}
  names : Names := {}
  grips : List Grip := []

def unbind {α : Type} (name : String) (table : List (String × α)) : List (String × α) :=
  table.filter fun e => e.1 ≠ name

def rebind {α : Type} (name : String) (a : α) (table : List (String × α)) : List (String × α) :=
  (name, a) :: unbind name table

def centerOf : Nat ⊕ LenientCenter → Nat
  | .inl c => c
  | .inr l => l.center

def Stage.usesReplica (st : Stage) (center replica : Nat) : Bool :=
  (st.world.active? center).map Active.replica == some replica

def Command.grip? (names : Names) : Command → Option Grip
  | .replica name _ => (names.replicas.lookup name).map Grip.replica
  | .center name _ => (names.centers.lookup name).map fun t => Grip.center (centerOf t)
  | .view name _ => (names.replicaHandles.lookup name).map fun h => Grip.replica h.replica
  | _ => none

/-- Whether some name or some command on its way still reaches a replica. -/
def Stage.holds (st : Stage) (replica : Nat) : Bool :=
  (st.names.replicas.any fun e => e.2 == replica) ||
  (st.names.replicaHandles.any fun e => e.2.replica == replica) ||
  (st.names.centers.any fun e => st.usesReplica (centerOf e.2) replica) ||
  (st.grips.any fun
    | .replica m => m == replica
    | .center c => st.usesReplica c replica)

def Stage.releaseReplicas (st : Stage) : Stage :=
  let lost := (List.range st.world.replicas.length).filter fun i => !st.holds i
  let stopWorker (m : Replica) : Replica :=
    { m with worker := m.worker.map fun v => { v with stopRequested := true } }
  { st with world := (lost.foldl (fun w i => w.modifyReplica i stopWorker) st.world).rouse }

def Stage.dropWatch (st : Stage) (name : String) : Stage :=
  match st.names.watches.lookup name with
  | none => st
  | some (ensemble, watch) =>
    { st with
      world := (st.world.setEnsemble ensemble ((st.world.ensemble ensemble).dropWatch watch)).rouse
      names := { st.names with watches := unbind name st.names.watches } }

def Stage.bind (st : Stage) : Binding → Stage
  | .session name s =>
    { st with names := { st.names with sessions := rebind name s st.names.sessions } }
  | .watch name ensemble watch =>
    let st := st.dropWatch name
    { st with names := { st.names with
        watches := rebind name (ensemble, watch) st.names.watches } }
  | .noWatch name => st.dropWatch name
  | .replica name m =>
    { st with names := { st.names with replicas := rebind name m st.names.replicas } }
  | .center name c =>
    { st with names := { st.names with centers := rebind name (.inl c) st.names.centers } }
  | .lenient name l =>
    { st with names := { st.names with centers := rebind name (.inr l) st.names.centers } }
  | .sessionHandle name h =>
    { st with names := { st.names with
        sessionHandles := rebind name h st.names.sessionHandles } }
  | .replicaHandle name h =>
    { st with names := { st.names with
        replicaHandles := rebind name h st.names.replicaHandles } }
  | .connector name c =>
    { st with names := { st.names with connectors := rebind name c st.names.connectors } }

def Stage.begin (st : Stage) (c : Command) : Stage :=
  { st with grips := (c.grip? st.names).toList ++ st.grips }

def Stage.finish (st : Stage) (grip : Option Grip) (r : Result) : Stage :=
  let st := match r.binding with
    | some binding => st.bind binding
    | none => st
  Stage.releaseReplicas { st with grips := grip.elim st.grips st.grips.erase }

end KeyRegistry.Scenario
