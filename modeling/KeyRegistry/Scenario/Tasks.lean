import KeyRegistry.Scenario.Names

/-!
# The task of each command

Names are looked up when a step begins. A retry draws the smallest number, so
its sleep is the base of the policy.
-/

namespace KeyRegistry.Scenario

def leastDraw (_ : Nat) : Nat := 0

def answered (a : Answer) : Task Result := pure { answer := a }

def instantly (f : World → World) (a : Answer) : Task Result := do
  Task.change f
  answered a

def changeShared (f : Ensemble → Ensemble) : Task Result :=
  instantly (fun w => w.setEnsemble World.shared (f (w.ensemble World.shared))) .nothing

def SessionCommand.task (s : SessionId) : SessionCommand → Task Result
  | .request r => do
    let answer ← Task.say s (Dialogue.ask r)
    answered (.ofService (.ofValue r) answer)
  | .watch root name => do
    match ← Task.say s (Dialogue.ask (.watch root)) with
    | .ok w => return { answer := .nothing, binding := some (.watch name s.ensemble w) }
    | .error e => answered (.refused e)
  | .close => instantly (fun w => w.closeSession s) .nothing
  | .number => answered (.number s.number)
  | .createWithParents p bytes mode => do
    answered (.ofService .text (← Task.say s (Dialogue.createWithParents p bytes mode)))
  | .ensureAncestors p => do
    answered (.ofService (fun _ => .nothing) (← Task.say s (Dialogue.ensureAncestors p)))
  | .ensurePath p => do
    answered (.ofService (fun _ => .nothing) (← Task.say s (Dialogue.ensurePath p)))
  | .collectSubtree p => do
    answered (.ofService .texts (← Task.say s (Dialogue.collectSubtree p)))
  | .deleteRecursive p => do
    answered (.ofService (fun _ => .nothing) (← Task.say s (Dialogue.deleteRecursive p)))
  | .applySeed namespaceName source bytes overwrite => do
    Task.change fun w => w.placeFile source bytes
    match Seed.ofBytes source bytes with
    | .error e => answered (.failed e)
    | .ok seed => do
      Task.tell (.seedLoaded seed.source seed.entries.length)
      match Namespace.ofName namespaceName with
      | .error (p, fault) => answered (.failed (.ofPathFault p fault))
      | .ok ns => do
        answered (.ofRegistry .seeded (← Task.say s (seed.apply ns overwrite)))

def ReplicaCommand.task (names : Names) (m : Nat) : ReplicaCommand → Task Result
  | .start session =>
    match names.sessions.lookup session with
    | none => answered .unknownName
    | some s => do answered (.ofRegistry (fun _ => .nothing) (← Replication.start m s))
  | .close ms => do answered (.shutdown (← Replication.close m ms))
  | .entry p => do
    answered (.maybeEntry (← Task.look fun w => (w.replica? m).bind fun m => m.get? p))
  | .children p => do
    answered (.texts (← Task.look fun w => ((w.replica? m).map fun m => m.children p).getD []))
  | .await ms => do answered (.flag (← Task.awaitSignal (.replicaFilled m) (some ms)))
  | .describe => do
    match ← Task.look fun w => w.replica? m with
    | some m => answered (.replica m.root m.phase m.entries.length m.initialized)
    | none => answered .unknownName

/-- The commands that reach the strict center, whatever surface it has. -/
def CenterCommand.strictTask (c : Nat) : CenterCommand → Task Result
  | .start => do answered (.ofRegistry (fun _ => .nothing) (← Center.start c leastDraw))
  | .stop => do answered (.shutdown (← Center.stop c))
  | .isStarted => do answered (.flag (← Task.look fun w => (w.active? c).isSome))
  | .get key => do answered (.ofRegistry .maybeText (← Center.get c key))
  | .getDirectly key => do answered (.ofRegistry .maybeText (← Center.getDirectly c key))
  | .childNames key => do answered (.ofRegistry .texts (← Center.childNames c key))
  | .countChildren key => do answered (.ofRegistry .number (← Center.countChildren c key))
  | .isPresent key => do answered (.ofRegistry .flag (← Center.isPresent c key))
  | .persist key value => do
    answered (.ofRegistry (fun _ => .nothing) (← Center.persist c key value))
  | .update key value => do
    answered (.ofRegistry (fun _ => .nothing) (← Center.update c key value))
  | .persistEphemeral key value => do
    answered (.ofRegistry (fun _ => .nothing) (← Center.persistEphemeral c key value))
  | .persistEphemeralSequential key => do
    answered (.ofRegistry .text (← Center.persistEphemeralSequential c key))
  | .persistSequential key value => do
    answered (.ofRegistry .text (← Center.persistSequential c key value))
  | .remove key => do answered (.ofRegistry (fun _ => .nothing) (← Center.remove c key))
  | .time key => do answered (.ofRegistry (fun _ => .time true) (← Center.time c key))
  | .sessionHandle name => do
    match ← Task.look fun w => Center.sessionHandle w c with
    | .ok h => return {
        answer := .handle h.session.number h.scope.root
        binding := some (.sessionHandle name h) }
    | .error e => answered (.failed e)
  | .replicaHandle name => do
    match ← Task.look fun w => Center.replicaHandle w c with
    | .ok h => return { answer := .nothing, binding := some (.replicaHandle name h) }
    | .error e => answered (.failed e)
  | .clearInterrupted => answered .unknownName

def CenterCommand.lenientTask (l : LenientCenter) : CenterCommand → Task Result
  | .start => do answered (.ofRegistry (fun _ => .nothing) (← l.start leastDraw))
  | .stop => do
    l.stop
    answered .nothing
  | .get key => do answered (.maybeText (← l.get key))
  | .getDirectly key => do answered (.maybeText (← l.getDirectly key))
  | .childNames key => do answered (.texts (← l.childNames key))
  | .countChildren key => do answered (.number (← l.countChildren key))
  | .isPresent key => do answered (.flag (← l.isPresent key))
  | .persist key value => do
    l.persist key value
    answered .nothing
  | .update key value => do
    l.update key value
    answered .nothing
  | .persistEphemeral key value => do
    l.persistEphemeral key value
    answered .nothing
  | .persistEphemeralSequential key => do
    l.persistEphemeralSequential key
    answered .nothing
  | .remove key => do
    l.remove key
    answered .nothing
  | .time key => do answered (.time (← l.time key))
  | .clearInterrupted => do answered (.flag (← l.clearInterrupted))
  | c => c.strictTask l.center

def CenterCommand.task (cmd : CenterCommand) : Nat ⊕ LenientCenter → Task Result
  | .inl c => cmd.strictTask c
  | .inr l => do
    let result ← cmd.lenientTask l
    let tally ← Task.look fun w => w.tallies[l.tally]?
    return { result with tally := tally }

def HandleCommand.task (h : SessionHandle) : HandleCommand → Task Result
  | .create key bytes mode => do answered (.ofRegistry .text (← h.create key bytes mode))
  | .stat key => do answered (.ofRegistry .maybeStat (← h.stat key))
  | .data key => do answered (.ofRegistry .maybeNode (← h.data key))
  | .children key => do answered (.ofRegistry .texts (← h.children key))
  | .delete key => do answered (.ofRegistry (fun _ => .nothing) (← h.delete key))
  | .deleteVersion key version => do
    answered (.ofRegistry (fun _ => .nothing) (← h.deleteVersion key version))

def ViewCommand.task (h : ReplicaHandle) : ViewCommand → Task Result
  | .entry key => do answered (.ofRegistry .maybeEntry (← Task.look fun w => h.entry w key))
  | .children key => do answered (.ofRegistry .texts (← Task.look fun w => h.children w key))
  | .initialized => do
    answered (.flag (← Task.look fun w =>
      ((w.replica? h.replica).map Replica.initialized).getD false))
  | .await ms => do answered (.flag (← Task.awaitSignal (.replicaFilled h.replica) (some ms)))

/-- A new connector on the shared ensemble, or one whose ensemble is still open. -/
def addConnector (settings : Settings) (undecided : Bool) : Task Nat :=
  Task.perform fun w =>
    let backend := if undecided then Backend.undecided else .ensemble World.shared
    (w.connectors.length, { w with connectors := w.connectors ++ [⟨settings, backend⟩] })

def makeCenter (name : String) (settings : Settings) (seed : Option (List UInt8))
    (lenient undecided : Bool) : Task Result := do
  match seed, settings.seedFile with
  | some bytes, some file => Task.change fun w => w.placeFile file bytes
  | _, _ => pure ()
  let connector ← addConnector settings undecided
  let c ← Task.perform fun w =>
    let center : Center := { connector := connector, ownsSeed := seed.isSome }
    (w.centers.length, { w with centers := w.centers ++ [center] })
  if lenient then
    let tally ← Task.perform fun w => (w.tallies.length, { w with tallies := w.tallies ++ [{}] })
    return { answer := .nothing, binding := some (.lenient name ⟨c, tally⟩) }
  else return { answer := .nothing, binding := some (.center name c) }

def onNamed {α : Type} (table : List (String × α)) (name : String) (t : α → Task Result) :
    Task Result :=
  match table.lookup name with
  | some a => t a
  | none => answered .unknownName

def Command.task (names : Names) : Command → Task Result
  | .connect name servers credentials undecided => do
    if undecided then
      answered (.refused (.backend "connector must be resolved before connecting"))
    else
      match ← Task.perform fun w =>
        w.connect World.shared servers (credentials.map Credentials.identity) with
      | .ok s => return { answer := .opened s.number, binding := some (.session name s) }
      | .error e => answered (.refused e)
  | .failConnects count => changeShared fun e => e.failConnects count
  | .inject error => changeShared fun e => e.inject error
  | .latency ms => changeShared fun e => e.setLatency ms
  | .expire number => do
    answered (.flag (← Task.perform fun w => w.expireSession ⟨World.shared, number⟩))
  | .peek paths => do
    answered (.nodes (← Task.look fun w => paths.map (w.ensemble World.shared).peek))
  | .advance ms => do
    Task.pause ms
    answered .nothing
  | .now => do answered (.number (← Task.look fun w => w.now))
  | .drainWatch name => onNamed names.watches name fun (ensemble, watch) => do
    let (events, ended) ← Task.perform fun w =>
      let (found, e) := (w.ensemble ensemble).drain watch
      (found, w.setEnsemble ensemble e)
    answered (.events events ended)
  | .dropWatch name =>
    pure { answer := .flag (names.watches.lookup name).isSome, binding := some (.noWatch name) }
  | .session name c => onNamed names.sessions name fun s => c.task s
  | .newReplica name root => do
    let m ← Task.perform fun w => w.addReplica root
    return { answer := .nothing, binding := some (.replica name m) }
  | .replica name c => onNamed names.replicas name fun m => c.task names m
  | .newCenter name settings seed lenient undecided =>
    makeCenter name settings seed lenient undecided
  | .center name c => onNamed names.centers name fun target => c.task target
  | .handle name c => onNamed names.sessionHandles name fun h => c.task h
  | .view name c => onNamed names.replicaHandles name fun h => c.task h
  | .newConnector name settings undecided => do
    let c ← addConnector settings undecided
    return { answer := .nothing, binding := some (.connector name c) }
  | .connectWith connector target => onNamed names.connectors connector fun c => do
    match ← Connecting.connect c leastDraw with
    | .ok s => return { answer := .number s.number, binding := some (.session target s) }
    | .error e => answered (.failed e)

end KeyRegistry.Scenario
