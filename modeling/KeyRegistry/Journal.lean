import KeyRegistry.Backoff
import KeyRegistry.RegistryError
import KeyRegistry.Shutdown

/-!
# The journal

Every notice that the library gives is a value of `Notice`. Its level, its
wording and its fields follow from the value.
-/

namespace KeyRegistry

inductive Level
  | error
  | warn
  | info
  | debug
  | trace
  deriving DecidableEq, Repr

def Level.label : Level → String
  | .error => "ERROR"
  | .warn => "WARN"
  | .info => "INFO"
  | .debug => "DEBUG"
  | .trace => "TRACE"

def Level.rank : Level → Nat
  | .error => 1
  | .warn => 2
  | .info => 3
  | .debug => 4
  | .trace => 5

/-- A field's value; a `quotable` text is quoted where a line is meant for people. -/
inductive FieldValue
  | text (t : String)
  | quotable (t : String)
  | int (n : Int)
  | bool (b : Bool)
  deriving DecidableEq, Repr

inductive Notice
  | loggingStarted (environment : String) (json : Bool)
  | loggingKept
  | operation (name namespaceRoot : String) (key : Option String) (status : String)
      (details : Option String)
  | retriesClamped (requested : Nat)
  | settingsLoaded (sanitized : String)
  | seedLoaded (file : String) (entries : Nat)
  | seedApplied (file namespaceRoot : String) (created overwritten kept : Nat)
  | sessionOpened (id : Nat)
  | sessionExpired (id : Nat)
  | sessionClosed (id : Nat)
  | deleteRepeated (path : String) (attempt : Nat)
  | nodeAppeared (path : String)
  | connected (servers : String) (id retries : Nat)
  | backingOff (servers : String) (retry maxRetries : Nat) (error : ServiceError)
  | connectRejected (servers : String) (error : ServiceError)
  | replicaStarted (root : String)
  | replicaFilled (root : String) (nodes : Nat)
  | fillingCutShort (root : String) (error : ServiceError)
  | fillingIncomplete (root : String) (error : ServiceError)
  | nodeSkipped (path : String)
  | refreshFailed (path : String) (error : ServiceError)
  | replicaLostSession (root : String) (error : ServiceError)
  | watchEnded (root : String)
  | replicaCancelled (root : String) (timeoutMs : Nat)
  | replicaClosed (root : String) (outcome : Shutdown)
  | centerStarting (sanitized : String)
  | centerStartFailed (error : RegistryError)
  | centerStillDraining
  | centerClosed (namespaceRoot : String) (outcome : Shutdown)
  | absorbed (operation key : String) (error : RegistryError)
  deriving DecidableEq, Repr

namespace Notice

def level : Notice → Level
  | .loggingStarted .. | .operation .. | .seedApplied .. | .sessionExpired .. | .connected ..
  | .replicaFilled .. | .centerClosed .. => .info
  | .retriesClamped .. | .backingOff .. | .fillingCutShort .. | .fillingIncomplete ..
  | .refreshFailed .. | .replicaLostSession .. | .replicaCancelled .. | .centerStartFailed ..
  | .centerStillDraining => .warn
  | .absorbed _ _ e =>
    match e.disposition with
    | .ignored => .debug
    | .interrupted => .warn
    | .logged => .error
  | _ => .debug

def message : Notice → String
  | .loggingStarted .. => "🔧 STRUCTURED LOGGING: Initialized"
  | .loggingKept =>
    "Global tracing subscriber already initialized - continuing with existing subscriber"
  | .operation .. => "📚 REGISTRY_OPERATION"
  | .retriesClamped .. => "max_retries too large, clamping"
  | .settingsLoaded .. => "Loaded registry configuration"
  | .seedLoaded .. => "Loaded local seed"
  | .seedApplied .. => "🌱 Local seed applied"
  | .sessionOpened .. => "Memory session established"
  | .sessionExpired .. => "Memory session expired"
  | .sessionClosed .. => "Memory session closed"
  | .deleteRepeated .. => "Children appeared during delete, retrying"
  | .nodeAppeared .. => "Node created concurrently, updating instead"
  | .connected .. => "🔗 Registry session established"
  | .backingOff .. => "Connection attempt failed, backing off"
  | .connectRejected .. => "Connection attempt rejected"
  | .replicaStarted .. => "Tree cache started"
  | .replicaFilled .. => "🗂️ Tree cache initialized"
  | .fillingCutShort .. => "Session ended during cache population"
  | .fillingIncomplete .. => "Cache population incomplete, continuing with watch events"
  | .nodeSkipped .. => "Skipping node without read access"
  | .refreshFailed .. => "Failed to refresh cached node"
  | .replicaLostSession .. => "Session ended, tree cache stopping"
  | .watchEnded .. => "Watch channel closed"
  | .replicaCancelled .. => "Tree cache did not drain in time, aborted"
  | .replicaClosed .. => "Tree cache closed"
  | .centerStarting .. => "Registry center init"
  | .centerStartFailed .. => "Registry center init failed, closing session"
  | .centerStillDraining => "Closing session while cache worker was still draining"
  | .centerClosed .. => "🔒 Registry center closed"
  | .absorbed _ _ e =>
    match e.disposition with
    | .ignored => "Ignored registry exception"
    | .interrupted => "Registry operation interrupted"
    | .logged => "❌ Registry operation failed"

def optional (name : String) : Option String → List (String × FieldValue)
  | some t => [(name, .quotable t)]
  | none => []

def fields : Notice → List (String × FieldValue)
  | .loggingStarted environment json => [("environment", .text environment), ("json", .bool json)]
  | .loggingKept => []
  | .operation name ns key status details =>
    [("operation", .text name), ("namespace", .text ns)] ++ optional "key" key ++
      [("status", .text status)] ++ optional "details" details
  | .retriesClamped requested => [("requested", .int requested), ("limit", .int retryLimit)]
  | .settingsLoaded sanitized => [("config", .text sanitized)]
  | .seedLoaded file entries => [("path", .text file), ("entries", .int entries)]
  | .seedApplied file ns created overwritten kept =>
    [("source", .text file), ("namespace", .quotable ns), ("created", .int created),
      ("overwritten", .int overwritten), ("kept", .int kept)]
  | .sessionOpened id | .sessionExpired id | .sessionClosed id => [("session_id", .int id)]
  | .deleteRepeated path attempt => [("path", .text path), ("attempt", .int attempt)]
  | .nodeAppeared path => [("path", .text path)]
  | .connected servers id retries =>
    [("servers", .text servers), ("backend", .quotable "memory"), ("session_id", .int id),
      ("retries", .int retries)]
  | .backingOff servers retry maxRetries e =>
    [("servers", .text servers), ("retry", .int retry), ("max_retries", .int maxRetries),
      ("error", .text e.message)]
  | .connectRejected servers e => [("servers", .text servers), ("error", .text e.message)]
  | .replicaStarted root | .watchEnded root => [("root", .text root)]
  | .replicaFilled root nodes => [("root", .text root), ("nodes", .int nodes)]
  | .fillingCutShort root e | .fillingIncomplete root e | .replicaLostSession root e =>
    [("root", .text root), ("error", .text e.message)]
  | .nodeSkipped path => [("path", .text path)]
  | .refreshFailed path e => [("path", .text path), ("error", .text e.message)]
  | .replicaCancelled root timeoutMs => [("root", .text root), ("timeout_ms", .int timeoutMs)]
  | .replicaClosed root outcome => [("root", .text root), ("outcome", .text outcome.label)]
  | .centerStarting sanitized => [("config", .text sanitized)]
  | .centerStartFailed e => [("error", .text e.message)]
  | .centerStillDraining => []
  | .centerClosed ns outcome =>
    [("namespace", .quotable ns), ("cache_shutdown", .text outcome.label)]
  | .absorbed name key e =>
    [("operation", .quotable name), ("key", .quotable key), ("error", .text e.message)]

end Notice

end KeyRegistry
