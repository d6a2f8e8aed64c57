import KeyRegistry.Backoff
import KeyRegistry.Json
import KeyRegistry.Namespace
import KeyRegistry.RegistryError
import KeyRegistry.Text.Blank

/-!
# Settings of a registry center

A zero timeout stands for the default one, and an empty digest for no digest.
`check` finds the first setting that no session could be opened with.
-/

namespace KeyRegistry

structure Credentials where
  scheme : String
  auth : String
  deriving DecidableEq, Repr

namespace Credentials

def digest (auth : String) : Credentials := ⟨"digest", auth⟩

def user (c : Credentials) : String :=
  String.ofList (c.auth.toList.takeWhile (· ≠ ':'))

/-- The name under which the nodes of a session are recorded; it shows no secret. -/
def identity (c : Credentials) : String :=
  c.scheme ++ ":" ++ c.user

def masked (c : Credentials) : String :=
  "Credentials \x7b scheme: " ++ Text.quoted c.scheme ++ ", auth: \"***\" \x7d"

end Credentials

structure Settings where
  serverLists : String := "localhost:2181"
  namespaceName : String := "tasker"
  baseSleepMs : Nat := 1000
  maxRetries : Nat := 3
  maxSleepMs : Nat := 3000
  sessionTimeoutMs : Nat := 0
  connectionTimeoutMs : Nat := 0
  digest : Option String := none
  seedFile : Option String := none
  overwrite : Bool := false
  replicaShutdownMs : Nat := 500
  deriving DecidableEq, Repr

namespace Settings

/-- The server list that stands for an ensemble within the process. -/
def memoryMark : String := "memory:"

def inMemory (namespaceName : String) : Settings :=
  { serverLists := memoryMark ++ "local", namespaceName := namespaceName }

def usesMemory (serverLists : String) : Bool :=
  memoryMark.toList.isPrefixOf serverLists.toList

def namespaceOf (s : Settings) : Except RegistryError Namespace :=
  (Namespace.ofName s.namespaceName).mapError fun (p, f) => .ofPathFault p f

def sessionTimeout (s : Settings) : Nat :=
  if s.sessionTimeoutMs = 0 then 60000 else s.sessionTimeoutMs

def connectionTimeout (s : Settings) : Nat :=
  if s.connectionTimeoutMs = 0 then 15000 else s.connectionTimeoutMs

def credentials (s : Settings) : Option Credentials :=
  match s.digest with
  | none => none
  | some d => if d = "" then none else some (.digest d)

def identity (s : Settings) : Option String :=
  s.credentials.map Credentials.identity

def backoff (s : Settings) : Backoff :=
  .make (.ofMillis s.baseSleepMs) s.maxRetries (.ofMillis s.maxSleepMs)

/-- The first setting that no session could be opened with. -/
def check (s : Settings) : Except RegistryError Unit := do
  if !Text.hasInk s.serverLists.toList then
    throw (.configuration "server_lists must not be empty")
  let _ ← s.namespaceOf
  if s.maxSleepMs < s.baseSleepMs then
    throw (.configuration
      (s!"max_sleep_time_milliseconds ({s.maxSleepMs}) is below " ++
        s!"base_sleep_time_milliseconds ({s.baseSleepMs})"))
  match s.digest with
  | some d =>
    if d ≠ "" ∧ ':' ∉ d.toList then
      throw (.configuration "digest must have the form user:password")
  | none => pure ()

def optionalText : Option String → Json
  | some t => .str t
  | none => .null

def toJson (s : Settings) : Json :=
  .obj [
    ("base_sleep_time_milliseconds", .int s.baseSleepMs),
    ("cache_shutdown_timeout_milliseconds", .int s.replicaShutdownMs),
    ("connection_timeout_milliseconds", .int s.connectionTimeoutMs),
    ("digest", optionalText s.digest),
    ("local_properties_path", optionalText s.seedFile),
    ("max_retries", .int s.maxRetries),
    ("max_sleep_time_milliseconds", .int s.maxSleepMs),
    ("namespace", .str s.namespaceName),
    ("overwrite", .bool s.overwrite),
    ("server_lists", .str s.serverLists),
    ("session_timeout_milliseconds", .int s.sessionTimeoutMs)]

def redacted (s : Settings) : Settings :=
  { s with digest := s.digest.map fun _ => "***REDACTED***" }

def sanitized (s : Settings) : Json := s.redacted.toJson

def sanitizedText (s : Settings) : String :=
  String.ofList (s.sanitized.compact Json.escapeChar fun _ => [])

end Settings

end KeyRegistry
