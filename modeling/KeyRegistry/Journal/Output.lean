import KeyRegistry.Environment
import KeyRegistry.Journal.Filter
import KeyRegistry.Journal.Line

/-!
# Where the journal goes

The environment says what the journal's output looks like and what it holds. A
process sets the output up at most once. Where the host already takes all
notices, they go to it and nothing is written.
-/

namespace KeyRegistry

structure Output where
  environment : String
  json : Bool
  filter : Filter
  deriving DecidableEq, Repr

namespace Output

def defaultLevel (environment : String) : Level :=
  if environment = "production" then .info else .debug

def isJson (format : String) : Bool := format.toLower = "json"

def ofEnvironment (e : Environment) : Output :=
  let environment := ((e.get? "TASKER_ENV") <|> (e.get? "APP_ENV")).getD "development"
  let fallback := Filter.upTo (defaultLevel environment)
  { environment := environment
    json := (e.get? "TASKER_LOG_FORMAT").any isJson
    filter := ((e.get? "RUST_LOG").bind Filter.ofText?).getD fallback }

def target : String := "tasker_registry::logging"

/-- What setting the output up gives notice of; only the first time counts. -/
def setUp (o : Output) (hosted : Bool) (times : Nat) : List Notice :=
  if times = 0 then []
  else (if hosted then [.loggingKept] else []) ++ [.loggingStarted o.environment o.json]

def write (o : Output) (n : Notice) : Json :=
  if o.json then n.object target else .str (n.line target)

def lines (o : Output) (times : Nat) (notices : List Notice) : List Json :=
  if times = 0 then []
  else ((o.setUp false times ++ notices).filter fun n => o.filter.passes target n.level).map o.write

end Output

end KeyRegistry
