/-!
# Telemetry settings

Log settings come from environment variables.  A variable that is not text
counts as missing.
-/

namespace BlockProduction

inductive EnvValue where
  | text (value : String)
  | notText
  deriving DecidableEq

/-- An environment: values by name. -/
abbrev Environment := List (String × EnvValue)

namespace Environment

def get? (env : Environment) (name : String) : Option String :=
  match env.lookup name with
  | some (.text value) => some value
  | _ => none

end Environment

structure Telemetry where
  serviceName : String
  component : String
  logLevel : String
  consoleOutput : Bool
  jsonLogs : Bool
  threadIds : Bool
  deriving DecidableEq

inductive TelemetryError where
  /-- Logging was set up before. -/
  | alreadyInitialized
  /-- The filter is not valid. -/
  | config
  deriving DecidableEq

structure LoggingHandle where
  serviceName : String
  isJson : Bool
  deriving DecidableEq

namespace Telemetry

/-- The component that adds nothing to the name of the service. -/
def coreComponent : String := "core"

def usual : Telemetry :=
  ⟨"block-assembly", coreComponent, "info", true, false, false⟩

instance : Inhabited Telemetry := ⟨usual⟩

/-- A switch: one of four words for on, one of four for off, in letters of
either case; any other text leaves it as it is. -/
def switch (value : String) (otherwise : Bool) : Bool :=
  let word := value.toLower
  if ["1", "true", "yes", "on"].contains word then true
  else if ["0", "false", "no", "off"].contains word then false
  else otherwise

def inContainer (env : Environment) : Bool :=
  (env.get? "KUBERNETES_SERVICE_HOST").isSome || (env.get? "DOCKER_CONTAINER").isSome

def ofEnvironment (env : Environment) : Telemetry :=
  let switchOf (name : String) (garbled missing : Bool) : Bool :=
    match env.get? name with
    | some value => switch value garbled
    | none => missing
  { serviceName := (env.get? "ASSEMBLY_SERVICE_NAME").getD usual.serviceName
    component := coreComponent
    logLevel := ((env.get? "ASSEMBLY_LOG_LEVEL").or (env.get? "RUST_LOG")).getD usual.logLevel
    consoleOutput := switchOf "ASSEMBLY_CONSOLE_OUTPUT" true true
    jsonLogs := switchOf "ASSEMBLY_JSON_LOGS" false (inContainer env)
    threadIds := switchOf "ASSEMBLY_THREAD_IDS" false false }

/-- The settings that an environment asks for, for one component. -/
def forComponent (env : Environment) (component : String) : Telemetry :=
  { ofEnvironment env with component }

def fullServiceName (t : Telemetry) : String :=
  if t.component = coreComponent then t.serviceName else t.serviceName ++ "-" ++ t.component

def filterOf? (level : String) : Option String :=
  let word := level.toLower
  if ["trace", "debug", "info", "warn", "error", "off"].contains word then some word else none

/-- The filter: the one that the environment names, if it is valid, else the one
of the settings. -/
def filter (t : Telemetry) (env : Environment) : Except TelemetryError String :=
  match (env.get? "RUST_LOG").bind filterOf? with
  | some word => .ok word
  | none =>
      match filterOf? t.logLevel with
      | some word => .ok word
      | none => .error .config

/-- Set up logging; a filter that is not valid is noticed first. -/
def install (t : Telemetry) (env : Environment) (installed : Bool) :
    Except TelemetryError LoggingHandle :=
  match t.filter env with
  | .error e => .error e
  | .ok _ =>
      if installed then .error .alreadyInitialized
      else .ok ⟨t.fullServiceName, t.jsonLogs⟩

end Telemetry

end BlockProduction
