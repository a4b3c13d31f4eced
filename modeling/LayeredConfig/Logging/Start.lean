/-
Starting to log. What is logged is set by an environment variable, and where else it goes by a
second one: a directory, in which a log file is opened. Logging is started once; a second start is
refused, but only after its file has been opened.
-/
import LayeredConfig.FileTree.Access
import LayeredConfig.Logging.Filter

namespace LayeredConfig

namespace Logging

inductive StartError where
  /-- The log file could not be opened. -/
  | openFile (directory : Path) (cause : FileError)
  | started
deriving DecidableEq, Repr, Inhabited

def StartError.message : StartError → String
  | openFile directory _ => "failed to initialize rolling file appender in " ++ directory.quoted
  | started => "failed to install the global tracing subscriber"

/-- The values of the environment variables that are set. -/
abbrev Environment := List (String × String)

/-- The filter that a variable of some name sets. Without one, or with one that cannot be read, everything up to
information is logged. -/
def filterOf (env : Environment) (name : String) : List Directive :=
  ((env.lookup name).bind parseFilter?).getD [{ level := .info }]

/-- The directory for the log file, if one is set. -/
def directory? (env : Environment) (name : String) : Option Path :=
  (env.lookup (name ++ "_DIRECTORY")).map Path.ofString

def logFile (directory : Path) (app : String) : Path := directory / .ofString (app ++ ".log")

/-- Opens a log file. Its directory is created if the file cannot be opened without that. -/
def openLog (path : Path) : Files FileError Unit := fun t =>
  match t.append path "" with
  | .ok t => .ok () t
  | .error e => match path.parent? with
    | none => .error e t
    | some parent => (do
        Files.createDirectories parent
        Files.change fun t => t.append path "") t

/-- The event that tells of the log file, in a program that logs under the name `target`. -/
def fileEvent (target : String) : Event := ⟨.info, target, ["message", "directory"]⟩

/-- What is written to the log file for that event. -/
def fileLine (directory : String) : String := "file logging enabled directory=" ++ directory ++ "\n"

/-- Starts logging for an application, in a program that logs under the name `target`. -/
def start (target : String) (env : Environment) (started : Bool) (name app : String) :
    Files StartError Unit := do
  let directory := directory? env name
  if let some dir := directory then
    (openLog (logFile dir app)).explain (.openFile dir)
  if started then throw .started
  if let some dir := directory then
    if isLogged (filterOf env name) (fileEvent target) then
      -- A line that cannot be written is lost.
      Files.change fun t =>
        .ok (((t.append (logFile dir app) (fileLine (dir.text?.getD ""))).toOption).getD t)

end Logging
end LayeredConfig
