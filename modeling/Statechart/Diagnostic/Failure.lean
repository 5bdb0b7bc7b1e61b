import Statechart.Diagnostic.Basic

namespace Statechart

inductive Obstacle
  | missingFile
  | invalidText
  | refused (reason : String)
  | missingConfiguration (path : String)
  | malformedConfiguration
  deriving DecidableEq

def Obstacle.message : Obstacle → String
  | missingFile               => "No such file or directory (os error 2)"
  | invalidText               => "stream did not contain valid UTF-8"
  | refused reason            => reason
  | missingConfiguration path => "Missing configuration file: " ++ path
  | malformedConfiguration    => "Failed to parse TOML configuration"

inductive Failure
  | rejected (r : Rejection) (source : String)
  | blocked (o : Obstacle)
  deriving DecidableEq

def Failure.message : Failure → String
  | rejected r _ => r.render
  | blocked o    => "I/O error: " ++ o.message

inductive Report
  | diagnostic (d : Diagnostic) (source : String)
  | failure (o : Obstacle)
  deriving DecidableEq

namespace Report

def text : Report → String
  | diagnostic d _ => d.message
  | failure o      => (Failure.blocked o).message

def code : Report → Option String
  | diagnostic d _ => d.code.map (·.label)
  | failure _      => some "smc::io"

def severity : Report → Option Severity
  | diagnostic d _ => some d.severity
  | failure _      => none

def help : Report → Option String
  | diagnostic d _ => d.help
  | failure _      => none

def sourceCode : Report → Option String
  | diagnostic _ source => some source
  | failure _           => none

def cause : Report → Option String
  | diagnostic _ _ => none
  | failure o      => some o.message

def labels : Report → Option (List Diagnostic.Label)
  | diagnostic d _ => if d.labels.isEmpty then none else some d.labels
  | failure _      => none

end Report

namespace Failure

def reports : Failure → List Report
  | rejected r source => r.diagnostics.map (.diagnostic · source)
  | blocked o         => [.failure o]

-- Only what has no diagnostics of its own has a code as a whole.
def code : Failure → Option String
  | rejected _ _ => none
  | blocked o    => (Report.failure o).code

end Failure

end Statechart
