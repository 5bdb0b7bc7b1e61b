import Statechart.Diagnostic.Code
import Statechart.Machine.Basic

namespace Statechart

inductive Severity
  | error
  | warning
  deriving DecidableEq

def Severity.label : Severity → String
  | error   => "error"
  | warning => "warning"

namespace Diagnostic

structure Label where
  span : Span
  message : String
  isPrimary : Bool := true
  deriving DecidableEq

end Diagnostic

structure Diagnostic where
  severity : Severity
  message : String
  code : Option Code := none
  labels : List Diagnostic.Label := []
  help : Option String := none
  deriving DecidableEq

namespace Diagnostic

def isError (d : Diagnostic) : Bool := d.severity = .error

def isWarning (d : Diagnostic) : Bool := d.severity = .warning

def denied (d : Diagnostic) : Diagnostic := { d with severity := .error }

def render (d : Diagnostic) : String :=
  d.severity.label ++ d.code.elim "" (fun c => "[" ++ c.label ++ "]") ++ ": " ++ d.message

def ofError (e : Chart.Error) : Diagnostic :=
  let code := Code.unreadable e.kind
  let remark := if e.kind = .lexical then "not part of any token" else "unexpected here"
  let state := e.state.map (⟨·, "in the transitions of this state", false⟩)
  { severity := .error
    message := e.message
    code := some code
    labels := ⟨e.span, remark, true⟩ :: state.toList
    help := some code.description }

def findingMessage (kind subject : String) : String :=
  if subject.isEmpty then kind else kind ++ "(" ++ subject ++ ")"

def ofFault (f : Fault) : Diagnostic :=
  let code := Code.fault f.kind
  { severity := .error
    message := findingMessage f.kind.label f.subject
    code := some code
    help := some code.description }

def ofWarning (w : Warning) : Diagnostic :=
  let code := Code.warning w.kind
  { severity := .warning
    message := findingMessage w.kind.label w.subject
    code := some code
    help := some code.description }

end Diagnostic

structure Rejection where
  diagnostics : List Diagnostic
  deriving DecidableEq

namespace Rejection

def errorCount (r : Rejection) : Nat := r.diagnostics.countP (·.isError)

def warningCount (r : Rejection) : Nat := r.diagnostics.countP (·.isWarning)

def render (r : Rejection) : String :=
  match r.diagnostics with
  | []         => ""
  | [d]        => d.render
  | d :: _ :: ds => d.render ++ " (+" ++ toString (ds.length + 1) ++ " more)"

end Rejection

namespace Chart

def rejection? (c : Chart) : Option Rejection :=
  if c.hasErrors then some ⟨c.errors.map .ofError⟩ else none

end Chart

namespace Machine

-- All findings, the faults first. Warnings count as errors where they are denied.
def diagnostics (m : Machine) (denyWarnings : Bool) : List Diagnostic :=
  m.faults.map .ofFault ++
    m.warnings.map fun w => if denyWarnings then (Diagnostic.ofWarning w).denied else .ofWarning w

def check (m : Machine) (denyWarnings : Bool) : Except Rejection (List Diagnostic) :=
  let diagnostics := m.diagnostics denyWarnings
  if diagnostics.any (·.isError) then .error ⟨diagnostics⟩ else .ok diagnostics

end Machine

end Statechart
