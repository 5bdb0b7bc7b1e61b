import Statechart.Chart.Render
import Statechart.Diagnostic.Failure
import Statechart.Dispatch.OfMachine
import Statechart.Machine.OfChart
import Statechart.Machine.Render
import Statechart.Nest.Resolve
import Statechart.Reader.Basic
import Statechart.Settings.Basic

namespace Statechart

inductive Note
  | compiling
  | loadingGivenConfiguration
  | loadingLocalConfiguration
  | loadingSystemConfiguration
  | parsing
  | analyzing
  | optimizing
  | optimized
  | syntaxErrors (count : Nat)
  | semanticErrors (count : Nat)
  | semanticWarnings (count : Nat)
  | warning (message : String)
  | written
  deriving DecidableEq

namespace Note

def isWarning : Note → Bool
  | semanticWarnings _ | warning _ => true
  | _ => false

def summary (count : Nat) (problem : String) : String :=
  "Compiled with " ++ toString count ++ " " ++ problem ++ "(s)."

def message : Note → String
  | compiling                  => "Compiling state machine"
  | loadingGivenConfiguration  => "Loading configuration from explicit path"
  | loadingLocalConfiguration  => "Loading configuration from local path"
  | loadingSystemConfiguration => "Loading configuration from system path"
  | parsing                    => "Parsing state machine"
  | analyzing                  => "Analyzing state machine"
  | optimizing                 => "Optimizing state machine"
  | optimized                  => "State machine optimized"
  | syntaxErrors count         => summary count "syntax error"
  | semanticErrors count       => summary count "semantic error"
  | semanticWarnings count     => summary count "semantic warning"
  | warning message            => message
  | written                    => "Output written successfully"

def render (n : Note) : String := (if n.isWarning then "warn " else "info ") ++ n.message

end Note

structure Outcome (α : Type) where
  log : List Note := []
  result : Except Failure α

namespace Outcome

def note (n : Note) : Outcome Unit := ⟨[n], .ok ()⟩

def fail (f : Failure) : Outcome α := ⟨[], .error f⟩

protected def bind (x : Outcome α) (f : α → Outcome β) : Outcome β :=
  match x.result with
  | .error e => ⟨x.log, .error e⟩
  | .ok a    => ⟨x.log ++ (f a).log, (f a).result⟩

instance : Monad Outcome where
  pure a := ⟨[], .ok a⟩
  bind := Outcome.bind

end Outcome

inductive Product
  | dispatch (d : Dispatch)
  | machine (m : Machine)

def Product.render : Product → String
  | dispatch d => d.render
  | machine m  => m.render

structure Compiled where
  product : Product
  warnings : List Diagnostic

namespace Compiled

def render (c : Compiled) : String := c.product.render

end Compiled

def parse (source : String) : Outcome Chart := do
  .note .parsing
  let chart := Chart.ofSource source
  match chart.rejection? with
  | none => pure chart
  | some r =>
    .note (.syntaxErrors r.errorCount)
    .fail (.rejected r source)

-- The machine of a chart, without multiple inheritance if the chart is sound.
def Chart.resolved (c : Chart) : Machine :=
  let m := Machine.ofChart c
  if m.hasFaults then m else m.resolve

namespace Settings

def analyze (s : Settings) (source : String) : Outcome (Machine × List Diagnostic) := do
  let chart ← parse source
  .note .analyzing
  let m := chart.resolved
  match m.check s.denyWarnings with
  | .error r =>
    .note (.semanticErrors r.errorCount)
    .fail (.rejected r source)
  | .ok warnings =>
    if !warnings.isEmpty then
      .note (.semanticWarnings warnings.length)
    pure (m, warnings)

def compile (s : Settings) (source : String) : Outcome Compiled := do
  let (m, warnings) ← s.analyze source
  if s.optimize then
    .note .optimizing
    .note .optimized
    pure ⟨.dispatch m.dispatch, warnings⟩
  else
    pure ⟨.machine m, warnings⟩

end Settings

end Statechart
