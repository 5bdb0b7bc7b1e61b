import Statechart.Compile
import Statechart.Settings.Basic

namespace Statechart

namespace Session

inductive File
  | missing
  | unreadable (reason : String)
  | holding (bytes : ByteArray)

namespace File

def ofBytes? (bytes : Option ByteArray) : File := bytes.elim missing holding

instance : Coe (Option ByteArray) File := ⟨ofBytes?⟩

instance : Coe (Option String) File := ⟨fun text => ofBytes? (text.map String.toUTF8)⟩

def isMissing : File → Bool
  | missing => true
  | _       => false

def read : File → Outcome String
  | missing           => .fail (.blocked .missingFile)
  | unreadable reason => .fail (.blocked (.refused reason))
  | holding bytes     =>
    match String.fromUTF8? bytes with
    | some text => pure text
    | none      => .fail (.blocked .invalidText)

end File

structure Given where
  path : String
  file : File

inductive Destination
  | file
  | blocked (o : Obstacle)
  | terminal
  deriving DecidableEq

def Destination.missingDirectory : Destination := blocked .missingFile

end Session

structure Session where
  source : Session.File
  given : Option Session.Given := none
  localConfiguration : Session.File := .missing
  systemConfiguration : Session.File := .missing
  noOptimize : Bool := false
  destination : Session.Destination := .file

namespace Session

def loadSettings (format : Settings.Format) (file : File) : Outcome Settings := do
  match format (← file.read) with
  | some s => pure s
  | none   => .fail (.blocked .malformedConfiguration)

-- The first configuration there is counts: the given one, the local one, that of the system. One
-- that was asked for has to exist.
def configuration (s : Session) (format : Settings.Format) : Outcome Settings :=
  match s.given with
  | some given => do
    .note .loadingGivenConfiguration
    if given.file.isMissing then
      .fail (.blocked (.missingConfiguration given.path))
    else
      loadSettings format given.file
  | none =>
    if !s.localConfiguration.isMissing then do
      .note .loadingLocalConfiguration
      loadSettings format s.localConfiguration
    else if !s.systemConfiguration.isMissing then do
      .note .loadingSystemConfiguration
      loadSettings format s.systemConfiguration
    else
      pure {}

def settings (s : Session) (format : Settings.Format) : Outcome Settings := do
  let settings ← s.configuration format
  pure { settings with optimize := settings.optimize && !s.noOptimize }

def product (s : Session) (format : Settings.Format) : Outcome String := do
  .note .compiling
  let settings ← s.settings format
  let source ← s.source.read
  let compiled ← settings.compile source
  compiled.warnings.forM fun w => .note (.warning w.message)
  pure compiled.render

def write (s : Session) : Outcome Unit :=
  match s.destination with
  | .file      => .note .written
  | .blocked o => .fail (.blocked o)
  | .terminal  => pure ()

-- What a run comes to: its notes, how it ended, and what was written, if anything.
structure Ending where
  log : List Note
  result : Except Failure Unit
  output : Option String

def run (s : Session) (format : Settings.Format) : Ending :=
  let x := s.product format
  match x.result with
  | .error f => ⟨x.log, .error f, none⟩
  | .ok text =>
    match s.write.result with
    | .error f => ⟨x.log ++ s.write.log, .error f, none⟩
    | .ok _    => ⟨x.log ++ s.write.log, .ok (), some text⟩

end Session

end Statechart
