import Statechart.Command.Toml
import Statechart.Session

namespace Statechart

structure Arguments where
  input : String
  output : Option String := none
  config : Option String := none
  noOptimize : Bool := false

namespace Arguments

def ofList? (args : List String) : Option Arguments :=
  go none { input := "" } args
where
  go (input : Option String) (a : Arguments) : List String → Option Arguments
    | [] => input.map fun input => { a with input }
    | "-o" :: path :: rest | "--output" :: path :: rest => go input { a with output := path } rest
    | "-c" :: path :: rest | "--config" :: path :: rest => go input { a with config := path } rest
    | "--no-optimize" :: rest => go input { a with noOptimize := true } rest
    | path :: rest =>
      if input.isSome || path.startsWith "-" then none else go (some path) a rest

end Arguments

def obstacle : IO.Error → Obstacle
  | .noFileOrDirectory .. => .missingFile
  | e                     => .refused (toString e)

def findFile (path : String) : IO Session.File := do
  try
    return .holding (← IO.FS.readBinFile path)
  catch e =>
    match obstacle e with
    | .missingFile => return .missing
    | o            => return .unreadable o.message

def systemConfiguration : IO Session.File := do
  let directory ←
    match ← IO.getEnv "XDG_CONFIG_HOME", ← IO.getEnv "HOME" with
    | some directory, _    => pure directory
    | none, some directory => pure (directory ++ "/.config")
    | none, none           => return .missing
  findFile (directory ++ "/smc/config.toml")

def Arguments.session (a : Arguments) : IO Session := do
  let given ← a.config.mapM fun path => return ⟨path, ← findFile path⟩
  return {
    source := ← findFile a.input
    given := given
    localConfiguration := ← findFile "smc/config.toml"
    systemConfiguration := ← systemConfiguration
    noOptimize := a.noOptimize
    destination := if a.output.isSome then .file else .terminal }

def Arguments.write (a : Arguments) (text : String) : IO Session.Destination := do
  match a.output with
  | none =>
    IO.print text
    return .terminal
  | some path =>
    try
      IO.FS.writeFile path text
      return .file
    catch e =>
      return .blocked (obstacle e)

def Arguments.run (a : Arguments) : IO UInt32 := do
  let session ← a.session
  let destination ←
    match (session.run Settings.ofToml?).output with
    | some text => a.write text
    | none      => pure session.destination
  let ending := { session with destination }.run Settings.ofToml?
  for note in ending.log do
    IO.eprintln note.render
  match ending.result with
  | .ok _ => return 0
  | .error failure =>
    for report in failure.reports do
      IO.eprintln report.text
    return 1

end Statechart

def main (args : List String) : IO UInt32 := do
  match Statechart.Arguments.ofList? args with
  | some a => a.run
  | none =>
    IO.eprintln "usage: statechart INPUT [-o OUTPUT] [-c CONFIG] [--no-optimize]"
    return 2
