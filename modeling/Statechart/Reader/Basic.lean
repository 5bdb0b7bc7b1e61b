import Statechart.Reader.Draft
import Statechart.Token.Scan

namespace Statechart

namespace Reader

inductive Input
  | terminal (t : Terminal) (name : Option Name) (position : Position) (span : Span)
  | stray (c : Char) (position : Position) (span : Span)
  deriving DecidableEq

namespace Input

def ofLexeme (l : Lexeme) : Input :=
  match l.content with
  | .token t => .terminal t.terminal t.name? l.position l.span
  | .stray c => .stray c l.position l.span

def atEnd (source : String) : Input :=
  let stop := source.utf8ByteSize
  .terminal .endOfInput none ((LineIndex.ofSource source).locate stop) (.ofLength stop 0)

end Input

end Reader

structure Reader where
  phase : Reader.Phase := .header
  draft : Reader.Draft := {}
  deriving DecidableEq

namespace Reader

-- An input that is not expected is reported and passed over.
def step (r : Reader) : Input → Reader
  | .stray c position span =>
    { r with
      draft := r.draft.report .lexical (Lexeme.Content.stray c).render position span }
  | .terminal t name position span =>
    match r.phase.row? t with
    | some row =>
      { phase := row.next
        draft := row.edit.elim r.draft fun edit => r.draft.apply edit name span }
    | none =>
      let message := r.phase.label ++ "|" ++ t.label
      { r with draft := r.draft.report r.phase.errorKind message position span }

def run (r : Reader) (inputs : List Input) : Reader := inputs.foldl step r

def trace (r : Reader) : List Input → List Reader
  | [] => []
  | i :: is => r.step i :: trace (r.step i) is

def finish (r : Reader) : Chart := r.draft.finish

end Reader

namespace Chart

def inputs (source : String) : List Reader.Input :=
  (Lexeme.ofSource source).map .ofLexeme ++ [.atEnd source]

def ofSource (source : String) : Chart :=
  (Reader.run {} (inputs source)).finish

end Chart

end Statechart
