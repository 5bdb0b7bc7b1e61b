import Statechart.Chart.Basic

namespace Statechart.Chart

namespace Header

def render (h : Header) : String := h.name ++ ":" ++ h.value ++ "\n"

end Header

namespace Head

def render (h : Head) : String :=
  (if h.isAbstract then "(" ++ h.name ++ ")" else h.name) ++
    String.join (h.supers.map (":" ++ ·)) ++
    String.join (h.entry.map (" <" ++ ·)) ++
    String.join (h.exit.map (" >" ++ ·))

end Head

namespace Arrow

-- One action stands by itself; none or several are put in braces.
def renderActions : List Name → String
  | [action] => action
  | actions  => "\x7b" ++ " ".intercalate actions ++ "\x7d"

def render (a : Arrow) : String :=
  a.event.getD "-" ++ " " ++ a.next.getD "-" ++ " " ++ renderActions a.actions

end Arrow

namespace Block

def renderArrows : List Arrow → String
  | [arrow] => arrow.render
  | arrows  => "\x7b\n" ++ String.join (arrows.map fun a => "    " ++ a.render ++ "\n") ++ "  \x7d"

def render (b : Block) : String :=
  "  " ++ b.head.render ++ " " ++ renderArrows b.arrows ++ "\n"

end Block

namespace Error

def render (e : Error) : String :=
  "Syntax Error Line: " ++ toString e.position.line ++ ", Position: " ++
    toString e.position.column ++ ".  (" ++ e.kind.label ++ ") " ++ e.message

end Error

def renderBlocks (c : Chart) : String :=
  if c.closed || !c.blocks.isEmpty then
    "\x7b\n" ++ String.join (c.blocks.map Block.render) ++ "\x7d\n"
  else ""

def render (c : Chart) : String :=
  String.join (c.headers.map Header.render) ++ c.renderBlocks ++
    String.join (c.errors.map (·.render ++ "\n"))

end Statechart.Chart
