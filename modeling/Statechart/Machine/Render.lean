import Statechart.Machine.Basic

namespace Statechart

namespace Transition

-- The word `null` stands for an event that is not there.
def render (t : Transition) : String :=
  "    " ++ t.event.getD "null" ++ " " ++ t.next ++ " \x7b" ++ " ".intercalate t.actions ++ "\x7d\n"

end Transition

namespace State

def render (name : Name) (s : State) : String :=
  "\n  " ++ (if s.isAbstract then "(" ++ name ++ ")" else name) ++
    String.join (s.supers.toList.map (" :" ++ ·)) ++
    String.join (s.entry.map (" <" ++ ·)) ++
    String.join (s.exit.map (" >" ++ ·)) ++
    " \x7b\n" ++ String.join (s.transitions.map Transition.render) ++ "  \x7d\n"

end State

namespace Machine

def render (m : Machine) : String :=
  "Actions: " ++ m.actionClass.getD "" ++ "\n" ++
    "FSM: " ++ m.fsm.getD "" ++ "\n" ++
    "Initial: " ++ m.initial.getD "" ++ "\x7b" ++
    String.join (m.states.entries.map fun e => e.2.render e.1) ++ "\x7d\n"

end Machine

end Statechart
