import Statechart.Machine.Basic

namespace Statechart

namespace Dispatch

structure Entry where
  event : Name
  next : Name
  actions : List Name
  deriving DecidableEq

structure Table where
  state : Name
  entries : List Entry
  deriving DecidableEq

namespace Table

def find? (t : Table) (event : Name) : Option Entry := t.entries.find? (·.event = event)

end Table

end Dispatch

structure Dispatch where
  fsm : Option Name
  initial : Option Name
  actionClass : Option Name
  states : List Name
  events : List Name
  actions : List Name
  tables : List Dispatch.Table
  deriving DecidableEq

namespace Dispatch

def table? (d : Dispatch) (state : Name) : Option Table := d.tables.find? (·.state = state)

namespace Entry

def render (e : Entry) : String :=
  "    " ++ e.event ++ " " ++ e.next ++ " \x7b" ++ " ".intercalate e.actions ++ "\x7d\n"

end Entry

namespace Table

def render (t : Table) : String :=
  "  " ++ t.state ++ " \x7b\n" ++ String.join (t.entries.map Entry.render) ++ "  \x7d\n"

end Table

def render (d : Dispatch) : String :=
  "Initial: " ++ d.initial.getD "" ++ "\n" ++
    "Fsm: " ++ d.fsm.getD "" ++ "\n" ++
    "Actions:" ++ d.actionClass.getD "" ++ "\n" ++
    "\x7b\n" ++ String.join (d.tables.map Table.render) ++ "\x7d\n"

end Dispatch

end Statechart
