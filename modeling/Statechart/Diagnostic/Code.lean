import Statechart.Machine.Finding

namespace Statechart

inductive Code
  | unreadable (kind : Chart.ErrorKind)
  | fault (kind : Fault.Kind)
  | warning (kind : Warning.Kind)
  deriving DecidableEq

namespace Code

def label : Code → String
  | unreadable .lexical              => "E001"
  | unreadable .header               => "E100"
  | unreadable .state                => "E101"
  | unreadable .transition           => "E102"
  | unreadable .transitionGroup      => "E103"
  | unreadable .afterEnd             => "E104"
  | fault .noFsm                     => "E200"
  | fault .noInitial                 => "E201"
  | fault .invalidHeader             => "E202"
  | fault .extraHeader               => "E203"
  | fault .undefinedState            => "E204"
  | fault .undefinedSuper            => "E205"
  | fault .unusedState               => "E206"
  | fault .duplicateTransition       => "E207"
  | fault .abstractTarget            => "E208"
  | fault .actionsDiffer             => "E209"
  | fault .conflictingSupers         => "E210"
  | warning .inconsistentAbstraction => "W300"
  | warning .implicitSuper           => "W301"
  | warning .redundantSuper          => "W302"
  | warning .intersection            => "W303"

def description : Code → String
  | unreadable .lexical              => "unexpected character"
  | unreadable .header               => "syntax error in a header"
  | unreadable .state                => "syntax error in a state spec"
  | unreadable .transition           => "syntax error in a transition"
  | unreadable .transitionGroup      => "syntax error in a transition group"
  | unreadable .afterEnd             => "unexpected input after the end of the machine"
  | fault .noFsm                     => "missing `fsm` header"
  | fault .noInitial                 => "missing `initial` header"
  | fault .invalidHeader             => "unknown header"
  | fault .extraHeader               => "repeated header is ignored"
  | fault .undefinedState            => "undefined state"
  | fault .undefinedSuper            => "undefined superstate"
  | fault .unusedState               => "state is never used"
  | fault .duplicateTransition       => "duplicate transition"
  | fault .abstractTarget            => "abstract state used as next state"
  | fault .actionsDiffer             => "state actions are defined differently"
  | fault .conflictingSupers         => "superstates handle the same event differently"
  | warning .inconsistentAbstraction => "state is declared both abstract and concrete"
  | warning .implicitSuper           => "superstate was inserted implicitly"
  | warning .redundantSuper          => "superstate is redundant"
  | warning .intersection            => "state is reached through several superstates"

end Code

end Statechart
