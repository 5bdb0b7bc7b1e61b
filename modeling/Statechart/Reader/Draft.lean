import Statechart.Reader.Table

namespace Statechart.Reader

-- A chart that is being drawn up, with the header, the block and the arrow that are not complete
-- yet.
structure Draft where
  chart : Chart := {}
  header : Option Name := none
  block : Option Chart.Block := none
  place : Option Span := none
  arrow : Option Chart.Arrow := none
  deriving DecidableEq

namespace Draft

def flush (d : Draft) : Draft :=
  { d with
    chart := { d.chart with blocks := d.chart.blocks ++ d.block.toList }
    block := none
    place := none }

def beginState (d : Draft) (name : Name) (isAbstract : Bool) (place : Span) : Draft :=
  { d.flush with block := some { head := { name, isAbstract } }, place := some place }

def modifyHead (d : Draft) (f : Chart.Head → Chart.Head) : Draft :=
  { d with block := d.block.map fun b => { b with head := f b.head } }

def modifyArrow (d : Draft) (f : Chart.Arrow → Chart.Arrow) : Draft :=
  { d with arrow := d.arrow.map f }

def addAction (d : Draft) (action : Name) : Draft :=
  d.modifyArrow fun a => { a with actions := a.actions ++ [action] }

def commitHeader (d : Draft) (value : Name) : Draft :=
  { d with
    chart := { d.chart with
      headers := d.chart.headers ++ (d.header.map fun name => ⟨name, value⟩).toList }
    header := none }

def commitArrow (d : Draft) : Draft :=
  { d with
    block := d.block.map fun b => { b with arrows := b.arrows ++ d.arrow.toList }
    arrow := none }

def close (d : Draft) : Draft :=
  { d.flush with chart := { d.flush.chart with closed := true } }

-- Records an error. In the transitions of a state it points at the state as well.
def report (d : Draft) (kind : Chart.ErrorKind) (message : String) (position : Position)
    (span : Span) : Draft :=
  let state :=
    match kind with
    | .transition | .transitionGroup => d.place
    | _ => none
  { d with chart := { d.chart with
    errors := d.chart.errors ++ [{ kind, message, position, span, state }] } }

def applyNamed (d : Draft) (edit : Edit) (name : Name) (span : Span) : Draft :=
  match edit with
  | .beginHeader        => { d with header := some name }
  | .commitHeader       => d.commitHeader name
  | .beginState         => d.beginState name false span
  | .beginAbstractState => d.beginState name true span
  | .addSuper           => d.modifyHead fun h => { h with supers := h.supers ++ [name] }
  | .addEntry           => d.modifyHead fun h => { h with entry := h.entry ++ [name] }
  | .addExit            => d.modifyHead fun h => { h with exit := h.exit ++ [name] }
  | .beginArrow         => { d with arrow := some { event := some name } }
  | .setNext            => d.modifyArrow fun a => { a with next := some name }
  | .addAction          => d.addAction name
  | .commitWithAction   => (d.addAction name).commitArrow
  | .beginNilArrow | .setNilNext | .commitArrow | .close => d

-- An edit that needs a name does nothing without one.
def apply (d : Draft) (edit : Edit) (name : Option Name) (span : Span) : Draft :=
  match edit with
  | .beginNilArrow => { d with arrow := some {} }
  | .setNilNext    => d.modifyArrow fun a => { a with next := none }
  | .commitArrow   => d.commitArrow
  | .close         => d.close
  | edit           => name.elim d fun name => d.applyNamed edit name span

def finish (d : Draft) : Chart := d.commitArrow.flush.chart

end Draft

end Statechart.Reader
