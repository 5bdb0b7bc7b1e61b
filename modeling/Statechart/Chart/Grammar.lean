import Statechart.Chart.Basic
import Statechart.Token.Basic

namespace Statechart.Grammar

-- The grammar is given by its derivations: `tokens` is what is written, `chart` is what it means.

inductive Group
  | single (name : Name)
  | braces (names : List Name)
  deriving DecidableEq

namespace Group

def tokens : Group → List Token
  | single name  => [.name name]
  | braces names => .openBrace :: (names.map .name ++ [.closedBrace])

def names : Group → List Name
  | single name  => [name]
  | braces names => names

end Group

def slot : Option Name → Token
  | some name => .name name
  | none      => .dash

structure Arrow where
  event : Option Name
  next : Option Name
  actions : Option Group
  deriving DecidableEq

namespace Arrow

def tokens (a : Arrow) : List Token :=
  slot a.event :: slot a.next :: a.actions.elim [.dash] Group.tokens

def chart (a : Arrow) : Chart.Arrow := ⟨a.event, a.next, a.actions.elim [] Group.names⟩

end Arrow

inductive Side
  | entry
  | exit
  deriving DecidableEq

def Side.token : Side → Token
  | entry => .openAngle
  | exit  => .closedAngle

inductive Modifier
  | super (name : Name)
  | actions (side : Side) (group : Group)
  deriving DecidableEq

namespace Modifier

def tokens : Modifier → List Token
  | super name         => [.colon, .name name]
  | actions side group => side.token :: group.tokens

def supers : Modifier → List Name
  | super name  => [name]
  | actions _ _ => []

def actionsOn (side : Side) : Modifier → List Name
  | super _             => []
  | actions side' group => if side' = side then group.names else []

end Modifier

def subject (name : Name) : Bool → List Token
  | true  => [.openParen, .name name, .closedParen]
  | false => [.name name]

structure Head where
  name : Name
  isAbstract : Bool
  modifiers : List Modifier
  deriving DecidableEq

namespace Head

def tokens (h : Head) : List Token :=
  subject h.name h.isAbstract ++ h.modifiers.flatMap Modifier.tokens

def chart (h : Head) : Chart.Head where
  name := h.name
  isAbstract := h.isAbstract
  supers := h.modifiers.flatMap Modifier.supers
  entry := h.modifiers.flatMap (Modifier.actionsOn .entry)
  exit := h.modifiers.flatMap (Modifier.actionsOn .exit)

end Head

inductive Body
  | single (arrow : Arrow)
  | braces (arrows : List Arrow)
  deriving DecidableEq

namespace Body

def tokens : Body → List Token
  | single arrow  => arrow.tokens
  | braces arrows => .openBrace :: (arrows.flatMap Arrow.tokens ++ [.closedBrace])

def arrows : Body → List Arrow
  | single arrow  => [arrow]
  | braces arrows => arrows

end Body

structure Block where
  head : Head
  body : Body
  deriving DecidableEq

namespace Block

def tokens (b : Block) : List Token := b.head.tokens ++ b.body.tokens

def chart (b : Block) : Chart.Block := ⟨b.head.chart, b.body.arrows.map Arrow.chart⟩

end Block

def headerTokens (h : Chart.Header) : List Token := [.name h.name, .colon, .name h.value]

structure Description where
  headers : List Chart.Header
  blocks : List Block
  deriving DecidableEq

namespace Description

def tokens (d : Description) : List Token :=
  d.headers.flatMap headerTokens ++ .openBrace :: (d.blocks.flatMap Block.tokens ++ [.closedBrace])

def chart (d : Description) : Chart where
  headers := d.headers
  blocks := d.blocks.map Block.chart
  closed := true

end Description

end Statechart.Grammar
