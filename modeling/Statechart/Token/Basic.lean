import Statechart.Name.Basic
import Statechart.Text.Position
import Statechart.Text.Span

namespace Statechart

inductive Token
  | name (text : Name)
  | openBrace
  | closedBrace
  | openParen
  | closedParen
  | openAngle
  | closedAngle
  | dash
  | colon
  deriving DecidableEq

namespace Token

def ofChar? : Char → Option Token
  | '{' => some openBrace
  | '}' => some closedBrace
  | '(' => some openParen
  | ')' => some closedParen
  | '<' => some openAngle
  | '>' => some closedAngle
  | '-' => some dash
  | '*' => some dash
  | ':' => some colon
  | _   => none

def render : Token → String
  | name text   => text
  | openBrace   => "\x7b"
  | closedBrace => "\x7d"
  | openParen   => "("
  | closedParen => ")"
  | openAngle   => "<"
  | closedAngle => ">"
  | dash        => "-"
  | colon       => ":"

end Token

inductive Terminal
  | name
  | openBrace
  | closedBrace
  | openParen
  | closedParen
  | openAngle
  | closedAngle
  | dash
  | colon
  | endOfInput
  deriving DecidableEq

def Terminal.label : Terminal → String
  | name        => "NAME"
  | openBrace   => "OPEN_BRACE"
  | closedBrace => "CLOSED_BRACE"
  | openParen   => "OPEN_PAREN"
  | closedParen => "CLOSED_PAREN"
  | openAngle   => "OPEN_ANGLE"
  | closedAngle => "CLOSED_ANGLE"
  | dash        => "DASH"
  | colon       => "COLON"
  | endOfInput  => "EOF"

namespace Token

def terminal : Token → Terminal
  | name _      => .name
  | openBrace   => .openBrace
  | closedBrace => .closedBrace
  | openParen   => .openParen
  | closedParen => .closedParen
  | openAngle   => .openAngle
  | closedAngle => .closedAngle
  | dash        => .dash
  | colon       => .colon

def name? : Token → Option Name
  | name text => some text
  | _         => none

end Token

-- A piece of the source that is no blank and no comment: a token, or a character that starts none.
inductive Lexeme.Content
  | token (t : Token)
  | stray (c : Char)
  deriving DecidableEq

structure Lexeme where
  content : Lexeme.Content
  position : Position
  span : Span
  deriving DecidableEq

namespace Lexeme.Content

def render : Content → String
  | token t => t.render
  | stray c => "unexpected character '" ++ String.singleton c ++ "'"

end Lexeme.Content

end Statechart
