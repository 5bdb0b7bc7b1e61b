import Statechart.Settings.Basic
import Statechart.Name.Basic

namespace Statechart

namespace Toml

abbrev Path := List Name

inductive Scalar
  | boolean (b : Bool)
  | integer (i : Int)
  | text (s : String)
  deriving DecidableEq

inductive Item
  | scalar (s : Scalar)
  | headed
  | dotted
  | inline
  deriving DecidableEq

-- Everything that has been written down, with its path. A table that is only implied by a longer
-- path is not listed.
abbrev Document := List (Path × Item)

namespace Document

def item? (d : Document) (p : Path) : Option Item := d.lookup p

def isTaken (d : Document) (p : Path) : Bool := d.any fun e => p.isPrefixOf e.1

def between (base key : Path) : List Path :=
  (List.range key.length).filterMap fun n =>
    if n = 0 then none else some (base ++ key.take n)

def openTable? (d : Document) (p : Path) : Option Document :=
  let fits := (between [] p).all fun q =>
    match d.item? q with
    | some (.scalar _) | some .inline => false
    | _ => true
  if fits && (d.item? p).isNone then some (d ++ [(p, .headed)]) else none

-- Writes down a value, or an inline table, under a key of the table `base`. A key is given once,
-- and a dotted key does not reach into a table that has been written down otherwise.
def assign? (d : Document) (base key : Path) (value : Document) : Option Document :=
  let p := base ++ key
  let outer := between base key
  let fits := outer.all fun q =>
    match d.item? q with
    | none | some .dotted => true
    | _ => false
  if fits && !d.isTaken p then
    let dotted := (outer.filter fun q => (d.item? q).isNone).map (·, Item.dotted)
    some (d ++ dotted ++ value.map fun e => (p ++ e.1, e.2))
  else none

end Document

inductive Token
  | word (s : String)
  | quoted (s : String)
  | openBracket
  | closedBracket
  | openBrace
  | closedBrace
  | equals
  | comma
  | dot
  deriving DecidableEq

namespace Token

def ofChar? : Char → Option Token
  | '[' => some openBracket
  | ']' => some closedBracket
  | '{' => some openBrace
  | '}' => some closedBrace
  | '=' => some equals
  | ',' => some comma
  | '.' => some dot
  | _   => none

def isKeyChar (c : Char) : Bool := c.isAlphanum || c = '_' || c = '-'

def isWordChar (c : Char) : Bool := isKeyChar c || c = '+'

def isPrintable (c : Char) : Bool := c = '\t' || (' ' ≤ c && c ≠ '\x7f')

theorem length_dropWhile_lt (f : Char → Bool) (c : Char) (cs : List Char) :
    (cs.dropWhile f).length < (c :: cs).length :=
  Nat.lt_succ_of_le (List.dropWhile_sublist f).length_le

def ofLine? (cs : List Char) : Option (List Token) :=
  match cs with
  | [] => some []
  | c :: rest =>
    if c = ' ' || c = '\t' then ofLine? rest
    else if c = '#' then (if rest.all isPrintable then some [] else none)
    else if isWordChar c then
      (ofLine? (rest.dropWhile isWordChar)).map
        (word (String.ofList (c :: rest.takeWhile isWordChar)) :: ·)
    else if c = '\x22' || c = '\x27' then
      let body := rest.takeWhile (· ≠ c)
      match _h : rest.dropWhile (· ≠ c) with
      | [] => none
      | _ :: behind =>
        if body.all fun b => isPrintable b && b ≠ '\\' then
          (ofLine? behind).map (quoted (String.ofList body) :: ·)
        else none
    else
      match ofChar? c with
      | none => none
      | some t => (ofLine? rest).map (t :: ·)
termination_by cs.length
decreasing_by
  · simp
  · exact length_dropWhile_lt isWordChar c rest
  · have := length_dropWhile_lt (· ≠ c) c rest
    simp_all
    omega
  · simp

def key? : Token → Option Name
  | word s   => if s.toList.all isKeyChar then some s else none
  | quoted s => some s
  | _        => none

end Token

def integer? (s : String) : Option Int :=
  match s.toList with
  | '-' :: ds => (digits? ds).map fun n => -(n : Int)
  | '+' :: ds => (digits? ds).map Int.ofNat
  | ds        => (digits? ds).map Int.ofNat
where
  digits? (ds : List Char) : Option Nat :=
    if !ds.isEmpty && ds.all Char.isDigit && (ds.length = 1 || ds.head? ≠ some '0') then
      some (ds.foldl (fun n d => 10 * n + (d.toNat - '0'.toNat)) 0)
    else none

def scalar? (s : String) : Option Scalar :=
  match s with
  | "true"  => some (.boolean true)
  | "false" => some (.boolean false)
  | _       => (integer? s).map .integer

def path? : List Token → Option (Path × List Token)
  | t :: .dot :: rest => do
    let name ← t.key?
    let (names, rest) ← path? rest
    some (name :: names, rest)
  | t :: rest => t.key?.map fun name => ([name], rest)
  | [] => none

mutual

-- A value at the start of some tokens, given as a document of its own. The number bounds how deep
-- inline tables go.
def value? : Nat → List Token → Option (Document × List Token)
  | _, .word s :: rest => (scalar? s).map fun v => ([([], .scalar v)], rest)
  | _, .quoted s :: rest => some ([([], .scalar (.text s))], rest)
  | _, .openBrace :: .closedBrace :: rest => some ([([], .inline)], rest)
  | n + 1, .openBrace :: rest => pairs? n [([], .inline)] rest
  | _, _ => none

def pairs? : Nat → Document → List Token → Option (Document × List Token)
  | 0, _, _ => none
  | n + 1, d, ts =>
    match path? ts with
    | some (key, .equals :: rest) =>
      match value? n rest with
      | some (v, .comma :: rest) => (d.assign? [] key v).bind (pairs? n · rest)
      | some (v, .closedBrace :: rest) => (d.assign? [] key v).map (·, rest)
      | _ => none
    | _ => none

end

def line? (state : Path × Document) (ts : List Token) : Option (Path × Document) :=
  let (base, d) := state
  match ts with
  | [] => some state
  | .openBracket :: rest =>
    match path? rest with
    | some (p, [.closedBracket]) => (d.openTable? p).map (p, ·)
    | _ => none
  | ts =>
    match path? ts with
    | some (key, .equals :: rest) =>
      match value? rest.length rest with
      | some (v, []) => (d.assign? base key v).map (base, ·)
      | _ => none
    | _ => none

def lines (cs : List Char) : List (List Char) :=
  cs.foldr (fun c ls => if c = '\n' then [] :: ls else (c :: ls.headD []) :: ls.tail) [[]]

def chomp (cs : List Char) : List Char :=
  if cs.getLast? = some '\r' then cs.dropLast else cs

-- Reads a document of plain keys, tables and values; anything else is refused.
def Document.ofText? (text : String) : Option Document := do
  let ls ← (lines text.toList).mapM fun line => Token.ofLine? (chomp line)
  let (_, d) ← ls.foldlM line? ([], [])
  some d

def Document.switch? (d : Document) (p : Path) (default : Bool) : Option Bool :=
  match d.item? p with
  | some (.scalar (.boolean b)) => some b
  | some _ => none
  | none => if d.isTaken p then none else some default

end Toml

namespace Settings

open Toml

def ofDocument? (d : Document) : Option Settings :=
  match d.item? ["compiler"] with
  | some (.scalar _) => none
  | _ => do
    let optimize ← d.switch? ["compiler", "optimize"] true
    let denyWarnings ← d.switch? ["compiler", "deny_warnings"] false
    some { optimize, denyWarnings }

def ofToml? : Format := fun text => (Document.ofText? text).bind ofDocument?

end Settings

end Statechart
