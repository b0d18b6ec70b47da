/-!
# Names in expressions

A name is a letter or underscore followed by letters, digits and underscores,
all of them ASCII.  A few names have a fixed meaning: the time, the derivative
and the elementary functions.
-/

namespace ImplicitDynamics

/-- The functions of one argument that an expression may call. -/
inductive Elementary where
  | sin
  | cos
  | exp
  | sqrt
  | tan
  deriving Repr, DecidableEq

namespace Elementary

def name : Elementary → String
  | sin => "sin"
  | cos => "cos"
  | exp => "exp"
  | sqrt => "sqrt"
  | tan => "tan"

def all : List Elementary := [sin, cos, exp, sqrt, tan]

def ofName? (text : String) : Option Elementary :=
  all.find? fun f => f.name = text

end Elementary

namespace Name

def time : String := "t"

def derivative : String := "der"

def isStart (c : Char) : Bool :=
  c.isAlpha || c = '_'

def isPart (c : Char) : Bool :=
  c.isAlphanum || c = '_'

def isIdentifier (text : String) : Bool :=
  match text.toList with
  | [] => false
  | c :: rest => isStart c && rest.all isPart

/-- Words that are read as functions: the elementary ones and the
derivative. -/
def isFunction (text : String) : Bool :=
  text = derivative || (Elementary.ofName? text).isSome

/-- Names that an expression gives a meaning of its own, so that nothing else
can bear them. -/
def isReserved (text : String) : Bool :=
  text = time || isFunction text

end Name

end ImplicitDynamics
