import Lox.Object
import Lox.RuntimeError
import Lox.Token

/-!
# Variables

An environment binds names to objects. A definition binds any name, but an assignment only one that
is bound already. A token stands for its lexeme here; the rest of it matters only to the error
message.
-/

namespace Lox

structure Environment where
  bindings : Bindings String Object

namespace Environment

def empty : Environment := ⟨[]⟩

instance : Inhabited Environment := ⟨empty⟩

/-- The object bound to a name. -/
def find? (env : Environment) (name : String) : Option Object := env.bindings.get? name

/-- Whether a name is bound. -/
def contains (env : Environment) (name : String) : Bool := env.bindings.contains name

/-- Binds a name, whether or not it was bound. -/
def define (env : Environment) (name : String) (object : Object) : Environment :=
  ⟨env.bindings.put name object⟩

/-- The object bound to a token's name. -/
def get (env : Environment) (name : Token) : Except RuntimeError Object :=
  match env.find? name.lexeme with
  | some object => .ok object
  | none => .error (.undefinedVariable name.lexeme name.line)

/-- Binds a token's name anew, which must be bound. -/
def assign (env : Environment) (name : Token) (object : Object) :
    Except RuntimeError Environment :=
  if env.contains name.lexeme then .ok (env.define name.lexeme object)
  else .error (.undefinedVariable name.lexeme name.line)

end Environment

end Lox
