import TypeFlow.Expr.Basic
import TypeFlow.Decimal.Shortest
import TypeFlow.Text.Quoted

/-! Short texts for the parts of a program. -/

namespace TypeFlow

/-- A name token. -/
def Token.display (t : Token) : String := "<Name " ++ Text.quoted t.text ++ ">"

/-- A parameter with its type, if it has one. -/
def Token.displayParam (t : Token) (type : Option String) : String :=
  "<:" ++ t.text ++ ":" ++ type.getD "None" ++ ">"

def LiteralKind.display : LiteralKind → String
  | .bool => "BoolLiteral"
  | .int => "IntLiteral"
  | .float => "FloatLiteral"
  | .char => "CharLiteral"
  | .string => "StringLiteral"

namespace LiteralValue

/-- Floats are written positionally from a ten-thousandth up to sixteen digits. -/
def floats : Decimal.Style := ⟨-4, 16, 2⟩

def display : LiteralValue → String
  | .none => "None"
  | .bool b => if b then "True" else "False"
  | .int i => toString i
  | .float x => floats.writeBinary x
  | .text s => Text.quoted s

end LiteralValue

def Literal.display (l : Literal) : String :=
  "<" ++ l.kind.display ++ " " ++ l.value.display ++ ">"

def Place.display (p : Place) : String :=
  match p.kind with
  | .localVar => "<ref:" ++ p.name.text ++ ">"
  | .instanceVar => "<@" ++ p.name.text ++ ">"

/-- A method with the number of its parameters. -/
def displayMethod (name : String) (arity : Nat) : String :=
  "<def " ++ name ++ "/" ++ toString arity ++ ">"

/-- A variable with its type, if it has one. -/
def displayVariable (name type : Option String) : String :=
  "<var " ++ name.getD "None" ++ ":" ++ type.getD "None" ++ ">"

/-- The body of a built-in method, which has only the type of the result. -/
def displayResult (type : Option String) : String := "<native:" ++ type.getD "None" ++ ">"

/-- The scope around a whole program. -/
def displayModule (name : String) : String := "<module " ++ name ++ ">"

/-- The text of an expression, for those that have one. -/
def Expr.display? : Expr → Option String
  | .literal l => some l.display
  | .place p => some p.display
  | .const n => some ("<const:" ++ n.text ++ ">")
  | .call _ n as _ => some ("<call " ++ n.text ++ "/" ++ toString as.length ++ ">")
  | .method n ps _ => some (displayMethod n.text ps.length)
  | _ => none

/-! ## Examples -/

example : LiteralValue.display (.float (.ofDecimal false 25 (-1))) = "2.5" := by decide +kernel

example : LiteralValue.display (.float (.ofDecimal true 50 (-1))) = "-5.0" := by decide +kernel

example : LiteralValue.display (.float (.ofDecimal false 1 16)) = "1e+16" := by decide +kernel

example : LiteralValue.display (.float (.ofDecimal false 1 (-5))) = "1e-05" := by decide +kernel

example : LiteralValue.display (.text "it's") = "\"it's\"" := by decide +kernel

end TypeFlow
