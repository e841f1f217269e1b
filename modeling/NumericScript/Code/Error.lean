import NumericScript.Code.Listing
import NumericScript.Diagnostic

/-! # Errors of code

Why a program has no code, or code cannot run. -/

namespace NumericScript

/-- The ways in which a program has no code, or code cannot run. -/
inductive CodeError where
  | duplicateLabel (l : Label)
  | undefinedLabel (l : Label)
  | unresolved (name : String) (line : Nat)
  | loopControlOutsideLoop (keyword : Keyword) (line : Nat)
  | voidValue (name : String) (line : Nat)
  | unknownFunction (name : String) (line : Nat)
deriving DecidableEq, Repr

namespace CodeError

/-- The wording of an error. -/
def message : CodeError → String
  | duplicateLabel l => "Label '" ++ l.text ++ "' is defined more than once"
  | undefinedLabel l => "Jump to undefined label '" ++ l.text ++ "'"
  | unresolved name line =>
    "Name '" ++ name ++ "' on line " ++ toString line ++ " was never resolved"
  | loopControlOutsideLoop keyword line =>
    "'" ++ keyword.word ++ "' on line " ++ toString line ++ " is outside of a loop"
  | voidValue name line =>
    "Call to '" ++ name ++ "' on line " ++ toString line ++ " produces no value"
  | unknownFunction name line =>
    "Unknown function '" ++ name ++ "' on line " ++ toString line

/-- The line an error is about, or 0 where it is about the whole program. -/
def line : CodeError → Nat
  | duplicateLabel _ | undefinedLabel _ => 0
  | unresolved _ line | loopControlOutsideLoop _ line | voidValue _ line
  | unknownFunction _ line => line

end CodeError

/-- The diagnostic of an error that stops the given stage. -/
def CodeError.diagnostic (e : CodeError) (phase : Phase) : Diagnostic :=
  .error phase e.message e.line 1

end NumericScript
