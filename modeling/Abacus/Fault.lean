import Abacus.Outcome

/-!
# Faults

A fault is what an operation raises to the embedding program instead of answering. Each is given
by its cause. Where a message shows a datum, the cause holds the text that shows it: a number with
too many digits cannot be shown, and the fault is then `numeralTooLong` instead.
-/
namespace Abacus

inductive BindingError
  | invalidName (name : String)
  | notInteger (name type : String)
  | notCallable (what : String)
  | hiddenParameters (what : String)
  | variadic (what : String)
  | keywordRequired (what parameter : String)
  | arityConflict (given declared : String)
  | arityOutOfRange (arity limit : String)
  | unknownStandard (names : List String)
  | tooWide (limit : String) (names : List String)
  deriving DecidableEq

def BindingError.message : BindingError → String
  | invalidName name => "Invalid identifier: " ++ name
  | notInteger name type => "Variable " ++ name ++ " must be an int, got " ++ type
  | notCallable what => what ++ " is not callable"
  | hiddenParameters what => "Cannot infer arity of " ++ what ++ "; pass it explicitly"
  | variadic what => what ++ " takes *args; pass its arity explicitly"
  | keywordRequired what parameter =>
    what ++ " requires keyword-only argument " ++ parameter
  | arityConflict given declared =>
    "Arity " ++ given ++ " conflicts with declared arity " ++ declared
  | arityOutOfRange arity limit => "Arity " ++ arity ++ " outside supported range 0.." ++ limit
  | unknownStandard names => "Unknown standard function(s): " ++ ", ".intercalate names
  | tooWide limit names =>
    "Arity exceeds max_arg_num=" ++ limit ++ ": " ++ ", ".intercalate names

inductive ConfigurationError
  | notTable (key : String)
  | invalidLimit (what : String)
  | variableName (e : BindingError)
  | variableValue (name what : String)
  deriving DecidableEq

def ConfigurationError.message : ConfigurationError → String
  | notTable key => "[" ++ key ++ "] must be a table"
  | invalidLimit what => "max_arg_num must be a non-negative integer, got " ++ what
  | variableName e => "[variables]: " ++ e.message
  | variableValue name what => "Variable " ++ name ++ " must be an integer, got " ++ what

inductive TypeError
  | expression (type : String)
  | result (what type : String)
  | notCallable (type : String)
  /-- A routine called with something that is no list of arguments. -/
  | notList (type : String)
  /-- A routine called without its list of arguments. -/
  | missingList
  /-- A routine called with more than its list of arguments and a position. -/
  | surplus (count : Nat)
  deriving DecidableEq

def TypeError.message : TypeError → String
  | expression type => "Expression must be a str, got " ++ type
  | result what type => what ++ " returned " ++ type ++ ", expected int"
  | notCallable type => "'" ++ type ++ "' object is not callable"
  | notList type => "object of type '" ++ type ++ "' has no len()"
  | missingList => "Function.__call__() missing 1 required positional argument: 'args'"
  | surplus count =>
    "Function.__call__() takes from 2 to 3 positional arguments but " ++ toString count ++
      " were given"

inductive DocumentError
  | missing
  | notText
  | malformed
  deriving DecidableEq

inductive Fault
  | evaluation (e : EvaluationError)
  | binding (e : BindingError)
  | configuration (e : ConfigurationError)
  | document (e : DocumentError)
  | type (e : TypeError)
  | powerTooLarge (exponent : String) (limit : Nat)
  | numeralTooLong
  | nestedTooDeep
  | foreign (label message : String)
  deriving DecidableEq

def Fault.message? : Fault → Option String
  | evaluation e => e.message
  | binding e => e.message
  | configuration e => e.message
  | document _ => none
  | type e => e.message
  | powerTooLarge exponent limit => "pow exponent " ++ exponent ++ " exceeds " ++ toString limit
  | numeralTooLong => none
  | nestedTooDeep => none
  | foreign _ message => message

/-- An integer in decimal, as far as numerals may reach. -/
def decimal (n : Int) : Except Fault String :=
  if n.natAbs < Nat.pow 10 digitLimit then .ok (toString n) else .error .numeralTooLong

end Abacus
