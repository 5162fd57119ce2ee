import ScriptTree.Position
import ScriptTree.Text.Quoted

/-!
# Syntax errors

What can be wrong with a script, where, and how it is worded: each cause has a name, a message and,
for most, a piece of advice.
-/

namespace ScriptTree

inductive Cause where
  | unrecognisedCharacter (character : String)
  | unterminatedString
  | badEscape (escape : String)
  | badNumber (numeral : String)
  | noOperand (text : String)
  | noOperator (text : String)
  | expected (id found : String)
  | unknownOperator (operator : String)
  | misplacedToken (kind : String)
  | alreadyDefined (name : String)
  | alreadyReserved (name : String)
  | notAssignable
  | notAStatement
  | unreachable
  | notCallable
  | noPropertyName (found : String)
  | noVariableName (found : String)
  | noParameterName (found : String)
  | badKey (found : String)
  /-- The symbol table gives the end of the text rules that never come to an end. -/
  | endless
deriving DecidableEq

namespace Cause

def name : Cause → String
  | .unrecognisedCharacter _ => "UnrecognisedToken"
  | .unterminatedString => "UnterminatedString"
  | .badEscape _ => "BadEscape"
  | .badNumber _ => "BadNumber"
  | .noOperand _ => "UndefinedPrefix"
  | .noOperator _ => "MissingOperator"
  | .expected _ _ => "ExpectedToken"
  | .unknownOperator _ => "UnknownOperator"
  | .misplacedToken _ => "UnexpectedTokenKind"
  | .alreadyDefined _ => "AlreadyDefined"
  | .alreadyReserved _ => "AlreadyReserved"
  | .notAssignable => "BadLvalue"
  | .notAStatement => "BadExpressionStatement"
  | .unreachable => "UnreachableStatement"
  | .notCallable => "ExpectedVariableName"
  | .noPropertyName _ => "ExpectedPropertyName"
  | .noVariableName _ => "ExpectedNewVariableName"
  | .noParameterName _ => "ExpectedParameterName"
  | .badKey _ => "BadKey"
  | .endless => "EndlessInput"

def message : Cause → String
  | .unrecognisedCharacter character => "unrecognised character: " ++ quoted character
  | .unterminatedString => "unterminated string"
  | .badEscape escape => "bad escape sequence: " ++ quoted escape
  | .badNumber numeral => "bad number: " ++ quoted numeral
  | .noOperand text => "undefined: " ++ quoted text
  | .noOperator text => "missing operator: " ++ quoted text
  | .expected id found => "expected " ++ quoted id ++ ", found " ++ quoted found
  | .unknownOperator operator => "unknown operator: " ++ quoted operator
  | .misplacedToken kind => "unexpected token: " ++ quoted kind
  | .alreadyDefined name => "already defined: " ++ quoted name
  | .alreadyReserved name => "already reserved: " ++ quoted name
  | .notAssignable => "bad lvalue"
  | .notAStatement => "bad expression statement"
  | .unreachable => "unreachable statement"
  | .notCallable => "expected a variable name"
  | .noPropertyName found => "expected a property name, found " ++ quoted found
  | .noVariableName found => "expected a new variable name, found " ++ quoted found
  | .noParameterName found => "expected a parameter name, found " ++ quoted found
  | .badKey found => "bad key: " ++ quoted found
  | .endless => "endless input"

/-- What the writer of the script may do about it; here texts of the script stand as they are. -/
def advice? : Cause → Option String
  | .unrecognisedCharacter _ => none
  | .unterminatedString => some "Strings must close on the line they open"
  | .badEscape escape => some ("Unknown escape `\\" ++ escape ++ "` in string literal")
  | .badNumber numeral =>
    some ("Invalid number: `" ++ numeral ++ "`, names cannot start with a digit")
  | .noOperand text => some ("`" ++ text ++ "` cannot start an expression")
  | .noOperator text => some ("`" ++ text ++ "` cannot continue an expression")
  | .expected id found =>
    some ("Expected `" ++ id ++ "` but found `" ++ found ++
      "`, did you miss a bracket or semicolon?")
  | .unknownOperator operator => some ("`" ++ operator ++ "` is not an operator of this language")
  | .misplacedToken _ => none
  | .alreadyDefined name => some ("`" ++ name ++ "` is already defined in this scope")
  | .alreadyReserved name =>
    some ("`" ++ name ++ "` is used as a keyword here and cannot be a variable name")
  | .notAssignable => some "Only names, properties and indexed elements can be assigned to"
  | .notAStatement => some "A statement must be an assignment or a call"
  | .unreachable => some "`break` and `return` must be the last statement of their block"
  | .notCallable =>
    some "Only names, functions, properties, elements and call results can be called"
  | .noPropertyName _ => some "`.` must be followed by a property name"
  | .noVariableName _ => some "`var` must be followed by a name"
  | .noParameterName _ => some "Parameters must be plain names"
  | .badKey _ => some "Object keys must be names, strings or numbers"
  | .endless => none

end Cause

structure SyntaxError where
  cause : Cause
  position : Position
deriving DecidableEq

def SyntaxError.message (error : SyntaxError) : String :=
  error.cause.message ++ " at " ++ error.position.text

end ScriptTree
