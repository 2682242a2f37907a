import AmdUnwrap.Text.Basic

namespace AmdUnwrap

inductive SyntaxError.Cause where
  | unexpectedToken
  | unterminatedString
  | unterminatedComment
  | unterminatedRegex
  | regexFlag
  | invalidCharacter
  | invalidEscape
  | invalidNumber
  | missingSemicolon
  | missingInitializer
  | missingHandler
  | newlineAfterThrow
  | returnOutsideFunction
  | reservedWord
  | assignmentTarget
  | declarationPosition
  | mixedNullish
  | unaryPower
  | optionalTemplate
  | accessorParameters
  | classMember
  | strayInitializer
  | duplicateExport
  | overlong
  deriving DecidableEq, Repr

structure SyntaxError where
  cause : SyntaxError.Cause
  /-- What is wrong with the text as a whole has no place in it. -/
  offset : Option Nat
  deriving DecidableEq, Repr

def SyntaxError.Cause.message : SyntaxError.Cause → String
  | .unexpectedToken => "Unexpected token"
  | .unterminatedString => "Unterminated string"
  | .unterminatedComment => "Unterminated multiline comment"
  | .unterminatedRegex => "Unterminated regular expression"
  | .regexFlag => "Invalid regular expression flag"
  | .invalidCharacter => "Invalid character"
  | .invalidEscape => "Invalid escape sequence"
  | .invalidNumber => "Invalid number"
  | .missingSemicolon => "Expected a semicolon"
  | .missingInitializer => "Missing initializer in declaration"
  | .missingHandler => "Missing catch or finally clause"
  | .newlineAfterThrow => "Illegal newline after throw"
  | .returnOutsideFunction => "Return outside a function body"
  | .reservedWord => "Reserved word used as a name"
  | .assignmentTarget => "Cannot assign to this expression"
  | .declarationPosition => "Declaration in a position for a single statement"
  | .mixedNullish => "Logical operators mixed with ?? need parentheses"
  | .unaryPower => "Unary operand of ** needs parentheses"
  | .optionalTemplate => "Template after an optional chain"
  | .accessorParameters => "Wrong number of accessor parameters"
  | .classMember => "Invalid class member"
  | .strayInitializer => "Initializer outside a pattern"
  | .duplicateExport => "Duplicate export"
  | .overlong => "Source length exceeds 4 GiB limit"

end AmdUnwrap
