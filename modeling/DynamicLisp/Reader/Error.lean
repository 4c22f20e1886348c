import DynamicLisp.Reader.Token
import DynamicLisp.Text.Quoted

/-! The ways in which text is malformed. -/
namespace DynamicLisp

inductive ReadError
  | unexpectedCharacter (c : Char)
  | unterminatedString
  | endAfterQuote
  | endInList
  | mismatched (found expected : Bracket)
  | unexpectedCloser (found : Bracket)
  /-- A backslash in a string before a character without meaning, or before the end. -/
  | unknownEscape (c : Option Char)
  | invalidIdentifier (text : String)
  | emptyIdentifier
  | unclosedInterpolation
  | emptyInterpolation
  | noExpression
deriving DecidableEq, Inhabited

def ReadError.message : ReadError → String
  | unexpectedCharacter c => "Unexpected character " ++ Text.inQuotes c.toString ++ "."
  | unterminatedString => "Unexpected EOF before end of string."
  | endAfterQuote => "Unexpected EOF after quote."
  | endInList => "Unexpected EOF before end of list."
  | mismatched found expected =>
    "Mismatched '" ++ found.closer.toString ++ "', expected '" ++ expected.closer.toString ++ "'."
  | unexpectedCloser found => "Unexpected '" ++ found.closer.toString ++ "'."
  | unknownEscape c => "Unknown escape sequence \\" ++ c.elim "" Char.toString ++ "."
  | invalidIdentifier text => "Invalid identifier " ++ text ++ "."
  | emptyIdentifier => "Empty identifier."
  | unclosedInterpolation => "Unclosed expression while interpolating string."
  | emptyInterpolation => "Empty expression while interpolating string."
  | noExpression => "No expression to parse."

end DynamicLisp
