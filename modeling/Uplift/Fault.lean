
namespace Uplift

inductive Complaint where
  | unexpectedToken
  | expected (what : String)
  | unexpectedCharacter
  | unterminatedString
  | unterminatedTemplate
  | unterminatedRegex
  | unterminatedComment
  | unterminatedElement
  | badEscape
  | badNumber
  | legacyNumber
  | badRegexFlags
  | reservedWord
  | strictMode (what : String)
  | badTarget
  | badPattern
  | misplaced (what : String)
  | missing (what : String)
  | duplicate (what : String)
  | depthExceeded
deriving DecidableEq, Repr, Inhabited

def Complaint.message : Complaint → String
  | unexpectedToken => "unexpected token"
  | expected what => "expected " ++ what
  | unexpectedCharacter => "unexpected character"
  | unterminatedString => "unterminated string"
  | unterminatedTemplate => "unterminated template"
  | unterminatedRegex => "unterminated regular expression"
  | unterminatedComment => "unterminated comment"
  | unterminatedElement => "unterminated element"
  | badEscape => "invalid escape sequence"
  | badNumber => "invalid number"
  | legacyNumber => "octal number in a place that forbids it"
  | badRegexFlags => "invalid regular expression flags"
  | reservedWord => "reserved word used as a name"
  | strictMode what => what ++ " is not allowed in strict code"
  | badTarget => "invalid assignment target"
  | badPattern => "invalid pattern"
  | misplaced what => what ++ " is not allowed here"
  | missing what => "missing " ++ what
  | duplicate what => "duplicate " ++ what
  | depthExceeded => "nesting too deep"

structure Fault where
  offset : Nat
  complaint : Complaint
deriving DecidableEq, Repr, Inhabited

end Uplift
