import DynamicLisp.Datum.Operator
import DynamicLisp.Reader.Error

/-! The ways in which a program fails, and their messages. -/
namespace DynamicLisp

/-- How an operator counts its arguments. -/
inductive Arity
  | exact | atLeast | atMost
deriving DecidableEq, Inhabited

def Arity.qualifier : Arity → String
  | exact => ""
  | atLeast => "at least "
  | atMost => "at most "

/-- Why the system does not give access to a file. -/
inductive FileError
  | missing | isDirectory | notDirectory | nameTooLong | denied
deriving DecidableEq, Inhabited

def FileError.reason : FileError → String
  | missing => "No such file or directory"
  | isDirectory => "Is a directory"
  | notDirectory => "Not a directory"
  | nameTooLong => "File name too long"
  | denied => "Permission denied"

/-- Whether the error says no more than that nothing is there. -/
def FileError.isAbsence : FileError → Bool
  | missing | notDirectory => true
  | isDirectory | nameTooLong | denied => false

/-- What the host raises when a file is to be accessed. -/
inductive HostFault
  | system (e : FileError)
  /-- A path that holds the character U+0000 is refused before the system sees it. -/
  | nulInPath
  /-- The bytes of a file are not the encoding of a text. -/
  | notText
deriving DecidableEq, Inhabited

def HostFault.reason : HostFault → String
  | system e => e.reason
  | nulInPath => "embedded null byte"
  | notText => "The file is not encoded in UTF-8."

/-- Failures that a program can cause. The texts in them are printed values or expressions. -/
inductive LispError
  | unbound (name : String)
  | notA (kind : Kind) (shown : String)
  | notOfStruct (shown type : String)
  | notAnIdentifier (shown : String)
  | incomparable (left right : String)
  | notApplicable (operator arguments : String)
  | arity (kind : Arity) (expected found : Nat)
  | reservedWord (word : String)
  | variadicBeforeLast
  | emptyTarget
  | undefinedStruct (type : String)
  | notAField (field type : String)
  | staleInstance (shown type : String)
  | carOfEmpty
  | cdrOfEmpty
  | indexNotInteger
  | indexOutOfRange (index shown : String)
  | notNatural (shown : String)
  | noInput
  | fileNotFound (name : String)
  | unreadable (path : String) (cause : FileError)
  | unwritable (path : String) (cause : FileError)
  | malformed (e : ReadError)
  | noSource (operator : String)
deriving DecidableEq, Inhabited

def LispError.message : LispError → String
  | unbound name => "Variable " ++ name ++ " is unbound."
  | notA kind shown => shown ++ " is not a " ++ kind.noun ++ "."
  | notOfStruct shown type => shown ++ " is not a " ++ type ++ "."
  | notAnIdentifier shown => shown ++ " is not an identifier."
  | incomparable left right => "Cannot compare " ++ left ++ " and " ++ right ++ "."
  | notApplicable operator arguments =>
    "Contract not satisfied: " ++ operator ++ " " ++ arguments ++ "."
  | arity kind expected found =>
    "Expected " ++ kind.qualifier ++ Nat.repr expected ++ " arg(s), found " ++ Nat.repr found ++ "."
  | reservedWord word => "\"" ++ word ++ "\" is a reserved word."
  | variadicBeforeLast => "Only the final parameter of a function may be variadic."
  | emptyTarget => "Cannot redefine empty list."
  | undefinedStruct type => "Struct " ++ type ++ " is not defined."
  | notAField field type => field ++ " is not a field of " ++ type ++ "."
  | staleInstance shown type =>
    shown ++ " does not match the current definition of " ++ type ++ "."
  | carOfEmpty => "Cannot call car on an empty list."
  | cdrOfEmpty => "Cannot call cdr on an empty list."
  | indexNotInteger => "List index must be an integer."
  | indexOutOfRange index shown => "Index " ++ index ++ " is out of range for " ++ shown ++ "."
  | notNatural shown => shown ++ " is not a non-negative integer."
  | noInput => "Could not read input."
  | fileNotFound name => "File " ++ name ++ " not found."
  | unreadable path cause => "Could not read " ++ path ++ ": " ++ cause.reason
  | unwritable path cause => "Could not write " ++ path ++ ": " ++ cause.reason
  | malformed e => e.message
  | noSource operator => "Cannot convert native operator " ++ operator ++ " to an expression."

end DynamicLisp
