import Lox.Span
import Lox.Text.Utf8

/-! # Diagnostics

Everything that can be wrong with a program is a cause: an inductive type for
each of the four phases, with its wording in one function. A diagnostic is a
cause at a span, a failure of the output, or a text that is not UTF-8. -/

namespace Lox

/-- The greatest number of parameters of a function and of arguments of a call. -/
def maxArity : Nat := 255

/-- The phases in which a program can be found wrong. -/
inductive Phase where
  | lexing
  | parsing
  | resolving
  | running
deriving Repr, DecidableEq

/-- What can be wrong with the characters of a program. -/
inductive LexicalError where
  | unexpectedCharacter (c : Char)
  | unterminatedString
  | unterminatedComment
deriving Repr, DecidableEq

/-- What can be wrong with the order of its tokens. -/
inductive GrammarError where
  | expected (what : String)
  | tooManyParameters
  | tooManyArguments
  | nestingTooDeep
  | invalidAssignmentTarget
  | breakOutsideLoop
  | trailingTokens
deriving Repr, DecidableEq

/-- What can be wrong with the use of its names. -/
inductive ScopeError where
  | alreadyDeclared
  | readInOwnInitializer
  | returnOutsideFunction
  | returnValueFromInitializer
  | inheritsFromItself
  | thisOutsideClass
  | superOutsideClass
  | superWithoutSuperclass
deriving Repr, DecidableEq

/-- What can go wrong while it runs. -/
inductive RuntimeError where
  | undefinedVariable (name : String)
  | undefinedProperty (name : String)
  | operandNotNumber
  | operandsNotNumbers
  | operandsNotAddable
  | notCallable
  | wrongArgumentCount (expected got : Nat)
  | stackOverflow
  | propertyOfNonInstance
  | fieldOfNonInstance
  | superclassNotClass
  | superUnresolved
  | superNotClass
  | thisNotInstance
  | initializerUnbound
  /-- A host function refused its arguments, in its own words. -/
  | host (words : String)
deriving Repr, DecidableEq

namespace LexicalError

def message : LexicalError → String
  | unexpectedCharacter c => "Unexpected character '" ++ String.singleton c ++ "'."
  | unterminatedString => "Unterminated string."
  | unterminatedComment => "Unterminated comment."

end LexicalError

namespace GrammarError

def message : GrammarError → String
  | expected what => "Expected " ++ what ++ "."
  | tooManyParameters => "Can't have more than " ++ toString maxArity ++ " parameters."
  | tooManyArguments => "Can't have more than " ++ toString maxArity ++ " arguments."
  | nestingTooDeep => "Nesting is too deep."
  | invalidAssignmentTarget => "Invalid assignment target."
  | breakOutsideLoop => "Can't use 'break' outside of a loop."
  | trailingTokens => "Unknown tokens at the end of the input."

end GrammarError

namespace ScopeError

def message : ScopeError → String
  | alreadyDeclared => "Already a variable with this name in this scope."
  | readInOwnInitializer => "Can't read local variable in its own initializer."
  | returnOutsideFunction => "Can't return from top-level code."
  | returnValueFromInitializer => "Can't return a value from an initializer."
  | inheritsFromItself => "A class can't inherit from itself."
  | thisOutsideClass => "Can't use 'this' outside of a class."
  | superOutsideClass => "Can't use 'super' outside of a class."
  | superWithoutSuperclass => "Can't use 'super' in a class with no superclass."

end ScopeError

namespace RuntimeError

def message : RuntimeError → String
  | undefinedVariable name => "Undefined variable '" ++ name ++ "'."
  | undefinedProperty name => "Undefined property '" ++ name ++ "'."
  | operandNotNumber => "Operand must be a number."
  | operandsNotNumbers => "Operands must be numbers."
  | operandsNotAddable => "Operands must be two numbers or two strings."
  | notCallable => "Can only call functions and classes."
  | wrongArgumentCount expected got =>
    "Expected " ++ toString expected ++ " arguments but got " ++ toString got ++ "."
  | stackOverflow => "Stack overflow."
  | propertyOfNonInstance => "Only instances have properties."
  | fieldOfNonInstance => "Only instances have fields."
  | superclassNotClass => "Superclass must be a class."
  | superUnresolved => "Can't use 'super' here."
  | superNotClass => "'super' is not a class."
  | thisNotInstance => "'this' is not an instance."
  | initializerUnbound => "Initializer is not bound to an instance."
  | host words => words

end RuntimeError

/-- What is wrong at a place of a program. -/
inductive Cause where
  | lexical (error : LexicalError)
  | grammar (error : GrammarError)
  | scoping (error : ScopeError)
  | execution (error : RuntimeError)
  /-- A fault that an embedding program found in some phase, in its own words. -/
  | told (phase : Phase) (words : String)
deriving Repr, DecidableEq

namespace Cause

/-- The phase that finds the fault. -/
def phase : Cause → Phase
  | lexical _ => .lexing
  | grammar _ => .parsing
  | scoping _ => .resolving
  | execution _ => .running
  | told phase _ => phase

def message : Cause → String
  | lexical error => error.message
  | grammar error => error.message
  | scoping error => error.message
  | execution error => error.message
  | told _ words => words

end Cause

/-- One thing to tell about a program. -/
inductive Diagnostic where
  /-- A fault of the program, at a place of its text. -/
  | located (cause : Cause) (span : Span)
  /-- The output could not be written. -/
  | output (words : String)
  /-- A text is not UTF-8. -/
  | encoding (fault : Text.Utf8.Fault)
deriving Repr, DecidableEq

namespace Diagnostic

/-- The place that a diagnostic points at, if it has one. -/
def span? : Diagnostic → Option Span
  | located _ span => some span
  | output _ | encoding _ => none

/-- Where a diagnostic stands among others: one without a place stands first. -/
def start (d : Diagnostic) : Nat := (d.span?.map Span.start).getD 0

/-- A diagnostic is static when it is found before the program runs. -/
def isStatic : Diagnostic → Bool
  | located cause _ => decide (cause.phase ≠ .running)
  | output _ => false
  | encoding _ => true

/-- The bare message. -/
def message : Diagnostic → String
  | located cause _ => cause.message
  | output words => words
  | encoding fault => fault.message

/-- The message as one line, opened by what kind of error it tells of. -/
def headline : Diagnostic → String
  | located cause _ =>
    if cause.phase = .running then "Runtime error: " ++ cause.message
    else "Error: " ++ cause.message
  | d => d.message

end Diagnostic
end Lox
