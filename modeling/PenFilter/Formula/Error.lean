import PenFilter.Formula.Builtin
import PenFilter.Formula.Token

/-! # What can be wrong with a formula

Reading a formula can fail with a `ParseError`; fitting one to a list of variables can fail
with a `CompileError`.  Each has one message. -/

namespace PenFilter

/-- How many groups, calls and signs a formula may nest. -/
def maxDepth : Nat := 64

/-- How many operators and calls a formula may have. -/
def maxOperations : Nat := 1024

/-- What the grammar allows at a place. -/
inductive Expectation where
  | operand
  | closing
  | commaOrClosing
  | operatorOrEnd
deriving DecidableEq, Repr

def Expectation.text : Expectation → String
  | operand => "number, variable or '('"
  | closing => "')'"
  | commaOrClosing => "',' or ')'"
  | operatorOrEnd => "operator or end of formula"

inductive ParseError where
  | empty
  | unexpectedChar (found : Char) (offset : Nat)
  | invalidNumber (text : String) (offset : Nat)
  | unexpectedToken (found : Token) (expected : Expectation) (offset : Nat)
  | unexpectedEnd (expected : Expectation)
  | unknownVariable (name : String) (offset : Nat)
  | unknownFunction (name : String) (offset : Nat)
  | wrongArity (function : Builtin) (found : Nat)
  | tooDeep
  | tooLarge
deriving DecidableEq

inductive CompileError where
  | slotOutOfRange (name : String) (slot : Nat) (size : Nat)
  | schemaMismatch (name : String) (schemaName : String) (slot : Nat)
deriving DecidableEq, Repr

inductive FormulaError where
  | parse (error : ParseError)
  | compile (error : CompileError)
deriving DecidableEq

def ParseError.message : ParseError → String
  | empty => "Formula is empty"
  | unexpectedChar c offset =>
    "Unexpected character '" ++ c.toString ++ "' at offset " ++ Decimal.text offset
  | invalidNumber s offset => "Invalid number '" ++ s ++ "' at offset " ++ Decimal.text offset
  | unexpectedToken t e offset =>
    "Unexpected " ++ t.text ++ " at offset " ++ Decimal.text offset ++ ", expected " ++ e.text
  | unexpectedEnd e => "Unexpected end of formula, expected " ++ e.text
  | unknownVariable s offset => "Unknown variable '" ++ s ++ "' at offset " ++ Decimal.text offset
  | unknownFunction s offset => "Unknown function '" ++ s ++ "' at offset " ++ Decimal.text offset
  | wrongArity f n =>
    "Function '" ++ f.name ++ "' takes " ++ Decimal.text f.arity ++ " argument(s), got " ++
      Decimal.text n
  | tooDeep => "Formula nests deeper than " ++ Decimal.text maxDepth ++ " levels"
  | tooLarge => "Formula has more than " ++ Decimal.text maxOperations ++ " operations"

def CompileError.message : CompileError → String
  | slotOutOfRange s slot size =>
    "Variable '" ++ s ++ "' uses slot " ++ Decimal.text slot ++ " but the schema has " ++
      Decimal.text size ++ " variables"
  | schemaMismatch s s' slot =>
    "Slot " ++ Decimal.text slot ++ " is '" ++ s' ++ "' in the schema, but the expression expects '"
      ++ s ++ "'"

def FormulaError.message : FormulaError → String
  | parse e => "Parse error: " ++ e.message
  | compile e => "Compile error: " ++ e.message

end PenFilter
