import Mathlib.Tactic.Common

/-!
# Tokens of the preprocessor

The tokens of `glcpp.h`: their type with the value that belongs to it, and their place in the
source.
-/

namespace Glcpp

/-- A string. -/
abbrev Text := List Char

/-- The type of a token with its value. -/
inductive Lexeme where
  /-- a token whose type is its only character -/
  | punctuation (c : Char)
  | identifier (str : Text)
  | other (str : Text)
  | integerString (str : Text)
  | integer (ival : Int32)
  | leftShift
  | rightShift
  | lessOrEqual
  | greaterOrEqual
  | equal
  | notEqual
  | and
  | or
  | plusPlus
  | minusMinus
  | paste
  | defined
  | space
  | placeholder
  deriving DecidableEq

/-- Where a token was read: what `__LINE__` and `__FILE__` are replaced by. -/
structure Location where
  firstLine : Int32
  source : UInt32
  deriving DecidableEq

structure Token where
  lexeme : Lexeme
  location : Location
  deriving DecidableEq

end Glcpp
