import CodeLayout.Grammar.Parse

/-!
# Recursive rules

The grammar is recursive through the rules below.  The body of a rule is a parse that takes the
other rules as an argument, so that the bodies can be written and studied one by one; the recursion
itself is tied once, in `Grammar.Program`.
-/

namespace CodeLayout.Grammar

/-- The rules through which the grammar recurs. -/
inductive Rule where
  | statement
  | block
  /-- An expression whose operators bind at least as strongly as the given power. -/
  | expression (power : Nat)
  | unary
  | primary
  | arguments
  | useClause
  | intersection
deriving DecidableEq, Repr

/-- The binding powers of operators, the loosest first. -/
inductive Power where
  | or | xor | and | ternary | coalesce | boolOr | boolAnd | bitOr | bitXor | bitAnd
  | equality | comparison | concat | shift | additive | multiplicative | instanceOf | pow
deriving DecidableEq, Repr

/-- Powers as numbers, so that "one tighter" can be said. -/
def Power.level : Power → Nat
  | or => 1
  | xor => 2
  | and => 3
  | ternary => 5
  | coalesce => 6
  | boolOr => 7
  | boolAnd => 8
  | bitOr => 9
  | bitXor => 10
  | bitAnd => 11
  | equality => 12
  | comparison => 13
  | concat => 14
  | shift => 15
  | additive => 16
  | multiplicative => 17
  | instanceOf => 19
  | pow => 21

/-- The power of a token between two operands. -/
def Power.ofInfix? : TokenKind → Option Power
  | .orKw => some .or
  | .xorKw => some .xor
  | .andKw => some .and
  | .question => some .ternary
  | .coalesce => some .coalesce
  | .boolOr => some .boolOr
  | .boolAnd => some .boolAnd
  | .pipe => some .bitOr
  | .caret => some .bitXor
  | .ampersand => some .bitAnd
  | .equal | .notEqual | .identical | .notIdentical | .spaceship => some .equality
  | .less | .lessEqual | .greater | .greaterEqual => some .comparison
  | .dot => some .concat
  | .shiftLeft | .shiftRight => some .shift
  | .plus | .minus => some .additive
  | .star | .slash | .percent => some .multiplicative
  | .instanceOfKw => some .instanceOf
  | .pow => some .pow
  | _ => none

/-- The rules as they are passed to the body of a rule. -/
abbrev Rules := Rule → Parse Unit

/-- An expression whose operators bind at least as strongly as the power. -/
def Rules.atLeast (call : Rules) (power : Power) : Parse Unit := call (.expression power.level)

/-- An expression whose operators bind more strongly than the power. -/
def Rules.above (call : Rules) (power : Power) : Parse Unit := call (.expression (power.level + 1))

/-- Any expression. -/
def Rules.expr (call : Rules) : Parse Unit := call.atLeast .or

/-- A parenthesised expression whose parentheses are part of the construct around it. -/
def Rules.condition (call : Rules) : Parse Unit := do
  expect .parenBegin
  call.expr
  expect .parenEnd

/-- How far the grammar looks ahead to tell constructs apart. -/
def lookaheadLimit : Nat := 64

/-- Does an expression end here? -/
def atExpressionEnd : Parse Bool := do
  if ← atEnd then return true
  if ← checkAny [.semiColon, .parenEnd, .arrayEnd, .comma, .blockEnd] then return true
  closedHere

end CodeLayout.Grammar
