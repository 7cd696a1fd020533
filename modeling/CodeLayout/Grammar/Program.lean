import CodeLayout.Grammar.Statement

/-!
# Programs

The recursion of the grammar is tied here.  `Rule.run` bounds the depth of recursion by a number
that grows with the input: between two nested calls of the same rule at least one symbol is passed,
so the bound of `depthBound` is never reached.  Reaching it would end a rule early, and the outcome
would say so.
-/

namespace CodeLayout.Grammar

/-- The body of a rule, given the rules that it calls. -/
def Rule.body (call : Rules) : Rule → Parse Unit
  | statement => Grammar.statement call
  | block => Grammar.block call
  | expression power => Grammar.expression call power
  | unary => Grammar.unary call
  | primary => Grammar.primary call
  | arguments => Grammar.arguments call
  | useClause => Grammar.useClause call
  | intersection => Grammar.intersection call

/-- A rule with its recursion at most `depth` calls deep. -/
def Rule.run : (depth : Nat) → Rules
  | 0, _ => cutOff
  | depth + 1, rule => rule.body (Rule.run depth)

/-- A depth of recursion that no parse of the input exceeds. -/
def depthBound (input : Input) : Nat := 8 * (input.symbols.size + 2)

/-- All statements up to the end. -/
def statements (depth : Nat) : Parse Unit :=
  repeating do
    if ← atEnd then return false
    statement (Rule.run depth)
    return true

/-- A tree whose leaves are positions, and the problems found on the way. -/
structure Outcome where
  tree : Tree
  problems : Array Problem
  /-- Has the parse been ended early by a bound? -/
  cutShort : Bool
deriving Repr

/-- Parse a row of symbols. -/
def parse (input : Input) : Outcome :=
  let start : State := { builder := Tree.Builder.start {} .program }
  let final := ((statements (depthBound input)).run input start).2
  ⟨final.builder.finish.2.getD (.branch .program []), final.problems, final.cutShort⟩

end CodeLayout.Grammar
