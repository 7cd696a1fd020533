/-!
# Kinds of tokens

A token is a piece of markup, a tag, blank text, a comment, a name or literal, a reserved word, or
a sign.  `TokenKind.reserved` lists the reserved words with their kinds; `TokenKind.describe` is the
wording by which syntax problems speak of a kind.
-/

namespace CodeLayout

/-- The kind of a token. -/
inductive TokenKind where
  | inlineHtml | openTag | openTagWithEcho | closeTag
  | whitespace | lineComment | blockComment | docComment
  | varName | name | int | float | str | cast
  | abstractKw | andKw | arrayKw | asKw | breakKw | caseKw | catchKw | classKw | cloneKw
  | constKw | continueKw | declareKw | defaultKw | doKw | echoKw | elseKw | elseIfKw | enumKw
  | extendsKw | finalKw | finallyKw | fnKw | forKw | foreachKw | functionKw | globalKw | ifKw
  | implementsKw | includeKw | instanceOfKw | insteadOfKw | interfaceKw | listKw | matchKw
  | namespaceKw | newKw | orKw | printKw | privateKw | protectedKw | publicKw | readonlyKw
  | returnKw | staticKw | switchKw | throwKw | traitKw | tryKw | useKw | varKw | whileKw
  | xorKw | yieldKw
  | parenBegin | parenEnd | arrayBegin | arrayEnd | blockBegin | blockEnd | attributeStart
  | comma | semiColon | colon | doubleColon | arrow | nullsafeArrow | doubleArrow | ellipsis
  | backslash | question | atSign | dollar
  | assign | compoundAssign | plus | minus | star | slash | percent | pow | dot | ampersand
  | pipe | caret | tilde | shiftLeft | shiftRight | boolAnd | boolOr | not | equal | notEqual
  | identical | notIdentical | less | lessEqual | greater | greaterEqual | spaceship | coalesce
  | increment | decrement
  | eof
deriving DecidableEq, Repr, Inhabited

namespace TokenKind

/-- The reserved words in lower case, each with its kind; several words may share one. -/
def reserved : List (String × TokenKind) := [
  ("abstract", .abstractKw), ("and", .andKw), ("array", .arrayKw), ("as", .asKw),
  ("break", .breakKw), ("case", .caseKw), ("catch", .catchKw), ("class", .classKw),
  ("clone", .cloneKw), ("const", .constKw), ("continue", .continueKw), ("declare", .declareKw),
  ("default", .defaultKw), ("do", .doKw), ("echo", .echoKw), ("else", .elseKw),
  ("elseif", .elseIfKw), ("enum", .enumKw), ("extends", .extendsKw), ("final", .finalKw),
  ("finally", .finallyKw), ("fn", .fnKw), ("for", .forKw), ("foreach", .foreachKw),
  ("function", .functionKw), ("global", .globalKw), ("if", .ifKw),
  ("implements", .implementsKw), ("include", .includeKw), ("include_once", .includeKw),
  ("require", .includeKw), ("require_once", .includeKw), ("instanceof", .instanceOfKw),
  ("insteadof", .insteadOfKw), ("interface", .interfaceKw), ("list", .listKw),
  ("match", .matchKw), ("namespace", .namespaceKw), ("new", .newKw), ("or", .orKw),
  ("print", .printKw), ("private", .privateKw), ("protected", .protectedKw),
  ("public", .publicKw), ("readonly", .readonlyKw), ("return", .returnKw),
  ("static", .staticKw), ("switch", .switchKw), ("throw", .throwKw), ("trait", .traitKw),
  ("try", .tryKw), ("use", .useKw), ("var", .varKw), ("while", .whileKw), ("xor", .xorKw),
  ("yield", .yieldKw)]

/-- The kind of a reserved word, whatever the case of its ASCII letters. -/
def ofWord? (word : String) : Option TokenKind :=
  reserved.lookup (word.map Char.toLower)

/-- The first word that has the kind. -/
def word? (kind : TokenKind) : Option String :=
  (reserved.find? (·.2 == kind)).map (·.1)

/-- Reserved words may stand where a member name is expected. -/
def isKeyword (kind : TokenKind) : Bool :=
  kind.word?.isSome

/-- Comments of any form. -/
def isComment : TokenKind → Bool
  | lineComment | blockComment | docComment => true
  | _ => false

/-- Trivia is what the grammar does not see: blanks, comments, markup and the tags around it.  The
tag that opens an echo is not trivia, since it starts a statement. -/
def isTrivia : TokenKind → Bool
  | whitespace | lineComment | blockComment | docComment | inlineHtml | openTag | closeTag => true
  | _ => false

/-- Words that qualify a declaration. -/
def isModifier : TokenKind → Bool
  | abstractKw | finalKw | privateKw | protectedKw | publicKw | readonlyKw | staticKw
  | varKw => true
  | _ => false

/-- The name of the kind. -/
def label : TokenKind → String
  | inlineHtml => "InlineHtml"
  | openTag => "OpenTag"
  | openTagWithEcho => "OpenTagWithEcho"
  | closeTag => "CloseTag"
  | whitespace => "Whitespace"
  | lineComment => "LineComment"
  | blockComment => "BlockComment"
  | docComment => "DocComment"
  | varName => "Variable"
  | name => "Name"
  | int => "Int"
  | float => "Float"
  | str => "Str"
  | cast => "Cast"
  | abstractKw => "Abstract"
  | andKw => "And"
  | arrayKw => "Array"
  | asKw => "As"
  | breakKw => "Break"
  | caseKw => "Case"
  | catchKw => "Catch"
  | classKw => "Class"
  | cloneKw => "Clone"
  | constKw => "Const"
  | continueKw => "Continue"
  | declareKw => "Declare"
  | defaultKw => "Default"
  | doKw => "Do"
  | echoKw => "Echo"
  | elseKw => "Else"
  | elseIfKw => "ElseIf"
  | enumKw => "Enum"
  | extendsKw => "Extends"
  | finalKw => "Final"
  | finallyKw => "Finally"
  | fnKw => "Fn"
  | forKw => "For"
  | foreachKw => "Foreach"
  | functionKw => "Function"
  | globalKw => "Global"
  | ifKw => "If"
  | implementsKw => "Implements"
  | includeKw => "Include"
  | instanceOfKw => "InstanceOf"
  | insteadOfKw => "InsteadOf"
  | interfaceKw => "Interface"
  | listKw => "List"
  | matchKw => "Match"
  | namespaceKw => "Namespace"
  | newKw => "New"
  | orKw => "Or"
  | printKw => "Print"
  | privateKw => "Private"
  | protectedKw => "Protected"
  | publicKw => "Public"
  | readonlyKw => "Readonly"
  | returnKw => "Return"
  | staticKw => "Static"
  | switchKw => "Switch"
  | throwKw => "Throw"
  | traitKw => "Trait"
  | tryKw => "Try"
  | useKw => "Use"
  | varKw => "Var"
  | whileKw => "While"
  | xorKw => "Xor"
  | yieldKw => "Yield"
  | parenBegin => "ParenBegin"
  | parenEnd => "ParenEnd"
  | arrayBegin => "ArrayBegin"
  | arrayEnd => "ArrayEnd"
  | blockBegin => "BlockBegin"
  | blockEnd => "BlockEnd"
  | attributeStart => "AttributeStart"
  | comma => "Comma"
  | semiColon => "SemiColon"
  | colon => "Colon"
  | doubleColon => "DoubleColon"
  | arrow => "Arrow"
  | nullsafeArrow => "NullsafeArrow"
  | doubleArrow => "DoubleArrow"
  | ellipsis => "Ellipsis"
  | backslash => "Backslash"
  | question => "Question"
  | atSign => "At"
  | dollar => "Dollar"
  | assign => "Assign"
  | compoundAssign => "CompoundAssign"
  | plus => "Plus"
  | minus => "Minus"
  | star => "Star"
  | slash => "Slash"
  | percent => "Percent"
  | pow => "Pow"
  | dot => "Dot"
  | ampersand => "Ampersand"
  | pipe => "Pipe"
  | caret => "Caret"
  | tilde => "Tilde"
  | shiftLeft => "ShiftLeft"
  | shiftRight => "ShiftRight"
  | boolAnd => "BoolAnd"
  | boolOr => "BoolOr"
  | not => "Not"
  | equal => "Equal"
  | notEqual => "NotEqual"
  | identical => "Identical"
  | notIdentical => "NotIdentical"
  | less => "Less"
  | lessEqual => "LessEqual"
  | greater => "Greater"
  | greaterEqual => "GreaterEqual"
  | spaceship => "Spaceship"
  | coalesce => "Coalesce"
  | increment => "Increment"
  | decrement => "Decrement"
  | eof => "Eof"

/-- How a syntax problem speaks of a token of the kind. -/
def describe (kind : TokenKind) : String :=
  match kind with
  | inlineHtml => "inline html"
  | openTag => "<?php"
  | openTagWithEcho => "<?="
  | closeTag => "?>"
  | whitespace => "whitespace"
  | lineComment | blockComment | docComment => "comment"
  | varName => "variable"
  | name => "identifier"
  | int => "integer"
  | float => "float"
  | str => "string"
  | cast => "cast"
  | parenBegin => "("
  | parenEnd => ")"
  | arrayBegin => "["
  | arrayEnd => "]"
  | blockBegin => "\x7b"
  | blockEnd => "\x7d"
  | attributeStart => "#["
  | comma => ","
  | semiColon => ";"
  | colon => ":"
  | doubleColon => "::"
  | arrow => "->"
  | nullsafeArrow => "?->"
  | doubleArrow => "=>"
  | ellipsis => "..."
  | backslash => "\\"
  | question => "?"
  | atSign => "@"
  | dollar => "$"
  | assign => "="
  | compoundAssign => "assignment operator"
  | eof => "end of file"
  | _ =>
    match kind.word? with
    | some word => "keyword " ++ word
    | none => "operator " ++ kind.label

end TokenKind

end CodeLayout
