import CodeLayout.Stream.Alignment
import CodeLayout.Stream.Role
import CodeLayout.Text.Slice

/-!
# Annotated streams

A stream describes a source for layout.  Its items are pieces of the source, and marks of no length
between them: roles of gaps, changes of the indent, and hints for lining up.  The blanks of the
source are items too, so that the gaps of the source can be looked at when new ones are decided.
Offsets and lengths are machine words: a source is shorter than `Word.limit`.
-/

namespace CodeLayout

/-- What an item is. -/
inductive ItemKind where
  /-- The first item of a stream. -/
  | init (hasHtml : Bool)
  | text
  /-- Text with syntax problems, which is copied as it is. -/
  | verbatim
  | html
  | openTag
  | closeTag
  | attributeStart
  | lineComment
  | blockComment
  | docComment
  /-- Blanks without a line break. -/
  | blanks
  /-- Blanks with a line break. -/
  | lineBreak
  | role (role : Role)
  /-- A change of the indent. -/
  | indent (delta : Int)
  /-- The next text sets a column for others to line up with. -/
  | anchor
  | anchorEnd
  /-- The text before the operator of a member starts. -/
  | alignStart (member : MemberRef)
  /-- The operator of a member comes next. -/
  | align (member : MemberRef)
  | unbreakableStart
  | unbreakableEnd
deriving DecidableEq, Repr, Inhabited

namespace ItemKind

/-- Pieces of the source other than blanks. -/
def isText : ItemKind → Bool
  | text | verbatim | html | openTag | closeTag | attributeStart | lineComment | blockComment
  | docComment => true
  | _ => false

/-- Comments of any form. -/
def isComment : ItemKind → Bool
  | lineComment | blockComment | docComment => true
  | _ => false

/-- Blanks of the source and roles of gaps. -/
def isGap : ItemKind → Bool
  | blanks | lineBreak | role _ => true
  | _ => false

/-- The name of a member. -/
def memberLabel (m : MemberRef) : String :=
  "MemberRef \x7b group: " ++ toString m.group ++ ", member: " ++ toString m.member ++ " \x7d"

/-- The name of the kind, with what it is about. -/
def label : ItemKind → String
  | init hasHtml => "Init \x7b has_html: " ++ toString hasHtml ++ " \x7d"
  | text => "Text"
  | verbatim => "Opaque"
  | html => "Html"
  | openTag => "OpenTag"
  | closeTag => "CloseTag"
  | attributeStart => "AttributeStart"
  | lineComment => "LineComment"
  | blockComment => "Comment"
  | docComment => "DocComment"
  | blanks => "Whitespace"
  | lineBreak => "WhitespaceIndent"
  | role r => labelled "Ws" r.label
  | indent delta => labelled "Indent" (toString delta)
  | anchor => "Anchor"
  | anchorEnd => "AnchorEnd"
  | alignStart m => labelled "AlignStart" (memberLabel m)
  | align m => labelled "Align" (memberLabel m)
  | unbreakableStart => "UnbreakableStart"
  | unbreakableEnd => "UnbreakableEnd"

end ItemKind

/-- An item of a stream. -/
structure Item where
  kind : ItemKind
  /-- The offset of the piece in the source, or the place of the mark. -/
  offset : Nat
  /-- The number of bytes of the piece; a mark has none. -/
  length : Nat
  /-- May a line be broken here? -/
  breakable : Bool
deriving DecidableEq, Repr, Inhabited

namespace Item

/-- A mark. -/
def mark (kind : ItemKind) (offset : Nat) (breakable : Bool) : Item := ⟨kind, offset, 0, breakable⟩

/-- The offset right after the piece. -/
def stop (i : Item) : Nat := i.offset + i.length

/-- The text of the piece in a source, empty where the source has no such piece. -/
def text (i : Item) (source : String) : String := Text.slice source i.offset i.stop

end Item

/-- An annotated stream: the items and the alignment groups that they refer to. -/
structure ItemStream where
  items : Array Item
  groups : AlignTable
deriving Repr, Inhabited

namespace ItemStream

/-- Does the source hold markup? -/
def hasHtml (s : ItemStream) : Bool :=
  match (s.items[0]?).map Item.kind with
  | some (.init b) => b
  | _ => false

/-- The text of the pieces, one after the other. -/
def content (s : ItemStream) (source : String) : String :=
  String.join ((s.items.toList.filter (·.kind.isText)).map (·.text source))

/-- The sum of all changes of the indent. -/
def indentBalance (s : ItemStream) : Int :=
  s.items.toList.foldl (fun sum i => match i.kind with
    | .indent delta => sum + delta
    | _ => sum) 0

end ItemStream

end CodeLayout
