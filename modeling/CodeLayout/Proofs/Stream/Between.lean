import CodeLayout.Stream.Item

/-!
# The gap behind items

Reading the items of a stream one by one, one comes from text to text.  `Between` is what has been
read of the gap in which one stands: the text before it, its roles, and whether the operator of a
member comes next.
-/

namespace CodeLayout

/-- The roles of the gap that is being read, after one more item. -/
def Item.addRole (roles : List Role) (i : Item) : List Role :=
  match i.kind with
  | .role r => roles ++ [r]
  | kind => if kind.isText then [] else roles

theorem Item.addRole_of_isText {roles : List Role} {i : Item} (hkind : i.kind.isText = true) :
    i.addRole roles = [] := by
  unfold addRole
  split
  · next r hr => rw [hr] at hkind; cases hkind
  · exact if_pos hkind

/-- The roles of the gap behind items. -/
def gapRoles (items : List Item) : List Role := items.foldl Item.addRole []

/-- Marks before an operator. -/
def ItemKind.isOperator : ItemKind → Bool
  | align _ => true
  | _ => false

/-- What has been read of a gap: the text before it, its roles, and whether the operator of a member
comes next. -/
structure Between where
  prev : Option Item := none
  roles : List Role := []
  aligned : Bool := false
deriving DecidableEq, Repr

namespace Between

/-- One more item is read; a text ends the gap. -/
def add (b : Between) (i : Item) : Between where
  prev := if i.kind.isText then some i else b.prev
  roles := i.addRole b.roles
  aligned := !i.kind.isText && (b.aligned || i.kind.isOperator)

/-- The gap behind items. -/
def after (items : List Item) : Between := items.foldl add {}

theorem add_of_isText (b : Between) {i : Item} (h : i.kind.isText = true) :
    b.add i = { prev := some i } := by
  simp [add, h, Item.addRole_of_isText h]

theorem after_concat (items : List Item) (i : Item) :
    after (items ++ [i]) = (after items).add i := by
  rw [after, List.foldl_append]
  rfl

variable {items : List Item} {q : Item}

/-- The `prev` of a gap is one of the items. -/
theorem mem_of_prev_foldl {b : Between} (h : (items.foldl add b).prev = some q) :
    b.prev = some q ∨ q ∈ items ∧ q.kind.isText = true := by
  induction items generalizing b with
  | nil => exact .inl h
  | cons i items ih =>
    rcases ih h with hprev | ⟨hmem, hkind⟩
    · unfold add at hprev
      dsimp only at hprev
      split at hprev
      · next hkind =>
        cases hprev
        exact .inr ⟨List.mem_cons_self, hkind⟩
      · exact .inl hprev
    · exact .inr ⟨List.mem_cons_of_mem _ hmem, hkind⟩

theorem mem_of_prev (h : (after items).prev = some q) : q ∈ items ∧ q.kind.isText = true := by
  rcases mem_of_prev_foldl h with hprev | hmem
  · cases hprev
  · exact hmem

end Between

end CodeLayout
