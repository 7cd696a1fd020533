import CodeLayout.Style.Basic
import CodeLayout.Style.Value
import CodeLayout.Text.Number

/-!
# The options of a style

Every option has a key in style files, a name, and a way to read it off a style and to set it from a
raw value.  `sections` lists them all in order.  Raw values are converted leniently: a number may be
written as a text, a truth value as a number, and names in any case.
-/

namespace CodeLayout.Style

/-- The value of an option. -/
inductive Setting where
  | number (value : Nat)
  | flag (value : Bool)
  | brace (value : BracePlacement)
  | wrapping (value : Wrapping)
deriving DecidableEq, Repr

/-! ### Conversion -/

/-- The brace placements by the names that style files use. -/
def placementNames : List (String × BracePlacement) :=
  [("same_line", .sameLine), ("new_line", .newLine), ("new_line_indented", .newLineIndented),
    ("preserve_existing", .preserveExisting)]

/-- The wrappings by the names that style files use. -/
def wrappingNames : List (String × Wrapping) :=
  [("always", .always), ("never", .never), ("if_long", .ifLong)]

/-- The truth values by the words that stand for them. -/
def truthWords : List (String × Bool) :=
  [("true", true), ("on", true), ("yes", true), ("false", false), ("off", false), ("no", false)]

namespace Value

/-- A value as a number: a fraction is rounded, and a half away from zero. -/
def toNumber : Value → Except StyleError Nat
  | int n => if 0 ≤ n then .ok n.toNat else .error .wrongType
  | text s =>
    match truthWords.lookup (foldKey s) with
    | some b => .ok b.toNat
    | none =>
      match Text.number? s with
      | some n => .ok n
      | none => .error .wrongType
  | flag b => .ok b.toNat
  | float x => .ok x.round.toUInt64.toNat
  | nil | list _ | table _ => .error .wrongType

/-- A value as a truth value: any number but zero is true. -/
def toFlag : Value → Except StyleError Bool
  | flag b => .ok b
  | int n => .ok (n != 0)
  | float x => .ok (x != 0.0)
  | text s =>
    match (("1", true) :: ("0", false) :: truthWords).lookup (foldKey s) with
    | some b => .ok b
    | none => .error .wrongType
  | nil | list _ | table _ => .error .wrongType

/-- A value as one of some named ones; a table with a single entry stands for the name of it. -/
def toNamed {α : Type} (names : List (String × α)) (value : Value) : Except StyleError α :=
  let name := match value with
    | text s => some s
    | table [(s, _)] => some s
    | _ => none
  match name.bind fun s => names.lookup (foldKey s) with
  | some a => .ok a
  | none => .error .unfit

end Value

/-- The raw value of a setting. -/
def Setting.toValue : Setting → Value
  | number n => .int n
  | flag b => .flag b
  | brace p => .text (((placementNames.find? (·.2 == p)).map (·.1)).getD "")
  | wrapping w => .text (((wrappingNames.find? (·.2 == w)).map (·.1)).getD "")

/-! ### Fields -/

/-- An option in a record of options. -/
structure Field (σ : Type) where
  /-- The key in style files. -/
  key : String
  /-- The name of the option. -/
  name : String
  get : σ → Setting
  read : Value → σ → Except StyleError σ

namespace Field

variable {σ : Type}

/-- An option that is a number. -/
def number (key : String) (get : σ → Nat) (set : Nat → σ → σ) : Field σ where
  key := key
  name := key
  get s := .number (get s)
  read v s := return set (← v.toNumber) s

/-- An option that is a truth value. -/
def flag (key : String) (get : σ → Bool) (set : Bool → σ → σ) : Field σ where
  key := key
  name := key
  get s := .flag (get s)
  read v s := return set (← v.toFlag) s

/-- An option that is a brace placement, with a name that may differ from its key. -/
def brace (key name : String) (get : σ → BracePlacement) (set : BracePlacement → σ → σ) :
    Field σ where
  key := key
  name := name
  get s := .brace (get s)
  read v s := return set (← v.toNamed placementNames) s

/-- An option that is a wrapping. -/
def wrapping (key : String) (get : σ → Wrapping) (set : Wrapping → σ → σ) : Field σ where
  key := key
  name := key
  get s := .wrapping (get s)
  read v s := return set (← v.toNamed wrappingNames) s

/-- An option of a section as an option of the style. -/
def lift {τ : Type} (get : τ → σ) (set : σ → τ → τ) (f : Field σ) : Field τ where
  key := f.key
  name := f.name
  get t := f.get (get t)
  read v t := return set (← f.read v (get t)) t

end Field

/-- The options of the section. -/
def IndentOptions.fields : List (Field IndentOptions) := [
  .number "indent_size" (·.indentSize) fun v s => { s with indentSize := v },
  .number "continuation_size" (·.continuationSize) fun v s => { s with continuationSize := v },
  .number "array_item_size" (·.arrayItemSize) fun v s => { s with arrayItemSize := v },
  .number "initial_indent" (·.initialIndent) fun v s => { s with initialIndent := v },
  .number "tab_size" (·.tabSize) fun v s => { s with tabSize := v },
  .flag "expand_tabs" (·.expandTabs) fun v s => { s with expandTabs := v },
  .number "margin" (·.margin) fun v s => { s with margin := v }]

/-- The options of the section. -/
def BraceOptions.fields : List (Field BraceOptions) := [
  .brace "class" "class" (·.classDecl) fun v s => { s with classDecl := v },
  .brace "anonymous_class" "anonymous_class" (·.anonymousClass)
    fun v s => { s with anonymousClass := v },
  .brace "function" "function" (·.function) fun v s => { s with function := v },
  .brace "if" "if_else" (·.ifElse) fun v s => { s with ifElse := v },
  .brace "for" "for_loop" (·.forLoop) fun v s => { s with forLoop := v },
  .brace "while" "while_loop" (·.whileLoop) fun v s => { s with whileLoop := v },
  .brace "switch" "switch" (·.switch) fun v s => { s with switch := v },
  .brace "match" "match_arms" (·.matchArms) fun v s => { s with matchArms := v },
  .brace "catch" "catch" (·.tryCatch) fun v s => { s with tryCatch := v },
  .brace "use_trait" "use_trait" (·.useTrait) fun v s => { s with useTrait := v },
  .brace "group_use" "group_use" (·.groupUse) fun v s => { s with groupUse := v },
  .brace "other" "other" (·.other) fun v s => { s with other := v }]

/-- The options of the section. -/
def BlankLineOptions.fields : List (Field BlankLineOptions) := [
  .number "before_namespace" (·.beforeNamespace) fun v s => { s with beforeNamespace := v },
  .number "after_namespace" (·.afterNamespace) fun v s => { s with afterNamespace := v },
  .number "before_use" (·.beforeUse) fun v s => { s with beforeUse := v },
  .number "after_use" (·.afterUse) fun v s => { s with afterUse := v },
  .number "between_use_types" (·.betweenUseTypes) fun v s => { s with betweenUseTypes := v },
  .number "before_use_trait" (·.beforeUseTrait) fun v s => { s with beforeUseTrait := v },
  .number "after_use_trait" (·.afterUseTrait) fun v s => { s with afterUseTrait := v },
  .number "before_class" (·.beforeClass) fun v s => { s with beforeClass := v },
  .number "after_class" (·.afterClass) fun v s => { s with afterClass := v },
  .number "after_class_header" (·.afterClassHeader) fun v s => { s with afterClassHeader := v },
  .number "before_class_end" (·.beforeClassEnd) fun v s => { s with beforeClassEnd := v },
  .number "before_fields" (·.beforeFields) fun v s => { s with beforeFields := v },
  .number "after_fields" (·.afterFields) fun v s => { s with afterFields := v },
  .number "between_fields" (·.betweenFields) fun v s => { s with betweenFields := v },
  .flag "group_fields_without_doc" (·.groupFieldsWithoutDoc)
    fun v s => { s with groupFieldsWithoutDoc := v },
  .number "before_function" (·.beforeFunction) fun v s => { s with beforeFunction := v },
  .number "after_function" (·.afterFunction) fun v s => { s with afterFunction := v },
  .number "before_function_end" (·.beforeFunctionEnd) fun v s => { s with beforeFunctionEnd := v },
  .number "after_open_php_tag" (·.afterOpenPhpTag) fun v s => { s with afterOpenPhpTag := v },
  .number "after_open_php_tag_in_html" (·.afterOpenPhpTagInHtml)
    fun v s => { s with afterOpenPhpTagInHtml := v },
  .number "before_close_php_tag" (·.beforeClosePhpTag) fun v s => { s with beforeClosePhpTag := v },
  .number "max_preserved" (·.maxPreserved) fun v s => { s with maxPreserved := v },
  .flag "eof" (·.eof) fun v s => { s with eof := v }]

/-- The options of the section. -/
def SpaceOptions.fields : List (Field SpaceOptions) := [
  .flag "before_while" (·.beforeWhile) fun v s => { s with beforeWhile := v },
  .flag "before_else" (·.beforeElse) fun v s => { s with beforeElse := v },
  .flag "before_catch" (·.beforeCatch) fun v s => { s with beforeCatch := v },
  .flag "before_finally" (·.beforeFinally) fun v s => { s with beforeFinally := v },
  .flag "before_method_decl_paren" (·.beforeMethodDeclParen)
    fun v s => { s with beforeMethodDeclParen := v },
  .flag "before_method_call_paren" (·.beforeMethodCallParen)
    fun v s => { s with beforeMethodCallParen := v },
  .flag "before_if_paren" (·.beforeIfParen) fun v s => { s with beforeIfParen := v },
  .flag "before_for_paren" (·.beforeForParen) fun v s => { s with beforeForParen := v },
  .flag "before_while_paren" (·.beforeWhileParen) fun v s => { s with beforeWhileParen := v },
  .flag "before_catch_paren" (·.beforeCatchParen) fun v s => { s with beforeCatchParen := v },
  .flag "before_switch_paren" (·.beforeSwitchParen) fun v s => { s with beforeSwitchParen := v },
  .flag "before_match_paren" (·.beforeMatchParen) fun v s => { s with beforeMatchParen := v },
  .flag "before_array_decl_paren" (·.beforeArrayDeclParen)
    fun v s => { s with beforeArrayDeclParen := v },
  .flag "before_anonymous_function_paren" (·.beforeAnonymousFunctionParen)
    fun v s => { s with beforeAnonymousFunctionParen := v },
  .flag "before_anonymous_class_paren" (·.beforeAnonymousClassParen)
    fun v s => { s with beforeAnonymousClassParen := v },
  .flag "before_attribute_paren" (·.beforeAttributeParen)
    fun v s => { s with beforeAttributeParen := v },
  .flag "before_declare_paren" (·.beforeDeclareParen) fun v s => { s with beforeDeclareParen := v },
  .flag "before_class_left_brace" (·.beforeClassLeftBrace)
    fun v s => { s with beforeClassLeftBrace := v },
  .flag "before_function_left_brace" (·.beforeFunctionLeftBrace)
    fun v s => { s with beforeFunctionLeftBrace := v },
  .flag "before_if_left_brace" (·.beforeIfLeftBrace) fun v s => { s with beforeIfLeftBrace := v },
  .flag "before_else_left_brace" (·.beforeElseLeftBrace)
    fun v s => { s with beforeElseLeftBrace := v },
  .flag "before_for_left_brace" (·.beforeForLeftBrace)
    fun v s => { s with beforeForLeftBrace := v },
  .flag "before_while_left_brace" (·.beforeWhileLeftBrace)
    fun v s => { s with beforeWhileLeftBrace := v },
  .flag "before_do_left_brace" (·.beforeDoLeftBrace) fun v s => { s with beforeDoLeftBrace := v },
  .flag "before_switch_left_brace" (·.beforeSwitchLeftBrace)
    fun v s => { s with beforeSwitchLeftBrace := v },
  .flag "before_match_left_brace" (·.beforeMatchLeftBrace)
    fun v s => { s with beforeMatchLeftBrace := v },
  .flag "before_try_left_brace" (·.beforeTryLeftBrace)
    fun v s => { s with beforeTryLeftBrace := v },
  .flag "before_catch_left_brace" (·.beforeCatchLeftBrace)
    fun v s => { s with beforeCatchLeftBrace := v },
  .flag "before_finally_left_brace" (·.beforeFinallyLeftBrace)
    fun v s => { s with beforeFinallyLeftBrace := v },
  .flag "before_use_trait_left_brace" (·.beforeUseTraitLeftBrace)
    fun v s => { s with beforeUseTraitLeftBrace := v },
  .flag "before_group_use_left_brace" (·.beforeGroupUseLeftBrace)
    fun v s => { s with beforeGroupUseLeftBrace := v },
  .flag "before_other_left_brace" (·.beforeOtherLeftBrace)
    fun v s => { s with beforeOtherLeftBrace := v },
  .flag "around_unary_ops" (·.aroundUnaryOps) fun v s => { s with aroundUnaryOps := v },
  .flag "around_binary_ops" (·.aroundBinaryOps) fun v s => { s with aroundBinaryOps := v },
  .flag "around_ternary_ops" (·.aroundTernaryOps) fun v s => { s with aroundTernaryOps := v },
  .flag "around_coalescing_ops" (·.aroundCoalescingOps)
    fun v s => { s with aroundCoalescingOps := v },
  .flag "around_string_concat_ops" (·.aroundStringConcatOps)
    fun v s => { s with aroundStringConcatOps := v },
  .flag "around_key_value_ops" (·.aroundKeyValueOps) fun v s => { s with aroundKeyValueOps := v },
  .flag "around_assign_ops" (·.aroundAssignOps) fun v s => { s with aroundAssignOps := v },
  .flag "around_scope_resolution_ops" (·.aroundScopeResolutionOps)
    fun v s => { s with aroundScopeResolutionOps := v },
  .flag "around_object_ops" (·.aroundObjectOps) fun v s => { s with aroundObjectOps := v },
  .flag "around_nullsafe_object_ops" (·.aroundNullsafeObjectOps)
    fun v s => { s with aroundNullsafeObjectOps := v },
  .flag "around_declare_equal" (·.aroundDeclareEqual) fun v s => { s with aroundDeclareEqual := v },
  .flag "around_union_type_separator" (·.aroundUnionTypeSeparator)
    fun v s => { s with aroundUnionTypeSeparator := v },
  .flag "around_intersection_type_separator" (·.aroundIntersectionTypeSeparator)
    fun v s => { s with aroundIntersectionTypeSeparator := v },
  .flag "around_multi_catch_separator" (·.aroundMultiCatchSeparator)
    fun v s => { s with aroundMultiCatchSeparator := v },
  .flag "within_method_decl_parens" (·.withinMethodDeclParens)
    fun v s => { s with withinMethodDeclParens := v },
  .flag "within_method_call_parens" (·.withinMethodCallParens)
    fun v s => { s with withinMethodCallParens := v },
  .flag "within_if_parens" (·.withinIfParens) fun v s => { s with withinIfParens := v },
  .flag "within_for_parens" (·.withinForParens) fun v s => { s with withinForParens := v },
  .flag "within_while_parens" (·.withinWhileParens) fun v s => { s with withinWhileParens := v },
  .flag "within_switch_parens" (·.withinSwitchParens) fun v s => { s with withinSwitchParens := v },
  .flag "within_match_parens" (·.withinMatchParens) fun v s => { s with withinMatchParens := v },
  .flag "within_catch_parens" (·.withinCatchParens) fun v s => { s with withinCatchParens := v },
  .flag "within_declare_parens" (·.withinDeclareParens)
    fun v s => { s with withinDeclareParens := v },
  .flag "within_other_parens" (·.withinOtherParens) fun v s => { s with withinOtherParens := v },
  .flag "within_array_decl_parens" (·.withinArrayDeclParens)
    fun v s => { s with withinArrayDeclParens := v },
  .flag "within_array_brackets" (·.withinArrayBrackets)
    fun v s => { s with withinArrayBrackets := v },
  .flag "within_attribute_brackets" (·.withinAttributeBrackets)
    fun v s => { s with withinAttributeBrackets := v },
  .flag "within_attribute_decl_parens" (·.withinAttributeDeclParens)
    fun v s => { s with withinAttributeDeclParens := v },
  .flag "within_type_cast_parens" (·.withinTypeCastParens)
    fun v s => { s with withinTypeCastParens := v },
  .flag "within_dnf_type_parens" (·.withinDnfTypeParens)
    fun v s => { s with withinDnfTypeParens := v },
  .flag "within_dynamic_name_braces" (·.withinDynamicNameBraces)
    fun v s => { s with withinDynamicNameBraces := v },
  .flag "before_comma" (·.beforeComma) fun v s => { s with beforeComma := v },
  .flag "after_comma" (·.afterComma) fun v s => { s with afterComma := v },
  .flag "before_semi" (·.beforeSemi) fun v s => { s with beforeSemi := v },
  .flag "after_semi" (·.afterSemi) fun v s => { s with afterSemi := v },
  .flag "after_type_cast" (·.afterTypeCast) fun v s => { s with afterTypeCast := v },
  .flag "after_short_php_tag" (·.afterShortPhpTag) fun v s => { s with afterShortPhpTag := v },
  .flag "before_close_php_tag" (·.beforeClosePhpTag) fun v s => { s with beforeClosePhpTag := v }]

/-- The options of the section. -/
def PlacementOptions.fields : List (Field PlacementOptions) := [
  .flag "else_on_new_line" (·.elseOnNewLine) fun v s => { s with elseOnNewLine := v },
  .flag "while_on_new_line" (·.whileOnNewLine) fun v s => { s with whileOnNewLine := v },
  .flag "catch_on_new_line" (·.catchOnNewLine) fun v s => { s with catchOnNewLine := v },
  .flag "finally_on_new_line" (·.finallyOnNewLine) fun v s => { s with finallyOnNewLine := v },
  .flag "new_line_after_modifiers" (·.newLineAfterModifiers)
    fun v s => { s with newLineAfterModifiers := v }]

/-- The options of the section. -/
def WrapOptions.fields : List (Field WrapOptions) := [
  .wrapping "extends_implements_keyword" (·.extendsImplementsKeyword)
    fun v s => { s with extendsImplementsKeyword := v },
  .wrapping "extends_implements_list" (·.extendsImplementsList)
    fun v s => { s with extendsImplementsList := v },
  .wrapping "method_params" (·.methodParams) fun v s => { s with methodParams := v },
  .wrapping "method_call_args" (·.methodCallArgs) fun v s => { s with methodCallArgs := v },
  .wrapping "chained_method_calls" (·.chainedMethodCalls)
    fun v s => { s with chainedMethodCalls := v },
  .wrapping "array_init" (·.arrayInit) fun v s => { s with arrayInit := v },
  .wrapping "for_clauses" (·.forClauses) fun v s => { s with forClauses := v },
  .wrapping "binary_ops" (·.binaryOps) fun v s => { s with binaryOps := v },
  .wrapping "ternary_ops" (·.ternaryOps) fun v s => { s with ternaryOps := v },
  .wrapping "coalescing_ops" (·.coalescingOps) fun v s => { s with coalescingOps := v },
  .wrapping "assignment_ops" (·.assignmentOps) fun v s => { s with assignmentOps := v },
  .wrapping "group_use_list" (·.groupUseList) fun v s => { s with groupUseList := v },
  .wrapping "if_statement" (·.ifStatement) fun v s => { s with ifStatement := v },
  .wrapping "for_statement" (·.forStatement) fun v s => { s with forStatement := v },
  .wrapping "while_statement" (·.whileStatement) fun v s => { s with whileStatement := v },
  .wrapping "do_statement" (·.doStatement) fun v s => { s with doStatement := v },
  .flag "method_params_after_left_paren" (·.methodParamsAfterLeftParen)
    fun v s => { s with methodParamsAfterLeftParen := v },
  .flag "method_params_right_paren" (·.methodParamsRightParen)
    fun v s => { s with methodParamsRightParen := v },
  .flag "method_call_args_after_left_paren" (·.methodCallArgsAfterLeftParen)
    fun v s => { s with methodCallArgsAfterLeftParen := v },
  .flag "method_call_args_right_paren" (·.methodCallArgsRightParen)
    fun v s => { s with methodCallArgsRightParen := v },
  .flag "method_params_keep_paren_and_brace_on_the_same_line"
    (·.methodParamsKeepParenAndBraceOnTheSameLine)
    fun v s => { s with methodParamsKeepParenAndBraceOnTheSameLine := v },
  .flag "statements_on_the_same_line" (·.statementsOnTheSameLine)
    fun v s => { s with statementsOnTheSameLine := v },
  .flag "block_braces" (·.blockBraces) fun v s => { s with blockBraces := v },
  .flag "group_use_braces" (·.groupUseBraces) fun v s => { s with groupUseBraces := v },
  .flag "after_binary_ops" (·.afterBinaryOps) fun v s => { s with afterBinaryOps := v },
  .flag "after_assign_ops" (·.afterAssignOps) fun v s => { s with afterAssignOps := v },
  .flag "after_ternary_ops" (·.afterTernaryOps) fun v s => { s with afterTernaryOps := v },
  .flag "never_keep_lines" (·.neverKeepLines) fun v s => { s with neverKeepLines := v }]

/-- The options of the section. -/
def AlignOptions.fields : List (Field AlignOptions) := [
  .flag "multiline_method_params" (·.multilineMethodParams)
    fun v s => { s with multilineMethodParams := v },
  .flag "multiline_call_args" (·.multilineCallArgs) fun v s => { s with multilineCallArgs := v },
  .flag "multiline_implements" (·.multilineImplements)
    fun v s => { s with multilineImplements := v },
  .flag "multiline_array_init" (·.multilineArrayInit) fun v s => { s with multilineArrayInit := v },
  .flag "multiline_for" (·.multilineFor) fun v s => { s with multilineFor := v },
  .flag "multiline_ternary" (·.multilineTernary) fun v s => { s with multilineTernary := v },
  .flag "multiline_binary" (·.multilineBinary) fun v s => { s with multilineBinary := v },
  .flag "multiline_chained" (·.multilineChained) fun v s => { s with multilineChained := v },
  .flag "group_assignments" (·.groupAssignments) fun v s => { s with groupAssignments := v },
  .flag "group_array_init" (·.groupArrayInit) fun v s => { s with groupArrayInit := v },
  .flag "group_match_arms" (·.groupMatchArms) fun v s => { s with groupMatchArms := v }]

/-- A section of options. -/
structure Section where
  key : String
  fields : List (Field Style)

/-- All options, section by section. -/
def sections : List Section := [
  ⟨"indent", IndentOptions.fields.map (.lift (·.indent) fun v s => { s with indent := v })⟩,
  ⟨"braces", BraceOptions.fields.map (.lift (·.braces) fun v s => { s with braces := v })⟩,
  ⟨"blank_lines",
    BlankLineOptions.fields.map (.lift (·.blankLines) fun v s => { s with blankLines := v })⟩,
  ⟨"spaces", SpaceOptions.fields.map (.lift (·.spaces) fun v s => { s with spaces := v })⟩,
  ⟨"placement",
    PlacementOptions.fields.map (.lift (·.placement) fun v s => { s with placement := v })⟩,
  ⟨"wrap", WrapOptions.fields.map (.lift (·.wrap) fun v s => { s with wrap := v })⟩,
  ⟨"align", AlignOptions.fields.map (.lift (·.align) fun v s => { s with align := v })⟩]

end CodeLayout.Style
