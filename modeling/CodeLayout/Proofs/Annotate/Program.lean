import CodeLayout.Annotate.Program
import CodeLayout.Proofs.Annotate.Declaration
import CodeLayout.Proofs.Grammar.Lossless

/-!
# A whole program in step

A visit of a tree visits its leaves in order (`follows_visitTree`), by induction on the height that
bounds it.  So the annotation of a parsed source never fails, and the items of its stream cover the
source (`annotate_spec`); nothing of it depends on the right margin (`annotate_withMargin`), and nothing
widens the gaps next to markup (`snug_of_annotate`).
-/

namespace CodeLayout

open List

namespace Annotate

variable {W : Prop} {A : Nat → Prop} {c : Context} {xs : List Lexeme} {n : Nat} {visit : Visit}
  {t : Tree} {ts : List Tree}

/-! ## Nodes -/

/-- `verbatim` copies what is not understood. -/
theorem visits_verbatim (hc : Reading c xs) (hr : Row c n [t]) :
    Visits c xs t.leaves (verbatim t) := by
  intro s hs _ hidx
  have hsorted : t.leaves.Pairwise (· < ·) := by
    simpa only [Tree.leavesAll_cons, Tree.leavesAll_nil, append_nil] using hr.sorted
  have htame := brings_verbatim hc hsorted fun i hi => (hidx i hi).2
  cases hleaves : t.leaves with
  | nil =>
    have hfirst : t.first? = none := by rw [Tree.first?_eq_head?, hleaves, head?_nil]
    refine ⟨(), s, ?_, hs, Nat.le_refl _, fun h => absurd rfl h, fun _ hj _ => hj⟩
    unfold verbatim
    rw [hfirst]
    exact .pure ()
  | cons first rest =>
    rw [hleaves] at hidx hsorted
    have hlast : t.last? = some ((first :: rest).getLast (cons_ne_nil _ _)) := by
      rw [Tree.last?_eq_getLast?, hleaves, getLast?_eq_some_getLast]
    have hmem := getLast_mem (cons_ne_nil first rest)
    generalize (first :: rest).getLast (cons_ne_nil _ _) = last at hlast hmem
    have hle : first ≤ last := by
      rcases mem_cons.mp hmem with rfl | hin
      · exact Nat.le_refl _
      · exact Nat.le_of_lt (rel_of_pairwise_cons hsorted hin)
    have hfirst : t.first? = some first := by rw [Tree.first?_eq_head?, hleaves, head?_cons]
    obtain ⟨hcur, hleaf⟩ := hidx first mem_cons_self
    obtain ⟨s', hrun, hready, hcursor⟩ :=
      hs.ready.verbatim hc hfirst hlast hcur hleaf hle (hidx last hmem).2.lt
    refine ⟨(), s', hrun, ⟨hready, htame _ _ _ hrun.runs hs.tame⟩, by omega, fun _ => by omega,
      fun j _ hlt => ?_⟩
    have := hlt last hmem
    omega

/-- `statements` of a program are nodes with leaves, and nothing comes in front of the first. -/
theorem visits_program {kind : NodeKind} (hv : Follows c xs n visit) (hr : Row c n ts)
    (hformed : ∀ u ∈ ts, u.isNode = true ∧ u.leaves ≠ []) :
    Visits c xs (Tree.leavesAll ts) (statements visit kind .block (ts.filter Tree.isNode)) := by
  rw [filter_eq_self.mpr fun u hu => (hformed u hu).1]
  exact steps_statementsAfter hv hr .block none none (fun h => by simp at h)
    (.inl fun u hu => (hformed u hu).2)

variable {kind : NodeKind} {w : Nat} {cs : List Tree}

section

variable (hc : Reading c xs)
include hc

theorem visits_visitNode (hv : Follows c xs n visit)
    (hr : Row c (n + 1) [.node kind w cs]) (parent : NodeKind) :
    Visits c xs (Tree.leaves (.node kind w cs))
      (visitNode visit parent kind (.node kind w cs)) := by
  by_cases herror : kind = .error
  · -- nothing is known of the children of an error node, but all of it is one text
    subst herror
    exact visits_verbatim hc hr
  obtain ⟨-, horderly⟩ := hr.node
  obtain ⟨hcs, hformed⟩ := hr.children herror
  rw [Nat.add_sub_cancel] at hcs
  rw [Tree.leaves_node]
  cases kind
  case error => exact absurd rfl herror
  case program => exact visits_program hv hcs hformed
  all_goals dsimp only [visitNode, Tree.children]
  case block => exact visits_braced hc hv hcs horderly _ _ _
  case classBody => exact visits_classBody hc hv hcs horderly _
  case forStmt => exact visits_forStmt hc hv hcs horderly
  case ifStmt => exact visits_ifStmt hc hv hcs hformed
  case elseIfClause => exact steps_conditionalOnly hc hv hcs hformed _ _
  case elseClause => exact steps_elseClause hc hv hcs hformed
  case whileStmt => exact steps_conditionalOnly hc hv hcs hformed _ _
  case doStmt => exact visits_doParts hc hv hcs _ (Nat.le_refl _)
  case foreachStmt => exact steps_conditionalOnly hc hv hcs hformed _ _
  case switchStmt => exact visits_switchStmt hc hv hcs hformed
  case switchBody => exact visits_switchBody hv hcs hformed
  case caseClause => exact visits_caseClause hc hv hcs hformed
  case tryStmt => exact visits_tryStmt hc hv hcs
  case catchClause => exact steps_catchParts hc hv hcs False.elim
  case finallyClause => exact steps_finallyClause hc hv hcs hformed
  case declareStmt => exact steps_declareParts hc hv hcs true nofun
  case namespaceDecl => exact visits_namespaceDecl hc hv hcs
  case groupUseList => exact visits_groupUseList hc hv hcs hformed
  case functionDecl | methodDecl => exact visits_functionDecl (t := .node _ w cs) hc hv hcs
  case paramList => exact visits_paramList hc hv hcs _
  case param => exact visits_param hc hv hcs hformed
  case returnType | enumBackingType => exact visits_colonType hc hv hcs
  case classDecl | interfaceDecl | traitDecl | enumDecl => exact visits_typeDecl hc hv hcs
  case extendsClause | implementsClause => exact visits_inheritanceClause hc hv hcs
  case propertyDecl | classConstDecl => exact visits_fieldDecl hc hv hcs hformed
  case traitUse => exact visits_traitUse hc hv hcs
  case traitUseBody => exact visits_traitUseBody hc hv hcs
  case attributeGroup => exact visits_attributeGroup hc hv hcs
  case unionType | intersectionType => exact visits_typeList hc hv hcs
  case assignExpr | arrayElement | constElement | propertyElement =>
    exact visits_aligned (t := .node _ w cs) hc hv hcs
  case binaryExpr | instanceofExpr | coalesceExpr => exact visits_binary hc hv hcs hformed
  case unaryExpr => exact visits_unary hc hv hcs
  case postfixExpr => exact visits_trailing hc hv hcs hformed
  case ternaryExpr => exact visits_ternary hc hv hcs
  case parenExpr | dynamicName => exact visits_delimited hc hv hcs _
  case argList => exact visits_argList hc hv hcs _
  case namedArg => exact visits_namedArg hc hv hcs
  case methodCall | propertyFetch | staticCall | staticAccess =>
    exact visits_memberAccess hc hv hcs
  case indexExpr => exact visits_indexExpr hc hv hcs
  case anonClass => exact visits_anonClass hc hv hcs
  case arrayLiteral | listExpr => exact visits_arrayLiteral (t := .node _ w cs) hc hv hcs
  case matchExpr => exact visits_matchExpr (t := .node _ w cs) hc hv hcs
  case matchArm => exact visits_matchArm (t := .node _ w cs) hc hv hcs
  case closureExpr | arrowFnExpr => exact visits_closure hc hv hcs
  case closureUse => exact visits_closureUse hc hv hcs hformed
  case emptyStmt | attributeItem | nullableType | castExpr | callExpr =>
    exact visits_visitAll hv hcs
  all_goals exact visits_walk hc hv hcs

/-- A role may wait for a node that `startsPlain`. -/
theorem steps_plainNode (hv : Follows c xs n visit)
    (hr : Row c (n + 1) [.node kind w cs]) (hplain : startsPlain c (.node kind w cs) = true)
    (parent : NodeKind) : Steps c xs W A (Tree.leaves (.node kind w cs))
      (visitNode visit parent kind (.node kind w cs)) := by
  obtain ⟨hcs, hformed⟩ := hr.children fun herror => by
    subst herror
    cases hplain
  rw [Nat.add_sub_cancel] at hcs
  rw [Tree.leaves_node]
  cases kind
  case emptyStmt => exact steps_visitAll hv hcs fun _ => hformed
  case elseIfClause => exact steps_conditionalOnly hc hv hcs hformed _ _
  case elseClause => exact steps_elseClause hc hv hcs hformed
  case catchClause => exact steps_catchParts hc hv hcs fun _ => hformed
  case finallyClause => exact steps_finallyClause hc hv hcs hformed
  all_goals cases hplain

/-! ## Trees -/

theorem steps_plainLeaf {i : Nat} (hplain : startsPlain c (.leaf i w) = true) :
    Steps c xs W A (Tree.leaves (.leaf i w)) (leaf i) :=
  .at_leaf (steps_leaf hc fun _ => bne_iff_ne.mp hplain)

/-- `visitTree` visits the leaves of its tree. -/
theorem follows_visitTree (n : Nat) : Follows c xs n (visitTree n) := by
  induction n with
  | zero =>
    refine ⟨fun kind t hr => ?_, fun kind t W A hr hplain => ?_⟩
    · cases t with
      | leaf i w => exact .at_leaf (visits_leaf hc)
      | node k w cs => exact absurd hr.node.1 (Nat.lt_irrefl 0)
    · cases t with
      | leaf i w => exact steps_plainLeaf hc hplain
      | node k w cs => exact absurd hr.node.1 (Nat.lt_irrefl 0)
  | succ n ih =>
    refine ⟨fun kind t hr => ?_, fun kind t W A hr hplain => ?_⟩
    · cases t with
      | leaf i w => exact .at_leaf (visits_leaf hc)
      | node k w cs => exact visits_visitNode hc ih hr kind
    · cases t with
      | leaf i w => exact steps_plainLeaf hc hplain
      | node k w cs => exact steps_plainNode hc ih hr hplain kind

/-- `program` lays out a whole source, from its first item to its last. -/
theorem runs_program (hr : Row c (Tree.node .program w cs).height [.node .program w cs])
    (hleaf : ∀ i ∈ Tree.leaves (.node .program w cs), IsLeaf xs i) :
    ∃ s, Goes c (program (.node .program w cs)) {} () s ∧ Ready c xs s ∧
      s.cursor = xs.length + 1 ∧ Between.Snug s.items.toList := by
  have hready : Ready c xs {} :=
    ⟨Nat.zero_le _, .nil, forall_mem_nil _, forall_mem_nil _⟩
  have hinit : Emits c 0 [] (push (.mark (.init (hasMarkup c.source c.tokens)) 0 true)) :=
    emits_push_mark rfl rfl
  have hnodes : Visits c xs (Tree.leaves (.node .program w cs)) (do
      push (.mark (.init (hasMarkup c.source c.tokens)) 0 true)
      statements (visitTree (Tree.node .program w cs).height) .program .block
        (Tree.node .program w cs).childNodes) := by
    obtain ⟨hcs, hformed⟩ := hr.children (by decide)
    refine .emits_bind (W := False) hinit (fun s _ s' hrun _ hs => ?_) fun _ => ?_
    · cases hrun
      exact hs.push rfl nofun
    · rw [Tree.leaves_node]
      exact visits_program (follows_visitTree hc _) (hcs.mono (Nat.sub_le _ 1)) hformed
  obtain ⟨⟨⟩, s₁, hrun₁, hready₁, -, -, hbound⟩ :=
    hnodes {} ⟨hready, .start⟩ trivial fun i hi => ⟨Nat.zero_le i, hleaf i hi⟩
  have hcur : s₁.cursor ≤ xs.length := hbound _ (Nat.zero_le _) fun i hi => (hleaf i hi).lt
  have hsize := hc.size
  obtain ⟨s₂, hrun₂, hready₂, hcursor₂⟩ :=
    hready₁.ready.trivia hc (i := c.tokens.size) (by omega) (by omega)
  have hsnug := brings_trivia_end hc _ _ _ hrun₂.runs hready₁.tame
  have hrun := hrun₁.bind (f := fun _ => trivia c.tokens.size) hrun₂
  rw [bind_assoc] at hrun
  exact ⟨s₂, hrun, hready₂, hcursor₂.trans hsize, hsnug⟩

end

end Annotate

/-! ## Streams -/

variable {source : String} {items : List Item} {cs : List Char}

/-- `ofTokens` answers a program, and its leaves are all significant tokens. -/
theorem Parsed.tree_ofTokens (tokens : Array Token) : ∃ w cs,
    (ofTokens tokens).tree = .node .program w cs ∧
      Tree.leavesAll cs = Significant.seen 0 tokens.toList := by
  obtain ⟨ts, htree, -⟩ :=
    Grammar.parse_added (symbols tokens (Significant.ofTokens tokens))
  have hleaves := leaves_ofTokens tokens
  rw [Significant.indices_ofTokens] at hleaves
  have hroot : ∃ w cs, (ofTokens tokens).tree = .node .program w cs := by
    rw [ofTokens, htree, Tree.branch, Tree.relabel, Tree.branch]
    exact ⟨_, _, rfl⟩
  obtain ⟨w, cs, hroot⟩ := hroot
  refine ⟨w, cs, hroot, ?_⟩
  rw [← hleaves, hroot, Tree.leaves_node]

section

variable {xs : List Lexeme} (style : Style)

theorem annotate_of_runs {s : Annotate.State}
    (hrun : Annotate.Runs ⟨source, placed xs, style⟩
      (Annotate.program (Parsed.ofTokens (placed xs)).tree) {} () s) :
    annotate source (Parsed.ofTokens (placed xs)) style = .ok ⟨s.items, s.groups⟩ := by
  unfold annotate
  rw [show (Parsed.ofTokens (placed xs)).tokens = placed xs from rfl,
    show _ = Except.ok ((), s) from hrun]
  rfl

variable (hlexes : Lexer.Lexes .markup xs source.toList)
include hlexes

theorem runs_program_ofTokens :
    ∃ s, Annotate.Goes ⟨source, placed xs, style⟩
        (Annotate.program (Parsed.ofTokens (placed xs)).tree) {} () s ∧
      Annotate.Ready ⟨source, placed xs, style⟩ xs s ∧ s.cursor = xs.length + 1 ∧
        Between.Snug s.items.toList := by
  obtain ⟨hsorted, hleaf, horderly⟩ := Parsed.ofTokens_spec xs
  have hformed := Parsed.ofTokens_formed xs
  obtain ⟨w, cs, hroot, -⟩ := Parsed.tree_ofTokens (placed xs)
  rw [hroot] at hsorted hleaf horderly hformed ⊢
  refine Annotate.runs_program ⟨rfl, hlexes⟩ ⟨?_, ?_, ?_, ?_⟩ hleaf
  · simpa only [Tree.leavesAll_cons, Tree.leavesAll_nil, append_nil] using hsorted
  · exact forall_mem_singleton.mpr horderly
  · exact forall_mem_singleton.mpr hformed
  · exact forall_mem_singleton.mpr (Nat.le_refl _)

/-- `annotate` succeeds for a parsed source and covers it, with texts that are `Firm` in it. -/
theorem annotate_spec :
    ∃ stream, annotate source (Parsed.ofTokens (placed xs)) style = .ok stream ∧
      Covers 0 stream.items.toList source.toList ∧
      ∀ i ∈ stream.items.toList, i.Firm source := by
  obtain ⟨s, hrun, hready, hcursor, -⟩ := runs_program_ofTokens style hlexes
  have hcovers := hready.covers
  rw [hcursor, take_of_length_le (Nat.le_succ _), hlexes.flatMap_text] at hcovers
  exact ⟨⟨s.items, s.groups⟩, annotate_of_runs style hrun.runs, hcovers, hready.firm⟩

/-- `annotate` does not look at the right margin. -/
theorem annotate_withMargin (margin : Nat) :
    annotate source (Parsed.ofTokens (placed xs)) (style.withMargin margin) =
      annotate source (Parsed.ofTokens (placed xs)) style := by
  obtain ⟨s, hrun, -⟩ := runs_program_ofTokens style hlexes
  rw [annotate_of_runs _ (hrun margin), annotate_of_runs style hrun.runs]

end

/-- The stream that `annotate` answers, with syntax problems or not, is `Snug`: markup follows
nothing or the tag that ends code, and nothing widens the gaps next to it. -/
theorem snug_of_annotate {source : String} {xs : List Lexeme} {style : Style} {stream : ItemStream}
    (hlexes : Lexer.Lexes .markup xs source.toList)
    (h : annotate source (Parsed.ofTokens (placed xs)) style = .ok stream) :
    Between.Snug stream.items.toList := by
  obtain ⟨s, hrun, -, -, hsnug⟩ := runs_program_ofTokens style hlexes
  cases h.symm.trans (annotate_of_runs style hrun.runs)
  exact hsnug

/-- The items stand one after the other between two offsets. -/
def Tiles : Nat → Nat → List Item → Prop
  | start, stop, [] => start = stop
  | start, stop, i :: items => i.offset = start ∧ Tiles i.stop stop items

/-- Items that cover characters are `Tiles` of them. -/
theorem Covers.tiles {n : Nat} (h : Covers n items cs) :
    Tiles n (n + Text.sizeOfChars cs) (items.filter (0 < ·.length)) := by
  induction h with
  | nil => rfl
  | mark hkind hlen _ ih =>
    rw [filter_cons_of_neg (by simp [hlen])]
    exact ih
  | @piece n i items t cs hfits hoff hlen _ ih =>
    have hpos := Text.sizeOfChars_pos hfits.1
    rw [filter_cons_of_pos (by simpa [hlen] using hpos), Text.sizeOfChars_append,
      ← Nat.add_assoc]
    refine ⟨hoff, ?_⟩
    rw [Item.stop, hoff, hlen]
    exact ih

/-- A piece among items that cover the rest of a source is a `slice?` of the source, and it is text
or made of blanks. -/
theorem Covers.slice {p : List Char} (h : Covers (Text.sizeOfChars p) items cs)
    (hsource : source.toList = p ++ cs) {i : Item} (hi : i ∈ items) (hpos : 0 < i.length) :
    Text.slice? source i.offset i.stop = some (i.text source) ∧
      Fits i.kind (i.text source).toList := by
  generalize hn : Text.sizeOfChars p = n at h
  induction h generalizing p with
  | nil => cases hi
  | mark _ hlen _ ih =>
    rcases mem_cons.mp hi with rfl | hi
    · omega
    · exact ih hsource hi hn
  | @piece n j items t cs hfits hoff hlen _ ih =>
    rcases mem_cons.mp hi with rfl | hi
    · rw [← append_assoc] at hsource
      have hslice := Text.slice?_of_toList hsource
      rw [hn, ← hoff, ← hlen] at hslice
      have htext : i.text source = String.ofList t := by
        rw [Item.text, Text.slice, Item.stop, hslice, Option.getD_some]
      refine ⟨htext ▸ hslice, ?_⟩
      rwa [htext, String.toList_ofList]
    · refine ih (p := p ++ t) (by rw [hsource, append_assoc]) hi ?_
      rw [Text.sizeOfChars_append, hn]

/-- Every readable source is annotated, well-formed or not and whatever the style.  The items with a
length tile the source, and those that are no text are made of blanks. -/
theorem annotate_tiles {source : String} {parsed : Parsed} (h : Parsed.ofSource source = .ok parsed)
    (style : Style) :
    ∃ stream, annotate source parsed style = .ok stream ∧
      Tiles 0 (Text.size source) (stream.items.toList.filter (0 < ·.length)) ∧
      ∀ i ∈ stream.items.toList, 0 < i.length →
        Text.slice? source i.offset i.stop = some (i.text source) ∧
        (i.kind.isText = true ∨ (i.kind = .blanks ∨ i.kind = .lineBreak) ∧
          ∀ ch ∈ (i.text source).toList, ch = ' ' ∨ ch = '\t' ∨ ch = '\r' ∨ ch = '\n') := by
  obtain ⟨xs, hlexes, rfl⟩ := Parsed.ofSource_eq_ok_iff.mp h
  obtain ⟨stream, hstream, hcovers, -⟩ := annotate_spec style hlexes
  refine ⟨stream, hstream, ?_, fun i hi hpos => ?_⟩
  · simpa only [Nat.zero_add, Text.sizeOfChars_toList] using hcovers.tiles
  · obtain ⟨hslice, -, hkind⟩ := hcovers.slice (p := []) rfl hi hpos
    refine ⟨hslice, hkind.imp_right fun hblank => ⟨?_, fun ch hch => ?_⟩⟩
    · exact ItemKind.isBlank_eq_true_iff.mp hblank.1
    · simpa [Lexeme.isBlank, or_assoc] using hblank.2 ch hch

/-- A source that breaks off inside a condition. -/
theorem annotate_tiles_malformed : ∃ parsed stream,
    Parsed.ofSource "<?php if (\t\x7b $a = ;" = .ok parsed ∧ parsed.errors ≠ [] ∧
      annotate "<?php if (\t\x7b $a = ;" parsed {} = .ok stream ∧
      Tiles 0 19 (stream.items.toList.filter (0 < ·.length)) := by
  have hparsed : (Parsed.ofSource "<?php if (\t\x7b $a = ;").toOption.any
      (fun p => !p.errors.isEmpty) = true := by decide +kernel
  obtain ⟨parsed, h, hparsed⟩ := exists_ok_of_any hparsed
  obtain ⟨stream, hstream, htiles, -⟩ := annotate_tiles h {}
  refine ⟨parsed, stream, h, ?_, hstream, htiles⟩
  simpa using hparsed
end CodeLayout
