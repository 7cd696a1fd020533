import CodeLayout.Proofs.Annotate.Groups

/-!
# Nothing is left out

In a source without syntax problems every node is whole, and then the layout of a construct takes all
the leaves of its node.  So every token of such a source is put out as a piece of its own, in order,
and none is kept as it is (`annotate_stretches`, `annotate_plain`).
-/

namespace CodeLayout

open List

namespace Annotate

/-- `program` puts out every token, if the leaves of its tree are all significant tokens. -/
theorem stretches_program {c : Context} {w : Nat} {cs : List Tree} {s : State}
    (hrun : Runs c (program (.node .program w cs)) {} () s)
    (hwhole : (Tree.node .program w cs).Every (Tree.Whole (Parsed.kindOf c.tokens)))
    (hleaves : upcoming c 0 = Tree.leavesAll cs) :
    stretches s.items.toList = c.tokens.toList.flatMap (Token.stretches c.source) := by
  obtain ⟨-, s₁, htaken, htrivia⟩ := path_program ((admits_true c).keeps_visitTree _) hwhole hrun
  have hempty : Plain c {} := ⟨rfl, forall_mem_nil _⟩
  obtain ⟨hs₁, hnext⟩ := htaken hempty [] (by rw [hleaves, append_nil])
  -- behind the last leaf there is nothing that the grammar sees
  obtain ⟨hs, hcursor⟩ := hs₁.trivia htrivia fun t ht => by
    rw [Array.toList_extract, extract_eq_take_drop] at ht
    exact Significant.seen_eq_nil hnext t (mem_of_mem_take ht)
  rw [hs.pieces, hcursor, ← Array.length_toList, take_length]

end Annotate

variable {source : String} {xs : List Lexeme} {style : Style} {stream : ItemStream}

/-- `annotate` puts out every token of a source without syntax problems as its own pieces. -/
theorem annotate_stretches (herrors : (Parsed.ofTokens (placed xs)).errors = [])
    (h : annotate source (Parsed.ofTokens (placed xs)) style = .ok stream) :
    stretches stream.items.toList = (placed xs).toList.flatMap (Token.stretches source) := by
  obtain ⟨w, cs, s, hroot, hrun, rfl⟩ := runs_of_annotate h
  obtain ⟨w', cs', hroot', hleaves⟩ := Parsed.tree_ofTokens (placed xs)
  obtain ⟨-, rfl, rfl⟩ := Tree.node.inj (hroot.symm.trans hroot')
  have hwhole := Parsed.whole_of_errors herrors
  rw [hroot] at hwhole
  have hnext : Annotate.upcoming ⟨source, placed xs, style⟩ 0 = Tree.leavesAll cs := hleaves.symm
  have hpieces := Annotate.stretches_program hrun hwhole hnext
  exact hpieces

/-- `annotate` keeps no piece of a source without syntax problems as it is. -/
theorem annotate_plain (herrors : (Parsed.ofTokens (placed xs)).errors = [])
    (h : annotate source (Parsed.ofTokens (placed xs)) style = .ok stream) :
    ∀ i ∈ stream.items.toList, i.kind ≠ .verbatim := by
  intro i hi hkind
  have hmem : (⟨i.kind, i.offset, i.length⟩ : Stretch) ∈ stretches stream.items.toList :=
    mem_filterMap.mpr ⟨i, hi, by rw [Item.stretch?, hkind]; rfl⟩
  rw [annotate_stretches herrors h, mem_flatMap] at hmem
  obtain ⟨t, -, ht⟩ := hmem
  exact Token.kind_ne_verbatim _ ht hkind

/-- No layout forgets a child: a source without syntax problems is annotated in any style, and its
pieces are those of its tokens, in order.  So every significant token is put out by a leaf, and
nothing is kept as it is. -/
theorem annotate_leaves {source : String} {parsed : Parsed} (h : Parsed.ofSource source = .ok parsed)
    (herrors : parsed.errors = []) (style : Style) :
    ∃ stream, annotate source parsed style = .ok stream ∧
      stretches stream.items.toList = parsed.tokens.toList.flatMap (Token.stretches source) ∧
      (∀ t ∈ parsed.tokens.toList, Significant.isSeen t = true →
        t.leafStretches source <:+: stretches stream.items.toList) ∧
      ∀ i ∈ stream.items.toList, i.kind ≠ .verbatim := by
  obtain ⟨xs, hlexes, rfl⟩ := Parsed.ofSource_eq_ok_iff.mp h
  obtain ⟨stream, hstream, -⟩ := annotate_spec style hlexes
  have hpieces := annotate_stretches herrors hstream
  refine ⟨stream, hstream, hpieces, fun t ht hseen => ?_, annotate_plain herrors hstream⟩
  obtain ⟨before, behind, htokens⟩ := List.append_of_mem ht
  rw [hpieces, show (placed xs).toList = _ from htokens, ← Token.stretches_of_isSeen hseen]
  refine ⟨before.flatMap (Token.stretches source), behind.flatMap (Token.stretches source), ?_⟩
  rw [List.flatMap_append, List.flatMap_cons, List.append_assoc]

/-- A cast, an attribute, a comment and the tag that prints. -/
theorem annotate_leaves_mixed : ∃ parsed stream,
    Parsed.ofSource "<?php #[A] fn() => (int ) $a; /* b */ ?>\n<p><?= 1" = .ok parsed ∧
      parsed.errors = [] ∧
      annotate "<?php #[A] fn() => (int ) $a; /* b */ ?>\n<p><?= 1" parsed {} = .ok stream ∧
      stretches stream.items.toList = parsed.tokens.toList.flatMap
        (Token.stretches "<?php #[A] fn() => (int ) $a; /* b */ ?>\n<p><?= 1") := by
  have hparsed : (Parsed.ofSource "<?php #[A] fn() => (int ) $a; /* b */ ?>\n<p><?= 1").toOption.any
      (fun p => p.errors.isEmpty) = true := by decide +kernel
  obtain ⟨parsed, h, hparsed⟩ := exists_ok_of_any hparsed
  have herrors : parsed.errors = [] := by simpa using hparsed
  obtain ⟨stream, hstream, hpieces, -⟩ := annotate_leaves h herrors {}
  exact ⟨parsed, stream, h, herrors, hstream, hpieces⟩

end CodeLayout
