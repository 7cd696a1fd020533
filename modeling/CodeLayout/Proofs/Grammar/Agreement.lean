import CodeLayout.Proofs.Grammar.Productions

/-!
# Parses of the same symbols

What a parse does depends on the symbols ahead of it and on nothing else.  So where two inputs end
in the same symbols, parses that are built alike answer the same from there on, and add the same
trees up to the place of the symbols, as long as the first of them reports nothing
(`Alike.agrees`).  On the way, what is known of the nodes that the rules make is known of all nodes.
-/

namespace CodeLayout

open List

/-! ## Trees since a spot -/

namespace Tree

/-- The tree over symbols that stand later. -/
def later (k : Nat) : Tree → Tree := relabel fun i => (i + k, 1)

theorem later_branch (k : Nat) (kind : NodeKind) (cs : List Tree) :
    (branch kind cs).later k = branch kind (cs.map (later k)) := by
  rw [later, branch, relabel, relabelAll_eq_map]

/-- A spot in the innermost open node, behind the children that it has there. -/
structure Spot where
  kind : NodeKind
  children : Array Tree
  around : List Frame

namespace Spot

/-- The spot behind more children. -/
def behind (spot : Spot) (ts : List Tree) : Spot :=
  { spot with children := spot.children ++ ts.toArray }

/-- The spot at the start of a node that is opened there. -/
def inside (spot : Spot) (kind : NodeKind) : Spot :=
  ⟨kind, #[], ⟨spot.kind, spot.children⟩ :: spot.around⟩

end Spot

namespace Builder

variable {b : Builder} {spot : Spot} {ts us : List Tree} {kind : NodeKind}

/-- Since the spot, the trees were added. -/
def Has (b : Builder) (spot : Spot) (ts : List Tree) : Prop :=
  b.frames = ⟨spot.kind, spot.children ++ ts.toArray⟩ :: spot.around

theorem has_behind : b.Has (spot.behind ts) us ↔ b.Has spot (ts ++ us) := by
  simp [Has, Spot.behind]

namespace Has

section

variable (h : b.Has spot ts)
include h

theorem behind : b.Has (spot.behind ts) [] :=
  has_behind.mpr ((append_nil ts).symm ▸ h)

theorem unique (h' : b.Has spot us) : ts = us := by
  have hframes := h.symm.trans h'
  simpa [Array.append_right_inj] using congrArg (List.map Frame.children) hframes

theorem marker : b.marker = (spot.behind ts).children.size := by
  rw [Builder.marker, h]
  rfl

theorem token (i w : Nat) : (b.token i w).Has spot (ts ++ [.leaf i w]) := by
  rw [Builder.token, Has, h, attach]
  simp

theorem start (kind : NodeKind) : (b.start kind).Has ((spot.behind ts).inside kind) [] := by
  rw [Builder.start, Has, h]
  simp [Spot.inside, Spot.behind]

theorem startAt (kind : NodeKind) :
    (b.startAt spot.children.size kind).Has (spot.inside kind) ts := by
  rw [Builder.startAt, Has, h]
  simp [Spot.inside]

end

theorem finish (h : b.Has (spot.inside kind) ts) : b.finish.1.Has spot [.branch kind ts] := by
  rw [Builder.finish, h, Has]
  simp [Spot.inside, attach]

end Has

end Builder

/-- The nodes among the trees are of the kinds in `N`, and `W` holds of all nodes. -/
def Good (W : NodeKind → List Tree → Prop) (N : NodeKind → Prop) (ts : List Tree) : Prop :=
  ∀ t ∈ ts, t.Every W ∧ ∀ kind, t.kind? = some kind → N kind

namespace Good

variable {W : NodeKind → List Tree → Prop} {N N' : NodeKind → Prop} {ts us : List Tree}

theorem nil : Good W N [] := nofun

theorem append (hts : Good W N ts) (hus : Good W N us) : Good W N (ts ++ us) :=
  forall_mem_append.mpr ⟨hts, hus⟩

theorem mono (h : Good W N ts) (hN : ∀ kind, N kind → N' kind) : Good W N' ts :=
  fun t ht => ⟨(h t ht).1, fun kind hkind => hN kind ((h t ht).2 kind hkind)⟩

theorem leaf {i w : Nat} : Good W N [.leaf i w] :=
  forall_mem_singleton.mpr ⟨trivial, nofun⟩

theorem branch {kind : NodeKind} (hW : W kind ts) (hN : N kind) (h : Good W N' ts) :
    Good W N [.branch kind ts] := by
  refine forall_mem_singleton.mpr ⟨every_branch.mpr ⟨hW, fun t ht => (h t ht).1⟩, ?_⟩
  rintro _ ⟨⟩
  exact hN

end Good

end Tree

namespace Grammar

open CodeLayout.Tree (Spot Good)

/-! ## Agreement -/

/-- The symbols of the first input are those of the second from a position on. -/
structure Later (A B : Input) (k : Nat) : Prop where
  rest : ∀ i, A.rest i = B.rest (i + k)
  endClosed : A.endClosed = B.endClosed

theorem Later.refl (A : Input) : Later A A 0 := ⟨fun _ => rfl, rfl⟩

/-- Since the spots, the same trees were added to both, up to the place of the symbols. -/
structure Beside (k : Nat) (here there : Spot) (ts : List Tree) (s t : State) : Prop where
  has : s.builder.Has here ts
  later : t.builder.Has there (ts.map (Tree.later k))
  position : t.position = s.position + k
  clean : Clean t

/-- Where the kinds of the symbols ahead are the given ones and the first parse reports nothing, both
answer the same and add the same trees, and what is known of these stays so.  They may take over what
was added since the markers. -/
def Agrees {α : Type} (A B : Input) (k : Nat) (W : NodeKind → List Tree → Prop)
    (N : NodeKind → Prop) (kinds : List TokenKind) (m n : Nat) (p q : Parse α) : Prop :=
  ∀ s t, A.kindsAt s.position = kinds → Clean (after p A s) → Clean s ∧
    ∀ here there ts, here.children.size = m → there.children.size = n →
      Beside k here there ts s t → Good W N ts → answer p A s = answer q B t ∧
        ∃ ts', Beside k here there ts' (after p A s) (after q B t) ∧ Good W N ts'

section Agreement

variable {α β : Type} {A B : Input} {k m n : Nat} {W : NodeKind → List Tree → Prop}
  {N : NodeKind → Prop} {kinds : List TokenKind} {here there : Spot} {ts : List Tree} {s t : State}

namespace Later

theorem kindsAt (h : Later A B k) (i : Nat) : B.kindsAt (i + k) = A.kindsAt i := by
  rw [Input.kindsAt, Input.kindsAt, h.rest]

theorem kind? (h : Later A B k) (i : Nat) : B.kind? (i + k) = A.kind? i := by
  rw [← kindsAt_head?, h.kindsAt, kindsAt_head?]

theorem size_le (h : Later A B k) : A.symbols.size ≤ B.symbols.size := by
  have hlength := congrArg List.length (h.rest 0)
  simp only [Input.rest, length_drop, Array.length_toList] at hlength
  omega

end Later

namespace Beside

theorem behind (h : Beside k here there ts s t) :
    Beside k (here.behind ts) (there.behind (ts.map (Tree.later k))) [] s t :=
  ⟨h.has.behind, h.later.behind, h.position, h.clean⟩

theorem of_behind {us : List Tree}
    (h : Beside k (here.behind ts) (there.behind (ts.map (Tree.later k))) us s t) :
    Beside k here there (ts ++ us) s t := by
  refine ⟨Tree.Builder.has_behind.mp h.has, ?_, h.position, h.clean⟩
  rw [map_append]
  exact Tree.Builder.has_behind.mp h.later

/-- `finish` of the nodes that both have opened at the spots. -/
theorem finish {kind : NodeKind} (h : Beside k (here.inside kind) (there.inside kind) ts s t) :
    Beside k here there [.branch kind ts] { s with builder := s.builder.finish.1 }
      { t with builder := t.builder.finish.1 } := by
  refine ⟨h.has.finish, ?_, h.position, h.clean⟩
  rw [map_singleton, Tree.later_branch]
  exact h.later.finish

end Beside

namespace Agrees

theorem pure {x : α} : Agrees A B k W N kinds m n (pure x) (pure x) :=
  fun _ _ _ hclean => ⟨hclean, fun _ _ ts _ _ hts hgood => ⟨rfl, ts, hts, hgood⟩⟩

variable {p q : Parse α} {kind : TokenKind}

theorem bind {F G : α → Parse β} (hp : Agrees A B k W N kinds m n p q)
    (hF : ∀ s, A.kindsAt s.position = kinds → Agrees A B k W N (A.kindsAt (after p A s).position) m n
      (F (answer p A s)) (G (answer p A s))) :
    Agrees A B k W N kinds m n (p >>= F) (q >>= G) := by
  intro s t hkinds hclean
  rw [after_bind] at hclean ⊢
  obtain ⟨hmid, hnext⟩ := hF s hkinds _ (after q B t) rfl hclean
  obtain ⟨hs, hfirst⟩ := hp s t hkinds hmid
  refine ⟨hs, fun here there ts hm hn hts hgood => ?_⟩
  obtain ⟨hanswer, ts', hts', hgood'⟩ := hfirst here there ts hm hn hts hgood
  rw [answer_bind, answer_bind, after_bind, ← hanswer]
  exact hnext here there ts' hm hn hts' hgood'

theorem look (hlater : Later A B k) (hp : Looks p) : Agrees A B k W N kinds m n p p := by
  intro s t _ hclean
  rw [hp.same] at hclean ⊢
  refine ⟨hclean, fun here there ts _ _ hts hgood => ⟨?_, ts, ?_, hgood⟩⟩
  · refine hp.ahead ?_ hlater.endClosed
    rw [hts.position]
    exact hlater.rest _
  · rwa [hp.same]

theorem ite {c : Prop} [Decidable c] {p' q' : Parse α} (hp : c → Agrees A B k W N kinds m n p p')
    (hq : ¬ c → Agrees A B k W N kinds m n q q') :
    Agrees A B k W N kinds m n (if c then p else q) (if c then p' else q') := by
  split
  · next hc => exact hp hc
  · next hc => exact hq hc

section

variable (hlater : Later A B k)
include hlater

theorem bump (hseen : kinds.head? = some kind) : Agrees A B k W N kinds m n bump bump := by
  intro s t hkinds hclean
  have hA : A.kind? s.position = some kind := by rw [← kindsAt_head?, hkinds, hseen]
  rw [after_bump_seen hA] at hclean ⊢
  refine ⟨hclean, fun here there ts _ _ hts hgood =>
    ⟨rfl, ts ++ [.leaf s.position 1], ?_, hgood.append .leaf⟩⟩
  have hB : B.kind? t.position = some kind := by rw [hts.position, hlater.kind?, hA]
  rw [after_bump_seen hB]
  refine ⟨hts.has.token _ _, ?_, ?_, hts.clean⟩
  · rw [map_append, hts.position]
    exact hts.later.token _ _
  · rw [hts.position]
    exact Nat.add_right_comm ..

theorem expect : Agrees A B k W N kinds m n (expect kind) (expect kind) := by
  intro s t hkinds hclean
  obtain ⟨hseen, hafter⟩ := expect_clean hclean
  rw [hafter] at hclean ⊢
  have hhead : kinds.head? = some kind := by rw [← hkinds, kindsAt_head?, hseen]
  obtain ⟨hs, hadd⟩ := Agrees.bump hlater hhead s t hkinds hclean
  refine ⟨hs, fun here there ts hm hn hts hgood => ?_⟩
  rw [after_expect_seen (by rw [hts.position, hlater.kind?, hseen])]
  exact hadd here there ts hm hn hts hgood

theorem opens {p : Parse Unit} (hopen : Opens kinds p) : Agrees A B k W N kinds m n p p := by
  rcases hopen with rfl | ⟨rfl, hhead⟩
  · exact .expect hlater
  · exact .bump hlater hhead

/-- `skipBraces` with a smaller bound is enough where nothing is cut off. -/
theorem skipBraces {i j : Nat} (hle : i ≤ j) (depth : Nat) :
    Agrees A B k W N kinds m n (skipBraces i depth) (skipBraces j depth) := by
  induction i generalizing j depth kinds with
  | zero => exact fun _ _ _ hclean => absurd hclean not_clean_cutOff
  | succ i ih =>
    obtain ⟨j, rfl⟩ : ∃ j', j = j' + 1 := ⟨j - 1, by omega⟩
    have hpass (depth' : Nat) {kind : TokenKind} (hseen : kinds.head? = some kind) :
        Agrees A B k W N kinds m n (Grammar.bump >>= fun _ => Grammar.skipBraces i depth')
          (Grammar.bump >>= fun _ => Grammar.skipBraces j depth') :=
      .bind (.bump hlater hseen) fun _ _ => ih (by omega) depth'
    refine .bind (.look hlater looks_peek) fun s hkinds => ?_
    rw [looks_peek.same, answer_peek, hkinds, ← kindsAt_head?, hkinds]
    split
    · exact .pure
    · next hseen => exact hpass _ hseen
    · next hseen =>
      refine .ite (fun _ => .pure) fun _ => hpass _ hseen
    · next hseen => exact hpass _ hseen

theorem repeating {step step' : Parse Bool}
    (hstep : ∀ kinds', Agrees A B k W N kinds' m n step step') :
    Agrees A B k W N kinds m n (repeating step) (repeating step') := by
  have hloop (i : Nat) : ∀ j ≥ i, ∀ kinds',
      Agrees A B k W N kinds' m n (repeatUpTo step i) (repeatUpTo step' j) := by
    induction i with
    | zero => exact fun _ _ _ _ _ _ hclean => absurd hclean not_clean_cutOff
    | succ i ih =>
      intro j hle kinds'
      obtain ⟨j, rfl⟩ : ∃ j', j = j' + 1 := ⟨j - 1, by omega⟩
      exact .bind (hstep kinds') fun _ _ => .ite (fun _ => ih j (by omega) _) fun _ => .pure
  exact hloop (A.symbols.size + 1) (B.symbols.size + 1) (by have := hlater.size_le; omega) kinds

theorem guarded {p q : Parse Unit} (h : Agrees A B k W N kinds m n p q) :
    Agrees A B k W N kinds m n (guarded p) (guarded q) := by
  intro s t hkinds hclean
  obtain ⟨hp, hmoved⟩ := guarded_clean hclean
  rw [after_guarded_clean hp hmoved]
  obtain ⟨hs, hagree⟩ := h s t hkinds hp
  refine ⟨hs, fun here there ts hm hn hts hgood => ?_⟩
  obtain ⟨-, ts', hts', hgood'⟩ := hagree here there ts hm hn hts hgood
  rw [after_guarded_clean hts'.clean fun hsame => ?_]
  · exact ⟨rfl, ts', hts', hgood'⟩
  · rw [hts'.position, hlater.kind?]
    rw [hts'.position, hts.position] at hsame
    exact hmoved (Nat.add_right_cancel hsame)

end

end Agrees

end Agreement

variable {A B : Input} {k m n depth depth' : Nat} {calls : Bool} {kinds : List TokenKind}

/-- Parses that are `Alike` agree where the rules do. Of the nodes of calls that operands make, more
than of other nodes may be asked. -/
theorem Alike.agrees {α : Type} {f g : Rules} {W : NodeKind → List Tree → Prop}
    {N : NodeKind → Prop} {p q : Parse α} (h : Alike f g calls N kinds m n p q)
    (hlater : Later A B k) (hW : ∀ kind cs, (kind = .callExpr → calls = true) → W kind cs)
    (hrule : ∀ rule kinds m n, Agrees A B k W rule.makes kinds m n (f rule) (g rule))
    (hoperand : calls = false →
      ∀ kinds m n, Agrees A B k W anyNode kinds m n (Grammar.operand f) (Grammar.operand g)) :
    Agrees A B k W N kinds m n p q := by
  induction h with
  | pure x => exact .pure
  | look hp h ih =>
    refine .bind (.look hlater hp) fun s hkinds => ?_
    rw [hp.same, hkinds]
    exact ih _ ⟨A, s, hkinds, rfl⟩ hW hoperand
  | next hkind h ih =>
    refine .bind (.bump hlater rfl) fun s hkinds => ?_
    have hseen := (kindsAt_head? A s.position).symm.trans (congrArg List.head? hkinds)
    rw [after_bump_seen hseen, ← kindsAt_tail, hkinds]
    exact ih hW hoperand
  | braced hopen h ih =>
    exact .bind (.opens hlater hopen) fun _ _ => .bind (ih _ hW hoperand) fun _ _ => .expect hlater
  | skipped =>
    refine .bind (.bump hlater rfl) fun _ _ => .bind (p := skipInside) ?_ fun _ _ => .expect hlater
    exact .skipBraces hlater (Nat.succ_le_succ hlater.size_le) 1
  | bind hp h ihp ih => exact .bind (ihp hW hoperand) fun _ _ => ih _ _ hW hoperand
  | of_eq hp hq h ih =>
    intro s t hkinds hclean
    have hA := hp A s hkinds
    rw [after, hA] at hclean ⊢
    obtain ⟨hs, hagree⟩ := ih hW hoperand s t hkinds hclean
    refine ⟨hs, fun here there ts hm hn hts hgood => ?_⟩
    have hB := hq B t (by rw [hts.position, hlater.kindsAt, hkinds])
    rw [answer, hA, answer, after, hB]
    exact hagree here there ts hm hn hts hgood
  | refuses hp => exact fun s _ hkinds hclean => absurd hclean (hp A s hkinds)
  | @nodeOf _ _ _ _ _ kind _ _ hmade hkind h ih =>
    intro s t hkinds hclean
    obtain ⟨hs, hagree⟩ := ih hW hoperand { s with builder := s.builder.start kind }
      { t with builder := t.builder.start kind } hkinds hclean
    refine ⟨hs, fun here there ts _ _ hts hgood => ⟨rfl, ?_⟩⟩
    obtain ⟨-, cs, hcs, hgood'⟩ := hagree _ _ [] rfl rfl
      ⟨hts.has.start kind, hts.later.start kind, hts.position, hts.clean⟩ .nil
    exact ⟨_, hcs.finish.of_behind, hgood.append (.branch (hW _ _ hkind) hmade hgood')⟩
  | @wrapOf _ _ _ m n kind _ _ hmade hkind h ih =>
    intro s t hkinds hclean
    obtain ⟨hs, hagree⟩ := ih hW hoperand { s with builder := s.builder.startAt m kind }
      { t with builder := t.builder.startAt n kind } hkinds hclean
    refine ⟨hs, fun here there ts hm hn hts hgood => ⟨rfl, ?_⟩⟩
    subst hm hn
    obtain ⟨-, cs, hcs, hgood'⟩ := hagree _ _ ts rfl rfl
      ⟨hts.has.startAt kind, hts.later.startAt kind, hts.position, hts.clean⟩
      (hgood.mono fun _ _ => trivial)
    exact ⟨_, hcs.finish, .branch (hW _ _ hkind) hmade hgood'⟩
  | marker h ih =>
    intro s t hkinds hclean
    obtain ⟨hs, hagree⟩ := ih s.builder.marker t.builder.marker hW hoperand s t hkinds hclean
    refine ⟨hs, fun here there ts _ _ hts hgood => ?_⟩
    obtain ⟨hanswer, us, hus, hgood'⟩ := hagree _ _ [] hts.has.marker.symm hts.later.marker.symm
      hts.behind .nil
    exact ⟨hanswer, ts ++ us, hus.of_behind, hgood.append hgood'⟩
  | repeating h ih => exact .repeating hlater fun _ => ih _ hW hoperand
  | guarded h ih => exact .guarded hlater (ih hW hoperand)
  | ruleOf rule hmade =>
    intro s t hkinds hclean
    refine ⟨(hrule rule _ 0 0 s t hkinds hclean).1, fun here there ts _ _ hts hgood => ?_⟩
    obtain ⟨hanswer, us, hus, hgood'⟩ := (hrule rule _ _ _ s t hkinds hclean).2 _ _ [] rfl rfl
      hts.behind .nil
    exact ⟨hanswer, ts ++ us, hus.of_behind, hgood.append (hgood'.mono hmade)⟩
  | operand h _ => exact hoperand rfl _ _ _

/-! ## Whole parses -/

/-- `Rule.run` agrees for all rules, if the bound on the second is no smaller. -/
theorem agrees_run (hlater : Later A B k) (hle : depth ≤ depth') (rule : Rule)
    (kinds : List TokenKind) (m n : Nat) :
    Agrees A B k (fun _ _ => True) rule.makes kinds m n (Rule.run depth rule)
      (Rule.run depth' rule) := by
  induction depth generalizing depth' rule kinds m n with
  | zero => exact fun _ _ _ hclean => absurd hclean not_clean_cutOff
  | succ depth ih =>
    obtain ⟨depth', rfl⟩ : ∃ d, depth' = d + 1 := ⟨depth' - 1, by omega⟩
    exact (rule.alike_body : Alike _ _ true _ _ m n _ _).agrees hlater (fun _ _ _ => trivial)
      (ih (by omega)) nofun

theorem alike_statements :
    Alike (Rule.run depth) (Rule.run depth') calls anyNode kinds m n (statements depth)
      (statements depth') :=
  .repeating fun _ => .look looks_atEnd fun _ _ => .ite (fun _ => .pure false) fun _ =>
    .bind alike_statement fun _ _ => .pure true

/-- The spot at the start of a program. -/
def root : Spot := ⟨.program, #[], []⟩

theorem tree_of_has {input : Input} {ts : List Tree} (h : (finalState input).builder.Has root ts) :
    (parse input).tree = .branch .program ts := by
  show (finalState input).builder.finish.2.getD _ = _
  rw [Tree.Builder.finish, h]
  simp [root]

end Grammar

end CodeLayout
