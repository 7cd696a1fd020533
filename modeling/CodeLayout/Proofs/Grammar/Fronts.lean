import CodeLayout.Proofs.Grammar.Growth

/-!
# How added trees begin

Some constructs have to begin with a tree that has a leaf (`Fronts`) or with one of a kind (`Heads`),
and those that recover from a problem have to leave none unmarked (`Guardable`).  The trees between
two signs of a pair hold none of either (`PairGrows`).
-/

namespace CodeLayout.Grammar

open List
open CodeLayout.Tree (Formed Orderly Led Headed leavesAll leavesAll_append leavesAll_cons
  leavesAll_nil leaves_branch sound_branch)

variable {input : Input} {A B : TokenKind → Prop} {ts us cs : List Tree} {t : Tree}
  {kind opening closing : TokenKind} {kindOf : Nat → Option TokenKind} {s : State} {h : Hole}

/-! ## Trees with leaves -/

/-- The tree has a leaf. -/
def Leafy (t : Tree) : Prop := t.leaves ≠ []

theorem leafy_of_isSign (h : t.IsSign kindOf kind) : Leafy t := by
  cases t with
  | leaf i w => simp [Leafy, Tree.leaves]
  | node k w cs => exact h.elim

theorem leafy_branch {kind : NodeKind} (ht : t ∈ cs) (h : Leafy t) : Leafy (.branch kind cs) := by
  obtain ⟨us, vs, rfl⟩ := append_of_mem ht
  rw [Leafy, leaves_branch, leavesAll_append, leavesAll_cons]
  intro hnil
  exact h (append_eq_nil_iff.mp (append_eq_nil_iff.mp hnil).2).1

theorem leafy_of_led {kind : NodeKind} (h : Led kindOf cs) : Leafy (.branch kind cs) := by
  obtain ⟨t, rest, _, rfl, hsign, -⟩ := h
  exact leafy_branch mem_cons_self (leafy_of_isSign hsign)

/-- Well-formed trees with leaves, as they stand in front of a declaration or make up a type. -/
structure Front (input : Input) (A : TokenKind → Prop) (ts : List Tree) : Prop where
  neat : Neat input A ts
  leafy : ∀ t ∈ ts, Leafy t

/-- The parse adds well-formed trees with leaves, and of kinds in the set outside of nodes. -/
def Fronts {α : Type} (A : TokenKind → Prop) (p : Parse α) : Prop :=
  Meets (fun input _ more _ => Front input A more) p

theorem front_nil : Front input A [] := ⟨neat_nil, forall_mem_nil _⟩

theorem Front.append (hts : Front input A ts) (hus : Front input A us) : Front input A (ts ++ us) :=
  ⟨neat_append.mpr ⟨hts.neat, hus.neat⟩, forall_mem_append.mpr ⟨hts.leafy, hus.leafy⟩⟩

theorem additive_front :
    Effect.Additive fun input _ more _ => Front input A more := ⟨front_nil, Front.append⟩

theorem front_sign (ht : t.IsSign input.kind? kind) (hA : A kind) : Front input A [t] :=
  ⟨neat_sign ht hA, forall_mem_singleton.mpr (leafy_of_isSign ht)⟩

theorem Front.branch {kind : NodeKind} (h : Front input A cs) (hkind : plain kind = true)
    (hne : cs ≠ []) :
    Front input B [.branch kind cs] := by
  obtain ⟨t, rest, rfl⟩ := exists_cons_of_ne_nil hne
  refine ⟨(sole_branch h.neat (formed_of_plain hkind _)).neat, ?_⟩
  exact forall_mem_singleton.mpr
    (leafy_branch mem_cons_self (h.leafy t mem_cons_self))

namespace Fronts

variable {α β : Type} {A : TokenKind → Prop}

variable {p : Parse α} {input : Input} {s : State} {kind : TokenKind}

theorem grows (hp : Fronts A p) : Grows A p := fun input s => (hp input s).mono fun _ _ h => h.neat

theorem pure {a : α} : Fronts A (pure a : Parse α) := Meets.pure additive_front

theorem bind {f : α → Parse β} (hp : Fronts A p) (hf : ∀ a, Fronts A (f a)) :
    Fronts A (p >>= f) := Meets.bind additive_front hp hf

theorem seq {q : Parse β} (hp : Fronts A p) (hq : Fronts A q) : Fronts A (p >>= fun _ => q) :=
  hp.bind fun _ => hq

theorem ite {c : Prop} [Decidable c] {q : Parse α} (hp : Fronts A p) (hq : Fronts A q) :
    Fronts A (if c then p else q) := Meets.ite hp hq

theorem cond {C : α → Prop} [∀ a, Decidable (C a)] {q r : Parse β} (hp : Fronts A p)
    (hq : Fronts A q) (hr : Fronts A r) : Fronts A (p >>= fun a => if C a then q else r) :=
  hp.bind fun _ => ite hq hr

theorem of_after_eq (hp : ∀ input s, after p input s = s) : Fronts A p :=
  Meets.of_after_eq additive_front hp

theorem cutOff : Fronts A cutOff := fun _ _ => Adds.cutOff.mono fun _ _ h => h.1 ▸ front_nil

theorem repeating {step : Parse Bool} (hstep : Fronts A step) : Fronts A (repeating step) :=
  Meets.repeating additive_front cutOff hstep

theorem report {cause : Cause} : Fronts A (report cause) :=
  fun _ _ => Adds.report.mono fun _ _ h => h.1 ▸ front_nil

theorem bump : Fronts anyLeaf bump := by
  intro input s
  refine Adds.bump.mono ?_
  rintro more _ (rfl | ⟨kind, t, rfl, ht⟩)
  · exact front_nil
  · exact front_sign ht trivial

/-- `bump` of a symbol that was seen adds something. -/
theorem adds_bump {rest : Parse α} (hseen : input.kind? s.position = some kind)
    (hrest : Fronts anyLeaf rest) :
    Adds input (fun more _ => Front input anyLeaf more ∧ more ≠ []) (do Grammar.bump; rest) s := by
  refine (Adds.bump_seen hseen).bind (hrest input _) ?_
  rintro _ us _ ⟨t, rfl, ht⟩ hus
  exact ⟨(front_sign ht trivial).append hus, cons_ne_nil _ _⟩

theorem eat : Fronts anyLeaf (eat kind) := cond (of_after_eq fun _ _ => rfl) (seq bump pure) pure

theorem expectAny {kinds : List TokenKind} : Fronts anyLeaf (expectAny kinds) := by
  refine bind (of_after_eq fun _ _ => rfl) fun kind => ?_
  cases kind with
  | none => exact report
  | some kind => exact ite bump report

/-- `repeating` adds something, if its first step does. -/
theorem adds_repeating {step : Parse Bool} (hstep : Fronts A step)
    (hfirst : Adds input (fun more _ => more ≠ []) step s) :
    Adds input (fun more _ => Front input A more ∧ more ≠ []) (Grammar.repeating step) s := by
  have hrest (again : Bool) : Fronts A
      (if again = true then repeatUpTo step input.symbols.size else Pure.pure () : Parse Unit) :=
    ite (Meets.repeatUpTo additive_front cutOff hstep _) pure
  have hsteps : Adds input (fun more _ => Front input A more ∧ more ≠ []) (do
      let again ← step
      if again = true then repeatUpTo step input.symbols.size else Pure.pure ()) s := by
    refine ((hstep input s).and hfirst).bind (hrest _ input _) ?_
    rintro ts us _ ⟨hts, hne⟩ hus
    exact ⟨hts.append hus, by simp [hne]⟩
  exact fun h start new hadd => hsteps h start new hadd

theorem since (hp : Fronts A p) :
    Since (fun input ts _ => Front input A ts) (fun input ts _ => Front input A ts) fun _ => p :=
  .of_adds fun input _ s hts => (hp input s).mono fun _ _ hus => hts.append hus

theorem marker {p : Nat → Parse α}
    (hp : Since (fun input ts _ => Front input A ts) (fun input ts _ => Front input A ts) p) :
    Fronts A (Grammar.marker >>= p) := fun _ _ => Adds.marker hp front_nil

/-- What was added since the marker becomes a part of a node with leaves. -/
theorem wrap {kind : NodeKind} {body : Parse Unit} {P : Input → Outcomes} (hkind : plain kind = true)
    (hP : ∀ input ts s, P input ts s → Front input anyLeaf ts)
    (hbody : ∀ input ts s b, P input ts s →
      Adds input (fun us _ => Front input anyLeaf us ∧ us ≠ []) body { s with builder := b }) :
    Since P (fun input ts _ => Front input A ts) fun since => Grammar.wrap since kind body := by
  refine (Since.wrap (R := fun input cs => Front input anyLeaf cs ∧ cs ≠ []) ?_
    fun _ cs _ => orderly_of_plain hkind cs).mono ?_
  · intro input ts s b hts
    refine (hbody input ts s b hts).mono ?_
    rintro us _ ⟨hus, hne⟩
    exact ⟨(hP input ts s hts).append hus, by simp [hne]⟩
  · rintro input _ _ ⟨cs, rfl, hcs, hne⟩
    exact hcs.branch hkind hne

end Fronts

/-! ## Trees with a head -/

/-- `Led` are trees of which the first is a sign. -/
theorem led_append (h : Led kindOf ts) : Led kindOf (ts ++ us) := by
  obtain ⟨t, rest, kind, rfl, ht⟩ := h
  exact ⟨t, rest ++ us, kind, rfl, ht⟩

theorem Adds.bump_led
    (hseen : input.kind? s.position = some kind) (hkind : kind ≠ .openTagWithEcho) :
    Adds input (fun more _ => Neat input anyLeaf more ∧ Led input.kind? more) Grammar.bump
      s := by
  refine (Adds.bump_seen hseen).mono ?_
  rintro more _ ⟨t, rfl, ht⟩
  exact ⟨neat_sign ht trivial, t, [], kind, rfl, ht, hkind⟩

/-- `eat` passes a symbol that was seen. -/
theorem Adds.eat_led
    (hseen : input.kind? s.position = some kind) (hkind : kind ≠ .openTagWithEcho) :
    Adds input (fun more _ => Neat input anyLeaf more ∧ Led input.kind? more) (eat kind)
      s := by
  refine Adds.look rfl ?_
  rw [answer_check, hseen, if_pos (beq_self_eq_true _)]
  exact (Adds.bump_led hseen hkind).thenPure

/-- `eat` does not pass a symbol of another kind. -/
theorem eat_eq_of_ne (hne : input.kind? s.position ≠ some kind) :
    after (eat kind) input s = s ∧ answer (eat kind) input s = false := by
  have hcheck : ¬ (answer (check kind) input s = true) := by simpa using hne
  constructor
  · show after (if answer (check kind) input s = true then _ else _) input s = s
    rw [if_neg hcheck]
    rfl
  · show answer (if answer (check kind) input s = true then _ else _) input s = false
    rw [if_neg hcheck]
    rfl

/-- `node` with a body that starts with a sign. -/
theorem Adds.led {kind : NodeKind} {body : Parse Unit} (hkind : leads kind = true)
    (hbody : Adds input (fun cs _ => Neat input anyLeaf cs ∧ Led input.kind? cs) body
      { s with builder := s.builder.start kind }) :
    Adds input (fun more _ => Sole input more ∧ ∀ t ∈ more, t.isKind kind = true ∧ Leafy t)
      (Grammar.node kind body) s := by
  refine (hbody.node fun cs _ _ => orderly_of_leads hkind cs).mono ?_
  rintro more _ ⟨cs, _, rfl, hcs, hled⟩
  refine ⟨sole_branch hcs (formed_of_leads hkind hled), forall_mem_singleton.mpr ⟨?_, ?_⟩⟩
  · exact beq_self_eq_true _
  · exact leafy_of_led hled

/-- `node` that starts with the symbol that was seen. -/
theorem Adds.led_bump {token : TokenKind} {kind : NodeKind} {rest : Parse Unit}
    (hkind : leads kind = true) (hseen : input.kind? s.position = some token)
    (htoken : token ≠ .openTagWithEcho) (hrest : Grows anyLeaf rest) :
    Adds input (fun more _ => Sole input more ∧ ∀ t ∈ more, t.isKind kind = true ∧ Leafy t)
      (Grammar.node kind do Grammar.bump; rest) s := by
  have hbump : Adds input (fun more _ => Neat input anyLeaf more ∧ Led input.kind? more)
      Grammar.bump { s with builder := s.builder.start kind } := Adds.bump_led hseen htoken
  refine Adds.led hkind (hbump.bind (hrest input _) ?_)
  exact fun _ _ _ h1 h2 => ⟨neat_append.mpr ⟨h1.1, h2⟩, led_append h1.2⟩

variable {P : Tree → Prop}

theorem headed_append (hts : Headed P ts) (hus : Headed P us) : Headed P (ts ++ us) := by
  cases ts with
  | nil => exact hus
  | cons t ts => exact hts

/-- The parse adds well-formed trees with a head. -/
def Heads {α : Type} (P : Tree → Prop) (p : Parse α) : Prop :=
  Meets (fun input _ more _ => Neat input anyLeaf more ∧ Headed P more) p

theorem additive_heads :
    Effect.Additive fun input _ more _ => Neat input anyLeaf more ∧ Headed P more :=
  ⟨⟨neat_nil, nofun⟩, fun h1 h2 => ⟨neat_append.mpr ⟨h1.1, h2.1⟩, headed_append h1.2 h2.2⟩⟩

theorem Front.headed (h : Front input A ts) : Headed P ts :=
  fun t ht => .inl (h.leafy t (mem_of_head? ht))

theorem headed_of_led (h : Led kindOf ts) : Headed P ts := by
  obtain ⟨t, rest, _, rfl, hsign, -⟩ := h
  rintro _ ⟨⟩
  exact .inl (leafy_of_isSign hsign)

namespace Heads

variable {α β : Type}

variable {p : Parse α}

theorem of_fronts (hp : Fronts anyLeaf p) : Heads P p :=
  fun input s => (hp input s).mono fun _ _ h => ⟨h.neat, h.headed⟩

theorem bind {f : α → Parse β} (hp : Heads P p) (hf : ∀ a, Heads P (f a)) :
    Heads P (p >>= f) := Meets.bind additive_heads hp hf

theorem seq {q : Parse β} (hp : Heads P p) (hq : Heads P q) : Heads P (p >>= fun _ => q) :=
  hp.bind fun _ => hq

theorem ite {c : Prop} [Decidable c] {q : Parse α} (hp : Heads P p) (hq : Heads P q) :
    Heads P (if c then p else q) := Meets.ite hp hq

theorem cond {C : α → Prop} [∀ a, Decidable (C a)] {q r : Parse β} (hp : Heads P p)
    (hq : Heads P q) (hr : Heads P r) : Heads P (p >>= fun a => if C a then q else r) :=
  hp.bind fun _ => ite hq hr

theorem repeating {step : Parse Bool} (hstep : Heads P step) : Heads P (repeating step) :=
  Meets.repeating additive_heads (of_fronts .cutOff) hstep

/-- `eat` of a sign, behind which anything may follow. -/
theorem ifEat {kind : TokenKind} {p : Parse Unit} (hkind : kind ≠ .openTagWithEcho)
    (hp : Grows anyLeaf p) :
    Heads P (eat kind >>= fun found => if found = true then p else Pure.pure ()) := by
  intro input s
  by_cases hseen : input.kind? s.position = some kind
  · refine (Adds.eat_led hseen hkind).bind (Grows.ite hp .pure input _) fun ts us _ h1 h2 => ⟨?_, ?_⟩
    · exact neat_append.mpr ⟨h1.1, h2⟩
    · exact headed_of_led (led_append h1.2)
  · obtain ⟨hafter, hanswer⟩ := eat_eq_of_ne hseen
    refine Adds.look hafter ?_
    rw [hanswer]
    exact Meets.pure additive_heads input s

end Heads

/-! ## Recovery -/

/-- Nothing but a well-formed node was added, or there is a problem that no node marks yet. -/
def Guardable (input : Input) (ts : List Tree) (s : State) : Prop :=
  Sole input ts ∨ s.wrapped < s.problems.size

/-- A parse whose additions since a marker can be guarded. -/
def GuardableSince {α : Type} (p : Nat → Parse α) : Prop :=
  Since (fun input ts _ => Front input anyLeaf ts) (fun input ts s => Guardable input ts s) p

theorem GuardableSince.bind {α β : Type} {p : Parse α} {f : Nat → α → Parse β}
    (hp : Fronts anyLeaf p) (hf : ∀ a, GuardableSince fun since => f since a) :
    GuardableSince fun since => p >>= f since := Since.bind hp.since hf

theorem GuardableSince.seq {α β : Type} {p : Parse α} {q : Nat → Parse β} (hp : Fronts anyLeaf p)
    (hq : GuardableSince q) : GuardableSince fun since => p >>= fun _ => q since :=
  .bind hp fun _ => hq

theorem GuardableSince.wrap {kind : NodeKind} {body : Parse Unit} (hkind : plain kind = true)
    (hbody : Grows anyLeaf body) : GuardableSince fun since => wrap since kind body := by
  refine (Since.wrap_plain hkind (fun _ _ _ h => h.neat) hbody).mono ?_
  rintro input ts s ⟨cs, rfl, hcs⟩
  exact .inl (sole_branch hcs (formed_of_plain hkind cs))

/-- `unexpected` reports a problem that lies in no node yet. -/
theorem GuardableSince.unexpected {expected : Expected} :
    GuardableSince fun _ => unexpected expected := by
  intro input s h start new hadd _
  obtain ⟨more, hmore, -⟩ := Grows.unexpected (A := anyLeaf) input s h start new hadd
  refine ⟨new ++ more, hmore, .inr ?_⟩
  have := hadd.wrapped_le
  show s.wrapped < (s.problems.push _).size
  rw [Array.size_push]
  omega

theorem GuardableSince.adds {parse : Nat → Parse Unit} (h : GuardableSince parse) (input : Input)
    (s : State) : Adds input (Guardable input) (marker >>= parse) s := Adds.marker h front_nil

theorem GrowsNode.guardable {parse : Parse Unit} (h : GrowsNode parse) (input : Input) (s : State) :
    Adds input (Guardable input) parse s := (h input s).mono fun _ _ hsole => .inl hsole

/-- The last step of a guarded parse: if there is a problem that no node marks yet, everything since
the marker is put into one. -/
def closeGuard (since : Nat) : Parse Unit := do
  let s ← get
  if s.problems.size > s.wrapped then
    wrap since .error (pure ())
    modify fun s => { s with wrapped := s.problems.size }

theorem after_guarded (parse : Parse Unit) (input : Input) (s : State) :
    after (guarded parse) input s =
      if (after parse input s).position == s.position && !answer atEnd input (after parse input s)
      then after (closeGuard s.builder.marker) input
        (after bump input (after (unexpected .statement) input (after parse input s)))
      else after (closeGuard s.builder.marker) input (after parse input s) := by
  show after (if _ then _ else _) input _ = _
  split
  · next h => exact Eq.trans rfl (if_pos h).symm
  · next h => exact Eq.trans rfl (if_neg h).symm

/-- What a guarded parse leaves behind: one node or nothing, and no problem outside of an error
node. -/
def Settled (input : Input) (ts : List Tree) (s : State) : Prop :=
  Sole input ts ∧ s.wrapped = s.problems.size

theorem sole_error : Sole input [.branch .error cs] := by
  refine ⟨lone_branch, fun t ht => ?_⟩
  rw [mem_singleton.mp ht, sound_branch]
  exact .inl rfl

theorem Added.closeGuard {start : Nat} (hadd : Added input h start ts s)
    (hguard : Guardable input ts s) :
    ∃ ts', Added input h start ts' (after (closeGuard h.children.size) input s) ∧
      Settled input ts' (after (closeGuard h.children.size) input s) := by
  have hget : after (Grammar.closeGuard h.children.size) input s =
      after (if s.problems.size > s.wrapped then do
          wrap h.children.size .error (pure ())
          modify fun s => { s with wrapped := s.problems.size }
        else pure ()) input s := rfl
  rw [hget]
  split
  · have hwrap : Since (fun _ _ _ => True) (fun _ ts _ => ∃ cs, ts = [.branch .error cs] ∧ True)
        fun since => wrap since .error (pure ()) :=
      .wrap (fun _ _ _ _ _ => Adds.pure.mono fun _ _ _ => trivial)
        fun _ cs _ => orderly_of_plain rfl cs
    obtain ⟨ts', hts, cs, rfl, -⟩ := hwrap input s h start ts hadd trivial
    have hlength := hts.length_leaves
    rw [leavesAll_cons, leaves_branch, leavesAll_nil, append_nil] at hlength
    exact ⟨_, hts.congr rfl rfl (hts.noted.error hlength), sole_error, rfl⟩
  · next hle =>
    -- all problems are wrapped already, so what was added is a node
    exact ⟨ts, hadd, hguard.resolve_right hle, Nat.le_antisymm hadd.wrapped_le (Nat.not_lt.mp hle)⟩

theorem position_closeGuard (since : Nat) (input : Input) (s : State) :
    (after (closeGuard since) input s).position = s.position := by
  show (after (if s.problems.size > s.wrapped then do
      wrap since .error (pure ())
      modify fun s => { s with wrapped := s.problems.size }
    else pure ()) input s).position = s.position
  split
  · rfl
  · rfl

/-- One node or nothing that was `Added` while a symbol was passed has a leaf. -/
theorem Added.leafy {start : Nat} (hadd : Added input h start ts s) (hlone : Lone ts)
    (hlt : start < s.position) :
    ∀ t ∈ ts, Leafy t := by
  intro t ht hnil
  obtain ⟨u, rfl⟩ := length_eq_one_iff.mp
    (Nat.le_antisymm hlone.1 (length_pos_of_mem ht))
  have hlength := hadd.length_leaves
  rw [leavesAll_cons, leavesAll_nil, ← mem_singleton.mp ht, hnil] at hlength
  simp only [append_nil, length_nil] at hlength
  omega

/-- `guarded` settles all problems, if the parse itself adds one node or reports a problem; and it
passes a symbol, if there is one. -/
theorem adds_guarded {parse : Parse Unit}
    (hparse : ∀ input s, Adds input (Guardable input) parse s) (input : Input) (s : State) :
    Adds input (fun ts s' => Settled input ts s' ∧
      (s.position < input.symbols.size → ∀ t ∈ ts, Leafy t)) (guarded parse) s := by
  intro h start new hadd
  have hmark : s.builder.marker = (h.children ++ new.toArray).size := by
    rw [hadd.marker_eq]
    simp
  obtain ⟨ts, hts, hguard⟩ := hparse input s _ _ _ hadd.here
  rw [after_guarded, hmark]
  split
  · next hsame =>
    -- nothing was passed: the problem that is reported lies in no node yet
    have hskip : Grows anyLeaf (do unexpected .statement; bump) := .seq .unexpected .bump
    obtain ⟨us, hus, -⟩ := hskip input _ _ _ _ hts
    have hproblem : Guardable input ([] ++ ts ++ us)
        (after (do unexpected .statement; bump) input (after parse input s)) := by
      refine .inr ?_
      have hw := hts.wrapped_le
      show (after bump input _).wrapped < (after bump input _).problems.size
      rw [(after_bump _ _).1, (after_bump _ _).2]
      show (after parse input s).wrapped < ((after parse input s).problems.push _).size
      rw [Array.size_push]
      omega
    obtain ⟨ts', hts', hsettled⟩ := hus.closeGuard hproblem
    refine ⟨ts', hadd.trans hts', hsettled, fun hlt => hts'.leafy hsettled.1.lone ?_⟩
    have hpos : (after parse input s).position = s.position :=
      eq_of_beq (Bool.and_eq_true_iff.mp hsame).1
    rw [position_closeGuard]
    show s.position < (if (after parse input s).position < _ then _ else _ : State).position
    rw [if_pos (hpos ▸ hlt), hpos]
    exact Nat.lt_succ_self _
  · next hmoved =>
    obtain ⟨ts', hts', hsettled⟩ := hts.closeGuard hguard
    refine ⟨ts', hadd.trans hts', hsettled, fun hlt => hts'.leafy hsettled.1.lone ?_⟩
    rw [position_closeGuard]
    refine Nat.lt_of_le_of_ne hts.start_le fun hpos => hmoved ?_
    obtain ⟨kind, hkind⟩ := exists_kind? (hpos ▸ hlt)
    rw [answer_atEnd, hkind, ← hpos]
    simp

theorem grows_guarded {parse : Parse Unit}
    (hparse : ∀ input s, Adds input (Guardable input) parse s) : GrowsNode (guarded parse) :=
  fun input s => (adds_guarded hparse input s).mono fun _ _ h => h.1.1

/-! ## Parses without guards -/

/-- Nothing was wrapped, and what was added is well formed unless a problem was reported. -/
structure Calm (input : Input) (s : State) (ts : List Tree) (s' : State) : Prop where
  wrapped : s'.wrapped = s.wrapped
  size_le : s.problems.size ≤ s'.problems.size
  sound : s'.problems.size = s.problems.size → ∀ t ∈ ts, t.Sound (Formed input.kind?)

theorem additive_calm : Effect.Additive Calm where
  nil := ⟨rfl, Nat.le_refl _, fun _ => forall_mem_nil _⟩
  append h1 h2 := by
    refine ⟨h2.wrapped.trans h1.wrapped, Nat.le_trans h1.size_le h2.size_le, fun heq => ?_⟩
    have hle := h1.size_le
    have hle' := h2.size_le
    exact forall_mem_append.mpr ⟨h1.sound (by omega), h2.sound (by omega)⟩

/-- What is `Calm` is a well-formed node, or a problem that no node marks yet. -/
theorem Calm.guardable {s' : State} (h : Calm input s ts s') (hs : s.wrapped ≤ s.problems.size)
    (hlone : Lone ts) : Guardable input ts s' := by
  by_cases heq : s'.problems.size = s.problems.size
  · exact .inl ⟨hlone, h.sound heq⟩
  · have hle := h.size_le
    rw [Guardable, h.wrapped]
    exact .inr (by omega)

section Calm

variable {α : Type} {p : Parse α}

theorem calm_look (hp : ∀ input s, after p input s = s) : Meets Calm p :=
  .of_after_eq additive_calm hp

theorem calm_bump : Meets Calm bump := fun input s => (Grows.bump input s).imp fun _ h =>
  ⟨(after_bump input s).2, Nat.le_of_eq (by rw [(after_bump input s).1]), fun _ => h.sound⟩

theorem calm_report {cause : Cause} : Meets Calm (report cause) := by
  intro input s
  refine Adds.report.mono ?_
  rintro _ _ ⟨rfl, rfl⟩
  exact ⟨rfl, by simp, fun _ => forall_mem_nil _⟩

theorem calm_cutOff : Meets Calm cutOff := by
  intro input s
  refine Adds.cutOff.mono ?_
  rintro _ _ ⟨rfl, rfl⟩
  exact ⟨rfl, Nat.le_refl _, fun _ => forall_mem_nil _⟩

theorem calm_repeating {step : Parse Bool} (hstep : Meets Calm step) : Meets Calm (repeating step) :=
  .repeating additive_calm calm_cutOff hstep

variable {kind : TokenKind}

theorem calm_eat : Meets Calm (eat kind) :=
  .bind additive_calm (calm_look fun _ _ => rfl) fun _ =>
    .ite (.bind additive_calm calm_bump fun _ => .pure additive_calm) (.pure additive_calm)

/-- `expect` passes a sign, or misses and reports it. -/
theorem adds_expect_led (hkind : kind ≠ .openTagWithEcho) (input : Input) (s : State) :
    Adds input (fun ts s' => Calm input s ts s' ∧
      (s'.problems.size = s.problems.size → Led input.kind? ts)) (expect kind) s := by
  refine Adds.look rfl ?_
  rw [answer_peek]
  have hmissed (cause : Cause) : Adds input (fun ts s' => Calm input s ts s' ∧
      (s'.problems.size = s.problems.size → Led input.kind? ts)) (report cause) s := by
    refine Adds.imp (calm_report input s) fun ts h => ⟨h, fun heq => ?_⟩
    have hpush : (s.problems.push _).size = s.problems.size := heq
    rw [Array.size_push] at hpush
    omega
  cases hseen : input.kind? s.position with
  | none => exact hmissed _
  | some found =>
    simp only
    split
    · next hmem =>
      obtain rfl : found = kind := by simpa using hmem
      refine ((calm_bump input s).and (Adds.bump_led hseen hkind)).mono ?_
      exact fun _ _ h => ⟨h.1, fun _ => h.2.2⟩
    · exact hmissed _

theorem calm_expect (hkind : kind ≠ .openTagWithEcho) : Meets Calm (expect kind) :=
  fun input s => (adds_expect_led hkind input s).mono fun _ _ h => h.1

theorem calm_expectMemberName : Meets Calm expectMemberName := by
  refine .bind additive_calm (calm_look fun _ _ => rfl) fun kind => ?_
  cases kind with
  | none => exact calm_expect (by decide)
  | some kind => exact .ite calm_bump (calm_expect (by decide))

theorem calm_expectEnd : Meets Calm expectEnd := by
  refine .bind additive_calm calm_eat fun _ => .ite (.pure additive_calm) ?_
  exact .bind additive_calm (calm_look fun _ _ => rfl) fun _ =>
    .ite (.pure additive_calm) (calm_expect (by decide))

theorem calm_commaSeparated {parse : Parse Unit} (hparse : Meets Calm parse) :
    Meets Calm (commaSeparated parse) :=
  .bind additive_calm hparse fun _ => calm_repeating (.bind additive_calm calm_eat fun _ =>
    .ite (.bind additive_calm hparse fun _ => .pure additive_calm) (.pure additive_calm))

theorem calm_itemsUntil {close : TokenKind} {item : Parse Unit} (hitem : Meets Calm item) :
    Meets Calm (itemsUntil close item) := by
  refine calm_repeating (.bind additive_calm (calm_look fun _ _ => rfl) fun _ => ?_)
  refine .bind additive_calm (calm_look fun _ _ => rfl) fun _ => .ite (.pure additive_calm) ?_
  exact .bind additive_calm hitem fun _ => calm_eat

theorem calm_node {kind : NodeKind} {body : Parse Unit} (hkind : plain kind = true)
    (hbody : Meets Calm body) :
    Meets (fun input s ts s' => Calm input s ts s' ∧ Lone ts) (node kind body) := by
  intro input s
  refine ((hbody input _).node fun cs _ _ => orderly_of_plain hkind cs).mono ?_
  rintro _ s' ⟨cs, _, rfl, h⟩
  refine ⟨⟨h.wrapped, h.size_le, fun heq t ht => ?_⟩, lone_branch⟩
  rw [mem_singleton.mp ht, sound_branch]
  exact .inr ⟨formed_of_plain hkind cs, h.sound heq⟩

/-- A node that starts with a sign, unless it is missed. -/
theorem calm_node_led {kind : NodeKind} {sign : TokenKind} {rest : Parse Unit}
    (hkind : leads kind = true) (hsign : sign ≠ .openTagWithEcho) (hrest : Meets Calm rest) :
    Meets Calm (node kind do expect sign; rest) := by
  intro input s
  have hbody : Adds input (fun cs s' => Calm input s cs s' ∧
      (s'.problems.size = s.problems.size → Led input.kind? cs)) (do expect sign; rest)
      { s with builder := s.builder.start kind } := by
    refine (adds_expect_led hsign input { s with builder := s.builder.start kind }).bind
      (hrest input _) fun ts us s' h1 h2 => ⟨?_, fun heq => ?_⟩
    · have h := additive_calm.append h1.1 h2
      exact ⟨h.wrapped, h.size_le, h.sound⟩
    · have hle := h1.1.size_le
      have hle' := h2.size_le
      exact led_append (h1.2 (Nat.le_antisymm (by simp only at heq ⊢; omega) hle))
  refine (hbody.node fun cs _ _ => orderly_of_leads hkind cs).mono ?_
  rintro _ s' ⟨cs, _, rfl, h, hled⟩
  refine ⟨h.wrapped, h.size_le, fun heq t ht => ?_⟩
  rw [mem_singleton.mp ht, sound_branch]
  exact .inr ⟨formed_of_leads hkind (hled heq), h.sound heq⟩

end Calm

/-! ## Pairs of signs -/

/-- Closing signs come after opening ones: they are all in the second of two parts, which has no
opening one. -/
def Parted (input : Input) (opening closing : TokenKind) (ts : List Tree) : Prop :=
  ∃ us vs, ts = us ++ vs ∧ Neat input (· ≠ closing) us ∧ Neat input (· ≠ opening) vs

theorem Bare.not_isSign (h : Bare input (· ≠ kind) ts) (ht : t ∈ ts) :
    ¬ t.IsSign input.kind? kind := by
  intro hsign
  obtain hnode | ⟨kind', hsign', hne⟩ := h t ht
  · cases t with
    | leaf i w => exact absurd hnode (by simp [Tree.isNode, Tree.kind?])
    | node k w cs => exact hsign
  · exact hne (hsign'.unique hsign)

theorem Parted.neat (h : Parted input opening closing ts) : Neat input anyLeaf ts := by
  obtain ⟨us, vs, rfl, hus, hvs⟩ := h
  exact neat_append.mpr ⟨hus.mono fun _ _ => trivial, hvs.mono fun _ _ => trivial⟩

theorem Parted.paired (h : Parted input opening closing ts) :
    Tree.Paired input.kind? opening closing ts := by
  obtain ⟨us, vs, rfl, hus, hvs⟩ := h
  refine pairwise_append.mpr ⟨?_, ?_, ?_⟩
  · exact pairwise_of_forall_mem_list fun a ha _ _ hab => hus.bare.not_isSign ha hab.1
  · exact pairwise_of_forall_mem_list fun _ _ b hb hab => hvs.bare.not_isSign hb hab.2
  · exact fun a ha _ _ hab => hus.bare.not_isSign ha hab.1

theorem Parted.append_left
    (hts : Neat input (· ≠ closing) ts) (h : Parted input opening closing us) :
    Parted input opening closing (ts ++ us) := by
  obtain ⟨vs, ws, rfl, hvs, hws⟩ := h
  exact ⟨ts ++ vs, ws, by rw [append_assoc], neat_append.mpr ⟨hts, hvs⟩, hws⟩

theorem Parted.append_right (h : Parted input opening closing ts)
    (hus : Neat input (· ≠ opening) us) :
    Parted input opening closing (ts ++ us) := by
  obtain ⟨vs, ws, rfl, hvs, hws⟩ := h
  exact ⟨vs, ws ++ us, by rw [append_assoc], hvs, neat_append.mpr ⟨hws, hus⟩⟩

/-- The parse adds closing signs only after opening ones. -/
def PairGrows (opening closing : TokenKind) (p : Parse Unit) : Prop :=
  Meets (fun input _ more _ => Parted input opening closing more) p

namespace PairGrows

variable {α : Type} {opening closing : TokenKind}

variable {p : Parse Unit}

theorem of_grows (hp : Grows (· ≠ opening) p) : PairGrows opening closing p :=
  fun input s => (hp input s).mono fun more _ h => ⟨[], more, rfl, neat_nil, h⟩

theorem bind {p : Parse α} {f : α → Parse Unit} (hp : Grows (· ≠ closing) p)
    (hf : ∀ a, PairGrows opening closing (f a)) : PairGrows opening closing (p >>= f) := by
  intro input s
  exact (hp input s).bind (hf _ input _) fun _ _ _ hts hus => hus.append_left hts

theorem seq {p : Parse α} {q : Parse Unit} (hp : Grows (· ≠ closing) p)
    (hq : PairGrows opening closing q) : PairGrows opening closing (p >>= fun _ => q) :=
  .bind hp fun _ => hq

theorem bind_grows {f : Unit → Parse Unit} (hp : PairGrows opening closing p)
    (hf : Grows (· ≠ opening) (f ())) : PairGrows opening closing (p >>= f) := by
  intro input s
  exact (hp input s).bind (hf input _) fun _ _ _ hts hus => hts.append_right hus

theorem ite {c : Prop} [Decidable c] {q : Parse Unit} (hp : PairGrows opening closing p)
    (hq : PairGrows opening closing q) : PairGrows opening closing (if c then p else q) :=
  Meets.ite hp hq

/-- A node of its own, with the signs in order. -/
theorem node {kind : NodeKind} {body : Parse Unit} (opening closing : TokenKind)
    (hkind : ∀ kindOf cs, Tree.Paired kindOf opening closing cs →
      Orderly kindOf kind cs ∧ Formed kindOf kind cs)
    (hbody : PairGrows opening closing body) : GrowsNode (Grammar.node kind body) := by
  intro input s
  refine Adds.mono (Adds.sole ((hbody input _).mono fun _ _ h => ⟨h.neat, h.paired⟩)
    fun cs _ h => hkind _ cs h) ?_
  rintro more _ ⟨cs, -, h⟩
  exact h

end PairGrows

end CodeLayout.Grammar
