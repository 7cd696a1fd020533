import CodeLayout.Proofs.Annotate.Groups
import CodeLayout.Proofs.Stream.Between

/-!
# Signs behind their marks

The mark before the operator of a member, the role of the gap before it and the operator follow each
other in the items, whatever the style and the comments in front of the operator (`Seated`).  All
three come from one step: the two marks are queued one behind the other, the queue is flushed at the
leaf behind all trivia, and then the leaf is emitted.
-/

namespace CodeLayout

open List

theorem ItemKind.isOperator_of_isNeutral {kind : ItemKind} (h : kind.isNeutral = true) :
    kind.isOperator = false := by
  cases kind <;> first | rfl | cases h

theorem Pair.isOperator_opening {style : Style} (p : Pair style) : p.opening.isOperator = false := by
  cases p <;> rfl

theorem Pair.isOperator_closing {style : Style} (p : Pair style) : p.closing.isOperator = false := by
  cases p <;> rfl

/-- Behind every mark before an operator come the role of its gap and the operator. -/
def Seated (kinds : List ItemKind) : Prop :=
  ∀ front m behind, kinds = front ++ .align m :: behind →
    ∃ opKind rest, behind = .role (.beforeOp opKind) :: .text :: rest

namespace Seated

variable {ks ls : List ItemKind}

theorem append (h : Seated ks) (hls : Seated ls) : Seated (ks ++ ls) := by
  intro front m behind heq
  rcases append_eq_append_iff.mp heq with ⟨as, rfl, hls'⟩ | ⟨bs, rfl, hcons⟩
  · exact hls as m behind hls'
  · cases bs with
    | nil => exact hls [] m behind (by simpa using hcons.symm)
    | cons b bs =>
      obtain ⟨rfl, rfl⟩ := List.cons.inj hcons
      obtain ⟨opKind, rest, rfl⟩ := h front m bs rfl
      exact ⟨opKind, rest ++ ls, rfl⟩

/-- `Seated` without a mark before an operator. -/
theorem of_none (h : ∀ k ∈ ks, k.isOperator = false) : Seated ks := by
  rintro front m behind rfl
  have := h (.align m) (by simp)
  cases this

theorem sign (m : MemberRef) (opKind : OpKind) :
    Seated [.align m, .role (.beforeOp opKind), .text] := by
  intro front m' behind heq
  rcases cons_eq_append_iff.mp heq with ⟨rfl, hcons⟩ | ⟨as, rfl, hrest⟩
  · obtain ⟨-, rfl⟩ := List.cons.inj hcons
    exact ⟨opKind, [], rfl⟩
  · have hmem : ItemKind.align m' ∈ [ItemKind.role (.beforeOp opKind), .text] := by
      rw [hrest]
      simp
    simp at hmem

end Seated

namespace Annotate

/-! ## Trivia in front of a leaf -/

/-- Neutral items are added and marks from the queue that lead; the others wait on. -/
structure Passes (s s' : State) : Prop where
  added : ∃ ks, s'.kinds = s.kinds ++ ks ∧
    ∀ k ∈ ks, k.isNeutral = true ∨ ∃ p ∈ s.pending, p.lead = true ∧ p.kind = k
  pending : s'.pending ⊆ s.pending
  others : s'.pending.filter (·.lead == false) = s.pending.filter (·.lead == false)

section Passing

variable {c : Context} {i : Nat}

theorem Passes.refl (s : State) : Passes s s :=
  ⟨⟨[], (append_nil _).symm, forall_mem_nil _⟩, List.Subset.refl _, rfl⟩

variable {s : State}

theorem Passes.trans {s₁ s₂ : State} (h : Passes s s₁) (h' : Passes s₁ s₂) : Passes s s₂ := by
  obtain ⟨ks, hks, hadded⟩ := h.added
  obtain ⟨ls, hls, hadded'⟩ := h'.added
  refine ⟨⟨ks ++ ls, by rw [hls, hks, append_assoc], ?_⟩,
    List.Subset.trans h'.pending h.pending, h'.others.trans h.others⟩
  refine forall_mem_append.mpr ⟨hadded, fun k hk => ?_⟩
  refine (hadded' k hk).imp_right fun ⟨p, hp, hlead⟩ => ⟨p, h.pending hp, hlead⟩

theorem passes_flushLead {seen : Seen} {o : Nat} : Relates c Passes (flushLead seen o) := by
  refine .ite (fun s a s' hrun => ?_) fun s a s' hrun => Looks.pure s a s' hrun ▸ .refl s
  cases hrun
  refine ⟨⟨(s.pending.filter (·.lead == true)).map Pending.kind, ?_, ?_⟩, ?_, ?_⟩
  · simp [State.kinds, partition_eq_filter_filter, Item.mark, Function.comp_def]
  · refine forall_mem_map.mpr fun p hp => .inr ⟨p, mem_of_mem_filter hp, ?_, rfl⟩
    simpa using (mem_filter.mp hp).2
  · simp [partition_eq_filter_filter]
  · simp [partition_eq_filter_filter]

theorem chains_passes : Chains c Passes where
  refl := .refl
  trans := .trans
  push hj := by
    intro s a s' hrun
    cases hrun
    refine ⟨⟨_, State.kinds_push s _, ?_⟩, List.Subset.refl _, rfl⟩
    exact forall_mem_singleton.mpr (.inl hj)
  flushLead := passes_flushLead

/-- `trivia` puts the marks that do not lead behind all trivia. -/
theorem Runs.kinds_trivia {s' : State} (h : Runs c (trivia i) s () s') :
    (∃ ks, s'.kinds = s.kinds ++ ks ++ (s.pending.filter (·.lead == false)).map Pending.kind ∧
      ∀ k ∈ ks, k.isNeutral = true ∨ ∃ p ∈ s.pending, p.lead = true ∧ p.kind = k) ∧
      ∀ p ∈ s'.pending, p ∈ s.pending ∧ p.lead = true := by
  obtain ⟨ts, s₁, htake, h⟩ := h.of_bind
  obtain ⟨-, -, rfl⟩ := htake.takeUntil
  obtain ⟨seen, s₂, hfold, h⟩ := h.of_bind
  obtain ⟨here, s₃, hoffset, hrest⟩ := h.of_bind
  obtain rfl := looks_offset _ _ _ hoffset
  obtain ⟨⟨⟩, s₄, hlead, hflush⟩ := hrest.of_bind
  have hpasses := (chains_passes.foldlM _ _ _ hfold).trans (passes_flushLead _ _ _ hlead)
  obtain ⟨ks, hks, hadded⟩ := hpasses.added
  have hothers : s₄.pending.filter (·.lead == false) = s.pending.filter (·.lead == false) :=
    hpasses.others
  cases hflush
  refine ⟨⟨ks, ?_, hadded⟩, fun p hp => ?_⟩
  · rw [← hothers, ← show s₄.kinds = s.kinds ++ ks from hks]
    simp [State.kinds, partition_eq_filter_filter, Item.mark, Function.comp_def]
  · simp only [partition_eq_filter_filter, mem_filter] at hp
    exact ⟨hpasses.pending hp.1, by simpa using hp.2⟩

end Passing

/-! ## Signs -/

section Signs

variable {c : Context} {s s' : State} {i : Nat}

/-- `leaf` of a sign emits one text behind its trivia. -/
theorem Runs.of_sign (h : Runs c (leaf i) s () s')
    (hi : isBinding (c.token i).kind = true) :
    ∃ s₁, Runs c (trivia i) s () s₁ ∧ s'.kinds = s₁.kinds ++ [.text] ∧ s'.pending = s₁.pending := by
  obtain ⟨⟨⟩, s₁, htrivia, h⟩ := h.of_bind
  obtain ⟨t, s₂, htake, h⟩ := h.of_bind
  obtain ⟨ht, rfl⟩ := htake.take
  have hkind : isBinding t.kind = true := by
    rwa [Context.token, Array.getD_eq_getD_getElem?, ht, Option.getD_some] at hi
  refine ⟨s₁, htrivia, ?_⟩
  split at h
  · next hcast => rw [hcast] at hkind; cases hkind
  · next hattribute => rw [hattribute] at hkind; cases hkind
  · next hecho => rw [hecho] at hkind; cases hkind
  · cases h
    exact ⟨State.kinds_push _ _, rfl⟩

end Signs

/-! ## Seats -/

/-- All marks before operators are in their places, and none of them waits. -/
structure Seats (s : State) : Prop where
  kinds : Seated s.kinds
  pending : ∀ p ∈ s.pending, p.kind.isOperator = false

namespace Seats

variable {c : Context} {s s' : State} {ps qs : List (Pair c.style)}

/-- `Seats` with more items without marks before operators. -/
theorem emit (h : Seats s) {ks : List ItemKind} (hkinds : s'.kinds = s.kinds ++ ks)
    (hks : ∀ k ∈ ks, k.isOperator = false) (hpending : s'.pending ⊆ s.pending) : Seats s' where
  kinds := hkinds ▸ h.kinds.append (.of_none hks)
  pending := fun p hp => h.pending p (hpending hp)

theorem queue (h : Seats s) {p : Pending} (hkinds : s'.kinds = s.kinds)
    (hpending : s'.pending = s.pending ++ [p]) (hp : p.kind.isOperator = false) : Seats s' where
  kinds := hkinds ▸ h.kinds
  pending := by
    rw [hpending]
    exact forall_mem_append.mpr ⟨h.pending, forall_mem_singleton.mpr hp⟩

theorem move (hmove : Move s s' ps qs) (h : Seats s) : Seats s' := by
  cases hmove with
  | keep hkinds hpending => exact ⟨hkinds ▸ h.kinds, hpending ▸ h.pending⟩
  | emit hkind hkinds hpending =>
    exact h.emit hkinds (forall_mem_singleton.mpr (ItemKind.isOperator_of_isNeutral hkind))
      (hpending ▸ List.Subset.refl _)
  | queue hp hkinds hpending => exact h.queue hkinds hpending (ItemKind.isOperator_of_isNeutral hp)
  | flush lead hkinds hpending =>
    refine h.emit hkinds (forall_mem_map.mpr fun p hp => ?_) ?_
    · exact h.pending p (mem_of_mem_filter hp)
    · rw [hpending]
      exact filter_subset_self _
  | start p hkinds hpending =>
    exact h.emit hkinds (forall_mem_singleton.mpr p.isOperator_opening)
      (hpending ▸ List.Subset.refl _)
  | stop p hkinds hpending =>
    exact h.emit hkinds (forall_mem_singleton.mpr p.isOperator_closing)
      (hpending ▸ List.Subset.refl _)
  | stopLater p b hkinds hpending => exact h.queue hkinds hpending p.isOperator_closing

theorem path (hpath : Path (fun s s' => Seats s → Seats s') ps s qs s') : Seats s → Seats s' := by
  induction hpath with
  | refl => exact id
  | move hmove _ _ => exact fun h => h.move hmove
  | call hR => exact hR
  | swap _ ih => exact ih
  | trans _ _ ih ih' => exact ih' ∘ ih

/-- `Seats` for a sign behind the mark before it. -/
theorem sign {i : Nat} {m : MemberRef} {opKind : OpKind}
    (hi : isBinding (c.token i).kind = true)
    (hrun : Runs c (do queueMember .align (some m); op i opKind) s () s') (h : Seats s) :
    Seats s' := by
  obtain ⟨⟨⟩, s₁, hqueue, hrun⟩ := hrun.of_bind
  obtain ⟨b, rfl⟩ := Runs.queue hqueue
  obtain ⟨⟨⟩, s₂, hbefore, hrun⟩ := hrun.of_bind
  obtain ⟨b', rfl⟩ := Runs.queue hbefore
  obtain ⟨⟨⟩, s₃, hleaf, hrole⟩ := hrun.of_bind
  obtain ⟨s₄, htrivia, hkinds, hpending⟩ := hleaf.of_sign hi
  obtain ⟨hkinds', hpending', -⟩ := hrole.mark
  obtain ⟨⟨ks, hks, hadded⟩, hleads⟩ := htrivia.kinds_trivia
  -- only the two marks of this sign have been queued
  have hqueued (p : Pending) (hp : p ∈ s.pending ++ [⟨.align m, false, b⟩] ++
      [⟨.role (.beforeOp opKind), false, b'⟩]) (hlead : p.lead = true) : p ∈ s.pending := by
    simp only [mem_append, mem_singleton] at hp
    rcases hp with (hp | rfl) | rfl
    · exact hp
    · cases hlead
    · cases hlead
  have hothers : ∀ k ∈ ks ++ (s.pending.filter (·.lead == false)).map Pending.kind,
      k.isOperator = false := by
    refine forall_mem_append.mpr ⟨fun k hk => ?_, forall_mem_map.mpr fun p hp => ?_⟩
    · rcases hadded k hk with hneutral | ⟨p, hp, hlead, rfl⟩
      · exact ItemKind.isOperator_of_isNeutral hneutral
      · exact h.pending p (hqueued p hp hlead)
    · exact h.pending p (mem_of_mem_filter hp)
  refine ⟨?_, fun p hp => ?_⟩
  · have heq : s'.kinds =
        s.kinds ++ (ks ++ (s.pending.filter (·.lead == false)).map Pending.kind) ++
          ([.align m, .role (.beforeOp opKind), .text] ++ [.role (.afterOp opKind)]) := by
      rw [hkinds', hkinds, hks]
      simp [State.kinds]
    rw [heq]
    refine (h.kinds.append (.of_none hothers)).append ((Seated.sign m opKind).append (.of_none ?_))
    exact forall_mem_singleton.mpr rfl
  · rw [hpending', hpending] at hp
    obtain ⟨hp, hlead⟩ := hleads p hp
    exact h.pending p (hqueued p hp hlead)

end Seats

theorem admits_seats (c : Context) : Admits c fun s s' => Seats s → Seats s' where
  path := Seats.path
  regroup := by
    intro s s' hitems hpending h
    have hkinds : s'.kinds = s.kinds := congrArg (·.toList.map Item.kind) hitems
    exact ⟨hkinds ▸ h.kinds, hpending ▸ h.pending⟩
  start := by
    intro member s a s' hrun h
    cases member with
    | none => cases hrun; exact h
    | some m => cases hrun; exact h.queue rfl rfl rfl
  sign := by
    intro member i opKind hi
    cases member with
    | none =>
      have hop : Lays c (fun s s' => Seats s → Seats s') [i] [] [] (op i opKind) :=
        lays_between rfl rfl
      exact hop.relates fun _ _ hpath => Seats.path hpath
    | some m => exact fun s a s' hrun => Seats.sign hi hrun

end Annotate

/-- The stream that `annotate` answers for a source without syntax problems is `Seated`: the role of
the gap and the operator come right behind every mark before an operator. -/
theorem seated_of_annotate {source : String} {xs : List Lexeme} {style : Style}
    {stream : ItemStream}
    (herrors : (Parsed.ofTokens (placed xs)).errors = [])
    (h : annotate source (Parsed.ofTokens (placed xs)) style = .ok stream) :
    Seated stream.kinds := by
  obtain ⟨w, cs, s, hroot, hrun, rfl⟩ := runs_of_annotate h
  have hwhole := Parsed.whole_of_errors herrors
  rw [hroot] at hwhole
  have hpath := (Annotate.path_program ((Annotate.admits_seats _).keeps_visitTree _) hwhole hrun).1
  exact (Annotate.Seats.path hpath ⟨.of_none (forall_mem_nil _), forall_mem_nil _⟩).kinds

end CodeLayout
