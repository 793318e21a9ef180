import AtomicMovers.Proofs.Assembly

/-!
# Disciplined bodies

What is asked of the bodies of actions in the base program: parameters and locals are different
variables and no globals, commands do not mention the prior state (`AtomicAction.Disciplined`), and
variables bound by quantifiers are none of these and occur under their quantifiers only (`Hygienic`).

Both copies of an action inherit this from the body (`InheritedFrom`), since renaming to new variables
brings in new variables only. So the primary copy of one action and the shadow copy of another are
ready for symbolic execution (`transitionReady`), and their runs do not depend on where they started
(`completes_iff_finishes`). What is needed of two actions side by side is a `DisciplinedPair`.

All conditions can be checked. The module ends with a program, an account, that meets them.
-/

namespace AtomicMovers

open Program

/-- The body of the action keeps to the rules in the base program. -/
@[mk_iff]
structure AtomicAction.Disciplined (base : Program) (a : AtomicAction) : Prop where
  nodup : a.primary.vars.Nodup
  notGlobal : ∀ v ∈ a.primary.vars, v ∉ base.globals
  oldFree : ∀ c ∈ a.primary.commands base, c.OldFree

/-- Every block of the body ends in a goto or returns a value. -/
def AtomicAction.ReturnsValues (base : Program) (a : AtomicAction) : Prop :=
  ∀ b ∈ a.primary.blocks, (base.block b).transfer ≠ .leave

/-- The body assigns globals and variables of its own only. -/
def AtomicAction.AssignsDeclared (base : Program) (a : AtomicAction) : Prop :=
  ∀ c ∈ a.primary.commands base, ∀ v ∈ c.targets, v ∈ base.globals ∨ v ∈ a.primary.vars

section Check

variable (base : Program) (a : AtomicAction)

instance : Decidable (a.Disciplined base) :=
  decidable_of_iff _ (AtomicAction.disciplined_iff base a).symm

instance : Decidable (a.ReturnsValues base) :=
  inferInstanceAs (Decidable (∀ b ∈ a.primary.blocks, (base.block b).transfer ≠ .leave))

instance : Decidable (a.AssignsDeclared base) :=
  inferInstanceAs (Decidable (∀ c ∈ a.primary.commands base, ∀ v ∈ c.targets,
    v ∈ base.globals ∨ v ∈ a.primary.vars))

end Check

/-! ## What copies inherit -/

/-- All that the command mentions comes from commands in `cs`, or is new since `base`. -/
structure InheritedFrom (base : Program) (cs : List (Command Expr)) (d : Command Expr) : Prop where
  oldFree : (∀ c ∈ cs, c.OldFree) → d.OldFree
  binds : ∀ x, d.Binds x → ∃ c ∈ cs, c.Binds x
  reads : ∀ x, base.HasVar x → d.Reads x → ∃ c ∈ cs, c.Reads x
  writes : ∀ x, base.HasVar x → d.Writes x → ∃ c ∈ cs, c.Writes x

section Inherited

variable {base p : Program} {a : AtomicAction} {cs : List (Command Expr)}

theorem InheritedFrom.mono {cs' : List (Command Expr)} (h : ∀ c ∈ cs, c ∈ cs') {d : Command Expr}
    (hd : InheritedFrom base cs d) : InheritedFrom base cs' d where
  oldFree hcs := hd.oldFree fun c hc => hcs c (h c hc)
  binds x hx := (hd.binds x hx).imp fun c hc => ⟨h c hc.1, hc.2⟩
  reads x hb hx := (hd.reads x hb hx).imp fun c hc => ⟨h c hc.1, hc.2⟩
  writes x hb hx := (hd.writes x hb hx).imp fun c hc => ⟨h c hc.1, hc.2⟩

theorem inherited_primary (hbase : base.Closed) (hbp : base.Grows Block.Softens p)
    (h : a.BuiltIn base p) : ∀ d ∈ a.primary.commands p,
      InheritedFrom base (a.primary.commands base) d := by
  intro d hd
  obtain ⟨c, hc, hcd⟩ := exists_primary_command hbase hbp h hd
  refine ⟨fun hcs => ?_, fun x hx => ?_, fun x _ hx => ?_, fun x _ hx => ?_⟩
  · rw [Command.OldFree, hcd.exprs_eq]
    exact hcs c hc
  · rw [Command.Binds, hcd.exprs_eq] at hx
    exact ⟨c, hc, hx⟩
  · rw [Command.Reads, hcd.exprs_eq] at hx
    exact ⟨c, hc, hx⟩
  · rw [Command.Writes, hcd.targets_eq] at hx
    exact ⟨c, hc, hx⟩

/-- The shadow variables are new since `base`. -/
theorem not_hasVar_of_mem_shadow (h : a.BuiltIn base p) : ∀ v ∈ a.shadow.vars, ¬base.HasVar v := by
  obtain ⟨made, _, hbm, hm⟩ := h.mirrors
  exact fun v hv hb => hm.vars.fresh v hv (hbm.within.hasVar hb)

theorem inherited_shadow (hbase : base.Closed) (h : a.BuiltIn base p) :
    ∀ d ∈ a.shadow.commands p, InheritedFrom base (a.primary.commands base) d := by
  intro d hd
  obtain ⟨c, hc, hcd⟩ := exists_shadow_command hbase h hd
  -- a new name is no variable of the base program
  have new {x : VarRef} (hx : x ∈ (a.primary.vars.zip a.shadow.vars).map Prod.snd) :
      ¬base.HasVar x := by
    obtain ⟨u, hu, rfl⟩ := List.mem_map.1 hx
    exact not_hasVar_of_mem_shadow h u.2 (List.of_mem_zip hu).2
  refine ⟨fun hcs => ?_, fun x hx => ?_, fun x hb hx => ?_, fun x hb hx => ?_⟩
  · rw [Command.OldFree, hcd.exprs_eq]
    exact (hcs c hc).rename
  · rw [Command.Binds, hcd.exprs_eq] at hx
    exact ⟨c, hc, Command.Binds.of_rename hx⟩
  · rw [Command.Reads, hcd.exprs_eq] at hx
    rcases Command.Reads.of_rename hx with hx | hx
    · exact ⟨c, hc, hx.1⟩
    · exact absurd hb (new hx)
  · rw [Command.Writes, hcd.targets_eq] at hx
    rcases Command.Writes.of_rename hx with hx | hx
    · exact ⟨c, hc, hx.1⟩
    · exact absurd hb (new hx)

/-- The conjuncts of the gate are expressions of the body. -/
theorem exists_command_of_gate (hbase : base.Closed) (hbp : base.Grows Block.Softens p)
    (h : a.BuiltIn base p) : ∀ e ∈ a.primary.gate, ∃ c ∈ a.primary.commands base,
      p.expr e ∈ c.exprs := by
  intro e he
  obtain ⟨b, hb, c, hc, hec⟩ := h.gate_mem e he
  refine ⟨c.map base.expr, List.mem_flatMap.2 ⟨b, hb, List.mem_map.2 ⟨c, hc, rfl⟩⟩, ?_⟩
  rw [hbp.expr_eq hbase (h.gate e he), Command.exprs_map]
  exact List.mem_map.2 ⟨e, hec, rfl⟩

/-- The gate of a disciplined action does not mention the prior state. -/
theorem oldFree_gate (hbase : base.Closed) (hbp : base.Grows Block.Softens p) (h : a.BuiltIn base p)
    (d : a.Disciplined base) : ∀ e ∈ a.primary.gate, (p.expr e).OldFree := by
  intro e he
  obtain ⟨c, hc, hec⟩ := exists_command_of_gate hbase hbp h e he
  exact d.oldFree c hc _ hec

/-- What the base program binds is among its variables. -/
theorem hasVar_of_binds (hbase : base.Closed) (blocks : List BlockRef) {c : Command Expr}
    (hc : c ∈ blocks.flatMap base.commands) {x : VarRef} (hx : c.Binds x) : base.HasVar x := by
  obtain ⟨b, _, hc⟩ := List.mem_flatMap.1 hc
  obtain ⟨c', _, rfl⟩ := List.mem_map.1 hc
  obtain ⟨e, he, hx⟩ := hx
  rw [Command.exprs_map] at he
  obtain ⟨r, _, rfl⟩ := List.mem_map.1 he
  exact hbase.varsBelow_expr r x (.inr hx)

end Inherited

/-! ## Readiness for symbolic execution -/

section

variable (base : Program) (first : Option AtomicAction) (second : AtomicAction)

/-- The commands of the bodies of both actions. -/
def bodyCommands : List (Command Expr) :=
  (first.map fun a => a.primary.commands base).getD [] ++ second.primary.commands base

/-- The globals and the variables of both actions. -/
def declaredVars : List VarRef :=
  base.globals ++ (first.map fun a => a.primary.vars).getD [] ++ second.primary.vars

/-- The blocks of the two copies that a relation is about. -/
def transitionBlocks : List BlockRef :=
  second.shadow.blocks ++ (first.map fun a => a.primary.blocks).getD []

end

/-- Two actions made so far, the first of which may be missing, that keep to the rules side by
side. -/
structure DisciplinedPair (base : Program) (actions : List AtomicAction)
    (first : Option AtomicAction) (second : AtomicAction) : Prop where
  first_mem : ∀ a ∈ first, a ∈ actions
  second_mem : second ∈ actions
  first_disciplined : ∀ a ∈ first, a.Disciplined base
  second_disciplined : second.Disciplined base
  hygienic : Hygienic (declaredVars base first second) (bodyCommands base first second)

section Pair

variable {base : Program} {actions : List AtomicAction} {first second : AtomicAction}

theorem DisciplinedPair.ofActions (hf : first ∈ actions) (hs : second ∈ actions)
    (df : first.Disciplined base) (ds : second.Disciplined base)
    (hygienic : Hygienic (base.globals ++ first.primary.vars ++ second.primary.vars)
      (first.primary.commands base ++ second.primary.commands base)) :
    DisciplinedPair base actions (some first) second where
  first_mem := by
    rintro a ⟨⟩
    exact hf
  second_mem := hs
  first_disciplined := by
    rintro a ⟨⟩
    exact df
  second_disciplined := ds
  hygienic := hygienic

/-- What both keep to, the second keeps to alone. -/
theorem DisciplinedPair.alone (h : DisciplinedPair base actions (some first) second) :
    DisciplinedPair base actions none second where
  first_mem := by simp
  second_mem := h.second_mem
  first_disciplined := by simp
  second_disciplined := h.second_disciplined
  hygienic := by
    refine h.hygienic.mono (fun v hv => ?_) (fun c hc => List.mem_append.2 (.inr hc))
    simp only [declaredVars, Option.map_none, Option.getD_none, List.append_nil,
      List.mem_append] at hv ⊢
    exact hv.imp_left .inl

end Pair

section Ready

variable {base p : Program} {actions : List AtomicAction} {first : Option AtomicAction}
  {second : AtomicAction}

theorem inherited_transition (h : Assembly.Sound base p actions) (hf : ∀ a ∈ first, a ∈ actions)
    (hs : second ∈ actions) : ∀ d ∈ (transitionBlocks first second).flatMap p.commands,
      InheritedFrom base (bodyCommands base first second) d := by
  intro d hd
  rw [transitionBlocks, List.flatMap_append] at hd
  rcases List.mem_append.1 hd with hd | hd
  · exact (inherited_shadow h.base_closed (h.built _ hs) d hd).mono
      fun c hc => List.mem_append.2 (.inr hc)
  · cases first with
    | none => cases hd
    | some a =>
      exact (inherited_primary h.base_closed h.grows (h.built a (hf a rfl)) d hd).mono
        fun c hc => List.mem_append.2 (.inl hc)

theorem hasVar_of_body_binds (hbase : base.Closed) {x : VarRef}
    (h : ∃ c ∈ bodyCommands base first second, c.Binds x) : base.HasVar x := by
  obtain ⟨c, hc, hx⟩ := h
  rcases List.mem_append.1 hc with hc | hc
  · cases first with
    | none => cases hc
    | some a => exact hasVar_of_binds hbase a.primary.blocks hc hx
  · exact hasVar_of_binds hbase second.primary.blocks hc hx

/-- What the copies bind keeps out of the way if what the bodies bind does. -/
theorem bindersApart_transition (h : Assembly.Sound base p actions) (hf : ∀ a ∈ first, a ∈ actions)
    (hs : second ∈ actions)
    (hygienic : Hygienic (declaredVars base first second) (bodyCommands base first second)) :
    BindersApart ((transitionBlocks first second).flatMap p.commands) := by
  have inherited := inherited_transition h hf hs
  -- a bound variable is one of the base program, so the copies mention it only if the bodies do
  rintro x ⟨d, hd, hx⟩ d' hd'
  have hbinds := (inherited d hd).binds x hx
  have hbx := hasVar_of_body_binds h.base_closed hbinds
  have keeps := (hygienic x hbinds).2
  constructor
  · intro hreads
    obtain ⟨c, hc, hcx⟩ := (inherited d' hd').reads x hbx hreads
    exact (keeps c hc).1 hcx
  · intro hwrites
    obtain ⟨c, hc, hcx⟩ := (inherited d' hd').writes x hbx hwrites
    exact (keeps c hc).2 hcx

/-- The copies can be executed together. -/
theorem executable_transition (h : Assembly.Sound base p actions)
    (pair : DisciplinedPair base actions first second) :
    Executable ((transitionBlocks first second).flatMap p.commands) := by
  have oldFree : ∀ c ∈ bodyCommands base first second, c.OldFree := by
    refine List.forall_mem_append.2 ⟨?_, pair.second_disciplined.oldFree⟩
    cases first with
    | none => simp
    | some a => exact (pair.first_disciplined a rfl).oldFree
  have inherited := inherited_transition h pair.first_mem pair.second_mem
  exact ⟨fun d hd => (inherited d hd).oldFree oldFree,
    bindersApart_transition h pair.first_mem pair.second_mem pair.hygienic⟩

theorem mem_transitionLocals {v : VarRef} : v ∈ transitionLocals first second ↔
    (∃ a ∈ first, v ∈ a.primary.locals) ∨ v ∈ second.shadow.locals := by
  cases first <;> simp [transitionLocals]

theorem mem_transitionFrame {v : VarRef} : v ∈ transitionFrame first second p ↔
    v ∈ p.globals ∨ (∃ a ∈ first, v ∈ a.primary.outputs) ∨ v ∈ second.shadow.outputs := by
  cases first <;> simp [transitionFrame]

/-- Outputs and locals of a copy with different variables are apart. -/
theorem Replica.outputs_apart {r : Replica} (h : r.vars.Nodup) {v : VarRef} (ho : v ∈ r.outputs) :
    v ∉ r.locals := fun hl =>
  (List.nodup_append.1 h).2.2 v (List.mem_append.2 (.inr ho)) v hl rfl

/-- The shadow copy has different variables. -/
theorem nodup_shadow (h : second.BuiltIn base p) : second.shadow.vars.Nodup := by
  obtain ⟨made, _, _, hm⟩ := h.mirrors
  exact hm.vars.nodup

/-- The two copies are not left together if neither is. -/
theorem encloses_transition (hf : ∀ a ∈ first, p.Encloses a.primary.blocks)
    (hs : p.Encloses second.shadow.blocks) : p.Encloses (transitionBlocks first second) := by
  intro b hb x hx
  rw [transitionBlocks, List.mem_append] at hb ⊢
  rcases hb with hb | hb
  · exact .inl (hs b hb x hx)
  · cases first with
    | none => cases hb
    | some a => exact .inr (hf a rfl b hb x hx)

/-- Where runs go on is one of the blocks. -/
theorem next_mem_transition (hf : ∀ a ∈ first, a.primary.blocks ≠ []) :
    ∀ entry ∈ transitionNext first, entry ∈ transitionBlocks first second := by
  intro entry hentry
  cases first with
  | none => cases hentry
  | some a =>
    cases hentry
    exact List.mem_append.2 (.inr (Replica.entry_mem (hf a rfl)))

/-- The primary copy of one action and the shadow copy of another can be executed together if the
variables of the first are different and no globals, and what the bodies bind keeps out of the way. -/
theorem transitionScoped (h : Assembly.Sound base p actions) (hf : ∀ a ∈ first, a ∈ actions)
    (hs : second ∈ actions) (nodup : ∀ a ∈ first, a.primary.vars.Nodup)
    (notGlobal : ∀ a ∈ first, ∀ v ∈ a.primary.vars, v ∉ base.globals)
    (hygienic : Hygienic (declaredVars base first second) (bodyCommands base first second)) :
    TransitionScoped first second (transitionBlocks first second) p where
  encloses := encloses_transition
    (fun a ha => encloses_primary h.grows (h.built a (hf a ha)))
    (encloses_shadow (h.built _ hs))
  entry := List.mem_append.2 (.inl (Replica.entry_mem (h.validIn hs).shadow.nonempty))
  next := next_mem_transition fun a ha => (h.built a (hf a ha)).nonempty
  binders := bindersApart_transition h hf hs hygienic
  clear x hx hlocal := by
    obtain ⟨d, hd, hdx⟩ := hx
    have hbinds := (inherited_transition h hf hs d hd).binds x hdx
    rcases mem_transitionLocals.1 hlocal with ⟨a, ha, hxa⟩ | hxs
    · obtain rfl : first = some a := ha
      refine (hygienic x hbinds).1 (List.mem_append.2 (.inl (List.mem_append.2 (.inr ?_))))
      exact Replica.locals_subset _ x hxa
    · exact not_hasVar_of_mem_shadow (h.built _ hs) x (Replica.locals_subset _ x hxs)
        (hasVar_of_body_binds h.base_closed hbinds)
  apart v hv hlocal := by
    rw [mem_transitionFrame, h.grows.globals_eq] at hv
    have built := h.built _ hs
    -- a variable of the base program is no shadow variable
    have old (hb : base.HasVar v) : v ∉ second.shadow.vars :=
      fun hv => not_hasVar_of_mem_shadow built v hv hb
    rcases mem_transitionLocals.1 hlocal with ⟨a, ha, hl⟩ | hl
    · have hbase_v : base.HasVar v :=
        (h.built a (hf a ha)).vars v (Replica.locals_subset _ v hl)
      rcases hv with hv | ⟨a', ha', hv⟩ | hv
      · exact notGlobal a ha v (Replica.locals_subset _ v hl) hv
      · cases ha.symm.trans ha'
        exact Replica.outputs_apart (nodup a ha) hv hl
      · exact old hbase_v (Replica.outputs_subset _ v hv)
    · rcases hv with hv | ⟨a, ha, hv⟩ | hv
      · exact old (h.base_closed.hasVar_of_mem_globals hv) (Replica.locals_subset _ v hl)
      · exact old ((h.built a (hf a ha)).vars v (Replica.outputs_subset _ v hv))
          (Replica.locals_subset _ v hl)
      · exact Replica.outputs_apart (nodup_shadow built) hv hl

theorem DisciplinedPair.transitionScoped (h : Assembly.Sound base p actions)
    (pair : DisciplinedPair base actions first second) :
    TransitionScoped first second (transitionBlocks first second) p :=
  AtomicMovers.transitionScoped h pair.first_mem pair.second_mem
    (fun a ha => (pair.first_disciplined a ha).nodup)
    (fun a ha => (pair.first_disciplined a ha).notGlobal) pair.hygienic

/-- The primary copy of one action and the shadow copy of another are ready. -/
theorem transitionReady (h : Assembly.Sound base p actions)
    (pair : DisciplinedPair base actions first second) :
    TransitionReady first second (transitionBlocks first second) p where
  encloses := (pair.transitionScoped h).encloses
  entry := (pair.transitionScoped h).entry
  next := (pair.transitionScoped h).next
  executable := executable_transition h pair
  clear := (pair.transitionScoped h).clear
  apart := (pair.transitionScoped h).apart

end Ready

/-! ## Runs of copies -/

section Runs

variable {base p : Program} {actions : List AtomicAction} {a : AtomicAction} {D : Type}
  {I : Interpretation D}

/-- A completing run of a copy without `old` may have started anywhere. -/
theorem completes_iff_finishes {r : Replica} (hr : p.Encloses r.blocks) (nonempty : r.blocks ≠ [])
    (oldFree : ∀ c ∈ r.commands p, c.OldFree) (start : State D) {s t : State D} :
    p.Completes I r.entry s t ↔
      p.Finishes I start Transfer.IsReturn (p.enterBlock r.entry s) t := by
  rw [completes_iff]
  exact finishes_start_iff hr (fun b hb c hc => oldFree c (List.mem_flatMap.2 ⟨b, hb, hc⟩))
    (Replica.entry_mem nonempty) s start

theorem completes_primary_iff (h : Assembly.Sound base p actions) (ha : a ∈ actions)
    (d : a.Disciplined base) (start : State D) {s t : State D} :
    p.Completes I a.primary.entry s t ↔
      p.Finishes I start Transfer.IsReturn (p.enterBlock a.primary.entry s) t := by
  have built := h.built a ha
  exact completes_iff_finishes (encloses_primary h.grows built) built.nonempty
    (fun c hc => (inherited_primary h.base_closed h.grows built c hc).oldFree d.oldFree) start

theorem completes_shadow_iff (h : Assembly.Sound base p actions) (ha : a ∈ actions)
    (d : a.Disciplined base) (start : State D) {s t : State D} :
    p.Completes I a.shadow.entry s t ↔
      p.Finishes I start Transfer.IsReturn (p.enterBlock a.shadow.entry s) t := by
  have built := h.built a ha
  exact completes_iff_finishes (encloses_shadow built) (h.validIn ha).shadow.nonempty
    (fun c hc => (inherited_shadow h.base_closed built c hc).oldFree d.oldFree) start

end Runs

/-! ## Relations -/

section Relations

variable {base p q : Program} {actions : List AtomicAction} {first : Option AtomicAction}
  {second : AtomicAction} {e : Expr}

/-- The blocks that a relation is about are there. -/
theorem hasBlock_of_mem_transitionBlocks (hf : ∀ a ∈ first, a.ValidIn p) (hs : second.ValidIn p) :
    ∀ b ∈ transitionBlocks first second, p.HasBlock b := by
  intro b hb
  rcases List.mem_append.1 hb with hb | hb
  · exact hs.shadow.blocks b hb
  · cases first with
    | none => cases hb
    | some a => exact (hf a rfl).primary.blocks b hb

/-- A relation made between `p` and `q` holds of two states of `q` if a run leads from the one to
the other. -/
theorem holds_related {D : Type} {I : Interpretation D} (hp : Assembly.Sound base p actions)
    (hq : Assembly.Sound base q actions) (pair : DisciplinedPair base actions first second)
    (h : RelatedBetween first second p e q) (start : State D) {s t : State D} :
    e.Holds I q.tyOf s t ↔
      ∃ l, I.InRange q.tyOf (transitionLocals first second) l ∧
        ∃ m, q.RunsTo I start (transitionNext first) second.shadow.entry
            (s.override (transitionLocals first second) l) m ∧
          State.AgreeOn (transitionFrame first second q) m t := by
  obtain ⟨p₁, p₂, hp₁, closed, hof, hp₂, hlater⟩ := h
  have sound₁ := hp.extends hp₁ closed
  have validF (a : AtomicAction) (ha : a ∈ first) := sound₁.validIn (pair.first_mem a ha)
  have validS := sound₁.validIn pair.second_mem
  obtain ⟨locals, frame⟩ :=
    hasVar_of_mem_transition closed first (fun a ha => (validF a ha).primary) validS.shadow
  exact holds_transition start closed hof hp₂ hlater
    (hasBlock_of_mem_transitionBlocks validF validS) (transitionReady hq pair) locals frame

/-- A relation made between `p` and `q` binds what is new since `p`, and what the bodies bind. -/
theorem binders_related (hp : Assembly.Sound base p actions) (hq : Assembly.Sound base q actions)
    (pair : DisciplinedPair base actions first second) (h : RelatedBetween first second p e q)
    {x : VarRef} (hx : x ∈ e.binders) :
    ¬p.HasVar x ∨ ∃ c ∈ bodyCommands base first second, c.Binds x := by
  obtain ⟨p₁, p₂, hp₁, closed, hof, hp₂, hlater⟩ := h
  have sound₁ := hp.extends hp₁ closed
  have validF (a : AtomicAction) (ha : a ∈ first) := sound₁.validIn (pair.first_mem a ha)
  have validS := sound₁.validIn pair.second_mem
  have frame := (hasVar_of_mem_transition closed first (fun a ha => (validF a ha).primary)
    validS.shadow).2
  rcases binders_transition closed hof (hp₂.trans hlater)
    (hasBlock_of_mem_transitionBlocks validF validS) (pair.transitionScoped hq) frame hx
    with hx | ⟨d, hd, hx⟩
  · exact .inl fun hxp => hx (hp₁.within.hasVar hxp)
  · exact .inr ((inherited_transition hq pair.first_mem pair.second_mem d hd).binds x hx)

end Relations

/-! ## An account

An example of a program whose action keeps to all the rules. -/

/-- A computation that succeeds has a result. -/
theorem eq_ok_of_isOk {ε α σ : Type} [Inhabited α] {x : Except ε α × σ} (h : x.1.isOk = true) :
    x = (.ok (x.1.toOption.getD default), x.2) := by
  obtain ⟨result, state⟩ := x
  cases result with
  | error e => cases h
  | ok a => rfl

theorem eq_error_of_fst {ε α σ : Type} {x : Except ε α × σ} {e : ε} (h : x.1 = .error e) :
    x = (.error e, x.2) := Prod.ext h rfl

namespace Account

/-- An account with a `balance` and a `limit`, and a procedure to deposit an `amount`. The blocks are a
body for it: as long as the balance is within the limit, either the amount is added and the balance
`seen` before returned, if this stays within the limit, or nothing is done. -/
def program : Program where
  vars := #[{ name := "balance", ty := .int, kind := .global, domain := some "money" },
    { name := "limit", ty := .int, kind := .constant },
    { name := "amount", ty := .int, kind := .input, domain := some "money" },
    { name := "seen", ty := .int, kind := .output }, { name := "next", ty := .int, kind := .localVar },
    { name := "k", ty := .int, kind := .bound }]
  exprs := ⟨#[.var ⟨0⟩, .var ⟨1⟩, .var ⟨2⟩, .var ⟨4⟩, .var ⟨5⟩, .lit (.bool true),
    .binary .le ⟨4⟩ ⟨0⟩, .binary .le ⟨4⟩ ⟨1⟩, .binary .implies ⟨6⟩ ⟨7⟩,
    .quant .universal [⟨5⟩] ⟨8⟩, .binary .add ⟨0⟩ ⟨2⟩, .binary .le ⟨3⟩ ⟨1⟩]⟩
  blocks := #[⟨"entry", [.assert ⟨9⟩, .assign [(⟨4⟩, ⟨10⟩)]], .goto [⟨1⟩, ⟨2⟩]⟩,
    ⟨"store", [.assume ⟨11⟩, .assign [(⟨0⟩, ⟨3⟩), (⟨3⟩, ⟨0⟩)]], .returnValue ⟨5⟩⟩,
    ⟨"skip", [], .returnValue ⟨5⟩⟩]
  procedures := #[{ name := "deposit", inputs := [⟨2⟩], outputs := [⟨3⟩] }]
  declarations := [.constant ⟨1⟩, .global ⟨0⟩, .procedure ⟨0⟩]
  names := [("limit", ⟨1⟩), ("balance", ⟨0⟩)]

def depositBody : Body := { locals := [⟨4⟩], blocks := [⟨0⟩, ⟨1⟩, ⟨2⟩] }

/-- What making an action of the body results in. -/
def registration : Except Error AtomicAction × Program :=
  (AtomicAction.ofBody ⟨0⟩ depositBody .right).run program

def deposit : AtomicAction := registration.1.toOption.getD default

def registered : Program := registration.2

theorem registration_eq :
    (AtomicAction.ofBody ⟨0⟩ depositBody .right).run program = (.ok deposit, registered) :=
  eq_ok_of_isOk (by decide +kernel)

theorem closed : program.Closed := by decide +kernel

theorem assembly : Assembly program registered [deposit] :=
  Assembly.start.register (by decide +kernel) (by decide +kernel) registration_eq

theorem disciplined : deposit.Disciplined program := by decide +kernel

theorem returnsValues : deposit.ReturnsValues program := by decide +kernel

theorem assignsDeclared : deposit.AssignsDeclared program := by decide +kernel

theorem hygienic : Hygienic (program.globals ++ deposit.primary.vars ++ deposit.primary.vars)
    (deposit.primary.commands program ++ deposit.primary.commands program) := by decide +kernel

end Account

end AtomicMovers
