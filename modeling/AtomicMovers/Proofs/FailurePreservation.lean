import AtomicMovers.Proofs.Validity

/-!
# Failure preservation procedures

All that a failure preservation procedure says is in its contract, since its body does nothing. Its
postcondition is the relation of the second action with the final values of globals and outputs, and
the initial values of outputs and locals, bound existentially (`holds_reachabilityFormula`). So it
says that the second action has a run after which the gate of the first fails
(`failurePreservation_contract_iff`).

The gate is read in the state that the run ends in, but the formula fixes only globals and outputs of
that state. That is enough because the shadow copy changes no other variable of the base program
(`state_eq_of_completes_shadow`).
-/

namespace AtomicMovers

open Program

section

variable {D : Type} {I : Interpretation D} {base p q : Program} {actions : List AtomicAction}
  {first second : AtomicAction}

/-! ## What runs leave alone -/

/-- The shadow copy assigns globals, and variables that are new since `base`. -/
theorem not_writes_shadow (hbase : base.Closed) (h : second.BuiltIn base p)
    (assigns : second.AssignsDeclared base) {v : VarRef} (hv : base.HasVar v)
    (global : v ∉ base.globals) : ∀ d ∈ second.shadow.commands p, ¬d.Writes v := by
  intro d hd hwrites
  obtain ⟨c, hc, hcd⟩ := exists_shadow_command hbase h hd
  obtain ⟨made, _, _, hm⟩ := h.mirrors
  rw [Command.Writes, hcd.targets_eq] at hwrites
  rcases Command.Writes.of_rename hwrites with ⟨hwrites, own⟩ | new
  · rw [List.map_fst_zip (Nat.le_of_eq hm.vars.length_eq.symm)] at own
    exact (assigns c hc v hwrites).elim global own
  · obtain ⟨u, hu, rfl⟩ := List.mem_map.1 new
    exact not_hasVar_of_mem_shadow h u.2 (List.of_mem_zip hu).2 hv

/-- A run of the shadow copy changes no variable of the base program apart from globals. -/
theorem state_eq_of_completes_shadow (h : Assembly.Sound base p actions) (hs : second ∈ actions)
    (assigns : second.AssignsDeclared base) {s t : State D}
    (run : p.Completes I second.shadow.entry s t) {v : VarRef} (hv : base.HasVar v)
    (global : v ∉ base.globals) : t v = s v := by
  have built := h.built second hs
  refine state_eq_of_finishes (fun b hb c hc => ?_) (encloses_shadow built)
    (Replica.entry_mem (h.validIn hs).shadow.nonempty) (completes_iff.1 run)
  exact not_writes_shadow h.base_closed built assigns hv global c (List.mem_flatMap.2 ⟨b, hb, hc⟩)

/-! ## Formulas -/

/-- Some conjunct of the gate is false. -/
theorem holds_gateFailsFormula {ty : VarRef → Ty} {s t : State D} :
    (gateFailsFormula p first).Holds I ty s t ↔
      ∃ e ∈ first.primary.gate, ¬(p.expr e).Holds I ty s t := by
  rw [gateFailsFormula, Expr.holds_not, Expr.holds_conjoin, List.forall_mem_map]
  simp only [not_forall, exists_prop]

section Reachability

variable {globals locals : List (VarRef × VarRef)}
  {outputs : List ((VarRef × VarRef) × (VarRef × VarRef))}

/-- Each copy has the type of its variable. -/
theorem ReachabilityCopies.tyOf_eq (hp : p.Closed) (hpq : p.Extends q) (hs : second.ValidIn p)
    (copies : ReachabilityCopies second p globals outputs locals q) :
    ∀ u ∈ (globals ++ outputs.map Prod.fst) ++ (outputs.map Prod.snd ++ locals),
      q.tyOf u.2 = q.tyOf u.1 := by
  intro u hu
  exact (copies.fresh.ty_eq ((copies_perm _ _ _).mem_iff.2 hu)).trans
    (hpq.tyOf_eq (copies.hasVar_fst hp (Extends.refl p) hs.shadow u hu)).symm

/-- A reachability formula lets the values of globals and outputs afterwards, and those of outputs and
locals before, be any values of their types. -/
theorem holds_reachabilityFormula (hp : p.Closed) (hpq : p.Extends q) (hs : second.ValidIn p)
    (copies : ReachabilityCopies second p globals outputs locals q) {condition : Expr}
    (below : condition.VarsBelow p.vars.size)
    (clear : ∀ x ∈ condition.binders, x ∉ p.globals ∧ x ∉ second.shadow.vars) {s t : State D} :
    (reachabilityFormula globals outputs locals condition).Holds I q.tyOf s t ↔
      ∃ after before, I.InRange q.tyOf (q.globals ++ second.shadow.outputs) after ∧
        I.InRange q.tyOf (second.shadow.outputs ++ second.shadow.locals) before ∧
        condition.Holds I q.tyOf
          (s.override (second.shadow.outputs ++ second.shadow.locals) before)
          (t.override (q.globals ++ second.shadow.outputs) after) := by
  have hcur : (globals ++ outputs.map Prod.fst).map Prod.fst =
      q.globals ++ second.shadow.outputs := by
    rw [List.map_append, copies.globals_eq, copies.outputs_after, hpq.globals_eq]
  have hpri : (outputs.map Prod.snd ++ locals).map Prod.fst =
      second.shadow.outputs ++ second.shadow.locals := by
    rw [List.map_append, copies.outputs_before, copies.locals_eq]
  have perm := copies_perm globals outputs locals
  have types := List.forall_mem_append.1 (copies.tyOf_eq hp hpq hs)
  have fresh : ∀ x ∈ (globals ++ outputs.flatMap (fun x => [x.1, x.2]) ++ locals).map Prod.snd,
      x ∉ condition.free ∧ x ∉ condition.binders := by
    refine List.forall_mem_map.2 fun u hu => ?_
    exact ⟨fun h => copies.fresh.fresh u hu (below u.2 (.inl h)),
      fun h => copies.fresh.fresh u hu (below u.2 (.inr h))⟩
  have apart : ∀ x ∈ condition.binders, x ∉ (globals ++ outputs.map Prod.fst).map Prod.fst ∧
      x ∉ (outputs.map Prod.snd ++ locals).map Prod.fst := by
    intro x hx
    obtain ⟨notGlobal, notShadow⟩ := clear x hx
    rw [hcur, hpri, List.mem_append, List.mem_append, hpq.globals_eq]
    exact ⟨not_or.2 ⟨notGlobal, fun h => notShadow (Replica.outputs_subset _ x h)⟩,
      fun h => notShadow (Replica.mem_vars.2 (.inr h))⟩
  rw [reachabilityFormula, Expr.holds_bind_renamings (List.map_append ▸ perm.map Prod.snd)
    copies.fresh.nodup types.1 types.2 fresh apart, hcur, hpri]

end Reachability

/-! ## The postcondition -/

/-- What the gate and the relation bind is neither a global nor a variable of the shadow copy. -/
theorem clear_of_binders (hp : Assembly.Sound base p actions) (hq : Assembly.Sound base q actions)
    (pair : DisciplinedPair base actions (some first) second) {relation : Expr}
    (h : RelatedBetween none second p relation q) :
    ∀ x ∈ (relation.and (gateFailsFormula p first)).binders,
      x ∉ p.globals ∧ x ∉ second.shadow.vars := by
  -- a variable that one of the bodies binds is an undeclared one of the base program
  have bound {x : VarRef} {c : Command Expr} (hc : c ∈ bodyCommands base (some first) second)
      (hx : c.Binds x) : x ∉ p.globals ∧ x ∉ second.shadow.vars := by
    refine ⟨fun hglobal => (pair.hygienic x ⟨c, hc, hx⟩).1 ?_, fun hshadow => ?_⟩
    · rw [hp.grows.globals_eq] at hglobal
      exact List.mem_append.2 (.inl (List.mem_append.2 (.inl hglobal)))
    · exact not_hasVar_of_mem_shadow (hp.built _ pair.second_mem) x hshadow
        (hasVar_of_body_binds hp.base_closed ⟨c, hc, hx⟩)
  intro x hx
  rcases List.mem_append.1 hx with hx | hx
  · rcases binders_related hp hq pair.alone h hx with hx | ⟨c, hc, hx⟩
    · exact ⟨fun hglobal => hx (hp.closed.hasVar_of_mem_globals hglobal),
        fun hshadow => hx ((hp.validIn pair.second_mem).shadow.vars x hshadow)⟩
    · exact bound (List.mem_append.2 (.inr hc)) hx
  · obtain ⟨_, hmem, hx⟩ := Expr.mem_binders_conjoin.1 hx
    obtain ⟨e, he, rfl⟩ := List.mem_map.1 hmem
    obtain ⟨c, hc, hec⟩ := exists_command_of_gate hp.base_closed hp.grows
      (hp.built first (pair.first_mem first rfl)) e he
    exact bound (List.mem_append.2 (.inl hc)) ⟨_, hec, hx⟩

/-- After a run of the shadow copy, the gate of the first action is read from what the run leaves in
globals, and is otherwise as before. -/
theorem holds_gate_after (h : Assembly.Sound base q actions)
    (pair : DisciplinedPair base actions (some first) second)
    (assigns : second.AssignsDeclared base) {vs : List VarRef}
    (hvs : ∀ v ∈ vs, v ∈ second.shadow.vars) {s v t after : State D}
    (run : q.Completes I second.shadow.entry (s.override vs v) t)
    (agree : State.AgreeOn (q.globals ++ second.shadow.outputs) t
      (s.override (q.globals ++ second.shadow.outputs) after)) {e : ExprRef}
    (he : e ∈ first.primary.gate) (prior : State D) :
    (q.expr e).Holds I q.tyOf prior (s.override (q.globals ++ second.shadow.outputs) after) ↔
      (q.expr e).Holds I q.tyOf t t := by
  have hf := h.built first (pair.first_mem first rfl)
  have hs := h.built second pair.second_mem
  have oldFree :=
    oldFree_gate h.base_closed h.grows hf (pair.first_disciplined first rfl) e he
  rw [Expr.Holds, Expr.Holds, Expr.eval_eq_of_oldFree _ prior t _ oldFree]
  refine iff_of_eq (congrArg Value.Holds (Expr.eval_congr _ (fun _ _ => rfl) ?_ fun _ _ => rfl))
  intro x hx
  by_cases hmem : x ∈ q.globals ++ second.shadow.outputs
  · exact (agree x hmem).symm
  · -- a variable of the base program that is no global: neither chosen before nor changed by the run
    have hbx : base.HasVar x := by
      rw [h.grows.expr_eq h.base_closed (hf.gate e he)] at hx
      exact h.base_closed.varsBelow_expr e x (.inl hx)
    have global : x ∉ base.globals := by
      rw [← h.grows.globals_eq]
      exact fun hg => hmem (List.mem_append.2 (.inl hg))
    have own : x ∉ vs := fun hv => not_hasVar_of_mem_shadow hs x (hvs x hv) hbx
    rw [State.override_of_not_mem hmem,
      state_eq_of_completes_shadow h pair.second_mem assigns run hbx global,
      State.override_of_not_mem own]

/-- The relation of the second action alone. -/
theorem holds_related_second (hp : Assembly.Sound base p actions)
    (hq : Assembly.Sound base q actions) (pair : DisciplinedPair base actions none second)
    {relation : Expr} (h : RelatedBetween none second p relation q) {s t : State D} :
    relation.Holds I q.tyOf s t ↔
      ∃ l, I.InRange q.tyOf second.shadow.locals l ∧
        ∃ m, q.Completes I second.shadow.entry (s.override second.shadow.locals l) m ∧
          State.AgreeOn (q.globals ++ second.shadow.outputs) m t := by
  rw [holds_related hp hq pair h s]
  simp only [transitionLocals, transitionFrame, transitionNext, Option.map_none, Option.getD_none,
    List.nil_append, List.append_nil, RunsTo,
    completes_shadow_iff hq pair.second_mem pair.second_disciplined s]

/-- The postcondition lets a final state and initial values be chosen that the relation of the second
action holds of, with the gate of the first failing in the final state. -/
theorem holds_failureReachability (hp : Assembly.Sound base p actions)
    (hq : Assembly.Sound base q actions) (hpq : p.Extends q)
    (pair : DisciplinedPair base actions (some first) second) {made : Program} {e : Expr}
    (h : FailureReachability p first second e made q) {s : State D} :
    e.Holds I q.tyOf s s ↔
      ∃ after before, I.InRange q.tyOf (q.globals ++ second.shadow.outputs) after ∧
        I.InRange q.tyOf (second.shadow.outputs ++ second.shadow.locals) before ∧
        (∃ l, I.InRange q.tyOf second.shadow.locals l ∧
          ∃ t, q.Completes I second.shadow.entry ((s.override
              (second.shadow.outputs ++ second.shadow.locals) before).override
                second.shadow.locals l) t ∧
            State.AgreeOn (q.globals ++ second.shadow.outputs) t
              (s.override (q.globals ++ second.shadow.outputs) after)) ∧
        ∃ g ∈ first.primary.gate, ¬(q.expr g).Holds I q.tyOf
          (s.override (second.shadow.outputs ++ second.shadow.locals) before)
          (s.override (q.globals ++ second.shadow.outputs) after) := by
  obtain ⟨earlier, closed, later, relation, globals, outputs, locals, below, related, copies,
    rfl⟩ := h
  obtain ⟨p₁, p₂, hp₁, closed₁, hof, hp₂, hmade⟩ := related
  have related_q : RelatedBetween none second p relation q :=
    ⟨p₁, p₂, hp₁, closed₁, hof, hp₂, hmade.trans later⟩
  have gate_below : (gateFailsFormula p first).VarsBelow made.vars.size :=
    (varsBelow_gateFailsFormula hp.closed first).mono earlier.vars_le
  have clear := clear_of_binders hp hq pair related_q
  rw [← earlier.globals_eq] at clear
  have validF := hp.validIn (pair.first_mem first rfl)
  have validS := (hp.validIn pair.second_mem).mono earlier.within
  rw [holds_reachabilityFormula closed later validS copies (below.and gate_below) clear,
    ← gateFailsFormula_extends hp.closed validF hpq]
  simp only [Expr.holds_and, holds_gateFailsFormula,
    holds_related_second hp hq pair.alone related_q]

/-- The postcondition says that some run of the second action ends so that the gate of the first
fails. -/
theorem holds_failureReachability_iff_run (hp : Assembly.Sound base p actions)
    (hq : Assembly.Sound base q actions) (hpq : p.Extends q)
    (pair : DisciplinedPair base actions (some first) second)
    (assigns : second.AssignsDeclared base) {made : Program} {e : Expr}
    (h : FailureReachability p first second e made q) {s : State D} :
    e.Holds I q.tyOf s s ↔
      ∃ v t, I.InRange q.tyOf (second.shadow.outputs ++ second.shadow.locals) v ∧
        q.Completes I second.shadow.entry
          (s.override (second.shadow.outputs ++ second.shadow.locals) v) t ∧
        I.InRange q.tyOf (q.globals ++ second.shadow.outputs) t ∧
        ∃ g ∈ first.primary.gate, ¬(q.expr g).Holds I q.tyOf t t := by
  have own : ∀ v ∈ second.shadow.outputs ++ second.shadow.locals, v ∈ second.shadow.vars :=
    fun v hv => Replica.mem_vars.2 (.inr (List.mem_append.1 hv))
  have within : ∀ v ∈ second.shadow.locals, v ∈ second.shadow.outputs ++ second.shadow.locals :=
    fun v hv => List.mem_append.2 (.inr hv)
  rw [holds_failureReachability hp hq hpq pair h]
  simp only [State.override_override within]
  constructor
  · -- the relation has chosen the locals once more, and its choice is the one that counts
    rintro ⟨after, before, hafter, hbefore, ⟨l, hl, t, run, agree⟩, g, hg, fails⟩
    refine ⟨_, t, ?_, run, ?_, g, hg, ?_⟩
    · intro v hv
      by_cases hlocal : v ∈ second.shadow.locals
      · rw [State.override_of_mem hlocal]
        exact hl v hlocal
      · rw [State.override_of_not_mem hlocal]
        exact hbefore v hv
    · intro v hv
      rw [agree v hv, State.override_of_mem hv]
      exact hafter v hv
    · rwa [← holds_gate_after hq pair assigns own run agree hg]
  · rintro ⟨v, t, hv, run, ht, g, hg, fails⟩
    have agree : State.AgreeOn (q.globals ++ second.shadow.outputs) t
        (s.override (q.globals ++ second.shadow.outputs) t) :=
      fun x hx => (State.override_of_mem hx).symm
    refine ⟨t, v, ht, hv, ⟨v, fun x hx => hv x (within x hx), t, ?_, agree⟩, g, hg, ?_⟩
    · rw [State.override_self]
      exact run
    · rwa [holds_gate_after hq pair assigns own run agree hg]

/-! ## The body -/

/-- An implementation of one empty block leaves the state as it is. -/
theorem performs_empty_iff {x : Procedure} {r : ProcRef} {body : BlockRef} {label : String}
    (h : q.block body = { label := label, commands := [], transfer := .leave }) {s t : State D} :
    q.Performs I (x.implementedBy r [] [body]) s t ↔ s = t := by
  have commands : q.commands body = [] := by rw [Program.commands, h]; rfl
  have exits : q.Exits I body s t ↔ s = t := by
    rw [exits_iff, finishes_enterBlock, commands, h]
    simp [Passes, Transfer.IsLeave, Transfer.targets]
  rw [← exits]
  constructor
  · rintro ⟨l, _, run⟩
    exact run
  · exact fun run => ⟨s, by simp [Procedure.implementedBy, Interpretation.InRange], run⟩

/-! ## The contract -/

theorem FailurePreservationParts.ensures_iff (hp : Assembly.Sound base p actions)
    (hq : Assembly.Sound base q actions) (hpq : p.Extends q)
    (pair : DisciplinedPair base actions (some first) second)
    (assigns : second.AssignsDeclared base) {o : Ownership} {requires : List ExprRef}
    {gateFails e : ExprRef} {body : BlockRef} {r : ProcRef}
    (parts : FailurePreservationParts p o first second requires gateFails e body r q)
    {s : State D} :
    q.Ensures I (q.procedure r) s s ↔
      ∃ v t, I.InRange q.tyOf (second.shadow.outputs ++ second.shadow.locals) v ∧
        q.Completes I second.shadow.entry
          (s.override (second.shadow.outputs ++ second.shadow.locals) v) t ∧
        I.InRange q.tyOf (q.globals ++ second.shadow.outputs) t ∧
        ∃ g ∈ first.primary.gate, ¬(q.expr g).Holds I q.tyOf t t := by
  obtain ⟨made, reachability⟩ := parts.reachability
  rw [parts.procedure_eq, ← holds_failureReachability_iff_run hp hq hpq pair assigns reachability]
  simp [Program.Ensures, failurePreservationProcedure, Postcondition.ofFormula]

end

/-- The contract of a failure preservation procedure. Its postcondition, in a state that its empty body
leaves as it is, says that the second action has a run, with some values of its outputs and locals to
start with, after which some conjunct of the gate of the first action is false; all these values, and
those that the run ends with, are of the types of their variables. Its precondition says that resources
are disjoint, that some conjunct of the gate of the first action is false and that the gate of the
second one holds. -/
theorem failurePreservation_contract_iff {base p q : Program} {actions : List AtomicAction}
    (hbase : base.Closed) (assembly : Assembly base p actions) {first second : AtomicAction}
    (hf : first ∈ actions) (hs : second ∈ actions) (df : first.Disciplined base)
    (ds : second.Disciplined base) (assigns : second.AssignsDeclared base)
    (hygienic : Hygienic (base.globals ++ first.primary.vars ++ second.primary.vars)
      (first.primary.commands base ++ second.primary.commands base))
    {o : Ownership} {r : ProcRef} (run : (addFailurePreservation o first second).run p = (.ok r, q))
    {D : Type} (I : Interpretation D) (s : State D) :
    (q.Ensures I (q.procedure r) s s ↔
      ∃ v t, I.InRange q.tyOf (second.shadow.outputs ++ second.shadow.locals) v ∧
        q.Completes I second.shadow.entry
          (s.override (second.shadow.outputs ++ second.shadow.locals) v) t ∧
        I.InRange q.tyOf (q.globals ++ second.shadow.outputs) t ∧
        ∃ g ∈ first.primary.gate, ¬(q.expr g).Holds I q.tyOf t t) ∧
      (q.Requires I (q.procedure r) s ↔
        DisjointAt q I o first second s ∧
          (∃ g ∈ first.primary.gate, ¬(q.expr g).Holds I q.tyOf s s) ∧
          ∀ g ∈ second.shadow.gate, (q.expr g).Holds I q.tyOf s s) ∧
      ∃ i ∈ q.implementationRefs, (q.implementation i).procedure = r ∧
        ∀ t, q.Performs I (q.implementation i) s t ↔ s = t := by
  have hp := assembly.sound hbase
  have pair := DisciplinedPair.ofActions hf hs df ds hygienic
  have validF := hp.validIn hf
  have validS := hp.validIn hs
  obtain ⟨hpq, closed, requires, gateFails, e, body, parts⟩ :=
    (attempts_addFailurePreservation hp.closed validF validS).of_run run
  have hq := hp.extends hpq closed
  refine ⟨parts.ensures_iff hp hq hpq pair assigns, ?_, ?_⟩
  · rw [parts.procedure_eq, Program.Requires, failurePreservationProcedure, List.forall_mem_append,
      List.forall_mem_cons, forall_holds_iff parts.requires_eq, parts.gateFails_eq,
      ← disjointnessClauses_extends hp.closed validF validS hpq, holds_disjointnessClauses,
      ← gateFailsFormula_extends hp.closed validF hpq, holds_gateFailsFormula]
  · obtain ⟨i, hi, himpl⟩ := parts.implements.exists_ref
    refine ⟨i, hi, by rw [himpl]; rfl, fun t => ?_⟩
    rw [himpl]
    exact performs_empty_iff parts.body_eq

/-- A deposit and the failure of a deposit. -/
theorem failurePreservation_contract_iff_deposit : ∃ r q,
    (addFailurePreservation (.ofProgram Account.program) Account.deposit Account.deposit).run
        Account.registered = (.ok r, q) ∧
      ∀ (I : Interpretation Int) (s : State Int),
        (q.Ensures I (q.procedure r) s s ↔
          ∃ v t, I.InRange q.tyOf
              (Account.deposit.shadow.outputs ++ Account.deposit.shadow.locals) v ∧
            q.Completes I Account.deposit.shadow.entry
              (s.override (Account.deposit.shadow.outputs ++ Account.deposit.shadow.locals) v) t ∧
            I.InRange q.tyOf (q.globals ++ Account.deposit.shadow.outputs) t ∧
            ∃ g ∈ Account.deposit.primary.gate, ¬(q.expr g).Holds I q.tyOf t t) ∧
        (q.Requires I (q.procedure r) s ↔
          DisjointAt q I (.ofProgram Account.program) Account.deposit Account.deposit s ∧
            (∃ g ∈ Account.deposit.primary.gate, ¬(q.expr g).Holds I q.tyOf s s) ∧
            ∀ g ∈ Account.deposit.shadow.gate, (q.expr g).Holds I q.tyOf s s) := by
  have run := eq_ok_of_isOk (x := (addFailurePreservation (.ofProgram Account.program)
    Account.deposit Account.deposit).run Account.registered) (by decide +kernel)
  have hmem : Account.deposit ∈ [Account.deposit] := List.mem_singleton_self _
  refine ⟨_, _, run, fun I s => ?_⟩
  obtain ⟨ensures, requires, _⟩ := failurePreservation_contract_iff Account.closed Account.assembly
    hmem hmem Account.disciplined Account.disciplined Account.assignsDeclared Account.hygienic run I s
  exact ⟨ensures, requires⟩

end AtomicMovers
