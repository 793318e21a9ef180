import AtomicMovers.Proofs.FailurePreservation
import AtomicMovers.Proofs.WellFormed

/-!
# Well-formed obligations

The contract of a procedure is well formed if it is made of formulas over declared variables and the
parameters of the procedure (`Procedure.WellFormed`). An implementation is well formed if it is well
typed and keeps to the declared variables, its parameters and its locals
(`Implementation.WellFormed`).

Each kind of obligation puts well-formed copies of two actions together (`WellFormedPair`), and the
procedure it makes is well formed with its implementation (`ObligationParts.wellFormedAt`). Whatever
else goes into a formula, locals and copies of variables for other states, is bound in it.
-/

namespace AtomicMovers

open Program

/-! ## What is well formed -/

/-- The contract, as it stands in `p`, is made of formulas over the variables `named` and the
parameters. -/
structure Procedure.WellFormed (Γ : Typing) (named : List VarRef) (p : Program) (x : Procedure) :
    Prop where
  requires : ∀ e ∈ x.requires, (p.expr e).FormulaOver Γ (named ++ x.inputs)
  ensures : ∀ post ∈ x.ensures, ∃ e, post.condition = .formula e ∧
    (p.expr e).FormulaOver Γ (named ++ (x.inputs ++ x.outputs))

/-- The implementation, as it stands in `p`, has different variables and no globals among them, is
well typed and mentions the variables `named` and its own only; gotos stay in it, and no block returns
a value. -/
structure Implementation.WellFormed (Γ : Typing) (named : List VarRef) (p : Program)
    (i : Implementation) : Prop where
  nodup : (i.inputs ++ i.outputs ++ i.locals).Nodup
  notGlobal : ∀ v ∈ i.inputs ++ i.outputs ++ i.locals, v ∉ p.globals
  commands : ∀ b ∈ i.blocks, ∀ c ∈ p.commands b,
    c.WellFormed Γ (named ++ (i.inputs ++ i.outputs ++ i.locals))
  targets : ∀ b ∈ i.blocks, ∀ t ∈ (p.block b).transfer.targets, t ∈ i.blocks
  values : ∀ b ∈ i.blocks, (p.block b).transfer.values = []

/-! ## Two copies side by side -/

/-- The primary copy of the first action and the shadow copy of the second, as they stand in `p`, can
be put together in a well-formed obligation. -/
structure WellFormedPair (Γ : Typing) (named : List VarRef) (p : Program) (o : Ownership)
    (first second : AtomicAction) : Prop where
  firstCopy : first.primary.WellFormed Γ named p
  secondCopy : second.shadow.WellFormed Γ named p
  firstEncloses : p.Encloses first.primary.blocks
  secondEncloses : p.Encloses second.shadow.blocks
  apart : ∀ v ∈ first.primary.vars, v ∉ second.shadow.vars
  notGlobal : ∀ v ∈ first.primary.vars ++ second.shadow.vars, v ∉ p.globals
  clauses : ∀ e ∈ disjointnessClauses p o first second,
    e.FormulaOver Γ (named ++ (first.primary.inputs ++ second.shadow.inputs))

section Pair

variable {Γ : Typing} {named : List VarRef} {p q : Program} {o : Ownership}
  {first second : AtomicAction}

/-- The variables of both copies, kind by kind. -/
def pairVars (first second : AtomicAction) : List VarRef :=
  (first.primary.inputs ++ second.shadow.inputs) ++
    (first.primary.outputs ++ second.shadow.outputs) ++
    (first.primary.locals ++ second.shadow.locals)

theorem pairVars_perm (first second : AtomicAction) :
    (pairVars first second).Perm (first.primary.vars ++ second.shadow.vars) := by
  have swap (as bs cs ds : List VarRef) :
      ((as ++ bs) ++ (cs ++ ds)).Perm ((as ++ cs) ++ (bs ++ ds)) := by
    rw [List.append_assoc, List.append_assoc]
    refine List.Perm.append_left as ?_
    rw [← List.append_assoc, ← List.append_assoc]
    exact List.perm_append_comm.append_right ds
  exact ((swap _ _ _ _).append_right _).trans (swap _ _ _ _)

theorem WellFormedPair.nodup (h : WellFormedPair Γ named p o first second) :
    (pairVars first second).Nodup := by
  rw [(pairVars_perm first second).nodup_iff, List.nodup_append]
  exact ⟨h.firstCopy.nodup, h.secondCopy.nodup, fun v hv w hw heq => h.apart v hv (heq ▸ hw)⟩

/-- Variables of the copies are no globals, and stay so. -/
theorem WellFormedPair.notGlobal_of_mem (h : WellFormedPair Γ named p o first second)
    (hpq : p.Extends q) : ∀ v ∈ pairVars first second, v ∉ q.globals := by
  intro v hv
  rw [hpq.globals_eq]
  exact h.notGlobal v ((pairVars_perm first second).mem_iff.1 hv)

/-- Clauses over the inputs of both actions. -/
theorem WellFormedPair.requires (h : WellFormedPair Γ named p o first second)
    {requires : List ExprRef} (heq : requires.map q.expr = disjointnessClauses p o first second) :
    ∀ e ∈ requires,
      (q.expr e).FormulaOver Γ (named ++ (first.primary.inputs ++ second.shadow.inputs)) := by
  intro e he
  exact h.clauses _ (heq ▸ List.mem_map.2 ⟨e, he, rfl⟩)

/-- The gate of the first action over the inputs of both. -/
theorem WellFormedPair.firstGate (h : WellFormedPair Γ named p o first second) :
    ∀ e ∈ first.primary.gate,
      (p.expr e).FormulaOver Γ (named ++ (first.primary.inputs ++ second.shadow.inputs)) := by
  refine fun e he => (h.firstCopy.gate e he).mono fun v hv => ?_
  exact List.mem_append.2 ((List.mem_append.1 hv).imp_right fun hv => List.mem_append.2 (.inl hv))

theorem WellFormedPair.gateFails (h : WellFormedPair Γ named p o first second) :
    (gateFailsFormula p first).FormulaOver Γ
      (named ++ (first.primary.inputs ++ second.shadow.inputs)) :=
  (Expr.FormulaOver.conjoin (List.forall_mem_map.2 h.firstGate)).not

theorem WellFormedPair.secondGate (h : WellFormedPair Γ named p o first second) :
    ∀ e ∈ second.shadow.gate,
      (p.expr e).FormulaOver Γ (named ++ (first.primary.inputs ++ second.shadow.inputs)) := by
  refine fun e he => (h.secondCopy.gate e he).mono fun v hv => ?_
  exact List.mem_append.2 ((List.mem_append.1 hv).imp_right fun hv => List.mem_append.2 (.inr hv))

/-! ### Blocks of implementations -/

/-- The blocks of an implementation return no values, and gotos stay among them or go to the
exit. -/
theorem RunCopied.transfer_within {exit : Option BlockRef} {bs cs : List BlockRef}
    (h : RunCopied exit p bs cs q) : ∀ c ∈ cs, (q.block c).transfer.values = [] ∧
      ∀ t ∈ (q.block c).transfer.targets, t ∈ cs ∨ t ∈ exit := by
  intro c hc
  obtain ⟨b, hbc⟩ := h.exists_original hc
  have copied := h.transfer _ hbc
  simp only at copied
  generalize (p.block b).transfer = old at copied
  generalize (q.block c).transfer = new at *
  cases copied with
  | returnValue hnew =>
    rw [hnew]
    cases exit with
    | none => exact ⟨rfl, by simp [exitTransfer, Transfer.targets]⟩
    | some b => exact ⟨rfl, by simp [exitTransfer, Transfer.targets]⟩
  | goto hts =>
    refine ⟨rfl, fun t ht => .inl ?_⟩
    obtain ⟨_, _, hx⟩ := exists_left_of_forall₂ hts ht
    exact (List.of_mem_zip (mem_of_lookup_reverse hx)).2
  | leave => exact ⟨rfl, by simp [Transfer.targets]⟩

/-- The commands of an implementation are those of the copy that it runs. -/
theorem RunCopied.commands_wellFormed {exit : Option BlockRef} {r : Replica} {cs : List BlockRef}
    (h : RunCopied exit p r.blocks cs q) (hr : r.WellFormed Γ named p) :
    ∀ b ∈ cs, ∀ c ∈ q.commands b, c.WellFormed Γ (named ++ r.vars) := by
  intro b hb c hc
  obtain ⟨x, hx⟩ := h.exists_original hb
  rw [h.commands _ hx, List.map_id] at hc
  exact hr.commands x (List.of_mem_zip hx).1 c hc

/-! ### Relations -/

section Relations

variable {first : Option AtomicAction}

/-- The variables of the copies that a relation is about. -/
def transitionScope (first : Option AtomicAction) (second : AtomicAction) : List VarRef :=
  (first.map fun a => a.primary.vars).getD [] ++ second.shadow.vars

theorem mem_transitionScope {v : VarRef} : v ∈ transitionScope first second ↔
    (∃ a ∈ first, v ∈ a.primary.vars) ∨ v ∈ second.shadow.vars := by
  rw [transitionScope, List.mem_append]
  cases first <;> simp

/-- What is no local is a parameter. -/
theorem mem_parameters_of_mem_transitionScope {v : VarRef} (hv : v ∈ transitionScope first second)
    (hlocal : v ∉ transitionLocals first second) :
    (∃ a ∈ first, v ∈ a.primary.inputs ++ a.primary.outputs) ∨
      v ∈ second.shadow.inputs ++ second.shadow.outputs := by
  have parameter {r : Replica} (hr : v ∈ r.vars) (hl : v ∉ r.locals) : v ∈ r.inputs ++ r.outputs :=
    (List.mem_append.1 hr).resolve_right hl
  rw [mem_transitionLocals, not_or] at hlocal
  rcases mem_transitionScope.1 hv with ⟨a, ha, hv⟩ | hv
  · exact .inl ⟨a, ha, parameter hv fun hl => hlocal.1 ⟨a, ha, hl⟩⟩
  · exact .inr (parameter hv hlocal.2)

/-- Before the locals are bound, the relation is over all variables of the two copies. -/
theorem formulaOver_transitionScope (valid : ∀ a ∈ first, a.primary.ValidIn p)
    (valid' : second.shadow.ValidIn p) (encloses : p.Encloses (transitionBlocks first second))
    (hglobals : ∀ v ∈ p.globals, v ∈ named) (hf : ∀ a ∈ first, a.primary.WellFormed Γ named p)
    (hs : second.shadow.WellFormed Γ named p) {paths : List Path}
    (explored : p.Explored (transitionNext first) [] second.shadow.entry paths) :
    (p.relationFormula (transitionFrame first second p) paths).FormulaOver Γ
      (named ++ transitionScope first second) := by
  have wider {vs : List VarRef} (hvs : ∀ v ∈ vs, v ∈ transitionScope first second) :
      ∀ v ∈ named ++ vs, v ∈ named ++ transitionScope first second := fun v hv =>
    List.mem_append.2 ((List.mem_append.1 hv).imp_right (hvs v))
  have ofFirst {a : AtomicAction} (ha : a ∈ first) (v : VarRef) (hv : v ∈ a.primary.vars) :
      v ∈ transitionScope first second := mem_transitionScope.2 (.inl ⟨a, ha, hv⟩)
  have ofSecond (v : VarRef) (hv : v ∈ second.shadow.vars) : v ∈ transitionScope first second :=
    mem_transitionScope.2 (.inr hv)
  refine formulaOver_relationFormula (fun v hv => List.mem_append.2 ?_) fun π hπ b hb c hc => ?_
  · rcases mem_transitionFrame.1 hv with hv | ⟨a, ha, hv⟩ | hv
    · exact .inl (hglobals v hv)
    · exact .inr (ofFirst ha v (Replica.outputs_subset _ v hv))
    · exact .inr (ofSecond v (Replica.outputs_subset _ v hv))
  · have hb : b ∈ transitionBlocks first second := mem_of_explored encloses explored
      (List.mem_append.2 (.inl (Replica.entry_mem valid'.nonempty)))
      (next_mem_transition fun a ha => (valid a ha).nonempty) (by simp) π hπ b hb
    rcases List.mem_append.1 hb with hb | hb
    · exact (hs.commands b hb c hc).mono (wider ofSecond)
    · cases first with
      | none => cases hb
      | some a => exact ((hf a rfl).commands b hb c hc).mono (wider (ofFirst rfl))

/-- A relation is a formula over the declared variables and the parameters of both actions: it binds
their locals. -/
theorem TransitionOf.formulaOver {e : Expr} {ws : List VarRef}
    (h : TransitionOf first second p e q) (hpq : p.Extends q)
    (ty_eq : ∀ v, q.HasVar v → Γ.ty v = q.tyOf v) (hglobals : ∀ v ∈ p.globals, v ∈ named)
    (valid : ∀ a ∈ first, a.primary.ValidIn p) (valid' : second.shadow.ValidIn p)
    (encloses : p.Encloses (transitionBlocks first second))
    (hf : ∀ a ∈ first, a.primary.WellFormed Γ named p) (hs : second.shadow.WellFormed Γ named p)
    (hnamed : ∀ v ∈ named, v ∈ ws)
    (hfirst : ∀ a ∈ first, ∀ v ∈ a.primary.inputs ++ a.primary.outputs, v ∈ ws)
    (hsecond : ∀ v ∈ second.shadow.inputs ++ second.shadow.outputs, v ∈ ws) :
    e.FormulaOver Γ ws := by
  obtain ⟨paths, bound, explored, fresh, rfl⟩ := h.made
  have relation := formulaOver_transitionScope valid valid' encloses hglobals hf hs explored
  have locals : ((transitionLocals first second).zip bound).map Prod.fst =
      transitionLocals first second := List.map_fst_zip (Nat.le_of_eq fresh.length_eq.symm)
  refine relation.bind (fun u hu => ?_) (fun u hu => ?_) fun x hx hlocal => ?_
  · have hu : u ∈ (transitionLocals first second).zip bound := by simpa using hu
    have hvar : p.HasVar u.1 := by
      rcases mem_transitionLocals.1 (List.of_mem_zip hu).1 with ⟨a, ha, hv⟩ | hv
      · exact (valid a ha).vars _ (Replica.locals_subset _ _ hv)
      · exact valid'.vars _ (Replica.locals_subset _ _ hv)
    rw [ty_eq _ (fresh.valid _ (List.of_mem_zip hu).2), ty_eq _ (hpq.within.hasVar hvar),
      Program.tyOf, Program.tyOf, fresh.var_eq u hu, hpq.var_eq _ hvar]
    rfl
  · have hu : u ∈ (transitionLocals first second).zip bound := by simpa using hu
    exact (List.of_mem_zip hu).2
  · rw [locals, or_self] at hlocal
    rcases List.mem_append.1 hx with hx | hx
    · exact hnamed x hx
    · rcases mem_parameters_of_mem_transitionScope hx hlocal with ⟨a, ha, hx⟩ | hx
      · exact hfirst a ha x hx
      · exact hsecond x hx

end Relations

end Pair

/-! ## The three kinds -/

/-- The procedure `r` of `q` has a well-formed contract and a well-formed implementation. -/
structure Program.WellFormedAt (Γ : Typing) (named : List VarRef) (q : Program) (r : ProcRef) :
    Prop where
  contract : (q.procedure r).WellFormed Γ named q
  implemented : ∃ i, q.Implements i r ∧ i.inputs = (q.procedure r).inputs ∧
    i.outputs = (q.procedure r).outputs ∧ i.WellFormed Γ named q

section Kinds

variable {Γ : Typing} {named : List VarRef} {p q : Program} {o : Ownership}
  {first second : AtomicAction} {r : ProcRef}

variable (pair : WellFormedPair Γ named p o first second) (hp : p.Closed) (hf : first.ValidIn p)
  (hs : second.ValidIn p) (hpq : p.Extends q) (ty_eq : ∀ v, q.HasVar v → Γ.ty v = q.tyOf v)
  (hglobals : ∀ v ∈ p.globals, v ∈ named)

include pair hpq

theorem CommutativityParts.implementation_wellFormed {firstBlocks secondBlocks : List BlockRef}
    {requires : List ExprRef} {e : ExprRef} (hs : second.ValidIn p)
    (h : CommutativityParts p o first second firstBlocks secondBlocks requires e r q) :
    ((commutativityProcedure first second requires e).implementedBy r
      (first.primary.locals ++ second.shadow.locals) (firstBlocks ++ secondBlocks)).WellFormed
        Γ named q where
  nodup := pair.nodup
  notGlobal := pair.notGlobal_of_mem hpq
  commands := by
    have wider {vs : List VarRef} (hvs : ∀ v ∈ vs, v ∈ first.primary.vars ++ second.shadow.vars) :
        ∀ v ∈ named ++ vs, v ∈ named ++ pairVars first second := by
      intro v hv
      exact List.mem_append.2 ((List.mem_append.1 hv).imp_right fun hv =>
        (pairVars_perm first second).mem_iff.2 (hvs v hv))
    refine List.forall_mem_append.2 ⟨fun b hb c hc => ?_, fun b hb c hc => ?_⟩
    · exact (h.firstCopied.commands_wellFormed pair.firstCopy b hb c hc).mono
        (wider fun v hv => List.mem_append.2 (.inl hv))
    · exact (h.secondCopied.commands_wellFormed pair.secondCopy b hb c hc).mono
        (wider fun v hv => List.mem_append.2 (.inr hv))
  targets := by
    refine List.forall_mem_append.2 ⟨fun b hb t ht => List.mem_append.2 ?_, fun b hb t ht =>
      List.mem_append.2 (.inr ?_)⟩
    · refine ((h.firstCopied.transfer_within b hb).2 t ht).imp_right fun hexit => ?_
      obtain rfl : secondBlocks.headD default = t := by simpa using hexit
      exact (List.of_mem_zip (h.secondCopied.entry_mem hs.shadow.nonempty)).2
    · exact ((h.secondCopied.transfer_within b hb).2 t ht).resolve_right (by simp)
  values := List.forall_mem_append.2 ⟨fun b hb => (h.firstCopied.transfer_within b hb).1,
    fun b hb => (h.secondCopied.transfer_within b hb).1⟩

theorem GatePreservationParts.implementation_wellFormed {blocks : List BlockRef}
    {requires : List ExprRef}
    (h : GatePreservationParts p o first second blocks requires r q) :
    ((gatePreservationProcedure first second requires).implementedBy r second.shadow.locals
      blocks).WellFormed Γ named q := by
  have sub : (((first.primary.inputs ++ second.shadow.inputs) ++
      (first.primary.outputs ++ second.shadow.outputs)) ++ second.shadow.locals).Sublist
        (pairVars first second) := (List.sublist_append_right _ _).append_left _
  exact
    { nodup := pair.nodup.sublist sub
      notGlobal := fun v hv => pair.notGlobal_of_mem hpq v (sub.subset hv)
      commands := fun b hb c hc =>
        (h.copied.commands_wellFormed pair.secondCopy b hb c hc).mono fun v hv => by
          refine List.mem_append.2 ((List.mem_append.1 hv).imp_right fun hv => ?_)
          simp only [Replica.mem_vars] at hv
          simp only [Procedure.implementedBy, gatePreservationProcedure, List.mem_append]
          tauto
      targets := fun b hb t ht =>
        ((h.copied.transfer_within b hb).2 t ht).resolve_right (by simp)
      values := fun b hb => (h.copied.transfer_within b hb).1 }

theorem FailurePreservationParts.implementation_wellFormed {requires : List ExprRef}
    {gateFails e : ExprRef} {body : BlockRef}
    (h : FailurePreservationParts p o first second requires gateFails e body r q) :
    ((failurePreservationProcedure first second requires gateFails e).implementedBy r []
      [body]).WellFormed Γ named q := by
  have vars : (((first.primary.inputs ++ second.shadow.inputs) ++ []) ++ []).Sublist
      (pairVars first second) := by
    rw [List.append_nil, List.append_nil, pairVars, List.append_assoc]
    exact List.sublist_append_left _ _
  refine ⟨pair.nodup.sublist vars, fun v hv => pair.notGlobal_of_mem hpq v (vars.subset hv),
    ?_, ?_, ?_⟩
  · refine List.forall_mem_singleton.2 fun c hc => ?_
    rw [Program.commands, h.body_eq] at hc
    cases hc
  · refine List.forall_mem_singleton.2 fun t ht => ?_
    rw [h.body_eq] at ht
    cases ht
  · refine List.forall_mem_singleton.2 ?_
    rw [h.body_eq]
    rfl

include hp hf

/-- The gate of the first action, as it stands in a later program. -/
theorem WellFormedPair.firstGate_extends : ∀ e ∈ first.primary.gate,
    (q.expr e).FormulaOver Γ (named ++ (first.primary.inputs ++ second.shadow.inputs)) := by
  intro e he
  rw [hpq.expr_eq hp (hf.primary.gate e he)]
  exact pair.firstGate e he

theorem GatePreservationParts.wellFormedAt {blocks : List BlockRef} {requires : List ExprRef}
    (h : GatePreservationParts p o first second blocks requires r q) :
    q.WellFormedAt Γ named r := by
  have gate := pair.firstGate_extends hp hf hpq
  refine ⟨?_, _, h.implements, by rw [h.procedure_eq]; rfl, by rw [h.procedure_eq]; rfl,
    h.implementation_wellFormed pair hpq⟩
  rw [h.procedure_eq]
  refine ⟨List.forall_mem_append.2 ⟨pair.requires h.requires_eq, gate⟩,
    List.forall_mem_map.2 fun e he => ⟨e, rfl, (gate e he).mono fun v hv => ?_⟩⟩
  rw [← List.append_assoc]
  exact List.mem_append.2 (.inl hv)

include hs ty_eq hglobals

theorem CommutativityParts.wellFormedAt {firstBlocks secondBlocks : List BlockRef}
    {requires : List ExprRef} {e : ExprRef}
    (h : CommutativityParts p o first second firstBlocks secondBlocks requires e r q) :
    q.WellFormedAt Γ named r := by
  refine ⟨?_, _, h.implements, by rw [h.procedure_eq]; rfl, by rw [h.procedure_eq]; rfl,
    h.implementation_wellFormed pair hpq hs⟩
  rw [h.procedure_eq]
  refine ⟨pair.requires h.requires_eq, List.forall_mem_singleton.2 ⟨e, rfl, ?_⟩⟩
  have someFirst {P : AtomicAction → Prop} (hfirst : P first) : ∀ a ∈ some first, P a := by
    rintro a ⟨⟩
    exact hfirst
  have relation := h.related.transitionOf hp (someFirst hf.primary) hs.shadow
  refine relation.formulaOver hpq ty_eq hglobals (someFirst hf.primary) hs.shadow
    (encloses_transition (someFirst pair.firstEncloses) pair.secondEncloses)
    (someFirst pair.firstCopy) pair.secondCopy (fun v hv => List.mem_append.2 (.inl hv))
    (someFirst fun v hv => List.mem_append.2 (.inr ?_)) fun v hv => List.mem_append.2 (.inr ?_)
  · simp only [commutativityProcedure, List.mem_append] at hv ⊢
    tauto
  · simp only [commutativityProcedure, List.mem_append] at hv ⊢
    tauto

omit hf hpq in
/-- The formula of a failure preservation procedure is over the inputs of both actions: outputs are
renamed in both states and then bound. -/
theorem FailureReachability.formulaOver {e : Expr} {made : Program}
    (h : FailureReachability p first second e made q) :
    e.FormulaOver Γ (named ++ (first.primary.inputs ++ second.shadow.inputs)) := by
  obtain ⟨relation, globals, outputs, locals, -, related, copies, rfl⟩ := h.formula
  have hmade : ∀ v, made.HasVar v → Γ.ty v = made.tyOf v := fun v hv => by
    rw [ty_eq v (h.later.within.hasVar hv), Program.tyOf, Program.tyOf, h.later.var_eq v hv]
  have hrelation : relation.FormulaOver Γ
      (named ++ (first.primary.inputs ++ second.shadow.inputs) ++ second.shadow.outputs) := by
    refine (related.transitionOf hp (by simp) hs.shadow).formulaOver h.earlier hmade hglobals
      (by simp) hs.shadow (encloses_transition (by simp) pair.secondEncloses) (by simp)
      pair.secondCopy (fun v hv => ?_) (by simp) fun v hv => ?_
    · exact List.mem_append.2 (.inl (List.mem_append.2 (.inl hv)))
    · simp only [List.mem_append] at hv ⊢
      tauto
  have hgate : (gateFailsFormula p first).FormulaOver Γ
      (named ++ (first.primary.inputs ++ second.shadow.inputs) ++ second.shadow.outputs) :=
    pair.gateFails.mono fun v hv => List.mem_append.2 (.inl hv)
  refine (hrelation.and hgate).bind (fun u hu => ?_) (fun u hu => ?_) fun x hx hkept => ?_
  · have hsecond := hs.mono h.earlier.within
    have hvar := h.later.within.hasVar
      (copies.hasVar_fst h.closed (Extends.refl made) hsecond.shadow u hu)
    have hcopy := copies.fresh.valid u ((copies_perm _ _ _).mem_iff.2 hu)
    rw [ty_eq _ hcopy, ty_eq _ hvar, copies.tyOf_eq h.closed h.later hsecond u hu]
  · exact List.mem_map.2 ⟨u, (copies_perm _ _ _).mem_iff.2 hu, rfl⟩
  · refine (List.mem_append.1 hx).resolve_right fun hout => ?_
    rw [List.map_append, List.map_append, copies.outputs_after, copies.outputs_before] at hkept
    exact hkept.elim (fun h => h (List.mem_append.2 (.inr hout)))
      fun h => h (List.mem_append.2 (.inl hout))

omit hf in
theorem FailurePreservationParts.wellFormedAt {requires : List ExprRef} {gateFails e : ExprRef}
    {body : BlockRef}
    (h : FailurePreservationParts p o first second requires gateFails e body r q) :
    q.WellFormedAt Γ named r := by
  refine ⟨?_, _, h.implements, by rw [h.procedure_eq]; rfl, by rw [h.procedure_eq]; rfl,
    h.implementation_wellFormed pair hpq⟩
  rw [h.procedure_eq]
  obtain ⟨made, reachable⟩ := h.reachability
  refine ⟨List.forall_mem_append.2 ⟨pair.requires h.requires_eq, List.forall_mem_cons.2
    ⟨?_, fun g hg => ?_⟩⟩, List.forall_mem_singleton.2 ⟨e, rfl, ?_⟩⟩
  · rw [h.gateFails_eq]
    exact pair.gateFails
  · rw [hpq.expr_eq hp (hs.shadow.gate g hg)]
    exact pair.secondGate g hg
  · exact (reachable.formulaOver pair hp hs ty_eq hglobals).mono fun v hv => by
      simpa [failurePreservationProcedure] using hv

/-- Every obligation about two well-formed copies is well formed. -/
theorem ObligationParts.wellFormedAt {kind : ObligationKind}
    (h : ObligationParts p o first second kind r q) : q.WellFormedAt Γ named r := by
  cases h with
  | commutativity parts => exact parts.wellFormedAt pair hp hf hs hpq ty_eq hglobals
  | gatePreservation parts => exact parts.wellFormedAt pair hp hf hpq
  | failurePreservation parts => exact parts.wellFormedAt pair hp hs hpq ty_eq hglobals

end Kinds

end AtomicMovers
