import AtomicMovers.Obligation.Procedure
import AtomicMovers.Proofs.Replicas
import AtomicMovers.Proofs.Transitions
import Mathlib.Data.List.Perm.Basic

/-!
# What the obligations add

One statement for each kind of obligation: which blocks, expressions and declarations the new
procedure is made of (`attempts_addCommutativity`, `attempts_addGatePreservation`,
`attempts_addFailurePreservation`). They all only append (`attempts_addObligation`). What an
obligation is made of stands in every later program, and could as well have been made from an earlier
one (`ObligationParts.carried`).
-/

namespace AtomicMovers

open Program

/-- All references of the copy are valid, and it has an entry. -/
structure Replica.ValidIn (p : Program) (r : Replica) : Prop where
  vars : ∀ v ∈ r.vars, p.HasVar v
  blocks : ∀ b ∈ r.blocks, p.HasBlock b
  nonempty : r.blocks ≠ []
  gate : ∀ e ∈ r.gate, p.HasExpr e

namespace Replica

variable {p q : Program} {r : Replica}

theorem ValidIn.mono (w : p.Within q) (h : r.ValidIn p) : r.ValidIn q :=
  ⟨fun v hv => w.hasVar (h.vars v hv), fun b hb => w.hasBlock (h.blocks b hb), h.nonempty,
    fun e he => w.hasExpr (h.gate e he)⟩

theorem mem_vars {v : VarRef} : v ∈ r.vars ↔ v ∈ r.inputs ∨ v ∈ r.outputs ∨ v ∈ r.locals := by
  rw [vars, List.mem_append, List.mem_append, or_assoc]

theorem entry_mem (h : r.blocks ≠ []) : r.entry ∈ r.blocks := by
  rw [entry]
  cases hb : r.blocks with
  | nil => exact absurd hb h
  | cons b bs => simp

end Replica

/-- All references of both copies are valid. -/
structure AtomicAction.ValidIn (p : Program) (a : AtomicAction) : Prop where
  primary : a.primary.ValidIn p
  shadow : a.shadow.ValidIn p

theorem AtomicAction.ValidIn.mono {p q : Program} {a : AtomicAction} (w : p.Within q)
    (h : a.ValidIn p) : a.ValidIn q :=
  ⟨h.primary.mono w, h.shadow.mono w⟩

/-- The variables of one kind, of the primary copy of one action and the shadow copy of another. -/
theorem hasVar_of_mem_copies {p : Program} {first second : AtomicAction} (hf : first.ValidIn p)
    (hs : second.ValidIn p) {kind : Replica → List VarRef} (hkind : ∀ r v, v ∈ kind r → v ∈ r.vars) :
    ∀ v ∈ kind first.primary ++ kind second.shadow, p.HasVar v := by
  intro v hv
  rcases List.mem_append.1 hv with hv | hv
  · exact hf.primary.vars v (hkind _ v hv)
  · exact hs.shadow.vars v (hkind _ v hv)

theorem Replica.inputs_subset (r : Replica) (v : VarRef) (h : v ∈ r.inputs) : v ∈ r.vars :=
  mem_vars.2 (.inl h)

theorem Replica.outputs_subset (r : Replica) (v : VarRef) (h : v ∈ r.outputs) : v ∈ r.vars :=
  mem_vars.2 (.inr (.inl h))

theorem Replica.locals_subset (r : Replica) (v : VarRef) (h : v ∈ r.locals) : v ∈ r.vars :=
  mem_vars.2 (.inr (.inr h))

/-! ## Disjointness -/

/-- The clauses that keep the resources of the two actions apart. -/
def disjointnessClauses (p : Program) (o : Ownership) (first second : AtomicAction) : List Expr :=
  ((o.domains.map fun d => (d, domainScope p first second d)).filter fun s => s.2 ≠ []).map
    fun s => .call (Ownership.predicateName s.1 s.2.length) (s.2.map .var)

variable {p q : Program} {o : Ownership} {first second : AtomicAction}

theorem mem_of_mem_domainScope {d : String} {v : VarRef} (h : v ∈ domainScope p first second d) :
    v ∈ p.globals ∨ v ∈ first.primary.inputs ∨ v ∈ second.shadow.inputs := by
  simp only [domainScope, ownershipCandidates, List.mem_map, List.mem_filter, List.mem_append] at h
  obtain ⟨u, ⟨hu | hu, _⟩, rfl⟩ := h
  · obtain ⟨w, hw, rfl⟩ := hu
    exact hw.imp_right .inl
  · exact .inr (.inr (List.of_mem_zip hu).2)

theorem hasVar_of_mem_domainScope (hp : p.Closed) (hf : first.ValidIn p) (hs : second.ValidIn p)
    {d : String} {v : VarRef} (h : v ∈ domainScope p first second d) : p.HasVar v := by
  rcases mem_of_mem_domainScope h with h | h | h
  · exact hp.hasVar_of_mem_globals h
  · exact hf.primary.vars v (Replica.mem_vars.2 (.inl h))
  · exact hs.shadow.vars v (Replica.mem_vars.2 (.inl h))

/-- The candidates of a domain do not change while the program grows. -/
theorem domainScope_extends (hp : p.Closed) (hf : first.ValidIn p) (hs : second.ValidIn p)
    {R : Block → Block → Prop} (hpq : p.Grows R q) (d : String) :
    domainScope q first second d = domainScope p first second d := by
  rw [domainScope, domainScope, ownershipCandidates, ownershipCandidates, hpq.globals_eq]
  congr 1
  apply List.filter_congr
  intro u hu
  have hvar : p.HasVar u.1 := by
    simp only [List.mem_append, List.mem_map] at hu
    obtain ⟨v, hv | hv, rfl⟩ | hu := hu
    · exact hp.hasVar_of_mem_globals hv
    · exact hf.primary.vars v (Replica.mem_vars.2 (.inl hv))
    · exact hs.primary.vars u.1 (Replica.mem_vars.2 (.inl (List.of_mem_zip hu).1))
  rw [hpq.var_eq u.1 hvar]

/-- The clauses do not change while the program grows. -/
theorem disjointnessClauses_extends (hp : p.Closed) (hf : first.ValidIn p) (hs : second.ValidIn p)
    {R : Block → Block → Prop} (hpq : p.Grows R q) :
    disjointnessClauses q o first second = disjointnessClauses p o first second := by
  simp only [disjointnessClauses, domainScope_extends hp hf hs hpq]

theorem varsBelow_call_var {n : Nat} {f : String} {vs : List VarRef} (h : ∀ v ∈ vs, v.index < n) :
    (Expr.call f (vs.map .var)).VarsBelow n := by
  intro x hx
  simp only [Expr.free, Expr.binders, Expr.mem_freeAll, Expr.mem_bindersAll, List.mem_map] at hx
  rcases hx with ⟨_, ⟨v, hv, rfl⟩, hx⟩ | ⟨_, ⟨v, hv, rfl⟩, hx⟩
  · obtain rfl : x = v := by simpa [Expr.free] using hx
    exact h x hv
  · simp [Expr.binders] at hx

/-- The disjointness clauses, and nothing that a later step would notice. -/
theorem yields_addDisjointnessClauses (hp : p.Closed) (hf : first.ValidIn p)
    (hs : second.ValidIn p) :
    Yields p (addDisjointnessClauses o first second) fun es q =>
      (∀ e ∈ es, ¬p.HasExpr e ∧ q.HasExpr e) ∧
        es.map q.expr = disjointnessClauses p o first second := by
  unfold addDisjointnessClauses
  apply Yields.get_bind
  refine (Yields.mapM hp (Q := fun s e q => ¬p.HasExpr e ∧
    q.HasTree e (.call (Ownership.predicateName s.1 s.2.length) (s.2.map .var))) ?_ ?_).weaken
    fun es q _ _ hes => ?_
  · exact fun s e q r hqr hq h => ⟨h.1, h.2.extends hq hqr⟩
  · intro s hs' q hpq hq
    unfold Ownership.addDisjointness
    apply Yields.get_bind
    refine (yields_declareSignature hq _).bind fun _ r hqr hr _ => ?_
    have below : ∀ v ∈ s.2, r.HasVar v := by
      obtain ⟨d, _, rfl⟩ := List.mem_map.1 (List.mem_filter.1 hs').1
      exact fun v hv => (hpq.trans hqr).within.hasVar (hasVar_of_mem_domainScope hp hf hs hv)
    have new := yields_newExpr hr (varsBelow_call_var (f := Ownership.predicateName s.1 s.2.length)
      below)
    exact ⟨new.grows, new.closed, fun he =>
      not_hasExpr_newExpr hr _ ((hpq.trans hqr).within.hasExpr he), new.post⟩
  · refine ⟨fun e he => ?_, map_eq_map_of_forall₂ (hes.imp fun s e h => h.2.2)⟩
    obtain ⟨s, _, hs⟩ := exists_left_of_forall₂ hes he
    exact ⟨hs.1, hs.2.1⟩

/-! ## Procedures with implementations -/

/-- The declared implementation `i` is the one that `r` has. -/
structure Program.Implements (q : Program) (i : Implementation) (r : ProcRef) : Prop where
  exists_ref : ∃ x ∈ q.implementationRefs, q.implementation x = i
  unique : ∀ x ∈ q.implementationRefs, (q.implementation x).procedure = r →
    q.implementation x = i

/-- The implementation of a procedure with the given locals and blocks. -/
def Procedure.implementedBy (x : Procedure) (r : ProcRef) (locals : List VarRef)
    (blocks : List BlockRef) : Implementation :=
  ⟨x.name, r, x.inputs, x.outputs, locals, blocks⟩

theorem yields_addImplemented (hp : p.Closed) {r : Procedure} (hr : r.ValidIn p)
    {locals : List VarRef} (hlocals : ∀ v ∈ locals, p.HasVar v) {blocks : List BlockRef}
    (hblocks : ∀ b ∈ blocks, p.HasBlock b) :
    Yields p (addImplemented r locals blocks) fun ref q =>
      q.procedure ref = r ∧ q.Implements (r.implementedBy ref locals blocks) ref := by
  unfold addImplemented
  refine (yields_newProcedure hp hr).bind fun ref q₁ h₁ hq₁ hproc => ?_
  obtain ⟨hindex, hproc, href, himpls, hrefs⟩ := hproc
  have w := h₁.within
  refine (yields_newImplementation hq₁
    (x := r.implementedBy ref locals blocks)
    ⟨href, fun v hv => w.hasVar (hr.inputs v hv), fun v hv => w.hasVar (hr.outputs v hv),
      fun v hv => w.hasVar (hlocals v hv), fun b hb => w.hasBlock (hblocks b hb)⟩).bind
    fun i q₂ h₂ hq₂ himpl => ?_
  obtain ⟨himpl, hrefs', hprocs⟩ := himpl
  refine Yields.pure hq₂ ⟨by rw [h₂.procedure_eq ref href, hproc], ⟨i, by simp [hrefs'], himpl⟩, ?_⟩
  intro x hx hxr
  rw [hrefs', hrefs, List.mem_append, List.mem_singleton] at hx
  rcases hx with hx | rfl
  · -- an older implementation belongs to an older procedure
    exfalso
    have hxp := hp.hasImplementation_of_mem hx
    have older : p.HasProcedure (p.implementation x).procedure :=
      (hp.implementations _ (implementation_mem hxp)).procedure
    rw [(h₁.trans h₂).implementation_eq x hxp] at hxr
    rw [hxr, HasProcedure, hindex] at older
    omega
  · exact himpl

/-! ## Blocks of implementations -/

/-- What a value return becomes in an implementation. -/
def exitTransfer : Option BlockRef → Transfer
  | some b => .goto [b]
  | none => .leave

/-- Implementations keep commands, and value returns become what `exit` says. -/
theorem faithful_runPlan (hp : p.Closed) {exit : Option BlockRef} (hexit : ∀ b ∈ exit, p.HasBlock b) :
    (runPlan exit).Faithful id (· = exitTransfer exit) p where
  command c hc q hpq hq :=
    Yields.pure hq ⟨hc.mono hpq.within,
      Command.map_congr fun e he => hpq.expr_eq hp (hc.exprs e he)⟩
  valueReturn q hpq hq := by
    cases exit with
    | none => exact Yields.pure hq ⟨⟨by simp [Transfer.targets], by simp [Transfer.values]⟩, rfl⟩
    | some b =>
      refine Yields.pure hq ⟨⟨?_, by simp [Transfer.values]⟩, rfl⟩
      simpa [Transfer.targets] using hpq.within.hasBlock (hexit b rfl)

/-- The blocks `cs` of `q` run the blocks `bs` of `p` and go on as `exit` says. -/
def RunCopied (exit : Option BlockRef) (p : Program) (bs cs : List BlockRef) (q : Program) : Prop :=
  GraphCopied (fun l => l) id (· = exitTransfer exit) p bs cs q

theorem attempts_runBlocks (hp : p.Closed) (exit : Option BlockRef)
    (hexit : ∀ b ∈ exit, p.HasBlock b) (owner : String) {bs : List BlockRef}
    (hbs : ∀ b ∈ bs, p.HasBlock b) :
    Attempts p ((runPlan exit).copyBlocks owner bs) (RunCopied exit p bs) :=
  attempts_copyBlocks hp (faithful_runPlan hp hexit) owner hbs

/-- The copy of the entry comes first. -/
theorem RunCopied.entry_mem {exit : Option BlockRef} {r : Replica} {cs : List BlockRef}
    (h : RunCopied exit p r.blocks cs q) (hr : r.blocks ≠ []) :
    (r.entry, cs.headD default) ∈ r.blocks.zip cs := by
  have hlen := h.length_eq
  rw [Replica.entry]
  cases hb : r.blocks with
  | nil => exact absurd hb hr
  | cons b bs =>
    cases cs with
    | nil => rw [hb] at hlen; cases hlen
    | cons c cs => simp

/-! ## Commutativity -/

/-- The relation `e` was made at some time between `p` and `q`. -/
def RelatedBetween (first : Option AtomicAction) (second : AtomicAction) (p : Program) (e : Expr)
    (q : Program) : Prop :=
  ∃ p₁ p₂ : Program, p.Extends p₁ ∧ p₁.Closed ∧ TransitionOf first second p₁ e p₂ ∧
    p₁.Extends p₂ ∧ p₂.Extends q

/-- A relation stays one between an earlier and a later program. -/
theorem RelatedBetween.carried {p' q' : Program} {first : Option AtomicAction} {e : Expr}
    (hpp' : p.Extends p') (hqq' : q.Extends q') (h : RelatedBetween first second p' e q) :
    RelatedBetween first second p e q' := by
  obtain ⟨p₁, p₂, h₁, hp₁, hof, h₁₂, h₂⟩ := h
  exact ⟨p₁, p₂, hpp'.trans h₁, hp₁, hof, h₁₂, h₂.trans hqq'⟩

/-- The contract of a commutativity procedure. -/
def commutativityProcedure (first second : AtomicAction) (requires : List ExprRef) (e : ExprRef) :
    Procedure where
  name := ObligationKind.commutativity.procedureName first second
  inputs := first.primary.inputs ++ second.shadow.inputs
  outputs := first.primary.outputs ++ second.shadow.outputs
  requires := requires
  ensures := [.ofFormula e]

/-- The parts of a commutativity procedure. -/
structure CommutativityParts (p : Program) (o : Ownership) (first second : AtomicAction)
    (firstBlocks secondBlocks : List BlockRef) (requires : List ExprRef) (e : ExprRef)
    (r : ProcRef) (q : Program) : Prop where
  secondCopied : RunCopied none p second.shadow.blocks secondBlocks q
  firstCopied : RunCopied (some (secondBlocks.headD default)) p first.primary.blocks firstBlocks q
  apart : ∀ b ∈ firstBlocks, b ∉ secondBlocks
  requires_new : ∀ e ∈ requires, ¬p.HasExpr e
  requires_eq : requires.map q.expr = disjointnessClauses p o first second
  related : RelatedBetween (some first) second p (q.expr e) q
  procedure_eq : q.procedure r = commutativityProcedure first second requires e
  implements : q.Implements ((commutativityProcedure first second requires e).implementedBy r
    (first.primary.locals ++ second.shadow.locals) (firstBlocks ++ secondBlocks)) r

/-- The variables of the two copies, and the globals, are there for a relation. -/
theorem hasVar_of_mem_transition (hp : p.Closed) (first : Option AtomicAction)
    (hf : ∀ a ∈ first, a.primary.ValidIn p) (hs : second.shadow.ValidIn p) :
    (∀ v ∈ transitionLocals first second, p.HasVar v) ∧
      ∀ v ∈ transitionFrame first second p, p.HasVar v := by
  have shadow {v : VarRef} (h : v ∈ second.shadow.outputs ∨ v ∈ second.shadow.locals) :
      p.HasVar v := hs.vars v (Replica.mem_vars.2 (.inr h))
  cases first with
  | none =>
    simp only [transitionLocals, transitionFrame, Option.map_none, Option.getD_none, List.nil_append,
      List.append_nil, List.mem_append]
    refine ⟨fun v hv => shadow (.inr hv), ?_⟩
    rintro v (hv | hv)
    · exact hp.hasVar_of_mem_globals hv
    · exact shadow (.inl hv)
  | some a =>
    have primary {v : VarRef} (h : v ∈ a.primary.outputs ∨ v ∈ a.primary.locals) : p.HasVar v :=
      (hf a rfl).vars v (Replica.mem_vars.2 (.inr h))
    simp only [transitionLocals, transitionFrame, Option.map_some, Option.getD_some,
      List.mem_append]
    constructor
    · rintro v (hv | hv)
      · exact primary (.inr hv)
      · exact shadow (.inr hv)
    · rintro v ((hv | hv) | hv)
      · exact hp.hasVar_of_mem_globals hv
      · exact primary (.inl hv)
      · exact shadow (.inl hv)

/-- A relation that was made later says the same about the actions as one made in `p`. -/
theorem RelatedBetween.transitionOf (hp : p.Closed) {first : Option AtomicAction}
    (hf : ∀ a ∈ first, a.primary.ValidIn p) (hs : second.shadow.ValidIn p) {e : Expr}
    (h : RelatedBetween first second p e q) : TransitionOf first second p e q := by
  obtain ⟨locals, frame⟩ := hasVar_of_mem_transition hp first hf hs
  obtain ⟨p₁, p₂, h₁, hp₁, hof, h₁₂, h₂⟩ := h
  obtain ⟨paths, bound, hpaths, hbound, rfl⟩ := hof.made
  have hnext : ∀ entry ∈ transitionNext first, p.HasBlock entry := by
    intro entry hentry
    obtain ⟨a, ha, rfl⟩ := Option.map_eq_some_iff.1 hentry
    exact (hf a ha).blocks _ (Replica.entry_mem (hf a ha).nonempty)
  obtain ⟨explored, valid⟩ := hpaths.earlier hp h₁
    (hs.blocks _ (Replica.entry_mem hs.nonempty)) hnext (by simp)
  refine ⟨hof.varsBelow.mono h₂.vars_le, paths, bound, explored,
    (hbound.ofEarlier h₁ locals).grows h₂, ?_⟩
  rw [transitionFrame, h₁.globals_eq, relationFormula_extends hp h₁ _ valid]
  rfl

/-- The relation of the two actions as an expression of the program. -/
theorem attempts_transition (hp : p.Closed) (first : Option AtomicAction)
    (hf : ∀ a ∈ first, a.primary.ValidIn p) (hs : second.shadow.ValidIn p) :
    Attempts p (transition first second) fun r q =>
      ∃ e, q.HasTree r e ∧ RelatedBetween first second p e q := by
  obtain ⟨locals, frame⟩ := hasVar_of_mem_transition hp first hf hs
  exact (attempts_transitionOf hp frame locals).weaken fun r q hpq _ ⟨e, hr, he⟩ =>
    ⟨e, hr, p, q, Extends.refl p, hp, he, hpq, Extends.refl q⟩

theorem attempts_addCommutativity (hp : p.Closed) (hf : first.ValidIn p) (hs : second.ValidIn p) :
    Attempts p (addCommutativity o first second) fun r q =>
      ∃ firstBlocks secondBlocks requires e,
        CommutativityParts p o first second firstBlocks secondBlocks requires e r q := by
  unfold addCommutativity
  -- the second action is copied first, since the first one goes on at its entry
  refine (attempts_runBlocks hp none (by simp) _ hs.shadow.blocks).bind
    fun secondBlocks q₁ h₁ hq₁ hsecond => ?_
  have hentry : q₁.HasBlock (secondBlocks.headD default) :=
    hsecond.valid _ (List.of_mem_zip (hsecond.entry_mem hs.shadow.nonempty)).2
  refine (attempts_runBlocks hq₁ (some (secondBlocks.headD default)) (by simpa using hentry) _
    fun b hb => h₁.within.hasBlock (hf.primary.blocks b hb)).bind
    fun firstBlocks q₂ h₂ hq₂ hfirst => ?_
  have h₁₂ := h₁.trans h₂
  refine (Attempts.lift (yields_addDisjointnessClauses hq₂ (hf.mono h₁₂.within)
    (hs.mono h₁₂.within))).bind fun requires q₃ h₃ hq₃ hrequires => ?_
  have h₁₃ := h₁₂.trans h₃
  have hf₃ : ∀ a ∈ some first, a.primary.ValidIn q₃ := by
    rintro a ⟨⟩
    exact hf.primary.mono h₁₃.within
  refine (attempts_transition hq₃ (some first) hf₃ (hs.shadow.mono h₁₃.within)).bind
    fun e q₄ h₄ hq₄ he => ?_
  obtain ⟨relation, htree, hrelated⟩ := he
  have h₁₄ := h₁₃.trans h₄
  have hf₄ := hf.mono h₁₄.within
  have hs₄ := hs.mono h₁₄.within
  have hcontract : (commutativityProcedure first second requires e).ValidIn q₄ :=
    { inputs := hasVar_of_mem_copies hf₄ hs₄ Replica.inputs_subset
      outputs := hasVar_of_mem_copies hf₄ hs₄ Replica.outputs_subset
      requires := fun x hx => h₄.within.hasExpr (hrequires.1 x hx).2
      ensures := by simpa [commutativityProcedure, Postcondition.ofFormula, Condition.ValidIn]
        using htree.1 }
  have hblocks : ∀ b ∈ firstBlocks ++ secondBlocks, q₄.HasBlock b := by
    intro b hb
    rcases List.mem_append.1 hb with hb | hb
    · exact (h₃.trans h₄).within.hasBlock (hfirst.valid b hb)
    · exact (h₂.trans (h₃.trans h₄)).within.hasBlock (hsecond.valid b hb)
  refine Attempts.lift ((yields_addImplemented hq₄ hcontract
    (hasVar_of_mem_copies hf₄ hs₄ Replica.locals_subset) hblocks).weaken fun r q h hq hr => ?_)
  -- each part was made in a program of its own, and stands in all later ones
  refine ⟨firstBlocks, secondBlocks, requires, e, ?_, ?_, ?_, ?_, ?_, ?_, hr.1, hr.2⟩
  · exact hsecond.extends hq₁ (h₂.trans (h₃.trans (h₄.trans h)))
  · exact (hfirst.extends hq₂ (h₃.trans (h₄.trans h))).ofEarlier hp h₁ hf.primary.blocks
  · exact fun b hb hb' => hfirst.fresh b hb (hsecond.valid b hb')
  · exact fun x hx hxp => (hrequires.1 x hx).1 (h₁₂.within.hasExpr hxp)
  · rw [← disjointnessClauses_extends hp hf hs h₁₂, ← hrequires.2]
    exact List.map_congr_left fun x hx => (h₄.trans h).expr_eq hq₃ (hrequires.1 x hx).2
  · rw [(htree.extends hq₄ h).2]
    exact hrelated.carried h₁₃ h

/-! ## Gate preservation -/

/-- The contract of a gate preservation procedure. -/
def gatePreservationProcedure (first second : AtomicAction) (requires : List ExprRef) :
    Procedure where
  name := ObligationKind.gatePreservation.procedureName first second
  inputs := first.primary.inputs ++ second.shadow.inputs
  outputs := first.primary.outputs ++ second.shadow.outputs
  requires := requires ++ first.primary.gate
  ensures := first.primary.gate.map .ofFormula

/-- The parts of a gate preservation procedure. -/
structure GatePreservationParts (p : Program) (o : Ownership) (first second : AtomicAction)
    (blocks : List BlockRef) (requires : List ExprRef) (r : ProcRef) (q : Program) : Prop where
  copied : RunCopied none p second.shadow.blocks blocks q
  requires_new : ∀ e ∈ requires, ¬p.HasExpr e
  requires_eq : requires.map q.expr = disjointnessClauses p o first second
  procedure_eq : q.procedure r = gatePreservationProcedure first second requires
  implements : q.Implements ((gatePreservationProcedure first second requires).implementedBy r
    second.shadow.locals blocks) r

theorem attempts_addGatePreservation (hp : p.Closed) (hf : first.ValidIn p)
    (hs : second.ValidIn p) :
    Attempts p (addGatePreservation o first second) fun r q =>
      ∃ blocks requires, GatePreservationParts p o first second blocks requires r q := by
  unfold addGatePreservation
  refine (attempts_runBlocks hp none (by simp) _ hs.shadow.blocks).bind
    fun blocks q₁ h₁ hq₁ hcopied => ?_
  refine (Attempts.lift (yields_addDisjointnessClauses hq₁ (hf.mono h₁.within)
    (hs.mono h₁.within))).bind fun requires q₂ h₂ hq₂ hrequires => ?_
  have h₁₂ := h₁.trans h₂
  have hf₂ := hf.mono h₁₂.within
  have hs₂ := hs.mono h₁₂.within
  have hcontract : (gatePreservationProcedure first second requires).ValidIn q₂ :=
    { inputs := hasVar_of_mem_copies hf₂ hs₂ Replica.inputs_subset
      outputs := hasVar_of_mem_copies hf₂ hs₂ Replica.outputs_subset
      requires := List.forall_mem_append.2 ⟨fun x hx => (hrequires.1 x hx).2, hf₂.primary.gate⟩
      ensures := List.forall_mem_map.2 hf₂.primary.gate }
  refine Attempts.lift ((yields_addImplemented hq₂ hcontract
    (fun v hv => hs₂.shadow.vars v (Replica.locals_subset _ v hv))
    fun b hb => h₂.within.hasBlock (hcopied.valid b hb)).weaken fun r q h hq hr => ?_)
  refine ⟨blocks, requires, hcopied.extends hq₁ (h₂.trans h),
    fun x hx hxp => (hrequires.1 x hx).1 (h₁.within.hasExpr hxp), ?_, hr.1, hr.2⟩
  rw [← disjointnessClauses_extends hp hf hs h₁, ← hrequires.2]
  exact List.map_congr_left fun x hx => h.expr_eq hq₂ (hrequires.1 x hx).2

/-! ## Failure preservation -/

/-- The copies of the state that the variables bound by a reachability formula belong to. -/
def reachabilityStates (p : Program) (second : AtomicAction) : List StateCopy :=
  (p.globals.flatMap fun _ => [.after]) ++
    (second.shadow.outputs.flatMap fun _ => [.after, .before]) ++
    second.shadow.locals.flatMap fun _ => [.before]

/-- The copies of variables that a reachability formula binds. -/
structure ReachabilityCopies (second : AtomicAction) (p : Program)
    (globals : List (VarRef × VarRef)) (outputs : List ((VarRef × VarRef) × (VarRef × VarRef)))
    (locals : List (VarRef × VarRef)) (q : Program) : Prop where
  fresh : FreshPairs p (globals ++ outputs.flatMap (fun x => [x.1, x.2]) ++ locals)
    (reachabilityStates p second) q
  globals_eq : globals.map Prod.fst = p.globals
  outputs_after : (outputs.map Prod.fst).map Prod.fst = second.shadow.outputs
  outputs_before : (outputs.map Prod.snd).map Prod.fst = second.shadow.outputs
  locals_eq : locals.map Prod.fst = second.shadow.locals

theorem ReachabilityCopies.extends {r : Program} {globals locals : List (VarRef × VarRef)}
    {outputs : List ((VarRef × VarRef) × (VarRef × VarRef))}
    (h : ReachabilityCopies second p globals outputs locals q) (hqr : q.Extends r) :
    ReachabilityCopies second p globals outputs locals r :=
  { h with fresh := h.fresh.extends hqr }

/-- The copies for the current state, and then those for the prior one. In the quantifier the two
copies of each output stand side by side. -/
theorem copies_perm (globals : List (VarRef × VarRef))
    (outputs : List ((VarRef × VarRef) × (VarRef × VarRef))) (locals : List (VarRef × VarRef)) :
    (globals ++ outputs.flatMap (fun x => [x.1, x.2]) ++ locals).Perm
      ((globals ++ outputs.map Prod.fst) ++ (outputs.map Prod.snd ++ locals)) := by
  have pairs := outputs.flatMap_append_perm (fun x => [x.1]) (fun x => [x.2])
  rw [← List.map_eq_flatMap, ← List.map_eq_flatMap] at pairs
  rw [← List.append_assoc, List.append_assoc globals (outputs.map Prod.fst)]
  exact (pairs.symm.append_left globals).append_right locals

/-- The variables that are copied were there before. -/
theorem ReachabilityCopies.hasVar_fst {made : Program} {globals locals : List (VarRef × VarRef)}
    {outputs : List ((VarRef × VarRef) × (VarRef × VarRef))} (hp : p.Closed) (hpm : p.Extends made)
    (hs : second.shadow.ValidIn p)
    (copies : ReachabilityCopies second made globals outputs locals q) :
    ∀ u ∈ (globals ++ outputs.map Prod.fst) ++ (outputs.map Prod.snd ++ locals), p.HasVar u.1 := by
  intro u hu
  have fst_mem : u.1 ∈ p.globals ++ second.shadow.outputs ++
      (second.shadow.outputs ++ second.shadow.locals) := by
    have := List.mem_map_of_mem (f := Prod.fst) hu
    rwa [List.map_append, List.map_append, List.map_append, copies.globals_eq,
      copies.outputs_after, copies.outputs_before, copies.locals_eq, hpm.globals_eq] at this
  simp only [List.mem_append] at fst_mem
  rcases fst_mem with (hu | hu) | hu | hu
  · exact hp.hasVar_of_mem_globals hu
  · exact hs.vars _ (Replica.outputs_subset _ _ hu)
  · exact hs.vars _ (Replica.outputs_subset _ _ hu)
  · exact hs.vars _ (Replica.locals_subset _ _ hu)

/-- The reachability formula over the given copies. -/
def reachabilityFormula (globals : List (VarRef × VarRef))
    (outputs : List ((VarRef × VarRef) × (VarRef × VarRef))) (locals : List (VarRef × VarRef))
    (condition : Expr) : Expr :=
  Expr.existsAll ((globals ++ outputs.flatMap (fun x => [x.1, x.2]) ++ locals).map Prod.snd)
    (condition.subst
      { current := Substitution.renaming (globals ++ outputs.map Prod.fst)
        prior := Substitution.renaming (outputs.map Prod.snd ++ locals) })

theorem yields_newOutputBindings (hp : p.Closed) {v : VarRef} (hv : p.HasVar v) :
    Yields p (newOutputBindings v) fun b q =>
      FreshPairs p [b.1.pair, b.2.pair] [.after, .before] q ∧ b.1.Of v q ∧ b.2.Of v q := by
  unfold newOutputBindings
  refine (yields_newBinding hp .after v).bind fun a q hpq hq ⟨fresh, ha⟩ => ?_
  refine (yields_newBinding hq .before v).bind fun b r hqr hr ⟨fresh', hb⟩ => ?_
  refine Yields.pure hr ⟨?_, ha.extends hq hqr, hb⟩
  have k := fresh.freshPairs.append hpq hqr (by simpa using hv) fresh'.freshPairs
  rw [Binding.pair, Binding.pair, ha.1, hb.1]
  exact k

theorem yields_mapM_newOutputBindings (hp : p.Closed) {vs : List VarRef}
    (hvs : ∀ v ∈ vs, p.HasVar v) :
    Yields p (vs.mapM newOutputBindings) fun bs q =>
      FreshPairs p (bs.flatMap fun b => [b.1.pair, b.2.pair])
          (vs.flatMap fun _ => [.after, .before]) q ∧
        List.Forall₂ (fun v b => b.1.Of v q ∧ b.2.Of v q) vs bs := by
  refine yields_mapM_freshPairs hp (Q := fun v (b : Binding × Binding) q => b.1.Of v q ∧ b.2.Of v q)
    (fun _ _ _ _ hqr hq hb => ⟨hb.1.extends hq hqr, hb.2.extends hq hqr⟩) ?_
    (fun v q hq hv => yields_newOutputBindings hq hv) hvs
  intro v b q hb
  simpa [Binding.pair] using ⟨hb.1.1, hb.2.1⟩

/-- What is bound for the globals, then for the outputs and then for the locals. -/
theorem ReachabilityCopies.ofBindings {q₁ q₂ q₃ : Program} {globals locals : List Binding}
    {outputs : List (Binding × Binding)} (hp : second.shadow.ValidIn p) (h₁ : p.Extends q₁)
    (h₂ : q₁.Extends q₂) (h₃ : q₂.Extends q₃)
    (hglobals : FreshPairs p (globals.map Binding.pair) (p.globals.flatMap fun _ => [.after]) q₁)
    (houtputs : FreshPairs q₁ (outputs.flatMap fun b => [b.1.pair, b.2.pair])
      (second.shadow.outputs.flatMap fun _ => [.after, .before]) q₂)
    (hlocals : FreshPairs q₂ (locals.map Binding.pair)
      (second.shadow.locals.flatMap fun _ => [.before]) q₃)
    (global : BindingsOf p.globals globals q₃)
    (after : BindingsOf second.shadow.outputs (outputs.map Prod.fst) q₃)
    (before : BindingsOf second.shadow.outputs (outputs.map Prod.snd) q₃)
    (inner : BindingsOf second.shadow.locals locals q₃) :
    ReachabilityCopies second p (globals.map Binding.pair)
      (outputs.map (Prod.map Binding.pair Binding.pair)) (locals.map Binding.pair) q₃ where
  fresh := by
    rw [List.flatMap_map]
    refine (hglobals.append h₁ h₂ (fun u hu => ?_) houtputs).append (h₁.trans h₂) h₃
      (fun u hu => ?_) hlocals
    · obtain ⟨b, hb, hu⟩ := List.mem_flatMap.1 hu
      have hout : u.1 ∈ second.shadow.outputs := by
        simp only [List.mem_cons, List.not_mem_nil, or_false] at hu
        rcases hu with rfl | rfl
        · exact after.map_pair_fst ▸ List.mem_map_of_mem (List.mem_map_of_mem
            (List.mem_map_of_mem hb))
        · exact before.map_pair_fst ▸ List.mem_map_of_mem (List.mem_map_of_mem
            (List.mem_map_of_mem hb))
      exact hp.vars _ (Replica.outputs_subset _ _ hout)
    · have hinner : u.1 ∈ second.shadow.locals :=
        inner.map_pair_fst ▸ List.mem_map_of_mem hu
      exact hp.vars _ (Replica.locals_subset _ _ hinner)
  globals_eq := global.map_pair_fst
  outputs_after := by rw [← after.map_pair_fst]; simp
  outputs_before := by rw [← before.map_pair_fst]; simp
  locals_eq := inner.map_pair_fst

theorem yields_addReachability (hp : p.Closed) (hs : second.ValidIn p) {x y : ExprRef}
    {relation outcome : Expr} (hx : p.HasTree x relation) (hy : p.HasTree y outcome) :
    Yields p (addReachability second x y) fun e q =>
      ∃ globals outputs locals, ReachabilityCopies second p globals outputs locals q ∧
        q.HasTree e (reachabilityFormula globals outputs locals (relation.and outcome)) := by
  have hglobals : ∀ v ∈ p.globals, p.HasVar v := fun v hv => hp.hasVar_of_mem_globals hv
  have houtputs : ∀ v ∈ second.shadow.outputs, p.HasVar v :=
    fun v hv => hs.shadow.vars v (Replica.outputs_subset _ v hv)
  have hlocals : ∀ v ∈ second.shadow.locals, p.HasVar v :=
    fun v hv => hs.shadow.vars v (Replica.locals_subset _ v hv)
  unfold addReachability
  apply Yields.get_bind
  refine (yields_mapM_newBinding hp .after hglobals).bind fun globals q₁ h₁ hq₁ hg => ?_
  refine (yields_mapM_newOutputBindings hq₁
    fun v hv => h₁.within.hasVar (houtputs v hv)).bind fun outputs q₂ h₂ hq₂ ho => ?_
  have h₁₂ := h₁.trans h₂
  refine (yields_mapM_newBinding hq₂ .before
    fun v hv => h₁₂.within.hasVar (hlocals v hv)).bind fun locals q₃ h₃ hq₃ hl => ?_
  have h₁₃ := h₁₂.trans h₃
  -- outputs have two copies each, so they are listed once for each state
  have before : BindingsOf second.shadow.outputs (outputs.map Prod.snd) q₃ :=
    List.forall₂_map_right_iff.2 (ho.2.imp fun v b hb => hb.2.extends hq₂ h₃)
  have after : BindingsOf second.shadow.outputs (outputs.map Prod.fst) q₃ :=
    List.forall₂_map_right_iff.2 (ho.2.imp fun v b hb => hb.1.extends hq₂ h₃)
  have hg₃ := hg.2.extends hq₁ (h₂.trans h₃)
  have copies :=
    ReachabilityCopies.ofBindings hs.shadow h₁ h₂ h₃ hg.1 ho.1 hl.1 hg₃ after before hl.2
  refine (yields_newBinary hq₃ .and (hx.extends hp h₁₃) (hy.extends hp h₁₃)).bind
    fun condition q₄ h₄ hq₄ ⟨_, hcondition⟩ => ?_
  have current := ((hg₃.append after).extends hq₃ h₄).refersTo
  have prior := ((before.append hl.2).extends hq₃ h₄).refersTo
  have bound : (globals ++ outputs.flatMap (fun x => [x.1, x.2]) ++ locals).map Binding.bound =
      (globals.map Binding.pair ++ (outputs.map (Prod.map Binding.pair Binding.pair)).flatMap
        (fun x => [x.1, x.2]) ++ locals.map Binding.pair).map Prod.snd := by
    simp [List.map_flatMap, List.flatMap_map, Binding.pair, Function.comp_def]
  refine (yields_newExists hq₄ ?valid (current.validIn_both prior) ?none hcondition).weaken
    fun e q₅ h₅ _ he => ⟨_, _, _, copies.extends (h₄.trans h₅), ?_⟩
  case valid =>
    rw [bound]
    exact List.forall_mem_map.2 fun u hu => h₄.within.hasVar (copies.fresh.valid u hu)
  case none =>
    intro h
    rw [List.map_eq_nil_iff, List.append_eq_nil_iff, List.append_eq_nil_iff] at h
    obtain ⟨⟨rfl, none⟩, rfl⟩ := h
    obtain rfl : outputs = [] := by
      cases outputs with
      | nil => rfl
      | cons b bs => cases none
    rfl
  have trees : TwoState.map q₄.expr _ = _ := current.map_expr_eq_both prior
  have fsts : (globals ++ outputs.map Prod.fst).map Binding.pair = globals.map Binding.pair ++
      (outputs.map (Prod.map Binding.pair Binding.pair)).map Prod.fst := by
    simp [Function.comp_def]
  have snds : (outputs.map Prod.snd ++ locals).map Binding.pair =
      (outputs.map (Prod.map Binding.pair Binding.pair)).map Prod.snd ++
        locals.map Binding.pair := by
    simp [Function.comp_def]
  rwa [trees, bound, fsts, snds] at he

/-- The gate of the first action fails. -/
def gateFailsFormula (p : Program) (first : AtomicAction) : Expr :=
  (Expr.conjoin (first.primary.gate.map p.expr)).not

theorem varsBelow_gateFailsFormula (hp : p.Closed) (first : AtomicAction) :
    (gateFailsFormula p first).VarsBelow p.vars.size := by
  refine Expr.VarsBelow.conjoin fun e he => ?_
  obtain ⟨x, _, rfl⟩ := List.mem_map.1 he
  exact hp.varsBelow_expr x

/-- The gate that was made in `p`, as it is in a later program. -/
theorem gateFailsFormula_extends (hp : p.Closed) (hf : first.ValidIn p) (hpq : p.Extends q) :
    gateFailsFormula q first = gateFailsFormula p first := by
  rw [gateFailsFormula, gateFailsFormula]
  congr 2
  exact List.map_congr_left fun e he => hpq.expr_eq hp (hf.primary.gate e he)

/-- The conjuncts of the gate are shared. -/
theorem yields_gate (hp : p.Closed) (hf : first.ValidIn p) :
    Yields p (newConjunction pure first.primary.gate) fun r q =>
      q.HasTree r (Expr.conjoin (first.primary.gate.map p.expr)) :=
  (yields_newConjunction hp fun x hx q hpq hq =>
    have valid := hf.primary.gate x hx
    Yields.pure hq ⟨.refl q, hpq.toExtends.within.hasExpr valid,
      hpq.toExtends.expr_eq hp valid⟩).weaken fun _ _ _ _ h => h.2

/-- The contract of a failure preservation procedure. -/
def failurePreservationProcedure (first second : AtomicAction) (requires : List ExprRef)
    (gateFails e : ExprRef) : Procedure where
  name := ObligationKind.failurePreservation.procedureName first second
  inputs := first.primary.inputs ++ second.shadow.inputs
  requires := requires ++ gateFails :: second.shadow.gate
  ensures := [.ofFormula e]

/-- The formula `e` says that the second action can run so that the gate still fails. Its copies of
variables are new since `made`, when its relation was there already. -/
structure FailureReachability (p : Program) (first second : AtomicAction) (e : Expr)
    (made q : Program) : Prop where
  earlier : p.Extends made
  closed : made.Closed
  later : made.Extends q
  formula : ∃ relation globals outputs locals, relation.VarsBelow made.vars.size ∧
    RelatedBetween none second p relation made ∧
    ReachabilityCopies second made globals outputs locals q ∧
    e = reachabilityFormula globals outputs locals (relation.and (gateFailsFormula p first))

/-- The parts of a failure preservation procedure. -/
structure FailurePreservationParts (p : Program) (o : Ownership) (first second : AtomicAction)
    (requires : List ExprRef) (gateFails e : ExprRef) (body : BlockRef) (r : ProcRef)
    (q : Program) : Prop where
  requires_new : ∀ e ∈ requires, ¬p.HasExpr e
  requires_eq : requires.map q.expr = disjointnessClauses p o first second
  gateFails_eq : q.expr gateFails = gateFailsFormula p first
  reachability : ∃ made, FailureReachability p first second (q.expr e) made q
  body_eq : q.block body = { label := "L", commands := [], transfer := .leave }
  procedure_eq : q.procedure r = failurePreservationProcedure first second requires gateFails e
  implements : q.Implements ((failurePreservationProcedure first second requires gateFails
    e).implementedBy r [] [body]) r

theorem attempts_addFailurePreservation (hp : p.Closed) (hf : first.ValidIn p)
    (hs : second.ValidIn p) :
    Attempts p (addFailurePreservation o first second) fun r q =>
      ∃ requires gateFails e body,
        FailurePreservationParts p o first second requires gateFails e body r q := by
  unfold addFailurePreservation
  refine (attempts_transition hp none (by simp) hs.shadow).bind
    fun x q₁ h₁ hq₁ ⟨relation, hx, hrelated⟩ => ?_
  refine (Attempts.lift (yields_gate hq₁ (hf.mono h₁.within))).bind
    fun gate q₂ h₂ hq₂ hgate => ?_
  refine (Attempts.lift (yields_newUnary hq₂ .not hgate)).bind
    fun gateFails q₃ h₃ hq₃ ⟨_, hfails⟩ => ?_
  have h₁₃ := h₁.trans (h₂.trans h₃)
  have gate_eq : (Expr.conjoin (first.primary.gate.map q₁.expr)).not = gateFailsFormula p first :=
    gateFailsFormula_extends hp hf h₁
  have hfails : q₃.HasTree gateFails (gateFailsFormula p first) := gate_eq ▸ hfails
  refine (Attempts.lift (yields_addDisjointnessClauses hq₃ (hf.mono h₁₃.within)
    (hs.mono h₁₃.within))).bind fun requires q₄ h₄ hq₄ hrequires => ?_
  -- `q₄` is where the copies of variables are new: the relation and the gate were there before
  have h₂₄ := h₂.trans (h₃.trans h₄)
  have h₁₄ := h₁₃.trans h₄
  have hx₄ := hx.extends hq₁ h₂₄
  refine (Attempts.lift (yields_addReachability hq₄ (hs.mono h₁₄.within) hx₄
    (hfails.extends hq₃ h₄))).bind fun e q₅ h₅ hq₅ ⟨globals, outputs, locals, copies, he⟩ => ?_
  have hbody : Block.ValidIn q₅ { label := "L", commands := [], transfer := .leave } :=
    ⟨by simp, ⟨by simp [Transfer.targets], by simp [Transfer.values]⟩⟩
  refine (Attempts.lift (yields_newBlock hq₅ hbody)).bind fun body q₆ h₆ hq₆ hblock => ?_
  have h₄₆ := h₅.trans h₆
  have h₁₆ := h₁₄.trans h₄₆
  have hf₆ := hf.mono h₁₆.within
  have hs₆ := hs.mono h₁₆.within
  have he₆ := he.extends hq₅ h₆
  have hfails₆ := hfails.extends hq₃ (h₄.trans h₄₆)
  have hcontract : (failurePreservationProcedure first second requires gateFails e).ValidIn q₆ :=
    { inputs := hasVar_of_mem_copies hf₆ hs₆ Replica.inputs_subset
      outputs := by simp [failurePreservationProcedure]
      requires := List.forall_mem_append.2
        ⟨fun x hx => h₄₆.within.hasExpr (hrequires.1 x hx).2,
          List.forall_mem_cons.2 ⟨hfails₆.1, hs₆.shadow.gate⟩⟩
      ensures := by simpa [failurePreservationProcedure, Postcondition.ofFormula,
        Condition.ValidIn] using he₆.1 }
  refine Attempts.lift ((yields_addImplemented hq₆ hcontract (by simp)
    (by simpa using hblock.2.1)).weaken fun r q h hq hr => ?_)
  refine ⟨requires, gateFails, e, body, ?_, ?_, (hfails₆.extends hq₆ h).2, ⟨q₄, ?_⟩, ?_, hr.1, hr.2⟩
  · exact fun x hx hxp => (hrequires.1 x hx).1 (h₁₃.within.hasExpr hxp)
  · rw [← disjointnessClauses_extends hp hf hs h₁₃, ← hrequires.2]
    exact List.map_congr_left fun x hx => (h₄₆.trans h).expr_eq hq₄ (hrequires.1 x hx).2
  · exact ⟨h₁₄, hq₄, h₄₆.trans h, relation, globals, outputs, locals, hx₄.varsBelow hq₄,
      hrelated.carried (Extends.refl p) h₂₄, copies.extends (h₆.trans h),
      (he₆.extends hq₆ h).2⟩
  · rw [h.block_eq hblock.2.1, hblock.2.2]

/-! ## All kinds -/

/-- The parts of an obligation about two actions. -/
inductive ObligationParts (p : Program) (o : Ownership) (first second : AtomicAction) :
    ObligationKind → ProcRef → Program → Prop where
  | commutativity {firstBlocks secondBlocks : List BlockRef} {requires : List ExprRef} {e : ExprRef}
    {r : ProcRef} {q : Program}
    (parts : CommutativityParts p o first second firstBlocks secondBlocks requires e r q) :
    ObligationParts p o first second .commutativity r q
  | gatePreservation {blocks : List BlockRef} {requires : List ExprRef} {r : ProcRef} {q : Program}
    (parts : GatePreservationParts p o first second blocks requires r q) :
    ObligationParts p o first second .gatePreservation r q
  | failurePreservation {requires : List ExprRef} {gateFails e : ExprRef} {body : BlockRef}
    {r : ProcRef} {q : Program}
    (parts : FailurePreservationParts p o first second requires gateFails e body r q) :
    ObligationParts p o first second .failurePreservation r q

theorem attempts_obligationParts (hp : p.Closed) (kind : ObligationKind) (hf : first.ValidIn p)
    (hs : second.ValidIn p) :
    Attempts p (addObligation o kind first second) (ObligationParts p o first second kind) := by
  cases kind with
  | commutativity =>
    exact (attempts_addCommutativity hp hf hs).weaken
      fun _ _ _ _ ⟨_, _, _, _, parts⟩ => .commutativity parts
  | gatePreservation =>
    exact (attempts_addGatePreservation hp hf hs).weaken
      fun _ _ _ _ ⟨_, _, parts⟩ => .gatePreservation parts
  | failurePreservation =>
    exact (attempts_addFailurePreservation hp hf hs).weaken
      fun _ _ _ _ ⟨_, _, _, _, parts⟩ => .failurePreservation parts

/-- Whatever the obligation, adding it only appends, also when it fails. -/
theorem attempts_addObligation (hp : p.Closed) (kind : ObligationKind) (hf : first.ValidIn p)
    (hs : second.ValidIn p) : Attempts p (addObligation o kind first second) fun _ _ => True :=
  (attempts_obligationParts hp kind hf hs).weaken fun _ _ _ _ _ => trivial

/-! ### Parts in a longer program -/

section Carried

variable {p' q' : Program} {r : ProcRef}

/-- A procedure that has an implementation is one of the program. -/
theorem Program.Implements.hasProcedure (hq : q.Closed) {x : Procedure} {locals : List VarRef}
    {blocks : List BlockRef} (h : q.Implements (x.implementedBy r locals blocks) r) :
    q.HasProcedure r := by
  obtain ⟨i, hi, himpl⟩ := h.exists_ref
  have valid := hq.implementations _ (implementation_mem (hq.hasImplementation_of_mem hi))
  rw [himpl] at valid
  exact valid.procedure

/-- The contract of a procedure in a later program. -/
theorem Program.Implements.contract (hq : q.Closed) (hqq' : q.Extends q') {x : Procedure}
    {locals : List VarRef} {blocks : List BlockRef}
    (h : q.Implements (x.implementedBy r locals blocks) r) (hx : q.procedure r = x) :
    q'.procedure r = x ∧ (∀ e ∈ x.requires, q'.expr e = q.expr e) ∧
      ∀ post ∈ x.ensures, ∀ e, post.condition = .formula e → q'.expr e = q.expr e := by
  have hr := h.hasProcedure hq
  have valid := hq.procedures _ (procedure_mem hr)
  rw [hx] at valid
  refine ⟨by rw [hqq'.procedure_eq r hr, hx], fun e he => hqq'.expr_eq hq (valid.requires e he), ?_⟩
  intro post hpost e he
  have formula := valid.ensures post hpost
  rw [he] at formula
  exact hqq'.expr_eq hq formula

variable (hp : p.Closed) (hf : first.ValidIn p) (hs : second.ValidIn p) (hpp' : p.Extends p')
  (hq : q.Closed) (hqq' : q.Extends q')

include hp hf hs hpp' hq hqq'

theorem CommutativityParts.carried {firstBlocks secondBlocks : List BlockRef}
    {requires : List ExprRef} {e : ExprRef}
    (h : CommutativityParts p' o first second firstBlocks secondBlocks requires e r q)
    (kept : ∀ i, i.procedure = r → q.Implements i r → q'.Implements i r) :
    CommutativityParts p o first second firstBlocks secondBlocks requires e r q' := by
  obtain ⟨procedure_eq, requires_eq, ensures_eq⟩ := h.implements.contract hq hqq' h.procedure_eq
  refine ⟨(h.secondCopied.ofEarlier hp hpp' hs.shadow.blocks).extends hq hqq',
    (h.firstCopied.ofEarlier hp hpp' hf.primary.blocks).extends hq hqq', h.apart,
    fun e he hep => h.requires_new e he (hpp'.within.hasExpr hep), ?_, ?_,
    procedure_eq, kept _ rfl h.implements⟩
  · rw [← disjointnessClauses_extends hp hf hs hpp', ← h.requires_eq]
    exact List.map_congr_left requires_eq
  · rw [ensures_eq (.ofFormula e) (by simp [commutativityProcedure]) e rfl]
    exact h.related.carried hpp' hqq'

theorem GatePreservationParts.carried {blocks : List BlockRef} {requires : List ExprRef}
    (h : GatePreservationParts p' o first second blocks requires r q)
    (kept : ∀ i, i.procedure = r → q.Implements i r → q'.Implements i r) :
    GatePreservationParts p o first second blocks requires r q' := by
  obtain ⟨procedure_eq, requires_eq, -⟩ := h.implements.contract hq hqq' h.procedure_eq
  refine ⟨(h.copied.ofEarlier hp hpp' hs.shadow.blocks).extends hq hqq',
    fun e he hep => h.requires_new e he (hpp'.within.hasExpr hep), ?_, procedure_eq,
    kept _ rfl h.implements⟩
  rw [← disjointnessClauses_extends hp hf hs hpp', ← h.requires_eq]
  exact List.map_congr_left fun e he => requires_eq e (List.mem_append.2 (.inl he))

theorem FailurePreservationParts.carried {requires : List ExprRef} {gateFails e : ExprRef}
    {body : BlockRef}
    (h : FailurePreservationParts p' o first second requires gateFails e body r q)
    (kept : ∀ i, i.procedure = r → q.Implements i r → q'.Implements i r) :
    FailurePreservationParts p o first second requires gateFails e body r q' := by
  obtain ⟨procedure_eq, requires_eq, ensures_eq⟩ := h.implements.contract hq hqq' h.procedure_eq
  have gate_eq := gateFailsFormula_extends hp hf hpp'
  have hbody : q.HasBlock body := by
    obtain ⟨i, hi, himpl⟩ := h.implements.exists_ref
    have valid := hq.implementations _ (implementation_mem (hq.hasImplementation_of_mem hi))
    rw [himpl] at valid
    exact valid.blocks body (by simp [Procedure.implementedBy])
  obtain ⟨made, earlier, closed, later, relation, globals, outputs, locals, below, related, copies,
    heq⟩ := h.reachability
  refine ⟨fun e he hep => h.requires_new e he (hpp'.within.hasExpr hep), ?_, ?_,
    ⟨made, hpp'.trans earlier, closed, later.trans hqq', relation, globals, outputs,
    locals, below, related.carried hpp' (Extends.refl made), copies.extends hqq', ?_⟩, ?_,
    procedure_eq, kept _ rfl h.implements⟩
  · rw [← disjointnessClauses_extends hp hf hs hpp', ← h.requires_eq]
    exact List.map_congr_left fun e he => requires_eq e (List.mem_append.2 (.inl he))
  · rw [requires_eq gateFails (List.mem_append.2 (.inr (by simp))), h.gateFails_eq, gate_eq]
  · rw [ensures_eq (.ofFormula e) (by simp [failurePreservationProcedure]) e rfl, heq, gate_eq]
  · rw [hqq'.block_eq hbody, h.body_eq]

/-- The parts of an obligation that was added later, as they stand in a program later still. -/
theorem ObligationParts.carried {kind : ObligationKind}
    (h : ObligationParts p' o first second kind r q)
    (kept : ∀ i, i.procedure = r → q.Implements i r → q'.Implements i r) :
    ObligationParts p o first second kind r q' := by
  cases h with
  | commutativity parts => exact .commutativity (parts.carried hp hf hs hpp' hq hqq' kept)
  | gatePreservation parts => exact .gatePreservation (parts.carried hp hf hs hpp' hq hqq' kept)
  | failurePreservation parts =>
    exact .failurePreservation (parts.carried hp hf hs hpp' hq hqq' kept)

end Carried

end AtomicMovers
