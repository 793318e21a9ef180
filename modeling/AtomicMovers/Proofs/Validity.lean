import AtomicMovers.Proofs.Discipline

/-!
# Valid procedures

A procedure is valid if its implementations keep its contract: every run that leaves the
implementation, from a state that the preconditions hold in, has ended in a state that the
postconditions hold in (`Program.Valid`). For the procedures of obligations, which have one
implementation each, this is a statement about the runs from one block (`valid_iff`).

All obligations require that resources are disjoint, which is spelled out as `DisjointAt`.
-/

namespace AtomicMovers

open Program

section

variable {D : Type}

/-- Some run of the implementation leads from `s` to `t`. Its locals start with any values of their
types. -/
def Program.Performs (p : Program) (I : Interpretation D) (i : Implementation) (s t : State D) :
    Prop :=
  ∃ l, I.InRange p.tyOf i.locals l ∧
    p.Exits I (i.blocks.headD default) (s.override i.locals l) t

/-- The preconditions hold in `s`. -/
def Program.Requires (p : Program) (I : Interpretation D) (r : Procedure) (s : State D) : Prop :=
  ∀ e ∈ r.requires, (p.expr e).Holds I p.tyOf s s

/-- The postconditions are formulas, and hold of a prior and a current state. -/
def Program.Ensures (p : Program) (I : Interpretation D) (r : Procedure) (s t : State D) : Prop :=
  ∀ post ∈ r.ensures, ∃ e, post.condition = .formula e ∧ (p.expr e).Holds I p.tyOf s t

/-- The implementations of the procedure keep its contract. -/
def Program.Valid (p : Program) (I : Interpretation D) (r : ProcRef) : Prop :=
  ∀ i ∈ p.implementationRefs, (p.implementation i).procedure = r →
    ∀ s, p.Requires I (p.procedure r) s → ∀ t, p.Performs I (p.implementation i) s t →
      p.Ensures I (p.procedure r) s t

/-- The resources of the two actions are disjoint in `s`: for each domain that has variables among
the globals, the inputs of the first action and the inputs of the second in its shadow copy, the
predicate of the domain holds of the values of these variables. -/
def DisjointAt (p : Program) (I : Interpretation D) (o : Ownership) (first second : AtomicAction)
    (s : State D) : Prop :=
  ∀ d ∈ o.domains, domainScope p first second d ≠ [] →
    (I.call (Ownership.predicateName d (domainScope p first second d).length)
      ((domainScope p first second d).map s)).Holds

end

section

variable {D : Type} {I : Interpretation D} {p q : Program} {o : Ownership}
  {first second : AtomicAction}

theorem valid_iff {r : ProcRef} {x : Procedure} {locals : List VarRef} {blocks : List BlockRef}
    (hx : q.procedure r = x) (h : q.Implements (x.implementedBy r locals blocks) r) :
    q.Valid I r ↔ ∀ s, q.Requires I x s →
      ∀ t, q.Performs I (x.implementedBy r locals blocks) s t → q.Ensures I x s t := by
  subst hx
  obtain ⟨i, hi, himpl⟩ := h.exists_ref
  constructor
  · intro hvalid s hs t ht
    have hproc : (q.implementation i).procedure = r := by rw [himpl]; rfl
    exact hvalid i hi hproc s hs t (himpl ▸ ht)
  · intro hvalid j hj hproc s hs t ht
    rw [h.unique j hj hproc] at ht
    exact hvalid s hs t ht

/-- Conditions hold where their trees do. -/
theorem forall_holds_iff {es : List ExprRef} {trees : List Expr} (h : es.map q.expr = trees)
    {s t : State D} : (∀ e ∈ es, (q.expr e).Holds I q.tyOf s t) ↔
      ∀ e ∈ trees, e.Holds I q.tyOf s t := by
  rw [← h, List.forall_mem_map]

/-- What the disjointness clauses say. -/
theorem holds_disjointnessClauses {ty : VarRef → Ty} {s : State D} :
    (∀ e ∈ disjointnessClauses p o first second, e.Holds I ty s s) ↔
      DisjointAt p I o first second s := by
  have clause (d : String) (vs : List VarRef) :
      (Expr.call (Ownership.predicateName d vs.length) (vs.map .var)).Holds I ty s s ↔
        (I.call (Ownership.predicateName d vs.length) (vs.map s)).Holds := by
    rw [Expr.Holds, Expr.eval, Expr.evalAll_eq_map, List.map_map]
    rfl
  rw [disjointnessClauses, List.forall_mem_map]
  simp only [List.mem_filter, List.mem_map, decide_eq_true_eq]
  constructor
  · intro h d hd hne
    exact (clause d _).1 (h (d, _) ⟨⟨d, hd, rfl⟩, hne⟩)
  · rintro h _ ⟨⟨d, hd, rfl⟩, hne⟩
    exact (clause d _).2 (h d hd hne)

/-- The blocks of an implementation run as the blocks that they were copied from. -/
theorem RunCopied.copies {exit : Option BlockRef} {bs cs : List BlockRef} (hp : p.Closed)
    (hpq : p.Extends q) (hbs : ∀ b ∈ bs, p.HasBlock b) (h : RunCopied exit p bs cs q) :
    q.Copies (· = exitTransfer exit) (bs.zip cs) where
  commands u hu := by
    rw [h.commands u hu, hpq.commands_eq hp (hbs u.1 (List.of_mem_zip hu).1), List.map_id]
  transfer u hu := by
    rw [hpq.block_eq (hbs u.1 (List.of_mem_zip hu).1)]
    exact h.transfer u hu

end

end AtomicMovers
