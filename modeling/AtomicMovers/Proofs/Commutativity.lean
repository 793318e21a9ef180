import AtomicMovers.Proofs.TransitionRelation
import AtomicMovers.Proofs.Validity

/-!
# Commutativity procedures

The implementation of a commutativity procedure runs the primary copy of the first action and then the
shadow copy of the second (`performs_commutativity_iff`). Its postcondition is the relation of the
runs in the other order. So the procedure is valid exactly if the two actions commute
(`commutativity_valid_iff`).
-/

namespace AtomicMovers

open Program

section

variable {D : Type} {I : Interpretation D} {base p q : Program} {actions : List AtomicAction}
  {o : Ownership} {first second : AtomicAction}

/-- The implementation runs the first action and then the second. -/
theorem performs_commutativity_iff (hp : Assembly.Sound base p actions)
    (hq : Assembly.Sound base q actions) (hpq : p.Extends q)
    (pair : DisciplinedPair base actions (some first) second) (rf : first.ReturnsValues base)
    (rs : second.ReturnsValues base) {firstBlocks secondBlocks : List BlockRef}
    {requires : List ExprRef} {e : ExprRef} {r : ProcRef}
    (parts : CommutativityParts p o first second firstBlocks secondBlocks requires e r q)
    {s t : State D} :
    q.Performs I ((commutativityProcedure first second requires e).implementedBy r
        (first.primary.locals ++ second.shadow.locals) (firstBlocks ++ secondBlocks)) s t ↔
      q.RunsInTurn I first.primary second.shadow s t := by
  have hf := pair.first_mem first rfl
  have hs := pair.second_mem
  have validF := hp.validIn hf
  have validS := hp.validIn hs
  have entryF := parts.firstCopied.entry_mem validF.primary.nonempty
  have entryS := parts.secondCopied.entry_mem validS.shadow.nonempty
  have copiesF := parts.firstCopied.copies hp.closed hpq validF.primary.blocks
  have copiesS := parts.secondCopied.copies hp.closed hpq validS.shadow.blocks
  have staysF : ∀ u ∈ first.primary.blocks.zip firstBlocks, (q.block u.1).transfer ≠ .leave :=
    fun u hu => stays_primary hq.grows (hq.built first hf) rf u.1 (List.of_mem_zip hu).1
  have staysS : ∀ u ∈ second.shadow.blocks.zip secondBlocks, (q.block u.1).transfer ≠ .leave :=
    fun u hu => stays_shadow (hq.built second hs) rs u.1 (List.of_mem_zip hu).1
  -- the implementation is entered at the copy of the entry of the first action
  have hhead : (firstBlocks ++ secondBlocks).headD default = firstBlocks.headD default := by
    cases hb : firstBlocks with
    | nil => rw [hb] at entryF; simp at entryF
    | cons b bs => rfl
  refine exists_congr fun l => and_congr_right fun _ => ?_
  show q.Exits I ((firstBlocks ++ secondBlocks).headD default) _ t ↔ _
  rw [hhead, exits_iff, copiesF.finishes_goto_iff staysF (copiesF.enterBlock entryF _)]
  refine exists_congr fun m => and_congr ?_ ?_
  · exact (completes_primary_iff hq hf (pair.first_disciplined first rfl) _).symm
  · rw [copiesS.finishes_iff staysS (copiesS.enterBlock entryS m)]
    exact (completes_shadow_iff hq hs pair.second_disciplined _).symm

end

/-- A commutativity procedure is valid exactly if what the first and then the second action reach is
reached in the other order too, up to variables that neither globals nor outputs show. -/
theorem commutativity_valid_iff {base p q : Program} {actions : List AtomicAction}
    (hbase : base.Closed) (assembly : Assembly base p actions) {first second : AtomicAction}
    (hf : first ∈ actions) (hs : second ∈ actions) (df : first.Disciplined base)
    (ds : second.Disciplined base) (rf : first.ReturnsValues base) (rs : second.ReturnsValues base)
    (hygienic : Hygienic (base.globals ++ first.primary.vars ++ second.primary.vars)
      (first.primary.commands base ++ second.primary.commands base))
    {o : Ownership} {r : ProcRef} (run : (addCommutativity o first second).run p = (.ok r, q))
    {D : Type} (I : Interpretation D) :
    q.Valid I r ↔
      ∀ s, DisjointAt q I o first second s →
        ∀ t, q.RunsInTurn I first.primary second.shadow s t →
          ∃ t', q.RunsInTurn I second.shadow first.primary s t' ∧
            State.AgreeOn (q.globals ++ first.primary.outputs ++ second.shadow.outputs) t' t := by
  have hp := assembly.sound hbase
  have pair := DisciplinedPair.ofActions hf hs df ds hygienic
  have validF := hp.validIn hf
  have validS := hp.validIn hs
  obtain ⟨hpq, closed, firstBlocks, secondBlocks, requires, e, parts⟩ :=
    (attempts_addCommutativity hp.closed validF validS).of_run run
  have hq := hp.extends hpq closed
  rw [valid_iff parts.procedure_eq parts.implements]
  -- precondition, runs and postcondition are each what the other side speaks about
  refine forall_congr' fun s => imp_congr ?_ (forall_congr' fun t => imp_congr ?_ ?_)
  · show (∀ e ∈ requires, (q.expr e).Holds I q.tyOf s s) ↔ _
    rw [forall_holds_iff parts.requires_eq, ← disjointnessClauses_extends hp.closed validF validS hpq,
      holds_disjointnessClauses]
  · exact performs_commutativity_iff hp hq hpq pair rf rs parts
  · rw [← related_holds_iff hp hq pair parts.related]
    simp [Program.Ensures, commutativityProcedure, Postcondition.ofFormula]

/-- Deposits and deposits. -/
theorem commutativity_valid_iff_deposit : ∃ r q,
    (addCommutativity (.ofProgram Account.program) Account.deposit Account.deposit).run
        Account.registered = (.ok r, q) ∧
      ∀ I : Interpretation Int, q.Valid I r ↔
        ∀ s, DisjointAt q I (.ofProgram Account.program) Account.deposit Account.deposit s →
          ∀ t, q.RunsInTurn I Account.deposit.primary Account.deposit.shadow s t →
            ∃ t', q.RunsInTurn I Account.deposit.shadow Account.deposit.primary s t' ∧
              State.AgreeOn
                (q.globals ++ Account.deposit.primary.outputs ++ Account.deposit.shadow.outputs)
                t' t := by
  have run := eq_ok_of_isOk (x := (addCommutativity (.ofProgram Account.program) Account.deposit
    Account.deposit).run Account.registered) (by decide +kernel)
  have hmem : Account.deposit ∈ [Account.deposit] := List.mem_singleton_self _
  exact ⟨_, _, run, commutativity_valid_iff Account.closed Account.assembly hmem hmem
    Account.disciplined Account.disciplined Account.returnsValues Account.returnsValues
    Account.hygienic run⟩

end AtomicMovers
