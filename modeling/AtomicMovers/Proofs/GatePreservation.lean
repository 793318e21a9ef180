import AtomicMovers.Proofs.Validity

/-!
# Gate preservation procedures

The implementation of a gate preservation procedure is a copy of the shadow copy of the second action.
It has the same runs, those that complete and those that fail, through the same states
(`traverses_copy_iff`). No use is made of how the blocks are connected, so this holds of bodies with
cycles and with assertions too. It follows that the procedure is valid exactly if the second action
keeps the gate of the first (`gatePreservation_valid_iff`).
-/

namespace AtomicMovers

open Program

section

variable {D : Type}

/-- What can be seen of a run apart from the block: the commands that are left, and the state. -/
def Config.view (c : Config D) : List (Command Expr) × State D := (c.rest, c.state)

/-- Some run from `s` at the block `entry` comes to a configuration that satisfies `P`, and the given
views are those of the configurations on its way, the last one included. -/
def Program.Traverses (p : Program) (I : Interpretation D) (P : Config D → Prop) (entry : BlockRef)
    (s : State D) (views : List (List (Command Expr) × State D)) : Prop :=
  ∃ passed c, p.Trace I s (p.enterBlock entry s) passed c ∧ P c ∧
    views = (passed ++ [c]).map Config.view

/-- Some run of the copy from `s` completes in `t`. Its locals start with any values of their
types. -/
def Program.Runs (p : Program) (I : Interpretation D) (a : Replica) (s t : State D) : Prop :=
  ∃ l, I.InRange p.tyOf a.locals l ∧ p.Completes I a.entry (s.override a.locals l) t

end

section

variable {D : Type} {I : Interpretation D} {p : Program} {pairs : List (BlockRef × BlockRef)}

theorem Config.Matches.view_eq {c d : Config D} (h : c.Matches pairs d) : d.view = c.view :=
  Prod.ext h.rest h.state

theorem map_view_eq {passed passed' : List (Config D)}
    (h : List.Forall₂ (Config.Matches pairs) passed passed') {c d : Config D}
    (hcd : c.Matches pairs d) :
    (passed' ++ [d]).map Config.view = (passed ++ [c]).map Config.view := by
  rw [List.map_append, List.map_append, map_eq_map_of_forall₂ (h.imp fun _ _ h => h.view_eq)]
  exact congrArg _ (congrArg (fun x => [x]) hcd.view_eq)

/-- The copy and the graph have the same runs, as far as they end in configurations that correspond. -/
theorem traverses_copy_iff (h : p.Copies Transfer.IsLeave pairs) {P Q : Config D → Prop}
    (hPQ : ∀ c d, c.Matches pairs d → (Q d ↔ P c)) {b b' : BlockRef} (hb : (b, b') ∈ pairs)
    {s : State D} {views : List (List (Command Expr) × State D)} :
    p.Traverses I Q b' s views ↔ p.Traverses I P b s views := by
  have start := h.enterBlock hb s
  constructor
  · rintro ⟨passed', c', htrace, hQ, rfl⟩
    obtain ⟨passed, c, htrace', hc, hpassed⟩ := h.trace_original start htrace
    exact ⟨passed, c, htrace', (hPQ c c' hc).1 hQ, map_view_eq hpassed hc⟩
  · rintro ⟨passed, c, htrace, hP, rfl⟩
    obtain ⟨passed', c', htrace', hc, hpassed⟩ := h.trace_copy start htrace
    exact ⟨passed', c', htrace', (hPQ c c' hc).2 hP, (map_view_eq hpassed hc).symm⟩

/-- Configurations that correspond fail together. -/
theorem Config.Matches.fails_iff {c d : Config D} (h : c.Matches pairs d) {start : State D} :
    d.Fails p I start ↔ c.Fails p I start := by
  rw [Config.Fails, Config.Fails, h.rest, h.state]

/-- Where the graph never leaves, the copy leaves when the graph returns a value. -/
theorem Config.Matches.leaves_iff {c d : Config D} (h : c.Matches pairs d)
    (hcopies : p.Copies Transfer.IsLeave pairs)
    (stays : ∀ u ∈ pairs, (p.block u.1).transfer ≠ .leave) :
    d.Leaves p ↔ c.Returns p := by
  rw [Config.Leaves, Config.Returns, h.rest]
  exact and_congr_right fun _ => hcopies.isLeave_iff h.block (stays _ h.block)

end

section

variable {D : Type} {I : Interpretation D} {q : Program}

/-- An implementation whose blocks are a copy of those of `a`, with the same locals, runs as `a`
does. -/
theorem performs_copy_iff {a : Replica} {blocks : List BlockRef}
    (copies : q.Copies Transfer.IsLeave (a.blocks.zip blocks))
    (stays : ∀ u ∈ a.blocks.zip blocks, (q.block u.1).transfer ≠ .leave)
    (entry : (a.entry, blocks.headD default) ∈ a.blocks.zip blocks) (x : Procedure) (r : ProcRef)
    {s t : State D} : q.Performs I (x.implementedBy r a.locals blocks) s t ↔ q.Runs I a s t := by
  refine exists_congr fun l => and_congr_right fun _ => ?_
  rw [completes_iff]
  exact exits_iff.trans (copies.finishes_iff stays (copies.enterBlock entry _))

/-- Formulas without `old` that are ensured hold in the final state. -/
theorem ensures_formulas_iff {x : Procedure} {gate : List ExprRef}
    (hx : x.ensures = gate.map .ofFormula) (oldFree : ∀ e ∈ gate, (q.expr e).OldFree)
    {s t : State D} :
    q.Ensures I x s t ↔ ∀ e ∈ gate, (q.expr e).Holds I q.tyOf t t := by
  rw [Program.Ensures, hx, List.forall_mem_map]
  refine forall₂_congr fun e he => ?_
  simp only [Postcondition.ofFormula, Condition.formula.injEq, exists_eq_left']
  rw [Expr.Holds, Expr.Holds, Expr.eval_eq_of_oldFree _ s t t (oldFree e he)]

end

/-- The implementation of a gate preservation procedure has the runs of the shadow copy of the second
action, and the procedure is valid exactly if these keep the gate of the first. -/
theorem gatePreservation_valid_iff {base p q : Program} {actions : List AtomicAction}
    (hbase : base.Closed) (assembly : Assembly base p actions) {first second : AtomicAction}
    (hf : first ∈ actions) (hs : second ∈ actions) (df : first.Disciplined base)
    (rs : second.ReturnsValues base) {o : Ownership} {r : ProcRef}
    (run : (addGatePreservation o first second).run p = (.ok r, q)) :
    ∃ i ∈ q.implementationRefs, (q.implementation i).procedure = r ∧
      ∀ {D : Type} (I : Interpretation D),
        (∀ s views,
          (q.Traverses I (Config.Leaves q) ((q.implementation i).blocks.headD default) s views ↔
            q.Traverses I (Config.Returns q) second.shadow.entry s views) ∧
          (q.Traverses I (Config.Fails q I s) ((q.implementation i).blocks.headD default) s views ↔
            q.Traverses I (Config.Fails q I s) second.shadow.entry s views)) ∧
        (q.Valid I r ↔
          ∀ s, DisjointAt q I o first second s →
            (∀ e ∈ first.primary.gate, (q.expr e).Holds I q.tyOf s s) →
              ∀ t, q.Runs I second.shadow s t →
                ∀ e ∈ first.primary.gate, (q.expr e).Holds I q.tyOf t t) := by
  have hp := assembly.sound hbase
  have validF := hp.validIn hf
  have validS := hp.validIn hs
  obtain ⟨hpq, closed, blocks, requires, parts⟩ :=
    (attempts_addGatePreservation hp.closed validF validS).of_run run
  have hq := hp.extends hpq closed
  have copies : q.Copies Transfer.IsLeave (second.shadow.blocks.zip blocks) :=
    parts.copied.copies hp.closed hpq validS.shadow.blocks
  have stays : ∀ u ∈ second.shadow.blocks.zip blocks, (q.block u.1).transfer ≠ .leave :=
    fun u hu => stays_shadow (hq.built second hs) rs u.1 (List.of_mem_zip hu).1
  have entry := parts.copied.entry_mem validS.shadow.nonempty
  obtain ⟨i, hi, himpl⟩ := parts.implements.exists_ref
  refine ⟨i, hi, by rw [himpl]; rfl, fun {D} I => ⟨fun s views => ?_, ?_⟩⟩
  · rw [himpl]
    exact ⟨traverses_copy_iff copies (fun c d h => h.leaves_iff copies stays) entry,
      traverses_copy_iff copies (fun c d h => h.fails_iff) entry⟩
  · rw [valid_iff parts.procedure_eq parts.implements]
    have oldFree := oldFree_gate hbase hq.grows (hq.built first hf) df
    refine forall_congr' fun s => ?_
    -- the gate is required along with disjointness, and ensured without a look at the prior state
    have requires_iff : q.Requires I (gatePreservationProcedure first second requires) s ↔
        DisjointAt q I o first second s ∧
          ∀ e ∈ first.primary.gate, (q.expr e).Holds I q.tyOf s s := by
      rw [Program.Requires, gatePreservationProcedure, List.forall_mem_append,
        forall_holds_iff parts.requires_eq, ← disjointnessClauses_extends hp.closed validF validS hpq,
        holds_disjointnessClauses]
    rw [requires_iff, and_imp]
    refine imp_congr_right fun _ => imp_congr_right fun _ => forall_congr' fun t => imp_congr ?_ ?_
    · exact performs_copy_iff copies stays entry _ r
    · exact ensures_formulas_iff rfl oldFree

/-- A deposit and the gate of a deposit. -/
theorem gatePreservation_valid_iff_deposit : ∃ r q,
    (addGatePreservation (.ofProgram Account.program) Account.deposit Account.deposit).run
        Account.registered = (.ok r, q) ∧
      ∃ i ∈ q.implementationRefs, (q.implementation i).procedure = r ∧
        ∀ {D : Type} (I : Interpretation D),
          (∀ s views,
            (q.Traverses I (Config.Leaves q) ((q.implementation i).blocks.headD default) s views ↔
              q.Traverses I (Config.Returns q) Account.deposit.shadow.entry s views) ∧
            (q.Traverses I (Config.Fails q I s) ((q.implementation i).blocks.headD default) s views ↔
              q.Traverses I (Config.Fails q I s) Account.deposit.shadow.entry s views)) ∧
          (q.Valid I r ↔
            ∀ s, DisjointAt q I (.ofProgram Account.program) Account.deposit Account.deposit s →
              (∀ e ∈ Account.deposit.primary.gate, (q.expr e).Holds I q.tyOf s s) →
                ∀ t, q.Runs I Account.deposit.shadow s t →
                  ∀ e ∈ Account.deposit.primary.gate, (q.expr e).Holds I q.tyOf t t) := by
  have run := eq_ok_of_isOk (x := (addGatePreservation (.ofProgram Account.program) Account.deposit
    Account.deposit).run Account.registered) (by decide +kernel)
  have hmem : Account.deposit ∈ [Account.deposit] := List.mem_singleton_self _
  exact ⟨_, _, run, gatePreservation_valid_iff Account.closed Account.assembly hmem hmem
    Account.disciplined Account.returnsValues run⟩

end AtomicMovers
