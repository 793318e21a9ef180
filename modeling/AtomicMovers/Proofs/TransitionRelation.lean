import AtomicMovers.Proofs.Discipline

/-!
# Transition relations are exact

The relation computed for two actions holds of a prior and a current state exactly if some run of the
shadow copy of the second action, continued by some run of the primary copy of the first, leads from
the prior state to one that agrees with the current state on globals and outputs
(`transition_holds_iff`).
-/

namespace AtomicMovers

open Program

/-- Some run of the copy `a` from `s`, continued by some run of the copy `b`, completes in `t`. The
locals of both start with any values of their types. -/
def Program.RunsInTurn {D : Type} (p : Program) (I : Interpretation D) (a b : Replica)
    (s t : State D) : Prop :=
  ∃ l, I.InRange p.tyOf (a.locals ++ b.locals) l ∧
    ∃ m, p.Completes I a.entry (s.override (a.locals ++ b.locals) l) m ∧ p.Completes I b.entry m t

section

variable {D : Type} {I : Interpretation D} {base p q : Program} {actions : List AtomicAction}
  {first second : AtomicAction}

/-- Primary and shadow copies have no variable and no block in common. -/
theorem copies_apart (hf : first.BuiltIn base p) (hs : second.BuiltIn base p) :
    first.primary.vars.Disjoint second.shadow.vars ∧
      first.primary.blocks.Disjoint second.shadow.blocks := by
  obtain ⟨made, _, hbm, hm⟩ := hs.mirrors
  exact ⟨fun v hv hv' => hm.vars.fresh v hv' (hbm.within.hasVar (hf.vars v hv)),
    fun b hb hb' => hm.graph.fresh b hb' (hbm.within.hasBlock (hf.blocks b hb))⟩

/-- The values of locals may be given in either order. -/
theorem runsInTurn_iff_runsTo (h : Assembly.Sound base q actions)
    (pair : DisciplinedPair base actions (some first) second) (start : State D) {s t : State D} :
    q.RunsInTurn I second.shadow first.primary s t ↔
      ∃ l, I.InRange q.tyOf (transitionLocals (some first) second) l ∧
        q.RunsTo I start (transitionNext (some first)) second.shadow.entry
          (s.override (transitionLocals (some first) second) l) t := by
  have same : ∀ v, v ∈ second.shadow.locals ++ first.primary.locals ↔
      v ∈ transitionLocals (some first) second := by
    intro v
    rw [transitionLocals, Option.map_some, Option.getD_some, List.mem_append, List.mem_append]
    exact or_comm
  refine exists_congr fun l => and_congr ?_ ?_
  · exact forall_congr' fun v => imp_congr_left (same v)
  · rw [State.override_congr same]
    -- both runs count as started in `start`, which they do not look at
    exact exists_congr fun m => and_congr
      (completes_shadow_iff h pair.second_mem pair.second_disciplined start)
      (completes_primary_iff h (pair.first_mem first rfl) (pair.first_disciplined first rfl) start)

/-- A relation made between `p` and `q` says what runs of the second and then the first action do. -/
theorem related_holds_iff (hp : Assembly.Sound base p actions) (hq : Assembly.Sound base q actions)
    (pair : DisciplinedPair base actions (some first) second) {e : Expr}
    (h : RelatedBetween (some first) second p e q) {s s' : State D} :
    e.Holds I q.tyOf s s' ↔
      ∃ t, q.RunsInTurn I second.shadow first.primary s t ∧
        State.AgreeOn (q.globals ++ first.primary.outputs ++ second.shadow.outputs) t s' := by
  rw [holds_related hp hq pair h s]
  simp only [runsInTurn_iff_runsTo hq pair s]
  constructor
  · rintro ⟨l, hl, t, hrun, hagree⟩
    exact ⟨t, ⟨l, hl, hrun⟩, hagree⟩
  · rintro ⟨t, ⟨l, hl, hrun⟩, hagree⟩
    exact ⟨l, hl, t, hrun, hagree⟩

end

/-- The transition relation of two actions, of which the second runs first, holds of two states
exactly if their runs lead from the one to the other. -/
theorem transition_holds_iff {base p q : Program} {actions : List AtomicAction}
    (hbase : base.Closed) (assembly : Assembly base p actions) {first second : AtomicAction}
    (hf : first ∈ actions) (hs : second ∈ actions) (df : first.Disciplined base)
    (ds : second.Disciplined base)
    (hygienic : Hygienic (base.globals ++ first.primary.vars ++ second.primary.vars)
      (first.primary.commands base ++ second.primary.commands base))
    {e : ExprRef} (run : (transition (some first) second).run p = (.ok e, q)) :
    (first.primary.vars.Disjoint second.shadow.vars ∧
      first.primary.blocks.Disjoint second.shadow.blocks) ∧
      ∀ {D : Type} (I : Interpretation D) (s s' : State D),
        (q.expr e).Holds I q.tyOf s s' ↔
          ∃ t, q.RunsInTurn I second.shadow first.primary s t ∧
            State.AgreeOn (q.globals ++ first.primary.outputs ++ second.shadow.outputs) t s' := by
  have hp := assembly.sound hbase
  have pair := DisciplinedPair.ofActions hf hs df ds hygienic
  have validF : ∀ a ∈ some first, a.primary.ValidIn p :=
    fun a ha => (hp.validIn (pair.first_mem a ha)).primary
  obtain ⟨hpq, closed, relation, htree, hrelated⟩ :=
    (attempts_transition hp.closed (some first) validF (hp.validIn hs).shadow).of_run run
  refine ⟨copies_apart (hp.built first hf) (hp.built second hs), fun I s s' => ?_⟩
  rw [htree.2]
  exact related_holds_iff hp (hp.extends hpq closed) pair hrelated

/-- Two deposits one after the other. -/
theorem transition_holds_iff_deposit : ∃ e q,
    (transition (some Account.deposit) Account.deposit).run Account.registered = (.ok e, q) ∧
      ∀ (I : Interpretation Int) (s s' : State Int),
        (q.expr e).Holds I q.tyOf s s' ↔
          ∃ t, q.RunsInTurn I Account.deposit.shadow Account.deposit.primary s t ∧
            State.AgreeOn
              (q.globals ++ Account.deposit.primary.outputs ++ Account.deposit.shadow.outputs)
              t s' := by
  have run := eq_ok_of_isOk (x := (transition (some Account.deposit) Account.deposit).run
    Account.registered) (by decide +kernel)
  have hmem : Account.deposit ∈ [Account.deposit] := List.mem_singleton_self _
  exact ⟨_, _, run, (transition_holds_iff Account.closed Account.assembly hmem hmem
    Account.disciplined Account.disciplined Account.hygienic run).2⟩

end AtomicMovers
