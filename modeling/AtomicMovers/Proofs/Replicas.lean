import AtomicMovers.Proofs.Bindings
import AtomicMovers.Proofs.BlockCopies

/-!
# The two copies of an action

What `AtomicAction.ofBody` makes of a body. The primary copy is the body as it stands, except that
assertions of the entry block have become assumptions (`Block.Softens`). The shadow copy has new
variables and new blocks, whose commands are those of the primary copy under the new names
(`Replica.Mirrors`).
-/

namespace AtomicMovers

open Program

namespace Replica

/-- The variables of a copy. -/
def vars (r : Replica) : List VarRef := r.inputs ++ r.outputs ++ r.locals

/-- All commands of a copy, as they stand in `p`. -/
def commands (p : Program) (r : Replica) : List (Command Expr) := r.blocks.flatMap p.commands

end Replica

/-! ## Assertions that become assumptions -/

/-- The command stays as it is, or becomes the assumption of what it asserts. -/
inductive Command.Softens {ε : Type} : Command ε → Command ε → Prop where
  | same (c : Command ε) : Softens c c
  | assumed (e : ε) : Softens (.assert e) (.assume e)

namespace Command.Softens

variable {ε δ : Type} {c d : Command ε}

theorem trans {b : Command ε} (h : Softens b c) (k : Softens c d) : Softens b d := by
  cases h with
  | same _ => exact k
  | assumed e =>
    cases k with
    | same _ => exact .assumed e

theorem map (f : ε → δ) (h : Softens c d) : Softens (c.map f) (d.map f) := by
  cases h with
  | same _ => exact .same _
  | assumed e => exact .assumed (f e)

theorem exprs_eq (h : Softens c d) : d.exprs = c.exprs := by
  cases h <;> rfl

theorem targets_eq (h : Softens c d) : d.targets = c.targets := by
  cases h <;> rfl

end Command.Softens

/-- Some assertions of the block become assumptions, and nothing else changes. -/
structure Block.Softens (old new : Block) : Prop where
  label_eq : new.label = old.label
  transfer_eq : new.transfer = old.transfer
  commands : List.Forall₂ Command.Softens old.commands new.commands

namespace Block.Softens

theorem refl (b : Block) : b.Softens b :=
  ⟨rfl, rfl, List.forall₂_same.2 fun _ _ => .same _⟩

theorem trans (a b c : Block) (h : a.Softens b) (k : b.Softens c) : a.Softens c := by
  refine ⟨k.label_eq.trans h.label_eq, k.transfer_eq.trans h.transfer_eq, ?_⟩
  have lists : ∀ {xs ys zs : List (Command ExprRef)}, List.Forall₂ Command.Softens xs ys →
      List.Forall₂ Command.Softens ys zs → List.Forall₂ Command.Softens xs zs := by
    intro xs ys zs hxy
    induction hxy generalizing zs with
    | nil => exact id
    | cons hab _ ih => exact fun | .cons hbc hyz => .cons (hab.trans hbc) (ih hyz)
  exact lists h.commands k.commands

end Block.Softens

theorem softens_assumeGate {ε : Type} (cs : List (Command ε)) :
    List.Forall₂ Command.Softens cs (assumeGate cs) := by
  fun_induction assumeGate cs with
  | case1 e cs ih => exact .cons (.assumed e) ih
  | case2 cs _ => exact List.forall₂_same.2 fun _ _ => .same _

/-- The conditions of a gate are asserted. -/
theorem assert_mem_of_mem_gateOf {ε : Type} {cs : List (Command ε)} {e : ε} (h : e ∈ gateOf cs) :
    .assert e ∈ cs := by
  fun_induction gateOf cs with
  | case1 x cs ih =>
    rcases List.mem_cons.1 h with rfl | h
    · exact List.mem_cons_self
    · exact List.mem_cons_of_mem _ (ih h)
  | case2 cs _ => simp at h

/-- The program `q` continues `p`, except that assertions in blocks of `base` may have become
assumptions. -/
structure Program.Continues (base p q : Program) : Prop where
  grows : p.Grows Block.Softens q
  kept : ∀ b, ¬base.HasBlock b → p.HasBlock b → q.block b = p.block b

namespace Program.Continues

variable {base p q r : Program}

theorem trans (h : base.Continues p q) (k : base.Continues q r) : base.Continues p r where
  grows := h.grows.trans Block.Softens.trans k.grows
  kept b hb hbp := (k.kept b hb (h.grows.within.hasBlock hbp)).trans (h.kept b hb hbp)

theorem ofExtends (h : p.Extends q) : base.Continues p q where
  grows := h.mono fun a b heq => by rw [heq]; exact Block.Softens.refl a
  kept _ _ hb := h.block_eq hb

end Program.Continues

/-- Taking the gate off a block of `base`. -/
theorem continues_takeGate {base p : Program} (hp : p.Closed) {entry : BlockRef}
    (hbase : base.HasBlock entry) (hb : p.HasBlock entry) :
    base.Continues p (takeGate entry p).2 ∧ (takeGate entry p).2.Closed := by
  have run : takeGate entry p = (gateOf (p.block entry).commands,
      p.modifyBlock entry fun b => { b with commands := assumeGate b.commands }) := rfl
  rw [run]
  refine ⟨⟨grows_modifyBlock Block.Softens.refl fun x => ⟨rfl, rfl, softens_assumeGate _⟩, ?_⟩,
    closed_modifyBlock hp ⟨?_, (hp.block hb).transfer⟩⟩
  · intro b hnb _
    have hne : b ≠ entry := fun heq => hnb (heq ▸ hbase)
    exact block_modifyBlock_of_ne hne _
  · intro d hd
    obtain ⟨c, hc, hcd⟩ := exists_left_of_forall₂ (softens_assumeGate _) hd
    have hcv := (hp.block hb).commands c hc
    exact ⟨by rw [hcd.exprs_eq]; exact hcv.exprs, by rw [hcd.targets_eq]; exact hcv.targets⟩

/-! ## Shadow variables -/

/-- Shadow variables are fresh, and the replacements refer to them. -/
theorem yields_addShadows {p : Program} (hp : p.Closed) {vs : List VarRef}
    (hvs : ∀ v ∈ vs, p.HasVar v) :
    Yields p (addShadows vs) fun r q =>
      FreshCopies Variable.toShadow p vs r.1 q ∧ RefersTo q (vs.zip r.1) r.2 := by
  unfold addShadows
  refine (yields_mapM_newVariable hp (fun _ _ => rfl) hvs).bind fun ws q _ hq hws => ?_
  refine (Yields.mapM hq (Q := fun w e r => r.HasTree e (.var w)) ?_ ?_).bind
    fun es r hqr hr hes => ?_
  · exact fun w e r r' hrr' hr h => h.extends hr hrr'
  · intro w hw r hqr hr
    exact (yields_newVar hr (hqr.within.hasVar (hws.valid w hw))).weaken fun _ _ _ _ h => h.2
  · refine Yields.pure hr ⟨hws.grows hqr, ?_⟩
    -- the pairing goes by position, so it does not matter which variables these are
    clear hvs hws
    induction hes generalizing vs with
    | nil => simp [RefersTo]
    | cons h _ ih =>
      cases vs with
      | nil => simp [RefersTo]
      | cons v vs => exact .cons ⟨rfl, h⟩ ih

/-! ## The shadow copy -/

/-- Shadow commands are renamed commands, and a value return stays one. -/
theorem faithful_shadowPlan {p : Program} (hp : p.Closed) {pairs : List (VarRef × VarRef)}
    {map : List (VarRef × ExprRef)} (hmap : RefersTo p pairs map)
    (new : ∀ u ∈ pairs, p.HasVar u.2) :
    (shadowPlan (.uniform (Substitution.ofList map))).Faithful (Command.rename pairs)
      (fun t => ∃ e, t = .returnValue e) p where
  command c hc q hpq hq := by
    have hmap' := hmap.extends hp hpq
    have hc' := hc.mono hpq.within
    have k := ExprTable.substituted_substCommand hq.childrenFirst hmap'.validIn hc'.exprs
    have same : c.map q.exprs.expr = c.map p.expr :=
      Command.map_congr fun e he => hpq.expr_eq hp (hc.exprs e he)
    rw [hmap'.map_expr_eq, same] at k
    refine yields_onExprs hq k.continues k.childrenFirst
      (ExprTable.VarsBelow.substCommand hq.nodes c) ⟨⟨k.lt_size, ?_⟩, k.map_eq⟩
    intro v hv
    -- an assigned variable keeps its name or gets one of the new ones
    have written : ((c.map p.expr).rename pairs).Writes v := by
      rw [Command.Writes, Command.rename, ← k.map_eq, Command.targets_map]
      exact hv
    rcases written.of_rename with ⟨hw, _⟩ | hw
    · exact hc'.targets v (by simpa [Command.Writes] using hw)
    · obtain ⟨u, hu, rfl⟩ := List.mem_map.1 hw
      exact hpq.within.hasVar (new u hu)
  valueReturn q hpq hq := by
    refine (yields_newExpr hq (e := .tt) (by simp [Expr.VarsBelow, Expr.tt, Expr.free,
      Expr.binders])).bind fun e r _ hr he => ?_
    exact Yields.pure hr ⟨⟨by simp [Transfer.targets], by simpa [Transfer.values] using he.1⟩, e, rfl⟩

/-- Renamed conjuncts of a gate. -/
theorem yields_substGate {p : Program} (hp : p.Closed) {pairs : List (VarRef × VarRef)}
    {map : List (VarRef × ExprRef)} (hmap : RefersTo p pairs map) {gate : List ExprRef}
    (hgate : ∀ e ∈ gate, p.HasExpr e) :
    Yields p (substGate (.uniform (Substitution.ofList map)) gate) fun es q =>
      (∀ e ∈ es, q.HasExpr e) ∧
        es.map q.expr = gate.map fun e =>
          (p.expr e).subst (.uniform (Substitution.renaming pairs)) := by
  obtain ⟨continues, childrenFirst, valid, trees⟩ := ExprTable.entered_mapM
    (ExprTable.subst (.uniform (Substitution.ofList map)))
    (fun e => (p.expr e).subst (.uniform (Substitution.renaming pairs))) gate p.exprs
    (ExprTable.Extends.refl _) hp.childrenFirst fun e he t hpt ht => by
      have hmap' := hmap.validIn.extends hpt
      have k := ExprTable.entered_subst ht hmap' (Nat.lt_of_lt_of_le (hgate e he) hpt.size_le)
      rwa [hmap.validIn.map_expr_eq hp.childrenFirst hpt, hmap.map_expr_eq,
        ExprTable.expr_eq_of_extends hp.childrenFirst hpt (hgate e he)] at k
  exact yields_onExprs hp continues childrenFirst
    (mapM_invariant (fun e _ t ht => ht.subst e) _ hp.nodes) ⟨valid, trees⟩

/-- The copy `shadow` in `q` has new variables and blocks, and is otherwise the copy `primary` as it
stands in `p`. -/
structure Replica.Mirrors (p : Program) (primary shadow : Replica) (q : Program) : Prop where
  inputs_length : shadow.inputs.length = primary.inputs.length
  outputs_length : shadow.outputs.length = primary.outputs.length
  vars : FreshCopies Variable.toShadow p primary.vars shadow.vars q
  graph : GraphCopied (fun l => StateCopy.shadow.mark ++ l)
    (Command.rename (primary.vars.zip shadow.vars)) (fun t => ∃ e, t = .returnValue e)
    p primary.blocks shadow.blocks q
  gate_valid : ∀ e ∈ shadow.gate, q.HasExpr e
  gate_eq : shadow.gate.map q.expr = primary.gate.map fun e =>
    (p.expr e).subst (.uniform (Substitution.renaming (primary.vars.zip shadow.vars)))

/-- The first part of `addShadow`: all of the shadow copy but its blocks, and the replacement of the
variables. -/
def prepareShadow (primary : Replica) : StateM Program (Replica × List (VarRef × ExprRef)) := do
  let (inputs, inputMap) ← addShadows primary.inputs
  let (outputs, outputMap) ← addShadows primary.outputs
  let (locals, localMap) ← addShadows primary.locals
  let map := inputMap ++ outputMap ++ localMap
  let gate ← substGate (.uniform (Substitution.ofList map)) primary.gate
  pure (⟨inputs, outputs, locals, [], gate⟩, map)

/-- The preparation cannot fail. Then the blocks are copied. -/
theorem addShadow_eq (name : String) (primary : Replica) :
    AtomicAction.addShadow name primary = liftM (prepareShadow primary) >>= fun x =>
      (shadowPlan (.uniform (Substitution.ofList x.2))).copyBlocks name primary.blocks >>=
        fun bs => pure { x.1 with blocks := bs } := rfl

/-- The shadow copy of `primary` in `q`, as far as it is prepared. -/
structure Replica.Prepared (p : Program) (primary shadow : Replica) (map : List (VarRef × ExprRef))
    (q : Program) : Prop where
  inputs_length : shadow.inputs.length = primary.inputs.length
  outputs_length : shadow.outputs.length = primary.outputs.length
  vars : FreshCopies Variable.toShadow p primary.vars shadow.vars q
  refers : RefersTo q (primary.vars.zip shadow.vars) map
  gate_valid : ∀ e ∈ shadow.gate, q.HasExpr e
  gate_eq : shadow.gate.map q.expr = primary.gate.map fun e =>
    (p.expr e).subst (.uniform (Substitution.renaming (primary.vars.zip shadow.vars)))

theorem yields_prepareShadow {p : Program} (hp : p.Closed) {primary : Replica}
    (vars : ∀ v ∈ primary.vars, p.HasVar v) (gate : ∀ e ∈ primary.gate, p.HasExpr e) :
    Yields p (prepareShadow primary) fun x q => primary.Prepared p x.1 x.2 q := by
  obtain ⟨inputs, outputs, locals, bs, es⟩ := primary
  simp only [Replica.vars, List.mem_append] at vars
  unfold prepareShadow
  refine (yields_addShadows hp fun v hv => vars v (.inl (.inl hv))).bind
    fun ⟨inputs', inputMap⟩ q₁ h₁ hq₁ ⟨hi, hiMap⟩ => ?_
  refine (yields_addShadows hq₁ fun v hv => h₁.within.hasVar (vars v (.inl (.inr hv)))).bind
    fun ⟨outputs', outputMap⟩ q₂ h₂ hq₂ ⟨ho, hoMap⟩ => ?_
  have h₁₂ := h₁.trans h₂
  refine (yields_addShadows hq₂ fun v hv => h₁₂.within.hasVar (vars v (.inr hv))).bind
    fun ⟨locals', localMap⟩ q₃ h₃ hq₃ ⟨hl, hlMap⟩ => ?_
  have h₁₃ := h₁₂.trans h₃
  -- the three kinds of variables, and their replacements, taken together
  have fresh : FreshCopies Variable.toShadow p (inputs ++ outputs ++ locals)
      (inputs' ++ outputs' ++ locals') q₃ :=
    (hi.append h₁ h₂ (fun v hv => vars v (.inl (.inr hv))) ho).append h₁₂ h₃
      (fun v hv => vars v (.inr hv)) hl
  have refers : RefersTo q₃ ((inputs ++ outputs ++ locals).zip (inputs' ++ outputs' ++ locals'))
      (inputMap ++ outputMap ++ localMap) := by
    rw [List.zip_append (by simp [hi.length_eq, ho.length_eq]), List.zip_append hi.length_eq.symm]
    exact ((hiMap.extends hq₁ (h₂.trans h₃)).append (hoMap.extends hq₂ h₃)).append hlMap
  refine (yields_substGate hq₃ refers fun e he => h₁₃.within.hasExpr (gate e he)).bind
    fun es' q₄ h₄ hq₄ hes => ?_
  refine Yields.pure hq₄ ⟨hi.length_eq, ho.length_eq, fresh.grows h₄, refers.extends hq₃ h₄, hes.1,
    hes.2.trans ?_⟩
  exact List.map_congr_left fun e he => by rw [h₁₃.expr_eq hp (gate e he)]; rfl

/-- The plan that the blocks of a prepared shadow copy are made by. -/
theorem Replica.Prepared.faithful {p q : Program} {primary shadow : Replica}
    {map : List (VarRef × ExprRef)} (h : primary.Prepared p shadow map q) (hq : q.Closed) :
    (shadowPlan (.uniform (Substitution.ofList map))).Faithful
      (Command.rename (primary.vars.zip shadow.vars)) (fun t => ∃ e, t = .returnValue e) q :=
  faithful_shadowPlan hq h.refers fun u hu => h.vars.valid u.2 (List.of_mem_zip hu).2

/-- The shadow copy mirrors the primary one. -/
theorem attempts_addShadow {p : Program} (hp : p.Closed) (name : String) {primary : Replica}
    (vars : ∀ v ∈ primary.vars, p.HasVar v) (blocks : ∀ b ∈ primary.blocks, p.HasBlock b)
    (gate : ∀ e ∈ primary.gate, p.HasExpr e) :
    Attempts p (AtomicAction.addShadow name primary) fun shadow q => primary.Mirrors p shadow q := by
  rw [addShadow_eq]
  refine (Attempts.lift (yields_prepareShadow hp vars gate)).bind
    fun ⟨shadow, map⟩ q hpq hq prepared => ?_
  refine (attempts_copyBlocks hq (prepared.faithful hq) name fun b hb =>
    hpq.within.hasBlock (blocks b hb)).bind fun bs r hqr hr hbs => ?_
  refine Attempts.pure hr ⟨prepared.inputs_length, prepared.outputs_length, prepared.vars.grows hqr,
    hbs.ofEarlier hp hpq blocks, fun e he => hqr.within.hasExpr (prepared.gate_valid e he), ?_⟩
  have kept : shadow.gate.map r.expr = shadow.gate.map q.expr :=
    List.map_congr_left fun e he => hqr.expr_eq hq (prepared.gate_valid e he)
  exact kept.trans prepared.gate_eq

/-! ## Actions -/

/-- The action was made of a body of `base`, and its copies stand in `p`. What `p` has become since
the shadow copy was made does not matter for it, so the program of that time is kept. -/
structure AtomicAction.BuiltIn (base p : Program) (a : AtomicAction) : Prop where
  vars : ∀ v ∈ a.primary.vars, base.HasVar v
  blocks : ∀ b ∈ a.primary.blocks, base.HasBlock b
  nonempty : a.primary.blocks ≠ []
  gate : ∀ e ∈ a.primary.gate, base.HasExpr e
  gate_mem : ∀ e ∈ a.primary.gate, ∃ b ∈ a.primary.blocks, ∃ c ∈ (base.block b).commands, e ∈ c.exprs
  mirrors : ∃ made : Program, made.Closed ∧ base.Grows Block.Softens made ∧
    a.primary.Mirrors made a.shadow p

section BuiltIn

variable {base p q : Program}

/-- A shadow copy stays one while its blocks are kept. -/
theorem Replica.Mirrors.grows {R : Block → Block → Prop} {made : Program} {primary shadow : Replica}
    (h : primary.Mirrors made shadow p) (hp : p.Closed) (hpq : p.Grows R q)
    (kept : ∀ b ∈ shadow.blocks, q.block b = p.block b) : primary.Mirrors made shadow q where
  inputs_length := h.inputs_length
  outputs_length := h.outputs_length
  vars := h.vars.grows hpq
  graph := h.graph.grows hp hpq kept
  gate_valid e he := hpq.within.hasExpr (h.gate_valid e he)
  gate_eq := by
    rw [← h.gate_eq]
    exact List.map_congr_left fun e he => hpq.expr_eq hp (h.gate_valid e he)

theorem Replica.Mirrors.continues {made : Program} {primary shadow : Replica}
    (h : primary.Mirrors made shadow p) (hmade : base.Within made) (hp : p.Closed)
    (hpq : base.Continues p q) : primary.Mirrors made shadow q :=
  h.grows hp hpq.grows fun c hc =>
    hpq.kept c (fun hb => h.graph.fresh c hc (hmade.hasBlock hb)) (h.graph.valid c hc)

theorem AtomicAction.BuiltIn.continues {a : AtomicAction} (h : a.BuiltIn base p) (hp : p.Closed)
    (hpq : base.Continues p q) : a.BuiltIn base q :=
  { h with
    mirrors := by
      obtain ⟨made, hmade, hgrows, hm⟩ := h.mirrors
      exact ⟨made, hmade, hgrows, hm.continues hgrows.within hp hpq⟩ }

/-- The conditions of a gate are expressions of commands of `base`. -/
theorem exists_command_of_mem_gate (hp : base.Grows Block.Softens p) {entry : BlockRef}
    (hentry : base.HasBlock entry) {e : ExprRef} (he : e ∈ gateOf (p.block entry).commands) :
    ∃ c ∈ (base.block entry).commands, e ∈ c.exprs := by
  obtain ⟨c, hc, hcd⟩ := exists_left_of_forall₂ (hp.block entry hentry).commands
    (assert_mem_of_mem_gateOf he)
  exact ⟨c, hc, by rw [← hcd.exprs_eq]; simp [Command.exprs]⟩

/-- The primary copy that a body makes, with its gate. -/
def primaryOf (proc : Procedure) (body : Body) (gate : List ExprRef) : Replica :=
  { inputs := proc.inputs, outputs := proc.outputs, locals := body.locals, blocks := body.blocks,
    gate := gate }

/-- Making an action fails before anything was done, or takes the gate and adds the shadow. -/
theorem ofBody_run (r : ProcRef) (body : Body) (mover : Mover) (p : Program) :
    (∃ e, (AtomicAction.ofBody r body mover).run p = (.error e, p)) ∨
      ∃ entry rest, body.blocks = entry :: rest ∧
        (AtomicAction.ofBody r body mover).run p =
          ((AtomicAction.addShadow (p.procedure r).name
              (primaryOf (p.procedure r) body (takeGate entry p).1) >>= fun shadow =>
            pure ⟨r, (p.procedure r).name, mover,
              primaryOf (p.procedure r) body (takeGate entry p).1, shadow⟩ :
            Build AtomicAction)).run (takeGate entry p).2 := by
  rw [AtomicAction.ofBody, read_bind_run]
  dsimp only
  by_cases h : (p.procedure r).typeParams ≠ []
  · rw [if_pos h]
    exact .inl ⟨_, rfl⟩
  · rw [if_neg h]
    obtain ⟨locals, blocks⟩ := body
    cases blocks with
    | nil => exact .inl ⟨_, rfl⟩
    | cons entry rest =>
      refine .inr ⟨entry, rest, rfl, ?_⟩
      rw [lift_bind_run]
      rfl

/-- Once the gate is taken, the rest of making an action only appends, and a result is built in the
program. -/
theorem attempts_ofBody (hbase : base.Closed) (hp : p.Closed) (hbp : base.Grows Block.Softens p)
    {r : ProcRef} (hr : base.HasProcedure r) {body : Body} (hbody : body.ValidIn base)
    (mover : Mover) {entry : BlockRef} {rest : List BlockRef} (hblocks : body.blocks = entry :: rest) :
    base.Continues p (takeGate entry p).2 ∧
      Attempts (takeGate entry p).2 (AtomicAction.addShadow (p.procedure r).name
          (primaryOf (p.procedure r) body (takeGate entry p).1) >>= fun shadow =>
        pure (AtomicAction.mk r (p.procedure r).name mover
          (primaryOf (p.procedure r) body (takeGate entry p).1) shadow))
        fun a q => a.BuiltIn base q := by
  have hentry : base.HasBlock entry := hbody.blocks entry (by simp [hblocks])
  obtain ⟨taken, closed⟩ := continues_takeGate hp hentry (hbp.within.hasBlock hentry)
  have gate : ∀ e ∈ (takeGate entry p).1, ∃ c ∈ (base.block entry).commands, e ∈ c.exprs :=
    fun e he => exists_command_of_mem_gate hbp hentry he
  -- from here on only the gate `es` and the program `made`, in which it was taken, matter
  generalize takeGate entry p = result' at *
  obtain ⟨es, made⟩ := result'
  have hmade := hbp.trans Block.Softens.trans taken.grows
  have gate' : ∀ e ∈ es, base.HasExpr e := by
    intro e he
    obtain ⟨c, hc, hec⟩ := gate e he
    exact ((hbase.block hentry).commands c hc).exprs e hec
  -- the procedure is one of the base program, and has not changed since
  have hproc : (p.procedure r).ValidIn base := by
    rw [hbp.procedure_eq r hr]
    exact hbase.procedures _ (procedure_mem hr)
  have vars : ∀ v ∈ (primaryOf (p.procedure r) body es).vars, base.HasVar v := by
    intro v hv
    simp only [Replica.vars, primaryOf, List.mem_append] at hv
    rcases hv with (hv | hv) | hv
    · exact hproc.inputs v hv
    · exact hproc.outputs v hv
    · exact hbody.locals v hv
  have shadow := attempts_addShadow closed (p.procedure r).name
    (fun v hv => hmade.within.hasVar (vars v hv))
    (fun b hb => hmade.within.hasBlock (hbody.blocks b hb))
    fun e he => hmade.within.hasExpr (gate' e he)
  exact ⟨taken, shadow.bind fun s q' _ hq' hs => Attempts.pure hq'
    { vars := vars
      blocks := hbody.blocks
      nonempty := by rw [primaryOf, hblocks]; simp
      gate := gate'
      gate_mem := fun e he => ⟨entry, by rw [primaryOf, hblocks]; simp, gate e he⟩
      mirrors := ⟨made, closed, hmade, hs⟩ }⟩

/-- Making an action of a body of `base` continues the program, and a result is built in it. -/
theorem continues_ofBody (hbase : base.Closed) (hp : p.Closed) (hbp : base.Grows Block.Softens p)
    {r : ProcRef} (hr : base.HasProcedure r) {body : Body} (hbody : body.ValidIn base)
    (mover : Mover) {result : Except Error AtomicAction}
    (run : (AtomicAction.ofBody r body mover).run p = (result, q)) :
    base.Continues p q ∧ q.Closed ∧ ∀ a, result = .ok a → a.BuiltIn base q := by
  rcases ofBody_run r body mover p with ⟨e, h⟩ | ⟨entry, rest, hblocks, h⟩
  · rw [h] at run
    cases run
    exact ⟨.ofExtends (Extends.refl p), hp, fun a ha => by cases ha⟩
  · rw [h] at run
    obtain ⟨taken, grows, closed, post⟩ := attempts_ofBody hbase hp hbp hr hbody mover hblocks
    rw [run] at grows closed post
    exact ⟨taken.trans (.ofExtends grows), closed, post⟩

end BuiltIn

end AtomicMovers
