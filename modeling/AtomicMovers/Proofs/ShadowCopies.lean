import AtomicMovers.Proofs.Registration
import AtomicMovers.Proofs.Siblings

/-!
# Shadow copies of one body

What a shadow copy looks like does not depend on the program it was added to, as far as the blocks of
the body are the same there: two shadow copies of one body have the same variables, the same gate and
the same blocks, up to the handles that are new (`Replica.AlikeOver`, `Replica.Mirrors.alikeOver`).
Whether there is a shadow copy at all depends on the gotos of the body only (`exists_ofBody`).
-/

namespace AtomicMovers

open Program

/-! ## Commands with other variables -/

/-- Renames all variables of a command. -/
def Command.mapVars (ρ : VarRef → VarRef) : Command Expr → Command Expr
  | assert e => assert (e.mapVars ρ)
  | assume e => assume (e.mapVars ρ)
  | assign updates => assign (updates.map fun u => (ρ u.1, u.2.mapVars ρ))

/-- The variables that a replacement puts in can be renamed afterwards or in the replacement. -/
theorem Expr.mapVars_rename {ρ : VarRef → VarRef} {pairs : List (VarRef × VarRef)}
    (keys : ∀ u ∈ pairs, ρ u.1 = u.1) {e : Expr} (he : ∀ v ∈ e.mentions, ρ v = v) :
    (e.subst (.uniform (Substitution.renaming pairs))).mapVars ρ =
      e.subst (.uniform (Substitution.renaming (pairs.map (Prod.map id ρ)))) := by
  have keys' : ∀ u ∈ pairs ++ pairs, ρ u.1 = u.1 := fun u hu =>
    keys u ((List.mem_append.1 hu).elim id id)
  have apart : ∀ v ∈ e.mentions, ∀ u ∈ pairs ++ pairs, ρ v = u.1 → v = u.1 := fun v hv u _ heq =>
    (he v hv).symm.trans heq
  have h := e.mapVars_subst_renaming keys' apart
  rw [e.mapVars_eq_self he] at h
  exact h

theorem Command.mapVars_rename {ρ : VarRef → VarRef} {pairs : List (VarRef × VarRef)}
    (keys : ∀ u ∈ pairs, ρ u.1 = u.1) {c : Command Expr} (hc : ∀ v ∈ c.mentions, ρ v = v) :
    (c.rename pairs).mapVars ρ = c.rename (pairs.map (Prod.map id ρ)) := by
  cases c with
  | assert e => exact congrArg assert (Expr.mapVars_rename keys hc)
  | assume e => exact congrArg assume (Expr.mapVars_rename keys hc)
  | assign updates =>
    simp only [Command.rename, Command.subst, mapVars, List.map_map, TwoState.target_renaming]
    refine congrArg assign (List.map_congr_left fun u hu => ?_)
    have target : ρ u.1 = u.1 := hc u.1 (List.mem_append.2 (.inl (List.mem_map_of_mem hu)))
    have renamed := Substitution.renamed_map keys fun x _ heq => target.symm.trans heq
    rw [target] at renamed
    have value : ∀ v ∈ u.2.mentions, ρ v = v := fun v hv =>
      hc v (List.mem_append.2 (.inr (List.mem_flatMap.2 ⟨u, hu, hv⟩)))
    exact Prod.ext renamed.symm (Expr.mapVars_rename keys value)

/-! ## Copying succeeds -/

section Succeeds

variable {plan : CopyPlan} {T : Command Expr → Command Expr} {E : Transfer → Prop} {p : Program}

theorem exists_redirect (owner label : String) {copies : List (BlockRef × BlockRef)}
    {targets : List BlockRef} (h : ∀ t ∈ targets, t ∈ copies.map Prod.fst) :
    ∃ cs, CopyPlan.redirect owner label copies targets = .ok cs := by
  induction targets with
  | nil => exact ⟨[], rfl⟩
  | cons t targets ih =>
    rw [List.forall_mem_cons] at h
    obtain ⟨cs, hcs⟩ := ih h.2
    cases hc : copies.lookup t with
    | none =>
      obtain ⟨u, hu, rfl⟩ := List.mem_map.1 h.1
      exact absurd (List.lookup_eq_none_iff.1 hc u hu) (by simp)
    | some c =>
      refine ⟨c :: cs, ?_⟩
      rw [CopyPlan.redirect] at hcs ⊢
      rw [List.mapM_cons, hcs, hc]
      rfl

/-- A block whose gotos stay among the copied ones gets its end. -/
theorem setEnd_ok (owner : String) {pairs : List (BlockRef × BlockRef)} {u : BlockRef × BlockRef}
    {r : Program} (h : ∀ t ∈ (r.block u.1).transfer.targets, t ∈ pairs.map Prod.fst) :
    ((setEnd plan owner pairs u).run r).1 = .ok () := by
  have ended : ∃ t q, (plan.copyTransfer owner pairs.reverse u.1).run r = (.ok t, q) := by
    rw [CopyPlan.copyTransfer, read_bind_run]
    dsimp only
    cases htransfer : (r.block u.1).transfer with
    | returnValue e => exact ⟨_, _, rfl⟩
    | leave => exact ⟨_, _, rfl⟩
    | goto targets =>
      rw [htransfer] at h
      have stays : ∀ t ∈ targets, t ∈ pairs.reverse.map Prod.fst := fun t ht => by
        simpa using h t ht
      obtain ⟨cs, hcs⟩ := exists_redirect owner (r.block u.1).label stays
      simp only [hcs]
      exact ⟨_, _, rfl⟩
  obtain ⟨t, q, run⟩ := ended
  rw [setEnd, bind_run, run]
  rfl

/-- Only the copy of `u` was touched, which `p` does not have. -/
theorem EndsSet.extends {pairs : List (BlockRef × BlockRef)} {u : BlockRef × BlockRef} {r : Program}
    {result : Except Error PUnit × Program} (h : EndsSet E pairs p r [u] result) (hpr : p.Extends r)
    (new : ¬p.HasBlock u.2) : p.Extends result.2 :=
  hpr.of_untouched h.grows fun b hb => h.untouched b (hpr.within.hasBlock hb) fun hmem =>
    new ((List.mem_singleton.1 hmem) ▸ hb)

theorem forM_setEnd_ok (hplan : plan.Faithful T E p) (owner : String)
    {pairs done : List (BlockRef × BlockRef)} (old : ∀ u ∈ done, p.HasBlock u.1)
    (new : ∀ u ∈ done, ¬p.HasBlock u.2) (sub : ∀ u ∈ done, u ∈ pairs)
    (stays : ∀ u ∈ done, ∀ t ∈ (p.block u.1).transfer.targets, t ∈ pairs.map Prod.fst)
    {r : Program} (hpr : p.Extends r) (hr : r.Closed) (hpairs : ∀ u ∈ pairs, r.HasBlock u.2) :
    ((done.forM (setEnd plan owner pairs)).run r).1 = .ok () := by
  induction done generalizing r with
  | nil => rfl
  | cons u us ih =>
    rw [List.forall_mem_cons] at old new sub stays
    have k := endsSet_setEnd hplan owner old.1 sub.1 hpr hr hpairs
    have ok : ((setEnd plan owner pairs u).run r).1 = .ok () := by
      apply setEnd_ok
      rw [hpr.block_eq old.1]
      exact stays.1
    rw [List.forM, bind_run]
    generalize (setEnd plan owner pairs u).run r = result at *
    obtain ⟨result, r₁⟩ := result
    cases ok
    exact ih old.2 new.2 sub.2 stays.2 (k.extends hpr new.1) k.closed fun v hv =>
      k.grows.within.hasBlock (hpairs v hv)

/-- The first pass cannot fail, and the second one starts where it ended. -/
theorem copyBlocks_run (plan : CopyPlan) (owner : String) (bs : List BlockRef) (p : Program) :
    (plan.copyBlocks owner bs).run p =
      ((bs.zip (plan.copyEach bs p).1).forM (setEnd plan owner (bs.zip (plan.copyEach bs p).1)) >>=
        fun _ => pure (plan.copyEach bs p).1 : Build (List BlockRef)).run (plan.copyEach bs p).2 :=
  rfl

/-- Blocks that no goto leaves can be copied. -/
theorem exists_copyBlocks (hp : p.Closed) (hplan : plan.Faithful T E p) (owner : String)
    {bs : List BlockRef} (hbs : ∀ b ∈ bs, p.HasBlock b) (encloses : p.Encloses bs) :
    ∃ cs q, (plan.copyBlocks owner bs).run p = (.ok cs, q) := by
  obtain ⟨grows, closed, code, -⟩ := yields_copyEach hp hplan hbs (Extends.refl p) hp
  rw [copyBlocks_run, bind_run]
  generalize plan.copyEach bs p = result at *
  obtain ⟨cs, r⟩ := result
  have keys : (bs.zip cs).map Prod.fst = bs := List.map_fst_zip (Nat.le_of_eq code.length_eq.symm)
  have stays : ∀ u ∈ bs.zip cs, ∀ t ∈ (p.block u.1).transfer.targets,
      t ∈ (bs.zip cs).map Prod.fst := fun u hu t ht => by
    rw [keys]
    exact encloses u.1 (List.of_mem_zip hu).1 t ht
  have ok := forM_setEnd_ok hplan owner (fun u hu => hbs u.1 (List.of_mem_zip hu).1)
    (fun u hu => code.fresh u.2 (List.of_mem_zip hu).2) (fun u hu => hu) stays grows closed
    fun u hu => code.valid u.2 (List.of_mem_zip hu).2
  dsimp only
  generalize ((bs.zip cs).forM (setEnd plan owner (bs.zip cs))).run r = result at *
  obtain ⟨result, r'⟩ := result
  cases ok
  exact ⟨cs, r', rfl⟩

end Succeeds

/-! ## Value returns of shadow blocks -/

/-- A value that is returned is `true`. -/
def Transfer.ReturnsTrue (p : Program) (t : Transfer) : Prop := ∀ e ∈ t.values, p.HasTree e .tt

/-- All values that the copy returns are `true`. -/
def Replica.ReturnsTrue (p : Program) (c : Replica) : Prop :=
  ∀ b ∈ c.blocks, (p.block b).transfer.ReturnsTrue p

section ReturnsTrue

variable {σ : TwoState ExprRef} {T : Command Expr → Command Expr} {E : Transfer → Prop}
  {p q : Program}

theorem Transfer.ReturnsTrue.grows {R : Block → Block → Prop} {t : Transfer}
    (h : t.ReturnsTrue p) (hp : p.Closed) (hpq : p.Grows R q) : t.ReturnsTrue q := fun e he =>
  ⟨hpq.within.hasExpr (h e he).1, (hpq.expr_eq hp (h e he).1).trans (h e he).2⟩

theorem attempts_shadowTransfer (owner : String) {copies : List (BlockRef × BlockRef)} {b : BlockRef}
    (hq : q.Closed) :
    Attempts q ((shadowPlan σ).copyTransfer owner copies b) fun t r => t.ReturnsTrue r := by
  unfold CopyPlan.copyTransfer
  apply Attempts.get_bind
  dsimp only
  cases (q.block b).transfer with
  | returnValue e =>
    have below : Expr.tt.VarsBelow q.vars.size := by
      simp [Expr.VarsBelow, Expr.tt, Expr.free, Expr.binders]
    refine Attempts.lift ((yields_newExpr hq below).bind fun e r _ hr he => ?_)
    exact Yields.pure hr (List.forall_mem_singleton.2 he)
  | leave => exact Attempts.pure hq (by simp [Transfer.ReturnsTrue, Transfer.values])
  | goto targets =>
    refine (Attempts.ofExcept hq (Q := fun _ _ => True) fun _ _ => trivial).bind
      fun cs r _ hr _ => ?_
    exact Attempts.pure hr (by simp [Transfer.ReturnsTrue, Transfer.values])

theorem setEnd_returnsTrue (owner : String) {pairs : List (BlockRef × BlockRef)}
    {u : BlockRef × BlockRef} (hq : q.Closed) (hu : q.HasBlock u.2) {r : Program}
    (run : (setEnd (shadowPlan σ) owner pairs u).run q = (.ok (), r)) :
    (r.block u.2).transfer.ReturnsTrue r := by
  have ended : Attempts q ((shadowPlan σ).copyTransfer owner pairs.reverse u.1) _ :=
    attempts_shadowTransfer owner hq
  obtain ⟨grows, -, post⟩ := ended
  rw [setEnd, bind_run] at run
  generalize ((shadowPlan σ).copyTransfer owner pairs.reverse u.1).run q = result at *
  obtain ⟨_ | t, q₁⟩ := result
  · cases run
  · cases run
    have ht := post t rfl
    show ((modifyBlock u.2 _ q₁).block u.2).transfer.ReturnsTrue _
    rw [block_modifyBlock_self (grows.within.hasBlock hu)]
    exact ht

theorem forM_setEnd_returnsTrue (hplan : (shadowPlan σ).Faithful T E p) (owner : String)
    {pairs done : List (BlockRef × BlockRef)} (old : ∀ u ∈ done, p.HasBlock u.1)
    (new : ∀ u ∈ done, ¬p.HasBlock u.2) (nodup : (done.map Prod.snd).Nodup)
    (sub : ∀ u ∈ done, u ∈ pairs) {r s : Program} (hpr : p.Extends r) (hr : r.Closed)
    (hpairs : ∀ u ∈ pairs, r.HasBlock u.2)
    (run : (done.forM (setEnd (shadowPlan σ) owner pairs)).run r = (.ok (), s)) :
    ∀ u ∈ done, (s.block u.2).transfer.ReturnsTrue s := by
  induction done generalizing r with
  | nil => simp
  | cons u us ih =>
    rw [List.forall_mem_cons] at old new sub
    rw [List.map_cons, List.nodup_cons] at nodup
    have k := endsSet_setEnd hplan owner old.1 sub.1 hpr hr hpairs
    rw [List.forM, bind_run] at run
    generalize hfirst : (setEnd (shadowPlan σ) owner pairs u).run r = result at *
    obtain ⟨_ | _, r₁⟩ := result
    · cases run
    · have hpr₁ : p.Extends r₁ := k.extends hpr new.1
      have hpairs₁ : ∀ v ∈ pairs, r₁.HasBlock v.2 := fun v hv =>
        k.grows.within.hasBlock (hpairs v hv)
      have rest := endsSet_forM hplan owner pairs us old.2 new.2 nodup.2 sub.2 hpr₁ k.closed hpairs₁
      rw [show (us.forM (setEnd (shadowPlan σ) owner pairs)).run r₁ = _ from run] at rest
      refine List.forall_mem_cons.2
        ⟨?_, ih old.2 new.2 nodup.2 sub.2 hpr₁ k.closed hpairs₁ run⟩
      -- the rest of the pass does not touch this copy
      rw [rest.untouched u.2 (hpairs₁ u sub.1) nodup.1]
      exact (setEnd_returnsTrue owner hr (hpairs u sub.1) hfirst).grows k.closed rest.grows

theorem copyBlocks_returnsTrue (hp : p.Closed) (hplan : (shadowPlan σ).Faithful T E p)
    (owner : String) {bs cs : List BlockRef} (hbs : ∀ b ∈ bs, p.HasBlock b)
    (run : ((shadowPlan σ).copyBlocks owner bs).run p = (.ok cs, q)) :
    ∀ c ∈ cs, (q.block c).transfer.ReturnsTrue q := by
  obtain ⟨grows, closed, code, -⟩ := yields_copyEach hp hplan hbs (Extends.refl p) hp
  rw [copyBlocks_run, bind_run] at run
  generalize (shadowPlan σ).copyEach bs p = result at *
  obtain ⟨cs', r⟩ := result
  have copies : (bs.zip cs').map Prod.snd = cs' := List.map_snd_zip (Nat.le_of_eq code.length_eq)
  dsimp only at run
  generalize hends : ((bs.zip cs').forM (setEnd (shadowPlan σ) owner (bs.zip cs'))).run r =
    result at run
  obtain ⟨_ | _, s⟩ := result
  · cases run
  · cases run
    have returns := forM_setEnd_returnsTrue hplan owner (fun u hu => hbs u.1 (List.of_mem_zip hu).1)
      (fun u hu => code.fresh u.2 (List.of_mem_zip hu).2) (by rw [copies]; exact code.nodup)
      (fun u hu => hu) grows closed (fun u hu => code.valid u.2 (List.of_mem_zip hu).2) hends
    intro c hc
    rw [← copies] at hc
    obtain ⟨u, hu, rfl⟩ := List.mem_map.1 hc
    exact returns u hu

end ReturnsTrue

/-! ## Making an action -/

section Making

variable {p q : Program}

theorem addShadow_run (name : String) (primary : Replica) (p : Program) :
    (AtomicAction.addShadow name primary).run p =
      ((shadowPlan (.uniform (Substitution.ofList (prepareShadow primary p).1.2))).copyBlocks name
          primary.blocks >>= fun bs => pure { (prepareShadow primary p).1.1 with blocks := bs } :
        Build Replica).run (prepareShadow primary p).2 := rfl

/-- A shadow copy can be added if no goto leaves the blocks. -/
theorem exists_addShadow (hp : p.Closed) (name : String) {primary : Replica}
    (vars : ∀ v ∈ primary.vars, p.HasVar v) (blocks : ∀ b ∈ primary.blocks, p.HasBlock b)
    (gate : ∀ e ∈ primary.gate, p.HasExpr e) (encloses : p.Encloses primary.blocks) :
    ∃ shadow q, (AtomicAction.addShadow name primary).run p = (.ok shadow, q) := by
  obtain ⟨grows, closed, prepared⟩ := yields_prepareShadow hp vars gate
  have blocks' : ∀ b ∈ primary.blocks, (prepareShadow primary p).2.HasBlock b := fun b hb =>
    grows.within.hasBlock (blocks b hb)
  have encloses' : (prepareShadow primary p).2.Encloses primary.blocks := fun b hb t ht => by
    rw [grows.block_eq (blocks b hb)] at ht
    exact encloses b hb t ht
  obtain ⟨cs, q, run⟩ := exists_copyBlocks closed (prepared.faithful closed) name blocks' encloses'
  refine ⟨{ (prepareShadow primary p).1.1 with blocks := cs }, q, ?_⟩
  rw [addShadow_run, bind_run, run]
  rfl

theorem addShadow_returnsTrue (hp : p.Closed) {name : String} {primary shadow : Replica}
    (vars : ∀ v ∈ primary.vars, p.HasVar v) (blocks : ∀ b ∈ primary.blocks, p.HasBlock b)
    (gate : ∀ e ∈ primary.gate, p.HasExpr e)
    (run : (AtomicAction.addShadow name primary).run p = (.ok shadow, q)) :
    shadow.ReturnsTrue q := by
  obtain ⟨grows, closed, prepared⟩ := yields_prepareShadow hp vars gate
  rw [addShadow_run, bind_run] at run
  generalize hcopied : ((shadowPlan _).copyBlocks name primary.blocks).run _ = result at run
  obtain ⟨_ | cs, s⟩ := result
  · cases run
  · cases run
    exact copyBlocks_returnsTrue closed (prepared.faithful closed) name
      (fun b hb => grows.within.hasBlock (blocks b hb)) hcopied

/-- The block where runs of the body start. -/
def TaggedBody.entry (t : TaggedBody) : BlockRef := t.code.blocks.headD default

/-- The program in which a block assumes the gate that it starts with. -/
def Program.assuming (entry : BlockRef) (p : Program) : Program :=
  p.modifyBlock entry fun b => { b with commands := assumeGate b.commands }

/-- The body became the action `a`: first its entry assumed the gate, and then the shadow copy was
added. -/
structure TaggedBody.Becomes (t : TaggedBody) (p : Program) (a : AtomicAction) (q : Program) :
    Prop where
  plain : (p.procedure t.procedure).typeParams = []
  nonempty : t.code.blocks ≠ []
  procedure_eq : a.procedure = t.procedure
  primary_eq : a.primary =
    primaryOf (p.procedure t.procedure) t.code (gateOf (p.block t.entry).commands)
  closed : (p.assuming t.entry).Closed
  grows : (p.assuming t.entry).Extends q
  mirrors : a.primary.Mirrors (p.assuming t.entry) a.shadow q
  returns : a.shadow.ReturnsTrue q

theorem TaggedBody.Becomes.blocks_eq {t : TaggedBody} {a : AtomicAction} (h : t.Becomes p a q) :
    a.primary.blocks = t.code.blocks := by
  rw [h.primary_eq]
  rfl

/-- Without type parameters and with an entry, an action is its primary copy with a shadow. -/
theorem ofBody_run_plain {t : TaggedBody} (plain : (p.procedure t.procedure).typeParams = [])
    (nonempty : t.code.blocks ≠ []) :
    (AtomicAction.ofBody t.procedure t.code t.mover).run p =
      (AtomicAction.addShadow (p.procedure t.procedure).name
          (primaryOf (p.procedure t.procedure) t.code (gateOf (p.block t.entry).commands)) >>=
        fun shadow => pure ⟨t.procedure, (p.procedure t.procedure).name, t.mover,
          primaryOf (p.procedure t.procedure) t.code (gateOf (p.block t.entry).commands), shadow⟩ :
        Build AtomicAction).run (p.assuming t.entry) := by
  obtain ⟨r, mover, locals, blocks⟩ := t
  cases blocks with
  | nil => exact absurd rfl nonempty
  | cons entry rest =>
    rw [AtomicAction.ofBody, read_bind_run]
    dsimp only
    rw [if_neg (not_not.2 plain), lift_bind_run]
    rfl

theorem plain_of_ofBody {t : TaggedBody} {a : AtomicAction}
    (run : (AtomicAction.ofBody t.procedure t.code t.mover).run p = (.ok a, q)) :
    (p.procedure t.procedure).typeParams = [] := by
  have unfolded : (AtomicAction.ofBody t.procedure t.code t.mover).run p =
      (ite ((p.procedure t.procedure).typeParams ≠ []) _ _ : Build AtomicAction).run p := rfl
  rw [unfolded] at run
  by_contra generic
  rw [if_pos generic] at run
  cases run

variable {base : Program} {t : TaggedBody}

theorem continues_assuming (hp : p.Closed) (hbp : base.Grows Block.Softens p) {entry : BlockRef}
    (hentry : base.HasBlock entry) :
    base.Continues p (p.assuming entry) ∧ (p.assuming entry).Closed :=
  continues_takeGate hp hentry (hbp.within.hasBlock hentry)

theorem TaggedBody.entry_mem (h : t.code.blocks ≠ []) : t.entry ∈ t.code.blocks := by
  obtain ⟨r, mover, locals, blocks⟩ := t
  cases blocks with
  | nil => exact absurd rfl h
  | cons entry rest => exact List.mem_cons_self

/-- The primary copy of a body of `base` is valid wherever `base` has been continued to. -/
theorem validIn_primaryOf (hp : p.Closed) (hbp : base.Grows Block.Softens p)
    (hr : base.HasProcedure t.procedure) (hcode : t.code.ValidIn base)
    (nonempty : t.code.blocks ≠ []) :
    (primaryOf (p.procedure t.procedure) t.code (gateOf (p.block t.entry).commands)).ValidIn
      (p.assuming t.entry) := by
  have hentry : base.HasBlock t.entry := hcode.blocks _ (TaggedBody.entry_mem nonempty)
  have within := hbp.within
  have within' : p.Within (p.assuming t.entry) :=
    (continues_assuming hp hbp hentry).1.grows.within
  have procedure : (p.procedure t.procedure).ValidIn p :=
    hp.procedures _ (procedure_mem (within.hasProcedure hr))
  refine ⟨fun v hv => within'.hasVar ?_, fun b hb => within'.hasBlock (within.hasBlock
    (hcode.blocks b hb)), nonempty, fun e he => within'.hasExpr ?_⟩
  · rcases Replica.mem_vars.1 hv with hv | hv | hv
    · exact procedure.inputs v hv
    · exact procedure.outputs v hv
    · exact within.hasVar (hcode.locals v hv)
  · exact ((hp.block (within.hasBlock hentry)).commands _ (assert_mem_of_mem_gateOf he)).exprs e
      (List.mem_singleton.2 rfl)

/-- What making an action does. -/
theorem becomes_of_ofBody (hp : p.Closed) (hbp : base.Grows Block.Softens p)
    (hr : base.HasProcedure t.procedure) (hcode : t.code.ValidIn base) {a : AtomicAction}
    (run : (AtomicAction.ofBody t.procedure t.code t.mover).run p = (.ok a, q)) :
    t.Becomes p a q := by
  obtain ⟨entry, rest, _, hblocks, _⟩ := eq_of_ofBody run
  have nonempty : t.code.blocks ≠ [] := by
    rw [hblocks]
    exact List.cons_ne_nil _ _
  have plain := plain_of_ofBody run
  have closed := (continues_assuming hp hbp (hcode.blocks _ (TaggedBody.entry_mem nonempty))).2
  have valid := validIn_primaryOf hp hbp hr hcode nonempty
  rw [ofBody_run_plain plain nonempty, bind_run] at run
  generalize hshadow : (AtomicAction.addShadow _ _).run _ = result at run
  obtain ⟨_ | shadow, q'⟩ := result
  · cases run
  · cases run
    obtain ⟨grows, -, mirrors⟩ := (attempts_addShadow closed _ valid.vars valid.blocks
      valid.gate).of_run hshadow
    exact ⟨plain, nonempty, rfl, rfl, closed, grows, mirrors,
      addShadow_returnsTrue closed valid.vars valid.blocks valid.gate hshadow⟩

/-- A body without type parameters becomes an action if it has an entry and no goto leaves it. -/
theorem exists_ofBody (hp : p.Closed) (hbp : base.Grows Block.Softens p)
    (hr : base.HasProcedure t.procedure) (hcode : t.code.ValidIn base)
    (plain : (p.procedure t.procedure).typeParams = []) (nonempty : t.code.blocks ≠ [])
    (encloses : base.Encloses t.code.blocks) :
    ∃ a q, (AtomicAction.ofBody t.procedure t.code t.mover).run p = (.ok a, q) := by
  obtain ⟨continued, closed⟩ :=
    continues_assuming hp hbp (hcode.blocks _ (TaggedBody.entry_mem nonempty))
  have grows := hbp.trans Block.Softens.trans continued.grows
  have valid := validIn_primaryOf hp hbp hr hcode nonempty
  have encloses' : (p.assuming t.entry).Encloses t.code.blocks := fun b hb x hx => by
    rw [grows.transfer_eq (hcode.blocks b hb)] at hx
    exact encloses b hb x hx
  obtain ⟨shadow, q, run⟩ := exists_addShadow closed (p.procedure t.procedure).name valid.vars
    valid.blocks valid.gate encloses'
  rw [ofBody_run_plain plain nonempty, bind_run, run]
  exact ⟨_, _, rfl⟩

end Making

/-! ## Two shadow copies -/

/-- The ends of two blocks agree: gotos go to paired blocks, and returned values are the same. -/
inductive Transfer.Alike (p p' : Program) (pairs : List (BlockRef × BlockRef)) :
    Transfer → Transfer → Prop where
  | returnValue {e e' : ExprRef} (h : p'.expr e' = p.expr e) :
    Alike p p' pairs (.returnValue e) (.returnValue e')
  | goto {bs cs : List BlockRef} (h : List.Forall₂ (fun b c => (b, c) ∈ pairs) bs cs) :
    Alike p p' pairs (.goto bs) (.goto cs)
  | leave : Alike p p' pairs .leave .leave

/-- The blocks are different from each other, and `base` has none of them. -/
structure FreshBlocks (base : Program) (bs : List BlockRef) (p : Program) : Prop where
  nodup : bs.Nodup
  fresh : ∀ b ∈ bs, ¬base.HasBlock b
  valid : ∀ b ∈ bs, p.HasBlock b

/-- The copies `c` in `p` and `c'` in `p'` are the same up to their variables and blocks, which are
new since `base` and correspond to each other by position. -/
structure Replica.AlikeOver (base p : Program) (c : Replica) (p' : Program) (c' : Replica) :
    Prop where
  inputs_length : c'.inputs.length = c.inputs.length
  outputs_length : c'.outputs.length = c.outputs.length
  vars : ∃ vars, FreshVars base vars c.vars p ∧ FreshVars base vars c'.vars p'
  gate : c'.gate.map p'.expr =
    c.gate.map fun e => (p.expr e).mapVars (Substitution.renamed (c.vars.zip c'.vars))
  blocks_length : c'.blocks.length = c.blocks.length
  blocks : FreshBlocks base c.blocks p
  blocks' : FreshBlocks base c'.blocks p'
  label : ∀ u ∈ c.blocks.zip c'.blocks, (p'.block u.2).label = (p.block u.1).label
  commands : ∀ u ∈ c.blocks.zip c'.blocks, p'.commands u.2 =
    (p.commands u.1).map (Command.mapVars (Substitution.renamed (c.vars.zip c'.vars)))
  transfer : ∀ u ∈ c.blocks.zip c'.blocks, Transfer.Alike p p' (c.blocks.zip c'.blocks)
    (p.block u.1).transfer (p'.block u.2).transfer

section Alike

variable {base made made' p p' : Program} {primary shadow shadow' : Replica}

theorem Replica.Mirrors.freshVars (h : primary.Mirrors made shadow p)
    (grows : base.Grows Block.Softens made) (vars : ∀ v ∈ primary.vars, base.HasVar v) :
    FreshVars base (primary.vars.map fun v => (base.var v).toShadow) shadow.vars p where
  nodup := h.vars.nodup
  fresh v hv hb := h.vars.fresh v hv (grows.within.hasVar hb)
  valid := h.vars.valid
  vars_eq := h.vars.freshVars.vars_eq.trans
    (List.map_congr_left fun v hv => by rw [grows.var_eq v (vars v hv)])

theorem Replica.Mirrors.freshBlocks (h : primary.Mirrors made shadow p)
    (grows : base.Grows Block.Softens made) : FreshBlocks base shadow.blocks p where
  nodup := h.graph.nodup
  fresh b hb hbase := h.graph.fresh b hb (grows.within.hasBlock hbase)
  valid := h.graph.valid

/-- The commands of a block of `base` are about expressions of `base`, also after some were
assumed. -/
theorem Program.Grows.hasExpr_of_command (hbase : base.Closed) (grows : base.Grows Block.Softens made)
    {b : BlockRef} (hb : base.HasBlock b) {c : Command ExprRef} (hc : c ∈ (made.block b).commands)
    {e : ExprRef} (he : e ∈ c.exprs) : base.HasExpr e := by
  obtain ⟨d, hd, softens⟩ := exists_left_of_forall₂ (grows.block b hb).commands hc
  rw [softens.exprs_eq] at he
  exact ((hbase.block hb).commands d hd).exprs e he

theorem Program.Grows.commands_eq_of_block (hbase : base.Closed)
    (grows : base.Grows Block.Softens made) (grows' : base.Grows Block.Softens made') {b : BlockRef}
    (hb : base.HasBlock b) (same : made'.block b = made.block b) :
    made'.commands b = made.commands b := by
  rw [Program.commands, Program.commands, same]
  refine List.map_congr_left fun c hc => Command.map_congr fun e he => ?_
  have old := grows.hasExpr_of_command hbase hb hc he
  rw [grows'.expr_eq hbase old, grows.expr_eq hbase old]

/-- Two copies of one end. -/
theorem Transfer.Copied.alike {bs cs cs' : List BlockRef} (lengths : cs.length = cs'.length)
    {t t₁ t₂ : Transfer} (h : Transfer.Copied (fun t => ∃ e, t = .returnValue e) (bs.zip cs) t t₁)
    (values : t₁.ReturnsTrue p)
    (h' : Transfer.Copied (fun t => ∃ e, t = .returnValue e) (bs.zip cs') t t₂)
    (values' : t₂.ReturnsTrue p') : Transfer.Alike p p' (cs.zip cs') t₁ t₂ := by
  cases h with
  | leave =>
    cases h'
    exact .leave
  | goto targets =>
    cases h' with
    | goto targets' =>
      refine .goto ((forall₂_join targets targets').imp fun x y ⟨z, hx, hy⟩ => ?_)
      exact mem_zip_of_lookup lengths hx hy
  | returnValue value =>
    cases h' with
    | returnValue value' =>
      obtain ⟨e, rfl⟩ := value
      obtain ⟨e', rfl⟩ := value'
      have tt := (values e (List.mem_singleton.2 rfl)).2
      have tt' := (values' e' (List.mem_singleton.2 rfl)).2
      exact .returnValue (tt'.trans tt.symm)

/-- Shadow copies of the same body are the same up to what is new. -/
theorem Replica.Mirrors.alikeOver (hbase : base.Closed) (hmade : made.Closed)
    (grows : base.Grows Block.Softens made) (grows' : base.Grows Block.Softens made')
    (vars : ∀ v ∈ primary.vars, base.HasVar v) (gate : ∀ e ∈ primary.gate, base.HasExpr e)
    (blocks : ∀ b ∈ primary.blocks, base.HasBlock b)
    (same : ∀ b ∈ primary.blocks, made'.block b = made.block b)
    (h : primary.Mirrors made shadow p) (returns : shadow.ReturnsTrue p)
    (h' : primary.Mirrors made' shadow' p') (returns' : shadow'.ReturnsTrue p') :
    shadow.AlikeOver base p p' shadow' := by
  have fresh := h.freshVars grows vars
  have fresh' := h'.freshVars grows' vars
  -- the change of variables touches nothing that was there when the first copy was made
  have fixed : ∀ v, made.HasVar v → Substitution.renamed (shadow.vars.zip shadow'.vars) v = v :=
    fun v hv => Substitution.renamed_zip_of_not_mem (fresh.length_eq fresh') fun hmem =>
      h.vars.fresh v hmem hv
  have keys : ∀ u ∈ primary.vars.zip shadow.vars,
      Substitution.renamed (shadow.vars.zip shadow'.vars) u.1 = u.1 := fun u hu =>
    fixed u.1 (grows.within.hasVar (vars u.1 (List.of_mem_zip hu).1))
  have pairs : primary.vars.zip shadow'.vars = (primary.vars.zip shadow.vars).map
      (Prod.map id (Substitution.renamed (shadow.vars.zip shadow'.vars))) := by
    rw [← List.zip_map_right, fresh.map_renamed fresh']
  have hasBlock : ∀ b ∈ primary.blocks, made.HasBlock b := fun b hb =>
    grows.within.hasBlock (blocks b hb)
  refine ⟨h'.inputs_length.trans h.inputs_length.symm, h'.outputs_length.trans h.outputs_length.symm,
    ⟨_, fresh, fresh'⟩, ?_, h'.graph.length_eq.trans h.graph.length_eq.symm, h.freshBlocks grows,
    h'.freshBlocks grows', fun u hu => ?_, fun u hu => ?_, fun u hu => ?_⟩
  · have split : (shadow.gate.map fun e => (p.expr e).mapVars
        (Substitution.renamed (shadow.vars.zip shadow'.vars))) = (shadow.gate.map p.expr).map
          (Expr.mapVars (Substitution.renamed (shadow.vars.zip shadow'.vars))) := by
      rw [List.map_map]
      rfl
    rw [split, h.gate_eq, h'.gate_eq, List.map_map]
    refine List.map_congr_left fun e he => ?_
    have mentions : ∀ v ∈ (made.expr e).mentions,
        Substitution.renamed (shadow.vars.zip shadow'.vars) v = v := fun v hv =>
      fixed v ((hmade.varsBelow_expr e).mentions v hv)
    rw [Function.comp_apply, Expr.mapVars_rename keys mentions, ← pairs,
      grows.expr_eq hbase (gate e he), grows'.expr_eq hbase (gate e he)]
  all_goals
    obtain ⟨b, hc, hc'⟩ := exists_mem_zip_zip h.graph.length_eq h'.graph.length_eq hu
    have hb : b ∈ primary.blocks := (List.of_mem_zip hc).1
  · rw [h.graph.label _ hc, h'.graph.label _ hc', same b hb]
  · rw [h.graph.commands _ hc, h'.graph.commands _ hc', List.map_map,
      grows.commands_eq_of_block hbase grows' (blocks b hb) (same b hb)]
    refine List.map_congr_left fun c hcb => ?_
    have mentions : ∀ v ∈ c.mentions,
        Substitution.renamed (shadow.vars.zip shadow'.vars) v = v := fun v hv =>
      fixed v (hasVar_of_mem_commands hmade (hasBlock b hb) hcb v hv)
    rw [Function.comp_apply, Command.mapVars_rename keys mentions, ← pairs]
  · have copied := h.graph.transfer _ hc
    have copied' := h'.graph.transfer _ hc'
    dsimp only at copied copied'
    rw [same b hb] at copied'
    exact copied.alike (h.graph.length_eq.trans h'.graph.length_eq.symm)
      (returns u.1 (List.of_mem_zip hc).2) copied' (returns' u.2 (List.of_mem_zip hc').2)

/-- A shadow copy keeps its value returns. -/
theorem Replica.ReturnsTrue.continues (returns : shadow.ReturnsTrue p)
    (h : primary.Mirrors made shadow p) (hmade : base.Within made) (hp : p.Closed)
    (hpp' : base.Continues p p') : shadow.ReturnsTrue p' := fun b hb => by
  rw [hpp'.kept b (fun hbase => h.graph.fresh b hb (hmade.hasBlock hbase)) (h.graph.valid b hb)]
  exact (returns b hb).grows hp hpp'.grows

end Alike

end AtomicMovers
