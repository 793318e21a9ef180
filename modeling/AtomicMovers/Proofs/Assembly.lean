import AtomicMovers.Proofs.Obligations

/-!
# Programs under construction

Starting from a base program, actions are made of its bodies and obligations are added for them, in
any order and with any failures in between (`Assembly`). Whatever was done so far, the program is
closed and continues the base, and every action made so far stands in it as it was built
(`Assembly.sound`).

From that follows what the copies of an action look like in the program at hand: their commands are
those of the body in the base program, renamed for the shadow copy, up to assertions that became
assumptions (`exists_primary_command`, `exists_shadow_command`), and neither copy is left by a goto.
-/

namespace AtomicMovers

open Program

/-- The programs and actions that construction from `base` leads to. -/
inductive Assembly (base : Program) : Program → List AtomicAction → Prop where
  | start : Assembly base base []
  | register {p q : Program} {actions : List AtomicAction} {r : ProcRef} {body : Body}
    {mover : Mover} {a : AtomicAction} (h : Assembly base p actions) (hr : base.HasProcedure r)
    (hbody : body.ValidIn base) (run : (AtomicAction.ofBody r body mover).run p = (.ok a, q)) :
    Assembly base q (actions ++ [a])
  | registerFails {p q : Program} {actions : List AtomicAction} {r : ProcRef} {body : Body}
    {mover : Mover} {e : Error} (h : Assembly base p actions) (hr : base.HasProcedure r)
    (hbody : body.ValidIn base) (run : (AtomicAction.ofBody r body mover).run p = (.error e, q)) :
    Assembly base q actions
  | oblige {p q : Program} {actions : List AtomicAction} {o : Ownership} {kind : ObligationKind}
    {first second : AtomicAction} {result : Except Error ProcRef} (h : Assembly base p actions)
    (hf : first ∈ actions) (hs : second ∈ actions)
    (run : (addObligation o kind first second).run p = (result, q)) : Assembly base q actions

/-! ## What construction keeps -/

section BuiltIn

variable {base p q : Program} {a : AtomicAction}

theorem AtomicAction.BuiltIn.validIn (h : a.BuiltIn base p) (w : base.Within p) : a.ValidIn p := by
  obtain ⟨made, _, _, hm⟩ := h.mirrors
  refine ⟨⟨fun v hv => w.hasVar (h.vars v hv), fun b hb => w.hasBlock (h.blocks b hb), h.nonempty,
    fun e he => w.hasExpr (h.gate e he)⟩, ⟨hm.vars.valid, hm.graph.valid, ?_, hm.gate_valid⟩⟩
  intro hnil
  have hlen := hm.graph.length_eq
  rw [hnil, List.length_nil] at hlen
  exact h.nonempty (List.length_eq_zero_iff.1 hlen.symm)

end BuiltIn

/-- What holds at every point of the construction. -/
structure Assembly.Sound (base p : Program) (actions : List AtomicAction) : Prop where
  base_closed : base.Closed
  closed : p.Closed
  grows : base.Grows Block.Softens p
  built : ∀ a ∈ actions, a.BuiltIn base p

section Sound

variable {base p q : Program} {actions : List AtomicAction}

theorem Assembly.Sound.validIn (h : Assembly.Sound base p actions) {a : AtomicAction}
    (ha : a ∈ actions) : a.ValidIn p :=
  (h.built a ha).validIn h.grows.within

/-- One more step of the construction. -/
theorem Assembly.Sound.step (h : Assembly.Sound base p actions) (hpq : base.Continues p q)
    (hq : q.Closed) : Assembly.Sound base q actions where
  base_closed := h.base_closed
  closed := hq
  grows := h.grows.trans Block.Softens.trans hpq.grows
  built a ha := (h.built a ha).continues h.closed hpq

/-- Whatever is appended to the program. -/
theorem Assembly.Sound.extends (h : Assembly.Sound base p actions) (hpq : p.Extends q)
    (hq : q.Closed) : Assembly.Sound base q actions :=
  h.step (.ofExtends hpq) hq

theorem Assembly.sound (hbase : base.Closed) (h : Assembly base p actions) :
    Assembly.Sound base p actions := by
  induction h with
  | start => exact ⟨hbase, hbase, Grows.refl Block.Softens.refl base, by simp⟩
  | register _ hr hbody run ih =>
    -- the new action is built in the new program, and the others stay built
    obtain ⟨continues, closed, built⟩ :=
      continues_ofBody hbase ih.closed ih.grows hr hbody _ run
    have k := ih.step continues closed
    refine ⟨hbase, k.closed, k.grows, List.forall_mem_append.2 ⟨k.built, ?_⟩⟩
    simpa using built _ rfl
  | registerFails _ hr hbody run ih =>
    obtain ⟨continues, closed, _⟩ := continues_ofBody hbase ih.closed ih.grows hr hbody _ run
    exact ih.step continues closed
  | @oblige p q actions o kind first second _ _ hf hs run ih =>
    obtain ⟨grows, closed, _⟩ :=
      attempts_addObligation (o := o) ih.closed kind (ih.validIn hf) (ih.validIn hs)
    rw [run] at grows closed
    exact ih.extends grows closed

end Sound

/-! ## The copies in the program at hand -/

section Copies

variable {base p : Program} {a : AtomicAction}

theorem Program.Grows.transfer_eq (h : base.Grows Block.Softens p) {b : BlockRef}
    (hb : base.HasBlock b) : (p.block b).transfer = (base.block b).transfer :=
  (h.block b hb).transfer_eq

/-- The commands of a block of the base program, some of them softened. -/
theorem Program.Grows.softens_commands (hbase : base.Closed) (h : base.Grows Block.Softens p)
    {b : BlockRef} (hb : base.HasBlock b) :
    List.Forall₂ Command.Softens (base.commands b) (p.commands b) := by
  have same : base.commands b = (base.block b).commands.map (Command.map p.expr) := by
    apply List.map_congr_left
    intro c hc
    exact Command.map_congr fun e he =>
      (h.expr_eq hbase (((hbase.block hb).commands c hc).exprs e he)).symm
  rw [same, Program.commands, List.forall₂_map_left_iff, List.forall₂_map_right_iff]
  exact (h.block b hb).commands.imp fun c d hcd => hcd.map p.expr

theorem exists_primary_command (hbase : base.Closed) (hbp : base.Grows Block.Softens p)
    (h : a.BuiltIn base p) {d : Command Expr} (hd : d ∈ a.primary.commands p) :
    ∃ c ∈ a.primary.commands base, c.Softens d := by
  obtain ⟨b, hb, hd⟩ := List.mem_flatMap.1 hd
  obtain ⟨c, hc, hcd⟩ := exists_left_of_forall₂ (hbp.softens_commands hbase (h.blocks b hb)) hd
  exact ⟨c, List.mem_flatMap.2 ⟨b, hb, hc⟩, hcd⟩

theorem Command.Softens.rename {c d : Command Expr} (h : c.Softens d)
    (pairs : List (VarRef × VarRef)) : (c.rename pairs).Softens (d.rename pairs) := by
  cases h with
  | same _ => exact .same _
  | assumed e => exact .assumed _

theorem exists_shadow_command (hbase : base.Closed) (h : a.BuiltIn base p) {d : Command Expr}
    (hd : d ∈ a.shadow.commands p) :
    ∃ c ∈ a.primary.commands base, (c.rename (a.primary.vars.zip a.shadow.vars)).Softens d := by
  obtain ⟨made, _, hbm, hm⟩ := h.mirrors
  obtain ⟨x, hx, hd⟩ := List.mem_flatMap.1 hd
  obtain ⟨b, hbx⟩ := hm.graph.exists_original hx
  have hb := (List.of_mem_zip hbx).1
  rw [hm.graph.commands _ hbx] at hd
  obtain ⟨m, hmem, rfl⟩ := List.mem_map.1 hd
  obtain ⟨c, hc, hcm⟩ := exists_left_of_forall₂ (hbm.softens_commands hbase (h.blocks b hb)) hmem
  exact ⟨c, List.mem_flatMap.2 ⟨b, hb, hc⟩, hcm.rename _⟩

/-- The primary copy is not left by a goto. -/
theorem encloses_primary (hbp : base.Grows Block.Softens p) (h : a.BuiltIn base p) :
    p.Encloses a.primary.blocks := by
  obtain ⟨made, _, hbm, hm⟩ := h.mirrors
  intro b hb x hx
  rw [hbp.transfer_eq (h.blocks b hb), ← hbm.transfer_eq (h.blocks b hb)] at hx
  exact hm.graph.mem_of_mem_targets hb hx

/-- The shadow copy is not left by a goto. -/
theorem encloses_shadow (h : a.BuiltIn base p) : p.Encloses a.shadow.blocks := by
  obtain ⟨made, _, _, hm⟩ := h.mirrors
  intro c hc x hx
  refine hm.graph.mem_of_mem_copy_targets ?_ hc hx
  rintro _ ⟨e, rfl⟩
  rfl

/-- Where no block of the body leaves, no block of the copies does. -/
theorem stays_primary (hbp : base.Grows Block.Softens p) (h : a.BuiltIn base p)
    (stays : ∀ b ∈ a.primary.blocks, (base.block b).transfer ≠ .leave) :
    ∀ b ∈ a.primary.blocks, (p.block b).transfer ≠ .leave := by
  intro b hb
  rw [hbp.transfer_eq (h.blocks b hb)]
  exact stays b hb

theorem stays_shadow (h : a.BuiltIn base p)
    (stays : ∀ b ∈ a.primary.blocks, (base.block b).transfer ≠ .leave) :
    ∀ b ∈ a.shadow.blocks, (p.block b).transfer ≠ .leave := by
  obtain ⟨made, _, hbm, hm⟩ := h.mirrors
  intro c hc
  refine hm.graph.copy_ne_leave ?_ ?_ hc
  · rintro _ ⟨e, rfl⟩
    simp
  · intro b hb
    rw [hbm.transfer_eq (h.blocks b hb)]
    exact stays b hb

end Copies

end AtomicMovers
