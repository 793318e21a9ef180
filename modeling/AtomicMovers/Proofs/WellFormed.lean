import AtomicMovers.Proofs.Appending
import AtomicMovers.Proofs.Siblings
import AtomicMovers.Proofs.Typing

/-!
# Well-formed programs

A program is well formed if the bodies of its actions are well typed and mention only what is
declared (`Body.WellFormed`), functions are declared once and not under the names of disjointness
predicates, and variables of one ownership domain have one type (`Program.WellFormed`).

Every registered action is a body of the input with its gate (`Steps.madeFrom`), so both copies of
it are well formed too (`WellScoped.primary`, `WellScoped.shadow`): going over to the shadow copy
renames variables to new ones of the same types.
-/

namespace AtomicMovers

open Program

/-! ## Well-formed inputs -/

/-- The types that the program gives to its variables and functions. -/
def Program.typing (numeric : Ty → Bool) (p : Program) : Typing where
  ty := p.tyOf
  function? f := p.functions.find? fun sig => sig.name = f
  numeric := numeric

/-- The variables that a body of the procedure `r` has for itself. -/
def Body.vars (r : Procedure) (code : Body) : List VarRef := r.inputs ++ r.outputs ++ code.locals

/-- The body is well scoped and well typed as the body of an action of the procedure `r`. -/
@[mk_iff]
structure Body.WellFormed (numeric : Ty → Bool) (p : Program) (r : Procedure) (code : Body) :
    Prop where
  nodup : (code.vars r).Nodup
  notGlobal : ∀ v ∈ code.vars r, v ∉ p.globals
  commands : ∀ b ∈ code.blocks, ∀ c ∈ p.commands b,
    c.WellFormed (p.typing numeric) (p.namedRefs ++ code.vars r)
  /-- Bound variables are none of those that the commands may mention otherwise. -/
  binders : ∀ b ∈ code.blocks, ∀ c ∈ p.commands b, ∀ e ∈ c.exprs, ∀ x ∈ e.binders,
    x ∉ p.namedRefs ++ code.vars r
  /-- The gate mentions declared variables and inputs, and neither outputs nor locals. -/
  gate : ∀ b ∈ code.blocks.head?, ∀ e ∈ gateOf (p.commands b), ∀ x ∈ e.free,
    x ∈ p.namedRefs ++ r.inputs ∧ x ∉ r.outputs ++ code.locals

/-- The functions, the variables and the bodies of all actions are well formed. -/
structure Program.WellFormed (numeric : Ty → Bool) (p : Program) : Prop where
  functions : p.functionNames.Nodup
  predicates : ∀ name ∈ p.functionNames, ∀ domain arity,
    name ≠ Ownership.predicateName domain arity
  domains : ∀ x ∈ p.vars, ∀ y ∈ p.vars, x.domain.isSome → x.domain = y.domain → x.ty = y.ty
  bodies : ∀ r ∈ p.procedureRefs, ∀ t ∈ Ledger.taggedConditions (p.procedure r), ∀ code,
    t.2 = .body code → code.WellFormed numeric p (p.procedure r)

instance (numeric : Ty → Bool) (p : Program) (r : Procedure) (code : Body) :
    Decidable (code.WellFormed numeric p r) :=
  decidable_of_iff _ (Body.wellFormed_iff numeric p r code).symm

/-! ### Functions by name -/

/-- Where functions are declared once, a name stands for the one function that has it. -/
theorem find?_name_eq_some_iff {fs : List FunctionSig} (h : (fs.map FunctionSig.name).Nodup)
    {f : String} {sig : FunctionSig} :
    fs.find? (fun s => s.name = f) = some sig ↔ sig ∈ fs ∧ sig.name = f := by
  constructor
  · intro hfind
    exact ⟨List.mem_of_find?_eq_some hfind, by simpa using List.find?_some hfind⟩
  · rintro ⟨hsig, rfl⟩
    cases hfind : fs.find? fun s => s.name = sig.name with
    | none =>
      have := List.find?_eq_none.1 hfind sig hsig
      simp at this
    | some s =>
      have same : s.name = sig.name := by simpa using List.find?_some hfind
      rw [List.inj_on_of_nodup_map h (List.mem_of_find?_eq_some hfind) hsig same]

/-- Types are kept while variables stay what they are and functions are only added. -/
theorem Program.typing_within {numeric : Ty → Bool} {p q : Program}
    (ty_eq : ∀ v, p.HasVar v → q.tyOf v = p.tyOf v)
    (functions : ∀ sig ∈ p.functions, sig ∈ q.functions) (nodup : q.functionNames.Nodup) :
    (p.typing numeric).Within p.HasVar (q.typing numeric) where
  ty_eq := ty_eq
  function?_eq f sig hsig := by
    refine (find?_name_eq_some_iff nodup).2 ⟨functions sig (List.mem_of_find?_eq_some hsig), ?_⟩
    simpa using List.find?_some hsig
  numeric_eq := rfl

/-! ## Actions of the input -/

theorem gateOf_map {ε δ : Type} (f : ε → δ) (cs : List (Command ε)) :
    gateOf (cs.map (Command.map f)) = (gateOf cs).map f := by
  fun_induction gateOf cs with
  | case1 e cs ih => rw [List.map_cons, Command.map, gateOf, ih, List.map_cons]
  | case2 cs h =>
    cases cs with
    | nil => rfl
    | cons c cs =>
      cases c with
      | assert e => exact absurd rfl (h e cs)
      | assume e => rfl
      | assign updates => rfl

theorem expr_mem_gateOf {p : Program} {b : BlockRef} {e : ExprRef}
    (h : e ∈ gateOf (p.block b).commands) : p.expr e ∈ gateOf (p.commands b) := by
  rw [Program.commands, gateOf_map]
  exact List.mem_map.2 ⟨e, h, rfl⟩

/-- A gate that is left when assertions have become assumptions was there before. -/
theorem mem_gateOf_of_softens {cs ds : List (Command ExprRef)}
    (h : List.Forall₂ Command.Softens cs ds) {e : ExprRef} (he : e ∈ gateOf ds) :
    e ∈ gateOf cs := by
  induction h with
  | nil => exact he
  | @cons c d _ _ hcd _ ih =>
    cases hcd with
    | assumed x => simp [gateOf] at he
    | same _ =>
      cases c with
      | assert x =>
        rw [gateOf, List.mem_cons] at he ⊢
        exact he.imp_right ih
      | assume x => simp [gateOf] at he
      | assign updates => simp [gateOf] at he

/-- The primary copy of the action is a tagged body of the input, with a gate that the body has. -/
def AtomicAction.MadeFrom (input : Program) (a : AtomicAction) : Prop :=
  ∃ r ∈ input.procedureRefs, ∃ mover code gate,
    (mover, .body code) ∈ Ledger.taggedConditions (input.procedure r) ∧
    a.primary = primaryOf (input.procedure r) code gate ∧
    ∀ e ∈ gate, ∃ b ∈ code.blocks.head?, e ∈ gateOf (input.block b).commands

namespace Ledger

variable {input : Program} {log : List Obligation} {l m : Ledger}

theorem Step.madeFrom (hinput : input.Closed) (h : Step input log l m) (hl : l.Assembled input)
    (hactions : ∀ a ∈ l.actions.toList, a.MadeFrom input) :
    ∀ a ∈ m.actions.toList, a.MadeFrom input := by
  cases h with
  | @registered _ r mover code a q hr hcode run =>
    have sound := hl.sound hinput
    rw [Array.toList_push]
    refine List.forall_mem_append.2 ⟨hactions, List.forall_mem_singleton.2 ?_⟩
    obtain ⟨entry, rest, shadow, hblocks, rfl⟩ := eq_of_ofBody run
    have same : l.program.procedure r = input.procedure r :=
      sound.grows.procedure_eq r (hinput.hasProcedure_of_mem hr)
    have hentry : input.HasBlock entry :=
      (validIn_of_tagged hinput hr hcode).blocks entry (by simp [hblocks])
    refine ⟨r, hr, mover, code, _, hcode, by rw [same], fun e he => ⟨entry, by simp [hblocks], ?_⟩⟩
    exact mem_gateOf_of_softens (sound.grows.block entry hentry).commands he
  | _ => exact hactions

/-- Registered actions are bodies of the input. -/
theorem Steps.madeFrom (hinput : input.Closed) (h : Steps input log l m) (hl : l.Assembled input)
    (hactions : ∀ a ∈ l.actions.toList, a.MadeFrom input) :
    ∀ a ∈ m.actions.toList, a.MadeFrom input := by
  induction h with
  | refl l => exact hactions
  | step h last ih => exact last.madeFrom hinput (h.assembled hinput hl) (ih hl hactions)

end Ledger

/-! ## Well-formed copies -/

/-- The copy, as it stands in `p`, has different variables, and is well typed and well scoped if the
variables `named` are declared. -/
structure Replica.WellFormed (Γ : Typing) (named : List VarRef) (p : Program) (r : Replica) :
    Prop where
  nodup : r.vars.Nodup
  commands : ∀ b ∈ r.blocks, ∀ c ∈ p.commands b, c.WellFormed Γ (named ++ r.vars)
  gate : ∀ e ∈ r.gate, (p.expr e).FormulaOver Γ (named ++ r.inputs)

/-- The body of an action in the base program, well formed with respect to the types and
declarations of another one. -/
structure AtomicAction.WellScoped (Γ : Typing) (named : List VarRef) (base : Program)
    (a : AtomicAction) : Prop where
  nodup : a.primary.vars.Nodup
  notGlobal : ∀ v ∈ a.primary.vars, v ∉ base.globals
  commands : ∀ c ∈ a.primary.commands base, c.WellFormed Γ (named ++ a.primary.vars)
  binders : ∀ e ∈ a.primary.gate, ∀ x ∈ (base.expr e).binders, x ∉ a.primary.vars
  gate : ∀ e ∈ a.primary.gate, (base.expr e).type? Γ = some .bool ∧
    ∀ x ∈ (base.expr e).free, x ∈ named ++ a.primary.inputs ∧
      x ∉ a.primary.outputs ++ a.primary.locals

section Copies

variable {Γ : Typing} {named : List VarRef} {base p : Program} {a : AtomicAction}

theorem Command.WellFormed.softens {vs : List VarRef} {c d : Command Expr} (hd : c.Softens d)
    (h : c.WellFormed Γ vs) : d.WellFormed Γ vs := by
  cases hd with
  | same _ => exact h
  | assumed e => exact ⟨h.typed, h.reads, h.writes⟩

/-- The commands of a well-formed body, seen from a program that has all that the input declares. -/
theorem Body.WellFormed.commands_within {numeric : Ty → Bool} {input : Program} {r : Procedure}
    {code : Body} (h : code.WellFormed numeric input r) (hinput : input.Closed)
    (valid : ∀ b ∈ code.blocks, input.HasBlock b)
    (within : (input.typing numeric).Within input.HasVar Γ)
    (declared : ∀ v ∈ input.namedRefs, v ∈ named) :
    ∀ b ∈ code.blocks, ∀ c ∈ input.commands b, c.WellFormed Γ (named ++ code.vars r) := by
  intro b hb c hc
  have k := h.commands b hb c hc
  have mentions := hasVar_of_mem_commands hinput (valid b hb) hc
  refine Command.WellFormed.mono ⟨k.typed.mono within mentions, k.reads, k.writes⟩ fun v hv => ?_
  exact List.mem_append.2 ((List.mem_append.1 hv).imp_left (declared v))

/-- A body of a well-formed input, seen from a program that has all that the input declares. -/
theorem AtomicAction.MadeFrom.wellScoped {numeric : Ty → Bool} {input : Program}
    (hinput : input.Closed) (wf : input.WellFormed numeric)
    (within : (input.typing numeric).Within input.HasVar Γ)
    (declared : ∀ v ∈ input.namedRefs, v ∈ named) (h : a.MadeFrom input) :
    a.WellScoped Γ named input.sharedBase := by
  obtain ⟨r, hr, mover, code, gate, hcode, hprimary, hgate⟩ := h
  have body := wf.bodies r hr _ hcode code rfl
  have valid := Ledger.validIn_of_tagged hinput hr hcode
  have hvars : a.primary.vars = code.vars (input.procedure r) := by rw [hprimary]; rfl
  have hcommands := body.commands_within hinput valid.blocks within declared
  -- a condition of the gate is asserted in the entry block
  have asserted : ∀ e ∈ gate, ∃ b ∈ code.blocks.head?, input.expr e ∈ gateOf (input.commands b) ∧
      b ∈ code.blocks ∧ .assert (input.expr e) ∈ input.commands b := by
    intro e he
    obtain ⟨b, hb, heb⟩ := hgate e he
    have hmem := expr_mem_gateOf heb
    exact ⟨b, hb, hmem, List.mem_of_mem_head? hb, assert_mem_of_mem_gateOf hmem⟩
  refine ⟨by rw [hvars]; exact body.nodup, ?_, ?_, ?_, ?_⟩
  · rw [hvars, globals_sharedBase]
    exact body.notGlobal
  · intro c hc
    obtain ⟨b, hb, hc⟩ := List.mem_flatMap.1 hc
    rw [hprimary] at hb
    rw [hvars]
    exact hcommands b hb c hc
  · rw [hprimary]
    intro e he x hx hmem
    obtain ⟨b, -, -, hb, hassert⟩ := asserted e he
    exact body.binders b hb _ hassert (input.expr e) (by simp [Command.exprs]) x hx
      (List.mem_append.2 (.inr hmem))
  · rw [hprimary]
    intro e he
    obtain ⟨b, hhead, hmem, hb, hassert⟩ := asserted e he
    refine ⟨(hcommands b hb _ hassert).typed, fun x hx => ?_⟩
    obtain ⟨hin, hout⟩ := body.gate b hhead _ hmem x hx
    exact ⟨List.mem_append.2 ((List.mem_append.1 hin).imp_left (declared x)), hout⟩

/-- The body as it stands in the program at hand. -/
theorem AtomicAction.WellScoped.primary (h : a.WellScoped Γ named base) (hbase : base.Closed)
    (hbp : base.Grows Block.Softens p) (built : a.BuiltIn base p) :
    a.primary.WellFormed Γ named p where
  nodup := h.nodup
  commands b hb c hc := by
    obtain ⟨d, hd, hdc⟩ := exists_primary_command hbase hbp built (List.mem_flatMap.2 ⟨b, hb, hc⟩)
    exact (h.commands d hd).softens hdc
  gate e he := by
    rw [hbp.expr_eq hbase (built.gate e he)]
    exact ⟨(h.gate e he).1, fun x hx => ((h.gate e he).2 x hx).1⟩

/-- Shadow inputs are paired with inputs. -/
theorem Replica.Mirrors.inputs_zip {made : Program} {primary shadow : Replica}
    (h : primary.Mirrors made shadow p) :
    ∀ u ∈ primary.inputs.zip shadow.inputs, u ∈ primary.vars.zip shadow.vars := by
  intro u hu
  rw [Replica.vars, Replica.vars, List.append_assoc, List.append_assoc,
    List.zip_append h.inputs_length.symm]
  exact List.mem_append.2 (.inl hu)

/-- Shadow variables have the types of the variables that they repeat. -/
theorem AtomicAction.BuiltIn.tyOf_eq (built : a.BuiltIn base p) (hbp : base.Grows Block.Softens p) :
    ∀ u ∈ a.primary.vars.zip a.shadow.vars, p.tyOf u.2 = p.tyOf u.1 := by
  obtain ⟨made, _, hbm, hm⟩ := built.mirrors
  intro u hu
  have hvar := built.vars u.1 (List.of_mem_zip hu).1
  rw [Program.tyOf, Program.tyOf, hm.vars.var_eq u hu, hbm.var_eq u.1 hvar, hbp.var_eq u.1 hvar]
  rfl

/-- A condition of the gate, renamed to the shadow copy: it mentions inputs only, so it is about the
shadow inputs. -/
theorem AtomicAction.WellScoped.renamedGate (h : a.WellScoped Γ named base) {made : Program}
    (hm : a.primary.Mirrors made a.shadow p)
    (same : ∀ u ∈ a.primary.vars.zip a.shadow.vars, Γ.ty u.2 = Γ.ty u.1) {e : ExprRef}
    (he : e ∈ a.primary.gate) :
    ((base.expr e).subst (.uniform (Substitution.renaming
      (a.primary.vars.zip a.shadow.vars)))).FormulaOver Γ (named ++ a.shadow.inputs) := by
  have hkeys : (a.primary.vars.zip a.shadow.vars).map Prod.fst = a.primary.vars :=
    List.map_fst_zip (Nat.le_of_eq hm.vars.length_eq.symm)
  refine .rename (h.gate e he).1 same (by rw [hkeys]; exact h.binders e he) fun x hx => ?_
  obtain ⟨hin, hout⟩ := (h.gate e he).2 x hx
  by_cases hxi : x ∈ a.primary.inputs
  · have hfst : (a.primary.inputs.zip a.shadow.inputs).map Prod.fst = a.primary.inputs :=
      List.map_fst_zip (Nat.le_of_eq hm.inputs_length.symm)
    rw [← hfst] at hxi
    obtain ⟨u, hu, rfl⟩ := List.mem_map.1 hxi
    rw [Substitution.renamed_of_mem (by rw [hkeys]; exact h.nodup) (hm.inputs_zip u hu)]
    exact List.mem_append.2 (.inr (List.of_mem_zip hu).2)
  · have hkey : x ∉ (a.primary.vars.zip a.shadow.vars).map Prod.fst := by
      rw [hkeys, Replica.vars, List.append_assoc, List.mem_append, not_or]
      exact ⟨hxi, hout⟩
    rw [Substitution.renamed_of_not_mem hkey]
    exact List.mem_append.2 (.inl ((List.mem_append.1 hin).resolve_right hxi))

/-- The shadow copy as it stands in the program at hand. -/
theorem AtomicAction.WellScoped.shadow (h : a.WellScoped Γ named base) (hbase : base.Closed)
    (built : a.BuiltIn base p)
    (same : ∀ u ∈ a.primary.vars.zip a.shadow.vars, Γ.ty u.2 = Γ.ty u.1) :
    a.shadow.WellFormed Γ named p := by
  obtain ⟨made, _, hbm, hm⟩ := built.mirrors
  have hkeys : (a.primary.vars.zip a.shadow.vars).map Prod.fst = a.primary.vars :=
    List.map_fst_zip (Nat.le_of_eq hm.vars.length_eq.symm)
  refine ⟨hm.vars.nodup, fun b hb c hc => ?_, fun e he => ?_⟩
  · obtain ⟨d, hd, hdc⟩ := exists_shadow_command hbase built (List.mem_flatMap.2 ⟨b, hb, hc⟩)
    refine ((h.commands d hd).rename same (fun u hu => ?_) fun x hx hkey => ?_).softens hdc
    · exact List.mem_append.2 (.inr (List.of_mem_zip hu).2)
    · rw [hkeys] at hkey
      exact List.mem_append.2 (.inl ((List.mem_append.1 hx).resolve_right hkey))
  · have hmem : p.expr e ∈ a.shadow.gate.map p.expr := List.mem_map.2 ⟨e, he, rfl⟩
    rw [hm.gate_eq] at hmem
    obtain ⟨g, hg, heq⟩ := List.mem_map.1 hmem
    rw [hbm.expr_eq hbase (built.gate g hg)] at heq
    rw [← heq]
    exact h.renamedGate hm same hg

end Copies

end AtomicMovers
