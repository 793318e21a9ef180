import AtomicMovers.Proofs.BlockCopies
import AtomicMovers.Render.Program

/-!
# Texts up to the choice of variables

What is printed of a variable is the name and the type that the program gives it, so the same text
is printed for other variables that go by the same names (`Expr.render_mapVars`). Names are given
while a declaration is printed. They are given alike in two programs if the variables of one
correspond to those of the other, have the same displayed names, and the same names are taken from
the start, in whatever order (`Relabels`).

It follows that two procedures have the same text if one arises from the other by a change of
variables (`renderProcedure_eq`), and so have two implementations whose blocks correspond
(`renderImplementation_eq`).
-/

namespace AtomicMovers

/-! ## Changing the variables of an expression -/

namespace Expr

mutual

/-- Replaces every variable of an expression, the bound ones included. -/
def mapVars (ρ : VarRef → VarRef) : Expr → Expr
  | .lit value => .lit value
  | .var v => .var (ρ v)
  | .old e => .old (e.mapVars ρ)
  | .unary op e => .unary op (e.mapVars ρ)
  | .binary op l r => .binary op (l.mapVars ρ) (r.mapVars ρ)
  | .call f args => .call f (mapVarsAll ρ args)
  | .quant q bound body => .quant q (bound.map ρ) (body.mapVars ρ)

def mapVarsAll (ρ : VarRef → VarRef) : List Expr → List Expr
  | [] => []
  | e :: es => e.mapVars ρ :: mapVarsAll ρ es

end

variable {ρ : VarRef → VarRef}

theorem mapVarsAll_eq_map (es : List Expr) : mapVarsAll ρ es = es.map (mapVars ρ) := by
  induction es with
  | nil => rfl
  | cons e es ih => rw [mapVarsAll, ih, List.map_cons]

theorem mentionsAll_eq_flatMap (es : List Expr) : mentionsAll es = es.flatMap mentions := by
  induction es with
  | nil => rfl
  | cons e es ih => rw [mentionsAll, ih, List.flatMap_cons]

theorem renderAll_eq_map (lex : Lexicon) (es : List Expr) :
    renderAll lex es = es.map (render lex) := by
  induction es with
  | nil => rfl
  | cons e es ih => rw [renderAll, ih, List.map_cons]

theorem mentions_mapVars (e : Expr) : (e.mapVars ρ).mentions = e.mentions.map ρ := by
  induction e with
  | lit value => rfl
  | var v => rfl
  | old e ih => exact ih
  | unary op e ih => exact ih
  | binary op l r ihl ihr => rw [mapVars, mentions, mentions, ihl, ihr, List.map_append]
  | call f args ih =>
    rw [mapVars, mapVarsAll_eq_map, mentions, mentions, mentionsAll_eq_flatMap,
      mentionsAll_eq_flatMap, List.flatMap_map, List.map_flatMap]
    exact List.flatMap_congr fun a ha => ih a ha
  | quant q bound body ih => rw [mapVars, mentions, mentions, ih, List.map_append]

/-- Variables that are not changed leave the expression as it is. -/
theorem mapVars_eq_self (e : Expr) : (∀ v ∈ e.mentions, ρ v = v) → e.mapVars ρ = e := by
  induction e with
  | lit value => exact fun _ => rfl
  | var v => exact fun h => congrArg var (h v (by simp [mentions]))
  | old e ih => exact fun h => congrArg old (ih h)
  | unary op e ih => exact fun h => congrArg (unary op) (ih h)
  | binary op l r ihl ihr =>
    intro h
    simp only [mentions, List.forall_mem_append] at h
    rw [mapVars, ihl h.1, ihr h.2]
  | call f args ih =>
    intro h
    simp only [mentions, mentionsAll_eq_flatMap, List.mem_flatMap] at h
    rw [mapVars, mapVarsAll_eq_map]
    congr 1
    exact (List.map_congr_left fun a ha => ih a ha fun v hv => h v ⟨a, ha, hv⟩).trans
      (List.map_id args)
  | quant q bound body ih =>
    intro h
    simp only [mentions, List.forall_mem_append] at h
    rw [mapVars, ih h.2, (List.map_congr_left h.1).trans (List.map_id bound)]

/-- A substitution and a change of variables may be done in either order, if the replacements are
changed along. -/
theorem mapVars_substAt {σ σ' : TwoState Expr} (e : Expr) : ∀ {m : Moment},
    (∀ m, ∀ v ∈ e.mentions, (((σ.during m).lookup v).getD (.var v)).mapVars ρ =
      ((σ'.during m).lookup (ρ v)).getD (.var (ρ v))) →
    (e.substAt σ m).mapVars ρ = (e.mapVars ρ).substAt σ' m := by
  induction e with
  | lit value => exact fun _ => rfl
  | var v =>
    intro m h
    rw [substAt, mapVars, substAt]
    exact h m v (by simp [mentions])
  | old e ih => exact fun h => congrArg old (ih h)
  | unary op e ih => exact fun h => congrArg (unary op) (ih h)
  | binary op l r ihl ihr =>
    intro m h
    simp only [mentions, List.forall_mem_append] at h
    rw [substAt, mapVars, mapVars, substAt, ihl fun m => (h m).1, ihr fun m => (h m).2]
  | call f args ih =>
    intro m h
    simp only [mentions, mentionsAll_eq_flatMap, List.mem_flatMap] at h
    rw [substAt, mapVars, mapVars, substAt, substAll_eq_map, substAll_eq_map, mapVarsAll_eq_map,
      mapVarsAll_eq_map, List.map_map, List.map_map]
    congr 1
    exact List.map_congr_left fun a ha => ih a ha fun m v hv => h m v ⟨a, ha, hv⟩
  | quant q bound body ih =>
    intro m h
    simp only [mentions, List.forall_mem_append] at h
    rw [substAt, mapVars, mapVars, substAt, ih fun m => (h m).2]

theorem mapVars_existsAll (vs : List VarRef) (e : Expr) :
    (existsAll vs e).mapVars ρ = existsAll (vs.map ρ) (e.mapVars ρ) := by
  cases vs <;> rfl

/-- What is mentioned is free or bound. -/
theorem mem_mentions {x : VarRef} (e : Expr) : x ∈ e.mentions → x ∈ e.free ∨ x ∈ e.binders := by
  induction e with
  | lit value => exact fun h => .inl h
  | var v => exact fun h => .inl h
  | old e ih => exact ih
  | unary op e ih => exact ih
  | binary op l r ihl ihr =>
    simp only [mentions, free, binders, List.mem_append]
    rintro (h | h)
    · exact (ihl h).imp .inl .inl
    · exact (ihr h).imp .inr .inr
  | call f args ih =>
    simp only [mentions, mentionsAll_eq_flatMap, free, binders, mem_freeAll, mem_bindersAll,
      List.mem_flatMap]
    rintro ⟨a, ha, h⟩
    exact (ih a ha h).imp (fun h => ⟨a, ha, h⟩) fun h => ⟨a, ha, h⟩
  | quant q bound body ih =>
    simp only [mentions, free, binders, List.mem_append, List.mem_filter, decide_eq_true_eq]
    rintro (h | h)
    · exact .inr (.inl h)
    · by_cases hb : x ∈ bound
      · exact .inr (.inl hb)
      · exact (ih h).imp (fun h => ⟨h, hb⟩) .inr

end Expr

/-! ## The same names for other variables -/

/-- The variables `ρ v` are called in `lex'` what `v` is called in `lex`, for all `v` in `V`. -/
def Lexicon.Alike (ρ : VarRef → VarRef) (V : VarRef → Prop) (lex lex' : Lexicon) : Prop :=
  ∀ v, V v → lex'.name (ρ v) = lex.name v ∧ lex'.ty (ρ v) = lex.ty v

section Lexicon

variable {ρ : VarRef → VarRef} {V : VarRef → Prop} {lex lex' : Lexicon}

theorem Lexicon.Alike.bindings (h : lex.Alike ρ V lex') {vs : List VarRef} (hvs : ∀ v ∈ vs, V v) :
    lex'.bindings (vs.map ρ) = lex.bindings vs := by
  rw [Lexicon.bindings, Lexicon.bindings, List.map_map]
  congr 1
  refine List.map_congr_left fun v hv => ?_
  rw [Function.comp, Lexicon.binding, Lexicon.binding, (h v (hvs v hv)).1, (h v (hvs v hv)).2]

/-- The text only shows names and types. -/
theorem Expr.render_mapVars (h : lex.Alike ρ V lex') (e : Expr) : (∀ v ∈ e.mentions, V v) →
    (e.mapVars ρ).render lex' = e.render lex := by
  induction e with
  | lit value => exact fun _ => rfl
  | var v => exact fun hv => (h v (hv v (by simp [mentions]))).1
  | old e ih =>
    intro hv
    rw [mapVars, render, render, ih hv]
  | unary op e ih =>
    intro hv
    cases op with
    | not => rw [mapVars, render, render, ih hv]
    | neg => rw [mapVars, render, render, ih hv]
  | binary op l r ihl ihr =>
    intro hv
    simp only [mentions, List.forall_mem_append] at hv
    rw [mapVars, render, render, ihl hv.1, ihr hv.2]
  | call f args ih =>
    intro hv
    simp only [mentions, mentionsAll_eq_flatMap, List.mem_flatMap] at hv
    rw [mapVars, render, render, mapVarsAll_eq_map, renderAll_eq_map, renderAll_eq_map,
      List.map_map]
    congr 3
    exact List.map_congr_left fun a ha => ih a ha fun v hva => hv v ⟨a, ha, hva⟩
  | quant q bound body ih =>
    intro hv
    simp only [mentions, List.forall_mem_append] at hv
    rw [mapVars, render, render, h.bindings hv.1, ih hv.2]

/-- The text of an expression whose variables are called the same. -/
theorem Expr.render_congr (h : lex.Alike id V lex') (e : Expr) (he : ∀ v ∈ e.mentions, V v) :
    e.render lex' = e.render lex := by
  rw [← e.render_mapVars h he, e.mapVars_eq_self (ρ := id) fun _ _ => rfl]

theorem Command.render_congr (h : lex.Alike id V lex') (c : Command Expr)
    (hc : ∀ v ∈ c.mentions, V v) : c.render lex' = c.render lex := by
  cases c with
  | assert e => rw [render, render, e.render_congr h hc]
  | assume e => rw [render, render, e.render_congr h hc]
  | assign updates =>
    simp only [mentions, List.forall_mem_append, List.mem_flatMap] at hc
    have targets : updates.map (fun u => lex'.name u.1) = updates.map fun u => lex.name u.1 :=
      List.map_congr_left fun u hu => (h u.1 (hc.1 u.1 (List.mem_map.2 ⟨u, hu, rfl⟩))).1
    have values : updates.map (fun u => u.2.render lex') = updates.map fun u => u.2.render lex :=
      List.map_congr_left fun u hu => u.2.render_congr h fun v hv => hc.2 v ⟨u, hu, hv⟩
    rw [render, render, targets, values]

end Lexicon

/-! ## Giving names -/

/-- Which name is free does not depend on the order in which names were taken. -/
theorem freshName_perm {taken taken' : List String} (h : taken.Perm taken') (base : String) :
    freshName taken' base = freshName taken base := by
  rw [freshName, freshName, h.length_eq]
  congr 2
  funext name
  exact decide_eq_decide.2 (not_congr h.mem_iff.symm)

/-- The scope `s'` has for `ρ v` the name that `s` has for `v`, and the same names are taken. -/
structure NameScope.Alike (ρ : VarRef → VarRef) (V : VarRef → Prop) (s s' : NameScope) : Prop where
  taken : s.taken.Perm s'.taken
  names : s'.names = s.names.map fun x => (ρ x.1, x.2)
  known : ∀ x ∈ s.names, V x.1

/-- The variables in `V` correspond to variables of `p'` that are shown the same, and texts start
with the same names. -/
structure Relabels (ρ : VarRef → VarRef) (V : VarRef → Prop) (p p' : Program) : Prop where
  injective : ∀ v w, V v → V w → ρ v = ρ w → v = w
  shown : ∀ v, V v → (p'.var (ρ v)).shownName = (p.var v).shownName
  ty : ∀ v, V v → (p'.var (ρ v)).ty = (p.var v).ty
  scope : (NameScope.ofProgram p).Alike ρ V (NameScope.ofProgram p')

section Scope

variable {ρ : VarRef → VarRef} {V : VarRef → Prop} {p p' : Program}

theorem lookup_map_key (inj : ∀ v w, V v → V w → ρ v = ρ w → v = w) {names : List (VarRef × String)}
    (known : ∀ x ∈ names, V x.1) {v : VarRef} (hv : V v) :
    (names.map fun x => (ρ x.1, x.2)).lookup (ρ v) = names.lookup v := by
  induction names with
  | nil => rfl
  | cons x xs ih =>
    rw [List.forall_mem_cons] at known
    have same : (ρ v == ρ x.1) = (v == x.1) := by
      rw [Bool.eq_iff_iff, beq_iff_eq, beq_iff_eq]
      exact ⟨inj v x.1 hv known.1, congrArg ρ⟩
    rw [List.map_cons, List.lookup_cons, List.lookup_cons, same, ih known.2]

theorem NameScope.Alike.giveName (h : Relabels ρ V p p') {s s' : NameScope} (k : s.Alike ρ V s')
    {v : VarRef} (hv : V v) : (s.giveName p v).Alike ρ V (s'.giveName p' (ρ v)) := by
  have same : s'.names.lookup (ρ v) = s.names.lookup v := by
    rw [k.names]
    exact lookup_map_key h.injective k.known hv
  rw [NameScope.giveName, NameScope.giveName, same]
  cases s.names.lookup v with
  | some _ => exact k
  | none =>
    simp only [h.shown v hv, freshName_perm k.taken, NameScope.bindName]
    refine ⟨k.taken.cons _, ?_, List.forall_mem_cons.2 ⟨hv, k.known⟩⟩
    rw [k.names, List.map_cons]

theorem NameScope.Alike.giveNames (h : Relabels ρ V p p') (vs : List VarRef) :
    ∀ {s s' : NameScope}, s.Alike ρ V s' → (∀ v ∈ vs, V v) →
      (s.giveNames p vs).Alike ρ V (s'.giveNames p' (vs.map ρ)) := by
  induction vs with
  | nil => exact fun k _ => k
  | cons v vs ih =>
    intro s s' k hvs
    rw [List.forall_mem_cons] at hvs
    exact ih (k.giveName h hvs.1) hvs.2

/-- Texts that mention corresponding variables call them the same. -/
theorem Relabels.lexicon (h : Relabels ρ V p p') {vs : List VarRef} (hvs : ∀ v ∈ vs, V v) :
    (p.lexicon vs).Alike ρ V (p'.lexicon (vs.map ρ)) := by
  intro v hv
  refine ⟨?_, h.ty v hv⟩
  have k := h.scope.giveNames h vs hvs
  show NameScope.nameOf p' _ (ρ v) = NameScope.nameOf p _ v
  rw [NameScope.nameOf, NameScope.nameOf, k.names, lookup_map_key h.injective k.known hv,
    h.shown v hv]

end Scope

/-! ## Procedures -/

/-- The procedure `r'` of `p'` arises from the procedure `r` of `p` by a change of variables. Its
conditions are formulas. -/
structure Procedure.Resembles (ρ : VarRef → VarRef) (V : VarRef → Prop) (p : Program)
    (r : Procedure) (p' : Program) (r' : Procedure) : Prop where
  name_eq : r'.name = r.name
  typeParams_eq : r'.typeParams = r.typeParams
  inputs_eq : r'.inputs = r.inputs.map ρ
  outputs_eq : r'.outputs = r.outputs.map ρ
  requires : List.Forall₂ (fun e e' => p'.expr e' = (p.expr e).mapVars ρ) r.requires r'.requires
  ensures : List.Forall₂ (fun e e' => e'.attributes = e.attributes ∧
    ∃ x x', e.condition = .formula x ∧ e'.condition = .formula x' ∧
      p'.expr x' = (p.expr x).mapVars ρ) r.ensures r'.ensures
  within : ∀ v ∈ p.procedureMentions r, V v

section Procedures

variable {ρ : VarRef → VarRef} {V : VarRef → Prop} {p p' : Program} {r r' : Procedure}

theorem flatMap_eq_of_forall₂ {α β γ δ : Type} {f : α → List γ} {g : β → List δ} {h : γ → δ}
    {as : List α} {bs : List β} (hab : List.Forall₂ (fun a b => g b = (f a).map h) as bs) :
    bs.flatMap g = (as.flatMap f).map h := by
  induction hab with
  | nil => rfl
  | cons h _ ih => rw [List.flatMap_cons, List.flatMap_cons, List.map_append, h, ih]

theorem Procedure.Resembles.mentions_eq (k : r.Resembles ρ V p p' r') :
    p'.procedureMentions r' = (p.procedureMentions r).map ρ := by
  have requires : r'.requires.flatMap (fun e => (p'.expr e).mentions) =
      (r.requires.flatMap fun e => (p.expr e).mentions).map ρ :=
    flatMap_eq_of_forall₂ (k.requires.imp fun e e' h => by rw [h, Expr.mentions_mapVars])
  have ensures : (r'.ensures.flatMap fun e => p'.conditionMentions e.condition) =
      (r.ensures.flatMap fun e => p.conditionMentions e.condition).map ρ := by
    refine flatMap_eq_of_forall₂ (k.ensures.imp fun e e' h => ?_)
    obtain ⟨-, x, x', hx, hx', heq⟩ := h
    rw [hx, hx', Program.conditionMentions, Program.conditionMentions, heq, Expr.mentions_mapVars]
  rw [Program.procedureMentions, Program.procedureMentions, requires, ensures, k.inputs_eq,
    k.outputs_eq]
  simp only [List.map_append]

theorem renderSignature_eq {lex lex' : Lexicon} (h : lex.Alike ρ V lex') {ins outs : List VarRef}
    (hins : ∀ v ∈ ins, V v) (houts : ∀ v ∈ outs, V v) :
    Program.renderSignature lex' (ins.map ρ) (outs.map ρ) =
      Program.renderSignature lex ins outs := by
  have outputs := h.bindings houts
  cases outs with
  | nil => rw [List.map_nil, Program.renderSignature, Program.renderSignature, h.bindings hins]
  | cons v vs =>
    rw [List.map_cons] at outputs ⊢
    rw [Program.renderSignature, Program.renderSignature, h.bindings hins, outputs]
    all_goals simp

/-- A change of variables that keeps what is shown keeps the text of a procedure. -/
theorem renderProcedure_eq (h : Relabels ρ V p p') (k : r.Resembles ρ V p p' r') :
    p'.renderProcedure r' = p.renderProcedure r := by
  have lex := h.lexicon k.within
  rw [← k.mentions_eq] at lex
  have within := k.within
  simp only [Program.procedureMentions, List.forall_mem_append, List.mem_flatMap] at within
  obtain ⟨⟨⟨inputs, outputs⟩, requires⟩, ensures⟩ := within
  have signature := renderSignature_eq lex inputs outputs
  have requires_eq : (r'.requires.map fun e => "  requires " ++
      (p'.expr e).render (p'.lexicon (p'.procedureMentions r')) ++ ";\n") =
      r.requires.map fun e => "  requires " ++
        (p.expr e).render (p.lexicon (p.procedureMentions r)) ++ ";\n" := by
    refine map_eq_map_of_forall₂ (((List.forall₂_and_left _ _).2
      ⟨fun e he v hv => requires v ⟨e, he, hv⟩, k.requires⟩).imp fun e e' h => ?_)
    rw [h.2, (p.expr e).render_mapVars lex h.1]
  have ensures_eq : (r'.ensures.map fun e => "  ensures " ++
      String.join (e.attributes.map Program.renderAttribute) ++
      p'.renderCondition (p'.lexicon (p'.procedureMentions r')) e.condition ++ ";\n") =
      r.ensures.map fun e => "  ensures " ++
        String.join (e.attributes.map Program.renderAttribute) ++
        p.renderCondition (p.lexicon (p.procedureMentions r)) e.condition ++ ";\n" := by
    refine map_eq_map_of_forall₂ (((List.forall₂_and_left _ _).2
      ⟨fun e he v hv => ensures v ⟨e, he, hv⟩, k.ensures⟩).imp fun e e' h => ?_)
    obtain ⟨hmentions, hattributes, x, x', hx, hx', heq⟩ := h
    rw [hx, Program.conditionMentions] at hmentions
    rw [hattributes, hx, hx', Program.renderCondition, Program.renderCondition, heq,
      (p.expr x).render_mapVars lex hmentions]
  simp only [Program.renderProcedure, requires_eq, ensures_eq, k.name_eq, k.typeParams_eq,
    k.inputs_eq, k.outputs_eq, signature]

end Procedures

/-! ## Implementations -/

/-- Corresponding ends of blocks, where `pairs` are the blocks that correspond. Neither returns a
value. -/
inductive Transfer.Paired (pairs : List (BlockRef × BlockRef)) : Transfer → Transfer → Prop where
  | goto {bs cs : List BlockRef} (h : List.Forall₂ (fun b c => (b, c) ∈ pairs) bs cs) :
    Paired pairs (.goto bs) (.goto cs)
  | leave : Paired pairs .leave .leave

/-- The implementation `i'` of `p'` has the variables of the implementation `i` of `p`, and blocks
that correspond. -/
structure Implementation.Resembles (V : VarRef → Prop) (p : Program) (i : Implementation)
    (p' : Program) (i' : Implementation) : Prop where
  name_eq : i'.name = i.name
  inputs_eq : i'.inputs = i.inputs
  outputs_eq : i'.outputs = i.outputs
  locals_eq : i'.locals = i.locals
  length_eq : i.blocks.length = i'.blocks.length
  nodup : i.blocks.Nodup
  nodup' : i'.blocks.Nodup
  label : ∀ u ∈ i.blocks.zip i'.blocks, (p'.block u.2).label = (p.block u.1).label
  commands : ∀ u ∈ i.blocks.zip i'.blocks, p'.commands u.2 = p.commands u.1
  transfer : ∀ u ∈ i.blocks.zip i'.blocks,
    Transfer.Paired (i.blocks.zip i'.blocks) (p.block u.1).transfer (p'.block u.2).transfer
  within : ∀ v ∈ p.implementationMentions i, V v

section Implementations

variable {V : VarRef → Prop} {p p' : Program} {i i' : Implementation}

/-- Blocks at the same positions get the same labels. -/
theorem lookup_zip_reverse {bs cs : List BlockRef} (hbs : bs.Nodup) (hcs : cs.Nodup)
    {labels : List String} {u : BlockRef × BlockRef} (hu : u ∈ bs.zip cs) :
    (cs.zip labels).reverse.lookup u.2 = (bs.zip labels).reverse.lookup u.1 := by
  -- the first pair comes last in the reversed list, so it is seen only by its own block
  induction bs generalizing cs labels with
  | nil => simp at hu
  | cons b bs ih =>
    cases cs with
    | nil => simp at hu
    | cons c cs =>
      cases labels with
      | nil => simp
      | cons x xs =>
        rw [List.nodup_cons] at hbs hcs
        have missing {ds : List BlockRef} {d : BlockRef} (hd : d ∉ ds) :
            (ds.zip xs).reverse.lookup d = none := by
          rw [List.lookup_eq_none_iff]
          intro y hy
          rw [bne_iff_ne]
          rintro rfl
          exact hd (List.of_mem_zip (List.mem_reverse.1 hy)).1
        simp only [List.zip_cons_cons, List.reverse_cons, List.lookup_append]
        rcases List.mem_cons.1 hu with rfl | hu
        · simp [missing hbs.1, missing hcs.1]
        · have hb : u.1 ≠ b := fun h => hbs.1 (h ▸ (List.of_mem_zip hu).1)
          have hc : u.2 ≠ c := fun h => hcs.1 (h ▸ (List.of_mem_zip hu).2)
          rw [ih hbs.2 hcs.2 hu, List.lookup_cons, List.lookup_cons, beq_false_of_ne hb,
            beq_false_of_ne hc]
          rfl

variable (k : i.Resembles V p p' i')

include k

theorem Implementation.Resembles.forall₂ {R : BlockRef → BlockRef → Prop}
    (h : ∀ u ∈ i.blocks.zip i'.blocks, R u.1 u.2) : List.Forall₂ R i.blocks i'.blocks :=
  List.forall₂_iff_zip.2 ⟨k.length_eq, fun {b c} hbc => h (b, c) hbc⟩

theorem Implementation.Resembles.blockMentions_eq {u : BlockRef × BlockRef}
    (hu : u ∈ i.blocks.zip i'.blocks) : p'.blockMentions u.2 = p.blockMentions u.1 := by
  have transfer := k.transfer u hu
  rw [Program.blockMentions, Program.blockMentions, k.commands u hu]
  generalize (p.block u.1).transfer = t at *
  generalize (p'.block u.2).transfer = t' at *
  cases transfer <;> rfl

theorem Implementation.Resembles.mentions_eq :
    p'.implementationMentions i' = p.implementationMentions i := by
  have blocks : i'.blocks.flatMap p'.blockMentions = i.blocks.flatMap p.blockMentions := by
    have each : List.Forall₂ (fun b c => p'.blockMentions c = (p.blockMentions b).map id)
        i.blocks i'.blocks := k.forall₂ fun u hu => by rw [k.blockMentions_eq hu, List.map_id]
    rw [flatMap_eq_of_forall₂ each, List.map_id]
  rw [Program.implementationMentions, Program.implementationMentions, blocks, k.inputs_eq,
    k.outputs_eq, k.locals_eq]

theorem Implementation.Resembles.labels_eq {u : BlockRef × BlockRef}
    (hu : u ∈ i.blocks.zip i'.blocks) :
    (blockLabels p' i'.blocks).lookup u.2 = (blockLabels p i.blocks).lookup u.1 := by
  have labels : (i'.blocks.map fun b => (p'.block b).label) =
      i.blocks.map fun b => (p.block b).label :=
    map_eq_map_of_forall₂ (k.forall₂ k.label)
  rw [blockLabels, blockLabels, labels]
  exact lookup_zip_reverse k.nodup k.nodup' hu

/-- The text of a block does not depend on which block it is. -/
theorem Implementation.Resembles.renderBlock_eq {lex lex' : Lexicon} (h : lex.Alike id V lex')
    {u : BlockRef × BlockRef} (hu : u ∈ i.blocks.zip i'.blocks) :
    p'.renderBlock lex' (blockLabels p' i'.blocks) u.2 =
      p.renderBlock lex (blockLabels p i.blocks) u.1 := by
  have within : ∀ c ∈ p.commands u.1, ∀ v ∈ c.mentions, V v := by
    intro c hc v hv
    apply k.within
    have hb : v ∈ p.blockMentions u.1 :=
      List.mem_append.2 (.inl (List.mem_flatMap.2 ⟨c, hc, hv⟩))
    exact List.mem_append.2 (.inr (List.mem_flatMap.2 ⟨u.1, (List.of_mem_zip hu).1, hb⟩))
  have commands : (p'.commands u.2).map (Command.render lex') =
      (p.commands u.1).map (Command.render lex) := by
    rw [k.commands u hu]
    exact List.map_congr_left fun c hc => c.render_congr h (within c hc)
  have name {b c : BlockRef} (hbc : (b, c) ∈ i.blocks.zip i'.blocks) :
      ((blockLabels p' i'.blocks).lookup c).getD (p'.block c).label =
        ((blockLabels p i.blocks).lookup b).getD (p.block b).label := by
    rw [k.labels_eq hbc, k.label _ hbc]
  have transfer : p'.renderTransfer lex' (blockLabels p' i'.blocks) (p'.block u.2).transfer =
      p.renderTransfer lex (blockLabels p i.blocks) (p.block u.1).transfer := by
    have paired := k.transfer u hu
    generalize (p.block u.1).transfer = t at *
    generalize (p'.block u.2).transfer = t' at *
    cases paired with
    | leave => rfl
    | goto hts =>
      rw [Program.renderTransfer, Program.renderTransfer,
        map_eq_map_of_forall₂ (hts.imp fun b c hbc => name hbc)]
  rw [Program.renderBlock, Program.renderBlock, commands, transfer, name hu]

omit k in
/-- The text of an implementation, given what is printed of its blocks. -/
theorem renderImplementation_def (p : Program) (i : Implementation) :
    p.renderImplementation i = "implementation " ++ i.name ++
      Program.renderSignature (p.lexicon (p.implementationMentions i)) i.inputs i.outputs ++
      "\n\x7b\n" ++ String.join (i.locals.map fun v => "  var " ++
        (p.lexicon (p.implementationMentions i)).binding v ++ ";\n") ++
      (if i.locals = [] then "" else "\n") ++ String.intercalate "\n"
        ((i.blocks.map (p.renderBlock (p.lexicon (p.implementationMentions i))
          (blockLabels p i.blocks))).map fun x =>
            "  " ++ x.1 ++ "\n" ++ String.join (x.2.map fun l => "    " ++ l ++ "\n")) ++
      "\x7d\n" := by
  rw [List.map_map]
  rfl

/-- Corresponding blocks make for the same text of an implementation. -/
theorem renderImplementation_eq (h : Relabels id V p p') :
    p'.renderImplementation i' = p.renderImplementation i := by
  have lex := h.lexicon k.within
  rw [List.map_id] at lex
  have within := k.within
  simp only [Program.implementationMentions, List.forall_mem_append] at within
  obtain ⟨⟨⟨inputs, outputs⟩, locals⟩, -⟩ := within
  have signature := renderSignature_eq lex inputs outputs
  rw [List.map_id, List.map_id] at signature
  have locals_eq : (i.locals.map fun v => "  var " ++
      (p'.lexicon (p.implementationMentions i)).binding v ++ ";\n") =
      i.locals.map fun v => "  var " ++
        (p.lexicon (p.implementationMentions i)).binding v ++ ";\n" := by
    refine List.map_congr_left fun v hv => ?_
    obtain ⟨hname, hty⟩ := lex v (locals v hv)
    rw [Lexicon.binding, Lexicon.binding]
    simp only [id] at hname hty
    rw [hname, hty]
  have blocks_eq : i'.blocks.map (p'.renderBlock (p'.lexicon (p.implementationMentions i))
      (blockLabels p' i'.blocks)) =
      i.blocks.map (p.renderBlock (p.lexicon (p.implementationMentions i))
        (blockLabels p i.blocks)) :=
    map_eq_map_of_forall₂ (k.forall₂ fun u hu => k.renderBlock_eq lex hu)
  rw [renderImplementation_def, renderImplementation_def, k.mentions_eq, k.name_eq, k.inputs_eq,
    k.outputs_eq, k.locals_eq, signature, locals_eq, blocks_eq]

end Implementations

end AtomicMovers
