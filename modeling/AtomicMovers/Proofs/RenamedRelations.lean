import AtomicMovers.Proofs.ShadowCopies

/-!
# Relations with other variables

The relation of a graph is computed from the commands along its paths. If the commands of a copy are
those of the graph with other variables, then the relation of the copy is that of the graph with other
variables (`Program.mapVars_relationFormula`). All that is needed is that different variables are
replaced by different ones: going back over an assignment looks assigned variables up by their names.

For renamings that leave bound variables alone, replacing variables by substitution is the same as
changing them everywhere (`Expr.subst_renaming_eq_mapVars`).
-/

namespace AtomicMovers

open Program

/-! ## Changes of variables -/

namespace Expr

variable {ρ τ : VarRef → VarRef}

theorem mapVars_mapVars (e : Expr) : (e.mapVars ρ).mapVars τ = e.mapVars fun v => τ (ρ v) := by
  induction e with
  | lit value => rfl
  | var v => rfl
  | old e ih => exact congrArg old ih
  | unary op e ih => exact congrArg (unary op) ih
  | binary op l r ihl ihr => rw [mapVars, mapVars, mapVars, ihl, ihr]
  | call f args ih =>
    rw [mapVars, mapVars, mapVars, mapVarsAll_eq_map, mapVarsAll_eq_map, mapVarsAll_eq_map,
      List.map_map]
    exact congrArg (call f) (List.map_congr_left ih)
  | quant q bound body ih =>
    rw [mapVars, mapVars, mapVars, ih, List.map_map]
    rfl

/-- Only the variables that occur matter. -/
theorem mapVars_congr (e : Expr) : (∀ v ∈ e.mentions, ρ v = τ v) → e.mapVars ρ = e.mapVars τ := by
  induction e with
  | lit value => exact fun _ => rfl
  | var v => exact fun h => congrArg var (h v (by simp [mentions]))
  | old e ih => exact fun h => congrArg old (ih h)
  | unary op e ih => exact fun h => congrArg (unary op) (ih h)
  | binary op l r ihl ihr =>
    intro h
    simp only [mentions, List.forall_mem_append] at h
    rw [mapVars, mapVars, ihl h.1, ihr h.2]
  | call f args ih =>
    intro h
    simp only [mentions, mentionsAll_eq_flatMap, List.mem_flatMap] at h
    rw [mapVars, mapVars, mapVarsAll_eq_map, mapVarsAll_eq_map]
    congr 1
    exact List.map_congr_left fun a ha => ih a ha fun v hv => h v ⟨a, ha, hv⟩
  | quant q bound body ih =>
    intro h
    simp only [mentions, List.forall_mem_append] at h
    rw [mapVars, mapVars, ih h.2, List.map_congr_left h.1]

/-- Bound variables are changed like all others. -/
theorem mem_binders_mapVars {x : VarRef} (e : Expr) :
    x ∈ (e.mapVars ρ).binders → ∃ y ∈ e.binders, ρ y = x := by
  induction e with
  | lit value => simp [mapVars, binders]
  | var v => simp [mapVars, binders]
  | old e ih => exact ih
  | unary op e ih => exact ih
  | binary op l r ihl ihr =>
    simp only [mapVars, binders, List.mem_append]
    rintro (h | h)
    · obtain ⟨y, hy, heq⟩ := ihl h
      exact ⟨y, .inl hy, heq⟩
    · obtain ⟨y, hy, heq⟩ := ihr h
      exact ⟨y, .inr hy, heq⟩
  | call f args ih =>
    simp only [mapVars, mapVarsAll_eq_map, binders, mem_bindersAll, List.mem_map]
    rintro ⟨_, ⟨a, ha, rfl⟩, h⟩
    obtain ⟨y, hy, heq⟩ := ih a ha h
    exact ⟨y, ⟨a, ha, hy⟩, heq⟩
  | quant q bound body ih =>
    simp only [mapVars, binders, List.mem_append, List.mem_map]
    rintro (⟨y, hy, heq⟩ | h)
    · exact ⟨y, .inl hy, heq⟩
    · obtain ⟨y, hy, heq⟩ := ih h
      exact ⟨y, .inr hy, heq⟩

/-- A renaming of variables that are not bound changes all their occurrences. -/
theorem subst_renaming_eq_mapVars (e : Expr) (pairs : List (VarRef × VarRef)) :
    (∀ x ∈ e.binders, x ∉ pairs.map Prod.fst) →
      e.subst (.uniform (Substitution.renaming pairs)) =
        e.mapVars (Substitution.renamed pairs) := by
  have at_any : ∀ m, (∀ x ∈ e.binders, x ∉ pairs.map Prod.fst) →
      e.substAt (.uniform (Substitution.renaming pairs)) m =
        e.mapVars (Substitution.renamed pairs) := by
    induction e with
    | lit value => exact fun _ _ => rfl
    | var v =>
      intro m _
      have lookup := Substitution.getD_lookup_renaming pairs v
      cases m <;> exact lookup
    | old e ih => exact fun _ h => congrArg old (ih .prior h)
    | unary op e ih => exact fun m h => congrArg (unary op) (ih m h)
    | binary op l r ihl ihr =>
      intro m h
      simp only [binders, List.forall_mem_append] at h
      rw [substAt, mapVars, ihl m h.1, ihr m h.2]
    | call f args ih =>
      intro m h
      simp only [binders, mem_bindersAll] at h
      rw [substAt, mapVars, substAll_eq_map, mapVarsAll_eq_map]
      congr 1
      exact List.map_congr_left fun a ha => ih a ha m fun x hx => h x ⟨a, ha, hx⟩
    | quant q bound body ih =>
      intro m h
      simp only [binders, List.forall_mem_append] at h
      have kept : bound.map (Substitution.renamed pairs) = bound :=
        (List.map_congr_left fun v hv => Substitution.renamed_of_not_mem (h.1 v hv)).trans
          (List.map_id bound)
      rw [substAt, mapVars, ih m h.2, kept]
  exact at_any .current

theorem mapVars_conjoin (es : List Expr) :
    (conjoin es).mapVars ρ = conjoin (es.map (mapVars ρ)) := by
  have from_any : ∀ conj : Expr, (es.foldl (fun conj e => e.and conj) conj).mapVars ρ =
      (es.map (mapVars ρ)).foldl (fun conj e => e.and conj) (conj.mapVars ρ) := by
    induction es with
    | nil => exact fun _ => rfl
    | cons e es ih => exact fun conj => ih (e.and conj)
  exact from_any tt

theorem subst_existsAll (σ : TwoState Expr) (vs : List VarRef) (e : Expr) :
    (existsAll vs e).subst σ = existsAll vs (e.subst σ) := by
  cases vs <;> rfl

end Expr

theorem mapVars_frameFormula {ρ : VarRef → VarRef} (frame : List VarRef) :
    (frameFormula frame).mapVars ρ = frameFormula (frame.map ρ) := by
  rw [frameFormula, frameFormula, Expr.mapVars_conjoin, List.map_map, List.map_map]
  rfl

/-! ## Commands -/

/-- The positions of all variables of the command are below `n`. -/
structure Command.VarsBelow (n : Nat) (c : Command Expr) : Prop where
  exprs : ∀ e ∈ c.exprs, e.VarsBelow n
  targets : ∀ v ∈ c.targets, v.index < n

theorem Command.VarsBelow.mentions {n : Nat} {c : Command Expr} (h : c.VarsBelow n) :
    ∀ v ∈ c.mentions, v.index < n := by
  cases c with
  | assert e => exact (h.exprs e List.mem_cons_self).mentions
  | assume e => exact (h.exprs e List.mem_cons_self).mentions
  | assign updates =>
    refine List.forall_mem_append.2 ⟨h.targets, fun v hv => ?_⟩
    obtain ⟨u, hu, hv⟩ := List.mem_flatMap.1 hv
    exact (h.exprs u.2 (List.mem_map_of_mem hu)).mentions v hv

theorem Program.Closed.varsBelow_command {p : Program} (hp : p.Closed) {b : BlockRef}
    (hb : p.HasBlock b) {c : Command Expr} (hc : c ∈ p.commands b) : c.VarsBelow p.vars.size := by
  obtain ⟨d, hd, rfl⟩ := List.mem_map.1 hc
  refine ⟨?_, ?_⟩
  · rw [Command.exprs_map]
    exact List.forall_mem_map.2 fun e _ => hp.varsBelow_expr e
  · rw [Command.targets_map]
    exact ((hp.block hb).commands d hd).targets

/-- Renaming variables that a command does not bind. -/
theorem Command.rename_eq_mapVars {pairs : List (VarRef × VarRef)} {c : Command Expr}
    (h : ∀ x ∈ pairs.map Prod.fst, ¬c.Binds x) :
    c.rename pairs = c.mapVars (Substitution.renamed pairs) := by
  have expr : ∀ e ∈ c.exprs, e.subst (.uniform (Substitution.renaming pairs)) =
      e.mapVars (Substitution.renamed pairs) := fun e he =>
    e.subst_renaming_eq_mapVars pairs fun x hx hkey => h x hkey ⟨e, he, hx⟩
  cases c with
  | assert e => exact congrArg assert (expr e (by simp [exprs]))
  | assume e => exact congrArg assume (expr e (by simp [exprs]))
  | assign updates =>
    refine congrArg assign (List.map_congr_left fun u hu => ?_)
    rw [TwoState.target_renaming, expr u.2 (List.mem_map.2 ⟨u, hu, rfl⟩)]

namespace Command

variable {ρ τ : VarRef → VarRef}

theorem mapVars_mapVars (c : Command Expr) :
    (c.mapVars ρ).mapVars τ = c.mapVars fun v => τ (ρ v) := by
  cases c with
  | assert e => exact congrArg assert e.mapVars_mapVars
  | assume e => exact congrArg assume e.mapVars_mapVars
  | assign updates =>
    rw [mapVars, mapVars, mapVars, List.map_map]
    exact congrArg assign (List.map_congr_left fun u _ => Prod.ext rfl u.2.mapVars_mapVars)

/-- Only the variables that occur matter. -/
theorem mapVars_congr {c : Command Expr} (h : ∀ v ∈ c.mentions, ρ v = τ v) :
    c.mapVars ρ = c.mapVars τ := by
  cases c with
  | assert e => exact congrArg assert (e.mapVars_congr h)
  | assume e => exact congrArg assume (e.mapVars_congr h)
  | assign updates =>
    simp only [mentions, List.forall_mem_append, List.forall_mem_map, List.mem_flatMap] at h
    refine congrArg assign (List.map_congr_left fun u hu => Prod.ext (h.1 u hu) ?_)
    exact u.2.mapVars_congr fun v hv => h.2 v ⟨u, hu, hv⟩

theorem mapVars_id (c : Command Expr) : c.mapVars id = c := by
  cases c with
  | assert e => exact congrArg assert (e.mapVars_eq_self fun _ _ => rfl)
  | assume e => exact congrArg assume (e.mapVars_eq_self fun _ _ => rfl)
  | assign updates =>
    refine congrArg assign ((List.map_congr_left fun u _ => ?_).trans (List.map_id updates))
    exact Prod.ext rfl (u.2.mapVars_eq_self fun _ _ => rfl)

end Command

section Backwards

variable {ρ : VarRef → VarRef} {n : Nat}
  (injective : ∀ v w : VarRef, v.index < n → w.index < n → ρ v = ρ w → v = w)

include injective

/-- What an assignment gives a variable, it gives the renamed variable after renaming. -/
theorem lookup_map_injective {updates : List (VarRef × Expr)}
    (targets : ∀ u ∈ updates, u.1.index < n) {v : VarRef} (hv : v.index < n) :
    (updates.map fun u => (ρ u.1, u.2.mapVars ρ)).lookup (ρ v) =
      (updates.lookup v).map (Expr.mapVars ρ) := by
  induction updates with
  | nil => rfl
  | cons u us ih =>
    rw [List.forall_mem_cons] at targets
    have same : (ρ v == ρ u.1) = (v == u.1) := by
      rw [Bool.eq_iff_iff, beq_iff_eq, beq_iff_eq]
      exact ⟨injective v u.1 hv targets.1, congrArg ρ⟩
    rw [List.map_cons, List.lookup_cons, List.lookup_cons]
    show (match ρ v == ρ u.1 with | true => some (u.2.mapVars ρ) | false => _) = _
    rw [same, ih targets.2]
    cases v == u.1 <;> rfl

theorem mapVars_backwards {c : Command Expr} (hc : c.VarsBelow n) {after : Expr}
    (hafter : after.VarsBelow n) :
    (c.backwards after).mapVars ρ = (c.mapVars ρ).backwards (after.mapVars ρ) := by
  cases c with
  | assert e => rfl
  | assume e => rfl
  | assign updates =>
    refine after.mapVars_substAt fun m v hv => ?_
    cases m with
    | current => rfl
    | prior =>
      -- only what is read in the prior state is looked up
      show (((Substitution.ofList updates).lookup v).getD (.var v)).mapVars ρ =
        ((Substitution.ofList (updates.map fun u => (ρ u.1, u.2.mapVars ρ))).lookup (ρ v)).getD
          (.var (ρ v))
      have targets : ∀ u ∈ updates.reverse, u.1.index < n := fun u hu =>
        hc.targets u.1 (List.mem_map.2 ⟨u, List.mem_reverse.1 hu, rfl⟩)
      rw [Substitution.ofList, Substitution.ofList, ← List.map_reverse,
        lookup_map_injective injective targets (hafter.mentions v hv)]
      cases updates.reverse.lookup v <;> rfl

theorem mapVars_foldr_backwards {cs : List (Command Expr)} (hcs : ∀ c ∈ cs, c.VarsBelow n)
    {after : Expr} (hafter : after.VarsBelow n) :
    (cs.foldr (fun c after => c.backwards after) after).VarsBelow n ∧
      (cs.foldr (fun c after => c.backwards after) after).mapVars ρ =
        (cs.map (Command.mapVars ρ)).foldr (fun c after => c.backwards after)
          (after.mapVars ρ) := by
  induction cs with
  | nil => exact ⟨hafter, rfl⟩
  | cons c cs ih =>
    rw [List.forall_mem_cons] at hcs
    obtain ⟨below, eq⟩ := ih hcs.2
    refine ⟨varsBelow_backwards hcs.1.exprs below, ?_⟩
    rw [List.foldr_cons, mapVars_backwards injective hcs.1 below, eq]
    rfl

/-! ## Paths and relations -/

variable {φ : BlockRef → BlockRef} {p q : Program}

theorem mapVars_foldl_blockFormula {path : Path}
    (below : ∀ b ∈ path, ∀ c ∈ p.commands b, c.VarsBelow n)
    (same : ∀ b ∈ path, q.commands (φ b) = (p.commands b).map (Command.mapVars ρ)) {after : Expr}
    (hafter : after.VarsBelow n) :
    (path.foldl p.blockFormula after).mapVars ρ =
      (path.map φ).foldl q.blockFormula (after.mapVars ρ) := by
  induction path generalizing after with
  | nil => rfl
  | cons b path ih =>
    rw [List.forall_mem_cons] at below same
    obtain ⟨below', eq⟩ := mapVars_foldr_backwards injective below.1 hafter
    have step : q.blockFormula (after.mapVars ρ) (φ b) = (p.blockFormula after b).mapVars ρ := by
      rw [blockFormula, blockFormula, same.1, eq]
    rw [List.map_cons, List.foldl_cons, List.foldl_cons, step]
    exact ih below.2 same.2 below'

/-- The relation of a copy with other variables. -/
theorem Program.mapVars_relationFormula {frame : List VarRef} (hframe : ∀ v ∈ frame, v.index < n)
    {paths : List Path} (below : ∀ π ∈ paths, ∀ b ∈ π, ∀ c ∈ p.commands b, c.VarsBelow n)
    (same : ∀ π ∈ paths, ∀ b ∈ π,
      q.commands (φ b) = (p.commands b).map (Command.mapVars ρ)) :
    (p.relationFormula frame paths).mapVars ρ =
      q.relationFormula (frame.map ρ) (paths.map (List.map φ)) := by
  have start : (frameFormula frame).VarsBelow n := varsBelow_frameFormula hframe
  have from_any : ∀ relation : Expr,
      (paths.foldl (fun relation π => relation.or (p.pathFormula frame π)) relation).mapVars ρ =
        (paths.map (List.map φ)).foldl
          (fun relation π => relation.or (q.pathFormula (frame.map ρ) π)) (relation.mapVars ρ) := by
    induction paths with
    | nil => exact fun _ => rfl
    | cons π paths ih =>
      rw [List.forall_mem_cons] at below same
      have path : (p.pathFormula frame π).mapVars ρ =
          q.pathFormula (frame.map ρ) (π.map φ) := by
        rw [pathFormula, pathFormula, ← mapVars_frameFormula]
        exact mapVars_foldl_blockFormula injective below.1 same.1 start
      intro relation
      rw [List.map_cons, List.foldl_cons, List.foldl_cons, ← path]
      exact ih below.2 same.2 (relation.or (p.pathFormula frame π))
  exact from_any .ff

end Backwards

end AtomicMovers
