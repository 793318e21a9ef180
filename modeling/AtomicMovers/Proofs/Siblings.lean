import AtomicMovers.Proofs.Entering
import AtomicMovers.Proofs.RenamedTexts

/-!
# One obligation in two programs

Two programs that continue the same one and declare the same names (`Siblings`) may both state an
obligation about the same two actions. The bound variables and the blocks of the two statements are
then different entries, but each is new and looks like its counterpart. So there is a change of
variables that turns the one contract into the other (`FreshVars`, `TransitionOf.twins`,
`FailureReachability.twins`), the block graphs are copies of the same graph, and the texts agree
(`Siblings.texts_eq`).
-/

namespace AtomicMovers

open Program

/-! ## Changing new variables -/

namespace Substitution

variable {ρ : VarRef → VarRef}

theorem lookup_map_value {l : List (VarRef × VarRef)} {v : VarRef} (keys : ∀ u ∈ l, ρ u.1 = u.1)
    (apart : ∀ u ∈ l, ρ v = u.1 → v = u.1) :
    (l.map (Prod.map id ρ)).lookup (ρ v) = (l.lookup v).map ρ := by
  induction l with
  | nil => rfl
  | cons u us ih =>
    rw [List.forall_mem_cons] at keys apart
    have same : (ρ v == u.1) = (v == u.1) := by
      rw [Bool.eq_iff_iff, beq_iff_eq, beq_iff_eq]
      exact ⟨apart.1, fun h => by rw [h, keys.1]⟩
    rw [List.map_cons, List.lookup_cons, List.lookup_cons]
    show (match ρ v == u.1 with | true => some (ρ u.2) | false => _) = _
    rw [same, ih keys.2 apart.2]
    cases v == u.1 <;> rfl

/-- A renaming of variables that are not changed, followed by a change of variables. -/
theorem renamed_map {pairs : List (VarRef × VarRef)} {v : VarRef}
    (keys : ∀ u ∈ pairs, ρ u.1 = u.1) (apart : ∀ u ∈ pairs, ρ v = u.1 → v = u.1) :
    renamed (pairs.map (Prod.map id ρ)) (ρ v) = ρ (renamed pairs v) := by
  rw [renamed, renamed, ← List.map_reverse, lookup_map_value (by simpa using keys)
    (by simpa using apart)]
  cases pairs.reverse.lookup v <;> rfl

/-- Where every variable has one new name, all get theirs. -/
theorem map_renamed_zip {vs ws : List VarRef} (nodup : vs.Nodup) (length_eq : vs.length = ws.length) :
    vs.map (renamed (vs.zip ws)) = ws := by
  have fst : (vs.zip ws).map Prod.fst = vs := List.map_fst_zip (Nat.le_of_eq length_eq)
  have each : List.Forall₂ (fun v w => w = renamed (vs.zip ws) v) vs ws :=
    List.forall₂_iff_zip.2 ⟨length_eq, fun h => (renamed_of_mem (by rwa [fst]) h).symm⟩
  have := map_eq_map_of_forall₂ (f := id) each
  rw [← this, List.map_id]

theorem renamed_zip_mem {vs ws : List VarRef} (nodup : vs.Nodup) (length_eq : vs.length = ws.length)
    {v : VarRef} (hv : v ∈ vs) : renamed (vs.zip ws) v ∈ ws := by
  have mem := List.mem_map_of_mem (f := renamed (vs.zip ws)) hv
  rwa [map_renamed_zip nodup length_eq] at mem

theorem renamed_zip_of_not_mem {vs ws : List VarRef} (length_eq : vs.length = ws.length) {v : VarRef}
    (hv : v ∉ vs) : renamed (vs.zip ws) v = v :=
  renamed_of_not_mem (by rwa [List.map_fst_zip (Nat.le_of_eq length_eq)])

end Substitution

namespace Expr

variable {ρ : VarRef → VarRef} {cur pri : List (VarRef × VarRef)}

/-- Renaming and then changing the new names is the same as renaming to the changed ones. -/
theorem mapVars_subst_renaming (e : Expr) (keys : ∀ u ∈ cur ++ pri, ρ u.1 = u.1)
    (apart : ∀ v ∈ e.mentions, ∀ u ∈ cur ++ pri, ρ v = u.1 → v = u.1) :
    (e.subst ⟨Substitution.renaming cur, Substitution.renaming pri⟩).mapVars ρ =
      (e.mapVars ρ).subst ⟨Substitution.renaming (cur.map (Prod.map id ρ)),
        Substitution.renaming (pri.map (Prod.map id ρ))⟩ := by
  rw [List.forall_mem_append] at keys
  refine e.mapVars_substAt fun m v hv => ?_
  have apart := List.forall_mem_append.1 (apart v hv)
  cases m with
  | current =>
    simp only [TwoState.during, Substitution.getD_lookup_renaming, mapVars,
      Substitution.renamed_map keys.1 apart.1]
  | prior =>
    simp only [TwoState.during, Substitution.getD_lookup_renaming, mapVars,
      Substitution.renamed_map keys.2 apart.2]

/-- A renaming mentions new names only. -/
theorem mentions_subst_renaming {x : VarRef} (e : Expr) : ∀ {m : Moment},
    x ∈ (e.substAt ⟨Substitution.renaming cur, Substitution.renaming pri⟩ m).mentions →
      x ∈ e.mentions ∨ x ∈ (cur ++ pri).map Prod.snd := by
  induction e with
  | lit value => exact fun h => .inl h
  | var v =>
    intro m
    have named (pairs : List (VarRef × VarRef)) (sub : ∀ u ∈ pairs, u ∈ cur ++ pri)
        (h : x = Substitution.renamed pairs v) : x ∈ (var v).mentions ∨
          x ∈ (cur ++ pri).map Prod.snd := by
      rcases Substitution.renamed_eq_or_mem pairs v with ⟨heq, _⟩ | hmem
      · exact .inl (by rw [h, heq]; simp [mentions])
      · exact .inr (List.mem_map.2 ⟨_, sub _ hmem, h.symm⟩)
    cases m with
    | current =>
      simp only [substAt, TwoState.during, Substitution.getD_lookup_renaming]
      exact fun h => named cur (fun _ => List.mem_append_left _) (by simpa [mentions] using h)
    | prior =>
      simp only [substAt, TwoState.during, Substitution.getD_lookup_renaming]
      exact fun h => named pri (fun _ => List.mem_append_right _) (by simpa [mentions] using h)
  | old e ih => exact ih
  | unary op e ih => exact ih
  | binary op l r ihl ihr =>
    intro m h
    rcases List.mem_append.1 h with h | h
    · exact (ihl h).imp_left (List.mem_append_left _)
    · exact (ihr h).imp_left (List.mem_append_right _)
  | call f args ih =>
    intro m h
    rw [substAt, substAll_eq_map, mentions, mentionsAll_eq_flatMap] at h
    rw [mentions, mentionsAll_eq_flatMap]
    obtain ⟨_, ha', h⟩ := List.mem_flatMap.1 h
    obtain ⟨a, ha, rfl⟩ := List.mem_map.1 ha'
    exact (ih a ha h).imp_left fun h => List.mem_flatMap.2 ⟨a, ha, h⟩
  | quant q bound body ih =>
    intro m h
    rcases List.mem_append.1 h with h | h
    · exact .inl (List.mem_append_left _ h)
    · exact (ih h).imp_left (List.mem_append_right _)

theorem mem_mentions_existsAll {vs : List VarRef} {e : Expr} {x : VarRef}
    (h : x ∈ (existsAll vs e).mentions) : x ∈ vs ∨ x ∈ e.mentions := by
  cases vs with
  | nil => exact .inr h
  | cons v vs => exact List.mem_append.1 h

theorem VarsBelow.mentions {n : Nat} {e : Expr} (h : e.VarsBelow n) :
    ∀ x ∈ e.mentions, x.index < n :=
  fun x hx => h x (e.mem_mentions hx)

end Expr

/-! ## New variables -/

/-- The variables `ws` are new in `q`, and are what `vars` lists. -/
structure FreshVars (p : Program) (vars : List Variable) (ws : List VarRef) (q : Program) : Prop where
  nodup : ws.Nodup
  fresh : ∀ w ∈ ws, ¬p.HasVar w
  valid : ∀ w ∈ ws, q.HasVar w
  vars_eq : ws.map q.var = vars

section FreshVars

variable {p q r : Program} {vars vars' : List Variable} {ws ws' : List VarRef}

theorem FreshVars.nil (p q : Program) : FreshVars p [] [] q :=
  ⟨List.nodup_nil, by simp, by simp, rfl⟩

theorem FreshVars.extends (h : FreshVars p vars ws q) (hqr : q.Extends r) :
    FreshVars p vars ws r where
  nodup := h.nodup
  fresh := h.fresh
  valid w hw := hqr.within.hasVar (h.valid w hw)
  vars_eq := by
    rw [← h.vars_eq]
    exact List.map_congr_left fun w hw => hqr.var_eq w (h.valid w hw)

theorem FreshVars.append (hpq : p.Extends q) (h : FreshVars p vars ws q) (hqr : q.Extends r)
    (h' : FreshVars q vars' ws' r) : FreshVars p (vars ++ vars') (ws ++ ws') r where
  nodup := List.nodup_append.2
    ⟨h.nodup, h'.nodup, fun w hw w' hw' heq => h'.fresh w' hw' (heq ▸ h.valid w hw)⟩
  fresh := List.forall_mem_append.2
    ⟨h.fresh, fun w hw hwp => h'.fresh w hw (hpq.within.hasVar hwp)⟩
  valid := List.forall_mem_append.2 ⟨(h.extends hqr).valid, h'.valid⟩
  vars_eq := by rw [List.map_append, (h.extends hqr).vars_eq, h'.vars_eq]

theorem FreshCopies.freshVars {h : Variable → Variable} {vs : List VarRef}
    (k : FreshCopies h p vs ws q) : FreshVars p (vs.map fun v => h (p.var v)) ws q where
  nodup := k.nodup
  fresh := k.fresh
  valid := k.valid
  vars_eq := map_eq_map_of_forall₂
    (List.forall₂_iff_zip.2 ⟨k.length_eq.symm, fun {v w} hvw => k.var_eq (v, w) hvw⟩)

theorem FreshPairs.freshVars {pairs : List (VarRef × VarRef)} {copies : List StateCopy}
    (k : FreshPairs p pairs copies q) :
    FreshVars p (((pairs.map Prod.fst).zip copies).map fun x => (p.var x.1).toBound x.2)
      (pairs.map Prod.snd) q where
  nodup := k.nodup
  fresh := List.forall_mem_map.2 k.fresh
  valid := List.forall_mem_map.2 k.valid
  vars_eq := by
    have zip : (pairs.zip copies).map Prod.fst = pairs :=
      List.map_fst_zip (Nat.le_of_eq k.length_eq.symm)
    rw [List.zip_map_left, List.map_map]
    nth_rewrite 1 [← zip]
    rw [List.map_map, List.map_map]
    exact List.map_congr_left k.var_eq

/-! ### The same new variables elsewhere -/

variable (h : FreshVars p vars ws q) (h' : FreshVars p vars ws' r)

include h h'

theorem FreshVars.length_eq : ws.length = ws'.length := by
  rw [← List.length_map (f := q.var), h.vars_eq, ← h'.vars_eq, List.length_map]

/-- The change of variables from the one list to the other. -/
theorem FreshVars.map_renamed : ws.map (Substitution.renamed (ws.zip ws')) = ws' :=
  Substitution.map_renamed_zip h.nodup (h.length_eq h')

/-- What was there before is not changed. -/
theorem FreshVars.renamed_of_hasVar {v : VarRef} (hv : p.HasVar v) :
    Substitution.renamed (ws.zip ws') v = v :=
  Substitution.renamed_zip_of_not_mem (h.length_eq h') fun hmem => h.fresh v hmem hv

theorem FreshVars.renamed_mem {v : VarRef} (hv : v ∈ ws) :
    Substitution.renamed (ws.zip ws') v ∈ ws' :=
  Substitution.renamed_zip_mem h.nodup (h.length_eq h') hv

theorem FreshVars.injective (v w : VarRef) (hv : p.HasVar v ∨ v ∈ ws) (hw : p.HasVar w ∨ w ∈ ws)
    (heq : Substitution.renamed (ws.zip ws') v = Substitution.renamed (ws.zip ws') w) : v = w := by
  have mixed {x y : VarRef} (hx : p.HasVar x) (hy : y ∈ ws)
      (heq : Substitution.renamed (ws.zip ws') x = Substitution.renamed (ws.zip ws') y) : False := by
    rw [h.renamed_of_hasVar h' hx] at heq
    exact h'.fresh x (heq ▸ h.renamed_mem h' hy) hx
  rcases hv with hv | hv <;> rcases hw with hw | hw
  · rwa [h.renamed_of_hasVar h' hv, h.renamed_of_hasVar h' hw] at heq
  · exact (mixed hv hw heq).elim
  · exact (mixed hw hv heq.symm).elim
  · refine List.inj_on_of_nodup_map ?_ hv hw heq
    rw [h.map_renamed h']
    exact h'.nodup

theorem FreshVars.var_eq {v : VarRef} (hv : v ∈ ws) :
    r.var (Substitution.renamed (ws.zip ws') v) = q.var v := by
  have both : ws.map (fun v => r.var (Substitution.renamed (ws.zip ws') v)) = ws.map q.var := by
    rw [h.vars_eq, ← h'.vars_eq]
    nth_rewrite 2 [← h.map_renamed h']
    rw [List.map_map]
    rfl
  exact List.map_inj_left.1 both v hv

end FreshVars

/-! ## Relations and reachability formulas -/

/-- The variables that the relation of two actions binds. -/
def transitionVars (first : Option AtomicAction) (second : AtomicAction) (p : Program) :
    List Variable :=
  (transitionLocals first second).map fun v => (p.var v).toBound (p.var v).copy

/-- The formulas `e` and `e'` bind the new variables `ws` and `ws'` and are otherwise the same. -/
structure Twins (p : Program) (ws ws' : List VarRef) (e e' : Expr) : Prop where
  mentions : ∀ x ∈ e.mentions, p.HasVar x ∨ x ∈ ws
  eq_mapVars : ∀ ρ : VarRef → VarRef, (∀ v, p.HasVar v → ρ v = v) → ws.map ρ = ws' → e' = e.mapVars ρ

section Twins

variable {p q q' : Program} {first : AtomicAction} {second : AtomicAction}

/-- A formula of `p` is its own twin. -/
theorem twins_of_varsBelow {e : Expr} (h : e.VarsBelow p.vars.size) (ws ws' : List VarRef) :
    Twins p ws ws' e e where
  mentions x hx := .inl (h.mentions x hx)
  eq_mapVars _ hρ _ := (e.mapVars_eq_self fun v hv => hρ v (h.mentions v hv)).symm

/-- The relations of the same actions, made in two programs that continue `p`. -/
theorem TransitionOf.twins (hp : p.Closed) {first : Option AtomicAction}
    (locals : ∀ v ∈ transitionLocals first second, p.HasVar v)
    (frame : ∀ v ∈ transitionFrame first second p, p.HasVar v) {e e' : Expr}
    (h : TransitionOf first second p e q) (h' : TransitionOf first second p e' q') :
    ∃ ws ws', FreshVars p (transitionVars first second p) ws q ∧
      FreshVars p (transitionVars first second p) ws' q' ∧ Twins p ws ws' e e' := by
  obtain ⟨paths, ws, hpaths, hws, rfl⟩ := h.made
  obtain ⟨paths', ws', hpaths', hws', rfl⟩ := h'.made
  obtain rfl := hpaths.unique hpaths'
  have below := varsBelow_relationFormula hp frame paths'
  refine ⟨ws, ws', hws.freshVars, hws'.freshVars, ⟨fun x hx => ?_, fun ρ hρ hmap => ?_⟩⟩
  · rcases Expr.mem_mentions_existsAll hx with hx | hx
    · exact .inr hx
    · rcases Expr.mentions_subst_renaming _ hx with hx | hx
      · exact .inl (below.mentions x hx)
      · simp only [List.map_append, List.mem_append, or_self] at hx
        obtain ⟨u, hu, rfl⟩ := List.mem_map.1 hx
        exact .inr (List.of_mem_zip hu).2
  · have keys : ∀ u ∈ (transitionLocals first second).zip ws ++
        (transitionLocals first second).zip ws, ρ u.1 = u.1 := by
      intro u hu
      rw [List.mem_append, or_self] at hu
      exact hρ u.1 (locals u.1 (List.of_mem_zip hu).1)
    have same := (p.relationFormula (transitionFrame first second p) paths').mapVars_eq_self
      fun v hv => hρ v (below.mentions v hv)
    rw [Expr.mapVars_existsAll, hmap]
    congr 1
    unfold TwoState.uniform
    rw [Expr.mapVars_subst_renaming _ keys fun v hv u _ heq => by
      rwa [hρ v (below.mentions v hv)] at heq, same, ← hmap, List.zip_map_right]

/-! ### Reachability -/

/-- The variables that a reachability formula has copies of, in the order of the copies. -/
def reachabilityKeys (p : Program) (second : AtomicAction) : List VarRef :=
  p.globals ++ (second.shadow.outputs.flatMap fun v => [v, v]) ++ second.shadow.locals

/-- The variables that a reachability formula binds. -/
def reachabilityVars (p : Program) (second : AtomicAction) : List Variable :=
  ((reachabilityKeys p second).zip (reachabilityStates p second)).map fun x =>
    (p.var x.1).toBound x.2

theorem hasVar_of_mem_reachabilityKeys (hp : p.Closed) (hs : second.shadow.ValidIn p) :
    ∀ v ∈ reachabilityKeys p second, p.HasVar v := by
  intro v hv
  simp only [reachabilityKeys, List.mem_append, List.mem_flatMap] at hv
  rcases hv with (hv | ⟨w, hw, hv⟩) | hv
  · exact hp.hasVar_of_mem_globals hv
  · obtain rfl : v = w := by simpa using hv
    exact hs.vars v (Replica.outputs_subset _ v hw)
  · exact hs.vars v (Replica.locals_subset _ v hv)

variable {globals locals globals' locals' : List (VarRef × VarRef)}
  {outputs outputs' : List ((VarRef × VarRef) × (VarRef × VarRef))}

/-- The copies are copies of the keys. -/
theorem ReachabilityCopies.keys_eq
    (h : ReachabilityCopies second p globals outputs locals q) :
    (globals ++ outputs.flatMap (fun x => [x.1, x.2]) ++ locals).map Prod.fst =
      reachabilityKeys p second := by
  have outs : (outputs.flatMap fun x => [x.1, x.2]).map Prod.fst =
      second.shadow.outputs.flatMap fun v => [v, v] := by
    have after := h.outputs_after
    have before := h.outputs_before
    rw [← after, List.map_map, List.map_map] at before
    rw [← after, List.map_map, List.flatMap_map, List.map_flatMap]
    refine List.flatMap_congr fun x hx => ?_
    have same : x.2.1 = x.1.1 := List.map_inj_left.1 before x hx
    simp [same]
  rw [List.map_append, List.map_append, outs, h.globals_eq, h.locals_eq, reachabilityKeys]

theorem ReachabilityCopies.freshVars (hp : p.Closed) (hs : second.shadow.ValidIn p)
    {made : Program} (hpm : p.Extends made)
    (h : ReachabilityCopies second made globals outputs locals q) :
    FreshVars made (reachabilityVars p second)
      ((globals ++ outputs.flatMap (fun x => [x.1, x.2]) ++ locals).map Prod.snd) q := by
  have k := h.fresh.freshVars
  have keys : reachabilityKeys made second = reachabilityKeys p second := by
    rw [reachabilityKeys, hpm.globals_eq, reachabilityKeys]
  have states : reachabilityStates made second = reachabilityStates p second := by
    rw [reachabilityStates, hpm.globals_eq, reachabilityStates]
  have vars : (((reachabilityKeys p second).zip (reachabilityStates p second)).map fun x =>
      (made.var x.1).toBound x.2) = reachabilityVars p second := by
    refine List.map_congr_left fun x hx => ?_
    rw [hpm.var_eq x.1 (hasVar_of_mem_reachabilityKeys hp hs x.1 (List.of_mem_zip hx).1)]
  rwa [h.keys_eq, keys, states, vars] at k

theorem eq_map_of_fst_snd {ρ : VarRef → VarRef} {l l' : List (VarRef × VarRef)}
    (fst : l'.map Prod.fst = l.map Prod.fst) (snd : l'.map Prod.snd = (l.map Prod.snd).map ρ) :
    l' = l.map (Prod.map id ρ) := by
  induction l generalizing l' with
  | nil => simpa using fst
  | cons x xs ih =>
    cases l' with
    | nil => cases fst
    | cons y ys =>
      simp only [List.map_cons, List.cons.injEq] at fst snd ⊢
      exact ⟨Prod.ext fst.1 snd.1, ih fst.2 snd.2⟩

theorem flatMap_pair_injective {α : Type} {l l' : List (α × α)}
    (h : (l.flatMap fun x => [x.1, x.2]) = l'.flatMap fun x => [x.1, x.2]) : l = l' := by
  induction l generalizing l' with
  | nil =>
    cases l' with
    | nil => rfl
    | cons y ys => cases h
  | cons x xs ih =>
    cases l' with
    | nil => cases h
    | cons y ys =>
      simp only [List.flatMap_cons, List.cons_append, List.nil_append, List.cons.injEq] at h
      rw [Prod.ext h.1 h.2.1, ih h.2.2]

/-- The copies in one program, changed to those in the other. -/
theorem ReachabilityCopies.eq_map {ρ : VarRef → VarRef}
    (h : ReachabilityCopies second p globals outputs locals q) {p' : Program}
    (hglobals : p'.globals = p.globals)
    (h' : ReachabilityCopies second p' globals' outputs' locals' q')
    (hρ : ((globals ++ outputs.flatMap (fun x => [x.1, x.2]) ++ locals).map Prod.snd).map ρ =
      (globals' ++ outputs'.flatMap (fun x => [x.1, x.2]) ++ locals').map Prod.snd) :
    globals' = globals.map (Prod.map id ρ) ∧
      outputs' = outputs.map (Prod.map (Prod.map id ρ) (Prod.map id ρ)) ∧
      locals' = locals.map (Prod.map id ρ) := by
  have keys : reachabilityKeys p' second = reachabilityKeys p second := by
    rw [reachabilityKeys, hglobals, reachabilityKeys]
  have all := eq_map_of_fst_snd (by rw [h'.keys_eq, h.keys_eq, keys]) hρ.symm
  have lengths : globals'.length = globals.length := by
    rw [← List.length_map (f := Prod.fst), h'.globals_eq, hglobals, ← h.globals_eq, List.length_map]
  have lengths' : locals'.length = locals.length := by
    rw [← List.length_map (f := Prod.fst), h'.locals_eq, ← h.locals_eq, List.length_map]
  rw [List.map_append, List.map_append] at all
  obtain ⟨front, back⟩ := List.append_inj' all (by simpa using lengths')
  obtain ⟨front, middle⟩ := List.append_inj front (by simpa using lengths)
  refine ⟨front, flatMap_pair_injective ?_, back⟩
  rw [middle, List.map_flatMap, List.flatMap_map]
  rfl

/-- A change of variables that keeps what the copies are copies of. -/
theorem mapVars_reachabilityFormula {ρ : VarRef → VarRef} {condition : Expr}
    (keys : ∀ u ∈ (globals ++ outputs.map Prod.fst) ++ (outputs.map Prod.snd ++ locals),
      ρ u.1 = u.1)
    (apart : ∀ v ∈ condition.mentions,
      ∀ u ∈ (globals ++ outputs.map Prod.fst) ++ (outputs.map Prod.snd ++ locals),
        ρ v = u.1 → v = u.1) :
    (reachabilityFormula globals outputs locals condition).mapVars ρ =
      reachabilityFormula (globals.map (Prod.map id ρ))
        (outputs.map (Prod.map (Prod.map id ρ) (Prod.map id ρ))) (locals.map (Prod.map id ρ))
        (condition.mapVars ρ) := by
  rw [reachabilityFormula, reachabilityFormula, Expr.mapVars_existsAll,
    Expr.mapVars_subst_renaming _ keys apart]
  simp only [List.map_append, List.map_map, List.map_flatMap, List.flatMap_map]
  rfl

/-- What a reachability formula mentions is mentioned before, or is a copy. -/
theorem mem_mentions_reachabilityFormula {condition : Expr} {x : VarRef}
    (hx : x ∈ (reachabilityFormula globals outputs locals condition).mentions) :
    x ∈ condition.mentions ∨
      x ∈ (globals ++ outputs.flatMap (fun x => [x.1, x.2]) ++ locals).map Prod.snd := by
  rcases Expr.mem_mentions_existsAll hx with hx | hx
  · exact .inr hx
  · refine (Expr.mentions_subst_renaming _ hx).imp_right fun hx => ?_
    exact ((copies_perm _ _ _).map Prod.snd).mem_iff.2 hx

/-- Reachability formulas about the same actions, made in two programs that continue `p`. -/
theorem FailureReachability.twins (hp : p.Closed) (hs : second.ValidIn p)
    {e e' : Expr} {made made' : Program} (h : FailureReachability p first second e made q)
    (h' : FailureReachability p first second e' made' q') :
    ∃ ws ws', FreshVars p (transitionVars none second p ++ reachabilityVars p second) ws q ∧
      FreshVars p (transitionVars none second p ++ reachabilityVars p second) ws' q' ∧
      Twins p ws ws' e e' := by
  obtain ⟨relation, globals, outputs, locals, _, related, copies, rfl⟩ := h.formula
  obtain ⟨relation', globals', outputs', locals', _, related', copies', rfl⟩ := h'.formula
  obtain ⟨hlocals, hframe⟩ := hasVar_of_mem_transition hp none (by simp) hs.shadow
  obtain ⟨ws, ws', hws, hws', twins⟩ := (related.transitionOf hp (by simp) hs.shadow).twins hp
    hlocals hframe (related'.transitionOf hp (by simp) hs.shadow)
  have new := copies.freshVars hp hs.shadow h.earlier
  have new' := copies'.freshVars hp hs.shadow h'.earlier
  have gate := varsBelow_gateFailsFormula hp first
  have known := copies.hasVar_fst hp h.earlier hs.shadow
  refine ⟨ws ++ _, ws' ++ _, hws.append h.earlier h.later new, hws'.append h'.earlier h'.later new',
    ⟨fun x hx => ?_, fun ρ hρ hmap => ?_⟩⟩
  · rcases mem_mentions_reachabilityFormula hx with hx | hx
    · rcases List.mem_append.1 hx with hx | hx
      · exact (twins.mentions x hx).imp_right fun hx => List.mem_append.2 (.inl hx)
      · exact .inl (gate.mentions x hx)
    · exact .inr (List.mem_append.2 (.inr hx))
  · rw [List.map_append] at hmap
    obtain ⟨hmap₁, hmap₂⟩ := List.append_inj hmap (by rw [List.length_map, hws.length_eq hws'])
    obtain ⟨rfl, rfl, rfl⟩ := copies.eq_map
      (h'.earlier.globals_eq.trans h.earlier.globals_eq.symm) copies' hmap₂
    -- bound variables of the relation are changed to new ones, so to none that is renamed
    have apart : ∀ v ∈ (relation.and (gateFailsFormula p first)).mentions,
        ∀ u ∈ (globals ++ outputs.map Prod.fst) ++ (outputs.map Prod.snd ++ locals),
        ρ v = u.1 → v = u.1 := by
      intro v hv u hu heq
      have old : p.HasVar v → v = u.1 := fun hv => by rwa [hρ v hv] at heq
      rcases List.mem_append.1 hv with hv | hv
      · rcases twins.mentions v hv with hv | hv
        · exact old hv
        · have mem : ρ v ∈ ws' := hmap₁ ▸ List.mem_map.2 ⟨v, hv, rfl⟩
          exact absurd (heq ▸ known u hu) (hws'.fresh _ mem)
      · exact old (gate.mentions v hv)
    have gate_eq := (gateFailsFormula p first).mapVars_eq_self fun v hv => hρ v (gate.mentions v hv)
    rw [mapVars_reachabilityFormula (fun u hu => hρ u.1 (known u hu)) apart,
      twins.eq_mapVars ρ hρ hmap₁, Expr.and, Expr.and, Expr.mapVars, gate_eq]

end Twins

/-! ## Names at the start of a text -/

namespace NameScope

variable {p : Program}

theorem foldl_enter (ds : List Declaration) (s : NameScope) :
    (ds.foldl (enter p) s).names =
        ((ds.filterMap Declaration.named?).map fun v => (v, (p.var v).name)).reverse ++ s.names ∧
      (ds.foldl (enter p) s).taken.Perm
        ((ds.filterMap Declaration.named?).map (fun v => (p.var v).name) ++
          (ds.filterMap Declaration.function?).map FunctionSig.name ++ s.taken) := by
  induction ds generalizing s with
  | nil => exact ⟨rfl, List.Perm.refl _⟩
  | cons d ds ih =>
    obtain ⟨names, taken⟩ := ih (enter p s d)
    have moved (name : String) (as bs : List String) :
        (as ++ bs ++ (name :: s.taken)).Perm (name :: (as ++ bs ++ s.taken)) := List.perm_middle
    rw [List.foldl_cons, names]
    cases d with
    | global v => exact ⟨by simp [enter, bindName, Declaration.named?], taken.trans (moved _ _ _)⟩
    | constant v => exact ⟨by simp [enter, bindName, Declaration.named?], taken.trans (moved _ _ _)⟩
    | function sig =>
      refine ⟨rfl, taken.trans ((moved _ _ _).trans ?_)⟩
      exact (List.perm_middle.append_right s.taken).symm
    | typeName name => exact ⟨rfl, taken⟩
    | assumption e => exact ⟨rfl, taken⟩
    | procedure r => exact ⟨rfl, taken⟩
    | implementation i => exact ⟨rfl, taken⟩

theorem ofProgram_names (p : Program) :
    (ofProgram p).names = (p.namedRefs.map fun v => (v, (p.var v).name)).reverse := by
  rw [ofProgram, (foldl_enter p.declarations {}).1, List.append_nil, namedRefs]

theorem ofProgram_taken (p : Program) : (ofProgram p).taken.Perm
    (p.namedRefs.map (fun v => (p.var v).name) ++ p.functionNames) := by
  have := (foldl_enter (p := p) p.declarations {}).2
  rwa [List.append_nil] at this

end NameScope

/-! ## Siblings -/

/-- Both programs continue `p`, and declare the same names. -/
structure Siblings (p q q' : Program) : Prop where
  closed : p.Closed
  left : p.Extends q
  right : p.Extends q'
  left_named : q.namedRefs = p.namedRefs
  right_named : q'.namedRefs = p.namedRefs
  functionNames : q.functionNames.Perm q'.functionNames

theorem Program.Closed.hasVar_of_mem_namedRefs {p : Program} (h : p.Closed) {v : VarRef}
    (hv : v ∈ p.namedRefs) : p.HasVar v := by
  obtain ⟨d, hd, hdv⟩ := List.mem_filterMap.1 hv
  have := h.declarations d hd
  cases d <;> simp_all [Declaration.named?, Declaration.ValidIn]

namespace Siblings

variable {p q q' : Program} (h : Siblings p q q')

include h

/-- Variables of `p` and new ones that look the same are shown the same. -/
theorem relabels {vars : List Variable} {ws ws' : List VarRef} (hws : FreshVars p vars ws q)
    (hws' : FreshVars p vars ws' q') :
    Relabels (Substitution.renamed (ws.zip ws')) (fun v => p.HasVar v ∨ v ∈ ws) q q' := by
  have var_eq (v : VarRef) (hv : p.HasVar v ∨ v ∈ ws) :
      q'.var (Substitution.renamed (ws.zip ws') v) = q.var v := by
    rcases hv with hv | hv
    · rw [hws.renamed_of_hasVar hws' hv, h.left.var_eq v hv, h.right.var_eq v hv]
    · exact hws.var_eq hws' hv
  have named (v : VarRef) (hv : v ∈ p.namedRefs) : p.HasVar v := h.closed.hasVar_of_mem_namedRefs hv
  refine ⟨hws.injective hws', fun v hv => by rw [var_eq v hv], fun v hv => by rw [var_eq v hv], ?_⟩
  refine ⟨?_, ?_, ?_⟩
  · refine (NameScope.ofProgram_taken q).trans (.trans ?_ (NameScope.ofProgram_taken q').symm)
    rw [h.left_named, h.right_named]
    have same : p.namedRefs.map (fun v => (q'.var v).name) =
        p.namedRefs.map fun v => (q.var v).name := by
      refine List.map_congr_left fun v hv => ?_
      rw [h.left.var_eq v (named v hv), h.right.var_eq v (named v hv)]
    rw [same]
    exact h.functionNames.append_left _
  · rw [NameScope.ofProgram_names, NameScope.ofProgram_names, h.left_named, h.right_named,
      List.map_reverse, List.map_map]
    congr 1
    refine List.map_congr_left fun v hv => ?_
    rw [Function.comp, hws.renamed_of_hasVar hws' (named v hv), h.left.var_eq v (named v hv),
      h.right.var_eq v (named v hv)]
  · rw [NameScope.ofProgram_names, h.left_named]
    intro x hx
    rw [List.mem_reverse] at hx
    obtain ⟨v, hv, rfl⟩ := List.mem_map.1 hx
    exact .inl (named v hv)

/-- Variables of `p` are shown the same. -/
theorem relabels_id : Relabels id p.HasVar q q' := by
  have k := h.relabels (.nil p q) (.nil p q')
  simp only [List.not_mem_nil, or_false] at k
  exact k

end Siblings

/-! ### Contracts -/

/-- The contracts `r` of `q` and `r'` of `q'` are about the same variables of `p`, and their
conditions are the same formulas up to the new variables `ws` and `ws'`. -/
structure Procedure.Twins (p q q' : Program) (ws ws' : List VarRef) (r r' : Procedure) : Prop where
  name_eq : r'.name = r.name
  typeParams_eq : r'.typeParams = r.typeParams
  inputs_eq : r'.inputs = r.inputs
  outputs_eq : r'.outputs = r.outputs
  hasVar : ∀ v ∈ r.inputs ++ r.outputs, p.HasVar v
  requires : List.Forall₂ (fun e e' => AtomicMovers.Twins p ws ws' (q.expr e) (q'.expr e'))
    r.requires r'.requires
  ensures : ∃ es es', r.ensures = es.map .ofFormula ∧ r'.ensures = es'.map .ofFormula ∧
    List.Forall₂ (fun e e' => AtomicMovers.Twins p ws ws' (q.expr e) (q'.expr e')) es es'

theorem Procedure.Twins.resembles {p q q' : Program} {ws ws' : List VarRef} {r r' : Procedure}
    (h : r.Twins p q q' ws ws' r') {ρ : VarRef → VarRef} (hρ : ∀ v, p.HasVar v → ρ v = v)
    (hmap : ws.map ρ = ws') : r.Resembles ρ (fun v => p.HasVar v ∨ v ∈ ws) q q' r' := by
  have same {vs : List VarRef} (hvs : ∀ v ∈ vs, p.HasVar v) : vs = vs.map ρ :=
    ((List.map_congr_left fun v hv => hρ v (hvs v hv)).trans (List.map_id vs)).symm
  have mentions {es es' : List ExprRef}
      (k : List.Forall₂ (fun e e' => AtomicMovers.Twins p ws ws' (q.expr e) (q'.expr e')) es es') :
      ∀ e ∈ es, ∀ x ∈ (q.expr e).mentions, p.HasVar x ∨ x ∈ ws := by
    intro e he
    obtain ⟨e', _, twins⟩ := exists_right_of_forall₂ k he
    exact twins.mentions
  obtain ⟨es, es', ensures, ensures', twins⟩ := h.ensures
  have hasVar := List.forall_mem_append.1 h.hasVar
  refine ⟨h.name_eq, h.typeParams_eq, ?_, ?_, ?_, ?_, ?_⟩
  · rw [h.inputs_eq]
    exact same hasVar.1
  · rw [h.outputs_eq]
    exact same hasVar.2
  · exact h.requires.imp fun e e' twins => twins.eq_mapVars ρ hρ hmap
  · rw [ensures, ensures', List.forall₂_map_left_iff, List.forall₂_map_right_iff]
    exact twins.imp fun e e' twins => ⟨rfl, e, e', rfl, rfl, twins.eq_mapVars ρ hρ hmap⟩
  · intro v hv
    rw [Program.procedureMentions, ensures, List.flatMap_map] at hv
    simp only [List.mem_append, List.mem_flatMap] at hv
    rcases hv with ((hv | hv) | ⟨e, he, hv⟩) | ⟨e, he, hv⟩
    · exact .inl (hasVar.1 v hv)
    · exact .inl (hasVar.2 v hv)
    · exact mentions h.requires e he v hv
    · exact mentions twins e he v hv

/-- Twins have the same text. -/
theorem Siblings.renderProcedure_eq {p q q' : Program} (h : Siblings p q q') {vars : List Variable}
    {ws ws' : List VarRef} (hws : FreshVars p vars ws q) (hws' : FreshVars p vars ws' q')
    {r r' : Procedure} (k : r.Twins p q q' ws ws' r') : q'.renderProcedure r' = q.renderProcedure r :=
  AtomicMovers.renderProcedure_eq (h.relabels hws hws')
    (k.resembles (fun _ hv => hws.renamed_of_hasVar hws' hv) (hws.map_renamed hws'))

section Conditions

variable {p q q' : Program}

/-- Conditions with the same trees, which are formulas of `p`. -/
theorem twins_of_map_eq {es es' : List ExprRef} (trees : List Expr)
    (hes : es.map q.expr = trees) (hes' : es'.map q'.expr = trees)
    (below : ∀ e ∈ trees, e.VarsBelow p.vars.size) (ws ws' : List VarRef) :
    List.Forall₂ (fun e e' => Twins p ws ws' (q.expr e) (q'.expr e')) es es' := by
  have same : List.Forall₂ (fun x y => x = y ∧ x ∈ trees) (es.map q.expr) (es'.map q'.expr) := by
    rw [hes, hes']
    exact List.forall₂_same.2 fun x hx => ⟨rfl, hx⟩
  rw [List.forall₂_map_left_iff, List.forall₂_map_right_iff] at same
  exact same.imp fun e e' ⟨heq, hmem⟩ => heq ▸ twins_of_varsBelow (below _ hmem) ws ws'

theorem Siblings.twins_of_hasExpr (h : Siblings p q q') {es : List ExprRef}
    (hes : ∀ e ∈ es, p.HasExpr e) (ws ws' : List VarRef) :
    List.Forall₂ (fun e e' => Twins p ws ws' (q.expr e) (q'.expr e')) es es := by
  refine twins_of_map_eq (es.map p.expr) ?_ ?_ ?_ ws ws'
  · exact List.map_congr_left fun e he => h.left.expr_eq h.closed (hes e he)
  · exact List.map_congr_left fun e he => h.right.expr_eq h.closed (hes e he)
  · exact List.forall_mem_map.2 fun e _ => h.closed.varsBelow_expr e

theorem varsBelow_disjointnessClauses (hp : p.Closed) {first second : AtomicAction}
    (hf : first.ValidIn p) (hs : second.ValidIn p) {o : Ownership} :
    ∀ e ∈ disjointnessClauses p o first second, e.VarsBelow p.vars.size := by
  intro e he
  obtain ⟨s, hs', rfl⟩ := List.mem_map.1 he
  obtain ⟨d, _, rfl⟩ := List.mem_map.1 (List.mem_filter.1 hs').1
  exact varsBelow_call_var fun v hv => hasVar_of_mem_domainScope hp hf hs hv

end Conditions

/-! ### Block graphs -/

/-- The block `b` of `q` and the block `c` of `q'` are the same up to the `pairs` of blocks that
correspond, and mention variables of `p` only. -/
structure Block.Twins (p q q' : Program) (pairs : List (BlockRef × BlockRef)) (b c : BlockRef) :
    Prop where
  label : (q'.block c).label = (q.block b).label
  commands : q'.commands c = q.commands b
  transfer : Transfer.Paired pairs (q.block b).transfer (q'.block c).transfer
  mentions : ∀ v ∈ q.blockMentions b, p.HasVar v

section Graphs

variable {p q q' : Program}

theorem hasVar_of_mem_commands (hp : p.Closed) {b : BlockRef} (hb : p.HasBlock b)
    {c : Command Expr} (hc : c ∈ p.commands b) : ∀ v ∈ c.mentions, p.HasVar v := by
  obtain ⟨d, hd, rfl⟩ := List.mem_map.1 hc
  have valid := (hp.block hb).commands d hd
  have below (e : ExprRef) : ∀ v ∈ (p.expr e).mentions, p.HasVar v := (hp.varsBelow_expr e).mentions
  cases d with
  | assert e => exact below e
  | assume e => exact below e
  | assign updates =>
    intro v hv
    simp only [Command.map, Command.mentions, List.map_map, List.flatMap_map, List.mem_append,
      List.mem_flatMap] at hv
    rcases hv with hv | ⟨u, _, hv⟩
    · exact valid.targets v hv
    · exact below u.2 v hv

theorem lookup_map_snd {β γ : Type} (f : β → γ) (l : List (BlockRef × β)) (b : BlockRef) :
    (l.map (Prod.map id f)).lookup b = (l.lookup b).map f := by
  induction l with
  | nil => rfl
  | cons x xs ih =>
    rw [List.map_cons, List.lookup_cons, List.lookup_cons]
    show (match b == x.1 with | true => some (f x.2) | false => _) = _
    rw [ih]
    cases b == x.1 <;> rfl

variable {bs cs cs' : List BlockRef}

/-- Lists that correspond to the same list correspond to each other. -/
theorem forall₂_join {α β γ : Type} {R : α → β → Prop} {S : α → γ → Prop} {as : List α}
    {bs : List β} {cs : List γ} (h : List.Forall₂ R as bs) (k : List.Forall₂ S as cs) :
    List.Forall₂ (fun b c => ∃ a, R a b ∧ S a c) bs cs := by
  induction h generalizing cs with
  | nil =>
    cases k
    exact .nil
  | cons hab _ ih =>
    cases k with
    | cons hac k => exact .cons ⟨_, hab, hac⟩ (ih k)

/-- The copies of one block stand at the same place. -/
theorem mem_zip_of_lookup (lengths : cs.length = cs'.length) {b c c' : BlockRef}
    (h : (bs.zip cs).reverse.lookup b = some c) (h' : (bs.zip cs').reverse.lookup b = some c') :
    (c, c') ∈ cs.zip cs' := by
  have hcs : bs.zip cs = (bs.zip (cs.zip cs')).map (Prod.map id Prod.fst) := by
    rw [← List.zip_map_right, List.map_fst_zip (Nat.le_of_eq lengths)]
  have hcs' : bs.zip cs' = (bs.zip (cs.zip cs')).map (Prod.map id Prod.snd) := by
    rw [← List.zip_map_right, List.map_snd_zip (Nat.le_of_eq lengths.symm)]
  rw [hcs, ← List.map_reverse, lookup_map_snd, Option.map_eq_some_iff] at h
  obtain ⟨x, hx, rfl⟩ := h
  rw [hcs', ← List.map_reverse, lookup_map_snd, hx] at h'
  cases h'
  obtain ⟨l₁, l₂, heq, _⟩ := List.lookup_eq_some_iff.1 hx
  have mem : (b, x) ∈ bs.zip (cs.zip cs') := by
    rw [← List.mem_reverse, heq]
    simp
  exact (List.of_mem_zip mem).2

/-- The ends of two copies of one block. -/
theorem Transfer.Copied.paired (lengths : cs.length = cs'.length) {E E' : Transfer → Prop}
    {t t₁ t₂ : Transfer} (h : Transfer.Copied E (bs.zip cs) t t₁)
    (h' : Transfer.Copied E' (bs.zip cs') t t₂) {pairs : List (BlockRef × BlockRef)}
    (sub : ∀ u ∈ cs.zip cs', u ∈ pairs) (hE : ∀ x y, E x → E' y → Transfer.Paired pairs x y) :
    Transfer.Paired pairs t₁ t₂ := by
  cases h with
  | returnValue ht₁ =>
    cases h' with
    | returnValue ht₂ => exact hE _ _ ht₁ ht₂
  | leave =>
    cases h' with
    | leave => exact .leave
  | goto hts =>
    cases h' with
    | goto hts' =>
      exact .goto ((forall₂_join hts hts').imp fun c c' ⟨b, hc, hc'⟩ =>
        sub _ (mem_zip_of_lookup lengths hc hc'))

/-- Blocks that stand at the same place of two copies of a graph are copies of one block. -/
theorem exists_mem_zip_zip (lengths : cs.length = bs.length) (lengths' : cs'.length = bs.length)
    {u : BlockRef × BlockRef} (hu : u ∈ cs.zip cs') :
    ∃ b, (b, u.1) ∈ bs.zip cs ∧ (b, u.2) ∈ bs.zip cs' := by
  obtain ⟨i, hi, rfl⟩ := List.mem_iff_getElem.1 hu
  rw [List.length_zip, lengths, lengths', Nat.min_self] at hi
  refine ⟨bs[i], ?_, ?_⟩
  · rw [List.mem_iff_getElem]
    exact ⟨i, by simp [lengths, hi], by simp⟩
  · rw [List.mem_iff_getElem]
    exact ⟨i, by simp [lengths', hi], by simp⟩

/-- Two copies of a graph, side by side. -/
theorem RunCopied.twins (hp : p.Closed) (hbs : ∀ b ∈ bs, p.HasBlock b)
    {exit exit' : Option BlockRef} (h : RunCopied exit p bs cs q) (h' : RunCopied exit' p bs cs' q')
    {pairs : List (BlockRef × BlockRef)} (sub : ∀ u ∈ cs.zip cs', u ∈ pairs)
    (hexit : Transfer.Paired pairs (exitTransfer exit) (exitTransfer exit')) :
    ∀ u ∈ cs.zip cs', Block.Twins p q q' pairs u.1 u.2 := by
  intro u hu
  obtain ⟨b, left, right⟩ := exists_mem_zip_zip h.length_eq h'.length_eq hu
  have hb := hbs b (List.of_mem_zip left).1
  have commands : q.commands u.1 = p.commands b := by rw [h.commands _ left, List.map_id]
  have paired : Transfer.Paired pairs (q.block u.1).transfer (q'.block u.2).transfer :=
    Transfer.Copied.paired (h.length_eq.trans h'.length_eq.symm) (h.transfer (b, u.1) left)
      (h'.transfer (b, u.2) right) sub (by rintro _ _ rfl rfl; exact hexit)
  refine ⟨by rw [h.label _ left, h'.label _ right], ?_, paired, fun v hv => ?_⟩
  · rw [commands, h'.commands _ right, List.map_id]
  · have ends : q.transferMentions (q.block u.1).transfer = [] := by
      generalize (q.block u.1).transfer = t at paired
      generalize (q'.block u.2).transfer = t' at paired
      cases paired <;> rfl
    rw [Program.blockMentions, ends, List.append_nil, commands] at hv
    obtain ⟨c, hc, hv⟩ := List.mem_flatMap.1 hv
    exact hasVar_of_mem_commands hp hb hc v hv

end Graphs

/-- Implementations of twins, whose blocks are twins, have the same text. -/
theorem Siblings.renderImplementation_eq {p q q' : Program} (h : Siblings p q q')
    {ws ws' : List VarRef} {x x' : Procedure} (k : x.Twins p q q' ws ws' x') {r r' : ProcRef}
    {locals : List VarRef} (hlocals : ∀ v ∈ locals, p.HasVar v) {cs cs' : List BlockRef}
    (lengths : cs.length = cs'.length) (nodup : cs.Nodup) (nodup' : cs'.Nodup)
    (twins : ∀ u ∈ cs.zip cs', Block.Twins p q q' (cs.zip cs') u.1 u.2) :
    q'.renderImplementation (x'.implementedBy r' locals cs') =
      q.renderImplementation (x.implementedBy r locals cs) := by
  refine AtomicMovers.renderImplementation_eq
    ⟨k.name_eq, k.inputs_eq, k.outputs_eq, rfl, lengths, nodup, nodup', fun u hu => (twins u hu).label,
      fun u hu => (twins u hu).commands, fun u hu => (twins u hu).transfer, fun v hv => ?_⟩
    h.relabels_id
  rw [Program.implementationMentions, List.mem_append, List.mem_append] at hv
  rcases hv with (hv | hv) | hv
  · exact k.hasVar v hv
  · exact hlocals v hv
  · obtain ⟨c, hc, hv⟩ := List.mem_flatMap.1 hv
    have fst : (cs.zip cs').map Prod.fst = cs := List.map_fst_zip (Nat.le_of_eq lengths)
    have hc' : c ∈ (cs.zip cs').map Prod.fst := by rwa [fst]
    obtain ⟨u, hu, rfl⟩ := List.mem_map.1 hc'
    exact (twins u hu).mentions v hv

/-! ## The three kinds -/

section Kinds

variable {p q q' : Program} (h : Siblings p q q') {o : Ownership} {first second : AtomicAction}
  (hf : first.ValidIn p) (hs : second.ValidIn p) {r r' : ProcRef}

/-- The procedures `r` of `q` and `r'` of `q'` have the same text, and so have their
implementations. -/
structure SameTexts (q : Program) (r : ProcRef) (q' : Program) (r' : ProcRef) : Prop where
  procedure_eq : q'.renderProcedure (q'.procedure r') = q.renderProcedure (q.procedure r)
  implementation_eq : ∃ i i', q.Implements i r ∧ q'.Implements i' r' ∧
    q'.renderImplementation i' = q.renderImplementation i

include h hf hs

theorem sameTexts_commutativity {firstBlocks secondBlocks firstBlocks' secondBlocks' : List BlockRef}
    {requires requires' : List ExprRef} {e e' : ExprRef}
    (k : CommutativityParts p o first second firstBlocks secondBlocks requires e r q)
    (k' : CommutativityParts p o first second firstBlocks' secondBlocks' requires' e' r' q') :
    SameTexts q r q' r' := by
  have hf' : ∀ a ∈ some first, a.primary.ValidIn p := by
    rintro a ⟨⟩
    exact hf.primary
  obtain ⟨locals, frame⟩ := hasVar_of_mem_transition h.closed (some first) hf' hs.shadow
  obtain ⟨ws, ws', hws, hws', twins⟩ := (k.related.transitionOf h.closed hf' hs.shadow).twins h.closed
    locals frame (k'.related.transitionOf h.closed hf' hs.shadow)
  have contract : (commutativityProcedure first second requires e).Twins p q q' ws ws'
      (commutativityProcedure first second requires' e') :=
    { name_eq := rfl
      typeParams_eq := rfl
      inputs_eq := rfl
      outputs_eq := rfl
      hasVar := List.forall_mem_append.2 ⟨hasVar_of_mem_copies hf hs Replica.inputs_subset,
        hasVar_of_mem_copies hf hs Replica.outputs_subset⟩
      requires := twins_of_map_eq _ k.requires_eq k'.requires_eq
        (varsBelow_disjointnessClauses h.closed hf hs) ws ws'
      ensures := ⟨[e], [e'], rfl, rfl, .cons twins .nil⟩ }
  have firstLengths := k.firstCopied.length_eq.trans k'.firstCopied.length_eq.symm
  have secondLengths := k.secondCopied.length_eq.trans k'.secondCopied.length_eq.symm
  have zip : (firstBlocks ++ secondBlocks).zip (firstBlocks' ++ secondBlocks') =
      firstBlocks.zip firstBlocks' ++ secondBlocks.zip secondBlocks' :=
    List.zip_append firstLengths
  -- the first action goes on at the entry of the second, in both copies
  have entry : (secondBlocks.headD default, secondBlocks'.headD default) ∈
      (firstBlocks ++ secondBlocks).zip (firstBlocks' ++ secondBlocks') := by
    rw [zip, List.mem_append]
    right
    have left := k.secondCopied.entry_mem hs.shadow.nonempty
    cases secondBlocks with
    | nil => cases (List.of_mem_zip left).2
    | cons b bs =>
      cases secondBlocks' with
      | nil => cases secondLengths
      | cons c cs => simp
  refine ⟨?_, _, _, k.implements, k'.implements, h.renderImplementation_eq contract
    (hasVar_of_mem_copies hf hs Replica.locals_subset) ?_ ?_ ?_ ?_⟩
  · rw [k.procedure_eq, k'.procedure_eq]
    exact h.renderProcedure_eq hws hws' contract
  · rw [List.length_append, List.length_append, firstLengths, secondLengths]
  · exact List.nodup_append.2 ⟨k.firstCopied.nodup, k.secondCopied.nodup,
      fun b hb c hc heq => k.apart b hb (heq ▸ hc)⟩
  · exact List.nodup_append.2 ⟨k'.firstCopied.nodup, k'.secondCopied.nodup,
      fun b hb c hc heq => k'.apart b hb (heq ▸ hc)⟩
  · nth_rewrite 1 [zip]
    refine List.forall_mem_append.2 ⟨?_, ?_⟩
    · exact k.firstCopied.twins h.closed hf.primary.blocks k'.firstCopied
        (fun u hu => by rw [zip]; exact List.mem_append_left _ hu) (.goto (.cons entry .nil))
    · exact k.secondCopied.twins h.closed hs.shadow.blocks k'.secondCopied
        (fun u hu => by rw [zip]; exact List.mem_append_right _ hu) .leave

theorem sameTexts_gatePreservation {blocks blocks' : List BlockRef}
    {requires requires' : List ExprRef}
    (k : GatePreservationParts p o first second blocks requires r q)
    (k' : GatePreservationParts p o first second blocks' requires' r' q') :
    SameTexts q r q' r' := by
  have gate := h.twins_of_hasExpr hf.primary.gate [] []
  have contract : (gatePreservationProcedure first second requires).Twins p q q' [] []
      (gatePreservationProcedure first second requires') :=
    { name_eq := rfl
      typeParams_eq := rfl
      inputs_eq := rfl
      outputs_eq := rfl
      hasVar := List.forall_mem_append.2 ⟨hasVar_of_mem_copies hf hs Replica.inputs_subset,
        hasVar_of_mem_copies hf hs Replica.outputs_subset⟩
      requires := List.rel_append (twins_of_map_eq _ k.requires_eq k'.requires_eq
        (varsBelow_disjointnessClauses h.closed hf hs) [] []) gate
      ensures := ⟨first.primary.gate, first.primary.gate, rfl, rfl, gate⟩ }
  refine ⟨?_, _, _, k.implements, k'.implements, h.renderImplementation_eq contract
    (fun v hv => hs.shadow.vars v (Replica.locals_subset _ v hv))
    (k.copied.length_eq.trans k'.copied.length_eq.symm) k.copied.nodup k'.copied.nodup
    (k.copied.twins h.closed hs.shadow.blocks k'.copied (fun _ hu => hu) .leave)⟩
  rw [k.procedure_eq, k'.procedure_eq]
  exact h.renderProcedure_eq (.nil p q) (.nil p q') contract

theorem sameTexts_failurePreservation {requires requires' : List ExprRef}
    {gateFails gateFails' e e' : ExprRef} {body body' : BlockRef}
    (k : FailurePreservationParts p o first second requires gateFails e body r q)
    (k' : FailurePreservationParts p o first second requires' gateFails' e' body' r' q') :
    SameTexts q r q' r' := by
  obtain ⟨made, reachability⟩ := k.reachability
  obtain ⟨made', reachability'⟩ := k'.reachability
  obtain ⟨ws, ws', hws, hws', twins⟩ := reachability.twins h.closed hs reachability'
  have gate : Twins p ws ws' (q.expr gateFails) (q'.expr gateFails') := by
    rw [k.gateFails_eq, k'.gateFails_eq]
    exact twins_of_varsBelow (varsBelow_gateFailsFormula h.closed first) ws ws'
  have contract : (failurePreservationProcedure first second requires gateFails e).Twins p q q' ws ws'
      (failurePreservationProcedure first second requires' gateFails' e') :=
    { name_eq := rfl
      typeParams_eq := rfl
      inputs_eq := rfl
      outputs_eq := rfl
      hasVar := List.forall_mem_append.2 ⟨hasVar_of_mem_copies hf hs Replica.inputs_subset,
        by simp [failurePreservationProcedure]⟩
      requires := List.rel_append (twins_of_map_eq _ k.requires_eq k'.requires_eq
        (varsBelow_disjointnessClauses h.closed hf hs) ws ws')
        (.cons gate (h.twins_of_hasExpr hs.shadow.gate ws ws'))
      ensures := ⟨[e], [e'], rfl, rfl, .cons twins .nil⟩ }
  refine ⟨?_, _, _, k.implements, k'.implements, h.renderImplementation_eq contract
    (by simp) rfl (List.nodup_singleton _) (List.nodup_singleton _) ?_⟩
  · rw [k.procedure_eq, k'.procedure_eq]
    exact h.renderProcedure_eq hws hws' contract
  · -- the body of either is a block without commands that leaves
    intro u hu
    obtain rfl : u = (body, body') := by simpa using hu
    refine ⟨by rw [k.body_eq, k'.body_eq], ?_, ?_, ?_⟩
    · rw [Program.commands, Program.commands, k.body_eq, k'.body_eq]
      rfl
    · rw [k.body_eq, k'.body_eq]
      exact .leave
    · rw [Program.blockMentions, Program.commands, k.body_eq]
      simp [Program.transferMentions]

/-- An obligation about the same actions has the same texts in both programs. -/
theorem Siblings.texts_eq {kind : ObligationKind} (k : ObligationParts p o first second kind r q)
    (k' : ObligationParts p o first second kind r' q') : SameTexts q r q' r' := by
  cases k with
  | commutativity k =>
    cases k' with
    | commutativity k' => exact sameTexts_commutativity h hf hs k k'
  | gatePreservation k =>
    cases k' with
    | gatePreservation k' => exact sameTexts_gatePreservation h hf hs k k'
  | failurePreservation k =>
    cases k' with
    | failurePreservation k' => exact sameTexts_failurePreservation h hf hs k k'

end Kinds

end AtomicMovers
