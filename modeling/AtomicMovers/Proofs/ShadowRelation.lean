import AtomicMovers.Proofs.Lockstep
import AtomicMovers.Proofs.RenamedRelations

/-!
# The relation of a shadow copy

The transition relation of an action is computed over its shadow copy. Computed over the primary copy
it would be the same relation: the two computations fail at a block and its copy, and if they succeed
then the relation of the shadow copy becomes that of the primary copy when the shadow variables are
replaced by the primary ones, up to the choice of the variables that are bound for the locals
(`shadow_relation_maps_back`).

The searches for completing paths go in lockstep (`Replica.Compared.retraced`), so the relations
differ by the change of variables (`mapVars_relationFormula`). What is left is to see that the way
from primary to shadow variables, to variables that are bound and back does to a variable what binding
it at once would have done (`Substitution.renamed_there_and_back`).
-/

namespace AtomicMovers

open Program

/-! ## There and back -/

namespace Substitution

/-- Renaming variables to new ones loses nothing about the variables that were known before. -/
theorem renamed_injective {known : VarRef → Prop} {vs ws : List VarRef} (nodup : vs.Nodup)
    (nodup' : ws.Nodup) (length_eq : vs.length = ws.length) (new : ∀ w ∈ ws, ¬known w)
    (v w : VarRef) (hv : known v) (hw : known w)
    (heq : renamed (vs.zip ws) v = renamed (vs.zip ws) w) : v = w := by
  by_cases hv' : v ∈ vs
  · by_cases hw' : w ∈ vs
    · exact List.inj_on_of_nodup_map (by rwa [map_renamed_zip nodup length_eq]) hv' hw' heq
    · rw [renamed_zip_of_not_mem length_eq hw'] at heq
      exact absurd hw (new w (heq ▸ renamed_zip_mem nodup length_eq hv'))
  · by_cases hw' : w ∈ vs
    · rw [renamed_zip_of_not_mem length_eq hv'] at heq
      exact absurd hv (new v (heq ▸ renamed_zip_mem nodup length_eq hw'))
    · rwa [renamed_zip_of_not_mem length_eq hv', renamed_zip_of_not_mem length_eq hw'] at heq

/-- Different variables that are renamed to different ones can be renamed back. -/
theorem renamed_zip_back {vs ws : List VarRef} (nodup : vs.Nodup) (nodup' : ws.Nodup)
    (length_eq : vs.length = ws.length) {v : VarRef} (hv : v ∈ vs) :
    renamed (ws.zip vs) (renamed (vs.zip ws) v) = v := by
  have both : (vs.map (renamed (vs.zip ws))).map (renamed (ws.zip vs)) = vs.map id := by
    rw [map_renamed_zip nodup length_eq, map_renamed_zip nodup' length_eq.symm, List.map_id]
  rw [List.map_map, List.map_inj_left] at both
  exact both v hv

/-- Variables `as ++ ls` are renamed to new ones `as' ++ ls'`, of which `ls'` are renamed to `bound`,
and then the renaming is undone: this renames `ls` to `bound`. -/
theorem renamed_there_and_back {known : VarRef → Prop} {as as' ls ls' bound : List VarRef}
    (nodup : (as ++ ls).Nodup) (nodup' : (as' ++ ls').Nodup) (has : as.length = as'.length)
    (hls : ls.length = ls'.length) (hbound : ls.length = bound.length)
    (new : ∀ v ∈ as' ++ ls', ¬known v) (apart : ∀ v ∈ bound, v ∉ as' ++ ls') {v : VarRef}
    (hv : known v) :
    renamed ((as' ++ ls').zip (as ++ ls)) (renamed (ls'.zip bound)
        (renamed ((as ++ ls).zip (as' ++ ls')) v)) = renamed (ls.zip bound) v := by
  have length_eq : (as ++ ls).length = (as' ++ ls').length := by simp [has, hls]
  have hbound' : ls'.length = bound.length := hls.symm.trans hbound
  have there := map_renamed_zip nodup length_eq
  rw [List.map_append] at there
  obtain ⟨thereAs, thereLs⟩ := List.append_inj there (by simpa using has)
  obtain ⟨-, nodupLs, disjoint⟩ := List.nodup_append.1 nodup
  obtain ⟨-, nodupLs', disjoint'⟩ := List.nodup_append.1 nodup'
  by_cases hmem : v ∈ as ++ ls
  · rcases List.mem_append.1 hmem with has | hls
    · -- what is not bound comes back
      have shadow := List.mem_map_of_mem (f := renamed ((as ++ ls).zip (as' ++ ls'))) has
      rw [thereAs] at shadow
      rw [renamed_zip_of_not_mem hbound' fun h => disjoint' _ shadow _ h rfl,
        renamed_zip_of_not_mem hbound fun h => disjoint v has v h rfl]
      exact renamed_zip_back nodup nodup' length_eq hmem
    · have stays : bound.map (renamed ((as' ++ ls').zip (as ++ ls))) = bound :=
        (List.map_congr_left fun x hx =>
          renamed_zip_of_not_mem length_eq.symm (apart x hx)).trans (List.map_id bound)
      have all : ((ls.map (renamed ((as ++ ls).zip (as' ++ ls')))).map
          (renamed (ls'.zip bound))).map (renamed ((as' ++ ls').zip (as ++ ls))) =
          ls.map (renamed (ls.zip bound)) := by
        rw [thereLs, map_renamed_zip nodupLs' hbound', stays, map_renamed_zip nodupLs hbound]
      rw [List.map_map, List.map_map, List.map_inj_left] at all
      exact all v hls
  · have hshadow : v ∉ as' ++ ls' := fun h => new v h hv
    rw [renamed_zip_of_not_mem length_eq hmem,
      renamed_zip_of_not_mem hbound' fun h => hshadow (List.mem_append.2 (.inr h)),
      renamed_zip_of_not_mem length_eq.symm hshadow,
      renamed_zip_of_not_mem hbound fun h => hmem (List.mem_append.2 (.inr h))]

end Substitution

namespace Expr

variable {vs ws : List VarRef}

/-- A renaming of variables that are not bound leaves bound variables alone. -/
theorem mem_binders_of_renamed {e : Expr} (length_eq : vs.length = ws.length)
    (unbound : ∀ x ∈ e.binders, x ∉ vs) {x : VarRef}
    (hx : x ∈ (e.mapVars (Substitution.renamed (vs.zip ws))).binders) : x ∈ e.binders := by
  obtain ⟨y, hy, rfl⟩ := e.mem_binders_mapVars hx
  rwa [Substitution.renamed_zip_of_not_mem length_eq (unbound y hy)]

theorem subst_zip_eq_mapVars {e : Expr} (length_eq : vs.length = ws.length)
    (unbound : ∀ x ∈ e.binders, x ∉ vs) :
    e.subst (.uniform (Substitution.renaming (vs.zip ws))) =
      e.mapVars (Substitution.renamed (vs.zip ws)) := by
  refine e.subst_renaming_eq_mapVars _ ?_
  rwa [List.map_fst_zip (Nat.le_of_eq length_eq)]

/-- A formula whose variables are renamed, and then bound, is brought back: it is the formula whose
variables are bound at once. -/
theorem existsAll_there_and_back {n : Nat} {as as' ls ls' bound : List VarRef} {e : Expr}
    (nodup : (as ++ ls).Nodup) (nodup' : (as' ++ ls').Nodup) (has : as.length = as'.length)
    (hls : ls.length = ls'.length) (hbound : ls.length = bound.length)
    (new : ∀ v ∈ as' ++ ls', ¬v.index < n) (apart : ∀ v ∈ bound, v ∉ as' ++ ls')
    (below : e.VarsBelow n) (unbound : ∀ x ∈ e.binders, x ∉ as ++ ls) :
    (existsAll bound ((e.mapVars (Substitution.renamed ((as ++ ls).zip (as' ++ ls')))).subst
        (.uniform (Substitution.renaming (ls'.zip bound))))).subst
          (.uniform (Substitution.renaming ((as' ++ ls').zip (as ++ ls)))) =
      existsAll bound (e.subst (.uniform (Substitution.renaming (ls.zip bound)))) := by
  have length_eq : (as ++ ls).length = (as' ++ ls').length := by simp [has, hls]
  have hbound' : ls'.length = bound.length := hls.symm.trans hbound
  have old : ∀ x ∈ e.binders, x ∉ as' ++ ls' := fun x hx h => new x h (below x (.inr hx))
  -- nothing happens to bound variables, so all three substitutions are changes of variables
  have outside : ∀ x ∈ (e.mapVars (Substitution.renamed ((as ++ ls).zip (as' ++ ls')))).binders,
      x ∉ ls' := fun x hx h =>
    old x (mem_binders_of_renamed length_eq unbound hx) (List.mem_append.2 (.inr h))
  have naming := subst_zip_eq_mapVars hbound' outside
  have restoring := subst_zip_eq_mapVars length_eq.symm fun x hx =>
    old x (mem_binders_of_renamed length_eq unbound (mem_binders_of_renamed hbound' outside hx))
  have direct := subst_zip_eq_mapVars hbound fun x hx h =>
    unbound x hx (List.mem_append.2 (.inr h))
  rw [subst_existsAll, naming, restoring, direct, mapVars_mapVars, mapVars_mapVars]
  congr 1
  refine e.mapVars_congr fun v hv => ?_
  exact Substitution.renamed_there_and_back nodup nodup' has hls hbound new apart
    (below.mentions v hv)

end Expr

/-- The two formulas bind variables existentially and are the same but for the choice of these
variables. -/
structure Expr.SameUpTo (bound bound' : List VarRef) (e e' : Expr) : Prop where
  binds : ∃ body, e = existsAll bound body
  binds' : ∃ body, e' = existsAll bound' body
  nodup : bound.Nodup
  nodup' : bound'.Nodup
  length_eq : bound.length = bound'.length
  /-- The new choice does not clash with other variables. -/
  apart : ∀ v ∈ e.mentions, v ∉ bound → v ∉ bound'
  eq_mapVars : e' = e.mapVars (Substitution.renamed (bound.zip bound'))

/-- New variables can be chosen in different ways. -/
theorem sameUpTo_existsAll {n : Nat} {ls bound bound' : List VarRef} {e : Expr}
    (below : e.VarsBelow n) (old : ∀ v ∈ ls, v.index < n) (new : ∀ v ∈ bound, ¬v.index < n)
    (new' : ∀ v ∈ bound', ¬v.index < n) (nodup : bound.Nodup) (nodup' : bound'.Nodup)
    (length_eq : bound.length = bound'.length) :
    Expr.SameUpTo bound bound'
      (Expr.existsAll bound (e.subst (.uniform (Substitution.renaming (ls.zip bound)))))
      (Expr.existsAll bound' (e.subst (.uniform (Substitution.renaming (ls.zip bound'))))) := by
  have fixed : ∀ v : VarRef, v.index < n → Substitution.renamed (bound.zip bound') v = v :=
    fun v hv => Substitution.renamed_zip_of_not_mem length_eq fun h => new v h hv
  refine ⟨⟨_, rfl⟩, ⟨_, rfl⟩, nodup, nodup', length_eq, fun v hv hbound => ?_, ?_⟩
  · rcases Expr.mem_mentions_existsAll hv with h | h
    · exact absurd h hbound
    · rcases Expr.mentions_subst_renaming e h with h | h
      · exact fun h' => new' v h' (below.mentions v h)
      · obtain ⟨u, hu, rfl⟩ := List.mem_map.1 h
        rcases List.mem_append.1 hu with hu | hu <;> exact absurd (List.of_mem_zip hu).2 hbound
  · rw [Expr.mapVars_existsAll, Substitution.map_renamed_zip nodup length_eq, Expr.mapVars_rename
      (fun u hu => fixed u.1 (old u.1 (List.of_mem_zip hu).1))
      fun v hv => fixed v (below.mentions v hv), ← List.zip_map_right,
      Substitution.map_renamed_zip nodup length_eq]

/-! ## Two copies of one action -/

/-- The block that stands in the copy `d` where `b` stands in the copy `c`. -/
def Replica.counterpart (c d : Replica) (b : BlockRef) : BlockRef :=
  ((c.blocks.zip d.blocks).reverse.lookup b).getD b

theorem Replica.counterpart_of_mem {c d : Replica} (nodup : c.blocks.Nodup)
    (length_eq : d.blocks.length = c.blocks.length) {u : BlockRef × BlockRef}
    (hu : u ∈ c.blocks.zip d.blocks) : c.counterpart d u.1 = u.2 := by
  have keys : (c.blocks.zip d.blocks).map Prod.fst = c.blocks :=
    List.map_fst_zip (Nat.le_of_eq length_eq.symm)
  rw [counterpart]
  cases hlookup : (c.blocks.zip d.blocks).reverse.lookup u.1 with
  | none =>
    have absent := List.lookup_eq_none_iff.1 hlookup u (List.mem_reverse.2 hu)
    simp at absent
  | some x =>
    have pair := List.inj_on_of_nodup_map (by rwa [keys]) (mem_of_lookup_reverse hlookup) hu rfl
    rw [← pair]
    rfl

/-- The copies of blocks, as far as a search is concerned. -/
theorem Transfer.Copied.mapped {c d : Replica} {t t' : Transfer}
    (h : Transfer.Copied (fun t => ∃ e, t = .returnValue e) (c.blocks.zip d.blocks) t t') :
    Transfer.Mapped (c.counterpart d) t t' := by
  cases h with
  | returnValue h =>
    obtain ⟨e', rfl⟩ := h
    exact .returnValue _ e'
  | leave => exact .leave
  | @goto bs cs h =>
    have targets : cs.map id = bs.map (c.counterpart d) :=
      map_eq_map_of_forall₂ (h.imp fun b x hx => by rw [Replica.counterpart, hx]; rfl)
    rw [List.map_id] at targets
    rw [targets]
    exact .goto bs

theorem any_isAssert_commands (p : Program) (b : BlockRef) :
    (p.commands b).any Command.isAssert = (p.block b).commands.any Command.isAssert := by
  rw [Program.commands, List.any_map]
  congr 1
  funext c
  cases c <;> rfl

/-- The primary copy of an action in `q₂` and its shadow copy in `q₁` are still what they were when
the shadow copy was made. The variables of the action are different ones, no globals, and not bound in
its commands. -/
structure Replica.Compared (made : Program) (primary shadow : Replica) (q₁ q₂ : Program) : Prop where
  closed : made.Closed
  valid : primary.ValidIn made
  blocks_nodup : primary.blocks.Nodup
  vars_nodup : primary.vars.Nodup
  not_global : ∀ v ∈ primary.vars, v ∉ made.globals
  unbound : ∀ b ∈ primary.blocks, ∀ c ∈ made.commands b, ∀ v ∈ primary.vars, ¬c.Binds v
  closed₁ : q₁.Closed
  grows₁ : made.Grows (fun _ _ => True) q₁
  mirrors : primary.Mirrors made shadow q₁
  closed₂ : q₂.Closed
  grows₂ : made.Grows (fun _ _ => True) q₂
  kept : ∀ b ∈ primary.blocks, q₂.block b = made.block b

namespace Replica.Compared

variable {made q₁ q₂ : Program} {primary shadow : Replica} (h : primary.Compared made shadow q₁ q₂)

include h

theorem counterpart_eq {u : BlockRef × BlockRef} (hu : u ∈ primary.blocks.zip shadow.blocks) :
    primary.counterpart shadow u.1 = u.2 :=
  counterpart_of_mem h.blocks_nodup h.mirrors.graph.length_eq hu

theorem mem_zip_counterpart {b : BlockRef} (hb : b ∈ primary.blocks) :
    (b, primary.counterpart shadow b) ∈ primary.blocks.zip shadow.blocks := by
  obtain ⟨c, hc⟩ := h.mirrors.graph.exists_copy hb
  have eq : primary.counterpart shadow b = c := h.counterpart_eq hc
  rwa [eq]

/-- A search of the shadow copy goes where a search of the primary copy goes. -/
theorem retraced : q₂.Retraced StateCopy.shadow.mark (primary.counterpart shadow) primary.blocks
    q₁ := by
  have graph := h.mirrors.graph
  refine ⟨fun b hb c hc heq => ?_, fun b hb t ht => ?_, fun b hb => ?_, fun b hb => ?_,
    fun b hb => ?_⟩
  · have values : (primary.blocks.zip shadow.blocks).map Prod.snd = shadow.blocks :=
      List.map_snd_zip (Nat.le_of_eq graph.length_eq)
    have pair := List.inj_on_of_nodup_map (by rw [values]; exact graph.nodup)
      (h.mem_zip_counterpart hb) (h.mem_zip_counterpart hc) heq
    exact congrArg Prod.fst pair
  · rw [h.kept b hb] at ht
    exact graph.mem_of_mem_targets hb ht
  · rw [h.kept b hb]
    exact graph.label _ (h.mem_zip_counterpart hb)
  · rw [h.kept b hb, ← any_isAssert_commands, ← any_isAssert_commands,
      graph.commands _ (h.mem_zip_counterpart hb), List.any_map]
    congr 1
    funext c
    cases c <;> rfl
  · rw [h.kept b hb]
    exact (graph.transfer _ (h.mem_zip_counterpart hb)).mapped

theorem entry_eq : primary.counterpart shadow primary.entry = shadow.entry := by
  have graph := h.mirrors.graph
  refine h.counterpart_eq (u := (primary.entry, shadow.entry)) ?_
  rw [Replica.entry, Replica.entry]
  have nonempty := h.valid.nonempty
  have length_eq := graph.length_eq
  generalize primary.blocks = bs, shadow.blocks = cs at nonempty length_eq
  cases bs with
  | nil => exact absurd rfl nonempty
  | cons b bs =>
    cases cs with
    | nil => cases length_eq
    | cons c cs => exact List.mem_cons_self

/-- The completing paths of the two copies. -/
theorem searchedAlike :
    SearchedAlike StateCopy.shadow.mark (primary.counterpart shadow)
      (q₂.completingPaths primary.entry none) (q₁.completingPaths shadow.entry none) := by
  have size : ∀ {q : Program}, made.Within q → primary.blocks.length ≤ q.blocks.size := by
    intro q within
    have indices : (primary.blocks.map BlockRef.index).Nodup :=
      h.blocks_nodup.map fun b c heq => by cases b; cases c; cases heq; rfl
    have range : primary.blocks.map BlockRef.index ⊆ List.range q.blocks.size := by
      intro i hi
      obtain ⟨b, hb, rfl⟩ := List.mem_map.1 hi
      exact List.mem_range.2 (within.hasBlock (h.valid.blocks b hb))
    simpa using (List.subperm_of_subset indices range).length_le
  rw [← h.entry_eq]
  exact h.retraced.completingPaths (size h.grows₂.within) (size h.grows₁.within)
    (Replica.entry_mem h.valid.nonempty)

/-! ## Two relations of one action -/

theorem length_eq : primary.vars.length = shadow.vars.length := h.mirrors.vars.length_eq.symm

/-- The primary blocks have the commands that they had when the shadow copy was made. -/
theorem commands_primary {b : BlockRef} (hb : b ∈ primary.blocks) : q₂.commands b = made.commands b :=
  h.grows₂.commands_eq h.closed (h.valid.blocks b hb) (by rw [h.kept b hb])

theorem commands_shadow {b : BlockRef} (hb : b ∈ primary.blocks) :
    q₁.commands (primary.counterpart shadow b) = (q₂.commands b).map
      (Command.mapVars (Substitution.renamed (primary.vars.zip shadow.vars))) := by
  rw [h.mirrors.graph.commands _ (h.mem_zip_counterpart hb), h.commands_primary hb]
  refine List.map_congr_left fun c hc => Command.rename_eq_mapVars fun v hv => ?_
  rw [List.map_fst_zip (Nat.le_of_eq h.length_eq)] at hv
  exact h.unbound b hb c hc v hv

theorem hasVar_frame : ∀ v ∈ q₂.globals ++ primary.outputs, made.HasVar v := by
  rw [h.grows₂.globals_eq]
  exact List.forall_mem_append.2 ⟨fun v hv => h.closed.hasVar_of_mem_globals hv,
    fun v hv => h.valid.vars v (Replica.mem_vars.2 (.inr (.inl hv)))⟩

/-- The shadow copy keeps track of the shadows of what the primary copy keeps track of. -/
theorem frame_eq :
    (q₂.globals ++ primary.outputs).map (Substitution.renamed (primary.vars.zip shadow.vars)) =
      q₁.globals ++ shadow.outputs := by
  have all := Substitution.map_renamed_zip h.vars_nodup h.length_eq
  rw [Replica.vars, Replica.vars, List.map_append, List.map_append] at all
  obtain ⟨both, -⟩ := List.append_inj all
    (by simp [h.mirrors.inputs_length, h.mirrors.outputs_length])
  obtain ⟨-, outputs⟩ := List.append_inj both (by simp [h.mirrors.inputs_length])
  have globals : made.globals.map (Substitution.renamed (primary.vars.zip shadow.vars)) =
      made.globals :=
    (List.map_congr_left fun v hv => Substitution.renamed_zip_of_not_mem h.length_eq
      fun hmem => h.not_global v hmem hv).trans (List.map_id _)
  rw [List.map_append, h.grows₂.globals_eq, h.grows₁.globals_eq, globals]
  exact congrArg _ outputs

section Relations

variable {paths : List Path} (hpaths : ∀ π ∈ paths, ∀ b ∈ π, b ∈ primary.blocks)

include hpaths

/-- The relation of the shadow copy is that of the primary copy with other variables. -/
theorem relationFormula_eq :
    q₁.relationFormula (q₁.globals ++ shadow.outputs)
        (paths.map (List.map (primary.counterpart shadow))) =
      (q₂.relationFormula (q₂.globals ++ primary.outputs) paths).mapVars
        (Substitution.renamed (primary.vars.zip shadow.vars)) := by
  rw [← h.frame_eq]
  symm
  refine Program.mapVars_relationFormula (n := made.vars.size) ?_ h.hasVar_frame
    (fun π hπ b hb c hc => ?_) fun π hπ b hb => h.commands_shadow (hpaths π hπ b hb)
  · exact Substitution.renamed_injective h.vars_nodup h.mirrors.vars.nodup h.length_eq
      h.mirrors.vars.fresh
  · rw [h.commands_primary (hpaths π hπ b hb)] at hc
    exact h.closed.varsBelow_command (h.valid.blocks b (hpaths π hπ b hb)) hc

/-- The relation of the primary copy was already there when the shadow copy was made. -/
theorem varsBelow_relation :
    (q₂.relationFormula (q₂.globals ++ primary.outputs) paths).VarsBelow made.vars.size := by
  rw [relationFormula_congr (p := made) _ fun π hπ b hb => h.commands_primary (hpaths π hπ b hb)]
  exact varsBelow_relationFormula h.closed h.hasVar_frame paths

end Relations

/-- The relations with their locals bound: the shadow variables are replaced by the primary ones. -/
theorem sameUpTo {paths : List Path} (explored : q₂.Explored none [] primary.entry paths)
    {bound bound' : List VarRef} {r₁ r₂ : Program}
    (hbound : FreshCopies (fun v => v.toBound v.copy) q₁ shadow.locals bound r₁)
    (hbound' : FreshCopies (fun v => v.toBound v.copy) q₂ primary.locals bound' r₂) :
    Expr.SameUpTo bound bound'
      ((Expr.existsAll bound ((q₁.relationFormula (q₁.globals ++ shadow.outputs)
          (paths.map (List.map (primary.counterpart shadow)))).subst
            (.uniform (Substitution.renaming (shadow.locals.zip bound))))).subst
              (.uniform (Substitution.renaming (shadow.vars.zip primary.vars))))
      (Expr.existsAll bound' ((q₂.relationFormula (q₂.globals ++ primary.outputs) paths).subst
        (.uniform (Substitution.renaming (primary.locals.zip bound'))))) := by
  have encloses := h.retraced.encloses
  have entry := Replica.entry_mem h.valid.nonempty
  have inside := mem_of_explored encloses explored entry (by simp) (by simp)
  have below := h.varsBelow_relation inside
  have unbound : ∀ x ∈ (q₂.relationFormula (q₂.globals ++ primary.outputs) paths).binders,
      x ∉ primary.vars := by
    intro x hx hmem
    have within : ∀ π ∈ paths, ∀ b ∈ π, q₂.BlockWithin (primary.commands q₂) b :=
      blockWithin_of_explored encloses (fun b hb c hc => List.mem_flatMap.2 ⟨b, hb, hc⟩) explored
        entry (by simp)
    obtain ⟨c, hc, binds⟩ := boundIn_relationFormula within _ x hx
    obtain ⟨b, hb, hc⟩ := List.mem_flatMap.1 hc
    rw [h.commands_primary hb] at hc
    exact h.unbound b hb c hc x hmem binds
  have locals_length : primary.locals.length = shadow.locals.length := by
    have all := h.length_eq
    simp only [Replica.vars, List.length_append, h.mirrors.inputs_length,
      h.mirrors.outputs_length] at all
    omega
  have new : ∀ v ∈ shadow.vars, ¬v.index < made.vars.size := h.mirrors.vars.fresh
  have apart : ∀ v ∈ bound, v ∉ shadow.vars := fun v hv hmem =>
    hbound.fresh v hv (h.mirrors.vars.valid v hmem)
  have lengths : primary.locals.length = bound.length := locals_length.trans hbound.length_eq.symm
  rw [h.relationFormula_eq inside]
  have nodup : ((primary.inputs ++ primary.outputs) ++ primary.locals).Nodup := h.vars_nodup
  have nodup' : ((shadow.inputs ++ shadow.outputs) ++ shadow.locals).Nodup := h.mirrors.vars.nodup
  have back := Expr.existsAll_there_and_back nodup nodup'
    (by simp [h.mirrors.inputs_length, h.mirrors.outputs_length]) locals_length lengths new apart
    below unbound
  rw [Replica.vars, Replica.vars, back]
  refine sameUpTo_existsAll below
    (fun v hv => h.valid.vars v (Replica.mem_vars.2 (.inr (.inr hv))))
    (fun v hv hlt => hbound.fresh v hv (h.grows₁.within.hasVar hlt))
    (fun v hv hlt => hbound'.fresh v hv (h.grows₂.within.hasVar hlt)) hbound.nodup hbound'.nodup
    (lengths.symm.trans hbound'.length_eq.symm)

end Replica.Compared

/-! ## Running the two computations -/

section Running

variable {p q : Program} {a : AtomicAction}

/-- The relation of the paths that were found. -/
theorem expr_of_transition (hp : p.Closed) (hs : a.shadow.ValidIn p) {paths : List Path}
    (h : p.completingPaths a.shadow.entry none = .ok paths) {e : ExprRef}
    (run : (transition none a).run p = (.ok e, q)) :
    ∃ bound, FreshCopies (fun v => v.toBound v.copy) p a.shadow.locals bound q ∧
      q.expr e = Expr.existsAll bound ((p.relationFormula (p.globals ++ a.shadow.outputs)
        paths).subst (.uniform (Substitution.renaming (a.shadow.locals.zip bound)))) := by
  obtain ⟨-, -, relation, htree, related⟩ :=
    (attempts_transition hp none (by simp) hs).of_run run
  obtain ⟨-, paths', bound, explored, hbound, rfl⟩ := related.transitionOf hp (by simp) hs
  obtain rfl : paths' = paths := (explored_of_explore h).unique explored
  refine ⟨bound, hbound, htree.2.trans ?_⟩
  rw [transitionFrame, Option.map_none, Option.getD_none, List.append_nil]
  rfl

end Running

/-- The program `q` continues `p` and still has the blocks `bs` as they were. -/
structure Program.Keeps (bs : List BlockRef) (p q : Program) : Prop where
  grows : p.Grows (fun _ _ => True) q
  kept : ∀ b ∈ bs, q.block b = p.block b

theorem Program.Keeps.refl (bs : List BlockRef) (p : Program) : p.Keeps bs p :=
  ⟨Grows.refl (fun _ => trivial) p, fun _ _ => rfl⟩

/-- An action right after it was made, in programs that keep its copies. -/
theorem Replica.Compared.ofBecomes {t : TaggedBody} {a : AtomicAction} {p q q₁ q₂ : Program}
    (hp : p.Closed) (hr : p.HasProcedure t.procedure) (hcode : t.code.ValidIn p)
    (h : t.Becomes p a q) (hq : q.Closed) (blocks_nodup : t.code.blocks.Nodup)
    (vars_nodup : a.primary.vars.Nodup) (not_global : ∀ v ∈ a.primary.vars, v ∉ p.globals)
    (unbound : ∀ b ∈ t.code.blocks, ∀ c ∈ p.commands b, ∀ v ∈ a.primary.vars, ¬c.Binds v)
    (h₁ : q.Keeps a.shadow.blocks q₁) (hq₁ : q₁.Closed) (h₂ : q.Keeps a.primary.blocks q₂)
    (hq₂ : q₂.Closed) : a.primary.Compared (p.assuming t.entry) a.shadow q₁ q₂ := by
  have start : p.Grows Block.Softens p := Grows.refl Block.Softens.refl p
  have assumed : p.Grows Block.Softens (p.assuming t.entry) :=
    (continues_assuming hp start (hcode.blocks _ (TaggedBody.entry_mem h.nonempty))).1.grows
  have made : (p.assuming t.entry).Grows (fun _ _ => True) q := h.grows.mono fun _ _ _ => trivial
  have valid : a.primary.ValidIn (p.assuming t.entry) := by
    rw [h.primary_eq]
    exact validIn_primaryOf hp start hr hcode h.nonempty
  have later {r : Program} (k : q.Grows (fun _ _ => True) r) :
      (p.assuming t.entry).Grows (fun _ _ => True) r := made.trans (fun _ _ _ _ _ => trivial) k
  refine ⟨h.closed, valid, h.blocks_eq ▸ blocks_nodup, vars_nodup, fun v hv => ?_,
    fun b hb d hd v hv => ?_, hq₁, later h₁.grows, h.mirrors.grows hq h₁.grows h₁.kept, hq₂,
    later h₂.grows, fun b hb => (h₂.kept b hb).trans (h.grows.block_eq (valid.blocks b hb))⟩
  · rw [assumed.globals_eq]
    exact not_global v hv
  · -- assuming the gate changes nothing about what is bound
    rw [h.blocks_eq] at hb
    obtain ⟨c, hc, softens⟩ :=
      exists_left_of_forall₂ (assumed.softens_commands hp (hcode.blocks b hb)) hd
    rintro ⟨e, he, binds⟩
    rw [softens.exprs_eq] at he
    exact unbound b hb c hc v hv ⟨e, he, binds⟩

/-- The relation of an action that is computed over its shadow copy is the one computed over its
primary copy, once the shadow variables are replaced by the primary ones, up to the choice of the
variables that are bound for the locals. If there is no relation then the two computations fail in the
same way, at blocks whose labels differ by the mark of the shadow copy. -/
theorem shadow_relation_maps_back {p q q₁ q₂ : Program} (hp : p.Closed) {r : ProcRef}
    (hr : p.HasProcedure r) {body : Body} (hbody : body.ValidIn p) {mover : Mover}
    {a : AtomicAction} (run : (AtomicAction.ofBody r body mover).run p = (.ok a, q))
    (blocks_nodup : body.blocks.Nodup) (vars_nodup : a.primary.vars.Nodup)
    (not_global : ∀ v ∈ a.primary.vars, v ∉ p.globals)
    (unbound : ∀ b ∈ body.blocks, ∀ c ∈ p.commands b, ∀ v ∈ a.primary.vars, ¬c.Binds v)
    (h₁ : q.Keeps a.shadow.blocks q₁) (hq₁ : q₁.Closed) (h₂ : q.Keeps a.primary.blocks q₂)
    (hq₂ : q₂.Closed) :
    ((∃ e₁ r₁, (transition none a).run q₁ = (.ok e₁, r₁)) ↔
      ∃ e₂ r₂, (transition none a.selfPaired).run q₂ = (.ok e₂, r₂)) ∧
    (∀ e₁ r₁ e₂ r₂, (transition none a).run q₁ = (.ok e₁, r₁) →
      (transition none a.selfPaired).run q₂ = (.ok e₂, r₂) →
        ∃ bound₁ bound₂,
          FreshCopies (fun v => v.toBound v.copy) q₁ a.shadow.locals bound₁ r₁ ∧
          FreshCopies (fun v => v.toBound v.copy) q₂ a.primary.locals bound₂ r₂ ∧
          Expr.SameUpTo bound₁ bound₂
            ((r₁.expr e₁).subst
              (.uniform (Substitution.renaming (a.shadow.vars.zip a.primary.vars))))
            (r₂.expr e₂)) ∧
    ∀ x₁ r₁ x₂ r₂, (transition none a).run q₁ = (.error x₁, r₁) →
      (transition none a.selfPaired).run q₂ = (.error x₂, r₂) → x₂.MarkedAs "that_" x₁ := by
  have start : p.Grows Block.Softens p := Grows.refl Block.Softens.refl p
  obtain ⟨continued, hq, built⟩ := continues_ofBody hp hp start hr hbody mover run
  have valid : a.ValidIn q := (built a rfl).validIn continued.grows.within
  have becomes : TaggedBody.Becomes ⟨r, mover, body⟩ p a q := becomes_of_ofBody hp start hr hbody run
  have h := Replica.Compared.ofBecomes hp hr hbody becomes hq blocks_nodup vars_nodup not_global
    unbound h₁ hq₁ h₂ hq₂
  have valid₁ := valid.mono h₁.grows.within
  have valid₂ := valid.mono h₂.grows.within
  have frame₁ := (hasVar_of_mem_transition hq₁ none (by simp) valid₁.shadow).2
  have frame₂ : ∀ v ∈ transitionFrame none a.selfPaired q₂, q₂.HasVar v :=
    (hasVar_of_mem_transition hq₂ none (by simp) valid₂.primary).2
  have searched := h.searchedAlike
  generalize hfound₂ : q₂.completingPaths a.primary.entry none = found₂ at searched
  generalize hfound₁ : q₁.completingPaths a.shadow.entry none = found₁ at searched
  cases searched with
  | found paths =>
    have done₁ : ∃ e q, (transition none a).run q₁ = (.ok e, q) :=
      exists_transition hq₁ frame₁ hfound₁
    have done₂ : ∃ e q, (transition none a.selfPaired).run q₂ = (.ok e, q) :=
      exists_transition hq₂ frame₂ hfound₂
    refine ⟨⟨fun _ => done₂, fun _ => done₁⟩, fun e₁ r₁ e₂ r₂ run₁ run₂ => ?_,
      fun x₁ r₁ x₂ r₂ run₁ _ => ?_⟩
    · obtain ⟨bound₁, new₁, expr₁⟩ := expr_of_transition hq₁ valid₁.shadow hfound₁ run₁
      obtain ⟨bound₂, new₂, expr₂⟩ := expr_of_transition (a := a.selfPaired) hq₂ valid₂.primary
        hfound₂ run₂
      refine ⟨bound₁, bound₂, new₁, new₂, ?_⟩
      rw [expr₁, expr₂]
      exact h.sameUpTo (explored_of_explore hfound₂) new₁ new₂
    · obtain ⟨e₁, r, run⟩ := done₁
      rw [run] at run₁
      cases run₁
  | failed marked =>
    obtain ⟨_, fail₁, -⟩ : ∃ r, (transition none a).run q₁ = (_, r) ∧ _ :=
      transition_run_of_error hq₁ frame₁ hfound₁
    obtain ⟨_, fail₂, -⟩ : ∃ r, (transition none a.selfPaired).run q₂ = (_, r) ∧ _ :=
      transition_run_of_error hq₂ frame₂ hfound₂
    rw [fail₁, fail₂]
    refine ⟨⟨?_, ?_⟩, ?_, ?_⟩
    · rintro ⟨_, _, h⟩
      cases h
    · rintro ⟨_, _, h⟩
      cases h
    · intro _ _ _ _ h
      cases h
    · intro x₁ r₁ x₂ r₂ h₁ h₂
      cases h₁
      cases h₂
      exact marked

/-- The two relations of a deposit. -/
theorem shadow_relation_maps_back_deposit : ∃ e₁ r₁ e₂ r₂ bound₁ bound₂,
    (transition none Account.deposit).run Account.registered = (.ok e₁, r₁) ∧
      (transition none Account.deposit.selfPaired).run Account.registered = (.ok e₂, r₂) ∧
      Expr.SameUpTo bound₁ bound₂
        ((r₁.expr e₁).subst (.uniform (Substitution.renaming
          (Account.deposit.shadow.vars.zip Account.deposit.primary.vars)))) (r₂.expr e₂) := by
  have run₁ := eq_ok_of_isOk (x := (transition none Account.deposit).run Account.registered)
    (by decide +kernel)
  have hq : Account.registered.Closed := (Account.assembly.sound Account.closed).closed
  obtain ⟨same, mapped, -⟩ := shadow_relation_maps_back Account.closed (by decide +kernel)
    (by decide +kernel) Account.registration_eq (by decide +kernel) (by decide +kernel)
    (by decide +kernel) (by decide +kernel) (.refl _ _) hq (.refl _ _) hq
  obtain ⟨e₂, r₂, run₂⟩ := same.1 ⟨_, _, run₁⟩
  obtain ⟨bound₁, bound₂, -, -, sameUpTo⟩ := mapped _ _ _ _ run₁ run₂
  exact ⟨_, _, e₂, r₂, bound₁, bound₂, run₁, run₂, sameUpTo⟩

end AtomicMovers
