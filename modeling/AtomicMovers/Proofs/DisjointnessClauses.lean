import AtomicMovers.Proofs.ShadowCopies
import AtomicMovers.Proofs.WellFormedOutput
import Mathlib.Data.List.Pairwise

/-!
# The arguments of disjointness clauses

The clauses that keep the resources of two actions apart range over the globals, the inputs of the
first action and the shadow inputs of the second (`resourceVars`). A shadow is annotated as the
variable that it repeats, so the clause of a domain has those of these variables for its arguments
that are annotated with it, in order (`domainScope_eq_filter`). Every one of them is a different
variable: shadows are new when an action is registered, so they are neither in the input nor shared
with another action (`Assembly.pairwise_shadow`). Hence the clauses split the annotated variables
among themselves (`clauses_partition_resources`).
-/

namespace AtomicMovers

open Program

/-! ## Domains by first appearance -/

/-- The domains that annotate a list of variables, each listed once. -/
def domainsOf (vs : List Variable) : List String := (vs.filterMap Variable.domain).eraseDups

/-- In a list of variables, one is annotated with `d` and none up to it with `d'`. -/
def AppearsBefore (vs : List Variable) (d d' : String) : Prop :=
  ∃ i : Nat, vs[i]?.bind Variable.domain = some d ∧
    ∀ j ≤ i, vs[j]?.bind Variable.domain ≠ some d'

theorem mem_domainsOf {vs : List Variable} {d : String} :
    d ∈ domainsOf vs ↔ ∃ v ∈ vs, v.domain = some d := by
  rw [domainsOf, List.mem_eraseDups, List.mem_filterMap]

theorem AppearsBefore.append {vs : List Variable} {d d' : String} (h : AppearsBefore vs d d')
    (ws : List Variable) : AppearsBefore (vs ++ ws) d d' := by
  obtain ⟨i, hi, hbefore⟩ := h
  have hlt : i < vs.length := by
    by_contra hge
    rw [List.getElem?_eq_none (Nat.le_of_not_lt hge)] at hi
    cases hi
  refine ⟨i, ?_, fun j hj => ?_⟩
  · rw [List.getElem?_append_left hlt]
    exact hi
  · rw [List.getElem?_append_left (Nat.lt_of_le_of_lt hj hlt)]
    exact hbefore j hj

/-- A domain of some variable appears before one that is not among the domains. -/
theorem appearsBefore_of_not_mem {vs : List Variable} {d d' : String} (hd : d ∈ domainsOf vs)
    (hd' : d' ∉ domainsOf vs) : AppearsBefore vs d d' := by
  obtain ⟨v, hv, domain⟩ := mem_domainsOf.1 hd
  obtain ⟨i, hi, rfl⟩ := List.mem_iff_getElem.1 hv
  refine ⟨i, by simp [List.getElem?_eq_getElem hi, domain], fun j hj heq => hd' ?_⟩
  obtain ⟨w, hw, domain'⟩ := Option.bind_eq_some_iff.1 heq
  exact mem_domainsOf.2 ⟨w, List.mem_of_getElem? hw, domain'⟩

/-- A variable at the end adds its domain at the end, unless this is not new. -/
theorem domainsOf_concat (vs : List Variable) (v : Variable) :
    domainsOf (vs ++ [v]) = domainsOf vs ∨
      ∃ d ∉ domainsOf vs, domainsOf (vs ++ [v]) = domainsOf vs ++ [d] := by
  unfold domainsOf
  rw [List.filterMap_append]
  cases hdomain : v.domain with
  | none =>
    left
    apply Ledger.eraseDups_append_of_subset
    simp [hdomain]
  | some d =>
    rw [List.filterMap_cons_some hdomain, List.filterMap_nil]
    by_cases hd : d ∈ vs.filterMap Variable.domain
    · left
      apply Ledger.eraseDups_append_of_subset
      simpa using hd
    · right
      exact ⟨d, by rwa [List.mem_eraseDups], Ledger.eraseDups_concat hd⟩

/-- Domains are listed in the order in which they appear. -/
theorem pairwise_domainsOf (vs : List Variable) :
    (domainsOf vs).Pairwise (AppearsBefore vs) := by
  induction vs using List.reverseRecOn with
  | nil => exact List.Pairwise.nil
  | append_singleton vs v ih =>
    have kept := ih.imp fun h => h.append [v]
    rcases domainsOf_concat vs v with same | ⟨d, hd, same⟩
    · rw [same]
      exact kept
    · rw [same, List.pairwise_append]
      refine ⟨kept, List.pairwise_singleton _ _, fun x hx y hy => ?_⟩
      obtain rfl := List.mem_singleton.1 hy
      exact (appearsBefore_of_not_mem hx hd).append [v]

/-! ## Shadows of different actions -/

/-- No two actions share a shadow variable. -/
theorem Assembly.pairwise_shadow {base p : Program} {actions : List AtomicAction}
    (hbase : base.Closed) (h : Assembly base p actions) :
    actions.Pairwise fun a b => ∀ v ∈ a.shadow.vars, v ∉ b.shadow.vars := by
  induction h with
  | start => exact List.Pairwise.nil
  | @register p q actions r body mover a h hr hbody run ih =>
    have sound := Assembly.sound hbase h
    have becomes := becomes_of_ofBody (t := ⟨r, mover, body⟩) sound.closed sound.grows hr hbody run
    have entry : base.HasBlock (TaggedBody.entry ⟨r, mover, body⟩) :=
      hbody.blocks _ (TaggedBody.entry_mem becomes.nonempty)
    have within := (continues_assuming sound.closed sound.grows entry).1.grows.within
    rw [List.pairwise_append]
    refine ⟨ih, List.pairwise_singleton _ _, fun b hb c hc v hv hvc => ?_⟩
    -- the shadows of `b` were there when those of `a` were made
    obtain rfl := List.mem_singleton.1 hc
    exact becomes.mirrors.vars.fresh v hvc (within.hasVar ((sound.validIn hb).shadow.vars v hv))
  | registerFails _ _ _ _ ih => exact ih
  | oblige _ _ _ _ ih => exact ih

/-- Shadow inputs are not outputs or locals of a shadow copy, be it the same or that of another
action. -/
theorem Assembly.not_mem_shadow_inputs {base p : Program} {actions : List AtomicAction}
    (hbase : base.Closed) (h : Assembly base p actions) {a b : AtomicAction} (ha : a ∈ actions)
    (hb : b ∈ actions) {v : VarRef} (hv : v ∈ a.shadow.outputs ++ a.shadow.locals) :
    v ∉ b.shadow.inputs := by
  intro hmem
  by_cases heq : a = b
  · have nodup := nodup_shadow ((Assembly.sound hbase h).built b hb)
    rw [Replica.vars, List.append_assoc, List.nodup_append] at nodup
    exact nodup.2.2 v hmem v (heq ▸ hv) rfl
  · have symm : Std.Symm fun a b : AtomicAction => ∀ v ∈ a.shadow.vars, v ∉ b.shadow.vars :=
      ⟨fun _ _ k v hv hv' => k v hv' hv⟩
    have apart := (h.pairwise_shadow hbase).forall ha hb heq
    refine apart v ?_ (Replica.inputs_subset _ v hmem)
    rw [Replica.vars, List.append_assoc]
    exact List.mem_append.2 (.inr hv)

/-! ## Scopes -/

/-- The variables that each of the domains annotates. A domain that annotates none is left out. -/
def scopesOver (p : Program) (vars : List VarRef) (domains : List String) :
    List (String × List VarRef) :=
  (domains.map fun d => (d, vars.filter fun v => (p.var v).domain = some d)).filter fun s =>
    s.2 ≠ []

section ScopesOver

variable {p : Program} {vars : List VarRef} {domains : List String}

theorem mem_scopesOver {d : String} {vs : List VarRef} :
    (d, vs) ∈ scopesOver p vars domains ↔ d ∈ domains ∧
      (vars.filter fun v => (p.var v).domain = some d) = vs ∧ vs ≠ [] := by
  simp only [scopesOver, List.mem_filter, List.mem_map, Prod.mk.injEq, decide_eq_true_eq]
  constructor
  · rintro ⟨⟨d', hd', rfl, hvs⟩, hne⟩
    exact ⟨hd', hvs, hne⟩
  · rintro ⟨hd, hvs, hne⟩
    exact ⟨⟨d, hd, rfl, hvs⟩, hne⟩

/-- Domains of scopes stand in the order in which they are listed. -/
theorem sublist_scopesOver : ((scopesOver p vars domains).map Prod.fst).Sublist domains := by
  have keys : (domains.map fun d =>
      (d, vars.filter fun v => (p.var v).domain = some d)).map Prod.fst = domains := by
    rw [List.map_map]
    exact List.map_id domains
  have sub : ((scopesOver p vars domains).map Prod.fst).Sublist ((domains.map fun d =>
      (d, vars.filter fun v => (p.var v).domain = some d)).map Prod.fst) :=
    List.filter_sublist.map _
  rw [keys] at sub
  exact sub

theorem mem_scope {c : String × List VarRef} (hc : c ∈ scopesOver p vars domains) {v : VarRef} :
    v ∈ c.2 ↔ v ∈ vars ∧ (p.var v).domain = some c.1 := by
  obtain ⟨-, hvs, -⟩ := mem_scopesOver.1 hc
  rw [← hvs, List.mem_filter, decide_eq_true_eq]

/-- An annotated variable is in the scope of its domain. -/
theorem exists_scope {v : VarRef} (hv : v ∈ vars) {d : String} (hd : (p.var v).domain = some d)
    (known : d ∈ domains) : ∃ vs, (d, vs) ∈ scopesOver p vars domains ∧ v ∈ vs := by
  have hmem : v ∈ vars.filter fun v => (p.var v).domain = some d :=
    List.mem_filter.2 ⟨hv, decide_eq_true hd⟩
  exact ⟨_, mem_scopesOver.2 ⟨known, rfl, List.ne_nil_of_mem hmem⟩, hmem⟩

/-- No variable is in two scopes, or twice in one. -/
theorem nodup_scopes (nodup : vars.Nodup) (distinct : domains.Nodup) :
    ((scopesOver p vars domains).flatMap Prod.snd).Nodup := by
  rw [List.nodup_flatMap]
  refine ⟨fun c hc => ?_, ?_⟩
  · obtain ⟨-, hvs, -⟩ := mem_scopesOver.1 hc
    rw [← hvs]
    exact nodup.filter _
  · have differ : (scopesOver p vars domains).Pairwise fun c c' => c.1 ≠ c'.1 :=
      List.pairwise_map.1 (distinct.sublist sublist_scopesOver)
    refine differ.imp_of_mem fun {c c'} hc hc' hne v hv hv' => hne ?_
    have domain := ((mem_scope hc).1 hv).2
    have domain' := ((mem_scope hc').1 hv').2
    exact Option.some.inj (domain.symm.trans domain')

end ScopesOver

/-! ## Candidates -/

/-- The variables whose resources are kept apart. -/
def resourceVars (p : Program) (first second : AtomicAction) : List VarRef :=
  p.globals ++ first.primary.inputs ++ second.shadow.inputs

section Candidates

variable {input p : Program} {actions : List AtomicAction} {first second : AtomicAction}

/-- The domain of a candidate is its own, also where it is looked up on another variable. -/
theorem domain_of_candidate (sound : Assembly.Sound input.sharedBase p actions)
    (hs : second ∈ actions) {c : VarRef × VarRef} (hc : c ∈ ownershipCandidates p first second) :
    (p.var c.2).domain = (p.var c.1).domain := by
  rcases List.mem_append.1 hc with hc | hc
  · obtain ⟨v, -, rfl⟩ := List.mem_map.1 hc
    rfl
  · have built := sound.built second hs
    obtain ⟨made, -, hbm, hm⟩ := built.mirrors
    have zipped := hm.inputs_zip c hc
    have old := built.vars c.1 (List.of_mem_zip zipped).1
    rw [hm.vars.var_eq c zipped, hbm.var_eq c.1 old, sound.grows.var_eq c.1 old]
    rfl

theorem candidates_map_snd (sound : Assembly.Sound input.sharedBase p actions)
    (hs : second ∈ actions) :
    (ownershipCandidates p first second).map Prod.snd = resourceVars p first second := by
  obtain ⟨made, -, -, hm⟩ := (sound.built second hs).mirrors
  have shadows : (second.primary.inputs.zip second.shadow.inputs).map Prod.snd =
      second.shadow.inputs := List.map_snd_zip (Nat.le_of_eq hm.inputs_length)
  unfold ownershipCandidates resourceVars
  rw [List.map_append, shadows, List.map_map]
  simp [Function.comp_def]

/-- The scope of a domain are the variables annotated with it. -/
theorem domainScope_eq_filter (sound : Assembly.Sound input.sharedBase p actions)
    (hs : second ∈ actions) (d : String) :
    domainScope p first second d =
      (resourceVars p first second).filter fun v => (p.var v).domain = some d := by
  rw [← candidates_map_snd sound hs, List.filter_map, domainScope]
  congr 1
  apply List.filter_congr
  intro c hc
  rw [Function.comp_apply, domain_of_candidate sound hs hc]

/-- The clauses are those of the scopes. -/
theorem disjointnessClauses_eq (sound : Assembly.Sound input.sharedBase p actions)
    (hs : second ∈ actions) :
    disjointnessClauses p (.ofProgram input) first second =
      (scopesOver p (resourceVars p first second) (domainsOf input.vars.toList)).map fun c =>
        .call ("Disjoint_" ++ c.1 ++ "_" ++ toString c.2.length) (c.2.map .var) := by
  simp only [disjointnessClauses, domainScope_eq_filter sound hs]
  rfl

/-- A domain that annotates a candidate annotates a variable of the input. -/
theorem mem_domainsOf_of_resource (hinput : input.Closed)
    (sound : Assembly.Sound input.sharedBase p actions) (hf : first ∈ actions)
    (hs : second ∈ actions) {v : VarRef} (hv : v ∈ resourceVars p first second) {d : String}
    (hd : (p.var v).domain = some d) : d ∈ domainsOf input.vars.toList := by
  rw [← candidates_map_snd sound hs] at hv
  obtain ⟨c, hc, rfl⟩ := List.mem_map.1 hv
  rw [domain_of_candidate sound hs hc] at hd
  have old : input.sharedBase.HasVar c.1 := by
    rcases List.mem_append.1 hc with hc | hc
    · obtain ⟨w, hw, rfl⟩ := List.mem_map.1 hc
      rcases List.mem_append.1 hw with hw | hw
      · rw [sound.grows.globals_eq] at hw
        exact hinput.sharedBase.hasVar_of_mem_globals hw
      · exact (sound.built first hf).vars w (Replica.inputs_subset _ w hw)
    · exact (sound.built second hs).vars c.1
        (Replica.inputs_subset _ _ (List.of_mem_zip hc).1)
  rw [sound.grows.var_eq c.1 old] at hd
  exact mem_domainsOf.2 ⟨input.var c.1, Array.mem_toList_iff.2 (var_mem old), hd⟩

/-- The variables are different from each other, if those of the input are. -/
theorem nodup_resourceVars (hinput : input.Closed)
    (sound : Assembly.Sound input.sharedBase p actions) (hf : first ∈ actions)
    (hs : second ∈ actions) (globals : input.globals.Nodup) (inputs : first.primary.inputs.Nodup)
    (apart : ∀ v ∈ first.primary.inputs, v ∉ input.globals) :
    (resourceVars p first second).Nodup := by
  have same : p.globals = input.globals :=
    sound.grows.globals_eq.trans (globals_sharedBase input)
  have shadows : second.shadow.inputs.Nodup := by
    have nodup := nodup_shadow (sound.built second hs)
    rw [Replica.vars, List.append_assoc] at nodup
    exact nodup.of_append_left
  have old : ∀ v ∈ input.globals ++ first.primary.inputs, input.sharedBase.HasVar v := by
    intro v hv
    rcases List.mem_append.1 hv with hv | hv
    · exact hinput.hasVar_of_mem_globals hv
    · exact (sound.built first hf).vars v (Replica.inputs_subset _ v hv)
  rw [resourceVars, same, List.nodup_append, List.nodup_append]
  refine ⟨⟨globals, inputs, ?_⟩, shadows, ?_⟩
  · intro v hv w hw heq
    exact apart w hw (heq ▸ hv)
  · intro v hv w hw heq
    exact not_hasVar_of_mem_shadow (sound.built second hs) w (Replica.inputs_subset _ w hw)
      (heq ▸ old v hv)

end Candidates

/-! ## Clauses -/

/-- The clauses, each given by its domain and its arguments, split the annotated ones of the
variables among themselves. -/
structure PartitionResources (input p : Program) (vars : List VarRef)
    (clauses : List (String × List VarRef)) : Prop where
  /-- There is a clause for each domain that annotates one of the variables, and no other. -/
  domains : ∀ d, d ∈ clauses.map Prod.fst ↔ ∃ v ∈ vars, (p.var v).domain = some d
  /-- Clauses stand in the order in which their domains appear in the input. -/
  ordered : (clauses.map Prod.fst).Pairwise (AppearsBefore input.vars.toList)
  /-- The arguments of a clause are the variables that its domain annotates, in order. -/
  scopes : ∀ c ∈ clauses, c.2 = vars.filter fun v => (p.var v).domain = some c.1
  /-- An annotated variable is an argument once. -/
  once : ∀ v ∈ vars, (p.var v).domain ≠ none → (clauses.flatMap Prod.snd).count v = 1
  /-- Nothing else is an argument. -/
  others : ∀ v, v ∉ vars ∨ (p.var v).domain = none → v ∉ clauses.flatMap Prod.snd

theorem AppearsBefore.ne {vs : List Variable} {d d' : String} (h : AppearsBefore vs d d') :
    d ≠ d' := by
  intro heq
  obtain ⟨i, hi, hbefore⟩ := h
  exact hbefore i (Nat.le_refl i) (heq ▸ hi)

/-- The scopes of the domains of the input partition different variables. -/
theorem partitionResources_scopesOver {input p : Program} {vars : List VarRef} (nodup : vars.Nodup)
    (known : ∀ v ∈ vars, ∀ d, (p.var v).domain = some d → d ∈ domainsOf input.vars.toList) :
    PartitionResources input p vars (scopesOver p vars (domainsOf input.vars.toList)) where
  domains d := by
    constructor
    · intro hd
      obtain ⟨c, hc, rfl⟩ := List.mem_map.1 hd
      obtain ⟨v, hv⟩ := List.exists_mem_of_ne_nil _ (mem_scopesOver.1 hc).2.2
      exact ⟨v, (mem_scope hc).1 hv⟩
    · intro ⟨v, hv, domain⟩
      obtain ⟨vs, hvs, -⟩ := exists_scope hv domain (known v hv d domain)
      exact List.mem_map.2 ⟨_, hvs, rfl⟩
  ordered := (pairwise_domainsOf _).sublist sublist_scopesOver
  scopes c hc := (mem_scopesOver.1 hc).2.1.symm
  once v hv hne := by
    have distinct : (domainsOf input.vars.toList).Nodup :=
      (pairwise_domainsOf _).imp fun h => h.ne
    obtain ⟨d, domain⟩ := Option.ne_none_iff_exists'.1 hne
    obtain ⟨vs, hvs, hmem⟩ := exists_scope hv domain (known v hv d domain)
    exact List.count_eq_one_of_mem (nodup_scopes nodup distinct)
      (List.mem_flatMap.2 ⟨_, hvs, hmem⟩)
  others v hv hmem := by
    obtain ⟨c, hc, hmem⟩ := List.mem_flatMap.1 hmem
    obtain ⟨hvars, domain⟩ := (mem_scope hc).1 hmem
    rcases hv with hv | hv
    · exact hv hvars
    · rw [hv] at domain
      cases domain

namespace Ledger

/-- For any two registered actions, at any later point: the clauses that are added to keep their
resources apart are one per domain that annotates a global, an input of the first or a shadow input
of the second, in the order in which the domains appear in the input. They have each of these
variables that is annotated for an argument exactly once, in the clause of its domain. Other
variables are no arguments: not the outputs and locals of any copy, nor the inputs of the second
action itself, unless they are inputs of the first. -/
theorem clauses_partition_resources {input : Program} (hinput : input.Closed)
    {log : List Obligation} {l : Ledger}
    (h : Leads input log (ofProgram input (.ofProgram input)) l) {first second : AtomicAction}
    (hf : first ∈ l.actions.toList) (hs : second ∈ l.actions.toList)
    (globals : input.globals.Nodup) (inputs : first.primary.inputs.Nodup)
    (apart : ∀ v ∈ first.primary.inputs ++ second.primary.inputs, v ∉ input.globals)
    {p q : Program} {es : List ExprRef} (hp : p.Closed) (hlp : l.program.Extends p)
    (run : (addDisjointnessClauses (.ofProgram input) first second).run p = (es, q)) :
    ∃ clauses : List (String × List VarRef),
      es.map q.expr = clauses.map (fun c => Expr.call
        ("Disjoint_" ++ c.1 ++ "_" ++ toString c.2.length) (c.2.map .var)) ∧
      PartitionResources input p
        (input.globals ++ first.primary.inputs ++ second.shadow.inputs) clauses ∧
      (∀ a ∈ l.actions.toList, ∀ v ∈ a.shadow.outputs ++ a.shadow.locals,
        v ∉ clauses.flatMap Prod.snd) ∧
      (∀ a ∈ l.actions.toList, ∀ v ∈ a.primary.outputs ++ a.primary.locals,
        v ∉ input.globals ++ first.primary.inputs → v ∉ clauses.flatMap Prod.snd) ∧
      ∀ v ∈ second.primary.inputs, v ∉ first.primary.inputs → v ∉ clauses.flatMap Prod.snd := by
  have assembled := h.assembled hinput
  have sound := (assembled.sound hinput).extends hlp hp
  have same : p.globals = input.globals :=
    sound.grows.globals_eq.trans (globals_sharedBase input)
  have nodup := nodup_resourceVars hinput sound hf hs globals inputs fun v hv =>
    apart v (List.mem_append.2 (.inl hv))
  have parts : PartitionResources input p (resourceVars p first second)
      (scopesOver p (resourceVars p first second) (domainsOf input.vars.toList)) :=
    partitionResources_scopesOver nodup fun v hv d hd =>
      mem_domainsOf_of_resource hinput sound hf hs hv hd
  have exprs := (yields_addDisjointnessClauses (o := .ofProgram input) hp (sound.validIn hf)
    (sound.validIn hs)).post.2
  rw [show addDisjointnessClauses (.ofProgram input) first second p = (es, q) from run,
    disjointnessClauses_eq sound hs] at exprs
  -- shadows are new, so what is not one of the right shadows is a variable of the input
  have none {v : VarRef} (hglobal : v ∉ input.globals) (hfirst : v ∉ first.primary.inputs)
      (hsecond : v ∉ second.shadow.inputs) : v ∉ resourceVars p first second := by
    rw [resourceVars, same, List.mem_append, List.mem_append, not_or, not_or]
    exact ⟨⟨hglobal, hfirst⟩, hsecond⟩
  have old {a : AtomicAction} (ha : a ∈ l.actions.toList) {v : VarRef} (hv : v ∈ a.primary.vars) :
      v ∉ second.shadow.inputs := fun hmem =>
    not_hasVar_of_mem_shadow (sound.built second hs) v (Replica.inputs_subset _ v hmem)
      ((sound.built a ha).vars v hv)
  refine ⟨_, exprs, ?_, fun a ha v hv => ?_, fun a ha v hv hother => ?_, fun v hv hother => ?_⟩
  · rw [← same]
    exact parts
  · have new : ¬input.HasVar v := by
      apply not_hasVar_of_mem_shadow (sound.built a ha)
      rw [Replica.vars, List.append_assoc]
      exact List.mem_append.2 (.inr hv)
    refine parts.others v (.inl (none ?_ ?_ ?_))
    · exact fun hmem => new (hinput.hasVar_of_mem_globals hmem)
    · exact fun hmem => new ((sound.built first hf).vars v (Replica.inputs_subset _ v hmem))
    · exact Assembly.not_mem_shadow_inputs hinput.sharedBase assembled ha hs hv
  · rw [List.mem_append, not_or] at hother
    refine parts.others v (.inl (none hother.1 hother.2 (old ha ?_)))
    rw [Replica.vars, List.append_assoc]
    exact List.mem_append.2 (.inr hv)
  · refine parts.others v (.inl (none (apart v (List.mem_append.2 (.inr hv))) hother (old hs ?_)))
    exact Replica.inputs_subset _ v hv

end Ledger

namespace Account

/-- The account with keys to it, which are declared before the balance but were made after it. -/
def keyed : Program :=
  { tagged with
    vars := tagged.vars.push
      { name := "keys", ty := .int, kind := .global, domain := some "access" }
    declarations := .global ⟨6⟩ :: tagged.declarations
    names := ("keys", ⟨6⟩) :: tagged.names }

theorem closed_keyed : keyed.Closed := by decide +kernel

/-- The ledger in which the deposit to it is registered. -/
def keyedLedger : Ledger :=
  Ledger.Call.after keyed .register (.ofProgram keyed (.ofProgram keyed))

end Account

namespace Ledger

/-- Two deposits: the balance and both amounts are money, and the keys stand alone. -/
theorem clauses_partition_resources_deposit :
    ∃ clauses : List (String × List VarRef), clauses.length = 2 ∧
      PartitionResources Account.keyed Account.keyedLedger.program [⟨6⟩, ⟨0⟩, ⟨2⟩, ⟨7⟩] clauses ∧
      Account.keyedLedger.action ⟨0⟩ ∈ Account.keyedLedger.actions.toList := by
  have leads : Leads Account.keyed [] (ofProgram Account.keyed (.ofProgram Account.keyed))
      Account.keyedLedger := (Leads.refl _).call .register trivial
  have mem : Account.keyedLedger.action ⟨0⟩ ∈ Account.keyedLedger.actions.toList := by
    decide +kernel
  have closed : Account.keyedLedger.program.Closed := by decide +kernel
  generalize hresult : (addDisjointnessClauses (.ofProgram Account.keyed)
    (Account.keyedLedger.action ⟨0⟩) (Account.keyedLedger.action ⟨0⟩)).run
      Account.keyedLedger.program = result
  have number : result.1.length = 2 := by
    rw [← hresult]
    decide +kernel
  obtain ⟨es, q⟩ := result
  have vars : Account.keyed.globals ++ (Account.keyedLedger.action ⟨0⟩).primary.inputs ++
      (Account.keyedLedger.action ⟨0⟩).shadow.inputs = [⟨6⟩, ⟨0⟩, ⟨2⟩, ⟨7⟩] := by decide +kernel
  obtain ⟨clauses, exprs, parts, -⟩ := clauses_partition_resources Account.closed_keyed leads mem
    mem (by decide +kernel) (by decide +kernel) (by decide +kernel) closed (Extends.refl _) hresult
  rw [vars] at parts
  have lengths := congrArg List.length exprs
  rw [List.length_map, List.length_map] at lengths
  exact ⟨clauses, lengths.symm.trans number, parts, mem⟩

end Ledger

end AtomicMovers
