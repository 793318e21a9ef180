import AtomicMovers.Proofs.WellFormedOutput

/-!
# Declared predicates

Disjointness clauses call predicates, which are declared on the way, in the middle of a list of
declarations that grows at its end. After any calls on a ledger that all succeed
(`Ledger.Advances`), the declarations are those of the input with the new predicates put where
functions belong, and behind them the obligations (`declarationsWith`).

That nothing else is declared and nothing is missing is an invariant (`Ledger.Accounted`): every
declared predicate is one of an entry, and the predicates of every entry are declared. One entry keeps
it (`Accounted.entered`), and so do registered actions (`Accounted.registers`), since they declare
nothing and the clauses of an entry stay what they are. Main statement: `predicates_declared_once`.
-/

namespace AtomicMovers

open Program

/-! ## Clauses of an obligation -/

/-- The preconditions that come from neither gate. -/
def Procedure.ownRequires (x : Procedure) (first second : AtomicAction) : List ExprRef :=
  x.requires.filter fun e => e ∉ first.primary.gate ∧ e ∉ second.shadow.gate

theorem Procedure.mem_ownRequires {x : Procedure} {first second : AtomicAction} {e : ExprRef} :
    e ∈ x.ownRequires first second ↔
      e ∈ x.requires ∧ e ∉ first.primary.gate ∧ e ∉ second.shadow.gate := by
  simp [ownRequires]

/-- The calls among the own preconditions are the disjointness clauses. -/
def Program.CallsClauses (p : Program) (o : Ownership) (first second : AtomicAction)
    (x : Procedure) : Prop :=
  ∀ f args, (∃ e ∈ x.ownRequires first second, p.expr e = .call f args) ↔
    .call f args ∈ disjointnessClauses p o first second

section Clauses

variable {p q : Program} {o : Ownership} {first second : AtomicAction}

/-- Clauses stand before what comes from gates, as new expressions, and no other precondition of an
obligation is a call. -/
theorem callsClauses_of_requires (hf : first.ValidIn p) (hs : second.ValidIn p) {x : Procedure}
    {es rest : List ExprRef} (requires : x.requires = es ++ rest) (new : ∀ e ∈ es, ¬p.HasExpr e)
    (clauses : es.map q.expr = disjointnessClauses q o first second)
    (others : ∀ e ∈ rest, e ∈ first.primary.gate ∨ e ∈ second.shadow.gate ∨
      ∃ y : Expr, q.expr e = y.not) :
    q.CallsClauses o first second x := by
  intro f args
  rw [← clauses]
  constructor
  · rintro ⟨e, he, call⟩
    rw [Procedure.mem_ownRequires, requires] at he
    obtain ⟨he, outside, outside'⟩ := he
    rcases List.mem_append.1 he with he | he
    · exact List.mem_map.2 ⟨e, he, call⟩
    · rcases others e he with h | h | ⟨y, hy⟩
      · exact absurd h outside
      · exact absurd h outside'
      · rw [hy] at call
        cases call
  · intro h
    obtain ⟨e, he, call⟩ := List.mem_map.1 h
    refine ⟨e, Procedure.mem_ownRequires.2 ⟨?_, ?_, ?_⟩, call⟩
    · rw [requires]
      exact List.mem_append.2 (.inl he)
    · exact fun hgate => new e he (hf.primary.gate e hgate)
    · exact fun hgate => new e he (hs.shadow.gate e hgate)

theorem ObligationParts.callsClauses (hp : p.Closed) (hf : first.ValidIn p) (hs : second.ValidIn p)
    {kind : ObligationKind} {r : ProcRef} (h : ObligationParts p o first second kind r q)
    (hpq : p.Extends q) : q.CallsClauses o first second (q.procedure r) := by
  have same := disjointnessClauses_extends (o := o) hp hf hs hpq
  cases h with
  | @commutativity _ _ requires _ _ _ parts =>
    rw [parts.procedure_eq]
    exact callsClauses_of_requires hf hs (List.append_nil requires).symm parts.requires_new
      (parts.requires_eq.trans same.symm) (by simp)
  | gatePreservation parts =>
    rw [parts.procedure_eq]
    exact callsClauses_of_requires hf hs rfl parts.requires_new (parts.requires_eq.trans same.symm)
      fun e he => .inl he
  | failurePreservation parts =>
    rw [parts.procedure_eq]
    refine callsClauses_of_requires hf hs rfl parts.requires_new (parts.requires_eq.trans same.symm)
      (List.forall_mem_cons.2 ⟨?_, fun e he => .inr (.inl he)⟩)
    exact .inr (.inr ⟨_, parts.gateFails_eq⟩)

/-- What the preconditions call does not change while the program grows. -/
theorem Program.CallsClauses.grows (hp : p.Closed) (hf : first.ValidIn p) (hs : second.ValidIn p)
    {R : Block → Block → Prop} (hpq : p.Grows R q) {x : Procedure} (hx : x.ValidIn p)
    (h : p.CallsClauses o first second x) : q.CallsClauses o first second x := by
  intro f args
  rw [disjointnessClauses_extends hp hf hs hpq, ← h f args]
  refine exists_congr fun e => and_congr_right fun he => ?_
  rw [hpq.expr_eq hp (hx.requires e (Procedure.mem_ownRequires.1 he).1)]

end Clauses

/-! ## The list of declarations -/

/-- Declarations with functions added where functions belong, and with pairs of a procedure and its
implementation behind all others. -/
def declarationsWith (base : List Declaration) (sigs : List FunctionSig)
    (pairs : List (ProcRef × ImplRef)) : List Declaration :=
  base.takeWhile Declaration.precedesFunctions ++ (sigs.map .function ++
    (base.dropWhile Declaration.precedesFunctions ++
      pairs.flatMap fun x => [.procedure x.1, .implementation x.2]))

section Declarations

variable {base : List Declaration} {sigs sigs' : List FunctionSig}
  {pairs : List (ProcRef × ImplRef)}

theorem declarationsWith_nil : declarationsWith base [] [] = base := by
  simp [declarationsWith, List.takeWhile_append_dropWhile]

/-- More pairs go to the end. -/
theorem declarationsWith_append (x : ProcRef × ImplRef) :
    declarationsWith base sigs pairs ++ [.procedure x.1, .implementation x.2] =
      declarationsWith base sigs (pairs ++ [x]) := by
  simp [declarationsWith]

/-- More functions go behind the functions that were added before. -/
theorem declarationsWith_insert :
    (declarationsWith base sigs pairs).takeWhile Declaration.precedesFunctions ++
        (sigs'.map .function ++
          (declarationsWith base sigs pairs).dropWhile Declaration.precedesFunctions) =
      declarationsWith base (sigs ++ sigs') pairs := by
  have lead : ∀ d ∈ base.takeWhile Declaration.precedesFunctions ++ sigs.map Declaration.function,
      Declaration.precedesFunctions d = true := by
    intro d hd
    rcases List.mem_append.1 hd with hd | hd
    · exact List.mem_takeWhile_imp hd
    · obtain ⟨sig, _, rfl⟩ := List.mem_map.1 hd
      rfl
  -- whatever comes next, a function would stand before it
  have rest : ∀ ds : List Declaration,
      ds = base.dropWhile Declaration.precedesFunctions ++
        pairs.flatMap (fun x => [.procedure x.1, .implementation x.2]) →
      ds.takeWhile Declaration.precedesFunctions = [] ∧
        ds.dropWhile Declaration.precedesFunctions = ds := by
    rintro ds rfl
    cases hdrop : base.dropWhile Declaration.precedesFunctions with
    | nil =>
      rw [List.nil_append]
      exact not_precedes_pairs pairs
    | cons d ds =>
      have hd : ¬d.precedesFunctions := by
        have := List.dropWhile_get_zero_not Declaration.precedesFunctions base (by simp [hdrop])
        simpa [hdrop] using this
      simp [hd]
  obtain ⟨htake, hdrop⟩ := rest _ rfl
  have split : declarationsWith base sigs pairs =
      (base.takeWhile Declaration.precedesFunctions ++ sigs.map Declaration.function) ++
        (base.dropWhile Declaration.precedesFunctions ++
          pairs.flatMap fun x => [.procedure x.1, .implementation x.2]) := by
    rw [declarationsWith, List.append_assoc]
  rw [split, List.takeWhile_append_of_pos lead, List.dropWhile_append_of_pos lead, htake, hdrop,
    declarationsWith]
  simp

/-- The functions among the declarations. -/
theorem filterMap_declarationsWith :
    (declarationsWith base sigs pairs).filterMap Declaration.function? =
      (base.takeWhile Declaration.precedesFunctions).filterMap Declaration.function? ++ sigs ++
        (base.dropWhile Declaration.precedesFunctions).filterMap Declaration.function? := by
  have added : (sigs.map Declaration.function).filterMap Declaration.function? = sigs := by
    simp [List.filterMap_map, Function.comp_def, Declaration.function?]
  have none : (pairs.flatMap fun x => [Declaration.procedure x.1, .implementation x.2]).filterMap
      Declaration.function? = [] := by
    rw [List.filterMap_eq_nil_iff]
    intro d hd
    simp only [List.mem_flatMap, List.mem_cons, List.not_mem_nil, or_false] at hd
    obtain ⟨x, -, rfl | rfl⟩ := hd <;> rfl
  simp only [declarationsWith, List.filterMap_append, added, none, List.append_nil,
    List.append_assoc]

/-- Before a function that was added there are only declarations that precede functions. -/
theorem precedes_of_declarationsWith {sig : FunctionSig}
    (new : .function sig ∉ base) {lead rest : List Declaration}
    (h : declarationsWith base sigs pairs = lead ++ .function sig :: rest) :
    ∀ d ∈ lead, Declaration.precedesFunctions d = true := by
  have preceding : ∀ d ∈ base.takeWhile Declaration.precedesFunctions ++
      sigs.map Declaration.function, Declaration.precedesFunctions d = true := by
    intro d hd
    rcases List.mem_append.1 hd with hd | hd
    · exact List.mem_takeWhile_imp hd
    · obtain ⟨sig, _, rfl⟩ := List.mem_map.1 hd
      rfl
  rw [declarationsWith, ← List.append_assoc] at h
  rcases List.append_eq_append_iff.1 h with ⟨ds, rfl, hrest⟩ | ⟨ds, heq, -⟩
  · -- then the function would stand in the rest of the declarations
    have mem : Declaration.function sig ∈ base.dropWhile Declaration.precedesFunctions ++
        pairs.flatMap fun x => [.procedure x.1, .implementation x.2] := by
      rw [hrest]
      exact List.mem_append.2 (.inr List.mem_cons_self)
    rcases List.mem_append.1 mem with mem | mem
    · exact absurd (List.dropWhile_subset _ mem) new
    · simp at mem
  · intro d hd
    refine preceding d ?_
    rw [heq]
    exact List.mem_append.2 (.inl hd)

end Declarations

theorem Program.Declares.sublist {p q : Program} {sigs : List FunctionSig} (h : p.Declares sigs q) :
    p.declarations.Sublist q.declarations := by
  rw [h.declarations_eq]
  calc p.declarations
    _ = p.declarations.takeWhile Declaration.precedesFunctions ++
        p.declarations.dropWhile Declaration.precedesFunctions :=
      List.takeWhile_append_dropWhile.symm
    List.Sublist _ _ := (List.sublist_append_right _ _).append_left _

/-! ## Steps -/

namespace Ledger

variable {input : Program} {log : List Obligation} {l m n : Ledger}

/-- Steps that grant no request make no entry. -/
theorem Steps.entries_eq (hinput : input.Closed) (h : Steps input log l m) (hl : l.Assembled input)
    (none : log = []) : m.entries = l.entries := by
  induction h with
  | refl l => rfl
  | step h last ih =>
    obtain ⟨hlog, hlast⟩ := List.append_eq_nil_iff.1 none
    rw [← ih hl hlog]
    rcases last.effect hinput (h.assembled hinput hl) with
      ⟨entries, -⟩ | ⟨o, _, _, _, heq, -⟩
    · exact entries
    · rw [hlast] at heq
      cases heq

/-- What a step declares: functions in their place, and an obligation at the end. -/
theorem Step.declares (hinput : input.Closed) (h : Step input log l m) (hl : l.Assembled input) :
    ∃ q sigs, l.program.Declares sigs q ∧
      (m.program = q ∨ ∃ d, m.program = q.adding d) := by
  rcases h.effect hinput hl with ⟨-, -, sigs, declares⟩ |
    ⟨_, d, q, sigs, -, -, -, -, declares, program_eq, -⟩
  · exact ⟨_, sigs, declares, .inl rfl⟩
  · exact ⟨q, sigs, declares, .inr ⟨d, program_eq⟩⟩

/-- The order of declarations is kept. -/
theorem Steps.sublist (hinput : input.Closed) (h : Steps input log l m) (hl : l.Assembled input) :
    l.program.declarations.Sublist m.program.declarations := by
  induction h with
  | refl l => exact List.Sublist.refl _
  | step h last ih =>
    obtain ⟨q, sigs, declares, heq⟩ := last.declares hinput (h.assembled hinput hl)
    refine (ih hl).trans (declares.sublist.trans ?_)
    rcases heq with rfl | ⟨d, heq⟩
    · exact List.Sublist.refl _
    · rw [heq]
      exact List.sublist_append_left _ _

theorem Steps.offers (hinput : input.Closed) (h : Steps input log l m) (hl : l.Assembled input)
    {wanted : List FunctionSig} (offers : l.program.Offers wanted) : m.program.Offers wanted := by
  induction h with
  | refl l => exact offers
  | step h last ih =>
    obtain ⟨q, sigs, declares, heq⟩ := last.declares hinput (h.assembled hinput hl)
    have later := (ih hl offers).declares declares
    rcases heq with rfl | ⟨d, heq⟩
    · exact later
    · rw [heq, Program.Offers, functions_adding]
      exact later

/-- The predicates of an obligation stay the same. -/
theorem Steps.predicates_eq (hinput : input.Closed) (h : Steps input log l m)
    (hl : l.Assembled input) {o : Obligation} (hf : o.first ∈ l.actionRefs)
    (hs : o.second ∈ l.actionRefs) : m.predicates o = l.predicates o := by
  have sound := hl.sound hinput
  rw [predicates, predicates, h.ownership_eq, action_eq h.prefix_actions hf,
    action_eq h.prefix_actions hs]
  exact disjointnessSignatures_extends sound.closed (sound.validIn (action_mem hf))
    (sound.validIn (action_mem hs)) (h.continues hinput hl).grows

/-! ## Entries and their predicates -/

/-- The preconditions of an entry that come from neither gate. -/
def ownRequires (l : Ledger) (x : Obligation × ProcRef) : List ExprRef :=
  (l.program.procedure x.2).ownRequires (l.action x.1.first) (l.action x.1.second)

/-- An entry is about registered actions, and its clauses call declared predicates. -/
structure Stands (l : Ledger) (x : Obligation × ProcRef) : Prop where
  first : x.1.first ∈ l.actionRefs
  second : x.1.second ∈ l.actionRefs
  procedure : l.program.HasProcedure x.2
  offers : l.program.Offers (l.predicates x.1)
  clauses : l.program.CallsClauses l.ownership (l.action x.1.first) (l.action x.1.second)
    (l.program.procedure x.2)

theorem Steps.stands (hinput : input.Closed) (h : Steps input log l m) (hl : l.Assembled input)
    {x : Obligation × ProcRef} (hx : l.Stands x) : m.Stands x where
  first := actionRefs_subset h.prefix_actions hx.first
  second := actionRefs_subset h.prefix_actions hx.second
  procedure := (h.continues hinput hl).grows.within.hasProcedure hx.procedure
  offers := by
    rw [h.predicates_eq hinput hl hx.first hx.second]
    exact h.offers hinput hl hx.offers
  clauses := by
    have sound := hl.sound hinput
    have grows := (h.continues hinput hl).grows
    rw [h.ownership_eq, action_eq h.prefix_actions hx.first, action_eq h.prefix_actions hx.second,
      grows.procedure_eq x.2 hx.procedure]
    exact hx.clauses.grows sound.closed (sound.validIn (action_mem hx.first))
      (sound.validIn (action_mem hx.second)) grows
      (sound.closed.procedures _ (procedure_mem hx.procedure))

/-- A new entry stands. -/
theorem stands_entered (hinput : input.Closed) (hl : l.Assembled input) {o : Obligation}
    {r : ProcRef} {q : Program} (new : o ∉ l.entries.map Prod.fst) (hf : o.first ∈ l.actionRefs)
    (hs : o.second ∈ l.actionRefs)
    (run : (addObligation l.ownership o.kind (l.action o.first) (l.action o.second)).run l.program =
      (.ok r, q)) :
    Stands { l with program := q, entries := l.entries ++ [(o, r)] } (o, r) := by
  have sound := hl.sound hinput
  have first := sound.validIn (action_mem hf)
  have second := sound.validIn (action_mem hs)
  have step : Step input [o] l _ := .entered new hf hs run
  have predicates_eq := step.steps.predicates_eq hinput hl hf hs
  obtain ⟨hpq, -, parts⟩ := (attempts_obligationParts sound.closed o.kind first second).of_run run
  have clauses := parts.callsClauses sound.closed first second hpq
  obtain ⟨q', d, -, offers, rfl, rfl⟩ := declares_addObligation sound.closed first second run
  refine ⟨hf, hs, ?_, ?_, clauses⟩
  · show q'.procedures.size < (q'.procedures.push d.procedure).size
    simp
  · rw [predicates_eq]
    show Program.Offers (q'.adding d) _
    rw [Program.Offers, functions_adding]
    exact offers

/-- The declarations are those of the input, the predicates `sigs` and the obligations `pairs`. Each
predicate belongs to an entry, and every entry stands. -/
structure Accounted (input : Program) (l : Ledger) (sigs : List FunctionSig)
    (pairs : List (ProcRef × ImplRef)) : Prop where
  assembled : l.Assembled input
  declarations_eq :
    l.program.declarations = declarationsWith input.sharedBase.declarations sigs pairs
  pairs_eq : pairs.map Prod.fst = l.entries.map Prod.snd
  nodup : (sigs.map FunctionSig.name).Nodup
  wanted : ∀ sig ∈ sigs,
    sig.name ∉ input.functionNames ∧ ∃ x ∈ l.entries, sig ∈ l.predicates x.1
  stands : ∀ x ∈ l.entries, l.Stands x

theorem accounted_ofProgram (input : Program) (ownership : Ownership) :
    Accounted input (ofProgram input ownership) [] [] where
  assembled := assembled_ofProgram input ownership
  declarations_eq := declarationsWith_nil.symm
  pairs_eq := rfl
  nodup := List.nodup_nil
  wanted := by simp
  stands := by simp [ofProgram]

section Accounted

variable {sigs : List FunctionSig} {pairs : List (ProcRef × ImplRef)}

/-- The predicates stand together, between functions of the input. -/
theorem Accounted.functions_eq (h : Accounted input l sigs pairs) :
    ∃ before after, input.functions = before ++ after ∧
      l.program.functions = before ++ sigs ++ after := by
  refine ⟨(input.sharedBase.declarations.takeWhile Declaration.precedesFunctions).filterMap
      Declaration.function?, (input.sharedBase.declarations.dropWhile
      Declaration.precedesFunctions).filterMap Declaration.function?, ?_, ?_⟩
  · rw [← List.filterMap_append, List.takeWhile_append_dropWhile]
    exact (functions_sharedBase input).symm
  · rw [functions, h.declarations_eq, filterMap_declarationsWith]

theorem Accounted.mem_functions_iff (h : Accounted input l sigs pairs) {sig : FunctionSig} :
    sig ∈ l.program.functions ↔ sig ∈ input.functions ∨ sig ∈ sigs := by
  obtain ⟨before, after, hinput, hl⟩ := h.functions_eq
  simp only [hinput, hl, List.mem_append]
  tauto

/-- Registered actions declare nothing. -/
theorem Accounted.registers (hinput : input.Closed) (h : Accounted input l sigs pairs)
    (k : Registers input l m) : Accounted input m sigs pairs := by
  have entries := k.steps.entries_eq hinput h.assembled rfl
  refine ⟨k.steps.assembled hinput h.assembled, ?_, ?_, h.nodup, fun sig hsig => ?_, ?_⟩
  · exact (congrArg TopLevel.declarations k.top_eq).trans h.declarations_eq
  · rw [entries]
    exact h.pairs_eq
  · obtain ⟨new, x, hx, hmem⟩ := h.wanted sig hsig
    have stands := h.stands x hx
    refine ⟨new, x, by rwa [entries], ?_⟩
    rwa [k.steps.predicates_eq hinput h.assembled stands.first stands.second]
  · rw [entries]
    exact fun x hx => k.steps.stands hinput h.assembled (h.stands x hx)

/-- One more entry declares the predicates that were missing. -/
theorem Accounted.entered (hinput : input.Closed) (h : Accounted input l sigs pairs)
    {o : Obligation} {r : ProcRef} {q : Program} (new : o ∉ l.entries.map Prod.fst)
    (hf : o.first ∈ l.actionRefs) (hs : o.second ∈ l.actionRefs)
    (run : (addObligation l.ownership o.kind (l.action o.first) (l.action o.second)).run l.program =
      (.ok r, q)) :
    ∃ sigs' pairs',
      Accounted input { l with program := q, entries := l.entries ++ [(o, r)] } sigs' pairs' := by
  have sound := h.assembled.sound hinput
  have step : Step input [o] l { l with program := q, entries := l.entries ++ [(o, r)] } :=
    .entered new hf hs run
  have stands := stands_entered hinput h.assembled new hf hs run
  have kept := fun {o : Obligation} => step.steps.predicates_eq (o := o) hinput h.assembled
  have assembled := step.assembled hinput h.assembled
  have old := fun x hx => step.steps.stands hinput h.assembled (h.stands x hx)
  obtain ⟨q', d, ⟨added, hadded, declares⟩, -, rfl, rfl⟩ := declares_addObligation sound.closed
    (sound.validIn (action_mem hf)) (sound.validIn (action_mem hs)) run
  have unknown : ∀ sig ∈ added, ∀ f ∈ l.program.functions, f.name ≠ sig.name :=
    fun sig hsig f hmem heq => declares.new sig hsig (List.mem_map.2 ⟨f, hmem, heq⟩)
  refine ⟨sigs ++ added, pairs ++ [(⟨q'.procedures.size⟩, ⟨q'.implementations.size⟩)], assembled,
    ?_, ?_, ?_, List.forall_mem_append.2 ⟨fun sig hsig => ?_, fun sig hsig => ?_⟩, ?_⟩
  · rw [← declarationsWith_append, ← declarationsWith_insert, ← h.declarations_eq,
      ← declares.declarations_eq]
    rfl
  · rw [List.map_append, List.map_append, h.pairs_eq]
    rfl
  · rw [List.map_append, List.nodup_append]
    refine ⟨h.nodup, declares.nodup, ?_⟩
    rintro _ hx _ hy rfl
    obtain ⟨f, hmem, rfl⟩ := List.mem_map.1 hx
    obtain ⟨sig, hsig, heq⟩ := List.mem_map.1 hy
    exact unknown sig hsig f (h.mem_functions_iff.2 (.inr hmem)) heq.symm
  · obtain ⟨hnew, x, hx, hmem⟩ := h.wanted sig hsig
    have hx' := h.stands x hx
    refine ⟨hnew, x, List.mem_append.2 (.inl hx), ?_⟩
    rwa [kept hx'.first hx'.second]
  · refine ⟨fun hold => ?_, _, List.mem_append.2 (.inr (List.mem_singleton_self _)), ?_⟩
    · obtain ⟨f, hmem, heq⟩ := List.mem_map.1 hold
      exact unknown sig hsig f (h.mem_functions_iff.2 (.inl hmem)) heq
    · rw [kept hf hs]
      exact hadded sig hsig
  · exact List.forall_mem_append.2 ⟨old, List.forall_mem_singleton.2 stands⟩

theorem Accounted.enters (hinput : input.Closed) (h : Accounted input l sigs pairs)
    (k : Enters l m) : ∃ sigs' pairs', Accounted input m sigs' pairs' := by
  induction k with
  | refl => exact ⟨sigs, pairs, h⟩
  | entered _ new hf hs run ih =>
    obtain ⟨_, _, h⟩ := ih
    exact h.entered hinput new hf hs run

end Accounted

/-! ## Calls that succeed -/

/-- Calls that all succeed lead from one ledger to the other. -/
inductive Advances (input : Program) (l : Ledger) : Ledger → Prop where
  | refl : Advances input l l
  | call {m n : Ledger} (h : Advances input l m) (c : Call) (hc : c.Accepts m)
    (run : (c.perform input).run m = (.ok (), n)) : Advances input l n

/-- A call that succeeds registers actions or enters obligations. -/
theorem registers_or_enters {c : Call} (hc : c.Accepts l)
    (run : (c.perform input).run l = (.ok (), m)) : Registers input l m ∨ Enters l m := by
  cases c with
  | register =>
    have registers : Registers input l ((register input).run l).2 := registers_register l
    have run' : (register input).run l = (.ok (), m) := run
    rw [run'] at registers
    exact .inl registers
  | enter o =>
    have run' : (request o).run l = (.ok (), m) := run
    refine .inr (enters_of_requests (List.forall_mem_singleton.2 hc) ?_)
    rw [List.forM, bind_run, run']
    rfl
  | enterAll =>
    exact .inr (enters_of_requests (fun o ho => ⟨(mem_wanted.1 ho).1, (mem_wanted.1 ho).2.1⟩) run)

theorem Advances.steps (h : Advances input l m) : ∃ log, Steps input log l m := by
  induction h with
  | refl => exact ⟨[], .refl l⟩
  | call _ c hc run ih =>
    obtain ⟨log, steps⟩ := ih
    have last : Steps input _ _ _ := steps_call c hc
    rw [Call.after, run] at last
    exact ⟨_, steps.trans last⟩

/-- What succeeds keeps the account. -/
theorem Advances.accounted (hinput : input.Closed) {ownership : Ownership}
    (h : Advances input (ofProgram input ownership) l) :
    ∃ sigs pairs, Accounted input l sigs pairs := by
  induction h with
  | refl => exact ⟨[], [], accounted_ofProgram input ownership⟩
  | call _ c hc run ih =>
    obtain ⟨sigs, pairs, h⟩ := ih
    rcases registers_or_enters hc run with k | k
    · exact ⟨sigs, pairs, h.registers hinput k⟩
    · exact h.enters hinput k

/-! ## Declared once, as they are used -/

/-- The predicate for `n` variables of the domain `d` is called by a precondition that comes from
neither gate. -/
def Occurs (l : Ledger) (d : String) (n : Nat) : Prop :=
  ∃ x ∈ l.entries, ∃ e ∈ l.ownRequires x, ∃ args,
    l.program.expr e = .call (Ownership.predicateName d n) args ∧ args.length = n

/-- The functions `sigs` are what the ledger has declared, and they are the predicates that occur. -/
structure DeclaresPredicates (input : Program) (l : Ledger) (sigs : List FunctionSig) : Prop where
  /-- The functions of the input are still there, in order. -/
  functions_eq : ∃ before after, input.functions = before ++ after ∧
    l.program.functions = before ++ sigs ++ after
  nodup : (sigs.map FunctionSig.name).Nodup
  new : ∀ sig ∈ sigs, sig.name ∉ input.functionNames
  occurs_iff : ∀ d n, (∃ sig ∈ sigs, sig.name = Ownership.predicateName d n) ↔ l.Occurs d n
  /-- All arguments have the type of the domain. -/
  signature : ∀ sig ∈ sigs, ∃ d n ty,
    sig = ⟨Ownership.predicateName d n, List.replicate n ty, .bool⟩ ∧
      (∃ x ∈ input.vars, x.domain = some d) ∧ ∀ x ∈ input.vars, x.domain = some d → x.ty = ty
  /-- Each use is a use of one of them, for variables of the types of its arguments. -/
  fits : ∀ x ∈ l.entries, ∀ e ∈ l.ownRequires x, ∀ f args, l.program.expr e = .call f args →
    ∃ sig ∈ sigs, sig.name = f ∧
      ∃ vs : List VarRef, args = vs.map .var ∧ vs.map l.program.tyOf = sig.args
  /-- They stand where functions belong. -/
  precedes : ∀ sig ∈ sigs, ∀ lead rest, l.program.declarations = lead ++ .function sig :: rest →
    ∀ d ∈ lead, Declaration.precedesFunctions d = true
  /-- All other declarations stand as they did, and the obligations behind them. -/
  declarations_eq : ∃ pairs, pairs.map Prod.fst = l.entries.map Prod.snd ∧
    l.program.declarations = declarationsWith input.sharedBase.declarations sigs pairs

section Accounted

variable {sigs : List FunctionSig} {pairs : List (ProcRef × ImplRef)}

/-- A predicate of an entry is a predicate for some variables of one domain. -/
theorem mem_predicates {o : Obligation} {sig : FunctionSig} :
    sig ∈ l.predicates o ↔ ∃ d ∈ l.ownership.domains, ∃ vs,
      domainScope l.program (l.action o.first) (l.action o.second) d = vs ∧ vs ≠ [] ∧
        disjointnessSignature l.program d vs = sig := by
  simp [predicates, disjointnessSignatures, and_assoc]

/-- A clause calls the predicate for all variables of one domain. -/
theorem mem_disjointnessClauses {p : Program} {o : Ownership} {first second : AtomicAction}
    {e : Expr} : e ∈ disjointnessClauses p o first second ↔ ∃ d ∈ o.domains, ∃ vs,
      domainScope p first second d = vs ∧ vs ≠ [] ∧
        .call (Ownership.predicateName d vs.length) (vs.map .var) = e := by
  simp [disjointnessClauses, and_assoc]

/-- The types of the arguments of a predicate. -/
theorem Accounted.types_eq (hinput : input.Closed) (h : Accounted input l sigs pairs)
    (domains : ∀ x ∈ input.vars, ∀ y ∈ input.vars, x.domain.isSome → x.domain = y.domain →
      x.ty = y.ty)
    {x : Obligation × ProcRef} (hx : x ∈ l.entries) {d : String} {vs : List VarRef}
    (scope : domainScope l.program (l.action x.1.first) (l.action x.1.second) d = vs)
    (nonempty : vs ≠ []) :
    ∃ ty, vs.map l.program.tyOf = List.replicate vs.length ty ∧
      (∃ y ∈ input.vars, y.domain = some d) ∧ ∀ y ∈ input.vars, y.domain = some d → y.ty = ty := by
  have stands := h.stands x hx
  have sound := h.assembled.sound hinput
  have origin : ∀ v ∈ vs, ∃ y ∈ input.vars, y.domain = some d ∧ l.program.tyOf v = y.ty := by
    intro v hv
    rw [← scope] at hv
    exact sound.exists_var_of_mem_domainScope hinput (action_mem stands.first)
      (action_mem stands.second) hv
  obtain ⟨v, hv⟩ := List.exists_mem_of_ne_nil vs nonempty
  obtain ⟨y, hy, hdomain, -⟩ := origin v hv
  have same : ∀ z ∈ input.vars, z.domain = some d → z.ty = y.ty := fun z hz hd =>
    domains z hz y hy (by simp [hd]) (hd.trans hdomain.symm)
  refine ⟨y.ty, List.eq_replicate_iff.2 ⟨by simp, fun t ht => ?_⟩, ⟨y, hy, hdomain⟩, same⟩
  obtain ⟨w, hw, rfl⟩ := List.mem_map.1 ht
  obtain ⟨z, hz, hd, heq⟩ := origin w hw
  rw [heq]
  exact same z hz hd

/-- A predicate that an entry calls is among those that were declared. -/
theorem Accounted.exists_of_call (h : Accounted input l sigs pairs)
    (names : ∀ name ∈ input.functionNames, ∀ domain arity,
      name ≠ Ownership.predicateName domain arity)
    {x : Obligation × ProcRef} (hx : x ∈ l.entries) {e : ExprRef} (he : e ∈ l.ownRequires x)
    {f : String} {args : List Expr} (call : l.program.expr e = .call f args) :
    ∃ d vs, f = Ownership.predicateName d vs.length ∧ args = vs.map .var ∧
      domainScope l.program (l.action x.1.first) (l.action x.1.second) d = vs ∧ vs ≠ [] ∧
      ∃ sig ∈ sigs, sig.name = f := by
  have stands := h.stands x hx
  obtain ⟨d, hd, vs, scope, nonempty, heq⟩ :=
    mem_disjointnessClauses.1 ((stands.clauses f args).1 ⟨e, he, call⟩)
  obtain ⟨rfl, rfl⟩ := Expr.call.inj heq
  have wanted : disjointnessSignature l.program d vs ∈ l.predicates x.1 :=
    mem_predicates.2 ⟨d, hd, vs, scope, nonempty, rfl⟩
  obtain ⟨sig, hsig, name⟩ := List.mem_map.1 (stands.offers _ wanted)
  refine ⟨d, vs, rfl, rfl, scope, nonempty, sig, ?_, name⟩
  rcases h.mem_functions_iff.1 hsig with hold | hnew
  · exact absurd name (names sig.name (List.mem_map.2 ⟨sig, hold, rfl⟩) _ _)
  · exact hnew

/-- Where everything is accounted for, the new functions are the predicates that occur. -/
theorem Accounted.declaresPredicates (hinput : input.Closed) (h : Accounted input l sigs pairs)
    (domains : ∀ x ∈ input.vars, ∀ y ∈ input.vars, x.domain.isSome → x.domain = y.domain →
      x.ty = y.ty)
    (names : ∀ name ∈ input.functionNames, ∀ domain arity,
      name ≠ Ownership.predicateName domain arity) :
    l.DeclaresPredicates input sigs := by
  -- each new function is the predicate for the variables of one domain of an entry
  have origin : ∀ sig ∈ sigs, ∃ x ∈ l.entries, ∃ d ∈ l.ownership.domains, ∃ vs,
      domainScope l.program (l.action x.1.first) (l.action x.1.second) d = vs ∧ vs ≠ [] ∧
        disjointnessSignature l.program d vs = sig := by
    intro sig hsig
    obtain ⟨-, x, hx, hmem⟩ := h.wanted sig hsig
    exact ⟨x, hx, mem_predicates.1 hmem⟩
  have signature : ∀ sig ∈ sigs, ∃ d n ty,
      sig = ⟨Ownership.predicateName d n, List.replicate n ty, .bool⟩ ∧
        (∃ x ∈ input.vars, x.domain = some d) ∧
          ∀ x ∈ input.vars, x.domain = some d → x.ty = ty := by
    intro sig hsig
    obtain ⟨x, hx, d, -, vs, scope, nonempty, rfl⟩ := origin sig hsig
    obtain ⟨ty, types, known, same⟩ := h.types_eq hinput domains hx scope nonempty
    refine ⟨d, vs.length, ty, ?_, known, same⟩
    rw [← types]
    rfl
  refine ⟨h.functions_eq, h.nodup, fun sig hsig => (h.wanted sig hsig).1, fun d n => ⟨?_, ?_⟩,
    signature, fun x hx e he f args call => ?_, fun sig hsig lead rest heq => ?_,
    ⟨pairs, h.pairs_eq, h.declarations_eq⟩⟩
  · rintro ⟨sig, hsig, name⟩
    obtain ⟨x, hx, d', hd, vs, scope, nonempty, rfl⟩ := origin sig hsig
    obtain ⟨rfl, rfl⟩ := Ownership.predicateName_injective name
    obtain ⟨e, he, call⟩ := ((h.stands x hx).clauses _ _).2
      (mem_disjointnessClauses.2 ⟨d', hd, vs, scope, nonempty, rfl⟩)
    exact ⟨x, hx, e, he, _, call, by simp⟩
  · rintro ⟨x, hx, e, he, args, call, -⟩
    obtain ⟨-, -, -, -, -, -, sig, hsig, name⟩ := h.exists_of_call names hx he call
    exact ⟨sig, hsig, name⟩
  · obtain ⟨d, vs, rfl, rfl, scope, nonempty, sig, hsig, name⟩ := h.exists_of_call names hx he call
    refine ⟨sig, hsig, name, vs, rfl, ?_⟩
    -- the signature was fixed by the first use, for the same domain and arity
    obtain ⟨ty, types, ⟨y, hy, hd⟩, same⟩ := h.types_eq hinput domains hx scope nonempty
    obtain ⟨d', n', ty', rfl, -, same'⟩ := signature sig hsig
    obtain ⟨rfl, rfl⟩ := Ownership.predicateName_injective name
    rw [types, ← same y hy hd, ← same' y hy hd]
  · rw [h.declarations_eq] at heq
    refine precedes_of_declarationsWith (fun hmem => (h.wanted sig hsig).1 ?_) heq
    rw [functionNames, ← functions_sharedBase]
    exact List.mem_map.2 ⟨sig, List.mem_filterMap.2 ⟨_, hmem, rfl⟩, rfl⟩

end Accounted

/-- Let the variables of one domain have one type, and no function of the input have the name of a
predicate. After any calls that all succeed, the functions that were declared are the predicates that
occur in generated preconditions, each once and as it is used; they stand where functions belong. The
order of declarations never changes, and a name belongs to one domain and arity. -/
theorem predicates_declared_once {input : Program} (hinput : input.Closed) {ownership : Ownership}
    (domains : ∀ x ∈ input.vars, ∀ y ∈ input.vars, x.domain.isSome → x.domain = y.domain →
      x.ty = y.ty)
    (names : ∀ name ∈ input.functionNames, ∀ domain arity,
      name ≠ Ownership.predicateName domain arity)
    {l : Ledger} (h : Advances input (ofProgram input ownership) l) :
    (∃ sigs, l.DeclaresPredicates input sigs) ∧
      (∀ m, Advances input l m → l.program.declarations.Sublist m.program.declarations) ∧
      ∀ d n d' n', Ownership.predicateName d n = Ownership.predicateName d' n' →
        d = d' ∧ n = n' := by
  obtain ⟨sigs, pairs, accounted⟩ := h.accounted hinput
  refine ⟨⟨sigs, accounted.declaresPredicates hinput domains names⟩, fun m hm => ?_,
    fun _ _ _ _ heq => Ownership.predicateName_injective heq⟩
  obtain ⟨log, steps⟩ := hm.steps
  exact steps.sublist hinput accounted.assembled

/-- The deposit is registered and all obligations about it are entered. They share one predicate, for
the balance and the amounts of both deposits. -/
theorem predicates_declared_once_deposit :
    ∃ l sigs, Advances Account.tagged (ofProgram Account.tagged (.ofProgram Account.tagged)) l ∧
      l.entries.length = 3 ∧ sigs = [⟨"Disjoint_money_3", [.int, .int, .int], .bool⟩] ∧
      l.DeclaresPredicates Account.tagged sigs := by
  have registered : (register Account.tagged).run
      (ofProgram Account.tagged (.ofProgram Account.tagged)) = (.ok (), Account.ledger) :=
    run_eq_of_ok (by decide +kernel)
  -- one evaluation for all that is asked of the run
  have outcome : (enterAll.run Account.ledger).1 = .ok () ∧
      (enterAll.run Account.ledger).2.entries.length = 3 ∧
      (enterAll.run Account.ledger).2.program.functions =
        [⟨"Disjoint_money_3", [.int, .int, .int], .bool⟩] := by decide +kernel
  obtain ⟨succeeds, length, functions⟩ := outcome
  have entered : enterAll.run Account.ledger = (.ok (), (enterAll.run Account.ledger).2) :=
    run_eq_of_ok succeeds
  have advances : Advances Account.tagged
      (ofProgram Account.tagged (.ofProgram Account.tagged)) (enterAll.run Account.ledger).2 :=
    .call (.call .refl .register trivial registered) .enterAll trivial entered
  have none : Account.tagged.functions = [] := by decide +kernel
  obtain ⟨⟨sigs, declared⟩, -⟩ := predicates_declared_once Account.closed_tagged
    (by decide +kernel) (by simp [functionNames, none]) advances
  refine ⟨_, sigs, advances, length, ?_, declared⟩
  obtain ⟨before, after, hinput, hl⟩ := declared.functions_eq
  rw [none, eq_comm, List.append_eq_nil_iff] at hinput
  rw [← functions, hl, hinput.1, hinput.2]
  simp

end Ledger

end AtomicMovers
