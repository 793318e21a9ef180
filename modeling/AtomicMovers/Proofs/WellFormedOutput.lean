import AtomicMovers.Pass
import AtomicMovers.Proofs.RequestOrder
import AtomicMovers.Proofs.WellFormedObligations

/-!
# Generated programs are well formed

From a well-formed input the pass makes a well-formed program (`obligations_wellFormed`): functions
are still declared once, and every procedure has a well-formed contract and one well-formed
implementation.

The program that obligations are entered in has all that the input declares, so registered actions
are well formed in it. What is declared on the way are predicates for disjointness clauses, each by
the obligation that comes first. They fit all later ones, since the name of a predicate tells domain
and arity (`Ownership.predicateName_injective`) and a domain has one type (`WellFormedRun.declared`).
-/

namespace AtomicMovers

open Program

/-! ## Names of predicates -/

/-- Where a character does not occur before it, a text can be split at it in one way. -/
theorem append_cons_injective {α : Type} {c : α} {xs ys xs' ys' : List α} (h : c ∉ xs)
    (h' : c ∉ xs') (heq : xs ++ c :: ys = xs' ++ c :: ys') : xs = xs' ∧ ys = ys' := by
  induction xs generalizing xs' with
  | nil =>
    cases xs' with
    | nil => exact ⟨rfl, (List.cons.inj heq).2⟩
    | cons x xs' => exact absurd (List.mem_cons.2 (.inl (List.cons.inj heq).1)) h'
  | cons x xs ih =>
    cases xs' with
    | nil => exact absurd (List.mem_cons.2 (.inl (List.cons.inj heq).1.symm)) h
    | cons x' xs' =>
      obtain ⟨rfl, rest⟩ := List.cons.inj heq
      obtain ⟨rfl, hys⟩ := ih (fun hc => h (List.mem_cons_of_mem _ hc))
        (fun hc => h' (List.mem_cons_of_mem _ hc)) rest
      exact ⟨rfl, hys⟩

/-- The name of a predicate tells the domain and the arity. -/
theorem Ownership.predicateName_injective {d d' : String} {n n' : Nat}
    (h : predicateName d n = predicateName d' n') : d = d' ∧ n = n' := by
  have noBar (k : Nat) : '_' ∉ (Nat.toDigits 10 k).reverse := by
    intro hmem
    have := Nat.isDigit_of_mem_toDigits (by decide) (by decide) (List.mem_reverse.1 hmem)
    exact absurd this (by decide)
  -- read from the end, a name starts with the digits of the arity
  have texts := congrArg (fun s : String => s.toList.reverse) h
  simp only [predicateName, Nat.toString_eq_repr, String.toList_append, Nat.toList_repr,
    List.reverse_append] at texts
  have bar : "_".toList.reverse = ['_'] := by decide
  simp only [bar, List.singleton_append] at texts
  obtain ⟨digits, rest⟩ := append_cons_injective (noBar n) (noBar n') texts
  have domains := List.reverse_injective (List.append_cancel_right rest)
  have arities := congrArg (Nat.ofDigitChars 10 · 0) (List.reverse_injective digits)
  simp only [Nat.ofDigitChars_toDigits (b := 10) (by decide) (by decide)] at arities
  exact ⟨String.toList_inj.1 domains, arities⟩

/-! ## Declarations -/

namespace Program

theorem functions_sharedBase (p : Program) : p.sharedBase.functions = p.functions := by
  have globals : (p.globals.map Declaration.global).filterMap Declaration.function? = [] := by
    simp [List.filterMap_map, Function.comp_def, Declaration.function?]
  show (p.declarations.filter Declaration.isShared ++ p.globals.map Declaration.global).filterMap
    Declaration.function? = _
  rw [List.filterMap_append, globals, List.append_nil, List.filterMap_filter]
  refine List.filterMap_congr fun d _ => ?_
  cases d <;> rfl

/-- Globals and constants of a program stay declared without its procedures. -/
theorem mem_namedRefs_sharedBase {p : Program} {v : VarRef} (h : v ∈ p.namedRefs) :
    v ∈ p.sharedBase.namedRefs := by
  obtain ⟨d, hd, hv⟩ := List.mem_filterMap.1 h
  refine List.mem_filterMap.2 ⟨d, List.mem_append.2 ?_, hv⟩
  cases d with
  | global w =>
    exact .inr (List.mem_map.2 ⟨w, List.mem_filterMap.2 ⟨_, hd, rfl⟩, rfl⟩)
  | constant w => exact .inl (List.mem_filter.2 ⟨hd, rfl⟩)
  | _ => cases hv

theorem var_mem {p : Program} {v : VarRef} (h : p.HasVar v) : p.var v ∈ p.vars := by
  have hv : v.index < p.vars.size := h
  simp [Program.var, hv]

end Program

/-! ## Types of candidates -/

/-- Candidates of a domain have the type of some variable of the input that is annotated with it. -/
theorem Assembly.Sound.exists_var_of_mem_domainScope {input p : Program}
    {actions : List AtomicAction} (hinput : input.Closed)
    (h : Assembly.Sound input.sharedBase p actions) {first second : AtomicAction}
    (hf : first ∈ actions) (hs : second ∈ actions) {d : String} {v : VarRef}
    (hv : v ∈ domainScope p first second d) :
    ∃ x ∈ input.vars, x.domain = some d ∧ (p.var v).ty = x.ty := by
  obtain ⟨u, hu, rfl⟩ := List.mem_map.1 hv
  obtain ⟨hu, domain⟩ := List.mem_filter.1 hu
  -- the domain is looked up on a variable of the input, which the candidate is a copy of
  have candidate : input.HasVar u.1 ∧ p.tyOf u.2 = p.tyOf u.1 := by
    rcases List.mem_append.1 hu with hu | hu
    · obtain ⟨w, hw, rfl⟩ := List.mem_map.1 hu
      refine ⟨?_, rfl⟩
      rcases List.mem_append.1 hw with hw | hw
      · rw [h.grows.globals_eq] at hw
        exact hinput.sharedBase.hasVar_of_mem_globals hw
      · exact (h.built first hf).vars w (Replica.inputs_subset _ w hw)
    · have built := h.built second hs
      obtain ⟨made, _, _, hm⟩ := built.mirrors
      have zipped := hm.inputs_zip u hu
      exact ⟨built.vars u.1 (List.of_mem_zip zipped).1, built.tyOf_eq h.grows u zipped⟩
  have same : p.var u.1 = input.var u.1 := h.grows.var_eq u.1 candidate.1
  rw [same] at domain
  refine ⟨input.var u.1, var_mem candidate.1, by simpa using domain, ?_⟩
  rw [← same]
  exact candidate.2

/-! ## Obligations about well-formed actions -/

namespace Ledger

/-- From a ledger `l` with the actions of a well-formed input, obligations were entered up to
`m`. -/
structure WellFormedRun (numeric : Ty → Bool) (input : Program) (l m : Ledger) : Prop where
  closed : input.Closed
  wellFormed : input.WellFormed numeric
  assembled : l.Assembled input
  madeFrom : ∀ a ∈ l.actions.toList, a.MadeFrom input
  top_eq : l.program.top = input.sharedBase.top
  ready : l.Ready
  progress : Progress l m

namespace WellFormedRun

variable {numeric : Ty → Bool} {input : Program} {l m : Ledger}
  (h : WellFormedRun numeric input l m)

include h

theorem sound : Assembly.Sound input.sharedBase l.program l.actions.toList :=
  h.assembled.sound h.closed

theorem soundAfter : Assembly.Sound input.sharedBase m.program l.actions.toList :=
  h.sound.extends h.progress.grows h.progress.closed

/-! ### What is declared -/

theorem functions_eq : l.program.functions = input.functions := by
  have declarations : l.program.declarations = input.sharedBase.declarations :=
    congrArg TopLevel.declarations h.top_eq
  rw [← functions_sharedBase input, functions, functions, declarations]

theorem namedRefs_subset : ∀ v ∈ input.namedRefs, v ∈ m.program.namedRefs := by
  have declarations : l.program.declarations = input.sharedBase.declarations :=
    congrArg TopLevel.declarations h.top_eq
  intro v hv
  rw [h.progress.namedRefs_eq, namedRefs, declarations]
  exact mem_namedRefs_sharedBase hv

theorem functionNames_nodup : m.program.functionNames.Nodup := by
  obtain ⟨new, perm, nodup, origin⟩ := h.progress.functions
  have names := perm.map FunctionSig.name
  rw [List.map_append] at names
  rw [functionNames, names.nodup_iff, List.nodup_append, h.functions_eq]
  refine ⟨h.wellFormed.functions, nodup, ?_⟩
  rintro name hold _ hnew rfl
  obtain ⟨sig, hsig, rfl⟩ := List.mem_map.1 hnew
  refine (origin sig hsig).1 ?_
  rw [functionNames, h.functions_eq]
  exact hold

/-- Whatever is well typed in the input is so in the end. -/
theorem typing_within :
    (input.typing numeric).Within input.HasVar (m.program.typing numeric) := by
  refine Program.typing_within (fun v hv => h.soundAfter.grows.tyOf_eq hv) (fun sig hsig => ?_)
    h.functionNames_nodup
  obtain ⟨new, perm, -⟩ := h.progress.functions
  rw [← h.functions_eq] at hsig
  exact perm.mem_iff.2 (List.mem_append.2 (.inl hsig))

/-! ### Predicates -/

/-- Two predicates of the same name are the same. -/
theorem predicate_eq {o o' : Obligation} (ho : o.first ∈ l.actionRefs ∧ o.second ∈ l.actionRefs)
    (ho' : o'.first ∈ l.actionRefs ∧ o'.second ∈ l.actionRefs) {sig sig' : FunctionSig}
    (hsig : sig ∈ l.predicates o) (hsig' : sig' ∈ l.predicates o') (name : sig.name = sig'.name) :
    sig = sig' := by
  obtain ⟨⟨d, vs⟩, hs, rfl⟩ := List.mem_map.1 hsig
  obtain ⟨⟨d', vs'⟩, hs', rfl⟩ := List.mem_map.1 hsig'
  obtain ⟨rfl, lengths⟩ : d = d' ∧ vs.length = vs'.length := Ownership.predicateName_injective name
  obtain ⟨_, _, scope⟩ := List.mem_map.1 (List.mem_filter.1 hs).1
  obtain ⟨_, _, scope'⟩ := List.mem_map.1 (List.mem_filter.1 hs').1
  cases scope
  cases scope'
  have types : ∀ v ∈ domainScope l.program (l.action o.first) (l.action o.second) d,
      ∀ w ∈ domainScope l.program (l.action o'.first) (l.action o'.second) d,
        (l.program.var v).ty = (l.program.var w).ty := by
    intro v hv w hw
    obtain ⟨x, hx, hdx, hvx⟩ :=
      h.sound.exists_var_of_mem_domainScope h.closed (action_mem ho.1) (action_mem ho.2) hv
    obtain ⟨y, hy, hdy, hwy⟩ :=
      h.sound.exists_var_of_mem_domainScope h.closed (action_mem ho'.1) (action_mem ho'.2) hw
    rw [hvx, hwy]
    exact h.wellFormed.domains x hx y hy (by simp [hdx]) (hdx.trans hdy.symm)
  have args : (domainScope l.program (l.action o.first) (l.action o.second) d).map
        (fun v => (l.program.var v).ty) =
      (domainScope l.program (l.action o'.first) (l.action o'.second) d).map
        fun v => (l.program.var v).ty := by
    refine List.ext_getElem (by simpa using lengths) fun i hi hi' => ?_
    rw [List.getElem_map, List.getElem_map]
    exact types _ (List.getElem_mem _) _ (List.getElem_mem _)
  simp only [disjointnessSignature, args, lengths]

/-- The predicates of an entry are declared as the entry uses them. -/
theorem declared {x : Obligation × ProcRef} (hx : x ∈ m.entries) :
    ∀ sig ∈ l.predicates x.1, sig ∈ m.program.functions := by
  have refs {y : Obligation × ProcRef} (hy : y ∈ m.entries) :
      y.1.first ∈ l.actionRefs ∧ y.1.second ∈ l.actionRefs := by
    obtain ⟨_, _, _, _, _, _, hf, hs, _⟩ := h.progress.made y hy
    exact ⟨hf, hs⟩
  intro sig hsig
  obtain ⟨f, hf, name⟩ := List.mem_map.1 (h.progress.offers x hx sig hsig)
  obtain ⟨new, perm, -, origin⟩ := h.progress.functions
  rcases List.mem_append.1 (perm.mem_iff.1 hf) with hold | hnew
  · -- no function of the input has the name of a predicate
    obtain ⟨s, _, rfl⟩ := List.mem_map.1 hsig
    rw [h.functions_eq] at hold
    exact absurd name (h.wellFormed.predicates f.name (List.mem_map.2 ⟨f, hold, rfl⟩) _ _)
  · obtain ⟨-, y, hy, hfy⟩ := origin f hnew
    rw [← h.predicate_eq (refs hy) (refs hx) hfy hsig name]
    exact hf

/-- The disjointness clauses of an entry call declared predicates. -/
theorem clauses {x : Obligation × ProcRef} (hx : x ∈ m.entries)
    (hf : x.1.first ∈ l.actionRefs) (hs : x.1.second ∈ l.actionRefs) :
    ∀ e ∈ disjointnessClauses l.program l.ownership (l.action x.1.first) (l.action x.1.second),
      e.FormulaOver (m.program.typing numeric) (m.program.namedRefs ++
        ((l.action x.1.first).primary.inputs ++ (l.action x.1.second).shadow.inputs)) := by
  refine List.forall_mem_map.2 fun s hmem => ?_
  obtain ⟨d, _, rfl⟩ := List.mem_map.1 (List.mem_filter.1 hmem).1
  have sig := h.declared hx _ (List.mem_map.2 ⟨_, hmem, rfl⟩)
  generalize hvs : domainScope l.program (l.action x.1.first) (l.action x.1.second) d = vs at *
  have types : vs.map m.program.tyOf = vs.map fun v => (l.program.var v).ty := by
    refine List.map_congr_left fun v hv => h.progress.grows.tyOf_eq ?_
    exact hasVar_of_mem_domainScope h.ready.closed (h.ready.valid _ hf) (h.ready.valid _ hs)
      (hvs ▸ hv)
  refine ⟨?_, fun v hv => ?_⟩
  · rw [Expr.type?, Expr.typeAll?_var, Option.bind_eq_some_iff]
    refine ⟨_, (find?_name_eq_some_iff h.functionNames_nodup).2 ⟨sig, rfl⟩, if_pos ?_⟩
    exact congrArg some types
  · simp only [Expr.free, Expr.mem_freeAll, List.mem_map] at hv
    obtain ⟨_, ⟨w, hw, rfl⟩, hv⟩ := hv
    obtain rfl : v = w := by simpa [Expr.free] using hv
    simp only [List.mem_append]
    refine (mem_of_mem_domainScope (hvs ▸ hw)).imp_left fun hglobal => ?_
    rw [h.progress.namedRefs_eq]
    exact mem_namedRefs_of_mem_globals hglobal

/-! ### Entries -/

theorem wellScoped {a : AtomicAction} (ha : a ∈ l.actions.toList) :
    a.WellScoped (m.program.typing numeric) m.program.namedRefs input.sharedBase :=
  (h.madeFrom a ha).wellScoped h.closed h.wellFormed h.typing_within h.namedRefs_subset

/-- The two actions of an entry can be put together. -/
theorem pair {x : Obligation × ProcRef} (hx : x ∈ m.entries) (hf : x.1.first ∈ l.actionRefs)
    (hs : x.1.second ∈ l.actionRefs) :
    WellFormedPair (m.program.typing numeric) m.program.namedRefs l.program l.ownership
      (l.action x.1.first) (l.action x.1.second) := by
  have first := h.sound.built _ (action_mem hf)
  have second := h.sound.built _ (action_mem hs)
  have body := h.wellScoped (action_mem hf)
  have hbase := h.closed.sharedBase
  exact
    { firstCopy := body.primary hbase h.sound.grows first
      secondCopy := (h.wellScoped (action_mem hs)).shadow hbase second
        ((h.soundAfter.built _ (action_mem hs)).tyOf_eq h.soundAfter.grows)
      firstEncloses := encloses_primary h.sound.grows first
      secondEncloses := encloses_shadow second
      apart := fun v hv hshadow => not_hasVar_of_mem_shadow second v hshadow (first.vars v hv)
      notGlobal := by
        rw [h.sound.grows.globals_eq]
        exact List.forall_mem_append.2 ⟨body.notGlobal, fun v hv hglobal =>
          not_hasVar_of_mem_shadow second v hv (hbase.hasVar_of_mem_globals hglobal)⟩
      clauses := h.clauses hx hf hs }

/-- Every entry is well formed. -/
theorem wellFormedAt (hm : m.Matched) (nodup : (m.entries.map Prod.snd).Nodup)
    {x : Obligation × ProcRef} (hx : x ∈ m.entries) :
    m.program.WellFormedAt (m.program.typing numeric) m.program.namedRefs x.2 := by
  obtain ⟨hf, hs, parts⟩ := h.progress.parts h.ready hm nodup hx
  refine parts.wellFormedAt (h.pair hx hf hs) h.ready.closed (h.ready.valid _ hf)
    (h.ready.valid _ hs) h.progress.grows (fun _ _ => rfl) fun v hv => ?_
  rw [h.progress.namedRefs_eq]
  exact mem_namedRefs_of_mem_globals hv

end WellFormedRun

end Ledger

/-! ## Finished programs -/

section Strip

variable {Γ : Typing} {named : List VarRef} (o : Ownership) {p : Program}

/-- Annotations do not matter for types. -/
theorem typing_strip (numeric : Ty → Bool) (p : Program) :
    (o.strip p).typing numeric = p.typing numeric := by
  have ty : (o.strip p).tyOf = p.tyOf := by
    funext v
    obtain ⟨d, hd⟩ := o.var_strip p v
    rw [Program.tyOf, Program.tyOf, hd]
  rw [Program.typing, Program.typing, ty, functions, functions, o.declarations_strip]

theorem Procedure.WellFormed.strip {x : Procedure} (h : x.WellFormed Γ named p) :
    x.WellFormed Γ named (o.strip p) := by
  rw [Ownership.strip]
  split
  · exact ⟨h.requires, h.ensures⟩
  · exact h

theorem Implementation.WellFormed.strip {i : Implementation} (h : i.WellFormed Γ named p) :
    i.WellFormed Γ named (o.strip p) := by
  rw [Ownership.strip]
  split
  · exact ⟨h.nodup, h.notGlobal, h.commands, h.targets, h.values⟩
  · exact h

end Strip

/-! ## The whole pass -/

namespace Pass

open Ledger

/-- The pass that makes a program registers all actions and then enters what is wanted. -/
theorem exists_of_obligations {input q : Program} {ownership : Ownership} {ds : List Diagnostic}
    (run : obligations input ownership = (.ok (some q), ds)) :
    ∃ l m, (register input).run (ofProgram input ownership) = (.ok (), l) ∧
      (l.wanted.forM request).run l = (.ok (), m) ∧ q = m.finish := by
  have hsteps : ((obligationSteps input).run (ofProgram input ownership)).1 = .ok (some q) :=
    congrArg Prod.fst run
  rw [obligationSteps, bind_run] at hsteps
  generalize hregister : (register input).run (ofProgram input ownership) = registered at hsteps
  obtain ⟨_ | _, l⟩ := registered
  · cases hsteps
  simp only [bind_run, get_run] at hsteps
  split at hsteps
  · cases hsteps
  · rw [bind_run] at hsteps
    generalize henter : enterAll.run l = entered at hsteps
    obtain ⟨_ | _, m⟩ := entered
    · cases hsteps
    · cases hsteps
      exact ⟨l, m, rfl, henter, rfl⟩

/-- What the pass makes of a well-formed input. -/
theorem wellFormedRun_of_obligations {numeric : Ty → Bool} {input q : Program}
    {ownership : Ownership} {ds : List Diagnostic} (hinput : input.Closed)
    (wf : input.WellFormed numeric) (run : obligations input ownership = (.ok (some q), ds)) :
    ∃ l m, WellFormedRun numeric input l m ∧ m.Matched ∧ (∃ log, m.Orderly log) ∧ q = m.finish := by
  obtain ⟨l, m, hregister, henter, rfl⟩ := exists_of_obligations run
  have opened := assembled_ofProgram input ownership
  have registers : Registers input (ofProgram input ownership) l := by
    have k : Registers input _ _ := registers_register (ofProgram input ownership)
    rwa [hregister] at k
  have entries : l.entries = [] := by
    have orderly := registers.steps.orderly hinput opened (orderly_ofProgram input ownership).1
      (orderly_ofProgram input ownership).2
    simpa using orderly.2.requested
  have ready := registers.steps.ready hinput entries
  have enters : Enters l m :=
    enters_of_requests (fun o ho => ⟨(mem_wanted.1 ho).1, (mem_wanted.1 ho).2.1⟩) henter
  have entered : WellFormedRun numeric input l m :=
    { closed := hinput
      wellFormed := wf
      assembled := registers.steps.assembled hinput opened
      madeFrom := registers.steps.madeFrom hinput opened (by simp [ofProgram])
      top_eq := registers.top_eq
      ready := ready
      progress := enters.progress ready }
  obtain ⟨matched, orderly⟩ := registers.steps.orderly_of_enters hinput enters
  exact ⟨l, m, entered, matched, orderly, rfl⟩

/-- If the pass makes a program from a well-formed input, then this program declares functions once,
the contract of each of its procedures is made of formulas over declared variables and the
parameters of the procedure, and each has one implementation, with the same parameters, which is
well formed. -/
theorem obligations_wellFormed {numeric : Ty → Bool} {input q : Program} {ownership : Ownership}
    {ds : List Diagnostic} (hinput : input.Closed) (wf : input.WellFormed numeric)
    (run : obligations input ownership = (.ok (some q), ds)) :
    q.functionNames.Nodup ∧ ∀ r ∈ q.procedureRefs,
      (q.procedure r).WellFormed (q.typing numeric) q.namedRefs q ∧
      ∃ i, q.implementationsOf r = [i] ∧
        (q.implementation i).inputs = (q.procedure r).inputs ∧
        (q.implementation i).outputs = (q.procedure r).outputs ∧
        (q.implementation i).WellFormed (q.typing numeric) q.namedRefs q := by
  obtain ⟨l, m, entered, matched, ⟨log, orderly⟩, rfl⟩ := wellFormedRun_of_obligations hinput wf run
  -- finishing the program changes nothing of what the statement is about
  have declarations : m.finish.declarations = m.program.declarations :=
    m.ownership.declarations_strip m.program
  have types : m.finish.typing numeric = m.program.typing numeric :=
    typing_strip m.ownership numeric m.program
  refine ⟨?_, fun r hr => ?_⟩
  · rw [functionNames, functions, declarations]
    exact entered.functionNames_nodup
  · rw [procedureRefs, declarations] at hr
    have hr : r ∈ m.entries.map Prod.snd := orderly.declared ▸ hr
    obtain ⟨x, hx, rfl⟩ := List.mem_map.1 hr
    obtain ⟨contract, i, implements, inputs, outputs, himpl⟩ :=
      entered.wellFormedAt matched orderly.refs_nodup hx
    obtain ⟨ref, href⟩ := matched.implementationsOf_eq orderly.refs_nodup hx
    rw [procedure_finish, implementationsOf_finish, types, namedRefs, declarations]
    refine ⟨contract.strip m.ownership, ref, href, ?_⟩
    rw [implementation_finish, implements.implementation_eq href]
    exact ⟨inputs, outputs, himpl.strip m.ownership⟩

end Pass

namespace Account

/-- Integers have arithmetic. -/
def numeric (τ : Ty) : Bool := τ = .int

theorem wellFormed_tagged : tagged.WellFormed numeric where
  functions := by decide +kernel
  predicates := by
    have none : tagged.functionNames = [] := by decide +kernel
    simp [none]
  domains := by decide +kernel
  bodies := by
    have only : tagged.procedureRefs = [⟨0⟩] := by decide +kernel
    have conditions : Ledger.taggedConditions (tagged.procedure ⟨0⟩) =
        [(.both, .body depositBody)] := by decide +kernel
    rw [only, List.forall_mem_singleton, conditions, List.forall_mem_singleton]
    rintro code ⟨⟩
    decide +kernel

/-- The program with the obligations about the deposit. -/
def obligations : Program :=
  ((Pass.obligations tagged (.ofProgram tagged)).1.toOption.getD none).getD default

end Account

namespace Pass

theorem eq_ok_some_of_isSome {α β : Type} [Inhabited α] {x : Except Error (Option α) × β}
    (h : (x.1.toOption.getD none).isSome) :
    x = (.ok (some ((x.1.toOption.getD none).getD default)), x.2) := by
  obtain ⟨_ | _ | a, b⟩ := x
  · cases h
  · cases h
  · rfl

/-- The obligations about the deposit use one predicate, for the balance and two amounts. -/
theorem obligations_wellFormed_deposit :
    Account.obligations.functionNames = ["Disjoint_money_3"] ∧
      Account.obligations.procedureRefs = [⟨1⟩, ⟨2⟩, ⟨3⟩] ∧
      ∀ r ∈ Account.obligations.procedureRefs,
        (Account.obligations.procedure r).WellFormed (Account.obligations.typing Account.numeric)
          Account.obligations.namedRefs Account.obligations := by
  have run : Pass.obligations Account.tagged (.ofProgram Account.tagged) =
      (.ok (some Account.obligations), _) := eq_ok_some_of_isSome (by decide +kernel)
  refine ⟨by decide +kernel, by decide +kernel, fun r hr => ?_⟩
  exact ((obligations_wellFormed Account.closed_tagged Account.wellFormed_tagged run).2 r hr).1

end Pass

end AtomicMovers
