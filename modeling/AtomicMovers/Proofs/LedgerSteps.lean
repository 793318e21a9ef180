import AtomicMovers.Ledger
import AtomicMovers.Proofs.Discipline
import AtomicMovers.Proofs.TopLevel

/-!
# Steps on a ledger

A ledger is worked on by calls: to register the actions of the input, to enter an obligation, to enter
all that is wanted. A call may fail halfway and keep what it did, so what a ledger goes through is
described by smaller steps (`Ledger.Step`), each of which is all or nothing. Every sequence of calls
(`Ledger.Leads`) is a sequence of steps (`Leads.steps`), and what every step keeps holds of every
ledger. In particular the program of a ledger is one under construction from the input
(`Leads.assembled`).

Both relations come with a log: the obligations that were requested with success, in order.
-/

namespace AtomicMovers

/-! ## The program that a ledger starts with -/

namespace Program

theorem globals_sharedBase (p : Program) : p.sharedBase.globals = p.globals := by
  have shared : (p.declarations.filter Declaration.isShared).filterMap Declaration.global? = [] := by
    rw [List.filterMap_eq_nil_iff]
    intro d hd
    have := (List.mem_filter.1 hd).2
    cases d <;> simp_all [Declaration.isShared, Declaration.global?]
  have globals : (p.globals.map Declaration.global).filterMap Declaration.global? = p.globals := by
    simp [List.filterMap_map, Function.comp_def, Declaration.global?]
  show (p.declarations.filter Declaration.isShared ++ p.globals.map Declaration.global).filterMap _ = _
  rw [List.filterMap_append, shared, globals, List.nil_append]

theorem within_sharedBase (p : Program) : p.Within p.sharedBase :=
  ⟨Nat.le_refl _, Nat.le_refl _, Nat.le_refl _, Nat.le_refl _, Nat.le_refl _⟩

/-- A closed program without its procedures is closed. -/
theorem Closed.sharedBase {p : Program} (h : p.Closed) : p.sharedBase.Closed := by
  refine h.of_within (within_sharedBase p) h.childrenFirst (fun _ h => .inl h) (fun _ h => .inl h)
    (fun _ h => .inl h) (fun _ h => .inl h) ?_ (fun _ h => .inl h)
  intro d hd
  rcases List.mem_append.1 hd with hd | hd
  · exact .inl (List.mem_filter.1 hd).1
  · obtain ⟨v, hv, rfl⟩ := List.mem_map.1 hd
    exact .inr (h.hasVar_of_mem_globals hv)

theorem Closed.hasProcedure_of_mem {p : Program} (h : p.Closed) {r : ProcRef}
    (hr : r ∈ p.procedureRefs) : p.HasProcedure r := by
  obtain ⟨d, hd, hdr⟩ := List.mem_filterMap.1 hr
  have := h.declarations d hd
  cases d <;> simp_all [Declaration.procedure?, Declaration.ValidIn]

end Program

namespace Ledger

/-! ## Steps -/

/-- One thing that happens to a ledger. -/
inductive Step (input : Program) : List Obligation → Ledger → Ledger → Prop where
  | reported {l : Ledger} (d : Diagnostic) :
    Step input [] l { l with diagnostics := l.diagnostics ++ [d] }
  | registered {l : Ledger} {r : ProcRef} {mover : Mover} {code : Body} {a : AtomicAction}
    {q : Program} (hr : r ∈ input.procedureRefs)
    (hcode : (mover, .body code) ∈ taggedConditions (input.procedure r))
    (run : (AtomicAction.ofBody r code mover).run l.program = (.ok a, q)) :
    Step input [] l { l with program := q, actions := l.actions.push a }
  | registerFails {l : Ledger} {r : ProcRef} {mover : Mover} {code : Body} {e : Error}
    {q : Program} (hr : r ∈ input.procedureRefs)
    (hcode : (mover, .body code) ∈ taggedConditions (input.procedure r))
    (run : (AtomicAction.ofBody r code mover).run l.program = (.error e, q)) :
    Step input [] l { l with program := q }
  /-- The obligation has an entry already. -/
  | found {l : Ledger} {o : Obligation} (h : o ∈ l.entries.map Prod.fst) : Step input [o] l l
  | entered {l : Ledger} {o : Obligation} {r : ProcRef} {q : Program}
    (new : o ∉ l.entries.map Prod.fst) (hf : o.first ∈ l.actionRefs) (hs : o.second ∈ l.actionRefs)
    (run : (addObligation l.ownership o.kind (l.action o.first) (l.action o.second)).run l.program =
      (.ok r, q)) :
    Step input [o] l { l with program := q, entries := l.entries ++ [(o, r)] }
  | enterFails {l : Ledger} {o : Obligation} {e : Error} {q : Program}
    (hf : o.first ∈ l.actionRefs) (hs : o.second ∈ l.actionRefs)
    (run : (addObligation l.ownership o.kind (l.action o.first) (l.action o.second)).run l.program =
      (.error e, q)) :
    Step input [] l { l with program := q }

/-- Any number of steps. -/
inductive Steps (input : Program) : List Obligation → Ledger → Ledger → Prop where
  | refl (l : Ledger) : Steps input [] l l
  | step {log log' : List Obligation} {l m n : Ledger} (h : Steps input log l m)
    (last : Step input log' m n) : Steps input (log ++ log') l n

variable {input : Program} {log log' : List Obligation} {l m n : Ledger}

theorem Step.steps (h : Step input log l m) : Steps input log l m := (Steps.refl l).step h

theorem Steps.trans (h : Steps input log l m) (k : Steps input log' m n) :
    Steps input (log ++ log') l n := by
  induction k with
  | refl l =>
    rw [List.append_nil]
    exact h
  | step _ last ih =>
    rw [← List.append_assoc]
    exact (ih h).step last

/-! ## Registered actions -/

theorem mem_actionRefs {a : ActionRef} : a ∈ l.actionRefs ↔ a.index < l.actions.size := by
  simp only [actionRefs, List.mem_map, List.mem_range]
  constructor
  · rintro ⟨i, hi, rfl⟩
    exact hi
  · exact fun h => ⟨a.index, h, rfl⟩

theorem action_mem {a : ActionRef} (h : a ∈ l.actionRefs) : l.action a ∈ l.actions.toList := by
  have ha := mem_actionRefs.1 h
  simp [action, ha]

/-- Registered actions stay registered. -/
theorem Step.prefix_actions (h : Step input log l m) : l.actions.toList <+: m.actions.toList := by
  cases h with
  | registered => exact ⟨_, (Array.toList_push ..).symm⟩
  | _ => exact List.prefix_refl _

theorem Steps.prefix_actions (h : Steps input log l m) : l.actions.toList <+: m.actions.toList := by
  induction h with
  | refl l => exact List.prefix_refl _
  | step _ last ih => exact ih.trans last.prefix_actions

theorem actionRefs_subset (h : l.actions.toList <+: m.actions.toList) {a : ActionRef}
    (ha : a ∈ l.actionRefs) : a ∈ m.actionRefs := by
  rw [mem_actionRefs] at ha ⊢
  exact Nat.lt_of_lt_of_le ha h.length_le

/-- A registered action stays what it is. -/
theorem action_eq (h : l.actions.toList <+: m.actions.toList) {a : ActionRef}
    (ha : a ∈ l.actionRefs) : m.action a = l.action a := by
  have hl := mem_actionRefs.1 ha
  have hm := mem_actionRefs.1 (actionRefs_subset h ha)
  have same := h.getElem hl
  simp only [Array.getElem_toList] at same
  simp only [action, Array.getD_eq_getD_getElem?, Array.getElem?_eq_getElem hl,
    Array.getElem?_eq_getElem hm, same]

/-! ## Runs of the operations -/

theorem run_onProgram {α : Type} (m : Build α) (l : Ledger) :
    (onProgram m).run l = ((m.run l.program).1, { l with program := (m.run l.program).2 }) := rfl

theorem entry?_isSome {o : Obligation} : (l.entry? o).isSome ↔ o ∈ l.entries.map Prod.fst := by
  unfold Ledger.entry?
  rw [← not_iff_not, Bool.not_eq_true, Option.isSome_eq_false_iff, Option.isNone_iff_eq_none,
    List.lookup_eq_none_iff, List.mem_map, not_exists]
  simp only [bne_iff_ne, ne_eq, not_and]
  exact forall₂_congr fun u _ => not_congr eq_comm

/-- What was requested, if the request was granted. -/
def grantedBy (o : Obligation) : Except Error ProcRef → List Obligation
  | .ok _ => [o]
  | .error _ => []

theorem get_run (l : Ledger) : (get : LedgerM Ledger).run l = (.ok l, l) := rfl

theorem enter_run_found {o : Obligation} {r : ProcRef} (h : l.entry? o = some r) :
    (enter o).run l = (.ok r, l) := by
  rw [enter, bind_run, get_run]
  simp only [h]
  rfl

theorem enter_run_new {o : Obligation} (h : l.entry? o = none) :
    (enter o).run l = match (addObligation l.ownership o.kind (l.action o.first)
        (l.action o.second)).run l.program with
      | (.ok r, q) => (.ok r, { l with program := q, entries := l.entries ++ [(o, r)] })
      | (.error e, q) => (.error e, { l with program := q }) := by
  rw [enter, bind_run, get_run]
  simp only [h]
  rw [bind_run, run_onProgram]
  rcases (addObligation l.ownership o.kind (l.action o.first) (l.action o.second)).run
    l.program with ⟨_ | r, q⟩ <;> rfl

/-- Entering an obligation is one step. -/
theorem step_enter {o : Obligation} (hf : o.first ∈ l.actionRefs) (hs : o.second ∈ l.actionRefs) :
    Step input (grantedBy o ((enter o).run l).1) l ((enter o).run l).2 := by
  cases hentry : l.entry? o with
  | some r =>
    rw [enter_run_found hentry]
    exact .found (entry?_isSome.1 (by rw [hentry]; rfl))
  | none =>
    have new : o ∉ l.entries.map Prod.fst := fun h => by
      have := entry?_isSome.2 h
      rw [hentry] at this
      cases this
    rw [enter_run_new hentry]
    generalize hrun : (addObligation l.ownership o.kind (l.action o.first) (l.action o.second)).run
      l.program = result
    obtain ⟨_ | r, q⟩ := result
    · exact .enterFails hf hs hrun
    · exact .entered new hf hs hrun

/-! ### Registering -/

/-- Steps that log nothing and declare nothing. -/
structure Registers (input : Program) (l m : Ledger) : Prop where
  steps : Steps input [] l m
  top_eq : m.program.top = l.program.top

theorem Registers.refl (l : Ledger) : Registers input l l := ⟨Steps.refl l, rfl⟩

theorem Registers.trans (h : Registers input l m) (k : Registers input m n) : Registers input l n :=
  ⟨h.steps.trans k.steps, k.top_eq.trans h.top_eq⟩

theorem registers_forM {α : Type} {f : α → LedgerM Unit} {as : List α}
    (h : ∀ a ∈ as, ∀ l, Registers input l ((f a).run l).2) :
    ∀ l, Registers input l ((as.forM f).run l).2 := by
  induction as with
  | nil => exact Registers.refl
  | cons a as ih =>
    intro l
    have first := h a (by simp) l
    rw [List.forM, bind_run]
    generalize (f a).run l = result at *
    obtain ⟨_ | _, m⟩ := result
    · exact first
    · exact first.trans (ih (fun b hb => h b (by simp [hb])) m)

/-- Registering the action of one procedure. -/
theorem registers_registerProcedure {r : ProcRef} (hr : r ∈ input.procedureRefs) (l : Ledger) :
    Registers input l ((registerProcedure input r).run l).2 := by
  cases htagged : taggedConditions (input.procedure r) with
  | nil =>
    have run : (registerProcedure input r).run l = (.ok (), l) := by
      simp only [registerProcedure, htagged]
      rfl
    rw [run]
    exact Registers.refl l
  | cons tagged rest =>
    obtain ⟨mover, condition⟩ := tagged
    have condition_steps : Registers input l
        ((registerCondition (input.procedure r).name r mover condition).run l).2 := by
      cases condition with
      | formula e => exact ⟨(Step.reported _).steps, rfl⟩
      | body code =>
        have hcode : (mover, .body code) ∈ taggedConditions (input.procedure r) := by
          rw [htagged]
          exact List.mem_cons_self
        have kept := keepsTop_ofBody r code mover l.program
        rw [registerCondition, bind_run, run_onProgram]
        generalize hrun : (AtomicAction.ofBody r code mover).run l.program = result at *
        obtain ⟨_ | a, q⟩ := result
        · exact ⟨(Step.registerFails hr hcode hrun).steps, kept⟩
        · exact ⟨(Step.registered hr hcode hrun).steps, kept⟩
    -- whether there is another tagged condition only decides if this is an error
    have split : registerProcedure input r =
        registerCondition (input.procedure r).name r mover condition >>= fun _ =>
          if rest ≠ [] then throw (.multipleActions (input.procedure r).name) else pure () := by
      simp only [registerProcedure, htagged]
    rw [split, bind_run]
    generalize (registerCondition (input.procedure r).name r mover condition).run l = result at *
    obtain ⟨_ | _, m⟩ := result
    · exact condition_steps
    · by_cases hrest : rest ≠ []
      · rw [if_pos hrest]
        exact condition_steps
      · rw [if_neg hrest]
        exact condition_steps

theorem registers_register (l : Ledger) : Registers input l ((register input).run l).2 :=
  registers_forM (fun _ hr => registers_registerProcedure hr) l

/-! ## Requests -/

/-- Enters an obligation, whatever its procedure is. -/
def request (o : Obligation) : LedgerM Unit := do
  let _ ← enter o

/-- The obligations of a list that are entered or found, up to the first failure. -/
def granted : List Obligation → Ledger → List Obligation
  | [], _ => []
  | o :: os, l =>
    match (enter o).run l with
    | (.ok _, m) => o :: granted os m
    | (.error _, _) => []

theorem request_run (o : Obligation) (l : Ledger) :
    (request o).run l = match (enter o).run l with
      | (.ok _, m) => (.ok (), m)
      | (.error e, m) => (.error e, m) := by
  rw [request, bind_run]
  rcases (enter o).run l with ⟨_ | r, m⟩ <;> rfl

theorem steps_requests {os : List Obligation}
    (h : ∀ o ∈ os, o.first ∈ l.actionRefs ∧ o.second ∈ l.actionRefs) :
    Steps input (granted os l) l ((os.forM request).run l).2 := by
  induction os generalizing l with
  | nil => exact Steps.refl l
  | cons o os ih =>
    rw [List.forall_mem_cons] at h
    have first : Step input _ l _ := step_enter h.1.1 h.1.2
    rw [granted, List.forM, bind_run, request_run]
    generalize (enter o).run l = result at *
    obtain ⟨_ | r, m⟩ := result
    · exact first.steps
    · have kept := first.prefix_actions
      exact first.steps.trans (ih fun x hx =>
        ⟨actionRefs_subset kept (h.2 x hx).1, actionRefs_subset kept (h.2 x hx).2⟩)

/-- If nothing fails, all of the list is granted. -/
theorem granted_eq_of_ok {os : List Obligation} (h : (os.forM request).run l = (.ok (), m)) :
    granted os l = os := by
  induction os generalizing l with
  | nil => rfl
  | cons o os ih =>
    rw [List.forM, bind_run, request_run] at h
    rw [granted]
    generalize (enter o).run l = result at *
    obtain ⟨_ | r, m'⟩ := result
    · cases h
    · simp only at h ⊢
      rw [ih h]

/-! ## Calls -/

/-- A call on a ledger. -/
inductive Call where
  | register
  | enter (o : Obligation)
  | enterAll
  deriving DecidableEq

namespace Call

/-- What the call does. -/
def perform (input : Program) : Call → LedgerM Unit
  | register => Ledger.register input
  | enter o => request o
  | enterAll => Ledger.enterAll

/-- The obligations that the call is about. -/
def requests (l : Ledger) : Call → List Obligation
  | register => []
  | enter o => [o]
  | enterAll => l.wanted

/-- The ledger after the call, whether it fails or not. -/
def after (input : Program) (c : Call) (l : Ledger) : Ledger := ((c.perform input).run l).2

/-- Obligations are about registered actions. -/
def Accepts (l : Ledger) : Call → Prop
  | enter o => o.first ∈ l.actionRefs ∧ o.second ∈ l.actionRefs
  | _ => True

end Call

instance (l : Ledger) : (c : Call) → Decidable (c.Accepts l)
  | .enter o =>
    inferInstanceAs (Decidable (o.first ∈ l.actionRefs ∧ o.second ∈ l.actionRefs))
  | .register | .enterAll => inferInstanceAs (Decidable True)

/-- Calls, one after the other, lead from one ledger to another. -/
inductive Leads (input : Program) : List Obligation → Ledger → Ledger → Prop where
  | refl (l : Ledger) : Leads input [] l l
  | call {log : List Obligation} {l m : Ledger} (h : Leads input log l m) (c : Call)
    (hc : c.Accepts m) : Leads input (log ++ granted (c.requests m) m) l (c.after input m)

/-! ### What is wanted -/

/-- The mover types of the two actions call for the obligation. -/
def Wants (l : Ledger) (o : Obligation) : Prop :=
  match o.kind with
  | .commutativity => (l.action o.first).mover.isRight ∨ (l.action o.second).mover.isLeft
  | .gatePreservation => (l.action o.second).mover.isRight ∨ (l.action o.first).mover.isLeft
  | .failurePreservation => (l.action o.second).mover.isLeft

/-- What is wanted of `a` with respect to `b`, kind by kind. -/
theorem mem_wantedOf {mover : Mover} {a b : ActionRef} {o : Obligation} :
    o ∈ wantedOf mover a b ↔
      (mover.isRight ∧ (o = ⟨.commutativity, a, b⟩ ∨ o = ⟨.gatePreservation, b, a⟩)) ∨
        (mover.isLeft ∧ (o = ⟨.commutativity, b, a⟩ ∨ o = ⟨.gatePreservation, a, b⟩ ∨
          o = ⟨.failurePreservation, b, a⟩)) := by
  rw [wantedOf, List.mem_append]
  refine or_congr ?_ ?_
  · by_cases h : mover.isRight <;> simp [h]
  · by_cases h : mover.isLeft <;> simp [h]

/-- An obligation about two actions is wanted on account of the one or of the other. -/
theorem mem_wanted {o : Obligation} :
    o ∈ l.wanted ↔ o.first ∈ l.actionRefs ∧ o.second ∈ l.actionRefs ∧ l.Wants o := by
  simp only [wanted, List.mem_flatMap, mem_wantedOf]
  constructor
  · rintro ⟨a, ha, b, hb, ⟨hm, rfl | rfl⟩ | ⟨hm, rfl | rfl | rfl⟩⟩
    · exact ⟨ha, hb, .inl hm⟩
    · exact ⟨hb, ha, .inl hm⟩
    · exact ⟨hb, ha, .inr hm⟩
    · exact ⟨ha, hb, .inr hm⟩
    · exact ⟨hb, ha, hm⟩
  · obtain ⟨kind, x, y⟩ := o
    rintro ⟨hx, hy, hw⟩
    cases kind with
    | commutativity =>
      rcases hw with hw | hw
      · exact ⟨x, hx, y, hy, .inl ⟨hw, .inl rfl⟩⟩
      · exact ⟨y, hy, x, hx, .inr ⟨hw, .inl rfl⟩⟩
    | gatePreservation =>
      rcases hw with hw | hw
      · exact ⟨y, hy, x, hx, .inl ⟨hw, .inr rfl⟩⟩
      · exact ⟨x, hx, y, hy, .inr ⟨hw, .inr (.inl rfl)⟩⟩
    | failurePreservation => exact ⟨y, hy, x, hx, .inr ⟨hw, .inr (.inr rfl)⟩⟩

/-! ### Calls are steps -/

/-- A call is a sequence of steps. -/
theorem steps_call (c : Call) (hc : c.Accepts l) :
    Steps input (granted (c.requests l) l) l (c.after input l) := by
  cases c with
  | register => exact (registers_register l).steps
  | enter o =>
    have k : Steps input (granted [o] l) l _ := steps_requests (List.forall_mem_singleton.2 hc)
    have run : (([o] : List Obligation).forM request).run l = (request o).run l := by
      rw [List.forM, bind_run]
      rcases (request o).run l with ⟨_ | _, m⟩ <;> rfl
    rw [run] at k
    exact k
  | enterAll => exact steps_requests fun o ho => ⟨(mem_wanted.1 ho).1, (mem_wanted.1 ho).2.1⟩

/-- Calls are sequences of steps. -/
theorem Leads.steps (h : Leads input log l m) : Steps input log l m := by
  induction h with
  | refl l => exact Steps.refl l
  | call _ c hc ih => exact ih.trans (steps_call c hc)

/-! ## Programs of ledgers -/

/-- The body of a tagged postcondition of the input. -/
theorem validIn_of_tagged (hinput : input.Closed) {r : ProcRef} (hr : r ∈ input.procedureRefs)
    {mover : Mover} {code : Body}
    (hcode : (mover, .body code) ∈ taggedConditions (input.procedure r)) :
    code.ValidIn input.sharedBase := by
  obtain ⟨post, hpost, htag⟩ := List.mem_filterMap.1 hcode
  have valid := (hinput.procedures _ (Program.procedure_mem (hinput.hasProcedure_of_mem hr))).ensures
    post hpost
  obtain ⟨_, _, heq⟩ := Option.map_eq_some_iff.1 htag
  have hcondition : post.condition = .body code := congrArg Prod.snd heq
  rw [hcondition] at valid
  exact Body.ValidIn.mono (Program.within_sharedBase input) valid

/-- The program and the actions of the ledger are under construction. -/
def Assembled (input : Program) (l : Ledger) : Prop :=
  Assembly input.sharedBase l.program l.actions.toList

theorem Step.assembled (hinput : input.Closed) (h : Step input log l m) (hl : l.Assembled input) :
    m.Assembled input := by
  cases h with
  | reported d => exact hl
  | registered hr hcode run =>
    have k := Assembly.register hl (hinput.hasProcedure_of_mem hr)
      (validIn_of_tagged hinput hr hcode) run
    rwa [← Array.toList_push] at k
  | registerFails hr hcode run =>
    exact Assembly.registerFails hl (hinput.hasProcedure_of_mem hr)
      (validIn_of_tagged hinput hr hcode) run
  | found h => exact hl
  | entered new hf hs run => exact Assembly.oblige hl (action_mem hf) (action_mem hs) run
  | enterFails hf hs run => exact Assembly.oblige hl (action_mem hf) (action_mem hs) run

theorem Steps.assembled (hinput : input.Closed) (h : Steps input log l m) (hl : l.Assembled input) :
    m.Assembled input := by
  induction h with
  | refl l => exact hl
  | step _ last ih => exact last.assembled hinput (ih hl)

theorem assembled_ofProgram (input : Program) (ownership : Ownership) :
    (ofProgram input ownership).Assembled input := Assembly.start

theorem Assembled.sound (hinput : input.Closed) (h : l.Assembled input) :
    Assembly.Sound input.sharedBase l.program l.actions.toList :=
  Assembly.sound hinput.sharedBase h

/-- A step continues the program. -/
theorem Step.continues (hinput : input.Closed) (h : Step input log l m) (hl : l.Assembled input) :
    input.sharedBase.Continues l.program m.program := by
  have sound := hl.sound hinput
  have body {r : ProcRef} {mover : Mover} {code : Body} {result : Except Error AtomicAction}
      {q : Program} (hr : r ∈ input.procedureRefs)
      (hcode : (mover, .body code) ∈ taggedConditions (input.procedure r))
      (run : (AtomicAction.ofBody r code mover).run l.program = (result, q)) :
      input.sharedBase.Continues l.program q :=
    (continues_ofBody hinput.sharedBase sound.closed sound.grows
      (hinput.hasProcedure_of_mem hr) (validIn_of_tagged hinput hr hcode) mover run).1
  have obligation {o : Obligation} {result : Except Error ProcRef} {q : Program}
      (hf : o.first ∈ l.actionRefs) (hs : o.second ∈ l.actionRefs)
      (run : (addObligation l.ownership o.kind (l.action o.first) (l.action o.second)).run
        l.program = (result, q)) : input.sharedBase.Continues l.program q := by
    have grows := (attempts_addObligation (o := l.ownership) sound.closed o.kind
      (sound.validIn (action_mem hf)) (sound.validIn (action_mem hs))).grows
    rw [run] at grows
    exact .ofExtends grows
  cases h with
  | reported d => exact .ofExtends (Program.Extends.refl _)
  | registered hr hcode run => exact body hr hcode run
  | registerFails hr hcode run => exact body hr hcode run
  | found h => exact .ofExtends (Program.Extends.refl _)
  | entered new hf hs run => exact obligation hf hs run
  | enterFails hf hs run => exact obligation hf hs run

theorem Steps.continues (hinput : input.Closed) (h : Steps input log l m) (hl : l.Assembled input) :
    input.sharedBase.Continues l.program m.program := by
  induction h with
  | refl l => exact .ofExtends (Program.Extends.refl _)
  | step h last ih => exact (ih hl).trans (last.continues hinput (h.assembled hinput hl))

/-- Whatever calls were made, the program is under construction from the input. -/
theorem Leads.assembled (hinput : input.Closed) {ownership : Ownership}
    (h : Leads input log (ofProgram input ownership) l) : l.Assembled input :=
  h.steps.assembled hinput (assembled_ofProgram input ownership)

end Ledger

/-! ## The account again -/

namespace Account

/-- The account, with the body tagged as the action of its procedure. -/
def tagged : Program :=
  { program with
    procedures := #[
      { name := "deposit"
        inputs := [⟨2⟩]
        outputs := [⟨3⟩]
        ensures := [{ attributes := ["both"], condition := .body depositBody }] }] }

theorem closed_tagged : tagged.Closed := by decide +kernel

end Account

end AtomicMovers
