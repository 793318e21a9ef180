import AtomicMovers.Proofs.Obligations
import Mathlib.Data.List.TakeWhile

/-!
# The top level of a program under construction

What is declared changes in two ways only: functions are put behind the leading declarations
(`Program.Declares`), and a finished obligation is declared last (`Program.adding`). Everything else
keeps the top level as it is (`KeepsTop`).

An obligation is therefore built in two steps (`addObligation_run`). First its parts are made
(`draft`), which may fail and declares at most the predicates of its disjointness clauses
(`declares_draft`); then the procedure and its implementation are declared, which cannot fail.
-/

namespace AtomicMovers

open Program

/-! ## Computations that leave the top level alone -/

/-- What is declared, and what the declarations refer to. -/
structure TopLevel where
  procedures : Array Procedure
  implementations : Array Implementation
  declarations : List Declaration
  names : List (String × VarRef)

def Program.top (p : Program) : TopLevel :=
  ⟨p.procedures, p.implementations, p.declarations, p.names⟩

/-- The computation does not touch the top level. -/
def KeepsTop {α : Type} (m : StateM Program α) : Prop := ∀ p, (m p).2.top = p.top

namespace KeepsTop

variable {α β : Type}

theorem pure (a : α) : KeepsTop (Pure.pure a) := fun _ => rfl

theorem get : KeepsTop (MonadState.get : StateM Program Program) := fun _ => rfl

theorem bind {m : StateM Program α} {f : α → StateM Program β} (hm : KeepsTop m)
    (hf : ∀ a, KeepsTop (f a)) : KeepsTop (m >>= f) :=
  fun p => (hf _ _).trans (hm p)

theorem mapM {f : α → StateM Program β} (hf : ∀ a, KeepsTop (f a)) (as : List α) :
    KeepsTop (as.mapM f) := fun p =>
  mapM_invariant (P := fun q => q.top = p.top) (fun a _ q hq => (hf a q).trans hq) p rfl

theorem foldlM {f : β → α → StateM Program β} (hf : ∀ b a, KeepsTop (f b a)) (as : List α) (b : β) :
    KeepsTop (as.foldlM f b) := by
  induction as generalizing b with
  | nil => exact pure b
  | cons a as ih =>
    rw [List.foldlM_cons]
    exact (hf b a).bind ih

theorem onExprs (m : StateM ExprTable α) : KeepsTop (Program.onExprs m) := fun _ => rfl

theorem newBlock (b : Block) : KeepsTop (Program.newBlock b) := fun _ => rfl

theorem newBoundCopy (v : VarRef) (copy : StateCopy) : KeepsTop (Program.newBoundCopy v copy) :=
  fun _ => rfl

/-! Computations that may fail. -/

theorem lift {m : StateM Program α} (hm : KeepsTop m) : KeepsTop (liftM m : Build α).run := hm

theorem throw (e : Error) : KeepsTop (MonadExcept.throw e : Build α).run := fun _ => rfl

theorem ofExcept (x : Except Error α) : KeepsTop (MonadExcept.ofExcept x : Build α).run := by
  cases x <;> exact fun _ => rfl

theorem andThen {m : Build α} {f : α → Build β} (hm : KeepsTop m.run)
    (hf : ∀ a, KeepsTop (f a).run) : KeepsTop (m >>= f).run := by
  intro p
  have kept := hm p
  rw [bind_run]
  generalize m.run p = result at *
  obtain ⟨_ | a, q⟩ := result
  · exact kept
  · exact (hf a q).trans kept

theorem get_andThen {f : Program → Build β} (hf : ∀ p, KeepsTop (f p).run) :
    KeepsTop (MonadState.get >>= f : Build β).run :=
  fun p => hf p p

theorem andThen_foldlM {f : β → α → Build β} (hf : ∀ b a, KeepsTop (f b a).run) (as : List α)
    (b : β) : KeepsTop (as.foldlM f b).run := by
  induction as generalizing b with
  | nil => exact pure (α := Except Error β) (.ok b)
  | cons a as ih =>
    rw [List.foldlM_cons]
    exact (hf b a).andThen ih

theorem forM {f : α → Build PUnit} (hf : ∀ a, KeepsTop (f a).run) (as : List α) :
    KeepsTop (as.forM f).run := by
  induction as with
  | nil => exact fun _ => rfl
  | cons a as ih => exact andThen (hf a) fun _ => ih

end KeepsTop

/-! ### Copies of blocks -/

section Copies

variable {plan : CopyPlan} (hcommand : ∀ c, KeepsTop (plan.command c))
  (hreturn : KeepsTop plan.valueReturn)

include hcommand hreturn

theorem keepsTop_copyBlocks (owner : String) (bs : List BlockRef) :
    KeepsTop (plan.copyBlocks owner bs).run := by
  have block (b : BlockRef) : KeepsTop (plan.copyBlock b) :=
    KeepsTop.get.bind fun p => (KeepsTop.mapM hcommand _).bind fun _ => KeepsTop.newBlock _
  have transfer (pairs : List (BlockRef × BlockRef)) (b : BlockRef) :
      KeepsTop (plan.copyTransfer owner pairs b).run := by
    refine KeepsTop.get_andThen fun p => ?_
    dsimp only
    cases (p.block b).transfer with
    | returnValue e => exact hreturn.lift
    | goto targets => exact (KeepsTop.ofExcept _).andThen fun _ => KeepsTop.pure _
    | leave => exact KeepsTop.pure _
  refine KeepsTop.andThen (KeepsTop.mapM block bs).lift fun clones => ?_
  refine KeepsTop.andThen (KeepsTop.forM (fun u => ?_) _) fun _ => KeepsTop.pure _
  exact (transfer _ u.1).andThen fun _ _ => rfl

end Copies

theorem keepsTop_runBlocks (exit : Option BlockRef) (owner : String) (bs : List BlockRef) :
    KeepsTop ((runPlan exit).copyBlocks owner bs).run := by
  refine keepsTop_copyBlocks (fun c => KeepsTop.pure c) ?_ owner bs
  cases exit <;> exact KeepsTop.pure _

/-! ### Actions -/

theorem keepsTop_addShadows (vs : List VarRef) : KeepsTop (addShadows vs) :=
  (KeepsTop.mapM (f := newShadow) (fun _ _ => rfl) vs).bind fun shadows =>
    (KeepsTop.mapM (fun _ => KeepsTop.onExprs _) shadows).bind fun _ => KeepsTop.pure _

theorem keepsTop_addShadow (name : String) (primary : Replica) :
    KeepsTop (AtomicAction.addShadow name primary).run := by
  refine (keepsTop_addShadows _).lift.andThen fun inputs => ?_
  refine (keepsTop_addShadows _).lift.andThen fun outputs => ?_
  refine (keepsTop_addShadows _).lift.andThen fun locals => ?_
  refine (KeepsTop.onExprs _).lift.andThen fun gate => ?_
  refine (keepsTop_copyBlocks (fun c => KeepsTop.onExprs _) ?_ _ _).andThen fun _ => KeepsTop.pure _
  exact (KeepsTop.onExprs _).bind fun _ => KeepsTop.pure _

/-- Making an action declares nothing. -/
theorem keepsTop_ofBody (r : ProcRef) (body : Body) (mover : Mover) :
    KeepsTop (AtomicAction.ofBody r body mover).run := by
  intro p
  rcases ofBody_run r body mover p with ⟨e, h⟩ | ⟨entry, rest, _, h⟩
  · rw [h]
  · rw [h]
    exact ((keepsTop_addShadow _ _).andThen fun _ => KeepsTop.pure _) (takeGate entry p).2

/-! ### Relations -/

theorem keepsTop_newNode (n : Node) : KeepsTop (newNode n) := KeepsTop.onExprs _

theorem keepsTop_newConjunction {α : Type} {conjunct : α → StateM Program ExprRef}
    (h : ∀ a, KeepsTop (conjunct a)) (as : List α) : KeepsTop (newConjunction conjunct as) :=
  (keepsTop_newNode _).bind fun _ =>
    KeepsTop.foldlM (fun _ a => (h a).bind fun _ => keepsTop_newNode _) as _

theorem keepsTop_newPathCondition (frame : List VarRef) (path : Path) :
    KeepsTop (newPathCondition frame path).run := by
  have unchanged (v : VarRef) : KeepsTop (newUnchanged v) :=
    (keepsTop_newNode _).bind fun _ => (keepsTop_newNode _).bind fun _ =>
      (keepsTop_newNode _).bind fun _ => keepsTop_newNode _
  have backwards (label : String) (c : Command ExprRef) (after : ExprRef) :
      KeepsTop (newBackwards label after c).run := by
    cases c with
    | assert e => exact KeepsTop.throw _
    | assume e => exact (keepsTop_newNode _).lift.andThen fun _ => (keepsTop_newNode _).lift
    | assign updates => exact (KeepsTop.onExprs _).lift
  refine (keepsTop_newConjunction unchanged frame).lift.andThen fun start =>
    KeepsTop.andThen_foldlM (fun after b => KeepsTop.get_andThen fun p => ?_) path start
  dsimp only
  rw [← List.foldlM_reverse]
  exact KeepsTop.andThen_foldlM (fun after c => backwards _ c after) _ _

theorem keepsTop_search (frame : List VarRef) (depth : Nat) (next : Option BlockRef) (path : Path)
    (b : BlockRef) (relation : ExprRef) :
    KeepsTop (search frame depth next path b relation).run := by
  induction depth generalizing next path b relation with
  | zero => exact KeepsTop.get_andThen fun _ => KeepsTop.throw _
  | succ depth ih =>
    unfold search
    refine KeepsTop.get_andThen fun p => ?_
    dsimp only
    by_cases hb : b ∈ path
    · rw [if_pos hb]
      exact KeepsTop.throw _
    · rw [if_neg hb]
      cases (p.block b).transfer with
      | leave => exact KeepsTop.throw _
      | returnValue v =>
        cases next with
        | some entry => exact ih none (b :: path) entry relation
        | none =>
          exact (keepsTop_newPathCondition frame (b :: path)).andThen fun _ =>
            (keepsTop_newNode _).lift
      | goto targets =>
        exact KeepsTop.andThen_foldlM (fun relation t => ih next (b :: path) t relation) targets _

theorem keepsTop_newBinding (copy : StateCopy) (v : VarRef) : KeepsTop (newBinding copy v) :=
  (KeepsTop.newBoundCopy v copy).bind fun _ => (keepsTop_newNode _).bind fun _ => KeepsTop.pure _

theorem keepsTop_newExists (bound : List VarRef) (σ : TwoState ExprRef) (e : ExprRef) :
    KeepsTop (newExists bound σ e) := by
  cases bound with
  | nil => exact KeepsTop.pure e
  | cons v vs => exact (KeepsTop.onExprs _).bind fun _ => keepsTop_newNode _

theorem keepsTop_transition (first : Option AtomicAction) (second : AtomicAction) :
    KeepsTop (transition first second).run := by
  refine KeepsTop.get_andThen fun p => (keepsTop_newNode _).lift.andThen fun start =>
    (keepsTop_search _ _ _ _ _ _).andThen fun relation => KeepsTop.lift ?_
  have twin (v : VarRef) : KeepsTop (newTwinBinding v) :=
    KeepsTop.get.bind fun p => keepsTop_newBinding _ v
  exact (KeepsTop.mapM twin _).bind fun _ => keepsTop_newExists _ _ _

theorem keepsTop_addReachability (second : AtomicAction) (relation outcome : ExprRef) :
    KeepsTop (addReachability second relation outcome) := by
  refine KeepsTop.get.bind fun p => ?_
  refine (KeepsTop.mapM (keepsTop_newBinding .after) _).bind fun globals => ?_
  refine (KeepsTop.mapM (f := newOutputBindings) (fun v => ?_) _).bind fun outputs => ?_
  · exact (keepsTop_newBinding .after v).bind fun _ =>
      (keepsTop_newBinding .before v).bind fun _ => KeepsTop.pure _
  · exact (KeepsTop.mapM (keepsTop_newBinding .before) _).bind fun _ =>
      (keepsTop_newNode _).bind fun _ => keepsTop_newExists _ _ _

/-! ## Declaring functions -/

namespace Program

/-- The functions `sigs` are new in `q`, declared behind the leading declarations of `p`; the rest of
the top level is that of `p`. -/
structure Declares (sigs : List FunctionSig) (p q : Program) : Prop where
  procedures_eq : q.procedures = p.procedures
  implementations_eq : q.implementations = p.implementations
  names_eq : q.names = p.names
  declarations_eq : q.declarations = p.declarations.takeWhile Declaration.precedesFunctions ++
    (sigs.map .function ++ p.declarations.dropWhile Declaration.precedesFunctions)
  new : ∀ sig ∈ sigs, sig.name ∉ p.functions.map FunctionSig.name
  nodup : (sigs.map FunctionSig.name).Nodup

variable {p q r : Program} {sigs sigs' : List FunctionSig}

theorem Declares.ofTop (h : q.top = p.top) : p.Declares [] q where
  procedures_eq := congrArg TopLevel.procedures h
  implementations_eq := congrArg TopLevel.implementations h
  names_eq := congrArg TopLevel.names h
  declarations_eq := by
    rw [List.map_nil, List.nil_append, List.takeWhile_append_dropWhile]
    exact congrArg TopLevel.declarations h
  new := by simp
  nodup := List.nodup_nil

/-- Everything but the new functions is declared as before. -/
theorem Declares.filterMap_eq (h : p.Declares sigs q) {β : Type} (g : Declaration → Option β)
    (hg : ∀ sig, g (.function sig) = none) :
    q.declarations.filterMap g = p.declarations.filterMap g := by
  have none_new : (sigs.map Declaration.function).filterMap g = [] := by
    simp [List.filterMap_map, hg]
  rw [h.declarations_eq, List.filterMap_append, List.filterMap_append, none_new, List.nil_append,
    ← List.filterMap_append, List.takeWhile_append_dropWhile]

theorem Declares.mem_functions (h : p.Declares sigs q) {sig : FunctionSig} :
    sig ∈ q.functions ↔ sig ∈ p.functions ∨ sig ∈ sigs := by
  have split : p.functions = (p.declarations.takeWhile Declaration.precedesFunctions).filterMap
      Declaration.function? ++ (p.declarations.dropWhile Declaration.precedesFunctions).filterMap
      Declaration.function? := by
    rw [← List.filterMap_append, List.takeWhile_append_dropWhile, functions]
  have new : (sigs.map Declaration.function).filterMap Declaration.function? = sigs := by
    simp [List.filterMap_map, Function.comp_def, Declaration.function?]
  rw [functions, h.declarations_eq, split, List.filterMap_append, List.filterMap_append, new]
  simp only [List.mem_append]
  tauto

/-- Functions declared later go behind those declared earlier. -/
theorem Declares.trans (h : p.Declares sigs q) (k : q.Declares sigs' r) :
    p.Declares (sigs ++ sigs') r where
  procedures_eq := k.procedures_eq.trans h.procedures_eq
  implementations_eq := k.implementations_eq.trans h.implementations_eq
  names_eq := k.names_eq.trans h.names_eq
  declarations_eq := by
    -- the new functions belong to the leading declarations from now on
    have lead : ∀ d ∈ p.declarations.takeWhile Declaration.precedesFunctions ++
        sigs.map Declaration.function, Declaration.precedesFunctions d = true := by
      intro d hd
      rcases List.mem_append.1 hd with hd | hd
      · exact List.mem_takeWhile_imp hd
      · obtain ⟨sig, _, rfl⟩ := List.mem_map.1 hd
        rfl
    have starts := List.dropWhile_get_zero_not Declaration.precedesFunctions p.declarations
    have rest := List.takeWhile_eq_nil_iff.2 starts
    have rest' := List.dropWhile_eq_self_iff.2 starts
    have hq := h.declarations_eq
    rw [← List.append_assoc] at hq
    rw [k.declarations_eq, hq, List.takeWhile_append_of_pos lead, List.dropWhile_append_of_pos lead,
      rest, rest', List.append_nil, List.map_append, List.append_assoc, List.append_assoc]
  new sig hsig := by
    rcases List.mem_append.1 hsig with hsig | hsig
    · exact h.new sig hsig
    · intro hp
      obtain ⟨old, hold, heq⟩ := List.mem_map.1 hp
      exact k.new sig hsig (List.mem_map.2 ⟨old, h.mem_functions.2 (.inl hold), heq⟩)
  nodup := by
    rw [List.map_append, List.nodup_append]
    refine ⟨h.nodup, k.nodup, ?_⟩
    rintro _ hx _ hy rfl
    obtain ⟨old, hold, rfl⟩ := List.mem_map.1 hx
    obtain ⟨sig, hsig, heq⟩ := List.mem_map.1 hy
    exact k.new sig hsig (List.mem_map.2 ⟨old, h.mem_functions.2 (.inr hold), heq.symm⟩)

/-- One function, unless its name is taken. -/
theorem declares_declareSignature (sig : FunctionSig) (p : Program) :
    (∃ sigs, (∀ s ∈ sigs, s = sig) ∧ p.Declares sigs (declareSignature sig p).2) ∧
      sig.name ∈ (declareSignature sig p).2.functions.map FunctionSig.name := by
  have run : (declareSignature sig p).2 =
      if p.functions.any fun f => f.name = sig.name then p
      else
        { p with
          declarations :=
            p.declarations.takeWhile Declaration.precedesFunctions ++
              .function sig :: p.declarations.dropWhile Declaration.precedesFunctions } := rfl
  rw [run]
  by_cases h : p.functions.any fun f => f.name = sig.name
  · rw [if_pos h]
    refine ⟨⟨[], by simp, .ofTop rfl⟩, ?_⟩
    simpa using h
  · rw [if_neg h]
    have absent : sig.name ∉ p.functions.map FunctionSig.name := by simpa using h
    have declares : p.Declares [sig]
        { p with
          declarations :=
            p.declarations.takeWhile Declaration.precedesFunctions ++
              .function sig :: p.declarations.dropWhile Declaration.precedesFunctions } :=
      ⟨rfl, rfl, rfl, rfl, by simpa using absent, by simp⟩
    exact ⟨⟨[sig], by simp, declares⟩,
      List.mem_map.2 ⟨sig, declares.mem_functions.2 (.inr (by simp)), rfl⟩⟩

/-- Some of the functions `wanted` are new in `q`. -/
def DeclaresAmong (wanted : List FunctionSig) (p q : Program) : Prop :=
  ∃ sigs, (∀ sig ∈ sigs, sig ∈ wanted) ∧ p.Declares sigs q

variable {wanted : List FunctionSig}

theorem DeclaresAmong.ofTop (h : q.top = p.top) : p.DeclaresAmong wanted q :=
  ⟨[], by simp, .ofTop h⟩

theorem DeclaresAmong.trans (h : p.DeclaresAmong wanted q) (k : q.DeclaresAmong wanted r) :
    p.DeclaresAmong wanted r := by
  obtain ⟨sigs, hsigs, hd⟩ := h
  obtain ⟨sigs', hsigs', hd'⟩ := k
  exact ⟨sigs ++ sigs', List.forall_mem_append.2 ⟨hsigs, hsigs'⟩, hd.trans hd'⟩

/-- The names of all functions `wanted` are declared. -/
def Offers (p : Program) (wanted : List FunctionSig) : Prop :=
  ∀ sig ∈ wanted, sig.name ∈ p.functions.map FunctionSig.name

theorem Offers.declares (h : p.Offers wanted) (k : p.Declares sigs q) : q.Offers wanted := by
  intro sig hsig
  obtain ⟨f, hf, heq⟩ := List.mem_map.1 (h sig hsig)
  exact List.mem_map.2 ⟨f, k.mem_functions.2 (.inl hf), heq⟩

end Program

/-! ### Disjointness clauses -/

/-- The predicate for the variables `vs` of a domain. -/
def disjointnessSignature (p : Program) (domain : String) (vs : List VarRef) : FunctionSig where
  name := Ownership.predicateName domain vs.length
  args := vs.map fun v => (p.var v).ty
  result := .bool

/-- The predicates that the disjointness clauses of two actions use. -/
def disjointnessSignatures (p : Program) (o : Ownership) (first second : AtomicAction) :
    List FunctionSig :=
  ((o.domains.map fun d => (d, domainScope p first second d)).filter fun s => s.2 ≠ []).map
    fun s => disjointnessSignature p s.1 s.2

section Clauses

variable {p q : Program} {o : Ownership} {first second : AtomicAction}

theorem disjointnessSignature_congr (h : q.vars = p.vars) (d : String) (vs : List VarRef) :
    disjointnessSignature q d vs = disjointnessSignature p d vs := by
  simp only [disjointnessSignature, Program.var, h]

/-- The predicates do not change while the program grows. -/
theorem disjointnessSignatures_extends (hp : p.Closed) (hf : first.ValidIn p)
    (hs : second.ValidIn p) {R : Block → Block → Prop} (hpq : p.Grows R q) :
    disjointnessSignatures q o first second = disjointnessSignatures p o first second := by
  simp only [disjointnessSignatures, domainScope_extends hp hf hs hpq]
  refine List.map_congr_left fun s hs' => ?_
  obtain ⟨d, _, rfl⟩ := List.mem_map.1 (List.mem_filter.1 hs').1
  simp only [disjointnessSignature, FunctionSig.mk.injEq, true_and, and_true]
  exact List.map_congr_left fun v hv => hpq.tyOf_eq (hasVar_of_mem_domainScope hp hf hs hv)

/-- Clauses one after the other. -/
theorem declares_mapM_addDisjointness (scopes : List (String × List VarRef)) (p : Program) :
    p.DeclaresAmong (scopes.map fun s => disjointnessSignature p s.1 s.2)
        (scopes.mapM (fun s => Ownership.addDisjointness s.1 s.2) p).2 ∧
      (scopes.mapM (fun s => Ownership.addDisjointness s.1 s.2) p).2.Offers
        (scopes.map fun s => disjointnessSignature p s.1 s.2) := by
  induction scopes generalizing p with
  | nil =>
    rw [mapM_nil_run]
    exact ⟨.ofTop rfl, by simp [Program.Offers]⟩
  | cons s ss ih =>
    rw [mapM_cons_run]
    -- a clause changes neither the variables nor, but for its predicate, the top level
    have same : (Ownership.addDisjointness s.1 s.2 p).2.vars = p.vars := by
      show (declareSignature (disjointnessSignature p s.1 s.2) p).2.vars = p.vars
      show (ite (p.functions.any _ = true) p _).vars = p.vars
      split <;> rfl
    obtain ⟨⟨new, hnew, declares⟩, offered⟩ :=
      declares_declareSignature (disjointnessSignature p s.1 s.2) p
    have first := declares.trans (Declares.ofTop (KeepsTop.onExprs (ExprTable.addTree
      (.call (Ownership.predicateName s.1 s.2.length) (s.2.map .var))) _))
    rw [List.append_nil] at first
    obtain ⟨⟨later, hlater, rest⟩, offers⟩ := ih (Ownership.addDisjointness s.1 s.2 p).2
    simp only [disjointnessSignature_congr same] at hlater offers
    refine ⟨⟨new ++ later, ?_, first.trans rest⟩, List.forall_mem_cons.2 ⟨?_, offers⟩⟩
    · refine List.forall_mem_append.2 ⟨fun x hx => ?_, fun x hx => ?_⟩
      · rw [hnew x hx]
        exact List.mem_cons_self
      · exact List.mem_cons_of_mem _ (hlater x hx)
    · have here : (Ownership.addDisjointness s.1 s.2 p).2.Offers
          [disjointnessSignature p s.1 s.2] :=
        List.forall_mem_singleton.2 offered
      exact (here.declares rest) _ (List.mem_singleton_self _)

end Clauses

/-! ## Drafts -/

/-- The parts of an obligation before it is declared. -/
structure Draft where
  procedure : Procedure
  locals : List VarRef
  blocks : List BlockRef

/-- Copies of the blocks of both actions, of which the first goes on at the entry of the second. -/
def copyInTurn (first second : AtomicAction) : Build (List BlockRef × List BlockRef) := do
  let secondBlocks ← (runPlan none).copyBlocks second.name second.shadow.blocks
  let firstBlocks ←
    (runPlan (some (secondBlocks.headD default))).copyBlocks first.name first.primary.blocks
  pure (firstBlocks, secondBlocks)

/-- The parts of a commutativity procedure. -/
def draftCommutativity (o : Ownership) (first second : AtomicAction) : Build Draft := do
  let blocks ← copyInTurn first second
  let requires ← addDisjointnessClauses o first second
  let relation ← transition (some first) second
  pure ⟨commutativityProcedure first second requires relation,
    first.primary.locals ++ second.shadow.locals, blocks.1 ++ blocks.2⟩

/-- The parts of a gate preservation procedure. -/
def draftGatePreservation (o : Ownership) (first second : AtomicAction) : Build Draft := do
  let blocks ← (runPlan none).copyBlocks second.name second.shadow.blocks
  let requires ← addDisjointnessClauses o first second
  pure ⟨gatePreservationProcedure first second requires, second.shadow.locals, blocks⟩

/-- The relation of the second action, and that the gate of the first fails. -/
def relateFailure (first second : AtomicAction) : Build (ExprRef × ExprRef) := do
  let relation ← transition none second
  let firstGate ← newConjunction pure first.primary.gate
  let gateFails ← newNode (.unary .not firstGate)
  pure (relation, gateFails)

/-- The parts of a failure preservation procedure. -/
def draftFailurePreservation (o : Ownership) (first second : AtomicAction) : Build Draft := do
  let formulas ← relateFailure first second
  let requires ← addDisjointnessClauses o first second
  let condition ← addReachability second formulas.1 formulas.2
  let body ← Program.newBlock { label := "L", commands := [], transfer := .leave }
  pure ⟨failurePreservationProcedure first second requires formulas.2 condition, [], [body]⟩

/-- The parts of an obligation. -/
def draft (o : Ownership) (kind : ObligationKind) (first second : AtomicAction) : Build Draft :=
  match kind with
  | .commutativity => draftCommutativity o first second
  | .gatePreservation => draftGatePreservation o first second
  | .failurePreservation => draftFailurePreservation o first second

/-! ### What a draft declares -/

section Draft

variable {p : Program} {o : Ownership} {first second : AtomicAction}

/-- The clauses are the only part of a draft that declares anything. -/
theorem declares_around_clauses {α β : Type} {before : Build α} {after : α → List ExprRef → Build β}
    (hp : p.Closed) (hf : first.ValidIn p) (hs : second.ValidIn p) (hbefore : KeepsTop before.run)
    (grows : p.Extends (before.run p).2) (hafter : ∀ a es, KeepsTop (after a es).run)
    {result : Except Error β} {q : Program}
    (run : (before >>= fun a => liftM (addDisjointnessClauses o first second) >>= after a).run p =
      (result, q)) :
    p.DeclaresAmong (disjointnessSignatures p o first second) q ∧
      ∀ b, result = .ok b → q.Offers (disjointnessSignatures p o first second) := by
  have kept := hbefore p
  rw [bind_run] at run
  generalize before.run p = middle at *
  obtain ⟨_ | a, m⟩ := middle
  · cases run
    exact ⟨.ofTop kept, fun b hb => by cases hb⟩
  · -- the predicates were the same when the draft was begun
    have same : disjointnessSignatures m o first second = disjointnessSignatures p o first second :=
      disjointnessSignatures_extends hp hf hs grows
    obtain ⟨declares, offers⟩ := declares_mapM_addDisjointness
      ((o.domains.map fun d => (d, domainScope m first second d)).filter fun s => s.2 ≠ []) m
    have later := hafter a (addDisjointnessClauses o first second m).1
      (addDisjointnessClauses o first second m).2
    obtain rfl : _ = q := congrArg Prod.snd run
    rw [← same]
    refine ⟨(DeclaresAmong.ofTop kept).trans (declares.trans (.ofTop later)), fun _ _ => ?_⟩
    exact offers.declares (.ofTop later)

theorem attempts_copyInTurn (hp : p.Closed) (hf : first.ValidIn p) (hs : second.ValidIn p) :
    Attempts p (copyInTurn first second) fun _ _ => True := by
  refine (attempts_runBlocks hp none (by simp) _ hs.shadow.blocks).bind
    fun secondBlocks q h hq hsecond => ?_
  have hentry : q.HasBlock (secondBlocks.headD default) :=
    hsecond.valid _ (List.of_mem_zip (hsecond.entry_mem hs.shadow.nonempty)).2
  refine (attempts_runBlocks hq (some (secondBlocks.headD default)) (by simpa using hentry) _
    fun b hb => h.within.hasBlock (hf.primary.blocks b hb)).bind fun _ r _ hr _ => ?_
  exact Attempts.pure hr trivial

theorem attempts_relateFailure (hp : p.Closed) (hf : first.ValidIn p) (hs : second.ValidIn p) :
    Attempts p (relateFailure first second) fun x q => q.HasExpr x.1 ∧ q.HasExpr x.2 := by
  refine (attempts_transition hp none (by simp) hs.shadow).bind
    fun relation q₁ h₁ hq₁ ⟨_, hrelation, _⟩ => ?_
  refine (Attempts.lift (yields_gate hq₁ (hf.mono h₁.within))).bind fun gate q₂ h₂ hq₂ hgate => ?_
  refine (Attempts.lift (yields_newUnary hq₂ .not hgate)).bind fun gateFails q₃ h₃ hq₃ hfails => ?_
  exact Attempts.pure hq₃ ⟨(h₂.trans h₃).within.hasExpr hrelation.1, hfails.2.1⟩

/-- A draft declares at most the predicates of its clauses, and all of them if it succeeds. -/
theorem declares_draft (hp : p.Closed) (hf : first.ValidIn p) (hs : second.ValidIn p)
    {kind : ObligationKind} {result : Except Error Draft} {q : Program}
    (run : (draft o kind first second).run p = (result, q)) :
    p.DeclaresAmong (disjointnessSignatures p o first second) q ∧
      ∀ d, result = .ok d → q.Offers (disjointnessSignatures p o first second) := by
  cases kind with
  | commutativity =>
    refine declares_around_clauses hp hf hs ?_ (attempts_copyInTurn hp hf hs).grows ?_ run
    · exact (keepsTop_runBlocks _ _ _).andThen fun _ =>
        (keepsTop_runBlocks _ _ _).andThen fun _ => KeepsTop.pure _
    · exact fun a es => (keepsTop_transition _ _).andThen fun _ => KeepsTop.pure _
  | gatePreservation =>
    exact declares_around_clauses hp hf hs (keepsTop_runBlocks _ _ _)
      (attempts_runBlocks hp none (by simp) _ hs.shadow.blocks).grows
      (fun _ _ => KeepsTop.pure _) run
  | failurePreservation =>
    refine declares_around_clauses hp hf hs ?_ (attempts_relateFailure hp hf hs).grows ?_ run
    · exact (keepsTop_transition _ _).andThen fun _ =>
        (keepsTop_newConjunction KeepsTop.pure _).lift.andThen fun _ =>
          (keepsTop_newNode _).lift.andThen fun _ => KeepsTop.pure _
    · exact fun a es => (keepsTop_addReachability _ _ _).lift.andThen fun _ =>
        (KeepsTop.newBlock _).lift.andThen fun _ => KeepsTop.pure _

end Draft

/-- Declares a procedure and its implementation. -/
def Program.adding (d : Draft) (p : Program) : Program :=
  { p with
    procedures := p.procedures.push d.procedure
    implementations := p.implementations.push
      (d.procedure.implementedBy ⟨p.procedures.size⟩ d.locals d.blocks)
    declarations := p.declarations ++
      [.procedure ⟨p.procedures.size⟩, .implementation ⟨p.implementations.size⟩] }

theorem addImplemented_run (d : Draft) (p : Program) :
    addImplemented d.procedure d.locals d.blocks p = (⟨p.procedures.size⟩, p.adding d) := by
  have run : addImplemented d.procedure d.locals d.blocks p = (⟨p.procedures.size⟩,
      { p.adding d with
        declarations := (p.declarations ++ [.procedure ⟨p.procedures.size⟩]) ++
          [.implementation ⟨p.implementations.size⟩] }) := rfl
  rw [run, List.append_assoc]
  rfl

theorem addObligation_eq (o : Ownership) (kind : ObligationKind) (first second : AtomicAction) :
    addObligation o kind first second = draft o kind first second >>= fun d =>
      liftM (addImplemented d.procedure d.locals d.blocks) := by
  cases kind with
  | commutativity =>
    simp only [addObligation, draft, addCommutativity, draftCommutativity, copyInTurn,
      bind_assoc, pure_bind]
    rfl
  | gatePreservation =>
    simp only [addObligation, draft, addGatePreservation, draftGatePreservation, bind_assoc,
      pure_bind]
    rfl
  | failurePreservation =>
    simp only [addObligation, draft, addFailurePreservation, draftFailurePreservation,
      relateFailure, bind_assoc, pure_bind]
    rfl

/-- An obligation is drafted and then declared. -/
theorem addObligation_run (o : Ownership) (kind : ObligationKind) (first second : AtomicAction)
    (p : Program) :
    (addObligation o kind first second).run p =
      match (draft o kind first second).run p with
      | (.ok d, q) => (.ok ⟨q.procedures.size⟩, q.adding d)
      | (.error e, q) => (.error e, q) := by
  rw [addObligation_eq, bind_run]
  rcases (draft o kind first second).run p with ⟨_ | d, q⟩
  · rfl
  · show (Except.ok (addImplemented d.procedure d.locals d.blocks q).1,
      (addImplemented d.procedure d.locals d.blocks q).2) = _
    rw [addImplemented_run]

/-- What a new obligation declares: predicates that were missing, and behind them a procedure and its
implementation. -/
theorem declares_addObligation {o : Ownership} {kind : ObligationKind} {first second : AtomicAction}
    {p q : Program} (hp : p.Closed) (hf : first.ValidIn p) (hs : second.ValidIn p) {r : ProcRef}
    (run : (addObligation o kind first second).run p = (.ok r, q)) :
    ∃ m d, p.DeclaresAmong (disjointnessSignatures p o first second) m ∧
      m.Offers (disjointnessSignatures p o first second) ∧ r = ⟨m.procedures.size⟩ ∧
      q = m.adding d := by
  rw [addObligation_run] at run
  generalize hdraft : (draft o kind first second).run p = result at run
  obtain ⟨_ | d, m⟩ := result
  · cases run
  · cases run
    obtain ⟨declares, offers⟩ := declares_draft hp hf hs hdraft
    exact ⟨m, d, declares, offers d rfl, rfl, rfl⟩

/-- The procedure of an obligation is named after the kind and the actions. -/
theorem name_addObligation {o : Ownership} {kind : ObligationKind} {first second : AtomicAction}
    {p q : Program} (hp : p.Closed) (hf : first.ValidIn p) (hs : second.ValidIn p) {r : ProcRef}
    (run : (addObligation o kind first second).run p = (.ok r, q)) :
    (q.procedure r).name = kind.procedureName first second := by
  obtain ⟨-, -, parts⟩ := (attempts_obligationParts hp kind hf hs).of_run run
  cases parts with
  | commutativity parts => rw [parts.procedure_eq, commutativityProcedure]
  | gatePreservation parts => rw [parts.procedure_eq, gatePreservationProcedure]
  | failurePreservation parts => rw [parts.procedure_eq, failurePreservationProcedure]

end AtomicMovers
