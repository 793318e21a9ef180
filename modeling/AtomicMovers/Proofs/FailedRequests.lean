import AtomicMovers.Proofs.LedgerEntries
import AtomicMovers.Proofs.SearchOutcomes

/-!
# Requests that fail

Entering an obligation fails for one reason only: the search for the completing paths of a relation
that the obligation states fails (`addObligation_error_iff`). Blocks of registered actions can
always be copied, since no goto leaves them, and everything else cannot fail. An obligation about
gates states no relation, so it is always entered.

When a search fails, expressions have been added, and before it blocks may have been copied and
predicates declared, but nothing refers to them (`NothingEntered`). The search reads blocks of
registered actions only, so it fails in the same way in the longer program
(`completingPaths_extends`); and its predicates are declared by then, so trying again declares
nothing. Main statement: `failed_requests_leave_nothing`.
-/

namespace AtomicMovers

open Program

/-! ## The same search in a longer program -/

section Search

variable {p q : Program} {next : Option BlockRef} {path : Path} {b : BlockRef}

theorem completePath_extends (hpq : p.Extends q) (hpath : ∀ x ∈ path, p.HasBlock x) :
    q.completePath path = p.completePath path := by
  have same : path.find? (fun x => (q.block x).commands.any Command.isAssert) =
      path.find? fun x => (p.block x).commands.any Command.isAssert :=
    List.find?_congr fun x hx => by rw [hpq.block_eq (hpath x hx)]
  unfold completePath
  rw [same]
  cases hfind : path.find? fun x => (p.block x).commands.any Command.isAssert with
  | none => rfl
  | some x => simp only [hpq.block_eq (hpath x (List.mem_of_find?_eq_some hfind))]

/-- Blocks that were there are searched as before. -/
theorem explore_extends (hp : p.Closed) (hpq : p.Extends q) {depth : Nat}
    (hpath : ∀ x ∈ path, p.HasBlock x) (hb : p.HasBlock b)
    (hnext : ∀ entry ∈ next, p.HasBlock entry) :
    q.explore depth next path b = p.explore depth next path b := by
  induction depth generalizing next path b with
  | zero => simp only [explore, hpq.block_eq hb]
  | succ depth ih =>
    unfold explore
    rw [hpq.block_eq hb]
    by_cases hmem : b ∈ path
    · rw [if_pos hmem, if_pos hmem]
    · rw [if_neg hmem, if_neg hmem]
      have longer : ∀ x ∈ b :: path, p.HasBlock x := List.forall_mem_cons.2 ⟨hb, hpath⟩
      cases htransfer : (p.block b).transfer with
      | leave => rfl
      | returnValue v =>
        cases next with
        | none => exact completePath_extends hpq longer
        | some entry => exact ih longer (hnext entry rfl) (by simp)
      | goto targets =>
        have targets_eq : ∀ c ∈ targets, q.explore depth next (b :: path) c =
            p.explore depth next (b :: path) c := by
          intro c hc
          apply ih longer _ hnext
          apply (hp.block hb).transfer.targets
          rw [htransfer]
          exact hc
        simp only [mapM_congr_left targets_eq]

/-- The paths that are found depend neither on what was added nor on the depth that this allows. -/
theorem completingPaths_extends (hp : p.Closed) (hpq : p.Extends q) (hb : p.HasBlock b)
    (hnext : ∀ entry ∈ next, p.HasBlock entry) :
    q.completingPaths b next = p.completingPaths b next := by
  have grown : p.blocks.size ≤ q.blocks.size := hpq.blocks_le
  calc q.explore (q.blocks.size + 1) next [] b
    _ = p.explore (q.blocks.size + 1) next [] b := explore_extends hp hpq (by simp) hb hnext
    _ = p.explore (p.blocks.size + 1) next [] b :=
      explore_depth hp List.nodup_nil (by simp) hb hnext
        (by rw [List.length_nil]; omega) (by rw [List.length_nil]; omega)

end Search

/-! ## What an obligation can fail for -/

/-- The actions behind the second one in the relation that an obligation states. One about gates
states no relation. -/
def ObligationKind.relates (first : AtomicAction) : ObligationKind → Option (Option AtomicAction)
  | commutativity => some (some first)
  | gatePreservation => none
  | failurePreservation => some none

/-- The failure of the search for the paths of the relation that an obligation states. -/
def SearchFails (p : Program) (kind : ObligationKind) (first second : AtomicAction) (e : Error) :
    Prop :=
  ∃ x ∈ kind.relates first, p.completingPaths second.shadow.entry (transitionNext x) = .error e

section Obligation

variable {base p q : Program} {actions : List AtomicAction} {o : Ownership} {kind : ObligationKind}
  {first second : AtomicAction} {e : Error}

theorem mem_of_relates (hf : first ∈ actions) {x : Option AtomicAction}
    (hx : x ∈ kind.relates first) : ∀ a ∈ x, a ∈ actions := by
  intro a ha
  cases kind with
  | commutativity =>
    cases hx
    cases ha
    exact hf
  | gatePreservation => cases hx
  | failurePreservation =>
    cases hx
    cases ha

section Registered

variable (sound : Assembly.Sound base p actions) (hf : first ∈ actions) (hs : second ∈ actions)

include sound hf hs

/-- A search that fails has met a cycle, a block that leaves, or an assertion. -/
theorem fault_of_searchFails (h : SearchFails p kind first second e) :
    ∃ x ∈ kind.relates first, TransitionFault p x second e := by
  obtain ⟨x, hx, failed⟩ := h
  exact ⟨x, hx, fault_of_completingPaths (sound.separated (mem_of_relates hf hx) hs) failed⟩

/-- Whether a search fails, and how, does not change while the program grows. -/
theorem searchFails_extends (hpq : p.Extends q) :
    SearchFails q kind first second e ↔ SearchFails p kind first second e := by
  refine exists_congr fun x => and_congr_right fun hx => ?_
  have sep := sound.separated (mem_of_relates hf hx) hs
  have hnext : ∀ entry ∈ transitionNext x, p.HasBlock entry := by
    intro entry hentry
    apply sep.hasBlock
    exact next_mem_transition (fun a ha => (sep.primary a ha).nonempty) entry hentry
  rw [completingPaths_extends sep.closed hpq (sep.hasBlock sep.stage.mem) hnext]

/-! ### Copies of blocks -/

theorem exists_runBlocks (hpq : p.Extends q) (hq : q.Closed) (exit : Option BlockRef)
    (hexit : ∀ b ∈ exit, q.HasBlock b) {copy : Replica}
    (hcopy : copy = first.primary ∨ copy = second.shadow) (owner : String) :
    ∃ cs r, ((runPlan exit).copyBlocks owner copy.blocks).run q = (.ok cs, r) := by
  have valid : ∀ b ∈ copy.blocks, p.HasBlock b := by
    rcases hcopy with rfl | rfl
    · exact (sound.validIn hf).primary.blocks
    · exact (sound.validIn hs).shadow.blocks
  have encloses : p.Encloses copy.blocks := by
    rcases hcopy with rfl | rfl
    · exact encloses_primary sound.grows (sound.built first hf)
    · exact encloses_shadow (sound.built second hs)
  apply exists_copyBlocks hq (faithful_runPlan hq hexit) owner
  · exact fun b hb => hpq.within.hasBlock (valid b hb)
  · intro b hb t ht
    rw [hpq.block_eq (valid b hb)] at ht
    exact encloses b hb t ht

theorem exists_copyInTurn : ∃ blocks q, (copyInTurn first second).run p = (.ok blocks, q) := by
  have shadow := (sound.validIn hs).shadow
  obtain ⟨secondBlocks, q, run⟩ := exists_runBlocks sound hf hs (Extends.refl p) sound.closed
    none (by simp) (.inr rfl) second.name
  obtain ⟨grows, closed, copied⟩ :=
    (attempts_runBlocks sound.closed none (by simp) _ shadow.blocks).of_run run
  have hentry : q.HasBlock (secondBlocks.headD default) :=
    copied.valid _ (List.of_mem_zip (copied.entry_mem shadow.nonempty)).2
  obtain ⟨firstBlocks, r, run'⟩ := exists_runBlocks sound hf hs grows closed
    (some (secondBlocks.headD default)) (by simpa using hentry) (.inl rfl) first.name
  refine ⟨(firstBlocks, secondBlocks), r, ?_⟩
  rw [copyInTurn, bind_run, run]
  dsimp only
  rw [bind_run, run']
  rfl

/-! ### Drafts -/

theorem exists_draftGatePreservation :
    ∃ d q, (draft o .gatePreservation first second).run p = (.ok d, q) := by
  obtain ⟨blocks, q, run⟩ := exists_runBlocks sound hf hs (Extends.refl p) sound.closed
    none (by simp) (.inr rfl) second.name
  rw [draft, draftGatePreservation, bind_run, run]
  exact ⟨_, _, rfl⟩

/-- The draft of a commutativity procedure comes to its relation, with all predicates declared. -/
theorem draftCommutativity_run : ∃ blocks requires q, p.Extends q ∧ q.Closed ∧
    q.Offers (disjointnessSignatures p o first second) ∧
    (draft o .commutativity first second).run p =
      (transition (some first) second >>= fun relation =>
        pure ⟨commutativityProcedure first second requires relation,
          first.primary.locals ++ second.shadow.locals, blocks⟩ : Build Draft).run q := by
  have valid := sound.validIn hf
  have valid' := sound.validIn hs
  obtain ⟨blocks, m, run⟩ := exists_copyInTurn sound hf hs
  obtain ⟨grows, closed, -⟩ := (attempts_copyInTurn sound.closed valid valid').of_run run
  have clauses := yields_addDisjointnessClauses (o := o) closed (valid.mono grows.within)
    (valid'.mono grows.within)
  have offers := (declares_mapM_addDisjointness
    ((o.domains.map fun d => (d, domainScope m first second d)).filter fun s => s.2 ≠ []) m).2
  refine ⟨blocks.1 ++ blocks.2, (addDisjointnessClauses o first second m).1,
    (addDisjointnessClauses o first second m).2, grows.trans clauses.grows, clauses.closed, ?_, ?_⟩
  · rw [← disjointnessSignatures_extends sound.closed valid valid' grows]
    exact offers
  · rw [draft, draftCommutativity, bind_run, run]
    rfl

omit hf in
/-- The variables of a relation that an obligation states. -/
theorem hasVar_frame {x : Option AtomicAction} (hx : ∀ a ∈ x, a ∈ actions) :
    ∀ v ∈ transitionFrame x second p, p.HasVar v :=
  (hasVar_of_mem_transition sound.closed x (fun a ha => (sound.validIn (hx a ha)).primary)
    (sound.validIn hs).shadow).2

omit hf in
/-- The search comes first in the draft of a failure preservation procedure. -/
theorem draftFailurePreservation_of_error
    (h : p.completingPaths second.shadow.entry (transitionNext none) = .error e) :
    ∃ q, (draft o .failurePreservation first second).run p = (.error e, q) ∧ p.AddsExprs q := by
  obtain ⟨q, run, adds⟩ :=
    transition_run_of_error sound.closed (hasVar_frame sound hs (by simp)) h
  refine ⟨q, ?_, adds⟩
  rw [draft, draftFailurePreservation, bind_run, relateFailure, bind_run, run]

omit hf in
theorem exists_draftFailurePreservation {paths : List Path}
    (h : p.completingPaths second.shadow.entry (transitionNext none) = .ok paths) :
    ∃ d q, (draft o .failurePreservation first second).run p = (.ok d, q) := by
  obtain ⟨relation, q, run⟩ := exists_transition sound.closed (hasVar_frame sound hs (by simp)) h
  rw [draft, draftFailurePreservation, bind_run, relateFailure, bind_run, run]
  exact ⟨_, _, rfl⟩

/-- A draft fails if the search does. For commutativity the predicates are declared by then; for
failure preservation nothing but expressions has been added. -/
theorem draft_of_searchFails (h : SearchFails p kind first second e) :
    ∃ q, (draft o kind first second).run p = (.error e, q) ∧
      (kind = .commutativity → q.Offers (disjointnessSignatures p o first second)) ∧
      (kind = .failurePreservation → p.AddsExprs q) := by
  cases kind with
  | commutativity =>
    obtain ⟨blocks, requires, q, hpq, hq, offers, run⟩ :=
      draftCommutativity_run (o := o) sound hf hs
    obtain ⟨_, ⟨⟩, failed⟩ : SearchFails q .commutativity first second e :=
      (searchFails_extends sound hf hs hpq).2 h
    have frame := hasVar_frame (sound.extends hpq hq) hs (x := some first) (by simpa using hf)
    obtain ⟨r, run', adds⟩ := transition_run_of_error hq frame failed
    refine ⟨r, ?_, fun _ => ?_, (fun other => by cases other)⟩
    · rw [run, bind_run, run']
    · rw [Program.Offers, adds.rest]
      exact offers
  | gatePreservation =>
    obtain ⟨_, ⟨⟩, _⟩ := h
  | failurePreservation =>
    obtain ⟨_, ⟨⟩, failed⟩ := h
    obtain ⟨q, run, adds⟩ : ∃ q, (draft o .failurePreservation first second).run p = (.error e, q) ∧
        p.AddsExprs q := draftFailurePreservation_of_error sound hs failed
    exact ⟨q, run, (fun other => by cases other), fun _ => adds⟩

/-- A draft succeeds if the search does not fail. -/
theorem exists_draft (h : ∀ e, ¬SearchFails p kind first second e) :
    ∃ d q, (draft o kind first second).run p = (.ok d, q) := by
  have unchanged {q : Program} (hpq : p.Extends q) (e : Error) :
      ¬SearchFails q kind first second e := fun failed =>
    h e ((searchFails_extends sound hf hs hpq).1 failed)
  cases kind with
  | commutativity =>
    obtain ⟨blocks, requires, q, hpq, hq, -, run⟩ :=
      draftCommutativity_run (o := o) sound hf hs
    have frame := hasVar_frame (sound.extends hpq hq) hs (x := some first) (by simpa using hf)
    cases hpaths : q.completingPaths second.shadow.entry (transitionNext (some first)) with
    | error e => exact absurd ⟨_, rfl, hpaths⟩ (unchanged hpq e)
    | ok paths =>
      obtain ⟨relation, r, done⟩ := exists_transition hq frame hpaths
      rw [run, bind_run, done]
      exact ⟨_, _, rfl⟩
  | gatePreservation => exact exists_draftGatePreservation sound hf hs
  | failurePreservation =>
    cases hpaths : p.completingPaths second.shadow.entry (transitionNext none) with
    | error e => exact absurd ⟨_, rfl, hpaths⟩ (h e)
    | ok paths => exact exists_draftFailurePreservation sound hs hpaths

/-- Adding an obligation fails exactly as the search for the paths of its relation does. -/
theorem addObligation_error_iff :
    (∃ q, (addObligation o kind first second).run p = (.error e, q)) ↔
      SearchFails p kind first second e := by
  rw [addObligation_run]
  constructor
  · intro ⟨q, run⟩
    by_cases h : ∃ e', SearchFails p kind first second e'
    · obtain ⟨e', h⟩ := h
      obtain ⟨r, failed, -⟩ := draft_of_searchFails (o := o) sound hf hs h
      rw [failed] at run
      cases run
      exact h
    · obtain ⟨d, r, done⟩ := exists_draft (o := o) sound hf hs (not_exists.1 h)
      rw [done] at run
      cases run
  · intro h
    obtain ⟨q, failed, -⟩ := draft_of_searchFails (o := o) sound hf hs h
    exact ⟨q, by rw [failed]⟩

end Registered

end Obligation

/-! ## What stays -/

/-- Nothing is declared of which all is declared. -/
theorem Program.DeclaresAmong.declarations_eq {p q : Program} {wanted : List FunctionSig}
    (h : p.DeclaresAmong wanted q) (offers : p.Offers wanted) :
    q.declarations = p.declarations := by
  obtain ⟨sigs, hsigs, declares⟩ := h
  have none : sigs = [] := by
    apply List.eq_nil_iff_forall_not_mem.2
    intro sig hsig
    exact declares.new sig hsig (offers sig (hsigs sig hsig))
  rw [declares.declarations_eq, none]
  exact List.takeWhile_append_dropWhile

/-- A failure that stems from a search for completing paths. -/
inductive Error.OfSearch : Error → Prop where
  | cyclicAction (label : String) : OfSearch (.cyclicAction label)
  | unrecognizedTransfer (label : String) : OfSearch (.unrecognizedTransfer label)
  | unsupportedAssert (label : String) : OfSearch (.unsupportedAssert label)

theorem TransitionFault.ofSearch {p : Program} {first : Option AtomicAction} {second : AtomicAction}
    {e : Error} (h : TransitionFault p first second e) : e.OfSearch := by
  cases h with
  | cycle => exact .cyclicAction _
  | leave => exact .unrecognizedTransfer _
  | assertion => exact .unsupportedAssert _

namespace Ledger

/-- The tables of the program may have grown and predicates may have been declared, but no
obligation was entered. -/
structure NothingEntered (l m : Ledger) : Prop where
  entries_eq : m.entries = l.entries
  actions_eq : m.actions = l.actions
  diagnostics_eq : m.diagnostics = l.diagnostics
  /-- All entries of all tables are as they were. -/
  grows : l.program.Extends m.program
  procedures_eq : m.program.procedures = l.program.procedures
  implementations_eq : m.program.implementations = l.program.implementations
  /-- What was declared are predicates, where functions belong. -/
  declarations_eq : ∃ sigs : List FunctionSig,
    (∀ sig ∈ sigs, ∃ domain arity, sig.name = Ownership.predicateName domain arity) ∧
    m.program.declarations = l.program.declarations.takeWhile Declaration.precedesFunctions ++
      (sigs.map .function ++ l.program.declarations.dropWhile Declaration.precedesFunctions)

section Enter

variable {input : Program} {l m : Ledger} {o : Obligation} {e : Error}

theorem entry?_eq_none (h : o ∉ l.entries.map Prod.fst) : l.entry? o = none := by
  rw [← Option.not_isSome_iff_eq_none, entry?_isSome]
  exact h

variable (hinput : input.Closed) (hl : l.Assembled input) (hf : o.first ∈ l.actionRefs)
  (hs : o.second ∈ l.actionRefs)

include hinput hl hf hs

/-- A request fails exactly if the obligation has no entry and its search fails. -/
theorem enter_error_iff :
    (∃ m, (enter o).run l = (.error e, m)) ↔ o ∉ l.entries.map Prod.fst ∧
      SearchFails l.program o.kind (l.action o.first) (l.action o.second) e := by
  rw [← addObligation_error_iff (o := l.ownership) (hl.sound hinput) (action_mem hf)
    (action_mem hs)]
  cases hentry : l.entry? o with
  | some r =>
    have known : o ∈ l.entries.map Prod.fst := entry?_isSome.1 (by rw [hentry]; rfl)
    rw [enter_run_found hentry]
    constructor
    · intro ⟨m, run⟩
      cases run
    · intro ⟨new, _⟩
      exact absurd known new
  | none =>
    have new : o ∉ l.entries.map Prod.fst := by
      rw [← entry?_isSome, hentry]
      simp
    rw [enter_run_new hentry]
    generalize (addObligation l.ownership o.kind (l.action o.first) (l.action o.second)).run
      l.program = result
    obtain ⟨x | r, q⟩ := result
    · constructor
      · intro ⟨m, run⟩
        cases run
        exact ⟨new, q, rfl⟩
      · intro ⟨_, q', run⟩
        cases run
        exact ⟨_, rfl⟩
    · constructor
      · intro ⟨m, run⟩
        cases run
      · intro ⟨_, q', run⟩
        cases run

/-- What a failed request does: the program is the one that the draft ended with. -/
theorem enter_of_searchFails (new : o ∉ l.entries.map Prod.fst)
    (h : SearchFails l.program o.kind (l.action o.first) (l.action o.second) e) :
    ∃ q, (enter o).run l = (.error e, { l with program := q }) ∧ l.program.Extends q ∧
      l.program.DeclaresAmong (l.predicates o) q ∧
      (o.kind = .commutativity → q.Offers (l.predicates o)) ∧
      (o.kind = .failurePreservation → l.program.AddsExprs q) := by
  have sound := hl.sound hinput
  have valid := sound.validIn (action_mem hf)
  have valid' := sound.validIn (action_mem hs)
  obtain ⟨q, failed, reached⟩ :=
    draft_of_searchFails (o := l.ownership) sound (action_mem hf) (action_mem hs) h
  have run : (addObligation l.ownership o.kind (l.action o.first) (l.action o.second)).run
      l.program = (.error e, q) := by
    rw [addObligation_run, failed]
  have grows := (attempts_addObligation (o := l.ownership) sound.closed o.kind valid valid').grows
  rw [run] at grows
  refine ⟨q, ?_, grows, (declares_draft sound.closed valid valid' failed).1, reached⟩
  rw [enter_run_new (entry?_eq_none new), run]

/-- A failed request enters nothing. -/
theorem nothingEntered_of_error (run : (enter o).run l = (.error e, m)) : NothingEntered l m := by
  obtain ⟨new, failed⟩ := (enter_error_iff hinput hl hf hs).1 ⟨m, run⟩
  obtain ⟨q, run', grows, ⟨sigs, hsigs, declares⟩, -, -⟩ :=
    enter_of_searchFails hinput hl hf hs new failed
  rw [run'] at run
  cases run
  refine ⟨rfl, rfl, rfl, grows, declares.procedures_eq, declares.implementations_eq, sigs, ?_,
    declares.declarations_eq⟩
  intro sig hsig
  obtain ⟨s, -, rfl⟩ := List.mem_map.1 (hsigs sig hsig)
  exact ⟨s.1, s.2.length, rfl⟩

/-- A failed request fails again, in the same way, and declares nothing more. -/
theorem enter_fails_again (run : (enter o).run l = (.error e, m)) :
    ∃ q, (enter o).run m = (.error e, { m with program := q }) ∧
      q.declarations = m.program.declarations := by
  have sound := hl.sound hinput
  obtain ⟨new, failed⟩ := (enter_error_iff hinput hl hf hs).1 ⟨m, run⟩
  obtain ⟨q, run', grows, -, offers, -⟩ := enter_of_searchFails hinput hl hf hs new failed
  have assembled : ({ l with program := q } : Ledger).Assembled input := by
    have step : Step input _ l _ := step_enter hf hs
    rw [run'] at step
    exact step.assembled hinput hl
  rw [run'] at run
  cases run
  -- the actions are the same, so the search fails in the longer program as well
  have failed' : SearchFails q o.kind (l.action o.first) (l.action o.second) e :=
    (searchFails_extends sound (action_mem hf) (action_mem hs) grows).2 failed
  obtain ⟨q', again, -, declares, -, adds⟩ :=
    enter_of_searchFails hinput assembled hf hs new failed'
  refine ⟨q', again, ?_⟩
  cases hkind : o.kind with
  | commutativity =>
    have same := disjointnessSignatures_extends (o := l.ownership) sound.closed
      (sound.validIn (action_mem hf)) (sound.validIn (action_mem hs)) grows
    apply declares.declarations_eq
    show q.Offers (disjointnessSignatures q l.ownership (l.action o.first) (l.action o.second))
    rw [same]
    exact offers hkind
  | gatePreservation =>
    rw [hkind] at failed
    obtain ⟨_, ⟨⟩, _⟩ := failed
  | failurePreservation => rw [(adds hkind).rest]

omit hinput hl hf hs in
/-- What was entered or found has an entry. -/
theorem mem_entries_of_enter {r : ProcRef} (run : (enter o).run l = (.ok r, m)) :
    o ∈ m.entries.map Prod.fst := by
  cases hentry : l.entry? o with
  | some r' =>
    rw [enter_run_found hentry] at run
    cases run
    exact entry?_isSome.1 (by rw [hentry]; rfl)
  | none =>
    rw [enter_run_new hentry] at run
    generalize (addObligation l.ownership o.kind (l.action o.first) (l.action o.second)).run
      l.program = result at run
    obtain ⟨x | r', q⟩ := result
    · cases run
    · cases run
      simp

omit hinput hl hf hs in
theorem enter_run_of_mem (h : o ∈ l.entries.map Prod.fst) : ∃ r, (enter o).run l = (.ok r, l) := by
  obtain ⟨r, hr⟩ := Option.isSome_iff_exists.1 (entry?_isSome.2 h)
  exact ⟨r, enter_run_found hr⟩

end Enter

/-! ## Lists of requests -/

section Requests

variable {input : Program} {l m : Ledger} {os : List Obligation} {e : Error}

/-- Requests register nothing. -/
theorem actions_enter (o : Obligation) (l : Ledger) : ((enter o).run l).2.actions = l.actions := by
  cases hentry : l.entry? o with
  | some r => rw [enter_run_found hentry]
  | none =>
    rw [enter_run_new hentry]
    rcases (addObligation l.ownership o.kind (l.action o.first) (l.action o.second)).run
      l.program with ⟨x | r, q⟩ <;> rfl

theorem actions_requests (os : List Obligation) (l : Ledger) :
    ((os.forM request).run l).2.actions = l.actions := by
  induction os generalizing l with
  | nil => rfl
  | cons o os ih =>
    have first := actions_enter o l
    rw [List.forM, bind_run, request_run]
    generalize (enter o).run l = result at *
    obtain ⟨x | r, n⟩ := result
    · exact first
    · exact (ih n).trans first

/-- A list of requests that has failed fails again. What was granted is found, up to the same
request, which fails again. -/
theorem requests_fail_again (hinput : input.Closed) (hl : l.Assembled input)
    (hos : ∀ o ∈ os, o.first ∈ l.actionRefs ∧ o.second ∈ l.actionRefs)
    (run : (os.forM request).run l = (.error e, m)) :
    ∃ q, (os.forM request).run m = (.error e, { m with program := q }) ∧
      q.declarations = m.program.declarations := by
  induction os generalizing l with
  | nil => cases run
  | cons o os ih =>
    rw [List.forall_mem_cons] at hos
    have first : Step input _ l _ := step_enter hos.1.1 hos.1.2
    rw [List.forM, bind_run, request_run] at run ⊢
    generalize hrun : (enter o).run l = result at first run
    obtain ⟨x | r, n⟩ := result
    · cases run
      obtain ⟨q, again, same⟩ := enter_fails_again hinput hl hos.1.1 hos.1.2 hrun
      refine ⟨q, ?_, same⟩
      rw [again]
    · have kept := first.prefix_actions
      have later : ∀ o' ∈ os, o'.first ∈ n.actionRefs ∧ o'.second ∈ n.actionRefs := fun o' ho' =>
        ⟨actionRefs_subset kept (hos.2 o' ho').1, actionRefs_subset kept (hos.2 o' ho').2⟩
      have hn := first.assembled hinput hl
      have steps : Steps input (granted os n) n ((os.forM request).run n).2 := steps_requests later
      rw [show (os.forM request).run n = (.error e, m) from run] at steps
      have known : o ∈ m.entries.map Prod.fst :=
        ((steps.prefix_entries hinput hn).map Prod.fst).subset (mem_entries_of_enter hrun)
      obtain ⟨r', found⟩ := enter_run_of_mem known
      rw [found]
      exact ih hn later run

theorem enterAll_run (l : Ledger) : enterAll.run l = (l.wanted.forM request).run l := rfl

/-- A failed attempt to enter all obligations fails again. -/
theorem enterAll_fails_again (hinput : input.Closed) (hl : l.Assembled input)
    (run : enterAll.run l = (.error e, m)) :
    ∃ q, enterAll.run m = (.error e, { m with program := q }) ∧
      q.declarations = m.program.declarations := by
  rw [enterAll_run] at run
  have kept : m.actions = l.actions := by
    have kept := actions_requests l.wanted l
    rw [run] at kept
    exact kept
  have same : m.wanted = l.wanted := by
    simp only [wanted, actionRefs, action, kept]
  rw [enterAll_run, same]
  exact requests_fail_again hinput hl
    (fun o ho => ⟨(mem_wanted.1 ho).1, (mem_wanted.1 ho).2.1⟩) run

end Requests

/-- Whatever calls were made on a ledger, with or without success: an obligation about gates can
always be entered. A request for another obligation about registered actions may fail, but only
because of what the search for completing paths meets. It enters nothing then, and fails again in
the same way, as does entering all obligations; a new try makes no entries and declares nothing. -/
theorem failed_requests_leave_nothing {input : Program} (hinput : input.Closed)
    {ownership : Ownership} {log : List Obligation} {l : Ledger}
    (h : Leads input log (ofProgram input ownership) l) :
    (∀ o : Obligation, o.first ∈ l.actionRefs → o.second ∈ l.actionRefs →
      (o.kind = .gatePreservation → ∃ r m, (enter o).run l = (.ok r, m)) ∧
      ∀ e m, (enter o).run l = (.error e, m) → e.OfSearch ∧ NothingEntered l m ∧
        ∃ n, (enter o).run m = (.error e, n) ∧ n.entries = m.entries ∧
          n.program.declarations = m.program.declarations) ∧
    ∀ e m, enterAll.run l = (.error e, m) → ∃ n, enterAll.run m = (.error e, n) ∧
      n.entries = m.entries ∧ n.program.declarations = m.program.declarations := by
  have hl := h.assembled hinput
  refine ⟨fun o hf hs => ⟨fun hkind => ?_, fun e m run => ?_⟩, fun e m run => ?_⟩
  · generalize hrun : (enter o).run l = result
    obtain ⟨e | r, m⟩ := result
    · obtain ⟨-, x, hx, -⟩ := (enter_error_iff hinput hl hf hs).1 ⟨m, hrun⟩
      rw [hkind] at hx
      cases hx
    · exact ⟨r, m, rfl⟩
  · obtain ⟨-, failed⟩ := (enter_error_iff hinput hl hf hs).1 ⟨m, run⟩
    obtain ⟨x, -, fault⟩ :=
      fault_of_searchFails (hl.sound hinput) (action_mem hf) (action_mem hs) failed
    obtain ⟨q, again, same⟩ := enter_fails_again hinput hl hf hs run
    exact ⟨fault.ofSearch, nothingEntered_of_error hinput hl hf hs run, _, again, rfl, same⟩
  · obtain ⟨q, again, same⟩ := enterAll_fails_again hinput hl run
    exact ⟨_, again, rfl, same⟩

end Ledger

namespace Account

/-- The account, where a deposit that would do nothing is tried again instead. -/
def retrying : Program := { tagged with blocks := tagged.blocks.set! 2 ⟨"skip", [], .goto [⟨0⟩]⟩ }

theorem closed_retrying : retrying.Closed := by decide +kernel

/-- The ledger in which this deposit is registered. -/
def retryingLedger : Ledger :=
  Ledger.Call.after retrying .register (.ofProgram retrying (.ofProgram retrying))

end Account

namespace Ledger

/-- The deposit that is tried again does not complete on all paths. A failed request for
commutativity has declared a predicate, and the same request declares no other one. A failed request
for failure preservation has added expressions, those of the paths that do complete among them. -/
theorem failed_requests_leave_nothing_retrying :
    (∃ m n, (enter ⟨.commutativity, ⟨0⟩, ⟨0⟩⟩).run Account.retryingLedger =
        (.error (.cyclicAction "entry"), m) ∧
      (enter ⟨.commutativity, ⟨0⟩, ⟨0⟩⟩).run m = (.error (.cyclicAction "entry"), n) ∧
      Account.retryingLedger.program.declarations.length = 2 ∧
      m.program.declarations.length = 3 ∧ n.program.declarations = m.program.declarations) ∧
    ∃ m, (enter ⟨.failurePreservation, ⟨0⟩, ⟨0⟩⟩).run Account.retryingLedger =
        (.error (.cyclicAction "that_entry"), m) ∧
      NothingEntered Account.retryingLedger m ∧
      Account.retryingLedger.program.exprs.size < m.program.exprs.size := by
  have leads : Leads Account.retrying [] (ofProgram Account.retrying (.ofProgram Account.retrying))
      Account.retryingLedger := (Leads.refl _).call .register trivial
  have failed := (failed_requests_leave_nothing Account.closed_retrying leads).1
  have run : (enter ⟨.commutativity, ⟨0⟩, ⟨0⟩⟩).run Account.retryingLedger =
      (.error (.cyclicAction "entry"),
        ((enter ⟨.commutativity, ⟨0⟩, ⟨0⟩⟩).run Account.retryingLedger).2) :=
    eq_error_of_fst (by decide +kernel)
  have run' : (enter ⟨.failurePreservation, ⟨0⟩, ⟨0⟩⟩).run Account.retryingLedger =
      (.error (.cyclicAction "that_entry"),
        ((enter ⟨.failurePreservation, ⟨0⟩, ⟨0⟩⟩).run Account.retryingLedger).2) :=
    eq_error_of_fst (by decide +kernel)
  obtain ⟨-, -, n, again, -, same⟩ := (failed ⟨.commutativity, ⟨0⟩, ⟨0⟩⟩ (by decide +kernel)
    (by decide +kernel)).2 _ _ run
  obtain ⟨-, entered, -⟩ := (failed ⟨.failurePreservation, ⟨0⟩, ⟨0⟩⟩ (by decide +kernel)
    (by decide +kernel)).2 _ _ run'
  exact ⟨⟨_, n, run, again, by decide +kernel, by decide +kernel, same⟩,
    _, run', entered, by decide +kernel⟩

end Ledger

end AtomicMovers
