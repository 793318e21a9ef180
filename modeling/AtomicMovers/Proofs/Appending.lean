import AtomicMovers.Proofs.LedgerEntries

/-!
# The pass only appends

The program of a ledger is the input with more entries. All entries of the input keep their
positions and contents, but for one exception: the entry block of a tagged body may have lost the
assertions it starts with to the gate, and assumes them instead (`Program.Kept`). Blocks that were
added later are never touched again, and no reference dangles. All of this is `only_appends`.

The exception comes from one place, the making of an action (`block_ofBody`), and happens to a block
once: assuming a gate leaves no gate to assume (`assumeGate_assumeGate`).
-/

namespace AtomicMovers

open Program

/-! ## Entry blocks -/

/-- The block is where a tagged body of a declared procedure starts. -/
def Program.TaggedEntry (input : Program) (b : BlockRef) : Prop :=
  ∃ r ∈ input.procedureRefs, ∃ mover code, (mover, .body code) ∈
    Ledger.taggedConditions (input.procedure r) ∧ code.blocks.head? = some b

theorem assumeGate_assumeGate {ε : Type} (cs : List (Command ε)) :
    assumeGate (assumeGate cs) = assumeGate cs := by
  cases cs with
  | nil => rfl
  | cons c cs =>
    cases c with
    | assert e => rfl
    | assume e => rfl
    | assign updates => rfl

/-- The block, or the block with its gate assumed. -/
def Block.GateAssumed (old new : Block) : Prop :=
  new = old ∨ new = { old with commands := assumeGate old.commands }

theorem Block.GateAssumed.trans {a b c : Block} (h : a.GateAssumed b) (k : b.GateAssumed c) :
    a.GateAssumed c := by
  rcases h with rfl | rfl
  · exact k
  · rcases k with rfl | rfl
    · exact .inr rfl
    · exact .inr (by simp only [assumeGate_assumeGate])

/-- Making an action changes the entry block of the body only. -/
theorem block_ofBody {base p q : Program} (hbase : base.Closed) (hp : p.Closed)
    (hbp : base.Grows Block.Softens p) {r : ProcRef} (hr : base.HasProcedure r) {body : Body}
    (hbody : body.ValidIn base) {mover : Mover} {result : Except Error AtomicAction}
    (run : (AtomicAction.ofBody r body mover).run p = (result, q)) {b : BlockRef}
    (hb : p.HasBlock b) :
    q.block b = p.block b ∨ (body.blocks.head? = some b ∧ (p.block b).GateAssumed (q.block b)) := by
  rcases ofBody_run r body mover p with ⟨e, h⟩ | ⟨entry, rest, hblocks, h⟩
  · rw [h] at run
    cases run
    exact .inl rfl
  · obtain ⟨taken, grows, -, -⟩ := attempts_ofBody hbase hp hbp hr hbody mover hblocks
    rw [h] at run
    rw [run] at grows
    have hq := grows.block_eq (taken.grows.within.hasBlock hb)
    have made : (takeGate entry p).2 =
        p.modifyBlock entry fun b => { b with commands := assumeGate b.commands } := rfl
    rw [hq, made]
    by_cases heq : b = entry
    · subst heq
      rw [block_modifyBlock_self hb]
      exact .inr ⟨by rw [hblocks]; rfl, .inr rfl⟩
    · exact .inl (block_modifyBlock_of_ne heq _)

/-- An action that was made of a body has the body for its primary copy. -/
theorem eq_of_ofBody {p q : Program} {r : ProcRef} {body : Body} {mover : Mover} {a : AtomicAction}
    (run : (AtomicAction.ofBody r body mover).run p = (.ok a, q)) :
    ∃ entry rest shadow, body.blocks = entry :: rest ∧
      a = ⟨r, (p.procedure r).name, mover,
        primaryOf (p.procedure r) body (gateOf (p.block entry).commands), shadow⟩ := by
  rcases ofBody_run r body mover p with ⟨e, h⟩ | ⟨entry, rest, hblocks, h⟩
  · rw [h] at run
    cases run
  · rw [h, bind_run] at run
    generalize (AtomicAction.addShadow _ _).run _ = result at run
    obtain ⟨_ | shadow, q'⟩ := result
    · cases run
    · cases run
      exact ⟨entry, rest, shadow, hblocks, rfl⟩

/-! ## What is kept -/

/-- The program `q` has all of the input at the same positions, and of the blocks only entries of
tagged bodies have changed, if at all, to assume their gates. -/
structure Program.Kept (input q : Program) : Prop where
  vars : ∀ v, input.HasVar v → q.HasVar v ∧ q.var v = input.var v
  nodes : ∀ e, input.HasExpr e → q.HasExpr e ∧ q.node e = input.node e
  procedures : ∀ r, input.HasProcedure r → q.HasProcedure r ∧ q.procedure r = input.procedure r
  implementations : ∀ i, input.HasImplementation i →
    q.HasImplementation i ∧ q.implementation i = input.implementation i
  blocks : ∀ b, input.HasBlock b → q.HasBlock b ∧ (q.block b = input.block b ∨
    (input.TaggedEntry b ∧
      q.block b = { input.block b with commands := assumeGate (input.block b).commands }))

namespace Ledger

variable {input : Program} {log : List Obligation} {l m : Ledger}

/-- A step changes at most an entry block of a tagged body. -/
theorem Step.block (hinput : input.Closed) (h : Step input log l m) (hl : l.Assembled input)
    {b : BlockRef} (hb : l.program.HasBlock b) :
    m.program.block b = l.program.block b ∨
      (input.TaggedEntry b ∧ (l.program.block b).GateAssumed (m.program.block b)) := by
  have sound := hl.sound hinput
  have body {r : ProcRef} {mover : Mover} {code : Body} {result : Except Error AtomicAction}
      {q : Program} (hr : r ∈ input.procedureRefs)
      (hcode : (mover, .body code) ∈ taggedConditions (input.procedure r))
      (run : (AtomicAction.ofBody r code mover).run l.program = (result, q)) :
      q.block b = l.program.block b ∨
        (input.TaggedEntry b ∧ (l.program.block b).GateAssumed (q.block b)) :=
    (block_ofBody hinput.sharedBase sound.closed sound.grows (hinput.hasProcedure_of_mem hr)
      (validIn_of_tagged hinput hr hcode) run hb).imp_right
      fun k => ⟨⟨r, hr, mover, code, hcode, k.1⟩, k.2⟩
  have obligation {o : Obligation} {result : Except Error ProcRef} {q : Program}
      (hf : o.first ∈ l.actionRefs) (hs : o.second ∈ l.actionRefs)
      (run : (addObligation l.ownership o.kind (l.action o.first) (l.action o.second)).run
        l.program = (result, q)) : q.block b = l.program.block b := by
    have grows := (attempts_addObligation (o := l.ownership) sound.closed o.kind
      (sound.validIn (action_mem hf)) (sound.validIn (action_mem hs))).grows
    rw [run] at grows
    exact grows.block_eq hb
  cases h with
  | reported d => exact .inl rfl
  | registered hr hcode run => exact body hr hcode run
  | registerFails hr hcode run => exact body hr hcode run
  | found h => exact .inl rfl
  | entered new hf hs run => exact .inl (obligation hf hs run)
  | enterFails hf hs run => exact .inl (obligation hf hs run)

theorem Steps.block (hinput : input.Closed) (h : Steps input log l m) (hl : l.Assembled input)
    {b : BlockRef} (hb : l.program.HasBlock b) :
    m.program.block b = l.program.block b ∨
      (input.TaggedEntry b ∧ (l.program.block b).GateAssumed (m.program.block b)) := by
  induction h with
  | refl l => exact .inl rfl
  | step h last ih =>
    have hb' := (h.continues hinput hl).grows.within.hasBlock hb
    rcases ih hl hb with heq | ⟨tagged, assumed⟩
    · rw [← heq]
      exact last.block hinput (h.assembled hinput hl) hb'
    · refine .inr ⟨tagged, ?_⟩
      rcases last.block hinput (h.assembled hinput hl) hb' with heq | ⟨_, assumed'⟩
      · rw [heq]
        exact assumed
      · exact assumed.trans assumed'

theorem Steps.kept (hinput : input.Closed) {ownership : Ownership}
    (h : Steps input log (ofProgram input ownership) l) : input.Kept l.program := by
  have opened := assembled_ofProgram input ownership
  have grows := (h.continues hinput opened).grows
  have w := grows.within
  exact
    { vars := fun v hv => ⟨w.hasVar hv, grows.var_eq v hv⟩
      nodes := fun e he => ⟨w.hasExpr he, grows.exprs.node_eq he⟩
      procedures := fun r hr => ⟨w.hasProcedure hr, grows.procedure_eq r hr⟩
      implementations := fun i hi => ⟨w.hasImplementation hi, grows.implementation_eq i hi⟩
      blocks := fun b hb => by
        refine ⟨w.hasBlock hb, ?_⟩
        rcases h.block hinput opened hb with heq | ⟨tagged, heq | heq⟩
        · exact .inl heq
        · exact .inl heq
        · exact .inr ⟨tagged, heq⟩ }

/-! ## References of a ledger -/

/-- All references that the ledger keeps are valid. -/
structure RefsValid (l : Ledger) : Prop where
  actions : ∀ a ∈ l.actions.toList, l.program.HasProcedure a.procedure ∧ a.ValidIn l.program
  entries : ∀ x ∈ l.entries, x.1.first ∈ l.actionRefs ∧ x.1.second ∈ l.actionRefs ∧
    l.program.HasProcedure x.2

/-- Registered actions belong to procedures of the program. -/
theorem Steps.action_procedure (hinput : input.Closed) (h : Steps input log l m)
    (hactions : ∀ a ∈ l.actions.toList, input.HasProcedure a.procedure) :
    ∀ a ∈ m.actions.toList, input.HasProcedure a.procedure := by
  induction h with
  | refl l => exact hactions
  | step _ last ih =>
    cases last with
    | registered hr hcode run =>
      rw [Array.toList_push]
      refine List.forall_mem_append.2 ⟨ih hactions, List.forall_mem_singleton.2 ?_⟩
      obtain ⟨_, _, _, _, rfl⟩ := eq_of_ofBody run
      exact hinput.hasProcedure_of_mem hr
    | _ => exact ih hactions

theorem Steps.ownership_eq (h : Steps input log l m) : m.ownership = l.ownership := by
  induction h with
  | refl l => rfl
  | step _ last ih =>
    rw [← ih]
    cases last <;> rfl

/-- Whatever calls were made on a ledger, with or without success: its program has all of the input
at the same positions, except that entry blocks of tagged bodies may assume their gates; no reference
dangles; and no later call changes a block that is not one of the input. Finishing drops annotations
and changes nothing else. -/
theorem only_appends {input : Program} (hinput : input.Closed) {ownership : Ownership}
    {log : List Obligation} {l : Ledger} (h : Leads input log (ofProgram input ownership) l) :
    input.Kept l.program ∧ l.program.Closed ∧ l.RefsValid ∧
      (∀ log' m, Leads input log' l m → ∀ b, l.program.HasBlock b → ¬input.HasBlock b →
        m.program.block b = l.program.block b) ∧
      (ownership.strips = true → l.finish =
        { l.program with vars := l.program.vars.map fun v => { v with domain := none } }) := by
  have hl := h.assembled hinput
  have sound := hl.sound hinput
  have orderly := (h.steps.orderly hinput (assembled_ofProgram input ownership)
    (orderly_ofProgram input ownership).1 (orderly_ofProgram input ownership).2).2
  have procedures := h.steps.action_procedure hinput (by simp [ofProgram])
  refine ⟨h.steps.kept hinput, sound.closed, ⟨fun a ha => ?_, fun x hx => ?_⟩, ?_, fun strips => ?_⟩
  · exact ⟨sound.grows.within.hasProcedure (procedures a ha), sound.validIn ha⟩
  · obtain ⟨hf, hs, _⟩ := orderly.named x hx
    exact ⟨hf, hs, orderly.hasProcedure hinput hl x hx⟩
  · exact fun log' m hm b hb new => (hm.steps.continues hinput hl).kept b new hb
  · have same : l.ownership = ownership := h.steps.ownership_eq
    rw [finish, same, Ownership.strip, if_pos strips]

/-- Registering the deposit and entering all obligations about it. The deposit's body has lost its
gate, so this is not just a longer program. -/
theorem only_appends_deposit :
    ∃ log l, Leads Account.tagged log (ofProgram Account.tagged (.ofProgram Account.tagged)) l ∧
      l.program.block ⟨0⟩ ≠ Account.tagged.block ⟨0⟩ ∧ Account.tagged.Kept l.program ∧
      l.program.Closed ∧ l.finish =
        { l.program with vars := l.program.vars.map fun v => { v with domain := none } } := by
  have calls := ((@Leads.refl Account.tagged (ofProgram Account.tagged
    (.ofProgram Account.tagged))).call .register trivial).call .enterAll trivial
  obtain ⟨kept, closed, -, -, strips⟩ := only_appends Account.closed_tagged calls
  exact ⟨_, _, calls, by decide +kernel, kept, closed, strips rfl⟩

end Ledger

end AtomicMovers
