import AtomicMovers.Proofs.Siblings

/-!
# The order of requests

Obligations can be requested in any order and any number of times. The order decides which variables,
blocks and procedures an obligation is made of, and where the predicates of disjointness clauses are
declared, but none of this shows in the texts (`texts_independent_of_order`): the programs that two
orders lead to are siblings as soon as the same obligations have entries.
-/

namespace AtomicMovers

open Program

/-! ## Finished programs -/

section Strip

variable (o : Ownership) (p : Program)

/-- Only the ownership annotation of a variable may be gone. -/
theorem Ownership.var_strip (v : VarRef) : ∃ d, (o.strip p).var v = { p.var v with domain := d } := by
  rw [strip]
  split
  · refine ⟨.none, ?_⟩
    rw [Program.var, Program.var]
    by_cases hv : v.index < p.vars.size
    · simp [hv]
    · simp only [Array.getD_eq_getD_getElem?, Array.getElem?_map, Array.getElem?_eq_none
        (Nat.le_of_not_lt hv)]
      rfl
  · exact ⟨_, rfl⟩

theorem Ownership.declarations_strip : (o.strip p).declarations = p.declarations := by
  rw [strip]
  split <;> rfl

/-- Annotations do not show. -/
theorem lexicon_strip (vs : List VarRef) : (o.strip p).lexicon vs = p.lexicon vs := by
  have shown (v : VarRef) : ((o.strip p).var v).name = (p.var v).name ∧
      ((o.strip p).var v).shownName = (p.var v).shownName ∧
      ((o.strip p).var v).ty = (p.var v).ty := by
    obtain ⟨d, hd⟩ := o.var_strip p v
    rw [hd]
    exact ⟨rfl, rfl, rfl⟩
  have enter : NameScope.enter (o.strip p) = NameScope.enter p := by
    funext s d
    cases d <;> simp only [NameScope.enter, (shown _).1]
  have giveName : NameScope.giveName (o.strip p) = NameScope.giveName p := by
    funext s v
    rw [NameScope.giveName, NameScope.giveName, (shown v).2.1]
  have nameOf : NameScope.nameOf (o.strip p) = NameScope.nameOf p := by
    funext s v
    rw [NameScope.nameOf, NameScope.nameOf, (shown v).2.1]
  simp only [Program.lexicon, NameScope.ofProgram, NameScope.giveNames,
    o.declarations_strip p, enter, giveName, nameOf, (shown _).2.2]

theorem renderProcedure_strip (r : Procedure) :
    (o.strip p).renderProcedure r = p.renderProcedure r := by
  have lex := lexicon_strip o p
  rw [Ownership.strip] at lex ⊢
  split
  · rename_i h
    simp only [h, if_true] at lex
    rw [Program.renderProcedure, lex]
    rfl
  · rfl

theorem renderImplementation_strip (i : Implementation) :
    (o.strip p).renderImplementation i = p.renderImplementation i := by
  have block : (o.strip p).block = p.block := by
    rw [Ownership.strip]
    split <;> rfl
  have expr : (o.strip p).expr = p.expr := by
    rw [Ownership.strip]
    split <;> rfl
  have commands : (o.strip p).commands = p.commands := by
    funext b
    rw [Program.commands, Program.commands, block, expr]
  have mentions : (o.strip p).blockMentions = p.blockMentions := by
    funext b
    rw [Program.blockMentions, Program.blockMentions, commands, block]
    cases (p.block b).transfer <;> simp only [Program.transferMentions, expr]
  have renderBlock : (o.strip p).renderBlock = p.renderBlock := by
    funext lex labels b
    rw [Program.renderBlock, Program.renderBlock, commands, block]
    cases (p.block b).transfer <;> simp only [Program.renderTransfer, expr, block]
  rw [renderImplementation_def, renderImplementation_def, lexicon_strip, renderBlock,
    Program.implementationMentions, Program.implementationMentions, mentions, blockLabels, blockLabels,
    block]

end Strip

/-! ## Two orders -/

namespace Ledger

variable {input : Program} {l m m' : Ledger}

/-- A ledger that steps have led to, before obligations are entered. -/
theorem Steps.ready (hinput : input.Closed) {ownership : Ownership} {log : List Obligation}
    (h : Steps input log (ofProgram input ownership) l) (hentries : l.entries = []) : l.Ready := by
  have sound := (h.assembled hinput (assembled_ofProgram input ownership)).sound hinput
  exact ⟨sound.closed, fun a ha => sound.validIn (action_mem ha), hentries⟩

/-- What is known of a ledger in which obligations were entered. -/
theorem Steps.orderly_of_enters (hinput : input.Closed) {ownership : Ownership}
    {log : List Obligation} (h : Steps input log (ofProgram input ownership) l) (k : Enters l m) :
    m.Matched ∧ ∃ log, m.Orderly log := by
  obtain ⟨log', steps⟩ : ∃ log', Steps input log' l m := k.steps
  have orderly := (h.trans steps).orderly hinput (assembled_ofProgram input ownership)
    (orderly_ofProgram input ownership).1 (orderly_ofProgram input ownership).2
  exact ⟨orderly.1, _, orderly.2⟩

/-- Which names of functions are declared is decided by the entries. -/
theorem Progress.mem_new_iff (h : Progress l m) {new : List FunctionSig}
    (perm : m.program.functions.Perm (l.program.functions ++ new))
    (origin : ∀ sig ∈ new, sig.name ∉ l.program.functionNames ∧
      ∃ x ∈ m.entries, sig ∈ l.predicates x.1) {name : String} :
    name ∈ new.map FunctionSig.name ↔ name ∉ l.program.functionNames ∧
      ∃ x ∈ m.entries, name ∈ (l.predicates x.1).map FunctionSig.name := by
  constructor
  · intro hname
    obtain ⟨sig, hsig, rfl⟩ := List.mem_map.1 hname
    obtain ⟨hold, x, hx, hmem⟩ := origin sig hsig
    exact ⟨hold, x, hx, List.mem_map.2 ⟨sig, hmem, rfl⟩⟩
  · rintro ⟨hold, x, hx, hmem⟩
    obtain ⟨sig, hsig, rfl⟩ := List.mem_map.1 hmem
    have declared := (perm.map FunctionSig.name).mem_iff.1 (h.offers x hx sig hsig)
    rw [List.map_append, List.mem_append] at declared
    exact declared.resolve_left hold

/-- The same entries make for the same names of functions. -/
theorem Progress.functionNames_perm (h : Progress l m) (h' : Progress l m')
    (keys : ∀ o, o ∈ m.entries.map Prod.fst ↔ o ∈ m'.entries.map Prod.fst) :
    m.program.functionNames.Perm m'.program.functionNames := by
  obtain ⟨new, perm, nodup, origin⟩ := h.functions
  obtain ⟨new', perm', nodup', origin'⟩ := h'.functions
  have moved {m m' : Ledger} (keys : ∀ o, o ∈ m.entries.map Prod.fst → o ∈ m'.entries.map Prod.fst)
      {P : Obligation → Prop} (h : ∃ x ∈ m.entries, P x.1) : ∃ x ∈ m'.entries, P x.1 := by
    obtain ⟨x, hx, hP⟩ := h
    obtain ⟨x', hx', heq⟩ := List.mem_map.1 (keys x.1 (List.mem_map.2 ⟨x, hx, rfl⟩))
    exact ⟨x', hx', heq ▸ hP⟩
  have same : (new.map FunctionSig.name).Perm (new'.map FunctionSig.name) := by
    rw [List.perm_ext_iff_of_nodup nodup nodup']
    intro name
    rw [h.mem_new_iff perm origin, h'.mem_new_iff perm' origin']
    let uses (o : Obligation) : Prop := name ∈ (l.predicates o).map FunctionSig.name
    exact and_congr_right fun _ =>
      ⟨moved (P := uses) fun o => (keys o).1, moved (P := uses) fun o => (keys o).2⟩
  have left := perm.map FunctionSig.name
  have right := perm'.map FunctionSig.name
  rw [List.map_append] at left right
  exact left.trans ((same.append_left _).trans right.symm)

/-- Two orders lead to siblings. -/
theorem Progress.siblings (hl : l.Ready) (h : Progress l m) (h' : Progress l m')
    (keys : ∀ o, o ∈ m.entries.map Prod.fst ↔ o ∈ m'.entries.map Prod.fst) :
    Siblings l.program m.program m'.program where
  closed := hl.closed
  left := h.grows
  right := h'.grows
  left_named := h.namedRefs_eq
  right_named := h'.namedRefs_eq
  functionNames := h.functionNames_perm h' keys

theorem mem_entries_of_entry? {o : Obligation} {r : ProcRef} (h : l.entry? o = some r) :
    (o, r) ∈ l.entries := by
  obtain ⟨l₁, l₂, heq, _⟩ := List.lookup_eq_some_iff.1 h
  rw [heq]
  simp

theorem implementationsOf_finish (l : Ledger) (r : ProcRef) :
    l.finish.implementationsOf r = l.program.implementationsOf r := by
  rw [finish, Ownership.strip]
  split <;> rfl

theorem implementation_finish (l : Ledger) (i : ImplRef) :
    l.finish.implementation i = l.program.implementation i := by
  rw [finish, Ownership.strip]
  split <;> rfl

theorem procedure_finish (l : Ledger) (r : ProcRef) :
    l.finish.procedure r = l.program.procedure r := by
  rw [finish, Ownership.strip]
  split <;> rfl

/-- The actions of a ledger being registered, let obligations about them be requested with success,
in two different orders and with any repetitions. If the same obligations have entries in the end, then
every entry has the same texts in the two finished programs: its procedure, and the one
implementation of this procedure. -/
theorem texts_independent_of_order {input : Program} (hinput : input.Closed) {ownership : Ownership}
    {log : List Obligation} {l m m' : Ledger} (h : Leads input log (ofProgram input ownership) l)
    (hentries : l.entries = []) {os os' : List Obligation}
    (hos : ∀ o ∈ os ++ os', o.first ∈ l.actionRefs ∧ o.second ∈ l.actionRefs)
    (run : (os.forM request).run l = (.ok (), m)) (run' : (os'.forM request).run l = (.ok (), m'))
    (keys : ∀ o, (m.entry? o).isSome ↔ (m'.entry? o).isSome) {o : Obligation} {r : ProcRef}
    (hr : m.entry? o = some r) :
    ∃ r', m'.entry? o = some r' ∧
      m'.finish.renderProcedure (m'.finish.procedure r') =
        m.finish.renderProcedure (m.finish.procedure r) ∧
      ∃ i i', m.finish.implementationsOf r = [i] ∧ m'.finish.implementationsOf r' = [i'] ∧
        m'.finish.renderImplementation (m'.finish.implementation i') =
          m.finish.renderImplementation (m.finish.implementation i) := by
  have ready := h.steps.ready hinput hentries
  have enters := enters_of_requests (List.forall_mem_append.1 hos).1 run
  have enters' := enters_of_requests (List.forall_mem_append.1 hos).2 run'
  obtain ⟨r', hr'⟩ := Option.isSome_iff_exists.1 ((keys o).1 (by rw [hr]; rfl))
  -- what is known of each of the two ledgers
  have known {n : Ledger} (hn : Enters l n) {x : ProcRef} (hx : n.entry? o = some x) :
      (o.first ∈ l.actionRefs ∧ o.second ∈ l.actionRefs ∧ ObligationParts l.program l.ownership
        (l.action o.first) (l.action o.second) o.kind x n.program) ∧
      ∃ i, n.program.implementationsOf x = [i] := by
    obtain ⟨matched, log', orderly⟩ := h.steps.orderly_of_enters hinput hn
    have mem := mem_entries_of_entry? hx
    exact ⟨(hn.progress ready).parts ready matched orderly.refs_nodup mem,
      matched.implementationsOf_eq orderly.refs_nodup mem⟩
  obtain ⟨⟨hf, hs, parts⟩, i, hi⟩ := known enters hr
  obtain ⟨⟨-, -, parts'⟩, i', hi'⟩ := known enters' hr'
  have siblings := (enters.progress ready).siblings ready (enters'.progress ready) fun o => by
    rw [← entry?_isSome, ← entry?_isSome]
    exact keys o
  obtain ⟨procedure_eq, x, x', hx, hx', implementation_eq⟩ :=
    siblings.texts_eq (ready.valid _ hf) (ready.valid _ hs) parts parts'
  refine ⟨r', hr', ?_, i, i', ?_, ?_, ?_⟩
  · rw [procedure_finish, procedure_finish, finish, finish, renderProcedure_strip,
      renderProcedure_strip]
    exact procedure_eq
  · rw [implementationsOf_finish, hi]
  · rw [implementationsOf_finish, hi']
  · rw [implementation_finish, implementation_finish, finish, finish, renderImplementation_strip,
      renderImplementation_strip, hx.implementation_eq hi, hx'.implementation_eq hi']
    exact implementation_eq

end Ledger

namespace Account

open Ledger

/-- The ledger in which the deposit is registered. -/
def ledger : Ledger := Call.after tagged .register (.ofProgram tagged (.ofProgram tagged))

def requests : List Obligation :=
  [⟨.commutativity, ⟨0⟩, ⟨0⟩⟩, ⟨.failurePreservation, ⟨0⟩, ⟨0⟩⟩]

/-- The same requests in another order, one of them twice. -/
def shuffledRequests : List Obligation :=
  [⟨.failurePreservation, ⟨0⟩, ⟨0⟩⟩, ⟨.commutativity, ⟨0⟩, ⟨0⟩⟩, ⟨.failurePreservation, ⟨0⟩, ⟨0⟩⟩]

end Account

namespace Ledger

theorem run_eq_of_ok {m : LedgerM Unit} {l : Ledger} (h : (m.run l).1 = .ok ()) :
    m.run l = (.ok (), (m.run l).2) := Prod.ext h rfl

/-- In the two orders the commutativity procedure is a different entry of the program, with the same
text. -/
theorem texts_independent_of_order_deposit :
    ∃ m m' : Ledger, (Account.requests.forM request).run Account.ledger = (.ok (), m) ∧
      (Account.shuffledRequests.forM request).run Account.ledger = (.ok (), m') ∧
      m.entry? ⟨.commutativity, ⟨0⟩, ⟨0⟩⟩ = some ⟨1⟩ ∧
      m'.entry? ⟨.commutativity, ⟨0⟩, ⟨0⟩⟩ = some ⟨2⟩ ∧
      m'.finish.renderProcedure (m'.finish.procedure ⟨2⟩) =
        m.finish.renderProcedure (m.finish.procedure ⟨1⟩) := by
  have leads : Leads Account.tagged [] (ofProgram Account.tagged (.ofProgram Account.tagged))
      Account.ledger := (Leads.refl _).call .register trivial
  have entries : Account.ledger.entries = [] := by decide +kernel
  have known : ∀ o ∈ Account.requests ++ Account.shuffledRequests,
      o.first ∈ Account.ledger.actionRefs ∧ o.second ∈ Account.ledger.actionRefs := by
    decide +kernel
  have run : (Account.requests.forM request).run Account.ledger =
      (.ok (), ((Account.requests.forM request).run Account.ledger).2) :=
    run_eq_of_ok (by decide +kernel)
  have run' : (Account.shuffledRequests.forM request).run Account.ledger =
      (.ok (), ((Account.shuffledRequests.forM request).run Account.ledger).2) :=
    run_eq_of_ok (by decide +kernel)
  have entry : Ledger.entry? ((Account.requests.forM request).run Account.ledger).2
      ⟨.commutativity, ⟨0⟩, ⟨0⟩⟩ = some ⟨1⟩ := by decide +kernel
  have entry' : Ledger.entry? ((Account.shuffledRequests.forM request).run Account.ledger).2
      ⟨.commutativity, ⟨0⟩, ⟨0⟩⟩ = some ⟨2⟩ := by decide +kernel
  have keys : ((Account.requests.forM request).run Account.ledger).2.entries.map Prod.fst =
      [⟨.commutativity, ⟨0⟩, ⟨0⟩⟩, ⟨.failurePreservation, ⟨0⟩, ⟨0⟩⟩] := by decide +kernel
  have keys' : ((Account.shuffledRequests.forM request).run Account.ledger).2.entries.map
      Prod.fst = [⟨.failurePreservation, ⟨0⟩, ⟨0⟩⟩, ⟨.commutativity, ⟨0⟩, ⟨0⟩⟩] := by decide +kernel
  obtain ⟨r', hr', text, -⟩ := texts_independent_of_order Account.closed_tagged leads entries known
    run run' (fun o => by rw [entry?_isSome, entry?_isSome, keys, keys']; simp [or_comm]) entry
  obtain rfl : r' = ⟨2⟩ := Option.some.inj (hr'.symm.trans entry')
  exact ⟨_, _, run, run', entry, entry', text⟩

end Ledger

end AtomicMovers
