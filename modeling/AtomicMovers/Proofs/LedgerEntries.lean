import AtomicMovers.Proofs.LedgerSteps

/-!
# The entries of a ledger

Every entry of a ledger stands for one declared procedure, and the declared procedures are those of
the entries, in order, each followed by its implementation (`Ledger.Orderly`). Steps keep this
(`Step.orderly`): what is declared ends with these pairs (`Program.Lists`), functions are declared
before them and new pairs behind them.

Which obligations have entries is settled by the log: an obligation has one from its first granted
request on (`obligations_entered_once`).
-/

namespace AtomicMovers

open Program

/-! ## Declared pairs -/

/-- The procedures and implementations of `pairs` are declared last, each implementation right behind
its procedure, and no others are declared. -/
structure Program.Lists (p : Program) (pairs : List (ProcRef × ImplRef)) : Prop where
  declarations_eq : ∃ lead, (∀ d ∈ lead, d.procedure? = none ∧ d.implementation? = none) ∧
    p.declarations = lead ++ pairs.flatMap fun x => [.procedure x.1, .implementation x.2]
  own : ∀ x ∈ pairs, ∃ locals blocks,
    p.implementation x.2 = (p.procedure x.1).implementedBy x.1 locals blocks

namespace Program

variable {p q : Program} {pairs : List (ProcRef × ImplRef)}

/-- The pairs do not precede functions. -/
theorem not_precedes_pairs (pairs : List (ProcRef × ImplRef)) :
    let ds := pairs.flatMap fun x => [Declaration.procedure x.1, .implementation x.2]
    ds.takeWhile Declaration.precedesFunctions = [] ∧
      ds.dropWhile Declaration.precedesFunctions = ds := by
  cases pairs with
  | nil => exact ⟨rfl, rfl⟩
  | cons x xs => exact ⟨rfl, rfl⟩

/-- Functions are declared before the pairs. -/
theorem Lists.declares {sigs : List FunctionSig} (h : p.Lists pairs) (k : p.Declares sigs q) :
    q.Lists pairs := by
  obtain ⟨⟨lead, hlead, hp⟩, own⟩ := h
  obtain ⟨htake, hdrop⟩ := not_precedes_pairs pairs
  refine ⟨⟨lead.takeWhile Declaration.precedesFunctions ++ (sigs.map .function ++
    lead.dropWhile Declaration.precedesFunctions), ?_, ?_⟩, ?_⟩
  · intro d hd
    simp only [List.mem_append, List.mem_map] at hd
    rcases hd with hd | ⟨sig, _, rfl⟩ | hd
    · exact hlead d (List.takeWhile_subset _ hd)
    · exact ⟨rfl, rfl⟩
    · exact hlead d (List.dropWhile_subset _ hd)
  · rw [k.declarations_eq, hp, List.takeWhile_append, List.dropWhile_append, htake, hdrop]
    -- whether all of `lead` precedes functions makes no difference
    split
    · rename_i hall
      have all : lead.takeWhile Declaration.precedesFunctions = lead :=
        List.IsPrefix.eq_of_length (List.takeWhile_prefix _) hall
      have none : lead.dropWhile Declaration.precedesFunctions = [] :=
        List.dropWhile_eq_nil_iff.2 (List.takeWhile_eq_self_iff.1 all)
      simp [all, none]
    · split
      · rename_i hnone
        simp [List.isEmpty_iff.1 hnone]
      · simp
  · intro x hx
    have hproc : q.procedure x.1 = p.procedure x.1 := by
      rw [Program.procedure, Program.procedure, k.procedures_eq]
    have himpl : q.implementation x.2 = p.implementation x.2 := by
      rw [Program.implementation, Program.implementation, k.implementations_eq]
    rw [hproc, himpl]
    exact own x hx

theorem procedureRefs_eq (h : p.Lists pairs) : p.procedureRefs = pairs.map Prod.fst := by
  obtain ⟨⟨lead, hlead, hp⟩, -⟩ := h
  have none : lead.filterMap Declaration.procedure? = [] :=
    List.filterMap_eq_nil_iff.2 fun d hd => (hlead d hd).1
  rw [procedureRefs, hp, List.filterMap_append, none, List.nil_append]
  clear hp hlead none
  induction pairs with
  | nil => rfl
  | cons x xs ih =>
    rw [List.flatMap_cons, List.filterMap_append, ih]
    rfl

/-- The references of declared pairs are valid. -/
theorem Lists.valid (h : p.Lists pairs) (hp : p.Closed) :
    ∀ x ∈ pairs, p.HasProcedure x.1 ∧ p.HasImplementation x.2 := by
  obtain ⟨⟨lead, _, heq⟩, -⟩ := h
  intro x hx
  have valid (d : Declaration) (hd : d ∈ [Declaration.procedure x.1, .implementation x.2]) :
      d.ValidIn p := by
    apply hp.declarations
    rw [heq]
    exact List.mem_append.2 (.inr (List.mem_flatMap.2 ⟨x, hx, hd⟩))
  exact ⟨valid (.procedure x.1) (by simp), valid (.implementation x.2) (by simp)⟩

/-! A new pair. -/

section Adding

variable (p) (d : Draft)

theorem procedure_adding {r : ProcRef} (hr : p.HasProcedure r) :
    (p.adding d).procedure r = p.procedure r := by
  have hr' : r.index < p.procedures.size := hr
  simp [adding, Program.procedure, Array.getD_eq_getD_getElem?, Array.getElem?_push,
    Nat.ne_of_lt hr']

theorem implementation_adding {i : ImplRef} (hi : p.HasImplementation i) :
    (p.adding d).implementation i = p.implementation i := by
  have hi' : i.index < p.implementations.size := hi
  simp [adding, Program.implementation, Array.getD_eq_getD_getElem?, Array.getElem?_push,
    Nat.ne_of_lt hi']

theorem procedure_adding_new : (p.adding d).procedure ⟨p.procedures.size⟩ = d.procedure := by
  simp [adding, Program.procedure, Array.getD_eq_getD_getElem?]

theorem implementation_adding_new :
    (p.adding d).implementation ⟨p.implementations.size⟩ =
      d.procedure.implementedBy ⟨p.procedures.size⟩ d.locals d.blocks := by
  simp [adding, Program.implementation, Array.getD_eq_getD_getElem?]

end Adding

theorem Lists.adding (h : p.Lists pairs)
    (valid : ∀ x ∈ pairs, p.HasProcedure x.1 ∧ p.HasImplementation x.2) (d : Draft) :
    (p.adding d).Lists (pairs ++ [(⟨p.procedures.size⟩, ⟨p.implementations.size⟩)]) := by
  obtain ⟨lead, hlead, heq⟩ := h.declarations_eq
  refine ⟨⟨lead, hlead, ?_⟩, List.forall_mem_append.2 ⟨fun x hx => ?_, ?_⟩⟩
  · have : (p.adding d).declarations = p.declarations ++
        [.procedure ⟨p.procedures.size⟩, .implementation ⟨p.implementations.size⟩] := rfl
    rw [this, heq]
    simp
  · obtain ⟨hproc, himpl⟩ := valid x hx
    rw [procedure_adding p d hproc, implementation_adding p d himpl]
    exact h.own x hx
  · refine List.forall_mem_singleton.2 ⟨d.locals, d.blocks, ?_⟩
    rw [implementation_adding_new, procedure_adding_new]

/-- In a list of pairs, written one after the other, each procedure is followed by its
implementation. -/
theorem followed_in_pairs (pairs : List (ProcRef × ImplRef)) : ∀ {k : Nat} {r : ProcRef},
    (pairs.flatMap fun x => [Declaration.procedure x.1, .implementation x.2])[k]? =
      some (.procedure r) →
    ∃ i, (r, i) ∈ pairs ∧
      (pairs.flatMap fun x => [Declaration.procedure x.1, .implementation x.2])[k + 1]? =
        some (.implementation i) := by
  induction pairs with
  | nil => intro k r h; simp at h
  | cons x xs ih =>
    intro k r h
    rw [List.flatMap_cons] at h ⊢
    match k with
    | 0 =>
      obtain rfl : x.1 = r := by simpa using h
      exact ⟨x.2, by simp, by simp⟩
    | 1 => simp at h
    | k + 2 =>
      obtain ⟨i, hi, hnext⟩ := ih (k := k) (r := r) (by simpa using h)
      exact ⟨i, List.mem_cons_of_mem _ hi, by simpa using hnext⟩

/-- Each declared procedure is followed by its implementation. -/
theorem Lists.followed (h : p.Lists pairs) {k : Nat} {r : ProcRef}
    (hk : p.declarations[k]? = some (.procedure r)) :
    ∃ i locals blocks, p.declarations[k + 1]? = some (.implementation i) ∧
      p.implementation i = (p.procedure r).implementedBy r locals blocks := by
  obtain ⟨⟨lead, hlead, heq⟩, own⟩ := h
  rw [heq] at hk ⊢
  rcases Nat.lt_or_ge k lead.length with hlt | hge
  · rw [List.getElem?_append_left hlt] at hk
    exact absurd (hlead _ (List.mem_of_getElem? hk)).1 (by simp [Declaration.procedure?])
  · rw [List.getElem?_append_right hge] at hk
    obtain ⟨i, hi, hnext⟩ := followed_in_pairs pairs hk
    obtain ⟨locals, blocks, himpl⟩ := own (r, i) hi
    refine ⟨i, locals, blocks, ?_, himpl⟩
    rw [List.getElem?_append_right (by omega), ← hnext]
    congr 1
    omega

end Program

/-! ## What a step does to the entries -/

namespace Ledger

variable {input : Program} {log log' : List Obligation} {l m n : Ledger}

/-- A step declares functions only, or it makes one entry. -/
theorem Step.effect (hinput : input.Closed) (h : Step input log l m) (hl : l.Assembled input) :
    (m.entries = l.entries ∧ (∀ o ∈ log, o ∈ l.entries.map Prod.fst) ∧
      ∃ sigs, l.program.Declares sigs m.program) ∨
    ∃ (o : Obligation) (d : Draft) (q : Program) (sigs : List FunctionSig),
      log = [o] ∧ o ∉ l.entries.map Prod.fst ∧ o.first ∈ l.actionRefs ∧ o.second ∈ l.actionRefs ∧
      l.program.Declares sigs q ∧ m.program = q.adding d ∧
      m.entries = l.entries ++ [(o, ⟨q.procedures.size⟩)] ∧ m.actions = l.actions ∧
      d.procedure.name = o.kind.procedureName (l.action o.first) (l.action o.second) := by
  have sound := hl.sound hinput
  have valid {a : ActionRef} (ha : a ∈ l.actionRefs) : (l.action a).ValidIn l.program :=
    sound.validIn (action_mem ha)
  cases h with
  | reported d => exact .inl ⟨rfl, by simp, [], .ofTop rfl⟩
  | @registered _ r mover code _ _ _ _ run =>
    have kept := keepsTop_ofBody r code mover l.program
    rw [run] at kept
    exact .inl ⟨rfl, by simp, [], .ofTop kept⟩
  | @registerFails _ r mover code _ _ _ _ run =>
    have kept := keepsTop_ofBody r code mover l.program
    rw [run] at kept
    exact .inl ⟨rfl, by simp, [], .ofTop kept⟩
  | found h => exact .inl ⟨rfl, by simpa using h, [], .ofTop rfl⟩
  | @enterFails _ o e q hf hs run =>
    rw [addObligation_run] at run
    generalize hdraft : (draft l.ownership o.kind (l.action o.first) (l.action o.second)).run
      l.program = result at run
    obtain ⟨_ | d, q'⟩ := result
    · cases run
      obtain ⟨sigs, _, declares⟩ := (declares_draft sound.closed (valid hf) (valid hs) hdraft).1
      exact .inl ⟨rfl, by simp, sigs, declares⟩
    · cases run
  | @entered _ o r q new hf hs run =>
    have name := name_addObligation sound.closed (valid hf) (valid hs) run
    obtain ⟨q', d, ⟨sigs, _, declares⟩, -, rfl, rfl⟩ :=
      declares_addObligation sound.closed (valid hf) (valid hs) run
    rw [procedure_adding_new] at name
    exact .inr ⟨o, d, q', sigs, rfl, new, hf, hs, declares, rfl, rfl, rfl, name⟩

/-! ## What holds of all ledgers -/

/-- The entries and the declared procedures correspond to each other. -/
structure Orderly (log : List Obligation) (l : Ledger) : Prop where
  /-- No obligation has two entries, and no procedure belongs to two. -/
  keys_nodup : (l.entries.map Prod.fst).Nodup
  refs_nodup : (l.entries.map Prod.snd).Nodup
  /-- The procedures of the entries are declared, in order, and no others are. -/
  declared : l.program.procedureRefs = l.entries.map Prod.snd
  /-- Each procedure is followed by its implementation. -/
  followed : ∀ k r, l.program.declarations[k]? = some (.procedure r) →
    ∃ i locals blocks, l.program.declarations[k + 1]? = some (.implementation i) ∧
      l.program.implementation i = (l.program.procedure r).implementedBy r locals blocks
  /-- The procedure of an entry is about registered actions, and named after them. -/
  named : ∀ x ∈ l.entries, x.1.first ∈ l.actionRefs ∧ x.1.second ∈ l.actionRefs ∧
    (l.program.procedure x.2).name =
      x.1.kind.procedureName (l.action x.1.first) (l.action x.1.second)
  /-- Entries stand in the order in which they were first requested with success. -/
  requested : l.entries.map Prod.fst = log.eraseDups

/-- What is declared is what the entries say. -/
def Matched (l : Ledger) : Prop :=
  ∃ pairs, l.program.Lists pairs ∧ pairs.map Prod.fst = l.entries.map Prod.snd

theorem Step.matched (hinput : input.Closed) (h : Step input log l m) (hl : l.Assembled input)
    (hmatched : l.Matched) : m.Matched := by
  obtain ⟨pairs, lists, hpairs⟩ := hmatched
  rcases h.effect hinput hl with ⟨hentries, _, sigs, declares⟩ |
    ⟨o, d, q, sigs, _, _, _, _, declares, hprogram, hentries, _, _⟩
  · exact ⟨pairs, lists.declares declares, by rw [hpairs, hentries]⟩
  · have valid : ∀ x ∈ pairs, q.HasProcedure x.1 ∧ q.HasImplementation x.2 := by
      simp only [HasProcedure, HasImplementation, declares.procedures_eq,
        declares.implementations_eq]
      exact lists.valid (hl.sound hinput).closed
    rw [Matched, hprogram, hentries]
    exact ⟨_, (lists.declares declares).adding valid d, by simp [hpairs]⟩

theorem Orderly.hasProcedure (h : l.Orderly log) (hinput : input.Closed) (hl : l.Assembled input) :
    ∀ x ∈ l.entries, l.program.HasProcedure x.2 := by
  intro x hx
  apply (hl.sound hinput).closed.hasProcedure_of_mem
  rw [h.declared]
  exact List.mem_map.2 ⟨x, hx, rfl⟩

/-- A procedure that an entry had before a step is named as it was. -/
theorem Step.named (hinput : input.Closed) (h : Step input log l m) (hl : l.Assembled input)
    (hlog : l.Orderly log') : ∀ x ∈ l.entries,
      x.1.first ∈ m.actionRefs ∧ x.1.second ∈ m.actionRefs ∧ (m.program.procedure x.2).name =
        x.1.kind.procedureName (m.action x.1.first) (m.action x.1.second) := by
  intro x hx
  obtain ⟨hf, hs, hname⟩ := hlog.named x hx
  have kept := h.prefix_actions
  refine ⟨actionRefs_subset kept hf, actionRefs_subset kept hs, ?_⟩
  rw [action_eq kept hf, action_eq kept hs,
    (h.continues hinput hl).grows.procedure_eq x.2 (hlog.hasProcedure hinput hl x hx)]
  exact hname

theorem eraseDups_append_of_subset {α : Type} [BEq α] [LawfulBEq α] {as bs : List α}
    (h : ∀ a ∈ bs, a ∈ as) : (as ++ bs).eraseDups = as.eraseDups := by
  have none : bs.removeAll as = [] := by
    rw [List.removeAll, List.filter_eq_nil_iff]
    simpa using h
  rw [List.eraseDups_append, none, List.eraseDups_nil, List.append_nil]

theorem eraseDups_concat {α : Type} [BEq α] [LawfulBEq α] {as : List α} {a : α} (h : a ∉ as) :
    (as ++ [a]).eraseDups = as.eraseDups ++ [a] := by
  have all : [a].removeAll as = [a] := by simp [List.removeAll, h]
  rw [List.eraseDups_append, all, List.eraseDups_cons]
  simp

/-- Steps keep the ledger orderly. -/
theorem Step.orderly (hinput : input.Closed) (h : Step input log' l m) (hl : l.Assembled input)
    (hmatched : l.Matched) (hlog : l.Orderly log) : m.Orderly (log ++ log') := by
  obtain ⟨pairs, lists, hpairs⟩ := h.matched hinput hl hmatched
  have declared : m.program.procedureRefs = m.entries.map Prod.snd := by
    rw [procedureRefs_eq lists, hpairs]
  have followed := fun k r => lists.followed (k := k) (r := r)
  have named := h.named hinput hl hlog
  rcases h.effect hinput hl with ⟨hentries, hknown, _⟩ |
    ⟨o, d, q, sigs, rfl, new, hf, hs, declares, hprogram, hentries, hactions, hname⟩
  · -- only obligations that have entries were requested
    have subset : ∀ o ∈ log', o ∈ log := by
      intro o ho
      have := hknown o ho
      rwa [hlog.requested, List.mem_eraseDups] at this
    refine ⟨?_, ?_, declared, followed, ?_, ?_⟩
    · rw [hentries]
      exact hlog.keys_nodup
    · rw [hentries]
      exact hlog.refs_nodup
    · rw [hentries]
      exact named
    · rw [hentries, eraseDups_append_of_subset subset]
      exact hlog.requested
  · -- the new entry is the last one, and its procedure is not an older one
    refine ⟨?_, ?_, declared, followed, ?_, ?_⟩
    · rw [hentries, List.map_append, List.nodup_append]
      refine ⟨hlog.keys_nodup, by simp, ?_⟩
      rintro x hx _ hy rfl
      obtain rfl : x = o := by simpa using hy
      exact new hx
    · rw [hentries, List.map_append, List.nodup_append]
      refine ⟨hlog.refs_nodup, by simp, ?_⟩
      rintro r hr _ hy rfl
      obtain rfl : r = ⟨q.procedures.size⟩ := by simpa using hy
      obtain ⟨x, hx, heq⟩ := List.mem_map.1 hr
      have older := hlog.hasProcedure hinput hl x hx
      rw [heq, HasProcedure, declares.procedures_eq] at older
      exact Nat.lt_irrefl _ older
    · rw [hentries]
      refine List.forall_mem_append.2 ⟨named, List.forall_mem_singleton.2 ?_⟩
      have kept : l.actions.toList <+: m.actions.toList := hactions ▸ List.prefix_refl _
      refine ⟨actionRefs_subset kept hf, actionRefs_subset kept hs, ?_⟩
      rw [action_eq kept hf, action_eq kept hs, hprogram, procedure_adding_new]
      exact hname
    · have fresh : o ∉ log := by
        rwa [hlog.requested, List.mem_eraseDups] at new
      rw [hentries, List.map_append, hlog.requested, eraseDups_concat fresh]
      rfl

theorem Steps.orderly (hinput : input.Closed) (h : Steps input log' l m) (hl : l.Assembled input)
    (hmatched : l.Matched) (hlog : l.Orderly log) : m.Matched ∧ m.Orderly (log ++ log') := by
  induction h with
  | refl l =>
    rw [List.append_nil]
    exact ⟨hmatched, hlog⟩
  | step h last ih =>
    obtain ⟨hmatched', hlog'⟩ := ih hl hmatched hlog
    have hm := h.assembled hinput hl
    rw [← List.append_assoc]
    exact ⟨last.matched hinput hm hmatched', last.orderly hinput hm hmatched' hlog'⟩

/-- A new ledger is orderly. -/
theorem orderly_ofProgram (input : Program) (ownership : Ownership) :
    (ofProgram input ownership).Matched ∧ (ofProgram input ownership).Orderly [] := by
  have lists : input.sharedBase.Lists [] := by
    refine ⟨⟨input.sharedBase.declarations, fun d hd => ?_, by simp⟩, by simp⟩
    rcases List.mem_append.1 hd with hd | hd
    · have := (List.mem_filter.1 hd).2
      cases d <;> simp_all [Declaration.isShared, Declaration.procedure?,
        Declaration.implementation?]
    · obtain ⟨v, _, rfl⟩ := List.mem_map.1 hd
      exact ⟨rfl, rfl⟩
  refine ⟨⟨[], lists, rfl⟩, ⟨List.nodup_nil, List.nodup_nil, procedureRefs_eq lists,
    fun k r => lists.followed, by simp [ofProgram], rfl⟩⟩

/-- Entries are never taken back. -/
theorem Steps.prefix_entries (hinput : input.Closed) (h : Steps input log l m)
    (hl : l.Assembled input) : l.entries <+: m.entries := by
  induction h with
  | refl l => exact List.prefix_refl _
  | step h last ih =>
    refine (ih hl).trans ?_
    rcases last.effect hinput (h.assembled hinput hl) with ⟨hentries, _⟩ |
      ⟨o, d, q, sigs, _, _, _, _, _, _, hentries, _⟩
    · exact hentries ▸ List.prefix_refl _
    · exact hentries ▸ List.prefix_append _ _

/-- What an obligation needs to have an entry after steps. -/
theorem Steps.mem_keys_iff (hinput : input.Closed) (h : Steps input log' l m)
    (hl : l.Assembled input) (hmatched : l.Matched) (hlog : l.Orderly log) {o : Obligation} :
    o ∈ m.entries.map Prod.fst ↔ o ∈ l.entries.map Prod.fst ∨ o ∈ log' := by
  rw [(h.orderly hinput hl hmatched hlog).2.requested, hlog.requested, List.mem_eraseDups,
    List.mem_eraseDups, List.mem_append]

/-- Whatever calls were made on a ledger, with or without success: entries and declared procedures
correspond one to one, in the order in which the obligations were first requested with success, and
later calls keep them. Entering all obligations adds exactly those that the mover types of the
registered actions call for. -/
theorem obligations_entered_once {input : Program} (hinput : input.Closed) {ownership : Ownership}
    {log : List Obligation} {l : Ledger} (h : Leads input log (ofProgram input ownership) l) :
    l.Orderly log ∧
      (∀ log' m, Leads input log' l m → l.entries <+: m.entries ∧
        (∀ r ∈ l.program.procedureRefs, m.program.procedure r = l.program.procedure r) ∧
        ∀ i ∈ l.program.implementationRefs,
          m.program.implementation i = l.program.implementation i) ∧
      ∀ m, enterAll.run l = (.ok (), m) → ∀ o, (m.entry? o).isSome ↔
        (l.entry? o).isSome ∨
          (o.first ∈ l.actionRefs ∧ o.second ∈ l.actionRefs ∧ l.Wants o) := by
  have hl := h.assembled hinput
  obtain ⟨matched, orderly⟩ := h.steps.orderly hinput (assembled_ofProgram input ownership)
    (orderly_ofProgram input ownership).1 (orderly_ofProgram input ownership).2
  rw [List.nil_append] at orderly
  refine ⟨orderly, fun log' m hm => ?_, fun m run o => ?_⟩
  · have grows := (hm.steps.continues hinput hl).grows
    have closed := (hl.sound hinput).closed
    exact ⟨hm.steps.prefix_entries hinput hl,
      fun r hr => grows.procedure_eq r (closed.hasProcedure_of_mem hr),
      fun i hi => grows.implementation_eq i (closed.hasImplementation_of_mem hi)⟩
  · -- all that is wanted is granted, since nothing failed
    have run' : (l.wanted.forM request).run l = (.ok (), m) := run
    have steps : Steps input l.wanted l m := by
      have k : Steps input _ l _ := steps_requests fun o ho =>
        ⟨(mem_wanted.1 ho).1, (mem_wanted.1 ho).2.1⟩
      rwa [granted_eq_of_ok run', run'] at k
    rw [entry?_isSome, entry?_isSome, steps.mem_keys_iff hinput hl matched orderly, mem_wanted]

/-- Registering the deposit, which is a left and a right mover, and entering all obligations about
it. -/
theorem obligations_entered_once_deposit :
    ∃ log l, Leads Account.tagged log (ofProgram Account.tagged (.ofProgram Account.tagged)) l ∧
      l.entries.map Prod.fst = [⟨.commutativity, ⟨0⟩, ⟨0⟩⟩, ⟨.gatePreservation, ⟨0⟩, ⟨0⟩⟩,
        ⟨.failurePreservation, ⟨0⟩, ⟨0⟩⟩] ∧ l.Orderly log := by
  have calls := ((@Leads.refl Account.tagged (ofProgram Account.tagged
    (.ofProgram Account.tagged))).call .register trivial).call .enterAll trivial
  exact ⟨_, _, calls, by decide +kernel, (obligations_entered_once Account.closed_tagged calls).1⟩

end Ledger

end AtomicMovers
