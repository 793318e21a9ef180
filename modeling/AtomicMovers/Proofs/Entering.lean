import AtomicMovers.Proofs.LedgerEntries

/-!
# Entering obligations

From a ledger whose actions are registered, obligations are entered with success, one after the other
(`Ledger.Enters`). Whatever the order, the program at the end shows of each entry what an obligation is
made of if it is built from the program at the start (`Progress.parts`), and the functions that were
declared on the way are the predicates of the entries, each name once (`Progress.functions`).
-/

namespace AtomicMovers

open Program

/-! ## Declared functions, globals and constants -/

/-- The global or constant that is declared. -/
def Declaration.named? : Declaration → Option VarRef
  | .global v | .constant v => some v
  | _ => none

namespace Program

/-- The declared globals and constants in order. -/
def namedRefs (p : Program) : List VarRef := p.declarations.filterMap Declaration.named?

/-- The names of the declared functions in order. -/
def functionNames (p : Program) : List String := p.functions.map FunctionSig.name

variable {p q : Program} {sigs : List FunctionSig}

theorem mem_namedRefs_of_mem_globals {v : VarRef} (h : v ∈ p.globals) :
    v ∈ p.namedRefs := by
  obtain ⟨d, hd, hv⟩ := List.mem_filterMap.1 h
  refine List.mem_filterMap.2 ⟨d, hd, ?_⟩
  cases d <;> simp_all [Declaration.global?, Declaration.named?]

/-- New functions join the declared ones. -/
theorem Declares.functions_perm (h : p.Declares sigs q) :
    q.functions.Perm (p.functions ++ sigs) := by
  have split : p.functions = (p.declarations.takeWhile Declaration.precedesFunctions).filterMap
      Declaration.function? ++ (p.declarations.dropWhile Declaration.precedesFunctions).filterMap
      Declaration.function? := by
    rw [← List.filterMap_append, List.takeWhile_append_dropWhile, functions]
  have new : (sigs.map Declaration.function).filterMap Declaration.function? = sigs := by
    simp [List.filterMap_map, Function.comp_def, Declaration.function?]
  rw [functions, h.declarations_eq, split, List.filterMap_append, List.filterMap_append, new,
    List.append_assoc]
  exact List.perm_append_comm.append_left _

section Adding

variable (p) (d : Draft)

/-- Declaring an obligation declares neither functions nor variables. -/
theorem filterMap_declarations_adding {β : Type} (g : Declaration → Option β)
    (hp : ∀ r, g (.procedure r) = none) (hi : ∀ i, g (.implementation i) = none) :
    (p.adding d).declarations.filterMap g = p.declarations.filterMap g := by
  have run : (p.adding d).declarations = p.declarations ++
      [.procedure ⟨p.procedures.size⟩, .implementation ⟨p.implementations.size⟩] := rfl
  simp [run, hp, hi]

theorem functions_adding : (p.adding d).functions = p.functions :=
  p.filterMap_declarations_adding d _ (fun _ => rfl) fun _ => rfl

theorem namedRefs_adding : (p.adding d).namedRefs = p.namedRefs :=
  p.filterMap_declarations_adding d _ (fun _ => rfl) fun _ => rfl

theorem implementationRefs_adding :
    (p.adding d).implementationRefs = p.implementationRefs ++ [⟨p.implementations.size⟩] := by
  have run : (p.adding d).declarations = p.declarations ++
      [.procedure ⟨p.procedures.size⟩, .implementation ⟨p.implementations.size⟩] := rfl
  rw [implementationRefs, run, List.filterMap_append]
  rfl

end Adding

/-! ## Implementations of declared pairs -/

variable {pairs : List (ProcRef × ImplRef)}

theorem implementationRefs_eq (h : p.Lists pairs) : p.implementationRefs = pairs.map Prod.snd := by
  obtain ⟨⟨lead, hlead, hp⟩, -⟩ := h
  have none : lead.filterMap Declaration.implementation? = [] :=
    List.filterMap_eq_nil_iff.2 fun d hd => (hlead d hd).2
  rw [implementationRefs, hp, List.filterMap_append, none, List.nil_append]
  clear hp hlead none
  induction pairs with
  | nil => rfl
  | cons x xs ih =>
    rw [List.flatMap_cons, List.filterMap_append, ih]
    rfl

/-- The declared implementations of a procedure. -/
def implementationsOf (p : Program) (r : ProcRef) : List ImplRef :=
  p.implementationRefs.filter fun i => (p.implementation i).procedure = r

/-- A declared procedure has one implementation, the one that it is paired with. -/
theorem Lists.implementationsOf_eq (h : p.Lists pairs) (nodup : (pairs.map Prod.fst).Nodup)
    {x : ProcRef × ImplRef} (hx : x ∈ pairs) : p.implementationsOf x.1 = [x.2] := by
  have own : ∀ y ∈ pairs, (p.implementation y.2).procedure = y.1 := by
    intro y hy
    obtain ⟨locals, blocks, heq⟩ := h.own y hy
    rw [heq]
    rfl
  rw [implementationsOf, implementationRefs_eq h]
  clear h
  induction pairs with
  | nil => simp at hx
  | cons y ys ih =>
    rw [List.forall_mem_cons] at own
    rw [List.map_cons, List.nodup_cons] at nodup
    rw [List.map_cons, List.filter_cons, own.1]
    rcases List.mem_cons.1 hx with rfl | hx
    · have others : (ys.map Prod.snd).filter
          (fun i => (p.implementation i).procedure = x.1) = [] := by
        rw [List.filter_eq_nil_iff]
        intro i hi
        obtain ⟨y, hy, rfl⟩ := List.mem_map.1 hi
        rw [own.2 y hy]
        simpa using fun heq => nodup.1 (List.mem_map.2 ⟨y, hy, heq⟩)
      simp [others]
    · have hne : y.1 ≠ x.1 := fun heq => nodup.1 (heq ▸ List.mem_map.2 ⟨x, hx, rfl⟩)
      simpa [hne] using ih nodup.2 hx own.2

theorem Implements.implementation_eq {i : Implementation} {r : ProcRef} (h : p.Implements i r)
    {x : ImplRef} (hx : p.implementationsOf r = [x]) : p.implementation x = i := by
  have mem : x ∈ p.implementationsOf r := by simp [hx]
  obtain ⟨hmem, hproc⟩ := List.mem_filter.1 mem
  exact h.unique x hmem (by simpa using hproc)

/-- The implementation of a procedure stays its only one. -/
theorem Lists.implements (h : q.Lists pairs) (nodup : (pairs.map Prod.fst).Nodup)
    (hp : p.Closed) (hpq : p.Extends q) (subset : p.implementationRefs ⊆ q.implementationRefs)
    {i : Implementation} {r : ProcRef} (hi : i.procedure = r) (k : p.Implements i r) :
    q.Implements i r := by
  obtain ⟨x, hx, himpl⟩ := k.exists_ref
  have himpl' : q.implementation x = i := by
    rw [hpq.implementation_eq x (hp.hasImplementation_of_mem hx), himpl]
  have hx' := subset hx
  rw [implementationRefs_eq h] at hx'
  obtain ⟨y, hy, rfl⟩ := List.mem_map.1 hx'
  have hy₁ : y.1 = r := by
    obtain ⟨locals, blocks, heq⟩ := h.own y hy
    rw [← hi, ← himpl', heq]
    rfl
  have only := h.implementationsOf_eq nodup hy
  rw [hy₁] at only
  refine ⟨⟨y.2, subset hx, himpl'⟩, fun z hz hzr => ?_⟩
  have : z ∈ q.implementationsOf r := List.mem_filter.2 ⟨hz, by simpa using hzr⟩
  rw [only, List.mem_singleton] at this
  rw [this, himpl']

end Program

/-! ## One entry after the other -/

namespace Ledger

/-- Obligations about registered actions were entered with success. -/
inductive Enters (l : Ledger) : Ledger → Prop where
  | refl : Enters l l
  | entered {m : Ledger} {o : Obligation} {r : ProcRef} {q : Program} (h : Enters l m)
    (new : o ∉ m.entries.map Prod.fst) (hf : o.first ∈ m.actionRefs) (hs : o.second ∈ m.actionRefs)
    (run : (addObligation m.ownership o.kind (m.action o.first) (m.action o.second)).run m.program =
      (.ok r, q)) :
    Enters l { m with program := q, entries := m.entries ++ [(o, r)] }

variable {input : Program} {log : List Obligation} {l m n : Ledger}

theorem Enters.trans (h : Enters l m) (k : Enters m n) : Enters l n := by
  induction k with
  | refl => exact h
  | entered _ new hf hs run ih => exact .entered ih new hf hs run

theorem Enters.actions_eq (h : Enters l m) : m.actions = l.actions := by
  induction h with
  | refl => rfl
  | entered _ _ _ _ _ ih => exact ih

/-- A list of requests that are all granted. -/
theorem enters_of_requests {os : List Obligation}
    (hos : ∀ o ∈ os, o.first ∈ l.actionRefs ∧ o.second ∈ l.actionRefs)
    (run : (os.forM request).run l = (.ok (), m)) : Enters l m := by
  induction os generalizing l with
  | nil =>
    cases run
    exact .refl
  | cons o os ih =>
    rw [List.forall_mem_cons] at hos
    have first : ∀ r n, (enter o).run l = (.ok r, n) → Enters l n := by
      intro r n hrun
      cases hentry : l.entry? o with
      | some r' =>
        rw [enter_run_found hentry] at hrun
        cases hrun
        exact .refl
      | none =>
        have new : o ∉ l.entries.map Prod.fst := fun h => by
          have := entry?_isSome.2 h
          rw [hentry] at this
          cases this
        rw [enter_run_new hentry] at hrun
        generalize hadd : (addObligation l.ownership o.kind (l.action o.first)
          (l.action o.second)).run l.program = result at hrun
        obtain ⟨_ | r', q⟩ := result
        · cases hrun
        · cases hrun
          exact .entered .refl new hos.1.1 hos.1.2 hadd
    rw [List.forM, bind_run, request_run] at run
    generalize hrun : (enter o).run l = result at run
    obtain ⟨_ | r, n⟩ := result
    · cases run
    · have step := first r n hrun
      refine step.trans (ih (fun x hx => ?_) run)
      rw [actionRefs, step.actions_eq]
      exact hos.2 x hx

/-- The predicates that an obligation about actions of the ledger uses. -/
def predicates (l : Ledger) (o : Obligation) : List FunctionSig :=
  disjointnessSignatures l.program l.ownership (l.action o.first) (l.action o.second)

/-- How far a ledger without entries has come by entering obligations. -/
structure Progress (l m : Ledger) : Prop where
  ownership_eq : m.ownership = l.ownership
  actions_eq : m.actions = l.actions
  grows : l.program.Extends m.program
  closed : m.program.Closed
  namedRefs_eq : m.program.namedRefs = l.program.namedRefs
  /-- Every entry was made on the way. -/
  made : ∀ x ∈ m.entries, ∃ p q : Program, l.program.Extends p ∧ p.Closed ∧ q.Extends m.program ∧
    q.implementationRefs ⊆ m.program.implementationRefs ∧
    x.1.first ∈ l.actionRefs ∧ x.1.second ∈ l.actionRefs ∧
    (addObligation l.ownership x.1.kind (l.action x.1.first) (l.action x.1.second)).run p =
      (.ok x.2, q)
  /-- The new functions are predicates of entries, and no name is declared again. -/
  functions : ∃ new : List FunctionSig, m.program.functions.Perm (l.program.functions ++ new) ∧
    (new.map FunctionSig.name).Nodup ∧
    ∀ sig ∈ new, sig.name ∉ l.program.functionNames ∧ ∃ x ∈ m.entries, sig ∈ l.predicates x.1
  offers : ∀ x ∈ m.entries, m.program.Offers (l.predicates x.1)

/-- A ledger whose actions are there and that has no entries yet. -/
structure Ready (l : Ledger) : Prop where
  closed : l.program.Closed
  valid : ∀ a ∈ l.actionRefs, (l.action a).ValidIn l.program
  entries_eq : l.entries = []

theorem Progress.refl (hl : l.Ready) : Progress l l where
  ownership_eq := rfl
  actions_eq := rfl
  grows := Extends.refl _
  closed := hl.closed
  namedRefs_eq := rfl
  made := by simp [hl.entries_eq]
  functions := ⟨[], by simp⟩
  offers := by simp [hl.entries_eq]

theorem Progress.action_eq (h : Progress l m) (a : ActionRef) : m.action a = l.action a := by
  rw [action, action, h.actions_eq]

/-- One more entry. -/
theorem Progress.entered (hl : l.Ready) (h : Progress l m) {o : Obligation} {r : ProcRef}
    {q : Program} (hf : o.first ∈ m.actionRefs) (hs : o.second ∈ m.actionRefs)
    (run : (addObligation m.ownership o.kind (m.action o.first) (m.action o.second)).run m.program =
      (.ok r, q)) :
    Progress l { m with program := q, entries := m.entries ++ [(o, r)] } := by
  rw [actionRefs, h.actions_eq] at hf hs
  rw [h.ownership_eq, h.action_eq, h.action_eq] at run
  have first := hl.valid _ hf
  have second := hl.valid _ hs
  have first' := first.mono h.grows.within
  have second' := second.mono h.grows.within
  obtain ⟨grows, closed, -⟩ := (attempts_addObligation h.closed o.kind first' second').of_run run
  obtain ⟨q', d, ⟨sigs, hsigs, declares⟩, offers, rfl, rfl⟩ :=
    declares_addObligation h.closed first' second' run
  rw [disjointnessSignatures_extends hl.closed first second h.grows] at hsigs offers
  have subset : m.program.implementationRefs ⊆ (q'.adding d).implementationRefs := by
    rw [implementationRefs_adding, show q'.implementationRefs = m.program.implementationRefs from
      declares.filterMap_eq _ fun _ => rfl]
    exact List.subset_append_left _ _
  refine ⟨h.ownership_eq, h.actions_eq, h.grows.trans grows, closed, ?_, ?_, ?_, ?_⟩
  · exact (namedRefs_adding q' d).trans ((declares.filterMap_eq _ fun _ => rfl).trans h.namedRefs_eq)
  · refine List.forall_mem_append.2 ⟨fun x hx => ?_, List.forall_mem_singleton.2 ?_⟩
    · obtain ⟨p, p', hp, hclosed, hp', hsubset, hx₁, hx₂, hrun⟩ := h.made x hx
      exact ⟨p, p', hp, hclosed, hp'.trans grows, fun _ hi => subset (hsubset hi), hx₁, hx₂, hrun⟩
    · exact ⟨m.program, _, h.grows, h.closed, Extends.refl _, List.Subset.refl _, hf, hs, run⟩
  · obtain ⟨new, perm, nodup, origin⟩ := h.functions
    refine ⟨new ++ sigs, ?_, ?_, List.forall_mem_append.2 ⟨fun sig hsig => ?_, fun sig hsig => ?_⟩⟩
    · show (q'.adding d).functions.Perm _
      rw [functions_adding, ← List.append_assoc]
      exact declares.functions_perm.trans (perm.append_right sigs)
    · rw [List.map_append, List.nodup_append]
      refine ⟨nodup, declares.nodup, ?_⟩
      rintro _ hx _ hy rfl
      obtain ⟨old, hold, rfl⟩ := List.mem_map.1 hx
      obtain ⟨sig, hsig, heq⟩ := List.mem_map.1 hy
      refine declares.new sig hsig (List.mem_map.2 ⟨old, ?_, heq.symm⟩)
      exact perm.mem_iff.2 (List.mem_append.2 (.inr hold))
    · obtain ⟨hnew, x, hx, hsig⟩ := origin sig hsig
      exact ⟨hnew, x, List.mem_append.2 (.inl hx), hsig⟩
    · refine ⟨fun hold => declares.new sig hsig ?_, _,
        List.mem_append.2 (.inr (List.mem_singleton_self _)), hsigs sig hsig⟩
      obtain ⟨old, hold, heq⟩ := List.mem_map.1 hold
      exact List.mem_map.2 ⟨old, perm.mem_iff.2 (List.mem_append.2 (.inl hold)), heq⟩
  · have later {wanted : List FunctionSig} (h : q'.Offers wanted) : (q'.adding d).Offers wanted := by
      rw [Program.Offers, functions_adding]
      exact h
    exact List.forall_mem_append.2 ⟨fun x hx => later ((h.offers x hx).declares declares),
      List.forall_mem_singleton.2 (later offers)⟩

theorem Enters.progress (hl : l.Ready) (h : Enters l m) : Progress l m := by
  induction h with
  | refl => exact .refl hl
  | entered _ _ hf hs run ih => exact ih.entered hl hf hs run

theorem Enters.steps (h : Enters l m) : ∃ log, Steps input log l m := by
  induction h with
  | refl => exact ⟨[], .refl l⟩
  | entered _ new hf hs run ih =>
    obtain ⟨log, steps⟩ := ih
    exact ⟨_, steps.step (.entered new hf hs run)⟩

/-! ## What is there in the end -/

/-- An entry is made of the parts of its obligation. -/
theorem Progress.parts (hl : l.Ready) (h : Progress l m) (hm : m.Matched)
    (nodup : (m.entries.map Prod.snd).Nodup) {x : Obligation × ProcRef} (hx : x ∈ m.entries) :
    x.1.first ∈ l.actionRefs ∧ x.1.second ∈ l.actionRefs ∧
      ObligationParts l.program l.ownership (l.action x.1.first) (l.action x.1.second) x.1.kind x.2
        m.program := by
  obtain ⟨pairs, lists, hpairs⟩ := hm
  rw [← hpairs] at nodup
  obtain ⟨p, q, hp, hclosed, hq, subset, hf, hs, run⟩ := h.made x hx
  have first := hl.valid _ hf
  have second := hl.valid _ hs
  obtain ⟨-, closed, parts⟩ := (attempts_obligationParts hclosed x.1.kind (first.mono hp.within)
    (second.mono hp.within)).of_run run
  exact ⟨hf, hs, parts.carried hl.closed first second hp closed hq fun i hi k =>
    lists.implements nodup closed hq subset hi k⟩

/-- The procedure of an entry has one implementation. -/
theorem Matched.implementationsOf_eq (hm : m.Matched) (nodup : (m.entries.map Prod.snd).Nodup)
    {x : Obligation × ProcRef} (hx : x ∈ m.entries) :
    ∃ i, m.program.implementationsOf x.2 = [i] := by
  obtain ⟨pairs, lists, hpairs⟩ := hm
  have hr : x.2 ∈ pairs.map Prod.fst := by
    rw [hpairs]
    exact List.mem_map.2 ⟨x, hx, rfl⟩
  obtain ⟨y, hy, heq⟩ := List.mem_map.1 hr
  exact ⟨y.2, heq ▸ lists.implementationsOf_eq (hpairs ▸ nodup) hy⟩

end Ledger

end AtomicMovers
