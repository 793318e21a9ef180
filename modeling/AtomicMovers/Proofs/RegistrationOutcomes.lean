import AtomicMovers.Proofs.ShadowCopies

/-!
# What registering comes to

A body can be made an action if its procedure has no type parameters and its gotos stay within its
blocks, of which there has to be one (`Program.Admits`). Otherwise making the action fails, and of
several reasons to fail the first in a fixed order counts (`BodyOffence`). A procedure is registered
if it has at most one tagged postcondition and its body, if any, can be made an action
(`Program.Registrable`).

Registering goes through the declared procedures and stops at the first one that cannot be
registered. Until then every tagged postcondition has left its action or its warning in the ledger,
and so has the first one of a procedure that fails because of a second one (`Settles`). Main
statement: `register_stops_at_first_offence`.
-/

namespace AtomicMovers

open Program

/-! ## The mover type of a postcondition -/

/-- The postcondition is tagged with the mover type, and with none that wins over it. -/
def Postcondition.TaggedWith (e : Postcondition) : Mover → Prop
  | .atomic => "atomic" ∈ e.attributes
  | .right => "right" ∈ e.attributes ∧ "atomic" ∉ e.attributes
  | .left => "left" ∈ e.attributes ∧ "atomic" ∉ e.attributes ∧ "right" ∉ e.attributes
  | .both => "both" ∈ e.attributes ∧ "atomic" ∉ e.attributes ∧ "right" ∉ e.attributes ∧
      "left" ∉ e.attributes

theorem Postcondition.mover?_eq_some_iff (e : Postcondition) (m : Mover) :
    e.mover? = some m ↔ e.TaggedWith m := by
  have carries (name : String) : e.carries name = true ↔ name ∈ e.attributes :=
    List.contains_iff_mem
  unfold mover? Mover.byPrecedence
  simp only [List.find?_cons, List.find?_nil, Mover.tag]
  by_cases atomic : e.carries "atomic"
  · simp only [atomic]
    rw [carries] at atomic
    cases m <;> simp [TaggedWith, atomic]
  · simp only [atomic]
    rw [carries] at atomic
    by_cases right : e.carries "right"
    · simp only [right]
      rw [carries] at right
      cases m <;> simp [TaggedWith, atomic, right]
    · simp only [right]
      rw [carries] at right
      by_cases left : e.carries "left"
      · simp only [left]
        rw [carries] at left
        cases m <;> simp [TaggedWith, atomic, right, left]
      · simp only [left]
        rw [carries] at left
        by_cases both : e.carries "both"
        · simp only [both]
          rw [carries] at both
          cases m <;> simp [TaggedWith, atomic, right, left, both]
        · simp only [both]
          rw [carries] at both
          cases m <;> simp [TaggedWith, atomic, right, left, both]

/-! ## Gotos that leave -/

section Foreign

variable {plan : CopyPlan} {T : Command Expr → Command Expr} {E : Transfer → Prop} {p : Program}

theorem redirect_foreign (owner label : String) {copies : List (BlockRef × BlockRef)}
    {targets : List BlockRef} (h : ∃ t ∈ targets, t ∉ copies.map Prod.fst) :
    CopyPlan.redirect owner label copies targets = .error (.foreignTarget owner label) := by
  induction targets with
  | nil => simp at h
  | cons t targets ih =>
    rw [CopyPlan.redirect] at ih ⊢
    rw [List.mapM_cons]
    cases hc : copies.lookup t with
    | none => rfl
    | some c =>
      -- this target has a copy, so it is not the one that leaves
      have known : t ∈ copies.map Prod.fst := by
        obtain ⟨l₁, l₂, heq, -⟩ := List.lookup_eq_some_iff.1 hc
        rw [heq]
        simp
      have rest : ∃ t ∈ targets, t ∉ copies.map Prod.fst := by
        obtain ⟨t', ht', foreign⟩ := h
        rcases List.mem_cons.1 ht' with rfl | ht'
        · exact absurd known foreign
        · exact ⟨t', ht', foreign⟩
      rw [ih rest]
      rfl

/-- A block with a goto that leaves gets no end. -/
theorem setEnd_foreign (owner : String) {pairs : List (BlockRef × BlockRef)}
    {u : BlockRef × BlockRef} {r : Program}
    (h : ∃ t ∈ (r.block u.1).transfer.targets, t ∉ pairs.map Prod.fst) :
    (setEnd plan owner pairs u).run r = (.error (.foreignTarget owner (r.block u.1).label), r) := by
  rw [setEnd, bind_run, CopyPlan.copyTransfer, read_bind_run]
  dsimp only
  cases htransfer : (r.block u.1).transfer with
  | returnValue e => simp [htransfer, Transfer.targets] at h
  | leave => simp [htransfer, Transfer.targets] at h
  | goto targets =>
    rw [htransfer] at h
    have foreign : ∃ t ∈ targets, t ∉ pairs.reverse.map Prod.fst := by
      simpa [Transfer.targets] using h
    simp only [redirect_foreign owner (r.block u.1).label foreign]
    rfl

/-- The second pass stops at the first block with a goto that leaves. -/
theorem forM_setEnd_foreign (hplan : plan.Faithful T E p) (owner : String)
    {pairs before after : List (BlockRef × BlockRef)} {u : BlockRef × BlockRef}
    (split : pairs = before ++ u :: after) (old : ∀ v ∈ pairs, p.HasBlock v.1)
    (new : ∀ v ∈ pairs, ¬p.HasBlock v.2) (nodup : (pairs.map Prod.snd).Nodup)
    (stays : ∀ v ∈ before, ∀ t ∈ (p.block v.1).transfer.targets, t ∈ pairs.map Prod.fst)
    (leaves : ∃ t ∈ (p.block u.1).transfer.targets, t ∉ pairs.map Prod.fst)
    {r : Program} (hpr : p.Extends r) (hr : r.Closed) (hpairs : ∀ v ∈ pairs, r.HasBlock v.2) :
    ((pairs.forM (setEnd plan owner pairs)).run r).1 =
      .error (.foreignTarget owner (p.block u.1).label) := by
  have sub : ∀ v ∈ before, v ∈ pairs := by
    intro v hv
    rw [split]
    exact List.mem_append.2 (.inl hv)
  have hu : u ∈ pairs := by
    rw [split]
    simp
  have nodup' : (before.map Prod.snd).Nodup := by
    rw [split, List.map_append] at nodup
    exact nodup.of_append_left
  have ok := forM_setEnd_ok hplan owner (fun v hv => old v (sub v hv))
    (fun v hv => new v (sub v hv)) sub stays hpr hr hpairs
  have ends := endsSet_forM hplan owner pairs before (fun v hv => old v (sub v hv))
    (fun v hv => new v (sub v hv)) nodup' sub hpr hr hpairs
  have first : pairs.forM (setEnd plan owner pairs) =
      (before.forM (setEnd plan owner pairs) >>= fun _ =>
        (u :: after).forM (setEnd plan owner pairs)) := by
    nth_rewrite 1 [split]
    exact List.forM_append
  rw [first, bind_run]
  generalize (before.forM (setEnd plan owner pairs)).run r = result at *
  obtain ⟨result, r₁⟩ := result
  cases ok
  -- so far only copies have changed
  have hpr₁ : p.Extends r₁ := hpr.of_untouched ends.grows fun b hb => by
    apply ends.untouched b (hpr.within.hasBlock hb)
    intro hmem
    obtain ⟨v, hv, rfl⟩ := List.mem_map.1 hmem
    exact new v (sub v hv) hb
  rw [← hpr₁.block_eq (old u hu)] at leaves ⊢
  dsimp only
  rw [List.forM, bind_run, setEnd_foreign owner leaves]

/-- A block graph with a goto that leaves it cannot be copied. The first block with such a goto is
named. -/
theorem copyBlocks_foreign (hp : p.Closed) (hplan : plan.Faithful T E p) (owner : String)
    {bs before after : List BlockRef} {b : BlockRef} (split : bs = before ++ b :: after)
    (hbs : ∀ b ∈ bs, p.HasBlock b)
    (stays : ∀ c ∈ before, ∀ t ∈ (p.block c).transfer.targets, t ∈ bs)
    (leaves : ∃ t ∈ (p.block b).transfer.targets, t ∉ bs) :
    ((plan.copyBlocks owner bs).run p).1 = .error (.foreignTarget owner (p.block b).label) := by
  obtain ⟨grows, closed, code, -⟩ := yields_copyEach hp hplan hbs (Extends.refl p) hp
  rw [copyBlocks_run, bind_run]
  generalize plan.copyEach bs p = result at *
  obtain ⟨cs, r⟩ := result
  have keys : (bs.zip cs).map Prod.fst = bs := List.map_fst_zip (Nat.le_of_eq code.length_eq.symm)
  have copies : (bs.zip cs).map Prod.snd = cs := List.map_snd_zip (Nat.le_of_eq code.length_eq)
  obtain ⟨pre, post, hsplit, hpre, hpost⟩ := List.map_eq_append_iff.1 (keys.trans split)
  obtain ⟨u, rest, rfl, rfl, -⟩ := List.map_eq_cons_iff.1 hpost
  have failed := forM_setEnd_foreign hplan owner hsplit
    (fun v hv => hbs v.1 (List.of_mem_zip hv).1)
    (fun v hv => code.fresh v.2 (List.of_mem_zip hv).2) (by rw [copies]; exact code.nodup)
    (fun v hv t ht => by
      rw [keys]
      exact stays v.1 (hpre ▸ List.mem_map_of_mem hv) t ht)
    (by rw [keys]; exact leaves) grows closed fun v hv => code.valid v.2 (List.of_mem_zip hv).2
  dsimp only
  generalize ((bs.zip cs).forM (setEnd plan owner (bs.zip cs))).run r = result at *
  obtain ⟨result, r'⟩ := result
  cases failed
  rfl

theorem addShadow_foreign (hp : p.Closed) (name : String) {primary : Replica}
    (vars : ∀ v ∈ primary.vars, p.HasVar v) (blocks : ∀ b ∈ primary.blocks, p.HasBlock b)
    (gate : ∀ e ∈ primary.gate, p.HasExpr e) {before after : List BlockRef} {b : BlockRef}
    (split : primary.blocks = before ++ b :: after)
    (stays : ∀ c ∈ before, ∀ t ∈ (p.block c).transfer.targets, t ∈ primary.blocks)
    (leaves : ∃ t ∈ (p.block b).transfer.targets, t ∉ primary.blocks) :
    ((AtomicAction.addShadow name primary).run p).1 =
      .error (.foreignTarget name (p.block b).label) := by
  obtain ⟨grows, closed, prepared⟩ := yields_prepareShadow hp vars gate
  have mem : ∀ c ∈ before ++ [b], c ∈ primary.blocks := by
    intro c hc
    rw [split]
    simp only [List.mem_append, List.mem_cons] at hc ⊢
    tauto
  have same : ∀ c ∈ before ++ [b], (prepareShadow primary p).2.block c = p.block c := fun c hc =>
    grows.block_eq (blocks c (mem c hc))
  have failed := copyBlocks_foreign closed (prepared.faithful closed) name split
    (fun c hc => grows.within.hasBlock (blocks c hc))
    (fun c hc => by rw [same c (by simp [hc])]; exact stays c hc)
    (by rw [same b (by simp)]; exact leaves)
  rw [same b (by simp)] at failed
  rw [addShadow_run, bind_run]
  generalize ((shadowPlan _).copyBlocks name primary.blocks).run _ = result at *
  obtain ⟨result, q⟩ := result
  cases failed
  rfl

end Foreign

/-! ## One body -/

/-- The body can be made the action of the procedure. -/
structure Program.Admits (input : Program) (r : Procedure) (code : Body) : Prop where
  plain : r.typeParams = []
  nonempty : code.blocks ≠ []
  encloses : ∀ b ∈ code.blocks, ∀ t ∈ (input.block b).transfer.targets, t ∈ code.blocks

/-- Why a body cannot be made the action of a procedure. A reason counts only if those before it do
not apply. -/
inductive BodyOffence (input : Program) (r : Procedure) (code : Body) : Error → Prop where
  | typeParameters (generic : r.typeParams ≠ []) : BodyOffence input r code (.typeParameters r.name)
  | emptyAction (plain : r.typeParams = []) (empty : code.blocks = []) :
    BodyOffence input r code (.emptyAction r.name)
  /-- The first block with a goto that leaves is named. -/
  | foreignTarget (plain : r.typeParams = []) {before after : List BlockRef} {b : BlockRef}
    (split : code.blocks = before ++ b :: after)
    (stays : ∀ c ∈ before, ∀ t ∈ (input.block c).transfer.targets, t ∈ code.blocks)
    (leaves : ∃ t ∈ (input.block b).transfer.targets, t ∉ code.blocks) :
    BodyOffence input r code (.foreignTarget r.name (input.block b).label)

theorem BodyOffence.not_admits {input : Program} {r : Procedure} {code : Body} {e : Error}
    (h : BodyOffence input r code e) : ¬input.Admits r code := by
  intro admits
  cases h with
  | typeParameters generic => exact generic admits.plain
  | emptyAction _ empty => exact admits.nonempty empty
  | @foreignTarget _ before after b split stays leaves =>
    obtain ⟨t, ht, foreign⟩ := leaves
    exact foreign (admits.encloses b (by rw [split]; simp) t ht)

/-- Whether a body offends is decided by the blocks, which a ledger shares with the input. -/
theorem BodyOffence.of_sharedBase {input : Program} {r : Procedure} {code : Body} {e : Error}
    (h : BodyOffence input.sharedBase r code e) : BodyOffence input r code e := by
  cases h with
  | typeParameters generic => exact .typeParameters generic
  | emptyAction plain empty => exact .emptyAction plain empty
  | foreignTarget plain split stays leaves => exact .foreignTarget plain split stays leaves

/-- A body without a first block whose gotos leave is left by no goto. -/
theorem encloses_or_leaves (input : Program) (bs : List BlockRef) :
    (∀ b ∈ bs, ∀ t ∈ (input.block b).transfer.targets, t ∈ bs) ∨
      ∃ before b after, bs = before ++ b :: after ∧
        (∀ c ∈ before, ∀ t ∈ (input.block c).transfer.targets, t ∈ bs) ∧
        ∃ t ∈ (input.block b).transfer.targets, t ∉ bs := by
  cases hfind : bs.find? fun b => !(input.block b).transfer.targets.all (· ∈ bs) with
  | none =>
    left
    simpa using hfind
  | some b =>
    right
    obtain ⟨hb, before, after, split, hbefore⟩ := List.find?_eq_some_iff_append.1 hfind
    exact ⟨before, b, after, split, by simpa using hbefore, by simpa using hb⟩

section OfBody

variable {base p : Program} {t : TaggedBody}

/-- The body of a procedure without type parameters is left by a goto. -/
theorem ofBody_foreign (hp : p.Closed) (hbp : base.Grows Block.Softens p)
    (hr : base.HasProcedure t.procedure) (hcode : t.code.ValidIn base)
    (plain : (base.procedure t.procedure).typeParams = []) {before after : List BlockRef}
    {b : BlockRef} (split : t.code.blocks = before ++ b :: after)
    (stays : ∀ c ∈ before, ∀ x ∈ (base.block c).transfer.targets, x ∈ t.code.blocks)
    (leaves : ∃ x ∈ (base.block b).transfer.targets, x ∉ t.code.blocks) :
    ∃ q, (AtomicAction.ofBody t.procedure t.code t.mover).run p =
      (.error (.foreignTarget (base.procedure t.procedure).name (base.block b).label), q) := by
  have same : p.procedure t.procedure = base.procedure t.procedure := hbp.procedure_eq _ hr
  have nonempty : t.code.blocks ≠ [] := by
    rw [split]
    simp
  obtain ⟨continued, closed⟩ :=
    continues_assuming hp hbp (hcode.blocks _ (TaggedBody.entry_mem nonempty))
  have grows := hbp.trans Block.Softens.trans continued.grows
  have valid := validIn_primaryOf hp hbp hr hcode nonempty
  have mem : ∀ c ∈ before ++ [b], c ∈ t.code.blocks := by
    intro c hc
    rw [split]
    simp only [List.mem_append, List.mem_cons] at hc ⊢
    tauto
  -- taking the gate changes neither gotos nor labels
  have transfer : ∀ c ∈ before ++ [b],
      ((p.assuming t.entry).block c).transfer = (base.block c).transfer := fun c hc =>
    grows.transfer_eq (hcode.blocks c (mem c hc))
  have label : ((p.assuming t.entry).block b).label = (base.block b).label :=
    (grows.block b (hcode.blocks b (mem b (by simp)))).label_eq
  have failed := addShadow_foreign closed (p.procedure t.procedure).name valid.vars valid.blocks
    valid.gate split (fun c hc => by rw [transfer c (by simp [hc])]; exact stays c hc)
    (by rw [transfer b (by simp)]; exact leaves)
  rw [label] at failed
  rw [ofBody_run_plain (by rw [same]; exact plain) nonempty, bind_run]
  rw [← same]
  generalize (AtomicAction.addShadow (p.procedure t.procedure).name _).run _ = result at *
  obtain ⟨result, q⟩ := result
  cases failed
  exact ⟨q, rfl⟩

/-- Making an action of a body succeeds if the body is admitted, and otherwise fails for the first
reason there is. -/
theorem ofBody_outcome (hp : p.Closed) (hbp : base.Grows Block.Softens p)
    (hr : base.HasProcedure t.procedure) (hcode : t.code.ValidIn base) :
    (base.Admits (base.procedure t.procedure) t.code ∧
      ∃ a q, (AtomicAction.ofBody t.procedure t.code t.mover).run p = (.ok a, q)) ∨
    ∃ e q, BodyOffence base (base.procedure t.procedure) t.code e ∧
      (AtomicAction.ofBody t.procedure t.code t.mover).run p = (.error e, q) := by
  have same : p.procedure t.procedure = base.procedure t.procedure := hbp.procedure_eq _ hr
  by_cases plain : (base.procedure t.procedure).typeParams = []
  · by_cases empty : t.code.blocks = []
    · refine .inr ⟨_, p, .emptyAction plain empty, ?_⟩
      rw [AtomicAction.ofBody, read_bind_run, same]
      dsimp only
      rw [if_neg (not_not.2 plain), empty]
      rfl
    · rcases encloses_or_leaves base t.code.blocks with encloses |
        ⟨before, b, after, split, stays, leaves⟩
      · exact .inl ⟨⟨plain, empty, encloses⟩,
          exists_ofBody hp hbp hr hcode (by rw [same]; exact plain) empty encloses⟩
      · obtain ⟨q, failed⟩ := ofBody_foreign hp hbp hr hcode plain split stays leaves
        exact .inr ⟨_, q, .foreignTarget plain split stays leaves, failed⟩
  · refine .inr ⟨_, p, .typeParameters plain, ?_⟩
    rw [AtomicAction.ofBody, read_bind_run, same]
    dsimp only
    rw [if_pos plain]
    rfl

end OfBody

/-! ## Tagged postconditions -/

/-- A tagged postcondition of a procedure. -/
structure Tagging where
  procedure : ProcRef
  mover : Mover
  condition : Condition
  deriving DecidableEq

/-- The tagged postconditions of a procedure, in order. -/
def Program.taggings (input : Program) (r : ProcRef) : List Tagging :=
  (Ledger.taggedConditions (input.procedure r)).map fun c => ⟨r, c.1, c.2⟩

namespace Tagging

/-- The body that makes an action. -/
def body? (t : Tagging) : Option TaggedBody :=
  match t.condition with
  | .body code => some ⟨t.procedure, t.mover, code⟩
  | .formula _ => none

/-- The warning that the tag of a formula is ignored. -/
def warning? (input : Program) (t : Tagging) : Option Diagnostic :=
  match t.condition with
  | .body _ => none
  | .formula _ => some
    { severity := .warning
      message := "mover annotation on a postcondition that is not a code expression is ignored"
      procedure := some (input.procedure t.procedure).name }

end Tagging

/-- The action is the one that the body makes of its procedure. -/
structure TaggedBody.MadeInto (input : Program) (t : TaggedBody) (a : AtomicAction) : Prop where
  procedure_eq : a.procedure = t.procedure
  name_eq : a.name = (input.procedure t.procedure).name
  mover_eq : a.mover = t.mover
  inputs_eq : a.primary.inputs = (input.procedure t.procedure).inputs
  outputs_eq : a.primary.outputs = (input.procedure t.procedure).outputs
  locals_eq : a.primary.locals = t.code.locals
  blocks_eq : a.primary.blocks = t.code.blocks

/-- The procedure can be registered. -/
structure Program.Registrable (input : Program) (r : ProcRef) : Prop where
  single : (input.taggings r).length ≤ 1
  admits : ∀ t ∈ input.taggings r, ∀ code, t.condition = .body code →
    input.Admits (input.procedure r) code

/-- Why a procedure cannot be registered, and which of its tagged postconditions have been dealt
with when this turns out. The first one counts; only if there is nothing wrong with it, another one
is the reason. -/
inductive Offence (input : Program) (r : ProcRef) : List Tagging → Error → Prop where
  | body {t : Tagging} {rest : List Tagging} {code : Body} {e : Error}
    (tagged : input.taggings r = t :: rest) (condition : t.condition = .body code)
    (h : BodyOffence input (input.procedure r) code e) : Offence input r [] e
  | multipleActions {t t' : Tagging} {rest : List Tagging}
    (tagged : input.taggings r = t :: t' :: rest)
    (admits : ∀ code, t.condition = .body code → input.Admits (input.procedure r) code) :
    Offence input r [t] (.multipleActions (input.procedure r).name)

theorem Offence.not_registrable {input : Program} {r : ProcRef} {dealt : List Tagging} {e : Error}
    (h : Offence input r dealt e) : ¬input.Registrable r := by
  intro registrable
  cases h with
  | body tagged condition h =>
    apply h.not_admits
    apply registrable.admits _ _ _ condition
    rw [tagged]
    simp
  | multipleActions tagged _ =>
    have single := registrable.single
    rw [tagged] at single
    simp at single

namespace Ledger

/-! ## One procedure -/

/-- From `l` to `m` the tagged postconditions have been dealt with: each body made an action, and
each formula gave a warning, in order, and there is nothing else. -/
structure Settles (input : Program) (ts : List Tagging) (l m : Ledger) : Prop where
  actions : ∃ as, List.Forall₂ (TaggedBody.MadeInto input) (ts.filterMap Tagging.body?) as ∧
    m.actions.toList = l.actions.toList ++ as
  diagnostics : m.diagnostics = l.diagnostics ++ ts.filterMap (Tagging.warning? input)

section

variable {input : Program} {ts ts' : List Tagging} {l m n : Ledger}

theorem Settles.refl (input : Program) (l : Ledger) : Settles input [] l l :=
  ⟨⟨[], .nil, (List.append_nil _).symm⟩, (List.append_nil _).symm⟩

theorem Settles.trans (h : Settles input ts l m) (k : Settles input ts' m n) :
    Settles input (ts ++ ts') l n := by
  obtain ⟨as, made, actions⟩ := h.actions
  obtain ⟨as', made', actions'⟩ := k.actions
  refine ⟨⟨as ++ as', ?_, ?_⟩, ?_⟩
  · rw [List.filterMap_append]
    exact List.rel_append made made'
  · rw [actions', actions, List.append_assoc]
  · rw [k.diagnostics, h.diagnostics, List.filterMap_append, List.append_assoc]

variable {r : ProcRef}

/-- What registering a tagged postcondition comes to. -/
theorem registerCondition_outcome (hinput : input.Closed) (hl : l.Assembled input)
    (hr : r ∈ input.procedureRefs) {t : Tagging} (ht : t ∈ input.taggings r) :
    ((∀ code, t.condition = .body code → input.Admits (input.procedure r) code) ∧
      ∃ m, (registerCondition (input.procedure r).name r t.mover t.condition).run l = (.ok (), m) ∧
        Settles input [t] l m) ∨
    ∃ e m code, t.condition = .body code ∧ BodyOffence input (input.procedure r) code e ∧
      (registerCondition (input.procedure r).name r t.mover t.condition).run l = (.error e, m) ∧
        Settles input [] l m := by
  obtain ⟨⟨mover, condition⟩, hmem, rfl⟩ := List.mem_map.1 ht
  cases condition with
  | formula e =>
    refine .inl ⟨?_, _, rfl, ⟨⟨[], .nil, (List.append_nil _).symm⟩, rfl⟩⟩
    intro code h
    cases h
  | body code =>
    have sound := hl.sound hinput
    have hproc : input.sharedBase.HasProcedure r := hinput.hasProcedure_of_mem hr
    have hcode := validIn_of_tagged hinput hr hmem
    rw [registerCondition_run_body]
    rcases ofBody_outcome (t := ⟨r, mover, code⟩) sound.closed sound.grows hproc hcode with
      ⟨admits, a, q, run⟩ | ⟨e, q, offence, run⟩
    · refine .inl ⟨fun code' h => ?_, ?_⟩
      · cases h
        exact ⟨admits.plain, admits.nonempty, admits.encloses⟩
      · obtain ⟨entry, rest, shadow, -, rfl⟩ := eq_of_ofBody run
        have same : l.program.procedure r = input.procedure r := sound.grows.procedure_eq r hproc
        rw [show (AtomicAction.ofBody r code mover).run l.program = _ from run, same]
        exact ⟨_, rfl, ⟨_, .cons ⟨rfl, rfl, rfl, rfl, rfl, rfl, rfl⟩ .nil, Array.toList_push ..⟩,
          (List.append_nil _).symm⟩
    · rw [show (AtomicAction.ofBody r code mover).run l.program = _ from run]
      exact .inr ⟨e, _, code, rfl, offence.of_sharedBase, rfl,
        ⟨[], .nil, (List.append_nil _).symm⟩, (List.append_nil _).symm⟩

/-- What registering a procedure comes to. -/
theorem registerProcedure_outcome (hinput : input.Closed) (hl : l.Assembled input)
    (hr : r ∈ input.procedureRefs) :
    (input.Registrable r ∧ ∃ m, (registerProcedure input r).run l = (.ok (), m) ∧
      Settles input (input.taggings r) l m) ∨
    ∃ e m dealt, Offence input r dealt e ∧ (registerProcedure input r).run l = (.error e, m) ∧
      Settles input dealt l m := by
  cases htagged : taggedConditions (input.procedure r) with
  | nil =>
    have none : input.taggings r = [] := by rw [taggings, htagged]; rfl
    refine .inl ⟨⟨by simp [none], by simp [none]⟩, l, registerProcedure_run_untagged htagged, ?_⟩
    rw [none]
    exact Settles.refl input l
  | cons tagged rest =>
    obtain ⟨mover, condition⟩ := tagged
    have first : input.taggings r = ⟨r, mover, condition⟩ :: rest.map fun c => ⟨r, c.1, c.2⟩ := by
      rw [taggings, htagged]
      rfl
    have split : registerProcedure input r =
        registerCondition (input.procedure r).name r mover condition >>= fun _ =>
          if rest ≠ [] then throw (.multipleActions (input.procedure r).name) else pure () := by
      simp only [registerProcedure, htagged]
    rw [split, bind_run]
    rcases registerCondition_outcome (t := ⟨r, mover, condition⟩) hinput hl hr
      (by rw [first]; simp) with ⟨admits, m, run, settles⟩ |
      ⟨e, m, code, hcode, offence, run, settles⟩
    · simp only [run]
      cases rest with
      | nil =>
        rw [List.map_nil] at first
        refine .inl ⟨⟨by simp [first], ?_⟩, m, rfl, by rw [first]; exact settles⟩
        rw [first]
        exact List.forall_mem_singleton.2 admits
      | cons second rest =>
        exact .inr ⟨_, m, _, .multipleActions first admits, rfl, settles⟩
    · simp only [run]
      exact .inr ⟨e, m, [], .body first hcode offence, rfl, settles⟩

/-! ## All procedures -/

/-- Procedures are registered one after the other until one cannot be. -/
theorem registerProcedures_outcome (hinput : input.Closed) {rs : List ProcRef}
    (hrs : ∀ r ∈ rs, r ∈ input.procedureRefs) (hl : l.Assembled input) :
    ((∀ r ∈ rs, input.Registrable r) ∧ ∃ m,
      (rs.forM (registerProcedure input)).run l = (.ok (), m) ∧
      Settles input (rs.flatMap input.taggings) l m) ∨
    ∃ before r after dealt e m, rs = before ++ r :: after ∧ (∀ x ∈ before, input.Registrable x) ∧
      Offence input r dealt e ∧ (rs.forM (registerProcedure input)).run l = (.error e, m) ∧
      Settles input (before.flatMap input.taggings ++ dealt) l m := by
  induction rs generalizing l with
  | nil => exact .inl ⟨by simp, l, rfl, Settles.refl input l⟩
  | cons r rs ih =>
    rw [List.forall_mem_cons] at hrs
    have steps := (registers_registerProcedure hrs.1 l).steps
    rw [List.forM, bind_run]
    rcases registerProcedure_outcome hinput hl hrs.1 with ⟨registrable, m, run, settles⟩ |
      ⟨e, m, dealt, offence, run, settles⟩
    · rw [run] at steps ⊢
      rcases ih hrs.2 (steps.assembled hinput hl) with ⟨all, n, run', settles'⟩ |
        ⟨before, x, after, dealt, e, n, hsplit, hbefore, offence, run', settles'⟩
      · exact .inl ⟨List.forall_mem_cons.2 ⟨registrable, all⟩, n, run', settles.trans settles'⟩
      · refine .inr ⟨r :: before, x, after, dealt, e, n, by rw [hsplit]; rfl,
          List.forall_mem_cons.2 ⟨registrable, hbefore⟩, offence, run', ?_⟩
        rw [List.flatMap_cons, List.append_assoc]
        exact settles.trans settles'
    · rw [run]
      exact .inr ⟨[], r, rs, dealt, e, m, rfl, by simp, offence, rfl, settles⟩

end

/-- What registering does to a new ledger. It succeeds if and only if every declared procedure can
be registered; then each tagged body has made an action and each tagged formula has given a warning,
in order. Otherwise the first procedure that cannot be registered decides the error, and what was
registered and reported up to there stays. The mover type of an action is the one that the tags of
its postcondition give by precedence. -/
theorem register_stops_at_first_offence {input : Program} (hinput : input.Closed)
    (ownership : Ownership) :
    ((∃ m, (register input).run (ofProgram input ownership) = (.ok (), m)) ↔
      ∀ r ∈ input.procedureRefs, input.Registrable r) ∧
    (∀ m, (register input).run (ofProgram input ownership) = (.ok (), m) →
      List.Forall₂ (TaggedBody.MadeInto input)
        ((input.procedureRefs.flatMap input.taggings).filterMap Tagging.body?) m.actions.toList ∧
      m.diagnostics =
        (input.procedureRefs.flatMap input.taggings).filterMap (Tagging.warning? input)) ∧
    (∀ e m, (register input).run (ofProgram input ownership) = (.error e, m) →
      ∃ before r after dealt, input.procedureRefs = before ++ r :: after ∧
        (∀ x ∈ before, input.Registrable x) ∧ ¬input.Registrable r ∧ Offence input r dealt e ∧
        List.Forall₂ (TaggedBody.MadeInto input)
          ((before.flatMap input.taggings ++ dealt).filterMap Tagging.body?) m.actions.toList ∧
        m.diagnostics =
          (before.flatMap input.taggings ++ dealt).filterMap (Tagging.warning? input)) ∧
    ∀ (post : Postcondition) (mover : Mover), post.mover? = some mover ↔ post.TaggedWith mover := by
  have settled {ts : List Tagging} {m : Ledger}
      (h : Settles input ts (ofProgram input ownership) m) :
      List.Forall₂ (TaggedBody.MadeInto input) (ts.filterMap Tagging.body?) m.actions.toList ∧
        m.diagnostics = ts.filterMap (Tagging.warning? input) := by
    obtain ⟨as, made, actions⟩ := h.actions
    rw [actions]
    exact ⟨made, h.diagnostics⟩
  have outcome := registerProcedures_outcome hinput (fun _ h => h)
    (assembled_ofProgram input ownership)
  rw [register]
  refine ⟨?_, ?_, ?_, Postcondition.mover?_eq_some_iff⟩
  · rcases outcome with ⟨all, n, run, -⟩ |
      ⟨before, r, after, dealt, e, n, split, -, offence, run, -⟩
    · exact ⟨fun _ => all, fun _ => ⟨n, run⟩⟩
    · constructor
      · rintro ⟨m, run'⟩
        rw [run] at run'
        cases run'
      · intro all
        refine absurd (all r ?_) offence.not_registrable
        rw [split]
        simp
  · intro m run
    rcases outcome with ⟨-, n, run', settles⟩ | ⟨before, r, after, dealt, e, n, -, -, -, run', -⟩
    · rw [run'] at run
      cases run
      exact settled settles
    · rw [run'] at run
      cases run
  · intro e m run
    rcases outcome with ⟨-, n, run', -⟩ |
      ⟨before, r, after, dealt, e', n, split, hbefore, offence, run', settles⟩
    · rw [run'] at run
      cases run
    · rw [run'] at run
      cases run
      exact ⟨before, r, after, dealt, split, hbefore, offence.not_registrable, offence,
        settled settles⟩

end Ledger

namespace Account

/-- The account with a second procedure, which has a tagged formula and then a tagged body. -/
def audited : Program :=
  { tagged with
    procedures := tagged.procedures.push
      { name := "audit"
        inputs := [⟨2⟩]
        outputs := [⟨3⟩]
        ensures := [{ attributes := ["left"], condition := .formula ⟨5⟩ },
          { attributes := ["both", "right"], condition := .body depositBody }] }
    declarations := tagged.declarations ++ [.procedure ⟨1⟩] }

theorem closed_audited : audited.Closed := by decide +kernel

end Account

namespace Ledger

/-- The second procedure stops the registration. By then the deposit is registered and the tag of
the formula is reported. -/
theorem register_stops_at_first_offence_audited :
    ∃ m, (register Account.audited).run (ofProgram Account.audited (.ofProgram Account.audited)) =
        (.error (.multipleActions "audit"), m) ∧
      m.actions.size = 1 ∧ m.diagnostics.length = 1 ∧
      ∃ before r after dealt, Account.audited.procedureRefs = before ++ r :: after ∧
        (∀ x ∈ before, Account.audited.Registrable x) ∧
        Offence Account.audited r dealt (.multipleActions "audit") := by
  have run : (register Account.audited).run
      (ofProgram Account.audited (.ofProgram Account.audited)) =
        (.error (.multipleActions "audit"), ((register Account.audited).run
          (ofProgram Account.audited (.ofProgram Account.audited))).2) :=
    eq_error_of_fst (by decide +kernel)
  obtain ⟨before, r, after, dealt, split, hbefore, -, offence, -⟩ :=
    (register_stops_at_first_offence Account.closed_audited (.ofProgram Account.audited)).2.2.1
      _ _ run
  exact ⟨_, run, by decide +kernel, by decide +kernel, before, r, after, dealt, split, hbefore,
    offence⟩

end Ledger

end AtomicMovers
