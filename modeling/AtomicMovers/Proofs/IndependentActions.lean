import AtomicMovers.Proofs.RequestOrder
import AtomicMovers.Proofs.ShadowCopies

/-!
# Actions that disturb each other

Registering an action changes the program: the entry block of the body assumes its gate from then on.
Bodies may share blocks, so a later action may find an entry whose gate is gone, and an earlier one
may see its blocks change.

The changes are easy to say (`Builds.block_eq`): a block has lost its gate exactly if it is the entry
of some action that was registered. From this follows when an action is what it would be if its
procedure were the only one (`Ledger.Independent`). Main statement, `independent_iff_undisturbed`: this
is so exactly if no other action starts with a gate at one of its blocks, where a later action may
start at the same entry. `shared_entry_disturbs` is a program where this makes a difference.
-/

namespace AtomicMovers

open Program

/-! ## Gates that are assumed -/

/-- The block, with its gate assumed. -/
def Block.assumed (b : Block) : Block := { b with commands := assumeGate b.commands }

theorem Block.assumed_assumed (b : Block) : b.assumed.assumed = b.assumed := by
  simp only [assumed, assumeGate_assumeGate]

/-- No gate is left. -/
theorem gateOf_assumeGate {ε : Type} (cs : List (Command ε)) : gateOf (assumeGate cs) = [] := by
  cases cs with
  | nil => rfl
  | cons c cs => cases c <;> rfl

/-- Only a block with a gate changes when it is assumed. -/
theorem Block.assumed_eq_self_iff {b : Block} : b.assumed = b ↔ gateOf b.commands = [] := by
  obtain ⟨label, commands, transfer⟩ := b
  cases commands with
  | nil => exact ⟨fun _ => rfl, fun _ => rfl⟩
  | cons c cs => cases c <;> simp [Block.assumed, assumeGate, gateOf]

/-- What is left of the gate of a block that may have been assumed. -/
theorem Block.gateOf_ite_assumed {b : Block} {assumed : Prop} [Decidable assumed] :
    gateOf (if assumed then b.assumed else b).commands =
      if assumed then [] else gateOf b.commands := by
  by_cases h : assumed
  · rw [if_pos h, if_pos h]
    exact gateOf_assumeGate _
  · rw [if_neg h, if_neg h]

/-! ## Blocks while actions are built -/

/-- The body stands in the program. -/
def TaggedBody.ValidIn (p : Program) (t : TaggedBody) : Prop :=
  p.HasProcedure t.procedure ∧ t.code.ValidIn p

theorem Program.validIn_taggedBodies {input : Program} (hinput : input.Closed) {t : TaggedBody}
    (ht : t ∈ input.taggedBodies) : t.ValidIn input.sharedBase := by
  obtain ⟨hr, hcode⟩ := mem_taggedBodies ht
  exact ⟨hinput.hasProcedure_of_mem hr, Ledger.validIn_of_tagged hinput hr hcode⟩

/-- The block where runs of an action start. -/
def AtomicAction.entry (a : AtomicAction) : BlockRef := a.primary.entry

section Builds

variable {base p q : Program} {t : TaggedBody} {ts : List TaggedBody} {a : AtomicAction}
  {as as₁ as₂ : List AtomicAction}

theorem TaggedBody.Becomes.entry_eq (h : t.Becomes p a q) : a.entry = t.entry := by
  rw [AtomicAction.entry, Replica.entry, h.primary_eq]
  rfl

theorem Program.block_assuming {entry b : BlockRef} (hb : p.HasBlock b) :
    (p.assuming entry).block b = if b = entry then (p.block b).assumed else p.block b := by
  by_cases heq : b = entry
  · subst heq
    rw [if_pos rfl]
    exact block_modifyBlock_self hb _
  · rw [if_neg heq]
    exact block_modifyBlock_of_ne heq _

theorem TaggedBody.Becomes.block_eq (h : t.Becomes p a q) {b : BlockRef} (hb : p.HasBlock b) :
    q.block b = if b = a.entry then (p.block b).assumed else p.block b := by
  have hb' : (p.assuming t.entry).HasBlock b := by
    show b.index < (p.blocks.modify _ _).size
    rw [Array.size_modify]
    exact hb
  rw [h.grows.block_eq hb', h.entry_eq, block_assuming hb]

/-- What was built before and what is built now belong to one construction. -/
theorem Builds.assembly {actions : List AtomicAction} (h : Builds p ts as q)
    (valid : ∀ t ∈ ts, t.ValidIn base) (hp : Assembly base p actions) :
    Assembly base q (actions ++ as) := by
  induction h generalizing actions with
  | nil p =>
    rw [List.append_nil]
    exact hp
  | cons run _ ih =>
    rw [List.forall_mem_cons] at valid
    have k := ih valid.2 (Assembly.register hp valid.1.1 valid.1.2 run)
    rwa [List.append_assoc] at k

theorem Builds.continues {actions : List AtomicAction} (hbase : base.Closed) (h : Builds p ts as q)
    (valid : ∀ t ∈ ts, t.ValidIn base) (hp : Assembly base p actions) : base.Continues p q := by
  induction h generalizing actions with
  | nil p => exact .ofExtends (Extends.refl p)
  | cons run _ ih =>
    rw [List.forall_mem_cons] at valid
    have sound := hp.sound hbase
    have first := (continues_ofBody hbase sound.closed sound.grows valid.1.1 valid.1.2 _ run).1
    exact first.trans (ih valid.2 (Assembly.register hp valid.1.1 valid.1.2 run))

/-- A block has lost its gate if it is the entry of an action that was built. -/
theorem Builds.block_eq (hbase : base.Closed) (h : Builds p ts as q)
    (valid : ∀ t ∈ ts, t.ValidIn base) {actions : List AtomicAction} (hp : Assembly base p actions)
    {b : BlockRef} (hb : base.HasBlock b) :
    q.block b = if b ∈ as.map AtomicAction.entry then (p.block b).assumed else p.block b := by
  induction h generalizing actions with
  | nil p => rfl
  | @cons p q s t ts a as run _ ih =>
    rw [List.forall_mem_cons] at valid
    have sound := hp.sound hbase
    have first := becomes_of_ofBody sound.closed sound.grows valid.1.1 valid.1.2 run
    rw [ih valid.2 (Assembly.register hp valid.1.1 valid.1.2 run),
      first.block_eq (sound.grows.within.hasBlock hb), List.map_cons]
    by_cases heq : b = a.entry
    · rw [if_pos heq, if_pos (List.mem_cons.2 (.inl heq)), Block.assumed_assumed, ite_self]
    · rw [if_neg heq]
      simp only [List.mem_cons, heq, false_or]

/-- The moment at which one of the actions was built. -/
theorem Builds.split (h : Builds p ts (as₁ ++ a :: as₂) q) :
    ∃ ts₁ t ts₂ p₁ q₁, ts = ts₁ ++ t :: ts₂ ∧ Builds p ts₁ as₁ p₁ ∧
      (AtomicAction.ofBody t.procedure t.code t.mover).run p₁ = (.ok a, q₁) ∧
      Builds q₁ ts₂ as₂ q := by
  induction as₁ generalizing p ts with
  | nil =>
    cases h with
    | cons run rest => exact ⟨[], _, _, p, _, rfl, .nil p, run, rest⟩
  | cons a' as₁ ih =>
    cases h with
    | cons run rest =>
      obtain ⟨ts₁, t, ts₂, p₁, q₁, rfl, before, now, after⟩ := ih rest
      exact ⟨_ :: ts₁, t, ts₂, p₁, q₁, rfl, .cons run before, now, after⟩

end Builds

/-! ## One procedure alone -/

/-- The same program, in which `r` is the only declared procedure. -/
def Program.only (r : ProcRef) (p : Program) : Program :=
  { p with
    declarations := p.declarations.filter (fun d => d.procedure?.isNone) ++ [.procedure r] }

theorem Program.procedureRefs_only (r : ProcRef) (p : Program) : (p.only r).procedureRefs = [r] := by
  have none : (p.declarations.filter fun d => d.procedure?.isNone).filterMap
      Declaration.procedure? = [] := by
    refine List.filterMap_eq_nil_iff.2 fun d hd => ?_
    simpa using (List.mem_filter.1 hd).2
  rw [procedureRefs, only, List.filterMap_append, none]
  rfl

/-- What is shared does not depend on the procedures. -/
theorem Program.sharedBase_only (r : ProcRef) (p : Program) :
    (p.only r).sharedBase = p.sharedBase := by
  have shared : (p.only r).declarations.filter Declaration.isShared =
      p.declarations.filter Declaration.isShared := by
    rw [only, List.filter_append, List.filter_filter]
    have last : [Declaration.procedure r].filter Declaration.isShared = [] := rfl
    rw [last, List.append_nil]
    refine List.filter_congr fun d _ => ?_
    cases d <;> rfl
  have globals : (p.only r).globals = p.globals := by
    rw [Program.globals, only, List.filterMap_append, List.filterMap_filter]
    have last : [Declaration.procedure r].filterMap Declaration.global? = [] := rfl
    rw [last, List.append_nil]
    refine List.filterMap_congr fun d _ => ?_
    cases d <;> rfl
  rw [sharedBase, sharedBase, shared, globals]
  rfl

theorem Program.grows_sharedBase {R : Block → Block → Prop} (hR : ∀ b, R b b) (p : Program) :
    p.Grows R p.sharedBase :=
  { Grows.refl hR p with globals_eq := globals_sharedBase p }

namespace Ledger

variable {input : Program} {l : Ledger} {k : ActionRef}

/-- The action is what it would be if there were no other procedures: its gate is the one of its entry
in the input, its blocks are those of the input with this gate assumed, and its shadow copy is, up to
what is new, the one that registering its procedure alone makes. -/
structure Independent (input : Program) (l : Ledger) (k : ActionRef) : Prop where
  gate : (l.action k).primary.gate = gateOf (input.block (l.action k).entry).commands
  blocks : ∀ b ∈ (l.action k).primary.blocks, l.program.block b =
    if b = (l.action k).entry then (input.block b).assumed else input.block b
  alone : ∀ ownership, ∃ l' a, (register (input.only (l.action k).procedure)).run
      (ofProgram (input.only (l.action k).procedure) ownership) = (.ok (), l') ∧
    l'.actions = #[a] ∧ (l.action k).shadow.AlikeOver input l.program l'.program a.shadow

/-- No other action starts at one of the blocks of the action and has a gate there. A later one may
start where the action starts. -/
def Undisturbed (input : Program) (l : Ledger) (k : ActionRef) : Prop :=
  ∀ j ∈ l.actionRefs, j ≠ k → (l.action j).entry ∈ (l.action k).primary.blocks →
    gateOf (input.block (l.action j).entry).commands = [] ∨
      ((l.action j).entry = (l.action k).entry ∧ k.index < j.index)

theorem getElem?_actions {i : Nat} {a : AtomicAction} :
    l.actions.toList[i]? = some a ↔ (⟨i⟩ : ActionRef) ∈ l.actionRefs ∧ l.action ⟨i⟩ = a := by
  rw [mem_actionRefs, List.getElem?_eq_some_iff]
  constructor
  · rintro ⟨hi, rfl⟩
    have hi' : i < l.actions.size := hi
    exact ⟨hi', by simp [action, hi']⟩
  · rintro ⟨hi, rfl⟩
    have hi' : i < l.actions.size := hi
    exact ⟨hi', by simp [action, hi']⟩

/-- How an action was registered: `before` and `after` it others were. -/
structure RegisteredBetween (input : Program) (before : List AtomicAction) (a : AtomicAction)
    (after : List AtomicAction) (t : TaggedBody) (p q : Program) (l : Ledger) : Prop where
  actions_eq : l.actions.toList = before ++ a :: after
  tagged : t ∈ input.taggedBodies
  single : (taggedConditions (input.procedure t.procedure)).length ≤ 1
  sound : Assembly.Sound input.sharedBase p before
  becomes : t.Becomes p a q
  continues : input.sharedBase.Continues q l.program
  closed : q.Closed
  /-- Blocks at the time, and in the end. -/
  block_then : ∀ b, input.HasBlock b → p.block b =
    if b ∈ before.map AtomicAction.entry then (input.block b).assumed else input.block b
  block_now : ∀ b, input.HasBlock b → l.program.block b =
    if b ∈ l.actions.toList.map AtomicAction.entry then (input.block b).assumed else input.block b

theorem exists_registeredBetween (hinput : input.Closed) {ownership : Ownership}
    (run : (register input).run (ofProgram input ownership) = (.ok (), l)) (hk : k ∈ l.actionRefs) :
    ∃ before after t p q, before.length = k.index ∧
      RegisteredBetween input before (l.action k) after t p q l := by
  obtain ⟨singles, as, built, hactions⟩ := builds_of_register run
  have hactions : l.actions.toList = as := hactions
  have hbase := hinput.sharedBase
  have valid : ∀ t ∈ input.taggedBodies, t.ValidIn input.sharedBase := fun t ht =>
    validIn_taggedBodies hinput ht
  have fresh : Assembly input.sharedBase (ofProgram input ownership).program [] := .start
  -- where the action stands among all actions
  have hindex : k.index < as.length := by
    rw [← hactions]
    exact mem_actionRefs.1 hk
  have position : as = as.take k.index ++ l.action k :: as.drop (k.index + 1) := by
    have here : l.action k = as[k.index] := by
      subst hactions
      simp [action, mem_actionRefs.1 hk]
    rw [here, List.getElem_cons_drop, List.take_append_drop]
  have now := fun b hb => built.block_eq hbase valid fresh (b := b) hb
  rw [position] at built
  obtain ⟨ts₁, t, ts₂, p, q, hts, before, made, after⟩ := built.split
  rw [hts] at valid
  simp only [List.forall_mem_append, List.forall_mem_cons] at valid
  have assembled := before.assembly valid.1 fresh
  have sound := assembled.sound hbase
  have assembled' := Assembly.register assembled valid.2.1.1 valid.2.1.2 made
  have mem : t ∈ input.taggedBodies := by simp [hts]
  exact ⟨as.take k.index, as.drop (k.index + 1), t, p, q, by simp [Nat.le_of_lt hindex],
    { actions_eq := hactions.trans position
      tagged := mem
      single := singles _ (mem_taggedBodies mem).1
      sound := sound
      becomes := becomes_of_ofBody sound.closed sound.grows valid.2.1.1 valid.2.1.2 made
      continues := after.continues hbase valid.2.2 assembled'
      closed := (assembled'.sound hbase).closed
      block_then := fun b hb => before.block_eq hbase valid.1 fresh hb
      block_now := fun b hb => by rw [hactions]; exact now b hb }⟩

namespace RegisteredBetween

variable {before after : List AtomicAction} {a : AtomicAction} {t : TaggedBody} {p q : Program}
  (h : RegisteredBetween input before a after t p q l)

include h

theorem blocks_eq : a.primary.blocks = t.code.blocks := h.becomes.blocks_eq

theorem hasBlock (hinput : input.Closed) : ∀ b ∈ a.primary.blocks, input.HasBlock b := by
  rw [h.blocks_eq]
  exact (validIn_taggedBodies hinput h.tagged).2.blocks

theorem entry_mem : a.entry ∈ a.primary.blocks :=
  Replica.entry_mem (by rw [h.blocks_eq]; exact h.becomes.nonempty)

/-- The gate that was found at the entry. -/
theorem gate_eq (hinput : input.Closed) : a.primary.gate =
    if a.entry ∈ before.map AtomicAction.entry then [] else
      gateOf (input.block a.entry).commands := by
  have found : a.primary.gate = gateOf (p.block a.entry).commands := by
    rw [h.becomes.entry_eq, h.becomes.primary_eq]
    rfl
  rw [found, h.block_then _ (h.hasBlock hinput _ h.entry_mem), Block.gateOf_ite_assumed]

/-- The actions before this one are those with smaller positions. -/
theorem mem_before_iff {x : AtomicAction} :
    x ∈ before ↔ ∃ j ∈ l.actionRefs, j.index < before.length ∧ l.action j = x := by
  constructor
  · intro hx
    obtain ⟨i, hi⟩ := List.mem_iff_getElem?.1 hx
    obtain ⟨lt, -⟩ := List.getElem?_eq_some_iff.1 hi
    have there : l.actions.toList[i]? = some x := by
      rw [h.actions_eq, List.getElem?_append_left lt, hi]
    obtain ⟨hj, heq⟩ := getElem?_actions.1 there
    exact ⟨⟨i⟩, hj, lt, heq⟩
  · rintro ⟨j, hj, lt, rfl⟩
    have there := getElem?_actions.2 ⟨hj, rfl⟩
    rw [h.actions_eq, List.getElem?_append_left lt] at there
    exact List.mem_of_getElem? there

end RegisteredBetween

/-- No block of the action has lost a gate on account of another action. -/
structure Spared (input : Program) (before : List AtomicAction) (a : AtomicAction) (l : Ledger) :
    Prop where
  earlier : ∀ b ∈ a.primary.blocks, b ∈ before.map AtomicAction.entry →
    gateOf (input.block b).commands = []
  always : ∀ b ∈ a.primary.blocks, b ≠ a.entry → b ∈ l.actions.toList.map AtomicAction.entry →
    gateOf (input.block b).commands = []

section Spared

variable {before after : List AtomicAction} {t : TaggedBody} {p q : Program}
  (h : RegisteredBetween input before (l.action k) after t p q l)

include h

theorem undisturbed_iff_spared (hk : before.length = k.index) :
    l.Undisturbed input k ↔ Spared input before (l.action k) l := by
  constructor
  · intro undisturbed
    refine ⟨fun b hb hmem => ?_, fun b hb hne hmem => ?_⟩
    · obtain ⟨x, hx, rfl⟩ := List.mem_map.1 hmem
      obtain ⟨j, hj, lt, rfl⟩ := h.mem_before_iff.1 hx
      have hjk : j ≠ k := fun heq => by
        rw [heq] at lt
        omega
      rcases undisturbed j hj hjk hb with gateless | ⟨-, later⟩
      · exact gateless
      · omega
    · obtain ⟨x, hx, rfl⟩ := List.mem_map.1 hmem
      obtain ⟨i, hi⟩ := List.mem_iff_getElem?.1 hx
      obtain ⟨hj, rfl⟩ := getElem?_actions.1 hi
      have hjk : (⟨i⟩ : ActionRef) ≠ k := fun heq => hne (by rw [heq])
      exact (undisturbed _ hj hjk hb).resolve_right fun same => hne same.1
  · intro spared j hj hjk hb
    by_cases heq : (l.action j).entry = (l.action k).entry
    · by_cases later : k.index < j.index
      · exact .inr ⟨heq, later⟩
      · have lt : j.index < before.length := by
          have : j.index ≠ k.index := fun same => hjk (by cases j; cases k; exact congrArg _ same)
          omega
        have mem := h.mem_before_iff.2 ⟨j, hj, lt, rfl⟩
        exact .inl (spared.earlier _ hb (List.mem_map_of_mem mem))
    · exact .inl (spared.always _ hb heq (List.mem_map_of_mem (action_mem hj)))

theorem Independent.spared (hinput : input.Closed) (independent : l.Independent input k) :
    Spared input before (l.action k) l := by
  have always : ∀ b ∈ (l.action k).primary.blocks, b ≠ (l.action k).entry →
      b ∈ l.actions.toList.map AtomicAction.entry → gateOf (input.block b).commands = [] := by
    intro b hb hne hmem
    have now := independent.blocks b hb
    rw [h.block_now b (h.hasBlock hinput b hb), if_pos hmem, if_neg hne] at now
    exact Block.assumed_eq_self_iff.1 now
  refine ⟨fun b hb hmem => ?_, always⟩
  by_cases heq : b = (l.action k).entry
  · -- the entry itself had lost its gate before
    subst heq
    have gate := independent.gate
    rw [h.gate_eq hinput, if_pos hmem] at gate
    exact gate.symm
  · refine always b hb heq ?_
    rw [h.actions_eq, List.map_append]
    exact List.mem_append.2 (.inl hmem)

theorem Spared.gate (hinput : input.Closed) (spared : Spared input before (l.action k) l) :
    (l.action k).primary.gate = gateOf (input.block (l.action k).entry).commands := by
  rw [h.gate_eq hinput]
  by_cases hmem : (l.action k).entry ∈ before.map AtomicAction.entry
  · rw [if_pos hmem, spared.earlier _ h.entry_mem hmem]
  · rw [if_neg hmem]

theorem Spared.blocks (hinput : input.Closed) (spared : Spared input before (l.action k) l) :
    ∀ b ∈ (l.action k).primary.blocks, l.program.block b =
      if b = (l.action k).entry then (input.block b).assumed else input.block b := by
  intro b hb
  rw [h.block_now b (h.hasBlock hinput b hb)]
  by_cases heq : b = (l.action k).entry
  · have hmem : b ∈ l.actions.toList.map AtomicAction.entry := by
      rw [heq, h.actions_eq]
      simp
    rw [if_pos hmem, if_pos heq]
  · rw [if_neg heq]
    by_cases hmem : b ∈ l.actions.toList.map AtomicAction.entry
    · rw [if_pos hmem, Block.assumed_eq_self_iff.2 (spared.always b hb heq hmem)]
    · rw [if_neg hmem]

/-- The blocks were the same as in the input when the shadow copy was made, the entry apart. -/
theorem Spared.block_assuming (hinput : input.Closed) (spared : Spared input before (l.action k) l) :
    ∀ b ∈ (l.action k).primary.blocks,
      (input.sharedBase.assuming t.entry).block b = (p.assuming t.entry).block b := by
  intro b hb
  have hasBlock : input.sharedBase.HasBlock b := h.hasBlock hinput b hb
  have old : input.sharedBase.block b = input.block b := rfl
  rw [Program.block_assuming hasBlock, Program.block_assuming (h.sound.grows.within.hasBlock hasBlock),
    old, h.block_then b hasBlock]
  by_cases hmem : b ∈ before.map AtomicAction.entry
  · -- the gate was assumed already, or there is none to assume
    rw [if_pos hmem, Block.assumed_assumed, Block.assumed_eq_self_iff.2 (spared.earlier b hb hmem)]
  · rw [if_neg hmem]

theorem Spared.primary_eq (hinput : input.Closed) (spared : Spared input before (l.action k) l) :
    (l.action k).primary = primaryOf (input.sharedBase.procedure t.procedure) t.code
      (gateOf (input.sharedBase.block t.entry).commands) := by
  have procedure := h.sound.grows.procedure_eq _ (validIn_taggedBodies hinput h.tagged).1
  have gate := spared.gate h hinput
  rw [h.becomes.primary_eq, h.becomes.entry_eq] at gate
  have gate : gateOf (p.block t.entry).commands = gateOf (input.block t.entry).commands := gate
  rw [h.becomes.primary_eq, procedure, gate]
  rfl

theorem Spared.alikeOver (hinput : input.Closed) (spared : Spared input before (l.action k) l)
    {a : AtomicAction} {q' : Program} (alone : t.Becomes input.sharedBase a q') :
    (l.action k).shadow.AlikeOver input l.program q' a.shadow := by
  obtain ⟨hr, hcode⟩ := validIn_taggedBodies hinput h.tagged
  have hentry := hcode.blocks _ (TaggedBody.entry_mem h.becomes.nonempty)
  have base := input.grows_sharedBase Block.Softens.refl
  have grows := h.sound.grows.trans Block.Softens.trans
    (continues_assuming h.sound.closed h.sound.grows hentry).1.grows
  have grows' := (continues_assuming hinput.sharedBase (Grows.refl Block.Softens.refl _)
    hentry).1.grows
  -- both copies are of the same primary copy, which the input has
  have mirrors' := alone.mirrors
  rw [alone.primary_eq, ← spared.primary_eq h hinput] at mirrors'
  have valid : (l.action k).primary.ValidIn (input.sharedBase.assuming t.entry) := by
    rw [spared.primary_eq h hinput]
    exact validIn_primaryOf hinput.sharedBase (Grows.refl Block.Softens.refl _) hr hcode
      h.becomes.nonempty
  have hasBlock : ∀ b ∈ (l.action k).primary.blocks, input.HasBlock b := h.hasBlock hinput
  exact Replica.Mirrors.alikeOver hinput h.becomes.closed (base.trans Block.Softens.trans grows)
    (base.trans Block.Softens.trans grows') valid.vars valid.gate hasBlock
    (spared.block_assuming h hinput)
    (h.becomes.mirrors.continues grows.within h.closed h.continues)
    (h.becomes.returns.continues h.becomes.mirrors grows.within h.closed h.continues)
    mirrors' alone.returns

end Spared

/-- The procedure alone can be registered, since gotos do not depend on gates. -/
theorem RegisteredBetween.alone (hinput : input.Closed) {before after : List AtomicAction}
    {a : AtomicAction} {t : TaggedBody} {p q : Program}
    (h : RegisteredBetween input before a after t p q l) (ownership : Ownership) :
    ∃ l' a', (register (input.only a.procedure)).run (ofProgram (input.only a.procedure) ownership) =
        (.ok (), l') ∧ l'.actions = #[a'] ∧ t.Becomes input.sharedBase a' l'.program := by
  obtain ⟨hr, hcode⟩ := validIn_taggedBodies hinput h.tagged
  have grows := h.sound.grows.trans Block.Softens.trans (continues_assuming h.sound.closed
    h.sound.grows (hcode.blocks _ (TaggedBody.entry_mem h.becomes.nonempty))).1.grows
  have refl : input.sharedBase.Grows Block.Softens input.sharedBase :=
    Grows.refl Block.Softens.refl _
  have plain := h.becomes.plain
  rw [h.sound.grows.procedure_eq _ hr] at plain
  have encloses : input.sharedBase.Encloses t.code.blocks := by
    intro b hb x hx
    rw [← grows.transfer_eq (hcode.blocks b hb)] at hx
    rw [← h.blocks_eq] at hb ⊢
    exact h.becomes.mirrors.graph.mem_of_mem_targets hb hx
  obtain ⟨a', q', built⟩ :=
    exists_ofBody hinput.sharedBase refl hr hcode plain h.becomes.nonempty encloses
  have builds : Builds (ofProgram (input.only t.procedure) ownership).program
      ((input.only t.procedure).taggedBody? t.procedure).toList [a'] q' := by
    have same : (input.only t.procedure).taggedBody? t.procedure = input.taggedBody? t.procedure := rfl
    have body := same.trans (taggedBody?_of_mem h.tagged)
    have base : (ofProgram (input.only t.procedure) ownership).program = input.sharedBase :=
      sharedBase_only t.procedure input
    rw [body, base]
    exact .cons built (.nil q')
  obtain ⟨l', run, rfl, actions⟩ :=
    register_of_builds (procedureRefs_only t.procedure input) h.single builds
  rw [h.becomes.procedure_eq]
  exact ⟨l', a', run, Array.toList_inj.1 actions,
    becomes_of_ofBody hinput.sharedBase refl hr hcode built⟩

instance (input : Program) (l : Ledger) (k : ActionRef) : Decidable (l.Undisturbed input k) :=
  inferInstanceAs (Decidable (∀ j ∈ l.actionRefs, j ≠ k →
    (l.action j).entry ∈ (l.action k).primary.blocks →
    gateOf (input.block (l.action j).entry).commands = [] ∨
      ((l.action j).entry = (l.action k).entry ∧ k.index < j.index)))

/-- An action is registered independently of all others exactly if none of them disturbs it. -/
theorem independent_iff_undisturbed {input : Program} (hinput : input.Closed) {ownership : Ownership}
    {l : Ledger} (run : (register input).run (ofProgram input ownership) = (.ok (), l))
    {k : ActionRef} (hk : k ∈ l.actionRefs) : l.Independent input k ↔ l.Undisturbed input k := by
  obtain ⟨before, after, t, p, q, position, h⟩ := exists_registeredBetween hinput run hk
  rw [undisturbed_iff_spared h position]
  constructor
  · exact Independent.spared h hinput
  · intro spared
    refine ⟨spared.gate h hinput, spared.blocks h hinput, fun ownership' => ?_⟩
    obtain ⟨l', a', run', actions, alone⟩ := h.alone hinput ownership'
    exact ⟨l', a', run', actions, spared.alikeOver h hinput alone⟩

end Ledger

/-! ## Two procedures with one body -/

namespace Stock

/-- Two procedures whose bodies are the same block, which asserts that there is some stock. -/
def program : Program where
  vars := #[{ name := "stock", ty := .int, kind := .global }]
  exprs := ⟨#[.lit (.bool true), .lit (.int 0), .var ⟨0⟩, .binary .lt ⟨1⟩ ⟨2⟩]⟩
  blocks := #[⟨"entry", [.assert ⟨3⟩], .returnValue ⟨0⟩⟩]
  procedures := #[
    { name := "take", ensures := [{ attributes := ["atomic"], condition := .body ⟨[], [⟨0⟩]⟩ }] },
    { name := "peek", ensures := [{ attributes := ["atomic"], condition := .body ⟨[], [⟨0⟩]⟩ }] }]
  declarations := [.global ⟨0⟩, .procedure ⟨0⟩, .procedure ⟨1⟩]
  names := [("stock", ⟨0⟩)]

theorem closed : program.Closed := by decide +kernel

/-- The ledger with both actions. -/
def ledger : Ledger := ((Ledger.register program).run (.ofProgram program (.ofProgram program))).2

theorem ledger_eq :
    (Ledger.register program).run (.ofProgram program (.ofProgram program)) = (.ok (), ledger) :=
  Ledger.run_eq_of_ok (by decide +kernel)

end Stock

namespace Ledger

/-- The action that comes first has the gate. -/
theorem independent_iff_undisturbed_first :
    (Stock.ledger.action ⟨0⟩).primary.gate = [⟨3⟩] ∧ Stock.ledger.Independent Stock.program ⟨0⟩ :=
  ⟨by decide +kernel, (independent_iff_undisturbed Stock.closed Stock.ledger_eq
    (by decide +kernel)).2 (by decide +kernel)⟩

/-- The other one finds no gate at the entry that they share, and so it is not what it would be
alone. -/
theorem shared_entry_disturbs :
    (register Stock.program).run (ofProgram Stock.program (.ofProgram Stock.program)) =
        (.ok (), Stock.ledger) ∧
      gateOf (Stock.program.block (Stock.ledger.action ⟨1⟩).entry).commands = [⟨3⟩] ∧
      (Stock.ledger.action ⟨1⟩).primary.gate = [] ∧
      ¬Stock.ledger.Independent Stock.program ⟨1⟩ := by
  have gate : (Stock.ledger.action ⟨1⟩).primary.gate = [] := by decide +kernel
  have entry : gateOf (Stock.program.block (Stock.ledger.action ⟨1⟩).entry).commands = [⟨3⟩] := by
    decide +kernel
  refine ⟨Stock.ledger_eq, entry, gate, fun independent => ?_⟩
  have same := independent.gate
  rw [gate, entry] at same
  cases same

end Ledger

end AtomicMovers
