import AtomicMovers.Proofs.Lockstep
import AtomicMovers.Proofs.RenamedRelations

/-!
# Maps between runs

A change of blocks, commands and states carries runs to runs if each command does after the change
what it did before (`RunMap.Preserves`): it carries every step to a step, hence runs to runs, and it
keeps the ways in which runs end (`RunMap.Preserves.trace`, `RunMap.Preserves.ends_iff`). If the change
undoes itself, it does so one to one (`RunMap.Preserves.corresponds`).

There are two kinds of such changes here. Variables and blocks can be exchanged for others, if the
program looks the same afterwards (`preserves_rename`). And variables that no command mentions can be
given other values (`preserves_override`), so that runs ignore them (`Program.ignores_of_apart`).
-/

namespace AtomicMovers

open Program

/-! ## Changes of configurations -/

/-- A change of blocks, assigned variables, expressions and states. -/
structure RunMap (D : Type) where
  block : BlockRef → BlockRef
  target : VarRef → VarRef
  expr : Expr → Expr
  state : State D → State D

namespace RunMap

variable {D : Type}

def command (F : RunMap D) : Command Expr → Command Expr
  | .assert e => .assert (F.expr e)
  | .assume e => .assume (F.expr e)
  | .assign updates => .assign (updates.map fun u => (F.target u.1, F.expr u.2))

def config (F : RunMap D) (c : Config D) : Config D where
  block := F.block c.block
  rest := c.rest.map F.command
  state := F.state c.state

/-- In the blocks `bs` the program is the same after the change, and commands do the same. -/
structure Preserves (F : RunMap D) (p : Program) (I : Interpretation D) (bs : List BlockRef) :
    Prop where
  encloses : p.Encloses bs
  commands : ∀ b ∈ bs, p.commands (F.block b) = (p.commands b).map F.command
  transfer : ∀ b ∈ bs, Transfer.Mapped F.block (p.block b).transfer (p.block (F.block b)).transfer
  value : ∀ b ∈ bs, ∀ c ∈ p.commands b, ∀ e ∈ c.exprs, ∀ start s,
    p.valueIn I (F.state start) (F.state s) (F.expr e) = p.valueIn I start s e
  set : ∀ b ∈ bs, ∀ c ∈ p.commands b, ∀ v ∈ c.targets, ∀ s x,
    F.state (s.set v x) = (F.state s).set (F.target v) x

section Preserves

variable {F : RunMap D} {p : Program} {I : Interpretation D} {bs : List BlockRef} {start : State D}
  (h : F.Preserves p I bs)

include h

theorem Preserves.enterBlock {b : BlockRef} (hb : b ∈ bs) (s : State D) :
    F.config (p.enterBlock b s) = p.enterBlock (F.block b) (F.state s) := by
  simp only [Program.enterBlock, config, h.commands b hb]

theorem Preserves.setAll {b : BlockRef} (hb : b ∈ bs) {c : Command Expr} (hc : c ∈ p.commands b)
    {us : List (VarRef × Value D)} (targets : ∀ u ∈ us, u.1 ∈ c.targets) (s : State D) :
    F.state (s.setAll us) = (F.state s).setAll (us.map fun u => (F.target u.1, u.2)) := by
  induction us generalizing s with
  | nil => rfl
  | cons u us ih =>
    rw [List.forall_mem_cons] at targets
    show F.state ((s.set u.1 u.2).setAll us) =
      ((F.state s).set (F.target u.1) u.2).setAll (us.map fun u => (F.target u.1, u.2))
    rw [← h.set b hb c hc u.1 targets.1]
    exact ih targets.2 _

theorem Preserves.assign {b : BlockRef} (hb : b ∈ bs) {updates : List (VarRef × Expr)}
    (hmem : .assign updates ∈ p.commands b) (s : State D) :
    F.state (p.assign I start s updates) = p.assign I (F.state start) (F.state s)
      (updates.map fun u => (F.target u.1, F.expr u.2)) := by
  have targets : ∀ u ∈ updates.map (fun u => (u.1, p.valueIn I start s u.2)),
      u.1 ∈ (Command.assign updates).targets :=
    List.forall_mem_map.2 fun u hu => List.mem_map_of_mem hu
  rw [Program.assign, Program.assign, h.setAll hb hmem targets, List.map_map, List.map_map]
  congr 1
  refine List.map_congr_left fun u hu => Prod.ext rfl ?_
  exact (h.value b hb _ hmem u.2 (List.mem_map_of_mem hu) start s).symm

/-- A step is carried to a step. -/
theorem Preserves.step {c d : Config D} (hc : c.Inside p bs) (hstep : p.Step I start c d) :
    p.Step I (F.state start) (F.config c) (F.config d) := by
  have holds {x : Command Expr} {e : Expr} {s : State D} (hx : x ∈ c.rest) (he : e ∈ x.exprs)
      (hs : (p.valueIn I start s e).Holds) :
      (p.valueIn I (F.state start) (F.state s) (F.expr e)).Holds := by
    rwa [h.value c.block hc.block x (hc.rest x hx) e he]
  cases hstep with
  | assert he => exact .assert (holds List.mem_cons_self List.mem_cons_self he)
  | assume he => exact .assume (holds List.mem_cons_self List.mem_cons_self he)
  | @assign b updates cs s =>
    show p.Step I (F.state start) _ ⟨F.block b, cs.map F.command, F.state (p.assign I start s updates)⟩
    rw [h.assign hc.block (hc.rest _ List.mem_cons_self)]
    exact .assign
  | @goto b targets t s htransfer ht =>
    have mapped := h.transfer b hc.block
    rw [htransfer] at mapped
    have htb : t ∈ bs := h.encloses b hc.block t (by rw [htransfer]; exact ht)
    rw [h.enterBlock htb]
    generalize hend : (p.block (F.block b)).transfer = transfer at mapped
    cases mapped with
    | goto _ => exact .goto hend (List.mem_map_of_mem ht)

/-- A run is carried to a run. -/
theorem Preserves.trace {c d : Config D} {passed : List (Config D)} (hc : c.Inside p bs)
    (htrace : p.Trace I start c passed d) :
    p.Trace I (F.state start) (F.config c) (passed.map F.config) (F.config d) := by
  induction htrace with
  | refl c => exact .refl _
  | step hstep _ ih => exact .step (h.step hc hstep) (ih (hstep.inside h.encloses hc))

/-- Runs end as before. -/
theorem Preserves.ends_iff {c : Config D} (hc : c.Inside p bs) (o : Outcome) :
    (F.config c).Ends p I (F.state start) o ↔ c.Ends p I start o := by
  obtain ⟨b, rest, s⟩ := c
  have mapped := h.transfer b hc.block
  have value {x : Command Expr} {e : Expr} (hx : x ∈ rest) (he : e ∈ x.exprs) :
      p.valueIn I (F.state start) (F.state s) (F.expr e) = p.valueIn I start s e :=
    h.value b hc.block x (hc.rest x hx) e he start s
  cases rest with
  | nil =>
    -- at the end of a block it is up to the transfer
    generalize htransfer : (p.block b).transfer = t,
      htransfer' : (p.block (F.block b)).transfer = t' at mapped
    cases mapped <;> cases o <;>
      simp [Config.Ends, Config.Returns, Config.Leaves, Config.Fails, Config.Blocked, config,
        htransfer, htransfer']
  | cons x rest =>
    have value := fun e he => value (x := x) (e := e) List.mem_cons_self he
    cases x <;> cases o <;>
      simp_all [Config.Ends, Config.Returns, Config.Leaves, Config.Fails, Config.Blocked, config,
        command, Command.exprs]

end Preserves

/-- The change carries the runs from `entry` one to one to the runs from `entry'`, and they end as
these do. -/
structure Corresponds (F : RunMap D) (p : Program) (I : Interpretation D)
    (entry entry' : BlockRef) : Prop where
  state : Function.Involutive F.state
  config : Function.Involutive F.config
  trace_iff : ∀ s passed c, p.Trace I s (p.enterBlock entry s) passed c ↔
    p.Trace I (F.state s) (p.enterBlock entry' (F.state s)) (passed.map F.config) (F.config c)
  ends_iff : ∀ s passed c, p.Trace I s (p.enterBlock entry s) passed c →
    ∀ o, (F.config c).Ends p I (F.state s) o ↔ c.Ends p I s o

/-- A change that undoes itself carries no two runs to the same one, and reaches all. -/
theorem Preserves.corresponds {F : RunMap D} {p : Program} {I : Interpretation D}
    {bs : List BlockRef} (h : F.Preserves p I bs) (state : Function.Involutive F.state)
    (config : Function.Involutive F.config) (block : Function.Involutive F.block)
    {entry entry' : BlockRef} (hentry : entry ∈ bs) (hentry' : entry' ∈ bs)
    (other : F.block entry = entry') : F.Corresponds p I entry entry' where
  state := state
  config := config
  trace_iff s passed c := by
    constructor
    · intro trace
      rw [← other, ← h.enterBlock hentry]
      exact h.trace (inside_enterBlock hentry s) trace
    · intro trace
      have back := h.trace (inside_enterBlock hentry' _) trace
      rwa [h.enterBlock hentry', ← other, block entry, state s, config c, List.map_map,
        config.comp_self, List.map_id] at back
  ends_iff s passed c trace o := h.ends_iff (trace.inside h.encloses (inside_enterBlock hentry s)) o

end RunMap

/-! ## Exchanging variables and blocks -/

section Exchanged

variable {D : Type} {ρ : VarRef → VarRef} (inv : Function.Involutive ρ)

include inv

theorem State.set_exchanged (s : State D) (v : VarRef) (x : Value D) :
    (fun w => s.set v x (ρ w)) = State.set (fun w => s (ρ w)) (ρ v) x := by
  funext w
  simp only [State.set, inv.eq_iff]

theorem State.override_exchanged (s t : State D) (vs : List VarRef) :
    (fun w => s.override (vs.map ρ) t (ρ w)) =
      State.override (fun w => s (ρ w)) vs fun w => t (ρ w) := by
  funext w
  simp only [State.override, List.mem_map_of_injective inv.injective]

/-- An expression with exchanged variables means in a state what it meant in the state with exchanged
variables. -/
theorem Expr.eval_mapVars {I : Interpretation D} {ty : VarRef → Ty} (types : ∀ v, ty (ρ v) = ty v)
    (e : Expr) : ∀ prior current : State D, (e.mapVars ρ).eval I ty prior current =
      e.eval I ty (fun v => prior (ρ v)) fun v => current (ρ v) := by
  induction e with
  | lit value => exact fun _ _ => rfl
  | var v => exact fun _ _ => rfl
  | old e ih =>
    intro prior current
    rw [mapVars, eval, eval, ih]
  | unary op e ih =>
    intro prior current
    rw [mapVars, eval, eval, ih]
  | binary op l r ihl ihr =>
    intro prior current
    rw [mapVars, eval, eval, ihl, ihr]
  | call f args ih =>
    intro prior current
    rw [mapVars, eval, eval, mapVarsAll_eq_map, evalAll_eq_map, evalAll_eq_map, List.map_map]
    exact congrArg (I.call f) (List.map_congr_left fun a ha => ih a ha prior current)
  | quant q bound body ih =>
    intro prior current
    -- the values of the bound variables are exchanged as well
    have range (t : State D) :
        I.InRange ty (bound.map ρ) t ↔ I.InRange ty bound fun v => t (ρ v) := by
      simp only [Interpretation.InRange, List.forall_mem_map, types]
    have twice (v : VarRef) : ρ (ρ v) = v := inv v
    have surjective : Function.Surjective fun (t : State D) v => t (ρ v) := fun t =>
      ⟨fun v => t (ρ v), funext fun v => congrArg t (twice v)⟩
    cases q with
    | universal =>
      rw [mapVars, eval, eval, surjective.forall]
      simp only [ih, range, State.override_exchanged inv, twice]
    | existential =>
      rw [mapVars, eval, eval, surjective.exists]
      simp only [ih, range, State.override_exchanged inv, twice]

end Exchanged

namespace RunMap

variable {D : Type} {p : Program} {I : Interpretation D} {bs : List BlockRef}

/-- Variables and blocks are replaced by others. -/
def rename (ρ : VarRef → VarRef) (β : BlockRef → BlockRef) : RunMap D where
  block := β
  target := ρ
  expr := Expr.mapVars ρ
  state s v := s (ρ v)

theorem command_rename (ρ : VarRef → VarRef) (β : BlockRef → BlockRef) (c : Command Expr) :
    (rename ρ β : RunMap D).command c = c.mapVars ρ := by
  cases c <;> rfl

/-- Where the program looks the same after variables and blocks were exchanged, runs do so too. -/
theorem preserves_rename {ρ : VarRef → VarRef} {β : BlockRef → BlockRef}
    (inv : Function.Involutive ρ) (types : ∀ v, p.tyOf (ρ v) = p.tyOf v) (encloses : p.Encloses bs)
    (commands : ∀ b ∈ bs, p.commands (β b) = (p.commands b).map (Command.mapVars ρ))
    (transfer : ∀ b ∈ bs, Transfer.Mapped β (p.block b).transfer (p.block (β b)).transfer) :
    (rename ρ β).Preserves p I bs where
  encloses := encloses
  commands b hb := (commands b hb).trans
    (List.map_congr_left fun c _ => (command_rename ρ β c).symm)
  transfer := transfer
  value b _ c _ e _ start s := by
    have twice (s : State D) : (fun v => s (ρ (ρ v))) = s := funext fun v => congrArg s (inv v)
    show (e.mapVars ρ).eval I p.tyOf (fun v => start (ρ v)) (fun v => s (ρ v)) = _
    rw [Expr.eval_mapVars inv types, twice, twice]
    rfl
  set b _ c _ v _ s x := State.set_exchanged inv s v x

theorem involutive_rename {ρ : VarRef → VarRef} {β : BlockRef → BlockRef}
    (invVars : Function.Involutive ρ) (invBlocks : Function.Involutive β) :
    Function.Involutive (rename ρ β : RunMap D).config := by
  rintro ⟨b, rest, s⟩
  have commands : (rest.map (rename ρ β : RunMap D).command).map (rename ρ β : RunMap D).command =
      rest := by
    rw [List.map_map]
    refine (List.map_congr_left fun c _ => ?_).trans (List.map_id rest)
    have twice : (fun v => ρ (ρ v)) = id := funext invVars
    rw [Function.comp_apply, command_rename, command_rename, Command.mapVars_mapVars, twice,
      Command.mapVars_id]
    rfl
  simp only [config, commands]
  exact congrArg₂ (Config.mk · rest) (invBlocks b) (funext fun v => congrArg s (invVars v))

/-! ## Other values of variables that do not occur -/

/-- The variables `vs` get the values that they have in `l`. -/
def override (vs : List VarRef) (l : State D) : RunMap D where
  block := id
  target := id
  expr := id
  state s := s.override vs l

theorem map_command_override (vs : List VarRef) (l : State D) (cs : List (Command Expr)) :
    cs.map (override vs l).command = cs := by
  refine (List.map_congr_left fun c _ => ?_).trans (List.map_id cs)
  cases c with
  | assert e => rfl
  | assume e => rfl
  | assign updates => exact congrArg Command.assign (List.map_id updates)

theorem config_override (vs : List VarRef) (l : State D) (c : Config D) :
    (override vs l).config c = { c with state := c.state.override vs l } := by
  rw [config, map_command_override]
  rfl

/-- The values of variables that no command mentions do not matter. -/
theorem preserves_override {vs : List VarRef} (encloses : p.Encloses bs)
    (apart : ∀ b ∈ bs, ∀ c ∈ p.commands b, ∀ v ∈ vs, ¬c.Reads v ∧ ¬c.Writes v) (l : State D) :
    (override vs l).Preserves p I bs where
  encloses := encloses
  commands b _ := (map_command_override vs l _).symm
  transfer b _ := Transfer.Mapped.refl _
  value b hb c hc e he start s := by
    have unread (s : State D) : ∀ v ∈ e.free, s.override vs l v = s v := fun v hv =>
      State.override_of_not_mem fun hmem => (apart b hb c hc v hmem).1 ⟨e, he, hv⟩
    exact e.eval_congr (unread start) (unread s) fun _ _ => rfl
  set b hb c hc v hv s x := by
    funext w
    have target : v ∉ vs := fun hmem => (apart b hb c hc v hmem).2 hv
    show ite (w ∈ vs) (l w) (ite (w = v) x (s w)) = ite (w = v) x (ite (w ∈ vs) (l w) (s w))
    by_cases hw : w = v
    · rw [if_pos hw, if_pos hw, if_neg (hw ▸ target)]
    · rw [if_neg hw, if_neg hw]

end RunMap

/-- Runs from `entry` do not change the variables `vs`, and go the same way whatever values these
have. -/
structure Program.Ignores {D : Type} (p : Program) (I : Interpretation D) (entry : BlockRef)
    (vs : List VarRef) : Prop where
  keeps : ∀ s passed c, p.Trace I s (p.enterBlock entry s) passed c →
    ∀ d ∈ c :: passed, s.AgreeOn vs d.state
  trace : ∀ s l passed c, p.Trace I s (p.enterBlock entry s) passed c →
    p.Trace I (s.override vs l) (p.enterBlock entry (s.override vs l))
      (passed.map fun d => { d with state := d.state.override vs l })
      { c with state := c.state.override vs l }
  ends_iff : ∀ s l passed c, p.Trace I s (p.enterBlock entry s) passed c →
    ∀ o, Config.Ends p I (s.override vs l) { c with state := c.state.override vs l } o ↔
      c.Ends p I s o

/-- Variables that no command reads or assigns are ignored. -/
theorem Program.ignores_of_apart {D : Type} {p : Program} {I : Interpretation D}
    {bs : List BlockRef} (encloses : p.Encloses bs) {vs : List VarRef}
    (apart : ∀ b ∈ bs, ∀ c ∈ p.commands b, ∀ v ∈ vs, ¬c.Reads v ∧ ¬c.Writes v) {entry : BlockRef}
    (hentry : entry ∈ bs) : p.Ignores I entry vs where
  keeps s passed c trace d hd v hv := by
    have unwritten : ∀ b ∈ bs, ∀ c ∈ p.commands b, ¬c.Writes v := fun b hb c hc =>
      (apart b hb c hc v hv).2
    exact (trace.state_eq unwritten encloses (inside_enterBlock hentry s) d hd).symm
  trace s l passed c trace := by
    have preserves : (RunMap.override vs l).Preserves p I bs :=
      RunMap.preserves_override encloses apart l
    have carried := preserves.trace (inside_enterBlock hentry s) trace
    rw [preserves.enterBlock hentry, funext (RunMap.config_override vs l)] at carried
    exact carried
  ends_iff s l passed c trace o := by
    have preserves : (RunMap.override vs l).Preserves p I bs :=
      RunMap.preserves_override encloses apart l
    rw [← RunMap.config_override]
    exact preserves.ends_iff (trace.inside encloses (inside_enterBlock hentry s)) o

end AtomicMovers
