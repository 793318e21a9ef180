import AtomicMovers.Proofs.RunMaps
import AtomicMovers.Proofs.ShadowRelation
import Mathlib.Data.List.Zip

/-!
# Shadow copies are faithful

A shadow copy is the primary copy with new variables and new blocks. Replacing the shadow variables by
the primary ones gives the gate and the commands of the primary copy back, and the gotos of the two
copies go to blocks at the same positions (`AtomicAction.Faithful`).

Hence the two copies can be exchanged, variables and blocks at once (`AtomicAction.otherCopy`), and the
program looks the same afterwards. So each run of the shadow copy is a run of the primary copy in the
exchanged state and the other way round, and the shadow copy never comes across a variable of the
primary one. All this is `shadow_copy_faithful`.
-/

namespace AtomicMovers

open Program

/-! ## Exchanging two lists -/

/-- Exchanges the elements that stand at the same position of two lists. -/
def exchange {α : Type} [DecidableEq α] (as bs : List α) (x : α) : α :=
  ((as.zip bs ++ bs.zip as).lookup x).getD x

section Exchange

variable {α : Type} [DecidableEq α] {as bs : List α}

theorem exchange_of_not_mem {x : α} (h : x ∉ as ++ bs) : exchange as bs x = x := by
  have absent : (as.zip bs ++ bs.zip as).lookup x = none := by
    refine List.lookup_eq_none_iff.2 fun u hu => bne_iff_ne.2 fun heq => h ?_
    rw [heq]
    rcases List.mem_append.1 hu with hu | hu
    · exact List.mem_append.2 (.inl (List.of_mem_zip hu).1)
    · exact List.mem_append.2 (.inr (List.of_mem_zip hu).1)
  rw [exchange, absent]
  rfl

variable (nodup : (as ++ bs).Nodup) (length_eq : as.length = bs.length)

include nodup length_eq

theorem exchange_of_mem {u : α × α} (hu : u ∈ as.zip bs) :
    exchange as bs u.1 = u.2 ∧ exchange as bs u.2 = u.1 := by
  have keys : (as.zip bs ++ bs.zip as).map Prod.fst = as ++ bs := by
    rw [List.map_append, List.map_fst_zip (Nat.le_of_eq length_eq),
      List.map_fst_zip (Nat.le_of_eq length_eq.symm)]
  have pair {x y : α} (h : (x, y) ∈ as.zip bs ++ bs.zip as) : exchange as bs x = y := by
    rw [exchange]
    cases hlookup : (as.zip bs ++ bs.zip as).lookup x with
    | none =>
      have absent := List.lookup_eq_none_iff.1 hlookup (x, y) h
      simp at absent
    | some z =>
      obtain ⟨l₁, l₂, hsplit, -⟩ := List.lookup_eq_some_iff.1 hlookup
      have hz : (x, z) ∈ as.zip bs ++ bs.zip as := by simp [hsplit]
      exact congrArg Prod.snd (List.inj_on_of_nodup_map (by rwa [keys]) hz h rfl)
  have swapped : u.swap ∈ bs.zip as := by
    rw [← List.zip_swap]
    exact List.mem_map_of_mem hu
  exact ⟨pair (List.mem_append.2 (.inl hu)), pair (List.mem_append.2 (.inr swapped))⟩

theorem mem_zip_exchange {x : α} (hx : x ∈ as ++ bs) :
    (x, exchange as bs x) ∈ as.zip bs ∨ (exchange as bs x, x) ∈ as.zip bs := by
  rcases List.mem_append.1 hx with hx | hx
  · rw [← List.map_fst_zip (Nat.le_of_eq length_eq)] at hx
    obtain ⟨u, hu, rfl⟩ := List.mem_map.1 hx
    rw [(exchange_of_mem nodup length_eq hu).1]
    exact .inl hu
  · rw [← List.map_snd_zip (Nat.le_of_eq length_eq.symm)] at hx
    obtain ⟨u, hu, rfl⟩ := List.mem_map.1 hx
    rw [(exchange_of_mem nodup length_eq hu).2]
    exact .inr hu

/-- What holds of elements at the same position, in both orders, holds of an element and the one that
it is exchanged for. -/
theorem exchange_induction {Q : α → α → Prop} (pairs : ∀ u ∈ as.zip bs, Q u.1 u.2)
    (symm : ∀ x y, Q x y → Q y x) {x : α} (hx : x ∈ as ++ bs) : Q x (exchange as bs x) := by
  rcases mem_zip_exchange nodup length_eq hx with h | h
  · exact pairs _ h
  · exact symm _ _ (pairs _ h)

theorem exchange_involutive : Function.Involutive (exchange as bs) := by
  intro x
  by_cases hx : x ∈ as ++ bs
  · rcases mem_zip_exchange nodup length_eq hx with h | h
    · exact (exchange_of_mem nodup length_eq h).2
    · exact (exchange_of_mem nodup length_eq h).1
  · rw [exchange_of_not_mem hx, exchange_of_not_mem hx]

end Exchange

/-! ## Renaming back -/

/-- Variables of a command that are renamed to new ones can be renamed back. -/
theorem Command.rename_rename {n : Nat} {vs ws : List VarRef} (nodup : vs.Nodup) (nodup' : ws.Nodup)
    (length_eq : vs.length = ws.length) (new : ∀ w ∈ ws, ¬w.index < n) {c : Command Expr}
    (below : c.VarsBelow n) (unbound : ∀ v ∈ vs, ¬c.Binds v) :
    (c.rename (vs.zip ws)).rename (ws.zip vs) = c := by
  have unbound' : ∀ w ∈ ws, ¬(c.rename (vs.zip ws)).Binds w := by
    intro w hw binds
    obtain ⟨e, he, hx⟩ := binds.of_rename
    exact new w hw (below.exprs e he w (.inr hx))
  -- so both renamings are changes of all variables
  rw [rename_eq_mapVars (by rwa [List.map_fst_zip (Nat.le_of_eq length_eq.symm)]),
    rename_eq_mapVars (by rwa [List.map_fst_zip (Nat.le_of_eq length_eq)]), mapVars_mapVars]
  have back : ∀ v ∈ c.mentions, Substitution.renamed (ws.zip vs)
      (Substitution.renamed (vs.zip ws) v) = id v := by
    intro v hv
    by_cases hmem : v ∈ vs
    · exact Substitution.renamed_zip_back nodup nodup' length_eq hmem
    · rw [Substitution.renamed_zip_of_not_mem length_eq hmem, Substitution.renamed_zip_of_not_mem
        length_eq.symm fun hw => new v hw (below.mentions v hv)]
      rfl
  rw [mapVars_congr back, mapVars_id]

/-! ## Exchanging the two copies -/

namespace AtomicAction

/-- The variable in the place of `v` in the other copy. -/
def otherVar (a : AtomicAction) (v : VarRef) : VarRef := exchange a.primary.vars a.shadow.vars v

/-- The block in the place of `b` in the other copy. -/
def otherBlock (a : AtomicAction) (b : BlockRef) : BlockRef :=
  exchange a.primary.blocks a.shadow.blocks b

/-- Exchanges the two copies. -/
def otherCopy (a : AtomicAction) {D : Type} : RunMap D := .rename a.otherVar a.otherBlock

end AtomicAction

/-- The shadow copy of the action, which `p` does not have yet, is the primary copy with other
variables and blocks. -/
structure AtomicAction.Faithful (p q : Program) (a : AtomicAction) : Prop where
  inputs_length : a.shadow.inputs.length = a.primary.inputs.length
  outputs_length : a.shadow.outputs.length = a.primary.outputs.length
  vars : FreshCopies Variable.toShadow p a.primary.vars a.shadow.vars q
  gate : (a.shadow.gate.map fun e => (q.expr e).subst
      (.uniform (Substitution.renaming (a.shadow.vars.zip a.primary.vars)))) =
    a.primary.gate.map q.expr
  blocks_length : a.shadow.blocks.length = a.primary.blocks.length
  blocks : FreshBlocks p a.shadow.blocks q
  commands : ∀ u ∈ a.primary.blocks.zip a.shadow.blocks,
    (q.commands u.2).map (Command.rename (a.shadow.vars.zip a.primary.vars)) = q.commands u.1
  transfer : ∀ u ∈ a.primary.blocks.zip a.shadow.blocks,
    Transfer.Mapped a.otherBlock (q.block u.1).transfer (q.block u.2).transfer
  returns : a.shadow.ReturnsTrue q
  encloses : q.Encloses a.shadow.blocks
  apart : ∀ b ∈ a.shadow.blocks, ∀ c ∈ q.commands b, ∀ v ∈ a.primary.vars,
    ¬c.Reads v ∧ ¬c.Writes v ∧ ¬c.Binds v
  globals : ∀ v ∈ q.globals, a.otherVar v = v

namespace Replica.Compared

variable {made q : Program} {primary shadow : Replica} (h : primary.Compared made shadow q q)

include h

theorem nodup_vars : (primary.vars ++ shadow.vars).Nodup :=
  List.nodup_append.2 ⟨h.vars_nodup, h.mirrors.vars.nodup, fun v hv w hw heq =>
    h.mirrors.vars.fresh w hw (heq ▸ h.valid.vars v hv)⟩

theorem nodup_blocks : (primary.blocks ++ shadow.blocks).Nodup :=
  List.nodup_append.2 ⟨h.blocks_nodup, h.mirrors.graph.nodup, fun b hb c hc heq =>
    h.mirrors.graph.fresh c hc (heq ▸ h.valid.blocks b hb)⟩

theorem blocks_length : primary.blocks.length = shadow.blocks.length :=
  h.mirrors.graph.length_eq.symm

theorem varsBelow_command {b : BlockRef} (hb : b ∈ primary.blocks) {c : Command Expr}
    (hc : c ∈ q.commands b) : c.VarsBelow made.vars.size := by
  rw [h.commands_primary hb] at hc
  exact h.closed.varsBelow_command (h.valid.blocks b hb) hc

theorem not_binds {b : BlockRef} (hb : b ∈ primary.blocks) {c : Command Expr}
    (hc : c ∈ q.commands b) : ∀ v ∈ primary.vars, ¬c.Binds v := by
  rw [h.commands_primary hb] at hc
  exact h.unbound b hb c hc

/-- The commands of the shadow copy are those of the primary copy, renamed. -/
theorem commands_renamed {u : BlockRef × BlockRef} (hu : u ∈ primary.blocks.zip shadow.blocks) :
    q.commands u.2 = (q.commands u.1).map (Command.rename (primary.vars.zip shadow.vars)) := by
  rw [h.mirrors.graph.commands u hu, h.commands_primary (List.of_mem_zip hu).1]

/-- Renaming brings the commands back. -/
theorem commands_back {u : BlockRef × BlockRef} (hu : u ∈ primary.blocks.zip shadow.blocks) :
    (q.commands u.2).map (Command.rename (shadow.vars.zip primary.vars)) = q.commands u.1 := by
  have hb := (List.of_mem_zip hu).1
  rw [h.commands_renamed hu, List.map_map]
  refine (List.map_congr_left fun c hc => ?_).trans (List.map_id _)
  exact Command.rename_rename h.vars_nodup h.mirrors.vars.nodup h.length_eq h.mirrors.vars.fresh
    (h.varsBelow_command hb hc) (h.not_binds hb hc)

/-- Renaming brings the gate back. -/
theorem gate_back (unbound : ∀ e ∈ primary.gate, ∀ v ∈ primary.vars, v ∉ (q.expr e).binders) :
    (shadow.gate.map fun e => (q.expr e).subst
        (.uniform (Substitution.renaming (shadow.vars.zip primary.vars)))) =
      primary.gate.map q.expr := by
  have conjunct : ∀ e ∈ primary.gate, ((made.expr e).subst
      (.uniform (Substitution.renaming (primary.vars.zip shadow.vars)))).subst
        (.uniform (Substitution.renaming (shadow.vars.zip primary.vars))) = q.expr e := by
    intro e he
    have unbound' : ∀ v ∈ primary.vars, ¬(Command.assert (made.expr e)).Binds v := by
      rintro v hv ⟨x, hx, hbinds⟩
      rw [List.mem_singleton.1 hx, ← h.grows₁.expr_eq h.closed (h.valid.gate e he)] at hbinds
      exact unbound e he v hv hbinds
    have below : (Command.assert (made.expr e)).VarsBelow made.vars.size :=
      ⟨List.forall_mem_singleton.2 (h.closed.varsBelow_expr e), by simp [Command.targets]⟩
    rw [h.grows₁.expr_eq h.closed (h.valid.gate e he)]
    exact Command.assert.inj (Command.rename_rename h.vars_nodup h.mirrors.vars.nodup h.length_eq
      h.mirrors.vars.fresh below unbound')
  have both := congrArg (List.map (Expr.subst
    (.uniform (Substitution.renaming (shadow.vars.zip primary.vars))))) h.mirrors.gate_eq
  rw [List.map_map, List.map_map] at both
  exact both.trans (List.map_congr_left conjunct)

/-- A command of the shadow copy does not come across variables of the primary copy. -/
theorem apart {b : BlockRef} (hb : b ∈ shadow.blocks) {c : Command Expr} (hc : c ∈ q.commands b)
    {v : VarRef} (hv : v ∈ primary.vars) : ¬c.Reads v ∧ ¬c.Writes v ∧ ¬c.Binds v := by
  obtain ⟨x, hu⟩ := h.mirrors.graph.exists_original hb
  rw [h.commands_renamed hu] at hc
  obtain ⟨d, hd, rfl⟩ := List.mem_map.1 hc
  have renamed : v ∈ (primary.vars.zip shadow.vars).map Prod.fst := by
    rwa [List.map_fst_zip (Nat.le_of_eq h.length_eq)]
  have old : v ∉ (primary.vars.zip shadow.vars).map Prod.snd := by
    rw [List.map_snd_zip (Nat.le_of_eq h.length_eq.symm)]
    exact fun hshadow => h.mirrors.vars.fresh v hshadow (h.valid.vars v hv)
  refine ⟨fun reads => ?_, fun writes => ?_, fun binds => ?_⟩
  · rcases reads.of_rename with ⟨-, kept⟩ | new
    · exact kept renamed
    · exact old new
  · rcases writes.of_rename with ⟨-, kept⟩ | new
    · exact kept renamed
    · exact old new
  · exact h.not_binds (List.of_mem_zip hu).1 hd v hv binds.of_rename

theorem renamed_eq_exchange {v : VarRef} (hv : made.HasVar v) :
    Substitution.renamed (primary.vars.zip shadow.vars) v =
      exchange primary.vars shadow.vars v := by
  by_cases hmem : v ∈ primary.vars
  · have pair : (v, Substitution.renamed (primary.vars.zip shadow.vars) v) ∈
        primary.vars.zip shadow.vars :=
      Substitution.mem_renamed (by rwa [List.map_fst_zip (Nat.le_of_eq h.length_eq)])
    exact (exchange_of_mem h.nodup_vars h.length_eq pair).1.symm
  · have other : v ∉ primary.vars ++ shadow.vars := fun hboth =>
      (List.mem_append.1 hboth).elim hmem fun hshadow => h.mirrors.vars.fresh v hshadow hv
    rw [Substitution.renamed_zip_of_not_mem h.length_eq hmem, exchange_of_not_mem other]

/-- Exchanging the copies keeps the types of variables. -/
theorem tyOf_exchange (v : VarRef) : q.tyOf (exchange primary.vars shadow.vars v) = q.tyOf v := by
  by_cases hv : v ∈ primary.vars ++ shadow.vars
  · refine exchange_induction (Q := fun v w => q.tyOf w = q.tyOf v) h.nodup_vars h.length_eq
      (fun u hu => ?_) (fun _ _ heq => heq.symm) hv
    rw [tyOf, tyOf, h.mirrors.vars.var_eq u hu,
      h.grows₁.var_eq u.1 (h.valid.vars u.1 (List.of_mem_zip hu).1)]
    rfl
  · rw [exchange_of_not_mem hv]

/-- The blocks of the two copies have the same commands, with exchanged variables. -/
theorem commands_exchange {b : BlockRef} (hb : b ∈ primary.blocks ++ shadow.blocks) :
    q.commands (exchange primary.blocks shadow.blocks b) =
      (q.commands b).map (Command.mapVars (exchange primary.vars shadow.vars)) := by
  refine exchange_induction (Q := fun b c => q.commands c =
    (q.commands b).map (Command.mapVars (exchange primary.vars shadow.vars))) h.nodup_blocks
    h.blocks_length (fun u hu => ?_) (fun b c hbc => ?_) hb
  · have hb := (List.of_mem_zip hu).1
    have shadow_eq := h.commands_shadow hb
    rw [h.counterpart_eq hu] at shadow_eq
    rw [shadow_eq]
    exact List.map_congr_left fun c hc => Command.mapVars_congr fun v hv =>
      h.renamed_eq_exchange ((h.varsBelow_command hb hc).mentions v hv)
  · have twice : (fun v => exchange primary.vars shadow.vars (exchange primary.vars shadow.vars v)) =
        id := funext (exchange_involutive h.nodup_vars h.length_eq)
    rw [hbc, List.map_map]
    refine ((List.map_congr_left fun x _ => ?_).trans (List.map_id _)).symm
    rw [Function.comp_apply, Command.mapVars_mapVars, twice, Command.mapVars_id]
    rfl

/-- The gotos of the two copies go to exchanged blocks. -/
theorem transfer_exchange {b : BlockRef} (hb : b ∈ primary.blocks ++ shadow.blocks) :
    Transfer.Mapped (exchange primary.blocks shadow.blocks) (q.block b).transfer
      (q.block (exchange primary.blocks shadow.blocks b)).transfer := by
  refine exchange_induction (Q := fun b c => Transfer.Mapped
    (exchange primary.blocks shadow.blocks) (q.block b).transfer (q.block c).transfer)
    h.nodup_blocks h.blocks_length (fun u hu => ?_) (fun b c hbc => ?_) hb
  · have hb := (List.of_mem_zip hu).1
    have mapped := h.retraced.transfer u.1 hb
    rw [h.counterpart_eq hu] at mapped
    refine mapped.congr fun t ht => ?_
    have pair := h.mem_zip_counterpart (h.retraced.encloses u.1 hb t ht)
    exact (exchange_of_mem h.nodup_blocks h.blocks_length pair).1.symm
  · exact hbc.symm (exchange_involutive h.nodup_blocks h.blocks_length)

theorem exchange_of_mem_globals {v : VarRef} (hv : v ∈ q.globals) :
    exchange primary.vars shadow.vars v = v := by
  rw [h.grows₁.globals_eq] at hv
  refine exchange_of_not_mem fun hmem => ?_
  rcases List.mem_append.1 hmem with hmem | hmem
  · exact h.not_global v hmem hv
  · exact h.mirrors.vars.fresh v hmem (h.closed.hasVar_of_mem_globals hv)

theorem exchange_entry : exchange primary.blocks shadow.blocks shadow.entry = primary.entry := by
  have pair := h.mem_zip_counterpart (Replica.entry_mem h.valid.nonempty)
  rw [h.entry_eq] at pair
  exact (exchange_of_mem h.nodup_blocks h.blocks_length pair).2

/-- After the copies were exchanged, the program looks as before. -/
theorem preserves_exchange {D : Type} (I : Interpretation D) (encloses : q.Encloses shadow.blocks) :
    (RunMap.rename (exchange primary.vars shadow.vars)
      (exchange primary.blocks shadow.blocks) : RunMap D).Preserves q I
        (primary.blocks ++ shadow.blocks) := by
  have both : q.Encloses (primary.blocks ++ shadow.blocks) := by
    intro b hb t ht
    rcases List.mem_append.1 hb with hb | hb
    · exact List.mem_append.2 (.inl (h.retraced.encloses b hb t ht))
    · exact List.mem_append.2 (.inr (encloses b hb t ht))
  exact RunMap.preserves_rename (exchange_involutive h.nodup_vars h.length_eq) h.tyOf_exchange both
    (fun b hb => h.commands_exchange hb) fun b hb => h.transfer_exchange hb

end Replica.Compared

/-- What was found about the two copies, for an action that was made of a body of `p`. -/
theorem AtomicAction.BuiltIn.faithful {p made q : Program} {a : AtomicAction}
    (built : a.BuiltIn p q) (h : a.primary.Compared made a.shadow q q)
    (grows : p.Grows Block.Softens made) (returns : a.shadow.ReturnsTrue q)
    (unbound : ∀ e ∈ a.primary.gate, ∀ v ∈ a.primary.vars, v ∉ (q.expr e).binders) :
    a.Faithful p q where
  inputs_length := h.mirrors.inputs_length
  outputs_length := h.mirrors.outputs_length
  vars := h.mirrors.vars.ofEarlier grows built.vars
  gate := h.gate_back unbound
  blocks_length := h.mirrors.graph.length_eq
  blocks := h.mirrors.freshBlocks grows
  commands _ hu := h.commands_back hu
  transfer u hu := by
    have mapped := h.transfer_exchange (List.mem_append.2 (.inl (List.of_mem_zip hu).1))
    rw [(exchange_of_mem h.nodup_blocks h.blocks_length hu).1] at mapped
    exact mapped
  returns := returns
  encloses := encloses_shadow built
  apart _ hb _ hc _ hv := h.apart hb hc hv
  globals _ hv := h.exchange_of_mem_globals hv

/-- A shadow copy is faithful and disjoint. It is the primary copy with new variables and new blocks.
Its runs neither change the variables of the primary copy nor depend on them, and are, one to one, the
runs of the primary copy from the states in which the variables of the two copies are exchanged. -/
theorem shadow_copy_faithful {p q : Program} (hp : p.Closed) {r : ProcRef}
    (hr : p.HasProcedure r) {body : Body} (hbody : body.ValidIn p) {mover : Mover}
    {a : AtomicAction} (run : (AtomicAction.ofBody r body mover).run p = (.ok a, q))
    (blocks_nodup : body.blocks.Nodup) (vars_nodup : a.primary.vars.Nodup)
    (not_global : ∀ v ∈ a.primary.vars, v ∉ p.globals)
    (unbound : ∀ b ∈ body.blocks, ∀ c ∈ p.commands b, ∀ v ∈ a.primary.vars, ¬c.Binds v) :
    a.Faithful p q ∧
    ∀ {D : Type} (I : Interpretation D), q.Ignores I a.shadow.entry a.primary.vars ∧
      a.otherCopy.Corresponds q I a.shadow.entry a.primary.entry := by
  have start : p.Grows Block.Softens p := Grows.refl Block.Softens.refl p
  obtain ⟨continued, hq, built⟩ := continues_ofBody hp hp start hr hbody mover run
  have built := built a rfl
  have becomes : TaggedBody.Becomes ⟨r, mover, body⟩ p a q := becomes_of_ofBody hp start hr hbody run
  have h := Replica.Compared.ofBecomes hp hr hbody becomes hq blocks_nodup vars_nodup not_global
    unbound (.refl _ q) hq (.refl _ q) hq
  have assumed := (continues_assuming hp start (hbody.blocks _ (TaggedBody.entry_mem
    becomes.nonempty))).1.grows
  have gate : ∀ e ∈ a.primary.gate, ∀ v ∈ a.primary.vars, v ∉ (q.expr e).binders := by
    intro e he v hv binds
    obtain ⟨c, hc, hec⟩ := exists_command_of_gate hp continued.grows built e he
    obtain ⟨b, hb, hc⟩ := List.mem_flatMap.1 hc
    rw [becomes.blocks_eq] at hb
    exact unbound b hb c hc v hv ⟨_, hec, binds⟩
  have faithful := built.faithful h assumed becomes.returns gate
  have entry : a.shadow.entry ∈ a.shadow.blocks :=
    Replica.entry_mem (built.validIn continued.grows.within).shadow.nonempty
  have entry' : a.primary.entry ∈ a.primary.blocks := Replica.entry_mem built.nonempty
  refine ⟨faithful, fun {D} I => ⟨?_, ?_⟩⟩
  · refine ignores_of_apart faithful.encloses (fun b hb c hc v hv => ?_) entry
    obtain ⟨reads, writes, -⟩ := faithful.apart b hb c hc v hv
    exact ⟨reads, writes⟩
  · have vars := exchange_involutive h.nodup_vars h.length_eq
    have blocks := exchange_involutive h.nodup_blocks h.blocks_length
    exact (h.preserves_exchange I faithful.encloses).corresponds
      (fun s => funext fun v => congrArg s (vars v)) (RunMap.involutive_rename vars blocks) blocks
      (List.mem_append.2 (.inr entry)) (List.mem_append.2 (.inl entry')) h.exchange_entry

/-- The shadow copy of a deposit. -/
theorem shadow_copy_faithful_deposit :
    Account.deposit.Faithful Account.program Account.registered ∧
      ∀ I : Interpretation Int,
        Account.registered.Ignores I Account.deposit.shadow.entry Account.deposit.primary.vars ∧
          Account.deposit.otherCopy.Corresponds Account.registered I Account.deposit.shadow.entry
            Account.deposit.primary.entry := by
  obtain ⟨faithful, runs⟩ := shadow_copy_faithful Account.closed (by decide +kernel)
    (by decide +kernel) Account.registration_eq (by decide +kernel) (by decide +kernel)
    (by decide +kernel) (by decide +kernel)
  exact ⟨faithful, runs⟩

end AtomicMovers
