import AtomicMovers.Proofs.IndependentActions
import AtomicMovers.Proofs.WellFormed

/-!
# What taking the gate off a body changes

Making an action takes the gate off its entry block: the leading assertions become assumptions, and
nothing else about the body changes (`GateTaken`). If the gate holds where a run starts, the body has
the same runs before and after (`hasRun_iff`): the two go in lockstep, at most one is at an assertion
of the gate and the other at the assumption in its place (`Config.Softened`). If a conjunct of the gate
does not hold then runs do not get beyond it (`Config.Doomed`): before, they fail, and after, they are
blocked. Both is said by `gate_extraction_prunes`.

Nothing must go back to the entry, since there the gate would be checked once more, in another state.
-/

namespace AtomicMovers

open Program

/-! ## The gate of a list of commands -/

section Gate

variable {ε δ : Type}

theorem length_gateOf (cs : List (Command ε)) :
    (gateOf cs).length = (cs.takeWhile Command.isAssert).length := by
  fun_induction gateOf cs with
  | case1 e cs ih => rw [List.length_cons, ih]; rfl
  | case2 cs h =>
    cases cs with
    | nil => rfl
    | cons c cs =>
      cases c with
      | assert e => exact absurd rfl (h e cs)
      | assume e => rfl
      | assign updates => rfl

/-- The gate comes first. -/
theorem gateOf_append_drop (cs : List (Command ε)) :
    (gateOf cs).map .assert ++ cs.drop (gateOf cs).length = cs := by
  fun_induction gateOf cs with
  | case1 e cs ih => exact congrArg (Command.assert e :: ·) ih
  | case2 cs _ => rfl

/-- What comes behind the gate stays when it is assumed. -/
theorem assumeGate_eq (cs : List (Command ε)) :
    assumeGate cs = (gateOf cs).map .assume ++ cs.drop (gateOf cs).length := by
  fun_induction gateOf cs with
  | case1 e cs ih => exact congrArg (Command.assume e :: ·) ih
  | case2 cs h =>
    cases cs with
    | nil => rfl
    | cons c cs =>
      cases c with
      | assert e => exact absurd rfl (h e cs)
      | assume e => rfl
      | assign updates => rfl

theorem assumeGate_map (f : ε → δ) (cs : List (Command ε)) :
    assumeGate (cs.map (Command.map f)) = (assumeGate cs).map (Command.map f) := by
  simp only [assumeGate_eq, gateOf_map, List.map_append, List.map_map, List.map_drop,
    List.length_map]
  rfl

end Gate

/-! ## Runs where the gate holds -/

/-- Where a run stands: the block, how many of its commands are left, and the state. -/
def Config.place {D : Type} (c : Config D) : BlockRef × Nat × State D :=
  (c.block, c.rest.length, c.state)

/-- Some run from `s` at the block `entry` goes through the given places and ends at the last of them
as the outcome says. -/
def Program.HasRun {D : Type} (p : Program) (I : Interpretation D) (entry : BlockRef) (s : State D)
    (places : List (BlockRef × Nat × State D)) (o : Outcome) : Prop :=
  ∃ passed c, p.Trace I s (p.enterBlock entry s) passed c ∧ c.Ends p I s o ∧
    places = (passed ++ [c]).map Config.place

/-- As far as runs through the blocks `bs` are concerned, the program `q` is `p` with the gate of
`entry` assumed, and no run comes back to the entry. -/
structure Program.GateAssumed (p q : Program) (entry : BlockRef) (bs : List BlockRef) : Prop where
  entry_mem : entry ∈ bs
  encloses : p.Encloses bs
  untargeted : ∀ b ∈ bs, entry ∉ (p.block b).transfer.targets
  transfer : ∀ b ∈ bs, (q.block b).transfer = (p.block b).transfer
  commands : ∀ b ∈ bs, b ≠ entry → q.commands b = p.commands b
  commands_entry : q.commands entry = assumeGate (p.commands entry)
  types : ∀ b ∈ bs, ∀ c ∈ p.commands b, ∀ x, c.Binds x → p.tyOf x = q.tyOf x

/-- A run before the gate was taken, and one after. Where the one is about to assert conditions of the
gate that hold, the other is about to assume them. -/
structure Config.Softened {D : Type} (p : Program) (I : Interpretation D) (start : State D)
    (bs : List BlockRef) (c d : Config D) : Prop where
  inside : c.Inside p bs
  block : d.block = c.block
  state : d.state = c.state
  rest : ∃ (es : List Expr) (tail : List (Command Expr)), c.rest = es.map .assert ++ tail ∧
    d.rest = es.map .assume ++ tail ∧ ∀ e ∈ es, (p.valueIn I start c.state e).Holds

section Softened

variable {D : Type} {I : Interpretation D} {start s : State D} {p q : Program} {entry : BlockRef}
  {bs : List BlockRef}

theorem Program.GateAssumed.value_eq (h : p.GateAssumed q entry bs) {b : BlockRef} (hb : b ∈ bs)
    {c : Command Expr} (hc : c ∈ p.commands b) :
    ∀ e ∈ c.exprs, p.valueIn I start s e = q.valueIn I start s e := fun e he =>
  e.eval_congr (fun _ _ => rfl) (fun _ _ => rfl) fun x hx => h.types b hb c hc x ⟨e, he, hx⟩

theorem Config.Softened.place_eq {c d : Config D} (h : c.Softened p I start bs d) :
    d.place = c.place := by
  obtain ⟨es, tail, hc, hd, -⟩ := h.rest
  rw [Config.place, Config.place, h.block, h.state, hc, hd]
  simp

/-- Two runs that stand at the same place of a block behind the gate. -/
theorem Config.Softened.same {b : BlockRef} {cs : List (Command Expr)}
    (inside : (⟨b, cs, s⟩ : Config D).Inside p bs) :
    (⟨b, cs, s⟩ : Config D).Softened p I start bs ⟨b, cs, s⟩ :=
  ⟨inside, rfl, rfl, [], cs, rfl, rfl, by simp⟩

/-- At a target of a goto the two programs have the same commands. -/
theorem Config.Softened.enterBlock (h : p.GateAssumed q entry bs) {b x : BlockRef} (hb : b ∈ bs)
    (hx : x ∈ (p.block b).transfer.targets) :
    (p.enterBlock x s).Softened p I start bs (q.enterBlock x s) := by
  have ne : x ≠ entry := fun heq => h.untargeted b hb (heq ▸ hx)
  have hxs := h.encloses b hb x hx
  rw [Program.enterBlock, Program.enterBlock, h.commands x hxs ne]
  exact .same (inside_enterBlock hxs s)

/-- The runs follow each other. -/
theorem Config.Softened.follows (h : p.GateAssumed q entry bs) {c d : Config D}
    (hcd : c.Softened p I start bs d) :
    (∀ c', p.Step I start c c' → ∃ d', q.Step I start d d' ∧ c'.Softened p I start bs d') ∧
      ∀ d', q.Step I start d d' → ∃ c', p.Step I start c c' ∧ c'.Softened p I start bs d' := by
  obtain ⟨_, _, _⟩ := c
  obtain ⟨b, _, s⟩ := d
  obtain ⟨inside, rfl, rfl, es, tail, rfl, rfl, holds⟩ := hcd
  cases es with
  | cons e es =>
    -- both programs check a condition that holds
    rw [List.forall_mem_cons] at holds
    have value : p.valueIn I start s e = q.valueIn I start s e :=
      h.value_eq inside.block (inside.rest (.assert e) List.mem_cons_self) e List.mem_cons_self
    have assert : p.Step I start ⟨b, .assert e :: (es.map .assert ++ tail), s⟩
        ⟨b, es.map .assert ++ tail, s⟩ := .assert holds.1
    have assume : q.Step I start ⟨b, .assume e :: (es.map .assume ++ tail), s⟩
        ⟨b, es.map .assume ++ tail, s⟩ := .assume (value ▸ holds.1)
    have softened : (⟨b, es.map .assert ++ tail, s⟩ : Config D).Softened p I start bs
        ⟨b, es.map .assume ++ tail, s⟩ :=
      ⟨assert.inside h.encloses inside, rfl, rfl, es, tail, rfl, rfl, holds.2⟩
    refine ⟨fun c' hstep => ?_, fun d' hstep => ?_⟩
    · obtain ⟨_, ⟨_, rfl⟩, rfl⟩ := step_cons_iff.1 hstep
      exact ⟨_, assume, softened⟩
    · obtain ⟨_, ⟨_, rfl⟩, rfl⟩ := step_cons_iff.1 hstep
      exact ⟨_, assert, softened⟩
  | nil =>
    -- behind the gate the programs do the same
    cases tail with
    | nil =>
      have targets := congrArg Transfer.targets (h.transfer b inside.block)
      refine ⟨fun c' hstep => ?_, fun d' hstep => ?_⟩
      · obtain ⟨x, hx, rfl⟩ := step_nil_iff.1 hstep
        exact ⟨_, step_nil_iff.2 ⟨x, targets ▸ hx, rfl⟩, .enterBlock h inside.block hx⟩
      · obtain ⟨x, hx, rfl⟩ := step_nil_iff.1 hstep
        rw [targets] at hx
        exact ⟨_, step_nil_iff.2 ⟨x, hx, rfl⟩, .enterBlock h inside.block hx⟩
    | cons x tail =>
      have passes {m : State D} : p.Passes I start [x] s m ↔ q.Passes I start [x] s m :=
        passes_congr (h.value_eq inside.block (inside.rest x List.mem_cons_self))
      have inside' {m : State D} : (⟨b, tail, m⟩ : Config D).Inside p bs :=
        ⟨inside.block, fun y hy => inside.rest y (List.mem_cons_of_mem x hy)⟩
      refine ⟨fun c' hstep => ?_, fun d' hstep => ?_⟩
      · obtain ⟨m, hm, rfl⟩ := step_cons_iff.1 hstep
        exact ⟨_, step_cons_iff.2 ⟨m, passes.1 hm, rfl⟩, .same inside'⟩
      · obtain ⟨m, hm, rfl⟩ := step_cons_iff.1 hstep
        exact ⟨_, step_cons_iff.2 ⟨m, passes.2 hm, rfl⟩, .same inside'⟩

/-- The runs end in the same ways. -/
theorem Config.Softened.ends_iff (h : p.GateAssumed q entry bs) {c d : Config D}
    (hcd : c.Softened p I start bs d) (o : Outcome) :
    d.Ends q I start o ↔ c.Ends p I start o := by
  obtain ⟨_, _, _⟩ := c
  obtain ⟨b, _, s⟩ := d
  obtain ⟨inside, rfl, rfl, es, tail, rfl, rfl, holds⟩ := hcd
  have transfer := h.transfer b inside.block
  cases es with
  | cons e es =>
    have value : p.valueIn I start s e = q.valueIn I start s e :=
      h.value_eq inside.block (inside.rest (.assert e) List.mem_cons_self) e List.mem_cons_self
    have holds := holds e List.mem_cons_self
    cases o <;>
      simp [Config.Ends, Config.Returns, Config.Leaves, Config.Fails, Config.Blocked, holds,
        ← value]
  | nil =>
    have value {x : Command Expr} {cs : List (Command Expr)} {e : Expr} (hx : tail = x :: cs)
        (he : e ∈ x.exprs) : p.valueIn I start s e = q.valueIn I start s e :=
      h.value_eq inside.block (inside.rest x (by simp [hx])) e he
    cases o with
    | returns => simp [Config.Ends, Config.Returns, transfer]
    | leaves => simp [Config.Ends, Config.Leaves, transfer]
    | fails =>
      refine exists₂_congr fun e cs => and_congr_right fun hrest => ?_
      rw [value hrest List.mem_cons_self]
    | blocked =>
      refine or_congr (exists₂_congr fun e cs => and_congr_right fun hrest => ?_) ?_
      · rw [value hrest List.mem_cons_self]
      · rw [transfer]
        exact Iff.rfl

/-- Where the gate holds, the programs have the same runs. -/
theorem hasRun_iff (h : p.GateAssumed q entry bs)
    (gate : ∀ e ∈ gateOf (p.commands entry), (p.valueIn I s s e).Holds)
    {places : List (BlockRef × Nat × State D)} {o : Outcome} :
    q.HasRun I entry s places o ↔ p.HasRun I entry s places o := by
  have start : (p.enterBlock entry s).Softened p I s bs (q.enterBlock entry s) :=
    ⟨inside_enterBlock h.entry_mem s, rfl, rfl, _, _, (gateOf_append_drop _).symm,
      h.commands_entry.trans (assumeGate_eq _), gate⟩
  have same {passed passed' : List (Config D)} {c d : Config D}
      (hpassed : List.Forall₂ (Config.Softened p I s bs) passed passed')
      (hcd : c.Softened p I s bs d) :
      (passed' ++ [d]).map Config.place = (passed ++ [c]).map Config.place := by
    rw [List.map_append, List.map_append,
      map_eq_map_of_forall₂ (hpassed.imp fun _ _ hxy => hxy.place_eq)]
    exact congrArg _ (congrArg (fun x => [x]) hcd.place_eq)
  constructor
  · rintro ⟨passed', d, trace, ends, rfl⟩
    obtain ⟨passed, c, trace', hcd, hpassed⟩ := trace.simulate
      (R := fun d c => c.Softened p I s bs d) (fun d c d' hcd => (hcd.follows h).2 d') start
    exact ⟨passed, c, trace', (hcd.ends_iff h o).1 ends, same hpassed.flip hcd⟩
  · rintro ⟨passed, c, trace, ends, rfl⟩
    obtain ⟨passed', d, trace', hcd, hpassed⟩ := trace.simulate
      (R := Config.Softened p I s bs) (fun c d c' hcd => (hcd.follows h).1 c') start
    exact ⟨passed', d, trace', (hcd.ends_iff h o).2 ends, (same hpassed hcd).symm⟩

end Softened

/-! ## Runs where the gate does not hold -/

/-- The run stands in its start state `s` before `n` conditions of the gate, one of which does not hold
there. The conditions are checked by the commands that `check` makes of them. -/
structure Config.Doomed {D : Type} (p : Program) (I : Interpretation D) (s : State D)
    (check : Expr → Command Expr) (n : Nat) (c : Config D) : Prop where
  state : c.state = s
  rest : ∃ (es : List Expr) (tail : List (Command Expr)), c.rest = es.map check ++ tail ∧
    es.length = n ∧ ∃ e ∈ es, ¬(p.valueIn I s s e).Holds

/-- Commands that check a condition, and do nothing if it holds. -/
def Program.Checks {D : Type} (p : Program) (I : Interpretation D) (s : State D)
    (check : Expr → Command Expr) : Prop :=
  ∀ e m, p.Passes I s [check e] s m ↔ (p.valueIn I s s e).Holds ∧ s = m

section Doomed

variable {D : Type} {I : Interpretation D} {s : State D} {p : Program}
  {check : Expr → Command Expr} {n : Nat} {c d : Config D}

theorem Config.Doomed.step (checks : p.Checks I s check) (h : c.Doomed p I s check n)
    (hstep : p.Step I s c d) : ∃ k, n = k + 1 ∧ d.Doomed p I s check k := by
  obtain ⟨b, rest, _⟩ := c
  obtain ⟨rfl, es, tail, rfl, rfl, fails⟩ := h
  cases es with
  | nil => simp at fails
  | cons e es =>
    obtain ⟨m, hm, rfl⟩ := step_cons_iff.1 hstep
    obtain ⟨holds, rfl⟩ := (checks e m).1 hm
    refine ⟨es.length, rfl, rfl, es, tail, rfl, rfl, ?_⟩
    -- the condition that was passed is not the one that does not hold
    obtain ⟨x, hx, fails⟩ := fails
    rcases List.mem_cons.1 hx with rfl | hx
    · exact absurd holds fails
    · exact ⟨x, hx, fails⟩

/-- A run that is doomed remains so, and every step takes it closer to the end. -/
theorem Config.Doomed.trace (checks : p.Checks I s check) (h : c.Doomed p I s check n)
    {passed : List (Config D)} (htrace : p.Trace I s c passed d) :
    ∃ k, passed.length + k = n ∧ d.Doomed p I s check k := by
  induction htrace generalizing n with
  | refl c => exact ⟨n, by simp, h⟩
  | step hstep _ ih =>
    obtain ⟨k, rfl, h'⟩ := h.step checks hstep
    obtain ⟨j, rfl, hd⟩ := ih h'
    refine ⟨j, ?_, hd⟩
    rw [List.length_cons]
    omega

/-- A run that is doomed stands before a condition, and goes on only if that holds. -/
theorem Config.Doomed.head (checks : p.Checks I s check) (h : c.Doomed p I s check n) :
    0 < n ∧ ∃ e cs, c.rest = check e :: cs ∧
      ((p.valueIn I s c.state e).Holds → ∃ d, p.Step I s c d) := by
  obtain ⟨b, rest, _⟩ := c
  obtain ⟨rfl, es, tail, rfl, rfl, fails⟩ := h
  cases es with
  | nil => simp at fails
  | cons e es =>
    exact ⟨Nat.succ_pos _, e, es.map check ++ tail, rfl, fun holds =>
      ⟨_, step_cons_iff.2 ⟨_, (checks e _).2 ⟨holds, rfl⟩, rfl⟩⟩⟩

theorem checks_assert : p.Checks I s .assert := fun _ _ => Iff.rfl

theorem checks_assume : p.Checks I s .assume := fun _ _ => Iff.rfl

/-- Assertions end in failure. -/
theorem Config.Doomed.reaches_fails (h : c.Doomed p I s .assert n) :
    ∃ passed d, p.Trace I s c passed d ∧ d.Fails p I s := by
  induction n generalizing c with
  | zero => exact absurd (h.head checks_assert).1 (Nat.lt_irrefl 0)
  | succ n ih =>
    obtain ⟨_, e, cs, hrest, goesOn⟩ := h.head checks_assert
    by_cases holds : (p.valueIn I s c.state e).Holds
    · obtain ⟨d, hstep⟩ := goesOn holds
      obtain ⟨k, hk, hd⟩ := h.step checks_assert hstep
      obtain rfl : n = k := by omega
      obtain ⟨passed, x, htrace, fails⟩ := ih hd
      exact ⟨c :: passed, x, .step hstep htrace, fails⟩
    · exact ⟨[], c, .refl c, e, cs, hrest, holds⟩

/-- At an assertion a run can end in failure only. -/
theorem Config.Doomed.ends_assert (h : c.Doomed p I s .assert n) {o : Outcome}
    (ends : c.Ends p I s o) : o = .fails := by
  obtain ⟨_, e, cs, hrest, _⟩ := h.head checks_assert
  cases o with
  | returns => exact absurd (hrest.symm.trans ends.1) (List.cons_ne_nil _ _)
  | leaves => exact absurd (hrest.symm.trans ends.1) (List.cons_ne_nil _ _)
  | fails => rfl
  | blocked =>
    rcases ends with ⟨_, _, h, _⟩ | ⟨h, _⟩
    · rw [hrest] at h
      cases h
    · exact absurd (hrest.symm.trans h) (List.cons_ne_nil _ _)

/-- At an assumption a run can be blocked only. -/
theorem Config.Doomed.ends_assume (h : c.Doomed p I s .assume n) {o : Outcome}
    (ends : c.Ends p I s o) : o = .blocked := by
  obtain ⟨_, e, cs, hrest, _⟩ := h.head checks_assume
  cases o with
  | returns => exact absurd (hrest.symm.trans ends.1) (List.cons_ne_nil _ _)
  | leaves => exact absurd (hrest.symm.trans ends.1) (List.cons_ne_nil _ _)
  | fails =>
    obtain ⟨_, _, h, _⟩ := ends
    rw [hrest] at h
    cases h
  | blocked => rfl

end Doomed

/-! ## Taking the gate off a body -/

/-- The gate of the action is the longest prefix of assertions of its entry block. These have become
assumptions, and nothing else that was there has changed. -/
structure GateTaken (p q : Program) (body : Body) (a : AtomicAction) : Prop where
  blocks_eq : a.primary.blocks = body.blocks
  length_eq : a.primary.gate.length =
    ((p.block a.entry).commands.takeWhile Command.isAssert).length
  before : (p.block a.entry).commands =
    a.primary.gate.map .assert ++ (p.block a.entry).commands.drop a.primary.gate.length
  entry : q.block a.entry = { p.block a.entry with
    commands := a.primary.gate.map .assume ++
      (p.block a.entry).commands.drop a.primary.gate.length }
  others : ∀ b, p.HasBlock b → b ≠ a.entry → q.block b = p.block b
  exprs : ∀ e, p.HasExpr e → q.expr e = p.expr e

section Taking

variable {p q : Program} {t : TaggedBody} {a : AtomicAction}

theorem TaggedBody.Becomes.gate_eq (h : t.Becomes p a q) :
    a.primary.gate = gateOf (p.block a.entry).commands := by
  rw [h.entry_eq, h.primary_eq]
  rfl

theorem TaggedBody.Becomes.entry_mem (h : t.Becomes p a q) : a.entry ∈ t.code.blocks := by
  rw [h.entry_eq]
  exact TaggedBody.entry_mem h.nonempty

theorem TaggedBody.Becomes.gateTaken (h : t.Becomes p a q) (hp : p.Closed)
    (grows : p.Grows Block.Softens q) (valid : t.code.ValidIn p) : GateTaken p q t.code a where
  blocks_eq := h.blocks_eq
  length_eq := by rw [h.gate_eq, length_gateOf]
  before := by rw [h.gate_eq, gateOf_append_drop]
  entry := by
    rw [h.block_eq (valid.blocks _ h.entry_mem), if_pos rfl, Block.assumed, h.gate_eq,
      assumeGate_eq]
  others b hb ne := by rw [h.block_eq hb, if_neg ne]
  exprs e he := grows.expr_eq hp he

/-- The body before and after, as far as runs are concerned. -/
theorem TaggedBody.Becomes.gateAssumed (h : t.Becomes p a q) (hp : p.Closed)
    (grows : p.Grows Block.Softens q) (valid : t.code.ValidIn p)
    (encloses : q.Encloses a.primary.blocks)
    (untargeted : ∀ b ∈ t.code.blocks, a.entry ∉ (p.block b).transfer.targets) :
    p.GateAssumed q a.entry t.code.blocks where
  entry_mem := h.entry_mem
  encloses b hb x hx := by
    rw [h.blocks_eq] at encloses
    exact encloses b hb x (by rwa [grows.transfer_eq (valid.blocks b hb)])
  untargeted := untargeted
  transfer b hb := grows.transfer_eq (valid.blocks b hb)
  commands b hb ne := by
    refine grows.commands_eq hp (valid.blocks b hb) ?_
    rw [h.block_eq (valid.blocks b hb), if_neg ne]
  commands_entry := by
    have hentry := valid.blocks _ h.entry_mem
    have trees : (p.block a.entry).commands.map (Command.map q.expr) = p.commands a.entry :=
      List.map_congr_left fun c hc => Command.map_congr fun e he =>
        grows.expr_eq hp (((hp.block hentry).commands c hc).exprs e he)
    rw [← trees, assumeGate_map, Program.commands, h.block_eq hentry, if_pos rfl]
    rfl
  types b hb c hc x hx := by
    have hasVar := hasVar_of_binds hp t.code.blocks (List.mem_flatMap.2 ⟨b, hb, hc⟩) hx
    rw [tyOf, tyOf, grows.var_eq x hasVar]

end Taking

/-- Taking the gate off a body does nothing but prune runs that violate it. If the gate holds where a
run starts, the body has the same runs before and after. If it does not, then before every run fails
without having assigned anything, and after no run completes or fails. -/
theorem gate_extraction_prunes {p q : Program} (hp : p.Closed) {r : ProcRef}
    (hr : p.HasProcedure r) {body : Body} (hbody : body.ValidIn p) {mover : Mover}
    {a : AtomicAction} (run : (AtomicAction.ofBody r body mover).run p = (.ok a, q))
    (untargeted : ∀ b ∈ body.blocks, a.entry ∉ (p.block b).transfer.targets) :
    GateTaken p q body a ∧
    ∀ {D : Type} (I : Interpretation D) (s : State D),
      ((∀ e ∈ a.primary.gate, (p.expr e).Holds I p.tyOf s s) →
        ∀ places o, q.HasRun I a.entry s places o ↔ p.HasRun I a.entry s places o) ∧
      ((∃ e ∈ a.primary.gate, ¬(p.expr e).Holds I p.tyOf s s) →
        (∃ places, p.HasRun I a.entry s places .fails) ∧
        (∀ places o, p.HasRun I a.entry s places o → o = .fails) ∧
        (∀ passed c, p.Trace I s (p.enterBlock a.entry s) passed c →
          passed.length < a.primary.gate.length ∧ c.state = s ∧
            ((∀ d, ¬p.Step I s c d) → c.Fails p I s)) ∧
        ∀ places o, q.HasRun I a.entry s places o → o = .blocked) := by
  have start : p.Grows Block.Softens p := Grows.refl Block.Softens.refl p
  obtain ⟨continued, _, built⟩ := continues_ofBody hp hp start hr hbody mover run
  have becomes : TaggedBody.Becomes ⟨r, mover, body⟩ p a q := becomes_of_ofBody hp start hr hbody run
  have assumed : p.GateAssumed q a.entry body.blocks := becomes.gateAssumed hp continued.grows hbody
    (encloses_primary continued.grows (built a rfl)) untargeted
  have gate : gateOf (p.commands a.entry) = a.primary.gate.map p.expr := by
    rw [Program.commands, gateOf_map, becomes.gate_eq]
  refine ⟨becomes.gateTaken hp continued.grows hbody, fun {D} I s => ⟨fun holds places o => ?_,
    fun failing => ?_⟩⟩
  · refine hasRun_iff assumed ?_
    rw [gate]
    exact List.forall_mem_map.2 holds
  · obtain ⟨e, he, fails⟩ := failing
    have length : (gateOf (p.commands a.entry)).length = a.primary.gate.length := by
      rw [gate, List.length_map]
    have he : p.expr e ∈ gateOf (p.commands a.entry) := by
      rw [gate]
      exact List.mem_map_of_mem he
    have before : (p.enterBlock a.entry s).Doomed p I s .assert a.primary.gate.length :=
      ⟨rfl, _, _, (gateOf_append_drop _).symm, length, _, he, fails⟩
    have after : (q.enterBlock a.entry s).Doomed q I s .assume a.primary.gate.length := by
      refine ⟨rfl, _, _, assumed.commands_entry.trans (assumeGate_eq _), length, _, he, ?_⟩
      rw [← assumed.value_eq assumed.entry_mem (assert_mem_of_mem_gateOf he) _ List.mem_cons_self]
      exact fails
    refine ⟨?_, ?_, fun passed c trace => ?_, ?_⟩
    · obtain ⟨passed, c, trace, hfails⟩ := before.reaches_fails
      exact ⟨_, passed, c, trace, hfails, rfl⟩
    · rintro places o ⟨passed, c, trace, ends, rfl⟩
      obtain ⟨k, _, doomed⟩ := before.trace checks_assert trace
      exact doomed.ends_assert ends
    · obtain ⟨k, hk, doomed⟩ := before.trace checks_assert trace
      obtain ⟨pos, x, cs, hrest, goesOn⟩ := doomed.head checks_assert
      refine ⟨by omega, doomed.state, fun stuck => ⟨x, cs, hrest, fun holds => ?_⟩⟩
      obtain ⟨d, hstep⟩ := goesOn holds
      exact stuck d hstep
    · rintro places o ⟨passed, c, trace, ends, rfl⟩
      obtain ⟨k, _, doomed⟩ := after.trace checks_assume trace
      exact doomed.ends_assume ends

/-- The gate of a deposit: if some amount up to the balance is beyond the limit, the deposit cannot
complete. -/
theorem gate_extraction_prunes_deposit :
    GateTaken Account.program Account.registered Account.depositBody Account.deposit ∧
      ∀ (I : Interpretation Int) (s : State Int),
        (∃ e ∈ Account.deposit.primary.gate,
          ¬(Account.program.expr e).Holds I Account.program.tyOf s s) →
        ∀ places o, Account.registered.HasRun I Account.deposit.entry s places o →
          o = .blocked := by
  obtain ⟨taken, runs⟩ := gate_extraction_prunes Account.closed (by decide +kernel)
    (by decide +kernel) Account.registration_eq (by decide +kernel)
  exact ⟨taken, fun I s fails => ((runs I s).2 fails).2.2.2⟩

end AtomicMovers
