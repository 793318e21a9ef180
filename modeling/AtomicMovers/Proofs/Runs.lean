import AtomicMovers.Proofs.BlockCopies
import AtomicMovers.Semantics.Run

/-!
# Runs of block graphs and of their copies

* `Program.Finishes`: some run ends in a given way in a given state. It is unfolded block by block
  (`finishes_enterBlock`), where a block is passed command by command (`Program.Passes`);
* runs stay within a set of blocks that no goto leaves (`Config.Inside`), so what holds of the
  commands of these blocks holds of all commands of a run. In particular a run over commands without
  `old` does not depend on the state it started in (`finishes_start_iff`), and does not change
  variables that no command assigns (`Trace.state_eq`, `state_eq_of_finishes`);
* a copy of a graph runs as the graph does, step by step (`trace_copy`, `trace_original`).
-/

namespace AtomicMovers

/-- A value is returned. -/
def Transfer.IsReturn (t : Transfer) : Prop := ∃ e, t = .returnValue e

/-- The implementation is left. -/
def Transfer.IsLeave (t : Transfer) : Prop := t = .leave

namespace Program

variable {D : Type} {p : Program} {I : Interpretation D} {start : State D}

/-! ## Ways to finish -/

/-- Some run from `c` comes to the end of a block that ends as `E` says, in the state `t`. -/
def Finishes (p : Program) (I : Interpretation D) (start : State D) (E : Transfer → Prop)
    (c : Config D) (t : State D) : Prop :=
  ∃ d, p.Reaches I start c d ∧ d.rest = [] ∧ E (p.block d.block).transfer ∧ d.state = t

theorem completes_iff {entry : BlockRef} {s t : State D} :
    p.Completes I entry s t ↔ p.Finishes I s Transfer.IsReturn (p.enterBlock entry s) t := by
  simp only [Completes, Finishes, Config.Returns, Transfer.IsReturn, and_assoc]

theorem exits_iff {entry : BlockRef} {s t : State D} :
    p.Exits I entry s t ↔ p.Finishes I s Transfer.IsLeave (p.enterBlock entry s) t := by
  simp only [Exits, Finishes, Config.Leaves, Transfer.IsLeave, and_assoc]

theorem Reaches.refl (c : Config D) : p.Reaches I start c c := ⟨[], .refl c⟩

theorem Reaches.head {c d e : Config D} (h : p.Step I start c d) (k : p.Reaches I start d e) :
    p.Reaches I start c e := by
  obtain ⟨passed, k⟩ := k
  exact ⟨c :: passed, .step h k⟩

theorem Reaches.trans {c d e : Config D} (h : p.Reaches I start c d) (k : p.Reaches I start d e) :
    p.Reaches I start c e := by
  obtain ⟨passed, h⟩ := h
  induction h with
  | refl c => exact k
  | step hstep _ ih => exact .head hstep (ih k)

/-- What can be followed step by step can be followed for a whole run. -/
theorem Trace.simulate {q : Program} {start' : State D} {R : Config D → Config D → Prop}
    (step : ∀ c d c', R c d → p.Step I start c c' → ∃ d', q.Step I start' d d' ∧ R c' d')
    {c d e : Config D} {passed : List (Config D)} (hcd : R c d)
    (htrace : p.Trace I start c passed e) :
    ∃ passed' e', q.Trace I start' d passed' e' ∧ R e e' ∧ List.Forall₂ R passed passed' := by
  induction htrace generalizing d with
  | refl c => exact ⟨[], d, .refl d, hcd, .nil⟩
  | step hstep _ ih =>
    obtain ⟨d', hstep', hcd'⟩ := step _ _ _ hcd hstep
    obtain ⟨passed', e', htrace', he, hpassed⟩ := ih hcd'
    exact ⟨d :: passed', e', .step hstep' htrace', he, .cons hcd hpassed⟩

/-- A run has finished already or takes a step. -/
theorem finishes_step_iff {E : Transfer → Prop} {c : Config D} {t : State D} :
    p.Finishes I start E c t ↔
      (c.rest = [] ∧ E (p.block c.block).transfer ∧ c.state = t) ∨
        ∃ d, p.Step I start c d ∧ p.Finishes I start E d t := by
  constructor
  · rintro ⟨e, ⟨passed, h⟩, hend⟩
    cases h with
    | refl _ => exact .inl hend
    | step hstep rest => exact .inr ⟨_, hstep, e, ⟨_, rest⟩, hend⟩
  · rintro (hend | ⟨d, hstep, e, hde, hend⟩)
    · exact ⟨c, .refl c, hend⟩
    · exact ⟨e, .head hstep hde, hend⟩

/-- Going through the commands one after the other leads from one state to another. -/
def Passes (p : Program) (I : Interpretation D) (start : State D) :
    List (Command Expr) → State D → State D → Prop
  | [], s, t => s = t
  | .assert e :: cs, s, t => (p.valueIn I start s e).Holds ∧ p.Passes I start cs s t
  | .assume e :: cs, s, t => (p.valueIn I start s e).Holds ∧ p.Passes I start cs s t
  | .assign updates :: cs, s, t => p.Passes I start cs (p.assign I start s updates) t

/-- A command depends on the values of its expressions. -/
theorem passes_congr {q : Program} {start' : State D} {c : Command Expr} {s : State D}
    (h : ∀ e ∈ c.exprs, p.valueIn I start s e = q.valueIn I start' s e) {t : State D} :
    p.Passes I start [c] s t ↔ q.Passes I start' [c] s t := by
  cases c with
  | assert e => simp only [Passes, h e List.mem_cons_self]
  | assume e => simp only [Passes, h e List.mem_cons_self]
  | assign updates =>
    have same : p.assign I start s updates = q.assign I start' s updates := by
      unfold Program.assign
      congr 1
      refine List.map_congr_left fun u hu => ?_
      rw [h u.2 (List.mem_map.2 ⟨u, hu, rfl⟩)]
    simp only [Passes, same]

/-- A step in the middle of a block passes one command. -/
theorem step_cons_iff {b : BlockRef} {c : Command Expr} {cs : List (Command Expr)} {s : State D}
    {d : Config D} :
    p.Step I start ⟨b, c :: cs, s⟩ d ↔ ∃ m, p.Passes I start [c] s m ∧ d = ⟨b, cs, m⟩ := by
  constructor
  · intro h
    cases h with
    | assert he => exact ⟨s, ⟨he, rfl⟩, rfl⟩
    | assume he => exact ⟨s, ⟨he, rfl⟩, rfl⟩
    | assign => exact ⟨_, rfl, rfl⟩
  · rintro ⟨m, hm, rfl⟩
    cases c with
    | assert e =>
      obtain ⟨he, rfl⟩ := hm
      exact .assert he
    | assume e =>
      obtain ⟨he, rfl⟩ := hm
      exact .assume he
    | assign updates =>
      cases hm
      exact .assign

/-- A step at the end of a block goes to a target. -/
theorem step_nil_iff {b : BlockRef} {s : State D} {d : Config D} :
    p.Step I start ⟨b, [], s⟩ d ↔ ∃ x ∈ (p.block b).transfer.targets, d = p.enterBlock x s := by
  constructor
  · intro h
    cases h with
    | goto htransfer hx => exact ⟨_, by rw [htransfer]; exact hx, rfl⟩
  · rintro ⟨x, hx, rfl⟩
    cases htransfer : (p.block b).transfer with
    | goto targets => exact .goto htransfer (by rw [htransfer] at hx; exact hx)
    | returnValue e => rw [htransfer] at hx; cases hx
    | leave => rw [htransfer] at hx; cases hx

/-- A run in the middle of a block passes the rest of its commands first. -/
theorem finishes_iff_passes {E : Transfer → Prop} {b : BlockRef} {cs : List (Command Expr)}
    {s t : State D} :
    p.Finishes I start E ⟨b, cs, s⟩ t ↔
      ∃ m, p.Passes I start cs s m ∧ p.Finishes I start E ⟨b, [], m⟩ t := by
  -- with a command left the run has not finished, so it takes the step of that command
  induction cs generalizing s with
  | nil => simp [Passes]
  | cons c cs ih =>
    rw [finishes_step_iff]
    constructor
    · rintro (⟨hrest, _⟩ | ⟨d, hstep, hd⟩)
      · cases hrest
      · cases hstep with
        | assert he =>
          obtain ⟨m, hm, hf⟩ := ih.1 hd
          exact ⟨m, ⟨he, hm⟩, hf⟩
        | assume he =>
          obtain ⟨m, hm, hf⟩ := ih.1 hd
          exact ⟨m, ⟨he, hm⟩, hf⟩
        | assign => exact ih.1 hd
    · rintro ⟨m, hm, hf⟩
      right
      cases c with
      | assert e => exact ⟨_, .assert hm.1, ih.2 ⟨m, hm.2, hf⟩⟩
      | assume e => exact ⟨_, .assume hm.1, ih.2 ⟨m, hm.2, hf⟩⟩
      | assign updates => exact ⟨_, .assign, ih.2 ⟨m, hm, hf⟩⟩

/-- At the end of a block a run finishes or goes on at a target. -/
theorem finishes_nil_iff {E : Transfer → Prop} {b : BlockRef} {s t : State D} :
    p.Finishes I start E ⟨b, [], s⟩ t ↔
      (E (p.block b).transfer ∧ s = t) ∨
        ∃ x ∈ (p.block b).transfer.targets, p.Finishes I start E (p.enterBlock x s) t := by
  rw [finishes_step_iff]
  constructor
  · rintro (⟨_, hend⟩ | ⟨d, hstep, hd⟩)
    · exact .inl hend
    · cases hstep with
      | goto htransfer hx => exact .inr ⟨_, by rw [htransfer]; exact hx, hd⟩
  · rintro (hend | ⟨x, hx, hf⟩)
    · exact .inl ⟨rfl, hend⟩
    · right
      cases htransfer : (p.block b).transfer with
      | goto targets => exact ⟨_, .goto htransfer (by rw [htransfer] at hx; exact hx), hf⟩
      | returnValue e => simp [htransfer, Transfer.targets] at hx
      | leave => simp [htransfer, Transfer.targets] at hx

/-- A run from the start of a block passes the block, and then finishes or goes on. -/
theorem finishes_enterBlock {E : Transfer → Prop} {b : BlockRef} {s t : State D} :
    p.Finishes I start E (p.enterBlock b s) t ↔
      ∃ m, p.Passes I start (p.commands b) s m ∧
        ((E (p.block b).transfer ∧ m = t) ∨
          ∃ x ∈ (p.block b).transfer.targets, p.Finishes I start E (p.enterBlock x m) t) := by
  rw [enterBlock, finishes_iff_passes]
  simp only [finishes_nil_iff]

end Program

/-! ## Runs within a set of blocks -/

/-- No goto leaves the blocks. -/
def Program.Encloses (p : Program) (bs : List BlockRef) : Prop :=
  ∀ b ∈ bs, ∀ x ∈ (p.block b).transfer.targets, x ∈ bs

/-- The run stands in one of the blocks, with some of its commands left. -/
structure Config.Inside {D : Type} (p : Program) (bs : List BlockRef) (c : Config D) : Prop where
  block : c.block ∈ bs
  rest : ∀ x ∈ c.rest, x ∈ p.commands c.block

namespace Program

variable {D : Type} {p : Program} {I : Interpretation D} {start : State D} {bs : List BlockRef}

theorem inside_enterBlock {b : BlockRef} (hb : b ∈ bs) (s : State D) :
    (p.enterBlock b s).Inside p bs :=
  ⟨hb, fun _ hx => hx⟩

theorem Step.inside (hbs : p.Encloses bs) {c d : Config D} (h : p.Step I start c d)
    (hc : c.Inside p bs) : d.Inside p bs := by
  cases h with
  | assert he => exact ⟨hc.block, fun x hx => hc.rest x (by simp [hx])⟩
  | assume he => exact ⟨hc.block, fun x hx => hc.rest x (by simp [hx])⟩
  | assign => exact ⟨hc.block, fun x hx => hc.rest x (by simp [hx])⟩
  | goto htransfer hx =>
    exact inside_enterBlock (hbs _ hc.block _ (by rw [htransfer]; exact hx)) _

theorem Trace.inside (hbs : p.Encloses bs) {c d : Config D} {passed : List (Config D)}
    (h : p.Trace I start c passed d) (hc : c.Inside p bs) : d.Inside p bs := by
  induction h with
  | refl c => exact hc
  | step hstep _ ih => exact ih (hstep.inside hbs hc)

/-- A step over a command without `old` does not depend on the state that the run started in. -/
theorem Step.restart (oldFree : ∀ b ∈ bs, ∀ c ∈ p.commands b, c.OldFree) {c d : Config D}
    (hc : c.Inside p bs) (h : p.Step I start c d) (start' : State D) : p.Step I start' c d := by
  have value {x : Command Expr} {e : Expr} {s : State D} (hx : x ∈ c.rest) (he : e ∈ x.exprs) :
      p.valueIn I start s e = p.valueIn I start' s e :=
    e.eval_eq_of_oldFree start start' s (oldFree c.block hc.block x (hc.rest x hx) e he)
  cases h with
  | assert he =>
    exact .assert (value List.mem_cons_self List.mem_cons_self ▸ he)
  | assume he =>
    exact .assume (value List.mem_cons_self List.mem_cons_self ▸ he)
  | @assign b updates cs s =>
    have same : p.assign I start s updates = p.assign I start' s updates := by
      unfold Program.assign
      congr 1
      apply List.map_congr_left
      intro u hu
      rw [value List.mem_cons_self (List.mem_map.2 ⟨u, hu, rfl⟩)]
    rw [same]
    exact .assign
  | goto htransfer hx => exact .goto htransfer hx

/-- A run over commands without `old` does not depend on the state that it started in. -/
theorem finishes_start_iff (hbs : p.Encloses bs)
    (oldFree : ∀ b ∈ bs, ∀ c ∈ p.commands b, c.OldFree) {E : Transfer → Prop} {b : BlockRef}
    (hb : b ∈ bs) {s t : State D} (start start' : State D) :
    p.Finishes I start E (p.enterBlock b s) t ↔ p.Finishes I start' E (p.enterBlock b s) t := by
  have direction (u v : State D) {c d : Config D} (hc : c.Inside p bs)
      (h : p.Reaches I u c d) : p.Reaches I v c d := by
    obtain ⟨passed, h⟩ := h
    induction h with
    | refl c => exact .refl c
    | step hstep _ ih => exact .head (hstep.restart oldFree hc v) (ih (hstep.inside hbs hc))
  constructor
  · rintro ⟨d, h, hend⟩
    exact ⟨d, direction start start' (inside_enterBlock hb s) h, hend⟩
  · rintro ⟨d, h, hend⟩
    exact ⟨d, direction start' start (inside_enterBlock hb s) h, hend⟩

/-- An assignment leaves all other variables alone. -/
theorem setAll_of_not_mem {s : State D} {updates : List (VarRef × Value D)} {x : VarRef}
    (hx : x ∉ updates.map Prod.fst) : s.setAll updates x = s x := by
  induction updates generalizing s with
  | nil => rfl
  | cons u us ih =>
    rw [List.map_cons, List.mem_cons, not_or] at hx
    show (s.set u.1 u.2).setAll us x = s x
    rw [ih hx.2]
    exact if_neg hx.1

section Unassigned

variable {x : VarRef} (hx : ∀ b ∈ bs, ∀ c ∈ p.commands b, ¬c.Writes x)

include hx

/-- A step does not change a variable that no command of the blocks assigns. -/
theorem Step.state_eq {c d : Config D} (hc : c.Inside p bs) (h : p.Step I start c d) :
    d.state x = c.state x := by
  cases h with
  | assert he => rfl
  | assume he => rfl
  | assign =>
    have := hx _ hc.block _ (hc.rest _ List.mem_cons_self)
    refine setAll_of_not_mem ?_
    simpa [Command.Writes, Command.targets] using this
  | goto htransfer ht => rfl

/-- The variable has the same value throughout a run. -/
theorem Trace.state_eq (hbs : p.Encloses bs) {c d : Config D} {passed : List (Config D)}
    (h : p.Trace I start c passed d) (hc : c.Inside p bs) :
    ∀ e ∈ d :: passed, e.state x = c.state x := by
  induction h with
  | refl c => simp
  | @step c d e passed hstep _ ih =>
    have same : d.state x = c.state x := hstep.state_eq hx hc
    have later := ih (hstep.inside hbs hc)
    rw [same, List.forall_mem_cons] at later
    exact List.forall_mem_cons.2 ⟨later.1, List.forall_mem_cons.2 ⟨rfl, later.2⟩⟩

theorem state_eq_of_finishes (hbs : p.Encloses bs) {E : Transfer → Prop} {b : BlockRef}
    (hb : b ∈ bs) {s t : State D} (h : p.Finishes I start E (p.enterBlock b s) t) : t x = s x := by
  obtain ⟨d, ⟨passed, trace⟩, _, _, rfl⟩ := h
  exact trace.state_eq hx hbs (inside_enterBlock hb s) d List.mem_cons_self

end Unassigned

end Program

/-! ## Runs of copies -/

/-- The second block of each pair has the commands of the first one, and an end that is a copy of its
end. -/
structure Program.Copies (p : Program) (E : Transfer → Prop) (pairs : List (BlockRef × BlockRef)) :
    Prop where
  commands : ∀ u ∈ pairs, p.commands u.2 = p.commands u.1
  transfer : ∀ u ∈ pairs,
    Transfer.Copied E pairs (p.block u.1).transfer (p.block u.2).transfer

/-- The runs stand at the same place of a block and of its copy, in the same state. -/
structure Config.Matches {D : Type} (pairs : List (BlockRef × BlockRef)) (c d : Config D) :
    Prop where
  block : (c.block, d.block) ∈ pairs
  rest : d.rest = c.rest
  state : d.state = c.state

namespace Program

variable {D : Type} {p : Program} {I : Interpretation D} {start : State D} {E : Transfer → Prop}
  {pairs : List (BlockRef × BlockRef)}

theorem Copies.enterBlock (h : p.Copies E pairs) {b c : BlockRef} (hbc : (b, c) ∈ pairs)
    (s : State D) : (p.enterBlock b s).Matches pairs (p.enterBlock c s) :=
  ⟨hbc, h.commands _ hbc, rfl⟩

/-- The copy follows every step of the graph. -/
theorem Copies.step_copy (h : p.Copies E pairs) {c c' d : Config D} (hcd : c.Matches pairs d)
    (hstep : p.Step I start c c') : ∃ d', p.Step I start d d' ∧ c'.Matches pairs d' := by
  obtain ⟨x, rest, s⟩ := d
  obtain ⟨hblock, rfl, rfl⟩ := hcd
  cases hstep with
  | assert he => exact ⟨_, .assert he, hblock, rfl, rfl⟩
  | assume he => exact ⟨_, .assume he, hblock, rfl, rfl⟩
  | assign => exact ⟨_, .assign, hblock, rfl, rfl⟩
  | goto htransfer hy =>
    have copied := h.transfer _ hblock
    rw [htransfer] at copied
    generalize hx : (p.block x).transfer = end' at copied
    -- a goto is copied to a goto, with the targets in the same order
    cases copied with
    | goto hts =>
      obtain ⟨z, hz, hyz⟩ := exists_right_of_forall₂ hts hy
      exact ⟨_, .goto hx hz, h.enterBlock (mem_of_lookup_reverse hyz) _⟩

/-- A step of the copy is a step of the graph, or the way on from where the graph returns a value. -/
theorem Copies.step_original (h : p.Copies E pairs) {c d d' : Config D}
    (hcd : c.Matches pairs d) (hstep : p.Step I start d d') :
    (∃ c', p.Step I start c c' ∧ c'.Matches pairs d') ∨
      (c.Returns p ∧ E (p.block d.block).transfer ∧
        ∃ x ∈ (p.block d.block).transfer.targets, d' = p.enterBlock x c.state) := by
  obtain ⟨b, rest, s⟩ := c
  obtain ⟨hblock, hrest, hstate⟩ := hcd
  simp only at hblock hrest hstate
  cases hstep with
  | assert he =>
    subst hrest hstate
    exact .inl ⟨_, .assert he, hblock, rfl, rfl⟩
  | assume he =>
    subst hrest hstate
    exact .inl ⟨_, .assume he, hblock, rfl, rfl⟩
  | assign =>
    subst hrest hstate
    exact .inl ⟨_, .assign, hblock, rfl, rfl⟩
  | goto htransfer hy =>
    subst hrest hstate
    have copied := h.transfer _ hblock
    simp only at copied
    rw [htransfer] at copied
    generalize hb : (p.block b).transfer = end' at copied
    cases copied with
    | goto hts =>
      obtain ⟨z, hz, hzy⟩ := exists_left_of_forall₂ hts hy
      exact .inl ⟨_, .goto hb hz, h.enterBlock (mem_of_lookup_reverse hzy) _⟩
    | returnValue hE =>
      -- the copy goes on although the graph is through
      refine .inr ⟨⟨rfl, _, hb⟩, ?_, _, ?_, rfl⟩
      · rw [htransfer]
        exact hE
      · rw [htransfer]
        exact hy

/-- Every run of the graph is one of the copy. -/
theorem Copies.trace_copy (h : p.Copies E pairs) {c d e : Config D} {passed : List (Config D)}
    (hcd : c.Matches pairs d) (htrace : p.Trace I start c passed e) :
    ∃ passed' e', p.Trace I start d passed' e' ∧ e.Matches pairs e' ∧
      List.Forall₂ (Config.Matches pairs) passed passed' :=
  htrace.simulate (fun _ _ _ => h.step_copy) hcd

/-- Every run of the copy is one of the graph, if the copy does not go on after value returns. -/
theorem Copies.trace_original (h : p.Copies Transfer.IsLeave pairs) {c d e' : Config D}
    {passed' : List (Config D)} (hcd : c.Matches pairs d)
    (htrace : p.Trace I start d passed' e') :
    ∃ passed e, p.Trace I start c passed e ∧ e.Matches pairs e' ∧
      List.Forall₂ (Config.Matches pairs) passed passed' := by
  have follows : ∀ d c d', c.Matches pairs d → p.Step I start d d' →
      ∃ c', p.Step I start c c' ∧ c'.Matches pairs d' := by
    intro d c d' hcd hstep
    rcases h.step_original hcd hstep with follows | ⟨_, hleave, x, hx, _⟩
    · exact follows
    · -- leaving is no way on
      rw [hleave] at hx
      simp [Transfer.targets] at hx
  obtain ⟨passed, e, htrace', he, hpassed⟩ :=
    htrace.simulate (R := fun d c => c.Matches pairs d) follows hcd
  exact ⟨passed, e, htrace', he, hpassed.flip⟩

/-- Where the graph never leaves, the copy leaves exactly where the graph returns a value. -/
theorem Copies.isLeave_iff (h : p.Copies Transfer.IsLeave pairs) {u : BlockRef × BlockRef}
    (hu : u ∈ pairs) (stays : (p.block u.1).transfer ≠ .leave) :
    (p.block u.2).transfer.IsLeave ↔ (p.block u.1).transfer.IsReturn := by
  have copied := h.transfer u hu
  generalize (p.block u.1).transfer = old at *
  generalize (p.block u.2).transfer = new at *
  cases copied with
  | returnValue hleave => exact ⟨fun _ => ⟨_, rfl⟩, fun _ => hleave⟩
  | goto _ => simp [Transfer.IsLeave, Transfer.IsReturn]
  | leave => exact absurd rfl stays

/-- A copy that leaves for a value return finishes as the graph does. -/
theorem Copies.finishes_iff (h : p.Copies Transfer.IsLeave pairs)
    (stays : ∀ u ∈ pairs, (p.block u.1).transfer ≠ .leave) {c d : Config D}
    (hcd : c.Matches pairs d) {t : State D} :
    p.Finishes I start Transfer.IsLeave d t ↔ p.Finishes I start Transfer.IsReturn c t := by
  constructor
  · rintro ⟨e', ⟨_, htrace⟩, hrest, hend, rfl⟩
    obtain ⟨_, e, htrace', he, _⟩ := h.trace_original hcd htrace
    exact ⟨e, ⟨_, htrace'⟩, he.rest ▸ hrest, (h.isLeave_iff he.block (stays _ he.block)).1 hend,
      he.state.symm⟩
  · rintro ⟨e, ⟨_, htrace⟩, hrest, hend, rfl⟩
    obtain ⟨_, e', htrace', he, _⟩ := h.trace_copy hcd htrace
    exact ⟨e', ⟨_, htrace'⟩, he.rest.trans hrest,
      (h.isLeave_iff he.block (stays _ he.block)).2 hend, he.state⟩

/-- A copy that goes on at `next` for a value return runs the graph first and what is at `next`
then. -/
theorem Copies.finishes_goto_iff {next : BlockRef} (h : p.Copies (· = .goto [next]) pairs)
    (stays : ∀ u ∈ pairs, (p.block u.1).transfer ≠ .leave) {c d : Config D}
    (hcd : c.Matches pairs d) {t : State D} :
    p.Finishes I start Transfer.IsLeave d t ↔
      ∃ m, p.Finishes I start Transfer.IsReturn c m ∧
        p.Finishes I start Transfer.IsLeave (p.enterBlock next m) t := by
  constructor
  · rintro ⟨e', ⟨_, htrace⟩, hend⟩
    induction htrace generalizing c with
    | refl d =>
      -- the copy does not leave anywhere, so the run cannot end here
      exfalso
      have copied := h.transfer _ hcd.block
      have hold := stays _ hcd.block
      rw [show (p.block d.block).transfer = .leave from hend.2.1] at copied
      generalize (p.block c.block).transfer = old at *
      cases copied with
      | returnValue hgoto => cases hgoto
      | leave => exact hold rfl
    | step hstep rest ih =>
      rcases h.step_original hcd hstep with ⟨c', hstep', hcd'⟩ | ⟨hreturns, hgoto, x, hx, rfl⟩
      · obtain ⟨m, hm, hnext⟩ := ih hcd' hend
        exact ⟨m, finishes_step_iff.2 (.inr ⟨c', hstep', hm⟩), hnext⟩
      · -- here the graph returns and the copy crosses over to `next`
        rw [hgoto, Transfer.targets, List.mem_singleton] at hx
        rw [← hx]
        exact ⟨c.state, ⟨c, .refl c, hreturns.1, hreturns.2, rfl⟩, _, ⟨_, rest⟩, hend⟩
  · rintro ⟨m, ⟨e, ⟨_, htrace⟩, hrest, ⟨v, hreturn⟩, rfl⟩, f, hreach, hend⟩
    obtain ⟨_, ⟨b, rest, s⟩, htrace', he, _⟩ := h.trace_copy hcd htrace
    obtain ⟨hblock, hr, hs⟩ := he
    simp only at hblock hr hs
    subst hs
    rw [hrest] at hr
    subst hr
    have hgoto : (p.block b).transfer = .goto [next] := by
      have copied := h.transfer _ hblock
      simp only at copied
      rw [hreturn] at copied
      generalize (p.block b).transfer = new at *
      cases copied with
      | returnValue hgoto => exact hgoto
    -- the copy of the last block of the graph, and the step from there
    have last : p.Step I start ⟨b, [], e.state⟩ (p.enterBlock next e.state) :=
      .goto hgoto (by simp)
    exact ⟨f, Reaches.trans ⟨_, htrace'⟩ (.head last hreach), hend⟩

end Program

end AtomicMovers
