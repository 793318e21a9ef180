import AtomicMovers.Proofs.GatePreservation
import AtomicMovers.Proofs.SearchOutcomes

/-!
# What `old` means in a command

In a run, `old` is about the state in which the run started. In the transition relation of an action
it is about the state right before the command it stands in: going back over an assignment replaces
variables under every `old`, also under one that a later command had to begin with. So the relation
describes runs in which every command counts as the first one (`Program.RunsAfresh`).

The two are the same where no command reads under `old` what was assigned before it on its path
(`ReadsOldFirst`). Both statements are in `transition_holds_iff_runsAfresh`. The module ends with a
lock that is taken in two ways, one of which reads `old` first; for the other one the relation holds
of no two states although there are runs (`relation_misses_late_old`).
-/

namespace AtomicMovers

open Program Relation

/-! ## Runs in which every command counts as the first -/

section Runs

variable {D : Type}

/-- Some run from the configuration returns a value in the state `t`, where each step counts as the
first one of its run. -/
def Program.FinishesAfresh (p : Program) (I : Interpretation D) (c : Config D) (t : State D) : Prop :=
  ∃ d, ReflTransGen (fun c d => p.Step I c.state c d) c d ∧ d.Returns p ∧ d.state = t

/-- Some run of the copy from `s` completes in `t`, where under `old` each command reads the state
right before it. The locals of the copy start with any values of their types. -/
def Program.RunsAfresh (p : Program) (I : Interpretation D) (a : Replica) (s t : State D) : Prop :=
  ∃ l, I.InRange p.tyOf a.locals l ∧
    p.FinishesAfresh I (p.enterBlock a.entry (s.override a.locals l)) t

variable {p : Program} {I : Interpretation D} {b : BlockRef} {s t : State D}

theorem finishesAfresh_step_iff {c : Config D} : p.FinishesAfresh I c t ↔
    (c.Returns p ∧ c.state = t) ∨ ∃ d, p.Step I c.state c d ∧ p.FinishesAfresh I d t := by
  constructor
  · rintro ⟨d, h, hend⟩
    rcases h.cases_head with rfl | ⟨c', hstep, rest⟩
    · exact .inl hend
    · exact .inr ⟨c', hstep, d, rest, hend⟩
  · rintro (hend | ⟨c', hstep, d, rest, hend⟩)
    · exact ⟨c, .refl, hend⟩
    · exact ⟨d, rest.head hstep, hend⟩

/-- A run in the middle of a block passes the rest of its commands first. -/
theorem finishesAfresh_iff_passes {cs : List (Command Expr)} :
    p.FinishesAfresh I ⟨b, cs, s⟩ t ↔
      ∃ m, p.PassesAfresh I cs s m ∧ p.FinishesAfresh I ⟨b, [], m⟩ t := by
  induction cs generalizing s with
  | nil => simp [PassesAfresh]
  | cons c cs ih =>
    have goesOn : p.FinishesAfresh I ⟨b, c :: cs, s⟩ t ↔
        ∃ d, p.Step I s ⟨b, c :: cs, s⟩ d ∧ p.FinishesAfresh I d t := by
      rw [finishesAfresh_step_iff]
      exact or_iff_right fun h => List.cons_ne_nil _ _ h.1.1
    simp only [goesOn, step_cons_iff, PassesAfresh]
    constructor
    · rintro ⟨_, ⟨m, hm, rfl⟩, h⟩
      obtain ⟨r, hr, h⟩ := ih.1 h
      exact ⟨r, ⟨m, hm, hr⟩, h⟩
    · rintro ⟨r, ⟨m, hm, hr⟩, h⟩
      exact ⟨_, ⟨m, hm, rfl⟩, ih.2 ⟨r, hr, h⟩⟩

theorem finishesAfresh_of_returnValue {e : ExprRef}
    (h : (p.block b).transfer = .returnValue e) :
    p.FinishesAfresh I (p.enterBlock b s) t ↔ p.PassesAfresh I (p.commands b) s t := by
  rw [enterBlock, finishesAfresh_iff_passes]
  have ends (m : State D) : p.FinishesAfresh I ⟨b, [], m⟩ t ↔ m = t := by
    rw [finishesAfresh_step_iff]
    simp [Config.Returns, step_nil_iff, h, Transfer.targets]
  simp only [ends, exists_eq_right]

theorem finishesAfresh_of_goto {targets : List BlockRef}
    (h : (p.block b).transfer = .goto targets) :
    p.FinishesAfresh I (p.enterBlock b s) t ↔
      ∃ m, p.PassesAfresh I (p.commands b) s m ∧
        ∃ x ∈ targets, p.FinishesAfresh I (p.enterBlock x m) t := by
  rw [enterBlock, finishesAfresh_iff_passes]
  refine exists_congr fun m => and_congr_right fun _ => ?_
  rw [finishesAfresh_step_iff]
  simp [Config.Returns, step_nil_iff, h, Transfer.targets]

/-- The paths that were found are those along which runs of this kind complete. -/
theorem exists_alongAfresh_iff {found : List Path} (h : p.Explored none [] b found) :
    (∃ π ∈ found, p.AlongAfresh I π s t) ↔ p.FinishesAfresh I (p.enterBlock b s) t := by
  rw [exists_path_iff (fun b => p.PassesAfresh I (p.commands b))
    (fun b s t => p.FinishesAfresh I (p.enterBlock b s) t)
    (fun _ _ _ _ => Iff.rfl) (fun _ _ hb _ _ => finishesAfresh_of_returnValue hb)
    (fun _ _ hb _ _ => finishesAfresh_of_goto hb) h]
  simp [AlongAfresh, InTurn]

end Runs

/-! ## Reading `old` first -/

instance (cs : List (Command Expr)) : Decidable (ReadsFirst cs) :=
  inferInstanceAs (Decidable (cs.Pairwise fun c d => ∀ x ∈ c.targets, ¬d.ReadsPrior x))

/-- On every path through the shadow copy of the action, no command reads under `old` what was assigned
before it. -/
def ReadsOldFirst (p : Program) (a : AtomicAction) : Prop :=
  ∀ path b, Walk p none a path b → ReadsFirst (p.commandsAlong (b :: path))

section Paths

variable {p : Program} {first : Option AtomicAction} {second : AtomicAction}

/-- The search walks through the graph. -/
theorem walk_of_explored (sep : Separated p first second) {next : Option BlockRef} {path : Path}
    {b : BlockRef} {found : List Path} (h : p.Explored next path b found)
    (walk : Walk p first second path b) (stage : Stage first second next b) :
    ∀ π ∈ found, ∃ path' b', π = b' :: path' ∧ Walk p first second path' b' := by
  induction h with
  | handOver h rest ih =>
    obtain ⟨flows, stage'⟩ := stage.handOver sep ⟨_, h⟩
    exact ih (walk.step flows) stage'
  | @complete b path e h assertFree =>
    intro π hπ
    exact ⟨path, b, List.mem_singleton.1 hπ, walk⟩
  | branch h rest ih =>
    intro π hπ
    obtain ⟨_, hfound, hπ⟩ := List.mem_flatten.1 hπ
    obtain ⟨u, hu, rfl⟩ := List.mem_map.1 hfound
    obtain ⟨flows, stage'⟩ :=
      stage.goto sep (c := u.1) (by rw [h]; exact List.mem_map.2 ⟨u, hu, rfl⟩)
    exact ih u hu (walk.step flows) stage' π hπ

/-- Paths that the search finds in a later program read `old` first if they do in this one. -/
theorem readsFirst_of_explored {base q : Program} {actions : List AtomicAction}
    (h : Assembly.Sound base p actions) (hpq : p.Extends q) (hs : second ∈ actions)
    (order : ReadsOldFirst p second) {found : List Path}
    (explored : q.Explored none [] second.shadow.entry found) :
    ∀ π ∈ found, ReadsFirst (q.commandsAlong π) := by
  intro π hπ
  have sep : Separated p none second := h.separated (by simp) hs
  have valid := (h.validIn hs).shadow
  obtain ⟨explored', hblocks⟩ := explored.earlier h.closed hpq
    (valid.blocks _ (Replica.entry_mem valid.nonempty)) (by simp) (by simp)
  obtain ⟨path, b, rfl, walk⟩ := walk_of_explored sep explored' .entry sep.stage π hπ
  have same : q.commandsAlong (b :: path) = p.commandsAlong (b :: path) :=
    List.flatMap_congr fun x hx =>
      hpq.commands_eq h.closed (hblocks _ hπ x (List.mem_reverse.1 hx))
  rw [same]
  exact order path b walk

end Paths

/-- The transition relation of an action holds of two states exactly if a run of the shadow copy leads
from the one to the other in which every command counts as the first one. If no path reads under `old`
what it has assigned before, these are the runs of the shadow copy. -/
theorem transition_holds_iff_runsAfresh {base p q : Program} {actions : List AtomicAction}
    (hbase : base.Closed) (assembly : Assembly base p actions) {second : AtomicAction}
    (hs : second ∈ actions)
    (hygienic : Hygienic (base.globals ++ second.primary.vars) (second.primary.commands base))
    {e : ExprRef} (run : (transition none second).run p = (.ok e, q)) :
    ∀ {D : Type} (I : Interpretation D) (s s' : State D),
      ((q.expr e).Holds I q.tyOf s s' ↔
        ∃ t, q.RunsAfresh I second.shadow s t ∧
          State.AgreeOn (q.globals ++ second.shadow.outputs) t s') ∧
      (ReadsOldFirst p second →
        ((q.expr e).Holds I q.tyOf s s' ↔
          ∃ t, q.Runs I second.shadow s t ∧
            State.AgreeOn (q.globals ++ second.shadow.outputs) t s')) := by
  have hp := assembly.sound hbase
  have valid := hp.validIn hs
  obtain ⟨hpq, closed, relation, htree, hrelated⟩ :=
    (attempts_transition hp.closed none (by simp) valid.shadow).of_run run
  have made := hrelated.transitionOf hp.closed (by simp) valid.shadow
  have scope : TransitionScoped none second (transitionBlocks none second) q :=
    transitionScoped (hp.extends hpq closed) (by simp) hs (by simp) (by simp)
      (by simpa [declaredVars, bodyCommands] using hygienic)
  obtain ⟨locals, frame⟩ := hasVar_of_mem_transition hp.closed none (by simp) valid.shadow
  intro D I s s'
  obtain ⟨paths, explored, within, holds⟩ := holds_transition_paths (I := I) hp.closed made hpq
    (Extends.refl q) (hasBlock_of_mem_transitionBlocks (by simp) valid) scope locals frame
  have frame_eq : transitionFrame none second q = q.globals ++ second.shadow.outputs := by
    simp [transitionFrame]
  -- the locals are given values before the run, which is one along a path
  have along : (q.expr e).Holds I q.tyOf s s' ↔
      ∃ t, (∃ l, I.InRange q.tyOf second.shadow.locals l ∧
          ∃ π ∈ paths, q.AlongAfresh I π (s.override second.shadow.locals l) t) ∧
        State.AgreeOn (q.globals ++ second.shadow.outputs) t s' := by
    rw [htree.2, holds, frame_eq]
    constructor
    · rintro ⟨l, hl, t, hrun, hagree⟩
      exact ⟨t, ⟨l, hl, hrun⟩, hagree⟩
    · rintro ⟨t, ⟨l, hl, hrun⟩, hagree⟩
      exact ⟨l, hl, t, hrun, hagree⟩
  rw [along]
  refine ⟨exists_congr fun t => and_congr_left fun _ => exists_congr fun l =>
    and_congr_right fun _ => exists_alongAfresh_iff explored, fun order => ?_⟩
  have first := readsFirst_of_explored hp hpq hs order explored
  refine exists_congr fun t => and_congr_left fun _ => exists_congr fun l =>
    and_congr_right fun _ => ?_
  have started : (∃ π ∈ paths, q.AlongAfresh I π (s.override second.shadow.locals l) t) ↔
      ∃ π ∈ paths, q.Along I (s.override second.shadow.locals l) π
        (s.override second.shadow.locals l) t :=
    exists_congr fun π => and_congr_right fun hπ =>
      alongAfresh_iff (fun _ _ _ _ => rfl) (first π hπ)
  rw [started, exists_along_iff explored, completes_iff]
  simp [Along, RunsTo, transitionNext]

/-! ## A lock -/

namespace Lock

/-- A `lock`, a procedure to acquire it, and two bodies for it. The first one waits until the lock is
free and takes it. The second one takes the lock and then asks whether it was free before. -/
def program : Program where
  vars := #[{ name := "lock", ty := .bool, kind := .global }]
  exprs := ⟨#[.var ⟨0⟩, .old ⟨0⟩, .unary .not ⟨1⟩, .lit (.bool true)]⟩
  blocks := #[⟨"wait", [.assume ⟨2⟩, .assign [(⟨0⟩, ⟨3⟩)]], .returnValue ⟨3⟩⟩,
    ⟨"grab", [.assign [(⟨0⟩, ⟨3⟩)], .assume ⟨2⟩], .returnValue ⟨3⟩⟩]
  procedures := #[{ name := "acquire" }]
  declarations := [.global ⟨0⟩, .procedure ⟨0⟩]
  names := [("lock", ⟨0⟩)]

def bodyOf (b : BlockRef) : Body := { locals := [], blocks := [b] }

/-- What making an action of the block results in. -/
def registration (b : BlockRef) : Except Error AtomicAction × Program :=
  (AtomicAction.ofBody ⟨0⟩ (bodyOf b) .right).run program

/-- The action that waits first. -/
def waiting : AtomicAction := (registration ⟨0⟩).1.toOption.getD default

/-- The action that asks last. -/
def grabbing : AtomicAction := (registration ⟨1⟩).1.toOption.getD default

theorem closed : program.Closed := by decide +kernel

theorem registers :
    ∀ b ∈ [⟨0⟩, ⟨1⟩], (bodyOf b).ValidIn program ∧ (registration b).1.isOk := by decide +kernel

theorem assembly {b : BlockRef} (hb : b ∈ [⟨0⟩, ⟨1⟩]) :
    Assembly program (registration b).2 [(registration b).1.toOption.getD default] := by
  obtain ⟨valid, made⟩ := registers b hb
  have acquire : program.HasProcedure ⟨0⟩ := Nat.one_pos
  exact Assembly.start.register acquire valid (eq_ok_of_isOk made)

theorem assembly_waiting : Assembly program (registration ⟨0⟩).2 [waiting] :=
  assembly List.mem_cons_self

theorem assembly_grabbing : Assembly program (registration ⟨1⟩).2 [grabbing] :=
  assembly (List.mem_cons_of_mem _ List.mem_cons_self)

theorem readsOldFirst_waiting : ReadsOldFirst (registration ⟨0⟩).2 waiting := by
  intro path b walk
  have ends : ∀ x ∈ transitionBlocks none waiting,
      ((registration ⟨0⟩).2.block x).transfer.targets = [] := by decide +kernel
  cases walk with
  | entry => decide +kernel
  | step _ flows =>
    cases flows with
    | goto hx ht =>
      rw [ends _ hx] at ht
      cases ht
    | handOver ha _ _ => cases ha

end Lock

/-- Waiting for the lock and taking it. -/
theorem transition_holds_iff_runsAfresh_waiting : ∃ e q,
    (transition none Lock.waiting).run (Lock.registration ⟨0⟩).2 = (.ok e, q) ∧
      ∀ (I : Interpretation Int) (s s' : State Int),
        (q.expr e).Holds I q.tyOf s s' ↔
          ∃ t, q.Runs I Lock.waiting.shadow s t ∧
            State.AgreeOn (q.globals ++ Lock.waiting.shadow.outputs) t s' := by
  have run := eq_ok_of_isOk (x := (transition none Lock.waiting).run (Lock.registration ⟨0⟩).2)
    (by decide +kernel)
  refine ⟨_, _, run, fun I s s' => ?_⟩
  exact (transition_holds_iff_runsAfresh Lock.closed Lock.assembly_waiting
    (List.mem_singleton_self _) (by decide +kernel) run I s s').2 Lock.readsOldFirst_waiting

namespace Lock

/-- The program in which the action that asks last is registered. -/
def grabbed : Program := (registration ⟨1⟩).2

/-- What computing the relation of this action results in. -/
def relation : Except Error ExprRef × Program := (transition none grabbing).run grabbed

theorem relation_eq : relation = (.ok (relation.1.toOption.getD default), relation.2) :=
  eq_ok_of_isOk (by decide +kernel)

theorem sound_grabbing : Assembly.Sound program grabbed [grabbing] :=
  assembly_grabbing.sound closed

theorem validIn_grabbing : grabbing.shadow.ValidIn grabbed :=
  (sound_grabbing.validIn (List.mem_singleton_self _)).shadow

/-- The shadow copy of the action that asks last is one block. -/
theorem shadow_grabbing :
    grabbing.shadow = { inputs := [], outputs := [], locals := [], blocks := [⟨2⟩], gate := [] } ∧
      grabbed.block ⟨2⟩ =
        ⟨"that_grab", [.assign [(⟨0⟩, ⟨3⟩)], .assume ⟨2⟩], .returnValue ⟨4⟩⟩ ∧
      grabbed.globals = [⟨0⟩] := by
  decide +kernel

theorem entry_grabbing : grabbing.shadow.entry = ⟨2⟩ := by
  rw [shadow_grabbing.1]
  rfl

/-- The commands are about expressions that were in the program from the start. -/
theorem commands_grabbed : grabbed.commands ⟨2⟩ =
    [.assign [(⟨0⟩, .tt)], .assume (Expr.not (.old (.var ⟨0⟩)))] := by
  have kept {e : ExprRef} (he : program.HasExpr e) : grabbed.expr e = program.expr e :=
    sound_grabbing.grows.expr_eq closed he
  rw [Program.commands, shadow_grabbing.2.1]
  simp only [List.map_cons, List.map_nil, Command.map,
    kept (show program.HasExpr ⟨3⟩ by decide), kept (show program.HasExpr ⟨2⟩ by decide)]
  rfl

theorem completingPaths_grabbed : grabbed.completingPaths ⟨2⟩ none = .ok [[⟨2⟩]] := by
  simp [completingPaths, explore, completePath, shadow_grabbing.2.1, Command.isAssert]

/-- The assignment has gone under the `old` of the assumption. -/
theorem expr_relation : relation.2.expr (relation.1.toOption.getD default) =
    Expr.ff.or ((Expr.old (Expr.not (.old .tt))).and
      ((Expr.eq (.var ⟨0⟩) (.old .tt)).and .tt)) := by
  have paths := completingPaths_grabbed
  rw [← entry_grabbing] at paths
  obtain ⟨bound, new, tree⟩ := expr_of_transition sound_grabbing.closed validIn_grabbing paths
    relation_eq
  have none : grabbing.shadow.locals = [] := by rw [shadow_grabbing.1]
  have frame : grabbed.globals ++ grabbing.shadow.outputs = [⟨0⟩] := by
    rw [shadow_grabbing.1, shadow_grabbing.2.2]
    rfl
  obtain rfl : bound = [] := by simpa [none] using new.length_eq
  rw [tree, none, frame, entry_grabbing]
  have identity (e : Expr) : e.subst (.uniform (Substitution.renaming [])) = e :=
    e.substAt_nil .current
  rw [List.zip_nil_left, Expr.existsAll, identity, relationFormula, disjoinPaths]
  simp only [List.foldl_cons, List.foldl_nil, pathFormula, blockFormula, commands_grabbed]
  rfl

/-- What was there is as it was when the relation is computed. -/
theorem extends_relation : grabbed.Extends relation.2 :=
  ((attempts_transition sound_grabbing.closed none (by simp) validIn_grabbing).of_run
    relation_eq).1

theorem hasBlock_grabbed : grabbed.HasBlock ⟨2⟩ :=
  validIn_grabbing.blocks _ (by rw [shadow_grabbing.1]; exact List.mem_cons_self)

theorem commands_relation : relation.2.commands ⟨2⟩ =
    [.assign [(⟨0⟩, .tt)], .assume (Expr.not (.old (.var ⟨0⟩)))] := by
  rw [extends_relation.commands_eq sound_grabbing.closed hasBlock_grabbed, commands_grabbed]

theorem transfer_relation : (relation.2.block ⟨2⟩).transfer = .returnValue ⟨4⟩ := by
  rw [extends_relation.block_eq hasBlock_grabbed, shadow_grabbing.2.1]

end Lock

/-- Where a command reads under `old` what was assigned before it, the relation can miss runs: taking
the lock and then asking whether it was free before leads from a state where it is free to one where it
is not, but the relation does not hold of the two. -/
theorem relation_misses_late_old : ∃ e q,
    Lock.program.Closed ∧ Assembly Lock.program (Lock.registration ⟨1⟩).2 [Lock.grabbing] ∧
      Hygienic (Lock.program.globals ++ Lock.grabbing.primary.vars)
        (Lock.grabbing.primary.commands Lock.program) ∧
      (transition none Lock.grabbing).run (Lock.registration ⟨1⟩).2 = (.ok e, q) ∧
      ∃ s s' : State Int, ∀ I : Interpretation Int,
        ¬(q.expr e).Holds I q.tyOf s s' ∧
          ∃ t, q.Runs I Lock.grabbing.shadow s t ∧
            State.AgreeOn (q.globals ++ Lock.grabbing.shadow.outputs) t s' := by
  refine ⟨_, _, Lock.closed, Lock.assembly_grabbing, by decide +kernel, Lock.relation_eq, ?_⟩
  let free : State Int := fun _ => .bool false
  let taken : State Int := free.set ⟨0⟩ (.bool true)
  refine ⟨free, taken, fun I => ⟨?_, taken, ⟨free, ?_, ?_⟩, fun _ _ => rfl⟩⟩
  · -- asking what `true` was before has one answer
    show ¬(Lock.relation.2.expr _).Holds I Lock.relation.2.tyOf free taken
    rw [Lock.expr_relation]
    simp
  · rw [Lock.shadow_grabbing.1]
    simp [Interpretation.InRange]
  · rw [State.override_self, Lock.entry_grabbing, completes_iff]
    refine (finishes_of_returnValue Lock.transfer_relation).2 ?_
    rw [Lock.commands_relation]
    have was : ¬(Expr.old (.var ⟨0⟩)).Holds I Lock.relation.2.tyOf free taken := by
      rw [Expr.holds_old]
      simp [Expr.Holds, Expr.eval, Value.Holds, free]
    exact ⟨(Expr.holds_not _).2 was, rfl⟩

end AtomicMovers
