import AtomicMovers.Proofs.Bindings
import AtomicMovers.Proofs.Paths

/-!
# The search makes the formula of the paths

While the search runs it enters conditions of paths in the table of expressions. What it does is
compared with what it is to compute, which is said without the table (`Program.explore`,
`Program.disjoinPaths`): it fails in the same way, otherwise the entry it returns has the formula as
its tree, and in either case it has only added expressions (`Follows`). This composes along `do`, so
there is one statement for each of its parts; the search itself is by induction on its depth, and
within a block by induction on the targets of the goto.

Main statements: `follows_search` and `follows_relation`.
-/

namespace AtomicMovers

open Program

/-! ## Computations that follow others -/

/-- The computation adds expressions only. It fails as `spec` does, and otherwise its result is
related to that of `spec`. -/
structure Follows {α β : Type} (p : Program) (m : Build β) (spec : Except Error α)
    (Q : α → β → Program → Prop) : Prop where
  adds : p.AddsExprs (m.run p).2
  closed : (m.run p).2.Closed
  error : ∀ x, spec = .error x → (m.run p).1 = .error x
  ok : ∀ a, spec = .ok a → ∃ b, (m.run p).1 = .ok b ∧ Q a b (m.run p).2

namespace Follows

variable {α β γ δ : Type} {p : Program} {m : Build β} {spec : Except Error α}
  {Q : α → β → Program → Prop}

theorem pure (hp : p.Closed) {a : α} {b : β} (h : Q a b p) : Follows p (Pure.pure b) (.ok a) Q where
  adds := .refl p
  closed := hp
  error x hx := by cases hx
  ok a' ha' := by
    cases ha'
    exact ⟨b, rfl, h⟩

theorem throw (hp : p.Closed) (x : Error) : Follows p (MonadExcept.throw x) (.error x) Q where
  adds := .refl p
  closed := hp
  error y hy := by
    cases hy
    rfl
  ok a ha := by cases ha

/-- A step that cannot fail. -/
theorem lift {m : StateM Program β} {a : α}
    (h : Yields p m fun b q => p.AddsExprs q ∧ Q a b q) : Follows p (liftM m) (.ok a) Q where
  adds := h.post.1
  closed := h.closed
  error x hx := by cases hx
  ok a' ha' := by
    cases ha'
    exact ⟨_, rfl, h.post.2⟩

theorem bind {f : β → Build δ} {g : α → Except Error γ} {R : γ → δ → Program → Prop}
    (h : Follows p m spec Q)
    (hf : ∀ a b q, p.AddsExprs q → q.Closed → Q a b q → Follows q (f b) (g a) R) :
    Follows p (m >>= f) (spec >>= g) R := by
  obtain ⟨adds, closed, error, ok⟩ := h
  have run := bind_run m f p
  generalize m.run p = result at *
  obtain ⟨r, q⟩ := result
  cases spec with
  | error x =>
    obtain rfl : r = .error x := error x rfl
    exact ⟨by rw [run]; exact adds, by rw [run]; exact closed, fun y hy => by cases hy; rw [run],
      fun c hc => by cases hc⟩
  | ok a =>
    obtain ⟨b, rfl, hab⟩ := ok a rfl
    have k := hf a b q adds closed hab
    exact ⟨by rw [run]; exact adds.trans k.adds, by rw [run]; exact k.closed,
      fun y hy => by rw [run]; exact k.error y hy, fun c hc => by rw [run]; exact k.ok c hc⟩

theorem get_bind {f : Program → Build β} (h : Follows p (f p) spec Q) :
    Follows p (get >>= f) spec Q :=
  ⟨h.adds, h.closed, h.error, h.ok⟩

/-- What the result of `spec` is made into. -/
theorem map {g : α → γ} {R : γ → β → Program → Prop} (h : Follows p m spec Q)
    (hR : ∀ a b q, Q a b q → R (g a) b q) :
    Follows p m (spec >>= fun a => Pure.pure (g a)) R := by
  rw [← bind_pure m]
  exact h.bind fun a b q _ hq hab => .pure hq (hR a b q hab)

theorem attempts (h : Follows p m spec Q) :
    Attempts p m fun b q => ∃ a, spec = .ok a ∧ p.AddsExprs q ∧ Q a b q := by
  refine ⟨h.adds.toExtends, h.closed, fun b hb => ?_⟩
  cases spec with
  | error x =>
    rw [h.error x rfl] at hb
    cases hb
  | ok a =>
    obtain ⟨b', hb', hab⟩ := h.ok a rfl
    rw [hb'] at hb
    cases hb
    exact ⟨a, rfl, h.adds, hab⟩

theorem run_of_error {x : Error} (h : Follows p m (.error x : Except Error α) Q) :
    ∃ q, m.run p = (.error x, q) ∧ p.AddsExprs q :=
  ⟨_, Prod.ext (h.error x rfl) rfl, h.adds⟩

theorem exists_run {a : α} (h : Follows p m (.ok a) Q) : ∃ b q, m.run p = (.ok b, q) := by
  obtain ⟨b, hb, -⟩ := h.ok a rfl
  exact ⟨b, _, Prod.ext hb rfl⟩

end Follows

/-! ## What does not depend on later expressions -/

section AddsExprs

variable {p q : Program}

theorem Program.AddsExprs.block_eq (h : p.AddsExprs q) (b : BlockRef) : q.block b = p.block b := by
  rw [Program.block, Program.block, h.blocks_eq]

theorem Program.AddsExprs.commands_eq (h : p.AddsExprs q) (hp : p.Closed) (b : BlockRef) :
    q.commands b = p.commands b := by
  by_cases hb : p.HasBlock b
  · exact h.toExtends.commands_eq hp hb
  · -- there is nothing in a block that is not there
    have none : p.block b = default := by
      rw [Program.block, Array.getD_eq_getD_getElem?, Array.getElem?_eq_none (Nat.not_lt.1 hb)]
      rfl
    rw [Program.commands, Program.commands, h.block_eq, none]
    rfl

theorem blockFormula_addsExprs (h : p.AddsExprs q) (hp : p.Closed) :
    q.blockFormula = p.blockFormula := by
  funext after b
  rw [blockFormula, blockFormula, h.commands_eq hp]

theorem disjoinPaths_addsExprs (h : p.AddsExprs q) (hp : p.Closed) :
    q.disjoinPaths = p.disjoinPaths := by
  funext frame relation paths
  simp only [disjoinPaths, pathFormula, blockFormula_addsExprs h hp]

theorem explore_addsExprs (h : p.AddsExprs q) (depth : Nat) :
    q.explore depth = p.explore depth := by
  induction depth with
  | zero =>
    funext next path b
    simp only [explore, h.block_eq]
  | succ depth ih =>
    funext next path b
    simp only [explore, completePath, h.block_eq, ih]

end AddsExprs

/-! ## Conditions of paths -/

/-- The error that an assertion on a completing path is answered with. -/
def Program.checkBlock (p : Program) (b : BlockRef) : Except Error Unit :=
  if (p.block b).commands.any Command.isAssert then .error (.unsupportedAssert (p.block b).label)
  else .ok ()

theorem checkBlock_addsExprs {p q : Program} (h : p.AddsExprs q) : q.checkBlock = p.checkBlock := by
  funext b
  rw [checkBlock, checkBlock, h.block_eq]

section Paths

variable {p : Program} {after : ExprRef} {e : Expr}

theorem completePath_eq_forM (p : Program) (path : Path) :
    p.completePath path = path.forM p.checkBlock >>= fun _ => pure [path] := by
  have checks : path.forM p.checkBlock =
      (path.find? fun b => (p.block b).commands.any Command.isAssert).elim (.ok ())
        fun b => .error (.unsupportedAssert (p.block b).label) := by
    induction path with
    | nil => rfl
    | cons b path ih =>
      rw [List.forM, checkBlock, List.find?_cons]
      cases (p.block b).commands.any Command.isAssert with
      | true => rfl
      | false => exact ih
  rw [checks, completePath]
  cases path.find? fun b => (p.block b).commands.any Command.isAssert <;> rfl

theorem yields_newUnchanged (hp : p.Closed) {v : VarRef} (hv : p.HasVar v) :
    Yields p (newUnchanged v) fun r q => p.AddsExprs q ∧ q.HasTree r (unchanged v) := by
  unfold newUnchanged
  refine (yields_newVar hp hv).bind fun current q hpq hq ⟨adds, hcurrent⟩ => ?_
  refine (yields_newVar hq (hpq.within.hasVar hv)).bind fun prior r hqr hr ⟨adds', hprior⟩ => ?_
  refine (yields_newOld hr hprior).bind fun prior' s hrs hs ⟨adds'', hprior'⟩ => ?_
  exact (yields_newBinary hs .eq (hcurrent.extends hq (hqr.trans hrs)) hprior').weaken
    fun x t _ _ ⟨last, hx⟩ => ⟨adds.trans (adds'.trans (adds''.trans last)), hx⟩

theorem follows_newBackwards (hp : p.Closed) (label : String) {c : Command ExprRef}
    (hc : c.ValidIn p) (h : p.HasTree after e) :
    Follows p (newBackwards label after c)
      (if c.isAssert then .error (.unsupportedAssert label) else .ok ())
      fun _ r q => q.HasTree r ((c.map p.expr).backwards e) := by
  cases c with
  | assert x => exact .throw hp _
  | assume x =>
    have assumption : p.HasTree x (p.expr x) := ⟨hc.exprs x (by simp [Command.exprs]), rfl⟩
    show Follows p _ (Except.ok () >>= fun _ => Except.ok ()) _
    have old : Follows p (newNode (.old x) : Build ExprRef) (.ok ()) fun _ r q =>
        q.HasTree r (.old (p.expr x)) := .lift (yields_newOld hp assumption)
    refine old.bind fun _ r q adds hq hr => ?_
    exact .lift (yields_newBinary hq .and hr (h.extends hp adds.toExtends))
  | assign updates =>
    have valid : (TwoState.inPrior (Substitution.ofList updates)).ValidIn p.exprs := by
      intro m u hu
      cases m with
      | current => cases hu
      | prior => exact hc.exprs u.2 (List.mem_map.2 ⟨u, List.mem_reverse.1 hu, rfl⟩)
    have trees : (TwoState.inPrior (Substitution.ofList updates)).map p.expr =
        .inPrior (Substitution.ofList (updates.map fun u => (u.1, p.expr u.2))) := by
      simp only [TwoState.map, TwoState.inPrior, Substitution.ofList, List.map_reverse, List.map_nil]
    have k := yields_subst hp valid h
    rw [trees] at k
    exact .lift k

/-- The commands of a block, from the last to the first. -/
theorem follows_commands (hp : p.Closed) (label : String) {cs : List (Command ExprRef)}
    (hcs : ∀ c ∈ cs, c.ValidIn p) (h : p.HasTree after e) :
    Follows p (cs.foldrM (fun c after => newBackwards label after c) after)
      (if cs.any Command.isAssert then .error (.unsupportedAssert label) else .ok ())
      fun _ r q =>
        q.HasTree r ((cs.map (Command.map p.expr)).foldr (fun c after => c.backwards after) e) := by
  induction cs with
  | nil => exact .pure hp h
  | cons c cs ih =>
    rw [List.forall_mem_cons] at hcs
    have outcome : (if (c :: cs).any Command.isAssert then
          Except.error (.unsupportedAssert label) else .ok ()) =
        (if cs.any Command.isAssert then Except.error (Error.unsupportedAssert label)
          else .ok ()) >>= fun _ =>
          if c.isAssert then .error (.unsupportedAssert label) else .ok () := by
      rw [List.any_cons]
      cases c.isAssert <;> cases cs.any Command.isAssert <;> rfl
    rw [outcome, List.foldrM_cons, List.map_cons, List.foldr_cons]
    refine (ih hcs.2).bind fun _ r q adds hq hr => ?_
    -- the expressions of the command are older, so their trees are the same
    have same : c.map q.expr = c.map p.expr :=
      Command.map_congr fun x hx => adds.toExtends.expr_eq hp (hcs.1.exprs x hx)
    rw [← same]
    exact follows_newBackwards hq label (hcs.1.mono adds.toExtends.within) hr

theorem follows_newBlockCondition (hp : p.Closed) (b : BlockRef) (h : p.HasTree after e) :
    Follows p (newBlockCondition after b) (p.checkBlock b)
      fun _ r q => q.HasTree r (p.blockFormula e b) := by
  refine Follows.get_bind (follows_commands hp (p.block b).label ?_ h)
  intro c hc
  by_cases hb : p.HasBlock b
  · exact (hp.block hb).commands c hc
  · rw [Program.block, Array.getD_eq_getD_getElem?, Array.getElem?_eq_none (Nat.not_lt.1 hb)] at hc
    cases hc

/-- The blocks of a path, from the last to the first. -/
theorem follows_blockConditions (hp : p.Closed) (path : Path) (h : p.HasTree after e) :
    Follows p (path.foldlM newBlockCondition after) (path.forM p.checkBlock)
      fun _ r q => q.HasTree r (path.foldl p.blockFormula e) := by
  induction path generalizing p after e with
  | nil => exact .pure hp h
  | cons b path ih =>
    rw [List.foldlM_cons, List.forM]
    refine (follows_newBlockCondition hp b h).bind fun _ r q adds hq hr => ?_
    rw [List.foldl_cons, ← checkBlock_addsExprs adds, ← blockFormula_addsExprs adds hp]
    rw [← blockFormula_addsExprs adds hp] at hr
    exact ih hq hr

variable {frame : List VarRef}

/-- A path is completed by its condition, which becomes a disjunct. -/
theorem follows_completePath (hp : p.Closed) (hframe : ∀ v ∈ frame, p.HasVar v) {path : Path}
    {relation : ExprRef} (h : p.HasTree relation e) :
    Follows p
      (newPathCondition frame path >>= fun condition => newNode (.binary .or relation condition))
      (p.completePath path) fun found r q => q.HasTree r (p.disjoinPaths frame e found) := by
  have start : Follows p (newConjunction newUnchanged frame : Build ExprRef) (.ok ())
      fun _ r q => q.HasTree r (frameFormula frame) :=
    .lift (yields_newConjunction hp fun v hv q hpq hq =>
      yields_newUnchanged hq (hpq.toExtends.within.hasVar (hframe v hv)))
  have condition : Follows p (newPathCondition frame path) (path.forM p.checkBlock)
      fun _ r q => q.HasTree r (p.pathFormula frame path) := by
    show Follows p _ (Except.ok () >>= fun _ => path.forM p.checkBlock) _
    refine start.bind fun _ r q adds hq hr => ?_
    rw [← checkBlock_addsExprs adds, pathFormula, ← blockFormula_addsExprs adds hp]
    exact follows_blockConditions hq path hr
  rw [completePath_eq_forM]
  exact condition.bind fun _ r q adds hq hr =>
    .lift (yields_newBinary hq .or (h.extends hp adds.toExtends) hr)

end Paths

/-! ## The search -/

section Search

variable {frame : List VarRef}

theorem disjoinPaths_append (p : Program) (frame : List VarRef) (relation : Expr)
    (paths paths' : List Path) :
    p.disjoinPaths frame relation (paths ++ paths') =
      p.disjoinPaths frame (p.disjoinPaths frame relation paths) paths' :=
  List.foldl_append

/-- Searches one after the other, each of which adds the paths that it finds. -/
theorem follows_foldlM {step : ExprRef → BlockRef → Build ExprRef}
    {found : BlockRef → Except Error (List Path)} {p : Program} (hp : p.Closed)
    (h : ∀ b q, p.AddsExprs q → q.Closed → ∀ relation e, q.HasTree relation e →
      Follows q (step relation b) (found b)
        fun paths r q' => q'.HasTree r (q.disjoinPaths frame e paths))
    (targets : List BlockRef) {relation : ExprRef} {e : Expr} (hrelation : p.HasTree relation e) :
    Follows p (targets.foldlM step relation) (targets.mapM found)
      fun founds r q => q.HasTree r (p.disjoinPaths frame e founds.flatten) := by
  induction targets generalizing p relation e with
  | nil => exact .pure hp hrelation
  | cons b bs ih =>
    rw [List.foldlM_cons, List.mapM_cons]
    refine (h b p (.refl p) hp relation e hrelation).bind fun paths r q adds hq hr => ?_
    refine (ih hq (fun c q' hqq' => h c q' (adds.trans hqq')) hr).map fun founds r' q' hr' => ?_
    rwa [disjoinPaths_addsExprs adds hp, ← disjoinPaths_append, ← List.flatten_cons] at hr'

/-- The search adds the conditions of the completing paths, and fails if and as looking for these
paths does. -/
theorem follows_search (depth : Nat) {p : Program} (hp : p.Closed)
    (hframe : ∀ v ∈ frame, p.HasVar v) (next : Option BlockRef) (path : Path) (b : BlockRef)
    {relation : ExprRef} {e : Expr} (h : p.HasTree relation e) :
    Follows p (search frame depth next path b relation) (p.explore depth next path b)
      fun found r q => q.HasTree r (p.disjoinPaths frame e found) := by
  induction depth generalizing p next path b relation e with
  | zero => exact Follows.get_bind (.throw hp _)
  | succ depth ih =>
    unfold search explore
    apply Follows.get_bind
    dsimp only
    by_cases hb : b ∈ path
    · rw [if_pos hb, if_pos hb]
      exact .throw hp _
    · rw [if_neg hb, if_neg hb]
      cases (p.block b).transfer with
      | leave => exact .throw hp _
      | returnValue v =>
        cases next with
        | some entry => exact ih hp hframe none (b :: path) entry h
        | none => exact follows_completePath hp hframe h
      | goto targets =>
        refine (follows_foldlM hp (fun c q adds hq relation e h => ?_) targets h).map
          fun _ _ _ hr => hr
        have k := ih hq (fun v hv => adds.toExtends.within.hasVar (hframe v hv)) next (b :: path) c h
        rwa [explore_addsExprs adds] at k

/-- From nothing the search makes the formula of the paths. -/
theorem follows_relation {p : Program} (hp : p.Closed) (hframe : ∀ v ∈ frame, p.HasVar v)
    (next : Option BlockRef) (entry : BlockRef) :
    Follows p
      (newNode (.lit (.bool false)) >>= fun start : ExprRef =>
        search frame (p.blocks.size + 1) next [] entry start : Build ExprRef)
      (p.completingPaths entry next)
      fun paths r q => q.HasTree r (p.relationFormula frame paths) := by
  have start : Follows p (newNode (.lit (.bool false)) : Build ExprRef) (.ok ())
      fun _ r q => q.HasTree r .ff := .lift (yields_newLit hp (.bool false))
  show Follows p _ (Except.ok () >>= fun _ => p.completingPaths entry next) _
  refine start.bind fun _ r q adds hq hr => ?_
  have k := follows_search (p.blocks.size + 1) hq
    (fun v hv => adds.toExtends.within.hasVar (hframe v hv)) next [] entry hr
  rwa [explore_addsExprs adds, disjoinPaths_addsExprs adds hp] at k

end Search

end AtomicMovers
