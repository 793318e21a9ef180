import AtomicMovers.Proofs.ShadowRelation
import AtomicMovers.Proofs.TransitionRelation
import Mathlib.Logic.Relation

/-!
# When there is a transition relation

The shadow copy of one action, followed by the primary copy of another if one is given, form a graph
(`FlowsTo`): the gotos of the two copies, and the ways from the value returns of the one to the entry
of the other. The relation exists exactly if no cycle of this graph is reachable, no block that leaves
is reachable, and no block on a path to a last value return asserts anything; otherwise the failure
names a block where one of this is not so (`transition_succeeds_iff`).

* A failed search stands behind a walk through the graph (`Walk`), so what it complains about is
  reachable (`fault_of_explore`);
* a search that succeeds has gone everywhere: it is a finite derivation that branches as the graph
  does, so it passes by all that is reachable (`Passed.reaches`), and comes to an end (`acc_explored`).

The two copies have no block in common, so a block says which of the two actions is running. This is
what the stages of the search (`Stage`) are about.
-/

namespace AtomicMovers

open Program Relation

/-! ## The graph of two actions -/

section Graph

variable (p : Program) (first : Option AtomicAction) (second : AtomicAction)

/-- Control can go from one block to the other: along a goto of either copy, or from a value return of
the second action to the entry of the first. -/
inductive FlowsTo : BlockRef → BlockRef → Prop where
  | goto {b t : BlockRef} (hb : b ∈ transitionBlocks first second)
    (ht : t ∈ (p.block b).transfer.targets) : FlowsTo b t
  | handOver {a : AtomicAction} {b : BlockRef} (ha : a ∈ first) (hb : b ∈ second.shadow.blocks)
    (h : (p.block b).transfer.IsReturn) : FlowsTo b a.primary.entry

/-- Control can come to the block. -/
def Reached (b : BlockRef) : Prop := ReflTransGen (FlowsTo p first second) second.shadow.entry b

/-- Control can come from the block back to it. -/
def OnCycle (b : BlockRef) : Prop := TransGen (FlowsTo p first second) b b

/-- The block returns the value of the action that runs last. -/
def ReturnsLast (b : BlockRef) : Prop :=
  (p.block b).transfer.IsReturn ∧ ∀ a ∈ first, b ∈ a.primary.blocks

/-- Some path from the entry to a last value return goes through the block. -/
def OnCompletingPath (b : BlockRef) : Prop :=
  Reached p first second b ∧
    ∃ r, ReflTransGen (FlowsTo p first second) b r ∧ ReturnsLast p first r

/-- The failure names the label of a block that a relation cannot be computed with. -/
inductive TransitionFault : Error → Prop where
  | cycle {b : BlockRef} (reached : Reached p first second b) (h : OnCycle p first second b) :
    TransitionFault (.cyclicAction (p.block b).label)
  | leave {b : BlockRef} (reached : Reached p first second b)
    (h : (p.block b).transfer = .leave) :
    TransitionFault (.unrecognizedTransfer (p.block b).label)
  | assertion {b : BlockRef} (h : OnCompletingPath p first second b)
    (asserts : ∃ c ∈ (p.block b).commands, c.isAssert = true) :
    TransitionFault (.unsupportedAssert (p.block b).label)

/-- Control can go from the entry through the blocks of `path`, the last of which comes first, to the
block. -/
inductive Walk : Path → BlockRef → Prop where
  | entry : Walk [] second.shadow.entry
  | step {path : Path} {b c : BlockRef} (h : Walk path b) (hbc : FlowsTo p first second b c) :
    Walk (b :: path) c

/-- The stages of a search: it is among the blocks of the second action and goes on at the entry of
the first one, or it is among the blocks of the first. -/
inductive Stage : Option BlockRef → BlockRef → Prop where
  | second {b : BlockRef} (hb : b ∈ second.shadow.blocks) : Stage (transitionNext first) b
  | first {a : AtomicAction} {b : BlockRef} (ha : a ∈ first) (hb : b ∈ a.primary.blocks) :
    Stage none b

/-- The copies that a relation is about: closed under gotos and without common blocks. -/
structure Separated : Prop where
  closed : p.Closed
  shadow : second.shadow.ValidIn p
  primary : ∀ a ∈ first, a.primary.ValidIn p
  encloses_shadow : p.Encloses second.shadow.blocks
  encloses_primary : ∀ a ∈ first, p.Encloses a.primary.blocks
  apart : ∀ a ∈ first, a.primary.blocks.Disjoint second.shadow.blocks

end Graph

section

variable {p : Program} {first : Option AtomicAction} {second : AtomicAction} {path : Path}
  {next : Option BlockRef} {b c x : BlockRef}

/-! ## Walks -/

theorem Walk.reached (h : Walk p first second path b) : Reached p first second b := by
  induction h with
  | entry => exact .refl
  | step _ hbc ih => exact ih.tail hbc

/-- From every block of a walk control comes to its end. -/
theorem Walk.transGen (h : Walk p first second path b) (hx : x ∈ path) :
    TransGen (FlowsTo p first second) x b := by
  induction h with
  | entry => cases hx
  | step _ hbc ih =>
    rcases List.mem_cons.1 hx with rfl | hx
    · exact .single hbc
    · exact (ih hx).tail hbc

theorem Walk.reached_of_mem (h : Walk p first second path b) (hx : x ∈ b :: path) :
    Reached p first second x := by
  induction h with
  | entry =>
    rw [List.mem_singleton.1 hx]
    exact .refl
  | step h hbc ih =>
    rcases List.mem_cons.1 hx with rfl | hx
    · exact (h.step hbc).reached
    · exact ih hx

/-! ## Stages -/

theorem Stage.mem (h : Stage first second next b) : b ∈ transitionBlocks first second := by
  cases h with
  | second hb => exact List.mem_append.2 (.inl hb)
  | first ha hb =>
    cases ha
    exact List.mem_append.2 (.inr hb)

/-- A goto does not change the stage. -/
theorem Stage.goto (sep : Separated p first second) (h : Stage first second next b)
    (hc : c ∈ (p.block b).transfer.targets) :
    FlowsTo p first second b c ∧ Stage first second next c := by
  refine ⟨.goto h.mem hc, ?_⟩
  cases h with
  | second hb => exact .second (sep.encloses_shadow b hb c hc)
  | first ha hb => exact .first ha (sep.encloses_primary _ ha b hb c hc)

/-- A value return of the second action leads to the first one. -/
theorem Stage.handOver (sep : Separated p first second) {entry : BlockRef}
    (h : Stage first second (some entry) b) (hb : (p.block b).transfer.IsReturn) :
    FlowsTo p first second b entry ∧ Stage first second none entry := by
  generalize hnext : some entry = next at h
  cases h with
  | second hmem =>
    cases first with
    | none => cases hnext
    | some a =>
      cases hnext
      exact ⟨.handOver rfl hmem hb, .first rfl (Replica.entry_mem (sep.primary a rfl).nonempty)⟩
  | first ha hmem => cases hnext

/-- A value return behind which nothing comes is one of the action that runs last. -/
theorem Stage.returnsLast (h : Stage first second none b) (hb : (p.block b).transfer.IsReturn) :
    ReturnsLast p first b := by
  refine ⟨hb, ?_⟩
  generalize hnext : none = next at h
  cases h with
  | second hmem =>
    cases first with
    | none => simp
    | some a => cases hnext
  | first ha hmem =>
    cases ha
    rintro _ ⟨⟩
    exact hmem

theorem Stage.eq_none (sep : Separated p first second) (h : Stage first second next b)
    (hb : ReturnsLast p first b) : next = none := by
  cases h with
  | first ha hmem => rfl
  | second hmem =>
    cases first with
    | none => rfl
    | some a => exact absurd hmem (sep.apart a rfl (hb.2 a rfl))

/-- What control can do at a block of either stage. -/
theorem Stage.flowsTo_cases (sep : Separated p first second) (h : Stage first second next b)
    (hbc : FlowsTo p first second b c) :
    (c ∈ (p.block b).transfer.targets ∧ Stage first second next c) ∨
      ((p.block b).transfer.IsReturn ∧ next = some c ∧ Stage first second none c) := by
  cases hbc with
  | goto _ hc => exact .inl ⟨hc, (h.goto sep hc).2⟩
  | @handOver a _ ha hb hreturn =>
    cases ha
    have hnext : next = transitionNext (some a) := by
      cases h with
      | second _ => rfl
      | first ha hmem =>
        cases ha
        exact absurd hb (sep.apart a rfl hmem)
    subst hnext
    exact .inr ⟨hreturn, rfl, (h.handOver sep hreturn).2⟩

/-! ## Failures -/

theorem mapM_eq_error {α β : Type} {f : α → Except Error β} {as : List α} {e : Error}
    (h : as.mapM f = .error e) : ∃ a ∈ as, f a = .error e := by
  induction as with
  | nil => cases h
  | cons a as ih =>
    rw [List.mapM_cons] at h
    cases ha : f a with
    | error x =>
      rw [ha] at h
      cases h
      exact ⟨a, List.mem_cons_self, ha⟩
    | ok y =>
      cases has : as.mapM f with
      | error x =>
        rw [ha, has] at h
        cases h
        obtain ⟨d, hd, hfd⟩ := ih has
        exact ⟨d, List.mem_cons_of_mem a hd, hfd⟩
      | ok ys =>
        rw [ha, has] at h
        cases h

/-- Different blocks of a program are no more than it has. -/
theorem length_le_of_hasBlock (nodup : path.Nodup) (hpath : ∀ x ∈ path, p.HasBlock x) :
    path.length ≤ p.blocks.size := by
  have indices : (path.map BlockRef.index).Nodup :=
    nodup.map fun b c heq => by cases b; cases c; cases heq; rfl
  have range : path.map BlockRef.index ⊆ List.range p.blocks.size := by
    intro i hi
    obtain ⟨x, hx, rfl⟩ := List.mem_map.1 hi
    exact List.mem_range.2 (hpath x hx)
  simpa using (List.subperm_of_subset indices range).length_le

theorem Separated.hasBlock (sep : Separated p first second)
    (hb : b ∈ transitionBlocks first second) : p.HasBlock b := by
  rcases List.mem_append.1 hb with hb | hb
  · exact sep.shadow.blocks b hb
  · cases first with
    | none => cases hb
    | some a => exact (sep.primary a rfl).blocks b hb

/-- A path that does not complete has a block with an assertion. -/
theorem completePath_eq_error {e : Error} (h : p.completePath path = .error e) :
    ∃ x ∈ path, (∃ c ∈ (p.block x).commands, c.isAssert = true) ∧
      e = .unsupportedAssert (p.block x).label := by
  unfold completePath at h
  cases hfind : path.find? fun x => (p.block x).commands.any Command.isAssert with
  | none => rw [hfind] at h; cases h
  | some x =>
    rw [hfind] at h
    cases h
    have asserts := List.find?_some hfind
    exact ⟨x, List.mem_of_find?_eq_some hfind, List.any_eq_true.1 asserts, rfl⟩

/-- A search that fails has found a fault. -/
theorem fault_of_explore (sep : Separated p first second) {depth : Nat} {e : Error}
    (walk : Walk p first second path b) (stage : Stage first second next b) (nodup : path.Nodup)
    (hpath : ∀ x ∈ path, p.HasBlock x) (enough : p.blocks.size < depth + path.length)
    (h : p.explore depth next path b = .error e) : TransitionFault p first second e := by
  induction depth generalizing next path b with
  | zero =>
    have := length_le_of_hasBlock nodup hpath
    omega
  | succ depth ih =>
    unfold explore at h
    by_cases hb : b ∈ path
    · rw [if_pos hb] at h
      cases h
      exact .cycle walk.reached (walk.transGen hb)
    · rw [if_neg hb] at h
      -- the search goes on behind a longer walk
      have further {next' : Option BlockRef} {c : BlockRef} (hbc : FlowsTo p first second b c)
          (stage' : Stage first second next' c)
          (h' : p.explore depth next' (b :: path) c = .error e) :
          TransitionFault p first second e := by
        refine ih (walk.step hbc) stage' (List.nodup_cons.2 ⟨hb, nodup⟩)
          (List.forall_mem_cons.2 ⟨sep.hasBlock stage.mem, hpath⟩) ?_ h'
        rw [List.length_cons]
        omega
      cases htransfer : (p.block b).transfer with
      | leave =>
        rw [htransfer] at h
        cases h
        exact .leave walk.reached htransfer
      | returnValue v =>
        rw [htransfer] at h
        have returns : (p.block b).transfer.IsReturn := ⟨v, htransfer⟩
        cases next with
        | some entry =>
          obtain ⟨hbc, stage'⟩ := stage.handOver sep returns
          exact further hbc stage' h
        | none =>
          obtain ⟨x, hx, asserts, rfl⟩ := completePath_eq_error h
          refine .assertion ⟨walk.reached_of_mem hx, b, ?_, stage.returnsLast returns⟩ asserts
          rcases List.mem_cons.1 hx with rfl | hx
          · exact .refl
          · exact (walk.transGen hx).to_reflTransGen
      | goto targets =>
        rw [htransfer] at h
        cases hmap : targets.mapM (p.explore depth next (b :: path)) with
        | ok found => simp only [hmap] at h; cases h
        | error x =>
          simp only [hmap] at h
          cases h
          obtain ⟨c, hc, hfail⟩ := mapM_eq_error hmap
          obtain ⟨hbc, stage'⟩ := stage.goto sep (c := c) (by rw [htransfer]; exact hc)
          exact further hbc stage' hfail

/-! ## Success -/

/-- The search comes by the block behind the path, and succeeds there. -/
def Passed (p : Program) (first : Option AtomicAction) (second : AtomicAction) (path : Path)
    (b : BlockRef) : Prop :=
  ∃ next found, Stage first second next b ∧ p.Explored next path b found

/-- A search that comes by a block comes by all that control can go to from there. -/
theorem Passed.step (sep : Separated p first second) (h : Passed p first second path b)
    (hbc : FlowsTo p first second b c) : Passed p first second (b :: path) c := by
  obtain ⟨next, found, stage, explored⟩ := h
  rcases stage.flowsTo_cases sep hbc with ⟨hc, stage'⟩ | ⟨⟨v, hreturn⟩, rfl, stage'⟩
  · cases explored with
    | handOver h _ => rw [h] at hc; cases hc
    | complete h _ => rw [h] at hc; cases hc
    | branch h rest =>
      rw [h] at hc
      obtain ⟨u, hu, rfl⟩ := List.mem_map.1 hc
      exact ⟨next, u.2, stage', rest u hu⟩
  · cases explored with
    | handOver _ rest => exact ⟨none, found, stage', rest⟩
    | branch h _ => rw [h] at hreturn; cases hreturn

/-- A search that comes by a block comes by all that is reachable from there, behind longer paths. -/
theorem Passed.reaches (sep : Separated p first second) (h : Passed p first second path b)
    (hbc : ReflTransGen (FlowsTo p first second) b c) :
    ∃ path', Passed p first second path' c ∧ ∀ x ∈ b :: path, x ∈ c :: path' := by
  induction hbc with
  | refl => exact ⟨path, h, fun _ hx => hx⟩
  | tail _ hcd ih =>
    obtain ⟨path', passed, longer⟩ := ih
    exact ⟨_, passed.step sep hcd, fun x hx => List.mem_cons_of_mem _ (longer x hx)⟩

theorem Passed.ne_leave (h : Passed p first second path b) : (p.block b).transfer ≠ .leave := by
  obtain ⟨_, _, _, explored⟩ := h
  cases explored with
  | handOver h _ => rw [h]; simp
  | complete h _ => rw [h]; simp
  | branch h _ => rw [h]; simp

/-- At a last value return the path behind it is free of assertions. -/
theorem Passed.assertFree (sep : Separated p first second) (h : Passed p first second path b)
    (hb : ReturnsLast p first b) :
    ∀ x ∈ b :: path, ∀ c ∈ (p.block x).commands, c.isAssert = false := by
  obtain ⟨next, found, stage, explored⟩ := h
  obtain rfl := stage.eq_none sep hb
  obtain ⟨v, hreturn⟩ := hb.1
  cases explored with
  | complete _ assertFree => exact assertFree
  | branch h _ => rw [h] at hreturn; cases hreturn

/-- Where a search succeeds control does not run on forever. -/
theorem acc_explored (sep : Separated p first second) {found : List Path}
    (h : p.Explored next path b found) (stage : Stage first second next b) :
    Acc (fun c b => FlowsTo p first second b c) b := by
  -- the derivation branches as the graph does, and is finite
  induction h with
  | @handOver entry b path e found h rest ih =>
    refine .intro b fun c hbc => ?_
    rcases stage.flowsTo_cases sep hbc with ⟨hc, _⟩ | ⟨_, hnext, stage'⟩
    · rw [h] at hc
      cases hc
    · cases hnext
      exact ih stage'
  | @complete b path e h _ =>
    refine .intro b fun c hbc => ?_
    rcases stage.flowsTo_cases sep hbc with ⟨hc, _⟩ | ⟨_, hnext, _⟩
    · rw [h] at hc
      cases hc
    · cases hnext
  | @branch next b path found h rest ih =>
    refine .intro b fun c hbc => ?_
    rcases stage.flowsTo_cases sep hbc with ⟨hc, stage'⟩ | ⟨⟨v, hreturn⟩, _, _⟩
    · rw [h] at hc
      obtain ⟨u, hu, rfl⟩ := List.mem_map.1 hc
      exact ih u hu stage'
    · rw [h] at hreturn
      cases hreturn

theorem not_transGen_of_acc {α : Type} {r : α → α → Prop} {a : α} (h : Acc (fun c b => r b c) a)
    {c : α} (hac : ReflTransGen r a c) : ¬TransGen r c c := by
  induction h generalizing c with
  | intro a _ ih =>
    rcases hac.cases_head with rfl | ⟨d, had, hdc⟩
    · -- the cycle can be entered at its second element
      intro cycle
      obtain ⟨d, had, hda⟩ := TransGen.head'_iff.1 cycle
      exact ih d had .refl (TransGen.tail' hda had)
    · exact ih d had hdc

/-! ## The search ends -/

theorem mapM_congr_left {α β : Type} {f g : α → Except Error β} {as : List α}
    (h : ∀ a ∈ as, f a = g a) : as.mapM f = as.mapM g := by
  induction as with
  | nil => rfl
  | cons a as ih =>
    rw [List.forall_mem_cons] at h
    rw [List.mapM_cons, List.mapM_cons, h.1, ih h.2]

/-- A search that has more depth than there are blocks left does not use it up. -/
theorem explore_depth (hp : p.Closed) {depth depth' : Nat} (nodup : path.Nodup)
    (hpath : ∀ x ∈ path, p.HasBlock x) (hb : p.HasBlock b)
    (hnext : ∀ entry ∈ next, p.HasBlock entry) (enough : p.blocks.size < depth + path.length)
    (enough' : p.blocks.size < depth' + path.length) :
    p.explore depth next path b = p.explore depth' next path b := by
  have short := length_le_of_hasBlock nodup hpath
  induction depth generalizing depth' next path b with
  | zero => omega
  | succ depth ih =>
    obtain _ | depth' := depth'
    · omega
    · unfold explore
      by_cases hmem : b ∈ path
      · rw [if_pos hmem, if_pos hmem]
      · rw [if_neg hmem, if_neg hmem]
        have nodup' : (b :: path).Nodup := List.nodup_cons.2 ⟨hmem, nodup⟩
        have hpath' : ∀ x ∈ b :: path, p.HasBlock x := List.forall_mem_cons.2 ⟨hb, hpath⟩
        have further {next' : Option BlockRef} {c : BlockRef} (hc : p.HasBlock c)
            (hnext' : ∀ entry ∈ next', p.HasBlock entry) :
            p.explore depth next' (b :: path) c = p.explore depth' next' (b :: path) c := by
          refine ih nodup' hpath' hc hnext' ?_ ?_ (length_le_of_hasBlock nodup' hpath')
          · rw [List.length_cons]
            omega
          · rw [List.length_cons]
            omega
        cases htransfer : (p.block b).transfer with
        | leave => rfl
        | returnValue v =>
          cases next with
          | none => rfl
          | some entry => exact further (hnext entry rfl) (by simp)
        | goto targets =>
          have targets_eq : ∀ c ∈ targets, p.explore depth next (b :: path) c =
              p.explore depth' next (b :: path) c := fun c hc =>
            further ((hp.block hb).transfer.targets c (by rw [htransfer]; exact hc)) hnext
          simp only [mapM_congr_left targets_eq]

/-- Steps that agree as long as `P` holds, which they keep, one after the other. -/
theorem foldlM_run_congr {α β : Type} {f g : β → α → Build β} {P : β → Program → Prop}
    {as : List α} (same : ∀ a ∈ as, ∀ b q, P b q → (f b a).run q = (g b a).run q)
    (keeps : ∀ a ∈ as, ∀ b q, P b q → ∀ b' q', (f b a).run q = (.ok b', q') → P b' q')
    {b : β} {q : Program} (h : P b q) : (as.foldlM f b).run q = (as.foldlM g b).run q := by
  induction as generalizing b q with
  | nil => rfl
  | cons a as ih =>
    rw [List.forall_mem_cons] at same keeps
    rw [List.foldlM_cons, List.foldlM_cons, bind_run, bind_run, ← same.1 b q h]
    have kept := keeps.1 b q h
    generalize (f b a).run q = result at *
    obtain ⟨_ | b', q'⟩ := result
    · rfl
    · exact ih same.2 keeps.2 (kept b' q' rfl)

/-- The search that makes the relation does not use the depth up either. -/
theorem search_depth (hp : p.Closed) {frame : List VarRef} (hframe : ∀ v ∈ frame, p.HasVar v)
    {depth depth' : Nat} {q : Program} (adds : p.AddsExprs q) (hq : q.Closed) (nodup : path.Nodup)
    (hpath : ∀ x ∈ path, p.HasBlock x) (hb : p.HasBlock b)
    (hnext : ∀ entry ∈ next, p.HasBlock entry) (enough : p.blocks.size < depth + path.length)
    (enough' : p.blocks.size < depth' + path.length) {relation : ExprRef}
    (hrelation : q.HasExpr relation) :
    (search frame depth next path b relation).run q =
      (search frame depth' next path b relation).run q := by
  have short := length_le_of_hasBlock nodup hpath
  induction depth generalizing depth' next path b q relation with
  | zero => omega
  | succ depth ih =>
    obtain _ | depth' := depth'
    · omega
    · unfold search
      rw [read_bind_run, read_bind_run]
      dsimp only
      rw [adds.block_eq]
      by_cases hmem : b ∈ path
      · rw [if_pos hmem, if_pos hmem]
      · rw [if_neg hmem, if_neg hmem]
        have nodup' : (b :: path).Nodup := List.nodup_cons.2 ⟨hmem, nodup⟩
        have hpath' : ∀ x ∈ b :: path, p.HasBlock x := List.forall_mem_cons.2 ⟨hb, hpath⟩
        -- expressions that were added meanwhile do not matter
        have further {next' : Option BlockRef} {c : BlockRef} {r : Program} {relation : ExprRef}
            (adds : p.AddsExprs r) (hr : r.Closed) (hc : p.HasBlock c)
            (hnext' : ∀ entry ∈ next', p.HasBlock entry) (hrelation : r.HasExpr relation) :
            (search frame depth next' (b :: path) c relation).run r =
              (search frame depth' next' (b :: path) c relation).run r := by
          refine ih adds hr nodup' hpath' hc hnext' ?_ ?_ hrelation
            (length_le_of_hasBlock nodup' hpath')
          · rw [List.length_cons]
            omega
          · rw [List.length_cons]
            omega
        cases htransfer : (p.block b).transfer with
        | leave => rfl
        | returnValue v =>
          cases next with
          | none => rfl
          | some entry => exact further adds hq (hnext entry rfl) (by simp) hrelation
        | goto targets =>
          have valid : ∀ c ∈ targets, p.HasBlock c := fun c hc =>
            (hp.block hb).transfer.targets c (by rw [htransfer]; exact hc)
          refine foldlM_run_congr (P := fun x r => p.AddsExprs r ∧ r.Closed ∧ r.HasExpr x)
            (fun c hc x r h => further h.1 h.2.1 (valid c hc) hnext h.2.2)
            (fun c hc x r h x' r' run => ?_) ⟨adds, hq, hrelation⟩
          obtain ⟨adds, hr, hx⟩ := h
          have searched := follows_search depth hr
            (fun v hv => adds.toExtends.within.hasVar (hframe v hv)) next (b :: path) c ⟨hx, rfl⟩
          obtain ⟨-, hr', _, -, adds', hx'⟩ := searched.attempts.of_run run
          exact ⟨adds.trans adds', hr', hx'.1⟩

/-! ## Relations -/

theorem Separated.stage (sep : Separated p first second) :
    Stage first second (transitionNext first) second.shadow.entry :=
  .second (Replica.entry_mem sep.shadow.nonempty)

/-- The search for completing paths succeeds or finds a fault. -/
theorem fault_of_completingPaths (sep : Separated p first second) {e : Error}
    (h : p.completingPaths second.shadow.entry (transitionNext first) = .error e) :
    TransitionFault p first second e :=
  fault_of_explore sep .entry sep.stage List.nodup_nil (by simp) (by simp) h

/-- The copies of actions under construction. -/
theorem Assembly.Sound.separated {base : Program} {actions : List AtomicAction}
    (h : Assembly.Sound base p actions) (hf : ∀ a ∈ first, a ∈ actions) (hs : second ∈ actions) :
    Separated p first second where
  closed := h.closed
  shadow := (h.validIn hs).shadow
  primary a ha := (h.validIn (hf a ha)).primary
  encloses_shadow := encloses_shadow (h.built second hs)
  encloses_primary a ha := encloses_primary h.grows (h.built a (hf a ha))
  apart a ha := (copies_apart (h.built a (hf a ha)) (h.built second hs)).2

end

/-- The transition relation of one or two actions exists exactly if no cycle and no block that leaves
is reachable and no block on a completing path asserts anything. Otherwise the failure is about a block
where one of this is not so, and the program has got more expressions at most. The search ends by
itself: it is not cut off by the depth that it is given. -/
theorem transition_succeeds_iff {base p : Program} {actions : List AtomicAction}
    (hbase : base.Closed) (assembly : Assembly base p actions) {first : Option AtomicAction}
    {second : AtomicAction} (hf : ∀ a ∈ first, a ∈ actions) (hs : second ∈ actions) :
    (∀ a ∈ first, a.primary.blocks.Disjoint second.shadow.blocks) ∧
    (∀ depth, p.blocks.size < depth →
      p.explore depth (transitionNext first) [] second.shadow.entry =
        p.completingPaths second.shadow.entry (transitionNext first)) ∧
    (∀ depth start, p.blocks.size < depth → p.HasExpr start →
      (search (transitionFrame first second p) depth (transitionNext first) []
          second.shadow.entry start).run p =
        (search (transitionFrame first second p) (p.blocks.size + 1) (transitionNext first) []
          second.shadow.entry start).run p) ∧
    ((∃ e q, (transition first second).run p = (.ok e, q)) ↔
      (∀ b, Reached p first second b → ¬OnCycle p first second b) ∧
      (∀ b, Reached p first second b → (p.block b).transfer ≠ .leave) ∧
      ∀ b, OnCompletingPath p first second b →
        ∀ c ∈ (p.block b).commands, c.isAssert = false) ∧
    ((¬∃ e q, (transition first second).run p = (.ok e, q)) →
      ∃ x q, (transition first second).run p = (.error x, q) ∧ p.AddsExprs q ∧
        TransitionFault p first second x) := by
  have sound := assembly.sound hbase
  have sep := sound.separated hf hs
  have hp := sep.closed
  have frame := (hasVar_of_mem_transition hp first sep.primary sep.shadow).2
  have hentry := sep.hasBlock sep.stage.mem
  have hnext : ∀ entry ∈ transitionNext first, p.HasBlock entry := fun entry hentry =>
    sep.hasBlock (next_mem_transition (fun a ha => (sep.primary a ha).nonempty) entry hentry)
  refine ⟨sep.apart, fun depth hdepth => explore_depth hp List.nodup_nil (by simp) hentry hnext
    hdepth (by simp), fun depth start hdepth hstart => search_depth hp frame (.refl p) hp
    List.nodup_nil (by simp) hentry hnext hdepth (by simp) hstart, ?_⟩
  cases hpaths : p.completingPaths second.shadow.entry (transitionNext first) with
  | error x =>
    obtain ⟨q, failed, adds⟩ := transition_run_of_error hp frame hpaths
    have fault := fault_of_completingPaths sep hpaths
    have none : ¬∃ e q, (transition first second).run p = (.ok e, q) := by
      rw [failed]
      rintro ⟨_, _, h⟩
      cases h
    refine ⟨⟨fun h => absurd h none, fun ⟨acyclic, stays, assertFree⟩ => ?_⟩,
      fun _ => ⟨x, q, failed, adds, fault⟩⟩
    cases fault with
    | cycle reached cycle => exact absurd cycle (acyclic _ reached)
    | leave reached leaves => exact absurd leaves (stays _ reached)
    | assertion completing asserts =>
      obtain ⟨c, hc, hassert⟩ := asserts
      rw [assertFree _ completing c hc] at hassert
      cases hassert
  | ok paths =>
    have done : ∃ e q, (transition first second).run p = (.ok e, q) :=
      exists_transition hp frame hpaths
    have explored := explored_of_explore hpaths
    have passed : Passed p first second [] second.shadow.entry := ⟨_, _, sep.stage, explored⟩
    refine ⟨⟨fun _ => ⟨fun b reached => ?_, fun b reached => ?_, fun b completing => ?_⟩,
      fun _ => done⟩, fun h => absurd done h⟩
    · exact not_transGen_of_acc (acc_explored sep explored sep.stage) reached
    · obtain ⟨path, hb, _⟩ := passed.reaches sep reached
      exact hb.ne_leave
    · obtain ⟨reached, r, hbr, hr⟩ := completing
      obtain ⟨path, hb, _⟩ := passed.reaches sep reached
      obtain ⟨path', hr', longer⟩ := hb.reaches sep hbr
      exact hr'.assertFree sep hr b (longer b List.mem_cons_self)

/-- Two deposits one after the other: the relation exists, so the graph is as it has to be. -/
theorem transition_succeeds_iff_deposit :
    (∀ b, Reached Account.registered (some Account.deposit) Account.deposit b →
        ¬OnCycle Account.registered (some Account.deposit) Account.deposit b) ∧
      (∀ b, Reached Account.registered (some Account.deposit) Account.deposit b →
        (Account.registered.block b).transfer ≠ .leave) ∧
      ∀ b, OnCompletingPath Account.registered (some Account.deposit) Account.deposit b →
        ∀ c ∈ (Account.registered.block b).commands, c.isAssert = false := by
  have run := eq_ok_of_isOk (x := (transition (some Account.deposit) Account.deposit).run
    Account.registered) (by decide +kernel)
  have hmem : Account.deposit ∈ [Account.deposit] := List.mem_singleton_self _
  have hfirst : ∀ a ∈ some Account.deposit, a ∈ [Account.deposit] := fun a ha =>
    Option.mem_some_iff.1 ha ▸ hmem
  have outcome := transition_succeeds_iff Account.closed Account.assembly hfirst hmem
  exact outcome.2.2.2.1.1 ⟨_, _, run⟩

end AtomicMovers
