import AtomicMovers.Proofs.RelationSearch
import AtomicMovers.Proofs.SymbolicExecution

/-!
# Transition relations

What the computed relation says (`holds_transition`): its locals can be given values with which a run
leads from the prior state to a state that agrees with the current one on globals and outputs. What it
binds is new or was bound in the commands of the actions (`binders_transition`).

The formula is computed in a program that goes on growing, so it is described once by how it was made
(`TransitionOf`), and its meaning is stated in every program that comes later.
-/

namespace AtomicMovers

open Program

/-! ## How relations are made -/

section

variable (first : Option AtomicAction) (second : AtomicAction)

/-- The relation `e` was made from the paths in `p`; its bound variables are new in `q`. -/
structure TransitionOf (p : Program) (e : Expr) (q : Program) : Prop where
  varsBelow : e.VarsBelow q.vars.size
  made : ∃ paths bound,
    p.Explored (transitionNext first) [] second.shadow.entry paths ∧
    FreshCopies (fun v => v.toBound v.copy) p (transitionLocals first second) bound q ∧
    e = Expr.existsAll bound ((p.relationFormula (transitionFrame first second p) paths).subst
      (.uniform (Substitution.renaming ((transitionLocals first second).zip bound))))

end

variable {first : Option AtomicAction} {second : AtomicAction} {p : Program}

theorem Expr.VarsBelow.mono {n k : Nat} (h : n ≤ k) {e : Expr} (he : e.VarsBelow n) :
    e.VarsBelow k :=
  fun x hx => Nat.lt_of_lt_of_le (he x hx) h

section

variable (hp : p.Closed) (frame : ∀ v ∈ transitionFrame first second p, p.HasVar v)

include hp frame

/-- The relation of actions whose variables the program has. -/
theorem attempts_transitionOf (locals : ∀ v ∈ transitionLocals first second, p.HasVar v) :
    Attempts p (transition first second) fun r q =>
      ∃ e, q.HasTree r e ∧ TransitionOf first second p e q := by
  unfold transition
  apply Attempts.get_bind
  rw [← bind_assoc]
  refine (follows_relation hp frame (transitionNext first) second.shadow.entry).attempts.bind
    fun relation q hpq hq ⟨paths, hpaths, _, hrelation⟩ => ?_
  refine Attempts.lift ((yields_bindLocals hq (fun v hv => hpq.within.hasVar (locals v hv))
    hrelation).weaken fun r q' hqq' hq' ⟨bound, hbound, hr⟩ => ?_)
  exact ⟨_, hr, hr.varsBelow hq', paths, bound, explored_of_explore hpaths,
    hbound.ofEarlier hpq locals, rfl⟩

/-- The relation fails as the search for the completing paths does. By then expressions were added. -/
theorem transition_run_of_error {x : Error}
    (h : p.completingPaths second.shadow.entry (transitionNext first) = .error x) :
    ∃ q, (transition first second).run p = (.error x, q) ∧ p.AddsExprs q := by
  have k := follows_relation hp frame (transitionNext first) second.shadow.entry
  rw [h] at k
  obtain ⟨q, run, adds⟩ := k.run_of_error
  exact ⟨q, by rw [transition, read_bind_run, ← bind_assoc, bind_run, run], adds⟩

theorem exists_transition {paths : List Path}
    (h : p.completingPaths second.shadow.entry (transitionNext first) = .ok paths) :
    ∃ r q, (transition first second).run p = (.ok r, q) := by
  have k := follows_relation hp frame (transitionNext first) second.shadow.entry
  rw [h] at k
  obtain ⟨relation, q, run⟩ := k.exists_run
  refine ⟨(bindLocals (transitionLocals first second) relation q).1,
    (bindLocals (transitionLocals first second) relation q).2, ?_⟩
  rw [transition, read_bind_run, ← bind_assoc, bind_run, run]
  rfl

end

/-! ## What relations say -/

/-- The relation depends on the commands along the paths. -/
theorem relationFormula_congr {q : Program} (frame : List VarRef) {paths : List Path}
    (same : ∀ π ∈ paths, ∀ b ∈ π, q.commands b = p.commands b) :
    q.relationFormula frame paths = p.relationFormula frame paths := by
  have path {π : Path} (hπ : ∀ b ∈ π, q.commands b = p.commands b) :
      q.pathFormula frame π = p.pathFormula frame π := by
    refine List.foldl_ext _ _ _ fun after b hb => ?_
    rw [blockFormula, blockFormula, hπ b hb]
  refine List.foldl_ext _ _ _ fun relation π hπ => ?_
  rw [path (same π hπ)]

/-- The formulas of paths are the same in a program that continues this one. -/
theorem relationFormula_extends {q : Program} (hp : p.Closed) (hpq : p.Extends q)
    (frame : List VarRef) {paths : List Path} (hpaths : ∀ π ∈ paths, ∀ b ∈ π, p.HasBlock b) :
    q.relationFormula frame paths = p.relationFormula frame paths :=
  relationFormula_congr frame fun π hπ b hb => hpq.commands_eq hp (hpaths π hπ b hb)

/-- The blocks `bs` hold what a relation of the two actions is about, and what they bind in `q` keeps
out of the way. -/
structure TransitionScoped (first : Option AtomicAction) (second : AtomicAction)
    (bs : List BlockRef) (q : Program) : Prop where
  encloses : q.Encloses bs
  entry : second.shadow.entry ∈ bs
  next : ∀ entry ∈ transitionNext first, entry ∈ bs
  binders : BindersApart (bs.flatMap q.commands)
  clear : ∀ x, (∃ c ∈ bs.flatMap q.commands, c.Binds x) → x ∉ transitionLocals first second
  apart : ∀ v ∈ transitionFrame first second q, v ∉ transitionLocals first second

/-- The blocks `bs` hold what a relation of the two actions is about, and can be executed in `q`. -/
structure TransitionReady (first : Option AtomicAction) (second : AtomicAction)
    (bs : List BlockRef) (q : Program) : Prop where
  encloses : q.Encloses bs
  entry : second.shadow.entry ∈ bs
  next : ∀ entry ∈ transitionNext first, entry ∈ bs
  executable : Executable (bs.flatMap q.commands)
  clear : ∀ x, (∃ c ∈ bs.flatMap q.commands, c.Binds x) → x ∉ transitionLocals first second
  apart : ∀ v ∈ transitionFrame first second q, v ∉ transitionLocals first second

theorem TransitionReady.toScoped {bs : List BlockRef} (h : TransitionReady first second bs p) :
    TransitionScoped first second bs p where
  encloses := h.encloses
  entry := h.entry
  next := h.next
  binders := h.executable.hygienic
  clear := h.clear
  apart := h.apart

section Later

variable {made q : Program} {e : Expr} {bs : List BlockRef}

/-- The relation that was made in `p`, as it is in a later program `q`. -/
theorem TransitionOf.later (hp : p.Closed) (h : TransitionOf first second p e made)
    (hpq : p.Extends q) (hbs : ∀ b ∈ bs, p.HasBlock b) (scope : TransitionScoped first second bs q)
    (frame : ∀ v ∈ transitionFrame first second p, p.HasVar v) :
    ∃ paths bound,
      q.Explored (transitionNext first) [] second.shadow.entry paths ∧
      (∀ π ∈ paths, ∀ b ∈ π, q.BlockWithin (bs.flatMap q.commands) b) ∧
      FreshCopies (fun v => v.toBound v.copy) p (transitionLocals first second) bound made ∧
      (q.relationFormula (transitionFrame first second q) paths).VarsBelow p.vars.size ∧
      e = Expr.existsAll bound ((q.relationFormula (transitionFrame first second q) paths).subst
        (.uniform (Substitution.renaming ((transitionLocals first second).zip bound)))) := by
  obtain ⟨paths, bound, hpaths, hbound, rfl⟩ := h.made
  have explored : q.Explored (transitionNext first) [] second.shadow.entry paths :=
    hpaths.extends hp hpq (hbs _ scope.entry) (fun b hb => hbs b (scope.next b hb)) (by simp)
  have blocks : ∀ π ∈ paths, ∀ b ∈ π, p.HasBlock b := fun π hπ b hb =>
    hbs b (mem_of_explored scope.encloses explored scope.entry scope.next (by simp) π hπ b hb)
  have formula : q.relationFormula (transitionFrame first second q) paths =
      p.relationFormula (transitionFrame first second p) paths := by
    rw [transitionFrame, hpq.globals_eq]
    exact relationFormula_extends hp hpq _ blocks
  -- whatever was added since, the paths and what they say have not changed
  refine ⟨paths, bound, explored, ?_, hbound, ?_, by rw [formula]⟩
  · exact blockWithin_of_explored scope.encloses
      (fun b hb c hc => List.mem_flatMap.2 ⟨b, hb, hc⟩) explored scope.entry scope.next
  · rw [formula]
    exact varsBelow_relationFormula hp frame paths

/-- A relation holds of two states if some run along one of the paths leads from the one to the
other. -/
theorem holds_transition_paths {D : Type} {I : Interpretation D} (hp : p.Closed)
    (h : TransitionOf first second p e made) (hpm : p.Extends made) (hmq : made.Extends q)
    (hbs : ∀ b ∈ bs, p.HasBlock b) (scope : TransitionScoped first second bs q)
    (locals : ∀ v ∈ transitionLocals first second, p.HasVar v)
    (frame : ∀ v ∈ transitionFrame first second p, p.HasVar v) :
    ∃ paths, q.Explored (transitionNext first) [] second.shadow.entry paths ∧
      (∀ π ∈ paths, ∀ b ∈ π, b ∈ bs) ∧
      ∀ s t : State D, e.Holds I q.tyOf s t ↔
        ∃ l, I.InRange q.tyOf (transitionLocals first second) l ∧
          ∃ m, (∃ π ∈ paths,
              q.AlongAfresh I π (s.override (transitionLocals first second) l) m) ∧
            State.AgreeOn (transitionFrame first second q) m t := by
  have hpq := hpm.trans hmq
  obtain ⟨paths, bound, explored, within, hbound, below, rfl⟩ := h.later hp hpq hbs scope frame
  refine ⟨paths, explored,
    mem_of_explored scope.encloses explored scope.entry scope.next (by simp), fun s t => ?_⟩
  rw [Expr.holds_bind_renaming hbound.length_eq hbound.nodup ?types ?fresh ?clear]
  case types =>
    intro u hu
    have hu' : p.HasVar u.1 := locals u.1 (List.of_mem_zip hu).1
    rw [tyOf, tyOf, (hbound.grows hmq).var_eq u hu, hpq.var_eq u.1 hu']
    rfl
  case fresh =>
    intro x hx
    exact ⟨fun h => hbound.fresh x hx (below x (.inl h)),
      fun h => hbound.fresh x hx (below x (.inr h))⟩
  case clear => exact fun x hx => scope.clear x (boundIn_relationFormula within _ x hx)
  -- the frame does not see the values of locals in the current state
  refine exists_congr fun l => and_congr_right fun _ => ?_
  rw [holds_relationFormula scope.binders within]
  refine exists_congr fun m => and_congr_right fun _ => forall₂_congr fun v hv => ?_
  rw [State.override_of_not_mem (scope.apart v hv)]

/-- A relation holds of two states if some run leads from the one to the other. -/
theorem holds_transition {D : Type} {I : Interpretation D} (start : State D) (hp : p.Closed)
    (h : TransitionOf first second p e made) (hpm : p.Extends made) (hmq : made.Extends q)
    (hbs : ∀ b ∈ bs, p.HasBlock b) (ready : TransitionReady first second bs q)
    (locals : ∀ v ∈ transitionLocals first second, p.HasVar v)
    (frame : ∀ v ∈ transitionFrame first second p, p.HasVar v) {s t : State D} :
    e.Holds I q.tyOf s t ↔
      ∃ l, I.InRange q.tyOf (transitionLocals first second) l ∧
        ∃ m, q.RunsTo I start (transitionNext first) second.shadow.entry
            (s.override (transitionLocals first second) l) m ∧
          State.AgreeOn (transitionFrame first second q) m t := by
  obtain ⟨paths, explored, within, holds⟩ :=
    holds_transition_paths (I := I) hp h hpm hmq hbs ready.toScoped locals frame
  rw [holds]
  refine exists_congr fun l => and_congr_right fun _ => exists_congr fun m =>
    and_congr_left fun _ => ?_
  -- without `old` it does not matter where a run has started
  have along : (∃ π ∈ paths,
      q.AlongAfresh I π (s.override (transitionLocals first second) l) m) ↔
        ∃ π ∈ paths, q.Along I start π (s.override (transitionLocals first second) l) m :=
    exists_congr fun π => and_congr_right fun hπ => alongAfresh_iff_of_oldFree fun b hb c hc =>
      ready.executable.oldFree c (List.mem_flatMap.2 ⟨b, within π hπ b hb, hc⟩)
  rw [along, exists_along_iff explored]
  simp [Along]

theorem mem_binders_existsAll {vs : List VarRef} {e : Expr} {x : VarRef}
    (h : x ∈ (Expr.existsAll vs e).binders) : x ∈ vs ∨ x ∈ e.binders := by
  cases vs with
  | nil => exact .inr h
  | cons v vs => exact List.mem_append.1 h

/-- A relation binds new variables, and what the commands of its blocks bind. -/
theorem binders_transition (hp : p.Closed) (h : TransitionOf first second p e made)
    (hpq : p.Extends q) (hbs : ∀ b ∈ bs, p.HasBlock b) (scope : TransitionScoped first second bs q)
    (frame : ∀ v ∈ transitionFrame first second p, p.HasVar v) {x : VarRef} (hx : x ∈ e.binders) :
    ¬p.HasVar x ∨ ∃ c ∈ bs.flatMap q.commands, c.Binds x := by
  obtain ⟨paths, bound, explored, within, hbound, _, rfl⟩ := h.later hp hpq hbs scope frame
  rcases mem_binders_existsAll hx with hx | hx
  · exact .inl (hbound.fresh x hx)
  · rcases Expr.mem_binders_substAt _ hx with hx | ⟨m, y, r, hr, hx⟩
    · exact .inr (boundIn_relationFormula within _ x hx)
    · obtain ⟨w, rfl, _⟩ := TwoState.during_renaming hr
      simp [Expr.binders] at hx

end Later

end AtomicMovers
