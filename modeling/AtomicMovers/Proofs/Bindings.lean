import AtomicMovers.Proofs.Operations
import AtomicMovers.Transition.Relation

/-!
# Variables that are put in the place of others

New variables are made in the place of known ones to keep two copies of the state apart, or to be
bound by a quantifier. Replacements for the known ones are expressions that refer to the new ones
(`RefersTo`), so that replacing at entries of the table renames in their trees.

A new variable and the expression that refers to it are made in turn (`yields_newBinding`). What all
of them are together is said by `FreshCopies` where each new variable is made in the same way, and by
`FreshPairs` where it matters which copy of the state it belongs to. The quantifier that binds them
is made last (`yields_newExists`).
-/

namespace AtomicMovers

open Program

variable {p q r : Program}

/-! ## References to new variables -/

/-- The replacements refer to the new names of the pairs, in order. -/
def RefersTo (q : Program) (pairs : List (VarRef × VarRef)) (map : List (VarRef × ExprRef)) : Prop :=
  List.Forall₂ (fun u e => e.1 = u.1 ∧ q.HasTree e.2 (.var u.2)) pairs map

section RefersTo

variable {pairs pairs' : List (VarRef × VarRef)} {map map' : List (VarRef × ExprRef)}

theorem RefersTo.extends (h : RefersTo q pairs map) (hq : q.Closed) (hqr : q.Extends r) :
    RefersTo r pairs map :=
  h.imp fun _ _ h => ⟨h.1, h.2.extends hq hqr⟩

theorem RefersTo.append (h : RefersTo q pairs map) (h' : RefersTo q pairs' map') :
    RefersTo q (pairs ++ pairs') (map ++ map') :=
  List.rel_append h h'

theorem RefersTo.hasExpr (h : RefersTo q pairs map) : ∀ e ∈ map, q.HasExpr e.2 := by
  intro e he
  obtain ⟨u, _, hu⟩ := exists_left_of_forall₂ h he
  exact hu.2.1

/-- Replacements in the two states are entries of the table. -/
theorem RefersTo.validIn_both (h : RefersTo q pairs map) (h' : RefersTo q pairs' map') :
    (⟨Substitution.ofList map, Substitution.ofList map'⟩ : TwoState ExprRef).ValidIn q.exprs := by
  intro m e he
  cases m with
  | current => exact h.hasExpr e (List.mem_reverse.1 he)
  | prior => exact h'.hasExpr e (List.mem_reverse.1 he)

theorem RefersTo.map_ofList (h : RefersTo q pairs map) :
    ((Substitution.ofList map).map fun e => (e.1, q.exprs.expr e.2)) =
      Substitution.renaming pairs := by
  have trees : (map.map fun e => (e.1, q.exprs.expr e.2)) =
      pairs.map fun u => (u.1, Expr.var u.2) :=
    map_eq_map_of_forall₂ (h.imp fun u e h => Prod.ext h.1 h.2.2)
  rw [Substitution.ofList, List.map_reverse, trees]
  rfl

/-- Read as trees the replacements in the two states are renamings. -/
theorem RefersTo.map_expr_eq_both (h : RefersTo q pairs map) (h' : RefersTo q pairs' map') :
    (⟨Substitution.ofList map, Substitution.ofList map'⟩ : TwoState ExprRef).map q.exprs.expr =
      ⟨Substitution.renaming pairs, Substitution.renaming pairs'⟩ := by
  rw [TwoState.map, h.map_ofList, h'.map_ofList]

theorem RefersTo.validIn (h : RefersTo q pairs map) :
    (TwoState.uniform (Substitution.ofList map)).ValidIn q.exprs :=
  h.validIn_both h

theorem RefersTo.map_expr_eq (h : RefersTo q pairs map) :
    (TwoState.uniform (Substitution.ofList map)).map q.exprs.expr =
      .uniform (Substitution.renaming pairs) :=
  h.map_expr_eq_both h

end RefersTo

/-! ## Bindings -/

/-- The binding is one of `v`, and its expression refers to its new variable. -/
def Binding.Of (v : VarRef) (b : Binding) (q : Program) : Prop :=
  b.original = v ∧ q.HasTree b.reference (.var b.bound)

theorem Binding.Of.extends {v : VarRef} {b : Binding} (h : b.Of v q) (hq : q.Closed)
    (hqr : q.Extends r) : b.Of v r :=
  ⟨h.1, h.2.extends hq hqr⟩

/-- Bindings of the variables `vs`, in order. -/
def BindingsOf (vs : List VarRef) (bs : List Binding) (q : Program) : Prop :=
  List.Forall₂ (fun v b => b.Of v q) vs bs

section BindingsOf

variable {vs vs' : List VarRef} {bs bs' : List Binding}

theorem BindingsOf.extends (h : BindingsOf vs bs q) (hq : q.Closed) (hqr : q.Extends r) :
    BindingsOf vs bs r :=
  List.Forall₂.imp (fun _ _ hb => hb.extends hq hqr) h

theorem BindingsOf.append (h : BindingsOf vs bs q) (h' : BindingsOf vs' bs' q) :
    BindingsOf (vs ++ vs') (bs ++ bs') q :=
  List.rel_append h h'

theorem BindingsOf.map_original (h : BindingsOf vs bs q) : bs.map Binding.original = vs :=
  (map_eq_map_of_forall₂ (h.imp fun _ _ hb => hb.1)).trans (List.map_id vs)

theorem BindingsOf.map_pair_fst (h : BindingsOf vs bs q) :
    (bs.map Binding.pair).map Prod.fst = vs := by
  rw [List.map_map]
  exact h.map_original

theorem BindingsOf.refersTo (h : BindingsOf vs bs q) :
    RefersTo q (bs.map Binding.pair) (bs.map Binding.replacement) := by
  rw [RefersTo, List.forall₂_map_left_iff, List.forall₂_map_right_iff, List.forall₂_same]
  intro b hb
  obtain ⟨v, _, hv⟩ := exists_left_of_forall₂ h hb
  exact ⟨rfl, hv.2⟩

end BindingsOf

theorem yields_newBinding (hp : p.Closed) (copy : StateCopy) (v : VarRef) :
    Yields p (newBinding copy v) fun b q =>
      FreshCopies (fun x => x.toBound copy) p [v] [b.bound] q ∧ b.Of v q := by
  have bound : Yields p (newBoundCopy v copy) fun w q =>
      FreshCopies (fun x => x.toBound copy) p [v] [w] q :=
    Yields.get_bind (yields_newCopy hp (fun x => x.toBound copy) v)
  refine bound.bind fun w q _ hq hw => ?_
  refine (yields_newVar hq (hw.valid w (List.mem_singleton_self w))).bind
    fun e r hqr hr he => ?_
  exact Yields.pure hr ⟨hw.grows hqr, rfl, he.2⟩

theorem yields_newTwinBinding (hp : p.Closed) (v : VarRef) :
    Yields p (newTwinBinding v) fun b q =>
      FreshCopies (fun x => x.toBound x.copy) p [v] [b.bound] q ∧ b.Of v q :=
  Yields.get_bind ((yields_newBinding hp (p.var v).copy v).weaken fun _ _ _ _ ⟨new, hof⟩ =>
    ⟨{ new with var_eq := by simpa using new.var_eq }, hof⟩)

/-- The quantifier over an expression in which replacements were made. If it binds no variables,
there were none to replace. -/
theorem yields_newExists (hp : p.Closed) {bound : List VarRef} (hbound : ∀ v ∈ bound, p.HasVar v)
    {σ : TwoState ExprRef} (hσ : σ.ValidIn p.exprs) (none : bound = [] → σ = ⟨[], []⟩)
    {x : ExprRef} {e : Expr} (h : p.HasTree x e) :
    Yields p (newExists bound σ x) fun y q =>
      q.HasTree y (Expr.existsAll bound (e.subst (σ.map p.expr))) := by
  cases bound with
  | nil =>
    refine Yields.pure hp ?_
    rw [none rfl]
    exact ⟨h.1, h.2.trans (e.substAt_nil .current).symm⟩
  | cons v vs =>
    refine (yields_subst hp hσ h).bind fun body q hpq hq ⟨_, hbody⟩ => ?_
    exact (yields_newQuant hq .existential (fun w hw => hpq.within.hasVar (hbound w hw))
      hbody).weaken fun _ _ _ _ h => h.2

/-- The locals are bound under their names, by new variables. -/
theorem yields_bindLocals (hp : p.Closed) {locals : List VarRef} (hlocals : ∀ v ∈ locals, p.HasVar v)
    {x : ExprRef} {e : Expr} (h : p.HasTree x e) :
    Yields p (bindLocals locals x) fun y q => ∃ bound,
      FreshCopies (fun v => v.toBound v.copy) p locals bound q ∧
        q.HasTree y (Expr.existsAll bound
          (e.subst (.uniform (Substitution.renaming (locals.zip bound))))) := by
  unfold bindLocals
  refine (yields_mapM_freshCopies hp (fun _ _ _ _ hqr hq hb => hb.extends hq hqr)
    (fun v q hq _ => yields_newTwinBinding hq v) hlocals).bind fun bs q hpq hq ⟨fresh, of⟩ => ?_
  have refers := BindingsOf.refersTo of
  have pairs : bs.map Binding.pair = locals.zip (bs.map Binding.bound) := by
    rw [← BindingsOf.map_original of, List.zip_map']
    rfl
  rw [pairs] at refers
  have none : bs.map Binding.bound = [] →
      TwoState.uniform (Substitution.ofList (bs.map Binding.replacement)) = ⟨[], []⟩ := by
    intro h
    rw [List.map_eq_nil_iff.1 h]
    rfl
  refine (yields_newExists hq fresh.valid refers.validIn none (h.extends hp hpq)).weaken
    fun y r hqr _ hy => ⟨_, fresh.grows hqr, ?_⟩
  exact (refers.map_expr_eq : TwoState.map q.expr _ = _) ▸ hy

/-! ## Copies of the state -/

/-- The second variable of each pair is new in `q`, and is the first one in a copy of the state. -/
structure FreshPairs (p : Program) (pairs : List (VarRef × VarRef)) (copies : List StateCopy)
    (q : Program) : Prop where
  nodup : (pairs.map Prod.snd).Nodup
  fresh : ∀ u ∈ pairs, ¬p.HasVar u.2
  valid : ∀ u ∈ pairs, q.HasVar u.2
  length_eq : copies.length = pairs.length
  var_eq : ∀ x ∈ pairs.zip copies, q.var x.1.2 = (p.var x.1.1).toBound x.2

section FreshPairs

variable {pairs pairs' : List (VarRef × VarRef)} {copies copies' : List StateCopy}

theorem FreshPairs.ty_eq (h : FreshPairs p pairs copies q) {u : VarRef × VarRef} (hu : u ∈ pairs) :
    (q.var u.2).ty = (p.var u.1).ty := by
  rw [← List.map_fst_zip (Nat.le_of_eq h.length_eq.symm)] at hu
  obtain ⟨x, hx, rfl⟩ := List.mem_map.1 hu
  rw [h.var_eq x hx]
  rfl

theorem FreshPairs.extends (h : FreshPairs p pairs copies q) (hqr : q.Extends r) :
    FreshPairs p pairs copies r where
  nodup := h.nodup
  fresh := h.fresh
  valid u hu := hqr.within.hasVar (h.valid u hu)
  length_eq := h.length_eq
  var_eq x hx := by
    rw [hqr.var_eq _ (h.valid x.1 (List.of_mem_zip hx).1), h.var_eq x hx]

theorem FreshPairs.append (hpq : p.Extends q) (h : FreshPairs p pairs copies q)
    (hqr : q.Extends r) (hpairs' : ∀ u ∈ pairs', p.HasVar u.1)
    (h' : FreshPairs q pairs' copies' r) :
    FreshPairs p (pairs ++ pairs') (copies ++ copies') r where
  nodup := by
    rw [List.map_append, List.nodup_append]
    refine ⟨h.nodup, h'.nodup, ?_⟩
    rintro _ hx _ hy rfl
    obtain ⟨u, hu, rfl⟩ := List.mem_map.1 hx
    obtain ⟨w, hw, heq⟩ := List.mem_map.1 hy
    exact h'.fresh w hw (heq ▸ h.valid u hu)
  fresh := List.forall_mem_append.2
    ⟨h.fresh, fun u hu hup => h'.fresh u hu (hpq.within.hasVar hup)⟩
  valid := List.forall_mem_append.2 ⟨(h.extends hqr).valid, h'.valid⟩
  length_eq := by rw [List.length_append, List.length_append, h.length_eq, h'.length_eq]
  var_eq := by
    rw [List.zip_append h.length_eq.symm]
    refine List.forall_mem_append.2 ⟨(h.extends hqr).var_eq, fun x hx => ?_⟩
    rw [h'.var_eq x hx, hpq.var_eq _ (hpairs' x.1 (List.of_mem_zip hx).1)]

/-- A single new variable. -/
theorem FreshCopies.freshPairs {copy : StateCopy} {v w : VarRef}
    (h : FreshCopies (fun x => x.toBound copy) p [v] [w] q) : FreshPairs p [(v, w)] [copy] q where
  nodup := List.nodup_singleton w
  fresh := by simpa using h.fresh
  valid := by simpa using h.valid
  length_eq := rfl
  var_eq := by simpa using h.var_eq

/-- Steps that each make new variables for one, taken one after the other. -/
theorem yields_mapM_freshPairs {β : Type} {f : VarRef → StateM Program β}
    {pairs : β → List (VarRef × VarRef)} {Q : VarRef → β → Program → Prop} (hp : p.Closed)
    (stable : ∀ v b q r, q.Extends r → q.Closed → Q v b q → Q v b r)
    (of : ∀ v b q, Q v b q → ∀ u ∈ pairs b, u.1 = v)
    (hf : ∀ v q, q.Closed → q.HasVar v →
      Yields q (f v) fun b r => FreshPairs q (pairs b) copies r ∧ Q v b r)
    {vs : List VarRef} (hvs : ∀ v ∈ vs, p.HasVar v) :
    Yields p (vs.mapM f) fun bs q =>
      FreshPairs p (bs.flatMap pairs) (vs.flatMap fun _ => copies) q ∧
        List.Forall₂ (fun v b => Q v b q) vs bs := by
  induction vs generalizing p with
  | nil =>
    rw [List.mapM_nil]
    exact Yields.pure hp ⟨⟨by simp, by simp, by simp, by simp, by simp⟩, .nil⟩
  | cons v vs ih =>
    rw [List.forall_mem_cons] at hvs
    rw [List.mapM_cons]
    refine (hf v p hp hvs.1).bind fun b q hpq hq hb => ?_
    refine (ih hq fun w hw => hpq.within.hasVar (hvs.2 w hw)).bind fun bs r hqr hr hbs => ?_
    refine Yields.pure hr ⟨?_, .cons (stable v b q r hqr hq hb.2) hbs.2⟩
    rw [List.flatMap_cons, List.flatMap_cons]
    refine hb.1.append hpq hqr (fun u hu => ?_) hbs.1
    obtain ⟨c, hc, hu⟩ := List.mem_flatMap.1 hu
    obtain ⟨w, hw, hwc⟩ := exists_left_of_forall₂ hbs.2 hc
    exact of w c r hwc u hu ▸ hvs.2 w hw

/-- New variables of one copy of the state, one for each of some variables. -/
theorem yields_mapM_newBinding (hp : p.Closed) (copy : StateCopy) {vs : List VarRef}
    (hvs : ∀ v ∈ vs, p.HasVar v) :
    Yields p (vs.mapM (newBinding copy)) fun bs q =>
      FreshPairs p (bs.map Binding.pair) (vs.flatMap fun _ => [copy]) q ∧ BindingsOf vs bs q := by
  have single (v : VarRef) (q : Program) (hq : q.Closed) (_ : q.HasVar v) :
      Yields q (newBinding copy v) fun b r => FreshPairs q [b.pair] [copy] r ∧ b.Of v r :=
    (yields_newBinding hq copy v).weaken fun b r _ _ ⟨fresh, hof⟩ =>
      ⟨(hof.1 ▸ fresh.freshPairs : FreshPairs q [(b.original, b.bound)] [copy] r), hof⟩
  refine (yields_mapM_freshPairs hp (fun _ _ _ _ hqr hq hb => hb.extends hq hqr) ?_ single
    hvs).weaken fun bs q _ _ h => ?_
  · rintro v b q hb u hu
    rw [List.mem_singleton.1 hu]
    exact hb.1
  · rwa [← List.map_eq_flatMap] at h

end FreshPairs

end AtomicMovers
