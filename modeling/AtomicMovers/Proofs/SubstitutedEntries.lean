import AtomicMovers.Proofs.References

/-!
# Substitution at an entry

What substitution at an entry of a program does, beyond giving the rewritten tree
(`ExprTable.entered_subst`):

* it changes the value of an expression as if the two states were changed instead
  (`Program.eval_of_subst`);
* it makes new entries only above a reference that is replaced by a different entry. All other
  entries are shared with the argument, at every place below it (`Program.subst_shares`).

A place below an entry is a path of child numbers. It leads to an entry and to the moment at which
this entry is read (`ExprTable.entryAt`): the same entry may stand both under `old` and outside of
it, and be replaced in one place only.

All layers but references are treated alike, as a layer over its children (`Node.withChildren`,
`ExprTable.substWithin_layer`).
-/

namespace AtomicMovers

/-! ## Layers over children -/

namespace Node

/-- The same layer over other children. -/
def withChildren : Node → List ExprRef → Node
  | old _, [x] => old x
  | unary op _, [x] => unary op x
  | binary op _ _, [l, r] => binary op l r
  | call f _, args => call f args
  | quant q bound _, [body] => quant q bound body
  | n, _ => n

/-- The moment at which the children of a layer are read. -/
def inner (m : Moment) : Node → Moment
  | old _ => .prior
  | _ => m

/-- Over as many children as before, the layer has these children and reads them at the same
moment. -/
theorem withChildren_shape (n : Node) {cs : List ExprRef} (h : cs.length = n.children.length) :
    (n.withChildren cs).children = cs ∧ ∀ m, (n.withChildren cs).inner m = n.inner m := by
  cases n with
  | lit value => exact ⟨(List.length_eq_zero_iff.1 h).symm, fun _ => rfl⟩
  | var v => exact ⟨(List.length_eq_zero_iff.1 h).symm, fun _ => rfl⟩
  | old x =>
    obtain ⟨y, rfl⟩ := List.length_eq_one_iff.1 h
    exact ⟨rfl, fun _ => rfl⟩
  | unary op x =>
    obtain ⟨y, rfl⟩ := List.length_eq_one_iff.1 h
    exact ⟨rfl, fun _ => rfl⟩
  | binary op l r =>
    obtain ⟨y, z, rfl⟩ := List.length_eq_two.1 h
    exact ⟨rfl, fun _ => rfl⟩
  | call f args => exact ⟨rfl, fun _ => rfl⟩
  | quant q bound body =>
    obtain ⟨y, rfl⟩ := List.length_eq_one_iff.1 h
    exact ⟨rfl, fun _ => rfl⟩

end Node

namespace ExprTable

variable {σ : TwoState ExprRef} {t u w : ExprTable} {m : Moment} {e : ExprRef}

/-- Below a layer that is not a reference, the children are rewritten from left to right, and the
layer is rebuilt over them if one has changed. -/
theorem substWithin_layer (σ : TwoState ExprRef) (d : Nat) (m : Moment)
    (layer : ∀ v, t.node e ≠ .var v) :
    substWithin σ (d + 1) m e t =
      rebuild e
        (((t.node e).children.mapM (substWithin σ d ((t.node e).inner m)) t).1 =
          (t.node e).children)
        ((t.node e).withChildren
          ((t.node e).children.mapM (substWithin σ d ((t.node e).inner m)) t).1)
        ((t.node e).children.mapM (substWithin σ d ((t.node e).inner m)) t).2 := by
  rw [substWithin, get_bind_run]
  cases hn : t.node e with
  | lit value =>
    simp only [Node.children, mapM_nil_run, decide_true, rebuild, if_true]
  | var v => exact absurd hn (layer v)
  | old x =>
    simp only [Node.children, Node.inner, mapM_cons_run, mapM_nil_run, Node.withChildren,
      List.cons.injEq, and_true]
    rfl
  | unary op x =>
    simp only [Node.children, Node.inner, mapM_cons_run, mapM_nil_run, Node.withChildren,
      List.cons.injEq, and_true]
    rfl
  | binary op l r =>
    simp only [Node.children, Node.inner, mapM_cons_run, mapM_nil_run, Node.withChildren,
      List.cons.injEq, and_true]
    rfl
  | call f args => rfl
  | quant q bound body =>
    simp only [Node.children, Node.inner, mapM_cons_run, mapM_nil_run, Node.withChildren,
      List.cons.injEq, and_true]
    rfl

theorem substWithin_var (σ : TwoState ExprRef) (d : Nat) (m : Moment) {v : VarRef}
    (reference : t.node e = .var v) :
    substWithin σ (d + 1) m e t = (((σ.during m).lookup v).getD e, t) := by
  rw [substWithin, get_bind_run]
  simp only [reference]
  rfl

/-! ## Places below an entry -/

/-- The entry at a place below `e`, and the moment it is read at if `e` is read at `m`. A place is
the list of child numbers that leads to it. -/
def entryAt (t : ExprTable) : Moment → ExprRef → List Nat → Option (Moment × ExprRef)
  | m, e, [] => some (m, e)
  | m, e, k :: path =>
    match (t.node e).children[k]? with
    | some c => t.entryAt ((t.node e).inner m) c path
    | none => none

/-- The entry is a reference that is replaced by a different entry. -/
def Replaced (σ : TwoState ExprRef) (t : ExprTable) (m : Moment) (e : ExprRef) : Prop :=
  ∃ v r, t.node e = .var v ∧ (σ.during m).lookup v = some r ∧ r ≠ e

/-- No reference below the entry is replaced by a different entry. -/
def Untouched (σ : TwoState ExprRef) (t : ExprTable) (m : Moment) (e : ExprRef) : Prop :=
  ∀ path n x, t.entryAt m e path = some (n, x) → ¬t.Replaced σ n x

theorem entryAt_append (t : ExprTable) (path rest : List Nat) : ∀ {m n : Moment} {e x : ExprRef},
    t.entryAt m e path = some (n, x) → t.entryAt m e (path ++ rest) = t.entryAt n x rest := by
  induction path with
  | nil =>
    intro m n e x h
    cases h
    rfl
  | cons k path ih =>
    intro m n e x h
    rw [List.cons_append, entryAt]
    rw [entryAt] at h
    cases hc : (t.node e).children[k]? with
    | none => rw [hc] at h; cases h
    | some c => rw [hc] at h; exact ih h

/-- What is untouched is untouched at every place. -/
theorem Untouched.at {path : List Nat} {n : Moment} {x : ExprRef} (h : t.Untouched σ m e)
    (hx : t.entryAt m e path = some (n, x)) : t.Untouched σ n x := by
  intro rest n' y hy
  exact h (path ++ rest) n' y ((t.entryAt_append path rest hx).trans hy)

theorem untouched_var {v : VarRef} (reference : t.node e = .var v) :
    t.Untouched σ m e ↔ ((σ.during m).lookup v).getD e = e := by
  constructor
  · intro h
    cases hr : (σ.during m).lookup v with
    | none => rfl
    | some r =>
      by_contra hne
      exact h [] m e rfl ⟨v, r, reference, hr, hne⟩
  · rintro same path n x hx ⟨w, r, hw, hr, hne⟩
    -- a reference has no children, so it is the only place
    cases path with
    | nil =>
      cases hx
      rw [reference] at hw
      cases hw
      rw [hr] at same
      exact hne same
    | cons k path =>
      rw [entryAt, reference] at hx
      cases hx

theorem untouched_layer (layer : ∀ v, t.node e ≠ .var v) :
    t.Untouched σ m e ↔
      ∀ c ∈ (t.node e).children, t.Untouched σ ((t.node e).inner m) c := by
  constructor
  · intro h c hc
    obtain ⟨k, hk⟩ := List.mem_iff_getElem?.1 hc
    have place : t.entryAt m e [k] = some ((t.node e).inner m, c) := by
      simp only [entryAt, hk]
    exact h.at place
  · rintro h path n x hx replaced
    cases path with
    | nil =>
      cases hx
      obtain ⟨v, _, hv, _⟩ := replaced
      exact layer v hv
    | cons k path =>
      rw [entryAt] at hx
      cases hc : (t.node e).children[k]? with
      | none => rw [hc] at hx; cases hx
      | some c =>
        rw [hc] at hx
        exact h c (List.mem_of_getElem? hc) path n x hx replaced

/-! ### Places while the table grows -/

theorem entryAt_extends (ht : t.ChildrenFirst) (htu : t.Extends u) (path : List Nat) :
    ∀ {m : Moment} {e : ExprRef}, e.index < t.size → u.entryAt m e path = t.entryAt m e path := by
  induction path with
  | nil => intros; rfl
  | cons k path ih =>
    intro m e he
    rw [entryAt, entryAt, htu.node_eq he]
    cases hc : (t.node e).children[k]? with
    | none => rfl
    | some c => exact ih (Nat.lt_trans (ht.lt he (List.mem_of_getElem? hc)) he)

theorem entryAt_lt_size (ht : t.ChildrenFirst) (path : List Nat) :
    ∀ {m n : Moment} {e x : ExprRef}, e.index < t.size → t.entryAt m e path = some (n, x) →
      x.index < t.size := by
  induction path with
  | nil =>
    intro m n e x he hx
    cases hx
    exact he
  | cons k path ih =>
    intro m n e x he hx
    rw [entryAt] at hx
    cases hc : (t.node e).children[k]? with
    | none => rw [hc] at hx; cases hx
    | some c =>
      rw [hc] at hx
      exact ih (Nat.lt_trans (ht.lt he (List.mem_of_getElem? hc)) he) hx

theorem untouched_extends (ht : t.ChildrenFirst) (htu : t.Extends u) (he : e.index < t.size) :
    u.Untouched σ m e ↔ t.Untouched σ m e := by
  refine forall₃_congr fun path n x => ?_
  rw [entryAt_extends ht htu path he]
  refine imp_congr_right fun hx => not_congr ?_
  rw [Replaced, Replaced, htu.node_eq (entryAt_lt_size ht path he hx)]

/-- Every place below `e` is one below `e'`, and there stands the same entry exactly if no reference
below that place is replaced. -/
def SharesPlaces (σ : TwoState ExprRef) (m : Moment) (t : ExprTable) (e : ExprRef)
    (u : ExprTable) (e' : ExprRef) : Prop :=
  ∀ path n x, t.entryAt m e path = some (n, x) →
    ∃ y, u.entryAt m e' path = some (n, y) ∧ (y = x ↔ t.Untouched σ n x)

theorem SharesPlaces.later {e' : ExprRef} (h : SharesPlaces σ m t e u e') (hu : u.ChildrenFirst)
    (he' : e'.index < u.size) (huw : u.Extends w) : SharesPlaces σ m t e w e' := by
  intro path n x hx
  rw [entryAt_extends hu huw path he']
  exact h path n x hx

theorem SharesPlaces.earlier {e' : ExprRef} (h : SharesPlaces σ m u e w e') (ht : t.ChildrenFirst)
    (he : e.index < t.size) (htu : t.Extends u) : SharesPlaces σ m t e w e' := by
  intro path n x hx
  rw [← untouched_extends ht htu (entryAt_lt_size ht path he hx)]
  exact h path n x ((entryAt_extends ht htu path he).trans hx)

theorem SharesPlaces.ofUntouched (h : t.Untouched σ m e) : SharesPlaces σ m t e t e :=
  fun _ _ x hx => ⟨x, hx, fun _ => h.at hx, fun _ => rfl⟩

/-! ## What is shared -/

/-- An entry that is untouched is kept, and then nothing is added; in any case all untouched entries
are shared. -/
structure Shares (σ : TwoState ExprRef) (m : Moment) (t : ExprTable) (e : ExprRef)
    (r : ExprRef × ExprTable) : Prop where
  kept : t.Untouched σ m e → r = (e, t)
  places : SharesPlaces σ m t e r.2 r.1

/-- Entries that are rewritten one after the other share what each of them shares. -/
theorem shares_mapM (ht : t.ChildrenFirst) {f : ExprRef → StateM ExprTable ExprRef}
    {cs : List ExprRef} (hcs : ∀ c ∈ cs, c.index < t.size)
    (step : ∀ c ∈ cs, ∀ u, t.Extends u → u.ChildrenFirst →
      (∃ tree, Entered u tree (f c u)) ∧ Shares σ m u c (f c u)) :
    ∀ u, t.Extends u → u.ChildrenFirst →
      ((∀ c ∈ cs, t.Untouched σ m c) → cs.mapM f u = (cs, u)) ∧
        u.Extends (cs.mapM f u).2 ∧ (cs.mapM f u).2.ChildrenFirst ∧
        List.Forall₂ (fun c c' => c'.index < (cs.mapM f u).2.size ∧
          SharesPlaces σ m t c (cs.mapM f u).2 c') cs (cs.mapM f u).1 := by
  induction cs with
  | nil =>
    intro u _ hu
    rw [mapM_nil_run]
    exact ⟨fun _ => rfl, Extends.refl u, hu, .nil⟩
  | cons c cs ih =>
    intro u htu hu
    rw [List.forall_mem_cons] at hcs
    obtain ⟨⟨tree, entered⟩, shares⟩ := step c (by simp) u htu hu
    obtain ⟨kept, grows, first, rest⟩ := ih hcs.2 (fun x hx => step x (by simp [hx])) (f c u).2
      (htu.trans entered.continues) entered.childrenFirst
    rw [mapM_cons_run]
    refine ⟨fun untouched => ?_, entered.continues.trans grows, first, .cons ⟨?_, ?_⟩ rest⟩
    · rw [List.forall_mem_cons] at untouched
      have same := shares.kept ((untouched_extends ht htu hcs.1).2 untouched.1)
      rw [same] at kept ⊢
      rw [kept untouched.2]
    · exact Nat.lt_of_lt_of_le entered.lt_size grows.size_le
    · exact (shares.places.later entered.childrenFirst entered.lt_size grows).earlier ht hcs.1 htu

theorem exists_of_forall₂_getElem? {α β : Type} {R : α → β → Prop} {as : List α} {bs : List β}
    (h : List.Forall₂ R as bs) {k : Nat} {a : α} (ha : as[k]? = some a) :
    ∃ b, bs[k]? = some b ∧ R a b := by
  obtain ⟨hk, rfl⟩ := List.getElem?_eq_some_iff.1 ha
  have hk' : k < bs.length := h.length_eq ▸ hk
  exact ⟨bs[k], List.getElem?_eq_getElem hk', h.get hk hk'⟩

/-- A layer that is built anew over rewritten children stands at a new position, and its children
share what they share. -/
theorem SharesPlaces.rebuilt (he : e.index < t.size) (htu : t.Extends u)
    (hu : u.ChildrenFirst) {cs : List ExprRef}
    (hcs : List.Forall₂ (fun c c' => c'.index < u.size ∧
      SharesPlaces σ ((t.node e).inner m) t c u c') (t.node e).children cs)
    (touched : ¬t.Untouched σ m e) :
    SharesPlaces σ m t e (add ((t.node e).withChildren cs) u).2
      (add ((t.node e).withChildren cs) u).1 := by
  obtain ⟨children, inner⟩ := (t.node e).withChildren_shape hcs.length_eq.symm
  intro path n x hx
  cases path with
  | nil =>
    cases hx
    refine ⟨_, rfl, fun same => ?_, fun h => absurd h touched⟩
    -- the new position is the size of a table that has `e`
    have position : u.size = e.index := congrArg ExprRef.index same
    have := htu.size_le
    omega
  | cons k path =>
    simp only [entryAt] at hx ⊢
    rw [node_add, children, inner]
    cases hc : (t.node e).children[k]? with
    | none => rw [hc] at hx; cases hx
    | some c =>
      rw [hc] at hx
      obtain ⟨c', hc', hlt, places⟩ := exists_of_forall₂_getElem? hcs hc
      rw [hc']
      exact places.later hu hlt (extends_add ((t.node e).withChildren cs) u) path n x hx

/-- Entries that have stayed the same have shared everything. -/
theorem untouched_of_shares {cs : List ExprRef}
    (h : List.Forall₂ (fun c c' => SharesPlaces σ m t c u c') cs cs) :
    ∀ c ∈ cs, t.Untouched σ m c := by
  intro c hc
  obtain ⟨y, hy, same⟩ := List.forall₂_same.1 h c hc [] m c rfl
  cases hy
  exact same.1 rfl

theorem shares_substWithin (d : Nat) : ∀ (m : Moment) (e : ExprRef) (t : ExprTable),
    t.ChildrenFirst → σ.ValidIn t → e.index < t.size → e.index < d →
      Shares σ m t e (substWithin σ d m e t) := by
  induction d with
  | zero => intro m e t _ _ _ hd; omega
  | succ d ih =>
    intro m e t ht hσ he hd
    by_cases reference : ∃ v, t.node e = .var v
    · obtain ⟨v, reference⟩ := reference
      rw [substWithin_var σ d m reference]
      refine ⟨fun h => by rw [(untouched_var reference).1 h], fun path n x hx => ?_⟩
      cases path with
      | nil =>
        cases hx
        exact ⟨_, rfl, (untouched_var reference).symm⟩
      | cons k path =>
        rw [entryAt, reference] at hx
        cases hx
    · have layer : ∀ v, t.node e ≠ .var v := fun v hv => reference ⟨v, hv⟩
      have below : ∀ c ∈ (t.node e).children, c.index < e.index := fun c hc => ht.lt he hc
      -- the children are rewritten in tables that grow, the first one in `t`
      have step : ∀ c ∈ (t.node e).children, ∀ u, t.Extends u → u.ChildrenFirst →
          (∃ tree, Entered u tree (substWithin σ d ((t.node e).inner m) c u)) ∧
            Shares σ ((t.node e).inner m) u c (substWithin σ d ((t.node e).inner m) c u) := by
        intro c hc u htu hu
        have hlt := below c hc
        have hcu : c.index < u.size := Nat.lt_of_lt_of_le (Nat.lt_trans hlt he) htu.size_le
        exact ⟨⟨_, entered_substWithin d _ c u hu (hσ.extends htu) hcu (by omega)⟩,
          ih _ c u hu (hσ.extends htu) hcu (by omega)⟩
      obtain ⟨kept, grows, first, places⟩ := shares_mapM ht
        (fun c hc => Nat.lt_trans (below c hc) he) step t (Extends.refl t) ht
      rw [substWithin_layer σ d m layer]
      by_cases untouched : t.Untouched σ m e
      · rw [kept ((untouched_layer layer).1 untouched)]
        simp only [decide_true, rebuild, if_true]
        exact ⟨fun _ => rfl, .ofUntouched untouched⟩
      · have changed : ((t.node e).children.mapM (substWithin σ d ((t.node e).inner m)) t).1 ≠
            (t.node e).children := by
          intro same
          rw [same] at places
          exact untouched ((untouched_layer layer).2
            (untouched_of_shares (places.imp fun _ _ h => h.2)))
        simp only [changed, decide_false, rebuild, Bool.false_eq_true, if_false]
        exact ⟨fun h => absurd h untouched, .rebuilt he grows first places untouched⟩

/-! ## The bound on the depth -/

/-- Steps that do the same in every table that comes up. -/
theorem mapM_congr_of_extends {f g : ExprRef → StateM ExprTable ExprRef} {cs : List ExprRef}
    (step : ∀ c ∈ cs, ∀ u, t.Extends u → u.ChildrenFirst →
      f c u = g c u ∧ ∃ tree, Entered u tree (g c u)) :
    ∀ u, t.Extends u → u.ChildrenFirst → cs.mapM f u = cs.mapM g u := by
  induction cs with
  | nil => intro u _ _; rw [mapM_nil_run, mapM_nil_run]
  | cons c cs ih =>
    intro u htu hu
    obtain ⟨same, tree, entered⟩ := step c (by simp) u htu hu
    rw [mapM_cons_run, mapM_cons_run, same, ih (fun x hx => step x (by simp [hx])) (g c u).2
      (htu.trans entered.continues) entered.childrenFirst]

/-- The bound on the depth cuts nothing off, if it is beyond the position of the entry. -/
theorem substWithin_eq (d : Nat) : ∀ (d' : Nat) (m : Moment) (e : ExprRef) (t : ExprTable),
    t.ChildrenFirst → σ.ValidIn t → e.index < t.size → e.index < d → e.index < d' →
      substWithin σ d m e t = substWithin σ d' m e t := by
  induction d with
  | zero => intro d' m e t _ _ _ hd; omega
  | succ d ih =>
    intro d' m e t ht hσ he hd hd'
    cases d' with
    | zero => omega
    | succ d' =>
      by_cases reference : ∃ v, t.node e = .var v
      · obtain ⟨v, reference⟩ := reference
        rw [substWithin_var σ d m reference, substWithin_var σ d' m reference]
      · have layer : ∀ v, t.node e ≠ .var v := fun v hv => reference ⟨v, hv⟩
        have children : (t.node e).children.mapM (substWithin σ d ((t.node e).inner m)) t =
            (t.node e).children.mapM (substWithin σ d' ((t.node e).inner m)) t := by
          refine mapM_congr_of_extends (fun c hc u htu hu => ?_) t (Extends.refl t) ht
          have hlt := ht.lt he hc
          have hcu : c.index < u.size := Nat.lt_of_lt_of_le (Nat.lt_trans hlt he) htu.size_le
          exact ⟨ih d' _ c u hu (hσ.extends htu) hcu (by omega) (by omega),
            _, entered_substWithin d' _ c u hu (hσ.extends htu) hcu (by omega)⟩
        rw [substWithin_layer σ d m layer, substWithin_layer σ d' m layer, children]

end ExprTable

/-! ## Substitution in a program -/

namespace Program

variable {p : Program} {σ : TwoState ExprRef} {e : ExprRef}

/-- What substitution at the entry `e` of `p` does if it returns the entry `r` and leaves the
program `q`. -/
structure SubstitutedAt (p : Program) (σ : TwoState ExprRef) (e r : ExprRef) (q : Program) :
    Prop where
  /-- The descent ends by itself: any bound on its depth beyond the position of `e` gives the same
  result. -/
  unbounded : ∀ depth, e.index < depth →
    onExprs (ExprTable.substWithin σ depth .current e) p = (r, q)
  continues : p.exprs.Extends q.exprs
  childrenFirst : q.exprs.ChildrenFirst
  /-- Nothing but the table of expressions changes. -/
  rest : q = { p with exprs := q.exprs }
  hasTree : q.HasExpr r ∧ q.expr r = (p.expr e).subst (σ.map p.expr)
  /-- The entry is returned itself exactly if no reference below it is replaced by a different
  entry. -/
  same_iff : r = e ↔ p.exprs.Untouched σ .current e
  nothing_added : p.exprs.Untouched σ .current e → q = p
  /-- At every place below the entry, the old entry stands exactly if nothing below that place is
  replaced by a different entry. -/
  shares : ExprTable.SharesPlaces σ .current p.exprs e q.exprs r

/-- Substitution at an entry gives the rewritten tree, appends to the table of expressions and
changes nothing else, and shares all that it does not have to rewrite. -/
theorem subst_shares (hp : p.exprs.ChildrenFirst) (hσ : σ.ValidIn p.exprs) (he : p.HasExpr e)
    {r : ExprRef} {q : Program} (run : onExprs (ExprTable.subst σ e) p = (r, q)) :
    p.SubstitutedAt σ e r q := by
  have entered := ExprTable.entered_subst hp hσ he
  have shares := ExprTable.shares_substWithin (σ := σ) (e.index + 1) .current e p.exprs hp hσ he
    (Nat.lt_succ_self _)
  have result : (r, q) = ((ExprTable.subst σ e p.exprs).1,
      { p with exprs := (ExprTable.subst σ e p.exprs).2 }) := run.symm
  obtain ⟨rfl, rfl⟩ := Prod.mk.inj result
  refine ⟨fun depth hdepth => ?_, entered.continues, entered.childrenFirst, rfl,
    ⟨entered.lt_size, entered.expr_eq⟩, ?_, fun untouched => ?_, shares.places⟩
  · have same := ExprTable.substWithin_eq (σ := σ) depth (e.index + 1) .current e p.exprs hp hσ he
      hdepth (Nat.lt_succ_self _)
    show ((ExprTable.substWithin σ depth .current e p.exprs).1,
      { p with exprs := (ExprTable.substWithin σ depth .current e p.exprs).2 }) = _
    rw [same]
    rfl
  · obtain ⟨y, hy, same⟩ := shares.places [] .current e rfl
    cases hy
    exact same
  · have kept : ExprTable.subst σ e p.exprs = (e, p.exprs) := shares.kept untouched
    rw [kept]

/-! ### Values -/

section Values

variable {D : Type} (I : Interpretation D) (ty : VarRef → Ty)

/-- The state `current` after a map: a variable that has a replacement has the value of its
replacement, and every other variable the value it had. -/
noncomputable def replacedState (p : Program) (ρ : Substitution ExprRef)
    (prior current : State D) : State D := fun v =>
  match ρ.lookup v with
  | some r => (p.expr r).eval I ty prior current
  | none => current v

theorem image_map_expr (p : Program) (ρ : Substitution ExprRef) (prior current : State D) :
    Substitution.image I ty (ρ.map fun x => (x.1, p.expr x.2)) prior current =
      p.replacedState I ty ρ prior current := by
  funext v
  rw [Substitution.image, TwoState.lookup_map, replacedState]
  cases ρ.lookup v with
  | none => rw [Option.map_none, Option.getD_none, Expr.eval]
  | some r => rfl

/-- The value of an expression after substitution is the value that it had before in two other
states: a variable with a replacement for references outside of `old` has in the current state the
value of this replacement, and one with a replacement for references under `old` has in the prior
state the value that its replacement has when everything is read there. Variables that the expression
binds must neither be replaced nor be free in a replacement. They have the same value under `old` as
outside of it. -/
theorem eval_of_subst (hp : p.exprs.ChildrenFirst) (hσ : σ.ValidIn p.exprs) (he : p.HasExpr e)
    (apart : ∀ x ∈ (p.expr e).binders, ∀ m, (σ.during m).lookup x = none ∧
      ∀ v r, (σ.during m).lookup v = some r → x ∉ (p.expr r).free)
    {r : ExprRef} {q : Program} (run : onExprs (ExprTable.subst σ e) p = (r, q)) :
    (∀ prior current : State D, (q.expr r).eval I ty prior current =
      (p.expr e).eval I ty (p.replacedState I ty σ.prior prior prior)
        (p.replacedState I ty σ.current prior current)) ∧
    ∀ (bound : List VarRef) (chosen prior current : State D), ∀ x ∈ bound,
      (Expr.old (.var x)).eval I ty (prior.override bound chosen) (current.override bound chosen) =
        (Expr.var x).eval I ty (prior.override bound chosen)
          (current.override bound chosen) := by
  have tree : q.expr r = (p.expr e).subst (σ.map p.expr) := by
    have entered := ExprTable.entered_subst hp hσ he
    obtain ⟨rfl, rfl⟩ := Prod.mk.inj run
    exact entered.expr_eq
  have avoids (m : Moment) : ∀ x ∈ (p.expr e).binders, ((σ.map p.expr).during m).Avoids x := by
    intro x hx
    obtain ⟨unreplaced, uncaptured⟩ := apart x hx m
    rw [TwoState.during_map]
    refine ⟨by rw [TwoState.lookup_map, unreplaced, Option.map_none], fun v r hr => ?_⟩
    rw [TwoState.lookup_map, Option.map_eq_some_iff] at hr
    obtain ⟨s, hs, rfl⟩ := hr
    exact uncaptured v s hs
  constructor
  · intro prior current
    rw [tree, Expr.subst]
    refine (Expr.eval_substAt (σ.map p.expr) (p.expr e) .current prior current fun x hx =>
      ⟨avoids .current x hx, avoids .prior x hx⟩).trans ?_
    rw [← image_map_expr, ← image_map_expr]
    rfl
  · intro bound chosen prior current x hx
    rw [Expr.eval, Expr.eval, Expr.eval, State.override_of_mem hx, State.override_of_mem hx]

end Values

end Program

/-! ## A stopwatch

A substitution that replaces a variable by different expressions under `old` and outside of it. -/

namespace Stopwatch

/-- The variables `elapsed`, `started` and `k`, and the expression
`elapsed == old(elapsed) && exists k :: k == old(k)`. The last two entries are replacements. -/
def program : Program where
  vars := #[{ name := "elapsed", ty := .int, kind := .global },
    { name := "started", ty := .int, kind := .global }, { name := "k", ty := .int, kind := .bound }]
  exprs := ⟨#[.var ⟨0⟩, .old ⟨0⟩, .binary .eq ⟨0⟩ ⟨1⟩, .var ⟨2⟩, .old ⟨3⟩, .binary .eq ⟨3⟩ ⟨4⟩,
    .quant .existential [⟨2⟩] ⟨5⟩, .binary .and ⟨2⟩ ⟨6⟩, .var ⟨1⟩, .old ⟨8⟩]⟩
  declarations := [.global ⟨0⟩, .global ⟨1⟩]

/-- Reads `old(started)` for `elapsed`, and `started` under `old`. -/
def reset : TwoState ExprRef := ⟨[(⟨0⟩, ⟨9⟩)], [(⟨0⟩, ⟨8⟩)]⟩

/-- The program after substitution. The quantified formula, entry 6, is shared. -/
def rewritten : Program :=
  { program with
    exprs := ⟨program.exprs.nodes ++
      #[.old ⟨8⟩, .binary .eq ⟨9⟩ ⟨10⟩, .binary .and ⟨11⟩ ⟨6⟩]⟩ }

theorem run_reset : Program.onExprs (ExprTable.subst reset ⟨7⟩) program = (⟨12⟩, rewritten) := rfl

theorem validIn_reset : reset.ValidIn program.exprs := by
  rintro (_ | _) x hx
  · obtain rfl := List.mem_singleton.1 hx
    decide
  · obtain rfl := List.mem_singleton.1 hx
    decide

end Stopwatch

/-- The rewritten expression is a new one, and its quantified part is the old one. -/
theorem Program.subst_shares_stopwatch :
    Stopwatch.program.SubstitutedAt Stopwatch.reset ⟨7⟩ ⟨12⟩ Stopwatch.rewritten ∧
      ¬Stopwatch.program.exprs.Untouched Stopwatch.reset .current ⟨7⟩ ∧
      Stopwatch.program.exprs.Untouched Stopwatch.reset .current ⟨6⟩ := by
  have h := subst_shares (p := Stopwatch.program) (by decide) Stopwatch.validIn_reset (by decide)
    Stopwatch.run_reset
  refine ⟨h, fun untouched => absurd (h.same_iff.2 untouched) (by decide), ?_⟩
  obtain ⟨y, hy, same⟩ := h.shares [1] .current ⟨6⟩ rfl
  obtain rfl : y = ⟨6⟩ := (congrArg Prod.snd (Option.some.inj hy)).symm
  exact same.1 rfl

/-- Whatever the two states are, the rewritten expression has in them the value of the expression in
two states that have the prior value of `started` for `elapsed`. -/
theorem Program.eval_of_subst_stopwatch :
    onExprs (ExprTable.subst Stopwatch.reset ⟨7⟩) Stopwatch.program = (⟨12⟩, Stopwatch.rewritten) ∧
      ∀ (I : Interpretation Int) (ty : VarRef → Ty) (prior current : State Int),
        (Stopwatch.rewritten.expr ⟨12⟩).eval I ty prior current =
          (Stopwatch.program.expr ⟨7⟩).eval I ty
            (Stopwatch.program.replacedState I ty Stopwatch.reset.prior prior prior)
            (Stopwatch.program.replacedState I ty Stopwatch.reset.current prior current) ∧
        Stopwatch.program.replacedState I ty Stopwatch.reset.prior prior prior ⟨0⟩ = prior ⟨1⟩ ∧
        Stopwatch.program.replacedState I ty Stopwatch.reset.current prior current ⟨0⟩ =
          prior ⟨1⟩ := by
  refine ⟨Stopwatch.run_reset, fun I ty prior current => ?_⟩
  have apart : ∀ x ∈ (Stopwatch.program.expr ⟨7⟩).binders, ∀ m,
      (Stopwatch.reset.during m).lookup x = none ∧ ∀ v r,
        (Stopwatch.reset.during m).lookup v = some r → x ∉ (Stopwatch.program.expr r).free := by
    intro x hx m
    obtain rfl : x = ⟨2⟩ := List.mem_singleton.1 hx
    refine ⟨by cases m <;> rfl, fun v r hr => ?_⟩
    have entry := Substitution.mem_of_lookup hr
    cases m with
    | current =>
      cases List.mem_singleton.1 entry
      decide
    | prior =>
      cases List.mem_singleton.1 entry
      decide
  have h := eval_of_subst I ty (p := Stopwatch.program) (by decide) Stopwatch.validIn_reset
    (by decide) apart Stopwatch.run_reset
  have started : Stopwatch.program.expr ⟨8⟩ = .var ⟨1⟩ := rfl
  have startedBefore : Stopwatch.program.expr ⟨9⟩ = .old (.var ⟨1⟩) := rfl
  refine ⟨h.1 prior current, ?_, ?_⟩
  · show (Stopwatch.program.expr ⟨8⟩).eval I ty prior prior = prior ⟨1⟩
    rw [started, Expr.eval]
  · show (Stopwatch.program.expr ⟨9⟩).eval I ty prior current = prior ⟨1⟩
    rw [startedBefore, Expr.eval, Expr.eval]

end AtomicMovers
