import AtomicMovers.Program.ExprTheorems
import AtomicMovers.Proofs.Commands

/-!
# Substitution in the table

Substitution on entries of the table does what substitution does on their trees
(`entered_subst`, `substituted_substCommand`). The table only grows on the way, so trees read
before and after are the same.
-/

namespace AtomicMovers

/-- Runs of a list of steps, the first step first. -/
theorem mapM_cons_run {σ α β : Type} (f : α → StateM σ β) (a : α) (as : List α) (s : σ) :
    (a :: as).mapM f s =
      ((f a s).1 :: (as.mapM f (f a s).2).1, (as.mapM f (f a s).2).2) := by
  rw [List.mapM_cons]
  rfl

theorem mapM_nil_run {σ α β : Type} (f : α → StateM σ β) (s : σ) :
    ([] : List α).mapM f s = ([], s) := by
  rw [List.mapM_nil]
  rfl

theorem get_bind_run {σ α : Type} (f : σ → StateM σ α) (s : σ) : (get >>= f) s = f s s := rfl

namespace TwoState

variable {ε δ : Type}

theorem during_map (f : ε → δ) (σ : TwoState ε) (m : Moment) :
    (σ.map f).during m = (σ.during m).map fun u => (u.1, f u.2) := by
  cases m <;> rfl

theorem lookup_map (f : ε → δ) (entries : List (VarRef × ε)) (v : VarRef) :
    (entries.map fun u => (u.1, f u.2)).lookup v = (entries.lookup v).map f := by
  induction entries with
  | nil => rfl
  | cons u us ih =>
    rw [List.map_cons, List.lookup_cons, List.lookup_cons, ih]
    cases v == u.1 <;> rfl

/-- All replacements are entries of the table. -/
def ValidIn (σ : TwoState ExprRef) (t : ExprTable) : Prop :=
  ∀ m, ∀ u ∈ σ.during m, u.2.index < t.size

theorem ValidIn.extends {σ : TwoState ExprRef} {t u : ExprTable} (h : σ.ValidIn t)
    (hu : t.Extends u) : σ.ValidIn u :=
  fun m x hx => Nat.lt_of_lt_of_le (h m x hx) hu.size_le

/-- The trees of the replacements stay the same while the table grows. -/
theorem ValidIn.map_expr_eq {σ : TwoState ExprRef} {t u : ExprTable} (h : σ.ValidIn t)
    (ht : t.ChildrenFirst) (hu : t.Extends u) : σ.map u.expr = σ.map t.expr := by
  have key (m : Moment) : ((σ.during m).map fun x => (x.1, u.expr x.2)) =
      (σ.during m).map fun x => (x.1, t.expr x.2) := by
    apply List.map_congr_left
    intro x hx
    rw [ExprTable.expr_eq_of_extends ht hu (h m x hx)]
  exact congrArg₂ TwoState.mk (key .current) (key .prior)

end TwoState

namespace ExprTable

/-- An entry that is there already stands for its tree. -/
theorem Entered.ofSame {t : ExprTable} (h : t.ChildrenFirst) {e : ExprRef}
    (he : e.index < t.size) : Entered t (t.expr e) (e, t) :=
  ⟨Extends.refl t, h, he, rfl⟩

theorem Entered.after {t u : ExprTable} {e : Expr} {r : ExprRef × ExprTable}
    (h : Entered u e r) (hu : t.Extends u) : Entered t e r :=
  ⟨hu.trans h.continues, h.childrenFirst, h.lt_size, h.expr_eq⟩

/-- Rebuilding gives the new layer, also when the old entry is kept: it has the same layer then. -/
theorem entered_rebuild {t u : ExprTable} (htu : t.Extends u) (hu : u.ChildrenFirst)
    {e : ExprRef} (he : e.index < t.size) {unchanged : Bool} {n : Node}
    (hn : ∀ c ∈ n.children, c.index < u.size) (same : unchanged = true → n = t.node e) :
    Entered t (n.toExpr u.expr) (rebuild e unchanged n u) := by
  cases unchanged with
  | false => exact Entered.ofAdd htu hu hn
  | true =>
    have he' : e.index < u.size := Nat.lt_of_lt_of_le he htu.size_le
    have hnode : n = u.node e := by rw [same rfl, htu.node_eq he]
    have hexpr : n.toExpr u.expr = u.expr e := by rw [expr_eq_toExpr hu he', hnode]
    rw [hexpr]
    exact (Entered.ofSame hu he').after htu

/-- Rebuilding an entry `layer` with one child `c`, after this child. -/
theorem entered_rebuild_child {t : ExprTable} {e c : ExprRef} (he : e.index < t.size) {x : Expr}
    {r : ExprRef × ExprTable} (k : Entered t x r) {layer : ExprRef → Node}
    (hlayer : t.node e = layer c) (only : ∀ a, (layer a).children = [a]) {tree : Expr → Expr}
    (htree : ∀ f a, (layer a).toExpr f = tree (f a)) :
    Entered t (tree x) (rebuild e (r.1 = c) (layer r.1) r.2) := by
  rw [← k.expr_eq, ← htree]
  refine entered_rebuild k.continues k.childrenFirst he ?_ fun same => ?_
  · rw [only]
    exact List.forall_mem_singleton.2 k.lt_size
  · rw [hlayer, of_decide_eq_true same]

/-- Steps that each enter a tree, one after the other. -/
theorem entered_mapM {t : ExprTable} (f : ExprRef → StateM ExprTable ExprRef)
    (tree : ExprRef → Expr) : ∀ (es : List ExprRef) (u : ExprTable), t.Extends u →
      u.ChildrenFirst →
      (∀ e ∈ es, ∀ w, t.Extends w → w.ChildrenFirst → Entered w (tree e) (f e w)) →
      u.Extends (es.mapM f u).2 ∧ (es.mapM f u).2.ChildrenFirst ∧
        (∀ c ∈ (es.mapM f u).1, c.index < (es.mapM f u).2.size) ∧
        (es.mapM f u).1.map (es.mapM f u).2.expr = es.map tree := by
  intro es
  induction es with
  | nil =>
    intro u _ hu _
    rw [mapM_nil_run]
    exact ⟨Extends.refl u, hu, by simp, rfl⟩
  | cons e es ih =>
    intro u htu hu hf
    have k := hf e (by simp) u htu hu
    obtain ⟨hx, hc, hlt, heq⟩ := ih (f e u).2 (htu.trans k.continues) k.childrenFirst
      fun a ha => hf a (by simp [ha])
    rw [mapM_cons_run]
    refine ⟨k.continues.trans hx, hc, ?_, ?_⟩
    · intro c hc'
      rcases List.mem_cons.1 hc' with rfl | hc'
      · exact Nat.lt_of_lt_of_le k.lt_size hx.size_le
      · exact hlt c hc'
    · rw [List.map_cons, List.map_cons, heq, expr_eq_of_extends k.childrenFirst hx k.lt_size,
        k.expr_eq]

/-! ## Entries -/

/-- Down to a depth beyond the position of the entry, substitution rewrites the whole tree. -/
theorem entered_substWithin {σ : TwoState ExprRef} (d : Nat) :
    ∀ (m : Moment) (e : ExprRef) (t : ExprTable), t.ChildrenFirst → σ.ValidIn t →
      e.index < t.size → e.index < d →
      Entered t ((t.expr e).substAt (σ.map t.expr) m) (substWithin σ d m e t) := by
  induction d with
  | zero => intro m e t _ _ _ hd; omega
  | succ d ih =>
    intro m e t ht hσ he hd
    -- a child is rewritten in a table that has grown meanwhile, to the tree it has now
    have child (c : ExprRef) (hc : c ∈ (t.node e).children) (m : Moment) (u : ExprTable)
        (htu : t.Extends u) (hu : u.ChildrenFirst) :
        Entered u ((t.expr c).substAt (σ.map t.expr) m) (substWithin σ d m c u) := by
      have hlt := ht.lt he hc
      have hct : c.index < t.size := by omega
      have k := ih m c u hu (hσ.extends htu) (Nat.lt_of_lt_of_le hct htu.size_le) (by omega)
      rwa [expr_eq_of_extends ht htu hct, hσ.map_expr_eq ht htu] at k
    rw [expr_eq_toExpr ht he, substWithin, get_bind_run]
    cases hn : t.node e with
    | lit value =>
      have same := Entered.ofSame ht he
      rwa [expr_eq_toExpr ht he, hn] at same
    | var v =>
      show Entered t ((((σ.map t.expr).during m).lookup v).getD (.var v))
        (((σ.during m).lookup v).getD e, t)
      rw [TwoState.during_map, TwoState.lookup_map]
      cases hr : (σ.during m).lookup v with
      | none =>
        have same := Entered.ofSame ht he
        rwa [expr_eq_toExpr ht he, hn] at same
      | some r => exact Entered.ofSame ht (hσ m _ (Substitution.mem_of_lookup hr))
    | old x =>
      have k := child x (by simp [hn, Node.children]) .prior t (Extends.refl t) ht
      exact entered_rebuild_child he k hn (fun _ => rfl) fun _ _ => rfl
    | unary op x =>
      have k := child x (by simp [hn, Node.children]) m t (Extends.refl t) ht
      exact entered_rebuild_child he k hn (fun _ => rfl) fun _ _ => rfl
    | binary op l r =>
      have kl := child l (by simp [hn, Node.children]) m t (Extends.refl t) ht
      have kr := child r (by simp [hn, Node.children]) m _ kl.continues kl.childrenFirst
      have hl : (substWithin σ d m l t).1.index <
          (substWithin σ d m r (substWithin σ d m l t).2).2.size :=
        Nat.lt_of_lt_of_le kl.lt_size kr.continues.size_le
      have layer : Node.toExpr (substWithin σ d m r (substWithin σ d m l t).2).2.expr
          (.binary op (substWithin σ d m l t).1
            (substWithin σ d m r (substWithin σ d m l t).2).1) =
            .binary op ((t.expr l).substAt (σ.map t.expr) m)
              ((t.expr r).substAt (σ.map t.expr) m) := by
        rw [Node.toExpr, kr.expr_eq, expr_eq_of_extends kl.childrenFirst kr.continues kl.lt_size,
          kl.expr_eq]
      rw [Node.toExpr, Expr.substAt, ← layer]
      exact entered_rebuild (kl.continues.trans kr.continues) kr.childrenFirst he
        (by simpa [Node.children] using ⟨hl, kr.lt_size⟩)
        (by simp only [decide_eq_true_eq, hn]; rintro ⟨h₁, h₂⟩; rw [h₁, h₂])
    | call f args =>
      obtain ⟨hx, hc, hlt, heq⟩ := entered_mapM (substWithin σ d m)
        (fun a => (t.expr a).substAt (σ.map t.expr) m) args t (Extends.refl t) ht
        fun a ha => child a (by simpa [hn, Node.children] using ha) m
      have layer : Node.toExpr (args.mapM (substWithin σ d m) t).2.expr
          (.call f (args.mapM (substWithin σ d m) t).1) =
            .call f (Expr.substAll (σ.map t.expr) m (args.map t.expr)) := by
        rw [Node.toExpr, heq, Expr.substAll_eq_map, List.map_map]
        rfl
      rw [Node.toExpr, Expr.substAt, ← layer]
      exact entered_rebuild hx hc he (by simpa [Node.children] using hlt)
        fun h => by rw [hn]; exact congrArg (Node.call f) (of_decide_eq_true h)
    | quant q bound body =>
      have k := child body (by simp [hn, Node.children]) m t (Extends.refl t) ht
      exact entered_rebuild_child he k hn (fun _ => rfl) fun _ _ => rfl

/-- Substitution at an entry gives an entry with the rewritten tree. -/
theorem entered_subst {σ : TwoState ExprRef} {t : ExprTable} (ht : t.ChildrenFirst)
    (hσ : σ.ValidIn t) {e : ExprRef} (he : e.index < t.size) :
    Entered t ((t.expr e).subst (σ.map t.expr)) (subst σ e t) :=
  entered_substWithin _ .current e t ht hσ he (by omega)

/-! ## Commands -/

/-- What substitution in a command does: the table goes on, and the new command has entries for the
rewritten expressions of the old one. -/
structure Substituted (t : ExprTable) (c : Command Expr) (r : Command ExprRef × ExprTable) :
    Prop where
  continues : t.Extends r.2
  childrenFirst : r.2.ChildrenFirst
  lt_size : ∀ e ∈ r.1.exprs, e.index < r.2.size
  map_eq : r.1.map r.2.expr = c

/-- Which variable an assignment goes to can be seen from the trees of the replacements. -/
theorem retarget_eq {σ : TwoState ExprRef} {t : ExprTable} (ht : t.ChildrenFirst)
    (hσ : σ.ValidIn t) (v : VarRef) : t.retarget σ v = (σ.map t.expr).target v := by
  have current : (σ.map t.expr).current.lookup v = (σ.current.lookup v).map t.expr :=
    TwoState.lookup_map t.expr σ.current v
  rw [retarget, TwoState.target, current]
  cases hr : σ.current.lookup v with
  | none => rfl
  | some r =>
    have hlt : r.index < t.size := hσ .current _ (Substitution.mem_of_lookup hr)
    rw [Option.map_some, Option.map_some, expr_eq_toExpr ht hlt]
    cases t.node r <;> rfl

/-- The updates of an assignment are rewritten from left to right. -/
theorem substituted_updates {σ : TwoState ExprRef} {t : ExprTable} (ht : t.ChildrenFirst)
    (hσ : σ.ValidIn t) (f : VarRef × ExprRef → StateM ExprTable (VarRef × ExprRef))
    (hf : ∀ u w, f u w = ((w.retarget σ u.1, (subst σ u.2 w).1), (subst σ u.2 w).2)) :
    ∀ (us : List (VarRef × ExprRef)) (w : ExprTable), t.Extends w → w.ChildrenFirst →
      (∀ u ∈ us, u.2.index < t.size) →
      w.Extends (us.mapM f w).2 ∧ (us.mapM f w).2.ChildrenFirst ∧
        (∀ u ∈ (us.mapM f w).1, u.2.index < (us.mapM f w).2.size) ∧
        ((us.mapM f w).1.map fun u => (u.1, (us.mapM f w).2.expr u.2)) =
          us.map fun u => ((σ.map t.expr).target u.1, (t.expr u.2).subst (σ.map t.expr)) := by
  intro us
  induction us with
  | nil =>
    intro w _ hw _
    rw [mapM_nil_run]
    exact ⟨Extends.refl w, hw, by simp, rfl⟩
  | cons u us ih =>
    intro w htw hw hus
    -- the update is rewritten in a later table `w`, in which all trees are those of `t`
    have hu : u.2.index < t.size := hus u (by simp)
    have k := entered_subst hw (hσ.extends htw) (Nat.lt_of_lt_of_le hu htw.size_le)
    rw [expr_eq_of_extends ht htw hu, hσ.map_expr_eq ht htw] at k
    obtain ⟨hx, hc, hlt, heq⟩ := ih (subst σ u.2 w).2 (htw.trans k.continues) k.childrenFirst
      fun a ha => hus a (by simp [ha])
    rw [mapM_cons_run, hf]
    refine ⟨k.continues.trans hx, hc, ?_, ?_⟩
    · intro a ha
      rcases List.mem_cons.1 ha with rfl | ha
      · exact Nat.lt_of_lt_of_le k.lt_size hx.size_le
      · exact hlt a ha
    · rw [List.map_cons, List.map_cons, heq, expr_eq_of_extends k.childrenFirst hx k.lt_size,
        k.expr_eq, retarget_eq hw (hσ.extends htw), hσ.map_expr_eq ht htw]

/-- Substitution in a command of entries gives the rewritten command. -/
theorem substituted_substCommand {σ : TwoState ExprRef} {t : ExprTable} (ht : t.ChildrenFirst)
    (hσ : σ.ValidIn t) {c : Command ExprRef} (hc : ∀ e ∈ c.exprs, e.index < t.size) :
    Substituted t ((c.map t.expr).subst (σ.map t.expr)) (substCommand σ c t) := by
  cases c with
  | assert e =>
    have k := entered_subst ht hσ (hc e (by simp [Command.exprs]))
    exact ⟨k.continues, k.childrenFirst, List.forall_mem_singleton.2 k.lt_size,
      congrArg Command.assert k.expr_eq⟩
  | assume e =>
    have k := entered_subst ht hσ (hc e (by simp [Command.exprs]))
    exact ⟨k.continues, k.childrenFirst, List.forall_mem_singleton.2 k.lt_size,
      congrArg Command.assume k.expr_eq⟩
  | assign updates =>
    obtain ⟨hx, hc', hlt, heq⟩ := substituted_updates ht hσ
      (fun u => do
        let t ← get
        let target := t.retarget σ u.1
        let value ← subst σ u.2
        pure (target, value))
      (fun _ _ => rfl) updates t (Extends.refl t) ht
      fun u hu => hc u.2 (List.mem_map.2 ⟨u, hu, rfl⟩)
    refine ⟨hx, hc', ?_, ?_⟩
    · intro e he
      obtain ⟨u, hu, rfl⟩ := List.mem_map.1 he
      exact hlt u hu
    · show Command.assign _ = Command.assign _
      rw [List.map_map]
      exact congrArg Command.assign heq

end ExprTable

end AtomicMovers
