import AtomicMovers.Program.Expr

/-!
# Facts about the table of expressions

Adding entries never changes the tree of an entry that was there before (`expr_eq_of_extends`), and
the tree of an entered tree is that tree (`expr_addTree`).
-/

namespace AtomicMovers

namespace ExprTable

/-- The table `u` continues the table `t`. -/
def Extends (t u : ExprTable) : Prop := ∃ added : Array Node, u.nodes = t.nodes ++ added

theorem Extends.refl (t : ExprTable) : t.Extends t := ⟨#[], by simp⟩

theorem Extends.trans {t u w : ExprTable} (h : t.Extends u) (k : u.Extends w) : t.Extends w := by
  obtain ⟨xs, hx⟩ := h
  obtain ⟨ys, hy⟩ := k
  exact ⟨xs ++ ys, by rw [hy, hx, Array.append_assoc]⟩

theorem Extends.size_le {t u : ExprTable} (h : t.Extends u) : t.size ≤ u.size := by
  obtain ⟨xs, hx⟩ := h
  simp [size, hx]

/-- Old entries keep their layer. -/
theorem Extends.node_eq {t u : ExprTable} (h : t.Extends u) {e : ExprRef} (he : e.index < t.size) :
    u.node e = t.node e := by
  obtain ⟨xs, hx⟩ := h
  have he' : e.index < t.nodes.size := he
  simp [node, hx, Array.getD_eq_getD_getElem?, Array.getElem?_append, he']

/-! ## Adding one entry -/

theorem extends_add (n : Node) (t : ExprTable) : t.Extends (add n t).2 :=
  ⟨#[n], by simp [add]⟩

theorem node_add (n : Node) (t : ExprTable) : (add n t).2.node (add n t).1 = n := by
  simp [add, node, Array.getD_eq_getD_getElem?]

theorem ChildrenFirst.add {t : ExprTable} (h : t.ChildrenFirst) {n : Node}
    (hn : ∀ c ∈ n.children, c.index < t.size) : (add n t).2.ChildrenFirst := by
  intro i m hm c hc
  rcases Nat.lt_or_ge i t.nodes.size with hi | hi
  · exact h i m (by simpa [ExprTable.add, Array.getElem?_push, Nat.ne_of_lt hi] using hm) c hc
  · have hi' : i = t.nodes.size := by
      have hlt := (Array.getElem?_eq_some_iff.1 hm).1
      simp [ExprTable.add] at hlt
      omega
    subst hi'
    simp [ExprTable.add] at hm
    exact hn c (hm ▸ hc)

/-- Where children come first, an entry has only children before it. -/
theorem ChildrenFirst.lt {t : ExprTable} (h : t.ChildrenFirst) {e : ExprRef}
    (he : e.index < t.size) {c : ExprRef} (hc : c ∈ (t.node e).children) : c.index < e.index := by
  have he' : e.index < t.nodes.size := he
  refine h e.index (t.node e) ?_ c hc
  simp [node, Array.getD_eq_getD_getElem?, he']

/-! ## Trees -/

/-- Cutting off at a depth beyond the position of an entry cuts off nothing, and further entries do
not matter. -/
theorem exprWithin_eq {t u : ExprTable} (h : t.ChildrenFirst) (hu : t.Extends u) :
    ∀ (d k : Nat) (e : ExprRef), e.index < t.size → e.index < d → e.index < k →
      u.exprWithin d e = t.exprWithin k e := by
  intro d
  induction d with
  | zero => intro k e _ hd; omega
  | succ d ih =>
    intro k e he hd hk
    cases k with
    | zero => omega
    | succ k =>
      have child (c : ExprRef) (hc : c ∈ (t.node e).children) :
          u.exprWithin d c = t.exprWithin k c := by
        have hlt := h.lt he hc
        exact ih k c (by omega) (by omega) (by omega)
      rw [exprWithin, exprWithin, hu.node_eq he]
      cases hn : t.node e with
      | lit value => rfl
      | var v => rfl
      | old x => simp [child x (by simp [hn, Node.children])]
      | unary op x => simp [child x (by simp [hn, Node.children])]
      | binary op l r =>
        simp [child l (by simp [hn, Node.children]), child r (by simp [hn, Node.children])]
      | call f args =>
        simp only [Expr.call.injEq, true_and]
        exact List.map_congr_left fun c hc => child c (by simpa [hn, Node.children] using hc)
      | quant q bound body => simp [child body (by simp [hn, Node.children])]

/-- The tree of an entry stays the same while the table grows. -/
theorem expr_eq_of_extends {t u : ExprTable} (h : t.ChildrenFirst) (hu : t.Extends u)
    {e : ExprRef} (he : e.index < t.size) : u.expr e = t.expr e :=
  exprWithin_eq h hu _ _ e he (by omega) (by omega)

/-- The children of an entry may be read as whole trees. -/
theorem exprWithin_child {t : ExprTable} (h : t.ChildrenFirst) {e c : ExprRef}
    (he : e.index < t.size) (hc : c ∈ (t.node e).children) :
    t.exprWithin e.index c = t.expr c := by
  have hlt := h.lt he hc
  exact exprWithin_eq h (Extends.refl t) _ _ c (by omega) hlt (by omega)

end ExprTable

/-- One layer over trees: the expression that a node stands for, given the trees of its children. -/
def Node.toExpr (tree : ExprRef → Expr) : Node → Expr
  | lit value => .lit value
  | var v => .var v
  | old e => .old (tree e)
  | unary op e => .unary op (tree e)
  | binary op l r => .binary op (tree l) (tree r)
  | call f args => .call f (args.map tree)
  | quant q bound body => .quant q bound (tree body)

namespace ExprTable

/-- The tree of an entry is its layer over the trees of its children. -/
theorem expr_eq_toExpr {t : ExprTable} (h : t.ChildrenFirst) {e : ExprRef}
    (he : e.index < t.size) : t.expr e = (t.node e).toExpr t.expr := by
  have child (c : ExprRef) (hc : c ∈ (t.node e).children) := exprWithin_child h he hc
  rw [expr, exprWithin]
  cases hn : t.node e with
  | lit value => rfl
  | var v => rfl
  | old x => simp [Node.toExpr, child x (by simp [hn, Node.children])]
  | unary op x => simp [Node.toExpr, child x (by simp [hn, Node.children])]
  | binary op l r =>
    simp [Node.toExpr, child l (by simp [hn, Node.children]),
      child r (by simp [hn, Node.children])]
  | call f args =>
    simp only [Node.toExpr, Expr.call.injEq, true_and]
    exact List.map_congr_left fun c hc => child c (by simpa [hn, Node.children] using hc)
  | quant q bound body => simp [Node.toExpr, child body (by simp [hn, Node.children])]

/-- The tree of a new entry. -/
theorem expr_add {t : ExprTable} (h : t.ChildrenFirst) {n : Node}
    (hn : ∀ c ∈ n.children, c.index < t.size) :
    (add n t).2.expr (add n t).1 = n.toExpr t.expr := by
  have hu := h.add hn
  have hlt : (add n t).1.index < (add n t).2.size := by simp [add, size]
  rw [expr_eq_toExpr hu hlt, node_add]
  have child (c : ExprRef) (hc : c ∈ n.children) : (add n t).2.expr c = t.expr c :=
    expr_eq_of_extends h (extends_add n t) (hn c hc)
  cases n with
  | lit value => rfl
  | var v => rfl
  | old x => simp [Node.toExpr, child x (by simp [Node.children])]
  | unary op x => simp [Node.toExpr, child x (by simp [Node.children])]
  | binary op l r =>
    simp [Node.toExpr, child l (by simp [Node.children]), child r (by simp [Node.children])]
  | call f args =>
    simp only [Node.toExpr, Expr.call.injEq, true_and]
    exact List.map_congr_left fun c hc => child c (by simpa [Node.children] using hc)
  | quant q bound body => simp [Node.toExpr, child body (by simp [Node.children])]

/-- What entering a tree does: the table goes on, children still come first, and the new entry has
the tree. -/
structure Entered (t : ExprTable) (e : Expr) (r : ExprRef × ExprTable) : Prop where
  continues : t.Extends r.2
  childrenFirst : r.2.ChildrenFirst
  lt_size : r.1.index < r.2.size
  expr_eq : r.2.expr r.1 = e

/-- A new entry over entered children. -/
theorem Entered.ofAdd {t u : ExprTable} (hu : t.Extends u) (h : u.ChildrenFirst) {n : Node}
    (hn : ∀ c ∈ n.children, c.index < u.size) :
    Entered t (n.toExpr u.expr) (add n u) where
  continues := hu.trans (extends_add n u)
  childrenFirst := h.add hn
  lt_size := by simp [add, size]
  expr_eq := expr_add h hn

/-! The runs of `addTree` and `addTrees`, spelled out. -/

theorem addTree_lit (value : Literal) (t : ExprTable) : addTree (.lit value) t = add (.lit value) t :=
  rfl

theorem addTree_var (v : VarRef) (t : ExprTable) : addTree (.var v) t = add (.var v) t := rfl

theorem addTree_old (e : Expr) (t : ExprTable) :
    addTree (.old e) t = add (.old (addTree e t).1) (addTree e t).2 := rfl

theorem addTree_unary (op : UnaryOp) (e : Expr) (t : ExprTable) :
    addTree (.unary op e) t = add (.unary op (addTree e t).1) (addTree e t).2 := rfl

theorem addTree_binary (op : BinaryOp) (l r : Expr) (t : ExprTable) :
    addTree (.binary op l r) t =
      add (.binary op (addTree l t).1 (addTree r (addTree l t).2).1)
        (addTree r (addTree l t).2).2 := rfl

theorem addTree_call (f : String) (args : List Expr) (t : ExprTable) :
    addTree (.call f args) t = add (.call f (addTrees args t).1) (addTrees args t).2 := rfl

theorem addTree_quant (q : Quantifier) (bound : List VarRef) (body : Expr) (t : ExprTable) :
    addTree (.quant q bound body) t =
      add (.quant q bound (addTree body t).1) (addTree body t).2 := rfl

theorem addTrees_nil (t : ExprTable) : addTrees [] t = ([], t) := rfl

theorem addTrees_cons (e : Expr) (es : List Expr) (t : ExprTable) :
    addTrees (e :: es) t =
      ((addTree e t).1 :: (addTrees es (addTree e t).2).1, (addTrees es (addTree e t).2).2) := rfl

mutual

theorem entered_addTree : ∀ (e : Expr) (t : ExprTable), t.ChildrenFirst →
    Entered t e (addTree e t)
  | .lit value, t, h => by
    rw [addTree_lit]
    exact Entered.ofAdd (n := .lit value) (Extends.refl t) h (by simp [Node.children])
  | .var v, t, h => by
    rw [addTree_var]
    exact Entered.ofAdd (n := .var v) (Extends.refl t) h (by simp [Node.children])
  | .old e, t, h => by
    have k := entered_addTree e t h
    have := Entered.ofAdd k.continues k.childrenFirst
      (n := .old (addTree e t).1) (by simpa [Node.children] using k.lt_size)
    simpa [addTree_old, Node.toExpr, k.expr_eq] using this
  | .unary op e, t, h => by
    have k := entered_addTree e t h
    have := Entered.ofAdd k.continues k.childrenFirst
      (n := .unary op (addTree e t).1) (by simpa [Node.children] using k.lt_size)
    simpa [addTree_unary, Node.toExpr, k.expr_eq] using this
  | .binary op l r, t, h => by
    have kl := entered_addTree l t h
    have kr := entered_addTree r (addTree l t).2 kl.childrenFirst
    have hl : (addTree l t).1.index < (addTree r (addTree l t).2).2.size :=
      Nat.lt_of_lt_of_le kl.lt_size kr.continues.size_le
    have := Entered.ofAdd (kl.continues.trans kr.continues) kr.childrenFirst
      (n := .binary op (addTree l t).1 (addTree r (addTree l t).2).1)
      (by simpa [Node.children] using ⟨hl, kr.lt_size⟩)
    have el := expr_eq_of_extends kl.childrenFirst kr.continues kl.lt_size
    simpa [addTree_binary, Node.toExpr, el, kl.expr_eq, kr.expr_eq] using this
  | .call f args, t, h => by
    obtain ⟨hu, hf, hlt, he⟩ := entered_addTrees args t h
    have := Entered.ofAdd hu hf (n := .call f (addTrees args t).1)
      (by simpa [Node.children] using hlt)
    simpa [addTree_call, Node.toExpr, he] using this
  | .quant q bound body, t, h => by
    have k := entered_addTree body t h
    have := Entered.ofAdd k.continues k.childrenFirst
      (n := .quant q bound (addTree body t).1) (by simpa [Node.children] using k.lt_size)
    simpa [addTree_quant, Node.toExpr, k.expr_eq] using this

theorem entered_addTrees : ∀ (es : List Expr) (t : ExprTable), t.ChildrenFirst →
    t.Extends (addTrees es t).2 ∧ (addTrees es t).2.ChildrenFirst ∧
      (∀ c ∈ (addTrees es t).1, c.index < (addTrees es t).2.size) ∧
      (addTrees es t).1.map (addTrees es t).2.expr = es
  | [], t, h => by
    rw [addTrees_nil]
    exact ⟨Extends.refl t, h, by simp, rfl⟩
  | e :: es, t, h => by
    have k := entered_addTree e t h
    obtain ⟨hu, hf, hlt, he⟩ := entered_addTrees es (addTree e t).2 k.childrenFirst
    rw [addTrees_cons]
    refine ⟨k.continues.trans hu, hf, ?_, ?_⟩
    · intro c hc
      rcases List.mem_cons.1 hc with rfl | hc
      · exact Nat.lt_of_lt_of_le k.lt_size hu.size_le
      · exact hlt c hc
    · simp only [List.map_cons, expr_eq_of_extends k.childrenFirst hu k.lt_size, k.expr_eq, he]

end

/-- The tree of an entered tree is that tree. -/
theorem expr_addTree {t : ExprTable} (h : t.ChildrenFirst) (e : Expr) :
    (addTree e t).2.expr (addTree e t).1 = e :=
  (entered_addTree e t h).expr_eq

end ExprTable

end AtomicMovers
