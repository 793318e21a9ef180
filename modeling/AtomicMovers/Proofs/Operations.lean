import AtomicMovers.Proofs.Growth

/-!
# What the operations on programs yield

One statement for each way to append to a program: to its variables, expressions, blocks, procedures,
implementations and declarations.
-/

namespace AtomicMovers

open Program

variable {p : Program}

/-! ## Expressions -/

/-- A computation on the table of expressions alone. -/
theorem yields_onExprs {α : Type} (hp : p.Closed) {m : StateM ExprTable α}
    {Q : α → Program → Prop} (continues : p.exprs.Extends (m p.exprs).2)
    (childrenFirst : (m p.exprs).2.ChildrenFirst)
    (below : (m p.exprs).2.VarsBelow p.vars.size)
    (post : Q (m p.exprs).1 { p with exprs := (m p.exprs).2 }) : Yields p (onExprs m) Q := by
  have grows : p.Extends { p with exprs := (m p.exprs).2 } :=
    { Extends.refl p with exprs := continues }
  refine ⟨grows, ?_, post⟩
  exact hp.of_within grows.within childrenFirst (fun n hn => .inr (below n hn))
    (fun _ h => .inl h) (fun _ h => .inl h) (fun _ h => .inl h) (fun _ h => .inl h)
    (fun _ h => .inl h)

/-- The expression `r` of the program has the tree `e`. -/
def Program.HasTree (p : Program) (r : ExprRef) (e : Expr) : Prop := p.HasExpr r ∧ p.expr r = e

theorem Program.HasTree.extends {q r : Program} {x : ExprRef} {e : Expr} (h : q.HasTree x e)
    (hq : q.Closed) (hqr : q.Extends r) : r.HasTree x e :=
  ⟨hqr.within.hasExpr h.1, (hqr.expr_eq hq h.1).trans h.2⟩

theorem Program.HasTree.varsBelow {r : ExprRef} {e : Expr} (h : p.HasTree r e) (hp : p.Closed) :
    e.VarsBelow p.vars.size :=
  h.2 ▸ hp.varsBelow_expr r

/-- The program `q` is `p` with more expressions. -/
structure Program.AddsExprs (p q : Program) : Prop where
  continues : p.exprs.Extends q.exprs
  rest : q = { p with exprs := q.exprs }

namespace Program.AddsExprs

variable {q r : Program}

theorem refl (p : Program) : p.AddsExprs p := ⟨ExprTable.Extends.refl _, rfl⟩

theorem trans (h : p.AddsExprs q) (k : q.AddsExprs r) : p.AddsExprs r where
  continues := h.continues.trans k.continues
  rest := by rw [k.rest, h.rest]

theorem toExtends (h : p.AddsExprs q) : p.Extends q := by
  rw [h.rest]
  exact { Extends.refl p with exprs := h.continues }

theorem blocks_eq (h : p.AddsExprs q) : q.blocks = p.blocks := by rw [h.rest]

end Program.AddsExprs

/-- A new layer over expressions that are there. -/
theorem yields_newNode (hp : p.Closed) {n : Node} (children : ∀ c ∈ n.children, p.HasExpr c)
    (vars : ∀ v ∈ n.varRefs, p.HasVar v) :
    Yields p (newNode n) fun r q => p.AddsExprs q ∧ q.HasTree r (n.toExpr p.expr) :=
  yields_onExprs hp (ExprTable.extends_add n p.exprs) (hp.childrenFirst.add children)
    (ExprTable.VarsBelow.add hp.nodes vars)
    ⟨⟨ExprTable.extends_add n p.exprs, rfl⟩, by simp [HasExpr, ExprTable.add, ExprTable.size],
      ExprTable.expr_add hp.childrenFirst children⟩

/-! One statement for each kind of layer. -/

theorem yields_newLit (hp : p.Closed) (value : Literal) :
    Yields p (newNode (.lit value)) fun r q => p.AddsExprs q ∧ q.HasTree r (.lit value) :=
  yields_newNode hp (by simp [Node.children]) (by simp [Node.varRefs])

theorem yields_newVar (hp : p.Closed) {v : VarRef} (hv : p.HasVar v) :
    Yields p (newNode (.var v)) fun r q => p.AddsExprs q ∧ q.HasTree r (.var v) :=
  yields_newNode hp (by simp [Node.children]) (by simpa [Node.varRefs] using hv)

theorem yields_newOld (hp : p.Closed) {r : ExprRef} {e : Expr} (h : p.HasTree r e) :
    Yields p (newNode (.old r)) fun r' q => p.AddsExprs q ∧ q.HasTree r' (.old e) := by
  have k := yields_newNode hp (n := .old r) (by simpa [Node.children] using h.1)
    (by simp [Node.varRefs])
  rwa [Node.toExpr, h.2] at k

theorem yields_newUnary (hp : p.Closed) (op : UnaryOp) {r : ExprRef} {e : Expr}
    (h : p.HasTree r e) :
    Yields p (newNode (.unary op r)) fun r' q => p.AddsExprs q ∧ q.HasTree r' (.unary op e) := by
  have k := yields_newNode hp (n := .unary op r) (by simpa [Node.children] using h.1)
    (by simp [Node.varRefs])
  rwa [Node.toExpr, h.2] at k

theorem yields_newBinary (hp : p.Closed) (op : BinaryOp) {r₁ r₂ : ExprRef} {e₁ e₂ : Expr}
    (h₁ : p.HasTree r₁ e₁) (h₂ : p.HasTree r₂ e₂) :
    Yields p (newNode (.binary op r₁ r₂)) fun r q =>
      p.AddsExprs q ∧ q.HasTree r (.binary op e₁ e₂) := by
  have k := yields_newNode hp (n := .binary op r₁ r₂)
    (by simpa [Node.children] using ⟨h₁.1, h₂.1⟩) (by simp [Node.varRefs])
  rwa [Node.toExpr, h₁.2, h₂.2] at k

theorem yields_newQuant (hp : p.Closed) (q : Quantifier) {bound : List VarRef}
    (hbound : ∀ v ∈ bound, p.HasVar v) {r : ExprRef} {e : Expr} (h : p.HasTree r e) :
    Yields p (newNode (.quant q bound r)) fun r' p' =>
      p.AddsExprs p' ∧ p'.HasTree r' (.quant q bound e) := by
  have k := yields_newNode hp (n := .quant q bound r) (by simpa [Node.children] using h.1)
    (by simpa [Node.varRefs] using hbound)
  rwa [Node.toExpr, h.2] at k

/-- A substitution adds what it has to. -/
theorem yields_subst (hp : p.Closed) {σ : TwoState ExprRef} (hσ : σ.ValidIn p.exprs) {r : ExprRef}
    {e : Expr} (h : p.HasTree r e) :
    Yields p (onExprs (ExprTable.subst σ r)) fun r' q =>
      p.AddsExprs q ∧ q.HasTree r' (e.subst (σ.map p.expr)) := by
  have k := ExprTable.entered_subst hp.childrenFirst hσ h.1
  have tree : p.exprs.expr r = e := h.2
  rw [tree] at k
  exact yields_onExprs hp k.continues k.childrenFirst (ExprTable.VarsBelow.subst hp.nodes r)
    ⟨⟨k.continues, rfl⟩, k.lt_size, k.expr_eq⟩

section Conjunction

variable {α : Type} {conjunct : α → StateM Program ExprRef} {tree : α → Expr} {as : List α}

/-- Conjuncts that are made one after the other, each put in front of what is there. -/
theorem yields_addConjuncts (hp : p.Closed)
    (h : ∀ a ∈ as, ∀ q, p.AddsExprs q → q.Closed →
      Yields q (conjunct a) fun r q' => q.AddsExprs q' ∧ q'.HasTree r (tree a))
    {conj : ExprRef} {e : Expr} (hconj : p.HasTree conj e) :
    Yields p (as.foldlM (fun conj a => do
        let e ← conjunct a
        newNode (.binary .and e conj)) conj) fun r q =>
      p.AddsExprs q ∧ q.HasTree r ((as.map tree).foldl (fun conj e => e.and conj) e) := by
  induction as generalizing p conj e with
  | nil => exact Yields.pure hp ⟨.refl p, hconj⟩
  | cons a as ih =>
    rw [List.forall_mem_cons] at h
    rw [List.foldlM_cons]
    have first : Yields p (conjunct a >>= fun e => newNode (.binary .and e conj)) fun r q =>
        p.AddsExprs q ∧ q.HasTree r ((tree a).and e) := by
      refine (h.1 p (.refl p) hp).bind fun x q hpq hq ⟨adds, hx⟩ => ?_
      exact (yields_newBinary hq .and hx (hconj.extends hp hpq)).weaken
        fun r q' _ _ ⟨adds', hr⟩ => ⟨adds.trans adds', hr⟩
    refine first.bind fun x q _ hq ⟨adds, hx⟩ => ?_
    exact (ih hq (fun b hb r hqr => h.2 b hb r (adds.trans hqr)) hx).weaken
      fun r q' _ _ ⟨adds', hr⟩ => ⟨adds.trans adds', hr⟩

theorem yields_newConjunction (hp : p.Closed)
    (h : ∀ a ∈ as, ∀ q, p.AddsExprs q → q.Closed →
      Yields q (conjunct a) fun r q' => q.AddsExprs q' ∧ q'.HasTree r (tree a)) :
    Yields p (newConjunction conjunct as) fun r q =>
      p.AddsExprs q ∧ q.HasTree r (Expr.conjoin (as.map tree)) := by
  unfold newConjunction
  refine (yields_newLit hp (.bool true)).bind fun start q _ hq ⟨adds, hstart⟩ => ?_
  exact (yields_addConjuncts hq (fun a ha r hqr => h a ha r (adds.trans hqr)) hstart).weaken
    fun r q' _ _ ⟨adds', hr⟩ => ⟨adds.trans adds', hr⟩

end Conjunction

theorem yields_newExpr (hp : p.Closed) {e : Expr} (he : e.VarsBelow p.vars.size) :
    Yields p (newExpr e) fun r q => q.HasTree r e := by
  have k := ExprTable.entered_addTree e p.exprs hp.childrenFirst
  exact yields_onExprs hp k.continues k.childrenFirst
    (ExprTable.VarsBelow.addTree e hp.nodes he) ⟨k.lt_size, k.expr_eq⟩

/-- The root of a tree that is entered is a new expression. -/
theorem not_hasExpr_newExpr (hp : p.Closed) (e : Expr) : ¬p.HasExpr (newExpr e p).1 := by
  have le : p.exprs.size ≤ (ExprTable.addTree e p.exprs).1.index := by
    have grown (x : Expr) (t : ExprTable) (h : t.ChildrenFirst) :=
      (ExprTable.entered_addTree x t h).continues.size_le
    have h := hp.childrenFirst
    cases e with
    | lit value => exact Nat.le_refl _
    | var v => exact Nat.le_refl _
    | old x => exact grown x _ h
    | unary op x => exact grown x _ h
    | binary op l r =>
      have left := ExprTable.entered_addTree l _ h
      exact Nat.le_trans left.continues.size_le (grown r _ left.childrenFirst)
    | call f args => exact (ExprTable.entered_addTrees args _ h).1.size_le
    | quant q bound body => exact grown body _ h
  exact Nat.not_lt.2 le

/-! ## Variables -/

theorem yields_newVariable (hp : p.Closed) (x : Variable) :
    Yields p (newVariable x) fun v q =>
      v.index = p.vars.size ∧ q.vars.size = p.vars.size + 1 ∧ q.var v = x := by
  have grows : p.Extends { p with vars := p.vars.push x } :=
    { Extends.refl p with
      vars_le := by simp
      var_eq := by
        intro v hv
        have hv' : v.index < p.vars.size := hv
        simp [Program.var, Array.getD_eq_getD_getElem?, Array.getElem?_push, Nat.ne_of_lt hv'] }
  refine ⟨grows, ?_, rfl, ?_, ?_⟩
  · exact hp.of_within grows.within hp.childrenFirst (fun _ h => .inl h) (fun _ h => .inl h)
      (fun _ h => .inl h) (fun _ h => .inl h) (fun _ h => .inl h) (fun _ h => .inl h)
  · simp [newVariable]
  · simp [newVariable, Program.var, Array.getD_eq_getD_getElem?]

/-- The variables `ws` are new in `q`, one for each of `vs`, with what `h` makes of it. -/
structure FreshCopies (h : Variable → Variable) (p : Program) (vs ws : List VarRef) (q : Program) :
    Prop where
  length_eq : ws.length = vs.length
  nodup : ws.Nodup
  fresh : ∀ w ∈ ws, ¬p.HasVar w
  valid : ∀ w ∈ ws, q.HasVar w
  var_eq : ∀ u ∈ vs.zip ws, q.var u.2 = h (p.var u.1)

theorem FreshCopies.grows {R : Block → Block → Prop} {h : Variable → Variable}
    {vs ws : List VarRef} {q r : Program} (k : FreshCopies h p vs ws q) (hqr : q.Grows R r) :
    FreshCopies h p vs ws r where
  length_eq := k.length_eq
  nodup := k.nodup
  fresh := k.fresh
  valid w hw := hqr.within.hasVar (k.valid w hw)
  var_eq u hu := by
    rw [hqr.var_eq u.2 (k.valid u.2 (List.of_mem_zip hu).2), k.var_eq u hu]

/-- Copies of variables that were there earlier. -/
theorem FreshCopies.ofEarlier {R : Block → Block → Prop} {h : Variable → Variable}
    {vs ws : List VarRef} {q r : Program} (k : FreshCopies h q vs ws r) (hpq : p.Grows R q)
    (hvs : ∀ v ∈ vs, p.HasVar v) : FreshCopies h p vs ws r where
  length_eq := k.length_eq
  nodup := k.nodup
  fresh w hw hwp := k.fresh w hw (hpq.within.hasVar hwp)
  valid := k.valid
  var_eq u hu := by rw [k.var_eq u hu, hpq.var_eq u.1 (hvs u.1 (List.of_mem_zip hu).1)]

/-- Copies of some variables, followed by copies of others. -/
theorem FreshCopies.append {h : Variable → Variable} {vs ws vs' ws' : List VarRef} {q r : Program}
    (hpq : p.Extends q) (k : FreshCopies h p vs ws q) (hqr : q.Extends r)
    (hvs' : ∀ v ∈ vs', p.HasVar v) (k' : FreshCopies h q vs' ws' r) :
    FreshCopies h p (vs ++ vs') (ws ++ ws') r where
  length_eq := by rw [List.length_append, List.length_append, k.length_eq, k'.length_eq]
  nodup := List.nodup_append.2
    ⟨k.nodup, k'.nodup, fun w hw w' hw' heq => k'.fresh w' hw' (heq ▸ k.valid w hw)⟩
  fresh w hw hwp := by
    rcases List.mem_append.1 hw with hw | hw
    · exact k.fresh w hw hwp
    · exact k'.fresh w hw (hpq.within.hasVar hwp)
  valid w hw := by
    rcases List.mem_append.1 hw with hw | hw
    · exact hqr.within.hasVar (k.valid w hw)
    · exact k'.valid w hw
  var_eq u hu := by
    rw [List.zip_append k.length_eq.symm] at hu
    rcases List.mem_append.1 hu with hu | hu
    · exact (k.grows hqr).var_eq u hu
    · rw [k'.var_eq u hu, hpq.var_eq u.1 (hvs' u.1 (List.of_mem_zip hu).1)]

/-- A new variable in the place of one that was there. -/
theorem yields_newCopy (hp : p.Closed) (h : Variable → Variable) (v : VarRef) :
    Yields p (newVariable (h (p.var v))) fun w q => FreshCopies h p [v] [w] q := by
  refine (yields_newVariable hp _).weaken fun w q _ _ ⟨hindex, hsize, hvar⟩ =>
    ⟨rfl, List.nodup_singleton w, ?_, ?_, ?_⟩
  · simp [HasVar, hindex]
  · simp [HasVar, hindex, hsize]
  · simpa using hvar

/-- Steps that each make a new variable in the place of one, taken one after the other. -/
theorem yields_mapM_freshCopies {β : Type} (hp : p.Closed) {f : VarRef → StateM Program β}
    {new : β → VarRef} {h : Variable → Variable} {Q : VarRef → β → Program → Prop}
    (stable : ∀ v b q r, q.Extends r → q.Closed → Q v b q → Q v b r)
    (hf : ∀ v q, q.Closed → q.HasVar v →
      Yields q (f v) fun b r => FreshCopies h q [v] [new b] r ∧ Q v b r)
    {vs : List VarRef} (hvs : ∀ v ∈ vs, p.HasVar v) :
    Yields p (vs.mapM f) fun bs q =>
      FreshCopies h p vs (bs.map new) q ∧ List.Forall₂ (fun v b => Q v b q) vs bs := by
  -- `p` grows along: what is new after the first step was not there before it
  induction vs generalizing p with
  | nil =>
    rw [List.mapM_nil]
    exact Yields.pure hp ⟨⟨rfl, List.nodup_nil, by simp, by simp, by simp⟩, .nil⟩
  | cons v vs ih =>
    rw [List.forall_mem_cons] at hvs
    rw [List.mapM_cons]
    refine (hf v p hp hvs.1).bind fun b q hpq hq hb => ?_
    refine (ih hq fun x hx => hpq.within.hasVar (hvs.2 x hx)).bind fun bs r hqr hr hbs => ?_
    exact Yields.pure hr ⟨hb.1.append hpq hqr hvs.2 hbs.1,
      .cons (stable v b q r hqr hq hb.2) hbs.2⟩

/-- Making one variable after the other. -/
theorem yields_mapM_newVariable (hp : p.Closed) {f : VarRef → StateM Program VarRef}
    {h : Variable → Variable} (hf : ∀ v q, f v q = newVariable (h (q.var v)) q)
    {vs : List VarRef} (hvs : ∀ v ∈ vs, p.HasVar v) :
    Yields p (vs.mapM f) (FreshCopies h p vs) := by
  have each (v : VarRef) (q : Program) (hq : q.Closed) (_ : q.HasVar v) :
      Yields q (f v) fun w r => FreshCopies h q [v] [id w] r ∧ True := by
    have k := yields_newCopy hq h v
    exact ⟨by rw [hf]; exact k.grows, by rw [hf]; exact k.closed, by rw [hf]; exact ⟨k.post, trivial⟩⟩
  refine (yields_mapM_freshCopies hp (Q := fun _ _ _ => True) (fun _ _ _ _ _ _ _ => trivial) each
    hvs).weaken fun ws q _ _ hws => ?_
  rw [← List.map_id ws]
  exact hws.1

/-! ## Blocks -/

theorem yields_newBlock (hp : p.Closed) {b : Block} (hb : b.ValidIn p) :
    Yields p (newBlock b) fun r q =>
      r.index = p.blocks.size ∧ q.HasBlock r ∧ q.block r = b := by
  have grows : p.Extends { p with blocks := p.blocks.push b } :=
    { Extends.refl p with
      blocks_le := by simp
      block := by
        intro r hr
        have hr' : r.index < p.blocks.size := hr
        simp [Program.block, Array.getD_eq_getD_getElem?, Array.getElem?_push,
          Nat.ne_of_lt hr'] }
  refine ⟨grows, ?_, rfl, ?_, ?_⟩
  · refine hp.of_within grows.within hp.childrenFirst (fun _ h => .inl h) ?_
      (fun _ h => .inl h) (fun _ h => .inl h) (fun _ h => .inl h) (fun _ h => .inl h)
    intro x hx
    rcases Array.mem_push.1 hx with hx | rfl
    · exact .inl hx
    · exact .inr (hb.mono grows.within)
  · simp [newBlock, HasBlock]
  · simp [newBlock, Program.block, Array.getD_eq_getD_getElem?]

/-! Changing an entry of the table of blocks, for the few places that do not only append. -/

theorem block_modifyBlock_self {b : BlockRef} (hb : p.HasBlock b) (f : Block → Block) :
    (p.modifyBlock b f).block b = f (p.block b) := by
  have hb' : b.index < p.blocks.size := hb
  simp [Program.block, modifyBlock, Array.getD_eq_getD_getElem?, Array.getElem_modify, hb']

theorem block_modifyBlock_of_ne {b c : BlockRef} (h : c ≠ b) (f : Block → Block) :
    (p.modifyBlock b f).block c = p.block c := by
  have h' : b.index ≠ c.index := fun heq => h (congrArg BlockRef.mk heq.symm)
  simp [Program.block, modifyBlock, Array.getD_eq_getD_getElem?, Array.getElem?_modify, h']

theorem grows_modifyBlock {R : Block → Block → Prop} (hR : ∀ x, R x x) {b : BlockRef}
    {f : Block → Block} (hf : ∀ x, R x (f x)) : p.Grows R (p.modifyBlock b f) :=
  { Grows.refl hR p with
    blocks_le := by simp [modifyBlock]
    block := by
      intro c hc
      by_cases h : c = b
      · rw [h, block_modifyBlock_self (h ▸ hc)]
        exact hf _
      · rw [block_modifyBlock_of_ne h]
        exact hR _ }

theorem closed_modifyBlock (hp : p.Closed) {b : BlockRef} {f : Block → Block}
    (hf : (f (p.block b)).ValidIn p) : (p.modifyBlock b f).Closed := by
  have w : p.Within (p.modifyBlock b f) :=
    (grows_modifyBlock (R := fun _ _ => True) (fun _ => trivial) (fun _ => trivial)).within
  refine hp.of_within w hp.childrenFirst (fun _ h => .inl h) ?_
    (fun _ h => .inl h) (fun _ h => .inl h) (fun _ h => .inl h) (fun _ h => .inl h)
  intro x hx
  obtain ⟨i, hi, rfl⟩ := Array.mem_iff_getElem.1 hx
  have hi' : i < p.blocks.size := by simpa [modifyBlock] using hi
  -- an entry is the changed one or an old one
  by_cases h : b.index = i
  · right
    have : (p.modifyBlock b f).blocks[i] = f (p.block b) := by
      subst h
      simp [modifyBlock, Program.block, Array.getElem_modify, hi']
    rw [this]
    exact hf.mono w
  · left
    have : (p.modifyBlock b f).blocks[i] = p.blocks[i] := by
      simp [modifyBlock, Array.getElem_modify, h]
    rw [this]
    exact Array.getElem_mem _

/-! ## The top level -/

theorem globals_append (p : Program) (ds : List Declaration) :
    { p with declarations := p.declarations ++ ds }.globals =
      p.globals ++ ds.filterMap Declaration.global? := by
  simp [globals]

/-- A declaration that is not that of a global. -/
theorem yields_declare (hp : p.Closed) {d : Declaration} (hd : d.ValidIn p)
    (hg : d.global? = none) : Yields p (declare d) fun _ q =>
      q = { p with declarations := p.declarations ++ [d] } := by
  have grows : p.Extends { p with declarations := p.declarations ++ [d] } :=
    { Extends.refl p with globals_eq := by rw [globals_append]; simp [hg] }
  refine ⟨grows, ?_, rfl⟩
  refine hp.of_within grows.within hp.childrenFirst (fun _ h => .inl h) (fun _ h => .inl h)
    (fun _ h => .inl h) (fun _ h => .inl h) ?_ (fun _ h => .inl h)
  intro x hx
  rcases List.mem_append.1 hx with hx | hx
  · exact .inl hx
  · rw [List.mem_singleton.1 hx]
    exact .inr (hd.mono grows.within)

/-- A new function changes the declarations only, and no global among them. -/
theorem yields_declareSignature (hp : p.Closed) (sig : FunctionSig) :
    Yields p (declareSignature sig) fun _ q =>
      q.procedures = p.procedures ∧ q.implementations = p.implementations ∧
        q.implementationRefs = p.implementationRefs := by
  have run : ((declareSignature sig) p).2 =
      if p.functions.any fun f => f.name = sig.name then p
      else
        { p with
          declarations :=
            p.declarations.takeWhile Declaration.precedesFunctions ++
              .function sig :: p.declarations.dropWhile Declaration.precedesFunctions } := rfl
  by_cases hdecl : p.functions.any fun f => f.name = sig.name
  · rw [if_pos hdecl] at run
    exact ⟨by rw [run]; exact Extends.refl p, by rw [run]; exact hp, by rw [run]; simp⟩
  · rw [if_neg hdecl] at run
    -- what is read off the declarations does not see the function in their middle
    have split {β : Type} (g : Declaration → Option β) (hg : g (.function sig) = none) :
        ((declareSignature sig) p).2.declarations.filterMap g = p.declarations.filterMap g := by
      rw [run, List.filterMap_append, List.filterMap_cons_none hg, ← List.filterMap_append,
        List.takeWhile_append_dropWhile]
    have grows : p.Extends ((declareSignature sig) p).2 := by
      have same : p.Extends { p with declarations := ((declareSignature sig) p).2.declarations } :=
        { Extends.refl p with globals_eq := split _ rfl }
      rw [run] at same ⊢
      exact same
    refine ⟨grows, ?_, by rw [run], by rw [run], split _ rfl⟩
    have w := grows.within
    rw [run] at w ⊢
    refine hp.of_within w hp.childrenFirst (fun _ h => .inl h) (fun _ h => .inl h)
      (fun _ h => .inl h) (fun _ h => .inl h) ?_ (fun _ h => .inl h)
    intro d hd
    rcases List.mem_append.1 hd with hd | hd
    · exact .inl (List.takeWhile_subset _ hd)
    · rcases List.mem_cons.1 hd with rfl | hd
      · exact .inr trivial
      · exact .inl (List.dropWhile_subset _ hd)

theorem yields_newProcedure (hp : p.Closed) {x : Procedure} (hx : x.ValidIn p) :
    Yields p (newProcedure x) fun r q =>
      r.index = p.procedures.size ∧ q.procedure r = x ∧ q.HasProcedure r ∧
        q.implementations = p.implementations ∧
        q.implementationRefs = p.implementationRefs := by
  have new : Yields p (newUndeclaredProcedure x) fun r q =>
      r.index = p.procedures.size ∧ q = { p with procedures := p.procedures.push x } := by
    have grows : p.Extends { p with procedures := p.procedures.push x } :=
      { Extends.refl p with
        procedures_le := by simp
        procedure_eq := by
          intro r hr
          have hr' : r.index < p.procedures.size := hr
          simp [Program.procedure, Array.getD_eq_getD_getElem?, Array.getElem?_push,
            Nat.ne_of_lt hr'] }
    refine ⟨grows, ?_, rfl, rfl⟩
    refine hp.of_within grows.within hp.childrenFirst (fun _ h => .inl h) (fun _ h => .inl h) ?_
      (fun _ h => .inl h) (fun _ h => .inl h) (fun _ h => .inl h)
    intro y hy
    rcases Array.mem_push.1 hy with hy | rfl
    · exact .inl hy
    · exact .inr (hx.mono grows.within)
  refine new.bind fun r q _ hq hr => ?_
  obtain ⟨hindex, rfl⟩ := hr
  have hr : HasProcedure { p with procedures := p.procedures.push x } r := by
    simp [HasProcedure, hindex]
  refine (yields_declare hq (d := .procedure r) hr rfl).bind fun _ q' _ hq' hd => ?_
  subst hd
  refine Yields.pure hq' ⟨hindex, ?_, hr, rfl, ?_⟩
  · simp [Program.procedure, Array.getD_eq_getD_getElem?, hindex]
  · simp [implementationRefs, Declaration.implementation?]

theorem yields_newImplementation (hp : p.Closed) {x : Implementation} (hx : x.ValidIn p) :
    Yields p (newImplementation x) fun i q =>
      q.implementation i = x ∧ q.implementationRefs = p.implementationRefs ++ [i] ∧
        q.procedures = p.procedures := by
  have new : Yields p (newUndeclaredImplementation x) fun i q =>
      i.index = p.implementations.size ∧
        q = { p with implementations := p.implementations.push x } := by
    have grows : p.Extends { p with implementations := p.implementations.push x } :=
      { Extends.refl p with
        implementations_le := by simp
        implementation_eq := by
          intro i hi
          have hi' : i.index < p.implementations.size := hi
          simp [Program.implementation, Array.getD_eq_getD_getElem?, Array.getElem?_push,
            Nat.ne_of_lt hi'] }
    refine ⟨grows, ?_, rfl, rfl⟩
    refine hp.of_within grows.within hp.childrenFirst (fun _ h => .inl h) (fun _ h => .inl h)
      (fun _ h => .inl h) ?_ (fun _ h => .inl h) (fun _ h => .inl h)
    intro y hy
    rcases Array.mem_push.1 hy with hy | rfl
    · exact .inl hy
    · exact .inr (hx.mono grows.within)
  refine new.bind fun i q _ hq hi => ?_
  obtain ⟨hindex, rfl⟩ := hi
  have hi : HasImplementation { p with implementations := p.implementations.push x } i := by
    simp [HasImplementation, hindex]
  refine (yields_declare hq (d := .implementation i) hi rfl).bind fun _ q' _ hq' hd => ?_
  subst hd
  refine Yields.pure hq' ⟨?_, ?_, rfl⟩
  · simp [Program.implementation, Array.getD_eq_getD_getElem?, hindex]
  · simp [implementationRefs, Declaration.implementation?]

end AtomicMovers
