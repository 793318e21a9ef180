import AtomicMovers.Program.Basic
import AtomicMovers.Proofs.TableSubstitution
import Mathlib.Tactic.MkIffOfInductiveProp

/-!
# Programs without dangling references

Positions in tables can be written down before the tables are long enough. A program is `Closed` if
that has not happened: every reference kept anywhere in it is a position of its table, and the
children of an expression come before it. Tables only grow, so a reference that is valid once stays
valid (`Within`).
-/

namespace AtomicMovers

/-! ## Valid references -/

namespace Program

def HasVar (p : Program) (v : VarRef) : Prop := v.index < p.vars.size

def HasExpr (p : Program) (e : ExprRef) : Prop := e.index < p.exprs.size

def HasBlock (p : Program) (b : BlockRef) : Prop := b.index < p.blocks.size

def HasProcedure (p : Program) (r : ProcRef) : Prop := r.index < p.procedures.size

def HasImplementation (p : Program) (i : ImplRef) : Prop := i.index < p.implementations.size

/-- The tables of `q` are as long as those of `p` or longer. -/
structure Within (p q : Program) : Prop where
  vars : p.vars.size ≤ q.vars.size
  exprs : p.exprs.size ≤ q.exprs.size
  blocks : p.blocks.size ≤ q.blocks.size
  procedures : p.procedures.size ≤ q.procedures.size
  implementations : p.implementations.size ≤ q.implementations.size

namespace Within

variable {p q r : Program}

theorem hasVar (h : p.Within q) {v : VarRef} (hv : p.HasVar v) : q.HasVar v :=
  Nat.lt_of_lt_of_le hv h.vars

theorem hasExpr (h : p.Within q) {e : ExprRef} (he : p.HasExpr e) : q.HasExpr e :=
  Nat.lt_of_lt_of_le he h.exprs

theorem hasBlock (h : p.Within q) {b : BlockRef} (hb : p.HasBlock b) : q.HasBlock b :=
  Nat.lt_of_lt_of_le hb h.blocks

theorem hasProcedure (h : p.Within q) {r : ProcRef} (hr : p.HasProcedure r) : q.HasProcedure r :=
  Nat.lt_of_lt_of_le hr h.procedures

theorem hasImplementation (h : p.Within q) {i : ImplRef} (hi : p.HasImplementation i) :
    q.HasImplementation i :=
  Nat.lt_of_lt_of_le hi h.implementations

end Within

end Program

/-- The variables that a layer refers to or binds. -/
def Node.varRefs : Node → List VarRef
  | var v => [v]
  | quant _ bound _ => bound
  | _ => []

/-- The blocks that control may continue at. -/
def Transfer.targets : Transfer → List BlockRef
  | goto targets => targets
  | _ => []

/-- The value that a body ends with. -/
def Transfer.values : Transfer → List ExprRef
  | returnValue e => [e]
  | _ => []

@[mk_iff]
structure Command.ValidIn (p : Program) (c : Command ExprRef) : Prop where
  exprs : ∀ e ∈ c.exprs, p.HasExpr e
  targets : ∀ v ∈ c.targets, p.HasVar v

@[mk_iff]
structure Transfer.ValidIn (p : Program) (t : Transfer) : Prop where
  targets : ∀ b ∈ t.targets, p.HasBlock b
  values : ∀ e ∈ t.values, p.HasExpr e

@[mk_iff]
structure Block.ValidIn (p : Program) (b : Block) : Prop where
  commands : ∀ c ∈ b.commands, c.ValidIn p
  transfer : b.transfer.ValidIn p

@[mk_iff]
structure Body.ValidIn (p : Program) (code : Body) : Prop where
  locals : ∀ v ∈ code.locals, p.HasVar v
  blocks : ∀ b ∈ code.blocks, p.HasBlock b

def Condition.ValidIn (p : Program) : Condition → Prop
  | formula e => p.HasExpr e
  | body code => code.ValidIn p

@[mk_iff]
structure Procedure.ValidIn (p : Program) (r : Procedure) : Prop where
  inputs : ∀ v ∈ r.inputs, p.HasVar v
  outputs : ∀ v ∈ r.outputs, p.HasVar v
  requires : ∀ e ∈ r.requires, p.HasExpr e
  ensures : ∀ post ∈ r.ensures, post.condition.ValidIn p

@[mk_iff]
structure Implementation.ValidIn (p : Program) (i : Implementation) : Prop where
  procedure : p.HasProcedure i.procedure
  inputs : ∀ v ∈ i.inputs, p.HasVar v
  outputs : ∀ v ∈ i.outputs, p.HasVar v
  locals : ∀ v ∈ i.locals, p.HasVar v
  blocks : ∀ b ∈ i.blocks, p.HasBlock b

def Declaration.ValidIn (p : Program) : Declaration → Prop
  | constant v | global v => p.HasVar v
  | assumption e => p.HasExpr e
  | procedure r => p.HasProcedure r
  | implementation i => p.HasImplementation i
  | typeName _ | function _ => True

/-! Everything valid stays valid in longer tables. -/

section Mono

variable {p q : Program} (w : p.Within q)

include w

theorem Command.ValidIn.mono {c : Command ExprRef} (h : c.ValidIn p) : c.ValidIn q :=
  ⟨fun e he => w.hasExpr (h.exprs e he), fun v hv => w.hasVar (h.targets v hv)⟩

theorem Transfer.ValidIn.mono {t : Transfer} (h : t.ValidIn p) : t.ValidIn q :=
  ⟨fun b hb => w.hasBlock (h.targets b hb), fun e he => w.hasExpr (h.values e he)⟩

theorem Block.ValidIn.mono {b : Block} (h : b.ValidIn p) : b.ValidIn q :=
  ⟨fun c hc => (h.commands c hc).mono w, h.transfer.mono w⟩

theorem Body.ValidIn.mono {code : Body} (h : code.ValidIn p) : code.ValidIn q :=
  ⟨fun v hv => w.hasVar (h.locals v hv), fun b hb => w.hasBlock (h.blocks b hb)⟩

theorem Condition.ValidIn.mono {c : Condition} (h : c.ValidIn p) : c.ValidIn q := by
  cases c with
  | formula e => exact w.hasExpr h
  | body code => exact Body.ValidIn.mono w h

theorem Procedure.ValidIn.mono {r : Procedure} (h : r.ValidIn p) : r.ValidIn q :=
  ⟨fun v hv => w.hasVar (h.inputs v hv), fun v hv => w.hasVar (h.outputs v hv),
    fun e he => w.hasExpr (h.requires e he), fun post hp => (h.ensures post hp).mono w⟩

theorem Implementation.ValidIn.mono {i : Implementation} (h : i.ValidIn p) : i.ValidIn q :=
  ⟨w.hasProcedure h.procedure, fun v hv => w.hasVar (h.inputs v hv),
    fun v hv => w.hasVar (h.outputs v hv), fun v hv => w.hasVar (h.locals v hv),
    fun b hb => w.hasBlock (h.blocks b hb)⟩

theorem Declaration.ValidIn.mono {d : Declaration} (h : d.ValidIn p) : d.ValidIn q := by
  cases d with
  | typeName name => trivial
  | constant v => exact w.hasVar h
  | function sig => trivial
  | assumption e => exact w.hasExpr h
  | global v => exact w.hasVar h
  | procedure r => exact w.hasProcedure h
  | implementation i => exact w.hasImplementation h

end Mono

/-! ## Closed programs -/

/-- Every reference kept in the program is valid. -/
@[mk_iff]
structure Program.Closed (p : Program) : Prop where
  childrenFirst : p.exprs.ChildrenFirst
  nodes : ∀ n ∈ p.exprs.nodes, ∀ v ∈ n.varRefs, p.HasVar v
  blocks : ∀ b ∈ p.blocks, b.ValidIn p
  procedures : ∀ r ∈ p.procedures, r.ValidIn p
  implementations : ∀ i ∈ p.implementations, i.ValidIn p
  declarations : ∀ d ∈ p.declarations, d.ValidIn p
  names : ∀ n ∈ p.names, p.HasVar n.2

/-! Whether a program is closed can be checked. -/

section Check

variable (p : Program)

instance (v : VarRef) : Decidable (p.HasVar v) := inferInstanceAs (Decidable (_ < _))

instance (e : ExprRef) : Decidable (p.HasExpr e) := inferInstanceAs (Decidable (_ < _))

instance (b : BlockRef) : Decidable (p.HasBlock b) := inferInstanceAs (Decidable (_ < _))

instance (r : ProcRef) : Decidable (p.HasProcedure r) := inferInstanceAs (Decidable (_ < _))

instance (i : ImplRef) : Decidable (p.HasImplementation i) := inferInstanceAs (Decidable (_ < _))

instance (c : Command ExprRef) : Decidable (c.ValidIn p) :=
  decidable_of_iff _ (Command.validIn_iff p c).symm

instance (t : Transfer) : Decidable (t.ValidIn p) :=
  decidable_of_iff _ (Transfer.validIn_iff p t).symm

instance (b : Block) : Decidable (b.ValidIn p) := decidable_of_iff _ (Block.validIn_iff p b).symm

instance (code : Body) : Decidable (code.ValidIn p) :=
  decidable_of_iff _ (Body.validIn_iff p code).symm

instance : (c : Condition) → Decidable (c.ValidIn p)
  | .formula e => inferInstanceAs (Decidable (p.HasExpr e))
  | .body code => inferInstanceAs (Decidable (code.ValidIn p))

instance (r : Procedure) : Decidable (r.ValidIn p) :=
  decidable_of_iff _ (Procedure.validIn_iff p r).symm

instance (i : Implementation) : Decidable (i.ValidIn p) :=
  decidable_of_iff _ (Implementation.validIn_iff p i).symm

instance : (d : Declaration) → Decidable (d.ValidIn p)
  | .constant v | .global v => inferInstanceAs (Decidable (p.HasVar v))
  | .assumption e => inferInstanceAs (Decidable (p.HasExpr e))
  | .procedure r => inferInstanceAs (Decidable (p.HasProcedure r))
  | .implementation i => inferInstanceAs (Decidable (p.HasImplementation i))
  | .typeName _ | .function _ => inferInstanceAs (Decidable True)

theorem ExprTable.childrenFirst_iff (t : ExprTable) : t.ChildrenFirst ↔
    ∀ i : Fin t.nodes.size, ∀ c ∈ t.nodes[i].children, c.index < i := by
  constructor
  · exact fun h i c hc => h i _ (by simp) c hc
  · intro h i n hn c hc
    obtain ⟨hi, rfl⟩ := Array.getElem?_eq_some_iff.1 hn
    exact h ⟨i, hi⟩ c hc

instance (t : ExprTable) : Decidable t.ChildrenFirst := decidable_of_iff _ t.childrenFirst_iff.symm

instance : Decidable p.Closed := decidable_of_iff _ (Program.closed_iff p).symm

end Check

namespace Program

variable {p q : Program}

theorem block_mem {b : BlockRef} (h : p.HasBlock b) : p.block b ∈ p.blocks := by
  have h' : b.index < p.blocks.size := h
  simp [block, h']

theorem procedure_mem {r : ProcRef} (h : p.HasProcedure r) : p.procedure r ∈ p.procedures := by
  have h' : r.index < p.procedures.size := h
  simp [procedure, h']

theorem implementation_mem {i : ImplRef} (h : p.HasImplementation i) :
    p.implementation i ∈ p.implementations := by
  have h' : i.index < p.implementations.size := h
  simp [implementation, h']

namespace Closed

theorem block (h : p.Closed) {b : BlockRef} (hb : p.HasBlock b) : (p.block b).ValidIn p :=
  h.blocks _ (block_mem hb)

theorem hasVar_of_mem_globals (h : p.Closed) {v : VarRef} (hv : v ∈ p.globals) : p.HasVar v := by
  obtain ⟨d, hd, hdv⟩ := List.mem_filterMap.1 hv
  have := h.declarations d hd
  cases d <;> simp_all [Declaration.global?, Declaration.ValidIn]

theorem hasImplementation_of_mem (h : p.Closed) {i : ImplRef} (hi : i ∈ p.implementationRefs) :
    p.HasImplementation i := by
  obtain ⟨d, hd, hdi⟩ := List.mem_filterMap.1 hi
  have := h.declarations d hd
  cases d <;> simp_all [Declaration.implementation?, Declaration.ValidIn]

/-- A program is closed if it has longer tables than a closed one and everything new is valid. -/
theorem of_within (h : p.Closed) (w : p.Within q) (childrenFirst : q.exprs.ChildrenFirst)
    (nodes : ∀ n ∈ q.exprs.nodes, n ∈ p.exprs.nodes ∨ ∀ v ∈ n.varRefs, q.HasVar v)
    (blocks : ∀ b ∈ q.blocks, b ∈ p.blocks ∨ b.ValidIn q)
    (procedures : ∀ r ∈ q.procedures, r ∈ p.procedures ∨ r.ValidIn q)
    (implementations : ∀ i ∈ q.implementations, i ∈ p.implementations ∨ i.ValidIn q)
    (declarations : ∀ d ∈ q.declarations, d ∈ p.declarations ∨ d.ValidIn q)
    (names : ∀ n ∈ q.names, n ∈ p.names ∨ q.HasVar n.2) : q.Closed where
  childrenFirst := childrenFirst
  nodes n hn := (nodes n hn).elim (fun k v hv => w.hasVar (h.nodes n k v hv)) id
  blocks b hb := (blocks b hb).elim (fun k => (h.blocks b k).mono w) id
  procedures r hr := (procedures r hr).elim (fun k => (h.procedures r k).mono w) id
  implementations i hi := (implementations i hi).elim (fun k => (h.implementations i k).mono w) id
  declarations d hd := (declarations d hd).elim (fun k => (h.declarations d k).mono w) id
  names n hn := (names n hn).elim (fun k => w.hasVar (h.names n k)) id

end Closed

end Program

/-! ## Variables in trees -/

/-- All variables of the expression, free or bound, are among the first `n`. -/
def Expr.VarsBelow (n : Nat) (e : Expr) : Prop := ∀ x, x ∈ e.free ∨ x ∈ e.binders → x.index < n

/-- All variables in the layers of a table are among the first `n`. -/
def ExprTable.VarsBelow (n : Nat) (t : ExprTable) : Prop :=
  ∀ x ∈ t.nodes, ∀ v ∈ x.varRefs, v.index < n

/-- What every single step keeps, a list of steps keeps. -/
theorem mapM_invariant {σ α β : Type} {f : α → StateM σ β} {P : σ → Prop} {as : List α}
    (h : ∀ a ∈ as, ∀ s, P s → P (f a s).2) : ∀ s, P s → P (as.mapM f s).2 := by
  induction as with
  | nil =>
    intro s hs
    rwa [mapM_nil_run]
  | cons a as ih =>
    intro s hs
    rw [mapM_cons_run]
    exact ih (fun b hb => h b (by simp [hb])) _ (h a (by simp) s hs)

namespace ExprTable

variable {k : Nat}

theorem VarsBelow.node {t : ExprTable} (h : t.VarsBelow k) (e : ExprRef) :
    ∀ v ∈ (t.node e).varRefs, v.index < k := by
  by_cases he : e.index < t.nodes.size
  · apply h
    simp [ExprTable.node, he]
  · intro v hv
    simp [ExprTable.node, he, default, Node.varRefs] at hv

theorem VarsBelow.add {t : ExprTable} (h : t.VarsBelow k) {n : Node}
    (hn : ∀ v ∈ n.varRefs, v.index < k) : (ExprTable.add n t).2.VarsBelow k := by
  intro x hx
  rcases Array.mem_push.1 hx with hx | rfl
  · exact h x hx
  · exact hn

theorem VarsBelow.rebuild {t : ExprTable} (h : t.VarsBelow k) {e : ExprRef} {same : Bool} {n : Node}
    (hn : ∀ v ∈ n.varRefs, v.index < k) : (ExprTable.rebuild e same n t).2.VarsBelow k := by
  cases same with
  | true => exact h
  | false => exact h.add hn

/-- Substitution makes no new references to variables in the table. -/
theorem VarsBelow.substWithin {σ : TwoState ExprRef} (d : Nat) :
    ∀ (m : Moment) (e : ExprRef) (t : ExprTable), t.VarsBelow k →
      (ExprTable.substWithin σ d m e t).2.VarsBelow k := by
  induction d with
  | zero => intro m e t h; exact h
  | succ d ih =>
    intro m e t h
    have here := h.node e
    rw [ExprTable.substWithin, get_bind_run]
    cases hn : t.node e with
    | lit value => exact h
    | var v => exact h
    | old x => exact (ih .prior x t h).rebuild (by simp [Node.varRefs])
    | unary op x => exact (ih m x t h).rebuild (by simp [Node.varRefs])
    | binary op l r => exact (ih m r _ (ih m l t h)).rebuild (by simp [Node.varRefs])
    | call f args =>
      exact (mapM_invariant (fun a _ => ih m a) t h).rebuild (by simp [Node.varRefs])
    | quant q bound body =>
      rw [hn] at here
      exact (ih m body t h).rebuild here

theorem VarsBelow.subst {σ : TwoState ExprRef} {t : ExprTable} (h : t.VarsBelow k) (e : ExprRef) :
    (ExprTable.subst σ e t).2.VarsBelow k :=
  VarsBelow.substWithin _ _ e t h

theorem VarsBelow.substCommand {σ : TwoState ExprRef} {t : ExprTable} (h : t.VarsBelow k)
    (c : Command ExprRef) : (ExprTable.substCommand σ c t).2.VarsBelow k := by
  cases c with
  | assert e => exact h.subst e
  | assume e => exact h.subst e
  | assign updates => exact mapM_invariant (fun u _ s hs => hs.subst u.2) t h

theorem addTrees_eq_mapM (es : List Expr) (t : ExprTable) : addTrees es t = es.mapM addTree t := by
  induction es generalizing t with
  | nil => rw [mapM_nil_run, addTrees_nil]
  | cons e es ih => rw [mapM_cons_run, addTrees_cons, ih]

theorem VarsBelow.addTree (e : Expr) : ∀ {t : ExprTable}, t.VarsBelow k → e.VarsBelow k →
    (ExprTable.addTree e t).2.VarsBelow k := by
  induction e with
  | lit value => intro t h _; exact h.add (by simp [Node.varRefs])
  | var v =>
    intro t h he
    exact h.add (by simpa [Node.varRefs] using he v (.inl (by simp [Expr.free])))
  | old e ih => intro t h he; exact (ih h he).add (by simp [Node.varRefs])
  | unary op e ih => intro t h he; exact (ih h he).add (by simp [Node.varRefs])
  | binary op l r ihl ihr =>
    intro t h he
    have hl : l.VarsBelow k :=
      fun x hx => he x (by simpa [Expr.free, Expr.binders] using hx.imp .inl .inl)
    have hr : r.VarsBelow k :=
      fun x hx => he x (by simpa [Expr.free, Expr.binders] using hx.imp .inr .inr)
    exact (ihr (ihl h hl) hr).add (by simp [Node.varRefs])
  | call f args ih =>
    intro t h he
    rw [addTree_call, addTrees_eq_mapM]
    refine (mapM_invariant (fun a ha s hs => ih a ha hs fun x hx => he x ?_) t h).add
      (by simp [Node.varRefs])
    simp only [Expr.free, Expr.binders, Expr.mem_freeAll, Expr.mem_bindersAll]
    exact hx.imp (fun h => ⟨a, ha, h⟩) fun h => ⟨a, ha, h⟩
  | quant q bound body ih =>
    intro t h he
    simp only [Expr.VarsBelow, Expr.free, Expr.binders, List.mem_filter, List.mem_append,
      decide_eq_true_eq] at he
    have hb : body.VarsBelow k := by
      rintro x (hx | hx)
      · by_cases hxb : x ∈ bound
        · exact he x (.inr (.inl hxb))
        · exact he x (.inl ⟨hx, hxb⟩)
      · exact he x (.inr (.inr hx))
    exact (ih h hb).add fun v hv => he v (.inr (.inl hv))

/-- The variables of a tree come from the layers that it is read off. -/
theorem VarsBelow.expr {t : ExprTable} (h : t.VarsBelow k) (e : ExprRef) :
    (t.expr e).VarsBelow k := by
  suffices within : ∀ d e, (t.exprWithin d e).VarsBelow k from within _ e
  intro d
  induction d with
  | zero => intro e x hx; simp [exprWithin, default, Expr.free, Expr.binders] at hx
  | succ d ih =>
    intro e
    have here := h.node e
    rw [exprWithin]
    cases hn : t.node e with
    | lit value => intro x hx; simp [Expr.free, Expr.binders] at hx
    | var v =>
      intro x hx
      simp only [Expr.free, Expr.binders, List.mem_singleton, List.not_mem_nil, or_false] at hx
      exact here x (by rw [hn, hx]; simp [Node.varRefs])
    | old y => exact ih y
    | unary op y => exact ih y
    | binary op l r =>
      intro x hx
      simp only [Expr.free, Expr.binders, List.mem_append] at hx
      rcases hx with (hx | hx) | hx | hx
      · exact ih l x (.inl hx)
      · exact ih r x (.inl hx)
      · exact ih l x (.inr hx)
      · exact ih r x (.inr hx)
    | call f args =>
      intro x hx
      simp only [Expr.free, Expr.binders, Expr.mem_freeAll, Expr.mem_bindersAll,
        List.mem_map] at hx
      rcases hx with ⟨_, ⟨a, _, rfl⟩, hx⟩ | ⟨_, ⟨a, _, rfl⟩, hx⟩
      · exact ih a x (.inl hx)
      · exact ih a x (.inr hx)
    | quant q bound body =>
      intro x hx
      simp only [Expr.free, Expr.binders, List.mem_filter, List.mem_append,
        decide_eq_true_eq] at hx
      rcases hx with hx | hx | hx
      · exact ih body x (.inl hx.1)
      · exact here x (by rw [hn]; exact hx)
      · exact ih body x (.inr hx)

end ExprTable

namespace Program

variable {p : Program}

theorem Closed.varsBelow_expr (h : p.Closed) (e : ExprRef) : (p.expr e).VarsBelow p.vars.size :=
  ExprTable.VarsBelow.expr h.nodes e

end Program

end AtomicMovers
