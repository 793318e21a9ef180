import AtomicMovers.Semantics.Evaluation
import AtomicMovers.Substitution
import Mathlib.Data.List.Basic
import Mathlib.Tactic.Tauto

/-!
# Evaluation of composed expressions

Two groups of facts about `Expr.eval`:

* what the connectives, `conjoin` and `existsAll` mean (`holds_and`, `holds_conjoin`,
  `holds_existsAll`, ...);
* which parts of the two states an expression reads: its free variables (`eval_congr`), of the prior
  state those under `old` (`eval_congr_prior`), and no prior state if it has no `old`
  (`eval_eq_of_oldFree`).

Before them stands the induction principle for trees that all proofs about expressions use.
-/

namespace AtomicMovers

/-! ## Induction over trees -/

namespace Expr

/-- Induction over a tree, with the arguments of a call given by membership. -/
@[induction_eliminator]
theorem inductionOn {motive : Expr → Prop}
    (lit : ∀ value, motive (.lit value))
    (var : ∀ v, motive (.var v))
    (old : ∀ e, motive e → motive (.old e))
    (unary : ∀ op e, motive e → motive (.unary op e))
    (binary : ∀ op l r, motive l → motive r → motive (.binary op l r))
    (call : ∀ f args, (∀ a ∈ args, motive a) → motive (.call f args))
    (quant : ∀ q bound body, motive body → motive (.quant q bound body)) :
    ∀ e, motive e
  | .lit value => lit value
  | .var v => var v
  | .old e => old e (inductionOn lit var old unary binary call quant e)
  | .unary op e => unary op e (inductionOn lit var old unary binary call quant e)
  | .binary op l r =>
    binary op l r (inductionOn lit var old unary binary call quant l)
      (inductionOn lit var old unary binary call quant r)
  | .call f args =>
    call f args fun a _ => inductionOn lit var old unary binary call quant a
  | .quant q bound body =>
    quant q bound body (inductionOn lit var old unary binary call quant body)
termination_by e => sizeOf e

variable {D : Type} (I : Interpretation D) (ty : VarRef → Ty)

/-! The functions on lists of arguments, as list operations. -/

theorem evalAll_eq_map (prior current : State D) (es : List Expr) :
    evalAll I ty prior current es = es.map (eval I ty prior current) := by
  induction es with
  | nil => rfl
  | cons e es ih => rw [evalAll, ih, List.map_cons]

theorem substAll_eq_map (σ : TwoState Expr) (m : Moment) (es : List Expr) :
    substAll σ m es = es.map (substAt σ m) := by
  induction es with
  | nil => rfl
  | cons e es ih => rw [substAll, ih, List.map_cons]

theorem allOldFree_iff (es : List Expr) : AllOldFree es ↔ ∀ e ∈ es, e.OldFree := by
  induction es with
  | nil => simp [AllOldFree]
  | cons e es ih => simp [AllOldFree, ih]

theorem mem_freeAll {es : List Expr} {x : VarRef} : x ∈ freeAll es ↔ ∃ e ∈ es, x ∈ e.free := by
  induction es with
  | nil => simp [freeAll]
  | cons e es ih => simp [freeAll, ih]

theorem mem_bindersAll {es : List Expr} {x : VarRef} :
    x ∈ bindersAll es ↔ ∃ e ∈ es, x ∈ e.binders := by
  induction es with
  | nil => simp [bindersAll]
  | cons e es ih => simp [bindersAll, ih]

end Expr

/-! ## Connectives -/

section Connectives

variable {D : Type} {I : Interpretation D} {ty : VarRef → Ty} {s t : State D}

@[simp] theorem holds_truth (P : Prop) : (Interpretation.truth P : Value D).Holds ↔ P := by
  simp [Interpretation.truth, Value.Holds]

namespace Expr

@[simp] theorem holds_tt : tt.Holds I ty s t := by
  rw [Holds, tt, eval]
  rfl

@[simp] theorem not_holds_ff : ¬ff.Holds I ty s t := by
  rw [Holds, ff, eval]
  simp [Interpretation.literal, Value.Holds]

@[simp] theorem holds_not (e : Expr) : e.not.Holds I ty s t ↔ ¬e.Holds I ty s t := by
  rw [Holds, Expr.not, eval]
  exact holds_truth _

@[simp] theorem holds_and (l r : Expr) :
    (l.and r).Holds I ty s t ↔ l.Holds I ty s t ∧ r.Holds I ty s t := by
  rw [Holds, Expr.and, eval]
  exact holds_truth _

@[simp] theorem holds_or (l r : Expr) :
    (l.or r).Holds I ty s t ↔ l.Holds I ty s t ∨ r.Holds I ty s t := by
  rw [Holds, Expr.or, eval]
  exact holds_truth _

@[simp] theorem holds_eq (l r : Expr) :
    (l.eq r).Holds I ty s t ↔ l.eval I ty s t = r.eval I ty s t := by
  rw [Holds, Expr.eq, eval]
  exact holds_truth _

/-- A conjunction holds where all conjuncts do. -/
theorem holds_conjoin (es : List Expr) :
    (conjoin es).Holds I ty s t ↔ ∀ e ∈ es, e.Holds I ty s t := by
  -- the accumulated conjunction is the part that has been read
  have fold : ∀ (es : List Expr) (conj : Expr),
      (es.foldl (fun conj e => e.and conj) conj).Holds I ty s t ↔
        conj.Holds I ty s t ∧ ∀ e ∈ es, e.Holds I ty s t := by
    intro es
    induction es with
    | nil => simp
    | cons e es ih =>
      intro conj
      rw [List.foldl_cons, ih, holds_and, List.forall_mem_cons]
      tauto
  rw [conjoin, fold]
  simp

end Expr

end Connectives

/-! ## States -/

namespace State

variable {D : Type}

theorem override_of_mem {s t : State D} {vs : List VarRef} {v : VarRef} (h : v ∈ vs) :
    s.override vs t v = t v := if_pos h

theorem override_of_not_mem {s t : State D} {vs : List VarRef} {v : VarRef} (h : v ∉ vs) :
    s.override vs t v = s v := if_neg h

@[simp] theorem override_nil (s t : State D) : s.override [] t = s := by
  funext v
  exact override_of_not_mem (by simp)

theorem override_self (vs : List VarRef) (t : State D) : t.override vs t = t := by
  funext v
  exact ite_self (t v)

/-- Overriding depends on the set of variables only. -/
theorem override_congr {vs ws : List VarRef} (h : ∀ v, v ∈ vs ↔ v ∈ ws) (s t : State D) :
    s.override vs t = s.override ws t := by
  funext v
  simp only [override, h v]

/-- Overriding twice is overriding once, if the second time is about some of the variables only. -/
theorem override_override {vs ws : List VarRef} (h : ∀ v ∈ vs, v ∈ ws) (s t u : State D) :
    (s.override ws t).override vs u = s.override ws (t.override vs u) := by
  funext v
  by_cases hv : v ∈ vs
  · rw [override_of_mem hv, override_of_mem (h v hv), override_of_mem hv]
  · rw [override_of_not_mem hv]
    simp only [override, if_neg hv]

end State

/-- Some values of the variables make the body true, also when there are no variables. -/
theorem Expr.holds_existsAll {D : Type} {I : Interpretation D} {ty : VarRef → Ty}
    {s t : State D} (vs : List VarRef) (body : Expr) :
    (existsAll vs body).Holds I ty s t ↔
      ∃ l : State D, I.InRange ty vs l ∧ body.Holds I ty (s.override vs l) (t.override vs l) := by
  cases vs with
  | nil =>
    simp only [existsAll, State.override_nil]
    constructor
    · exact fun h => ⟨s, by simp [Interpretation.InRange], h⟩
    · rintro ⟨_, _, h⟩
      exact h
  | cons v vs =>
    rw [Holds, existsAll, eval, holds_truth]
    rfl

/-! ## What an expression reads -/

namespace Expr

variable {D : Type} {I : Interpretation D}

/-- An expression reads its free variables, and the types of those that it binds. -/
theorem eval_congr {ty ty' : VarRef → Ty} (e : Expr) :
    ∀ {prior prior' current current' : State D}, (∀ x ∈ e.free, prior x = prior' x) →
      (∀ x ∈ e.free, current x = current' x) → (∀ x ∈ e.binders, ty x = ty' x) →
      e.eval I ty prior current = e.eval I ty' prior' current' := by
  induction e with
  | lit value => intros; rfl
  | var v =>
    intro prior prior' current current' _ hc _
    exact hc v (by simp [free])
  | old e ih =>
    intro prior prior' current current' hp _ hb
    rw [eval, eval]
    exact ih hp hp hb
  | unary op e ih =>
    intro prior prior' current current' hp hc hb
    rw [eval, eval, ih hp hc hb]
  | binary op l r ihl ihr =>
    intro prior prior' current current' hp hc hb
    simp only [free, binders, List.mem_append] at hp hc hb
    rw [eval, eval, ihl (fun x hx => hp x (.inl hx)) (fun x hx => hc x (.inl hx))
        (fun x hx => hb x (.inl hx)),
      ihr (fun x hx => hp x (.inr hx)) (fun x hx => hc x (.inr hx)) (fun x hx => hb x (.inr hx))]
  | call f args ih =>
    intro prior prior' current current' hp hc hb
    simp only [free, binders, mem_freeAll, mem_bindersAll] at hp hc hb
    rw [eval, eval, evalAll_eq_map, evalAll_eq_map]
    congr 1
    apply List.map_congr_left
    intro a ha
    exact ih a ha (fun x hx => hp x ⟨a, ha, hx⟩) (fun x hx => hc x ⟨a, ha, hx⟩)
      (fun x hx => hb x ⟨a, ha, hx⟩)
  | quant q bound body ih =>
    intro prior prior' current current' hp hc hb
    simp only [free, binders, List.mem_filter, decide_eq_true_eq, List.mem_append] at hp hc hb
    -- inside the quantifier the states agree on the bound variables as well
    have inside {s s' : State D} (h : ∀ x, x ∈ body.free ∧ x ∉ bound → s x = s' x) (t : State D) :
        ∀ x ∈ body.free, s.override bound t x = s'.override bound t x := by
      intro x hx
      by_cases hxb : x ∈ bound
      · rw [State.override_of_mem hxb, State.override_of_mem hxb]
      · rw [State.override_of_not_mem hxb, State.override_of_not_mem hxb, h x ⟨hx, hxb⟩]
    have body_eq (t : State D) := ih (inside hp t) (inside hc t) (fun x hx => hb x (.inr hx))
    have range_eq (t : State D) : I.InRange ty bound t ↔ I.InRange ty' bound t := by
      refine forall₂_congr fun x hx => ?_
      rw [hb x (.inl hx)]
    cases q with
    | universal =>
      rw [eval, eval]
      simp only [body_eq, range_eq]
    | existential =>
      rw [eval, eval]
      simp only [body_eq, range_eq]

mutual

instance decidableOldFree : (e : Expr) → Decidable e.OldFree
  | .lit _ | .var _ => inferInstanceAs (Decidable True)
  | .old _ => inferInstanceAs (Decidable False)
  | .unary _ e => decidableOldFree e
  | .binary _ l r =>
    have := decidableOldFree l
    have := decidableOldFree r
    inferInstanceAs (Decidable (l.OldFree ∧ r.OldFree))
  | .call _ args => decidableAllOldFree args
  | .quant _ _ body => decidableOldFree body

instance decidableAllOldFree : (es : List Expr) → Decidable (AllOldFree es)
  | [] => inferInstanceAs (Decidable True)
  | e :: es =>
    have := decidableOldFree e
    have := decidableAllOldFree es
    inferInstanceAs (Decidable (e.OldFree ∧ AllOldFree es))

end

mutual

/-- The variables with an occurrence under `old` that no quantifier around it binds. -/
def priorFree : Expr → List VarRef
  | .lit _ | .var _ => []
  | .old e => e.free
  | .unary _ e => e.priorFree
  | .binary _ l r => l.priorFree ++ r.priorFree
  | .call _ args => priorFreeAll args
  | .quant _ bound body => body.priorFree.filter (· ∉ bound)

def priorFreeAll : List Expr → List VarRef
  | [] => []
  | e :: es => e.priorFree ++ priorFreeAll es

end

theorem mem_priorFreeAll {es : List Expr} {x : VarRef} :
    x ∈ priorFreeAll es ↔ ∃ e ∈ es, x ∈ e.priorFree := by
  induction es with
  | nil => simp [priorFreeAll]
  | cons e es ih => simp [priorFreeAll, ih]

theorem priorFree_eq_nil (e : Expr) : e.OldFree → e.priorFree = [] := by
  induction e with
  | lit value => intro; rfl
  | var v => intro; rfl
  | old e ih => exact False.elim
  | unary op e ih => exact ih
  | binary op l r ihl ihr =>
    intro h
    rw [priorFree, ihl h.1, ihr h.2, List.append_nil]
  | call f args ih =>
    intro h
    rw [OldFree, allOldFree_iff] at h
    refine List.eq_nil_iff_forall_not_mem.2 fun x hx => ?_
    obtain ⟨a, ha, hx⟩ := mem_priorFreeAll.1 hx
    rw [ih a ha (h a ha)] at hx
    cases hx
  | quant q bound body ih =>
    intro h
    rw [priorFree, ih h, List.filter_nil]

/-- Of the prior state an expression reads what is free under `old`. -/
theorem eval_congr_prior {ty : VarRef → Ty} (e : Expr) :
    ∀ {prior prior' : State D} (current : State D), (∀ x ∈ e.priorFree, prior x = prior' x) →
      e.eval I ty prior current = e.eval I ty prior' current := by
  induction e with
  | lit value => intros; rfl
  | var v => intros; rfl
  | old e ih =>
    intro prior prior' current h
    rw [eval, eval]
    exact e.eval_congr h h fun _ _ => rfl
  | unary op e ih =>
    intro prior prior' current h
    rw [eval, eval, ih current h]
  | binary op l r ihl ihr =>
    intro prior prior' current h
    rw [priorFree, List.forall_mem_append] at h
    rw [eval, eval, ihl current h.1, ihr current h.2]
  | call f args ih =>
    intro prior prior' current h
    rw [eval, eval, evalAll_eq_map, evalAll_eq_map]
    congr 1
    refine List.map_congr_left fun a ha => ih a ha current fun x hx => ?_
    exact h x (mem_priorFreeAll.2 ⟨a, ha, hx⟩)
  | quant q bound body ih =>
    intro prior prior' current h
    simp only [priorFree, List.mem_filter, decide_eq_true_eq] at h
    have inside (t : State D) :
        ∀ x ∈ body.priorFree, prior.override bound t x = prior'.override bound t x := by
      intro x hx
      by_cases hxb : x ∈ bound
      · rw [State.override_of_mem hxb, State.override_of_mem hxb]
      · rw [State.override_of_not_mem hxb, State.override_of_not_mem hxb, h x ⟨hx, hxb⟩]
    have body_eq (t : State D) := ih (current.override bound t) (inside t)
    cases q with
    | universal =>
      rw [eval, eval]
      simp only [body_eq]
    | existential =>
      rw [eval, eval]
      simp only [body_eq]

/-- Without `old` the prior state does not matter. -/
theorem eval_eq_of_oldFree {ty : VarRef → Ty} (e : Expr) (prior prior' current : State D)
    (h : e.OldFree) : e.eval I ty prior current = e.eval I ty prior' current :=
  e.eval_congr_prior current (by simp [priorFree_eq_nil e h])

end Expr

end AtomicMovers
