import AtomicMovers.Proofs.RenamedTexts
import AtomicMovers.Proofs.SymbolicExecution

/-!
# Types and scopes

The type of an expression is computed from the types of variables, the declared functions and the
choice of types that have arithmetic (`Typing`, `Expr.type?`). A formula over some variables is a
boolean expression that mentions, outside of quantifiers, no others (`Expr.FormulaOver`); commands
are well formed over some variables if their expressions have the right types and they read and
assign no others (`Command.WellFormed`).

Both survive everything that is done to expressions on the way to an obligation: a substitution
keeps the type if every replacement has the type of the variable it stands for (`type?_substAt`), so
renamings to variables of the same types do, and so does going backwards over well-formed commands
(`formulaOver_relationFormula`). Variables that are renamed in both states and then bound are gone
from the scope (`FormulaOver.bind`).
-/

namespace AtomicMovers

open Program

/-! ## Types -/

/-- What the types of expressions depend on. -/
structure Typing where
  ty : VarRef → Ty
  function? : String → Option FunctionSig
  /-- The types that have arithmetic and an order. -/
  numeric : Ty → Bool

def Literal.type : Literal → Ty
  | .bool _ => .bool
  | .int _ => .int
  | .bits _ width => .bits width

def UnaryOp.type? (numeric : Ty → Bool) : UnaryOp → Ty → Option Ty
  | .not, τ => if τ = .bool then some .bool else none
  | .neg, τ => if numeric τ then some τ else none

def BinaryOp.type? (numeric : Ty → Bool) : BinaryOp → Ty → Ty → Option Ty
  | .and, l, r | .or, l, r | .implies, l, r | .iff, l, r =>
    if l = .bool ∧ r = .bool then some .bool else none
  | .eq, l, r | .ne, l, r => if l = r then some .bool else none
  | .lt, l, r | .le, l, r | .gt, l, r | .ge, l, r =>
    if l = r ∧ numeric l then some .bool else none
  | .add, l, r | .sub, l, r | .mul, l, r | .div, l, r | .mod, l, r =>
    if l = r ∧ numeric l then some l else none

namespace Expr

mutual

/-- The type of an expression, if it is well typed. -/
def type? (Γ : Typing) : Expr → Option Ty
  | .lit value => some value.type
  | .var v => some (Γ.ty v)
  | .old e => e.type? Γ
  | .unary op e => (e.type? Γ).bind (op.type? Γ.numeric)
  | .binary op l r => (l.type? Γ).bind fun τ => (r.type? Γ).bind (op.type? Γ.numeric τ)
  | .call f args =>
    (Γ.function? f).bind fun sig =>
      if typeAll? Γ args = some sig.args then some sig.result else none
  | .quant _ _ body => if body.type? Γ = some .bool then some .bool else none

/-- The types of expressions that are all well typed. -/
def typeAll? (Γ : Typing) : List Expr → Option (List Ty)
  | [] => some []
  | e :: es => (e.type? Γ).bind fun τ => (typeAll? Γ es).map (τ :: ·)

end

variable {Γ : Typing} {σ : TwoState Expr}

theorem typeAll?_congr {f : Expr → Expr} {es : List Expr}
    (h : ∀ e ∈ es, (f e).type? Γ = e.type? Γ) : typeAll? Γ (es.map f) = typeAll? Γ es := by
  induction es with
  | nil => rfl
  | cons e es ih =>
    rw [List.forall_mem_cons] at h
    rw [List.map_cons, typeAll?, typeAll?, h.1, ih h.2]

theorem typeAll?_var (vs : List VarRef) : typeAll? Γ (vs.map .var) = some (vs.map Γ.ty) := by
  induction vs with
  | nil => rfl
  | cons v vs ih => rw [List.map_cons, typeAll?, ih, type?]; rfl

/-- A substitution keeps the type if every replacement has the type of the variable it stands
for. -/
theorem type?_substAt
    (h : ∀ m v r, (σ.during m).lookup v = some r → r.type? Γ = some (Γ.ty v)) (e : Expr) :
    ∀ m, (e.substAt σ m).type? Γ = e.type? Γ := by
  induction e with
  | lit value => exact fun _ => rfl
  | var v =>
    intro m
    rw [substAt]
    cases hr : (σ.during m).lookup v with
    | none => rfl
    | some r => exact h m v r hr
  | old e ih => exact fun _ => ih .prior
  | unary op e ih =>
    intro m
    rw [substAt, type?, type?, ih]
  | binary op l r ihl ihr =>
    intro m
    rw [substAt, type?, type?, ihl, ihr]
  | call f args ih =>
    intro m
    rw [substAt, substAll_eq_map, type?, type?, typeAll?_congr fun a ha => ih a ha m]
  | quant q bound body ih =>
    intro m
    rw [substAt, type?, type?, ih]

theorem type?_renaming {pairs : List (VarRef × VarRef)} (same : ∀ u ∈ pairs, Γ.ty u.2 = Γ.ty u.1)
    (e : Expr) (m : Moment) :
    (e.substAt (.uniform (Substitution.renaming pairs)) m).type? Γ = e.type? Γ := by
  refine type?_substAt (fun m v r hr => ?_) e m
  obtain ⟨w, rfl, hw⟩ := TwoState.during_renaming hr
  rw [type?, same _ hw]

end Expr

/-- Everything in `Γ` is in `Δ`, where variables are only looked at if they satisfy `P`. -/
structure Typing.Within (P : VarRef → Prop) (Γ Δ : Typing) : Prop where
  ty_eq : ∀ v, P v → Δ.ty v = Γ.ty v
  function?_eq : ∀ f sig, Γ.function? f = some sig → Δ.function? f = some sig
  numeric_eq : Δ.numeric = Γ.numeric

namespace Expr

variable {Γ Δ : Typing} {P : VarRef → Prop}

theorem typeAll?_mono {es : List Expr}
    (h : ∀ e ∈ es, ∀ τ, e.type? Γ = some τ → e.type? Δ = some τ) :
    ∀ {τs}, typeAll? Γ es = some τs → typeAll? Δ es = some τs := by
  induction es with
  | nil => exact fun hτs => hτs
  | cons e es ih =>
    intro τs hτs
    rw [List.forall_mem_cons] at h
    simp only [typeAll?, Option.bind_eq_some_iff, Option.map_eq_some_iff] at hτs ⊢
    obtain ⟨τ, he, τs', hes, rfl⟩ := hτs
    exact ⟨τ, h.1 τ he, τs', ih h.2 hes, rfl⟩

/-- A well-typed expression keeps its type where more functions are declared. -/
theorem type?_mono (h : Γ.Within P Δ) (e : Expr) :
    ∀ {τ}, (∀ x ∈ e.mentions, P x) → e.type? Γ = some τ → e.type? Δ = some τ := by
  induction e with
  | lit value => exact fun _ hτ => hτ
  | var v =>
    intro τ hP hτ
    rw [type?, h.ty_eq v (hP v (by simp [mentions]))]
    exact hτ
  | old e ih => exact fun hP hτ => ih hP hτ
  | unary op e ih =>
    intro τ hP hτ
    rw [type?, Option.bind_eq_some_iff] at hτ ⊢
    obtain ⟨τ', he, hop⟩ := hτ
    exact ⟨τ', ih hP he, by rwa [h.numeric_eq]⟩
  | binary op l r ihl ihr =>
    intro τ hP hτ
    simp only [mentions, List.mem_append] at hP
    simp only [type?, Option.bind_eq_some_iff] at hτ ⊢
    obtain ⟨τl, hl, τr, hr, hop⟩ := hτ
    exact ⟨τl, ihl (fun x hx => hP x (.inl hx)) hl, τr, ihr (fun x hx => hP x (.inr hx)) hr,
      by rwa [h.numeric_eq]⟩
  | call f args ih =>
    intro τ hP hτ
    simp only [mentions, mentionsAll_eq_flatMap, List.mem_flatMap] at hP
    rw [type?, Option.bind_eq_some_iff] at hτ ⊢
    obtain ⟨sig, hsig, hargs⟩ := hτ
    refine ⟨sig, h.function?_eq f sig hsig, ?_⟩
    split at hargs
    · rename_i heq
      rw [if_pos (typeAll?_mono (fun a ha τ => ih a ha fun x hx => hP x ⟨a, ha, hx⟩) heq)]
      exact hargs
    · cases hargs
  | quant q bound body ih =>
    intro τ hP hτ
    simp only [mentions, List.mem_append] at hP
    rw [type?] at hτ ⊢
    split at hτ
    · rename_i heq
      rw [if_pos (ih (fun x hx => hP x (.inr hx)) heq)]
      exact hτ
    · cases hτ

end Expr

/-! ## Formulas -/

/-- A free variable of a renamed expression is the new name of one that was free before. -/
theorem Expr.exists_free_of_renaming {pairs : List (VarRef × VarRef)} {x : VarRef} (e : Expr) :
    ∀ {m}, (∀ y ∈ e.binders, y ∉ pairs.map Prod.fst) →
      x ∈ (e.substAt (.uniform (Substitution.renaming pairs)) m).free →
      ∃ y ∈ e.free, x = Substitution.renamed pairs y := by
  induction e with
  | lit value => intro m _ hx; simp [substAt, Expr.free] at hx
  | var v =>
    intro m _ hx
    have image : (((TwoState.uniform (Substitution.renaming pairs)).during m).lookup v).getD
        (.var v) = .var (Substitution.renamed pairs v) := by
      cases m <;> exact Substitution.getD_lookup_renaming pairs v
    rw [substAt, image] at hx
    exact ⟨v, by simp [Expr.free], by simpa [Expr.free] using hx⟩
  | old e ih => exact fun clear hx => ih clear hx
  | unary op e ih => exact fun clear hx => ih clear hx
  | binary op l r ihl ihr =>
    intro m clear hx
    simp only [substAt, Expr.free, binders, List.mem_append] at clear hx ⊢
    rcases hx with hx | hx
    · obtain ⟨y, hy, heq⟩ := ihl (fun z hz => clear z (.inl hz)) hx
      exact ⟨y, .inl hy, heq⟩
    · obtain ⟨y, hy, heq⟩ := ihr (fun z hz => clear z (.inr hz)) hx
      exact ⟨y, .inr hy, heq⟩
  | call f args ih =>
    intro m clear hx
    simp only [binders, mem_bindersAll] at clear
    simp only [substAt, substAll_eq_map, Expr.free, mem_freeAll, List.mem_map] at hx ⊢
    obtain ⟨_, ⟨a, ha, rfl⟩, hx⟩ := hx
    obtain ⟨y, hy, heq⟩ := ih a ha (fun z hz => clear z ⟨a, ha, hz⟩) hx
    exact ⟨y, ⟨a, ha, hy⟩, heq⟩
  | quant q bound body ih =>
    intro m clear hx
    simp only [substAt, Expr.free, binders, List.mem_append, List.mem_filter,
      decide_eq_true_eq] at clear hx ⊢
    obtain ⟨y, hy, rfl⟩ := ih (fun z hz => clear z (.inr hz)) hx.1
    -- a bound variable has no new name, so it would still be bound
    refine ⟨y, ⟨hy, fun hb => hx.2 ?_⟩, rfl⟩
    rwa [Substitution.renamed_of_not_mem (clear y (.inl hb))]

/-- The expression is boolean, and its free variables are among `vs`. -/
structure Expr.FormulaOver (Γ : Typing) (vs : List VarRef) (e : Expr) : Prop where
  type_eq : e.type? Γ = some .bool
  free : ∀ x ∈ e.free, x ∈ vs

namespace Expr.FormulaOver

variable {Γ : Typing} {vs ws : List VarRef} {e l r : Expr}

theorem mono (h : e.FormulaOver Γ vs) (hvs : ∀ v ∈ vs, v ∈ ws) : e.FormulaOver Γ ws :=
  ⟨h.type_eq, fun x hx => hvs x (h.free x hx)⟩

theorem literal (b : Bool) : (Expr.lit (.bool b)).FormulaOver Γ vs :=
  ⟨rfl, by simp [Expr.free]⟩

theorem not (h : e.FormulaOver Γ vs) : e.not.FormulaOver Γ vs :=
  ⟨by simp [Expr.not, type?, h.type_eq, UnaryOp.type?], h.free⟩

theorem and (hl : l.FormulaOver Γ vs) (hr : r.FormulaOver Γ vs) : (l.and r).FormulaOver Γ vs :=
  ⟨by simp [Expr.and, type?, hl.type_eq, hr.type_eq, BinaryOp.type?],
    List.forall_mem_append.2 ⟨hl.free, hr.free⟩⟩

theorem or (hl : l.FormulaOver Γ vs) (hr : r.FormulaOver Γ vs) : (l.or r).FormulaOver Γ vs :=
  ⟨by simp [Expr.or, type?, hl.type_eq, hr.type_eq, BinaryOp.type?],
    List.forall_mem_append.2 ⟨hl.free, hr.free⟩⟩

theorem conjoin {es : List Expr} (h : ∀ e ∈ es, e.FormulaOver Γ vs) :
    (Expr.conjoin es).FormulaOver Γ vs := by
  have fold : ∀ conj : Expr, conj.FormulaOver Γ vs →
      (es.foldl (fun conj e => e.and conj) conj).FormulaOver Γ vs := by
    induction es with
    | nil => exact fun _ h => h
    | cons e es ih =>
      rw [List.forall_mem_cons] at h
      exact fun conj hconj => ih h.2 _ (h.1.and hconj)
  exact fold _ (literal true)

theorem unchanged {v : VarRef} (hv : v ∈ vs) : (AtomicMovers.unchanged v).FormulaOver Γ vs :=
  ⟨by simp [AtomicMovers.unchanged, Expr.eq, type?, BinaryOp.type?],
    by simpa [AtomicMovers.unchanged, Expr.eq, Expr.free] using hv⟩

/-- Replacements over `ws`, where a variable that is not replaced in both states is one of `ws`. -/
theorem subst {σ : TwoState Expr} (h : e.FormulaOver Γ vs)
    (typed : ∀ m v r, (σ.during m).lookup v = some r → r.type? Γ = some (Γ.ty v))
    (new : ∀ m v r, (σ.during m).lookup v = some r → ∀ x ∈ r.free, x ∈ ws)
    (kept : ∀ x ∈ vs, ∀ m, (σ.during m).lookup x = none → x ∈ ws) :
    (e.subst σ).FormulaOver Γ ws := by
  refine ⟨(type?_substAt typed e .current).trans h.type_eq, fun x hx => ?_⟩
  rcases mem_free_substAt e hx with ⟨hx, m, hm⟩ | ⟨m, y, r, hr, hx⟩
  · exact kept x (h.free x hx) m hm
  · exact new m y r hr x hx

/-- A renaming to variables of the same types that keeps out of the way of quantifiers. -/
theorem rename {pairs : List (VarRef × VarRef)} (typed : e.type? Γ = some .bool)
    (same : ∀ u ∈ pairs, Γ.ty u.2 = Γ.ty u.1) (clear : ∀ x ∈ e.binders, x ∉ pairs.map Prod.fst)
    (moved : ∀ x ∈ e.free, Substitution.renamed pairs x ∈ vs) :
    (e.subst (.uniform (Substitution.renaming pairs))).FormulaOver Γ vs := by
  refine ⟨(type?_renaming same e .current).trans typed, fun x hx => ?_⟩
  obtain ⟨y, hy, rfl⟩ := exists_free_of_renaming e clear hx
  exact moved y hy

theorem existsAll {bound : List VarRef} (h : e.FormulaOver Γ (bound ++ vs)) :
    (Expr.existsAll bound e).FormulaOver Γ vs := by
  cases bound with
  | nil => exact h
  | cons v bound =>
    refine ⟨by simp [Expr.existsAll, type?, h.type_eq], fun x hx => ?_⟩
    simp only [Expr.existsAll, Expr.free, List.mem_filter, decide_eq_true_eq] at hx
    exact (List.mem_append.1 (h.free x hx.1)).resolve_left hx.2

/-- Variables that are renamed to others of the same types, which are then bound. What is renamed in
both states does not stay. -/
theorem bind {cur pri : List (VarRef × VarRef)} {bound : List VarRef} (h : e.FormulaOver Γ vs)
    (same : ∀ u ∈ cur ++ pri, Γ.ty u.2 = Γ.ty u.1) (hbound : ∀ u ∈ cur ++ pri, u.2 ∈ bound)
    (kept : ∀ x ∈ vs, x ∉ cur.map Prod.fst ∨ x ∉ pri.map Prod.fst → x ∈ ws) :
    (Expr.existsAll bound
      (e.subst ⟨Substitution.renaming cur, Substitution.renaming pri⟩)).FormulaOver Γ ws := by
  have replaced {m : Moment} {v : VarRef} {x : Expr}
      (hx : (TwoState.during ⟨Substitution.renaming cur, Substitution.renaming pri⟩ m).lookup v =
        some x) : ∃ w, x = .var w ∧ (v, w) ∈ cur ++ pri := by
    cases m with
    | current =>
      obtain ⟨w, hw, hmem⟩ := Substitution.lookup_renaming_eq_some hx
      exact ⟨w, hw, List.mem_append.2 (.inl hmem)⟩
    | prior =>
      obtain ⟨w, hw, hmem⟩ := Substitution.lookup_renaming_eq_some hx
      exact ⟨w, hw, List.mem_append.2 (.inr hmem)⟩
  refine existsAll (h.subst (fun m v x hx => ?_) (fun m v x hx y hy => ?_) fun x hx m hm => ?_)
  · obtain ⟨w, rfl, hw⟩ := replaced hx
    rw [type?, same _ hw]
  · obtain ⟨w, rfl, hw⟩ := replaced hx
    rw [Expr.free, List.mem_singleton] at hy
    exact List.mem_append.2 (.inl (hy ▸ hbound _ hw))
  · refine List.mem_append.2 (.inr (kept x hx ?_))
    cases m with
    | current => exact .inl (Substitution.not_mem_of_lookup_renaming hm)
    | prior => exact .inr (Substitution.not_mem_of_lookup_renaming hm)

end Expr.FormulaOver

/-! ## Commands -/

namespace Command

/-- Conditions are boolean, and assigned values have the types of their variables. -/
def WellTyped (Γ : Typing) : Command Expr → Prop
  | assert e | assume e => e.type? Γ = some .bool
  | assign updates => ∀ u ∈ updates, u.2.type? Γ = some (Γ.ty u.1)

/-- The command is well typed, and reads and assigns variables of `vs` only. -/
@[mk_iff]
structure WellFormed (Γ : Typing) (vs : List VarRef) (c : Command Expr) : Prop where
  typed : c.WellTyped Γ
  reads : ∀ e ∈ c.exprs, ∀ x ∈ e.free, x ∈ vs
  writes : ∀ v ∈ c.targets, v ∈ vs

instance (Γ : Typing) : (c : Command Expr) → Decidable (c.WellTyped Γ)
  | assert e | assume e => inferInstanceAs (Decidable (e.type? Γ = some .bool))
  | assign updates =>
    inferInstanceAs (Decidable (∀ u ∈ updates, u.2.type? Γ = some (Γ.ty u.1)))

instance (Γ : Typing) (vs : List VarRef) (c : Command Expr) : Decidable (c.WellFormed Γ vs) :=
  decidable_of_iff _ (wellFormed_iff Γ vs c).symm

variable {Γ Δ : Typing} {vs ws : List VarRef} {c : Command Expr}

theorem WellFormed.mono (h : c.WellFormed Γ vs) (hvs : ∀ v ∈ vs, v ∈ ws) : c.WellFormed Γ ws :=
  ⟨h.typed, fun e he x hx => hvs x (h.reads e he x hx), fun v hv => hvs v (h.writes v hv)⟩

theorem WellTyped.mono {P : VarRef → Prop} (h : Γ.Within P Δ) (hc : c.WellTyped Γ)
    (hP : ∀ x ∈ c.mentions, P x) : c.WellTyped Δ := by
  cases c with
  | assert e => exact e.type?_mono h hP hc
  | assume e => exact e.type?_mono h hP hc
  | assign updates =>
    simp only [mentions, List.mem_append, List.mem_map, List.mem_flatMap] at hP
    intro u hu
    rw [h.ty_eq u.1 (hP u.1 (.inl ⟨u, hu, rfl⟩))]
    exact u.2.type?_mono h (fun x hx => hP x (.inr ⟨u, hu, hx⟩)) (hc u hu)

theorem WellFormed.rename {pairs : List (VarRef × VarRef)} (h : c.WellFormed Γ vs)
    (same : ∀ u ∈ pairs, Γ.ty u.2 = Γ.ty u.1) (new : ∀ u ∈ pairs, u.2 ∈ ws)
    (kept : ∀ x ∈ vs, x ∉ pairs.map Prod.fst → x ∈ ws) : (c.rename pairs).WellFormed Γ ws := by
  have typed (e : Expr) :
      (e.subst (.uniform (Substitution.renaming pairs))).type? Γ = e.type? Γ :=
    Expr.type?_renaming same e .current
  refine ⟨?_, fun e he x hx => ?_, fun v hv => ?_⟩
  · cases c with
    | assert e => exact (typed e).trans h.typed
    | assume e => exact (typed e).trans h.typed
    | assign updates =>
      refine List.forall_mem_map.2 fun u hu => (typed u.2).trans ((h.typed u hu).trans ?_)
      rw [TwoState.target_renaming]
      rcases Substitution.renamed_eq_or_mem pairs u.1 with ⟨heq, _⟩ | hmem
      · rw [heq]
      · rw [same _ hmem]
  · rcases Reads.of_rename ⟨e, he, hx⟩ with ⟨⟨d, hd, hxd⟩, hkey⟩ | hx
    · exact kept x (h.reads d hd x hxd) hkey
    · obtain ⟨u, hu, rfl⟩ := List.mem_map.1 hx
      exact new u hu
  · rcases Writes.of_rename hv with ⟨hv, hkey⟩ | hv
    · exact kept v (h.writes v hv) hkey
    · obtain ⟨u, hu, rfl⟩ := List.mem_map.1 hv
      exact new u hu

end Command

/-! ## Relations -/

section Relations

variable {Γ : Typing} {vs : List VarRef}

theorem formulaOver_backwards {c : Command Expr} (hc : c.WellFormed Γ vs) {after : Expr}
    (hafter : after.FormulaOver Γ vs) : (c.backwards after).FormulaOver Γ vs := by
  cases c with
  | assert e => exact hafter
  | assume e =>
    have held : (Expr.old e).FormulaOver Γ vs := ⟨hc.typed, hc.reads e (by simp [Command.exprs])⟩
    exact held.and hafter
  | assign updates =>
    exact hafter.subst (fun m v r hr => hc.typed _ (mem_of_lookup_inPrior hr))
      (fun m v r hr => hc.reads r (List.mem_map.2 ⟨_, mem_of_lookup_inPrior hr, rfl⟩))
      fun x hx _ _ => hx

/-- The relation of well-formed commands is a formula over their variables. -/
theorem formulaOver_relationFormula {p : Program} {frame : List VarRef} {paths : List Path}
    (hframe : ∀ v ∈ frame, v ∈ vs)
    (commands : ∀ π ∈ paths, ∀ b ∈ π, ∀ c ∈ p.commands b, c.WellFormed Γ vs) :
    (p.relationFormula frame paths).FormulaOver Γ vs := by
  refine relationFormula_induction (.conjoin (List.forall_mem_map.2 fun v hv => ?_)) ?_
    (.literal false) fun l r hl hr => hl.or hr
  · exact .unchanged (hframe v hv)
  · exact fun π hπ b hb c hc after => formulaOver_backwards (commands π hπ b hb c hc)

end Relations

end AtomicMovers
