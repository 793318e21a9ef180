import AtomicMovers.Proofs.FailurePreservation
import AtomicMovers.Proofs.WellFormed

/-!
# Runs of well-typed commands

The values that variables of a type range over are up to the interpretation. It respects the types of
expressions if literals, operators and functions stay in these ranges (`Interpretation.Respects`).
Then the value of a well-typed expression is in the range of its type where the values of all
variables are (`range_eval`), and runs of well-formed commands keep all variables in range
(`inRange_of_completes`).

The postcondition of a failure preservation procedure asks for a run that ends with globals and outputs
in range. For a well-scoped action all runs from states in range do
(`ensures_iff_of_wellScoped`).
-/

namespace AtomicMovers

variable {D : Type}

/-- Literals, operators and functions have values in the ranges of their types. -/
structure Interpretation.Respects (I : Interpretation D) (Γ : Typing) : Prop where
  literal : ∀ value, I.range value.type (I.literal value)
  unary : ∀ {op τ τ' x}, op.type? Γ.numeric τ = some τ' → I.range τ x → I.range τ' (I.unary op x)
  operate : ∀ {op τl τr τ x y}, op.type? Γ.numeric τl τr = some τ → I.range τl x → I.range τr y →
    I.range τ (I.operate op x y)
  call : ∀ {f sig xs}, Γ.function? f = some sig → List.Forall₂ I.range sig.args xs →
    I.range sig.result (I.call f xs)

variable {I : Interpretation D} {Γ : Typing} {vs : List VarRef}

theorem Interpretation.Respects.truth (h : I.Respects Γ) (P : Prop) :
    I.range .bool (Interpretation.truth P) :=
  h.literal (.bool _)

namespace Expr

/-- Arguments that all have values in range have them in the ranges of their types, in order. -/
theorem forall₂_range {value : Expr → Value D} {es : List Expr}
    (h : ∀ e ∈ es, ∀ τ, e.type? Γ = some τ → I.range τ (value e)) :
    ∀ {τs}, typeAll? Γ es = some τs → List.Forall₂ I.range τs (es.map value) := by
  induction es with
  | nil =>
    rintro τs ⟨⟩
    exact .nil
  | cons e es ih =>
    intro τs hτs
    rw [List.forall_mem_cons] at h
    simp only [typeAll?, Option.bind_eq_some_iff, Option.map_eq_some_iff] at hτs
    obtain ⟨τ, he, τs', hes, rfl⟩ := hτs
    exact .cons (h.1 τ he) (ih h.2 hes)

/-- The value of a well-typed expression is in the range of its type, if those of its variables
are. -/
theorem range_eval (respects : I.Respects Γ) (e : Expr) : ∀ {τ : Ty} {prior current : State D},
    e.type? Γ = some τ → (∀ x ∈ e.free, x ∈ vs) → I.InRange Γ.ty vs prior →
      I.InRange Γ.ty vs current → I.range τ (e.eval I Γ.ty prior current) := by
  induction e with
  | lit value =>
    rintro τ prior current ⟨⟩ - - -
    exact respects.literal value
  | var v =>
    rintro τ prior current ⟨⟩ hfree - hcurrent
    exact hcurrent v (hfree v (List.mem_singleton_self v))
  | old e ih => exact fun typed hfree hprior _ => ih typed hfree hprior hprior
  | unary op e ih =>
    intro τ prior current typed hfree hprior hcurrent
    rw [type?, Option.bind_eq_some_iff] at typed
    obtain ⟨τ', he, hop⟩ := typed
    exact respects.unary hop (ih he hfree hprior hcurrent)
  | binary op l r ihl ihr =>
    intro τ prior current typed hfree hprior hcurrent
    simp only [type?, Option.bind_eq_some_iff] at typed
    obtain ⟨τl, hl, τr, hr, hop⟩ := typed
    obtain ⟨freel, freer⟩ := List.forall_mem_append.1 hfree
    exact respects.operate hop (ihl hl freel hprior hcurrent) (ihr hr freer hprior hcurrent)
  | call f args ih =>
    intro τ prior current typed hfree hprior hcurrent
    simp only [Expr.free, mem_freeAll] at hfree
    rw [type?, Option.bind_eq_some_iff] at typed
    obtain ⟨sig, hsig, hargs⟩ := typed
    split at hargs
    · rename_i types
      cases hargs
      rw [eval, evalAll_eq_map]
      refine respects.call hsig (forall₂_range (fun a ha τ hτ => ?_) types)
      exact ih a ha hτ (fun x hx => hfree x ⟨a, ha, hx⟩) hprior hcurrent
    · cases hargs
  | quant q bound body ih =>
    intro τ prior current typed _ _ _
    rw [type?] at typed
    split at typed
    · cases typed
      cases q with
      | universal => exact respects.truth _
      | existential => exact respects.truth _
    · cases typed

end Expr

namespace Program

variable {p : Program} {start : State D} {bs : List BlockRef}

/-- An assignment of values that are in range. -/
theorem inRange_setAll {ty : VarRef → Ty} {updates : List (VarRef × Value D)}
    (hupdates : ∀ u ∈ updates, I.range (ty u.1) u.2) :
    ∀ {s : State D}, I.InRange ty vs s → I.InRange ty vs (s.setAll updates) := by
  induction updates with
  | nil => exact fun hs => hs
  | cons u us ih =>
    intro s hs
    rw [List.forall_mem_cons] at hupdates
    refine ih hupdates.2 fun x hx => ?_
    show I.range (ty x) (if x = u.1 then u.2 else s x)
    split
    · rename_i heq
      rw [heq]
      exact hupdates.1
    · exact hs x hx

section WellTyped

variable (respects : I.Respects Γ) (types : Γ.ty = p.tyOf)
  (wellFormed : ∀ b ∈ bs, ∀ c ∈ p.commands b, c.WellFormed Γ vs)

include respects types wellFormed

/-- A step keeps the variables in range. -/
theorem Step.inRange (hstart : I.InRange p.tyOf vs start) {c d : Config D} (hc : c.Inside p bs)
    (h : p.Step I start c d) (hs : I.InRange p.tyOf vs c.state) :
    I.InRange p.tyOf vs d.state := by
  cases h with
  | assert he => exact hs
  | assume he => exact hs
  | @assign b updates cs s =>
    have command := wellFormed b hc.block _ (hc.rest _ List.mem_cons_self)
    rw [← types] at hstart hs ⊢
    refine inRange_setAll (List.forall_mem_map.2 fun u hu => ?_) hs
    rw [valueIn, ← types]
    exact u.2.range_eval respects (command.typed u hu)
      (command.reads u.2 (List.mem_map.2 ⟨u, hu, rfl⟩)) hstart hs
  | goto htransfer ht => exact hs

/-- A run keeps the variables in range. -/
theorem Trace.inRange (hbs : p.Encloses bs) (hstart : I.InRange p.tyOf vs start) {c d : Config D}
    {passed : List (Config D)} (h : p.Trace I start c passed d) (hc : c.Inside p bs)
    (hs : I.InRange p.tyOf vs c.state) : I.InRange p.tyOf vs d.state := by
  induction h with
  | refl c => exact hs
  | step hstep _ ih =>
    exact ih (hstep.inside hbs hc) (hstep.inRange respects types wellFormed hstart hc hs)

/-- A run that starts with its variables in range ends so. -/
theorem inRange_of_completes (hbs : p.Encloses bs) {b : BlockRef} (hb : b ∈ bs) {s t : State D}
    (hs : I.InRange p.tyOf vs s) (run : p.Completes I b s t) : I.InRange p.tyOf vs t := by
  obtain ⟨d, ⟨passed, trace⟩, -, rfl⟩ := run
  exact trace.inRange respects types wellFormed hbs hs (inside_enterBlock hb s) hs

end WellTyped

end Program

/-! ## Failure preservation procedures -/

open Program

/-- A run of a well-scoped shadow copy that starts with all variables in range ends so. -/
theorem inRange_of_completes_shadow {base p : Program} {actions : List AtomicAction}
    {second : AtomicAction} (h : Assembly.Sound base p actions) (hs : second ∈ actions)
    {numeric : Ty → Bool} (wellScoped : second.WellScoped (p.typing numeric) p.namedRefs base)
    (respects : I.Respects (p.typing numeric)) {s v t : State D}
    (hstate : I.InRange p.tyOf (p.namedRefs ++ second.shadow.inputs) s)
    (hv : I.InRange p.tyOf (second.shadow.outputs ++ second.shadow.locals) v)
    (run : p.Completes I second.shadow.entry
      (s.override (second.shadow.outputs ++ second.shadow.locals) v) t) :
    I.InRange p.tyOf (p.namedRefs ++ second.shadow.vars) t := by
  have built := h.built second hs
  have copy := wellScoped.shadow h.base_closed built (built.tyOf_eq h.grows)
  refine inRange_of_completes respects rfl copy.commands (encloses_shadow built)
    (Replica.entry_mem (h.validIn hs).shadow.nonempty) (fun x hx => ?_) run
  by_cases own : x ∈ second.shadow.outputs ++ second.shadow.locals
  · rw [State.override_of_mem own]
    exact hv x own
  · rw [State.override_of_not_mem own]
    rw [Replica.vars, List.append_assoc, ← List.append_assoc] at hx
    exact hstate x ((List.mem_append.1 hx).resolve_right own)

/-- Where the values of variables at the start are in range and those of expressions have the types of
the expressions, nothing needs to be said about the values at the end of the run, if the second
action is well typed. -/
theorem ensures_iff_of_wellScoped {base p q : Program} {actions : List AtomicAction}
    (hbase : base.Closed) (assembly : Assembly base p actions) {first second : AtomicAction}
    (hf : first ∈ actions) (hs : second ∈ actions) (df : first.Disciplined base)
    (ds : second.Disciplined base) (assigns : second.AssignsDeclared base)
    (hygienic : Hygienic (base.globals ++ first.primary.vars ++ second.primary.vars)
      (first.primary.commands base ++ second.primary.commands base))
    {o : Ownership} {r : ProcRef} (run : (addFailurePreservation o first second).run p = (.ok r, q))
    {numeric : Ty → Bool} (wellScoped : second.WellScoped (q.typing numeric) q.namedRefs base)
    (respects : I.Respects (q.typing numeric)) {s : State D}
    (hstate : I.InRange q.tyOf (q.namedRefs ++ second.shadow.inputs) s) :
    q.Ensures I (q.procedure r) s s ↔
      ∃ v t, I.InRange q.tyOf (second.shadow.outputs ++ second.shadow.locals) v ∧
        q.Completes I second.shadow.entry
          (s.override (second.shadow.outputs ++ second.shadow.locals) v) t ∧
        ∃ g ∈ first.primary.gate, ¬(q.expr g).Holds I q.tyOf t t := by
  have hp := assembly.sound hbase
  obtain ⟨hpq, closed, requires, gateFails, e, body, parts⟩ :=
    (attempts_addFailurePreservation hp.closed (hp.validIn hf) (hp.validIn hs)).of_run run
  have hq := hp.extends hpq closed
  rw [parts.ensures_iff hp hq hpq (DisciplinedPair.ofActions hf hs df ds hygienic) assigns]
  constructor
  · rintro ⟨v, t, hv, runs, -, fails⟩
    exact ⟨v, t, hv, runs, fails⟩
  · rintro ⟨v, t, hv, runs, fails⟩
    have inRange := inRange_of_completes_shadow hq hs wellScoped respects hstate hv runs
    refine ⟨v, t, hv, runs, fun x hx => inRange x ?_, fails⟩
    rcases List.mem_append.1 hx with global | output
    · exact List.mem_append.2 (.inl (mem_namedRefs_of_mem_globals global))
    · exact List.mem_append.2 (.inr (Replica.outputs_subset _ x output))

end AtomicMovers
