import AtomicMovers.Proofs.Substitution

/-!
# What occurs in commands

The expressions and variables of a command, and what a substitution makes of them. A renaming of
variables keeps the binders of a command, its reads and its writes, up to the new names.

`Hygienic` is the condition under which commands can be executed symbolically: a variable that is
bound somewhere in them is neither declared, nor read outside of its quantifier, nor assigned.
-/

namespace AtomicMovers

namespace Command

variable {ε δ : Type}

/-- The expressions of a command. -/
def exprs : Command ε → List ε
  | assert e | assume e => [e]
  | assign updates => updates.map Prod.snd

/-- The variables that a command assigns. -/
def targets : Command ε → List VarRef
  | assert _ | assume _ => []
  | assign updates => updates.map Prod.fst

@[simp] theorem exprs_map (f : ε → δ) (c : Command ε) : (c.map f).exprs = c.exprs.map f := by
  cases c <;> simp [map, exprs, Function.comp_def]

@[simp] theorem targets_map (f : ε → δ) (c : Command ε) : (c.map f).targets = c.targets := by
  cases c <;> simp [map, targets, Function.comp_def]

theorem map_congr {f g : ε → δ} {c : Command ε} (h : ∀ e ∈ c.exprs, f e = g e) :
    c.map f = c.map g := by
  cases c with
  | assert e => rw [map, map, h e (by simp [exprs])]
  | assume e => rw [map, map, h e (by simp [exprs])]
  | assign updates =>
    rw [map, map]
    congr 1
    apply List.map_congr_left
    intro u hu
    rw [h u.2 (List.mem_map.2 ⟨u, hu, rfl⟩)]

/-- The command does not mention the prior state. -/
def OldFree (c : Command Expr) : Prop := ∀ e ∈ c.exprs, e.OldFree

/-- The command reads the variable outside of any quantifier that binds it. -/
def Reads (c : Command Expr) (x : VarRef) : Prop := ∃ e ∈ c.exprs, x ∈ e.free

/-- The command assigns the variable. -/
def Writes (c : Command Expr) (x : VarRef) : Prop := x ∈ c.targets

/-- A quantifier of the command binds the variable. -/
def Binds (c : Command Expr) (x : VarRef) : Prop := ∃ e ∈ c.exprs, x ∈ e.binders

end Command

section Check

variable (c : Command Expr) (x : VarRef)

instance : Decidable (c.Reads x) := inferInstanceAs (Decidable (∃ e ∈ c.exprs, x ∈ e.free))

instance : Decidable (c.Writes x) := inferInstanceAs (Decidable (x ∈ c.targets))

instance : Decidable (c.Binds x) := inferInstanceAs (Decidable (∃ e ∈ c.exprs, x ∈ e.binders))

instance : Decidable c.OldFree := inferInstanceAs (Decidable (∀ e ∈ c.exprs, e.OldFree))

end Check

/-- A variable bound in one of the commands is not declared, and no command reads it outside of its
quantifier or assigns it. -/
def Hygienic (declared : List VarRef) (cs : List (Command Expr)) : Prop :=
  ∀ x, (∃ c ∈ cs, c.Binds x) → x ∉ declared ∧ ∀ c ∈ cs, ¬c.Reads x ∧ ¬c.Writes x

theorem hygienic_iff {declared : List VarRef} {cs : List (Command Expr)} : Hygienic declared cs ↔
    ∀ c ∈ cs, ∀ e ∈ c.exprs, ∀ x ∈ e.binders,
      x ∉ declared ∧ ∀ d ∈ cs, ¬d.Reads x ∧ ¬d.Writes x := by
  constructor
  · exact fun h c hc e he x hx => h x ⟨c, hc, e, he, hx⟩
  · rintro h x ⟨c, hc, e, he, hx⟩
    exact h c hc e he x hx

instance (declared : List VarRef) (cs : List (Command Expr)) : Decidable (Hygienic declared cs) :=
  decidable_of_iff _ hygienic_iff.symm

theorem Hygienic.mono {declared declared' : List VarRef} {cs cs' : List (Command Expr)}
    (h : Hygienic declared cs) (hdeclared : ∀ v ∈ declared', v ∈ declared)
    (hcs : ∀ c ∈ cs', c ∈ cs) : Hygienic declared' cs' := by
  rintro x ⟨c, hc, hx⟩
  obtain ⟨undeclared, apart⟩ := h x ⟨c, hcs c hc, hx⟩
  exact ⟨fun hv => undeclared (hdeclared x hv), fun d hd => apart d (hcs d hd)⟩

/-! ## Substitution in commands -/

/-- The variable that an assignment to `v` goes to after substitution: the replacement of `v` in the
current state, if that is a variable. -/
def TwoState.target (σ : TwoState Expr) (v : VarRef) : VarRef :=
  match σ.current.lookup v with
  | some (.var w) => w
  | _ => v

namespace Command

/-- Replaces the references of a command, its assigned variables included. -/
def subst (σ : TwoState Expr) : Command Expr → Command Expr
  | assert e => assert (e.subst σ)
  | assume e => assume (e.subst σ)
  | assign updates => assign (updates.map fun u => (σ.target u.1, u.2.subst σ))

theorem exprs_subst (σ : TwoState Expr) (c : Command Expr) :
    (c.subst σ).exprs = c.exprs.map (Expr.subst σ) := by
  cases c <;> simp [subst, exprs, Function.comp_def]

theorem targets_subst (σ : TwoState Expr) (c : Command Expr) :
    (c.subst σ).targets = c.targets.map σ.target := by
  cases c <;> simp [subst, targets, Function.comp_def]

/-- Renames the variables of a command. -/
def rename (pairs : List (VarRef × VarRef)) : Command Expr → Command Expr :=
  subst (.uniform (Substitution.renaming pairs))

end Command

theorem TwoState.target_renaming (pairs : List (VarRef × VarRef)) (v : VarRef) :
    (TwoState.uniform (Substitution.renaming pairs)).target v = Substitution.renamed pairs v := by
  rw [target, uniform, Substitution.lookup_renaming, Substitution.renamed]
  cases pairs.reverse.lookup v <;> rfl

/-- A replacement of a renaming is one of the new names. -/
theorem TwoState.during_renaming {pairs : List (VarRef × VarRef)} {m : Moment} {y : VarRef}
    {r : Expr} (h : ((uniform (Substitution.renaming pairs)).during m).lookup y = some r) :
    ∃ w, r = .var w ∧ (y, w) ∈ pairs := by
  cases m <;> exact Substitution.lookup_renaming_eq_some h

namespace Command

variable {pairs : List (VarRef × VarRef)} {c : Command Expr} {x : VarRef}

theorem OldFree.rename (h : c.OldFree) : (c.rename pairs).OldFree := by
  intro e he
  rw [Command.rename, exprs_subst] at he
  obtain ⟨d, hd, rfl⟩ := List.mem_map.1 he
  apply Expr.oldFree_substAt _ d (h d hd)
  intro y r hr
  obtain ⟨w, rfl, _⟩ := TwoState.during_renaming hr
  trivial

/-- New names are not bound, so a renaming adds no binders. -/
theorem Binds.of_rename (h : (c.rename pairs).Binds x) : c.Binds x := by
  obtain ⟨e, he, hx⟩ := h
  rw [Command.rename, exprs_subst] at he
  obtain ⟨d, hd, rfl⟩ := List.mem_map.1 he
  rcases Expr.mem_binders_substAt d hx with hx | ⟨m, y, r, hr, hx⟩
  · exact ⟨d, hd, hx⟩
  · obtain ⟨w, rfl, _⟩ := TwoState.during_renaming hr
    simp [Expr.binders] at hx

/-- A variable that is read was read before, if it has no new name, or is a new name. -/
theorem Reads.of_rename (h : (c.rename pairs).Reads x) :
    (c.Reads x ∧ x ∉ pairs.map Prod.fst) ∨ x ∈ pairs.map Prod.snd := by
  obtain ⟨e, he, hx⟩ := h
  rw [Command.rename, exprs_subst] at he
  obtain ⟨d, hd, rfl⟩ := List.mem_map.1 he
  rcases Expr.mem_free_substAt d hx with ⟨hx, m, hm⟩ | ⟨m, y, r, hr, hx⟩
  · exact .inl ⟨⟨d, hd, hx⟩, Substitution.not_mem_of_lookup_renaming (by cases m <;> exact hm)⟩
  · obtain ⟨w, rfl, hw⟩ := TwoState.during_renaming hr
    rw [Expr.free, List.mem_singleton] at hx
    exact .inr (List.mem_map.2 ⟨_, hw, hx.symm⟩)

/-- An assignment keeps its variable if that has no new name, and goes to the new name otherwise. -/
theorem Writes.of_rename (h : (c.rename pairs).Writes x) :
    (c.Writes x ∧ x ∉ pairs.map Prod.fst) ∨ x ∈ pairs.map Prod.snd := by
  rw [Writes, Command.rename, targets_subst] at h
  obtain ⟨v, hv, rfl⟩ := List.mem_map.1 h
  rw [TwoState.target_renaming]
  rcases Substitution.renamed_eq_or_mem pairs v with ⟨heq, hn⟩ | hm
  · rw [heq]
    exact .inl ⟨hv, hn⟩
  · exact .inr (List.mem_map.2 ⟨_, hm, rfl⟩)

end Command

end AtomicMovers
