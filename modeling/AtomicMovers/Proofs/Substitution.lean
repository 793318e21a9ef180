import AtomicMovers.Proofs.Evaluation
import Mathlib.Data.List.Nodup

/-!
# The meaning of substitution

Evaluating a rewritten expression is evaluating the expression in rewritten states
(`eval_substAt`). Each map of a two-state substitution gives one of these states: the value of a
variable is the value of its replacement (`Substitution.image`). Binders are kept by a substitution,
so they must not be among the replaced variables nor capture a variable of a replacement
(`Substitution.Avoids`).

The second half is about replacing variables by new ones that are then bound: that is the same as
giving the variables other values, the same in both states (`holds_bind_renaming`) or different ones
in each (`holds_bind_renamings`).
-/

namespace AtomicMovers

/-! ## The substitution lemma -/

namespace Substitution

variable {D : Type} (I : Interpretation D) (ty : VarRef → Ty)

/-- What is left of two states after the references of one of them were replaced. -/
noncomputable def image (ρ : Substitution Expr) (prior current : State D) : State D :=
  fun v => ((ρ.lookup v).getD (.var v)).eval I ty prior current

/-- A variable that the substitution neither replaces nor mentions. -/
def Avoids (ρ : Substitution Expr) (x : VarRef) : Prop :=
  ρ.lookup x = none ∧ ∀ y r, ρ.lookup y = some r → x ∉ r.free

theorem avoids_nil (x : VarRef) : Avoids [] x := ⟨rfl, by simp⟩

@[simp] theorem image_nil (prior current : State D) : image I ty [] prior current = current := rfl

variable {I ty}

/-- Variables that are avoided may get their values before or after the replacement. -/
theorem image_override {ρ : Substitution Expr} {bound : List VarRef} (h : ∀ x ∈ bound, ρ.Avoids x)
    (prior current t : State D) :
    ρ.image I ty (prior.override bound t) (current.override bound t) =
      (ρ.image I ty prior current).override bound t := by
  funext v
  by_cases hv : v ∈ bound
  · rw [State.override_of_mem hv, image, (h v hv).1]
    exact State.override_of_mem hv
  · rw [State.override_of_not_mem hv, image, image]
    cases hr : ρ.lookup v with
    | none => exact State.override_of_not_mem hv
    | some r =>
      -- no variable of the replacement is among the bound ones
      have untouched (s : State D) : ∀ x ∈ r.free, s.override bound t x = s x :=
        fun x hx => State.override_of_not_mem fun hb => (h x hb).2 v r hr hx
      exact Expr.eval_congr r (untouched prior) (untouched current) fun _ _ => rfl

end Substitution

/-- The state that is read at a moment. -/
def Moment.pick {D : Type} (prior current : State D) : Moment → State D
  | .current => current
  | .prior => prior

theorem Moment.pick_override {D : Type} (m : Moment) (prior current t : State D)
    (bound : List VarRef) :
    m.pick (prior.override bound t) (current.override bound t) =
      (m.pick prior current).override bound t := by
  cases m <;> rfl

namespace Expr

variable {D : Type} {I : Interpretation D} {ty : VarRef → Ty}

/-- Evaluating a rewritten expression is evaluating the expression in rewritten states. -/
theorem eval_substAt (σ : TwoState Expr) (e : Expr) :
    ∀ (m : Moment) (prior current : State D),
      (∀ x ∈ e.binders, σ.current.Avoids x ∧ σ.prior.Avoids x) →
      (e.substAt σ m).eval I ty prior (m.pick prior current) =
        e.eval I ty (σ.prior.image I ty prior prior)
          ((σ.during m).image I ty prior (m.pick prior current)) := by
  induction e with
  | lit value => intros; rfl
  | var v => intros; rfl
  | old e ih =>
    intro m prior current h
    rw [substAt, eval, eval]
    exact ih .prior prior current h
  | unary op e ih =>
    intro m prior current h
    rw [substAt, eval, eval, ih m prior current h]
  | binary op l r ihl ihr =>
    intro m prior current h
    simp only [binders, List.mem_append] at h
    rw [substAt, eval, eval, ihl m prior current fun x hx => h x (.inl hx),
      ihr m prior current fun x hx => h x (.inr hx)]
  | call f args ih =>
    intro m prior current h
    simp only [binders, mem_bindersAll] at h
    rw [substAt, substAll_eq_map, eval, eval, evalAll_eq_map, evalAll_eq_map, List.map_map]
    congr 1
    apply List.map_congr_left
    intro a ha
    exact ih a ha m prior current fun x hx => h x ⟨a, ha, hx⟩
  | quant q bound body ih =>
    intro m prior current h
    simp only [binders, List.mem_append] at h
    -- the quantified values enter before the replacement on one side and after it on the other
    have during_avoids : ∀ x ∈ bound, (σ.during m).Avoids x := by
      intro x hx
      cases m
      · exact (h x (.inl hx)).1
      · exact (h x (.inl hx)).2
    have body_eq (t : State D) :
        (body.substAt σ m).eval I ty (prior.override bound t)
            ((m.pick prior current).override bound t) =
          body.eval I ty ((σ.prior.image I ty prior prior).override bound t)
            (((σ.during m).image I ty prior (m.pick prior current)).override bound t) := by
      rw [← Moment.pick_override,
        ih m (prior.override bound t) (current.override bound t) fun x hx => h x (.inr hx),
        Moment.pick_override, Substitution.image_override during_avoids,
        Substitution.image_override fun x hx => (h x (.inl hx)).2]
    cases q with
    | universal =>
      rw [substAt, eval, eval]
      simp only [body_eq]
    | existential =>
      rw [substAt, eval, eval]
      simp only [body_eq]

theorem holds_subst (σ : TwoState Expr) (e : Expr) (prior current : State D)
    (h : ∀ x ∈ e.binders, σ.current.Avoids x ∧ σ.prior.Avoids x) :
    (e.subst σ).Holds I ty prior current ↔
      e.Holds I ty (σ.prior.image I ty prior prior) (σ.current.image I ty prior current) := by
  have key : (e.substAt σ .current).eval I ty prior current = _ :=
    eval_substAt σ e .current prior current h
  rw [Holds, Holds, subst, key]
  rfl

/-- Where nothing is replaced, nothing changes. -/
theorem substAt_nil (e : Expr) : ∀ m : Moment, e.substAt ⟨[], []⟩ m = e := by
  induction e with
  | lit value => exact fun _ => rfl
  | var v => exact fun m => by cases m <;> rfl
  | old e ih => exact fun _ => congrArg old (ih .prior)
  | unary op e ih => exact fun m => congrArg (unary op) (ih m)
  | binary op l r ihl ihr => exact fun m => congrArg₂ (binary op) (ihl m) (ihr m)
  | call f args ih =>
    intro m
    rw [substAt, substAll_eq_map, List.map_congr_left fun a ha => ih a ha m, List.map_id']
  | quant q bound body ih => exact fun m => congrArg (quant q bound) (ih m)

/-! ## What occurs in a rewritten expression -/

/-- A binder of a rewritten expression was there before or comes with a replacement. -/
theorem mem_binders_substAt {σ : TwoState Expr} {x : VarRef} (e : Expr) :
    ∀ {m : Moment}, x ∈ (e.substAt σ m).binders →
      x ∈ e.binders ∨ ∃ m y r, (σ.during m).lookup y = some r ∧ x ∈ r.binders := by
  induction e with
  | lit value => intro m h; simp [substAt, binders] at h
  | var v =>
    intro m h
    rw [substAt] at h
    cases hr : (σ.during m).lookup v with
    | none => simp [hr, binders] at h
    | some r => exact .inr ⟨m, v, r, hr, by simpa [hr] using h⟩
  | old e ih => exact fun h => ih h
  | unary op e ih => exact fun h => ih h
  | binary op l r ihl ihr =>
    intro m h
    simp only [substAt, binders, List.mem_append] at h ⊢
    rcases h with h | h
    · exact (ihl h).imp_left .inl
    · exact (ihr h).imp_left .inr
  | call f args ih =>
    intro m h
    simp only [substAt, substAll_eq_map, binders, mem_bindersAll, List.mem_map] at h ⊢
    obtain ⟨_, ⟨a, ha, rfl⟩, h⟩ := h
    exact (ih a ha h).imp_left fun h => ⟨a, ha, h⟩
  | quant q bound body ih =>
    intro m h
    simp only [substAt, binders, List.mem_append] at h ⊢
    rcases h with h | h
    · exact .inl (.inl h)
    · exact (ih h).imp_left .inr

/-- A free variable of a rewritten expression was free before and is kept at some moment, or it comes
with a replacement. -/
theorem mem_free_substAt {σ : TwoState Expr} {x : VarRef} (e : Expr) :
    ∀ {m : Moment}, x ∈ (e.substAt σ m).free →
      (x ∈ e.free ∧ ∃ m, (σ.during m).lookup x = none) ∨
        ∃ m y r, (σ.during m).lookup y = some r ∧ x ∈ r.free := by
  induction e with
  | lit value => intro m h; simp [substAt, free] at h
  | var v =>
    intro m h
    rw [substAt] at h
    cases hr : (σ.during m).lookup v with
    | none =>
      obtain rfl : x = v := by simpa [hr, free] using h
      exact .inl ⟨by simp [free], m, hr⟩
    | some r => exact .inr ⟨m, v, r, hr, by simpa [hr] using h⟩
  | old e ih => exact fun h => ih h
  | unary op e ih => exact fun h => ih h
  | binary op l r ihl ihr =>
    intro m h
    simp only [substAt, free, List.mem_append] at h ⊢
    rcases h with h | h
    · exact (ihl h).imp_left fun k => ⟨.inl k.1, k.2⟩
    · exact (ihr h).imp_left fun k => ⟨.inr k.1, k.2⟩
  | call f args ih =>
    intro m h
    simp only [substAt, substAll_eq_map, free, mem_freeAll, List.mem_map] at h ⊢
    obtain ⟨_, ⟨a, ha, rfl⟩, h⟩ := h
    exact (ih a ha h).imp_left fun k => ⟨⟨a, ha, k.1⟩, k.2⟩
  | quant q bound body ih =>
    -- the binders are kept, so they hide the same variables before and after
    intro m h
    simp only [substAt, free, List.mem_filter, decide_eq_true_eq] at h ⊢
    exact (ih h.1).imp_left fun k => ⟨⟨k.1, h.2⟩, k.2⟩

theorem oldFree_substAt {σ : TwoState Expr} {m : Moment}
    (hσ : ∀ y r, (σ.during m).lookup y = some r → r.OldFree) (e : Expr) :
    e.OldFree → (e.substAt σ m).OldFree := by
  induction e with
  | lit value => exact id
  | var v =>
    intro _
    rw [substAt]
    cases hr : (σ.during m).lookup v with
    | none => exact trivial
    | some r => exact hσ v r hr
  | old e ih => exact False.elim
  | unary op e ih => exact ih
  | binary op l r ihl ihr => exact fun h => ⟨ihl h.1, ihr h.2⟩
  | call f args ih =>
    simp only [substAt, substAll_eq_map, OldFree, allOldFree_iff, List.mem_map]
    rintro h _ ⟨a, ha, rfl⟩
    exact ih a ha (h a ha)
  | quant q bound body ih => exact ih

end Expr

/-! ## Renaming -/

namespace Substitution

/-- The variable that stands for `v` after a renaming, where a later pair wins. -/
def renamed (pairs : List (VarRef × VarRef)) (v : VarRef) : VarRef :=
  (pairs.reverse.lookup v).getD v

theorem mem_of_lookup {β : Type} {l : List (VarRef × β)} {v : VarRef} {w : β}
    (h : l.lookup v = some w) : (v, w) ∈ l := by
  obtain ⟨l₁, l₂, rfl, _⟩ := List.lookup_eq_some_iff.1 h
  simp

theorem lookup_eq_none {β : Type} {l : List (VarRef × β)} {v : VarRef} (h : v ∉ l.map Prod.fst) :
    l.lookup v = none := by
  rw [List.lookup_eq_none_iff]
  intro u hu
  simp only [bne_iff_ne, ne_eq]
  exact fun hv => h (List.mem_map.2 ⟨u, hu, hv.symm⟩)

theorem not_mem_of_lookup_eq_none {β : Type} {l : List (VarRef × β)} {v : VarRef}
    (h : l.lookup v = none) : v ∉ l.map Prod.fst := by
  intro hv
  obtain ⟨u, hu, rfl⟩ := List.mem_map.1 hv
  have := List.lookup_eq_none_iff.1 h u hu
  simp at this

theorem renamed_of_not_mem {pairs : List (VarRef × VarRef)} {v : VarRef}
    (h : v ∉ pairs.map Prod.fst) : renamed pairs v = v := by
  rw [renamed, lookup_eq_none (by simpa using h)]
  rfl

/-- A renamed variable is its own name or one of the new ones. -/
theorem renamed_eq_or_mem (pairs : List (VarRef × VarRef)) (v : VarRef) :
    (renamed pairs v = v ∧ v ∉ pairs.map Prod.fst) ∨ (v, renamed pairs v) ∈ pairs := by
  rw [renamed]
  cases h : pairs.reverse.lookup v with
  | none => exact .inl ⟨rfl, by simpa using not_mem_of_lookup_eq_none h⟩
  | some w => exact .inr (by simpa using mem_of_lookup h)

/-- A variable with a new name is paired with it. -/
theorem mem_renamed {pairs : List (VarRef × VarRef)} {v : VarRef} (h : v ∈ pairs.map Prod.fst) :
    (v, renamed pairs v) ∈ pairs := by
  rcases renamed_eq_or_mem pairs v with ⟨_, hn⟩ | hm
  · exact absurd h hn
  · exact hm

/-- Where every variable has one new name, the pairs say which. -/
theorem renamed_of_mem {pairs : List (VarRef × VarRef)} (h : (pairs.map Prod.fst).Nodup)
    {v w : VarRef} (hv : (v, w) ∈ pairs) : renamed pairs v = w :=
  have hm := mem_renamed (List.mem_map.2 ⟨(v, w), hv, rfl⟩)
  congrArg Prod.snd (List.inj_on_of_nodup_map h hm hv rfl)

theorem lookup_renaming (pairs : List (VarRef × VarRef)) (v : VarRef) :
    (Substitution.renaming pairs).lookup v = (pairs.reverse.lookup v).map Expr.var := by
  rw [Substitution.renaming, ofList, ← List.map_reverse]
  induction pairs.reverse with
  | nil => rfl
  | cons u us ih =>
    rw [List.map_cons, List.lookup_cons, List.lookup_cons, ih]
    cases v == u.1 <;> rfl

/-- What a renaming keeps has no new name. -/
theorem not_mem_of_lookup_renaming {pairs : List (VarRef × VarRef)} {v : VarRef}
    (h : (Substitution.renaming pairs).lookup v = none) : v ∉ pairs.map Prod.fst := by
  rw [lookup_renaming, Option.map_eq_none_iff] at h
  simpa using not_mem_of_lookup_eq_none h

theorem getD_lookup_renaming (pairs : List (VarRef × VarRef)) (v : VarRef) :
    ((Substitution.renaming pairs).lookup v).getD (.var v) = .var (renamed pairs v) := by
  rw [lookup_renaming, renamed]
  cases pairs.reverse.lookup v <;> rfl

theorem image_renaming {D : Type} (I : Interpretation D) (ty : VarRef → Ty)
    (pairs : List (VarRef × VarRef)) (prior current : State D) (v : VarRef) :
    (Substitution.renaming pairs).image I ty prior current v = current (renamed pairs v) := by
  rw [image, getD_lookup_renaming, Expr.eval]

theorem lookup_renaming_eq_some {pairs : List (VarRef × VarRef)} {v : VarRef} {r : Expr}
    (h : (Substitution.renaming pairs).lookup v = some r) : ∃ w, r = .var w ∧ (v, w) ∈ pairs := by
  rw [lookup_renaming, Option.map_eq_some_iff] at h
  obtain ⟨w, hw, rfl⟩ := h
  exact ⟨w, rfl, by simpa using mem_of_lookup hw⟩

/-- A renaming avoids whatever is neither an old nor a new name. -/
theorem avoids_renaming {pairs : List (VarRef × VarRef)} {x : VarRef}
    (old : x ∉ pairs.map Prod.fst) (new : x ∉ pairs.map Prod.snd) :
    (Substitution.renaming pairs).Avoids x := by
  constructor
  · rw [lookup_renaming, lookup_eq_none (by simpa using old)]
    rfl
  · intro y r hr hx
    obtain ⟨w, rfl, hw⟩ := lookup_renaming_eq_some hr
    rw [Expr.free, List.mem_singleton] at hx
    exact new (List.mem_map.2 ⟨(y, w), hw, hx.symm⟩)

end Substitution

/-! ## Binding new names

A formula whose variables were renamed to quantified ones says that the variables have some values.
Since the new names occur nowhere else, a choice of values for them and a choice for the old names
amount to the same. -/

namespace State

variable {D : Type}

/-- The values of the new names in `m` are those of the old names in `l`. -/
def Matches (pairs : List (VarRef × VarRef)) (l m : State D) : Prop := ∀ u ∈ pairs, m u.2 = l u.1

theorem exists_matches (pairs : List (VarRef × VarRef)) (h : (pairs.map Prod.snd).Nodup)
    (l : State D) : ∃ m, Matches pairs l m := by
  refine ⟨fun w => l (Substitution.renamed (pairs.map Prod.swap) w), fun u hu => ?_⟩
  have hs : ((pairs.map Prod.swap).map Prod.fst).Nodup := by simpa [Function.comp_def] using h
  have hu' : (u.2, u.1) ∈ pairs.map Prod.swap := List.mem_map.2 ⟨u, hu, rfl⟩
  show l (Substitution.renamed (pairs.map Prod.swap) u.2) = l u.1
  rw [Substitution.renamed_of_mem hs hu']

variable {pairs : List (VarRef × VarRef)} {l m : State D}

theorem Matches.renamed (h : Matches pairs l m) :
    ∀ x ∈ pairs.map Prod.fst, m (Substitution.renamed pairs x) = l x :=
  fun _ hx => h _ (Substitution.mem_renamed hx)

theorem Matches.inRange (h : Matches pairs l m) {I : Interpretation D} {ty : VarRef → Ty}
    (same : ∀ u ∈ pairs, ty u.2 = ty u.1) (hl : I.InRange ty (pairs.map Prod.fst) l) :
    I.InRange ty (pairs.map Prod.snd) m := by
  refine List.forall_mem_map.2 fun u hu => ?_
  rw [h u hu, same u hu]
  exact hl u.1 (List.mem_map.2 ⟨u, hu, rfl⟩)

/-- Old names get values of their types from new ones. -/
theorem inRange_renamed {I : Interpretation D} {ty : VarRef → Ty}
    (same : ∀ u ∈ pairs, ty u.2 = ty u.1) (hm : I.InRange ty (pairs.map Prod.snd) m) :
    I.InRange ty (pairs.map Prod.fst) fun v => m (Substitution.renamed pairs v) := by
  intro x hx
  have hu := Substitution.mem_renamed hx
  rw [← same _ hu]
  exact hm _ (List.mem_map.2 ⟨_, hu, rfl⟩)

end State

namespace Expr

variable {D : Type} (I : Interpretation D) (ty : VarRef → Ty)

/-- Renaming to variables whose values are chosen is choosing the values of the renamed ones. -/
theorem holds_subst_renaming {cur pri : List (VarRef × VarRef)} {bound : List VarRef} {e : Expr}
    (hcur : ∀ u ∈ cur, u.2 ∈ bound) (hpri : ∀ u ∈ pri, u.2 ∈ bound)
    (fresh : ∀ x ∈ bound, x ∉ e.free ∧ x ∉ e.binders)
    (clear : ∀ x ∈ e.binders, x ∉ cur.map Prod.fst ∧ x ∉ pri.map Prod.fst) {lc lp m : State D}
    (hlc : ∀ x ∈ cur.map Prod.fst, m (Substitution.renamed cur x) = lc x)
    (hlp : ∀ x ∈ pri.map Prod.fst, m (Substitution.renamed pri x) = lp x) (s t : State D) :
    (e.subst ⟨Substitution.renaming cur, Substitution.renaming pri⟩).Holds I ty
        (s.override bound m) (t.override bound m) ↔
      e.Holds I ty (s.override (pri.map Prod.fst) lp) (t.override (cur.map Prod.fst) lc) := by
  have avoids : ∀ x ∈ e.binders,
      (Substitution.renaming cur).Avoids x ∧ (Substitution.renaming pri).Avoids x := by
    intro x hx
    have new {pairs : List (VarRef × VarRef)} (h : ∀ u ∈ pairs, u.2 ∈ bound) :
        x ∉ pairs.map Prod.snd := by
      intro hm
      obtain ⟨u, hu, rfl⟩ := List.mem_map.1 hm
      exact (fresh u.2 (h u hu)).2 hx
    exact ⟨Substitution.avoids_renaming (clear x hx).1 (new hcur),
      Substitution.avoids_renaming (clear x hx).2 (new hpri)⟩
  -- a free variable reads its new name if it has one, and is left alone otherwise
  have reads {pairs : List (VarRef × VarRef)} {l : State D} (h : ∀ u ∈ pairs, u.2 ∈ bound)
      (hl : ∀ x ∈ pairs.map Prod.fst, m (Substitution.renamed pairs x) = l x) (s : State D) :
      ∀ x ∈ e.free, s.override bound m (Substitution.renamed pairs x) =
        s.override (pairs.map Prod.fst) l x := by
    intro x hx
    by_cases hx' : x ∈ pairs.map Prod.fst
    · rw [State.override_of_mem (h _ (Substitution.mem_renamed hx')), State.override_of_mem hx',
        hl x hx']
    · rw [Substitution.renamed_of_not_mem hx',
        State.override_of_not_mem fun hb => (fresh x hb).1 hx, State.override_of_not_mem hx']
  rw [holds_subst _ _ _ _ avoids, Holds, Holds]
  refine iff_of_eq (congrArg Value.Holds (eval_congr e ?_ ?_ fun _ _ => rfl))
  · intro x hx
    rw [Substitution.image_renaming, reads hpri hlp s x hx]
  · intro x hx
    rw [Substitution.image_renaming, reads hcur hlc t x hx]

variable {I ty}

/-- Variables that are renamed and bound have some values, the same in both states. -/
theorem holds_bind_renaming {vs ws : List VarRef} {e : Expr} (length : ws.length = vs.length)
    (new : ws.Nodup) (same : ∀ u ∈ vs.zip ws, ty u.2 = ty u.1)
    (fresh : ∀ x ∈ ws, x ∉ e.free ∧ x ∉ e.binders) (clear : ∀ x ∈ e.binders, x ∉ vs)
    (s t : State D) :
    (existsAll ws (e.subst (.uniform (Substitution.renaming (vs.zip ws))))).Holds I ty s t ↔
      ∃ l, I.InRange ty vs l ∧ e.Holds I ty (s.override vs l) (t.override vs l) := by
  have hvs : (vs.zip ws).map Prod.fst = vs := List.map_fst_zip (Nat.le_of_eq length.symm)
  have hws : (vs.zip ws).map Prod.snd = ws := List.map_snd_zip (Nat.le_of_eq length)
  have bound : ∀ u ∈ vs.zip ws, u.2 ∈ ws := fun u hu => (List.of_mem_zip hu).2
  have values {l m : State D}
      (h : ∀ x ∈ (vs.zip ws).map Prod.fst, m (Substitution.renamed (vs.zip ws) x) = l x) :
      (e.subst (.uniform (Substitution.renaming (vs.zip ws)))).Holds I ty
          (s.override ws m) (t.override ws m) ↔
        e.Holds I ty (s.override vs l) (t.override vs l) := by
    have k := holds_subst_renaming I ty bound bound fresh
      (fun x hx => by rw [hvs]; exact ⟨clear x hx, clear x hx⟩) h h s t
    rwa [hvs] at k
  rw [holds_existsAll]
  constructor
  · rintro ⟨m, hm, he⟩
    have range := State.inRange_renamed same (by rwa [hws])
    rw [hvs] at range
    exact ⟨_, range, (values fun _ _ => rfl).1 he⟩
  · rintro ⟨l, hl, he⟩
    obtain ⟨m, h⟩ := State.exists_matches (vs.zip ws) (by rwa [hws]) l
    have range := h.inRange same (by rwa [hvs])
    rw [hws] at range
    exact ⟨m, range, (values h.renamed).2 he⟩

/-- Variables that are renamed and bound, to names of their own in each state, have some values in
each. -/
theorem holds_bind_renamings {cur pri : List (VarRef × VarRef)} {bound : List VarRef} {e : Expr}
    (hbound : bound.Perm (cur.map Prod.snd ++ pri.map Prod.snd)) (nodup : bound.Nodup)
    (sameCur : ∀ u ∈ cur, ty u.2 = ty u.1) (samePri : ∀ u ∈ pri, ty u.2 = ty u.1)
    (fresh : ∀ x ∈ bound, x ∉ e.free ∧ x ∉ e.binders)
    (clear : ∀ x ∈ e.binders, x ∉ cur.map Prod.fst ∧ x ∉ pri.map Prod.fst) (s t : State D) :
    (existsAll bound (e.subst ⟨Substitution.renaming cur, Substitution.renaming pri⟩)).Holds
        I ty s t ↔
      ∃ lc lp, I.InRange ty (cur.map Prod.fst) lc ∧ I.InRange ty (pri.map Prod.fst) lp ∧
        e.Holds I ty (s.override (pri.map Prod.fst) lp) (t.override (cur.map Prod.fst) lc) := by
  have memCur : ∀ x ∈ cur.map Prod.snd, x ∈ bound :=
    fun x hx => hbound.mem_iff.2 (List.mem_append.2 (.inl hx))
  have memPri : ∀ x ∈ pri.map Prod.snd, x ∈ bound :=
    fun x hx => hbound.mem_iff.2 (List.mem_append.2 (.inr hx))
  obtain ⟨newCur, newPri, apart⟩ := List.nodup_append.1 (hbound.nodup_iff.1 nodup)
  have values := @holds_subst_renaming D I ty cur pri bound e (List.forall_mem_map.1 memCur)
    (List.forall_mem_map.1 memPri) fresh clear
  rw [holds_existsAll]
  constructor
  · rintro ⟨m, hm, he⟩
    exact ⟨_, _, State.inRange_renamed sameCur fun x hx => hm x (memCur x hx),
      State.inRange_renamed samePri fun x hx => hm x (memPri x hx),
      (values (fun _ _ => rfl) (fun _ _ => rfl) s t).1 he⟩
  · rintro ⟨lc, lp, hlc, hlp, he⟩
    obtain ⟨mc, hmc⟩ := State.exists_matches cur newCur lc
    obtain ⟨mp, hmp⟩ := State.exists_matches pri newPri lp
    -- the new names for the two states are apart, so their values fit together
    have matchesCur : State.Matches cur lc (mp.override (cur.map Prod.snd) mc) := by
      intro u hu
      rw [State.override_of_mem (List.mem_map.2 ⟨u, hu, rfl⟩), hmc u hu]
    have matchesPri : State.Matches pri lp (mp.override (cur.map Prod.snd) mc) := by
      intro u hu
      rw [State.override_of_not_mem, hmp u hu]
      exact fun hc => apart _ hc _ (List.mem_map.2 ⟨u, hu, rfl⟩) rfl
    refine ⟨_, fun x hx => ?_, (values matchesCur.renamed matchesPri.renamed s t).2 he⟩
    rcases List.mem_append.1 (hbound.mem_iff.1 hx) with hx | hx
    · exact matchesCur.inRange sameCur hlc x hx
    · exact matchesPri.inRange samePri hlp x hx

end Expr

end AtomicMovers
