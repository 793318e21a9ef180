import AtomicMovers.BlockGraph
import AtomicMovers.Proofs.References
import Mathlib.Data.List.Forall2

/-!
# How programs grow

Building obligations only appends: entries that were there before keep their positions and contents
(`Program.Extends`). A gate that is taken off a body is the one exception, so the general notion
`Program.Grows` leaves open how blocks may change.

Computations that append are described by what they yield. `Yields p m Q` says that `m`, started in
`p`, only appends, leaves the program closed and ends with a result that satisfies `Q`; `Attempts`
says the same of a computation that may fail. Both compose along `do`, so that a function is
described once and its callers never look inside.
-/

namespace AtomicMovers

/-! ## Growth -/

/-- All entries of `p` are in `q`, the blocks changed as `R` allows, and the globals are the same. -/
structure Program.Grows (R : Block → Block → Prop) (p q : Program) : Prop where
  vars_le : p.vars.size ≤ q.vars.size
  var_eq : ∀ v, p.HasVar v → q.var v = p.var v
  exprs : p.exprs.Extends q.exprs
  blocks_le : p.blocks.size ≤ q.blocks.size
  block : ∀ b, p.HasBlock b → R (p.block b) (q.block b)
  procedures_le : p.procedures.size ≤ q.procedures.size
  procedure_eq : ∀ r, p.HasProcedure r → q.procedure r = p.procedure r
  implementations_le : p.implementations.size ≤ q.implementations.size
  implementation_eq : ∀ i, p.HasImplementation i → q.implementation i = p.implementation i
  globals_eq : q.globals = p.globals

/-- The program `q` continues the program `p`. -/
def Program.Extends (p q : Program) : Prop := p.Grows (fun old new => new = old) q

namespace Program.Grows

variable {R : Block → Block → Prop} {p q r : Program}

theorem within (h : p.Grows R q) : p.Within q :=
  ⟨h.vars_le, h.exprs.size_le, h.blocks_le, h.procedures_le, h.implementations_le⟩

theorem refl (hR : ∀ b, R b b) (p : Program) : p.Grows R p where
  vars_le := Nat.le_refl _
  var_eq _ _ := rfl
  exprs := ExprTable.Extends.refl _
  blocks_le := Nat.le_refl _
  block _ _ := hR _
  procedures_le := Nat.le_refl _
  procedure_eq _ _ := rfl
  implementations_le := Nat.le_refl _
  implementation_eq _ _ := rfl
  globals_eq := rfl

theorem trans (hR : ∀ a b c, R a b → R b c → R a c) (h : p.Grows R q) (k : q.Grows R r) :
    p.Grows R r where
  vars_le := Nat.le_trans h.vars_le k.vars_le
  var_eq v hv := (k.var_eq v (h.within.hasVar hv)).trans (h.var_eq v hv)
  exprs := h.exprs.trans k.exprs
  blocks_le := Nat.le_trans h.blocks_le k.blocks_le
  block b hb := hR _ _ _ (h.block b hb) (k.block b (h.within.hasBlock hb))
  procedures_le := Nat.le_trans h.procedures_le k.procedures_le
  procedure_eq x hx := (k.procedure_eq x (h.within.hasProcedure hx)).trans (h.procedure_eq x hx)
  implementations_le := Nat.le_trans h.implementations_le k.implementations_le
  implementation_eq i hi :=
    (k.implementation_eq i (h.within.hasImplementation hi)).trans (h.implementation_eq i hi)
  globals_eq := k.globals_eq.trans h.globals_eq

theorem mono {S : Block → Block → Prop} (hRS : ∀ a b, R a b → S a b) (h : p.Grows R q) :
    p.Grows S q :=
  { h with block := fun b hb => hRS _ _ (h.block b hb) }

/-- The tree of an expression stays the same. -/
theorem expr_eq (h : p.Grows R q) (hp : p.Closed) {e : ExprRef} (he : p.HasExpr e) :
    q.expr e = p.expr e :=
  ExprTable.expr_eq_of_extends hp.childrenFirst h.exprs he

/-- Commands that are kept mean the same. -/
theorem commands_eq (h : p.Grows R q) (hp : p.Closed) {b : BlockRef} (hb : p.HasBlock b)
    (same : (q.block b).commands = (p.block b).commands) : q.commands b = p.commands b := by
  rw [Program.commands, Program.commands, same]
  apply List.map_congr_left
  intro c hc
  apply Command.map_congr
  intro e he
  exact h.expr_eq hp (((hp.block hb).commands c hc).exprs e he)

theorem tyOf_eq (h : p.Grows R q) {v : VarRef} (hv : p.HasVar v) : (q.var v).ty = (p.var v).ty := by
  rw [h.var_eq v hv]

end Program.Grows

namespace Program.Extends

variable {p q r : Program}

theorem refl (p : Program) : p.Extends p :=
  Grows.refl (R := fun old new => new = old) (fun _ => rfl) p

theorem trans (h : p.Extends q) (k : q.Extends r) : p.Extends r :=
  Grows.trans (fun _ _ _ hab hbc => hbc.trans hab) h k

theorem within (h : p.Extends q) : p.Within q := Grows.within h

theorem block_eq (h : p.Extends q) {b : BlockRef} (hb : p.HasBlock b) : q.block b = p.block b :=
  h.block b hb

/-- The commands of a block stay the same. -/
theorem commands_eq (h : p.Extends q) (hp : p.Closed) {b : BlockRef} (hb : p.HasBlock b) :
    q.commands b = p.commands b :=
  Grows.commands_eq h hp hb (by rw [h.block_eq hb])

end Program.Extends

/-! ## Lists that correspond -/

theorem map_eq_map_of_forall₂ {α β γ : Type} {f : β → γ} {g : α → γ} {as : List α} {bs : List β}
    (h : List.Forall₂ (fun a b => f b = g a) as bs) : bs.map f = as.map g := by
  induction h with
  | nil => rfl
  | cons hab _ ih => rw [List.map_cons, List.map_cons, hab, ih]

theorem exists_left_of_forall₂ {α β : Type} {R : α → β → Prop} {as : List α} {bs : List β}
    (h : List.Forall₂ R as bs) {b : β} (hb : b ∈ bs) : ∃ a ∈ as, R a b := by
  induction h with
  | nil => simp at hb
  | cons hab _ ih =>
    rcases List.mem_cons.1 hb with rfl | hb
    · exact ⟨_, by simp, hab⟩
    · obtain ⟨a, ha, h⟩ := ih hb
      exact ⟨a, by simp [ha], h⟩

theorem exists_right_of_forall₂ {α β : Type} {R : α → β → Prop} {as : List α} {bs : List β}
    (h : List.Forall₂ R as bs) {a : α} (ha : a ∈ as) : ∃ b ∈ bs, R a b :=
  exists_left_of_forall₂ (R := fun b a => R a b) h.flip ha

/-! ## Computations that append -/

/-- The computation only appends to a closed program, and its result satisfies `Q`. -/
structure Yields {α : Type} (p : Program) (m : StateM Program α) (Q : α → Program → Prop) :
    Prop where
  grows : p.Extends (m p).2
  closed : (m p).2.Closed
  post : Q (m p).1 (m p).2

/-- The computation only appends, also when it fails, and a result satisfies `Q`. -/
structure Attempts {α : Type} (p : Program) (m : Build α) (Q : α → Program → Prop) : Prop where
  grows : p.Extends (m.run p).2
  closed : (m.run p).2.Closed
  post : ∀ a, (m.run p).1 = .ok a → Q a (m.run p).2

namespace Yields

variable {α β : Type} {p : Program} {m : StateM Program α} {f : α → StateM Program β}

theorem weaken {Q Q' : α → Program → Prop} (h : Yields p m Q)
    (hQ : ∀ a q, p.Extends q → q.Closed → Q a q → Q' a q) : Yields p m Q' :=
  ⟨h.grows, h.closed, hQ _ _ h.grows h.closed h.post⟩

theorem pure {Q : α → Program → Prop} (hp : p.Closed) {a : α} (h : Q a p) :
    Yields p (Pure.pure a) Q :=
  ⟨Program.Extends.refl p, hp, h⟩

theorem bind {P : α → Program → Prop} {Q : β → Program → Prop} (h : Yields p m P)
    (hf : ∀ a q, p.Extends q → q.Closed → P a q → Yields q (f a) Q) : Yields p (m >>= f) Q := by
  have k := hf _ _ h.grows h.closed h.post
  exact ⟨h.grows.trans k.grows, k.closed, k.post⟩

theorem get_bind {f : Program → StateM Program β} {Q : β → Program → Prop}
    (h : Yields p (f p) Q) : Yields p (get >>= f) Q :=
  ⟨h.grows, h.closed, h.post⟩

/-- A list of steps whose results keep what they satisfy while the program grows. -/
theorem mapM {f : α → StateM Program β} {Q : α → β → Program → Prop} {as : List α}
    (hp : p.Closed) (stable : ∀ a b q r, q.Extends r → q.Closed → Q a b q → Q a b r)
    (h : ∀ a ∈ as, ∀ q, p.Extends q → q.Closed → Yields q (f a) (Q a)) :
    Yields p (as.mapM f) fun bs q => List.Forall₂ (fun a b => Q a b q) as bs := by
  induction as generalizing p with
  | nil =>
    rw [List.mapM_nil]
    exact pure hp List.Forall₂.nil
  | cons a as ih =>
    rw [List.mapM_cons]
    refine (h a (by simp) p (Program.Extends.refl p) hp).bind fun b q hpq hq hb => ?_
    refine (ih hq fun c hc r hqr => h c (by simp [hc]) r (hpq.trans hqr)).bind
      fun bs r hqr hr hbs => ?_
    exact pure hr (.cons (stable a b q r hqr hq hb) hbs)

end Yields

/-- A step goes on with its result, and a failure stays one. -/
theorem bind_run {σ α β : Type} (m : ExceptT Error (StateM σ) α)
    (f : α → ExceptT Error (StateM σ) β) (p : σ) :
    (m >>= f).run p =
      match m.run p with
      | (.ok a, q) => (f a).run q
      | (.error e, q) => (.error e, q) := by
  have run : (m >>= f).run p = ExceptT.bindCont f (m.run p).1 (m.run p).2 := rfl
  rw [run]
  rcases m.run p with ⟨_ | _, q⟩ <;> rfl

theorem read_bind_run {σ α : Type} (f : σ → ExceptT Error (StateM σ) α) (p : σ) :
    (get >>= f).run p = (f p).run p := rfl

/-- A step that cannot fail goes on with its result. -/
theorem lift_bind_run {σ α β : Type} (m : StateM σ α) (f : α → ExceptT Error (StateM σ) β) (p : σ) :
    (liftM m >>= f).run p = (f (m p).1).run (m p).2 := rfl

namespace Attempts

variable {α β : Type} {p : Program} {m : Build α} {f : α → Build β}

theorem weaken {Q Q' : α → Program → Prop} (h : Attempts p m Q)
    (hQ : ∀ a q, p.Extends q → q.Closed → Q a q → Q' a q) : Attempts p m Q' :=
  ⟨h.grows, h.closed, fun a ha => hQ _ _ h.grows h.closed (h.post a ha)⟩

theorem pure {Q : α → Program → Prop} (hp : p.Closed) {a : α} (h : Q a p) :
    Attempts p (Pure.pure a) Q :=
  ⟨Program.Extends.refl p, hp, fun b hb => by cases hb; exact h⟩

/-- A step that cannot fail. -/
theorem lift {m : StateM Program α} {Q : α → Program → Prop} (h : Yields p m Q) :
    Attempts p (liftM m) Q :=
  ⟨h.grows, h.closed, fun a ha => by cases ha; exact h.post⟩

/-- A question that does not touch the program. -/
theorem ofExcept {x : Except Error α} {Q : α → Program → Prop} (hp : p.Closed)
    (h : ∀ a, x = .ok a → Q a p) : Attempts p (MonadExcept.ofExcept x) Q := by
  cases x with
  | error e => exact ⟨Program.Extends.refl p, hp, fun b hb => by cases hb⟩
  | ok a => exact pure hp (h a rfl)

theorem bind {P : α → Program → Prop} {Q : β → Program → Prop} (h : Attempts p m P)
    (hf : ∀ a q, p.Extends q → q.Closed → P a q → Attempts q (f a) Q) :
    Attempts p (m >>= f) Q := by
  obtain ⟨grows, closed, post⟩ := h
  have run := bind_run m f p
  generalize m.run p = result at *
  obtain ⟨_ | a, q⟩ := result
  · exact ⟨by rw [run]; exact grows, by rw [run]; exact closed,
      fun a ha => by rw [run] at ha; cases ha⟩
  · have k := hf a q grows closed (post a rfl)
    exact ⟨by rw [run]; exact grows.trans k.grows, by rw [run]; exact k.closed,
      fun b hb => by rw [run] at hb ⊢; exact k.post b hb⟩

theorem get_bind {f : Program → Build β} {Q : β → Program → Prop} (h : Attempts p (f p) Q) :
    Attempts p (get >>= f) Q :=
  ⟨h.grows, h.closed, h.post⟩

/-- What a successful run has yielded. -/
theorem of_run {Q : α → Program → Prop} (h : Attempts p m Q) {a : α} {q : Program}
    (run : m.run p = (.ok a, q)) : p.Extends q ∧ q.Closed ∧ Q a q := by
  have hg := h.grows
  have hc := h.closed
  have hQ := h.post a
  rw [run] at hg hc hQ
  exact ⟨hg, hc, hQ rfl⟩

end Attempts

end AtomicMovers
