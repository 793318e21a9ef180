import AtomicMovers.Proofs.Paths
import AtomicMovers.Transition.Relation
import Mathlib.Data.List.Induction

/-!
# Symbolic execution backwards

Going backwards over commands computes the condition that a run over them leads to
(`holds_backwards`), block by block along a path (`holds_pathFormula`) and over all paths
(`holds_relationFormula`). An assignment is undone by a substitution, so this is where bound
variables must keep out of the way of what commands read and write.

The substitution goes under every `old`, also one that a command had to begin with. So commands are
executed as if each was the first one of its run (`Program.PassesAfresh`). This is what they do if no
command reads under `old` what was assigned before it (`passesAfresh_iff`), in particular if they do
not mention the prior state at all.
-/

namespace AtomicMovers

open Program

/-! ## Variables of composed formulas -/

/-- What a conjunction has because one of its two sides has it. -/
theorem Expr.conjoin_iff_exists {P : Expr → Prop} (hand : ∀ l r, P (l.and r) ↔ P l ∨ P r)
    (htt : ¬P .tt) (es : List Expr) : P (conjoin es) ↔ ∃ e ∈ es, P e := by
  have fold : ∀ (es : List Expr) (conj : Expr),
      P (es.foldl (fun conj e => e.and conj) conj) ↔ P conj ∨ ∃ e ∈ es, P e := by
    intro es
    induction es with
    | nil => simp
    | cons e es ih =>
      intro conj
      rw [List.foldl_cons, ih, hand, List.exists_mem_cons_iff]
      tauto
  rw [conjoin, fold, or_iff_right htt]

/-- What a disjunction over paths has because one of its two sides has it. -/
theorem Program.relationFormula_iff_exists {P : Expr → Prop} (hor : ∀ l r, P (l.or r) ↔ P l ∨ P r)
    (hff : ¬P .ff) (p : Program) (frame : List VarRef) (paths : List Path) :
    P (p.relationFormula frame paths) ↔ ∃ π ∈ paths, P (p.pathFormula frame π) := by
  have fold : ∀ (paths : List Path) (relation : Expr),
      P (paths.foldl (fun relation path => relation.or (p.pathFormula frame path)) relation) ↔
        P relation ∨ ∃ π ∈ paths, P (p.pathFormula frame π) := by
    intro paths
    induction paths with
    | nil => simp
    | cons π paths ih =>
      intro relation
      rw [List.foldl_cons, ih, hor, List.exists_mem_cons_iff]
      tauto
  rw [relationFormula, disjoinPaths, fold, or_iff_right hff]

/-- What the formula of the frame has, going back over commands keeps and disjunctions keep, the
formula of all paths has. -/
theorem Program.relationFormula_induction {P : Expr → Prop} {p : Program} {frame : List VarRef}
    {paths : List Path} (hframe : P (frameFormula frame))
    (back : ∀ π ∈ paths, ∀ b ∈ π, ∀ c ∈ p.commands b, ∀ after, P after → P (c.backwards after))
    (hff : P .ff) (hor : ∀ l r, P l → P r → P (l.or r)) : P (p.relationFormula frame paths) := by
  have block {b : BlockRef}
      (hb : ∀ c ∈ p.commands b, ∀ after, P after → P (c.backwards after)) {after : Expr}
      (hafter : P after) : P (p.blockFormula after b) := by
    rw [blockFormula]
    generalize p.commands b = cs at *
    induction cs with
    | nil => exact hafter
    | cons c cs ih =>
      rw [List.forall_mem_cons] at hb
      exact hb.1 _ (ih hb.2)
  have path {π : Path}
      (hπ : ∀ b ∈ π, ∀ c ∈ p.commands b, ∀ after, P after → P (c.backwards after)) :
      ∀ after, P after → P (π.foldl p.blockFormula after) := by
    induction π with
    | nil => exact fun _ h => h
    | cons b π ih =>
      rw [List.forall_mem_cons] at hπ
      exact fun after h => ih hπ.2 _ (block hπ.1 h)
  have all : ∀ relation, P relation →
      P (paths.foldl (fun relation path => relation.or (p.pathFormula frame path)) relation) := by
    induction paths with
    | nil => exact fun _ h => h
    | cons π paths ih =>
      rw [List.forall_mem_cons] at back
      exact fun relation h => ih back.2 _ (hor _ _ h (path back.1 _ hframe))
  exact all _ hff

theorem Expr.mem_binders_conjoin {es : List Expr} {x : VarRef} :
    x ∈ (conjoin es).binders ↔ ∃ e ∈ es, x ∈ e.binders :=
  conjoin_iff_exists (P := fun e => x ∈ e.binders) (by simp [Expr.and, binders])
    (by simp [tt, binders]) es

theorem Expr.mem_free_conjoin {es : List Expr} {x : VarRef} :
    x ∈ (conjoin es).free ↔ ∃ e ∈ es, x ∈ e.free :=
  conjoin_iff_exists (P := fun e => x ∈ e.free) (by simp [Expr.and, free]) (by simp [tt, free]) es

/-! ## The frame -/

section Frame

variable {D : Type} {I : Interpretation D} {ty : VarRef → Ty} {s t : State D}

/-- The frame says that the two states agree. -/
theorem holds_frameFormula (frame : List VarRef) :
    (frameFormula frame).Holds I ty s t ↔ State.AgreeOn frame s t := by
  rw [frameFormula, Expr.holds_conjoin]
  simp only [List.forall_mem_map, unchanged, Expr.holds_eq, Expr.eval, State.AgreeOn]
  exact forall₂_congr fun v _ => eq_comm

theorem binders_frameFormula (frame : List VarRef) (x : VarRef) :
    x ∉ (frameFormula frame).binders := by
  rw [frameFormula, Expr.mem_binders_conjoin]
  simp [unchanged, Expr.eq, Expr.binders]

end Frame

/-! ## Commands that start afresh -/

/-- The command reads the variable under `old`, outside of any quantifier that binds it. -/
def Command.ReadsPrior (c : Command Expr) (x : VarRef) : Prop := ∃ e ∈ c.exprs, x ∈ e.priorFree

instance (c : Command Expr) (x : VarRef) : Decidable (c.ReadsPrior x) :=
  inferInstanceAs (Decidable (∃ e ∈ c.exprs, x ∈ e.priorFree))

section Afresh

variable {D : Type} {p : Program} {I : Interpretation D} {start : State D}

/-- Going through the commands one after the other, each of which reads under `old` the state right
before it, leads from one state to another. -/
def Program.PassesAfresh (p : Program) (I : Interpretation D) :
    List (Command Expr) → State D → State D → Prop
  | [], s, t => s = t
  | c :: cs, s, t => ∃ m, p.Passes I s [c] s m ∧ p.PassesAfresh I cs m t

/-- The same along a path, of which the last block comes first. -/
def Program.AlongAfresh (p : Program) (I : Interpretation D) : Path → State D → State D → Prop
  | [], s, t => s = t
  | b :: path, s, t => ∃ m, p.AlongAfresh I path s m ∧ p.PassesAfresh I (p.commands b) m t

theorem passes_cons {c : Command Expr} {cs : List (Command Expr)} {s t : State D} :
    p.Passes I start (c :: cs) s t ↔
      ∃ m, p.Passes I start [c] s m ∧ p.Passes I start cs m t := by
  cases c <;> simp [Passes, and_assoc]

/-- A command depends on the state that the run started in as far as it reads it. -/
theorem passes_congr_start {start' : State D} {c : Command Expr}
    (h : ∀ x, c.ReadsPrior x → start x = start' x) {s t : State D} :
    p.Passes I start [c] s t ↔ p.Passes I start' [c] s t :=
  passes_congr fun e he => e.eval_congr_prior s fun x hx => h x ⟨e, he, hx⟩

/-- A command leaves alone what it does not assign. -/
theorem eq_of_passes {c : Command Expr} {s t : State D} (h : p.Passes I start [c] s t) {x : VarRef}
    (hx : ¬c.Writes x) : t x = s x := by
  cases c with
  | assert e => rw [← h.2]
  | assume e => rw [← h.2]
  | assign updates =>
    rw [← show p.assign I start s updates = t from h]
    refine setAll_of_not_mem ?_
    simpa [Command.Writes, Command.targets] using hx

/-- No command reads under `old` what a command before it assigns. -/
def ReadsFirst (cs : List (Command Expr)) : Prop :=
  cs.Pairwise fun c d => ∀ x, c.Writes x → ¬d.ReadsPrior x

/-- Commands none of which reads under `old` what was assigned before it may as well start afresh. -/
theorem passesAfresh_iff {cs : List (Command Expr)} {s t : State D}
    (reads : ∀ c ∈ cs, ∀ x, c.ReadsPrior x → start x = s x) (order : ReadsFirst cs) :
    p.PassesAfresh I cs s t ↔ p.Passes I start cs s t := by
  induction cs generalizing s with
  | nil => exact Iff.rfl
  | cons c cs ih =>
    rw [List.forall_mem_cons] at reads
    rw [ReadsFirst, List.pairwise_cons] at order
    rw [passes_cons, PassesAfresh]
    refine exists_congr fun m => ?_
    rw [passes_congr_start reads.1]
    -- what is read later has not been assigned by this command
    refine and_congr_right fun hm => ih (fun d hd x hx => ?_) order.2
    rw [eq_of_passes hm fun hw => order.1 d hd x hw hx]
    exact reads.2 d hd x hx

/-- The commands along a path, of which the last block comes first, in the order of a run. -/
def Program.commandsAlong (p : Program) (path : Path) : List (Command Expr) :=
  path.reverse.flatMap p.commands

theorem commandsAlong_cons (b : BlockRef) (path : Path) :
    p.commandsAlong (b :: path) = p.commandsAlong path ++ p.commands b := by
  simp [commandsAlong]

/-- A run along a path leaves alone what no command assigns. -/
theorem eq_of_along {path : Path} {s t : State D} (h : p.Along I start path s t) {x : VarRef}
    (hx : ∀ c ∈ p.commandsAlong path, ¬c.Writes x) : t x = s x := by
  have block {cs : List (Command Expr)} (hcs : ∀ c ∈ cs, ¬c.Writes x) :
      ∀ {s t : State D}, p.Passes I start cs s t → t x = s x := by
    induction cs with
    | nil =>
      intro s t h
      rw [show s = t from h]
    | cons c cs ih =>
      intro s t h
      rw [List.forall_mem_cons] at hcs
      obtain ⟨m, hm, h⟩ := passes_cons.1 h
      rw [ih hcs.2 h, eq_of_passes hm hcs.1]
  induction path generalizing t with
  | nil => rw [show s = t from h]
  | cons b path ih =>
    rw [commandsAlong_cons, List.forall_mem_append] at hx
    obtain ⟨m, hm, h⟩ := h
    rw [block hx.2 h, ih hm hx.1]

/-- A path on which no command reads under `old` what was assigned before it may as well be passed by
commands that start afresh. -/
theorem alongAfresh_iff {path : Path} {s t : State D}
    (reads : ∀ c ∈ p.commandsAlong path, ∀ x, c.ReadsPrior x → start x = s x)
    (order : ReadsFirst (p.commandsAlong path)) :
    p.AlongAfresh I path s t ↔ p.Along I start path s t := by
  induction path generalizing t with
  | nil => exact Iff.rfl
  | cons b path ih =>
    rw [commandsAlong_cons, List.forall_mem_append] at reads
    rw [ReadsFirst, commandsAlong_cons, List.pairwise_append] at order
    obtain ⟨before, within, across⟩ := order
    rw [AlongAfresh, Along]
    refine exists_congr fun m => ?_
    rw [ih reads.1 before]
    refine and_congr_right fun hm => passesAfresh_iff (fun c hc x hx => ?_) within
    rw [eq_of_along hm fun d hd hw => across d hd c hc x hw hx]
    exact reads.2 c hc x hx

/-- Commands without `old` may as well start afresh, and have started anywhere. -/
theorem alongAfresh_iff_of_oldFree {path : Path}
    (oldFree : ∀ b ∈ path, ∀ c ∈ p.commands b, c.OldFree) {s t : State D} :
    p.AlongAfresh I path s t ↔ p.Along I start path s t := by
  have unread : ∀ c ∈ p.commandsAlong path, ∀ x, ¬c.ReadsPrior x := by
    rintro c hc x ⟨e, he, hx⟩
    obtain ⟨b, hb, hc⟩ := List.mem_flatMap.1 hc
    rw [e.priorFree_eq_nil (oldFree b (List.mem_reverse.1 hb) c hc e he)] at hx
    cases hx
  exact alongAfresh_iff (fun c hc x hx => absurd hx (unread c hc x))
    (List.pairwise_of_forall_mem_list fun _ _ d hd x _ => unread d hd x)

end Afresh

/-! ## Commands -/

section Commands

variable {D : Type} {p : Program} {I : Interpretation D}

/-- The assigned variables, read through the substitution that undoes an assignment, have the values
after it. -/
theorem image_ofList {ty : VarRef → Ty} (updates : List (VarRef × Expr)) (s : State D) :
    (Substitution.ofList updates).image I ty s s =
      s.setAll (updates.map fun u => (u.1, u.2.eval I ty s s)) := by
  funext v
  rw [Substitution.image, Substitution.ofList]
  -- the last update of a variable counts on both sides
  induction updates using List.reverseRecOn with
  | nil => rfl
  | append_singleton us u ih =>
    rw [List.reverse_append, List.map_append, State.setAll, List.foldl_append]
    show (((u :: us.reverse).lookup v).getD (.var v)).eval I ty s s =
      (s.setAll (us.map fun u => (u.1, u.2.eval I ty s s))).set u.1 (u.2.eval I ty s s) v
    rw [List.lookup_cons, State.set]
    by_cases hv : v = u.1
    · simp [hv]
    · rw [if_neg hv, ← ih, beq_false_of_ne hv]

/-- Going back over an assignment replaces variables by their new values. -/
theorem mem_of_lookup_inPrior {updates : List (VarRef × Expr)} {m : Moment} {v : VarRef} {r : Expr}
    (h : ((TwoState.inPrior (Substitution.ofList updates)).during m).lookup v = some r) :
    (v, r) ∈ updates := by
  cases m with
  | current => cases h
  | prior => exact List.mem_reverse.1 (Substitution.mem_of_lookup h)

/-- A variable bound in the condition is bound behind the command or in it. -/
theorem mem_binders_backwards {c : Command Expr} {after : Expr} {x : VarRef}
    (h : x ∈ (c.backwards after).binders) : x ∈ after.binders ∨ c.Binds x := by
  cases c with
  | assert e => exact .inl h
  | assume e =>
    simp only [Command.backwards, Expr.and, Expr.binders, List.mem_append] at h
    exact h.symm.imp_right fun h => ⟨e, by simp [Command.exprs], h⟩
  | assign updates =>
    rcases Expr.mem_binders_substAt after h with h | ⟨m, y, r, hr, h⟩
    · exact .inl h
    · exact .inr ⟨r, List.mem_map.2 ⟨_, mem_of_lookup_inPrior hr, rfl⟩, h⟩

/-- What is bound in a condition along some of the commands `cs` is bound in `cs`. -/
def BoundIn (cs : List (Command Expr)) (e : Expr) : Prop := ∀ x ∈ e.binders, ∃ c ∈ cs, c.Binds x

/-- What one of the commands binds, none of them reads or assigns. -/
def BindersApart (cs : List (Command Expr)) : Prop :=
  ∀ x, (∃ c ∈ cs, c.Binds x) → ∀ c ∈ cs, ¬c.Reads x ∧ ¬c.Writes x

/-- Commands that can be executed backwards: they do not mention the prior state, and bound variables
keep out of the way. -/
structure Executable (cs : List (Command Expr)) : Prop where
  oldFree : ∀ c ∈ cs, c.OldFree
  hygienic : ∀ x, (∃ c ∈ cs, c.Binds x) → ∀ c ∈ cs, ¬c.Reads x ∧ ¬c.Writes x

theorem boundIn_backwards {cs : List (Command Expr)} {c : Command Expr} (hc : c ∈ cs) {after : Expr}
    (h : BoundIn cs after) : BoundIn cs (c.backwards after) := by
  intro x hx
  rcases mem_binders_backwards hx with hx | hx
  · exact h x hx
  · exact ⟨c, hc, hx⟩

/-- One command backwards. -/
theorem holds_backwards {all : List (Command Expr)} (hall : BindersApart all)
    {c : Command Expr} (hc : c ∈ all) (hassert : c.isAssert = false) {after : Expr}
    (hafter : BoundIn all after) {s t : State D} :
    (c.backwards after).Holds I p.tyOf s t ↔
      ∃ m, p.Passes I s [c] s m ∧ after.Holds I p.tyOf m t := by
  cases c with
  | assert e => cases hassert
  | assume e =>
    -- the condition reads the state before the command, which is the prior one
    simp only [Command.backwards, Expr.holds_and, Expr.holds_old, Passes]
    constructor
    · rintro ⟨he, h⟩
      exact ⟨s, ⟨he, rfl⟩, h⟩
    · rintro ⟨m, ⟨he, rfl⟩, h⟩
      exact ⟨he, h⟩
  | assign updates =>
    have avoids : ∀ x ∈ after.binders,
        Substitution.Avoids [] x ∧ (Substitution.ofList updates).Avoids x := by
      intro x hx
      obtain ⟨hreads, hwrites⟩ := hall x (hafter x hx) _ hc
      refine ⟨Substitution.avoids_nil x, Substitution.lookup_eq_none ?_, ?_⟩
      · simpa [Substitution.ofList, Command.Writes, Command.targets] using hwrites
      · intro y r hr hxr
        have hmem := Substitution.mem_of_lookup hr
        rw [Substitution.ofList, List.mem_reverse] at hmem
        exact hreads ⟨r, List.mem_map.2 ⟨_, hmem, rfl⟩, hxr⟩
    -- the assignment is undone in the prior state only: the current one is that of the end
    rw [Command.backwards, Expr.holds_subst _ _ _ _ avoids]
    simp only [Passes, TwoState.inPrior, Substitution.image_nil, image_ofList, exists_eq_left']
    rfl

end Commands

/-! ## Blocks and paths -/

section Blocks

variable {D : Type} {p : Program} {I : Interpretation D} {all : List (Command Expr)}

/-- The commands of a block can be executed backwards together with the commands `all`. -/
structure Program.BlockWithin (p : Program) (all : List (Command Expr)) (b : BlockRef) : Prop where
  commands : ∀ c ∈ p.commands b, c ∈ all
  assertFree : ∀ c ∈ p.commands b, c.isAssert = false

theorem boundIn_foldr_backwards {cs : List (Command Expr)} (hcs : ∀ c ∈ cs, c ∈ all) {after : Expr}
    (hafter : BoundIn all after) :
    BoundIn all (cs.foldr (fun c after => c.backwards after) after) := by
  induction cs with
  | nil => exact hafter
  | cons c cs ih =>
    rw [List.forall_mem_cons] at hcs
    exact boundIn_backwards hcs.1 (ih hcs.2)

/-- Commands backwards, the last one first. -/
theorem holds_foldr_backwards (hall : BindersApart all) {cs : List (Command Expr)}
    (hcs : ∀ c ∈ cs, c ∈ all) (hassert : ∀ c ∈ cs, c.isAssert = false) {after : Expr}
    (hafter : BoundIn all after) {s t : State D} :
    (cs.foldr (fun c after => c.backwards after) after).Holds I p.tyOf s t ↔
      ∃ m, p.PassesAfresh I cs s m ∧ after.Holds I p.tyOf m t := by
  -- the first command is the last to be undone, so its condition is on the rest
  induction cs generalizing s with
  | nil => simp [PassesAfresh]
  | cons c cs ih =>
    rw [List.forall_mem_cons] at hcs hassert
    have hbound := boundIn_foldr_backwards hcs.2 hafter
    rw [List.foldr_cons, holds_backwards hall hcs.1 hassert.1 hbound]
    simp only [ih hcs.2 hassert.2, PassesAfresh]
    constructor
    · rintro ⟨m, hm, r, hr, h⟩
      exact ⟨r, ⟨m, hm, hr⟩, h⟩
    · rintro ⟨r, ⟨m, hm, hr⟩, h⟩
      exact ⟨m, hm, r, hr, h⟩

theorem boundIn_blockFormula {b : BlockRef} (hb : p.BlockWithin all b) {after : Expr}
    (hafter : BoundIn all after) : BoundIn all (p.blockFormula after b) :=
  boundIn_foldr_backwards hb.commands hafter

/-- A path backwards, from any condition behind it. -/
theorem holds_foldl_blockFormula (hall : BindersApart all) {path : Path}
    (hpath : ∀ b ∈ path, p.BlockWithin all b) {after : Expr} (hafter : BoundIn all after)
    {s t : State D} :
    (path.foldl p.blockFormula after).Holds I p.tyOf s t ↔
      ∃ m, p.AlongAfresh I path s m ∧ after.Holds I p.tyOf m t := by
  induction path generalizing after with
  | nil => simp [AlongAfresh]
  | cons b path ih =>
    rw [List.forall_mem_cons] at hpath
    rw [List.foldl_cons, ih hpath.2 (boundIn_blockFormula hpath.1 hafter)]
    simp only [blockFormula, AlongAfresh,
      holds_foldr_backwards hall hpath.1.commands hpath.1.assertFree hafter]
    constructor
    · rintro ⟨m, hm, r, hr, h⟩
      exact ⟨r, ⟨m, hm, hr⟩, h⟩
    · rintro ⟨r, ⟨m, hm, hr⟩, h⟩
      exact ⟨m, hm, r, hr, h⟩

/-- A path backwards: some run along it leads to a state that agrees with the current one. -/
theorem holds_pathFormula (hall : BindersApart all) {path : Path}
    (hpath : ∀ b ∈ path, p.BlockWithin all b) {frame : List VarRef} {s t : State D} :
    (p.pathFormula frame path).Holds I p.tyOf s t ↔
      ∃ m, p.AlongAfresh I path s m ∧ State.AgreeOn frame m t := by
  rw [pathFormula, holds_foldl_blockFormula hall hpath
    fun x hx => absurd hx (binders_frameFormula frame x)]
  simp only [holds_frameFormula]

/-- Paths backwards: some run along one of them leads to a state that agrees with the current one. -/
theorem holds_relationFormula (hall : BindersApart all) {found : List Path}
    (hfound : ∀ π ∈ found, ∀ x ∈ π, p.BlockWithin all x) {frame : List VarRef} {s t : State D} :
    (p.relationFormula frame found).Holds I p.tyOf s t ↔
      ∃ m, (∃ π ∈ found, p.AlongAfresh I π s m) ∧ State.AgreeOn frame m t := by
  rw [relationFormula_iff_exists (P := fun e => e.Holds I p.tyOf s t) Expr.holds_or
    Expr.not_holds_ff]
  constructor
  · rintro ⟨π, hπ, h⟩
    obtain ⟨m, hm, hagree⟩ := (holds_pathFormula hall (hfound π hπ)).1 h
    exact ⟨m, ⟨π, hπ, hm⟩, hagree⟩
  · rintro ⟨m, ⟨π, hπ, hm⟩, hagree⟩
    exact ⟨π, hπ, (holds_pathFormula hall (hfound π hπ)).2 ⟨m, hm, hagree⟩⟩

/-- The blocks that a search went through can be executed if their commands are among `all`. -/
theorem blockWithin_of_explored {bs : List BlockRef} (hbs : p.Encloses bs)
    (hall : ∀ b ∈ bs, ∀ c ∈ p.commands b, c ∈ all) {next : Option BlockRef} {b : BlockRef}
    {found : List Path} (h : p.Explored next [] b found) (hb : b ∈ bs)
    (hnext : ∀ entry ∈ next, entry ∈ bs) : ∀ π ∈ found, ∀ x ∈ π, p.BlockWithin all x := by
  intro π hπ x hx
  refine ⟨hall x (mem_of_explored hbs h hb hnext (by simp) π hπ x hx), fun c hc => ?_⟩
  rw [Program.commands] at hc
  obtain ⟨d, hd, rfl⟩ := List.mem_map.1 hc
  have := isAssert_of_explored h π hπ x hx d hd
  cases d with
  | assert e => cases this
  | assume e => rfl
  | assign updates => rfl

theorem boundIn_relationFormula {found : List Path}
    (hfound : ∀ π ∈ found, ∀ x ∈ π, p.BlockWithin all x) (frame : List VarRef) :
    BoundIn all (p.relationFormula frame found) := by
  refine relationFormula_induction (fun x hx => absurd hx (binders_frameFormula frame x)) ?_ ?_ ?_
  · exact fun π hπ b hb c hc after => boundIn_backwards ((hfound π hπ b hb).commands c hc)
  · simp [BoundIn, Expr.ff, Expr.binders]
  · exact fun l r hl hr => List.forall_mem_append.2 ⟨hl, hr⟩

end Blocks

/-! ## Variables of relations -/

section Variables

variable {n : Nat}

theorem Expr.VarsBelow.subst {σ : TwoState Expr} {e : Expr} (he : e.VarsBelow n)
    (hσ : ∀ m y r, (σ.during m).lookup y = some r → r.VarsBelow n) : (e.subst σ).VarsBelow n := by
  rintro x (hx | hx)
  · rcases Expr.mem_free_substAt e hx with ⟨hx, -⟩ | ⟨m, y, r, hr, hx⟩
    · exact he x (.inl hx)
    · exact hσ m y r hr x (.inl hx)
  · rcases Expr.mem_binders_substAt e hx with hx | ⟨m, y, r, hr, hx⟩
    · exact he x (.inr hx)
    · exact hσ m y r hr x (.inr hx)

theorem Expr.VarsBelow.binary {op : BinaryOp} {l r : Expr} (hl : l.VarsBelow n)
    (hr : r.VarsBelow n) : (Expr.binary op l r).VarsBelow n := by
  intro x hx
  simp only [Expr.free, Expr.binders, List.mem_append] at hx
  rcases hx with (hx | hx) | hx | hx
  · exact hl x (.inl hx)
  · exact hr x (.inl hx)
  · exact hl x (.inr hx)
  · exact hr x (.inr hx)

theorem Expr.VarsBelow.and {l r : Expr} (hl : l.VarsBelow n) (hr : r.VarsBelow n) :
    (l.and r).VarsBelow n := hl.binary hr

theorem Expr.VarsBelow.conjoin {es : List Expr} (h : ∀ e ∈ es, e.VarsBelow n) :
    (Expr.conjoin es).VarsBelow n := by
  rintro x (hx | hx)
  · obtain ⟨e, he, hx⟩ := Expr.mem_free_conjoin.1 hx
    exact h e he x (.inl hx)
  · obtain ⟨e, he, hx⟩ := Expr.mem_binders_conjoin.1 hx
    exact h e he x (.inr hx)

theorem varsBelow_backwards {c : Command Expr} (hc : ∀ e ∈ c.exprs, e.VarsBelow n) {after : Expr}
    (hafter : after.VarsBelow n) : (c.backwards after).VarsBelow n := by
  cases c with
  | assert e => exact hafter
  | assume e => exact Expr.VarsBelow.and (hc e (by simp [Command.exprs])) hafter
  | assign updates =>
    exact hafter.subst fun m y r hr =>
      hc r (List.mem_map.2 ⟨_, mem_of_lookup_inPrior hr, rfl⟩)

theorem varsBelow_frameFormula {frame : List VarRef} (hframe : ∀ v ∈ frame, v.index < n) :
    (frameFormula frame).VarsBelow n := by
  refine Expr.VarsBelow.conjoin fun e he => ?_
  obtain ⟨v, hv, rfl⟩ := List.mem_map.1 he
  intro x hx
  have hxv : x = v := by simpa [unchanged, Expr.eq, Expr.free, Expr.binders] using hx
  exact hxv ▸ hframe v hv

/-- The relation mentions variables of the program only. -/
theorem varsBelow_relationFormula {p : Program} (hp : p.Closed) {frame : List VarRef}
    (hframe : ∀ v ∈ frame, p.HasVar v) (paths : List Path) :
    (p.relationFormula frame paths).VarsBelow p.vars.size := by
  refine relationFormula_induction (varsBelow_frameFormula hframe)
    (fun π _ b _ c hc after => varsBelow_backwards fun e he => ?_) ?_
    fun l r hl hr => hl.binary hr
  · obtain ⟨d, _, rfl⟩ := List.mem_map.1 hc
    rw [Command.exprs_map] at he
    obtain ⟨r, _, rfl⟩ := List.mem_map.1 he
    exact hp.varsBelow_expr r
  · simp [Expr.VarsBelow, Expr.ff, Expr.free, Expr.binders]

end Variables

end AtomicMovers
