import AtomicMovers.Proofs.Runs
import AtomicMovers.Transition.Path

/-!
# Completing paths and completing runs

The search for completing paths, when it succeeds, has gone through all ways to continue. That is
written down as a derivation (`Program.Explored`), which follows the recursion of the search and
drops what only bounds it. By induction over derivations:

* the paths that were found are exactly those along which runs complete (`exists_along_iff`);
* they stay within the blocks of the actions and assert nothing (`mem_of_explored`,
  `isAssert_of_explored`);
* they are the same in every program that continues the one searched (`Explored.extends`,
  `Explored.earlier`), and there is one outcome (`Explored.unique`).
-/

namespace AtomicMovers

namespace Program

/-! ## The search as a derivation -/

/-- The search at the block `b` behind `path` succeeds with the paths `found`. -/
inductive Explored (p : Program) : Option BlockRef → Path → BlockRef → List Path → Prop where
  /-- The value return of the first part hands over to the second one. -/
  | handOver {entry b : BlockRef} {path : Path} {e : ExprRef} {found : List Path}
    (h : (p.block b).transfer = .returnValue e) (rest : p.Explored none (b :: path) entry found) :
    Explored p (some entry) path b found
  /-- The path is complete. -/
  | complete {b : BlockRef} {path : Path} {e : ExprRef}
    (h : (p.block b).transfer = .returnValue e)
    (assertFree : ∀ x ∈ b :: path, ∀ c ∈ (p.block x).commands, c.isAssert = false) :
    Explored p none path b [b :: path]
  /-- The search goes on at each target. -/
  | branch {next : Option BlockRef} {b : BlockRef} {path : Path}
    {found : List (BlockRef × List Path)}
    (h : (p.block b).transfer = .goto (found.map Prod.fst))
    (rest : ∀ u ∈ found, p.Explored next (b :: path) u.1 u.2) :
    Explored p next path b (found.map Prod.snd).flatten

variable {p : Program}

theorem completePath_eq_ok {path : Path} {found : List Path} (h : p.completePath path = .ok found) :
    found = [path] ∧ ∀ x ∈ path, ∀ c ∈ (p.block x).commands, c.isAssert = false := by
  unfold completePath at h
  cases hfind : path.find? fun b => (p.block b).commands.any Command.isAssert with
  | some b => rw [hfind] at h; cases h
  | none =>
    rw [hfind] at h
    cases h
    simpa [List.find?_eq_none] using hfind

/-- A successful search is derived. -/
theorem explored_of_explore {depth : Nat} {next : Option BlockRef} {path : Path} {b : BlockRef}
    {found : List Path} (h : p.explore depth next path b = .ok found) :
    p.Explored next path b found := by
  -- the depth only bounds the search, so it does not occur in the derivation
  induction depth generalizing next path b found with
  | zero => cases h
  | succ depth ih =>
    unfold explore at h
    by_cases hb : b ∈ path
    · rw [if_pos hb] at h
      cases h
    · rw [if_neg hb] at h
      cases htransfer : (p.block b).transfer with
      | leave => rw [htransfer] at h; cases h
      | returnValue e =>
        rw [htransfer] at h
        cases next with
        | some entry => exact .handOver htransfer (ih h)
        | none =>
          obtain ⟨rfl, assertFree⟩ := completePath_eq_ok h
          exact .complete htransfer assertFree
      | goto targets =>
        rw [htransfer] at h
        cases hmap : targets.mapM (p.explore depth next (b :: path)) with
        | error e => simp only [hmap] at h; cases h
        | ok founds =>
          simp only [hmap] at h
          cases h
          -- targets and what was found behind them, side by side
          have each := mapM_eq_ok hmap
          have hfst := List.map_fst_zip (Nat.le_of_eq each.length_eq)
          have hsnd := List.map_snd_zip (Nat.le_of_eq each.length_eq.symm)
          rw [← hsnd]
          refine .branch (by rw [htransfer, hfst]) fun u hu => ih ?_
          exact (List.forall₂_zip each hu)

section

variable {next : Option BlockRef} {path : Path} {b : BlockRef} {found : List Path}

/-- The paths stay within the blocks of the two parts. -/
theorem mem_of_explored {bs : List BlockRef} (hbs : p.Encloses bs)
    (h : p.Explored next path b found) (hb : b ∈ bs) (hnext : ∀ entry ∈ next, entry ∈ bs)
    (hpath : ∀ x ∈ path, x ∈ bs) : ∀ π ∈ found, ∀ x ∈ π, x ∈ bs := by
  induction h with
  | handOver h rest ih =>
    exact ih (hnext _ rfl) (by simp) (List.forall_mem_cons.2 ⟨hb, hpath⟩)
  | complete h assertFree =>
    intro π hπ
    rw [List.mem_singleton.1 hπ]
    exact List.forall_mem_cons.2 ⟨hb, hpath⟩
  | branch h rest ih =>
    intro π hπ
    obtain ⟨_, hfound, hπ⟩ := List.mem_flatten.1 hπ
    obtain ⟨u, hu, rfl⟩ := List.mem_map.1 hfound
    have target : u.1 ∈ bs := hbs _ hb u.1 (by rw [h]; exact List.mem_map.2 ⟨u, hu, rfl⟩)
    exact ih u hu target hnext (List.forall_mem_cons.2 ⟨hb, hpath⟩) π hπ

/-- No block of the paths asserts anything. -/
theorem isAssert_of_explored (h : p.Explored next path b found) :
    ∀ π ∈ found, ∀ x ∈ π, ∀ c ∈ (p.block x).commands, c.isAssert = false := by
  induction h with
  | handOver h rest ih => exact ih
  | complete h assertFree =>
    intro π hπ
    rw [List.mem_singleton.1 hπ]
    exact assertFree
  | branch h rest ih =>
    intro π hπ
    obtain ⟨_, hfound, hπ⟩ := List.mem_flatten.1 hπ
    obtain ⟨u, hu, rfl⟩ := List.mem_map.1 hfound
    exact ih u hu π hπ

/-- The search finds the same in a program that continues this one. -/
theorem Explored.extends {q : Program} (hp : p.Closed) (hpq : p.Extends q)
    (h : p.Explored next path b found) (hb : p.HasBlock b) (hnext : ∀ entry ∈ next, p.HasBlock entry)
    (hpath : ∀ x ∈ path, p.HasBlock x) : q.Explored next path b found := by
  induction h with
  | handOver h rest ih =>
    exact .handOver (by rw [hpq.block_eq hb, h])
      (ih (hnext _ rfl) (by simp) (List.forall_mem_cons.2 ⟨hb, hpath⟩))
  | complete h assertFree =>
    refine .complete (by rw [hpq.block_eq hb, h]) fun x hx c hc => ?_
    rw [hpq.block_eq (List.forall_mem_cons.2 ⟨hb, hpath⟩ x hx)] at hc
    exact assertFree x hx c hc
  | branch h rest ih =>
    refine .branch (by rw [hpq.block_eq hb, h]) fun u hu => ?_
    have target : p.HasBlock u.1 := (hp.block hb).transfer.targets u.1
      (by rw [h]; exact List.mem_map.2 ⟨u, hu, rfl⟩)
    exact ih u hu target hnext (List.forall_mem_cons.2 ⟨hb, hpath⟩)

/-- What the search finds from blocks of this program in one that continues it, it finds here. -/
theorem Explored.earlier {q : Program} (hp : p.Closed) (hpq : p.Extends q)
    (h : q.Explored next path b found) (hb : p.HasBlock b) (hnext : ∀ entry ∈ next, p.HasBlock entry)
    (hpath : ∀ x ∈ path, p.HasBlock x) :
    p.Explored next path b found ∧ ∀ π ∈ found, ∀ x ∈ π, p.HasBlock x := by
  induction h with
  | handOver h rest ih =>
    obtain ⟨explored, valid⟩ :=
      ih (hnext _ rfl) (by simp) (List.forall_mem_cons.2 ⟨hb, hpath⟩)
    exact ⟨.handOver (by rw [← hpq.block_eq hb, h]) explored, valid⟩
  | complete h assertFree =>
    have valid := List.forall_mem_cons.2 ⟨hb, hpath⟩
    refine ⟨.complete (by rw [← hpq.block_eq hb, h]) fun x hx c hc => ?_, by simpa using valid⟩
    rw [← hpq.block_eq (valid x hx)] at hc
    exact assertFree x hx c hc
  | branch h rest ih =>
    rw [hpq.block_eq hb] at h
    have each : ∀ u ∈ _, _ := fun u hu => ih u hu ((hp.block hb).transfer.targets u.1
      (by rw [h]; exact List.mem_map.2 ⟨u, hu, rfl⟩)) hnext (List.forall_mem_cons.2 ⟨hb, hpath⟩)
    refine ⟨.branch h fun u hu => (each u hu).1, fun π hπ => ?_⟩
    obtain ⟨_, hfound, hπ⟩ := List.mem_flatten.1 hπ
    obtain ⟨u, hu, rfl⟩ := List.mem_map.1 hfound
    exact (each u hu).2 π hπ

/-- The search has one outcome. -/
theorem Explored.unique {found' : List Path} (h : p.Explored next path b found)
    (k : p.Explored next path b found') : found' = found := by
  induction h generalizing found' with
  | handOver h rest ih =>
    cases k with
    | handOver _ rest' => exact ih rest'
    | branch h' _ => rw [h] at h'; cases h'
  | complete h _ =>
    cases k with
    | complete _ _ => rfl
    | branch h' _ => rw [h] at h'; cases h'
  | @branch next b path founds h rest ih =>
    cases k with
    | handOver h' _ => rw [h] at h'; cases h'
    | complete h' _ => rw [h] at h'; cases h'
    | @branch _ _ _ founds' h' rest' =>
      -- the same targets in the same order, and the same paths behind each
      rw [h] at h'
      have targets : founds.map Prod.fst = founds'.map Prod.fst := by injection h'
      congr 1
      clear h h'
      induction founds generalizing founds' with
      | nil => rw [List.map_eq_nil_iff.1 targets.symm]
      | cons u us ihs =>
        cases founds' with
        | nil => cases targets
        | cons v vs =>
          rw [List.forall_mem_cons] at rest rest'
          rw [List.map_cons, List.map_cons, List.cons.injEq] at targets
          have same : v.2 = u.2 := ih u (by simp) (by rw [targets.1]; exact rest'.1)
          rw [List.map_cons, List.map_cons, same,
            ihs rest.2 (fun w hw => ih w (by simp [hw])) rest'.2 targets.2]

end

/-! ## Runs along paths -/

variable {D : Type} {I : Interpretation D} {start : State D}

/-- A run that goes through the blocks of the path, of which the last one comes first, leads from one
state to another. -/
def Along (p : Program) (I : Interpretation D) (start : State D) : Path → State D → State D → Prop
  | [], s, t => s = t
  | b :: path, s, t => ∃ m, p.Along I start path s m ∧ p.Passes I start (p.commands b) m t

/-- Some run from the block `b` returns a value, and some run from `next` goes on from there if that
is given. -/
def RunsTo (p : Program) (I : Interpretation D) (start : State D) (next : Option BlockRef)
    (b : BlockRef) (s t : State D) : Prop :=
  match next with
  | none => p.Finishes I start Transfer.IsReturn (p.enterBlock b s) t
  | some entry => ∃ m, p.Finishes I start Transfer.IsReturn (p.enterBlock b s) m ∧
      p.Finishes I start Transfer.IsReturn (p.enterBlock entry m) t

/-- A block that returns a value ends the run through its graph. -/
theorem finishes_of_returnValue {b : BlockRef} {e : ExprRef}
    (h : (p.block b).transfer = .returnValue e) {s t : State D} :
    p.Finishes I start Transfer.IsReturn (p.enterBlock b s) t ↔
      p.Passes I start (p.commands b) s t := by
  rw [finishes_enterBlock, h]
  simp [Transfer.IsReturn, Transfer.targets]

/-- A block that ends in a goto passes the run on to one of its targets. -/
theorem finishes_of_goto {b : BlockRef} {targets : List BlockRef}
    (h : (p.block b).transfer = .goto targets) {s t : State D} :
    p.Finishes I start Transfer.IsReturn (p.enterBlock b s) t ↔
      ∃ m, p.Passes I start (p.commands b) s m ∧
        ∃ x ∈ targets, p.Finishes I start Transfer.IsReturn (p.enterBlock x m) t := by
  rw [finishes_enterBlock, h]
  simp [Transfer.IsReturn, Transfer.targets]

/-- Some run from the block `b` leads to a state from which, if `next` is given, some run from there
goes on; `finishes` says what runs lead to. -/
def InTurn (finishes : BlockRef → State D → State D → Prop) :
    Option BlockRef → BlockRef → State D → State D → Prop
  | none, b, s, t => finishes b s t
  | some entry, b, s, t => ∃ m, finishes b s m ∧ finishes entry m t

theorem runsTo_iff_inTurn {next : Option BlockRef} {b : BlockRef} {s t : State D} :
    p.RunsTo I start next b s t ↔
      InTurn (fun b s t => p.Finishes I start Transfer.IsReturn (p.enterBlock b s) t)
        next b s t := by
  cases next with
  | none => exact Iff.rfl
  | some entry => exact Iff.rfl

theorem inTurn_of_goto {passes finishes : BlockRef → State D → State D → Prop} {b : BlockRef}
    {targets : List BlockRef}
    (first : ∀ s r, finishes b s r ↔ ∃ m, passes b s m ∧ ∃ x ∈ targets, finishes x m r)
    {next : Option BlockRef} {s t : State D} :
    InTurn finishes next b s t ↔
      ∃ m, passes b s m ∧ ∃ x ∈ targets, InTurn finishes next x m t := by
  cases next with
  | none => exact first s t
  | some entry =>
    simp only [InTurn, first]
    constructor
    · rintro ⟨r, ⟨m, hm, x, hx, hr⟩, ht⟩
      exact ⟨m, hm, x, hx, r, hr, ht⟩
    · rintro ⟨m, hm, x, hx, r, hr, ht⟩
      exact ⟨r, ⟨m, hm, x, hx, hr⟩, ht⟩

/-- The paths that were found are those along which runs complete, whatever it means for a run to pass
a block. -/
theorem exists_path_iff (passes finishes : BlockRef → State D → State D → Prop)
    {along : Path → State D → State D → Prop}
    (cons : ∀ b path s t, along (b :: path) s t ↔ ∃ m, along path s m ∧ passes b m t)
    (returns : ∀ b e, (p.block b).transfer = .returnValue e →
      ∀ s t, finishes b s t ↔ passes b s t)
    (goes : ∀ b targets, (p.block b).transfer = .goto targets →
      ∀ s t, finishes b s t ↔ ∃ m, passes b s m ∧ ∃ x ∈ targets, finishes x m t)
    {next : Option BlockRef} {path : Path} {b : BlockRef} {found : List Path}
    (h : p.Explored next path b found) {s t : State D} :
    (∃ π ∈ found, along π s t) ↔ ∃ m, along path s m ∧ InTurn finishes next b m t := by
  induction h with
  | handOver h rest ih =>
    -- the block that hands over is behind the path on one side, and begins the run on the other
    rw [ih]
    simp only [InTurn, cons, returns _ _ h]
    constructor
    · rintro ⟨m, ⟨r, hr, hm⟩, ht⟩
      exact ⟨r, hr, m, hm, ht⟩
    · rintro ⟨r, hr, m, hm, ht⟩
      exact ⟨m, ⟨r, hr, hm⟩, ht⟩
  | complete h assertFree =>
    simp only [List.mem_singleton, exists_eq_left, InTurn, cons, returns _ _ h]
  | @branch next b path found h rest ih =>
    simp only [inTurn_of_goto (goes b _ h)]
    constructor
    · rintro ⟨π, hπ, hrun⟩
      obtain ⟨_, hfound, hπ⟩ := List.mem_flatten.1 hπ
      obtain ⟨u, hu, rfl⟩ := List.mem_map.1 hfound
      obtain ⟨m, hm, ht⟩ := (ih u hu).1 ⟨π, hπ, hrun⟩
      obtain ⟨r, hr, hm⟩ := (cons b path s m).1 hm
      exact ⟨r, hr, m, hm, u.1, List.mem_map.2 ⟨u, hu, rfl⟩, ht⟩
    · rintro ⟨r, hr, m, hm, x, hx, ht⟩
      obtain ⟨u, hu, rfl⟩ := List.mem_map.1 hx
      obtain ⟨π, hπ, hrun⟩ := (ih u hu).2 ⟨m, (cons b path s m).2 ⟨r, hr, hm⟩, ht⟩
      exact ⟨π, List.mem_flatten.2 ⟨u.2, List.mem_map.2 ⟨u, hu, rfl⟩, hπ⟩, hrun⟩

/-- The paths that were found are those along which runs complete. -/
theorem exists_along_iff {next : Option BlockRef} {path : Path} {b : BlockRef} {found : List Path}
    (h : p.Explored next path b found) {s t : State D} :
    (∃ π ∈ found, p.Along I start π s t) ↔
      ∃ m, p.Along I start path s m ∧ p.RunsTo I start next b m t := by
  simp only [runsTo_iff_inTurn]
  exact exists_path_iff (fun b => p.Passes I start (p.commands b)) _ (fun _ _ _ _ => Iff.rfl)
    (fun _ _ hb _ _ => finishes_of_returnValue hb) (fun _ _ hb _ _ => finishes_of_goto hb) h

end Program

end AtomicMovers
