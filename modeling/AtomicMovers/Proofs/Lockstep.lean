import AtomicMovers.Proofs.Paths
import Mathlib.Data.List.Find
import Mathlib.Data.List.Perm.Subperm

/-!
# Searching a copied graph

Completing paths are searched block by block. If the blocks of a graph are copied, the searches in the
graph and in the copy go in lockstep (`Program.Retraced.explore`): they find paths through the
same blocks in the same order, or they fail in the same way at a block and its copy.

The two programs may have different numbers of blocks, so the two searches are given different depths.
A path never repeats a block, so it never gets so long that this makes a difference.
-/

namespace AtomicMovers

/-! ## Failures -/

/-- The same failure, at a block whose label is marked. -/
inductive Error.MarkedAs (mark : String) : Error → Error → Prop where
  | unsupportedAssert (label : String) :
    MarkedAs mark (.unsupportedAssert label) (.unsupportedAssert (mark ++ label))
  | unrecognizedTransfer (label : String) :
    MarkedAs mark (.unrecognizedTransfer label) (.unrecognizedTransfer (mark ++ label))
  | cyclicAction (label : String) :
    MarkedAs mark (.cyclicAction label) (.cyclicAction (mark ++ label))

/-- Two searches find the same paths up to `φ`, or fail at blocks whose labels differ by a mark. -/
inductive SearchedAlike (mark : String) (φ : BlockRef → BlockRef) :
    Except Error (List Path) → Except Error (List Path) → Prop where
  | found (paths : List Path) : SearchedAlike mark φ (.ok paths) (.ok (paths.map (List.map φ)))
  | failed {e e' : Error} (h : e.MarkedAs mark e') : SearchedAlike mark φ (.error e) (.error e')

section Branching

variable {mark : String} {φ : BlockRef → BlockRef}

theorem SearchedAlike.eq_of_ok {paths paths' : List Path}
    (h : SearchedAlike mark φ (.ok paths) (.ok paths')) : paths' = paths.map (List.map φ) := by
  cases h
  rfl

/-- Searches that go on at several blocks and put together what they find. -/
theorem SearchedAlike.branch {f g : BlockRef → Except Error (List Path)} {targets : List BlockRef}
    (h : ∀ t ∈ targets, SearchedAlike mark φ (f t) (g (φ t))) :
    SearchedAlike mark φ (targets.mapM f >>= fun found => pure found.flatten)
      ((targets.map φ).mapM g >>= fun found => pure found.flatten) := by
  induction targets with
  | nil => exact .found []
  | cons t ts ih =>
    rw [List.forall_mem_cons] at h
    have first := h.1
    have rest := ih h.2
    rw [List.map_cons, List.mapM_cons, List.mapM_cons]
    -- a failure at the first target ends the search, one behind it ends it later
    generalize f t = x, g (φ t) = y at first
    cases first with
    | failed e => exact .failed e
    | found paths =>
      generalize ts.mapM f = xs, (ts.map φ).mapM g = ys at rest
      cases xs with
      | error e =>
        cases ys with
        | error e' => exact rest
        | ok ys => cases rest
      | ok xs =>
        cases ys with
        | error e' => cases rest
        | ok ys =>
          have heq : ys.flatten = xs.flatten.map (List.map φ) := rest.eq_of_ok
          have both : SearchedAlike mark φ (.ok (paths ++ xs.flatten)) _ := .found _
          rw [List.map_append, ← heq] at both
          exact both

end Branching

/-! ## Copies as a search sees them -/

/-- The copy of an end goes to the copies of its targets. -/
inductive Transfer.Mapped (φ : BlockRef → BlockRef) : Transfer → Transfer → Prop where
  | returnValue (e e' : ExprRef) : Mapped φ (.returnValue e) (.returnValue e')
  | goto (targets : List BlockRef) : Mapped φ (.goto targets) (.goto (targets.map φ))
  | leave : Mapped φ .leave .leave

theorem Transfer.Mapped.refl (t : Transfer) : Transfer.Mapped id t t := by
  cases t with
  | returnValue e => exact .returnValue e e
  | goto targets =>
    have goto : Transfer.Mapped id (.goto targets) (.goto (targets.map id)) := .goto targets
    rwa [List.map_id] at goto
  | leave => exact .leave

theorem Transfer.Mapped.symm {φ : BlockRef → BlockRef} (inv : Function.Involutive φ)
    {t t' : Transfer} (h : Transfer.Mapped φ t t') : Transfer.Mapped φ t' t := by
  cases h with
  | returnValue e e' => exact .returnValue e' e
  | goto targets =>
    have goto : Transfer.Mapped φ (.goto (targets.map φ)) (.goto ((targets.map φ).map φ)) := .goto _
    rwa [List.map_map, inv.comp_self, List.map_id] at goto
  | leave => exact .leave

/-- Only the targets of gotos matter. -/
theorem Transfer.Mapped.congr {φ ψ : BlockRef → BlockRef} {t t' : Transfer}
    (h : Transfer.Mapped φ t t') (same : ∀ b ∈ t.targets, φ b = ψ b) : Transfer.Mapped ψ t t' := by
  cases h with
  | returnValue e e' => exact .returnValue e e'
  | goto targets =>
    have targets_eq : targets.map φ = targets.map ψ := List.map_congr_left same
    rw [targets_eq]
    exact .goto targets
  | leave => exact .leave

namespace Program

/-- The blocks `bs` of `p` are copied to blocks of `q` as `φ` says, with marked labels. -/
structure Retraced (mark : String) (φ : BlockRef → BlockRef) (p : Program) (bs : List BlockRef)
    (q : Program) : Prop where
  injective : ∀ b ∈ bs, ∀ c ∈ bs, φ b = φ c → b = c
  encloses : p.Encloses bs
  label : ∀ b ∈ bs, (q.block (φ b)).label = mark ++ (p.block b).label
  asserts : ∀ b ∈ bs, (q.block (φ b)).commands.any Command.isAssert =
    (p.block b).commands.any Command.isAssert
  transfer : ∀ b ∈ bs, Transfer.Mapped φ (p.block b).transfer (q.block (φ b)).transfer

section Retraced

variable {mark : String} {φ : BlockRef → BlockRef} {p q : Program} {bs : List BlockRef}
  (h : Retraced mark φ p bs q)

include h

theorem Retraced.completePath {path : Path} (hpath : ∀ x ∈ path, x ∈ bs) :
    SearchedAlike mark φ (p.completePath path) (q.completePath (path.map φ)) := by
  have same : (path.map φ).find? (fun b => (q.block b).commands.any Command.isAssert) =
      (path.find? fun b => (p.block b).commands.any Command.isAssert).map φ := by
    rw [List.find?_map]
    exact congrArg _ (List.find?_congr fun b hb => h.asserts b (hpath b hb))
  rw [Program.completePath, Program.completePath, same]
  cases hfind : path.find? fun b => (p.block b).commands.any Command.isAssert with
  | none => exact .found [path]
  | some b =>
    show SearchedAlike mark φ (.error (.unsupportedAssert (p.block b).label))
      (.error (.unsupportedAssert (q.block (φ b)).label))
    rw [h.label b (hpath b (List.mem_of_find?_eq_some hfind))]
    exact .failed (.unsupportedAssert _)

theorem Retraced.mem_map_iff {path : Path} (hpath : ∀ x ∈ path, x ∈ bs) {b : BlockRef}
    (hb : b ∈ bs) : φ b ∈ path.map φ ↔ b ∈ path := by
  refine ⟨fun hmem => ?_, List.mem_map_of_mem⟩
  obtain ⟨c, hc, heq⟩ := List.mem_map.1 hmem
  rwa [← h.injective c (hpath c hc) b hb heq]

/-- The searches in a graph and in its copy go in lockstep, given enough depth. -/
theorem Retraced.explore {depth depth' : Nat} {path : Path} (nodup : path.Nodup)
    (hpath : ∀ x ∈ path, x ∈ bs) {b : BlockRef} (hb : b ∈ bs)
    (enough : bs.length < depth + path.length) (enough' : bs.length < depth' + path.length) :
    SearchedAlike mark φ (p.explore depth none path b)
      (q.explore depth' none (path.map φ) (φ b)) := by
  have short : path.length ≤ bs.length := (List.subperm_of_subset nodup hpath).length_le
  induction depth generalizing depth' path b with
  | zero => omega
  | succ depth ih =>
    obtain _ | depth' := depth'
    · omega
    · unfold Program.explore
      by_cases hmem : b ∈ path
      · rw [if_pos hmem, if_pos ((h.mem_map_iff hpath hb).2 hmem), h.label b hb]
        exact .failed (.cyclicAction _)
      · rw [if_neg hmem, if_neg fun hmap => hmem ((h.mem_map_iff hpath hb).1 hmap)]
        have longer : ∀ x ∈ b :: path, x ∈ bs := List.forall_mem_cons.2 ⟨hb, hpath⟩
        have nodup' : (b :: path).Nodup := List.nodup_cons.2 ⟨hmem, nodup⟩
        have transfer := h.transfer b hb
        have targets := h.encloses b hb
        generalize (p.block b).transfer = t, (q.block (φ b)).transfer = t' at transfer targets
        cases transfer with
        | returnValue e e' => exact h.completePath longer
        | leave =>
          show SearchedAlike mark φ (.error (.unrecognizedTransfer (p.block b).label))
            (.error (.unrecognizedTransfer (q.block (φ b)).label))
          rw [h.label b hb]
          exact .failed (.unrecognizedTransfer _)
        | goto ts =>
          refine SearchedAlike.branch fun t ht => ?_
          refine ih nodup' longer (targets t ht) ?_ ?_
            (List.subperm_of_subset nodup' longer).length_le
          · rw [List.length_cons]
            omega
          · rw [List.length_cons]
            omega

/-- The completing paths of the copy are the copies of the completing paths. -/
theorem Retraced.completingPaths (size : bs.length ≤ p.blocks.size)
    (size' : bs.length ≤ q.blocks.size) {entry : BlockRef} (hentry : entry ∈ bs) :
    SearchedAlike mark φ (p.completingPaths entry none) (q.completingPaths (φ entry) none) :=
  h.explore List.nodup_nil (by simp) hentry (by simp; omega) (by simp; omega)

end Retraced

end Program

end AtomicMovers
