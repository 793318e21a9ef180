import AtomicMovers.Proofs.Operations

/-!
# Copies of block graphs

What `CopyPlan.copyBlocks` yields (`attempts_copyBlocks`): new blocks, one for each listed block, with
the commands that the plan makes of the old ones, and with gotos that stay among the new blocks. The
pairs of old and new blocks are all that later proofs need to know about a copy.

The ends of the new blocks are set after all of them were made, so the second pass changes entries.
These are entries that the first pass has added: seen from the start, copying only appends.
-/

namespace AtomicMovers

open Program

/-! ## Descriptions of copies -/

/-- What the end of a block becomes in a copy with the given pairs of old and new blocks, of which
later ones win; a value return becomes something that satisfies `E`. -/
inductive Transfer.Copied (E : Transfer → Prop) (pairs : List (BlockRef × BlockRef)) :
    Transfer → Transfer → Prop where
  | returnValue {e : ExprRef} {t : Transfer} (h : E t) : Copied E pairs (.returnValue e) t
  | goto {bs cs : List BlockRef} (h : List.Forall₂ (fun b c => pairs.reverse.lookup b = some c) bs cs) :
    Copied E pairs (.goto bs) (.goto cs)
  | leave : Copied E pairs .leave .leave

theorem mem_of_lookup_reverse {pairs : List (BlockRef × BlockRef)} {b c : BlockRef}
    (h : pairs.reverse.lookup b = some c) : (b, c) ∈ pairs := by
  obtain ⟨l₁, l₂, heq, _⟩ := List.lookup_eq_some_iff.1 h
  rw [← List.mem_reverse, heq]
  simp

/-- The blocks `cs` are new in `q`, one for each of the blocks `bs` of `p`, with labels and commands
as `L` and `T` make them. -/
structure CodeCopied (L : String → String) (T : Command Expr → Command Expr) (p : Program)
    (bs cs : List BlockRef) (q : Program) : Prop where
  length_eq : cs.length = bs.length
  nodup : cs.Nodup
  fresh : ∀ c ∈ cs, ¬p.HasBlock c
  valid : ∀ c ∈ cs, q.HasBlock c
  label : ∀ u ∈ bs.zip cs, (q.block u.2).label = L (p.block u.1).label
  commands : ∀ u ∈ bs.zip cs, q.commands u.2 = (p.commands u.1).map T

/-- The blocks `cs` of `q` form a copy of the graph of the blocks `bs` of `p`. -/
structure GraphCopied (L : String → String) (T : Command Expr → Command Expr)
    (E : Transfer → Prop) (p : Program) (bs cs : List BlockRef) (q : Program) : Prop
    extends CodeCopied L T p bs cs q where
  transfer : ∀ u ∈ bs.zip cs,
    Transfer.Copied E (bs.zip cs) (p.block u.1).transfer (q.block u.2).transfer

/-- In programs that continue `p` the plan turns commands of `p` into what `T` makes of them, and
value returns into something that satisfies `E`. -/
structure CopyPlan.Faithful (plan : CopyPlan) (T : Command Expr → Command Expr)
    (E : Transfer → Prop) (p : Program) : Prop where
  command : ∀ c, c.ValidIn p → ∀ q, p.Extends q → q.Closed →
    Yields q (plan.command c) fun d r => d.ValidIn r ∧ d.map r.expr = T (c.map p.expr)
  valueReturn : ∀ q, p.Extends q → q.Closed →
    Yields q plan.valueReturn fun t r => t.ValidIn r ∧ E t

section

variable {L : String → String} {T : Command Expr → Command Expr} {E : Transfer → Prop}
  {p q r : Program} {bs cs : List BlockRef}

/-- A copy stays one while its blocks are kept. -/
theorem GraphCopied.grows {R : Block → Block → Prop} (h : GraphCopied L T E p bs cs q)
    (hq : q.Closed) (hqr : q.Grows R r) (kept : ∀ c ∈ cs, r.block c = q.block c) :
    GraphCopied L T E p bs cs r where
  length_eq := h.length_eq
  nodup := h.nodup
  fresh := h.fresh
  valid c hc := hqr.within.hasBlock (h.valid c hc)
  label u hu := by
    rw [kept u.2 (List.of_mem_zip hu).2, h.label u hu]
  commands u hu := by
    have hc := (List.of_mem_zip hu).2
    rw [hqr.commands_eq hq (h.valid u.2 hc) (by rw [kept u.2 hc]), h.commands u hu]
  transfer u hu := by
    rw [kept u.2 (List.of_mem_zip hu).2]
    exact h.transfer u hu

theorem GraphCopied.extends (h : GraphCopied L T E p bs cs q) (hq : q.Closed)
    (hqr : q.Extends r) : GraphCopied L T E p bs cs r :=
  h.grows hq hqr fun c hc => hqr.block_eq (h.valid c hc)

/-- A copy of blocks that were there earlier. -/
theorem GraphCopied.ofEarlier (h : GraphCopied L T E q bs cs r) (hp : p.Closed)
    (hpq : p.Extends q) (hbs : ∀ b ∈ bs, p.HasBlock b) : GraphCopied L T E p bs cs r where
  length_eq := h.length_eq
  nodup := h.nodup
  fresh c hc hcp := h.fresh c hc (hpq.within.hasBlock hcp)
  valid := h.valid
  label u hu := by
    rw [h.label u hu, hpq.block_eq (hbs u.1 (List.of_mem_zip hu).1)]
  commands u hu := by
    rw [h.commands u hu, hpq.commands_eq hp (hbs u.1 (List.of_mem_zip hu).1)]
  transfer u hu := by
    rw [← hpq.block_eq (hbs u.1 (List.of_mem_zip hu).1)]
    exact h.transfer u hu

/-- Targets of a copied goto come in pairs. -/
theorem Transfer.Copied.exists_copy {pairs : List (BlockRef × BlockRef)} {x y : Transfer}
    (h : Transfer.Copied E pairs x y) {t : BlockRef} (ht : t ∈ x.targets) :
    ∃ c ∈ y.targets, (t, c) ∈ pairs := by
  cases h with
  | goto hts =>
    obtain ⟨c, hc, hlookup⟩ := exists_right_of_forall₂ hts ht
    exact ⟨c, hc, mem_of_lookup_reverse hlookup⟩
  | returnValue _ => simp [Transfer.targets] at ht
  | leave => simp [Transfer.targets] at ht

/-- Every block of the graph has a copy. -/
theorem GraphCopied.exists_copy (h : GraphCopied L T E p bs cs q) {b : BlockRef} (hb : b ∈ bs) :
    ∃ c, (b, c) ∈ bs.zip cs := by
  have hbs : (bs.zip cs).map Prod.fst = bs := List.map_fst_zip (Nat.le_of_eq h.length_eq.symm)
  rw [← hbs] at hb
  obtain ⟨u, hu, rfl⟩ := List.mem_map.1 hb
  exact ⟨u.2, hu⟩

/-- Every block of the copy is one of a block of the graph. -/
theorem GraphCopied.exists_original (h : GraphCopied L T E p bs cs q) {c : BlockRef}
    (hc : c ∈ cs) : ∃ b, (b, c) ∈ bs.zip cs := by
  have hcs : (bs.zip cs).map Prod.snd = cs := List.map_snd_zip (Nat.le_of_eq h.length_eq)
  rw [← hcs] at hc
  obtain ⟨u, hu, rfl⟩ := List.mem_map.1 hc
  exact ⟨u.1, hu⟩

/-- The gotos of copied blocks stay among them. -/
theorem GraphCopied.mem_of_mem_targets (h : GraphCopied L T E p bs cs q) {b t : BlockRef}
    (hb : b ∈ bs) (ht : t ∈ (p.block b).transfer.targets) : t ∈ bs := by
  obtain ⟨c, hbc⟩ := h.exists_copy hb
  obtain ⟨_, _, hc⟩ := (h.transfer _ hbc).exists_copy ht
  exact (List.of_mem_zip hc).1

/-- The gotos of the copies stay among them, if value returns do not become gotos. -/
theorem GraphCopied.mem_of_mem_copy_targets (h : GraphCopied L T E p bs cs q)
    (hE : ∀ t, E t → t.targets = []) {c t : BlockRef} (hc : c ∈ cs)
    (ht : t ∈ (q.block c).transfer.targets) : t ∈ cs := by
  obtain ⟨b, hbc⟩ := h.exists_original hc
  have copied := h.transfer _ hbc
  simp only at copied
  generalize (p.block b).transfer = old at copied
  generalize (q.block c).transfer = new at *
  cases copied with
  | returnValue hnew => rw [hE new hnew] at ht; cases ht
  | goto hts =>
    obtain ⟨_, _, hx⟩ := exists_left_of_forall₂ hts ht
    exact (List.of_mem_zip (mem_of_lookup_reverse hx)).2
  | leave => cases ht

/-- The copies do not leave, if the graph does not. -/
theorem GraphCopied.copy_ne_leave (h : GraphCopied L T E p bs cs q) (hE : ∀ t, E t → t ≠ .leave)
    (stays : ∀ b ∈ bs, (p.block b).transfer ≠ .leave) {c : BlockRef} (hc : c ∈ cs) :
    (q.block c).transfer ≠ .leave := by
  obtain ⟨b, hbc⟩ := h.exists_original hc
  have copied := h.transfer _ hbc
  have hold := stays b (List.of_mem_zip hbc).1
  simp only at copied
  generalize (p.block b).transfer = old at copied hold
  generalize (q.block c).transfer = new at *
  cases copied with
  | returnValue hnew => exact hE new hnew
  | goto _ => simp
  | leave => exact absurd rfl hold

end

/-! ## The first pass -/

section

variable {plan : CopyPlan} {T : Command Expr → Command Expr} {E : Transfer → Prop} {p : Program}

/-- The copy of one block, which still has no end. -/
theorem yields_copyBlock (hp : p.Closed) (hplan : plan.Faithful T E p) {b : BlockRef}
    (hb : p.HasBlock b) {q : Program} (hpq : p.Extends q) (hq : q.Closed) :
    Yields q (plan.copyBlock b) fun c r =>
      ¬q.HasBlock c ∧ r.HasBlock c ∧ (r.block c).label = plan.label (p.block b).label ∧
        r.commands c = (p.commands b).map T := by
  unfold CopyPlan.copyBlock
  apply Yields.get_bind
  rw [hpq.block_eq hb]
  have hvalid := (hp.block hb).commands
  refine (Yields.mapM hq
    (Q := fun c d r => d.ValidIn r ∧ d.map r.expr = T (c.map p.expr)) ?_ ?_).bind
    fun cs r hqr hr hcs => ?_
  · -- the expressions of a copied command stay what they are while the next ones are copied
    intro c d r r' hrr' hr h
    refine ⟨h.1.mono hrr'.within, ?_⟩
    rw [← h.2]
    exact Command.map_congr fun e he => hrr'.expr_eq hr (h.1.exprs e he)
  · intro c hc r hqr hr
    exact hplan.command c (hvalid c hc) r (hpq.trans hqr) hr
  · have hnew : Block.ValidIn r
        { label := plan.label (p.block b).label, commands := cs, transfer := .leave } := by
      refine ⟨fun d hd => ?_, ⟨by simp [Transfer.targets], by simp [Transfer.values]⟩⟩
      obtain ⟨c, _, hcd⟩ := exists_left_of_forall₂ hcs hd
      exact hcd.1
    refine (yields_newBlock hr hnew).weaken fun c r' hrr' _ h => ?_
    obtain ⟨hindex, hcr, hblock⟩ := h
    refine ⟨?_, hcr, by rw [hblock], ?_⟩
    · -- its position is the length of a table at least as long as that of `q`
      intro hc
      have := hqr.within.hasBlock hc
      rw [HasBlock, hindex] at this
      omega
    · rw [Program.commands, Program.commands, hblock, List.map_map]
      apply map_eq_map_of_forall₂
      exact hcs.imp fun c d h => by
        rw [Function.comp, ← h.2]
        exact Command.map_congr fun e he => hrr'.expr_eq hr (h.1.exprs e he)

/-- The copies of all blocks, which still have no ends. -/
theorem yields_copyEach (hp : p.Closed) (hplan : plan.Faithful T E p) {bs : List BlockRef}
    (hbs : ∀ b ∈ bs, p.HasBlock b) {q : Program} (hpq : p.Extends q) (hq : q.Closed) :
    Yields q (plan.copyEach bs) fun cs r =>
      CodeCopied plan.label T p bs cs r ∧ ∀ c ∈ cs, ¬q.HasBlock c := by
  unfold CopyPlan.copyEach
  -- each copy is made in a program that the copies before it are in, and is new there
  induction bs generalizing q with
  | nil =>
    rw [List.mapM_nil]
    exact Yields.pure hq ⟨⟨rfl, List.nodup_nil, by simp, by simp, by simp, by simp⟩, by simp⟩
  | cons b bs ih =>
    have hb : p.HasBlock b := hbs b (by simp)
    rw [List.mapM_cons]
    refine (yields_copyBlock hp hplan hb hpq hq).bind fun c r hqr hr hc => ?_
    obtain ⟨hcq, hcr, hlabel, hcommands⟩ := hc
    refine (ih (fun x hx => hbs x (by simp [hx])) (hpq.trans hqr) hr).bind
      fun cs r' hrr' hr' hcs => ?_
    obtain ⟨hcs, hnew⟩ := hcs
    have hcs_q : ∀ x ∈ cs, ¬q.HasBlock x := fun x hx hxq => hnew x hx (hqr.within.hasBlock hxq)
    refine Yields.pure hr' ⟨⟨by simp [hcs.length_eq], ?_, ?_, ?_, ?_, ?_⟩, ?_⟩
    · exact List.nodup_cons.2 ⟨fun hmem => hnew c hmem hcr, hcs.nodup⟩
    · intro x hx hxp
      rcases List.mem_cons.1 hx with rfl | hx
      · exact hcq (hpq.within.hasBlock hxp)
      · exact hcs.fresh x hx hxp
    · intro x hx
      rcases List.mem_cons.1 hx with rfl | hx
      · exact hrr'.within.hasBlock hcr
      · exact hcs.valid x hx
    · intro u hu
      rcases List.mem_cons.1 hu with rfl | hu
      · rw [hrr'.block_eq hcr, hlabel]
      · exact hcs.label u hu
    · intro u hu
      rcases List.mem_cons.1 hu with rfl | hu
      · rw [hrr'.commands_eq hr hcr, hcommands]
      · exact hcs.commands u hu
    · intro x hx
      rcases List.mem_cons.1 hx with rfl | hx
      · exact hcq
      · exact hcs_q x hx

/-! ## The second pass -/

theorem mapM_eq_ok {α β : Type} {f : α → Except Error β} {as : List α} {bs : List β}
    (h : as.mapM f = .ok bs) : List.Forall₂ (fun a b => f a = .ok b) as bs := by
  induction as generalizing bs with
  | nil =>
    rw [List.mapM_nil] at h
    cases h
    exact .nil
  | cons a as ih =>
    rw [List.mapM_cons] at h
    cases ha : f a with
    | error e => rw [ha] at h; cases h
    | ok b =>
      cases has : as.mapM f with
      | error e => rw [ha, has] at h; cases h
      | ok cs =>
        rw [ha, has] at h
        cases h
        exact .cons ha (ih has)

/-- The end of the copy of a block. -/
theorem attempts_copyTransfer (hplan : plan.Faithful T E p) (owner : String)
    {pairs : List (BlockRef × BlockRef)} {b : BlockRef} (hb : p.HasBlock b) {q : Program}
    (hpq : p.Extends q) (hq : q.Closed) (hpairs : ∀ u ∈ pairs, q.HasBlock u.2) :
    Attempts q (plan.copyTransfer owner pairs.reverse b) fun t r =>
      t.ValidIn r ∧ Transfer.Copied E pairs (p.block b).transfer t := by
  unfold CopyPlan.copyTransfer
  apply Attempts.get_bind
  simp only [hpq.block_eq hb]
  cases (p.block b).transfer with
  | returnValue e =>
    exact (Attempts.lift (hplan.valueReturn q hpq hq)).weaken fun t r _ _ h => ⟨h.1, .returnValue h.2⟩
  | leave =>
    exact Attempts.pure hq ⟨⟨by simp [Transfer.targets], by simp [Transfer.values]⟩, .leave⟩
  | goto targets =>
    refine (Attempts.ofExcept hq (Q := fun cs _ =>
      List.Forall₂ (fun b c => pairs.reverse.lookup b = some c) targets cs) fun cs h => ?_).bind
      fun cs r hqr hr hcs => ?_
    · refine (mapM_eq_ok h).imp fun x c hx => ?_
      cases hl : pairs.reverse.lookup x with
      | none => rw [hl] at hx; cases hx
      | some y =>
        rw [hl] at hx
        cases hx
        rfl
    · refine Attempts.pure hr ⟨⟨fun c hc => ?_, by simp [Transfer.values]⟩, .goto hcs⟩
      obtain ⟨x, _, hx⟩ := exists_left_of_forall₂ hcs hc
      exact hqr.within.hasBlock (hpairs _ (mem_of_lookup_reverse hx))

/-- The second pass changes ends only. -/
def Block.SameCode (old new : Block) : Prop :=
  new.label = old.label ∧ new.commands = old.commands

/-- What the second pass has done to `r` when it is through with the pairs `done`. -/
structure EndsSet (E : Transfer → Prop) (pairs : List (BlockRef × BlockRef)) (p r : Program)
    (done : List (BlockRef × BlockRef)) (result : Except Error PUnit × Program) : Prop where
  grows : r.Grows Block.SameCode result.2
  closed : result.2.Closed
  untouched : ∀ c, r.HasBlock c → c ∉ done.map Prod.snd → result.2.block c = r.block c
  copied : result.1 = .ok () → ∀ u ∈ done,
    Transfer.Copied E pairs (p.block u.1).transfer (result.2.block u.2).transfer

theorem Block.SameCode.trans (a b c : Block) (h : a.SameCode b) (k : b.SameCode c) :
    a.SameCode c :=
  ⟨k.1.trans h.1, k.2.trans h.2⟩

/-- Changes to blocks that `p` does not have continue `p`. -/
theorem Program.Extends.of_untouched {R : Block → Block → Prop} {r r' : Program}
    (hpr : p.Extends r) (h : r.Grows R r') (untouched : ∀ b, p.HasBlock b → r'.block b = r.block b) :
    p.Extends r' :=
  { Grows.trans (fun _ _ _ _ _ => trivial) (hpr.mono fun _ _ _ => trivial)
      (h.mono (S := fun _ _ => True) fun _ _ _ => trivial) with
    block := fun b hb => (untouched b hb).trans (hpr.block_eq hb) }

/-- Gives the copy of one block its end. -/
def setEnd (plan : CopyPlan) (owner : String) (pairs : List (BlockRef × BlockRef))
    (u : BlockRef × BlockRef) : Build PUnit := do
  let transfer ← plan.copyTransfer owner pairs.reverse u.1
  modify (Program.setTransfer u.2 transfer)

theorem endsSet_setEnd (hplan : plan.Faithful T E p) (owner : String)
    {pairs : List (BlockRef × BlockRef)} {u : BlockRef × BlockRef} (old : p.HasBlock u.1)
    (hu : u ∈ pairs) {r : Program} (hpr : p.Extends r) (hr : r.Closed)
    (hpairs : ∀ u ∈ pairs, r.HasBlock u.2) :
    EndsSet E pairs p r [u] ((setEnd plan owner pairs u).run r) := by
  obtain ⟨grows, closed, post⟩ :=
    attempts_copyTransfer hplan owner old hpr hr hpairs
  rw [setEnd, bind_run]
  generalize (plan.copyTransfer owner pairs.reverse u.1).run r = result at *
  obtain ⟨result, r₁⟩ := result
  have same : r.Grows Block.SameCode r₁ :=
    grows.mono fun _ _ heq => by rw [heq]; exact ⟨rfl, rfl⟩
  cases result with
  | error e =>
    -- what was added before the failure stays, and no end was set
    exact ⟨same, closed, fun c hc _ => grows.block_eq hc, fun h => by cases h⟩
  | ok t =>
    obtain ⟨ht, hcopied⟩ := post t rfl
    have hclone : r₁.HasBlock u.2 := grows.within.hasBlock (hpairs u hu)
    have set : r₁.Grows Block.SameCode (setTransfer u.2 t r₁) :=
      grows_modifyBlock (fun _ => ⟨rfl, rfl⟩) fun _ => ⟨rfl, rfl⟩
    refine ⟨same.trans Block.SameCode.trans set,
      closed_modifyBlock closed ⟨(closed.block hclone).commands, ht⟩, ?_, ?_⟩
    · intro c hc hcu
      exact (block_modifyBlock_of_ne (by simpa using hcu) _).trans (grows.block_eq hc)
    · intro _ v hv
      obtain rfl := List.mem_singleton.1 hv
      show Transfer.Copied E pairs _ ((modifyBlock v.2 _ r₁).block v.2).transfer
      rw [block_modifyBlock_self hclone]
      exact hcopied

/-- One pair after the other. -/
theorem endsSet_forM (hplan : plan.Faithful T E p) (owner : String)
    (pairs done : List (BlockRef × BlockRef))
    (old : ∀ u ∈ done, p.HasBlock u.1) (new : ∀ u ∈ done, ¬p.HasBlock u.2)
    (nodup : (done.map Prod.snd).Nodup) (sub : ∀ u ∈ done, u ∈ pairs) {r : Program}
    (hpr : p.Extends r) (hr : r.Closed) (hpairs : ∀ u ∈ pairs, r.HasBlock u.2) :
    EndsSet E pairs p r done ((done.forM (setEnd plan owner pairs)).run r) := by
  induction done generalizing r with
  | nil =>
    exact ⟨Grows.refl (fun _ => ⟨rfl, rfl⟩) r, hr, fun _ _ _ => rfl, by simp⟩
  | cons u us ih =>
    have k :=
      endsSet_setEnd hplan owner (old u (by simp)) (sub u (by simp)) hpr hr hpairs
    rw [List.forM, bind_run]
    generalize (setEnd plan owner pairs u).run r = result at *
    obtain ⟨result, r₁⟩ := result
    cases result with
    | error e =>
      exact ⟨k.grows, k.closed, fun c hc h => k.untouched c hc (by simp_all), fun h => by cases h⟩
    | ok _ =>
      -- only new blocks have changed, so `r₁` still continues `p`
      have hpr₁ : p.Extends r₁ := hpr.of_untouched k.grows fun b hb =>
        k.untouched b (hpr.within.hasBlock hb) fun h => new u (by simp) (by simp_all)
      have rest := ih (fun v hv => old v (by simp [hv])) (fun v hv => new v (by simp [hv]))
        (List.nodup_cons.1 nodup).2 (fun v hv => sub v (by simp [hv])) hpr₁ k.closed
        fun v hv => k.grows.within.hasBlock (hpairs v hv)
      refine ⟨k.grows.trans Block.SameCode.trans rest.grows, rest.closed, ?_, ?_⟩
      · intro c hc h
        rw [List.map_cons, List.mem_cons, not_or] at h
        exact (rest.untouched c (k.grows.within.hasBlock hc) h.2).trans
          (k.untouched c hc (by simpa using h.1))
      · intro hok v hv
        rcases List.mem_cons.1 hv with rfl | hv
        · -- the copies are different blocks, so the rest of the pass does not touch this one
          have := rest.untouched v.2 (k.grows.within.hasBlock (hpairs v (sub v (by simp))))
            (List.nodup_cons.1 nodup).1
          show Transfer.Copied E pairs _ (Program.block _ v.2).transfer
          exact this ▸ k.copied rfl v (by simp)
        · exact rest.copied hok v hv

/-! ## Both passes -/

/-- A copied block graph stands in new blocks and leaves all others alone. -/
theorem attempts_copyBlocks (hp : p.Closed) (hplan : plan.Faithful T E p) (owner : String)
    {bs : List BlockRef} (hbs : ∀ b ∈ bs, p.HasBlock b) :
    Attempts p (plan.copyBlocks owner bs) fun cs q => GraphCopied plan.label T E p bs cs q := by
  obtain ⟨grows, closed, code, -⟩ := yields_copyEach hp hplan hbs (Extends.refl p) hp
  -- the first pass cannot fail, and the second one starts where it ended
  have run : (plan.copyBlocks owner bs).run p =
      ((bs.zip (plan.copyEach bs p).1).forM (setEnd plan owner (bs.zip (plan.copyEach bs p).1)) >>=
        fun _ => pure (plan.copyEach bs p).1 : Build (List BlockRef)).run (plan.copyEach bs p).2 :=
    rfl
  generalize plan.copyEach bs p = result at *
  obtain ⟨cs, r⟩ := result
  have hcs : (bs.zip cs).map Prod.snd = cs := List.map_snd_zip (Nat.le_of_eq code.length_eq)
  obtain ⟨sameCode, closed', untouched, copied⟩ := endsSet_forM hplan owner
    (bs.zip cs) (bs.zip cs) (fun u hu => hbs _ (List.of_mem_zip hu).1)
    (fun u hu => code.fresh _ (List.of_mem_zip hu).2) (by rw [hcs]; exact code.nodup)
    (fun _ h => h) grows closed fun u hu => code.valid _ (List.of_mem_zip hu).2
  rw [hcs] at untouched
  have grows' := grows.of_untouched sameCode fun b hb =>
    untouched b (grows.within.hasBlock hb) fun h => code.fresh b h hb
  rw [bind_run] at run
  generalize ((bs.zip cs).forM (setEnd plan owner (bs.zip cs))).run r = result at *
  obtain ⟨_ | _, r'⟩ := result
  · exact ⟨by rw [run]; exact grows', by rw [run]; exact closed', fun a h => by rw [run] at h; cases h⟩
  · refine ⟨by rw [run]; exact grows', by rw [run]; exact closed', fun a h => ?_⟩
    rw [run] at h ⊢
    obtain rfl : cs = a := by cases h; rfl
    exact
      { length_eq := code.length_eq
        nodup := code.nodup
        fresh := code.fresh
        valid := fun c hc => sameCode.within.hasBlock (code.valid c hc)
        label := fun u hu => by
          have hc := code.valid u.2 (List.of_mem_zip hu).2
          exact (sameCode.block u.2 hc).1.trans (code.label u hu)
        commands := fun u hu => by
          have hc := code.valid u.2 (List.of_mem_zip hu).2
          exact (sameCode.commands_eq closed hc (sameCode.block u.2 hc).2).trans (code.commands u hu)
        transfer := copied rfl }

end

end AtomicMovers
