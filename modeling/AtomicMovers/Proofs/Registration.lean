import AtomicMovers.Proofs.Appending

/-!
# What registering builds

The actions that a successful registration adds are made of the tagged bodies of the input, one after
the other (`builds_of_register`); `Program.taggedBodies` lists the bodies and `Builds` says what
became of them. In the other direction, a program with one procedure can be registered if the body of
this procedure can be built (`register_of_builds`).
-/

namespace AtomicMovers

/-- A body that makes an action of a procedure. -/
structure TaggedBody where
  procedure : ProcRef
  mover : Mover
  code : Body
  deriving DecidableEq

/-- The body that makes an action of the procedure. One without tagged postconditions has none, and
so has one whose first tagged postcondition is a formula. -/
def Program.taggedBody? (input : Program) (r : ProcRef) : Option TaggedBody :=
  match Ledger.taggedConditions (input.procedure r) with
  | (mover, .body code) :: _ => some ⟨r, mover, code⟩
  | _ => none

/-- The bodies of all declared procedures, in order. -/
def Program.taggedBodies (input : Program) : List TaggedBody :=
  input.procedureRefs.filterMap input.taggedBody?

/-- The bodies `ts` become the actions `as`, one after the other. -/
inductive Builds : Program → List TaggedBody → List AtomicAction → Program → Prop where
  | nil (p : Program) : Builds p [] [] p
  | cons {p q s : Program} {t : TaggedBody} {ts : List TaggedBody} {a : AtomicAction}
    {as : List AtomicAction}
    (run : (AtomicAction.ofBody t.procedure t.code t.mover).run p = (.ok a, q))
    (rest : Builds q ts as s) : Builds p (t :: ts) (a :: as) s

namespace Program

variable {input : Program}

theorem tagged_of_taggedBody? {r : ProcRef} {t : TaggedBody} (h : input.taggedBody? r = some t) :
    t.procedure = r ∧
      (t.mover, .body t.code) ∈ Ledger.taggedConditions (input.procedure r) := by
  unfold taggedBody? at h
  split at h
  · rename_i heq
    cases h
    rw [heq]
    exact ⟨rfl, List.mem_cons_self⟩
  · cases h

theorem mem_taggedBodies {t : TaggedBody} (h : t ∈ input.taggedBodies) :
    t.procedure ∈ input.procedureRefs ∧
      (t.mover, .body t.code) ∈ Ledger.taggedConditions (input.procedure t.procedure) := by
  obtain ⟨r, hr, ht⟩ := List.mem_filterMap.1 h
  obtain ⟨rfl, hcode⟩ := tagged_of_taggedBody? ht
  exact ⟨hr, hcode⟩

theorem taggedBody?_of_mem {t : TaggedBody} (h : t ∈ input.taggedBodies) :
    input.taggedBody? t.procedure = some t := by
  obtain ⟨r, _, ht⟩ := List.mem_filterMap.1 h
  rw [(tagged_of_taggedBody? ht).1, ht]

theorem taggedBodies_procedures (input : Program) :
    List.Sublist (input.taggedBodies.map TaggedBody.procedure) input.procedureRefs := by
  unfold taggedBodies
  generalize input.procedureRefs = rs
  induction rs with
  | nil => exact List.Sublist.refl _
  | cons r rs ih =>
    rw [List.filterMap_cons]
    split
    · exact ih.cons r
    · rename_i t ht
      rw [List.map_cons, (tagged_of_taggedBody? ht).1]
      exact ih.cons_cons r

end Program

namespace Builds

variable {p q s : Program} {ts ts' : List TaggedBody} {as as' : List AtomicAction}

theorem append (h : Builds p ts as q) (k : Builds q ts' as' s) :
    Builds p (ts ++ ts') (as ++ as') s := by
  induction h with
  | nil p => exact k
  | cons run _ ih => exact .cons run (ih k)

theorem top_eq (h : Builds p ts as q) : q.top = p.top := by
  induction h with
  | nil p => rfl
  | @cons p q s t ts a as run _ ih =>
    have kept := keepsTop_ofBody t.procedure t.code t.mover p
    rw [show (AtomicAction.ofBody t.procedure t.code t.mover).run p = _ from run] at kept
    exact ih.trans kept

/-- An action goes by the name of its procedure. -/
theorem names_eq (h : Builds p ts as q) :
    as.map AtomicAction.name = ts.map fun t => (p.procedure t.procedure).name := by
  induction h with
  | nil p => rfl
  | @cons p q s t ts a as run _ ih =>
    obtain ⟨_, _, _, _, rfl⟩ := eq_of_ofBody run
    have kept := keepsTop_ofBody t.procedure t.code t.mover p
    rw [show (AtomicAction.ofBody t.procedure t.code t.mover).run p = _ from run] at kept
    have procedures : q.procedures = p.procedures := congrArg TopLevel.procedures kept
    rw [List.map_cons, List.map_cons, ih]
    simp only [Program.procedure, procedures]

end Builds

namespace Ledger

variable {input : Program} {l m : Ledger}

/-! ## One procedure -/

theorem registerProcedure_run_untagged {r : ProcRef}
    (h : taggedConditions (input.procedure r) = []) :
    (registerProcedure input r).run l = (.ok (), l) := by
  simp only [registerProcedure, h]
  rfl

/-- A procedure with one tagged postcondition is registered by it. -/
theorem registerProcedure_run_single {r : ProcRef} {mover : Mover} {condition : Condition}
    (h : taggedConditions (input.procedure r) = [(mover, condition)]) :
    (registerProcedure input r).run l =
      (registerCondition (input.procedure r).name r mover condition).run l := by
  simp only [registerProcedure, h, bind_run]
  rcases (registerCondition (input.procedure r).name r mover condition).run l with ⟨_ | _, _⟩ <;> rfl

/-- A second tagged postcondition is an error, whatever the first one does. -/
theorem registerProcedure_run_several {r : ProcRef} {x y : Mover × Condition}
    {rest : List (Mover × Condition)} (h : taggedConditions (input.procedure r) = x :: y :: rest) :
    (registerProcedure input r).run l ≠ (.ok (), m) := by
  simp only [registerProcedure, h, bind_run]
  rcases (registerCondition (input.procedure r).name r x.1 x.2).run l with ⟨_ | _, _⟩ <;>
    exact fun run => by cases run

theorem registerCondition_run_body {name : String} {r : ProcRef} {mover : Mover} {code : Body} :
    (registerCondition name r mover (.body code)).run l =
      match (AtomicAction.ofBody r code mover).run l.program with
      | (.ok a, q) => (.ok (), { l with program := q, actions := l.actions.push a })
      | (.error e, q) => (.error e, { l with program := q }) := by
  rw [registerCondition, bind_run, run_onProgram]
  rcases (AtomicAction.ofBody r code mover).run l.program with ⟨_ | _, _⟩ <;> rfl

/-- Registering one procedure adds the action of its body, if it has one. -/
theorem builds_of_registerProcedure {r : ProcRef}
    (run : (registerProcedure input r).run l = (.ok (), m)) :
    (taggedConditions (input.procedure r)).length ≤ 1 ∧
      ∃ as, Builds l.program (input.taggedBody? r).toList as m.program ∧
        m.actions.toList = l.actions.toList ++ as := by
  unfold Program.taggedBody?
  match h : taggedConditions (input.procedure r) with
  | [] =>
    rw [registerProcedure_run_untagged h] at run
    cases run
    exact ⟨Nat.zero_le _, [], .nil _, (List.append_nil _).symm⟩
  | [(mover, .formula e)] =>
    rw [registerProcedure_run_single h] at run
    cases run
    exact ⟨Nat.le_refl _, [], .nil _, (List.append_nil _).symm⟩
  | [(mover, .body code)] =>
    rw [registerProcedure_run_single h, registerCondition_run_body] at run
    generalize hbuilt : (AtomicAction.ofBody r code mover).run l.program = result at run
    obtain ⟨_ | a, q⟩ := result
    · cases run
    · cases run
      exact ⟨Nat.le_refl _, [a], .cons hbuilt (.nil _), Array.toList_push ..⟩
  | _ :: _ :: _ => exact absurd run (registerProcedure_run_several h)

/-- A procedure with at most one tagged postcondition can be registered if its body can be built. -/
theorem registerProcedure_of_builds {r : ProcRef}
    (single : (taggedConditions (input.procedure r)).length ≤ 1) {as : List AtomicAction}
    {q : Program} (h : Builds l.program (input.taggedBody? r).toList as q) :
    ∃ m, (registerProcedure input r).run l = (.ok (), m) ∧ m.program = q ∧
      m.actions.toList = l.actions.toList ++ as := by
  unfold Program.taggedBody? at h
  match htagged : taggedConditions (input.procedure r) with
  | [] =>
    rw [htagged] at h
    cases h
    exact ⟨l, registerProcedure_run_untagged htagged, rfl, (List.append_nil _).symm⟩
  | [(mover, .formula e)] =>
    rw [htagged] at h
    cases h
    exact ⟨_, registerProcedure_run_single htagged, rfl, (List.append_nil _).symm⟩
  | [(mover, .body code)] =>
    rw [htagged] at h
    cases h with
    | cons built rest =>
      cases rest
      rw [registerProcedure_run_single htagged, registerCondition_run_body, built]
      exact ⟨_, rfl, rfl, Array.toList_push ..⟩
  | _ :: _ :: _ =>
    rw [htagged] at single
    simp at single

/-! ## All procedures -/

/-- A successful registration built all tagged bodies, in order, and no procedure has two tagged
postconditions. -/
theorem builds_of_register (run : (register input).run l = (.ok (), m)) :
    (∀ r ∈ input.procedureRefs, (taggedConditions (input.procedure r)).length ≤ 1) ∧
      ∃ as, Builds l.program input.taggedBodies as m.program ∧
        m.actions.toList = l.actions.toList ++ as := by
  unfold register at run
  unfold Program.taggedBodies
  generalize input.procedureRefs = rs at run ⊢
  induction rs generalizing l with
  | nil =>
    cases run
    exact ⟨by simp, [], .nil _, (List.append_nil _).symm⟩
  | cons r rs ih =>
    rw [List.forM, bind_run] at run
    generalize hfirst : (registerProcedure input r).run l = result at run
    obtain ⟨_ | _, l'⟩ := result
    · cases run
    · obtain ⟨single, as, built, hactions⟩ := builds_of_registerProcedure hfirst
      obtain ⟨singles, as', built', hactions'⟩ := ih run
      refine ⟨List.forall_mem_cons.2 ⟨single, singles⟩, as ++ as', ?_, ?_⟩
      · have split : (r :: rs).filterMap input.taggedBody? =
            (input.taggedBody? r).toList ++ rs.filterMap input.taggedBody? := by
          cases h : input.taggedBody? r <;> simp [h]
        rw [split]
        exact built.append built'
      · rw [hactions', hactions, List.append_assoc]

/-- The only declared procedure can be registered if its body can be built. -/
theorem register_of_builds {r : ProcRef} (only : input.procedureRefs = [r])
    (single : (taggedConditions (input.procedure r)).length ≤ 1) {as : List AtomicAction}
    {q : Program} (h : Builds l.program (input.taggedBody? r).toList as q) :
    ∃ m, (register input).run l = (.ok (), m) ∧ m.program = q ∧
      m.actions.toList = l.actions.toList ++ as := by
  obtain ⟨m, run, hm⟩ := registerProcedure_of_builds single h
  refine ⟨m, ?_, hm⟩
  rw [register, only, List.forM, bind_run, run]
  rfl

end Ledger

end AtomicMovers
