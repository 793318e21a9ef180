import AtomicMovers.Proofs.Registration
import AtomicMovers.Proofs.WellFormedOutput

/-!
# Names of obligations

The procedure of an obligation is named after its kind and the two actions, joined by bars. The name
tells the kind, since no kind has a bar in its stem (`procedureName_eq_iff`). It does not always tell
the two actions: if names of actions contain bars themselves, two pairs can read the same
(`NamesOverlap`).

Main statement: the procedures of a generated program have different names exactly if no two wanted
obligations of one kind overlap in this way (`procedureNames_nodup_iff`). `procedureNames_collide` is
a program with two actions where they do.
-/

namespace AtomicMovers

open Program

/-! ## Joined names -/

/-- The first name of the second pair is the longer one: it goes on with a bar and a middle part,
which the second name of the first pair starts with. So `a`, `b_c` and `a_b`, `c` overlap. -/
def NamesOverlap (first second first' second' : String) : Prop :=
  ∃ middle, first' = first ++ "_" ++ middle ∧ second = middle ++ "_" ++ second'

/-- Two ways to split a list at an element. -/
theorem append_cons_eq_iff {α : Type} {c : α} {xs ys xs' ys' : List α} :
    xs ++ c :: ys = xs' ++ c :: ys' ↔
      (xs = xs' ∧ ys = ys') ∨ (∃ ms, xs' = xs ++ c :: ms ∧ ys = ms ++ c :: ys') ∨
        ∃ ms, xs = xs' ++ c :: ms ∧ ys' = ms ++ c :: ys := by
  constructor
  · intro h
    rcases List.append_eq_append_iff.1 h with ⟨ms, hxs, hys⟩ | ⟨ms, hxs, hys⟩
    · cases ms with
      | nil => exact .inl ⟨by simpa using hxs.symm, (List.cons.inj hys).2⟩
      | cons m ms =>
        obtain ⟨rfl, rest⟩ := List.cons.inj hys
        exact .inr (.inl ⟨ms, hxs, rest⟩)
    · cases ms with
      | nil => exact .inl ⟨by simpa using hxs, (List.cons.inj hys).2.symm⟩
      | cons m ms =>
        obtain ⟨rfl, rest⟩ := List.cons.inj hys
        exact .inr (.inr ⟨ms, hxs, rest⟩)
  · rintro (⟨rfl, rfl⟩ | ⟨ms, rfl, rfl⟩ | ⟨ms, rfl, rfl⟩) <;> simp

theorem toList_joined (a b : String) : (a ++ "_" ++ b).toList = a.toList ++ '_' :: b.toList := by
  simp

/-- A text is two names joined by a bar. -/
theorem eq_joined_iff {s a b : String} :
    s = a ++ "_" ++ b ↔ s.toList = a.toList ++ '_' :: b.toList := by
  rw [← toList_joined, String.toList_inj]

theorem namesOverlap_iff {a b a' b' : String} : NamesOverlap a b a' b' ↔
    ∃ ms, a'.toList = a.toList ++ '_' :: ms ∧ b.toList = ms ++ '_' :: b'.toList := by
  simp only [NamesOverlap, eq_joined_iff]
  constructor
  · rintro ⟨middle, h⟩
    exact ⟨middle.toList, h⟩
  · rintro ⟨ms, h⟩
    refine ⟨String.ofList ms, ?_⟩
    rw [String.toList_ofList]
    exact h

/-- Pairs of names that read the same are the same or overlap. -/
theorem joined_eq_iff {a b a' b' : String} : a ++ "_" ++ b = a' ++ "_" ++ b' ↔
    (a = a' ∧ b = b') ∨ NamesOverlap a b a' b' ∨ NamesOverlap a' b' a b := by
  rw [eq_joined_iff, toList_joined, append_cons_eq_iff, String.toList_inj, String.toList_inj,
    ← namesOverlap_iff, ← namesOverlap_iff]

theorem not_namesOverlap_self (a b : String) : ¬NamesOverlap a b a b := by
  rw [namesOverlap_iff]
  rintro ⟨ms, h, -⟩
  have lengths := congrArg List.length h
  simp at lengths

/-! ## Names of procedures -/

namespace ObligationKind

theorem bar_not_mem_stem (kind : ObligationKind) : '_' ∉ kind.stem.toList := by
  cases kind <;> decide

theorem stem_injective {kind kind' : ObligationKind} (h : kind.stem.toList = kind'.stem.toList) :
    kind = kind' := by
  cases kind <;> cases kind' <;> first | rfl | exact absurd h (by decide)

/-- The name tells the kind and the joined names. -/
theorem procedureName_eq_iff {kind kind' : ObligationKind} {a b a' b' : AtomicAction} :
    kind.procedureName a b = kind'.procedureName a' b' ↔
      kind = kind' ∧ a.name ++ "_" ++ b.name = a'.name ++ "_" ++ b'.name := by
  have name (k : ObligationKind) (x y : AtomicAction) :
      k.procedureName x y = k.stem ++ "_" ++ (x.name ++ "_" ++ y.name) := by
    simp only [procedureName, String.append_assoc]
  rw [name, name]
  constructor
  · intro h
    rw [eq_joined_iff, toList_joined] at h
    obtain ⟨stems, rest⟩ := append_cons_injective kind.bar_not_mem_stem kind'.bar_not_mem_stem h
    exact ⟨stem_injective stems, String.toList_inj.1 rest⟩
  · rintro ⟨rfl, h⟩
    rw [h]

end ObligationKind

/-- The names of the declared procedures, in order. -/
def Program.procedureNames (p : Program) : List String :=
  p.procedureRefs.map fun r => (p.procedure r).name

namespace Ledger

variable {input : Program} {l m : Ledger}

/-- The name of the procedure of an obligation. -/
def nameOf (l : Ledger) (o : Obligation) : String :=
  o.kind.procedureName (l.action o.first) (l.action o.second)

/-- Two obligations of one kind about actions whose names overlap. -/
def Overlapping (l : Ledger) (o o' : Obligation) : Prop :=
  o.kind = o'.kind ∧ NamesOverlap (l.action o.first).name (l.action o.second).name
    (l.action o'.first).name (l.action o'.second).name

/-- Where procedures have different names, so have actions. -/
theorem names_nodup_of_register {ownership : Ownership}
    (run : (register input).run (ofProgram input ownership) = (.ok (), l))
    (names : input.procedureNames.Nodup) : (l.actions.toList.map AtomicAction.name).Nodup := by
  obtain ⟨-, as, built, hactions⟩ := builds_of_register run
  have sub : List.Sublist (l.actions.toList.map AtomicAction.name) input.procedureNames := by
    rw [hactions, List.map_append, built.names_eq]
    have sub := (taggedBodies_procedures input).map fun r => (input.procedure r).name
    rw [List.map_map] at sub
    exact sub
  exact names.sublist sub

theorem action_injective (names : (l.actions.toList.map AtomicAction.name).Nodup)
    {a b : ActionRef} (ha : a ∈ l.actionRefs) (hb : b ∈ l.actionRefs)
    (h : (l.action a).name = (l.action b).name) : a = b := by
  rw [mem_actionRefs] at ha hb
  have ha' : a.index < (l.actions.toList.map AtomicAction.name).length := by simpa using ha
  have hb' : b.index < (l.actions.toList.map AtomicAction.name).length := by simpa using hb
  have same : (l.actions.toList.map AtomicAction.name)[a.index] =
      (l.actions.toList.map AtomicAction.name)[b.index] := by
    simpa [action, ha, hb] using h
  have index := (List.Nodup.getElem_inj_iff names).1 same
  cases a
  cases b
  exact congrArg ActionRef.mk index

/-- Different obligations have different names unless they overlap. -/
theorem nameOf_eq_iff (names : (l.actions.toList.map AtomicAction.name).Nodup) {o o' : Obligation}
    (ho : o.first ∈ l.actionRefs ∧ o.second ∈ l.actionRefs)
    (ho' : o'.first ∈ l.actionRefs ∧ o'.second ∈ l.actionRefs) :
    l.nameOf o = l.nameOf o' ↔ o = o' ∨ l.Overlapping o o' ∨ l.Overlapping o' o := by
  rw [nameOf, nameOf, ObligationKind.procedureName_eq_iff, joined_eq_iff, Overlapping, Overlapping,
    eq_comm (a := o'.kind), ← and_or_left, and_or_left]
  refine or_congr ⟨?_, ?_⟩ Iff.rfl
  · rintro ⟨kinds, firsts, seconds⟩
    have hfirst := action_injective names ho.1 ho'.1 firsts
    have hsecond := action_injective names ho.2 ho'.2 seconds
    cases o
    cases o'
    simp only [Obligation.mk.injEq]
    exact ⟨kinds, hfirst, hsecond⟩
  · rintro rfl
    exact ⟨rfl, rfl, rfl⟩

/-- After all that is wanted was entered, the declared procedures are named for it, in order. -/
theorem procedureNames_of_requests (hinput : input.Closed) {ownership : Ownership}
    (hl : (register input).run (ofProgram input ownership) = (.ok (), l))
    (run : (l.wanted.forM request).run l = (.ok (), m)) :
    ∃ keys : List Obligation, keys.Nodup ∧ (∀ o, o ∈ keys ↔ o ∈ l.wanted) ∧
      m.finish.procedureNames = keys.map l.nameOf := by
  have registered : Steps input [] _ _ := (registers_register (ofProgram input ownership)).steps
  rw [hl] at registered
  have valid : ∀ o ∈ l.wanted, o.first ∈ l.actionRefs ∧ o.second ∈ l.actionRefs := fun o ho =>
    ⟨(mem_wanted.1 ho).1, (mem_wanted.1 ho).2.1⟩
  have entered : Steps input _ l _ := steps_requests valid
  rw [granted_eq_of_ok run, run] at entered
  obtain ⟨matched, orderly⟩ := orderly_ofProgram input ownership
  have after := ((registered.trans entered).orderly hinput (assembled_ofProgram input ownership)
    matched orderly).2
  simp only [List.nil_append] at after
  have actions := (enters_of_requests valid run).actions_eq
  have refs : m.finish.procedureRefs = m.program.procedureRefs := by
    rw [procedureRefs, finish, Ownership.declarations_strip, procedureRefs]
  refine ⟨m.entries.map Prod.fst, after.keys_nodup, fun o => ?_, ?_⟩
  · rw [after.requested, List.mem_eraseDups]
  rw [procedureNames, refs, after.declared, List.map_map, List.map_map]
  refine List.map_congr_left fun x hx => ?_
  simp only [Function.comp_apply, procedure_finish, (after.named x hx).2.2, nameOf, action, actions]

end Ledger

namespace Pass

open Ledger

/-- The procedures of the generated program have different names exactly if no two wanted obligations
overlap. -/
theorem procedureNames_nodup_iff {input q : Program} (hinput : input.Closed)
    (names : input.procedureNames.Nodup) {ownership : Ownership} {ds : List Diagnostic}
    (run : obligations input ownership = (.ok (some q), ds)) :
    ∃ l, (register input).run (ofProgram input ownership) = (.ok (), l) ∧
      (q.procedureNames.Nodup ↔ ∀ o ∈ l.wanted, ∀ o' ∈ l.wanted, ¬l.Overlapping o o') := by
  obtain ⟨l, m, hl, hm, rfl⟩ := exists_of_obligations run
  refine ⟨l, hl, ?_⟩
  have actionNames := names_nodup_of_register hl names
  have valid {o : Obligation} (ho : o ∈ l.wanted) :
      o.first ∈ l.actionRefs ∧ o.second ∈ l.actionRefs :=
    ⟨(mem_wanted.1 ho).1, (mem_wanted.1 ho).2.1⟩
  obtain ⟨keys, nodup, mem_keys, hnames⟩ := procedureNames_of_requests hinput hl hm
  rw [hnames, List.nodup_map_iff_inj_on nodup]
  simp only [mem_keys]
  constructor
  · intro h o ho o' ho' overlap
    have same := h o ho o' ho' ((nameOf_eq_iff actionNames (valid ho) (valid ho')).2
      (.inr (.inl overlap)))
    subst same
    exact not_namesOverlap_self _ _ overlap.2
  · intro h o ho o' ho' same
    rcases (nameOf_eq_iff actionNames (valid ho) (valid ho')).1 same with heq | overlap | overlap
    · exact heq
    · exact absurd overlap (h o ho o' ho')
    · exact absurd overlap (h o' ho' o ho)

/-- All obligations about the one action of the account have names of their own. -/
theorem procedureNames_nodup_iff_deposit :
    Account.obligations.procedureNames = ["CommutativityChecker_deposit_deposit",
        "GatePreservationChecker_deposit_deposit", "FailurePreservationChecker_deposit_deposit"] ∧
      ∃ l, (register Account.tagged).run (ofProgram Account.tagged (.ofProgram Account.tagged)) =
          (.ok (), l) ∧
        ∀ o ∈ l.wanted, ∀ o' ∈ l.wanted, ¬l.Overlapping o o' := by
  have run : obligations Account.tagged (.ofProgram Account.tagged) =
      (.ok (some Account.obligations), _) := eq_ok_some_of_isSome (by decide +kernel)
  have names : Account.obligations.procedureNames = ["CommutativityChecker_deposit_deposit",
      "GatePreservationChecker_deposit_deposit", "FailurePreservationChecker_deposit_deposit"] := by
    decide +kernel
  obtain ⟨l, hl, h⟩ := procedureNames_nodup_iff Account.closed_tagged (by decide +kernel) run
  refine ⟨names, l, hl, h.1 ?_⟩
  rw [names]
  decide

end Pass

/-! ## Two actions that overlap with themselves -/

namespace Payments

/-- Two procedures, of which the second is named like the first twice. -/
def program : Program where
  exprs := ⟨#[.lit (.bool true)]⟩
  blocks := #[⟨"entry", [], .returnValue ⟨0⟩⟩, ⟨"entry", [], .returnValue ⟨0⟩⟩]
  procedures := #[
    { name := "pay"
      ensures := [{ attributes := ["both"], condition := .body ⟨[], [⟨0⟩]⟩ }] },
    { name := "pay_pay"
      ensures := [{ attributes := ["atomic"], condition := .body ⟨[], [⟨1⟩]⟩ }] }]
  declarations := [.procedure ⟨0⟩, .procedure ⟨1⟩]

end Payments

namespace Pass

/-- Whether `pay` or `pay_pay` comes first, the obligations about the two have the same names. -/
theorem procedureNames_collide :
    Payments.program.Closed ∧ Payments.program.procedureRefs.Nodup ∧
      Payments.program.procedureNames.Nodup ∧
      ∃ q ds, obligations Payments.program (.ofProgram Payments.program) = (.ok (some q), ds) ∧
        ¬q.procedureNames.Nodup := by
  refine ⟨by decide +kernel, by decide +kernel, by decide +kernel, _, _,
    eq_ok_some_of_isSome (by decide +kernel), by decide +kernel⟩

end Pass

end AtomicMovers
