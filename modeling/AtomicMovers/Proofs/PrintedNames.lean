import AtomicMovers.Proofs.Entering
import AtomicMovers.Proofs.RenamedTexts

/-!
# Names in texts

A text is made of fixed words and of names of variables, one for each mention (`Spells`). Of all
texts of the printer this is shown once per kind of syntax, so a variable has one name throughout a
text.

Names are given at the first mention, and each is free when it is given: among the names that are
tried there is always a free one (`freshName_spec`). What every scope keeps (`NameScope.Sound`) is
that no two variables have the same name, that declared globals and constants have their own, and
that no other variable has a name that is declared. The main statement is `printed_names_apart`.
-/

namespace AtomicMovers

open Program

/-! ## Free names -/

theorem toList_toString (n : Nat) : (toString n).toList = Nat.toDigits 10 n := by
  rw [Nat.toString_eq_ofList_toDigits, String.toList_ofList]

theorem isDigit_of_mem_toString {n : Nat} {c : Char} (h : c ∈ (toString n).toList) : c.isDigit := by
  rw [toList_toString] at h
  exact Nat.isDigit_of_mem_toDigits (by omega) (by omega) h

theorem chainName_injective (base : String) {i j : Nat}
    (h : chainName base i = chainName base j) : i = j := by
  have longer (k : Nat) : base ≠ base ++ "_" ++ toString (k + 1) := by
    intro heq
    have lengths := congrArg String.length heq
    simp only [String.length_append] at lengths
    have bar : "_".length = 1 := rfl
    omega
  cases i with
  | zero =>
    cases j with
    | zero => rfl
    | succ j => exact absurd h (longer j)
  | succ i =>
    cases j with
    | zero => exact absurd h.symm (longer i)
    | succ j =>
      have texts := congrArg String.toList h
      simp only [chainName, String.toList_append] at texts
      have digits := congrArg (Nat.ofDigitChars 10 · 0) (List.append_cancel_left texts)
      simpa [Nat.toString_eq_ofList_toDigits] using digits

/-- The first names of a chain cannot all be taken. -/
theorem exists_free (taken : List String) (base : String) :
    ∃ k ≤ taken.length, chainName base k ∉ taken := by
  by_contra none
  have distinct : ((List.range (taken.length + 1)).map (chainName base)).Nodup :=
    List.nodup_range.map fun i j => chainName_injective base
  have all : (List.range (taken.length + 1)).map (chainName base) ⊆ taken := by
    intro name hname
    obtain ⟨k, hk, rfl⟩ := List.mem_map.1 hname
    by_contra free
    exact none ⟨k, Nat.le_of_lt_succ (List.mem_range.1 hk), free⟩
  have lengths := distinct.length_le_of_subset all
  rw [List.length_map, List.length_range] at lengths
  omega

/-- The search for a free name ends with the first one of the chain. -/
theorem freshName_spec (taken : List String) (base : String) :
    ∃ k ≤ taken.length, freshName taken base = chainName base k ∧ chainName base k ∉ taken ∧
      ∀ j < k, chainName base j ∈ taken := by
  unfold freshName
  rw [List.find?_map]
  cases hfind : (List.range (taken.length + 1)).find? ((· ∉ taken) ∘ chainName base) with
  | none =>
    obtain ⟨k, hk, free⟩ := exists_free taken base
    have := List.find?_eq_none.1 hfind k (List.mem_range.2 (Nat.lt_succ_of_le hk))
    exact absurd (by simpa using this) free
  | some k =>
    obtain ⟨free, hk, first⟩ := List.find?_range_eq_some.1 hfind
    exact ⟨k, Nat.le_of_lt_succ (List.mem_range.1 hk), rfl, by simpa using free,
      fun j hj => by simpa using first j hj⟩

theorem freshName_not_mem (taken : List String) (base : String) : freshName taken base ∉ taken := by
  obtain ⟨k, -, hname, free, -⟩ := freshName_spec taken base
  rw [hname]
  exact free

/-! ## Scopes -/

/-- The names that are declared: those of globals, constants and functions. -/
def Program.declaredNames (p : Program) : List String :=
  p.namedRefs.map (fun v => (p.var v).name) ++ p.functionNames

/-- What holds of the names that are given while a text is written. -/
structure NameScope.Sound (p : Program) (s : NameScope) : Prop where
  /-- Declared globals and constants have their own names. -/
  own : ∀ v ∈ p.namedRefs, s.names.lookup v = some (p.var v).name
  declared : ∀ name ∈ p.declaredNames, name ∈ s.taken
  taken : ∀ v name, s.names.lookup v = some name → name ∈ s.taken
  /-- No two variables have the same name. -/
  injective : ∀ v w name, s.names.lookup v = some name → s.names.lookup w = some name → v = w
  /-- Other variables have names that are not declared. -/
  fresh : ∀ v name, s.names.lookup v = some name → v ∉ p.namedRefs → name ∉ p.declaredNames

namespace NameScope

section Start

variable (p : Program)

/-- What the declarations put into a scope: their names are looked up before all others. -/
theorem lookup_enter (ds : List Declaration) (s : NameScope) (v : VarRef) :
    (ds.foldl (enter p) s).names.lookup v =
      if v ∈ ds.filterMap Declaration.named? then some (p.var v).name else s.names.lookup v := by
  induction ds generalizing s with
  | nil => simp
  | cons d ds ih =>
    rw [List.foldl_cons, ih]
    have bound (w : VarRef) : (s.bindName w (p.var w).name).names.lookup v =
        if v = w then some (p.var v).name else s.names.lookup v := by
      rw [bindName, List.lookup_cons]
      by_cases h : v = w
      · simp [h]
      · simp [h, beq_false_of_ne h]
    cases d <;> simp only [enter, takeName, bound, List.filterMap_cons, Declaration.named?,
      List.mem_cons]
    all_goals
      by_cases h : v ∈ ds.filterMap Declaration.named? <;> simp [h]

/-- All names of the declarations are taken. -/
theorem mem_taken_enter (ds : List Declaration) (s : NameScope) {name : String}
    (h : name ∈ s.taken ∨ name ∈ (ds.filterMap Declaration.named?).map (fun v => (p.var v).name) ++
      (ds.filterMap Declaration.function?).map FunctionSig.name) :
    name ∈ (ds.foldl (enter p) s).taken := by
  induction ds generalizing s with
  | nil => simpa using h
  | cons d ds ih =>
    apply ih
    cases d <;> simp only [enter, takeName, bindName, List.filterMap_cons, Declaration.named?,
      Declaration.function?, List.map_cons, List.mem_append, List.mem_cons] at h ⊢ <;> tauto

/-- The scope that a text starts with. -/
theorem sound_ofProgram
    (distinct : ∀ v ∈ p.namedRefs, ∀ w ∈ p.namedRefs, (p.var v).name = (p.var w).name → v = w) :
    (ofProgram p).Sound p := by
  have lookup (v : VarRef) : (ofProgram p).names.lookup v =
      if v ∈ p.namedRefs then some (p.var v).name else none := lookup_enter p _ {} v
  have named {v : VarRef} {name : String} (h : (ofProgram p).names.lookup v = some name) :
      v ∈ p.namedRefs ∧ (p.var v).name = name := by
    rw [lookup] at h
    split at h
    · exact ⟨‹_›, Option.some.inj h⟩
    · cases h
  have declared : ∀ name ∈ p.declaredNames, name ∈ (ofProgram p).taken := fun name h =>
    mem_taken_enter p _ {} (.inr h)
  refine ⟨fun v hv => by rw [lookup, if_pos hv], declared, fun v name h => ?_,
    fun v w name h h' => ?_, fun v name h hv => absurd (named h).1 hv⟩
  · obtain ⟨hv, rfl⟩ := named h
    exact declared _ (List.mem_append.2 (.inl (List.mem_map.2 ⟨v, hv, rfl⟩)))
  · obtain ⟨hv, hname⟩ := named h
    obtain ⟨hw, hname'⟩ := named h'
    exact distinct v hv w hw (hname.trans hname'.symm)

end Start

variable {p : Program} {s : NameScope}

/-- Naming a variable leaves the names of others alone. -/
theorem lookup_giveName (s : NameScope) (v w : VarRef) :
    (s.giveName p v).names.lookup w =
      if w = v then some ((s.names.lookup v).getD (freshName s.taken (p.var v).shownName))
      else s.names.lookup w := by
  unfold giveName
  cases hv : s.names.lookup v with
  | some name =>
    by_cases h : w = v
    · subst h
      simp [hv]
    · simp [h]
  | none =>
    simp only [bindName, List.lookup_cons]
    by_cases h : w = v
    · simp [h]
    · simp [h, beq_false_of_ne h]

/-- A name that was given stays. -/
theorem lookup_giveName_of_some {v w : VarRef} {name : String} (h : s.names.lookup w = some name) :
    (s.giveName p v).names.lookup w = some name := by
  rw [lookup_giveName]
  split
  · rename_i heq
    rw [← heq, h]
    rfl
  · exact h

theorem lookup_giveNames_of_some {w : VarRef} {name : String} (vs : List VarRef)
    (h : s.names.lookup w = some name) : (s.giveNames p vs).names.lookup w = some name := by
  induction vs generalizing s with
  | nil => exact h
  | cons v vs ih => exact ih (lookup_giveName_of_some h)

theorem exists_name_giveName (s : NameScope) (v : VarRef) :
    ∃ name, (s.giveName p v).names.lookup v = some name := by
  rw [lookup_giveName, if_pos rfl]
  exact ⟨_, rfl⟩

/-- Everything that is mentioned has a name. -/
theorem exists_name_giveNames {vs : List VarRef} {v : VarRef} (hv : v ∈ vs) (s : NameScope) :
    ∃ name, (s.giveNames p vs).names.lookup v = some name := by
  obtain ⟨before, after, rfl⟩ := List.append_of_mem hv
  obtain ⟨name, hname⟩ := exists_name_giveName (p := p) (s.giveNames p before) v
  refine ⟨name, ?_⟩
  rw [giveNames, List.foldl_append, List.foldl_cons]
  exact lookup_giveNames_of_some after hname

/-- Mentions that come later do not change a name. -/
theorem nameOf_giveNames_append {vs : List VarRef} {v : VarRef} (hv : v ∈ vs) (ws : List VarRef)
    (s : NameScope) :
    (s.giveNames p (vs ++ ws)).nameOf p v = (s.giveNames p vs).nameOf p v := by
  obtain ⟨name, hname⟩ := exists_name_giveNames (p := p) hv s
  have later := lookup_giveNames_of_some (p := p) ws hname
  have split : s.giveNames p (vs ++ ws) = (s.giveNames p vs).giveNames p ws := List.foldl_append
  rw [split, nameOf, nameOf, hname, later]

/-- Naming one more variable keeps the scope sound. -/
theorem Sound.giveName (h : s.Sound p) (v : VarRef) : (s.giveName p v).Sound p := by
  cases hv : s.names.lookup v with
  | some name =>
    rw [NameScope.giveName, hv]
    exact h
  | none =>
    have free := freshName_not_mem s.taken (p.var v).shownName
    have lookup (w : VarRef) : (s.giveName p v).names.lookup w =
        if w = v then some (freshName s.taken (p.var v).shownName) else s.names.lookup w := by
      rw [lookup_giveName, hv]
      rfl
    have grown : (s.giveName p v).taken = freshName s.taken (p.var v).shownName :: s.taken := by
      rw [NameScope.giveName, hv]
      rfl
    refine ⟨fun w hw => lookup_giveName_of_some (h.own w hw), fun name hname => ?_,
      fun w name hw => ?_, fun w w' name hw hw' => ?_, fun w name hw hnamed => ?_⟩
    · rw [grown]
      exact List.mem_cons_of_mem _ (h.declared name hname)
    · rw [lookup] at hw
      rw [grown]
      split at hw
      · cases hw
        exact List.mem_cons_self
      · exact List.mem_cons_of_mem _ (h.taken w name hw)
    · -- the new name was free, so no other variable has it
      rw [lookup] at hw hw'
      split at hw <;> split at hw'
      · rw [‹w = v›, ‹w' = v›]
      · cases hw
        exact absurd (h.taken w' _ hw') free
      · cases hw'
        exact absurd (h.taken w _ hw) free
      · exact h.injective w w' name hw hw'
    · rw [lookup] at hw
      split at hw
      · cases hw
        exact fun hmem => free (h.declared _ hmem)
      · exact h.fresh w name hw hnamed

theorem Sound.giveNames (h : s.Sound p) (vs : List VarRef) : (s.giveNames p vs).Sound p := by
  induction vs generalizing s with
  | nil => exact h
  | cons v vs ih => exact ih (h.giveName v)

end NameScope

/-! ## Words and names -/

/-- A part of a text: a word that is always the same, or the name of a variable. -/
inductive Piece where
  | word (text : String)
  | name (v : VarRef)

/-- The variables that the pieces mention, from left to right. -/
def mentioned (ps : List Piece) : List VarRef :=
  ps.filterMap fun
    | .word _ => none
    | .name v => some v

/-- The text of the pieces, where the variables have the given names. -/
def fill (name : VarRef → String) : List Piece → String
  | [] => ""
  | .word text :: ps => text ++ fill name ps
  | .name v :: ps => name v ++ fill name ps

/-- The text of the pieces written from left to right. A variable is named when it comes up. -/
def write (p : Program) (s : NameScope) : List Piece → String
  | [] => ""
  | .word text :: ps => text ++ write p s ps
  | .name v :: ps => (s.giveName p v).nameOf p v ++ write p (s.giveName p v) ps

theorem fill_append (name : VarRef → String) (ps qs : List Piece) :
    fill name (ps ++ qs) = fill name ps ++ fill name qs := by
  induction ps with
  | nil => exact String.empty_append.symm
  | cons x ps ih => cases x <;> simp only [List.cons_append, fill, ih, String.append_assoc]

theorem mentioned_append (ps qs : List Piece) :
    mentioned (ps ++ qs) = mentioned ps ++ mentioned qs := List.filterMap_append

/-- Naming variables on the way is the same as naming all of them first. -/
theorem write_eq_fill (p : Program) (s : NameScope) (ps : List Piece) :
    write p s ps = fill ((s.giveNames p (mentioned ps)).nameOf p) ps := by
  induction ps generalizing s with
  | nil => rfl
  | cons x ps ih =>
    cases x with
    | word text =>
      rw [write, fill, ih]
      rfl
    | name v =>
      have later := NameScope.nameOf_giveNames_append (p := p) (List.mem_singleton_self v)
        (mentioned ps) s
      rw [write, fill, ih]
      exact congrArg (· ++ _) later.symm

/-- Whatever the variables are called, the text consists of fixed words and of their names, and `vs`
are the mentions of variables from left to right. The types of variables are fixed. -/
def Spells (ty : VarRef → Ty) (text : Lexicon → String) (vs : List VarRef) : Prop :=
  ∃ ps, mentioned ps = vs ∧ ∀ lex : Lexicon, lex.ty = ty → text lex = fill lex.name ps

/-- Each text of a list consists of words and names. -/
def SpellsEach (ty : VarRef → Ty) (texts : Lexicon → List String) (vs : List VarRef) : Prop :=
  ∃ pss : List (List Piece), pss.flatMap mentioned = vs ∧
    ∀ lex : Lexicon, lex.ty = ty → texts lex = pss.map (fill lex.name)

section Spells

variable {ty : VarRef → Ty} {text text' : Lexicon → String} {texts texts' : Lexicon → List String}
  {vs ws : List VarRef} {α : Type}

theorem Spells.word (w : String) : Spells ty (fun _ => w) [] :=
  ⟨[.word w], rfl, fun _ _ => String.append_empty.symm⟩

theorem Spells.name (v : VarRef) : Spells ty (fun lex => lex.name v) [v] :=
  ⟨[.name v], rfl, fun _ _ => String.append_empty.symm⟩

theorem Spells.append (h : Spells ty text vs) (k : Spells ty text' ws) :
    Spells ty (fun lex => text lex ++ text' lex) (vs ++ ws) := by
  obtain ⟨ps, hps, htext⟩ := h
  obtain ⟨qs, hqs, htext'⟩ := k
  refine ⟨ps ++ qs, by rw [mentioned_append, hps, hqs], fun lex hlex => ?_⟩
  dsimp only
  rw [fill_append, htext lex hlex, htext' lex hlex]

theorem Spells.congr (h : Spells ty text vs) (same : ∀ lex, text' lex = text lex) :
    Spells ty text' vs := by
  obtain ⟨ps, hps, htext⟩ := h
  exact ⟨ps, hps, fun lex hlex => (same lex).trans (htext lex hlex)⟩

/-- Words around a text. -/
theorem Spells.between (before after : String) (h : Spells ty text vs) :
    Spells ty (fun lex => before ++ text lex ++ after) vs := by
  have k := ((Spells.word before).append h).append (Spells.word after)
  rwa [List.nil_append, List.append_nil] at k

theorem SpellsEach.nil : SpellsEach ty (fun _ => []) [] := ⟨[], rfl, fun _ _ => rfl⟩

theorem SpellsEach.cons (h : Spells ty text vs) (k : SpellsEach ty texts ws) :
    SpellsEach ty (fun lex => text lex :: texts lex) (vs ++ ws) := by
  obtain ⟨ps, hps, htext⟩ := h
  obtain ⟨pss, hpss, htexts⟩ := k
  refine ⟨ps :: pss, by rw [List.flatMap_cons, hps, hpss], fun lex hlex => ?_⟩
  dsimp only
  rw [htext lex hlex, htexts lex hlex, List.map_cons]

theorem SpellsEach.append (h : SpellsEach ty texts vs) (k : SpellsEach ty texts' ws) :
    SpellsEach ty (fun lex => texts lex ++ texts' lex) (vs ++ ws) := by
  obtain ⟨pss, hpss, htexts⟩ := h
  obtain ⟨qss, hqss, htexts'⟩ := k
  refine ⟨pss ++ qss, by rw [List.flatMap_append, hpss, hqss], fun lex hlex => ?_⟩
  dsimp only
  rw [htexts lex hlex, htexts' lex hlex, List.map_append]

theorem SpellsEach.flatMap {f : α → Lexicon → List String} {us : α → List VarRef} {as : List α}
    (h : ∀ a ∈ as, SpellsEach ty (f a) (us a)) :
    SpellsEach ty (fun lex => as.flatMap fun a => f a lex) (as.flatMap us) := by
  induction as with
  | nil => exact SpellsEach.nil
  | cons a as ih =>
    rw [List.forall_mem_cons] at h
    exact h.1.append (ih h.2)

/-- One text for each member of a list. -/
theorem SpellsEach.map {f : α → Lexicon → String} {us : α → List VarRef} {as : List α}
    (h : ∀ a ∈ as, Spells ty (f a) (us a)) :
    SpellsEach ty (fun lex => as.map fun a => f a lex) (as.flatMap us) := by
  induction as with
  | nil => exact SpellsEach.nil
  | cons a as ih =>
    rw [List.forall_mem_cons] at h
    exact .cons h.1 (ih h.2)

theorem SpellsEach.between (before after : String) (h : SpellsEach ty texts vs) :
    SpellsEach ty (fun lex => (texts lex).map fun t => before ++ t ++ after) vs := by
  obtain ⟨pss, hpss, htexts⟩ := h
  refine ⟨pss.map fun ps => .word before :: (ps ++ [.word after]), ?_, fun lex hlex => ?_⟩
  · rw [List.flatMap_map, ← hpss]
    refine List.flatMap_congr fun ps _ => ?_
    show mentioned (ps ++ [.word after]) = mentioned ps
    rw [mentioned_append]
    exact List.append_nil _
  · dsimp only
    rw [htexts lex hlex, List.map_map, List.map_map]
    refine List.map_congr_left fun ps _ => ?_
    simp only [Function.comp_apply, fill, fill_append, String.append_empty, String.append_assoc]

/-- Texts one after the other. -/
theorem SpellsEach.join (h : SpellsEach ty texts vs) :
    Spells ty (fun lex => String.join (texts lex)) vs := by
  obtain ⟨pss, hpss, htexts⟩ := h
  refine ⟨pss.flatten, ?_, fun lex hlex => ?_⟩
  · rw [← hpss]
    clear hpss htexts
    induction pss with
    | nil => rfl
    | cons ps pss ih => rw [List.flatten_cons, mentioned_append, ih, List.flatMap_cons]
  · dsimp only
    rw [htexts lex hlex]
    clear hpss htexts
    induction pss with
    | nil => rfl
    | cons ps pss ih => rw [List.map_cons, String.join_cons, ih, List.flatten_cons, fill_append]

/-- Texts with a separator between them. -/
theorem SpellsEach.intercalate (sep : String) (h : SpellsEach ty texts vs) :
    Spells ty (fun lex => String.intercalate sep (texts lex)) vs := by
  obtain ⟨pss, hpss, htexts⟩ := h
  have spelled : Spells ty (fun lex => String.intercalate sep (pss.map (fill lex.name)))
      (pss.flatMap mentioned) := by
    clear hpss htexts
    induction pss with
    | nil => exact Spells.word ""
    | cons ps pss ih =>
      have first : Spells ty (fun lex => fill lex.name ps) (mentioned ps) :=
        ⟨ps, rfl, fun _ _ => rfl⟩
      cases pss with
      | nil =>
        rw [List.flatMap_cons, List.flatMap_nil, List.append_nil]
        exact first
      | cons qs pss =>
        simp only [List.map_cons, String.intercalate_cons_cons]
        have k := (first.append (Spells.word sep)).append ih
        rw [List.append_nil] at k
        exact k
  rw [hpss] at spelled
  obtain ⟨ps, hps, htext⟩ := spelled
  refine ⟨ps, hps, fun lex hlex => ?_⟩
  rw [← htext lex hlex]
  exact congrArg (String.intercalate sep) (htexts lex hlex)

end Spells

/-! ## The texts of the printer -/

section Syntax

variable (ty : VarRef → Ty)

theorem spells_binding (v : VarRef) : Spells ty (fun lex => lex.binding v) [v] := by
  refine ⟨[.name v, .word (": " ++ (ty v).render)], rfl, fun lex hlex => ?_⟩
  simp only [Lexicon.binding, hlex, fill, String.append_empty, String.append_assoc]

theorem spells_bindings (vs : List VarRef) : Spells ty (fun lex => lex.bindings vs) vs := by
  have h := (SpellsEach.map fun v (_ : v ∈ vs) => spells_binding ty v).intercalate ", "
  rw [List.flatMap_singleton'] at h
  exact h

theorem Expr.spells (e : Expr) : Spells ty (fun lex => e.render lex) e.mentions := by
  induction e with
  | lit value => exact Spells.word value.render
  | var v => exact Spells.name v
  | old e ih => exact ih.between "old(" ")"
  | unary op e ih =>
    cases op with
    | not => exact (ih.between "!" "").congr fun lex => by rw [render, String.append_empty]
    | neg => exact ih.between "(- " ")"
  | binary op l r ihl ihr =>
    refine ((ihl.between "(" (" " ++ op.symbol ++ " ")).append (ihr.between "" ")")).congr
      fun lex => ?_
    simp only [render, String.empty_append, String.append_assoc]
  | call f args ih =>
    have h := ((SpellsEach.map ih).intercalate ", ").between (f ++ "(") ")"
    rw [mentions, mentionsAll_eq_flatMap]
    refine h.congr fun lex => ?_
    rw [render, renderAll_eq_map]
    rfl
  | quant q bound body ih =>
    refine (((spells_bindings ty bound).between ("(" ++ q.keyword ++ " ") " :: ").append
      (ih.between "" ")")).congr fun lex => ?_
    simp only [render, String.empty_append, String.append_assoc]

theorem Command.spells (c : Command Expr) : Spells ty (fun lex => c.render lex) c.mentions := by
  cases c with
  | assert e => exact (e.spells ty).between "assert " ";"
  | assume e => exact (e.spells ty).between "assume " ";"
  | assign updates =>
    have targets := (SpellsEach.map fun u (_ : u ∈ updates) =>
      (Spells.name u.1 : Spells ty _ _)).intercalate ", "
    have values := (SpellsEach.map fun u (_ : u ∈ updates) =>
      u.2.spells ty).intercalate ", "
    have keys : updates.flatMap (fun u => [u.1]) = updates.map Prod.fst :=
      List.map_eq_flatMap.symm
    rw [keys] at targets
    refine (targets.append (values.between " := " ";")).congr fun lex => ?_
    simp only [render, commaSeparated, String.append_assoc]

variable (p : Program)

theorem spells_renderTransfer (labels : List (BlockRef × String)) (t : Transfer) :
    Spells ty (fun lex => p.renderTransfer lex labels t) (p.transferMentions t) := by
  cases t with
  | goto targets => exact Spells.word _
  | returnValue e => exact ((p.expr e).spells ty).between "return " ";"
  | leave => exact Spells.word "return;"

theorem spellsEach_renderBlock (labels : List (BlockRef × String)) (b : BlockRef) :
    SpellsEach ty (fun lex => (p.renderBlock lex labels b).2) (p.blockMentions b) := by
  have commands := SpellsEach.map fun c (_ : c ∈ p.commands b) => c.spells ty
  have transfer := (SpellsEach.nil).cons (spells_renderTransfer ty p labels (p.block b).transfer)
  rw [List.append_nil] at transfer
  exact commands.append transfer

theorem spells_renderBody (code : Body) :
    Spells ty (fun lex => p.renderBody lex code) (p.bodyMentions code) := by
  have locals := SpellsEach.map fun v (_ : v ∈ code.locals) =>
    (spells_binding ty v).between "var " ";"
  rw [List.flatMap_singleton'] at locals
  have blocks := SpellsEach.flatMap fun b (_ : b ∈ code.blocks) =>
    (spellsEach_renderBlock ty p (blockLabels p code.blocks) b).cons
      (Spells.word (((blockLabels p code.blocks).lookup b).getD (p.block b).label ++ ":"))
  exact ((locals.append blocks).intercalate " ").between "|\x7b " " \x7d|"

theorem spells_renderCondition (c : Condition) :
    Spells ty (fun lex => p.renderCondition lex c) (p.conditionMentions c) := by
  cases c with
  | formula e => exact (p.expr e).spells ty
  | body code => exact spells_renderBody ty p code

theorem spells_renderSignature (inputs outputs : List VarRef) :
    Spells ty (fun lex => renderSignature lex inputs outputs) (inputs ++ outputs) := by
  have ins := spells_bindings ty inputs
  cases outputs with
  | nil =>
    rw [List.append_nil]
    exact ins.between "(" ")"
  | cons v vs =>
    refine ((ins.between "(" ") returns (").append
      ((spells_bindings ty (v :: vs)).between "" ")")).congr fun lex => ?_
    simp only [renderSignature, String.empty_append, String.append_assoc]

/-- The text of a procedure, whatever the variables are called. -/
def Program.procedureText (r : Procedure) (lex : Lexicon) : String :=
  "procedure " ++ r.name ++ renderTypeParams r.typeParams ++
    renderSignature lex r.inputs r.outputs ++ ";\n" ++
    String.join (r.requires.map fun e => "  requires " ++ (p.expr e).render lex ++ ";\n") ++
    String.join (r.ensures.map fun e =>
      "  ensures " ++ String.join (e.attributes.map renderAttribute) ++
        p.renderCondition lex e.condition ++ ";\n")

theorem renderProcedure_eq_text (r : Procedure) :
    p.renderProcedure r = p.procedureText r (p.lexicon (p.procedureMentions r)) := rfl

theorem spells_procedureText (r : Procedure) :
    Spells ty (p.procedureText r) (p.procedureMentions r) := by
  have signature := (spells_renderSignature ty r.inputs r.outputs).between
    ("procedure " ++ r.name ++ renderTypeParams r.typeParams) ";\n"
  have requires := (SpellsEach.map fun e (_ : e ∈ r.requires) =>
    ((p.expr e).spells ty).between "  requires " ";\n").join
  have ensures := (SpellsEach.map fun e (_ : e ∈ r.ensures) =>
    (spells_renderCondition ty p e.condition).between
      ("  ensures " ++ String.join (e.attributes.map renderAttribute)) ";\n").join
  exact (signature.append requires).append ensures

/-- The text of an implementation, whatever the variables are called. -/
def Program.implementationText (i : Implementation) (lex : Lexicon) : String :=
  "implementation " ++ i.name ++ renderSignature lex i.inputs i.outputs ++ "\n\x7b\n" ++
    String.join (i.locals.map fun v => "  var " ++ lex.binding v ++ ";\n") ++
    (if i.locals = [] then "" else "\n") ++
    String.intercalate "\n" (i.blocks.map fun b =>
      "  " ++ (p.renderBlock lex (blockLabels p i.blocks) b).1 ++ "\n" ++
        String.join ((p.renderBlock lex (blockLabels p i.blocks) b).2.map fun l =>
          "    " ++ l ++ "\n")) ++
    "\x7d\n"

theorem renderImplementation_eq_text (i : Implementation) :
    p.renderImplementation i =
      p.implementationText i (p.lexicon (p.implementationMentions i)) := by
  rw [renderImplementation_def, List.map_map]
  rfl

theorem spells_implementationText (i : Implementation) :
    Spells ty (p.implementationText i) (p.implementationMentions i) := by
  have signature := (spells_renderSignature ty i.inputs i.outputs).between
    ("implementation " ++ i.name) "\n\x7b\n"
  have locals := (SpellsEach.map fun v (_ : v ∈ i.locals) =>
    (spells_binding ty v).between "  var " ";\n").join
  rw [List.flatMap_singleton'] at locals
  have blocks := (SpellsEach.map fun b (_ : b ∈ i.blocks) =>
    ((spellsEach_renderBlock ty p (blockLabels p i.blocks) b).between "    " "\n").join.between
      ("  " ++ (((blockLabels p i.blocks).lookup b).getD (p.block b).label ++ ":") ++ "\n")
      "").intercalate "\n"
  refine ((signature.append locals).append
    (blocks.between (if i.locals = [] then "" else "\n") "\x7d\n")).congr fun lex => ?_
  unfold implementationText renderBlock
  dsimp only
  simp only [String.append_empty, String.append_assoc]

end Syntax

/-! ## Names in printed texts -/

/-- How the variables of a text are called that is printed. The text without names is `text`, and
`vs` are its mentions of variables from left to right. -/
structure PrintedApart (p : Program) (text : Lexicon → String) (vs : List VarRef)
    (printed : String) : Prop where
  /-- There is one name for each variable, which stands wherever the text mentions it. The same text
  results from naming variables while it is written. -/
  spelled : ∃ ps : List Piece, mentioned ps = vs ∧
    (∀ lex : Lexicon, lex.ty = (fun v => (p.var v).ty) → text lex = fill lex.name ps) ∧
    printed = fill (p.lexicon vs).name ps ∧ printed = write p (.ofProgram p) ps
  /-- Different variables have different names. -/
  injective : ∀ v ∈ vs, ∀ w ∈ vs, (p.lexicon vs).name v = (p.lexicon vs).name w → v = w
  /-- Declared globals and constants have their own names. -/
  own : ∀ v ∈ p.namedRefs, (p.lexicon vs).name v = (p.var v).name
  /-- Other variables do not have the name of a declared global, constant or function. -/
  apart : ∀ v ∈ vs, v ∉ p.namedRefs → (p.lexicon vs).name v ∉ p.declaredNames

section Printed

variable {p : Program}

/-- A text of words and names is printed with the names apart. -/
theorem Spells.printedApart
    (distinct : ∀ v ∈ p.namedRefs, ∀ w ∈ p.namedRefs, (p.var v).name = (p.var w).name → v = w)
    {text : Lexicon → String} {vs : List VarRef} (h : Spells (fun v => (p.var v).ty) text vs) :
    PrintedApart p text vs (text (p.lexicon vs)) := by
  have sound := (NameScope.sound_ofProgram p distinct).giveNames vs
  have named {v : VarRef} {name : String}
      (hname : ((NameScope.ofProgram p).giveNames p vs).names.lookup v = some name) :
      (p.lexicon vs).name v = name := by
    show NameScope.nameOf p _ v = name
    rw [NameScope.nameOf, hname]
    rfl
  have exists_name {v : VarRef} (hv : v ∈ vs) :
      ((NameScope.ofProgram p).giveNames p vs).names.lookup v = some ((p.lexicon vs).name v) := by
    obtain ⟨name, hname⟩ := NameScope.exists_name_giveNames (p := p) hv (.ofProgram p)
    rw [hname, named hname]
  refine ⟨?_, fun v hv w hw heq => ?_, fun v hv => named (sound.own v hv), fun v hv other => ?_⟩
  · obtain ⟨ps, hps, htext⟩ := h
    refine ⟨ps, hps, htext, htext _ rfl, ?_⟩
    rw [write_eq_fill, hps, htext _ rfl]
    rfl
  · have hw' := exists_name hw
    rw [← heq] at hw'
    exact sound.injective v w _ (exists_name hv) hw'
  · exact sound.fresh v _ (exists_name hv) other

/-- What comes first in a text decides the names of the variables that are mentioned there. -/
theorem lexicon_append_name {vs : List VarRef} {v : VarRef} (hv : v ∈ vs) (ws : List VarRef) :
    (p.lexicon (vs ++ ws)).name v = (p.lexicon vs).name v :=
  NameScope.nameOf_giveNames_append hv ws _

end Printed

/-- In a program whose declared globals and constants have different names, all procedures,
implementations and expressions are printed with the names of variables apart. The search for a name
ends, with the first one of `x`, `x_1`, `x_2`, … that is free. A procedure and an implementation
with the same parameters and results call them the same. -/
theorem Program.printed_names_apart {p : Program}
    (distinct : ∀ v ∈ p.namedRefs, ∀ w ∈ p.namedRefs, (p.var v).name = (p.var w).name → v = w) :
    (∀ r : Procedure,
      PrintedApart p (p.procedureText r) (p.procedureMentions r) (p.renderProcedure r)) ∧
    (∀ i : Implementation, PrintedApart p (p.implementationText i) (p.implementationMentions i)
      (p.renderImplementation i)) ∧
    (∀ e : Expr, PrintedApart p (fun lex => e.render lex) e.mentions (p.renderExpr e)) ∧
    (∀ (taken : List String) (base : String), ∃ k ≤ taken.length,
      freshName taken base = chainName base k ∧ chainName base k ∉ taken ∧
        ∀ j < k, chainName base j ∈ taken) ∧
    ∀ (r : Procedure) (i : Implementation), i.inputs = r.inputs → i.outputs = r.outputs →
      ∀ v ∈ r.inputs ++ r.outputs, (p.lexicon (p.procedureMentions r)).name v =
        (p.lexicon (p.implementationMentions i)).name v := by
  refine ⟨fun r => ?_, fun i => ?_, fun e => (e.spells _).printedApart distinct, freshName_spec,
    fun r i inputs outputs v hv => ?_⟩
  · rw [renderProcedure_eq_text]
    exact (spells_procedureText _ p r).printedApart distinct
  · rw [renderImplementation_eq_text]
    exact (spells_implementationText _ p i).printedApart distinct
  · have procedure : p.procedureMentions r = (r.inputs ++ r.outputs) ++
        (r.requires.flatMap (fun e => (p.expr e).mentions) ++
          r.ensures.flatMap fun e => p.conditionMentions e.condition) :=
      List.append_assoc ..
    have implementation : p.implementationMentions i = (r.inputs ++ r.outputs) ++
        (i.locals ++ i.blocks.flatMap p.blockMentions) := by
      rw [implementationMentions, inputs, outputs, List.append_assoc]
    rw [procedure, implementation, lexicon_append_name hv, lexicon_append_name hv]

namespace Homonyms

/-- A global and two other variables. One has the name of the global, and one has the name that this
one would get. -/
def program : Program where
  vars := #[{ name := "x", ty := .int, kind := .global },
    { name := "x", ty := .int, kind := .localVar },
    { name := "x_1", ty := .int, kind := .localVar }]
  declarations := [.global ⟨0⟩]

/-- The sum of the three variables. -/
def sum : Expr := .binary .add (.binary .add (.var ⟨1⟩) (.var ⟨2⟩)) (.var ⟨0⟩)

end Homonyms

/-- The sum is printed with three different names. -/
theorem Program.printed_names_apart_homonyms :
    Homonyms.program.renderExpr Homonyms.sum = "((x_1 + x_1_1) + x)" ∧
      PrintedApart Homonyms.program (fun lex => Homonyms.sum.render lex) [⟨1⟩, ⟨2⟩, ⟨0⟩]
        "((x_1 + x_1_1) + x)" := by
  have text : Homonyms.program.renderExpr Homonyms.sum = "((x_1 + x_1_1) + x)" := by
    decide +kernel
  have apart := (printed_names_apart (p := Homonyms.program) (by decide +kernel)).2.2.1 Homonyms.sum
  rw [text] at apart
  exact ⟨text, apart⟩

end AtomicMovers
