import AtomicMovers.Proofs.Reading
import AtomicMovers.Proofs.WellFormedOutput

/-!
# Unambiguous texts

What is printed of an expression or a command is read back as that expression or command
(`Expr.reads_render`, `Command.reads_render`), so different ones have different texts. This needs
names that are identifiers, and different names for different variables, which is how variables are
named in a declaration. Names that are given once do not change, so two texts of one declaration can
be compared although more variables have names when the second is written. The main statement is
`Program.texts_unambiguous`.
-/

namespace AtomicMovers

open Program

/-! ## Expressions -/

namespace Expr

mutual

/-- The functions that an expression calls. -/
def called : Expr → List String
  | .lit _ | .var _ => []
  | .old e => e.called
  | .unary _ e => e.called
  | .binary _ l r => l.called ++ r.called
  | .call f args => f :: calledAll args
  | .quant _ _ body => body.called

def calledAll : List Expr → List String
  | [] => []
  | e :: es => e.called ++ calledAll es

end

theorem calledAll_eq_flatMap (es : List Expr) : calledAll es = es.flatMap called := by
  induction es with
  | nil => rfl
  | cons e es ih => rw [calledAll, ih, List.flatMap_cons]

/-- The expression mentions variables of `vs`, and calls functions whose names are identifiers. -/
structure SpelledWith (vs : List VarRef) (e : Expr) : Prop where
  mentions : ∀ v ∈ e.mentions, v ∈ vs
  called : ∀ f ∈ e.called, IsIdentifier f

section Spelled

variable {lex : Lexicon} {vs : List VarRef}

theorem SpelledWith.binary {op : BinaryOp} {l r : Expr} (h : (binary op l r).SpelledWith vs) :
    l.SpelledWith vs ∧ r.SpelledWith vs := by
  have mentions := List.forall_mem_append.1 h.mentions
  have called := List.forall_mem_append.1 h.called
  exact ⟨⟨mentions.1, called.1⟩, ⟨mentions.2, called.2⟩⟩

theorem SpelledWith.call {f : String} {args : List Expr} (h : (call f args).SpelledWith vs) :
    IsIdentifier f ∧ ∀ a ∈ args, a.SpelledWith vs := by
  obtain ⟨mentions, called⟩ := h
  simp only [Expr.mentions, mentionsAll_eq_flatMap, List.mem_flatMap] at mentions
  simp only [Expr.called, calledAll_eq_flatMap, List.forall_mem_cons, List.mem_flatMap] at called
  exact ⟨called.1, fun a ha =>
    ⟨fun v hv => mentions v ⟨a, ha, hv⟩, fun g hg => called.2 g ⟨a, ha, hg⟩⟩⟩

theorem SpelledWith.quant {q : Quantifier} {bound : List VarRef} {body : Expr}
    (h : (quant q bound body).SpelledWith vs) :
    (∀ v ∈ bound, v ∈ vs) ∧ body.SpelledWith vs := by
  have mentions := List.forall_mem_append.1 h.mentions
  exact ⟨mentions.1, ⟨mentions.2, h.called⟩⟩

/-- What an operand of a binary operation starts with shows that it is one. -/
theorem startsOperand (h : lex.Readable vs) (e : Expr) (he : e.SpelledWith vs) {rest : List Char}
    (hrest : ∀ c ∈ rest.head?, isNameChar c = false) :
    StartsOperand ((e.render lex).toList ++ rest) := by
  have parenthesis (cs : List Char) : ∀ c ∈ ("(".toList ++ cs).head?, isNameChar c = false :=
    forall_head?_append ⟨'(', rfl, by decide⟩ cs
  cases e with
  | lit value => exact startsOperand_lit value hrest
  | var v =>
    have name := h.identifier v (he.mentions v (by simp [mentions]))
    exact startsOperand_word name.nonempty name.chars (ofKeyword?_identifier name) hrest
  | old e =>
    have text : ((old e).render lex).toList ++ rest =
        "old".toList ++ ("(".toList ++ ((e.render lex).toList ++ (")".toList ++ rest))) := by
      simp only [render, String.toList_append, List.append_assoc]
      rfl
    rw [text]
    exact startsOperand_word (by decide) (by decide) (by decide) (parenthesis _)
  | call f args =>
    have name := he.call.1
    simp only [render, String.toList_append, List.append_assoc]
    exact startsOperand_word name.nonempty name.chars (ofKeyword?_identifier name) (parenthesis _)
  | unary op e =>
    cases op <;> simp only [render, String.toList_append, List.append_assoc]
    · exact startsOperand_append ⟨'!', rfl, by decide⟩
    · exact startsOperand_append ⟨'(', rfl, by decide⟩
  | binary op l r =>
    simp only [render, String.toList_append, List.append_assoc]
    exact startsOperand_append ⟨'(', rfl, by decide⟩
  | quant q bound body =>
    simp only [render, String.toList_append, List.append_assoc]
    exact startsOperand_append ⟨'(', rfl, by decide⟩

/-- A text is read with one layer more than is needed for the layers below. -/
theorem readsAs_readExpr {text : String} {e : Expr} {k n : Nat} (hn : k < n)
    (layer : ∀ m, k ≤ m → ReadsAs (readLayer lex vs (readExpr lex vs m)) text e) :
    ReadsAs (readExpr lex vs n) text e := by
  cases n with
  | zero => cases hn
  | succ n => exact layer n (Nat.le_of_lt_succ hn)

/-- What was printed is read back, whatever follows. -/
theorem reads_render (h : lex.Readable vs) (e : Expr) : e.SpelledWith vs →
    ∀ {n}, (e.render lex).toList.length < n → ReadsAs (readExpr lex vs n) (e.render lex) e := by
  -- a layer takes at least one character, so that there is enough left for the layers below
  induction e with
  | lit value => exact fun _ _ hn => readsAs_readExpr hn fun _ _ => reads_lit value
  | var v =>
    exact fun he _ hn => readsAs_readExpr hn fun _ _ =>
      reads_var h (he.mentions v (by simp [mentions]))
  | old e ih =>
    intro he n hn
    refine readsAs_readExpr hn fun m hm => reads_old (ih ⟨he.mentions, he.called⟩ ?_)
    simp only [render, String.toList_append, String.reduceToList, List.length_append,
      List.length_cons] at hm
    omega
  | unary op e ih =>
    intro he n hn
    cases op with
    | not =>
      refine readsAs_readExpr hn fun m hm => reads_not (ih ⟨he.mentions, he.called⟩ ?_)
      simp only [render, String.toList_append, String.reduceToList, List.length_append,
        List.length_cons] at hm
      omega
    | neg =>
      refine readsAs_readExpr hn fun m hm => reads_neg (ih ⟨he.mentions, he.called⟩ ?_)
      simp only [render, String.toList_append, String.reduceToList, List.length_append,
        List.length_cons] at hm
      omega
  | binary op l r ihl ihr =>
    intro he n hn
    refine readsAs_readExpr hn fun m hm => reads_binary (ihl he.binary.1 ?_) (ihr he.binary.2 ?_)
      fun rest hrest => l.startsOperand h he.binary.1 hrest
    all_goals
      simp only [render, String.toList_append, String.reduceToList, List.length_append,
        List.length_cons] at hm
      omega
  | call f args ih =>
    intro he n hn
    refine readsAs_readExpr hn fun m hm => ?_
    have texts : List.Forall₂ (ReadsAs (readExpr lex vs m)) (renderAll lex args) args := by
      rw [renderAll_eq_map, List.forall₂_map_left_iff, List.forall₂_same]
      intro a ha
      have part : a.render lex ∈ renderAll lex args := by
        rw [renderAll_eq_map]
        exact List.mem_map_of_mem ha
      have shorter := length_le_commaSeparated_of_mem part
      refine ih a ha (he.call.2 a ha) ?_
      simp only [render, String.toList_append, String.reduceToList, List.length_append,
        List.length_cons] at hm
      omega
    have stop (cs : List Char) : readExpr lex vs m (')' :: cs) = none := by
      cases m with
      | zero => rfl
      | succ m => exact readLayer_eq_none h (by decide) (by decide)
    exact reads_call he.call.1 texts stop
  | quant q bound body ih =>
    intro he n hn
    refine readsAs_readExpr hn fun m hm => reads_quant h he.quant.1 (ih he.quant.2 ?_)
    simp only [render, String.toList_append, String.reduceToList, List.length_append,
      List.length_cons] at hm
    omega

end Spelled

end Expr

/-! ## Commands -/

namespace Command

/-- The command assigns variables of `vs`, and its expressions mention them only. -/
structure SpelledWith (vs : List VarRef) (c : Command Expr) : Prop where
  targets : ∀ v ∈ c.targets, v ∈ vs
  exprs : ∀ e ∈ c.exprs, e.SpelledWith vs

variable {lex : Lexicon} {vs : List VarRef}

/-- An assignment starts with a name, or with no word. -/
theorem firstWord_targets (h : lex.Readable vs) {targets : List VarRef}
    (htargets : ∀ v ∈ targets, v ∈ vs) {keyword : String} (hkeyword : keyword ∈ keywords)
    (hne : keyword.toList ≠ []) (rest : List Char) :
    (splitWord ((commaSeparated (targets.map lex.name)).toList ++ (" := ".toList ++ rest))).1 ≠
      keyword.toList := by
  have space : ∀ c ∈ (" := ".toList ++ rest).head?, isNameChar c = false :=
    forall_head?_append ⟨' ', rfl, by decide⟩ rest
  cases targets with
  | nil =>
    have none : splitWord ([] ++ (" := ".toList ++ rest)) = ([], " := ".toList ++ rest) :=
      splitWord_append (by simp) space
    show (splitWord ([] ++ (" := ".toList ++ rest))).1 ≠ keyword.toList
    rw [none]
    exact hne.symm
  | cons v targets =>
    have name := h.identifier v (htargets v List.mem_cons_self)
    -- the first name is followed by a comma or by a space
    obtain ⟨cs, text, stop⟩ : ∃ cs, (commaSeparated ((v :: targets).map lex.name)).toList ++
        (" := ".toList ++ rest) = (lex.name v).toList ++ cs ∧
          ∀ c ∈ cs.head?, isNameChar c = false := by
      cases targets with
      | nil => exact ⟨_, rfl, space⟩
      | cons w targets =>
        refine ⟨", ".toList ++ ((commaSeparated ((w :: targets).map lex.name)).toList ++
          (" := ".toList ++ rest)), ?_, forall_head?_append ⟨',', rfl, by decide⟩ _⟩
        rw [List.map_cons, List.map_cons, commaSeparated_cons_cons, List.append_assoc,
          List.append_assoc]
    rw [text, splitWord_append name.chars stop]
    exact fun heq => name.notKeyword (String.toList_inj.1 heq ▸ hkeyword)

theorem stops_semicolon (rest : List Char) : Stops (";".toList ++ rest) :=
  stops_append ⟨';', rfl, by decide⟩

theorem readCondition_render (h : lex.Readable vs) (make : Expr → Command Expr) {e : Expr}
    (he : e.SpelledWith vs) (rest : List Char) :
    readCondition lex vs make
      (" ".toList ++ ((e.render lex).toList ++ (";".toList ++ rest))) = some (make e, rest) := by
  have inner := e.reads_render h he
    (n := ((e.render lex).toList ++ (";".toList ++ rest)).length + 1)
    (by rw [List.length_append]; omega) (";".toList ++ rest) (stops_semicolon rest)
  rw [readCondition, skip_append]
  simp only [Option.bind_eq_bind, Option.bind_some, inner, skip_append]
  rfl

theorem readAssignment_render (h : lex.Readable vs) {updates : List (VarRef × Expr)}
    (hc : (assign updates).SpelledWith vs) (rest : List Char) :
    readAssignment lex vs (((assign updates).render lex).toList ++ rest) =
      some (assign updates, rest) := by
  have chars : ((assign updates).render lex).toList ++ rest =
      (commaSeparated (updates.map fun u => lex.name u.1)).toList ++ (" := ".toList ++
        ((commaSeparated (updates.map fun u => u.2.render lex)).toList ++
          (";".toList ++ rest))) := by
    simp only [render, String.toList_append, List.append_assoc]
  have targets : List.Forall₂ (ReadsAs (readName lex vs)) (updates.map fun u => lex.name u.1)
      (updates.map Prod.fst) := by
    rw [List.forall₂_map_left_iff, List.forall₂_map_right_iff, List.forall₂_same]
    exact fun u hu => reads_name h (hc.targets u.1 (List.mem_map_of_mem hu))
  have values (cs : List Char) : List.Forall₂ (ReadsAs (readExpr lex vs
      (((commaSeparated (updates.map fun u => u.2.render lex)).toList ++ cs).length + 1)))
      (updates.map fun u => u.2.render lex) (updates.map Prod.snd) := by
    rw [List.forall₂_map_left_iff, List.forall₂_map_right_iff, List.forall₂_same]
    intro u hu
    have shorter := length_le_commaSeparated_of_mem
      (List.mem_map_of_mem (f := fun u : VarRef × Expr => u.2.render lex) hu)
    refine u.2.reads_render h (hc.exprs u.2 (List.mem_map_of_mem hu)) ?_
    rw [List.length_append]
    omega
  have noTarget (cs : List Char) : readName lex vs (" := ".toList ++ cs) = none :=
    readName_eq_none h (by decide)
  have noValue (n : Nat) (cs : List Char) :
      readExpr lex vs (n + 1) (";".toList ++ cs) = none :=
    readLayer_eq_none h (by decide) (by decide)
  rw [chars, readAssignment, readList_commaSeparated targets (stops_append ⟨' ', rfl, by decide⟩)
    (noTarget _) (skip_eq_none (by simp))]
  simp only [Option.bind_eq_bind, Option.bind_some, skip_append]
  rw [readList_commaSeparated (values _) (stops_semicolon rest) (noValue _ rest)
    (skip_eq_none (by simp))]
  simp only [Option.bind_some, skip_append, List.zip_map']
  simp

theorem readCommand_eq {word cs rest : List Char} (h : splitWord cs = (word, rest)) :
    readCommand lex vs cs = if word = "assert".toList then readCondition lex vs .assert rest
      else if word = "assume".toList then readCondition lex vs .assume rest
      else readAssignment lex vs cs := by
  rw [readCommand, h]

/-- What was printed is read back. -/
theorem reads_render (h : lex.Readable vs) (c : Command Expr) (hc : c.SpelledWith vs) :
    ReadsAs (readCommand lex vs) (c.render lex) c := by
  intro rest _
  have first (keyword : String) (cs : List Char) (hkeyword : ∀ c ∈ keyword.toList, isNameChar c) :
      splitWord (keyword.toList ++ (" ".toList ++ cs)) = (keyword.toList, " ".toList ++ cs) :=
    splitWord_append hkeyword (forall_head?_append ⟨' ', rfl, by decide⟩ cs)
  cases c with
  | assert e =>
    have chars : ((assert e).render lex).toList ++ rest =
        "assert".toList ++ (" ".toList ++ ((e.render lex).toList ++ (";".toList ++ rest))) := by
      simp only [render, String.toList_append, List.append_assoc]
      rfl
    rw [chars, readCommand_eq (first "assert" _ (by decide)), if_pos rfl]
    exact readCondition_render h .assert (hc.exprs e (by simp [exprs])) rest
  | assume e =>
    have chars : ((assume e).render lex).toList ++ rest =
        "assume".toList ++ (" ".toList ++ ((e.render lex).toList ++ (";".toList ++ rest))) := by
      simp only [render, String.toList_append, List.append_assoc]
      rfl
    have other : "assume".toList ≠ "assert".toList := by decide
    rw [chars, readCommand_eq (first "assume" _ (by decide)), if_neg other, if_pos rfl]
    exact readCondition_render h .assume (hc.exprs e (by simp [exprs])) rest
  | assign updates =>
    have noKeyword {keyword : String} (hkeyword : keyword ∈ keywords) (hne : keyword.toList ≠ []) :
        (splitWord (((assign updates).render lex).toList ++ rest)).1 ≠ keyword.toList := by
      have targets : ∀ v ∈ updates.map Prod.fst, v ∈ vs := hc.targets
      have start := firstWord_targets h targets hkeyword hne
        ((commaSeparated (updates.map fun u => u.2.render lex)).toList ++ (";".toList ++ rest))
      rw [List.map_map] at start
      simp only [render, String.toList_append, List.append_assoc]
      exact start
    rw [readCommand, if_neg (noKeyword (by decide) (by decide)),
      if_neg (noKeyword (by decide) (by decide))]
    exact readAssignment_render h hc rest

end Command

/-! ## Programs -/

/-- The function that a layer calls, if it is a call. -/
def Node.called? : Node → Option String
  | .call f _ => some f
  | _ => none

/-- The variables of the program, and the functions that its expressions call, have names that are
identifiers. -/
structure Program.NamedByIdentifiers (p : Program) : Prop where
  vars : ∀ x ∈ p.vars, IsIdentifier x.name
  functions : ∀ n ∈ p.exprs.nodes, ∀ f ∈ n.called?, IsIdentifier f

section Programs

variable {p : Program}

/-- What an expression calls is called by an entry of the table. -/
theorem exists_node_of_mem_called {t : ExprTable} {f : String} : ∀ {depth : Nat} {e : ExprRef},
    f ∈ (t.exprWithin depth e).called → ∃ n ∈ t.nodes, n.called? = some f := by
  intro depth
  induction depth with
  | zero =>
    intro e hf
    cases hf
  | succ depth ih =>
    intro e hf
    rw [ExprTable.exprWithin] at hf
    cases hnode : t.node e with
    | lit value => rw [hnode] at hf; cases hf
    | var v => rw [hnode] at hf; cases hf
    | old x => rw [hnode] at hf; exact ih hf
    | unary op x => rw [hnode] at hf; exact ih hf
    | binary op l r =>
      rw [hnode] at hf
      exact (List.mem_append.1 hf).elim ih ih
    | quant q bound body => rw [hnode] at hf; exact ih hf
    | call g args =>
      rw [hnode] at hf
      simp only [Expr.called, Expr.calledAll_eq_flatMap, List.mem_cons, List.mem_flatMap,
        List.mem_map] at hf
      rcases hf with rfl | ⟨_, ⟨a, _, rfl⟩, hf⟩
      · -- an unknown position reads as a literal, so the call is an entry
        by_cases he : e.index < t.nodes.size
        · refine ⟨t.nodes[e.index], Array.getElem_mem he, ?_⟩
          have entry : t.nodes[e.index] = .call f args := by
            rw [← hnode, ExprTable.node, Array.getD_eq_getD_getElem?, Array.getElem?_eq_getElem he]
            rfl
          rw [entry]
          rfl
        · rw [ExprTable.node, Array.getD_eq_getD_getElem?,
            Array.getElem?_eq_none (by omega)] at hnode
          cases hnode
      · exact ih hf

theorem Program.NamedByIdentifiers.spelledWith (h : p.NamedByIdentifiers) {vs : List VarRef}
    {e : ExprRef} (he : ∀ v ∈ (p.expr e).mentions, v ∈ vs) : (p.expr e).SpelledWith vs where
  mentions := he
  called f hf := by
    obtain ⟨n, hn, hcalled⟩ := exists_node_of_mem_called hf
    exact h.functions n hn f hcalled

theorem Program.NamedByIdentifiers.command (h : p.NamedByIdentifiers) {vs : List VarRef}
    {c : Command ExprRef} (hc : ∀ v ∈ (c.map p.expr).mentions, v ∈ vs) :
    (c.map p.expr).SpelledWith vs := by
  cases c with
  | assert e => exact ⟨by simp [Command.map, Command.targets],
      List.forall_mem_singleton.2 (h.spelledWith hc)⟩
  | assume e => exact ⟨by simp [Command.map, Command.targets],
      List.forall_mem_singleton.2 (h.spelledWith hc)⟩
  | assign updates =>
    obtain ⟨targets, values⟩ := List.forall_mem_append.1 hc
    refine ⟨targets, ?_⟩
    rw [Command.exprs_map]
    refine List.forall_mem_map.2 fun e he => h.spelledWith fun v hv => ?_
    obtain ⟨u, hu, rfl⟩ := List.mem_map.1 he
    exact values v (List.mem_flatMap.2 ⟨(u.1, p.expr u.2), List.mem_map.2 ⟨u, hu, rfl⟩, hv⟩)

theorem Program.NamedByIdentifiers.readable (h : p.NamedByIdentifiers) (closed : p.Closed)
    (distinct : ∀ v ∈ p.namedRefs, ∀ w ∈ p.namedRefs, (p.var v).name = (p.var w).name → v = w)
    {vs : List VarRef} (hvs : ∀ v ∈ vs, p.HasVar v) : (p.lexicon vs).Readable vs := by
  have identifier {v : VarRef} (hv : p.HasVar v) : IsIdentifier (p.var v).name :=
    h.vars _ (var_mem hv)
  exact readable_lexicon distinct (fun v hv => identifier (closed.hasVar_of_mem_namedRefs hv))
    fun v hv => identifier (hvs v hv)

/-- A lexicon for more mentions calls the first ones the same. -/
theorem alike_lexicon {vs ws : List VarRef} (h : vs <+: ws) :
    (p.lexicon vs).Alike id (· ∈ vs) (p.lexicon ws) := by
  obtain ⟨later, rfl⟩ := h
  exact fun v hv => ⟨lexicon_append_name hv later, rfl⟩

end Programs

/-- In a program whose variables and functions have identifiers for names, texts can be read back:
`vs` are the variables that a declaration mentions up to the end of one text, and `ws` those up to
the end of another. So expressions or commands with the same text are the same, although they may
stand in different places of the program and the second text is written when more variables have
names. -/
theorem Program.texts_unambiguous {p : Program} (closed : p.Closed)
    (identifiers : p.NamedByIdentifiers)
    (distinct : ∀ v ∈ p.namedRefs, ∀ w ∈ p.namedRefs, (p.var v).name = (p.var w).name → v = w)
    {vs ws : List VarRef} (hws : ∀ v ∈ ws, p.HasVar v) (later : vs <+: ws) :
    (∀ e : ExprRef, (∀ v ∈ (p.expr e).mentions, v ∈ ws) →
      ∀ n, ((p.expr e).render (p.lexicon ws)).toList.length < n →
        ReadsAs (readExpr (p.lexicon ws) ws n) ((p.expr e).render (p.lexicon ws)) (p.expr e)) ∧
    (∀ c : Command ExprRef, (∀ v ∈ (c.map p.expr).mentions, v ∈ ws) →
      ReadsAs (readCommand (p.lexicon ws) ws) ((c.map p.expr).render (p.lexicon ws))
        (c.map p.expr)) ∧
    (∀ e e' : ExprRef, (∀ v ∈ (p.expr e).mentions, v ∈ vs) →
      (∀ v ∈ (p.expr e').mentions, v ∈ ws) →
      (p.expr e).render (p.lexicon vs) = (p.expr e').render (p.lexicon ws) →
      p.expr e = p.expr e') ∧
    ∀ c c' : Command ExprRef, (∀ v ∈ (c.map p.expr).mentions, v ∈ vs) →
      (∀ v ∈ (c'.map p.expr).mentions, v ∈ ws) →
      (c.map p.expr).render (p.lexicon vs) = (c'.map p.expr).render (p.lexicon ws) →
      c.map p.expr = c'.map p.expr := by
  have readable := identifiers.readable closed distinct hws
  have alike := alike_lexicon (p := p) later
  have expr (e : ExprRef) (he : ∀ v ∈ (p.expr e).mentions, v ∈ ws) (n : Nat)
      (hn : ((p.expr e).render (p.lexicon ws)).toList.length < n) :
      ReadsAs (readExpr (p.lexicon ws) ws n) ((p.expr e).render (p.lexicon ws)) (p.expr e) :=
    (p.expr e).reads_render readable (identifiers.spelledWith he) hn
  have command (c : Command ExprRef) (hc : ∀ v ∈ (c.map p.expr).mentions, v ∈ ws) :
      ReadsAs (readCommand (p.lexicon ws) ws) ((c.map p.expr).render (p.lexicon ws))
        (c.map p.expr) :=
    (c.map p.expr).reads_render readable (identifiers.command hc)
  -- the first text would be the same if it was written later
  refine ⟨expr, command, fun e e' he he' htext => ?_, fun c c' hc hc' htext => ?_⟩
  · rw [← (p.expr e).render_congr alike he] at htext
    have one := expr e (fun v hv => later.subset (he v hv)) _ (Nat.lt_succ_self _)
    rw [htext] at one
    exact one.unique (expr e' he' _ (Nat.lt_succ_self _))
  · rw [← (c.map p.expr).render_congr alike hc] at htext
    have one := command c fun v hv => later.subset (hc v hv)
    rw [htext] at one
    exact one.unique (command c' hc')

namespace Lookalikes

/-- A global and a bound variable of the same name, and two entries for a formula with both, which
says `∀ x, -(-3) ≤ f(old(x), x)` with the global under `old`. -/
def program : Program where
  vars := #[{ name := "x", ty := .int, kind := .global },
    { name := "x", ty := .int, kind := .bound }]
  exprs := ⟨#[.var ⟨0⟩, .old ⟨0⟩, .var ⟨1⟩, .call "f" [⟨1⟩, ⟨2⟩], .lit (.int (-3)),
    .unary .neg ⟨4⟩, .binary .le ⟨5⟩ ⟨3⟩, .quant .universal [⟨1⟩] ⟨6⟩,
    .quant .universal [⟨1⟩] ⟨6⟩]⟩
  declarations := [.global ⟨0⟩]
  names := [("x", ⟨0⟩)]

theorem closed : program.Closed := by decide +kernel

theorem identifiers : program.NamedByIdentifiers := ⟨by decide +kernel, by decide +kernel⟩

end Lookalikes

/-- The formula is read back, with the two variables told apart, and its two entries have the same
tree because they have the same text. -/
theorem Program.texts_unambiguous_lookalikes :
    Lookalikes.program.renderExpr (Lookalikes.program.expr ⟨7⟩) =
        "(forall x_1: int :: ((- -3) <= f(old(x), x_1)))" ∧
      ReadsAs (readExpr (Lookalikes.program.lexicon [⟨1⟩, ⟨0⟩, ⟨1⟩]) [⟨1⟩, ⟨0⟩, ⟨1⟩] 50)
        "(forall x_1: int :: ((- -3) <= f(old(x), x_1)))" (Lookalikes.program.expr ⟨7⟩) ∧
      Lookalikes.program.expr ⟨7⟩ = Lookalikes.program.expr ⟨8⟩ := by
  have text : (Lookalikes.program.expr ⟨7⟩).render (Lookalikes.program.lexicon [⟨1⟩, ⟨0⟩, ⟨1⟩]) =
      "(forall x_1: int :: ((- -3) <= f(old(x), x_1)))" := by decide +kernel
  have text' : (Lookalikes.program.expr ⟨8⟩).render (Lookalikes.program.lexicon [⟨1⟩, ⟨0⟩, ⟨1⟩]) =
      "(forall x_1: int :: ((- -3) <= f(old(x), x_1)))" := by decide +kernel
  obtain ⟨reads, -, same, -⟩ := Program.texts_unambiguous Lookalikes.closed Lookalikes.identifiers
    (by decide +kernel)
    (by decide +kernel : ∀ v ∈ ([⟨1⟩, ⟨0⟩, ⟨1⟩] : List VarRef), Lookalikes.program.HasVar v)
    (List.prefix_refl _)
  have read := reads ⟨7⟩ (by decide +kernel) 50 (by rw [text]; decide)
  rw [text] at read
  exact ⟨by decide +kernel, read,
    same ⟨7⟩ ⟨8⟩ (by decide +kernel) (by decide +kernel) (text.trans text'.symm)⟩

end AtomicMovers
