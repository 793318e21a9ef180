import AtomicMovers.Proofs.Identifiers

/-!
# A reader of texts

Expressions and commands can be read from left to right. The first characters of an expression
decide what kind it is: a sign, a parenthesis, or a word, which makes a call if a parenthesis follows.
So `readExpr` never goes back, and reads one layer (`readLayer`) at a time.

For each kind of expression there is one lemma, `reads_…`: if the parts of a text are read as the
parts of an expression, the text is read as the expression. A text may be followed by anything that
does not continue its last word (`Stops`).
-/

namespace AtomicMovers

open Program

/-! ## The reader -/

/-- What is left behind the given text. -/
def skip (text : String) (cs : List Char) : Option (List Char) :=
  if text.toList <+: cs then some (cs.drop text.toList.length) else none

/-- The word that the text starts with, and what is left. -/
def splitWord (cs : List Char) : List Char × List Char :=
  (cs.takeWhile isNameChar, cs.dropWhile isNameChar)

/-- The number with the given digits. -/
def numberOf (digits : List Char) : Nat := Nat.ofDigitChars 10 digits 0

/-- A number, or a bit vector if a width follows. -/
def numeral (value : Nat) : List Char → Literal
  | [] => .int value
  | suffix => .bits value (numberOf (suffix.drop "bv".toList.length))

/-- Items separated by commas, as many as there are. The number bounds how many are read. -/
def readItems {α : Type} (item : List Char → Option (α × List Char)) :
    Nat → List Char → List α × List Char
  | 0, cs => ([], cs)
  | n + 1, cs =>
    match item cs with
    | none => ([], cs)
    | some (a, rest) =>
      match skip ", " rest with
      | none => ([a], rest)
      | some rest =>
        let (as, rest) := readItems item n rest
        (a :: as, rest)

/-- A list of items, which takes up no more items than characters. -/
def readList {α : Type} (item : List Char → Option (α × List Char)) (cs : List Char) :
    List α × List Char :=
  readItems item (cs.length + 1) cs

namespace BinaryOp

def all : List BinaryOp :=
  [and, or, implies, iff, eq, ne, lt, le, gt, ge, add, sub, mul, div, mod]

/-- The operator with the given symbol. -/
def ofSymbol? (symbol : List Char) : Option BinaryOp :=
  all.find? fun op => op.symbol.toList = symbol

end BinaryOp

/-- The quantifier with the given keyword. -/
def Quantifier.ofKeyword? (word : List Char) : Option Quantifier :=
  [universal, existential].find? fun q => q.keyword.toList = word

section Reader

variable (lex : Lexicon) (vs : List VarRef)

/-- The variable with the given name. -/
def varNamed? (word : List Char) : Option VarRef := vs.find? fun v => (lex.name v).toList = word

def readName (cs : List Char) : Option (VarRef × List Char) :=
  (varNamed? lex vs (splitWord cs).1).map (·, (splitWord cs).2)

/-- A variable with its type. -/
def readBinding (cs : List Char) : Option (VarRef × List Char) := do
  let (v, cs) ← readName lex vs cs
  let cs ← skip (": " ++ (lex.ty v).render) cs
  pure (v, cs)

/-- What a word says that stands alone: a literal or a variable. -/
def readAtom (word : List Char) : Option Expr :=
  if word = "true".toList then some (.lit (.bool true))
  else if word = "false".toList then some (.lit (.bool false))
  else if word.head?.any Char.isDigit then
    some (.lit (numeral (numberOf (word.takeWhile Char.isDigit)) (word.dropWhile Char.isDigit)))
  else (varNamed? lex vs word).map .var

section Layers

variable (read : List Char → Option (Expr × List Char))

/-- What follows the opening parenthesis behind a word. -/
def readApplication (word cs : List Char) : Option (Expr × List Char) :=
  if word = "old".toList then do
    let (e, cs) ← read cs
    let cs ← skip ")" cs
    pure (.old e, cs)
  else do
    let (args, cs) := readList read cs
    let cs ← skip ")" cs
    pure (.call (String.ofList word) args, cs)

/-- What follows the keyword of a quantifier. -/
def readQuantified (q : Quantifier) (cs : List Char) : Option (Expr × List Char) := do
  let (bound, cs) := readList (readBinding lex vs) cs
  let cs ← skip " :: " cs
  let (body, cs) ← read cs
  let cs ← skip ")" cs
  pure (.quant q bound body, cs)

def readBinary (cs : List Char) : Option (Expr × List Char) := do
  let (l, cs) ← read cs
  let cs ← skip " " cs
  let op ← BinaryOp.ofSymbol? (cs.takeWhile (· ≠ ' '))
  let cs ← skip " " (cs.dropWhile (· ≠ ' '))
  let (r, cs) ← read cs
  let cs ← skip ")" cs
  pure (.binary op l r, cs)

/-- What follows an opening parenthesis that stands at the start. -/
def readParenthesized (cs : List Char) : Option (Expr × List Char) :=
  match skip "- " cs with
  | some cs => do
    let (e, cs) ← read cs
    let cs ← skip ")" cs
    pure (.unary .neg e, cs)
  | none =>
    match Quantifier.ofKeyword? (splitWord cs).1 with
    | some q => do
      let cs ← skip " " (splitWord cs).2
      readQuantified lex vs read q cs
    | none => readBinary read cs

/-- A text that starts with a word. -/
def readOperand (cs : List Char) : Option (Expr × List Char) :=
  match skip "(" (splitWord cs).2 with
  | some rest => readApplication read (splitWord cs).1 rest
  | none => (readAtom lex vs (splitWord cs).1).map (·, (splitWord cs).2)

/-- One layer of an expression. The first character decides what it is. -/
def readLayer : List Char → Option (Expr × List Char)
  | '!' :: cs => (read cs).map fun x => (.unary .not x.1, x.2)
  | '(' :: cs => readParenthesized lex vs read cs
  | '-' :: cs =>
    some (.lit (.int (-numberOf (cs.takeWhile Char.isDigit))), cs.dropWhile Char.isDigit)
  | cs => readOperand lex vs read cs

end Layers

/-- Reads an expression, in which `n` bounds the number of layers, and returns what is left. -/
def readExpr : Nat → List Char → Option (Expr × List Char)
  | 0, _ => none
  | n + 1, cs => readLayer lex vs (readExpr n) cs

/-- What follows the keyword of an assertion or an assumption. -/
def readCondition (make : Expr → Command Expr) (cs : List Char) :
    Option (Command Expr × List Char) := do
  let cs ← skip " " cs
  let (e, cs) ← readExpr lex vs (cs.length + 1) cs
  let cs ← skip ";" cs
  pure (make e, cs)

def readAssignment (cs : List Char) : Option (Command Expr × List Char) := do
  let (targets, cs) := readList (readName lex vs) cs
  let cs ← skip " := " cs
  let (values, cs) := readList (readExpr lex vs (cs.length + 1)) cs
  let cs ← skip ";" cs
  pure (.assign (targets.zip values), cs)

/-- Reads a command, and returns what is left. -/
def readCommand (cs : List Char) : Option (Command Expr × List Char) :=
  if (splitWord cs).1 = "assert".toList then readCondition lex vs .assert (splitWord cs).2
  else if (splitWord cs).1 = "assume".toList then readCondition lex vs .assume (splitWord cs).2
  else readAssignment lex vs cs

end Reader

/-! ## Words -/

theorem skip_append (text : String) (cs : List Char) : skip text (text.toList ++ cs) = some cs := by
  rw [skip, if_pos (List.prefix_append _ _), List.drop_left]

/-- A text that starts otherwise. -/
theorem skip_eq_none {text : String} {cs : List Char} (h : ¬text.toList <+: cs) :
    skip text cs = none :=
  if_neg h

theorem splitWord_append {word rest : List Char} (hword : ∀ c ∈ word, isNameChar c)
    (hrest : ∀ c ∈ rest.head?, isNameChar c = false) : splitWord (word ++ rest) = (word, rest) := by
  rw [splitWord, List.takeWhile_append_of_pos hword, List.dropWhile_append_of_pos hword]
  cases rest with
  | nil => simp
  | cons c cs =>
    have hc := hrest c rfl
    simp [hc]

/-- What holds of the first character of a text, whatever follows the text. -/
theorem forall_head?_append {P : Char → Prop} {text : String} (h : ∃ c ∈ text.toList.head?, P c)
    (rest : List Char) : ∀ c ∈ (text.toList ++ rest).head?, P c := by
  obtain ⟨c, hc, hP⟩ := h
  intro d hd
  rw [List.head?_append, Option.mem_def.1 hc] at hd
  cases hd
  exact hP

/-- What follows does not continue a word, and makes no call of it. -/
def Stops (rest : List Char) : Prop := ∀ c ∈ rest.head?, isNameChar c = false ∧ c ≠ '('

theorem stops_nil : Stops [] := by simp [Stops]

theorem stops_append {text : String} {rest : List Char}
    (h : ∃ c ∈ text.toList.head?, isNameChar c = false ∧ c ≠ '(') : Stops (text.toList ++ rest) :=
  forall_head?_append h rest

theorem Stops.notName {rest : List Char} (h : Stops rest) :
    ∀ c ∈ rest.head?, isNameChar c = false :=
  fun c hc => (h c hc).1

theorem numberOf_toString (n : Nat) : numberOf (toString n).toList = n := by
  rw [toList_toString, numberOf, Nat.ofDigitChars_toDigits (by omega) (by omega)]

theorem toString_ne_nil (n : Nat) : (toString n).toList ≠ [] := by
  rw [toList_toString]
  exact Nat.toDigits_ne_nil

theorem exists_first_digit (n : Nat) :
    ∃ d ds, (toString n).toList = d :: ds ∧ d.isDigit := by
  obtain ⟨d, ds, hdigits⟩ := List.exists_cons_of_ne_nil (toString_ne_nil n)
  exact ⟨d, ds, hdigits, isDigit_of_mem_toString (by rw [hdigits]; exact List.mem_cons_self)⟩

theorem isNameChar_of_mem_toString (n : Nat) : ∀ c ∈ (toString n).toList, isNameChar c :=
  fun _ hc => isNameChar_of_isDigit (isDigit_of_mem_toString hc)

theorem Literal.render_negSucc (n : Nat) :
    (Literal.int (.negSucc n)).render.toList = '-' :: (toString (n + 1)).toList := by
  show ("-" ++ toString (n + 1)).toList = _
  rw [String.toList_append]
  rfl

/-- A bit vector is printed as one word. -/
theorem Literal.render_bits (value width : Nat) :
    (Literal.bits value width).render.toList =
        (toString value).toList ++ ('b' :: 'v' :: (toString width).toList) ∧
      ∀ c ∈ (Literal.bits value width).render.toList, isNameChar c := by
  have text : (Literal.bits value width).render.toList =
      (toString value).toList ++ ('b' :: 'v' :: (toString width).toList) := by
    rw [render, String.toList_append, String.toList_append, List.append_assoc]
    rfl
  refine ⟨text, ?_⟩
  rw [text]
  exact List.forall_mem_append.2 ⟨isNameChar_of_mem_toString value, List.forall_mem_cons.2
    ⟨by decide, List.forall_mem_cons.2 ⟨by decide, isNameChar_of_mem_toString width⟩⟩⟩

/-- Digits in front of something else. -/
theorem splitDigits_append (n : Nat) {rest : List Char} (h : ∀ c ∈ rest.head?, c.isDigit = false) :
    ((toString n).toList ++ rest).takeWhile Char.isDigit = (toString n).toList ∧
      ((toString n).toList ++ rest).dropWhile Char.isDigit = rest := by
  have digits : ∀ c ∈ (toString n).toList, c.isDigit := fun c hc => isDigit_of_mem_toString hc
  rw [List.takeWhile_append_of_pos digits, List.dropWhile_append_of_pos digits]
  cases rest with
  | nil => simp
  | cons c cs =>
    have hc := h c rfl
    simp [hc]

/-! ## Lists -/

/-- The reader finds `a` in the text, whatever follows. -/
def ReadsAs {α : Type} (read : List Char → Option (α × List Char)) (text : String) (a : α) : Prop :=
  ∀ rest, Stops rest → read (text.toList ++ rest) = some (a, rest)

/-- A text is read as one thing only. -/
theorem ReadsAs.unique {α : Type} {read : List Char → Option (α × List Char)} {text : String}
    {a b : α} (h : ReadsAs read text a) (k : ReadsAs read text b) : a = b :=
  congrArg Prod.fst (Option.some.inj ((h [] stops_nil).symm.trans (k [] stops_nil)))

theorem commaSeparated_cons_cons (text text' : String) (texts : List String) :
    (commaSeparated (text :: text' :: texts)).toList =
      text.toList ++ (", ".toList ++ (commaSeparated (text' :: texts)).toList) := by
  rw [commaSeparated, String.intercalate_cons_cons, String.toList_append, String.toList_append,
    List.append_assoc]
  rfl

theorem length_le_commaSeparated (texts : List String) :
    texts.length ≤ (commaSeparated texts).toList.length + 1 := by
  induction texts with
  | nil => simp
  | cons text texts ih =>
    cases texts with
    | nil => simp
    | cons text' texts =>
      have comma : ", ".toList.length = 2 := rfl
      rw [commaSeparated_cons_cons]
      simp only [List.length_append, List.length_cons, comma] at ih ⊢
      omega

theorem length_le_commaSeparated_of_mem {texts : List String} {text : String} (h : text ∈ texts) :
    text.toList.length ≤ (commaSeparated texts).toList.length := by
  induction texts with
  | nil => cases h
  | cons first texts ih =>
    cases texts with
    | nil =>
      obtain rfl := List.mem_singleton.1 h
      exact Nat.le_refl _
    | cons second texts =>
      rw [commaSeparated_cons_cons]
      simp only [List.length_append]
      rcases List.mem_cons.1 h with rfl | h
      · omega
      · have := ih h
        omega

section Lists

variable {α : Type} {item : List Char → Option (α × List Char)} {texts : List String} {as : List α}

theorem readItems_commaSeparated (h : List.Forall₂ (ReadsAs item) texts as) {rest : List Char}
    (hrest : Stops rest) (hitem : item rest = none) (hcomma : skip ", " rest = none) :
    ∀ {n}, as.length ≤ n →
      readItems item n ((commaSeparated texts).toList ++ rest) = (as, rest) := by
  induction h with
  | nil =>
    intro n _
    cases n with
    | zero => rfl
    | succ n =>
      show readItems item (n + 1) rest = ([], rest)
      simp only [readItems, hitem]
  | @cons text a texts as ha has ih =>
    intro n hn
    cases n with
    | zero => cases hn
    | succ n =>
      have hn : as.length ≤ n := Nat.le_of_succ_le_succ hn
      cases has with
      | nil =>
        have first := ha rest hrest
        show readItems item (n + 1) (text.toList ++ rest) = ([a], rest)
        simp only [readItems, first, hcomma]
      | @cons text' _ texts _ _ _ =>
        have first := ha (", ".toList ++ ((commaSeparated (text' :: texts)).toList ++ rest))
          (stops_append ⟨',', rfl, by decide⟩)
        rw [commaSeparated_cons_cons, List.append_assoc, List.append_assoc, readItems, first]
        simp only [skip_append, ih hn]

/-- A list of items is read up to what is no item. -/
theorem readList_commaSeparated (h : List.Forall₂ (ReadsAs item) texts as) {rest : List Char}
    (hrest : Stops rest) (hitem : item rest = none) (hcomma : skip ", " rest = none) :
    readList item ((commaSeparated texts).toList ++ rest) = (as, rest) := by
  refine readItems_commaSeparated h hrest hitem hcomma ?_
  have := length_le_commaSeparated texts
  rw [← h.length_eq, List.length_append]
  omega

end Lists

/-! ## One layer -/

section Layers

variable {lex : Lexicon} {vs : List VarRef} {read : List Char → Option (Expr × List Char)}

theorem varNamed?_name (h : lex.Readable vs) {v : VarRef} (hv : v ∈ vs) :
    varNamed? lex vs (lex.name v).toList = some v := by
  rw [varNamed?]
  cases hfind : vs.find? fun w => (lex.name w).toList = (lex.name v).toList with
  | none => exact absurd (List.find?_eq_none.1 hfind v hv) (by simp)
  | some w =>
    have same : lex.name w = lex.name v := by
      simpa [String.toList_inj] using List.find?_some hfind
    rw [h.injective w (List.mem_of_find?_eq_some hfind) v hv same]

/-- Variables have names. -/
theorem varNamed?_nil (h : lex.Readable vs) : varNamed? lex vs [] = none :=
  List.find?_eq_none.2 fun v hv => by simpa using (h.identifier v hv).nonempty

theorem reads_name (h : lex.Readable vs) {v : VarRef} (hv : v ∈ vs) :
    ReadsAs (readName lex vs) (lex.name v) v := by
  intro rest hrest
  rw [readName, splitWord_append (h.identifier v hv).chars hrest.notName]
  simp only [varNamed?_name h hv, Option.map_some]

/-- A name is followed by a type in a way that ends it. -/
theorem reads_binding (h : lex.Readable vs) {v : VarRef} (hv : v ∈ vs) :
    ReadsAs (readBinding lex vs) (lex.binding v) v := by
  intro rest _
  have named := reads_name h hv (((": " ++ (lex.ty v).render).toList) ++ rest)
    (stops_append ⟨':', by rw [String.toList_append]; rfl, by decide⟩)
  have text : (lex.binding v).toList ++ rest =
      (lex.name v).toList ++ ((": " ++ (lex.ty v).render).toList ++ rest) := by
    rw [Lexicon.binding, String.append_assoc, String.toList_append, List.append_assoc]
  rw [text, readBinding, named]
  simp only [Option.bind_eq_bind, Option.bind_some, skip_append]
  rfl

/-! ### Words -/

theorem readLayer_word {word : List Char} (hne : word ≠ []) (hword : ∀ c ∈ word, isNameChar c)
    (rest : List Char) :
    readLayer lex vs read (word ++ rest) = readOperand lex vs read (word ++ rest) := by
  cases word with
  | nil => exact absurd rfl hne
  | cons c cs =>
    have hc := hword c List.mem_cons_self
    rw [List.cons_append, readLayer]
    all_goals
      rintro _ heq
      cases heq
      revert hc
      decide

/-- A word that no call is made of. -/
theorem readLayer_atom {word : List Char} (hne : word ≠ []) (hword : ∀ c ∈ word, isNameChar c)
    {rest : List Char} (hrest : Stops rest) :
    readLayer lex vs read (word ++ rest) = (readAtom lex vs word).map (·, rest) := by
  have noCall : skip "(" rest = none := by
    refine skip_eq_none ?_
    rintro ⟨cs, rfl⟩
    exact (hrest '(' rfl).2 rfl
  rw [readLayer_word hne hword, readOperand, splitWord_append hword hrest.notName]
  simp only [noCall]

/-- A word that a call is made of. -/
theorem readLayer_application {word : List Char} (hne : word ≠ [])
    (hword : ∀ c ∈ word, isNameChar c) (rest : List Char) :
    readLayer lex vs read (word ++ ("(".toList ++ rest)) = readApplication read word rest := by
  have stop : ∀ c ∈ ("(".toList ++ rest).head?, isNameChar c = false :=
    forall_head?_append ⟨'(', rfl, by decide⟩ rest
  rw [readLayer_word hne hword, readOperand, splitWord_append hword stop]
  simp only [skip_append]

theorem reads_var (h : lex.Readable vs) {v : VarRef} (hv : v ∈ vs) :
    ReadsAs (readLayer lex vs read) (lex.name v) (.var v) := by
  intro rest hrest
  have name := h.identifier v hv
  have notTrue : (lex.name v).toList ≠ "true".toList := fun heq =>
    name.notKeyword (by rw [String.toList_inj.1 heq]; decide)
  have notFalse : (lex.name v).toList ≠ "false".toList := fun heq =>
    name.notKeyword (by rw [String.toList_inj.1 heq]; decide)
  have notDigit : ¬(lex.name v).toList.head?.any Char.isDigit = true := by
    cases hhead : (lex.name v).toList.head? with
    | none => simp
    | some c => simpa using name.first c hhead
  rw [readLayer_atom name.nonempty name.chars hrest, readAtom, if_neg notTrue, if_neg notFalse,
    if_neg notDigit, varNamed?_name h hv]
  rfl

/-- A word that starts with a number. -/
theorem readAtom_number (n : Nat) {suffix : List Char}
    (hsuffix : ∀ c ∈ suffix.head?, c.isDigit = false) :
    readAtom lex vs ((toString n).toList ++ suffix) = some (.lit (numeral n suffix)) := by
  obtain ⟨htake, hdrop⟩ := splitDigits_append n hsuffix
  obtain ⟨d, ds, hdigits, hd⟩ := exists_first_digit n
  have other {text : String} {c : Char} {cs : List Char} (htext : text.toList = c :: cs)
      (hc : c.isDigit = false) : (toString n).toList ++ suffix ≠ text.toList := by
    rw [hdigits, htext]
    rintro heq
    cases heq
    rw [hc] at hd
    cases hd
  have digit : ((toString n).toList ++ suffix).head?.any Char.isDigit = true := by
    rw [hdigits]
    simpa using hd
  rw [readAtom, if_neg (other rfl (by decide)), if_neg (other rfl (by decide)), if_pos digit, htake,
    hdrop, numberOf_toString]

theorem reads_lit (value : Literal) :
    ReadsAs (readLayer lex vs read) value.render (.lit value) := by
  intro rest hrest
  cases value with
  | bool value =>
    cases value with
    | true => exact readLayer_atom (by decide) (by decide) hrest
    | false => exact readLayer_atom (by decide) (by decide) hrest
  | int value =>
    cases value with
    | ofNat n =>
      have atom : readAtom lex vs ((toString n).toList ++ []) = some (.lit (numeral n [])) :=
        readAtom_number n (by simp)
      rw [List.append_nil] at atom
      show readLayer lex vs read ((toString n).toList ++ rest) = some (.lit (.int n), rest)
      rw [readLayer_atom (toString_ne_nil n) (isNameChar_of_mem_toString n) hrest, atom]
      rfl
    | negSucc n =>
      have stop : ∀ c ∈ rest.head?, c.isDigit = false := by
        intro c hc
        by_contra hdigit
        have := isNameChar_of_isDigit (by simpa using hdigit)
        rw [hrest.notName c hc] at this
        cases this
      obtain ⟨htake, hdrop⟩ := splitDigits_append (n + 1) stop
      rw [Literal.render_negSucc, List.cons_append, readLayer, htake, hdrop, numberOf_toString]
      rfl
  | bits value width =>
    obtain ⟨text, chars⟩ := Literal.render_bits value width
    have width_eq : numeral value ('b' :: 'v' :: (toString width).toList) = .bits value width := by
      show Literal.bits value (numberOf (toString width).toList) = _
      rw [numberOf_toString]
    rw [text] at chars ⊢
    rw [readLayer_atom (by simp) chars hrest, readAtom_number value (by simp), width_eq]
    rfl

/-! ### Parentheses -/

/-- What follows an opening parenthesis starts with an operand: neither with the sign of a negation
nor with the keyword of a quantifier. -/
def StartsOperand (cs : List Char) : Prop :=
  skip "- " cs = none ∧ Quantifier.ofKeyword? (splitWord cs).1 = none

theorem startsOperand_word {word rest : List Char} (hne : word ≠ [])
    (hword : ∀ c ∈ word, isNameChar c) (hkeyword : Quantifier.ofKeyword? word = none)
    (hrest : ∀ c ∈ rest.head?, isNameChar c = false) : StartsOperand (word ++ rest) := by
  constructor
  · cases word with
    | nil => exact absurd rfl hne
    | cons c cs =>
      refine skip_eq_none ?_
      rintro ⟨rest, heq⟩
      obtain rfl : '-' = c := congrArg (fun l => l.headD ' ') heq
      exact absurd (hword '-' List.mem_cons_self) (by decide)
  · rw [splitWord_append hword hrest]
    exact hkeyword

/-- A text that starts with no word. -/
theorem startsOperand_cons {c : Char} {cs : List Char} (hname : isNameChar c = false)
    (hsign : ¬"- ".toList <+: c :: cs) : StartsOperand (c :: cs) := by
  refine ⟨skip_eq_none hsign, ?_⟩
  rw [splitWord, List.takeWhile_cons, hname]
  rfl

theorem startsOperand_append {text : String} {rest : List Char}
    (h : ∃ c ∈ text.toList.head?, isNameChar c = false ∧ c ≠ '-') :
    StartsOperand (text.toList ++ rest) := by
  obtain ⟨c, hc, hname, hsign⟩ := h
  obtain ⟨cs, htext⟩ := List.head?_eq_some_iff.1 hc
  rw [htext]
  refine startsOperand_cons hname ?_
  rintro ⟨rest, heq⟩
  exact hsign (congrArg (fun l => l.headD ' ') heq).symm

theorem ofKeyword?_identifier {name : String} (h : IsIdentifier name) :
    Quantifier.ofKeyword? name.toList = none := by
  refine List.find?_eq_none.2 fun q _ => ?_
  simp only [String.toList_inj, decide_eq_true_eq]
  rintro rfl
  exact h.notKeyword (by cases q <;> decide)

theorem ofKeyword?_number (n : Nat) (suffix : List Char) :
    Quantifier.ofKeyword? ((toString n).toList ++ suffix) = none := by
  refine List.find?_eq_none.2 fun q _ => ?_
  obtain ⟨d, ds, hdigits, hd⟩ := exists_first_digit n
  simp only [decide_eq_true_eq, hdigits, List.cons_append]
  intro heq
  obtain rfl : q.keyword.toList.headD ' ' = d := by rw [heq]; rfl
  revert hd
  cases q <;> decide

theorem startsOperand_lit (value : Literal) {rest : List Char}
    (hrest : ∀ c ∈ rest.head?, isNameChar c = false) :
    StartsOperand (value.render.toList ++ rest) := by
  cases value with
  | bool value =>
    cases value with
    | true => exact startsOperand_word (by decide) (by decide) (by decide) hrest
    | false => exact startsOperand_word (by decide) (by decide) (by decide) hrest
  | int value =>
    cases value with
    | ofNat n =>
      have number := ofKeyword?_number n []
      rw [List.append_nil] at number
      exact startsOperand_word (toString_ne_nil n) (isNameChar_of_mem_toString n) number hrest
    | negSucc n =>
      obtain ⟨d, ds, hdigits, hd⟩ := exists_first_digit (n + 1)
      rw [Literal.render_negSucc, hdigits]
      refine startsOperand_cons (by decide) ?_
      rintro ⟨cs, heq⟩
      obtain rfl : ' ' = d := congrArg (fun l => l.tail.headD 'x') heq
      revert hd
      decide
  | bits value width =>
    obtain ⟨text, chars⟩ := Literal.render_bits value width
    rw [text] at chars ⊢
    exact startsOperand_word (by simp) chars (ofKeyword?_number value _) hrest

theorem readParenthesized_operand {cs : List Char} (h : StartsOperand cs) :
    readParenthesized lex vs read cs = readBinary read cs := by
  rw [readParenthesized, h.1]
  simp only [h.2]

theorem ofSymbol?_symbol (op : BinaryOp) : BinaryOp.ofSymbol? op.symbol.toList = some op := by
  cases op <;> decide

theorem reads_not {text : String} {e : Expr} (h : ReadsAs read text e) :
    ReadsAs (readLayer lex vs read) ("!" ++ text) (.unary .not e) := by
  intro rest hrest
  rw [String.toList_append]
  show (read (text.toList ++ rest)).map _ = _
  rw [h rest hrest]
  rfl

theorem reads_neg {text : String} {e : Expr} (h : ReadsAs read text e) :
    ReadsAs (readLayer lex vs read) ("(- " ++ text ++ ")") (.unary .neg e) := by
  intro rest _
  have inner := h (")".toList ++ rest) (stops_append ⟨')', rfl, by decide⟩)
  have chars : ("(- " ++ text ++ ")").toList ++ rest =
      '(' :: ("- ".toList ++ (text.toList ++ (")".toList ++ rest))) := by
    simp only [String.toList_append, List.append_assoc]
    rfl
  rw [chars, readLayer, readParenthesized, skip_append]
  simp only [inner, Option.bind_eq_bind, Option.bind_some, skip_append]
  rfl

theorem reads_old {text : String} {e : Expr} (h : ReadsAs read text e) :
    ReadsAs (readLayer lex vs read) ("old(" ++ text ++ ")") (.old e) := by
  intro rest _
  have inner := h (")".toList ++ rest) (stops_append ⟨')', rfl, by decide⟩)
  have chars : ("old(" ++ text ++ ")").toList ++ rest =
      "old".toList ++ ("(".toList ++ (text.toList ++ (")".toList ++ rest))) := by
    simp only [String.toList_append, List.append_assoc]
    rfl
  rw [chars, readLayer_application (by decide) (by decide), readApplication, if_pos rfl, inner]
  simp only [Option.bind_eq_bind, Option.bind_some, skip_append]
  rfl

theorem reads_binary {op : BinaryOp} {text text' : String} {l r : Expr} (hl : ReadsAs read text l)
    (hr : ReadsAs read text' r)
    (operand : ∀ rest : List Char, (∀ c ∈ rest.head?, isNameChar c = false) →
      StartsOperand (text.toList ++ rest)) :
    ReadsAs (readLayer lex vs read) ("(" ++ text ++ " " ++ op.symbol ++ " " ++ text' ++ ")")
      (.binary op l r) := by
  intro rest _
  -- the symbol ends with the space behind it
  have symbol (cs : List Char) : (op.symbol.toList ++ (" ".toList ++ cs)).takeWhile (· ≠ ' ') =
      op.symbol.toList ∧
        (op.symbol.toList ++ (" ".toList ++ cs)).dropWhile (· ≠ ' ') = " ".toList ++ cs := by
    have noSpace : ∀ c ∈ op.symbol.toList, decide (c ≠ ' ') = true := by
      cases op <;> decide
    rw [List.takeWhile_append_of_pos noSpace, List.dropWhile_append_of_pos noSpace]
    exact ⟨List.append_nil _, rfl⟩
  have chars : ("(" ++ text ++ " " ++ op.symbol ++ " " ++ text' ++ ")").toList ++ rest =
      '(' :: (text.toList ++ (" ".toList ++ (op.symbol.toList ++ (" ".toList ++
        (text'.toList ++ (")".toList ++ rest)))))) := by
    simp only [String.toList_append, List.append_assoc]
    rfl
  have left := hl (" ".toList ++ (op.symbol.toList ++ (" ".toList ++
    (text'.toList ++ (")".toList ++ rest))))) (stops_append ⟨' ', rfl, by decide⟩)
  have right := hr (")".toList ++ rest) (stops_append ⟨')', rfl, by decide⟩)
  have space : ∀ c ∈ (" ".toList ++ (op.symbol.toList ++ (" ".toList ++
      (text'.toList ++ (")".toList ++ rest))))).head?, isNameChar c = false :=
    forall_head?_append ⟨' ', rfl, by decide⟩ _
  rw [chars, readLayer, readParenthesized_operand (operand _ space), readBinary, left]
  simp only [Option.bind_eq_bind, Option.bind_some, skip_append, symbol, ofSymbol?_symbol, right]
  rfl

/-- Nothing that ends a list starts an expression. -/
theorem readLayer_eq_none (h : lex.Readable vs) {c : Char} {cs : List Char}
    (hc : isNameChar c = false) (other : c ∉ ['!', '(', '-']) :
    readLayer lex vs read (c :: cs) = none := by
  have noWord : splitWord (c :: cs) = ([], c :: cs) := by
    rw [splitWord, List.takeWhile_cons, List.dropWhile_cons, hc]
    rfl
  have noCall : skip "(" (c :: cs) = none := by
    refine skip_eq_none ?_
    rintro ⟨rest, heq⟩
    obtain rfl : '(' = c := congrArg (fun l => l.headD ' ') heq
    exact other (by decide)
  have operand : readLayer lex vs read (c :: cs) = readOperand lex vs read (c :: cs) := by
    rw [readLayer]
    all_goals
      rintro _ heq
      cases heq
      exact other (by decide)
  rw [operand, readOperand, noWord, noCall]
  simp only [readAtom, varNamed?_nil h]
  rfl

theorem readName_eq_none (h : lex.Readable vs) {c : Char} {cs : List Char}
    (hc : isNameChar c = false) : readName lex vs (c :: cs) = none := by
  rw [readName, splitWord, List.takeWhile_cons, hc]
  simp only [Bool.false_eq_true, if_false, varNamed?_nil h, Option.map_none]

theorem reads_call {f : String} (hf : IsIdentifier f) {texts : List String}
    {args : List Expr} (hargs : List.Forall₂ (ReadsAs read) texts args)
    (stop : ∀ cs, read (')' :: cs) = none) :
    ReadsAs (readLayer lex vs read) (f ++ "(" ++ commaSeparated texts ++ ")") (.call f args) := by
  intro rest _
  have chars : (f ++ "(" ++ commaSeparated texts ++ ")").toList ++ rest =
      f.toList ++ ("(".toList ++ ((commaSeparated texts).toList ++ (")".toList ++ rest))) := by
    simp only [String.toList_append, List.append_assoc]
  have ends : Stops (")".toList ++ rest) := stops_append ⟨')', rfl, by decide⟩
  have list := readList_commaSeparated hargs ends (stop rest) (skip_eq_none (by simp))
  have notOld : f.toList ≠ "old".toList := fun heq =>
    hf.notKeyword (by rw [String.toList_inj.1 heq]; decide)
  rw [chars, readLayer_application hf.nonempty hf.chars, readApplication, if_neg notOld, list]
  simp only [Option.bind_eq_bind, Option.bind_some, skip_append, String.ofList_toList]
  rfl

theorem reads_quant (h : lex.Readable vs) {q : Quantifier} {bound : List VarRef}
    (hbound : ∀ v ∈ bound, v ∈ vs) {text : String} {e : Expr} (he : ReadsAs read text e) :
    ReadsAs (readLayer lex vs read)
      ("(" ++ q.keyword ++ " " ++ lex.bindings bound ++ " :: " ++ text ++ ")")
      (.quant q bound e) := by
  intro rest _
  have chars : ("(" ++ q.keyword ++ " " ++ lex.bindings bound ++ " :: " ++ text ++ ")").toList ++
      rest = '(' :: (q.keyword.toList ++ (" ".toList ++ ((lex.bindings bound).toList ++
        (" :: ".toList ++ (text.toList ++ (")".toList ++ rest)))))) := by
    simp only [String.toList_append, List.append_assoc]
    rfl
  have word (cs : List Char) : skip "- " (q.keyword.toList ++ (" ".toList ++ cs)) = none ∧
      splitWord (q.keyword.toList ++ (" ".toList ++ cs)) = (q.keyword.toList, " ".toList ++ cs) ∧
      Quantifier.ofKeyword? q.keyword.toList = some q := by
    refine ⟨skip_eq_none (by cases q <;> simp [Quantifier.keyword]), splitWord_append ?_ ?_, ?_⟩
    · cases q <;> decide
    · exact forall_head?_append ⟨' ', rfl, by decide⟩ cs
    · cases q <;> decide
  have items : List.Forall₂ (ReadsAs (readBinding lex vs)) (bound.map lex.binding) bound := by
    rw [List.forall₂_map_left_iff, List.forall₂_same]
    exact fun v hv => reads_binding h (hbound v hv)
  have noItem (cs : List Char) : readBinding lex vs (" :: ".toList ++ cs) = none := by
    show (readName lex vs (' ' :: ':' :: ':' :: ' ' :: cs)).bind _ = none
    rw [readName_eq_none h (by decide)]
    rfl
  have ends : Stops (" :: ".toList ++ (text.toList ++ (")".toList ++ rest))) :=
    stops_append ⟨' ', rfl, by decide⟩
  have list := readList_commaSeparated items ends (noItem _) (skip_eq_none (by simp))
  have inner := he (")".toList ++ rest) (stops_append ⟨')', rfl, by decide⟩)
  rw [chars, readLayer, readParenthesized, (word _).1, (word _).2.1]
  simp only [(word []).2.2, Option.bind_eq_bind, Option.bind_some, skip_append, readQuantified]
  rw [Lexicon.bindings, list]
  simp only [skip_append, inner, Option.bind_some]
  rfl

end Layers

end AtomicMovers
