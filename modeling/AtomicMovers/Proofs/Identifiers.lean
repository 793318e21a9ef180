import AtomicMovers.Proofs.PrintedNames

/-!
# Identifiers

A name is an identifier if it can stand in a text as a word (`IsIdentifier`). Variables are printed
with a mark in front of their names and a number behind; if the names are identifiers, so is what is
printed (`IsIdentifier.shownName`, `IsIdentifier.chainName`).

What a reader of a text needs to know of the names is collected in `Lexicon.Readable`: they are
identifiers, and different variables have different names. Names as they are given in a declaration
are readable (`Program.readable_lexicon`).
-/

namespace AtomicMovers

open Program

/-! ## Words -/

/-- What holds of all characters of a text is decided along the text. (A condition on all characters
could also be decided by trying every character there is.) -/
instance decidableForallChars (cs : List Char) (P : Char → Prop) [DecidablePred P] :
    Decidable (∀ c ∈ cs, P c) :=
  List.decidableBAll P cs

instance decidableForallChar (c? : Option Char) (P : Char → Prop) [DecidablePred P] :
    Decidable (∀ c ∈ c?, P c) :=
  Option.decidableForallMem c?

/-- A character of a name. Outside ASCII every character counts as a letter, so that whatever is
taken for a letter is one. -/
def isNameChar (c : Char) : Bool := c.isAlphanum || c = '_' || 128 ≤ c.toNat

/-- The words that have a meaning of their own. -/
def keywords : List String := ["true", "false", "old", "forall", "exists", "assert", "assume"]

/-- The name starts with a letter or an underscore, goes on with letters, digits and underscores,
and is no keyword. -/
@[mk_iff]
structure IsIdentifier (name : String) : Prop where
  nonempty : name.toList ≠ []
  chars : ∀ c ∈ name.toList, isNameChar c
  first : ∀ c ∈ name.toList.head?, c.isDigit = false
  notKeyword : name ∉ keywords

instance (name : String) : Decidable (IsIdentifier name) :=
  decidable_of_iff _ (isIdentifier_iff name).symm

theorem isNameChar_of_isDigit {c : Char} (h : c.isDigit) : isNameChar c := by
  simp [isNameChar, Char.isAlphanum, h]

/-! ## Names as they are printed -/

/-- No keyword has an underscore. -/
theorem IsIdentifier.of_underscore {name : String} (chars : ∀ c ∈ name.toList, isNameChar c)
    (first : ∀ c ∈ name.toList.head?, c.isDigit = false) (bar : '_' ∈ name.toList) :
    IsIdentifier name where
  nonempty := List.ne_nil_of_mem bar
  chars := chars
  first := first
  notKeyword hmem := by
    have plain : ∀ word ∈ keywords, '_' ∉ word.toList := by decide
    exact plain name hmem bar

/-- An identifier with a number behind it. -/
theorem IsIdentifier.chainName {name : String} (h : IsIdentifier name) (k : Nat) :
    IsIdentifier (chainName name k) := by
  cases k with
  | zero => exact h
  | succ k =>
    have chars : (AtomicMovers.chainName name (k + 1)).toList =
        name.toList ++ '_' :: (toString (k + 1)).toList := by
      simp [AtomicMovers.chainName, String.toList_append]
    refine IsIdentifier.of_underscore ?_ ?_ (by simp [chars])
    · rw [chars]
      refine List.forall_mem_append.2 ⟨h.chars, List.forall_mem_cons.2 ⟨by decide, fun c hc => ?_⟩⟩
      exact isNameChar_of_isDigit (isDigit_of_mem_toString hc)
    · rw [chars, List.head?_append_of_ne_nil _ h.nonempty]
      exact h.first

/-- An identifier with the mark of a state copy in front of it. -/
theorem IsIdentifier.shownName {x : Variable} (h : IsIdentifier x.name) :
    IsIdentifier x.shownName := by
  have marked {mark : String} (hmark : mark.toList ≠ []) (hchars : ∀ c ∈ mark.toList, isNameChar c)
      (hfirst : ∀ c ∈ mark.toList.head?, c.isDigit = false) (bar : '_' ∈ mark.toList) :
      IsIdentifier (mark ++ x.name) := by
    refine IsIdentifier.of_underscore ?_ ?_ ?_ <;> rw [String.toList_append]
    · exact List.forall_mem_append.2 ⟨hchars, h.chars⟩
    · rw [List.head?_append_of_ne_nil _ hmark]
      exact hfirst
    · exact List.mem_append.2 (.inl bar)
  rw [Variable.shownName]
  cases x.copy with
  | own => rwa [StateCopy.mark, String.empty_append]
  | shadow => exact marked (by decide) (by decide) (by decide) (by decide)
  | before => exact marked (by decide) (by decide) (by decide) (by decide)
  | after => exact marked (by decide) (by decide) (by decide) (by decide)

/-! ## Names in a scope -/

/-- All names that were given are identifiers. -/
def NameScope.GivesIdentifiers (s : NameScope) : Prop :=
  ∀ v name, s.names.lookup v = some name → IsIdentifier name

section Scope

variable {p : Program}

theorem NameScope.GivesIdentifiers.giveName {s : NameScope} (h : s.GivesIdentifiers) {v : VarRef}
    (hv : IsIdentifier (p.var v).name) : (s.giveName p v).GivesIdentifiers := by
  intro w name hw
  rw [lookup_giveName] at hw
  split at hw
  · cases hlookup : s.names.lookup v with
    | some name' =>
      rw [hlookup] at hw
      cases hw
      exact h v _ hlookup
    | none =>
      rw [hlookup] at hw
      cases hw
      obtain ⟨k, -, hname, -⟩ := freshName_spec s.taken (p.var v).shownName
      rw [Option.getD_none, hname]
      exact hv.shownName.chainName k
  · exact h w name hw

theorem NameScope.GivesIdentifiers.giveNames {vs : List VarRef}
    (hvs : ∀ v ∈ vs, IsIdentifier (p.var v).name) :
    ∀ {s : NameScope}, s.GivesIdentifiers → (s.giveNames p vs).GivesIdentifiers := by
  induction vs with
  | nil => exact fun h => h
  | cons v vs ih =>
    intro s h
    rw [List.forall_mem_cons] at hvs
    exact ih hvs.2 (h.giveName hvs.1)

/-- The names that a text starts with. -/
theorem NameScope.givesIdentifiers_ofProgram
    (named : ∀ v ∈ p.namedRefs, IsIdentifier (p.var v).name) :
    (NameScope.ofProgram p).GivesIdentifiers := by
  intro v name hname
  rw [ofProgram, lookup_enter] at hname
  split at hname
  · cases hname
    exact named v ‹_›
  · cases hname

end Scope

/-! ## Readable names -/

/-- The variables `vs` have different names, which are identifiers. -/
structure Lexicon.Readable (lex : Lexicon) (vs : List VarRef) : Prop where
  identifier : ∀ v ∈ vs, IsIdentifier (lex.name v)
  injective : ∀ v ∈ vs, ∀ w ∈ vs, lex.name v = lex.name w → v = w

theorem Program.readable_lexicon {p : Program}
    (distinct : ∀ v ∈ p.namedRefs, ∀ w ∈ p.namedRefs, (p.var v).name = (p.var w).name → v = w)
    (named : ∀ v ∈ p.namedRefs, IsIdentifier (p.var v).name) {vs : List VarRef}
    (mentioned : ∀ v ∈ vs, IsIdentifier (p.var v).name) : (p.lexicon vs).Readable vs where
  identifier v hv := by
    have gives := (NameScope.givesIdentifiers_ofProgram named).giveNames mentioned
    obtain ⟨name, hname⟩ := NameScope.exists_name_giveNames (p := p) hv (.ofProgram p)
    show IsIdentifier (NameScope.nameOf p _ v)
    rw [NameScope.nameOf, hname]
    exact gives v name hname
  injective := by
    have spelled : Spells (fun v => (p.var v).ty) (fun lex => lex.bindings vs) vs :=
      spells_bindings _ vs
    exact (spelled.printedApart distinct).injective

end AtomicMovers
