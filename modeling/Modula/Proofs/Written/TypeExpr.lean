import Modula.Proofs.Written.Expr
import Modula.Proofs.Grammar.TypeExpr
/-!
# Types written down

  Nested arrays are written one inside the other, without lists of indexes, and a variant part without
  a tag field is written without a colon.

  Unlike expressions, not every tree of a type can be written.  The grammar has only simple types for
  the index of an array and for the base of a set, and it leaves no list of entries, of arms or of
  labels empty.  `isGrammatical` asks for that, and for names and literals that can be spelled.
-/

namespace Modula

open Token.Kind (word symbol)

/-! ## Procedure types -/

def FormalType.tokens (p : FormalType) : List Token.Kind :=
  formalMode p.isVar p.isOpenArray ++ p.type.tokens

/-- The result of a procedure type, if there is one. -/
def Qualident.tokensOfResult : Option Qualident → List Token.Kind
  | none => []
  | some type => symbol .colon :: type.tokens

def FormalTypes.tokens (f : FormalTypes) : List Token.Kind :=
  symbol .openParen :: (separatedBy (symbol .comma) (f.params.map FormalType.tokens) ++
    symbol .closeParen :: Qualident.tokensOfResult f.result)

def FormalTypes.isGrammatical (f : FormalTypes) : Bool :=
  f.params.all (fun p => p.type.isGrammatical) && f.result.all Qualident.isGrammatical

/-- The marks that the tree tells of, and the name. -/
theorem FormalType.isFormal_tokens (p : FormalType) : IsFormal p.tokens (p.relabel .forget) :=
  .formal p.isVar p.isOpenArray p.type.isQualident_tokens

/-- An empty list of parameters keeps its parentheses. -/
theorem FormalTypes.isFormals_tokens (f : FormalTypes) :
    IsFormals f.tokens (f.relabel .forget) := by
  rcases f with ⟨params, result, span⟩
  refine .formals ?_ ?_
  · cases params with
    | nil => exact .none
    | cons p ps =>
      exact .some (Separated.of_map (List.cons_ne_nil p ps) fun p _ => p.isFormal_tokens)
  · cases result with
    | none => exact .none
    | some type => exact .some type.isQualident_tokens

theorem spellable_formalMode (isVar isOpenArray : Bool) :
    Spellable (formalMode isVar isOpenArray) := by
  unfold Spellable
  cases isVar <;> cases isOpenArray <;> decide

theorem FormalType.spellable_tokens {p : FormalType} (h : p.type.isGrammatical = true) :
    Spellable p.tokens :=
  spellable_append.2 ⟨spellable_formalMode p.isVar p.isOpenArray, Qualident.spellable_tokens h⟩

/-- If the names of all types in it can be spelled. -/
theorem FormalTypes.spellable_tokens {f : FormalTypes} (h : f.isGrammatical = true) :
    Spellable f.tokens := by
  obtain ⟨hparams, hresult⟩ := Bool.and_eq_true_iff.1 h
  have hlist : ∀ p ∈ f.params, Spellable p.tokens :=
    fun p hp => FormalType.spellable_tokens (List.all_eq_true.1 hparams p hp)
  have hend : Spellable (Qualident.tokensOfResult f.result) := by
    cases hr : f.result with
    | none => exact spellable_nil
    | some type =>
      rw [hr] at hresult
      exact spellable_cons.2 ⟨rfl, Qualident.spellable_tokens hresult⟩
  rw [tokens, spellable_cons, spellable_append, spellable_cons]
  exact ⟨rfl, .separatedBy_map rfl hlist, rfl, hend⟩

/-! ## Types and the entries of records -/

/-- The tag of a variant part, with the name of the tag field if there is one. -/
def Qualident.tokensOfTag (type : Qualident) : Option Ident → List Token.Kind
  | none => type.tokens
  | some tag => tag.tokens ++ symbol .colon :: type.tokens

mutual

def TypeExpr.tokens : TypeExpr → List Token.Kind
  | ⟨_, kind, _⟩ => kind.tokens

def TypeKind.tokens : TypeKind → List Token.Kind
  | .named name => name.tokens
  | .enumeration names => parenthesized names.tokens
  | .subrange low high =>
    symbol .openBracket ::
      (low.tokens ++ symbol .ellipsis :: (high.tokens ++ [symbol .closeBracket]))
  | .array index element => word .ARRAY :: (index.tokens ++ word .OF :: element.tokens)
  | .record entries =>
    word .RECORD ::
      (separatedBy (symbol .semicolon) (FieldList.tokensOfAll entries) ++ [word .END])
  | .set base => word .SET :: word .OF :: base.tokens
  | .pointer target => word .POINTER :: word .TO :: target.tokens
  | .procedure none => [word .PROCEDURE]
  | .procedure (some formals) => word .PROCEDURE :: formals.tokens

def FieldList.tokens : FieldList → List Token.Kind
  | ⟨kind, _⟩ => kind.tokens

def FieldKind.tokens : FieldKind → List Token.Kind
  | .fields names type => names.tokens ++ symbol .colon :: type.tokens
  | .variants tag tagType arms otherwise =>
    word .CASE :: (tagType.tokensOfTag tag ++ word .OF ::
      (separatedBy (symbol .bar) (Variant.tokensOfAll arms) ++
        (FieldList.tokensOfElse otherwise ++ [word .END])))

def Variant.tokens : Variant → List Token.Kind
  | ⟨labels, entries, _⟩ =>
    separatedBy (symbol .comma) (labels.map RangeItem.tokens) ++ symbol .colon ::
      separatedBy (symbol .semicolon) (FieldList.tokensOfAll entries)

def FieldList.tokensOfAll : List FieldList → List (List Token.Kind)
  | [] => []
  | e :: es => e.tokens :: FieldList.tokensOfAll es

def Variant.tokensOfAll : List Variant → List (List Token.Kind)
  | [] => []
  | v :: vs => v.tokens :: Variant.tokensOfAll vs

/-- The `ELSE` part of a variant part, if there is one. -/
def FieldList.tokensOfElse : Option (List FieldList) → List Token.Kind
  | none => []
  | some es => word .ELSE :: separatedBy (symbol .semicolon) (FieldList.tokensOfAll es)

end

/-- Whether the type is a named type, an enumeration or a subrange. -/
def TypeExpr.isSimple (t : TypeExpr) : Bool :=
  match t.kind with
  | .named _ | .enumeration _ | .subrange _ _ => true
  | _ => false

mutual

/-- Whether the grammar has a sentence for the type, of tokens that can be spelled. -/
def TypeExpr.isGrammatical : TypeExpr → Bool
  | ⟨_, kind, _⟩ => kind.isGrammatical

def TypeKind.isGrammatical : TypeKind → Bool
  | .named name => name.isGrammatical
  | .enumeration names => names.isGrammatical
  | .subrange low high => low.isGrammatical && high.isGrammatical
  | .array index element => index.isSimple && (index.isGrammatical && element.isGrammatical)
  | .record entries => !entries.isEmpty && FieldList.areGrammatical entries
  | .set base => base.isSimple && base.isGrammatical
  | .pointer target => target.isGrammatical
  | .procedure formals => formals.all FormalTypes.isGrammatical

def FieldList.isGrammatical : FieldList → Bool
  | ⟨kind, _⟩ => kind.isGrammatical

def FieldKind.isGrammatical : FieldKind → Bool
  | .fields names type => names.isGrammatical && type.isGrammatical
  | .variants tag tagType arms otherwise =>
    (tag.all Ident.isGrammatical && tagType.isGrammatical) &&
      ((!arms.isEmpty && Variant.areGrammatical arms) && FieldList.isGrammaticalElse otherwise)

def Variant.isGrammatical : Variant → Bool
  | ⟨labels, entries, _⟩ =>
    (!labels.isEmpty && labels.all RangeItem.isGrammatical) &&
      (!entries.isEmpty && FieldList.areGrammatical entries)

def FieldList.areGrammatical : List FieldList → Bool
  | [] => true
  | e :: es => e.isGrammatical && FieldList.areGrammatical es

def Variant.areGrammatical : List Variant → Bool
  | [] => true
  | v :: vs => v.isGrammatical && Variant.areGrammatical vs

def FieldList.isGrammaticalElse : Option (List FieldList) → Bool
  | none => true
  | some es => !es.isEmpty && FieldList.areGrammatical es

end

theorem FieldList.tokensOfAll_eq_map (l : List FieldList) :
    FieldList.tokensOfAll l = l.map FieldList.tokens := by
  induction l with
  | nil => rfl
  | cons e es ih => rw [FieldList.tokensOfAll, ih, List.map_cons]

theorem Variant.tokensOfAll_eq_map (l : List Variant) :
    Variant.tokensOfAll l = l.map Variant.tokens := by
  induction l with
  | nil => rfl
  | cons v vs ih => rw [Variant.tokensOfAll, ih, List.map_cons]

/-! ## What the grammar says -/

/-- Lists that must not be empty are asked for as truth values. -/
theorem ne_nil_of_isEmpty {α : Type} {l : List α} (h : (!l.isEmpty) = true) : l ≠ [] := by
  rintro rfl
  cases h

/-- A tag without a name is written as a type alone. -/
theorem Qualident.isTag_tokens (type : Qualident) (tag : Option Ident) :
    IsTag (type.tokensOfTag tag) (tag.map (Ident.relabel .forget), type.relabel .forget) := by
  cases tag with
  | none => exact .typeOnly type.isQualident_tokens
  | some tag => exact .named tag.isIdent_tokens type.isQualident_tokens

/-- One or more entries, each of which stands for itself. -/
theorem IsEntries.of_map {l : List FieldList} (hne : (!l.isEmpty) = true)
    (h : ∀ e ∈ l, IsEntry e.tokens (e.relabel .forget)) :
    IsEntries (separatedBy (symbol .semicolon) (FieldList.tokensOfAll l))
      (FieldList.relabelAll .forget l) := by
  rw [FieldList.tokensOfAll_eq_map, FieldList.relabelAll_eq_map]
  induction l with
  | nil => cases hne
  | cons e l ih =>
    have he := h e (List.mem_cons_self ..)
    cases l with
    | nil =>
      rw [List.map_singleton, List.map_singleton, separatedBy_singleton]
      exact .one he
    | cons e' l =>
      rw [List.map_cons, List.map_cons, separatedBy_cons]
      exact .more he (ih rfl fun e'' he'' => h e'' (List.mem_cons_of_mem e he''))

/-- Arms with bars, of which there is at least one. -/
theorem Separated.arms {l : List Variant} (hne : (!l.isEmpty) = true)
    (h : ∀ v ∈ l, IsArm v.tokens (v.relabel .forget)) :
    Separated (symbol .bar) IsArm (separatedBy (symbol .bar) (Variant.tokensOfAll l))
      (Variant.relabelAll .forget l) := by
  rw [Variant.tokensOfAll_eq_map, Variant.relabelAll_eq_map]
  exact .of_map (ne_nil_of_isEmpty hne) h

/-- The index types of arrays and the base types of sets have to be simple. -/
theorem TypeExpr.isSimpleType_tokens {t : TypeExpr} (h : t.isSimple = true) :
    IsSimpleType t.tokens (t.relabel .forget) := by
  rcases t with ⟨id, kind, span⟩
  cases kind with
  | named name => exact .named name.isQualident_tokens
  | enumeration names => exact .enumeration names.isIdentList_tokens
  | subrange low high => exact .subrange low.isExpr_tokens high.isExpr_tokens
  | _ => cases h

mutual

/-- What is written down for a grammatical type stands for it. -/
theorem TypeExpr.isType_tokens :
    ∀ t : TypeExpr, t.isGrammatical = true → IsType t.tokens (t.relabel .forget)
  | ⟨_, kind, _⟩, h => kind.isType_tokens h

/-- One case for each kind of type.  A list without entries could not be written, so it is excluded. -/
theorem TypeKind.isType_tokens : ∀ kind : TypeKind, kind.isGrammatical = true →
    IsType kind.tokens ⟨0, kind.relabel .forget, .nowhere⟩
  | .named name, _ => .simple (.named name.isQualident_tokens)
  | .enumeration names, _ => .simple (.enumeration names.isIdentList_tokens)
  | .subrange low high, _ => .simple (.subrange low.isExpr_tokens high.isExpr_tokens)
  | .array index element, h => by
    obtain ⟨hsimple, hparts⟩ := Bool.and_eq_true_iff.1 h
    have hindex := TypeExpr.isSimpleType_tokens hsimple
    have helement := element.isType_tokens (Bool.and_eq_true_iff.1 hparts).2
    exact .array (.one hindex) helement
  | .record entries, h => by
    obtain ⟨hne, hentries⟩ := Bool.and_eq_true_iff.1 h
    exact .record (.of_map hne (FieldList.isEntry_tokens_all entries hentries))
  | .set base, h => .set (TypeExpr.isSimpleType_tokens (Bool.and_eq_true_iff.1 h).1)
  | .pointer target, h => .pointer (target.isType_tokens h)
  | .procedure none, _ => .procedure
  | .procedure (some formals), _ => .procedureWith formals.isFormals_tokens

/-- An entry, with entries inside of its arms. -/
theorem FieldList.isEntry_tokens :
    ∀ e : FieldList, e.isGrammatical = true → IsEntry e.tokens (e.relabel .forget)
  | ⟨kind, _⟩, h => kind.isEntry_tokens h

/-- One case for each kind of entry. -/
theorem FieldKind.isEntry_tokens : ∀ kind : FieldKind, kind.isGrammatical = true →
    IsEntry kind.tokens ⟨kind.relabel .forget, .nowhere⟩
  | .fields names type, h =>
    .fields names.isIdentList_tokens (type.isType_tokens (Bool.and_eq_true_iff.1 h).2)
  | .variants tag tagType arms otherwise, h => by
    obtain ⟨-, hparts⟩ := Bool.and_eq_true_iff.1 h
    obtain ⟨harms, hotherwise⟩ := Bool.and_eq_true_iff.1 hparts
    obtain ⟨hne, harms⟩ := Bool.and_eq_true_iff.1 harms
    have hlist := Variant.isArm_tokens_all arms harms
    have helse := FieldList.isOtherwise_tokens otherwise hotherwise
    exact .variants (tagType.isTag_tokens tag) (.arms hne hlist) helse

/-- Labels, a colon and entries, neither of which may be missing. -/
theorem Variant.isArm_tokens :
    ∀ v : Variant, v.isGrammatical = true → IsArm v.tokens (v.relabel .forget)
  | ⟨labels, entries, _⟩, h => by
    obtain ⟨hlabels, hentries⟩ := Bool.and_eq_true_iff.1 h
    obtain ⟨hne, -⟩ := Bool.and_eq_true_iff.1 hlabels
    obtain ⟨hne', hentries⟩ := Bool.and_eq_true_iff.1 hentries
    have hlist := FieldList.isEntry_tokens_all entries hentries
    exact .arm (.of_map (ne_nil_of_isEmpty hne) fun i _ => i.isElement_tokens) (.of_map hne' hlist)

theorem FieldList.isEntry_tokens_all : ∀ l : List FieldList, FieldList.areGrammatical l = true →
    ∀ e ∈ l, IsEntry e.tokens (e.relabel .forget)
  | [], _ => List.forall_mem_nil _
  | e :: es, h => by
    obtain ⟨he, hes⟩ := Bool.and_eq_true_iff.1 h
    exact List.forall_mem_cons.2 ⟨e.isEntry_tokens he, FieldList.isEntry_tokens_all es hes⟩

theorem Variant.isArm_tokens_all : ∀ l : List Variant, Variant.areGrammatical l = true →
    ∀ v ∈ l, IsArm v.tokens (v.relabel .forget)
  | [], _ => List.forall_mem_nil _
  | v :: vs, h => by
    obtain ⟨hv, hvs⟩ := Bool.and_eq_true_iff.1 h
    exact List.forall_mem_cons.2 ⟨v.isArm_tokens hv, Variant.isArm_tokens_all vs hvs⟩

/-- Entries behind `ELSE`, or nothing. -/
theorem FieldList.isOtherwise_tokens :
    ∀ o : Option (List FieldList), FieldList.isGrammaticalElse o = true →
      IsOtherwise (FieldList.tokensOfElse o) (FieldList.relabelAll? .forget o)
  | none, _ => .none
  | some es, h => by
    obtain ⟨hne, hes⟩ := Bool.and_eq_true_iff.1 h
    exact .some (.of_map hne (FieldList.isEntry_tokens_all es hes))

end

/-! ## What can be spelled -/

/-- Entries can be spelled one by one, with semicolons between them. -/
theorem Spellable.entries {l : List FieldList} (h : ∀ e ∈ l, Spellable e.tokens) :
    Spellable (Modula.separatedBy (symbol .semicolon) (FieldList.tokensOfAll l)) := by
  rw [FieldList.tokensOfAll_eq_map]
  exact .separatedBy_map rfl h

/-- Arms and bars. -/
theorem Spellable.arms {l : List Variant} (h : ∀ v ∈ l, Spellable v.tokens) :
    Spellable (Modula.separatedBy (symbol .bar) (Variant.tokensOfAll l)) := by
  rw [Variant.tokensOfAll_eq_map]
  exact .separatedBy_map rfl h

/-- Labels and commas. -/
theorem Spellable.labels {l : List RangeItem} (h : l.all RangeItem.isGrammatical = true) :
    Spellable (Modula.separatedBy (symbol .comma) (l.map RangeItem.tokens)) :=
  .separatedBy_map rfl fun i hi => i.spellable_tokens (List.all_eq_true.1 h i hi)

/-- If the tag and its type can be spelled. -/
theorem Qualident.spellable_tokensOfTag {type : Qualident} {tag : Option Ident}
    (htype : type.isGrammatical = true) (htag : tag.all Ident.isGrammatical = true) :
    Spellable (type.tokensOfTag tag) := by
  cases tag with
  | none => exact spellable_tokens htype
  | some tag =>
    exact spellable_append.2 ⟨Ident.spellable_tokens htag,
      spellable_cons.2 ⟨rfl, spellable_tokens htype⟩⟩

mutual

theorem TypeExpr.spellable_tokens : ∀ t : TypeExpr, t.isGrammatical = true → Spellable t.tokens
  | ⟨_, kind, _⟩, h => kind.spellable_tokens h

/-- One case for each kind of type. -/
theorem TypeKind.spellable_tokens :
    ∀ kind : TypeKind, kind.isGrammatical = true → Spellable kind.tokens
  | .named _, h => Qualident.spellable_tokens h
  | .enumeration _, h => (IdentList.spellable_tokens h).parenthesized
  | .subrange low high, h => by
    obtain ⟨hlow, hhigh⟩ := Bool.and_eq_true_iff.1 h
    rw [TypeKind.tokens, spellable_cons, spellable_append, spellable_cons, spellable_append]
    exact ⟨rfl, low.spellable_tokens hlow, rfl, high.spellable_tokens hhigh,
      spellable_cons.2 ⟨rfl, spellable_nil⟩⟩
  | .array index element, h => by
    obtain ⟨-, hparts⟩ := Bool.and_eq_true_iff.1 h
    obtain ⟨hindex, helement⟩ := Bool.and_eq_true_iff.1 hparts
    rw [TypeKind.tokens, spellable_cons, spellable_append, spellable_cons]
    exact ⟨rfl, index.spellable_tokens hindex, rfl, element.spellable_tokens helement⟩
  | .record entries, h => by
    obtain ⟨-, hentries⟩ := Bool.and_eq_true_iff.1 h
    rw [TypeKind.tokens, spellable_cons, spellable_append, spellable_cons]
    exact ⟨rfl, .entries (FieldList.spellable_tokens_all entries hentries), rfl, spellable_nil⟩
  | .set base, h =>
    spellable_cons.2 ⟨rfl, spellable_cons.2 ⟨rfl,
      base.spellable_tokens (Bool.and_eq_true_iff.1 h).2⟩⟩
  | .pointer target, h =>
    spellable_cons.2 ⟨rfl, spellable_cons.2 ⟨rfl, target.spellable_tokens h⟩⟩
  | .procedure none, _ => spellable_cons.2 ⟨rfl, spellable_nil⟩
  | .procedure (some _), h => spellable_cons.2 ⟨rfl, FormalTypes.spellable_tokens h⟩

theorem FieldList.spellable_tokens :
    ∀ e : FieldList, e.isGrammatical = true → Spellable e.tokens
  | ⟨kind, _⟩, h => kind.spellable_tokens h

/-- One case for each kind of entry. -/
theorem FieldKind.spellable_tokens :
    ∀ kind : FieldKind, kind.isGrammatical = true → Spellable kind.tokens
  | .fields _ type, h => by
    obtain ⟨hnames, htype⟩ := Bool.and_eq_true_iff.1 h
    exact spellable_append.2 ⟨IdentList.spellable_tokens hnames,
      spellable_cons.2 ⟨rfl, type.spellable_tokens htype⟩⟩
  | .variants tag tagType arms otherwise, h => by
    obtain ⟨htags, hparts⟩ := Bool.and_eq_true_iff.1 h
    obtain ⟨htag, htagType⟩ := Bool.and_eq_true_iff.1 htags
    obtain ⟨harms, hotherwise⟩ := Bool.and_eq_true_iff.1 hparts
    obtain ⟨-, harms⟩ := Bool.and_eq_true_iff.1 harms
    rw [FieldKind.tokens, spellable_cons, spellable_append, spellable_cons, spellable_append,
      spellable_append]
    exact ⟨rfl, Qualident.spellable_tokensOfTag htagType htag, rfl,
      .arms (Variant.spellable_tokens_all arms harms),
      FieldList.spellable_tokensOfElse otherwise hotherwise, spellable_cons.2 ⟨rfl, spellable_nil⟩⟩

/-- If its labels and its entries can be spelled. -/
theorem Variant.spellable_tokens : ∀ v : Variant, v.isGrammatical = true → Spellable v.tokens
  | ⟨labels, entries, _⟩, h => by
    obtain ⟨hlabels, hentries⟩ := Bool.and_eq_true_iff.1 h
    obtain ⟨-, hlabels⟩ := Bool.and_eq_true_iff.1 hlabels
    obtain ⟨-, hentries⟩ := Bool.and_eq_true_iff.1 hentries
    rw [Variant.tokens, spellable_append, spellable_cons]
    exact ⟨.labels hlabels, rfl, .entries (FieldList.spellable_tokens_all entries hentries)⟩

theorem FieldList.spellable_tokens_all :
    ∀ l : List FieldList, FieldList.areGrammatical l = true → ∀ e ∈ l, Spellable e.tokens
  | [], _ => List.forall_mem_nil _
  | e :: es, h => by
    obtain ⟨he, hes⟩ := Bool.and_eq_true_iff.1 h
    exact List.forall_mem_cons.2 ⟨e.spellable_tokens he, FieldList.spellable_tokens_all es hes⟩

theorem Variant.spellable_tokens_all :
    ∀ l : List Variant, Variant.areGrammatical l = true → ∀ v ∈ l, Spellable v.tokens
  | [], _ => List.forall_mem_nil _
  | v :: vs, h => by
    obtain ⟨hv, hvs⟩ := Bool.and_eq_true_iff.1 h
    exact List.forall_mem_cons.2 ⟨v.spellable_tokens hv, Variant.spellable_tokens_all vs hvs⟩

/-- If the entries behind it can be spelled. -/
theorem FieldList.spellable_tokensOfElse :
    ∀ o : Option (List FieldList), FieldList.isGrammaticalElse o = true →
      Spellable (FieldList.tokensOfElse o)
  | none, _ => spellable_nil
  | some es, h => by
    obtain ⟨-, hes⟩ := Bool.and_eq_true_iff.1 h
    exact spellable_cons.2 ⟨rfl, .entries (FieldList.spellable_tokens_all es hes)⟩

end

end Modula
