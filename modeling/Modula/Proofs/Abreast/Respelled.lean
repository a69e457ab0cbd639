import Mathlib.Data.List.Forall2
import Modula.Proofs.Abreast.Answer
import Modula.Proofs.Recovery.Order
/-!
# Places and spellings do not matter

  Where tokens stand, and how operators with two spellings are written, makes no difference to what is
  read: two lists of tokens that are alike apart from that give reports that are alike apart from that
  (`readUnit_alike`).

  Neither of the lists is the other one retold, since spellings may differ in both directions.  But there
  is a third list that both of them are retold as: all tokens stand nowhere in it, and all operators are
  written in the preferred way (`Retelling.bare`).
-/

namespace Modula

open Token.Kind (word symbol)

/-! ## Tokens that are alike -/

namespace Token.Kind

/-- The same kind, or two spellings of one operator. -/
inductive Alike : Token.Kind → Token.Kind → Prop
  | same (k : Token.Kind) : Alike k k
  | hash_notEqual : Alike (symbol .hash) (symbol .notEqual)
  | notEqual_hash : Alike (symbol .notEqual) (symbol .hash)
  | and_ampersand : Alike (word .AND) (symbol .ampersand)
  | ampersand_and : Alike (symbol .ampersand) (word .AND)

/-- The preferred spelling. -/
def preferred : Token.Kind → Token.Kind
  | symbol .notEqual => symbol .hash
  | symbol .ampersand => word .AND
  | k => k

theorem preferred_eq (k : Token.Kind) : preferred k = k ∨
    (k = symbol .notEqual ∧ preferred k = symbol .hash) ∨
    (k = symbol .ampersand ∧ preferred k = word .AND) := by
  unfold preferred
  split
  · exact Or.inr (Or.inl ⟨rfl, rfl⟩)
  · exact Or.inr (Or.inr ⟨rfl, rfl⟩)
  · exact Or.inl rfl

theorem alike_iff {k k' : Token.Kind} : Alike k k' ↔ k.preferred = k'.preferred := by
  constructor
  · rintro (_ | _ | _ | _ | _) <;> rfl
  · intro h
    -- The preferred spelling is that of the token itself, except for two of them.
    rcases preferred_eq k with hk | ⟨rfl, -⟩ | ⟨rfl, -⟩ <;>
      rcases preferred_eq k' with hk' | ⟨rfl, -⟩ | ⟨rfl, -⟩
    · exact hk.symm.trans (h.trans hk') ▸ .same k
    · exact hk.symm.trans h ▸ .hash_notEqual
    · exact hk.symm.trans h ▸ .and_ampersand
    · exact hk'.symm.trans h.symm ▸ .notEqual_hash
    · exact .same _
    · cases h
    · exact hk'.symm.trans h.symm ▸ .ampersand_and
    · cases h
    · exact .same _

end Token.Kind

/-- The tokens are alike, one by one. -/
def AlikeTokens (tokens tokens' : List Token) : Prop :=
  List.Forall₂ (fun t t' => t.kind.Alike t'.kind) tokens tokens'

theorem alikeTokens_iff {tokens tokens' : List Token} : AlikeTokens tokens tokens' ↔
    tokens.map (fun t => t.kind.preferred) = tokens'.map fun t => t.kind.preferred := by
  rw [← List.forall₂_eq_eq_eq, List.forall₂_map_left_iff, List.forall₂_map_right_iff, AlikeTokens]
  simp only [Token.Kind.alike_iff]

/-! ## Bare tokens -/

/-- All tokens stand nowhere, and operators are written in the preferred way. -/
def Retelling.bare : Retelling where
  toRelabeling := .unplaced
  point _ := 0
  kind := Token.Kind.preferred
  token t := ⟨t.kind.preferred, .nowhere, 0, 0⟩
  id_succ _ := rfl
  span_eq _ := rfl
  mono := monotone_const
  kind_eq := Token.Kind.preferred_eq
  token_kind _ := rfl
  token_span _ := rfl

section

variable {tokens tokens' : List Token}

theorem AlikeTokens.bare_eq (h : AlikeTokens tokens tokens') :
    tokens'.map Retelling.bare.token = tokens.map Retelling.bare.token := by
  have hkinds := congrArg (List.map fun k => (⟨k, .nowhere, 0, 0⟩ : Token)) (alikeTokens_iff.1 h)
  rw [List.map_map, List.map_map] at hkinds
  exact hkinds.symm

theorem isEof_bare (t : Token) : (Retelling.bare.token t).kind.isEof = t.kind.isEof :=
  Retelling.bare.apply_kind Token.Kind.isEof rfl rfl t.kind

/-- What is read of a list is made bare by making the list bare. -/
theorem rest_bare (tokens : List Token) : (Cursor.ofTokens tokens).rest.map Retelling.bare.token =
    (Cursor.ofTokens (tokens.map Retelling.bare.token)).rest := by
  have heof : (fun t : Token => !t.kind.isEof) ∘ Retelling.bare.token = fun t => !t.kind.isEof :=
    funext fun t => congrArg not (isEof_bare t)
  show List.map _ (List.takeWhile _ tokens) = List.takeWhile _ (List.map _ tokens)
  rw [List.takeWhile_map, heof]

theorem ofTokens_retold (tokens : List Token) : Cursor.Retold .bare false (Cursor.ofTokens tokens)
    ⟨(Cursor.ofTokens (tokens.map Retelling.bare.token)).rest, ⟨.eof, .nowhere, 0, 0⟩, 0, 0⟩ := by
  refine ⟨(rest_bare tokens).symm, ?_, rfl, nofun⟩
  show _ = (⟨(Cursor.stopOf tokens).kind.preferred, _, _, _⟩ : Token)
  rw [Cursor.kind_stopOf]
  rfl

/-- Made bare, the reports on tokens that are alike are the same. -/
theorem AlikeTokens.report_eq (h : AlikeTokens tokens tokens') (options : Options) :
    ((Cursor.ofTokens tokens).readUnit options).1.retell .bare =
      ((Cursor.ofTokens tokens').readUnit options).1.retell .bare := by
  have hreport := ((ofTokens_retold tokens).readUnit options).1
  have hreport' := ((ofTokens_retold tokens').readUnit options).1
  rw [h.bare_eq] at hreport'
  rw [← hreport, hreport']

end

/-! ## Reports that are alike -/

/-- The same cause, about tokens that are alike. -/
inductive SyntaxError.Cause.Alike : SyntaxError.Cause → SyntaxError.Cause → Prop
  | expected (what : SyntaxError.Expectation) {found found' : Token.Kind} :
    found.Alike found' → Alike (.expected what found) (.expected what found')
  | qualifiedTag : Alike .qualifiedTag .qualifiedTag
  | expectedExpression {found found' : Token.Kind} :
    found.Alike found' → Alike (.expectedExpression found) (.expectedExpression found')
  | expectedType {found found' : Token.Kind} :
    found.Alike found' → Alike (.expectedType found) (.expectedType found')
  | unterminated (bracket : Bracket) (opener opener' : Token) {found found' : Token.Kind} :
    opener.kind.Alike opener'.kind → found.Alike found' →
    Alike (.unterminated bracket opener found) (.unterminated bracket opener' found')
  | chainedRelation : Alike .chainedRelation .chainedRelation
  | missingFooter (moduleName : String) : Alike (.missingFooter moduleName) (.missingFooter moduleName)
  | notSupported (feature : SyntaxError.Feature) : Alike (.notSupported feature) (.notSupported feature)

theorem SyntaxError.Cause.alike_of_retell {cause cause' : SyntaxError.Cause}
    (h : cause.retell .bare = cause'.retell .bare) : cause.Alike cause' := by
  have halike {k k' : Token.Kind} (hk : Retelling.bare.kind k = Retelling.bare.kind k') : k.Alike k' :=
    Token.Kind.alike_iff.2 hk
  cases cause <;> cases cause' <;> injection h
  · next hwhat hfound => exact hwhat ▸ .expected _ (halike hfound)
  · exact .qualifiedTag
  · next hfound => exact .expectedExpression (halike hfound)
  · next hfound => exact .expectedType (halike hfound)
  · next hbracket hopener hfound =>
    exact hbracket ▸ .unterminated _ _ _ (halike (congrArg Token.kind hopener)) (halike hfound)
  · exact .chainedRelation
  · next hname => exact hname ▸ .missingFooter _
  · next hfeature => exact hfeature ▸ .notSupported _

/-- The error is about the token at this place of a list, where as many tokens are unread as it says. -/
def SyntaxError.IsAt (tokens : List Token) (place : Nat) (e : SyntaxError) : Prop :=
  place + e.remaining = (Cursor.ofTokens tokens).remaining ∧
    (Cursor.withStop tokens)[place]? = some e.token

/-- The same error in the same phrase, at the same place of the two lists. -/
def SyntaxError.AlikeIn (tokens tokens' : List Token) (e e' : SyntaxError) : Prop :=
  e.cause.Alike e'.cause ∧ e.construct = e'.construct ∧
    ∃ place, e.IsAt tokens place ∧ e'.IsAt tokens' place

/-- There is a tree on both sides, and it is the same one apart from its spans, or there is none.  The
errors are alike, one by one. -/
structure Report.AlikeIn (tokens tokens' : List Token) (report report' : Report) : Prop where
  unit : report.unit.map (CompilationUnit.relabel .unplaced) =
    report'.unit.map (CompilationUnit.relabel .unplaced)
  errors : List.Forall₂ (fun d d' => ∃ e e', d = .grammatical e ∧ d' = .grammatical e' ∧
    e.AlikeIn tokens tokens' e') report.errors report'.errors
  warnings : report.warnings.map (Warning.relabel .unplaced) =
    report'.warnings.map (Warning.relabel .unplaced)

theorem SyntaxError.isAt_of_mem {tokens : List Token} {options : Options} {e : SyntaxError}
    (he : e ∈ (Cursor.ofTokens tokens).syntaxErrors options) :
    e.IsAt tokens ((Cursor.ofTokens tokens).remaining - e.remaining) := by
  obtain ⟨d, hd, htoken, hremaining⟩ := Cursor.syntaxErrors_standAt options _ e he
  have hle := Cursor.remaining_le_of_le hd
  have hplace := Cursor.token_at hd
  obtain ⟨behind, hbehind⟩ := Cursor.ofTokens_prefix tokens
  refine ⟨by omega, ?_⟩
  rw [hremaining, htoken, ← hbehind, List.getElem?_append_left (List.getElem?_eq_some_iff.1 hplace).1]
  exact hplace

theorem SyntaxError.alikeIn_of_retell {tokens tokens' : List Token} {options : Options}
    {e e' : SyntaxError} (htokens : AlikeTokens tokens tokens')
    (he : e ∈ (Cursor.ofTokens tokens).syntaxErrors options)
    (he' : e' ∈ (Cursor.ofTokens tokens').syntaxErrors options)
    (h : e.retell .bare = e'.retell .bare) : e.AlikeIn tokens tokens' e' := by
  -- Both lists are retold as one, so there are as many tokens in each.
  have hcount : (Cursor.ofTokens tokens').remaining = (Cursor.ofTokens tokens).remaining := by
    have hrest := congrArg List.length (rest_bare tokens)
    have hrest' := congrArg List.length (rest_bare tokens')
    rw [htokens.bare_eq] at hrest'
    rw [List.length_map] at hrest hrest'
    exact hrest'.trans hrest.symm
  injection h with hcause _ hremaining hconstruct
  refine ⟨SyntaxError.Cause.alike_of_retell hcause, hconstruct, _, isAt_of_mem he, ?_⟩
  rw [hremaining, ← hcount]
  exact isAt_of_mem he'

/-- The reports on two lists of tokens that are alike are alike, wherever the tokens stand. -/
theorem readUnit_alike {tokens tokens' : List Token} (h : AlikeTokens tokens tokens')
    (options : Options) : Report.AlikeIn tokens tokens' ((Cursor.ofTokens tokens).readUnit options).1
      ((Cursor.ofTokens tokens').readUnit options).1 := by
  have hreport := h.report_eq options
  refine ⟨congrArg Report.unit hreport, ?_, congrArg Report.warnings hreport⟩
  have herrors := congrArg Report.errors hreport
  -- The errors of a report are retold one by one.
  have hlist (tokens : List Token) :
      (((Cursor.ofTokens tokens).readUnit options).1.retell .bare).errors =
        (((Cursor.ofTokens tokens).syntaxErrors options).map (SyntaxError.retell .bare)).map
          Diagnostic.grammatical := by
    rw [Report.retell, Cursor.readUnit_errors, List.map_map, List.map_map]
    rfl
  rw [hlist, hlist] at herrors
  have hretold := List.map_injective_iff.2 (fun _ _ heq => Diagnostic.grammatical.inj heq) herrors
  rw [← List.forall₂_eq_eq_eq, List.forall₂_map_left_iff, List.forall₂_map_right_iff,
    List.forall₂_iff_zip] at hretold
  rw [Cursor.readUnit_errors, Cursor.readUnit_errors, List.forall₂_map_left_iff,
    List.forall₂_map_right_iff, List.forall₂_iff_zip]
  refine ⟨hretold.1, fun hmem => ⟨_, _, rfl, rfl, ?_⟩⟩
  obtain ⟨he, he'⟩ := List.of_mem_zip hmem
  exact SyntaxError.alikeIn_of_retell h he he' (hretold.2 hmem)

/-- A constant in which a second relation follows the first one. -/
def chained : List Token := (tokenize "MODULE m; CONST a = 1 <> 2 # 3; END m.").tokens

/-- The same on several lines, and with the two spellings exchanged. -/
def chainedApart : List Token := (tokenize "MODULE m;\nCONST a =\n  1 # 2 <> 3;\nEND m.").tokens

theorem readUnit_alike_chained : AlikeTokens chained chainedApart ∧
    ((Cursor.ofTokens chained).readUnit .default).1.errors.length = 1 ∧
    Report.AlikeIn chained chainedApart ((Cursor.ofTokens chained).readUnit .default).1
      ((Cursor.ofTokens chainedApart).readUnit .default).1 := by
  have hkinds : AlikeTokens chained chainedApart := alikeTokens_iff.2 (by decide +kernel)
  exact ⟨hkinds, by decide +kernel, readUnit_alike hkinds .default⟩

end Modula
