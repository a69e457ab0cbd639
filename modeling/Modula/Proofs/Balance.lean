import Modula.Recovery.Skip
import Modula.Proofs.Grammar.Unit
/-!
# Brackets in sentences

  A broken declaration is skipped by looking at its tokens one by one, with nothing but a number in
  memory: inside how many brackets the skip is.  `depthBehind` is that number behind given tokens.  It
  is `none` if the skip ends before their end.

  The skip starts at a declaration that may be sound for a good while.  So it matters what the number
  is within sentences of the grammar, and the answer is that brackets match in every sentence
  (`KeepsDepth`).  There are two degrees of it.

  * `KeepsDepth 0 w` — behind `w` the number is what it was in front of `w`, wherever that is.
  * `KeepsDepth 1 w` — the same, but inside of a bracket only.

  Entries of records have the second degree, because of their semicolons, and lists of parameters
  because of `VAR`; they never stand outside of brackets.  All other phrases have the first one.
-/

namespace Modula

open Token.Kind (word symbol)

/-! ## Counting

  The skip counts brackets by kinds of tokens.  Some of them end it, but inside of brackets they do not. -/

namespace Token.Kind

/-- Inside how many brackets the skip of a broken declaration is behind the token, if it does not end
there. -/
def depthAfter (depth : Nat) (k : Kind) : Option Nat :=
  if k.isOpener then some (depth + 1)
  else if k.isBracketCloser then some (depth - 1)
  else
    match depth with
    | 0 => if k = word .END ∨ k = symbol .semicolon ∨ k.endsDeclaration = true then none else some 0
    | outer + 1 => if k = word .END then some outer else some (outer + 1)

/-- Whether the token closes a bracket, a record or a variant part. -/
def isCloser (k : Kind) : Bool := k == word .END || k.isBracketCloser

/-- Whether the token is nothing to the skip of a broken declaration. -/
def isPlain (k : Kind) : Bool :=
  !(k.isOpener || k.isCloser || k == symbol .semicolon || k.endsDeclaration)

/-- A name leaves the depth as it is, outside of brackets too. -/
theorem depthAfter_of_isName {k : Kind} (h : k.isName = true) : k.depthAfter 0 = some 0 := by
  cases k <;> first | rfl | cases h

end Token.Kind

/-- Inside how many brackets the skip of a broken declaration is behind these tokens, if it does not end
before. -/
def depthBehind (depth : Nat) (ks : List Token.Kind) : Option Nat :=
  ks.foldlM Token.Kind.depthAfter depth

section

variable {k : Token.Kind} {depth n m : Nat} {u v w : List Token.Kind}

/-- The depth behind the first token is that in front of the others. -/
theorem depthBehind_cons :
    depthBehind depth (k :: w) = (k.depthAfter depth).bind (depthBehind · w) := List.foldlM_cons

/-- A skip goes on where it has come to; if it ends within the first tokens, it has ended. -/
theorem depthBehind_append :
    depthBehind depth (u ++ v) = (depthBehind depth u).bind (depthBehind · v) := List.foldlM_append

/-- A skip that does not end within some tokens does not end within the first of them. -/
theorem depthBehind_of_append (h : depthBehind depth (u ++ v) = some n) :
    ∃ m, depthBehind depth u = some m := by
  rw [depthBehind_append] at h
  exact ⟨_, (Option.bind_eq_some_iff.1 h).choose_spec.1⟩

/-! ## Matching brackets

  A property of tokens in a row is shown for all expressions at once, if it is kept by putting rows
  together and holds of each token that an expression may have. -/

/-- Where the skip is inside of so many brackets at least, the tokens change nothing. -/
def KeepsDepth (n : Nat) (w : List Token.Kind) : Prop :=
  ∀ ⦃depth⦄, n ≤ depth → depthBehind depth w = some depth

namespace KeepsDepth

theorem nil : KeepsDepth n [] := fun _ _ => rfl

/-- What keeps the depth anywhere keeps it inside of brackets. -/
theorem mono (h : KeepsDepth n w) (hnm : n ≤ m) : KeepsDepth m w :=
  fun _ hd => h (Nat.le_trans hnm hd)

/-- Phrases one behind the other. -/
theorem append (hu : KeepsDepth n u) (hv : KeepsDepth n v) : KeepsDepth n (u ++ v) := by
  intro depth hd
  rw [depthBehind_append, hu hd]
  exact hv hd

theorem cons (hk : KeepsDepth n [k]) (hw : KeepsDepth n w) : KeepsDepth n (k :: w) :=
  hk.append hw

/-- A token that is no bracket, no `END` and ends no declaration. -/
theorem of_isPlain (hk : k.isPlain = true) : KeepsDepth 0 [k] := by
  intro depth _
  simp only [Token.Kind.isPlain, Token.Kind.isCloser, Bool.not_eq_true', Bool.or_eq_false_iff,
    beq_eq_false_iff_ne] at hk
  obtain ⟨⟨⟨ho, hend, hc⟩, hs⟩, hd⟩ := hk
  cases depth <;> simp [depthBehind, Token.Kind.depthAfter, ho, hc, hend, hs, hd]

/-- Inside of a bracket only brackets count. -/
theorem of_inside (ho : k.isOpener = false) (hc : k.isCloser = false) : KeepsDepth 1 [k] := by
  rintro (_ | depth) hd
  · omega
  · simp only [Token.Kind.isCloser, Bool.or_eq_false_iff, beq_eq_false_iff_ne] at hc
    simp [depthBehind, Token.Kind.depthAfter, ho, hc.1, hc.2]

/-- In brackets the second degree is enough, and what results has the first one. -/
theorem brackets {o c : Token.Kind} (ho : o.isOpener = true) (hc : c.isCloser = true)
    (hw : KeepsDepth 1 w) : KeepsDepth 0 (o :: (w ++ [c])) := by
  intro depth _
  have hclose : c.depthAfter (depth + 1) = some depth := by
    rw [Token.Kind.isCloser, Bool.or_eq_true, beq_iff_eq] at hc
    rcases hc with rfl | hc
    · rfl
    · have hno : c.isOpener = false := by
        revert hc
        unfold Token.Kind.isBracketCloser
        split <;> simp [Token.Kind.isOpener]
      simp [Token.Kind.depthAfter, hc, hno]
  have hopen : o.depthAfter depth = some (depth + 1) := by
    cases depth <;> exact if_pos ho
  rw [depthBehind_cons, hopen, Option.bind_some, depthBehind_append, hw (Nat.le_add_left 1 depth),
    Option.bind_some, depthBehind_cons, hclose]
  rfl

end KeepsDepth

end

/-! ## Names and expressions

  What is told about their sentences here is used for more than one property. -/

/-- A list has a property if the separator and the items have it. -/
theorem Separated.closed {α : Type} {P : List Token.Kind → Prop} {separator : Token.Kind}
    {phrase : Phrase α} (happend : ∀ ⦃u v⦄, P u → P v → P (u ++ v)) (hs : P [separator])
    (hp : ∀ ⦃w a⦄, phrase w a → P w) {w : List Token.Kind} {l : List α}
    (hw : Separated separator phrase w l) : P w := by
  induction hw with
  | one ha => exact hp ha
  | more ha _ ih => exact happend (hp ha) (happend hs ih)

/-- Whether the token may stand in an expression, brackets apart. -/
def Token.Kind.isExprPart : Token.Kind → Bool
  | .integer _ | .real _ | .string _ | .name _ | word .NOT => true
  | symbol .period | symbol .comma | symbol .ellipsis => true
  | k => (Operator.ofKind? k).isSome

/-- A property that a sequence of tokens has if its parts have it, and that single tokens of expressions
have. -/
structure ExprClosed (P : List Token.Kind → Prop) : Prop where
  nil : P []
  append : ∀ ⦃u v⦄, P u → P v → P (u ++ v)
  token : ∀ ⦃k⦄, k.isExprPart = true → P [k]
  braces : ∀ ⦃w⦄, P w → P (symbol .openBrace :: (w ++ [symbol .closeBrace]))
  parentheses : ∀ ⦃w⦄, P w → P (symbol .openParen :: (w ++ [symbol .closeParen]))

namespace ExprClosed

variable {P : List Token.Kind → Prop} (h : ExprClosed P) {w : List Token.Kind}

include h

theorem ident {i : Ident} (hw : IsIdent w i) : P w := by
  cases hw with
  | name text => exact h.token rfl

/-- Names and commas are in every class of words that is closed in this way. -/
theorem identList {l : IdentList} (hw : IsIdentList w l) : P w := by
  cases hw with
  | idents hw => exact hw.closed h.append (h.token rfl) fun _ _ => h.ident

/-- Names and periods. -/
theorem qualident {q : Qualident} (hw : IsQualident w q) : P w := by
  cases hw with
  | parts hw => exact hw.closed h.append (h.token rfl) fun _ _ => h.ident

/-- The token of an operator is plain at every level. -/
theorem operator {level : Operator.Level} {k : Token.Kind} {op : Operator}
    (hk : Operator.ofKindAt? level k = some op) : P [k] := by
  refine h.token ?_
  have hsome : (Operator.ofKind? k).isSome = true := by
    rw [(Option.filter_eq_some_iff.1 hk).1]
    rfl
  unfold Token.Kind.isExprPart
  split <;> first | rfl | exact hsome

theorem sign {k : Token.Kind} {sign : Sign} (hk : Sign.ofKind? k = some sign) : P [k] := by
  refine h.token ?_
  unfold Sign.ofKind? at hk
  split at hk
  · rfl
  · rfl
  · cases hk

/-- A property of this kind is a property of all expressions. -/
theorem expr {e : Expr} (hw : IsExpr w e) : P w := by
  refine @IsExpr.rec (fun w _ _ => P w) (fun w _ _ => P w) (fun w _ _ => P w) (fun w _ _ => P w)
    (fun w _ _ => P w) (fun w _ _ => P w) (fun w _ _ => P w) (fun w _ _ => P w) (fun w _ _ => P w)
    (fun w _ _ => P w) ?simple ?relation ?operands ?unsigned ?signed ?factors ?integer ?real ?string
    ?designator ?set ?typedSet ?parentheses ?not ?none ?some ?one ?range ?first ?addition
    ?firstFactor ?multiplication ?element ?elements _ _ hw
  case integer | real | string => exact fun _ => h.token rfl
  case designator => exact fun hq => h.qualident hq
  case relation | addition | multiplication =>
    exact fun _ hk _ hu hv => h.append hu (h.append (h.operator hk) hv)
  case signed => exact fun hk _ hw => h.append (h.sign hk) hw
  case set => exact fun _ hw => h.braces hw
  case typedSet => exact fun hq _ hw => h.append (h.qualident hq) (h.braces hw)
  case parentheses => exact fun _ hw => h.parentheses hw
  case not => exact fun _ hw => h.append (h.token rfl) hw
  case none => exact h.nil
  case range => exact fun _ _ hu hv => h.append hu (h.append (h.token rfl) hv)
  case elements => exact fun _ _ hu hv => h.append hu (h.append (h.token rfl) hv)
  -- all others are sentences of another phrase
  all_goals exact fun _ hw => hw

/-- Elements come from the grammar of expressions, and so do the others below. -/
theorem element {r : RangeItem} (hw : IsElement w r) : P w := by
  cases hw with
  | one hw => exact h.expr hw
  | range hu hv => exact h.append (h.expr hu) (h.append (h.token rfl) (h.expr hv))

end ExprClosed

/-- What all tokens of expressions have in common. -/
theorem exprClosed_forall_mem {p : Token.Kind → Prop} (token : ∀ k, k.isExprPart = true → p k)
    (bracket : ∀ k ∈ [symbol .openBrace, symbol .closeBrace, symbol .openParen, symbol .closeParen], p k) :
    ExprClosed fun w => ∀ k ∈ w, p k where
  nil := List.forall_mem_nil p
  append _ _ hu hv := List.forall_mem_append.2 ⟨hu, hv⟩
  token k hk := List.forall_mem_singleton.2 (token k hk)
  braces w hw := by
    refine List.forall_mem_cons.2 ⟨bracket _ (by simp), List.forall_mem_append.2 ⟨hw, ?_⟩⟩
    exact List.forall_mem_singleton.2 (bracket _ (by simp))
  parentheses w hw := by
    refine List.forall_mem_cons.2 ⟨bracket _ (by simp), List.forall_mem_append.2 ⟨hw, ?_⟩⟩
    exact List.forall_mem_singleton.2 (bracket _ (by simp))

/-- Whatever an expression consists of keeps the depth. -/
theorem keepsDepth_exprClosed : ExprClosed (KeepsDepth 0) where
  nil := .nil
  append _ _ := .append
  token k hk := by
    refine .of_isPlain ?_
    revert hk
    unfold Token.Kind.isExprPart Operator.ofKind?
    split <;> first | exact fun _ => rfl | split <;> first | exact fun _ => rfl | nofun
  braces _ hw := .brackets rfl rfl (hw.mono (Nat.zero_le _))
  parentheses _ hw := .brackets rfl rfl (hw.mono (Nat.zero_le _))

/-! ## Types without records

  What holds no record has no `END`, so that such phrases can be told by their single tokens. -/

/-- Whether the token may stand in a type that has no records and no variant parts. -/
def Token.Kind.isFlat (k : Token.Kind) : Bool :=
  !(k == .eof || k == word .RECORD || k == word .CASE || k == word .END)

/-- And no token in an expression opens or closes a record. -/
theorem isFlat_exprClosed : ExprClosed fun w => ∀ k ∈ w, k.isFlat = true := by
  refine exprClosed_forall_mem (fun k => ?_) (by decide)
  unfold Token.Kind.isExprPart Operator.ofKind?
  split <;> first | exact fun _ => rfl | split <;> first | exact fun _ => rfl | nofun

section

variable {w : List Token.Kind}

/-- Simple types hold expressions and names. -/
theorem IsSimpleType.isFlat {t : TypeExpr} (hw : IsSimpleType w t) : ∀ k ∈ w, k.isFlat = true := by
  have hexpr := isFlat_exprClosed
  cases hw with
  | named hw => exact hexpr.qualident hw
  | enumeration hw =>
    refine List.forall_mem_cons.2 ⟨rfl, List.forall_mem_append.2 ⟨hexpr.identList hw, ?_⟩⟩
    exact List.forall_mem_singleton.2 rfl
  | subrange hu hv =>
    refine List.forall_mem_cons.2 ⟨rfl, List.forall_mem_append.2 ⟨hexpr.expr hu, ?_⟩⟩
    refine List.forall_mem_cons.2 ⟨rfl, List.forall_mem_append.2 ⟨hexpr.expr hv, ?_⟩⟩
    exact List.forall_mem_singleton.2 rfl

/-- Lists of flat phrases are flat. -/
theorem Separated.isFlat {α : Type} {separator : Token.Kind} {phrase : Phrase α} {l : List α}
    (hw : Separated separator phrase w l) (hs : separator.isFlat = true)
    (hp : ∀ ⦃w a⦄, phrase w a → ∀ k ∈ w, k.isFlat = true) : ∀ k ∈ w, k.isFlat = true :=
  hw.closed isFlat_exprClosed.append (List.forall_mem_singleton.2 hs) hp

theorem IsFormal.isFlat {p : FormalType} (hw : IsFormal w p) : ∀ k ∈ w, k.isFlat = true := by
  cases hw with
  | formal isVar isOpenArray hq =>
    refine List.forall_mem_append.2 ⟨?_, isFlat_exprClosed.qualident hq⟩
    cases isVar <;> cases isOpenArray <;> decide

/-- Formal types hold names only. -/
theorem IsFormals.isFlat {f : FormalTypes} (hw : IsFormals w f) : ∀ k ∈ w, k.isFlat = true := by
  cases hw with
  | @formals u v _ _ hu hv =>
    have hparams : ∀ k ∈ u, k.isFlat = true := by
      cases hu with
      | none => exact List.forall_mem_nil _
      | some hu => exact hu.isFlat rfl fun _ _ => IsFormal.isFlat
    have hresult : ∀ k ∈ v, k.isFlat = true := by
      cases hv with
      | none => exact List.forall_mem_nil _
      | some hq => exact List.forall_mem_cons.2 ⟨rfl, isFlat_exprClosed.qualident hq⟩
    refine List.forall_mem_cons.2 ⟨rfl, List.forall_mem_append.2 ⟨hparams, ?_⟩⟩
    exact List.forall_mem_cons.2 ⟨rfl, hresult⟩

end

/-! ## Types

  Records are brackets to the skip, and so are variant parts. -/

section

variable {w : List Token.Kind}

/-- A simple type is plain, or a pair of brackets with plain phrases in it. -/
theorem IsSimpleType.keepsDepth {t : TypeExpr} (hw : IsSimpleType w t) : KeepsDepth 0 w := by
  have hexpr := keepsDepth_exprClosed
  cases hw with
  | named hw => exact hexpr.qualident hw
  | enumeration hw => exact .brackets rfl rfl ((hexpr.identList hw).mono (Nat.zero_le _))
  | subrange hu hv =>
    have hrange := (hexpr.expr hu).append
      (.cons (.of_isPlain (k := symbol .ellipsis) rfl) (hexpr.expr hv))
    simpa using KeepsDepth.brackets rfl rfl (hrange.mono (Nat.zero_le 1))

/-- A `VAR` outside of brackets would end the skip; inside it is passed over. -/
theorem IsFormalParams.keepsDepth {l : List FormalType} (hw : IsFormalParams w l) :
    KeepsDepth 1 w := by
  cases hw with
  | none => exact .nil
  | some hw =>
    refine hw.closed (fun _ _ => .append) (.of_inside rfl rfl) fun w p hp => ?_
    cases hp with
    | formal isVar isOpenArray hq =>
      have hname := (keepsDepth_exprClosed.qualident hq).mono (Nat.zero_le 1)
      have harray : KeepsDepth 1 [word .ARRAY, word .OF] :=
        .append (.of_inside rfl rfl) (.of_inside rfl rfl)
      refine .append (.append ?_ ?_) hname
      · cases isVar
        · exact .nil
        · exact .of_inside rfl rfl
      · cases isOpenArray
        · exact .nil
        · exact harray

theorem IsFormalResult.keepsDepth {r : Option Qualident} (hw : IsFormalResult w r) :
    KeepsDepth 0 w := by
  cases hw with
  | none => exact .nil
  | some hq => exact .cons (.of_isPlain rfl) (keepsDepth_exprClosed.qualident hq)

/-- Within their parentheses, formal types keep the depth everywhere. -/
theorem IsFormals.keepsDepth {f : FormalTypes} (hw : IsFormals w f) : KeepsDepth 0 w := by
  cases hw with
  | formals hu hv =>
    have hparams := KeepsDepth.brackets (o := symbol .openParen) (c := symbol .closeParen) rfl rfl
      hu.keepsDepth
    simpa using hparams.append hv.keepsDepth

/-- Names and at most one colon. -/
theorem IsTag.keepsDepth {t : Option Ident × Qualident} (hw : IsTag w t) : KeepsDepth 0 w := by
  have hexpr := keepsDepth_exprClosed
  cases hw with
  | unnamed hw => exact .cons (.of_isPlain rfl) (hexpr.qualident hw)
  | named hu hw => exact (hexpr.ident hu).append (.cons (.of_isPlain rfl) (hexpr.qualident hw))
  | typeOnly hw => exact hexpr.qualident hw

/-- Brackets match in every type. -/
theorem IsType.keepsDepth {t : TypeExpr} (hw : IsType w t) : KeepsDepth 0 w := by
  have hexpr := keepsDepth_exprClosed
  -- inside of a record, semicolons do not count either
  have hinside : ∀ {u : List Token.Kind}, KeepsDepth 0 u → KeepsDepth 1 u :=
    fun hu => hu.mono (Nat.zero_le 1)
  refine @IsType.rec (fun w _ _ => KeepsDepth 0 w) (fun w _ _ => KeepsDepth 1 w)
    (fun w _ _ => KeepsDepth 1 w) (fun w _ _ => KeepsDepth 1 w) (fun w _ _ => KeepsDepth 1 w)
    (fun w _ _ => KeepsDepth 1 w) ?simple ?array ?record ?set ?pointer ?procedure ?procedureWith
    ?one ?last ?more ?fields ?variants ?arm ?none ?some ?firstArm ?arms _ _ hw
  case simple => exact fun hw => hw.keepsDepth
  case array =>
    exact fun hu _ hv => .cons (.of_isPlain rfl) (.append
      (hu.closed (fun _ _ => .append) (.of_isPlain rfl) fun _ _ ht => ht.keepsDepth)
      (.cons (.of_isPlain rfl) hv))
  case record => exact fun _ hw => .brackets rfl rfl hw
  case set => exact fun hw => .cons (.of_isPlain rfl) (.cons (.of_isPlain rfl) hw.keepsDepth)
  case pointer => exact fun _ hw => .cons (.of_isPlain rfl) (.cons (.of_isPlain rfl) hw)
  case procedure => exact .of_isPlain rfl
  case procedureWith => exact fun hw => .cons (.of_isPlain rfl) hw.keepsDepth
  case last => exact fun _ hw => hw.append (.of_inside rfl rfl)
  case more => exact fun _ _ hu hv => hu.append (.cons (.of_inside rfl rfl) hv)
  case fields =>
    exact fun hu _ hv => (hinside (hexpr.identList hu)).append
      (.cons (.of_inside rfl rfl) (hinside hv))
  case variants =>
    intro t u v _ _ _ _ ht _ _ hu hv
    have hinner : KeepsDepth 1 (t ++ word .OF :: (u ++ v)) :=
      (hinside ht.keepsDepth).append (.cons (.of_inside rfl rfl) (hu.append hv))
    exact hinside (by simpa using KeepsDepth.brackets rfl rfl hinner)
  case arm =>
    exact fun hu _ hv => (hinside (hu.closed (fun _ _ => .append) (hexpr.token rfl)
      fun _ _ => hexpr.element)).append (.cons (.of_inside rfl rfl) hv)
  case none => exact .nil
  case some => exact fun _ hw => .cons (.of_inside rfl rfl) hw
  case arms => exact fun _ _ hu hv => hu.append (.cons (.of_inside rfl rfl) hv)
  all_goals exact fun _ hw => hw

/-! ## Declarations

  A declaration is balanced and ends with a semicolon, which is where the skip ends. -/

/-- A declaration ends with the first semicolon outside of its brackets. -/
theorem IsConstItem.keepsDepth {i : ConstItem} (hw : IsConstItem w i) :
    ∃ u, w = u ++ [symbol .semicolon] ∧ KeepsDepth 0 u := by
  have hexpr := keepsDepth_exprClosed
  cases hw with
  | @item u v _ _ hu hv =>
    refine ⟨u ++ symbol .equal :: v, by simp, (hexpr.ident hu).append ?_⟩
    exact .cons (.of_isPlain rfl) (hexpr.expr hv)

/-- A declaration of a type keeps the depth up to its semicolon, the first one outside of all brackets.
-/
theorem IsTypeItem.keepsDepth {i : TypeItem} (hw : IsTypeItem w i) :
    ∃ u, w = u ++ [symbol .semicolon] ∧ KeepsDepth 0 u := by
  cases hw with
  | @item u v _ _ hu hv =>
    refine ⟨u ++ symbol .equal :: v, by simp, (keepsDepth_exprClosed.ident hu).append ?_⟩
    exact .cons (.of_isPlain rfl) hv.keepsDepth

end

end Modula
