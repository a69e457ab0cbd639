import Modula.Node.Walk
import Modula.Proofs.Acceptance
import Modula.Proofs.Layout.Unit
import Modula.Proofs.Lexer.Lossless
/-!
# Nodes are in place

  A tool that goes from a position of a source to a node, and back, relies on the spans of nodes: that
  they nest, that the children of a node come in the order of the source, and that a name or an operator
  is what the source says at its span (`Node.InPlace`).

  1. **From a unit to its nodes.**  The unit lies on the tokens of the source, and so does every node
     that a walk comes to: a node that is taken off the stack leaves its children on it, and they lie on
     parts of its tokens (`walkStack_lies`).

  2. **From tokens to the source.**  A node that lies on tokens of the source is in place, since the
     tokens come in order, end with the source, and are spelled by it (`Lossless`).
-/

namespace Modula

open Token.Kind (word symbol)

/-! ## Spellings of operators -/

/-- All spellings of an operator, the preferred one first. -/
def Operator.spellings : Operator → List String
  | .and => ["AND", "&"]
  | .ne => ["#", "<>"]
  | op => [op.spelling]

/-- The token of an operator spells it in one of its spellings. -/
theorem Operator.spells_of_ofKind? {op : Operator} {k : Token.Kind} {text : Text}
    (hk : ofKind? k = some op) (hs : k.Spells text) :
    ∃ spelling ∈ op.spellings, text = spelling.toList := by
  cases hs with
  | word w =>
    refine ⟨w.spelling, ?_, rfl⟩
    cases w <;> cases hk <;> decide
  | symbol s =>
    refine ⟨s.spelling, ?_, rfl⟩
    cases s <;> cases hk <;> decide
  | _ => cases hk

/-! ## Nodes in place

  What can be relied on about one node, told by the tokens of the source and by the text. -/

/-- What can be relied on about a node of a source that has these tokens and, at the end of a module,
this `END`. -/
structure Node.InPlace (source : Text) (tokens : List Token) (footerEnd : Token) (n : Node) :
    Prop where
  start_le_stop : n.span.start ≤ n.span.stop
  stop_le : n.span.stop ≤ source.byteLength
  /-- The node begins where a token begins and ends where a token ends, unless it is an empty block. -/
  on_tokens : (∀ b, n = .block b → ¬ b.IsEmpty) →
    (∃ t ∈ tokens, t.span.start = n.span.start) ∧ ∃ t ∈ tokens, t.span.stop = n.span.stop
  /-- An empty block is where the footer begins. -/
  empty_block : ∀ b, n = .block b → b.IsEmpty →
    n.span = ⟨footerEnd.span.start, footerEnd.span.start⟩
  children_inside : ∀ child ∈ n.children,
    n.span.start ≤ child.span.start ∧ child.span.stop ≤ n.span.stop
  children_in_order : n.children.Pairwise fun a b => a.span.stop ≤ b.span.start
  /-- What stands at a name is the name. -/
  name_written : ∀ i, n = .ident i → source.slice? i.span.start i.span.stop = some i.name.toList
  /-- What stands at an operator is a spelling of it. -/
  operator_written : ∀ e op opSpan lhs rhs, n = .expr e → e.kind = .binary op opSpan lhs rhs →
    ∃ spelling ∈ op.spellings, source.slice? opSpan.start opSpan.stop = some spelling.toList

variable {foot : Token} {ts u v : List Token} {n : Node} {ns : List Node}

/-! ## Nodes that lie on ordered tokens

  So far a node lies on some tokens.  As tokens are in the order of the source and do not overlap, so are
  the nodes that lie on them. -/

namespace Lies

/-- Every node has a span the right way round, an empty block too. -/
theorem start_le_stop (h : Lies foot ts n) (ho : Ordered ts) : n.span.start ≤ n.span.stop := by
  cases h with
  | node _ hspan _ _ => exact hspan.start_le_stop ho
  | @emptyBlock b _ hspan =>
    show b.span.start ≤ b.span.stop
    rw [hspan]

/-- Some token begins no later than the node. -/
theorem exists_start_le (h : Lies foot ts n) (ho : Ordered ts) :
    ∃ t ∈ ts, t.span.start ≤ n.span.start := by
  cases h with
  | node _ hspan _ _ =>
    obtain ⟨t, ht, hstart⟩ := hspan.exists_start ho
    exact ⟨t, ht, Nat.le_of_eq hstart⟩
  | @emptyBlock b _ hspan =>
    refine ⟨foot, List.mem_singleton_self foot, ?_⟩
    show foot.span.start ≤ b.span.start
    rw [hspan]

/-- Some token ends no sooner than the node. -/
theorem exists_le_stop (h : Lies foot ts n) (ho : Ordered ts) :
    ∃ t ∈ ts, n.span.stop ≤ t.span.stop := by
  cases h with
  | node _ hspan _ _ =>
    obtain ⟨t, ht, hstop⟩ := hspan.exists_stop ho
    exact ⟨t, ht, Nat.le_of_eq hstop.symm⟩
  | @emptyBlock b _ hspan =>
    refine ⟨foot, List.mem_singleton_self foot, ?_⟩
    show b.span.stop ≤ foot.span.stop
    rw [hspan]
    exact ho.start_le_stop foot (List.mem_singleton_self foot)

/-- All nodes but an empty block tell what stands on their tokens. -/
theorem tells (h : Lies foot ts n) (hn : ∀ b, n ≠ .block b) : n.Tells ts := by
  cases h with
  | node _ _ htells _ => exact htells
  | emptyBlock _ _ => exact absurd rfl (hn _)

end Lies

/-- Each of the nodes lies on a stretch of the tokens. -/
theorem LieInOrder.exists_lies (h : LieInOrder foot ts ns) :
    ∀ n ∈ ns, ∃ u, u <:+: ts ∧ Lies foot u n := by
  induction ns generalizing ts with
  | nil => nofun
  | cons n ns ih =>
    cases h with
    | @cons skipped u v _ _ hn hns =>
      intro m hm
      rcases List.mem_cons.1 hm with rfl | hm
      · exact ⟨u, ⟨skipped, v, List.append_assoc ..⟩, hn⟩
      · obtain ⟨w, hw, hlies⟩ := ih hns m hm
        have hv : v <:+ skipped ++ (u ++ v) := ⟨skipped ++ u, List.append_assoc ..⟩
        exact ⟨w, hw.trans hv.isInfix, hlies⟩

/-- Nodes that lie in order do not overlap. -/
theorem LieInOrder.pairwise (h : LieInOrder foot ts ns) (ho : Ordered ts) :
    ns.Pairwise fun a b => a.span.stop ≤ b.span.start := by
  induction ns generalizing ts with
  | nil => exact .nil
  | cons n ns ih =>
    cases h with
    | @cons skipped u v _ _ hn hns =>
      have hrest := ho.right
      refine .cons (fun m hm => ?_) (ih hns hrest.right)
      -- the first node ends with a token of `u`, and the other one begins with a token of `v`
      obtain ⟨w, hw, hlies⟩ := hns.exists_lies m hm
      obtain ⟨t, ht, hstop⟩ := hn.exists_le_stop hrest.left
      obtain ⟨t', ht', hstart⟩ := hlies.exists_start_le (hrest.right.of_sublist hw.sublist)
      have hfollow := (List.pairwise_append.1 hrest.follow).2.2 t ht t' (hw.subset ht')
      omega

/-- And they lie within what covers all of the tokens. -/
theorem LieInOrder.inside {s : Span} (h : LieInOrder foot ts ns) (hs : Covers ts s) (ho : Ordered ts) :
    ∀ n ∈ ns, s.start ≤ n.span.start ∧ n.span.stop ≤ s.stop := by
  intro n hn
  obtain ⟨u, hu, hlies⟩ := h.exists_lies n hn
  have hou := ho.of_sublist hu.sublist
  obtain ⟨t, ht, hstart⟩ := hlies.exists_start_le hou
  obtain ⟨t', ht', hstop⟩ := hlies.exists_le_stop hou
  exact ⟨Nat.le_trans (hs.start_le ho t (hu.subset ht)) hstart,
    Nat.le_trans hstop (hs.le_stop ho t' (hu.subset ht'))⟩

/-! ## Walks

  A walk goes from a node to its children, and these lie on stretches of its tokens. -/

/-- Whatever a node is, its children lie in order on its tokens. -/
theorem Lies.children (h : Lies foot ts n) : LieInOrder foot ts n.children := by
  cases h with
  | node _ _ _ hchildren => exact hchildren
  | @emptyBlock b hempty _ =>
    show LieInOrder foot [foot] (b.declarations.map .declaration)
    rw [hempty.1]
    exact .nil

/-- What is visited lies on a stretch of the tokens, since what is on the stack does. -/
theorem Node.walkStack_lies {stack : List Node} (h : ∀ n ∈ stack, ∃ u, u <:+: ts ∧ Lies foot u n) :
    ∀ n ∈ walkStack stack, ∃ u, u <:+: ts ∧ Lies foot u n := by
  fun_induction walkStack stack with
  | case1 => nofun
  | case2 n stack ih =>
    obtain ⟨u, hu, hlies⟩ := h n List.mem_cons_self
    intro m hm
    rcases List.mem_cons.1 hm with rfl | hm
    · exact ⟨u, hu, hlies⟩
    · refine ih (fun child hchild => ?_) m hm
      rcases List.mem_append.1 hchild with hchild | hchild
      · obtain ⟨w, hw, hpart⟩ := hlies.children.exists_lies child hchild
        exact ⟨w, hw.trans hu, hpart⟩
      · exact h child (List.mem_cons_of_mem n hchild)

/-- The same for all that is below a node. -/
theorem Lies.walk (h : Lies foot ts n) : ∀ m ∈ n.walk, ∃ u, u <:+: ts ∧ Lies foot u m :=
  Node.walkStack_lies fun _ hm => ⟨ts, List.infix_rfl, List.mem_singleton.1 hm ▸ h⟩

/-! ## Tokens of a source

  Tokens of a lossless run are in order, and at each of them its spelling is written. -/

namespace Lossless

variable {source : Text} {tokens : List Token} {eof : Token}

/-- The tokens of a source are in its order. -/
theorem tokens_ordered (h : Lossless source (tokens.map .ok) eof) : Ordered tokens where
  start_le_stop t ht := Nat.le_of_lt (h.inside (.ok t) (List.mem_map_of_mem ht)).1
  follow := List.pairwise_map.1 h.ordered

/-- What stands at a token is a spelling of it. -/
theorem token_written (h : Lossless source (tokens.map .ok) eof) {t : Token} (ht : t ∈ tokens) :
    ∃ text, source.slice? t.span.start t.span.stop = some text ∧ t.kind.Spells text := by
  have hmem : Except.ok t ∈ tokens.map (Except.ok : Token → Item) := List.mem_map_of_mem ht
  obtain ⟨text, htext⟩ := Option.isSome_iff_exists.1 (h.whole _ hmem)
  have hspells := h.spelled t hmem
  rw [Span.text, show source.slice? t.span.start t.span.stop = some text from htext] at hspells
  exact ⟨text, htext, hspells⟩

/-- A node that lies on some of the tokens is in place. -/
theorem inPlace (h : Lossless source (tokens.map .ok) eof) (hu : u <:+: tokens) (hn : Lies foot u n) :
    n.InPlace source tokens foot := by
  have ho : Ordered u := h.tokens_ordered.of_sublist hu.sublist
  constructor
  case start_le_stop => exact hn.start_le_stop ho
  case stop_le =>
    obtain ⟨t, ht, hstop⟩ := hn.exists_le_stop ho
    have hinside := (h.inside (.ok t) (List.mem_map_of_mem (hu.subset ht))).2
    exact Nat.le_trans hstop hinside
  case on_tokens =>
    -- Both ends are those of tokens, unless the block is empty.
    intro hblock
    cases hn with
    | node _ hspan _ _ =>
      obtain ⟨t, ht, hstart⟩ := hspan.exists_start ho
      obtain ⟨t', ht', hstop⟩ := hspan.exists_stop ho
      exact ⟨⟨t, hu.subset ht, hstart⟩, t', hu.subset ht', hstop⟩
    | @emptyBlock b hempty _ => exact absurd hempty (hblock b rfl)
  case empty_block =>
    rintro b rfl hempty
    cases hn with
    | node _ _ htells _ => exact absurd hempty htells
    | emptyBlock _ hspan => exact hspan
  case children_inside =>
    cases hn with
    | node _ hspan _ hchildren => exact hchildren.inside hspan ho
    | @emptyBlock b hempty _ =>
      have hnone : (Node.block b).children = [] := List.map_eq_nil_iff.2 hempty.1
      rw [hnone]
      nofun
  case children_in_order => exact hn.children.pairwise ho
  case name_written =>
    rintro i rfl
    obtain ⟨t, ht, hkind, hspan⟩ := hn.tells nofun
    -- What is written at a token spells its kind, and a name is spelled as itself.
    obtain ⟨text, htext, hspells⟩ := h.token_written (hu.subset ht)
    rw [hkind] at hspells
    rw [hspan] at htext
    cases hspells with
    | name _ => exact htext
  case operator_written =>
    rintro e op opSpan lhs rhs rfl he
    -- The operator stands where the operands meet, and its token spells it.
    obtain ⟨k, k', hforms⟩ : ∃ k k', Forms k u (.whole e) k' := hn.tells nofun
    have hoperator : e.kind.OperatorOn u := hforms.operatorOn
    rw [he] at hoperator
    obtain ⟨t, ht, hkind, rfl⟩ := hoperator
    obtain ⟨text, htext, hspells⟩ := h.token_written (hu.subset ht)
    obtain ⟨spelling, hmem, rfl⟩ := Operator.spells_of_ofKind? hkind hspells
    exact ⟨spelling, hmem, htext⟩

end Lossless

/-! ## Units of a source

  Put together: the unit lies on the tokens of the source, and so all that is visited from it is in place. -/

/-- A report with a unit is a report on a reading that noted nothing. -/
theorem Cursor.exists_unit {options : Options} {c : Cursor} {unit : CompilationUnit}
    (h : (c.readUnit options).1.unit = some unit) :
    ∃ s, Recovering.unit options ⟨c, []⟩ = .ok unit s ∧ s.log = [] := by
  unfold readUnit at h
  split at h
  · next t s ht =>
    cases hlog : s.log with
    | nil =>
      rw [hlog] at h
      cases h
      exact ⟨s, ht, hlog⟩
    | cons r log =>
      rw [hlog] at h
      cases h
  · cases h

/-- What is read of a source are the tokens in front of its end. -/
theorem Lossless.rest_ofTokens {source : Text} {tokens : List Token} {eof : Token}
    (h : Lossless source (tokens.map .ok) eof) : (Cursor.ofTokens (tokens ++ [eof])).rest = tokens := by
  have goesOn : ∀ t ∈ tokens, (!t.kind.isEof) = true := by
    intro t ht
    rw [Bool.not_eq_true']
    exact h.not_end (.ok t) (List.mem_map_of_mem ht)
  have hend : (!eof.kind.isEof) = false := by rw [h.eof_kind]; rfl
  show (tokens ++ [eof]).takeWhile (fun t => !t.kind.isEof) = tokens
  rw [List.takeWhile_append_of_pos goesOn, List.takeWhile_cons_of_neg (by rw [hend]; nofun),
    List.append_nil]

/-- The source ends with the footer of the unit, and every node of the unit is in place. -/
def CompilationUnit.InPlace (source : String) (unit : CompilationUnit) : Prop :=
  ∃ tokens eof foot front footer, (tokenize source).tokens = tokens ++ [eof] ∧ eof.kind = .eof ∧
    tokens = front ++ footer ∧ IsFooterFrom foot footer unit.footer ∧
    ∀ n ∈ (Node.unit unit).walk, n.InPlace source.toList tokens foot

/-- The nodes of a unit that is read from a source are in place, whatever the options are. -/
theorem parse_inPlace (source : String) (options : Options) {unit : CompilationUnit}
    (h : (parse source options).unit = some unit) : unit.InPlace source := by
  unfold parse at h
  dsimp only at h
  split at h
  · next hl =>
    -- The tokens are those of a lossless run, since the source was read without errors.
    obtain ⟨tokens, eof, htokens, hlossless⟩ := tokenize_lossless hl
    obtain ⟨s, hs, hlog⟩ := Cursor.exists_unit h
    have hunit := Recovering.unit_lies hs hlog
    dsimp only at hunit
    rw [htokens, hlossless.rest_ofTokens] at hunit
    obtain ⟨foot, front, footer, hfront, hfooter, hlies⟩ := hunit
    refine ⟨tokens, eof, foot, front, footer, htokens, hlossless.eof_kind, hfront, hfooter, ?_⟩
    intro n hn
    obtain ⟨u, hu, hnode⟩ := (hlies hlossless.tokens_ordered).walk n hn
    exact hlossless.inPlace hu hnode
  · cases h

/-- The program with the one constant `c = (1 <> 2)`, as it is read from a line. -/
def constantComparison : CompilationUnit :=
  let one : Expr := ⟨0, .integer ⟨.decimal, "1"⟩, ⟨21, 22⟩⟩
  let two : Expr := ⟨1, .integer ⟨.decimal, "2"⟩, ⟨26, 27⟩⟩
  let value : Expr := ⟨2, .binary .ne ⟨23, 25⟩ one two, ⟨20, 28⟩⟩
  let constants : Declaration := ⟨3, .constants [⟨⟨"c", ⟨16, 17⟩⟩, value, ⟨16, 28⟩⟩], ⟨10, 29⟩⟩
  .program ⟨false, ⟨"M", ⟨7, 8⟩⟩, [], ⟨[constants], none, ⟨10, 29⟩⟩, ⟨"M", ⟨34, 35⟩⟩, ⟨0, 36⟩⟩

theorem parse_inPlace_comparison :
    (parse "MODULE M; CONST c = (1 <> 2); END M." .default).unit = some constantComparison ∧
      constantComparison.InPlace "MODULE M; CONST c = (1 <> 2); END M." := by
  have hunit : (parse "MODULE M; CONST c = (1 <> 2); END M." .default).unit = some constantComparison := by
    with_unfolding_all rfl
  exact ⟨hunit, parse_inPlace _ _ hunit⟩

end Modula
