import Modula.Proofs.Calls
import Modula.Proofs.Numbering.TypeExpr
import Modula.Proofs.Reading.Unit
/-!
# How compilation units are numbered

  Where something is skipped, ids have been drawn for nodes that are in no tree.  So the readers of
  modules number what they read only if they note nothing (`Recovering.Draws`), and that is the case
  whenever a tree is given out.

  `answer_numbered` is the result for all three ways to read at a cursor.
-/

namespace Modula

open Token.Kind (word symbol)

/-! ## Items -/

namespace Parser

variable {before : List Nat}

theorem importKind_quiet : Quiet importKind := by
  refine .bind (accept_quiet _) fun taken => .ite ?_ ?_
  · refine .bind ident_quiet fun source => .bind (expect_quiet _) fun _ => ?_
    exact .bind identList_quiet fun names => .pure _
  · exact .bind (expect_quiet _) fun _ => .bind identList_quiet fun names => .pure _

/-- Imports have no ids. -/
theorem importClause_quiet : Quiet importClause := by
  refine .bind get_quiet fun c => .bind importKind_quiet fun kind => ?_
  exact .bind (expect_quiet _) fun _ => .bind lastEnd_quiet fun _ => .pure _

/-- A constant has the ids of its value. -/
theorem constItem_draws : Draws [] constItem fun i => (Node.constItem i).ids := by
  refine .quiet_bind ident_quiet fun name => .quiet_bind (expect_quiet _) fun _ => ?_
  refine .bind expr_draws fun value => .quiet_bind (expect_quiet _) fun _ => .pure ?_
  rw [Node.ids_constItem]

/-- A type and its name have the ids of the type. -/
theorem typeItem_draws : Draws [] typeItem fun i => (Node.typeItem i).ids := by
  refine .quiet_bind ident_quiet fun name => .quiet_bind (expect_quiet _) fun _ => ?_
  refine .bind type_draws fun type => .quiet_bind (expect_quiet _) fun _ => .pure ?_
  rw [Node.ids_typeItem]

theorem moduleName_quiet : Quiet moduleName :=
  .bind (expect_quiet _) fun _ => .bind ident_quiet fun _ => .bind (expect_quiet _) fun _ => .pure _

theorem definitionHeader_quiet : Quiet definitionHeader :=
  .bind (expect_quiet _) fun _ => moduleName_quiet

/-- Headers have no ids, and neither have footers. -/
theorem programHeader_quiet : Quiet programHeader :=
  .bind (accept_quiet _) fun _ => .bind moduleName_quiet fun _ => .pure _

theorem footer_quiet : Quiet footer :=
  .bind (expect_quiet _) fun _ => .bind ident_quiet fun _ => .bind (expect_quiet _) fun _ => .pure _

end Parser

/-! ## Readers of modules

  With recovery ids may be drawn for items that fail.  They are in no tree, but then there is a note in
  the log, and the report has no tree at all. -/

namespace Recovering

variable {α β : Type} {before : List Nat} {f : α → List Nat}

/-- If nothing has been noted, what is read adds to some ids just those that are drawn meanwhile. -/
def Draws (before : List Nat) (p : Recovering α) (after : α → List Nat) : Prop :=
  ∀ ⦃options s a s'⦄, p options s = .ok a s' → s'.log = [] →
    s.log = [] ∧ ∃ ids, after a = before ++ ids ∧ Consecutive s.cursor.nextId ids s'.cursor.nextId

namespace Draws

variable {p : Recovering α} {g : α → Recovering β} {after : α → List Nat} {last : β → List Nat}

theorem pure {a : α} (h : after a = before) : Draws before (Pure.pure a : Recovering α) after := by
  intro options s _ _ hrun hlog
  cases hrun
  exact ⟨hlog, [], by rw [h, List.append_nil], .nil _⟩

/-- As for parsers, the second part starts with what the first one ends with. -/
theorem bind (hp : Draws before p after) (hg : ∀ a, Draws (after a) (g a) last) :
    Draws before (p >>= g) last := by
  intro options s b s' h hlog
  obtain ⟨a, d, h₁, h₂⟩ := bind_eq_ok.1 h
  obtain ⟨hd, ids', hb, hids'⟩ := hg a h₂ hlog
  obtain ⟨hs, ids, ha, hids⟩ := hp h₁ hd
  exact ⟨hs, ids ++ ids', by rw [hb, ha, List.append_assoc], hids.append hids'⟩

/-- To look at the cursor draws nothing. -/
theorem cursor_bind {h : Cursor → Recovering β} (hh : ∀ c, Draws before (h c) last) :
    Draws before (cursor >>= h) last := fun _ _ _ _ hrun => hh _ hrun

/-- A parser run within a session draws what it draws alone. -/
theorem run {construct : Construct} {p : Parser α} (hp : Parser.Draws before p after) :
    Draws before (run construct p) after := by
  intro options s a s' h hlog
  obtain ⟨hrun, heq⟩ := run_eq_ok h
  exact ⟨heq ▸ hlog, hp hrun⟩

/-- There is something in the log behind a note, whatever comes later. -/
theorem log_ne_nil {h : Unit → Recovering β} {e : SyntaxError} {resumption : Cursor}
    {options : Options} {s s' : Session} {b : β} (hh : Draws before (h ()) last)
    (hrun : (note e resumption >>= h) options s = .ok b s') : s'.log ≠ [] := by
  intro hlog
  obtain ⟨_, d, h₁, h₂⟩ := bind_eq_ok.1 hrun
  have hd := (hh h₂ hlog).1
  rw [note_eq_ok h₁] at hd
  exact absurd hd (List.append_ne_nil_of_right_ne_nil _ (List.cons_ne_nil _ _))

/-- Behind a note nothing is claimed, since the log is not empty any more. -/
theorem note_bind {h : Unit → Recovering β} {e : SyntaxError} {resumption : Cursor}
    (hh : Draws before (h ()) last) : Draws before (note e resumption >>= h) last :=
  fun _ _ _ _ hrun hlog => absurd hlog (log_ne_nil hh hrun)

/-- Ids from before stay in front. -/
theorem behind (h : Draws [] p f) (before : List Nat) : Draws before p fun a => before ++ f a := by
  intro options s a s' hrun hlog
  obtain ⟨hs, ids, ha, hids⟩ := h hrun hlog
  exact ⟨hs, ids, congrArg (before ++ ·) ha, hids⟩

/-- The footer has no part in the numbering. -/
theorem inside {moduleName : Ident} (h : Draws before p after) :
    Draws before (inside moduleName p) after := fun _ _ _ _ hrun => h (inside_eq_ok.1 hrun)

end Draws

/-! ### Items and sections -/

/-- By induction on the budget.  A broken item that is noted leaves a gap in the ids, but then the log is
not empty in the end. -/
theorem tryItems_draws {starts : Token.Kind → Prop} [DecidablePred starts] {construct : Construct}
    {item : Parser α} {resume : Cursor → Cursor → Cursor} (hi : Parser.Draws [] item f)
    (budget : Nat) :
    Draws before (tryItems starts construct item resume budget) fun l => before ++ l.flatMap f := by
  induction budget generalizing before with
  | zero => exact .pure (List.append_nil _)
  | succ budget ih =>
    refine .cursor_bind fun start => ?_
    split
    · intro options s l s' h hlog
      obtain ⟨r, s₁, h₁, h₂⟩ := bind_eq_ok.1 h
      obtain ⟨hlog₁, ⟨a, rfl, ha⟩ | ⟨e, rfl⟩⟩ := attempt_eq_ok h₁
      · obtain ⟨ids, hf, hids⟩ := hi ha
        have hrest : Draws (before ++ f a)
            (do return a :: (← tryItems starts construct item resume budget))
            fun l => before ++ l.flatMap f := by
          refine .bind ih fun more => .pure ?_
          rw [List.flatMap_cons, List.append_assoc]
        obtain ⟨hs₁, ids', hl, hids'⟩ := hrest h₂ hlog
        refine ⟨hlog₁ ▸ hs₁, ids ++ ids', ?_, hids.append hids'⟩
        rw [hl, hf, List.nil_append, List.append_assoc]
      · -- either the error ends the reading, or it is noted
        obtain ⟨q, hq, h₃⟩ := cursor_bind_eq_ok h₂
        dsimp only at hq
        split at hq <;> subst hq
        · obtain ⟨_, _, h₄, _⟩ := bind_eq_ok.1 h₃
          cases h₄
        · have hmore : Draws [] (tryItems starts construct item resume budget)
              fun l => [] ++ l.flatMap f := ih
          exact absurd hlog (Draws.log_ne_nil hmore h₃)
    · exact .pure (List.append_nil _)

/-- Imports have no ids, however many there are. -/
theorem allImports_quiet : Draws before allImports fun _ => before := by
  refine .cursor_bind fun c => ?_
  rw [imports_eq_tryItems]
  have hnone : (fun _ => before) = fun l : List Import => before ++ l.flatMap fun _ => [] :=
    funext fun l => by simp
  rw [hnone]
  exact tryItems_draws (.of_quiet Parser.importClause_quiet) _

/-- A section is numbered behind all of its items. -/
theorem sectionOf_draws {construct : Construct} {item : Parser α} {kind : List α → DeclarationKind}
    (hi : Parser.Draws [] item f) (hkind : ∀ l, (kind l).children.flatMap Node.ids = l.flatMap f) :
    Draws [] (sectionOf construct item kind) Declaration.ids := by
  refine .bind (.run (.of_quiet Parser.advance_quiet)) fun head => .cursor_bind fun c => ?_
  rw [items_eq_tryItems]
  refine .bind (tryItems_draws hi c.remaining) fun items => ?_
  refine .bind (.run .freshId) fun id => .cursor_bind fun c => .pure ?_
  rw [Declaration.ids, Node.ids_declaration, hkind, List.nil_append]

/-- Sections one after the other; those that are passed over have no ids. -/
theorem declarations_draws (inDefinition : Bool) (budget : Nat) :
    Draws before (declarations inDefinition budget) fun l => before ++ l.flatMap Declaration.ids := by
  induction budget generalizing before with
  | zero => exact .pure (List.append_nil _)
  | succ budget ih =>
    have hmore : ∀ {construct : Construct} {β : Type} {item : Parser β} {g : β → List Nat}
        {kind : List β → DeclarationKind}, Parser.Draws [] item g →
        (∀ l, (kind l).children.flatMap Node.ids = l.flatMap g) →
        Draws before (do
          let d ← sectionOf construct item kind
          return d :: (← declarations inDefinition budget))
          fun l => before ++ l.flatMap Declaration.ids := by
      intro construct β item g kind hi hkind
      refine .bind ((sectionOf_draws hi hkind).behind before) fun d => .bind ih fun more => .pure ?_
      rw [List.flatMap_cons, List.append_assoc]
    refine .cursor_bind fun start => ?_
    split
    · exact hmore Parser.constItem_draws fun l => List.flatMap_map _ _ _
    · exact hmore Parser.typeItem_draws fun l => List.flatMap_map _ _ _
    · exact .note_bind ih
    · exact .note_bind ih
    · exact .pure (List.append_nil _)

/-- Statements have no ids, for they are passed over. -/
theorem body_quiet : Draws before body fun _ => before := by
  refine .cursor_bind fun c => ?_
  split
  · refine .bind (.run (.of_quiet Parser.advance_quiet)) fun head => .cursor_bind fun c => ?_
    dsimp only
    split
    · exact .note_bind (.pure rfl)
    · exact .pure rfl
  · exact .pure rfl

/-- The ids of a block are those of its sections. -/
theorem block_draws : Draws before block fun b => before ++ (Node.block b).ids := by
  refine .cursor_bind fun start => .bind (declarations_draws _ _) fun declarations => ?_
  refine .bind body_quiet fun body => .cursor_bind fun c => .pure ?_
  rw [Node.ids_block]

/-! ### Modules -/

/-- The ids of a definition module are those of its sections. -/
theorem definitionModule_draws :
    Draws [] definitionModule fun m => (Node.definitionModule m).ids := by
  refine .cursor_bind fun c => .bind (.run (.of_quiet Parser.definitionHeader_quiet)) fun name => ?_
  refine .bind (.inside allImports_quiet) fun imports => ?_
  refine .bind (.inside (.cursor_bind fun c => declarations_draws _ _)) fun declarations => ?_
  refine .bind (.inside (.run (.of_quiet Parser.footer_quiet))) fun footer => .cursor_bind fun c => ?_
  exact .pure (Node.ids_definitionModule _)

/-- Those of a program module are those of its block. -/
theorem programModule_draws : Draws [] programModule fun m => (Node.programModule m).ids := by
  refine .cursor_bind fun c => .bind (.run (.of_quiet Parser.programHeader_quiet)) fun header => ?_
  refine .bind (.inside allImports_quiet) fun imports => .bind (.inside block_draws) fun block => ?_
  refine .bind (.inside (.run (.of_quiet Parser.footer_quiet))) fun footer => .cursor_bind fun c => ?_
  exact .pure (Node.ids_programModule _)

/-- Both kinds of module are numbered alike. -/
theorem anyModule_draws : Draws [] anyModule fun u => (Node.unit u).ids := by
  refine .cursor_bind fun c => ?_
  split
  · exact .bind definitionModule_draws fun m => .pure (Node.ids_unit _)
  · exact .bind programModule_draws fun m => .pure (Node.ids_unit _)
  · exact .bind programModule_draws fun m => .pure (Node.ids_unit _)
  · exact .run .of_fail

theorem endOfSource_quiet : Draws before endOfSource fun _ => before := by
  refine .cursor_bind fun c => ?_
  split
  · exact .run .of_fail
  · exact .pure rfl

/-- The ids of a compilation unit are those drawn while it was read. -/
theorem unit_draws : Draws [] unit fun u => (Node.unit u).ids :=
  .bind anyModule_draws fun _ => .bind endOfSource_quiet fun _ => .pure rfl

end Recovering

/-! ## Answers

  What is claimed of a tree, and that it follows from the one fact that its ids are a stretch. -/

/-- The nodes of a tree have the ids from `first` up to `next`, each node behind its children. -/
structure Numbered (first next : Nat) (tree : Node) : Prop where
  /-- There are as many nodes with ids as ids are drawn. -/
  next_eq : next = first + (tree.walk.filterMap Node.id?).length
  /-- In post-order, the ids are those that are drawn. -/
  ids_eq : tree.postorder.filterMap Node.id? =
    List.range' first (tree.walk.filterMap Node.id?).length
  /-- No two nodes have the same id. -/
  nodup : (tree.walk.filterMap Node.id?).Nodup
  /-- The ids of a part of the tree follow each other as well, and the part itself has the last one. -/
  part : ∀ n ∈ tree.walk, ∃ low high, Consecutive low n.ids high ∧ ∀ id, n.id? = some id → id + 1 = high

/-- A node with an id has the last one of the ids. -/
theorem Consecutive.id_succ {first next id : Nat} {n : Node} (h : Consecutive first n.ids next)
    (hid : n.id? = some id) : id + 1 = next := by
  obtain ⟨hrange, hnext⟩ := h
  rw [Node.ids_eq, hid, Option.toList_some, List.length_append, List.length_singleton] at hrange hnext
  rw [List.range'_1_concat] at hrange
  obtain ⟨-, hlast⟩ := List.append_inj' hrange rfl
  rw [hnext, List.singleton_inj.1 hlast, Nat.add_assoc]

/-- From the stretch of the whole tree the stretches of its parts follow. -/
theorem Numbered.of_consecutive {first next : Nat} {tree : Node}
    (h : Consecutive first tree.ids next) : Numbered first next tree := by
  have hperm : (tree.walk.filterMap Node.id?).Perm tree.ids := tree.walk_perm_postorder.filterMap _
  refine ⟨?_, ?_, ?_, ?_⟩
  · rw [hperm.length_eq]
    exact h.next_eq
  · rw [hperm.length_eq]
    exact h.eq_range
  · exact hperm.nodup_iff.2 h.nodup
  · intro n hn
    obtain ⟨low, high, hpart⟩ := h.of_infix (Node.ids_infix_of_mem_walk hn)
    exact ⟨low, high, hpart, fun id => hpart.id_succ⟩

/-- Whatever a cursor is asked for, the ids of a tree that it gives out are those that are drawn. -/
theorem Cursor.answer_consecutive {options : Options} {c : Cursor} {request : Request} {tree : Node}
    (h : (c.answer options request).1.tree? = some tree) :
    Consecutive c.nextId tree.ids (c.answer options request).2.nextId := by
  cases request with
  | expr =>
    obtain ⟨e, c', hrun, rfl, hc'⟩ := exists_expr_of_tree h
    rw [hc']
    exact Parser.expr_draws.consecutive hrun
  | type =>
    obtain ⟨t, c', hrun, rfl, hc'⟩ := exists_type_of_tree h
    rw [hc']
    exact Parser.type_draws.consecutive hrun
  | unit =>
    obtain ⟨u, s, hrun, hlog, rfl, hc'⟩ := exists_unit_of_tree h
    obtain ⟨-, ids, hu, hids⟩ := Recovering.unit_draws hrun hlog
    rw [hc']
    rwa [show (Node.unit u).ids = ids from hu]

/-- Whatever a cursor is asked for, a tree that it gives out is numbered from its next id on. -/
theorem answer_numbered {options : Options} {c : Cursor} {request : Request} {tree : Node}
    (h : (c.answer options request).1.tree? = some tree) :
    Numbered c.nextId (c.answer options request).2.nextId tree :=
  .of_consecutive (Cursor.answer_consecutive h)

/-- At the beginning of `ARRAY [1..2], CHAR OF CHAR`, where 5 is the next id. -/
def atTwoIndexes : Cursor :=
  { Cursor.ofTokens (tokenize "ARRAY [1..2], CHAR OF CHAR").tokens with nextId := 5 }

/-- The array that stands for the second index has its id before the one around it. -/
def twoIndexes : TypeExpr :=
  let bounds : TypeExpr := ⟨7, .subrange ⟨5, .integer ⟨.decimal, "1"⟩, ⟨7, 8⟩⟩
    ⟨6, .integer ⟨.decimal, "2"⟩, ⟨10, 11⟩⟩, ⟨6, 12⟩⟩
  let char (id start : Nat) : TypeExpr :=
    ⟨id, .named ⟨⟨"CHAR", ⟨start, start + 4⟩⟩, [], ⟨start, start + 4⟩⟩, ⟨start, start + 4⟩⟩
  ⟨11, .array bounds ⟨10, .array (char 8 14) (char 9 22), ⟨14, 26⟩⟩, ⟨0, 26⟩⟩

/-- An array with two index types, read from the id 5 on. -/
theorem answer_numbered_twoIndexes :
    (atTwoIndexes.answer .default .type).1.tree? = some (.type twoIndexes) ∧
      Numbered 5 12 (.type twoIndexes) := by
  have htree : (atTwoIndexes.answer .default .type).1.tree? = some (.type twoIndexes) := by
    with_unfolding_all rfl
  have hnext : (atTwoIndexes.answer .default .type).2.nextId = 12 := by
    with_unfolding_all rfl
  exact ⟨htree, hnext ▸ answer_numbered htree⟩

end Modula
