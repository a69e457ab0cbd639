import Modula.Proofs.Forms
/-!
# Where nodes lie

  Spans are put together in many ways, from tokens, from the end of the last token that was read, or
  from the spans of parts.  All of them come to the same: a node lies on some tokens of the source.

  * `Lies foot ts n` — the node covers the tokens `ts`, it tells what stands on them (`Node.Tells`), and
    its children lie on parts of them, one behind the other (`LieInOrder`).  There is one node without
    tokens of its own, the block of a program that has neither declarations nor a body; it lies in front
    of the token `foot`, with which the footer begins.
-/

namespace Modula

/-! ## Nodes -/

/-- There is nothing in the block. -/
def Block.IsEmpty (b : Block) : Prop := b.declarations = [] ∧ b.body = none

/-- What the node says of these tokens: a name is the name of one of them, and an expression is formed by
all of them.  A block that lies on tokens is not empty. -/
def Node.Tells (ts : List Token) : Node → Prop
  | .ident i => ∃ t ∈ ts, t.kind = .name i.name ∧ t.span = i.span
  | .expr e => ∃ k k', Forms k ts (.whole e) k'
  | .block b => ¬ b.IsEmpty
  | _ => True

mutual

/-- The node lies on these tokens. -/
inductive Lies (foot : Token) : List Token → Node → Prop
  | node {ts : List Token} {n : Node} :
    ts ≠ [] → Covers ts n.span → n.Tells ts → LieInOrder foot ts n.children → Lies foot ts n
  | emptyBlock {b : Block} :
    b.IsEmpty → b.span = ⟨foot.span.start, foot.span.start⟩ → Lies foot [foot] (.block b)

/-- The nodes lie on parts of these tokens, one behind the other. -/
inductive LieInOrder (foot : Token) : List Token → List Node → Prop
  | nil {ts : List Token} : LieInOrder foot ts []
  | cons {skipped u v : List Token} {n : Node} {ns : List Node} :
    Lies foot u n → LieInOrder foot v ns → LieInOrder foot (skipped ++ (u ++ v)) (n :: ns)

end

/-- The part lies on these tokens, as a node of this kind. -/
abbrev LiesAs {α : Type} (foot : Token) (node : α → Node) (ts : List Token) (a : α) : Prop :=
  Lies foot ts (node a)

variable {foot : Token}

namespace Lies

variable {ts : List Token} {n : Node}

/-- An identifier lies on its name. -/
theorem ofName {t : Token} {i : Ident} (hname : t.kind = .name i.name) (hspan : t.span = i.span) :
    Lies foot [t] (.ident i) := by
  have hcovers : Covers [t] i.span := hspan ▸ .of_token t
  exact .node (List.cons_ne_nil _ _) hcovers ⟨t, List.mem_singleton_self t, hname, hspan⟩ .nil

/-- A node that lies on tokens lies on some. -/
theorem ne_nil (h : Lies foot ts n) : ts ≠ [] := by
  cases h with
  | node hne _ _ _ => exact hne
  | emptyBlock _ _ => exact List.cons_ne_nil _ _

/-- But for an empty block, a node covers its tokens. -/
theorem covers (h : Lies foot ts n) (hn : ∀ b, n ≠ .block b) : Covers ts n.span := by
  cases h with
  | node _ hspan _ _ => exact hspan
  | emptyBlock _ _ => exact absurd rfl (hn _)

end Lies

/-- A phrase that begins with the token at the cursor lies on what is taken. -/
theorem Cursor.Takes.lies {c d : Cursor} {ts : List Token} {n : Node} (h : c.Takes ts d)
    (hne : ts ≠ []) (hspan : n.span = ⟨c.token.span.start, d.lastEnd⟩) (htells : n.Tells ts)
    (hchildren : LieInOrder foot ts n.children) : Lies foot ts n :=
  .node hne (hspan ▸ h.covers hne) htells hchildren

namespace LieInOrder

variable {ts u v : List Token} {n : Node} {ns ms : List Node}

/-- Where there are no tokens there are no nodes. -/
theorem eq_nil (h : LieInOrder foot [] ns) : ns = [] := by
  generalize hts : ([] : List Token) = ts at h
  cases h with
  | nil => rfl
  | cons hn _ =>
    have hu := (List.append_eq_nil_iff.1 (List.append_eq_nil_iff.1 hts.symm).2).1
    exact absurd hu hn.ne_nil

/-- Tokens in front may belong to no node, as brackets and words do. -/
theorem skip_left (u : List Token) (h : LieInOrder foot v ns) : LieInOrder foot (u ++ v) ns := by
  cases h with
  | nil => exact .nil
  | cons hn hns =>
    rw [← List.append_assoc]
    exact .cons hn hns

/-- Two rows of nodes, one behind the other. -/
theorem append (hu : LieInOrder foot u ns) (hv : LieInOrder foot v ms) :
    LieInOrder foot (u ++ v) (ns ++ ms) := by
  induction ns generalizing u with
  | nil => exact hv.skip_left u
  | cons n ns ih =>
    cases hu with
    | cons hn hns =>
      rw [List.append_assoc, List.append_assoc]
      exact .cons hn (ih hns)

/-- And so may tokens behind. -/
theorem skip_right (v : List Token) (h : LieInOrder foot u ns) : LieInOrder foot (u ++ v) ns := by
  have hall : LieInOrder foot (u ++ v) (ns ++ []) := h.append .nil
  rwa [List.append_nil] at hall

theorem one (h : Lies foot ts n) : LieInOrder foot ts [n] := by
  have hone : LieInOrder foot ([] ++ (ts ++ [])) [n] := .cons h .nil
  rwa [List.nil_append, List.append_nil] at hone

/-- Two nodes with tokens between them, such as operands. -/
theorem two {m : List Token} {n' : Node} (hn : Lies foot u n) (hn' : Lies foot v n') :
    LieInOrder foot (u ++ (m ++ v)) [n, n'] := (one hn).append ((one hn').skip_left m)

end LieInOrder

/-- A node of two parts lies on the tokens of both and those in between, if its span is joined from
theirs. -/
theorem Lies.joined {u v m : List Token} {a b n : Node} (ha : Lies foot u a) (hb : Lies foot v b)
    (hna : ∀ x, a ≠ .block x) (hnb : ∀ x, b ≠ .block x) (hspan : n.span = a.span.join b.span)
    (hchildren : n.children = [a, b]) (htells : n.Tells (u ++ (m ++ v))) :
    Lies foot (u ++ (m ++ v)) n := by
  refine .node (List.append_ne_nil_of_left_ne_nil ha.ne_nil _) ?_ htells ?_
  · rw [hspan]
    exact (ha.covers hna).join (hb.covers hnb)
  · rw [hchildren]
    exact .two ha hb

/-- The same for a phrase of which the first token is known. -/
theorem Cursor.Takes.liesFrom {c d : Cursor} {t : Token} {ts : List Token} {n : Node}
    (h : c.Takes (t :: ts) d) (hspan : n.span = ⟨t.span.start, d.lastEnd⟩) (htells : n.Tells (t :: ts))
    (hchildren : LieInOrder foot ts n.children) : Lies foot (t :: ts) n := by
  rw [← h.token_eq] at hspan
  exact h.lies (List.cons_ne_nil _ _) hspan htells (hchildren.skip_left [t])

/-- The items of a list lie one behind the other, the separators between them. -/
theorem Joined.lieInOrder {α : Type} {ts : List Token} {l : List α} {node : α → Node}
    (h : Joined (LiesAs foot node) ts l) : LieInOrder foot ts (l.map node) := by
  induction h with
  | one ha => exact .one ha
  | more ha _ ih => exact (LieInOrder.one ha).append (ih.skip_left [_])

/-- A name lies on one token. -/
theorem Parser.ident_lays (foot : Token) : ident.Lays (LiesAs foot .ident) := by
  refine ident_takes.mono ?_
  rintro _ i ⟨t, rfl, hname, hspan⟩
  exact .ofName hname hspan

end Modula
