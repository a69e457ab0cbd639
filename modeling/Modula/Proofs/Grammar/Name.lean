import Modula.Token
import Modula.Proofs.Relabel
/-!
# Phrases and names

  A grammar says which sequences of token kinds are sentences, and what each of them stands for.  A
  `Phrase` is such a relation.  What a sentence stands for is a bare tree, in which every id is 0 and
  every span is `Span.nowhere`, so that a sentence determines its tree.

  * `Repeated p` — any number of sentences of `p`, one behind the other;
  * `Separated s p` — one or more sentences of `p`, with the token `s` between them.
-/

namespace Modula

open Token.Kind (word symbol)

/-- Sequences of token kinds, each with what it stands for. -/
abbrev Phrase (α : Type) := List Token.Kind → α → Prop

/-- `{phrase}` -/
inductive Repeated {α : Type} (phrase : Phrase α) : Phrase (List α)
  | none : Repeated phrase [] []
  | more {u v : List Token.Kind} {a : α} {l : List α} :
    phrase u a → Repeated phrase v l → Repeated phrase (u ++ v) (a :: l)

/-- `phrase {separator phrase}` -/
inductive Separated {α : Type} (separator : Token.Kind) (phrase : Phrase α) : Phrase (List α)
  | one {w : List Token.Kind} {a : α} : phrase w a → Separated separator phrase w [a]
  | more {u v : List Token.Kind} {a : α} {l : List α} :
    phrase u a → Separated separator phrase v l →
      Separated separator phrase (u ++ separator :: v) (a :: l)

/-- `{separator phrase}` -/
def Further {α : Type} (separator : Token.Kind) (phrase : Phrase α) : Phrase (List α) := fun w l =>
  (w = [] ∧ l = []) ∨ ∃ v, w = separator :: v ∧ Separated separator phrase v l

/-- The first item of a list, and what stands behind it. -/
theorem separated_cons_iff {α : Type} {separator : Token.Kind} {phrase : Phrase α}
    {w : List Token.Kind} {a : α} {l : List α} : Separated separator phrase w (a :: l) ↔
      ∃ u v, w = u ++ v ∧ phrase u a ∧ Further separator phrase v l := by
  constructor
  · intro h
    cases h with
    | one ha => exact ⟨w, [], (List.append_nil w).symm, ha, Or.inl ⟨rfl, rfl⟩⟩
    | more ha hl => exact ⟨_, _, rfl, ha, Or.inr ⟨_, rfl, hl⟩⟩
  · rintro ⟨u, v, rfl, ha, ⟨rfl, rfl⟩ | ⟨v, rfl, hl⟩⟩
    · rw [List.append_nil]
      exact .one ha
    · exact .more ha hl

/-- Every sentence begins with a token that has this property. -/
def Begins {α : Type} (p : Token.Kind → Prop) (phrase : Phrase α) : Prop :=
  ∀ ⦃w a⦄, phrase w a → ∃ k v, w = k :: v ∧ p k

/-- A list begins as its items do. -/
theorem Begins.separated {α : Type} {p : Token.Kind → Prop} {separator : Token.Kind}
    {phrase : Phrase α} (h : Begins p phrase) : Begins p (Separated separator phrase) := by
  intro w l hw
  cases hw with
  | one ha => exact h ha
  | more ha _ =>
    obtain ⟨k, v, rfl, hk⟩ := h ha
    exact ⟨k, _, List.cons_append, hk⟩

/-! ## Names -/

/-- `ident` -/
inductive IsIdent : Phrase Ident
  | name (text : String) : IsIdent [.name text] ⟨text, .nowhere⟩

/-- `ident {"," ident}` -/
inductive IsIdentList : Phrase IdentList
  | idents {w : List Token.Kind} {i : Ident} {l : List Ident} :
    Separated (symbol .comma) IsIdent w (i :: l) → IsIdentList w ⟨i, l, .nowhere⟩

/-- `ident {"." ident}` -/
inductive IsQualident : Phrase Qualident
  | parts {w : List Token.Kind} {i : Ident} {l : List Ident} :
    Separated (symbol .period) IsIdent w (i :: l) → IsQualident w ⟨i, l, .nowhere⟩

theorem isIdent_begins : Begins (fun k => k.isName = true) IsIdent := by
  intro w i hw
  cases hw with
  | name text => exact ⟨.name text, [], rfl, rfl⟩

theorem isIdentList_begins : Begins (fun k => k.isName = true) IsIdentList := by
  intro w l hw
  cases hw with
  | idents hw => exact isIdent_begins.separated hw

theorem isQualident_begins : Begins (fun k => k.isName = true) IsQualident := by
  intro w q hw
  cases hw with
  | parts hw => exact isIdent_begins.separated hw

end Modula
