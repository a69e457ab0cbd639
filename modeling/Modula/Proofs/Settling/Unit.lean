import Modula.Proofs.Settling.TypeExpr
import Modula.Proofs.Recovery.Unit
/-!
# The repetitions in compilation units settle

  Here a turn may go on after an error, at a place that the recovery has chosen, and this may be in front
  of the place where the error arose.  So what tells that there is less to be read is not how far the
  broken item was read, but where it began: a note lets reading go on behind its first token
  (`Resumes`).  A section takes its keyword, whatever becomes of its items.
-/

namespace Modula.Recovering

open Token.Kind (word symbol)

variable {α β : Type} {n : Nat}

/-- The readers do the same wherever there are fewer than `n` tokens to be read, with any options and
any log. -/
def AgreeBelow (n : Nat) (p q : Recovering α) : Prop :=
  ∀ options s, s.cursor.remaining < n → p options s = q options s

/-! ## Sequences

  Readers are compared like parsers, by how many tokens are left. -/

section

variable {options : Options} {s : Session}

/-- Readers in sequence, compared where the first one has ended. -/
theorem bind_congr {p : Recovering α} {f g : α → Recovering β}
    (h : ∀ a s', p options s = .ok a s' → f a options s' = g a options s') :
    (p >>= f) options s = (p >>= g) options s := by
  rw [bind_apply, bind_apply]
  cases hp : p options s with
  | ok a s' => exact h a s' hp
  | error e s' => rfl

/-- At a given session the look at its cursor makes no difference. -/
theorem cursor_bind_eq {f g : Cursor → Recovering β}
    (h : f s.cursor options s = g s.cursor options s) :
    (cursor >>= f) options s = (cursor >>= g) options s := h

/-- Behind a note there is as much to be read as the note tells. -/
theorem note_bind_eq {e : SyntaxError} {resumption : Cursor} {f g : Unit → Recovering β}
    (h : AgreeBelow n (f ()) (g ())) (hn : resumption.remaining < n) :
    (note e resumption >>= f) options s = (note e resumption >>= g) options s := by
  refine bind_congr fun _ s' hs => h options s' ?_
  unfold note at hs
  split at hs
  · cases hs
  · cases hs
    exact hn

end

namespace AgreeBelow

variable {p q : Recovering α}

theorem zero (p q : Recovering α) : AgreeBelow 0 p q := fun _ _ hs => absurd hs (Nat.not_lt_zero _)

theorem bind_same (h : AgreeBelow n p q) (f : α → Recovering β) :
    AgreeBelow n (p >>= f) (q >>= f) := by
  intro options s hs
  rw [bind_apply, bind_apply, h options s hs]

end AgreeBelow

/-! ## Items

  A turn takes a token if the item does.  If the item fails, the skip behind it takes one. -/

section

variable {item : Parser α} {L : Language Token.Kind} {starts : Token.Kind → Prop}
  [DecidablePred starts] {construct : Construct} {resume : Cursor → Cursor → Cursor}

/-- One item is tried, and more of them. -/
def tryItemsTurn (starts : Token.Kind → Prop) [DecidablePred starts] (construct : Construct)
    (item : Parser α) (resume : Cursor → Cursor → Cursor) (more : Recovering (List α)) :
    Recovering (List α) := do
  let start ← cursor
  if starts start.kind then
    match ← attempt construct item with
    | .ok a => return a :: (← more)
    | .error e =>
      let c ← cursor
      if c.atEnd then throw e
      note e (resume start c)
      more
  else return []

/-- An item takes a token, or the skip behind a broken one does. -/
theorem tryItems_settles (hend : ¬ starts .eof) (hi : item.Tracks L) (hL : [] ∉ L)
    (hresume : Resumes starts L resume) :
    Settles AgreeBelow (tryItemsTurn starts construct item resume)
      (tryItems starts construct item resume) := by
  refine .of_turn (fun n => rfl) AgreeBelow.zero (fun q options s hs => ?_)
    fun n budget q h options s hs => cursor_bind_eq ?_
  · have hnone : ¬ starts s.cursor.kind := by rwa [Cursor.kind_eq_eof hs]
    rw [tryItemsTurn, bind_of_ok (cursor_apply options s), if_neg hnone]
    rfl
  · split
    · next hstarts =>
      cases hrun : item construct s.cursor with
      | ok a c' =>
        rw [bind_of_ok (attempt_of_ok hrun options s.log),
          bind_of_ok (attempt_of_ok hrun options s.log)]
        have hlt : c'.remaining < s.cursor.remaining := (hi _ _).remaining_lt hL hrun
        exact h.bind_same _ options ⟨c', s.log⟩ (Nat.lt_of_lt_of_le hlt (Nat.le_of_lt_succ hs))
      | error e c' =>
        rw [bind_of_ok (attempt_of_error hrun options s.log),
          bind_of_ok (attempt_of_error hrun options s.log)]
        -- where reading goes on there is less to be read than where the item began
        obtain ⟨d, -, -, -, -, hlt⟩ := hresume hstarts ((hi _ _).fails hrun)
        refine cursor_bind_eq ?_
        dsimp only
        split
        · rfl
        · exact note_bind_eq h (Nat.lt_of_lt_of_le hlt (Nat.le_of_lt_succ hs))
    · rfl

omit [DecidablePred starts] in
/-- What begins with a token of some kind is not empty. -/
theorem nil_not_mem_words {phrase : Phrase β} (h : Begins starts phrase) : [] ∉ phrase.words := by
  rintro ⟨a, ha⟩
  obtain ⟨k, v, hnil, -⟩ := h ha
  cases hnil

end

/-! ## Sections

  Items may be none, so that it is the word of a section that takes a token. -/

section

variable {item : Parser α} {L : Language Token.Kind} {construct : Construct}
  {kind : List α → DeclarationKind} {options : Options} {s s' : Session} (hi : item.Tracks L)
  (hresume : Resumes (fun k => k.isName = true) L Cursor.resume) (hs : s.cursor.kind ≠ .eof)

include hi hresume hs

/-- Items go forward, and their section has taken its keyword before. -/
theorem sectionOf_remaining_lt {d : Declaration}
    (h : sectionOf construct item kind options s = .ok d s') :
    s'.cursor.remaining < s.cursor.remaining := by
  obtain ⟨t, s₁, h₁, h₂⟩ := bind_eq_ok.1 h
  obtain ⟨q, rfl, h₃⟩ := cursor_bind_eq_ok h₂
  obtain ⟨l, s₂, h₄, h₅⟩ := bind_eq_ok.1 h₃
  cases h₁
  cases h₅
  rw [items_eq_tryItems] at h₄
  have hfollows : Follows s.cursor.advance s.log (.ok l s₂) :=
    h₄ ▸ (tryItems_steady construct hi hresume _ ⟨_, s.log⟩).follows options
  obtain ⟨_, -, htrail⟩ := hfollows
  exact Cursor.remaining_lt_of_advance_le hs htrail.le

/-- Behind the word of a section there is less to be read. -/
theorem sectionOf_bind_eq {f g : Declaration → Recovering β} (hn : s.cursor.remaining < n + 1)
    (h : ∀ d, AgreeBelow n (f d) (g d)) :
    (sectionOf construct item kind >>= f) options s =
      (sectionOf construct item kind >>= g) options s := by
  refine bind_congr fun d s' hrun => h d options s' ?_
  exact Nat.lt_of_lt_of_le (sectionOf_remaining_lt hi hresume hs hrun) (Nat.le_of_lt_succ hn)

end

/-- One section, and more of them. -/
def declarationsTurn (inDefinition : Bool) (more : Recovering (List Declaration)) :
    Recovering (List Declaration) := do
  let start ← cursor
  match start.kind with
  | .word .CONST =>
    let d ← sectionOf .constDeclaration Parser.constItem .constants
    return d :: (← more)
  | .word .TYPE =>
    let d ← sectionOf .typeDeclaration Parser.typeItem .types
    return d :: (← more)
  | .word .VAR =>
    note (outerError start (.notSupported .variableDeclarations)) start.afterVariables
    more
  | .word .PROCEDURE =>
    note (outerError start (.notSupported .procedureDeclarations))
      (start.afterProcedure inDefinition)
    more
  | _ => return []

/-- Each section begins with a word, and each skip passes the word that it begins at. -/
theorem declarations_settle (inDefinition : Bool) :
    Settles AgreeBelow (declarationsTurn inDefinition) (declarations inDefinition) := by
  refine .of_turn (fun n => rfl) AgreeBelow.zero (fun q options s hs => ?_)
    fun n budget q h options s hs => cursor_bind_eq ?_
  · rw [declarationsTurn, bind_of_ok (cursor_apply options s), Cursor.kind_eq_eof hs]
    rfl
  · have hlt : ∀ {d : Cursor}, s.cursor.kind ≠ .eof → s.cursor.advance ≤ d → d.remaining < n :=
      fun hk hd => Nat.lt_of_lt_of_le (Cursor.remaining_lt_of_advance_le hk hd) (Nat.le_of_lt_succ hs)
    generalize hk : s.cursor.kind = k
    split
    · exact sectionOf_bind_eq Parser.constItem_tracks (resume_resumes fun _ => .of_isConstItem)
        (hk ▸ nofun) hs fun d => h.bind_same _
    · exact sectionOf_bind_eq Parser.typeItem_tracks (resume_resumes fun _ => .of_isTypeItem)
        (hk ▸ nofun) hs fun d => h.bind_same _
    · exact note_bind_eq h (hlt (hk ▸ nofun) s.cursor.advance_le_afterVariables)
    · exact note_bind_eq h (hlt (hk ▸ nofun) (s.cursor.advance_le_afterProcedure _))
    · rfl

/-! ## All together -/

/-- No repetition of the readers of modules has to be ended by its budget. -/
structure RepetitionsSettle : Prop where
  imports : Settles AgreeBelow
    (tryItemsTurn (fun k => k = word .IMPORT ∨ k = word .FROM) .importClause Parser.importClause
      fun start _ => start.afterImport) imports
  constItems : Settles AgreeBelow
    (tryItemsTurn (fun k => k.isName = true) .constDeclaration Parser.constItem Cursor.resume)
    (items .constDeclaration Parser.constItem)
  typeItems : Settles AgreeBelow
    (tryItemsTurn (fun k => k.isName = true) .typeDeclaration Parser.typeItem Cursor.resume)
    (items .typeDeclaration Parser.typeItem)
  declarations : ∀ inDefinition, Settles AgreeBelow (declarationsTurn inDefinition)
    (declarations inDefinition)

/-- Neither the loops of the parsers nor those over items and sections end by their budgets. -/
theorem repetitions_settle : RepetitionsSettle where
  imports := by
    rw [funext imports_eq_tryItems]
    exact tryItems_settles (by simp) Parser.importClause_tracks (nil_not_mem_words isImport_begins)
      afterImport_resumes
  constItems := by
    rw [funext (items_eq_tryItems _ _)]
    exact tryItems_settles (by nofun) Parser.constItem_tracks (nil_not_mem_words isConstItem_begins)
      (resume_resumes fun _ => .of_isConstItem)
  typeItems := by
    rw [funext (items_eq_tryItems _ _)]
    exact tryItems_settles (by nofun) Parser.typeItem_tracks (nil_not_mem_words isTypeItem_begins)
      (resume_resumes fun _ => .of_isTypeItem)
  declarations := declarations_settle

end Modula.Recovering
