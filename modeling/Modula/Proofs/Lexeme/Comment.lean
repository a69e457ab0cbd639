import Modula.Lexeme.Comment
/-!
# The grammar of comments

      comment  =  "(*" {piece} "*)"
      piece    =  comment | character

  The pieces are taken from left to right, and a character is a piece only where no delimiter begins.
  `IsCommentTail` is a comment without its opening delimiter: what is left to be read inside of one.

  `Comment.lengthAt` counts open comments instead.  With so many of them open it measures as many
  tails, one behind the other (`lengthAt_eq_some`), and every tail is measured, whatever follows it
  (`lengthAt_tail`).
-/

namespace Modula

/-- Whether a delimiter of comments begins here. -/
def startsDelimiter : Text → Bool
  | '(' :: '*' :: _ => true
  | '*' :: ')' :: _ => true
  | _ => false

/-- `{piece} "*)"` -/
inductive IsCommentTail : Text → Prop
  | close : IsCommentTail ['*', ')']
  | nested {u v : Text} :
    IsCommentTail u → IsCommentTail v → IsCommentTail ('(' :: '*' :: (u ++ v))
  | character {c : Char} {cs : Text} :
    startsDelimiter (c :: cs) = false → IsCommentTail cs → IsCommentTail (c :: cs)

/-- `"(*" {piece} "*)"` -/
inductive IsComment : Text → Prop
  | comment {u : Text} : IsCommentTail u → IsComment ('(' :: '*' :: u)

/-- So many tails of comments, one behind the other. -/
inductive CommentTails : Nat → Text → Prop
  | none : CommentTails 0 []
  | more {n : Nat} {u v : Text} :
    IsCommentTail u → CommentTails n v → CommentTails (n + 1) (u ++ v)

/-- A comment has at least its closing delimiter. -/
theorem IsCommentTail.ne_nil {u : Text} (h : IsCommentTail u) : u ≠ [] := by
  cases h <;> exact List.cons_ne_nil _ _

/-- No delimiter begins where neither of its two characters does. -/
theorem startsDelimiter_eq_false {c : Char} {cs : Text} (hopen : ∀ inside, c = '(' → cs ≠ '*' :: inside)
    (hclose : ∀ rest, c = '*' → cs ≠ ')' :: rest) : startsDelimiter (c :: cs) = false := by
  unfold startsDelimiter
  split
  · next heq => exact absurd (List.cons.inj heq).2 (hopen _ (List.cons.inj heq).1)
  · next heq => exact absurd (List.cons.inj heq).2 (hclose _ (List.cons.inj heq).1)
  · rfl

/-- Whether a delimiter begins at a character is settled by the first character behind it. -/
theorem startsDelimiter_append {c : Char} {u : Text} (hu : u ≠ []) (v : Text) :
    startsDelimiter (c :: (u ++ v)) = startsDelimiter (c :: u) := by
  obtain ⟨d, u, rfl⟩ := List.exists_cons_of_ne_nil hu
  rw [List.cons_append]
  by_cases hopen : c = '(' ∧ d = '*'
  · rw [hopen.1, hopen.2]
    rfl
  · by_cases hclose : c = '*' ∧ d = ')'
    · rw [hclose.1, hclose.2]
      rfl
    · have none : ∀ w, startsDelimiter (c :: d :: w) = false := fun w =>
        startsDelimiter_eq_false (fun _ hc hd => hopen ⟨hc, (List.cons.inj hd).1⟩)
          (fun _ hc hd => hclose ⟨hc, (List.cons.inj hd).1⟩)
      rw [none, none]

/-! ## What is measured -/

/-- Several open comments are closed one after the other. -/
theorem commentTails_succ {n : Nat} {t : Text} :
    CommentTails (n + 1) t ↔ ∃ u v, t = u ++ v ∧ IsCommentTail u ∧ CommentTails n v := by
  constructor
  · intro h
    cases h with
    | more hu hv => exact ⟨_, _, rfl, hu, hv⟩
  · rintro ⟨u, v, rfl, hu, hv⟩
    exact .more hu hv

/-- What is measured with so many comments open is as many tails. -/
theorem lengthAt_eq_some {depth n : Nat} {cs : Text} (h : Comment.lengthAt depth cs = some n) :
    n ≤ cs.length ∧ CommentTails depth (cs.take n) := by
  fun_induction Comment.lengthAt depth cs generalizing n with
  | case1 cs =>
    cases h
    exact ⟨Nat.zero_le _, .none⟩
  | case2 depth cs ih =>
    -- a nested comment: the first two tails become one
    obtain ⟨m, hm, rfl⟩ := Option.map_eq_some_iff.1 h
    obtain ⟨hle, htails⟩ := ih hm
    refine ⟨by simp only [List.length_cons]; omega, ?_⟩
    rw [List.take_succ_cons, List.take_succ_cons]
    obtain ⟨u, t, ht, hu, htails⟩ := commentTails_succ.1 htails
    obtain ⟨v, w, rfl, hv, hw⟩ := commentTails_succ.1 htails
    rw [ht, ← List.append_assoc]
    exact .more (.nested hu hv) hw
  | case3 depth cs ih =>
    -- the innermost comment is closed
    obtain ⟨m, hm, rfl⟩ := Option.map_eq_some_iff.1 h
    obtain ⟨hle, htails⟩ := ih hm
    refine ⟨by simp only [List.length_cons]; omega, ?_⟩
    rw [List.take_succ_cons, List.take_succ_cons]
    exact .more .close htails
  | case4 depth c cs hopen hclose ih =>
    obtain ⟨m, hm, rfl⟩ := Option.map_eq_some_iff.1 h
    obtain ⟨hle, htails⟩ := ih hm
    refine ⟨by simp only [List.length_cons]; omega, ?_⟩
    rw [List.take_succ_cons]
    obtain ⟨u, v, ht, hu, hv⟩ := commentTails_succ.1 htails
    have hcs : cs = u ++ (v ++ cs.drop m) := by
      rw [← List.append_assoc, ← ht, List.take_append_drop]
    have hnone : startsDelimiter (c :: u) = false := by
      rw [← startsDelimiter_append hu.ne_nil (v ++ cs.drop m), ← hcs]
      exact startsDelimiter_eq_false hopen hclose
    rw [ht]
    exact .more (.character hnone hu) hv
  | case5 depth => cases h

/-- What is measured behind an opening delimiter is a comment without it. -/
theorem length?_eq_some {n : Nat} {cs : Text} (h : Comment.length? cs = some n) :
    n ≤ cs.length ∧ IsCommentTail (cs.take n) := by
  obtain ⟨hle, htails⟩ := lengthAt_eq_some h
  obtain ⟨u, v, ht, hu, hv⟩ := commentTails_succ.1 htails
  cases hv
  rw [List.append_nil] at ht
  exact ⟨hle, ht ▸ hu⟩

/-! ## What is a tail is measured -/

/-- A character that begins no delimiter is counted, with as many comments open. -/
theorem lengthAt_character {c : Char} {cs : Text} (h : startsDelimiter (c :: cs) = false) (depth : Nat) :
    Comment.lengthAt (depth + 1) (c :: cs) = (Comment.lengthAt (depth + 1) cs).map (· + 1) := by
  unfold startsDelimiter at h
  split at h
  · cases h
  · cases h
  · next hopen hclose =>
    rw [Comment.lengthAt]
    · exact fun inside hc hcs => hopen inside (hc ▸ hcs ▸ rfl)
    · exact fun inside hc hcs => hclose inside (hc ▸ hcs ▸ rfl)

/-- Behind a tail, one comment fewer is open. -/
theorem lengthAt_tail {u : Text} (h : IsCommentTail u) : ∀ (depth : Nat) (rest : Text),
    Comment.lengthAt (depth + 1) (u ++ rest) = (Comment.lengthAt depth rest).map (· + u.length) := by
  induction h with
  | close => exact fun depth rest => rfl
  | @nested u v _ _ ihu ihv =>
    intro depth rest
    show (Comment.lengthAt (depth + 2) (u ++ v ++ rest)).map (· + 2) = _
    rw [List.append_assoc, ihu, ihv, Option.map_map, Option.map_map]
    congr 1
    funext n
    simp only [Function.comp_apply, List.length_cons, List.length_append]
    omega
  | @character c cs hnone hcs ih =>
    intro depth rest
    have hnone' : startsDelimiter (c :: (cs ++ rest)) = false := by
      rwa [startsDelimiter_append hcs.ne_nil]
    show Comment.lengthAt (depth + 1) (c :: (cs ++ rest)) = _
    rw [lengthAt_character hnone', ih, Option.map_map]
    congr 1

/-- A comment without its opening delimiter is measured, whatever follows it. -/
theorem length?_tail {u : Text} (h : IsCommentTail u) (rest : Text) :
    Comment.length? (u ++ rest) = some u.length := by
  rw [Comment.length?, lengthAt_tail h, Comment.lengthAt, Option.map_some, Nat.zero_add]

end Modula
