import Modula.Json.Decode
/-!
# The budget of a reader is never short

  Expressions and types are read by recursion on a budget, which is how deep the value may still be
  nested.  A value that is nested no deeper than the budget is read the same with any such budget.  So
  the readers satisfy the equations that one would write down for them if no budget were needed
  (`Expr.ofJson?_eq`, `TypeExpr.ofJson?_eq`, `FieldList.ofJson?_eq`).

  Two readers agree up to a depth if they read the same out of every value that is nested no deeper
  (`Agree`).  Readers that are put together from them agree one level further.
-/

namespace Modula

namespace Json

/-- Every value is nested once at least. -/
theorem depth_pos (j : Json) : 0 < j.depth := by
  cases j <;> (unfold depth; omega)

theorem exists_depth_eq (j : Json) : ∃ n, j.depth = n + 1 :=
  ⟨j.depth - 1, (Nat.succ_pred_eq_of_pos j.depth_pos).symm⟩

/-- An item is nested no deeper than the deepest one. -/
theorem depth_le_items {v : Json} {items : List Json} (h : v ∈ items) : v.depth ≤ depthOfItems items := by
  induction items with
  | nil => cases h
  | cons j js ih =>
    rw [depthOfItems]
    rcases List.mem_cons.1 h with rfl | h
    · exact Nat.le_max_left _ _
    · exact Nat.le_trans (ih h) (Nat.le_max_right _ _)

/-- The same for members. -/
theorem depth_le_members {key : String} {v : Json} {members : List (String × Json)}
    (h : members.lookup key = some v) : v.depth ≤ depthOfMembers members := by
  induction members with
  | nil => cases h
  | cons m ms ih =>
    obtain ⟨k, j⟩ := m
    rw [depthOfMembers]
    rw [List.lookup_cons] at h
    split at h
    · obtain rfl := Option.some.inj h
      exact Nat.le_max_left _ _
    · exact Nat.le_trans (ih h) (Nat.le_max_right _ _)

/-- What is in an object is nested less deep than the object. -/
theorem depth_lt_of_member {j v : Json} {key : String} (h : j.member? key = some v) :
    v.depth < j.depth := by
  cases j with
  | object members =>
    have hle := depth_le_members h
    rw [depth]
    omega
  | _ => cases h

/-- What is in a case, too. -/
theorem depth_lt_of_content {j v : Json} {tag : String} (h : j.content? = some (tag, v)) :
    v.depth < j.depth := by
  unfold content? at h
  split at h
  · cases h
    rw [depth, depthOfMembers, depthOfMembers]
    omega
  · cases h

/-- What is done with a tagged value depends on its content, which is not nested as deep. -/
theorem content?_bind_congr {β : Type} {f f' : String × Json → Option β} {j : Json} {d : Nat}
    (hj : j.depth ≤ d + 1) (h : ∀ tag v, v.depth ≤ d → f (tag, v) = f' (tag, v)) :
    (j.content? >>= f) = (j.content? >>= f') := by
  cases hcontent : j.content? with
  | none => rfl
  | some content =>
    obtain ⟨tag, v⟩ := content
    exact h tag v (Nat.le_of_lt_succ (Nat.lt_of_lt_of_le (depth_lt_of_content hcontent) hj))

/-- Readers that agree on all items of a list read the same list. -/
theorem mapM_congr {α : Type} {read read' : Json → Option α} {vs : List Json}
    (h : ∀ v ∈ vs, read v = read' v) : vs.mapM read = vs.mapM read' := by
  induction vs with
  | nil => rfl
  | cons v vs ih =>
    rw [List.mapM_cons, List.mapM_cons, h v List.mem_cons_self,
      ih fun v hv => h v (List.mem_cons_of_mem _ hv)]

/-- The readers read the same out of every value that is nested no deeper. -/
def Agree {α : Type} (d : Nat) (read read' : Json → Option α) : Prop :=
  ∀ j, j.depth ≤ d → read j = read' j

namespace Agree

variable {α : Type} {d : Nat} {read read' : Json → Option α} {j v : Json}

/-- No value is nested so little. -/
theorem zero : Agree 0 read read' := fun j hj => absurd j.depth_pos (Nat.not_lt_of_le hj)

/-- One level more for the object around a member. -/
theorem required (h : Agree d read read') (key : String) :
    Agree (d + 1) (required key read) (required key read') := by
  intro j hj
  unfold Json.required
  cases hmember : j.member? key with
  | none => rfl
  | some v => exact h v (Nat.le_of_lt_succ (Nat.lt_of_lt_of_le (depth_lt_of_member hmember) hj))

/-- The same for a member that may be missing. -/
theorem optional (h : Agree d read read') (key : String) :
    Agree (d + 1) (optional key read) (optional key read') := by
  intro j hj
  unfold Json.optional
  cases hmember : j.member? key with
  | none => rfl
  | some v =>
    have hv := h v (Nat.le_of_lt_succ (Nat.lt_of_lt_of_le (depth_lt_of_member hmember) hj))
    cases v <;> first | rfl | exact congrArg (Option.map some) hv

/-- And for the list around its items. -/
theorem items (h : Agree d read read') : Agree (d + 1) (items? read) (items? read') := by
  intro j hj
  cases j with
  | array vs =>
    have hle : depthOfItems vs ≤ d := by
      rw [depth] at hj
      omega
    exact mapM_congr fun v hv => h v (Nat.le_trans (depth_le_items hv) hle)
  | _ => rfl

end Agree

end Json

open Json

/-! ## Expressions -/

section

variable {d : Nat} {expr expr' : Json → Option Expr} {type type' : Json → Option TypeExpr}
  {entry entry' : Json → Option FieldList}

/-- A range item holds expressions one level below. -/
theorem RangeItem.read?_agree (h : Agree d expr expr') :
    Agree (d + 1) (RangeItem.read? expr) (RangeItem.read? expr') := by
  intro j hj
  unfold RangeItem.read?
  rw [h.required "lhs" j hj, h.optional "rhs" j hj]

/-- So does an expression; its operands are members of the case that it is. -/
theorem ExprKind.read?_agree (h : Agree d expr expr') :
    Agree (d + 1) (ExprKind.read? expr) (ExprKind.read? expr') := by
  refine fun j hj => content?_bind_congr hj fun tag v hv => ?_
  have hrequired : ∀ key, v.required key expr = v.required key expr' := fun key =>
    h.required key v (Nat.le_succ_of_le hv)
  have helements : v.required "elements" (items? (RangeItem.read? expr)) =
      v.required "elements" (items? (RangeItem.read? expr')) :=
    (RangeItem.read?_agree h).items.required "elements" v (by omega)
  split
  all_goals first
    | rfl
    | next heq => cases heq; simp only [hrequired, helements, h v hv]

namespace Expr

/-- With budgets that are not short, the same is read. -/
theorem readAt?_agree {n m : Nat} (hn : d ≤ n) (hm : d ≤ m) : Agree d (readAt? n) (readAt? m) := by
  induction n generalizing d m with
  | zero =>
    obtain rfl : d = 0 := Nat.le_zero.1 hn
    exact .zero
  | succ n ih =>
    cases d with
    | zero => exact .zero
    | succ d =>
      obtain ⟨m, rfl⟩ : ∃ m', m = m' + 1 := ⟨m - 1, by omega⟩
      have hbelow := ih (Nat.le_of_succ_le_succ hn) (Nat.le_of_succ_le_succ hm)
      intro j hj
      have hkind := (ExprKind.read?_agree hbelow).required "kind" j (Nat.le_succ_of_le hj)
      rw [readAt?, readAt?, hkind]

/-- The reader without a budget takes the depth of the value for one, and that is enough. -/
theorem readAt?_agree_ofJson? (n : Nat) : Agree n (readAt? n) ofJson? := fun j hj =>
  readAt?_agree hj (Nat.le_refl _) j (Nat.le_refl _)

/-- The reader of expressions, as if no budget were needed. -/
theorem ofJson?_eq (j : Json) : ofJson? j = do
    return ⟨← j.required "id" (nat? idBound), ← j.required "kind" (ExprKind.read? ofJson?),
      ← j.required "span" Span.ofJson?⟩ := by
  obtain ⟨n, hn⟩ := j.exists_depth_eq
  have hkind := (ExprKind.read?_agree (readAt?_agree_ofJson? n)).required "kind" j (by omega)
  rw [ofJson?, hn, readAt?, hkind]

end Expr

/-! ## Types -/

/-- A type holds types and entries one level below. -/
theorem TypeKind.read?_agree (ht : Agree d type type') (he : Agree d entry entry') :
    Agree (d + 1) (TypeKind.read? type entry) (TypeKind.read? type' entry') := by
  refine fun j hj => content?_bind_congr hj fun tag v hv => ?_
  have hrequired : ∀ key, v.required key type = v.required key type' := fun key =>
    ht.required key v (Nat.le_succ_of_le hv)
  have hentries : v.items? entry = v.items? entry' := he.items v (Nat.le_succ_of_le hv)
  split
  all_goals first
    | rfl
    | next heq => cases heq; simp only [hrequired, hentries, ht v hv]

/-- Between an arm and the entries in it there is a list. -/
theorem Variant.read?_agree (he : Agree d entry entry') :
    Agree (d + 2) (Variant.read? entry) (Variant.read? entry') := by
  intro j hj
  unfold Variant.read?
  rw [he.items.required "fields" j hj]

/-- An entry holds a type, or arms with entries. -/
theorem FieldKind.read?_agree (ht : Agree d type type') (he : Agree d entry entry') :
    Agree (d + 1) (FieldKind.read? type entry) (FieldKind.read? type' entry') := by
  refine fun j hj => content?_bind_congr hj fun tag v hv => ?_
  have hrequired : ∀ key, v.required key type = v.required key type' := fun key =>
    ht.required key v (Nat.le_succ_of_le hv)
  have harms : v.required "variants" (items? (Variant.read? entry)) =
      v.required "variants" (items? (Variant.read? entry')) :=
    (Variant.read?_agree he).items.required "variants" v (by omega)
  have hotherwise : v.optional "else_fields" (items? entry) =
      v.optional "else_fields" (items? entry') :=
    he.items.optional "else_fields" v (by omega)
  split
  all_goals first
    | rfl
    | next heq => cases heq; simp only [hrequired, harms, hotherwise]

/-- With budgets that are not short, the same types and the same entries are read. -/
theorem readAt?_agree {n m : Nat} (hn : d ≤ n) (hm : d ≤ m) :
    Agree d (TypeExpr.readAt? n) (TypeExpr.readAt? m) ∧
      Agree d (FieldList.readAt? n) (FieldList.readAt? m) := by
  induction n generalizing d m with
  | zero =>
    obtain rfl : d = 0 := Nat.le_zero.1 hn
    exact ⟨.zero, .zero⟩
  | succ n ih =>
    cases d with
    | zero => exact ⟨.zero, .zero⟩
    | succ d =>
      obtain ⟨m, rfl⟩ : ∃ m', m = m' + 1 := ⟨m - 1, by omega⟩
      obtain ⟨ht, he⟩ := ih (Nat.le_of_succ_le_succ hn) (Nat.le_of_succ_le_succ hm)
      constructor
      · intro j hj
        have hkind := (TypeKind.read?_agree ht he).required "kind" j (Nat.le_succ_of_le hj)
        rw [TypeExpr.readAt?, TypeExpr.readAt?, hkind]
      · intro j hj
        have hkind := (FieldKind.read?_agree ht he).required "kind" j (Nat.le_succ_of_le hj)
        rw [FieldList.readAt?, FieldList.readAt?, hkind]

/-- For types and entries the budget is the depth as well. -/
theorem TypeExpr.readAt?_agree_ofJson? (n : Nat) : Agree n (TypeExpr.readAt? n) TypeExpr.ofJson? :=
  fun j hj => (readAt?_agree hj (Nat.le_refl _)).1 j (Nat.le_refl _)

theorem FieldList.readAt?_agree_ofJson? (n : Nat) :
    Agree n (FieldList.readAt? n) FieldList.ofJson? :=
  fun j hj => (readAt?_agree hj (Nat.le_refl _)).2 j (Nat.le_refl _)

/-- The reader of types, as if no budget were needed. -/
theorem TypeExpr.ofJson?_eq (j : Json) : TypeExpr.ofJson? j = do
    return ⟨← j.required "id" (nat? idBound),
      ← j.required "kind" (TypeKind.read? TypeExpr.ofJson? FieldList.ofJson?),
      ← j.required "span" Span.ofJson?⟩ := by
  obtain ⟨n, hn⟩ := j.exists_depth_eq
  have hkind := (TypeKind.read?_agree (TypeExpr.readAt?_agree_ofJson? n)
    (FieldList.readAt?_agree_ofJson? n)).required "kind" j (by omega)
  rw [TypeExpr.ofJson?, hn, TypeExpr.readAt?, hkind]

/-- The reader of entries, as if no budget were needed. -/
theorem FieldList.ofJson?_eq (j : Json) : FieldList.ofJson? j = do
    return ⟨← j.required "kind" (FieldKind.read? TypeExpr.ofJson? FieldList.ofJson?),
      ← j.required "span" Span.ofJson?⟩ := by
  obtain ⟨n, hn⟩ := j.exists_depth_eq
  have hkind := (FieldKind.read?_agree (TypeExpr.readAt?_agree_ofJson? n)
    (FieldList.readAt?_agree_ofJson? n)).required "kind" j (by omega)
  rw [FieldList.ofJson?, hn, FieldList.readAt?, hkind]

end

end Modula
