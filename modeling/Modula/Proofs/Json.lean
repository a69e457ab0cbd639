import Modula.Json.Decode
/-!
# Writing and reading JSON

  What is written is read back, and lists of names that have been emptied are refused.  Both are told of
  one value at a time, and every way to put a reader together keeps them, so that the proof for a type
  has the shape of its reader.

  1. **Values.**  `Conveys read j a` says that `j` is read as `a`, and that `j` is refused as soon as one
     list of names in it, however deep, is emptied (`Emptied`).

  2. **Members.**  Readers of objects ask for one member after the other.  `Carries keys read j a` says
     that `read` gets `a` out of `j` by looking at the members `keys` and at nothing else.  Reading one
     member does so (`Carries.required`, `Carries.optional`), and one reader after another does
     (`Carries.bind`).  A reader that looks at all members of an object conveys it (`Carries.conveys`).

  3. **What is read.**  `Yields read P` says that what is read has a property, whatever the value.
-/

namespace Modula.Json

/-! ## Emptied lists of names

  Two laws are shown at a time: what is written is read back, and it is refused if one of the lists of
  names in it is emptied. -/

/-- The members that hold the identifiers of a name or of a list of identifiers. -/
def nameKeys : List String := ["parts", "idents"]

/-- The same value with the identifiers of one name, or of one list of identifiers, taken away. -/
inductive Emptied : Json → Json → Prop
  | names {key : String} {items : List Json} {before after : List (String × Json)} :
    key ∈ nameKeys →
      Emptied (.object (before ++ (key, .array items) :: after))
        (.object (before ++ (key, .array []) :: after))
  | member {key : String} {v v' : Json} {before after : List (String × Json)} :
    Emptied v v' →
      Emptied (.object (before ++ (key, v) :: after)) (.object (before ++ (key, v') :: after))
  | item {v v' : Json} {before after : List Json} :
    Emptied v v' → Emptied (.array (before ++ v :: after)) (.array (before ++ v' :: after))

/-- One member holds another value, in which a list of names has been emptied. -/
structure Swapped (key : String) (j j' : Json) : Prop where
  emptied : ∃ v v', j.member? key = some v ∧ j'.member? key = some v' ∧ Emptied v v'
  others : ∀ k, k ≠ key → j'.member? k = j.member? k

/-- The value is read as `a`, and refused as soon as one list of names in it is emptied. -/
structure Conveys {α : Type} (read : Json → Option α) (j : Json) (a : α) : Prop where
  read_eq : read j = some a
  refuses : ∀ {j'}, Emptied j j' → read j' = none

/-- The reader gets `a` out of these members of the value, and looks at no other. -/
structure Carries {α : Type} (keys : List String) (read : Json → Option α) (j : Json) (a : α) :
    Prop where
  read_eq : read j = some a
  keeps : ∀ {key j'}, Swapped key j j' → key ∉ keys → read j' = some a
  refuses : ∀ {key j'}, Swapped key j j' → key ∈ keys → read j' = none

/-- What is read has a property. -/
def Yields {α : Type} (read : Json → Option α) (P : α → Prop) : Prop :=
  ∀ ⦃j a⦄, read j = some a → P a

section

variable {α β : Type} {read : Json → Option α} {write : α → Json} {j j' : Json} {a : α} {b : β}
  {key tag : String} {members : List (String × Json)} {keys keys' : List String}

theorem object_ne_null (members : List (String × Json)) : Json.object members ≠ .null := by simp

theorem array_ne_null (items : List Json) : Json.array items ≠ .null := by simp

/-- To take names away does not make a value `null`, which could be read as something missing. -/
theorem Emptied.ne_null (h : Emptied j j') : j' ≠ .null := by
  cases h with
  | names => exact object_ne_null _
  | member => exact object_ne_null _
  | item => exact array_ne_null _

/-- What is not `null` is read as it would be if it had to be there. -/
theorem orNull?_eq (h : j ≠ .null) : orNull? read j = (read j).map some := by
  cases j <;> first | rfl | exact absurd rfl h

/-- A value in a case is found under the tag of the case. -/
@[simp] theorem content?_tagged (tag : String) (j : Json) : (tagged tag j).content? = some (tag, j) :=
  rfl

/-- A member that is there is optional in that it may be `null`. -/
theorem optional_eq {v : Json} (h : j.member? key = some v) : optional key read j = orNull? read v := by
  rw [Json.optional, h]
  cases v <;> rfl

/-- An empty list of items is read by itself; it is the names around it that refuse it. -/
theorem required_of_empty (h : j.member? key = some (.array [])) :
    required key (items? read) j = some [] := by
  rw [required, h]
  rfl

/-- A member is found if none in front of it has the same key. -/
theorem lookup_middle {before : List (String × Json)} (h : key ∉ before.map Prod.fst) (v : Json)
    (after : List (String × Json)) : (before ++ (key, v) :: after).lookup key = some v :=
  List.lookup_eq_some_iff.2 ⟨before, after, rfl, fun _ hm =>
    bne_iff_ne.2 fun heq => h (heq ▸ List.mem_map_of_mem hm)⟩

/-- Another value under one key changes nothing for the others. -/
theorem lookup_elsewhere {k : String} (h : k ≠ key) (v v' : Json)
    (before after : List (String × Json)) :
    (before ++ (key, v') :: after).lookup k = (before ++ (key, v) :: after).lookup k := by
  have hne : (k == key) = false := beq_false_of_ne h
  rw [List.lookup_append, List.lookup_append, List.lookup_cons, List.lookup_cons, hne]

/-- In an object, either a member is swapped or its own list of names is emptied. -/
theorem Emptied.swapped (h : Emptied (.object members) j') (hnodup : (members.map Prod.fst).Nodup) :
    (∃ key ∈ members.map Prod.fst, Swapped key (.object members) j') ∨
      ∃ key ∈ members.map Prod.fst, key ∈ nameKeys ∧ j'.member? key = some (.array []) := by
  generalize hj : Json.object members = j at h
  have hfront {key : String} {v : Json} {before after : List (String × Json)}
      (hmembers : members = before ++ (key, v) :: after) :
      key ∈ members.map Prod.fst ∧ key ∉ before.map Prod.fst := by
    subst hmembers
    rw [List.map_append] at hnodup ⊢
    exact ⟨List.mem_append_right _ List.mem_cons_self, fun hmem =>
      (List.nodup_append.1 hnodup).2.2 key hmem key List.mem_cons_self rfl⟩
  cases h with
  | @names key items before after hkey =>
    obtain ⟨hmem, hbefore⟩ := hfront (Json.object.inj hj)
    exact Or.inr ⟨key, hmem, hkey, lookup_middle hbefore _ after⟩
  | @member key v v' before after hv =>
    obtain ⟨hmem, hbefore⟩ := hfront (Json.object.inj hj)
    exact Or.inl ⟨key, hmem, ⟨v, v', lookup_middle hbefore v after, lookup_middle hbefore v' after, hv⟩,
      fun k hk => lookup_elsewhere hk v v' before after⟩
  | item hv => cases hj

/-- What is emptied in a case is emptied in its content, if the tag is no key for names. -/
theorem Emptied.of_tagged (h : Emptied (.tagged tag j) j') (htag : tag ∉ nameKeys) :
    ∃ v, j' = .tagged tag v ∧ Emptied j v := by
  have honly {key : String} {v : Json} {before after : List (String × Json)}
      (hmembers : [(tag, j)] = before ++ (key, v) :: after) :
      before = [] ∧ after = [] ∧ tag = key ∧ j = v := by
    -- there is one member only
    cases before with
    | nil =>
      obtain ⟨⟨htag, hj⟩, hafter⟩ := by simpa using hmembers
      exact ⟨rfl, hafter, htag, hj⟩
    | cons m before => simp at hmembers
  generalize hj : Json.tagged tag j = whole at h
  cases h with
  | @names key items before after hkey =>
    obtain ⟨-, -, rfl, -⟩ := honly (Json.object.inj hj)
    exact absurd hkey htag
  | @member key v v' before after hv =>
    obtain ⟨rfl, rfl, rfl, rfl⟩ := honly (Json.object.inj hj)
    exact ⟨v', rfl, hv⟩
  | item hv => cases hj

/-! ## Values

  Values without names have nothing to be emptied, and the second law is about those that have. -/

namespace Conveys

/-- A value without members has no list of names. -/
theorem simple (h : read j = some a) (hj : ∀ {j'}, ¬ Emptied j j') : Conveys read j a :=
  ⟨h, fun he => absurd he hj⟩

/-- Texts hold no names, so there is nothing in them to be emptied. -/
theorem text (s : String) : Conveys text? (.string s) s := simple rfl nofun

/-- Nor do truth values. -/
theorem flag (b : Bool) : Conveys flag? (.bool b) b := simple rfl nofun

/-- Nor do numbers, which are read if they are in range. -/
theorem nat {n bound : Nat} (h : n < bound) : Conveys (nat? bound) (.ofNat n) n :=
  simple (if_pos h) nofun

/-- A list is conveyed if its items are: to empty a list in one of them refuses the whole. -/
theorem items {l : List α} (h : ∀ a ∈ l, Conveys read (write a) a) :
    Conveys (items? read) (.array (l.map write)) l where
  read_eq := by
    show (l.map write).mapM read = some l
    induction l with
    | nil => rfl
    | cons a l ih =>
      rw [List.map_cons, List.mapM_cons, (h a List.mem_cons_self).read_eq,
        ih fun a ha => h a (List.mem_cons_of_mem _ ha)]
      rfl
  refuses he := by
    generalize hj : Json.array (l.map write) = j at he
    cases he with
    | names hkey => cases hj
    | member hv => cases hj
    | @item v v' before after hv =>
      -- the item that is emptied may be any of them
      obtain ⟨front, back, rfl, rfl, hback⟩ := List.map_eq_append_iff.1 (Json.array.inj hj)
      obtain ⟨a, back, rfl, rfl, rfl⟩ := List.map_eq_cons_iff.1 hback
      have hnone : read v' = none := (h a (by simp)).refuses hv
      show ((front.map write) ++ v' :: (back.map write)).mapM read = none
      rw [List.mapM_append, List.mapM_cons, hnone]
      exact Option.bind_fun_none _

/-- A value that may be absent. -/
theorem orNull {o : Option α} (hnull : ∀ a, write a ≠ .null)
    (h : ∀ a ∈ o, Conveys read (write a) a) : Conveys (orNull? read) (ofOption write o) o := by
  cases o with
  | none => exact simple rfl nofun
  | some a =>
    have ha := h a rfl
    exact {
      read_eq := by rw [ofOption, orNull?_eq (hnull a), ha.read_eq]; rfl
      refuses := fun he => by rw [orNull?_eq he.ne_null, ha.refuses he]; rfl }

/-- What is made of a value is conveyed with it. -/
theorem map {f : α → β} (h : Conveys read j a) :
    Conveys (fun j => read j >>= fun a => Pure.pure (f a)) j (f a) where
  read_eq := by rw [h.read_eq]; rfl
  refuses he := by rw [h.refuses he]; rfl

/-- A case of a choice conveys what belongs to it. -/
theorem tagged (htag : tag ∉ nameKeys) (h : Conveys (fun v => read (.tagged tag v)) j a) :
    Conveys read (.tagged tag j) a where
  read_eq := h.read_eq
  refuses he := by
    obtain ⟨v, rfl, hv⟩ := he.of_tagged htag
    exact h.refuses hv

end Conveys

/-! ## Members

  A reader of an object goes through its members.  It has to be shown that it looks at each of them, as
  otherwise a list could be emptied where it does not look. -/

namespace Carries

/-- Without looking at any member. -/
theorem pure : Carries [] (fun _ => Pure.pure a) j a :=
  ⟨rfl, fun _ _ => rfl, fun _ hkey => absurd hkey List.not_mem_nil⟩

/-- One reader after another looks at the members of both.  A member that is swapped makes one of them
refuse. -/
theorem bind {first : Json → Option α} {second : α → Json → Option β}
    (hfirst : Carries keys first j a) (hsecond : Carries keys' (second a) j b) :
    Carries (keys ++ keys') (fun j => first j >>= fun a => second a j) j b where
  read_eq := by rw [hfirst.read_eq]; exact hsecond.read_eq
  keeps hswap hkey := by
    obtain ⟨hkeys, hkeys'⟩ := not_or.1 (mt List.mem_append.2 hkey)
    rw [hfirst.keeps hswap hkeys]
    exact hsecond.keeps hswap hkeys'
  refuses {key j'} hswap hkey := by
    by_cases hkeys : key ∈ keys
    · rw [hfirst.refuses hswap hkeys]
      rfl
    · rw [hfirst.keeps hswap hkeys]
      exact hsecond.refuses hswap ((List.mem_append.1 hkey).resolve_left hkeys)

/-- A member that has to be there is looked at, and is refused as soon as it is emptied. -/
theorem required {v : Json} (hmember : j.member? key = some v) (h : Conveys read v a) :
    Carries [key] (required key read) j a where
  read_eq := by rw [Json.required, hmember]; exact h.read_eq
  keeps hswap hkey := by
    rw [Json.required, hswap.others key fun heq => hkey (List.mem_singleton.2 heq.symm), hmember]
    exact h.read_eq
  refuses hswap hkey := by
    obtain rfl := List.mem_singleton.1 hkey
    obtain ⟨v, v', hv, hv', he⟩ := hswap.emptied
    obtain rfl := Option.some.inj (hmember.symm.trans hv)
    rw [Json.required, hv']
    exact h.refuses he

/-- A member that may be missing is there all the same, as it is always written. -/
theorem optional {v : Json} {o : Option α} (hmember : j.member? key = some v)
    (h : Conveys (orNull? read) v o) : Carries [key] (optional key read) j o where
  read_eq := by rw [optional_eq hmember, h.read_eq]
  keeps hswap hkey := by
    have hother := hswap.others key fun heq => hkey (List.mem_singleton.2 heq.symm)
    rw [optional_eq (hother.trans hmember), h.read_eq]
  refuses hswap hkey := by
    obtain rfl := List.mem_singleton.1 hkey
    obtain ⟨v, v', hv, hv', he⟩ := hswap.emptied
    obtain rfl := Option.some.inj (hmember.symm.trans hv)
    rw [optional_eq hv', h.refuses he]

/-- A reader that looks at all members conveys the object, if it refuses lists of names that are
empty. -/
theorem conveys_names (h : Carries keys read (.object members) a) (hkeys : members.map Prod.fst = keys)
    (hnodup : keys.Nodup)
    (hnames : ∀ key ∈ keys, key ∈ nameKeys → ∀ j', j'.member? key = some (.array []) → read j' = none) :
    Conveys read (.object members) a where
  read_eq := h.read_eq
  refuses {j'} he := by
    subst hkeys
    rcases he.swapped hnodup with ⟨key, hkey, hswap⟩ | ⟨key, hkey, hname, hempty⟩
    · exact h.refuses hswap hkey
    · exact hnames key hkey hname j' hempty

/-- A reader that looks at all members conveys the object. -/
theorem conveys (h : Carries keys read (.object members) a) (hkeys : members.map Prod.fst = keys)
    (hplain : keys.Nodup ∧ ∀ key ∈ keys, key ∉ nameKeys) : Conveys read (.object members) a :=
  h.conveys_names hkeys hplain.1 fun key hkey hname => absurd hname (hplain.2 key hkey)

end Carries

/-! ## What is read

  The opposite direction, about whatever is read: it has a property that the writer of its type relies on. -/

namespace Yields

variable {P : α → Prop} {Q : β → Prop}

/-- What is made without reading anything has the property if it is so made. -/
theorem pure (h : P a) : Yields (fun _ => Pure.pure a) P := by
  intro _ _ heq
  obtain rfl := Option.some.inj heq
  exact h

/-- The second reader may rely on what the first one has read. -/
theorem bind {first : Json → Option α} {second : α → Json → Option β} (hfirst : Yields first P)
    (hsecond : ∀ a, P a → Yields (second a) Q) :
    Yields (fun j => first j >>= fun a => second a j) Q := by
  intro j b h
  obtain ⟨a, ha, hb⟩ := Option.bind_eq_some_iff.1 h
  exact hsecond a (hfirst ha) hb

theorem required (h : Yields read P) : Yields (required key read) P := by
  intro j a heq
  obtain ⟨v, -, hv⟩ := Option.bind_eq_some_iff.1 heq
  exact h hv

/-- Something missing has every property. -/
theorem orNull (h : Yields read P) : Yields (orNull? read) (fun o => ∀ a ∈ o, P a) := by
  intro j o heq
  by_cases hj : j = .null
  · subst hj
    cases heq
    nofun
  · rw [orNull?_eq hj] at heq
    obtain ⟨a, ha, rfl⟩ := Option.map_eq_some_iff.1 heq
    rintro _ ⟨⟩
    exact h ha

theorem optional (h : Yields read P) : Yields (optional key read) (fun o => ∀ a ∈ o, P a) := by
  intro j o heq
  cases hmember : j.member? key with
  | none =>
    rw [Json.optional, hmember] at heq
    cases heq
    nofun
  | some v =>
    rw [optional_eq hmember] at heq
    exact h.orNull heq

/-- Each item that is read has the property. -/
theorem items (h : Yields read P) : Yields (items? read) (fun l => ∀ a ∈ l, P a) := by
  intro j l heq
  cases j with
  | array vs =>
    have heq : vs.mapM read = some l := heq
    induction vs generalizing l with
    | nil =>
      cases heq
      nofun
    | cons v vs ih =>
      rw [List.mapM_cons] at heq
      obtain ⟨a, ha, hrest⟩ := Option.bind_eq_some_iff.1 heq
      obtain ⟨l', hl', hcons⟩ := Option.bind_eq_some_iff.1 hrest
      obtain rfl := Option.some.inj hcons
      exact List.forall_mem_cons.2 ⟨h ha, ih hl' hl'⟩
  | _ => cases heq

end Yields

end

end Modula.Json
