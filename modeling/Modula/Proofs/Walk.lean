import Modula.Node.Iterator
import Modula.Proofs.Numbering
/-!
# Walks are in preorder

  1. **The recursion.** `Node.preorder` is a node in front of what its children have in preorder, child
     by child.
  2. **The stack.** What is still to come of a walk is what the nodes of the stack have in preorder, one
     behind the other.  A step takes one node away and puts its children there instead, and that is how
     the recursion goes (`walkStack_eq`, `yields_walkStack`).
  3. **Addresses.** A node can be in a tree twice, at two addresses: the address of a node tells which
     child to take at each step from the root (`Node.at?`).  A walk goes along all addresses, to none of
     them twice, and to none before those above it (`Node.Enumerates`).
-/

namespace Modula

namespace Node

/-! ## The recursion -/

/-- The node and everything below it, each node before its children. -/
def preorder (n : Node) : List Node := n :: n.children.attach.flatMap (fun m => preorder m.1)
termination_by sizeOf n
decreasing_by exact sizeOf_child_lt m.2

theorem preorder_eq (n : Node) : n.preorder = n :: n.children.flatMap preorder := by
  rw [preorder, List.flatMap_subtype (g := preorder) fun _ _ => rfl, List.unattach_attach]

/-- What holds of a node if it holds of its children holds of every node. -/
theorem induction_children {motive : Node → Prop}
    (step : ∀ n, (∀ c ∈ n.children, motive c) → motive n) (n : Node) : motive n :=
  step n fun c _ => induction_children step c
termination_by sizeOf n
decreasing_by exact sizeOf_child_lt ‹_›

/-! ## The stack -/

theorem walkStack_eq (stack : List Node) : walkStack stack = stack.flatMap preorder := by
  induction stack using walkStack.induct with
  | case1 => rw [walkStack, List.flatMap_nil]
  | case2 n stack ih =>
    rw [walkStack, ih, List.flatMap_append, List.flatMap_cons, preorder_eq, List.cons_append]

theorem walk_eq_preorder (n : Node) : n.walk = n.preorder := by
  rw [walk, walkStack_eq, List.flatMap_singleton]

end Node

namespace Walk

/-- The walk hands out these nodes, and then it is at its end. -/
inductive Yields : Walk → List Node → Prop
  | done {w : Walk} : w.next = none → Yields w []
  | more {w w' : Walk} {n : Node} {ns : List Node} :
    w.next = some (n, w') → Yields w' ns → Yields w (n :: ns)

theorem Yields.unique {w : Walk} {ns ms : List Node} (h : w.Yields ns) (h' : w.Yields ms) : ns = ms := by
  induction h generalizing ms with
  | done hend =>
    cases h' with
    | done _ => rfl
    | more hnext _ => cases hend.symm.trans hnext
  | more hnext _ ih =>
    cases h' with
    | done hend => cases hend.symm.trans hnext
    | more hnext' hrest =>
      cases hnext.symm.trans hnext'
      rw [ih hrest]

/-- A step puts the children of a node in the place of the node. -/
theorem next_cons (n : Node) (stack : List Node) : (⟨(n :: stack).reverse⟩ : Walk).next =
    some (n, ⟨(n.children ++ stack).reverse⟩) := by
  rw [next, List.reverse_cons, List.getLast?_concat, List.dropLast_concat, List.reverse_append]
  rfl

theorem yields_walkStack (stack : List Node) : Yields ⟨stack.reverse⟩ (Node.walkStack stack) := by
  induction stack using Node.walkStack.induct with
  | case1 =>
    rw [Node.walkStack]
    exact .done rfl
  | case2 n stack ih =>
    rw [Node.walkStack]
    exact .more (next_cons n stack) ih

/-- A walk comes to an end, and the nodes on the way are those in preorder. -/
theorem yields_iff {n : Node} {visited : List Node} :
    (start n).Yields visited ↔ visited = n.preorder := by
  have hwalk : (start n).Yields n.preorder := by
    rw [← n.walk_eq_preorder]
    exact yields_walkStack [n]
  constructor
  · intro h
    exact h.unique hwalk
  · rintro rfl
    exact hwalk

end Walk

/-! ## Addresses -/

namespace Node

/-- The node at an address. -/
def at? (n : Node) : List Nat → Option Node
  | [] => some n
  | i :: address => n.children[i]?.bind fun c => c.at? address

/-- The nodes are those at the addresses.  No address is missing, and none is behind itself or behind an
address below it. -/
structure Enumerates (root : Node) (addresses : List (List Nat)) (nodes : List Node) : Prop where
  at_eq : addresses.map root.at? = nodes.map some
  complete : ∀ address n, root.at? address = some n → address ∈ addresses
  in_order : addresses.Pairwise fun a b => ¬ b <+: a

/-- The addresses of the node and of everything below it, in preorder. -/
def addresses (n : Node) : List (List Nat) :=
  [] :: n.children.zipIdx.attach.flatMap fun c => (addresses c.1.1).map (c.1.2 :: ·)
termination_by sizeOf n
decreasing_by exact sizeOf_child_lt (List.fst_mem_of_mem_zipIdx c.2)

theorem addresses_eq (n : Node) : n.addresses =
    [] :: n.children.zipIdx.flatMap fun c => c.1.addresses.map (c.2 :: ·) := by
  rw [addresses, List.flatMap_subtype (g := fun c => c.1.addresses.map (c.2 :: ·)) fun _ _ => rfl,
    List.unattach_attach]

theorem map_at?_addresses (n : Node) : n.addresses.map n.at? = n.preorder.map some := by
  induction n using induction_children with
  | step n ih =>
    have hchild : ∀ c ∈ n.children.zipIdx,
        (c.1.addresses.map (c.2 :: ·)).map n.at? = c.1.preorder.map some := by
      intro c hc
      have hat : n.children[c.2]? = some c.1 := List.mk_mem_zipIdx_iff_getElem?.1 hc
      rw [List.map_map, ← ih c.1 (List.mem_of_getElem? hat)]
      refine List.map_congr_left fun address _ => ?_
      show n.children[c.2]?.bind _ = _
      rw [hat, Option.bind_some]
    have hchildren : n.children.zipIdx.flatMap (fun c => (c.1.addresses.map (c.2 :: ·)).map n.at?) =
        n.children.flatMap fun c => c.preorder.map some := by
      rw [List.flatMap_congr hchild, ← List.flatMap_map Prod.fst fun c : Node => c.preorder.map some,
        List.zipIdx_map_fst]
    rw [addresses_eq, preorder_eq, List.map_cons, List.map_cons, List.map_flatMap, List.map_flatMap,
      hchildren]
    rfl

theorem mem_addresses {n m : Node} {address : List Nat} (h : n.at? address = some m) :
    address ∈ n.addresses := by
  induction address generalizing n with
  | nil =>
    rw [addresses_eq]
    exact List.mem_cons_self
  | cons i address ih =>
    obtain ⟨c, hc, hm⟩ := Option.bind_eq_some_iff.1 h
    rw [addresses_eq]
    refine List.mem_cons_of_mem _ (List.mem_flatMap.2 ⟨(c, i), ?_, List.mem_map_of_mem (ih hm)⟩)
    exact List.mk_mem_zipIdx_iff_getElem?.2 hc

theorem pairwise_addresses (n : Node) : n.addresses.Pairwise fun a b => ¬ b <+: a := by
  induction n using induction_children with
  | step n ih =>
    have hne : n.children.zipIdx.Pairwise fun c c' => c.2 ≠ c'.2 := by
      rw [← List.pairwise_map, List.zipIdx_map_snd]
      exact List.nodup_range' 1
    rw [addresses_eq]
    refine .cons ?_ (List.pairwise_flatMap.2 ⟨?_, hne.imp fun hne => ?_⟩)
    · intro address haddress hle
      obtain ⟨c, -, hmem⟩ := List.mem_flatMap.1 haddress
      obtain ⟨below, -, rfl⟩ := List.mem_map.1 hmem
      cases List.prefix_nil.1 hle
    · -- addresses in the same child
      intro c hc
      refine List.pairwise_map.2 ((ih c.1 (List.fst_mem_of_mem_zipIdx hc)).imp fun hnot hle => hnot ?_)
      exact (List.cons_prefix_cons.1 hle).2
    · -- addresses in two children
      intro a ha b hb hle
      obtain ⟨below, -, rfl⟩ := List.mem_map.1 ha
      obtain ⟨below', -, rfl⟩ := List.mem_map.1 hb
      exact hne (List.cons_prefix_cons.1 hle).1.symm

theorem enumerates_walk (n : Node) : n.Enumerates n.addresses n.walk where
  at_eq := by rw [map_at?_addresses, walk_eq_preorder]
  complete := fun _ _ => mem_addresses
  in_order := pairwise_addresses n

end Node

end Modula
