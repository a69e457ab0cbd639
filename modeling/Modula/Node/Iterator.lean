import Modula.Node
/-!
# Walks step by step

  A `Walk` hands out the nodes of a walk one at a time, so that a tool can stop when it has found what it
  looks for.  The nodes that are still to be visited are kept on a stack, which grows at its end.  The
  children of a node that is taken off are put on in reverse, and so the first child comes next
  (`Walk.next`).
-/

namespace Modula

/-- A walk that has come to some place. -/
structure Walk where
  /-- The nodes to be visited, the next one at the end. -/
  stack : List Node
deriving Repr

namespace Walk

/-- The walk that begins at a node. -/
def start (n : Node) : Walk := ⟨[n]⟩

/-- The next node, and the walk behind it. -/
def next (w : Walk) : Option (Node × Walk) := do
  let n ← w.stack.getLast?
  return (n, ⟨w.stack.dropLast ++ n.children.reverse⟩)

end Walk

end Modula
