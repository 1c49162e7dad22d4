/-
# Derivations in order

In a derivation every node has parents, the nodes that it was derived from; a parent may be listed
more than once.  `listing` puts a node and all its ancestors in an order in which every node comes
after its parents.  It goes back from the node at the end, first in, first out, and a parent is
taken up as soon as all places that list it have been passed; what was taken up last comes first.
-/
namespace Clausal.Derivation

variable {α : Type} [DecidableEq α] (parents : α → List α)

/-! ## 1. Ancestors -/

/-- Adds to `seen` the ancestors of the nodes in the queue, nearest first, looking at `bound` nodes
at most. -/
def ancestors : (bound : Nat) → (queue seen : List α) → List α
  | 0, _, seen => seen
  | _ + 1, [], seen => seen
  | bound + 1, a :: queue, seen =>
    let new := (parents a).eraseDups.filter (· ∉ seen)
    ancestors bound (queue ++ new) (seen ++ new)

/-! ## 2. Releasing parents -/

/-- Passes the places in `ps`: each is struck off the places still open, and its node is released
when it was the last open one for that node.  The result has the released nodes and the places that
remain open. -/
def release : (ps openPlaces : List α) → List α × List α
  | [], openPlaces => ([], openPlaces)
  | p :: ps, openPlaces =>
    if p ∈ openPlaces then
      let remaining := openPlaces.erase p
      let r := release ps remaining
      if p ∈ remaining then r else (p :: r.1, r.2)
    else release ps openPlaces

theorem length_release_le : ∀ ps openPlaces : List α,
    (release ps openPlaces).1.length + (release ps openPlaces).2.length ≤ openPlaces.length
  | [], openPlaces => by simp [release]
  | p :: ps, openPlaces => by
    unfold release
    split
    · rename_i h
      have ih := length_release_le ps (openPlaces.erase p)
      have hlen := List.length_erase_of_mem h
      have hpos := List.length_pos_of_mem h
      dsimp only
      split
      · omega
      · simp only [List.length_cons]
        omega
    · exact length_release_le ps openPlaces

/-- The nodes of the queue and those released after them, in the order in which they are taken
up. -/
def emit : (queue openPlaces : List α) → List α
  | [], _ => []
  | a :: queue, openPlaces =>
    a :: emit (queue ++ (release (parents a) openPlaces).1) (release (parents a) openPlaces).2
termination_by queue openPlaces => queue.length + openPlaces.length
decreasing_by
  have := length_release_le (parents a) openPlaces
  simp only [List.length_append, List.length_cons]
  omega

/-! ## 3. The order -/

/-- The node `root` and its ancestors, each after its parents, where there are at most `bound`
nodes. -/
def listing (bound : Nat) (root : α) : List α :=
  let places := (ancestors parents bound [root] [root]).flatMap parents
  (emit parents [root] places).reverse

end Clausal.Derivation
