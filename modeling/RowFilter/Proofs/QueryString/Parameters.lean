import RowFilter.Proofs.Assoc
import RowFilter.Proofs.QueryString.Growth

/-!
The pairs of a query string and the parameters that are read of them. Parameters of different roots
do not meet: what the tree holds under a root has grown out of the parameters of this root alone, in
their order (`Tree.get?_ofParameters`).
-/

set_option autoImplicit false

namespace RowFilter.QueryString

/-- The pairs of a query string, in order. -/
def pairs (query : String) : List (String × String) := (pieces query).map pairOf

theorem parameters_eq_take (query : String) :
    parameters query = ((pairs query).take maxParameters).filterMap Parameter.ofPair? := by
  rw [parameters, List.map_take, pairs]

theorem parameters_eq {query : String} (h : (pairs query).length ≤ maxParameters) :
    parameters query = (pairs query).filterMap Parameter.ofPair? := by
  rw [parameters_eq_take, List.take_of_length_le h]

/-- The parameters of a root, as leaves below it. -/
def leavesUnder (root : String) (ps : List Parameter) : List Leaf :=
  (ps.filter fun p ↦ p.path.root = root).map fun p ↦ (p.path.steps, p.value)

theorem grow_append (first second : List Leaf) (child : Option Node) :
    grow (first ++ second) child = grow second (grow first child) :=
  List.foldl_append

theorem grow_cons (leaf : Leaf) (rest : List Leaf) (child : Option Node) :
    grow (leaf :: rest) child = grow rest (some (store leaf child)) := rfl

namespace Tree

theorem ofParameters_eq (ps : List Parameter) :
    ofParameters ps = ps.foldl
      (fun tree p ↦ Assoc.alter p.path.root (store (p.path.steps, p.value)) tree) [] := rfl

theorem ofParameters_append_singleton (ps : List Parameter) (p : Parameter) :
    ofParameters (ps ++ [p]) = (ofParameters ps).insert p.path p.value := List.foldl_append

/-- Under a root stands what its own parameters grow into. -/
theorem get?_ofParameters (root : String) (ps : List Parameter) :
    Assoc.get? root (ofParameters ps) = grow (leavesUnder root ps) none := by
  rw [ofParameters_eq, Assoc.get?_foldl_alter (fun p : Parameter ↦ p.path.root)
    (fun p ↦ store (p.path.steps, p.value)), grow, leavesUnder, List.foldl_map]
  rfl

end Tree

end RowFilter.QueryString
