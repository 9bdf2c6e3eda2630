import PermissionedLedger.Transaction.Identity

/-!
# Merkle roots

Digests are hashed in pairs, level by level, until one is left. A level of odd
length pairs its last digest with itself. The root of nothing is the zero digest.
-/

namespace PermissionedLedger.Merkle

/-- The bytes that an inner node hashes. -/
def nodeHashed (left right : Digest) : Bytes := left.toList ++ right.toList

/-- The digest of an inner node. -/
def node (left right : Digest) : Digest := .ofMessage (nodeHashed left right)

/-- The level above. -/
def nextLevel : List Digest → List Digest
  | [] => []
  | [last] => [node last last]
  | left :: right :: rest => node left right :: nextLevel rest

@[simp] theorem length_nextLevel (ds : List Digest) :
    (nextLevel ds).length = (ds.length + 1) / 2 := by
  fun_induction nextLevel ds with
  | case1 => rfl
  | case2 last => simp
  | case3 left right rest ih =>
    rw [List.length_cons, ih, List.length_cons, List.length_cons]
    omega

/-- The root of a list of digests. -/
def root (ds : List Digest) : Digest :=
  match ds with
  | [] => .zero
  | [d] => d
  | a :: b :: rest => root (nextLevel (a :: b :: rest))
termination_by ds.length
decreasing_by simp; omega

end PermissionedLedger.Merkle
