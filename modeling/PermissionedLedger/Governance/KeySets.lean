import PermissionedLedger.Key

/-!
# Roles, threads and the keys in force

Authority over the ledger rests with four *roles*, each a set of keys. Three
*threads* change it: every thread is a single zero-value output that each
transaction of the thread spends and recreates.

* The Root thread changes the Root and Provisioning keys.
* The Provision thread changes the Issuing and Validating keys.
* The Issue thread changes no keys; it mints coins.

`KeySets` is the value of all four sets at one point of the chain, with `insert`
and `remove` for one key of one role and a lookup equation for each.
-/

namespace PermissionedLedger

/-- A role that holds a set of authorized keys. -/
inductive Role where
  /-- authorizes the Root thread -/
  | root
  /-- authorizes the Provision thread -/
  | provisioning
  /-- authorizes the Issue thread -/
  | issuing
  /-- may sign blocks -/
  | validating
  deriving DecidableEq, Inhabited

namespace Role

/-- All roles, in the order they are listed. -/
def all : List Role := [.root, .provisioning, .issuing, .validating]

/-- The role as messages name it. -/
def name : Role → String
  | .root => "root"
  | .provisioning => "provisioning"
  | .issuing => "issuing"
  | .validating => "validating"

/-- The byte that stands for the role in a hashed transaction. -/
def tag : Role → UInt8
  | .root => 0
  | .provisioning => 1
  | .issuing => 2
  | .validating => 3

end Role

/-- One of the three lines of governance transactions. -/
inductive Thread where
  /-- manages the Root and Provisioning keys -/
  | root
  /-- manages the Issuing and Validating keys -/
  | provision
  /-- mints coins -/
  | issue
  deriving DecidableEq, Inhabited

namespace Thread

/-- All threads, in the order genesis creates their outputs. -/
def all : List Thread := [.root, .provision, .issue]

/-- The thread as messages name it. -/
def name : Thread → String
  | .root => "Root"
  | .provision => "Provision"
  | .issue => "Issue"

/-- The byte that stands for the thread in a hashed transaction. -/
def tag : Thread → UInt8
  | .root => 0
  | .provision => 1
  | .issue => 2

/-- The role whose keys sign for the thread. -/
def authority : Thread → Role
  | .root => .root
  | .provision => .provisioning
  | .issue => .issuing

/-- Whether the thread may change the keys of a role. -/
def manages : Thread → Role → Bool
  | .root, .root | .root, .provisioning => true
  | .provision, .issuing | .provision, .validating => true
  | _, _ => false

end Thread

/-- The thread in which the keys of a role change. -/
def Role.manager : Role → Thread
  | .root | .provisioning => .root
  | .issuing | .validating => .provision

theorem Thread.manages_iff {thread : Thread} {role : Role} :
    thread.manages role = true ↔ thread = role.manager := by
  cases thread <;> cases role <;> decide

/-- A change to the keys of one role. -/
inductive KeyOp where
  /-- authorize a key -/
  | add (role : Role) (key : PublicKey)
  /-- withdraw a key -/
  | revoke (role : Role) (key : PublicKey)
  deriving DecidableEq

namespace KeyOp

/-- The role that is changed. -/
def role : KeyOp → Role
  | .add r _ | .revoke r _ => r

/-- The key that is added or withdrawn. -/
def key : KeyOp → PublicKey
  | .add _ k | .revoke _ k => k

end KeyOp

/-- A set of keys, in ascending byte order. -/
abbrev KeySet := Std.ExtTreeSet PublicKey

/-- The keys of every role at one point of the chain. -/
structure KeySets where
  /-- keys of the Root role -/
  root : KeySet := ∅
  /-- keys of the Provisioning role -/
  provisioning : KeySet := ∅
  /-- keys of the Issuing role -/
  issuing : KeySet := ∅
  /-- keys of the Validating role -/
  validating : KeySet := ∅
  deriving DecidableEq, Inhabited

namespace KeySets

/-- The key sets with these members; a repeated key counts once. -/
def ofLists (root provisioning issuing validating : List PublicKey) : KeySets where
  root := .ofList root
  provisioning := .ofList provisioning
  issuing := .ofList issuing
  validating := .ofList validating

/-- The keys of a role. -/
def keys (s : KeySets) : Role → KeySet
  | .root => s.root
  | .provisioning => s.provisioning
  | .issuing => s.issuing
  | .validating => s.validating

/-- Replaces the keys of a role. -/
def setKeys (s : KeySets) (role : Role) (ks : KeySet) : KeySets :=
  match role with
  | .root => { s with root := ks }
  | .provisioning => { s with provisioning := ks }
  | .issuing => { s with issuing := ks }
  | .validating => { s with validating := ks }

/-- Whether a key is authorized for a role. -/
def contains (s : KeySets) (role : Role) (key : PublicKey) : Bool := (s.keys role).contains key

/-- Adds a key to a role. -/
def insert (s : KeySets) (role : Role) (key : PublicKey) : KeySets :=
  s.setKeys role ((s.keys role).insert key)

/-- Removes a key from a role. -/
def remove (s : KeySets) (role : Role) (key : PublicKey) : KeySets :=
  s.setKeys role ((s.keys role).erase key)

@[simp] theorem keys_setKeys (s : KeySets) (role : Role) (ks : KeySet) (r : Role) :
    (s.setKeys role ks).keys r = if r = role then ks else s.keys r := by
  cases role <;> cases r <;> rfl

/-- Adding a key changes the membership of that key in that role only. -/
theorem contains_insert (s : KeySets) (role r : Role) (key k : PublicKey) :
    (s.insert role key).contains r k = ((r = role && k = key) || s.contains r k) := by
  by_cases hr : r = role
  · subst hr
    by_cases hk : k = key
    · subst hk
      simp [contains, insert, Std.ExtTreeSet.contains_insert]
    · have : compare key k ≠ .eq := fun h => hk (Std.LawfulEqOrd.eq_of_compare h).symm
      simp [contains, insert, Std.ExtTreeSet.contains_insert, hk, this]
  · simp [contains, insert, hr]

/-- Removing a key changes the membership of that key in that role only. -/
theorem contains_remove (s : KeySets) (role r : Role) (key k : PublicKey) :
    (s.remove role key).contains r k = (!(r = role && k = key) && s.contains r k) := by
  by_cases hr : r = role
  · subst hr
    by_cases hk : k = key
    · subst hk
      simp [contains, remove, Std.ExtTreeSet.contains_erase]
    · have : compare key k ≠ .eq := fun h => hk (Std.LawfulEqOrd.eq_of_compare h).symm
      simp [contains, remove, Std.ExtTreeSet.contains_erase, hk, this]
  · simp [contains, remove, hr]

end KeySets

end PermissionedLedger
