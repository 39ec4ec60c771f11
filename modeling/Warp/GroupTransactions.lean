import Warp.Groups
import Warp.Infra.Worklist

/-!
# Concurrent changes of the groups

The transactions that create and rename groups, with the statements that read or write `groups`. A group
has its id from the flush on, but nobody else sees it before the commit. Nothing deletes a group.
-/

namespace Warp

open Infra

inductive GroupOp where
  | create (name : String)
  | update (groupId : ℕ) (name : Option String)
  | updateRow (groupId : ℕ) (name : String)

inductive GroupWrite where
  | insert (g : Group)
  | rename (groupId : ℕ) (name : String)

/-! ## Statements -/

def renameGroup (groups : Table Group) (groupId : ℕ) (name : String) : Table Group :=
  groups.modify (fun g => if g.id = groupId then { g with name := name } else g) fun g => by
    split <;> rfl

def applyGroupWrite (groups : Table Group) : GroupWrite → Table Group
  | .insert g => groups.insert g
  | .rename groupId name => renameGroup groups groupId name

/-- The update of `name` locks the row. -/
def lockGroupRows : GroupOp → List ℕ
  | .updateRow groupId _ => [groupId]
  | _ => []

def runGroupOp (groupId : ℕ) (groups : Table Group) :
    GroupOp → Except ServiceError (List GroupOp × List GroupWrite)
  | .create name => .ok ([], [.insert ⟨groupId, name⟩])
  | .update id name => do
    let group ← orRaise (groups.find? id) (.notFound "Group" id)
    match name with
    | none => return ([], [])
    | some name => return (if name = group.name then [] else [.updateRow group.id name], [])
  | .updateRow id name => do
    ensure (groups.find? id).isSome (.staleData "groups")
    return ([], [.rename id name])

def groupCode : Code (Table Group) GroupWrite GroupOp ServiceError ℕ where
  apply := applyGroupWrite
  locks _ _ op := lockGroupRows op
  exec n _ groups op := runGroupOp n groups op

/-! ## Requests -/

inductive GroupTransaction where
  | createGroup (name : String)
  | updateGroup (groupId : ℕ) (name : Option String)

def GroupTransaction.op : GroupTransaction → GroupOp
  | .createGroup name => .create name
  | .updateGroup groupId name => .update groupId name

abbrev GroupWorld := World (Table Group) GroupWrite GroupOp ServiceError ℕ

def groupWorld (groups : Table Group) (transactions : List GroupTransaction) (sequence : ℕ) :
    GroupWorld :=
  World.init groups (transactions.map fun transaction => [transaction.op]) sequence

/-- The groups that a transaction inserts come behind the committed ones. -/
def InIdOrder (groups : Table Group) (writes : List GroupWrite) : Prop :=
  ∀ g, .insert g ∈ writes → ∀ r ∈ groups, r.id < g.id

end Warp
