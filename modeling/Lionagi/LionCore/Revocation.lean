import Lionagi.Library.ParentForest
import Lionagi.LionCore.Capability

/-!
# The capability table

Capabilities are stored in a vector sorted by identifier, next to an index from parents to children.
Transitive revocation exists twice: the slow path walks the parents of every capability up with fuel,
the fast path traverses the children index down. A mutating method returns its result together with
the state it leaves behind.
-/

namespace Lionagi.LionCore

open SortedTable

inductive KernelError where
  | capNotFound (id : CapId)
  | capIdExhausted
  | capIdCollision (id : CapId)
  | invalidCapability (message : String)
  | counterOverflow (name : String)
  deriving DecidableEq

abbrev CapTable := List (CapId × Capability)

abbrev ChildrenIndex := List (CapId × List CapId)

structure RevocationState where
  caps : CapTable
  epoch : ℕ
  childrenIndex : ChildrenIndex
  deriving DecidableEq

namespace RevocationState

def empty : RevocationState := { caps := [], epoch := 0, childrenIndex := [] }

/-! ## Lookups -/

def findIndex (rs : RevocationState) (capId : CapId) : Option ℕ :=
  match binarySearchByKey Prod.fst capId rs.caps with
  | .ok pos => some pos
  | .error _ => none

def findInsertPos (rs : RevocationState) (capId : CapId) : ℕ × Bool :=
  match binarySearchByKey Prod.fst capId rs.caps with
  | .ok pos => (pos, true)
  | .error pos => (pos, false)

def get (rs : RevocationState) (capId : CapId) : Option Capability :=
  (rs.findIndex capId).bind fun idx ↦ rs.caps[idx]?.map Prod.snd

def isValid (rs : RevocationState) (capId : CapId) : Bool := (rs.get capId).any Capability.isValid

def contains (rs : RevocationState) (capId : CapId) : Bool := (rs.findIndex capId).isSome

def anyValidTargeting (rs : RevocationState) (target : ResourceId) : Bool :=
  rs.caps.any fun entry ↦ entry.2.isValid && entry.2.target == target

/-! ## Revocation of one capability -/

def revokeEntry (entry : CapId × Capability) : CapId × Capability := (entry.1, entry.2.revoke)

def revoke (rs : RevocationState) (capId : CapId) : RevocationState :=
  { rs with caps := rs.caps.map fun entry ↦ if entry.1 = capId then revokeEntry entry else entry }

/-! ## Transitive revocation along parents -/

def hasAncestorWithFuel (rs : RevocationState) (capId ancestorId : CapId) : ℕ → Bool
  | 0 => false
  | fuel + 1 =>
    match rs.get capId with
    | none => false
    | some cap =>
      match cap.parent with
      | none => false
      | some parentId =>
        if parentId = ancestorId then true else rs.hasAncestorWithFuel parentId ancestorId fuel

def hasAncestor (rs : RevocationState) (capId ancestorId : CapId) : Bool :=
  rs.hasAncestorWithFuel capId ancestorId capId

def inRevokeSet (rs : RevocationState) (k capId : CapId) : Bool :=
  k == capId || rs.hasAncestor k capId

def revokeTransitive (rs : RevocationState) (capId : CapId) : RevocationState :=
  { rs with
    caps := rs.caps.map fun entry ↦
      if rs.inRevokeSet entry.1 capId then revokeEntry entry else entry }

/-- The positions are collected first and revoked afterwards. -/
def revokeTransitiveMut (rs : RevocationState) (capId : CapId) : RevocationState :=
  let toRevoke := rs.caps.zipIdx.filterMap fun entry ↦
    if rs.inRevokeSet entry.1.1 capId then some entry.2 else none
  { rs with caps := toRevoke.foldl (fun caps idx ↦ caps.modify idx revokeEntry) rs.caps }

/-! ## Insertion -/

def addChildToIndex (index : ChildrenIndex) (parentId childId : CapId) : ChildrenIndex :=
  match binarySearchByKey Prod.fst parentId index with
  | .ok idx => index.modify idx fun entry ↦ (entry.1, entry.2 ++ [childId])
  | .error pos => index.insertIdx pos (parentId, [childId])

def insert (rs : RevocationState) (cap : Capability) : Except KernelError RevocationState :=
  let id := cap.id
  match rs.findInsertPos id with
  | (_, true) => .error (.capIdCollision id)
  | (pos, false) => .ok
    { caps := rs.caps.take pos ++ (id, cap) :: rs.caps.drop pos
      epoch := rs.epoch
      childrenIndex :=
        match cap.parent with
        | some parentId => addChildToIndex rs.childrenIndex parentId id
        | none => rs.childrenIndex }

def insertMut (rs : RevocationState) (cap : Capability) : Except KernelError Unit × RevocationState :=
  let id := cap.id
  match rs.findInsertPos id with
  | (_, true) => (.error (.capIdCollision id), rs)
  | (pos, false) =>
    let rs := { rs with caps := rs.caps.insertIdx pos (id, cap) }
    match cap.parent with
    | some parentId =>
      (.ok (), { rs with childrenIndex := addChildToIndex rs.childrenIndex parentId id })
    | none => (.ok (), rs)

/-! ## Transitive revocation along children -/

def getChildren (rs : RevocationState) (parentId : CapId) : List CapId :=
  ParentForest.childrenOf rs.childrenIndex parentId

/-- Breadth-first, with the children that `getChildren` reads. -/
def collectDescendants (rs : RevocationState) (capId : CapId) : List CapId :=
  ParentForest.collect rs.childrenIndex [capId] []

def revokeTransitiveFast (rs : RevocationState) (capId : CapId) : RevocationState :=
  let toRevoke := (rs.collectDescendants capId).mergeSort (· ≤ ·)
  { rs with
    caps := rs.caps.map fun entry ↦
      match binarySearchByKey id entry.1 toRevoke with
      | .ok _ => revokeEntry entry
      | .error _ => entry }

def revokeTransitiveFastMut (rs : RevocationState) (capId : CapId) :
    Except KernelError Unit × RevocationState :=
  match rs.findIndex capId with
  | none => (.error (.capNotFound capId), rs)
  | some _ =>
    let toRevoke := (rs.collectDescendants capId).mergeSort (· ≤ ·)
    let revokeOne (rs : RevocationState) (id : CapId) : RevocationState :=
      match rs.findIndex id with
      | some idx => { rs with caps := rs.caps.modify idx revokeEntry }
      | none => rs
    (.ok (), toRevoke.foldl revokeOne rs)

end RevocationState

end Lionagi.LionCore
