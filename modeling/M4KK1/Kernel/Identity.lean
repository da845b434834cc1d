import Mathlib.Data.List.Basic
import M4KK1.Lib.Run

/-!
# The identity of a process

The identifiers of a process and the three calls that change them.
-/

namespace M4KK1.Kernel

open M4KK1.Lib

def uidRoot : BitVec 32 := 0

def gidRoot : BitVec 32 := 0

def gidPrime : BitVec 32 := 1001

def ePerm : Int := 0x4D000001

/-- The fields of `struct mkrn_process` that identify its user. -/
structure Identity where
  uid : BitVec 32
  euid : BitVec 32
  gid : BitVec 32
  egid : BitVec 32
  groupList : List (BitVec 32)
  groupCount : groupList.length ≤ 16

variable (size : Int) (list : Nat → BitVec 32)

namespace Identity

def isPrimeMember (p : Identity) : Bool :=
  decide (p.egid = gidPrime) || p.groupList.contains gidPrime

def setUid (p : Identity) (uid : BitVec 32) : Int × Identity :=
  if p.euid = uidRoot then (0, { p with uid := uid, euid := uid })
  else if uid = 0 ∧ p.isPrimeMember then (0, { p with euid := uid })
  else if uid = p.uid ∨ uid = p.euid then (0, { p with euid := uid })
  else (-ePerm, p)

def setGid (p : Identity) (gid : BitVec 32) : Int × Identity :=
  if p.egid = gidRoot then (0, { p with gid := gid, egid := gid })
  else if gid = p.gid ∨ gid = p.egid then (0, { p with egid := gid })
  else (-ePerm, p)

/-- The entries of `list` that `mkrn_process_set_groups` takes. -/
def clampedGroups : List (BitVec 32) :=
  (List.range (min size.toNat 16)).map list

theorem clampedGroups_length : (clampedGroups size list).length ≤ 16 := by
  rw [clampedGroups, List.length_map, List.length_range]
  exact Nat.min_le_right _ _

def setGroups (p : Identity) (size : Int) (list : Nat → BitVec 32) : Int × Identity :=
  if p.euid ≠ uidRoot then (-ePerm, p)
  else
    (0, { p with
      groupList := clampedGroups size list, groupCount := clampedGroups_length size list })

end Identity

inductive IdentityCall where
  | setUid (uid : BitVec 32)
  | setGid (gid : BitVec 32)
  | setGroups (size : Int) (list : Nat → BitVec 32)

def Identity.perform (p : Identity) : IdentityCall → Int × Identity
  | .setUid uid => p.setUid uid
  | .setGid gid => p.setGid gid
  | .setGroups size list => p.setGroups size list

def IdentityStep (p : Identity) (call : IdentityCall) (p' : Identity) : Prop :=
  p' = (p.perform call).2

/-- The process acts for a user other than root. -/
def Identity.Unprivileged (p : Identity) : Prop := p.uid ≠ uidRoot ∧ p.euid ≠ uidRoot

/-- Neither group nor any supplementary one is the prime group. -/
def Identity.OutsidePrime (p : Identity) : Prop :=
  p.gid ≠ gidPrime ∧ p.egid ≠ gidPrime ∧ gidPrime ∉ p.groupList

def Identity.OutsideRootGroup (p : Identity) : Prop := p.gid ≠ gidRoot ∧ p.egid ≠ gidRoot

/-- What every call keeps of a process that cannot become root. -/
structure Identity.Confined (p : Identity) : Prop where
  user : p.Unprivileged
  prime : p.OutsidePrime
  group : p.OutsideRootGroup

namespace Identity.Confined

variable {p : Identity}

section

variable (confined : p.Confined)

include confined

theorem notMember : p.isPrimeMember = false := by
  obtain ⟨-, notEffective, notListed⟩ := confined.prime
  simp [isPrimeMember, notEffective, notListed]

theorem setUid (uid : BitVec 32) : (p.setUid uid).2.Confined := by
  obtain ⟨notUid, notEuid⟩ := confined.user
  rw [Identity.setUid, if_neg notEuid, if_neg (by simp [confined.notMember])]
  split
  · next isOwn =>
    refine ⟨⟨notUid, ?_⟩, confined.prime, confined.group⟩
    rcases isOwn with rfl | rfl
    · exact notUid
    · exact notEuid
  · exact confined

theorem setGid (gid : BitVec 32) : (p.setGid gid).2.Confined := by
  obtain ⟨notGid, notEgid⟩ := confined.group
  obtain ⟨gidPlain, egidPlain, listPlain⟩ := confined.prime
  rw [Identity.setGid, if_neg notEgid]
  split
  · next isOwn =>
    rcases isOwn with rfl | rfl
    · exact ⟨confined.user, ⟨gidPlain, gidPlain, listPlain⟩, ⟨notGid, notGid⟩⟩
    · exact ⟨confined.user, ⟨gidPlain, egidPlain, listPlain⟩, ⟨notGid, notEgid⟩⟩
  · exact confined

theorem setGroups : (p.setGroups size list).2.Confined := by
  rw [Identity.setGroups, if_pos confined.user.2]
  exact confined

theorem perform (call : IdentityCall) : (p.perform call).2.Confined := by
  cases call with
  | setUid uid => exact confined.setUid uid
  | setGid gid => exact confined.setGid gid
  | setGroups size list => exact confined.setGroups size list

theorem run {calls : List IdentityCall} {p' : Identity}
    (ran : Steps IdentityStep p calls p') : p'.Confined := by
  refine ran.invariant Identity.Confined ?_ confined
  rintro state call next held rfl
  exact held.perform call

end

end Identity.Confined

/-- The calls by which a member of the root group becomes a member of the prime group, and root. -/
def primeDetour : List IdentityCall := [.setGid gidRoot, .setGid gidPrime, .setUid uidRoot]

theorem three_calls {p : Identity} (a b c : IdentityCall) :
    Steps IdentityStep p [a, b, c] ((((p.perform a).2.perform b).2.perform c).2) :=
  @Steps.step _ _ IdentityStep _ _ _ [a, b] c
    (@Steps.step _ _ IdentityStep _ _ _ [a] b
      (@Steps.step _ _ IdentityStep _ _ _ [] a .refl rfl) rfl) rfl

theorem primeDetour_root {p : Identity} (inside : ¬p.OutsideRootGroup) :
    ∃ p', Steps IdentityStep p primeDetour p' ∧ p'.euid = uidRoot := by
  refine ⟨_, three_calls _ _ _, ?_⟩
  -- The first call makes the root group the effective one.
  have effective : (p.perform (.setGid gidRoot)).2.egid = gidRoot := by
    rw [Identity.perform, Identity.setGid]
    split
    · rfl
    · next notEgid =>
      have isGid : gidRoot = p.gid := by
        by_contra notGid
        exact inside ⟨fun same => notGid same.symm, notEgid⟩
      rw [if_pos (.inl isGid)]
  have prime : ((p.perform (.setGid gidRoot)).2.perform (.setGid gidPrime)).2.isPrimeMember =
      true := by
    rw [Identity.perform.eq_2 _ gidPrime, Identity.setGid, if_pos effective]
    simp [Identity.isPrimeMember]
  rw [Identity.perform.eq_1, Identity.setUid]
  split
  · rfl
  · rw [if_pos ⟨rfl, prime⟩]

/-- Privilege dropped outside the prime group stays dropped exactly when the process is not in the
root group. -/
theorem no_privilege_regain_iff (p : Identity) (dropped : p.Unprivileged) (plain : p.OutsidePrime) :
    (∀ calls p', Steps IdentityStep p calls p' → p'.Unprivileged) ↔ p.OutsideRootGroup := by
  constructor
  · intro never
    by_contra inside
    obtain ⟨p', ran, isRoot⟩ := primeDetour_root inside
    exact (never _ _ ran).2 isRoot
  · intro outside calls p' ran
    exact (Identity.Confined.run ⟨dropped, plain, outside⟩ ran).user

/-- A user with a group of their own. -/
def ordinaryUser : Identity := ⟨1000, 1000, 1000, 1000, [], Nat.zero_le _⟩

/-- For an ordinary user the question comes down to its groups. -/
theorem no_privilege_regain_iff_ordinaryUser :
    (∀ calls p', Steps IdentityStep ordinaryUser calls p' → p'.Unprivileged) ↔
    ordinaryUser.OutsideRootGroup :=
  no_privilege_regain_iff ordinaryUser (by unfold Identity.Unprivileged; decide)
    (by unfold Identity.OutsidePrime; decide)

/-- What `mkrn_process_set_uid` makes of root: the groups stay. -/
def droppedRoot : Identity := ((⟨0, 0, 0, 0, [], Nat.zero_le _⟩ : Identity).setUid 1000).2

/-- A process that was root and has dropped to a user takes the prime group and is root again. -/
theorem droppedRoot_regains : droppedRoot.Unprivileged ∧ droppedRoot.OutsidePrime ∧
    ∃ p', Steps IdentityStep droppedRoot primeDetour p' ∧ ¬p'.Unprivileged := by
  refine ⟨by unfold Identity.Unprivileged; decide, by unfold Identity.OutsidePrime; decide, _,
    three_calls _ _ _, ?_⟩
  unfold Identity.Unprivileged
  decide

end M4KK1.Kernel
