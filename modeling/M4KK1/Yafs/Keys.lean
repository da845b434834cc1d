import Mathlib.Data.Nat.Bitwise

/-!
# The 64-bit key space of YAFS

Tags for inode numbers, directory entries and file extents.
-/

namespace M4KK1.Yafs

def ksInode : Nat := 0

def ksDirEntry : Nat := 1

def ksExtent : Nat := 2

def ksTagShift : Nat := 60

def ksValueMask : Nat := 2 ^ 60 - 1

def extentLbaMask : Nat := 2 ^ 48 - 1

def extentLenShift : Nat := 48

def extentPack (lba len : Nat) : Nat :=
  (lba &&& extentLbaMask) ||| ((len &&& 0xFFFF) <<< extentLenShift)

def extentLba (entry : Nat) : Nat := entry &&& extentLbaMask

def extentLength (entry : Nat) : Nat := (entry >>> extentLenShift) &&& 0xFFFF

variable (key : Nat)

def keyTag : Nat := key >>> ksTagShift

def keyValue : Nat := key &&& ksValueMask

def makeKey (tag value : Nat) : Nat :=
  (tag <<< ksTagShift) % 2 ^ 64 ||| (value &&& ksValueMask)

/-- `mkrn_yafs_name_hash`. A C string is the list of its bytes before the NUL. -/
def nameHash (name : List UInt8) : Nat :=
  name.foldl (fun hash byte => ((hash <<< 5) + hash + byte.toNat) % 2 ^ 64) 5381

variable (inode : Nat)

def inodeKey : Nat := makeKey ksInode inode

def dirEntryKey (parent : Nat) (name : List UInt8) : Nat :=
  makeKey ksDirEntry ((parent <<< 16) % 2 ^ 64 ||| (nameHash name &&& 0xFFFF))

/-- The parent's inode number in the key of a directory entry, as `parent_cb` takes it
out. -/
def keyParent : Nat := keyValue key >>> 16

def extentKey (inode blockIdx : Nat) : Nat :=
  makeKey ksExtent ((inode <<< 16) % 2 ^ 64 ||| (blockIdx &&& 0xFFFF))

theorem makeKey_eq {tag : Nat} (small : tag < 16) (value : Nat) :
    makeKey tag value = tag * 2 ^ 60 + value % 2 ^ 60 := by
  have below : value % 2 ^ 60 < 2 ^ 60 := Nat.mod_lt _ (Nat.two_pow_pos _)
  have whole : (tag <<< 60) % 2 ^ 64 = tag <<< 60 := by
    rw [Nat.shiftLeft_eq]
    exact Nat.mod_eq_of_lt (by omega)
  unfold makeKey ksValueMask ksTagShift
  rw [Nat.and_two_pow_sub_one_eq_mod, whole, ← Nat.shiftLeft_add_eq_or_of_lt below,
    Nat.shiftLeft_eq]

@[simp] theorem keyTag_makeKey {tag : Nat} (small : tag < 16) (value : Nat) :
    keyTag (makeKey tag value) = tag := by
  have below : value % 2 ^ 60 < 2 ^ 60 := Nat.mod_lt _ (Nat.two_pow_pos _)
  rw [makeKey_eq small, keyTag, ksTagShift, Nat.shiftRight_eq_div_pow]
  omega

@[simp] theorem keyTag_inodeKey : keyTag (inodeKey inode) = ksInode :=
  keyTag_makeKey (by decide) _

@[simp] theorem keyTag_dirEntryKey (parent : Nat) (name : List UInt8) :
    keyTag (dirEntryKey parent name) = ksDirEntry :=
  keyTag_makeKey (by decide) _

@[simp] theorem keyTag_extentKey (inode blockIdx : Nat) :
    keyTag (extentKey inode blockIdx) = ksExtent :=
  keyTag_makeKey (by decide) _

theorem inodeKey_eq : inodeKey inode = inode % 2 ^ 60 := by
  unfold inodeKey
  rw [makeKey_eq (by decide)]
  simp [ksInode]

theorem makeKey_pair {tag : Nat} (small : tag < 16) (high low : Nat) :
    makeKey tag ((high <<< 16) % 2 ^ 64 ||| (low &&& 0xFFFF)) =
      tag * 2 ^ 60 + (high % 2 ^ 44 * 2 ^ 16 + low % 2 ^ 16) := by
  have lowBits : low &&& 0xFFFF = low % 2 ^ 16 := Nat.and_two_pow_sub_one_eq_mod low 16
  have below : low % 2 ^ 16 < 2 ^ 16 := Nat.mod_lt _ (Nat.two_pow_pos _)
  have highBits : (high <<< 16) % 2 ^ 64 = (high % 2 ^ 48) <<< 16 := by
    rw [Nat.shiftLeft_eq, Nat.shiftLeft_eq]
    omega
  rw [makeKey_eq small, lowBits, highBits, ← Nat.shiftLeft_add_eq_or_of_lt below, Nat.shiftLeft_eq]
  omega

theorem keyParent_dirEntryKey {parent : Nat} (fits : parent < 2 ^ 44) (name : List UInt8) :
    keyParent (dirEntryKey parent name) = parent := by
  have below : nameHash name % 2 ^ 16 < 2 ^ 16 := Nat.mod_lt _ (Nat.two_pow_pos _)
  unfold keyParent keyValue dirEntryKey ksValueMask
  rw [makeKey_pair (by decide), Nat.and_two_pow_sub_one_eq_mod, Nat.shiftRight_eq_div_pow,
    Nat.mod_eq_of_lt fits]
  omega

theorem keyParent_lt : keyParent key < 2 ^ 44 := by
  unfold keyParent keyValue ksValueMask
  rw [Nat.and_two_pow_sub_one_eq_mod, Nat.shiftRight_eq_div_pow]
  omega

/-- Keys with different tags differ. -/
theorem key_ne_of_tag {first second : Nat} (tags : keyTag first ≠ keyTag second) :
    first ≠ second := fun same => tags (congrArg keyTag same)

@[simp] theorem inodeKey_ne_dirEntryKey (inode parent : Nat) (name : List UInt8) :
    inodeKey inode ≠ dirEntryKey parent name :=
  key_ne_of_tag (by simp [ksInode, ksDirEntry])

@[simp] theorem dirEntryKey_ne_inodeKey (inode parent : Nat) (name : List UInt8) :
    dirEntryKey parent name ≠ inodeKey inode :=
  key_ne_of_tag (by simp [ksInode, ksDirEntry])

theorem extentLba_extentPack {lba : Nat} (fits : lba < 2 ^ 48) (len : Nat) :
    extentLba (extentPack lba len) = lba := by
  unfold extentLba extentPack extentLbaMask extentLenShift
  rw [Nat.and_two_pow_sub_one_eq_mod, Nat.and_two_pow_sub_one_eq_mod, Nat.mod_eq_of_lt fits,
    Nat.or_comm, ← Nat.shiftLeft_add_eq_or_of_lt fits, Nat.shiftLeft_eq]
  omega

theorem extentLength_extentPack {lba len : Nat} (fits : lba < 2 ^ 48) (short : len < 2 ^ 16) :
    extentLength (extentPack lba len) = len := by
  have whole : len &&& 0xFFFF = len :=
    (Nat.and_two_pow_sub_one_eq_mod len 16).trans (Nat.mod_eq_of_lt short)
  unfold extentLength extentPack extentLbaMask extentLenShift
  rw [Nat.and_two_pow_sub_one_eq_mod, Nat.mod_eq_of_lt fits, whole, Nat.or_comm,
    ← Nat.shiftLeft_add_eq_or_of_lt fits, Nat.shiftLeft_eq, Nat.shiftRight_eq_div_pow]
  have quotient : (len * 2 ^ 48 + lba) / 2 ^ 48 = len := by omega
  rw [quotient, whole]

end M4KK1.Yafs
