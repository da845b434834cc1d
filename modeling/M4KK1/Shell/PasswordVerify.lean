import Mathlib.Algebra.Ring.Nat
import M4KK1.Shell.PasswordHash

/-!
# Password verification

A stored password is the salt in hexadecimal, a separator, and the digest.
-/

namespace M4KK1.Shell

open List

def musrStrcmp : Text → Text → Int
  | a :: left, b :: right => if a = b then musrStrcmp left right else a.toNat - b.toNat
  | a :: _, [] => a.toNat
  | [], b :: _ => -b.toNat
  | [], [] => 0

def musrHashPassword (password : Text) (salt : Fin saltSize → UInt8) (buf : Nat → UInt8) : Text :=
  toHex (List.ofFn salt) ++ 36 :: hashWithSalt password salt buf

def musrVerifyPassword (password storedHash : Text) (buf : Nat → UInt8) : Int :=
  if storedHash.length ≠ 2 * saltSize + 1 + 64 then 0
  else
    match fromHex saltSize storedHash with
    | none => 0
    | some salt =>
      if full : salt.length = saltSize then
        let computed := hashWithSalt password (fun i => salt.get (i.cast full.symm)) buf
        if musrStrcmp (storedHash.drop (2 * saltSize + 1)) computed = 0 then 1 else 0
      else 0

def IsHexDigit (c : UInt8) : Prop :=
  (48 ≤ c ∧ c ≤ 57) ∨ (97 ≤ c ∧ c ≤ 102) ∨ (65 ≤ c ∧ c ≤ 70)

/-- 32 hexadecimal digits, a separator and 64 further characters. -/
def IsStoredHash (text : Text) : Prop :=
  ∃ digits separator rest, text = digits ++ separator :: rest ∧ digits.length = 2 * saltSize ∧
    (∀ c ∈ digits, IsHexDigit c) ∧ rest.length = 64

variable {password p q stored text : Text} {salt : Fin saltSize → UInt8} {buf buf' : Nat → UInt8}

theorem hexDigit_isSome {c : UInt8} : (hexDigit c).isSome ↔ IsHexDigit c := by
  rw [hexDigit, IsHexDigit]
  split
  · rename_i digit
    simp [digit]
  split
  · rename_i lower
    simp [lower]
  split
  · rename_i upper
    simp [upper]
  · rename_i digit lower upper
    simp [digit, lower, upper]

theorem musrStrcmp_eq_zero : ∀ {left right : Text}, left.length = right.length →
    (musrStrcmp left right = 0 ↔ left = right) := by
  intro left
  induction left with
  | nil =>
    intro right same
    obtain rfl := length_eq_zero_iff.mp same.symm
    exact iff_of_true rfl rfl
  | cons a left ih =>
    intro right same
    cases right with
    | nil => simp at same
    | cons b right =>
      rw [length_cons, length_cons, Nat.succ_inj] at same
      rw [musrStrcmp, List.cons.injEq]
      by_cases isEqual : a = b
      · rw [if_pos isEqual, ih same]
        simp [isEqual]
      · have differ : a.toNat ≠ b.toNat := fun values => isEqual (UInt8.toNat_inj.mp values)
        rw [if_neg isEqual]
        constructor
        · intro isZero
          omega
        · exact fun both => absurd both.1 isEqual

theorem hashWithSalt_buf (password : Text) (salt : Fin saltSize → UInt8) (buf buf' : Nat → UInt8) :
    hashWithSalt password salt buf = hashWithSalt password salt buf' := by
  have first := sha256_eq buf [password, List.ofFn salt]
  have second := sha256_eq buf' [password, List.ofFn salt]
  rw [foldl_cons, foldl_cons, foldl_nil] at first second
  rw [hashWithSalt, hashWithSalt, first, second]

theorem hashWithSalt_length (password : Text) (salt : Fin saltSize → UInt8) (buf : Nat → UInt8) :
    (hashWithSalt password salt buf).length = 64 := by
  rw [hashWithSalt, toHex_length]
  rfl

theorem musrHashPassword_length : (musrHashPassword password salt buf).length = 97 := by
  rw [musrHashPassword, length_append, toHex_length, length_ofFn, length_cons, hashWithSalt_length]
  rfl

theorem isHexDigit_of_mem_toHex {bin : List UInt8} {c : UInt8} (member : c ∈ toHex bin) :
    IsHexDigit c := by
  obtain ⟨byte, -, isDigit⟩ := mem_flatMap.mp member
  obtain ⟨high, low, -⟩ := hexDigit_hextab byte
  simp only [mem_cons, not_mem_nil, or_false] at isDigit
  apply hexDigit_isSome.mp
  rcases isDigit with rfl | rfl
  · rw [high]
    rfl
  · rw [low]
    rfl

theorem mem_musrHashPassword {c : UInt8} (member : c ∈ musrHashPassword password salt buf) :
    IsHexDigit c ∨ c = 36 := by
  rw [musrHashPassword, mem_append, mem_cons] at member
  rcases member with isSalt | isSeparator | isHash
  · exact Or.inl (isHexDigit_of_mem_toHex isSalt)
  · exact Or.inr isSeparator
  · exact Or.inl (isHexDigit_of_mem_toHex isHash)

theorem fromHex_digits : ∀ {count : Nat} {text : Text} {bin : List UInt8},
    fromHex count text = some bin → 2 * count ≤ text.length →
    ∀ c ∈ text.take (2 * count), IsHexDigit c := by
  intro count
  induction count with
  | zero =>
    intro text bin _ _ c member
    rw [Nat.mul_zero, take_zero] at member
    exact absurd member not_mem_nil
  | succ count ih =>
    intro text bin read long c member
    rcases text with _ | ⟨high, _ | ⟨low, text⟩⟩
    · simp at long
    · simp at long
      omega
    rw [Nat.mul_succ, take_succ_cons, take_succ_cons, mem_cons, mem_cons] at member
    rw [fromHex] at read
    cases isHigh : hexDigit high with
    | none => simp [isHigh] at read
    | some hi =>
      cases isLow : hexDigit low with
      | none => simp [isHigh, isLow] at read
      | some lo =>
        simp only [isHigh, isLow, Option.map_eq_some_iff] at read
        obtain ⟨others, readOthers, -⟩ := read
        simp only [length_cons] at long
        rcases member with rfl | rfl | member
        · exact hexDigit_isSome.mp (by rw [isHigh]; rfl)
        · exact hexDigit_isSome.mp (by rw [isLow]; rfl)
        · exact ih readOthers (by omega) c member

theorem isStoredHash_of_verified (verified : musrVerifyPassword q text buf ≠ 0) :
    IsStoredHash text := by
  rw [musrVerifyPassword] at verified
  by_cases long : text.length = 2 * saltSize + 1 + 64
  swap
  · exact absurd (if_pos long) verified
  rw [if_neg (not_not.mpr long)] at verified
  cases read : fromHex saltSize text with
  | none => simp [read] at verified
  | some bin =>
    have digits := fromHex_digits read (by omega)
    have split : text.drop (2 * saltSize) = text[2 * saltSize] :: text.drop (2 * saltSize + 1) :=
      drop_eq_getElem_cons (by omega)
    refine ⟨text.take (2 * saltSize), text[2 * saltSize], text.drop (2 * saltSize + 1), ?_, ?_,
      digits, ?_⟩
    · rw [← split, take_append_drop]
    · rw [List.length_take]
      omega
    · rw [length_drop]
      omega

theorem fromHex_musrHashPassword :
    fromHex saltSize (musrHashPassword p salt buf) = some (List.ofFn salt) := by
  have decoded := fromHex_toHex (List.ofFn salt) (36 :: hashWithSalt p salt buf)
  rw [length_ofFn] at decoded
  rw [musrHashPassword, decoded]

theorem drop_musrHashPassword :
    (musrHashPassword p salt buf).drop (2 * saltSize + 1) = hashWithSalt p salt buf := by
  have isSalt : (toHex (List.ofFn salt)).length = 2 * saltSize := by
    rw [toHex_length, length_ofFn]
  rw [musrHashPassword, ← drop_drop, drop_left' isSalt, drop_succ_cons, drop_zero]

theorem musrVerifyPassword_hash : musrVerifyPassword q (musrHashPassword p salt buf) buf' =
    if hashWithSalt p salt buf = hashWithSalt q salt buf' then 1 else 0 := by
  have same : musrStrcmp (hashWithSalt p salt buf) (hashWithSalt q salt buf') = 0 ↔
      hashWithSalt p salt buf = hashWithSalt q salt buf' :=
    musrStrcmp_eq_zero (by rw [hashWithSalt_length, hashWithSalt_length])
  have long : ¬ (musrHashPassword p salt buf).length ≠ 2 * saltSize + 1 + 64 :=
    not_not.mpr musrHashPassword_length
  rw [musrVerifyPassword, if_neg long]
  simp only [fromHex_musrHashPassword, drop_musrHashPassword]
  rw [dif_pos length_ofFn]
  simp only [get_ofFn, Fin.cast_cast, Fin.cast_eq_self]
  exact if_congr same rfl rfl

/-- A password is accepted exactly if its digest is that of the stored one, in the form made. -/
theorem verify_password_law (p q s : Text) (salt : Fin saltSize → UInt8) (buf buf' : Nat → UInt8) :
    (musrVerifyPassword q (musrHashPassword p salt buf) buf' = 1 ↔
      hashWithSalt q salt buf' = hashWithSalt p salt buf) ∧
    musrVerifyPassword p (musrHashPassword p salt buf) buf' = 1 ∧
    (musrHashPassword p salt buf).length = 97 ∧
    58 ∉ musrHashPassword p salt buf ∧ 10 ∉ musrHashPassword p salt buf ∧
    (¬ IsStoredHash s → musrVerifyPassword q s buf' = 0) := by
  have notIn : ∀ c : UInt8, ¬ IsHexDigit c → c ≠ 36 → c ∉ musrHashPassword p salt buf := by
    intro c notDigit notSeparator member
    rcases mem_musrHashPassword member with isDigit | isSeparator
    · exact notDigit isDigit
    · exact notSeparator isSeparator
  refine ⟨?_, ?_, musrHashPassword_length, ?_, ?_, ?_⟩
  · rw [musrVerifyPassword_hash]
    constructor
    · intro accepted
      by_contra differ
      rw [if_neg fun same => differ same.symm] at accepted
      exact absurd accepted (by decide)
    · intro same
      rw [if_pos same.symm]
  · rw [musrVerifyPassword_hash, if_pos (hashWithSalt_buf p salt buf buf')]
  · exact notIn 58 (by rw [IsHexDigit]; decide) (by decide)
  · exact notIn 10 (by rw [IsHexDigit]; decide) (by decide)
  · intro malformed
    by_contra verified
    exact malformed (isStoredHash_of_verified verified)

/-- 98 digits without a separator are refused. -/
theorem verify_password_law_long :
    musrVerifyPassword [49] (List.replicate 98 48) (fun _ => 0) = 0 := by
  refine (verify_password_law [] [49] (List.replicate 98 48) (fun _ => 0) (fun _ => 0)
    fun _ => 0).2.2.2.2.2 ?_
  rintro ⟨digits, separator, rest, split, isDigits, -, isRest⟩
  have long := congrArg List.length split
  rw [length_append, length_cons, isDigits, isRest] at long
  exact absurd long (by decide)

end M4KK1.Shell
