import M4KK1.Lib.Sha256
import M4KK1.Shell.Lists

/-!
# Password hashes

SHA-256 in `m4sh/lib/pwd.c`, where `count` is the bytes of the last block (`sha256_digest_iff`).
-/

namespace M4KK1.Shell

open M4KK1.Lib M4KK1.Lib.Sha256 Function List

def sha256K : List UInt32 :=
  [0x428a2f98, 0x71374491, 0xb5c0fbcf, 0xe9b5dba5, 0x3956c25b, 0x59f111f1, 0x923f82a4, 0xab1c5ed5,
   0xd807aa98, 0x12835b01, 0x243185be, 0x550c7dc3, 0x72be5d74, 0x80deb1fe, 0x9bdc06a7, 0xc19bf174,
   0xe49b69c1, 0xefbe4786, 0x0fc19dc6, 0x240ca1cc, 0x2de92c6f, 0x4a7484aa, 0x5cb0a9dc, 0x76f988da,
   0x983e5152, 0xa831c66d, 0xb00327c8, 0xbf597fc7, 0xc6e00bf3, 0xd5a79147, 0x06ca6351, 0x14292967,
   0x27b70a85, 0x2e1b2138, 0x4d2c6dfc, 0x53380d13, 0x650a7354, 0x766a0abb, 0x81c2c92e, 0x92722c85,
   0xa2bfe8a1, 0xa81a664b, 0xc24b8b70, 0xc76c51a3, 0xd192e819, 0xd6990624, 0xf40e3585, 0x106aa070,
   0x19a4c116, 0x1e376c08, 0x2748774c, 0x34b0bcb5, 0x391c0cb3, 0x4ed8aa4a, 0x5b9cca4f, 0x682e6ff3,
   0x748f82ee, 0x78a5636f, 0x84c87814, 0x8cc70208, 0x90befffa, 0xa4506ceb, 0xbef9a3f7, 0xc67178f2]

def ROTR (x n : UInt32) : UInt32 := (x >>> n) ||| (x <<< (32 - n))

def CH (x y z : UInt32) : UInt32 := (x &&& y) ^^^ (~~~x &&& z)

def MAJ (x y z : UInt32) : UInt32 := (x &&& y) ^^^ (x &&& z) ^^^ (y &&& z)

variable (x : UInt32)

def EP0 : UInt32 := ROTR x 2 ^^^ ROTR x 13 ^^^ ROTR x 22

def EP1 : UInt32 := ROTR x 6 ^^^ ROTR x 11 ^^^ ROTR x 25

def SIG0 : UInt32 := ROTR x 7 ^^^ ROTR x 18 ^^^ (x >>> 3)

def SIG1 : UInt32 := ROTR x 17 ^^^ ROTR x 19 ^^^ (x >>> 10)

/-- `sha256_ctx_t` -/
structure Sha256Ctx where
  state : State
  count : Nat
  buf : Nat → UInt8

/-- The first loop of `sha256_transform`. -/
def loadWords (block : Nat → UInt8) : List UInt32 :=
  (List.range 16).map fun i =>
    (block (4 * i)).toUInt32 <<< 24 ||| (block (4 * i + 1)).toUInt32 <<< 16 |||
      (block (4 * i + 2)).toUInt32 <<< 8 ||| (block (4 * i + 3)).toUInt32

/-- The second loop of `sha256_transform`, of `n` turns: `w[i]` for `i` from 16 on. -/
def extendWords (w : List UInt32) : Nat → List UInt32
  | 0 => w
  | n + 1 =>
    let w := extendWords w n
    let i := 16 + n
    w ++ [SIG1 (w.getD (i - 2) 0) + w.getD (i - 7) 0 + SIG0 (w.getD (i - 15) 0) + w.getD (i - 16) 0]

/-- A turn of the third loop of `sha256_transform`. -/
def turn (w : List UInt32) (v : State) (i : Nat) : State :=
  let t1 := v.h + EP1 v.e + CH v.e v.f v.g + sha256K.getD i 0 + w.getD i 0
  let t2 := EP0 v.a + MAJ v.a v.b v.c
  { h := v.g, g := v.f, f := v.e, e := v.d + t1, d := v.c, c := v.b, b := v.a, a := t1 + t2 }

def sha256Transform (state : State) (block : Nat → UInt8) : State :=
  let w := extendWords (loadWords block) 48
  let v := (List.range 64).foldl (turn w) state
  ⟨state.a + v.a, state.b + v.b, state.c + v.c, state.d + v.d, state.e + v.e, state.f + v.f,
    state.g + v.g, state.h + v.h⟩

/-- `sha256_init`, on a context with anything in its buffer. -/
def sha256Init (buf : Nat → UInt8) : Sha256Ctx :=
  ⟨⟨0x6a09e667, 0xbb67ae85, 0x3c6ef372, 0xa54ff53a, 0x510e527f, 0x9b05688c, 0x1f83d9ab, 0x5be0cd19⟩,
    0, buf⟩

/-- A turn of the loop of `sha256_update`. -/
def updateByte (ctx : Sha256Ctx) (byte : UInt8) : Sha256Ctx :=
  let buf := update ctx.buf ctx.count byte
  if ctx.count + 1 = 64 then ⟨sha256Transform ctx.state buf, 0, buf⟩
  else ⟨ctx.state, ctx.count + 1, buf⟩

def sha256Update (ctx : Sha256Ctx) (data : List UInt8) : Sha256Ctx := data.foldl updateByte ctx

/-- `n` turns of `ctx->buf[ctx->count++] = 0`. -/
def zeroFill (buf : Nat → UInt8) (count : Nat) : Nat → Nat → UInt8
  | 0 => buf
  | n + 1 => zeroFill (update buf count 0) (count + 1) n

/-- The loop of `sha256_final` that stores the length. -/
def storeBits (buf : Nat → UInt8) (bits : Nat) : Nat → UInt8 :=
  (List.range 8).foldl (fun buf i =>
    update buf (56 + i) (UInt8.ofNat (bits / 2 ^ (56 - i * 8)))) buf

/-- The bytes of a word of the state in the digest. -/
def storeWord (word : UInt32) : List UInt8 :=
  [(word >>> 24).toUInt8, (word >>> 16).toUInt8, (word >>> 8).toUInt8, word.toUInt8]

def sha256Final (ctx : Sha256Ctx) : List UInt8 :=
  let bits := ctx.count * 8
  let buf := update ctx.buf ctx.count 0x80
  let count := ctx.count + 1
  let state :=
    if count > 56 then
      let full := storeBits (zeroFill (zeroFill buf count (64 - count)) 0 56) bits
      sha256Transform (sha256Transform ctx.state (zeroFill buf count (64 - count))) full
    else sha256Transform ctx.state (storeBits (zeroFill buf count (56 - count)) bits)
  [state.a, state.b, state.c, state.d, state.e, state.f, state.g, state.h].flatMap storeWord

variable (bin : List UInt8)

def toHex : Text :=
  bin.flatMap fun (byte : UInt8) =>
    [hextab.getD (byte >>> 4 &&& 0xF).toNat 0, hextab.getD (byte &&& 0xF).toNat 0]
where
  /-- `"0123456789abcdef"` -/
  hextab : Text := [48, 49, 50, 51, 52, 53, 54, 55, 56, 57, 97, 98, 99, 100, 101, 102]

/-- The value of a character that `from_hex` takes. -/
def hexDigit (c : UInt8) : Option UInt8 :=
  if 48 ≤ c ∧ c ≤ 57 then some (c - 48)
  else if 97 ≤ c ∧ c ≤ 102 then some (c - 97 + 10)
  else if 65 ≤ c ∧ c ≤ 70 then some (c - 65 + 10)
  else none

/-- `from_hex`, with the bytes it stores for their number and `none` for `-1`. -/
def fromHex : Nat → Text → Option (List UInt8)
  | max + 1, high :: low :: rest =>
    match hexDigit high, hexDigit low with
    | some hi, some lo => (fromHex max rest).map ((hi <<< 4 ||| lo) :: ·)
    | _, _ => none
  | _, _ => some []

def saltSize : Nat := 16

def hashWithSalt (password : Text) (salt : Fin saltSize → UInt8) (buf : Nat → UInt8) : Text :=
  let ctx := sha256Init buf
  let ctx := sha256Update ctx password
  let ctx := sha256Update ctx (List.ofFn salt)
  toHex (sha256Final ctx)

theorem hexDigit_hextab (byte : UInt8) :
    hexDigit (toHex.hextab.getD (byte >>> 4 &&& 0xF).toNat 0) = some (byte >>> 4 &&& 0xF) ∧
    hexDigit (toHex.hextab.getD (byte &&& 0xF).toNat 0) = some (byte &&& 0xF) ∧
    (byte >>> 4 &&& 0xF) <<< 4 ||| (byte &&& 0xF) = byte := by
  have every : ∀ n < 256, hexDigit (toHex.hextab.getD (UInt8.ofNat n >>> 4 &&& 0xF).toNat 0) =
        some (UInt8.ofNat n >>> 4 &&& 0xF) ∧
      hexDigit (toHex.hextab.getD (UInt8.ofNat n &&& 0xF).toNat 0) = some (UInt8.ofNat n &&& 0xF) ∧
      (UInt8.ofNat n >>> 4 &&& 0xF) <<< 4 ||| (UInt8.ofNat n &&& 0xF) = UInt8.ofNat n := by
    decide +kernel
  have found := every byte.toNat byte.toNat_lt
  rwa [UInt8.ofNat_toNat] at found

@[simp] theorem toHex_length : (toHex bin).length = 2 * bin.length := by
  induction bin with
  | nil => rfl
  | cons byte bin ih =>
    rw [toHex, flatMap_cons, length_append, length_cons, ← toHex, ih]
    simp only [length_cons, length_nil]
    omega

theorem fromHex_toHex (rest : Text) : fromHex bin.length (toHex bin ++ rest) = some bin := by
  induction bin with
  | nil => rfl
  | cons byte bin ih =>
    obtain ⟨high, low, joined⟩ := hexDigit_hextab byte
    rw [toHex, flatMap_cons, ← toHex, length_cons, append_assoc, cons_append,
      cons_append, nil_append, fromHex, high, low]
    simp only [ih, joined, Option.map_some]

theorem toHex_inj {left right : List UInt8} (same : toHex left = toHex right) : left = right := by
  have lengths := congrArg List.length same
  rw [toHex_length, toHex_length] at lengths
  have read := fromHex_toHex left []
  rw [same, show left.length = right.length by omega, fromHex_toHex] at read
  exact (Option.some.inj read).symm

variable {state : State} {block buf : Nat → UInt8} {ctx : Sha256Ctx} {m rest : List UInt8}
  {count n i : Nat}

theorem k_eq : k = sha256K := by decide +kernel

theorem initial_eq : (sha256Init buf).state = initial := by
  have evaluated : (sha256Init fun _ => 0).state = initial := by decide +kernel
  exact evaluated

/-- The first `n` bytes of a buffer. -/
def bytesOf (buf : Nat → UInt8) (n : Nat) : List UInt8 := (List.range n).map buf

theorem bytesOf_getD (below : i < n) : (bytesOf buf n).getD i 0 = buf i := by
  rw [bytesOf, getD_eq_getElem?_getD, getElem?_map, getElem?_range below]
  rfl

theorem bytesOf_update (n : Nat) (byte : UInt8) :
    bytesOf (update buf n byte) (n + 1) = bytesOf buf n ++ [byte] := by
  rw [bytesOf, bytesOf, range_succ, map_append, map_singleton, update_self]
  congr 1
  apply map_congr_left
  intro i below
  exact update_of_ne (by have := mem_range.mp below; omega) _ _

theorem schedule_load (below : n ≤ 16) :
    schedule (bytesOf block 64) n = (List.range n).map (wordAt (bytesOf block 64)) := by
  induction n with
  | zero => rfl
  | succ n ih =>
    rw [schedule, ih (by omega), range_succ, map_append, map_singleton, if_pos (by omega)]

theorem schedule_extend (block : Nat → UInt8) (n : Nat) :
    schedule (bytesOf block 64) (16 + n) = extendWords (loadWords block) n := by
  induction n with
  | zero =>
    rw [Nat.add_zero, schedule_load (Nat.le_refl _), extendWords, loadWords]
    apply map_congr_left
    intro i member
    have below := mem_range.mp member
    rw [wordAt, bytesOf_getD (by omega), bytesOf_getD (by omega), bytesOf_getD (by omega),
      bytesOf_getD (by omega)]
  | succ n ih =>
    rw [← Nat.add_assoc, schedule, ih, if_neg (by omega)]
    rfl

theorem sha256Transform_eq (state : State) (block : Nat → UInt8) :
    sha256Transform state block = compress state (bytesOf block 64) := by
  rw [sha256Transform, compress, k_eq, show 64 = 16 + 48 from rfl, schedule_extend]
  rfl

theorem compress_eq {bytes : List UInt8} (isBlock : bytes.length = 64) :
    compress state bytes = sha256Transform state fun i => bytes.getD i 0 := by
  rw [sha256Transform_eq]
  congr 1
  apply ext_getElem
  · rw [bytesOf, length_map, length_range, isBlock]
  · intro i below _
    simp only [bytesOf, getElem_map, getElem_range]
    simp [below]

/-- The whole blocks that went into a context are compressed, the other bytes are in the buffer. -/
structure Absorbed (ctx : Sha256Ctx) (blocks : List (List UInt8)) (rest : List UInt8) : Prop where
  whole : ∀ block ∈ blocks, block.length = 64
  short : rest.length < 64
  state : ctx.state = blocks.foldl compress initial
  count : ctx.count = rest.length
  buf : bytesOf ctx.buf rest.length = rest

theorem Absorbed.init (buf : Nat → UInt8) : Absorbed (sha256Init buf) [] [] :=
  ⟨fun block member => absurd member not_mem_nil, by decide, initial_eq, rfl, rfl⟩

variable {blocks : List (List UInt8)}

theorem Absorbed.updateByte (absorbed : Absorbed ctx blocks rest)
    (byte : UInt8) : ∃ blocks' rest', blocks'.flatten ++ rest' = blocks.flatten ++ rest ++ [byte] ∧
      Absorbed (updateByte ctx byte) blocks' rest' := by
  have stored : bytesOf (update ctx.buf ctx.count byte) (rest.length + 1) = rest ++ [byte] := by
    rw [absorbed.count, bytesOf_update, absorbed.buf]
  rw [Shell.updateByte]
  by_cases full : ctx.count + 1 = 64
  · have isFull : rest.length + 1 = 64 := absorbed.count ▸ full
    refine ⟨blocks ++ [rest ++ [byte]], [], by simp, ?_⟩
    rw [if_pos full]
    refine ⟨?_, by decide, ?_, rfl, rfl⟩
    · intro block member
      rcases mem_append.mp member with before | last
      · exact absorbed.whole block before
      · rw [mem_singleton.mp last, length_append, length_singleton, isFull]
    · rw [isFull] at stored
      rw [sha256Transform_eq, stored, absorbed.state, foldl_append]
      rfl
  · refine ⟨blocks, rest ++ [byte], by simp, ?_⟩
    have short := absorbed.short
    have isCount := absorbed.count
    rw [if_neg full]
    refine ⟨absorbed.whole, ?_, absorbed.state, ?_, ?_⟩
    · rw [length_append, length_singleton]
      omega
    · rw [length_append, length_singleton, absorbed.count]
    · rw [length_append, length_singleton]
      exact stored

theorem Absorbed.update (absorbed : Absorbed ctx blocks rest)
    (data : List UInt8) :
    ∃ blocks' rest', blocks'.flatten ++ rest' = blocks.flatten ++ rest ++ data ∧
      Absorbed (sha256Update ctx data) blocks' rest' := by
  induction data generalizing ctx blocks rest with
  | nil => exact ⟨blocks, rest, by simp, absorbed⟩
  | cons byte data ih =>
    obtain ⟨blocks₁, rest₁, same₁, absorbed₁⟩ := absorbed.updateByte byte
    obtain ⟨blocks₂, rest₂, same₂, absorbed₂⟩ := ih absorbed₁
    refine ⟨blocks₂, rest₂, ?_, absorbed₂⟩
    rw [same₂, same₁, append_assoc, singleton_append]

theorem Absorbed.updates (absorbed : Absorbed ctx blocks rest)
    (parts : List (List UInt8)) : ∃ blocks' rest',
      blocks'.flatten ++ rest' = blocks.flatten ++ rest ++ parts.flatten ∧
      Absorbed (parts.foldl sha256Update ctx) blocks' rest' := by
  induction parts generalizing ctx blocks rest with
  | nil => exact ⟨blocks, rest, by simp, absorbed⟩
  | cons part parts ih =>
    obtain ⟨blocks₁, rest₁, same₁, absorbed₁⟩ := absorbed.update part
    obtain ⟨blocks₂, rest₂, same₂, absorbed₂⟩ := ih absorbed₁
    refine ⟨blocks₂, rest₂, ?_, absorbed₂⟩
    rw [same₂, same₁, append_assoc, flatten_cons]

theorem bytesOf_store (buf byte : Nat → UInt8) (count n : Nat) :
    bytesOf ((List.range n).foldl (fun buf i => update buf (count + i) (byte i)) buf)
      (count + n) = bytesOf buf count ++ (List.range n).map byte := by
  induction n with
  | zero => simp
  | succ n ih =>
    rw [range_succ, foldl_append, foldl_cons, foldl_nil, ← Nat.add_assoc,
      bytesOf_update, ih, map_append, map_singleton, append_assoc]

theorem bytesOf_storeBits (buf : Nat → UInt8) (bits : Nat) :
    bytesOf (storeBits buf bits) 64 = bytesOf buf 56 ++ lengthField bits := by
  have stored := bytesOf_store buf (fun i => UInt8.ofNat (bits / 2 ^ (56 - i * 8))) 56 8
  rw [storeBits, show 64 = 56 + 8 from rfl, stored]
  rfl

theorem bytesOf_zeroFill (n : Nat) : ∀ (buf : Nat → UInt8) (count : Nat),
    bytesOf (zeroFill buf count n) (count + n) = bytesOf buf count ++ List.replicate n 0 := by
  induction n with
  | zero =>
    intro buf count
    rw [replicate_zero, append_nil]
    rfl
  | succ n ih =>
    intro buf count
    rw [zeroFill, ← Nat.add_assoc, Nat.add_right_comm, ih, bytesOf_update, replicate_succ,
      append_assoc, singleton_append]

theorem sha256Final_eq (absorbed : Absorbed ctx blocks rest) :
    sha256Final ctx = digest (paddedState (blocks.flatten ++ rest) (8 * rest.length)) := by
  have short := absorbed.short
  have marked : bytesOf (update ctx.buf ctx.count 0x80) (rest.length + 1) =
      rest ++ [0x80] := by
    rw [absorbed.count, bytesOf_update, absorbed.buf]
  have isLength := padWith_length rest (8 * rest.length)
  rw [paddedState_blocks absorbed.whole, ← absorbed.state]
  rw [sha256Final, absorbed.count, Nat.mul_comm rest.length 8]
  rw [absorbed.count] at marked
  generalize update ctx.buf rest.length 0x80 = buf at marked
  by_cases twoBlocks : rest.length + 1 > 56
  · have zeros : bytesOf (zeroFill buf (rest.length + 1) (64 - (rest.length + 1))) 64 =
        rest ++ [0x80] ++ List.replicate (63 - rest.length) 0 := by
      have filled := bytesOf_zeroFill (64 - (rest.length + 1)) buf (rest.length + 1)
      rw [marked, Nat.add_sub_cancel' (by omega)] at filled
      rw [filled, show 64 - (rest.length + 1) = 63 - rest.length by omega]
    have second : bytesOf (zeroFill (zeroFill buf (rest.length + 1) (64 - (rest.length + 1))) 0 56)
      56 =
        List.replicate 56 0 :=
      bytesOf_zeroFill 56 _ 0
    have isPadded : padWith rest (8 * rest.length) = (rest ++ [0x80] ++
        List.replicate (63 - rest.length) 0) ++
          (List.replicate 56 0 ++ lengthField (8 * rest.length)) := by
      rw [padWith, show (119 - rest.length % 64) % 64 = 63 - rest.length + 56 by omega,
        replicate_add]
      simp only [append_assoc, cons_append, nil_append]
    have isBlock : (rest ++ [0x80] ++ List.replicate (63 - rest.length) (0 : UInt8)).length =
        64 := by
      rw [length_append, length_append, length_singleton, length_replicate]
      omega
    have count : (padWith rest (8 * rest.length)).length / 64 = 2 := by omega
    rw [count, isPadded, chain, chain, take_left' isBlock, drop_left' isBlock, chain,
      take_of_length_le (by simp)]
    simp only [if_pos twoBlocks, sha256Transform_eq, zeros, bytesOf_storeBits, second]
    rfl
  · have zeros : bytesOf (zeroFill buf (rest.length + 1) (56 - (rest.length + 1))) 56 =
        rest ++ [0x80] ++ List.replicate (55 - rest.length) 0 := by
      have filled := bytesOf_zeroFill (56 - (rest.length + 1)) buf (rest.length + 1)
      rw [marked, Nat.add_sub_cancel' (by omega)] at filled
      rw [filled, show 56 - (rest.length + 1) = 55 - rest.length by omega]
    have isPadded : padWith rest (8 * rest.length) = (rest ++ [0x80] ++
        List.replicate (55 - rest.length) 0) ++ lengthField (8 * rest.length) := by
      rw [padWith, show (119 - rest.length % 64) % 64 = 55 - rest.length by omega]
      simp only [append_assoc, singleton_append]
    have count : (padWith rest (8 * rest.length)).length / 64 = 1 := by omega
    rw [count, chain, chain, take_of_length_le (by omega), isPadded]
    simp only [if_neg twoBlocks, sha256Transform_eq, zeros, bytesOf_storeBits]
    rfl

/-- The last block gives the same hash with the number of its bytes as with the length. -/
def LengthsCollide (m : List UInt8) : Prop :=
  compress (beforeLast m) (lastBlock m (8 * (m.length % 64))) =
    compress (beforeLast m) (lastBlock m (8 * m.length))

theorem sha256_eq (buf : Nat → UInt8) (parts : List (List UInt8)) :
    sha256Final (parts.foldl sha256Update (sha256Init buf)) =
      digest (paddedState parts.flatten (8 * (parts.flatten.length % 64))) := by
  obtain ⟨blocks, rest, same, absorbed⟩ := (Absorbed.init buf).updates parts
  simp only [flatten_nil, append_nil, nil_append] at same
  have long : blocks.flatten.length % 64 = 0 := by
    have whole := absorbed.whole
    clear same absorbed
    induction blocks with
    | nil => rfl
    | cons block blocks ih =>
      have others := ih fun other member => whole other (mem_cons_of_mem _ member)
      rw [flatten_cons, length_append, whole block mem_cons_self]
      omega
  have isRest : parts.flatten.length % 64 = rest.length := by
    have short := absorbed.short
    rw [← same, length_append]
    omega
  rw [sha256Final_eq absorbed, same, isRest]

-- The digest of `root`'s password in the user database that the kernel creates.
example : sha256Final (sha256Update (sha256Update (sha256Init fun _ => 0) [49, 50, 51, 52, 53, 54])
    [0x25, 0x36, 0x47, 0x58, 0x69, 0x7a, 0x8b, 0x9c, 0xad, 0xbe, 0xcf, 0xe0, 0xf1, 0x02, 0x13,
      0x24]) =
    [0x57, 0x02, 0x87, 0x2e, 0x7e, 0xa9, 0x0f, 0x74, 0x50, 0xa2, 0xc8, 0xcb, 0x2e, 0x9d, 0x3a, 0xaf,
      0x36, 0xa6, 0x81, 0xa7, 0xf6, 0xeb, 0xc9, 0x90, 0x5d, 0x21, 0xe4, 0xef, 0x00, 0x93, 0x66,
      0x7b] := by
  decide +kernel

theorem digest_eq_sha256_iff (m : List UInt8) :
    digest (paddedState m (8 * (m.length % 64))) = sha256 m ↔ m.length < 64 ∨ LengthsCollide m := by
  constructor
  · intro same
    have states := digest_inj same
    rw [paddedState_eq, paddedState_eq] at states
    exact Or.inr states
  · rintro (short | collide)
    · rw [Nat.mod_eq_of_lt short]
      rfl
    · rw [sha256, paddedState_eq, paddedState_eq]
      exact congrArg digest collide

/-- The digest is right exactly for messages of one block and where lengths collide. -/
theorem sha256_digest_iff (buf : Nat → UInt8) (parts : List (List UInt8)) (password : Text)
    (salt : Fin saltSize → UInt8) :
    (sha256Final (parts.foldl sha256Update (sha256Init buf)) = sha256 parts.flatten ↔
      parts.flatten.length < 64 ∨ LengthsCollide parts.flatten) ∧
    (hashWithSalt password salt buf = toHex (sha256 (password ++ List.ofFn salt)) ↔
      password.length < 48 ∨ LengthsCollide (password ++ List.ofFn salt)) := by
  constructor
  · rw [sha256_eq]
    exact digest_eq_sha256_iff parts.flatten
  · have hashed : hashWithSalt password salt buf = toHex (digest (paddedState
        (password ++ List.ofFn salt) (8 * ((password ++ List.ofFn salt).length % 64)))) := by
      have parted := sha256_eq buf [password, List.ofFn salt]
      simp only [flatten_cons, flatten_nil, append_nil] at parted
      rw [hashWithSalt, ← parted]
      simp only [foldl_cons, foldl_nil]
    have long : (password ++ List.ofFn salt).length < 64 ↔ password.length < 48 := by
      rw [length_append, length_ofFn, saltSize]
      omega
    rw [hashed, ← long, ← digest_eq_sha256_iff]
    exact ⟨toHex_inj, congrArg toHex⟩

theorem paddedState_block (isBlock : m.length = 64) (bits : Nat) :
    paddedState m bits = sha256Transform
      (sha256Transform (sha256Init buf).state fun i => m.getD i 0)
      fun i => (padWith [] bits).getD i 0 := by
  have whole : ∀ block ∈ [m], block.length = 64 := by simpa using isBlock
  have padded := paddedState_blocks whole [] bits
  have one : chain (compress initial m) 1 (padWith [] bits) =
      compress (compress initial m) ((padWith [] bits).take 64) := rfl
  have isLength : (padWith [] bits).length = 64 := padWith_length [] bits
  rw [isLength, flatten_singleton, append_nil] at padded
  rw [take_of_length_le isLength.le] at one
  rw [← compress_eq isBlock, ← compress_eq isLength, initial_eq, ← one, padded]
  rfl

/-- A message of one whole block, and a password and a salt that make it up. -/
theorem sha256_digest_long :
    sha256Final (sha256Update (sha256Init fun _ => 0) (List.replicate 64 97)) ≠
      sha256 (List.replicate 64 97) ∧
    hashWithSalt (List.replicate 48 97) (fun _ => 97) (fun _ => 0) ≠
      toHex (sha256 (List.replicate 48 97 ++ List.ofFn fun _ : Fin saltSize => 97)) := by
  have different : sha256Final (sha256Update (sha256Init fun _ => 0) (List.replicate 64 97)) ≠
      sha256 (List.replicate 64 97) := by
    have heads : (digest (sha256Transform
          (sha256Transform (sha256Init fun _ => 0).state fun i => (List.replicate 64 97).getD i 0)
          fun i => (padWith [] 0).getD i 0)).head? ≠
        (digest (sha256Transform
          (sha256Transform (sha256Init fun _ => 0).state fun i => (List.replicate 64 97).getD i 0)
          fun i => (padWith [] 512).getD i 0)).head? := by
      decide +kernel
    have computed := sha256_eq (fun _ => 0) [List.replicate 64 97]
    rw [flatten_singleton, length_replicate, foldl_cons, foldl_nil] at computed
    intro same
    rw [computed, sha256, length_replicate, paddedState_block length_replicate,
      paddedState_block length_replicate] at same
    exact heads (congrArg List.head? same)
  have isMessage : List.replicate 48 (97 : UInt8) ++ List.ofFn (fun _ : Fin saltSize => 97) =
      List.replicate 64 97 := by
    decide
  refine ⟨different, fun same => different ?_⟩
  rw [isMessage] at same
  have updates : sha256Update (sha256Update (sha256Init fun _ => 0) (List.replicate 48 97))
      (List.ofFn fun _ : Fin saltSize => 97) =
        sha256Update (sha256Init fun _ => 0) (List.replicate 64 97) := by
    rw [sha256Update, sha256Update, ← foldl_append, isMessage]
    rfl
  have digests := toHex_inj same
  rwa [updates] at digests

end M4KK1.Shell
