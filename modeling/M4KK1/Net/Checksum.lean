import Mathlib.Tactic.Ring
import M4KK1.Lib.OnesComplement
import M4KK1.Net.Frames

/-!
# Internet checksums

The code adds words with the low byte first, the definition with the high byte first.
-/

namespace M4KK1.Net

open M4KK1.Lib List

/-- `w[i]`, loaded from memory. -/
def littleWord (bytes : Nat → UInt8) (i : Nat) : Nat :=
  (bytes (2 * i)).toNat + (bytes (2 * i + 1)).toNat * 256

/-- `for (i = 0; i < n; i++) sum += w[i];` -/
def sumWords (bytes : Nat → UInt8) : Nat → Nat
  | 0 => 0
  | n + 1 => add32 (sumWords bytes n) (littleWord bytes n)

/-- The words of `len` bytes, and the byte behind them if `len` is odd. -/
def sumBytes (bytes : Nat → UInt8) (len : Nat) : Nat :=
  let sum := sumWords bytes (len / 2)
  if len % 2 = 1 then add32 sum (bytes (len - 1)).toNat else sum

def tcpChecksum (src dst : Nat) (payload : Nat → UInt8) (len : Nat) : Nat :=
  let sum := sumBytes payload len
  let sum := add32 sum (src / 65536 % 65536)
  let sum := add32 sum (src % 65536)
  let sum := add32 sum (dst / 65536 % 65536)
  let sum := add32 sum (dst % 65536)
  let sum := add32 sum (6 * 256)
  let sum := add32 sum (len * 256)
  65535 - foldCarries sum

def htonl (value : UInt32) : Nat :=
  value.toNat % 256 * 16777216 + value.toNat / 256 % 256 * 65536 +
    value.toNat / 65536 % 256 * 256 + value.toNat / 16777216

/-- A field of 16 bits set, as the processor stores it. -/
def setField16 (bytes : Nat → UInt8) (field value : Nat) : Nat → UInt8 := fun i =>
  if i = field then UInt8.ofNat value
  else if i = field + 1 then UInt8.ofNat (value / 256)
  else bytes i

/-- The words of `len` bytes, high byte first; an odd length is filled with a zero byte. -/
def networkWords (bytes : Nat → UInt8) (len : Nat) : List Nat :=
  (List.range ((len + 1) / 2)).map fun i =>
    (bytes (2 * i)).toNat * 256 + if 2 * i + 1 < len then (bytes (2 * i + 1)).toNat else 0

/-- The words of the pseudo-header: the addresses, the protocol and the length of the segment. -/
def pseudoHeader (srcIp dstIp : UInt32) (len : Nat) : List Nat :=
  [srcIp.toNat / 65536, srcIp.toNat % 65536, dstIp.toNat / 65536, dstIp.toNat % 65536, 6, len]

def swap16 (word : Nat) : Nat := word % 256 * 256 + word / 256

variable {bytes : Nat → UInt8} {n len field value : Nat}

/-- The sum that `mkrn_net_checksum` folds. -/
def plainSum (bytes : Nat → UInt8) (len : Nat) : Nat :=
  ((List.range (len / 2)).map (littleWord bytes)).sum +
    if len % 2 = 1 then (bytes (len - 1)).toNat else 0

theorem littleWord_le (bytes : Nat → UInt8) (i : Nat) : littleWord bytes i ≤ 65535 := by
  have low := (bytes (2 * i)).toNat_lt
  have high := (bytes (2 * i + 1)).toNat_lt
  rw [littleWord]
  omega

theorem sum_littleWords_le (bytes : Nat → UInt8) (n : Nat) :
    ((List.range n).map (littleWord bytes)).sum ≤ 65535 * n := by
  induction n with
  | zero => exact Nat.le_refl 0
  | succ n ih =>
    have word := littleWord_le bytes n
    rw [range_succ, map_append, sum_append, map_singleton, sum_singleton]
    omega

theorem sumWords_eq (short : n < 65536) :
    sumWords bytes n = ((List.range n).map (littleWord bytes)).sum := by
  induction n with
  | zero => rfl
  | succ n ih =>
    have before := sum_littleWords_le bytes n
    have word := littleWord_le bytes n
    rw [sumWords, ih (by omega), range_succ, map_append, sum_append,
      map_singleton, sum_singleton, add32, Nat.mod_eq_of_lt (by omega)]

theorem plainSum_le (bytes : Nat → UInt8) (len : Nat) :
    plainSum bytes len ≤ 65535 * (len / 2) + 255 := by
  have words := sum_littleWords_le bytes (len / 2)
  have last := (bytes (len - 1)).toNat_lt
  rw [plainSum]
  split <;> omega

theorem sumBytes_eq (short : len ≤ 65535) : sumBytes bytes len = plainSum bytes len := by
  have words := sum_littleWords_le bytes (len / 2)
  have last := (bytes (len - 1)).toNat_lt
  rw [sumBytes, plainSum, sumWords_eq (by omega)]
  split
  · exact Nat.mod_eq_of_lt (by omega)
  · rfl

theorem foldCarries_eq (n : Nat) : foldCarries n = onesValue 65535 n := by
  induction n using foldCarries.induct with
  | case1 n small =>
    rw [foldCarries, if_pos small, onesValue_of_le (by omega)]
  | case2 n large ih =>
    have positive : 0 < n % 65536 + n / 65536 := by omega
    have split : n = n % 65536 + n / 65536 + 65535 * (n / 65536) := by omega
    rw [foldCarries, if_neg large, ih]
    conv_rhs => rw [split]
    exact (onesValue_add_mul positive _).symm

theorem mkrnNetChecksum_eq :
    mkrnNetChecksum bytes len = 65535 - onesValue 65535 (plainSum bytes len) := by
  rw [mkrnNetChecksum, foldCarries_eq]
  rfl

theorem networkWords_related (Related : Nat → Nat → Prop) (zero : Related 0 0)
    (add : ∀ {wire sum wire' sum'}, Related wire sum → Related wire' sum' →
      Related (wire + wire') (sum + sum'))
    (word : ∀ low high, Related (low * 256 + high) (low + high * 256))
    (bytes : Nat → UInt8) (len : Nat) :
    Related (networkWords bytes len).sum (plainSum bytes len) := by
  have whole : ∀ n, 2 * n ≤ len → Related ((List.range n).map fun i => (bytes (2 * i)).toNat * 256 +
      if 2 * i + 1 < len then (bytes (2 * i + 1)).toNat else 0).sum
        ((List.range n).map (littleWord bytes)).sum := by
    intro n
    induction n with
    | zero => exact fun _ => zero
    | succ n ih =>
      intro inside
      simp only [range_succ, map_append, sum_append, map_singleton, sum_singleton]
      rw [if_pos (by omega)]
      exact add (ih (by omega)) (word _ _)
  rw [networkWords, plainSum]
  by_cases odd : len % 2 = 1
  · have count : (len + 1) / 2 = len / 2 + 1 := by omega
    have last : len - 1 = 2 * (len / 2) := by omega
    simp only [count, range_succ, map_append, sum_append, map_singleton, sum_singleton, if_pos odd,
      last]
    rw [if_neg (by omega)]
    have single := word (bytes (2 * (len / 2))).toNat 0
    rw [Nat.zero_mul, Nat.add_zero (bytes (2 * (len / 2))).toNat] at single
    exact add (whole (len / 2) (by omega)) single
  · have count : (len + 1) / 2 = len / 2 := by omega
    rw [count, if_neg odd, Nat.add_zero]
    exact whole (len / 2) (by omega)

theorem networkWords_modEq (bytes : Nat → UInt8) (len : Nat) :
    (networkWords bytes len).sum ≡ 256 * plainSum bytes len [MOD 65535] := by
  refine networkWords_related (fun wire sum => wire ≡ 256 * sum [MOD 65535]) (Nat.ModEq.refl 0)
    (fun left right => ?_) swapped_modEq bytes len
  rw [Nat.mul_add]
  exact left.add right

theorem plainSum_le_networkWords (bytes : Nat → UInt8) (len : Nat) :
    plainSum bytes len ≤ 256 * (networkWords bytes len).sum :=
  networkWords_related (fun wire sum => sum ≤ 256 * wire) (Nat.le_refl 0)
    (fun left right => by omega) (fun low high => by omega) bytes len

theorem networkWords_le (bytes : Nat → UInt8) (len : Nat) :
    ∀ word ∈ networkWords bytes len, word ≤ 65535 := by
  intro word member
  obtain ⟨i, -, rfl⟩ := mem_map.mp member
  have high := (bytes (2 * i)).toNat_lt
  have low := (bytes (2 * i + 1)).toNat_lt
  split <;> omega

theorem littleWord_setField16 (even : field % 2 = 0) (fits : value ≤ 65535)
    (zero : bytes field = 0 ∧ bytes (field + 1) = 0) (i : Nat) :
    littleWord (setField16 bytes field value) i =
      littleWord bytes i + if i = field / 2 then value else 0 := by
  by_cases isField : i = field / 2
  · obtain rfl : field = 2 * i := by omega
    rw [if_pos isField, littleWord, littleWord, setField16, setField16, zero.1, zero.2, if_pos rfl,
      if_neg (by omega), if_pos rfl, UInt8.toNat_ofNat', UInt8.toNat_ofNat', UInt8.toNat_zero]
    omega
  · rw [if_neg isField, Nat.add_zero, littleWord, littleWord, setField16, setField16,
      if_neg (by omega), if_neg (by omega), if_neg (by omega), if_neg (by omega)]

theorem plainSum_setField16 (even : field % 2 = 0) (inside : field + 2 ≤ len)
    (fits : value ≤ 65535) (zero : bytes field = 0 ∧ bytes (field + 1) = 0) :
    plainSum (setField16 bytes field value) len = plainSum bytes len + value := by
  have words : ∀ n, ((List.range n).map (littleWord (setField16 bytes field value))).sum =
      ((List.range n).map (littleWord bytes)).sum + if field / 2 < n then value else 0 := by
    intro n
    induction n with
    | zero => rfl
    | succ n ih =>
      simp only [range_succ, map_append, sum_append, map_singleton,
        sum_singleton, ih, littleWord_setField16 even fits zero n]
      split <;> split <;> split <;> omega
  have last : len % 2 = 1 → setField16 bytes field value (len - 1) = bytes (len - 1) := by
    intro odd
    rw [setField16, if_neg (by omega), if_neg (by omega)]
  rw [plainSum, plainSum, words, if_pos (by omega)]
  by_cases odd : len % 2 = 1
  · rw [if_pos odd, if_pos odd, last odd, Nat.add_right_comm]
  · rw [if_neg odd, if_neg odd]
    omega

theorem swap16_modEq (word : Nat) : swap16 word ≡ 256 * word [MOD 65535] := by
  have swapped := swapped_modEq (word % 256) (word / 256)
  rwa [Nat.mul_comm (word / 256), Nat.mod_add_div] at swapped

theorem completes {wire sum : Nat}
    (same : wire ≡ 256 * (sum + (65535 - onesValue 65535 sum)) [MOD 65535]) :
    65535 ∣ wire :=
  Nat.modEq_zero_iff_dvd.mp (same.trans
    (Nat.modEq_zero_iff_dvd.mpr ((dvd_add_complement (by decide)).mul_left 256)))

/-- What `tcp_checksum` adds for the addresses, the protocol and the length. -/
def pseudoSum (src dst len : Nat) : Nat :=
  src / 65536 % 65536 + src % 65536 + dst / 65536 % 65536 + dst % 65536 + 6 * 256 + len * 256

theorem address_modEq (ip : UInt32) : ip.toNat / 65536 + ip.toNat % 65536 ≡
    256 * (htonl ip / 65536 % 65536 + htonl ip % 65536) [MOD 65535] := by
  have small := ip.toNat_lt
  rw [htonl]
  have wire : ip.toNat / 65536 + ip.toNat % 65536 =
      (ip.toNat / 16777216 * 256 + ip.toNat / 65536 % 256) +
        (ip.toNat / 256 % 256 * 256 + ip.toNat % 256) := by omega
  have third : ip.toNat / 16777216 < 256 := by omega
  have second := Nat.mod_lt (ip.toNat / 65536) (show 0 < 256 by decide)
  have first := Nat.mod_lt (ip.toNat / 256) (show 0 < 256 by decide)
  have zeroth := Nat.mod_lt ip.toNat (show 0 < 256 by decide)
  rw [wire]
  generalize ip.toNat / 16777216 = d at *
  generalize ip.toNat / 65536 % 256 = c at *
  generalize ip.toNat / 256 % 256 = b at *
  generalize ip.toNat % 256 = a at *
  have quotient : (a * 16777216 + b * 65536 + c * 256 + d) / 65536 = b + a * 256 := by omega
  have high : (a * 16777216 + b * 65536 + c * 256 + d) / 65536 % 65536 = b + a * 256 := by
    rw [quotient, Nat.mod_eq_of_lt (by omega)]
  have low : (a * 16777216 + b * 65536 + c * 256 + d) % 65536 = d + c * 256 := by omega
  rw [high, low, Nat.mul_add, Nat.add_comm (256 * (b + a * 256))]
  exact (swapped_modEq d c).add (swapped_modEq b a)

theorem pseudoHeader_modEq (srcIp dstIp : UInt32) (len : Nat) :
    (pseudoHeader srcIp dstIp len).sum ≡ 256 * pseudoSum (htonl srcIp) (htonl dstIp) len
    [MOD 65535] := by
  have number : ∀ n, n ≡ 256 * (n * 256) [MOD 65535] := by
    intro n
    have swapped := swapped_modEq 0 n
    rwa [Nat.zero_mul, Nat.zero_add, Nat.zero_add] at swapped
  have sum := ((address_modEq srcIp).add (address_modEq dstIp)).add ((number 6).add (number len))
  have isCode : 256 * (htonl srcIp / 65536 % 65536 + htonl srcIp % 65536) +
      256 * (htonl dstIp / 65536 % 65536 + htonl dstIp % 65536) +
        (256 * (6 * 256) + 256 * (len * 256)) =
          256 * pseudoSum (htonl srcIp) (htonl dstIp) len := by
    rw [pseudoSum]
    ring
  have isWire : (pseudoHeader srcIp dstIp len).sum = srcIp.toNat / 65536 + srcIp.toNat % 65536 +
      (dstIp.toNat / 65536 + dstIp.toNat % 65536) + (6 + len) := by
    rw [pseudoHeader]
    simp only [sum_cons, sum_nil]
    ring
  rwa [isCode, ← isWire] at sum

theorem pseudoHeader_le (srcIp dstIp : UInt32) (short : len ≤ 65535) :
    ∀ word ∈ pseudoHeader srcIp dstIp len, word ≤ 65535 := by
  have src := srcIp.toNat_lt
  have dst := dstIp.toNat_lt
  intro word member
  simp only [pseudoHeader, mem_cons, not_mem_nil, or_false] at member
  omega

theorem tcpChecksum_eq {src dst : Nat} (short : len ≤ 65535) : tcpChecksum src dst bytes len =
      65535 - onesValue 65535 (plainSum bytes len + pseudoSum src dst len) := by
  have bound := plainSum_le bytes len
  rw [tcpChecksum, sumBytes_eq short]
  simp only [add32]
  rw [foldCarries_eq, pseudoSum]
  congr 2
  omega

/-- The sum over what goes over the wire is `0xFFFF`, and 32 bits hold it after every word. -/
theorem checksums_verify (srcIp dstIp : UInt32) (segment buffer : Nat → UInt8)
    (length len : Nat) (header : 18 ≤ length) (fits : length ≤ 65535)
    (zero : segment 16 = 0 ∧ segment 17 = 0) (short : len ≤ 65535) :
    onesSum 65535 (pseudoHeader srcIp dstIp length ++ networkWords
      (setField16 segment 16 (tcpChecksum (htonl srcIp) (htonl dstIp) segment length)) length) =
        65535 ∧
    onesSum 65535 (swap16 (mkrnNetChecksum buffer len) :: networkWords buffer len) = 65535 ∧
    (∀ field, field % 2 = 0 → field + 2 ≤ len → buffer field = 0 → buffer (field + 1) = 0 →
      onesSum 65535 (networkWords (setField16 buffer field (mkrnNetChecksum buffer len)) len) =
        65535) ∧
    (∀ n ≤ len / 2, sumWords buffer n = ((List.range n).map (littleWord buffer)).sum) ∧
    sumBytes buffer len = plainSum buffer len ∧ plainSum buffer len < 4294967296 ∧
    mkrnNetChecksum buffer len = 65535 - foldCarries (sumBytes buffer len) := by
  have bound := plainSum_le buffer len
  refine ⟨?_, ?_, ?_, ?_, sumBytes_eq short, by omega, ?_⟩
  · have sum := (pseudoHeader_modEq srcIp dstIp length).add (networkWords_modEq
      (setField16 segment 16 (tcpChecksum (htonl srcIp) (htonl dstIp) segment length)) length)
    rw [tcpChecksum_eq fits] at sum ⊢
    rw [plainSum_setField16 rfl header (Nat.sub_le _ _) zero, ← Nat.mul_add, ← Nat.add_assoc,
      Nat.add_comm (pseudoSum _ _ _)] at sum
    refine (onesSum_eq_full_iff (by decide) ?_).mpr ⟨?_, ?_⟩
    · intro word member
      rcases mem_append.mp member with isPseudo | isSegment
      · exact pseudoHeader_le srcIp dstIp fits word isPseudo
      · exact networkWords_le _ _ word isSegment
    · rw [sum_append, pseudoHeader]
      simp only [sum_cons]
      omega
    · rw [sum_append]
      exact completes sum
  · have sum := (swap16_modEq (mkrnNetChecksum buffer len)).add (networkWords_modEq buffer len)
    rw [mkrnNetChecksum_eq] at sum ⊢
    rw [← Nat.mul_add, Nat.add_comm (65535 - _)] at sum
    refine (onesSum_eq_full_iff (by decide) ?_).mpr ⟨?_, ?_⟩
    · intro word member
      rcases mem_cons.mp member with rfl | isBuffer
      · rw [swap16]
        omega
      · exact networkWords_le _ _ word isBuffer
    · -- Only the sum of zeros is zero, and its complement is not.
      have bounded := plainSum_le_networkWords buffer len
      rw [sum_cons, swap16]
      by_contra isZero
      have nothing : plainSum buffer len = 0 := by omega
      rw [nothing, onesValue, if_pos rfl] at isZero
      omega
    · rw [sum_cons]
      exact completes sum
  · intro field even inside first second
    have sum := networkWords_modEq (setField16 buffer field (mkrnNetChecksum buffer len)) len
    rw [mkrnNetChecksum_eq] at sum ⊢
    rw [plainSum_setField16 even inside (Nat.sub_le _ _) ⟨first, second⟩] at sum
    refine (onesSum_eq_full_iff (by decide) (networkWords_le _ _)).mpr ⟨?_, completes sum⟩
    have bounded := plainSum_le_networkWords (setField16 buffer field
      (65535 - onesValue 65535 (plainSum buffer len))) len
    rw [plainSum_setField16 even inside (Nat.sub_le _ _) ⟨first, second⟩] at bounded
    by_contra isZero
    have nothing : plainSum buffer len = 0 := by omega
    rw [nothing, onesValue, if_pos rfl] at bounded isZero
    omega
  · exact fun n inside => sumWords_eq (by omega)
  · rw [sumBytes_eq short, mkrnNetChecksum_eq, foldCarries_eq]

/-- The checksums of a SYN, and of seven bytes of zeros. -/
theorem checksums_verify_syn :
    onesSum 65535 (pseudoHeader 0x0A00020F 0x0A000202 20 ++ networkWords
      (setField16 (fun i => (segmentBytes 1024 80 0x1000 0 2 []).getD i 0) 16
        (tcpChecksum (htonl 0x0A00020F) (htonl 0x0A000202)
          (fun i => (segmentBytes 1024 80 0x1000 0 2 []).getD i 0) 20)) 20) = 65535 ∧
    onesSum 65535 (swap16 (mkrnNetChecksum (fun _ => 0) 7) :: networkWords (fun _ => 0) 7) =
      65535 := by
  have verified := checksums_verify 0x0A00020F 0x0A000202
    (fun i => (segmentBytes 1024 80 0x1000 0 2 []).getD i 0) (fun _ => 0) 20 7 (by decide)
      (by decide)
    ⟨rfl, rfl⟩ (by decide)
  exact ⟨verified.1, verified.2.1⟩

end M4KK1.Net
