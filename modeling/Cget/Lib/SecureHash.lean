import Cget.Lib.Blocks
import Mathlib.Data.Nat.NthRoot.Defs
import Mathlib.Data.List.Induction
import Mathlib.Data.Nat.Prime.Basic
import Mathlib.Data.Nat.ModEq
import Mathlib.Order.Bounds.Basic
/-!
# SHA-256

SHA-256 from the text of the Secure Hash Standard: a message is a list of
bits, its words are taken from its bits most significant first, the constants are the
fractional parts of roots of primes. A message of bytes is the list of their bits.
-/

namespace SecureHash

abbrev Word := BitVec 32

/-! ## Numbers as bits -/

/-- The `w` low bits of `n`, most significant first. -/
def toBits (w n : Nat) : List Bool := (List.range w).map fun i => n.testBit (w - 1 - i)

def ofBits (bits : List Bool) : Nat := bits.foldl (fun n b => 2 * n + b.toNat) 0

/-- The bits of a message of bytes. -/
def bitsOf (bytes : List UInt8) : List Bool := bytes.flatMap fun b => toBits 8 b.toNat

/-! ## Functions and constants -/

def ch (x y z : Word) : Word := (x &&& y) ^^^ (~~~x &&& z)

def maj (x y z : Word) : Word := (x &&& y) ^^^ (x &&& z) ^^^ (y &&& z)

/-- `Σ₀` of the standard; the next is its `Σ₁`. -/
def sum0 (x : Word) : Word := x.rotateRight 2 ^^^ x.rotateRight 13 ^^^ x.rotateRight 22

def sum1 (x : Word) : Word := x.rotateRight 6 ^^^ x.rotateRight 11 ^^^ x.rotateRight 25

def sigma0 (x : Word) : Word := x.rotateRight 7 ^^^ x.rotateRight 18 ^^^ x >>> 3

def sigma1 (x : Word) : Word := x.rotateRight 17 ^^^ x.rotateRight 19 ^^^ x >>> 10

/-- The first sixty-four primes. -/
def primes : List Nat := (List.range 312).filter fun p => 2 ≤ p ∧ ∀ d < (18 : Nat), d ∣ p → d = 1 ∨ d = p

/-- The first 32 bits of the fractional part of the `k`-th root of `p`. -/
def rootWord (k p : Nat) : Word := BitVec.ofNat 32 (Nat.nthRoot k (p * 2 ^ (32 * k)))

def roundConstants : List Word := primes.map (rootWord 3)

/-- The eight words of a hash value, or the eight working variables. -/
@[ext]
structure Eight where
  a : Word
  b : Word
  c : Word
  d : Word
  e : Word
  f : Word
  g : Word
  h : Word
  deriving DecidableEq

def Eight.words (v : Eight) : List Word := [v.a, v.b, v.c, v.d, v.e, v.f, v.g, v.h]

/-- The initial hash value, from the first eight primes. -/
def initial : Eight where
  a := rootWord 2 2
  b := rootWord 2 3
  c := rootWord 2 5
  d := rootWord 2 7
  e := rootWord 2 11
  f := rootWord 2 13
  g := rootWord 2 17
  h := rootWord 2 19

/-! ## Preprocessing -/

/-- How many zeros follow the bit `1` after a message of `l` bits. -/
def zeros (l : Nat) : Nat := (959 - l % 512) % 512

/-- The message, the bit `1`, the zeros and the length. -/
def pad (m : List Bool) : List Bool := m ++ true :: (List.replicate (zeros m.length) false ++ toBits 64 m.length)

/-! ## Hash computation -/

/-- Word `t` of the message schedule of a block. -/
def schedule (block : List Bool) (t : Nat) : Word :=
  if t < 16 then BitVec.ofNat 32 (ofBits (slice block (32 * t) 32))
  else
    sigma1 (schedule block (t - 2)) + schedule block (t - 7) + sigma0
      (schedule block (t - 15)) + schedule block (t - 16)

/-- One round, with the round constant `k` and the word `w` of the schedule. -/
def round (k w : Word) (v : Eight) : Eight :=
  let t1 := v.h + sum1 v.e + ch v.e v.f v.g + k + w
  let t2 := sum0 v.a + maj v.a v.b v.c
  { a := t1 + t2, b := v.a, c := v.b, d := v.c, e := v.d + t1, f := v.e, g := v.f, h := v.g }

def rounds (block : List Bool) (n : Nat) (v : Eight) : Eight :=
  (List.range n).foldl (fun v t => round (roundConstants.getD t 0) (schedule block t) v) v

def Eight.add (u v : Eight) : Eight where
  a := u.a + v.a
  b := u.b + v.b
  c := u.c + v.c
  d := u.d + v.d
  e := u.e + v.e
  f := u.f + v.f
  g := u.g + v.g
  h := u.h + v.h

/-- The next intermediate hash value. -/
def hashBlock (v : Eight) (block : List Bool) : Eight := (rounds block 64 v).add v

/-- The message digest. -/
def digest (m : List Bool) : List Bool :=
  ((blocks 512 (pad m)).foldl hashBlock initial).words.flatMap fun w => toBits 32 w.toNat

/-- A hexadecimal digit of `n`, as a byte of ASCII. -/
def hexDigit (n : Nat) : UInt8 := if n < 10 then UInt8.ofNat (48 + n) else UInt8.ofNat (87 + n)

/-- Bits in hexadecimal, a digit for each four. -/
def hex (bits : List Bool) : List UInt8 := (blocks 4 bits).map fun nibble => hexDigit (ofBits nibble)

/-! ## The standard's own words -/

/-- The primes below 312, of which there are sixty-four. -/
theorem mem_primes {p : Nat} : p ∈ primes ↔ p < 312 ∧ p.Prime := by
  rw [primes, List.mem_filter, List.mem_range, decide_eq_true_eq]
  refine and_congr_right fun hlt => ⟨?_, ?_⟩
  · rintro ⟨htwo, hdiv⟩
    by_contra hp
    have hsq := Nat.minFac_sq_le_self (by omega) hp
    have hsmall : p.minFac < 18 := by
      by_contra hge
      have hle : 18 ^ 2 ≤ p.minFac ^ 2 := Nat.pow_le_pow_left (Nat.not_lt.1 hge) 2
      omega
    rcases hdiv _ hsmall p.minFac_dvd with hone | hself
    · exact absurd (Nat.minFac_eq_one_iff.1 hone) (by omega)
    · exact hp (Nat.prime_def_minFac.2 ⟨htwo, hself⟩)
  · exact fun hp => ⟨hp.two_le, fun d _ hd => (Nat.dvd_prime hp).1 hd⟩

theorem primes_length : primes.length = 64 := by decide +kernel

/-- The zeros are as few as make the length come out. -/
theorem zeros_least (l : Nat) : IsLeast {k | l + 1 + k ≡ 448 [MOD 512]} (zeros l) := by
  refine ⟨?_, fun k hk => ?_⟩
  · change (l + 1 + (959 - l % 512) % 512) % 512 = 448 % 512
    omega
  · change (l + 1 + k) % 512 = 448 % 512 at hk
    change (959 - l % 512) % 512 ≤ k
    omega

/-- A padded message is a whole number of blocks. -/
theorem pad_length (m : List Bool) : 512 ∣ (pad m).length := by
  simp only [pad, zeros, toBits, List.length_append, List.length_cons, List.length_replicate, List.length_map,
    List.length_range]
  omega

/-! ## Bits -/

section Bits

variable {n w : Nat} {p q : List Bool}

@[simp] theorem toBits_length : (toBits w n).length = w := by simp [toBits]

/-- The last bit. -/
theorem toBits_succ : toBits (w + 1) n = toBits w (n / 2) ++ [n.testBit 0] := by
  rw [toBits, List.range_succ, List.map_append, List.map_singleton]
  congr 1
  · refine List.map_congr_left fun i hi => ?_
    rw [Nat.testBit_div_two, show w - 1 - i + 1 = w + 1 - 1 - i by have := List.mem_range.1 hi; omega]
  · simp

/-- The bits of a number in two parts. -/
theorem toBits_add {v : Nat} : toBits (v + w) n = toBits v (n / 2 ^ w) ++ toBits w n := by
  induction w generalizing n with
  | zero => simp [toBits]
  | succ w ih =>
    rw [← Nat.add_assoc, toBits_succ, toBits_succ, ih, Nat.div_div_eq_div_mul, ← Nat.pow_succ', List.append_assoc]

theorem toBits_mod : toBits w (n % 2 ^ w) = toBits w n := by
  refine List.map_congr_left fun i hi => ?_
  have hlt : w - 1 - i < w := by have := List.mem_range.1 hi; omega
  simp [Nat.testBit_mod_two_pow, hlt]

theorem ofBits_snoc {b : Bool} : ofBits (p ++ [b]) = 2 * ofBits p + b.toNat := by
  rw [ofBits, List.foldl_append]
  rfl

theorem ofBits_append : ofBits (p ++ q) = ofBits p * 2 ^ q.length + ofBits q := by
  induction q using List.reverseRecOn with
  | nil => simp [ofBits]
  | append_singleton q b ih =>
    rw [← List.append_assoc, ofBits_snoc, ofBits_snoc, ih, List.length_append, List.length_singleton, Nat.pow_succ]
    ring

theorem ofBits_lt (p : List Bool) : ofBits p < 2 ^ p.length := by
  induction p using List.reverseRecOn with
  | nil => decide
  | append_singleton p b ih =>
    have hb : b.toNat ≤ 1 := b.toNat_le
    rw [ofBits_snoc, List.length_append, List.length_singleton, Nat.pow_succ]
    omega

theorem ofBits_toBits (h : n < 2 ^ w) : ofBits (toBits w n) = n := by
  induction w generalizing n with
  | zero =>
    obtain rfl : n = 0 := by simpa using h
    rfl
  | succ w ih =>
    have hhalf : n / 2 < 2 ^ w := by rw [Nat.pow_succ] at h; omega
    rw [toBits_succ, ofBits_snoc, ih hhalf, Nat.toNat_testBit]
    simpa using Nat.div_add_mod n 2

/-! ## Messages of bytes -/

theorem bitsOf_length (m : List UInt8) : (bitsOf m).length = 8 * m.length := by
  simp [bitsOf, List.length_flatMap, Nat.mul_comm]

theorem bitsOf_append (m m' : List UInt8) : bitsOf (m ++ m') = bitsOf m ++ bitsOf m' := List.flatMap_append

theorem slice_bitsOf (m : List UInt8) (i k : Nat) : slice (bitsOf m) (8 * i) (8 * k) = bitsOf (slice m i k) :=
  slice_flatMap (fun _ => toBits_length) m i k

theorem blocks_bitsOf (m : List UInt8) : blocks 512 (bitsOf m) = (blocks 64 m).map bitsOf :=
  blocks_flatMap (k := 8) (n := 64) (fun _ => toBits_length) (by norm_num) m

/-- The number of four bytes. -/
theorem ofBits_bytes (b₀ b₁ b₂ b₃ : UInt8) :
    ofBits (bitsOf [b₀, b₁, b₂, b₃]) = ((b₀.toNat * 256 + b₁.toNat) * 256 + b₂.toNat) * 256 + b₃.toNat := by
  have hbyte (b : UInt8) : ofBits (toBits 8 b.toNat) = b.toNat := ofBits_toBits b.toNat_lt
  simp only [bitsOf, List.flatMap_cons, List.flatMap_nil, List.append_nil, ofBits_append, hbyte, List.length_append,
    toBits_length]
  ring

/-- The number in `k` bytes, most significant first. -/
def bytesOf (k n : Nat) : List UInt8 := (List.range k).reverse.map fun i => UInt8.ofNat (n / 256 ^ i)

theorem bitsOf_bytesOf (k n : Nat) : bitsOf (bytesOf k n) = toBits (8 * k) n := by
  induction k with
  | zero => rfl
  | succ k ih =>
    have hbyte : toBits 8 (UInt8.ofNat (n / 256 ^ k)).toNat = toBits 8 (n / 2 ^ (8 * k)) := by
      rw [UInt8.toNat_ofNat', toBits_mod, Nat.pow_mul]
    rw [bytesOf, List.range_succ, List.reverse_append, List.reverse_singleton, List.singleton_append,
      List.map_cons, bitsOf, List.flatMap_cons, hbyte, Nat.mul_succ, Nat.add_comm, toBits_add]
    exact congrArg _ ih

/-- Padding takes bytes to bytes: `0x80`, zero bytes, and the length in eight. -/
def padBytes (m : List UInt8) : List UInt8 :=
  m ++ 0x80 :: (List.replicate ((119 - m.length % 64) % 64) 0 ++ bytesOf 8 (8 * m.length))

theorem bitsOf_zeros (n : Nat) : bitsOf (List.replicate n 0) = List.replicate (8 * n) false := by
  induction n with
  | zero => rfl
  | succ n ih =>
    rw [List.replicate_succ, bitsOf, List.flatMap_cons, Nat.mul_succ, Nat.add_comm, List.replicate_add]
    exact congrArg _ ih

theorem pad_bitsOf (m : List UInt8) : pad (bitsOf m) = bitsOf (padBytes m) := by
  have hone : bitsOf [0x80] = true :: List.replicate 7 false := by decide
  have hzeros : zeros (8 * m.length) = 7 + 8 * ((119 - m.length % 64) % 64) := by
    unfold zeros
    omega
  have hbyte (q : List UInt8) : bitsOf (0x80 :: q) = true :: (List.replicate 7 false ++ bitsOf q) := by
    rw [← List.cons_append, ← hone]
    exact bitsOf_append [0x80] q
  rw [pad, padBytes, bitsOf_append, hbyte, bitsOf_append, bitsOf_zeros, bitsOf_bytesOf, bitsOf_length, hzeros,
    List.replicate_add, List.append_assoc]

/-! ## Digits -/

theorem hex_append {k : Nat} (hp : p.length = 4 * k) : hex (p ++ q) = hex p ++ hex q := by
  rw [hex, blocks_append (by norm_num) hp, List.map_append]
  rfl

/-- The digits are those of numbers below sixteen. -/
theorem mem_hex {c : UInt8} (hc : c ∈ hex p) : ∃ n < 16, c = hexDigit n := by
  obtain ⟨nibble, hn, rfl⟩ := List.mem_map.1 hc
  obtain ⟨i, -, rfl⟩ := List.mem_map.1 hn
  refine ⟨_, (ofBits_lt _).trans_le ?_, rfl⟩
  exact Nat.pow_le_pow_right (by norm_num) slice_length_le

theorem hex_digest_length (m : List Bool) : (hex (digest m)).length = 64 := by
  rw [hex, List.length_map, blocks, List.length_map, List.length_range, digest]
  simp [Eight.words]

theorem hex_flatMap {α : Type} {f : α → List Bool} {k : Nat} (hf : ∀ a, (f a).length = 4 * k) (l : List α) :
    hex (l.flatMap f) = l.flatMap fun a => hex (f a) := by
  induction l with
  | nil => simp [hex, blocks]
  | cons a l ih => rw [List.flatMap_cons, hex_append (hf a), ih, List.flatMap_cons]

/-- The last digit. -/
theorem hex_toBits (k n : Nat) : hex (toBits (4 * (k + 1)) n) = hex (toBits (4 * k) (n / 16)) ++
    [hexDigit (n % 16)] := by
  have hlast : hex (toBits 4 n) = [hexDigit (n % 16)] := by
    rw [hex, blocks_self (by norm_num) toBits_length, List.map_singleton, ← toBits_mod,
      ofBits_toBits (Nat.mod_lt _ (by norm_num))]
    rfl
  rw [Nat.mul_succ, toBits_add, hex_append toBits_length, hlast]
  rfl

end Bits

end SecureHash
