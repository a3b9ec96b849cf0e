import Mathlib.Data.List.Basic

/-!
# SHA-256 with lower-case hexadecimal output

An executable SHA-256 over the UTF-8 bytes of a string. All recursion is
structural, so the kernel can evaluate a digest. Developments reason about
`sha256Hex` only through its length and alphabet, and through collision
freedom of the finitely many strings at hand.
-/

namespace VibeAudit.Foundation

namespace Sha256

/-- The first 32 bits of the fractional parts of the cube roots of the first 64 primes. -/
def roundConstants : List UInt32 :=
  [0x428a2f98, 0x71374491, 0xb5c0fbcf, 0xe9b5dba5, 0x3956c25b, 0x59f111f1, 0x923f82a4, 0xab1c5ed5,
   0xd807aa98, 0x12835b01, 0x243185be, 0x550c7dc3, 0x72be5d74, 0x80deb1fe, 0x9bdc06a7, 0xc19bf174,
   0xe49b69c1, 0xefbe4786, 0x0fc19dc6, 0x240ca1cc, 0x2de92c6f, 0x4a7484aa, 0x5cb0a9dc, 0x76f988da,
   0x983e5152, 0xa831c66d, 0xb00327c8, 0xbf597fc7, 0xc6e00bf3, 0xd5a79147, 0x06ca6351, 0x14292967,
   0x27b70a85, 0x2e1b2138, 0x4d2c6dfc, 0x53380d13, 0x650a7354, 0x766a0abb, 0x81c2c92e, 0x92722c85,
   0xa2bfe8a1, 0xa81a664b, 0xc24b8b70, 0xc76c51a3, 0xd192e819, 0xd6990624, 0xf40e3585, 0x106aa070,
   0x19a4c116, 0x1e376c08, 0x2748774c, 0x34b0bcb5, 0x391c0cb3, 0x4ed8aa4a, 0x5b9cca4f, 0x682e6ff3,
   0x748f82ee, 0x78a5636f, 0x84c87814, 0x8cc70208, 0x90befffa, 0xa4506ceb, 0xbef9a3f7, 0xc67178f2]

/-- The eight working variables. -/
structure State where
  a : UInt32
  b : UInt32
  c : UInt32
  d : UInt32
  e : UInt32
  f : UInt32
  g : UInt32
  h : UInt32

def State.initial : State :=
  ⟨0x6a09e667, 0xbb67ae85, 0x3c6ef372, 0xa54ff53a, 0x510e527f, 0x9b05688c, 0x1f83d9ab, 0x5be0cd19⟩

def State.words (s : State) : List UInt32 := [s.a, s.b, s.c, s.d, s.e, s.f, s.g, s.h]

def rotr (x n : UInt32) : UInt32 := (x >>> n) ||| (x <<< (32 - n))

def round (s : State) (k w : UInt32) : State :=
  let s1 := rotr s.e 6 ^^^ rotr s.e 11 ^^^ rotr s.e 25
  let ch := (s.e &&& s.f) ^^^ ((~~~ s.e) &&& s.g)
  let t1 := s.h + s1 + ch + k + w
  let s0 := rotr s.a 2 ^^^ rotr s.a 13 ^^^ rotr s.a 22
  let maj := (s.a &&& s.b) ^^^ (s.a &&& s.c) ^^^ (s.b &&& s.c)
  ⟨t1 + (s0 + maj), s.a, s.b, s.c, s.d + t1, s.e, s.f, s.g⟩

/-- The next `n` words of the message schedule, from a window of sixteen. -/
def schedule : Nat → List UInt32 → List UInt32
  | 0, _ => []
  | n + 1, w =>
    let x := w.getD 1 0
    let y := w.getD 14 0
    let s0 := rotr x 7 ^^^ rotr x 18 ^^^ (x >>> 3)
    let s1 := rotr y 17 ^^^ rotr y 19 ^^^ (y >>> 10)
    w.getD 0 0 :: schedule n (w.tail ++ [w.getD 0 0 + s0 + w.getD 9 0 + s1])

def rounds : List UInt32 → List UInt32 → State → State
  | k :: ks, w :: ws, s => rounds ks ws (round s k w)
  | _, _, s => s

def compress (s : State) (block : List UInt32) : State :=
  let t := rounds roundConstants (schedule 64 block) s
  ⟨s.a + t.a, s.b + t.b, s.c + t.c, s.d + t.d, s.e + t.e, s.f + t.f, s.g + t.g, s.h + t.h⟩

def bigEndianWords : List UInt8 → List UInt32
  | a :: b :: c :: d :: rest =>
    (a.toUInt32 <<< 24 ||| b.toUInt32 <<< 16 ||| c.toUInt32 <<< 8 ||| d.toUInt32) ::
      bigEndianWords rest
  | _ => []

/-- A one bit, zeros, and the bit length in eight bytes fill the last block. -/
def pad (m : List UInt8) : List UInt8 :=
  let zeros : List UInt8 := List.replicate ((119 - m.length % 64) % 64) 0
  let bits := (List.range 8).map fun i => UInt8.ofNat ((m.length * 8) >>> (8 * (7 - i)))
  m ++ (0x80 : UInt8) :: zeros ++ bits

def compressBlocks : Nat → List UInt32 → State → State
  | 0, _, s => s
  | n + 1, ws, s => compressBlocks n (ws.drop 16) (compress s (ws.take 16))

def digest (m : List UInt8) : State :=
  let padded := pad m
  compressBlocks (padded.length / 64) (bigEndianWords padded) State.initial

def hexDigits : List Char := "0123456789abcdef".toList

def hexWord (w : UInt32) : List Char :=
  (List.range 8).map fun i => hexDigits.getD ((w.toNat >>> (4 * (7 - i))) % 16) '0'

theorem hexWord_length (w : UInt32) : (hexWord w).length = 8 := by simp [hexWord]

theorem mem_hexWord {w : UInt32} {c : Char} (h : c ∈ hexWord w) : c ∈ hexDigits := by
  obtain ⟨i, -, rfl⟩ := List.mem_map.mp h
  have hlt : (w.toNat >>> (4 * (7 - i))) % 16 < hexDigits.length := Nat.mod_lt _ (by decide)
  simp [List.getD_eq_getElem?_getD, hlt]

end Sha256

/-- The 64-character digest `hex(SHA-256(utf8 text))`. -/
@[irreducible] def sha256Hex (text : String) : String :=
  String.ofList
    ((Sha256.digest (text.toList.flatMap String.utf8EncodeChar)).words.flatMap Sha256.hexWord)

@[simp] theorem sha256Hex_length (text : String) : (sha256Hex text).length = 64 := by
  simp [sha256Hex, Sha256.State.words, Sha256.hexWord_length]

theorem length_toList_sha256Hex (text : String) : (sha256Hex text).toList.length = 64 := by
  rw [String.length_toList, sha256Hex_length]

theorem sha256Hex_hexDigits (text : String) :
    ∀ c ∈ (sha256Hex text).toList, c ∈ Sha256.hexDigits := by
  intro c hc
  simp only [sha256Hex, String.toList_ofList, List.mem_flatMap] at hc
  obtain ⟨w, -, hw⟩ := hc
  exact Sha256.mem_hexWord hw

theorem sha256Hex_ne_empty (text : String) : sha256Hex text ≠ "" := by
  intro h
  have := sha256Hex_length text
  rw [h] at this
  exact absurd this (by decide)

/-- No two different strings of `hashed` have the same digest. -/
def CollisionFree (hashed : List String) : Prop :=
  ∀ s ∈ hashed, ∀ t ∈ hashed, sha256Hex s = sha256Hex t → s = t

instance (hashed : List String) : Decidable (CollisionFree hashed) :=
  inferInstanceAs (Decidable (∀ s ∈ hashed, ∀ t ∈ hashed, sha256Hex s = sha256Hex t → s = t))

theorem collisionFree_of_pair {s t : String} (hne : sha256Hex s ≠ sha256Hex t)
    {hashed : List String} (h : ∀ u ∈ hashed, u = s ∨ u = t) : CollisionFree hashed := by
  intro u hu v hv heq
  rcases h u hu with rfl | rfl <;> rcases h v hv with rfl | rfl
  · rfl
  · exact absurd heq hne
  · exact absurd heq.symm hne
  · rfl

/-- The standard test vectors of one and of two blocks. -/
example : sha256Hex "abc" =
    "ba7816bf8f01cfea414140de5dae2223b00361a396177a9cb410ff61f20015ad" := by
  decide +kernel

example : sha256Hex "abcdbcdecdefdefgefghfghighijhijkijkljklmklmnlmnomnopnopq" =
    "248d6a61d20638b8e5c026930c3e6039a33ce45964ff2167f6ecedd419db06c1" := by
  decide +kernel

end VibeAudit.Foundation
