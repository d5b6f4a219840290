/-
The random generator, the cipher and the texts (`utility.cpp`).

`RAND_bytes` is the next element of the world's stream, cut to the width of the buffer it fills. AES itself and its key
schedules are OpenSSL's and stay parameters (`Crypto`); what is used of them is `Crypto.Lawful`: on a 16-byte block,
`AES_decrypt` under the decryption schedule undoes `AES_encrypt` under the encryption schedule. The modes of operation
are the standard ones of `Lib.BlockModes`.

`decrypt_encrypt`: in every mode, for a key of 32 bytes and an IV of 16, decryption returns the input of encryption.
-/
import PathOram.Definitions
import PathOram.Lib.BlockModes
import Mathlib.Data.List.DropRight

namespace PathOram

open Lib

/-! ## Random numbers -/

section Random

variable {σ : Type}

/-- the next element of the random stream -/
def randBytes : Run σ ℕ := Prog.world fun w => (w.rand 0, { w with rand := fun n => w.rand (n + 1) })

def getRandomBlock (blockSize : ℕ) : Run σ {b : Bytes // b.length = blockSize} := do
  let material ← randBytes
  return ⟨leBytes blockSize material, length_leBytes _ _⟩

def getRandomULong (max : ℕ) : Run σ ℕ := do
  let material ← randBytes
  return material % 2 ^ 64 % max

def getRandomUInt (max : ℕ) : Run σ ℕ := do
  let material ← randBytes
  return material % 2 ^ 32 % max

variable {P : σ → Prop} {E : Exception → σ → Prop}

theorem randBytes_triple : Triple P (randBytes : Run σ ℕ) (fun _ => P) E := Triple.world fun _ _ hs => hs

theorem getRandomBlock_triple (n : ℕ) : Triple P (getRandomBlock n : Run σ _) (fun _ => P) E :=
  randBytes_triple.bind fun _ => Triple.pure fun _ hs => hs

theorem getRandomULong_triple {max : ℕ} (h : 0 < max) :
    Triple P (getRandomULong max : Run σ ℕ) (fun n s => n < max ∧ P s) E :=
  randBytes_triple.bind fun _ => Triple.pure fun _ hs => ⟨Nat.mod_lt _ h, hs⟩

theorem getRandomUInt_triple (max : ℕ) : Triple P (getRandomUInt max : Run σ ℕ) (fun _ => P) E :=
  randBytes_triple.bind fun _ => Triple.pure fun _ hs => hs

/-- the Fisher-Yates loop of `InMemoryStashAdapter::getAll` and `ORAM::load`; the length is an `uint` -/
def shuffle {α : Type} (l : List α) : Run σ (List α) :=
  let n := l.length % 2 ^ 32
  if 2 ≤ n then
    (List.range (n - 1)).foldlM (fun l i => do
      let j ← getRandomUInt (n - i)
      return swapAt l i (i + j)) l
  else return l

theorem shuffle_triple {α : Type} (l : List α) :
    Triple P (shuffle l : Run σ (List α)) (fun l' s => l'.Perm l ∧ P s) E := by
  refine Triple.ite (fun _ => ?_) (fun _ => Triple.pure fun _ hs => ⟨List.Perm.refl l, hs⟩)
  refine (Triple.foldlM (fun _ l' s => l'.Perm l ∧ P s) (fun l' i _ _ => ?_) l).pre fun _ hs => ⟨List.Perm.refl l, hs⟩
  exact (getRandomUInt_triple _).bind fun _ => Triple.pure fun _ hs => ⟨(swapAt_perm l' _ _).trans hs.1, hs.2⟩

end Random

/-! ## The cipher -/

inductive EncryptionMode where
  | encrypt
  | decrypt
deriving DecidableEq, Repr

inductive BlockCipherMode where
  | cbc
  | ctr
  | none
deriving DecidableEq, Repr

/-- the global cipher mode and OpenSSL's AES: the key schedules and the cipher on one block under a schedule -/
structure Crypto where
  blockCipherMode : BlockCipherMode
  setEncryptKey : Bytes → Bytes
  setDecryptKey : Bytes → Bytes
  aesEncrypt : Bytes → Bytes → Bytes
  aesDecrypt : Bytes → Bytes → Bytes

/-- AES decryption undoes encryption, block by block -/
structure Crypto.Lawful (c : Crypto) : Prop where
  length_aesEncrypt : ∀ key b : Bytes, key.length = keySize → b.length = aesBlockSize →
    (c.aesEncrypt (c.setEncryptKey key) b).length = aesBlockSize
  aesDecrypt_aesEncrypt : ∀ key b : Bytes, key.length = keySize → b.length = aesBlockSize →
    c.aesDecrypt (c.setDecryptKey key) (c.aesEncrypt (c.setEncryptKey key) b) = b

/-- `encrypt`: the result is appended to the output vector -/
def encrypt (c : Crypto) (key iv input output : Bytes) (mode : EncryptionMode) : Except Exception Bytes :=
  let size := input.length
  if key.length ≠ keySize then .error (.keyLength key.length)
  else if size = 0 ∨ size % aesBlockSize ≠ 0 then .error (.inputLength size)
  else if iv.length ≠ aesBlockSize then .error (.ivLength iv.length)
  else
    match c.blockCipherMode, mode with
    | .none, _ => .ok (output ++ input)
    | .cbc, .encrypt =>
      .ok (output ++ cbcEncrypt (c.aesEncrypt (c.setEncryptKey key)) aesBlockSize (size / aesBlockSize) iv input)
    | .cbc, .decrypt =>
      .ok (output ++ cbcDecrypt (c.aesDecrypt (c.setDecryptKey key)) aesBlockSize (size / aesBlockSize) iv input)
    -- CTR always does encryption only
    | .ctr, _ => .ok (output ++ ctrCrypt (c.aesEncrypt (c.setEncryptKey key)) (size / aesBlockSize) iv input)

/-- what `encrypt` throws: one of its three checks failed -/
theorem encrypt_error {c : Crypto} {key iv input output : Bytes} {mode : EncryptionMode} {e : Exception}
    (h : encrypt c key iv input output mode = .error e) :
    key.length ≠ keySize ∧ e = .keyLength key.length ∨
      (input.length = 0 ∨ input.length % aesBlockSize ≠ 0) ∧ e = .inputLength input.length ∨
      iv.length ≠ aesBlockSize ∧ e = .ivLength iv.length := by
  unfold encrypt at h
  dsimp only at h
  split_ifs at h with hkey hinput hiv
  · cases h
    exact Or.inl ⟨hkey, rfl⟩
  · cases h
    exact Or.inr (Or.inl ⟨hinput, rfl⟩)
  · cases h
    exact Or.inr (Or.inr ⟨hiv, rfl⟩)
  · split at h <;> cases h

/-- **The cipher round trip.** On an input of whole AES blocks encryption succeeds, keeps the length, and decryption
returns the input. -/
theorem decrypt_encrypt {c : Crypto} (hc : c.Lawful) {key iv input : Bytes} (hkey : key.length = keySize)
    (hiv : iv.length = aesBlockSize) (hpos : input.length ≠ 0) (hmul : input.length % aesBlockSize = 0) (output : Bytes) :
    ∃ cipher, encrypt c key iv input output .encrypt = .ok (output ++ cipher) ∧ cipher.length = input.length ∧
      encrypt c key iv cipher [] .decrypt = .ok input := by
  have hblocks : input.length = input.length / aesBlockSize * aesBlockSize := by
    rw [Nat.div_mul_cancel (Nat.dvd_of_mod_eq_zero hmul)]
  have hlen := fun b => hc.length_aesEncrypt key b hkey
  have hdec := fun b => hc.aesDecrypt_aesEncrypt key b hkey
  have hchecks : ¬ (input.length = 0 ∨ input.length % aesBlockSize ≠ 0) := by simp [hmul, hpos]
  cases hm : c.blockCipherMode with
  | none =>
    exact ⟨input, by simp [encrypt, hm, hkey, hiv, hmul, hpos], rfl, by simp [encrypt, hm, hkey, hiv, hmul, hpos]⟩
  | cbc =>
    have hcl := length_cbcEncrypt hlen _ iv input hiv hblocks
    rw [← hblocks] at hcl
    refine ⟨cbcEncrypt (c.aesEncrypt (c.setEncryptKey key)) aesBlockSize (input.length / aesBlockSize) iv input,
      by simp [encrypt, hm, hkey, hiv, hmul, hpos], hcl, ?_⟩
    simp only [encrypt, hm, hkey, hiv, hcl, ne_eq, not_true_eq_false, if_false, if_neg hchecks, List.nil_append]
    rw [cbcDecrypt_cbcEncrypt hlen hdec _ iv input hiv hblocks]
  | ctr =>
    have hcl := length_ctrCrypt hlen _ iv input hiv hblocks
    rw [← hblocks] at hcl
    refine ⟨ctrCrypt (c.aesEncrypt (c.setEncryptKey key)) (input.length / aesBlockSize) iv input,
      by simp [encrypt, hm, hkey, hiv, hmul, hpos], hcl, ?_⟩
    simp only [encrypt, hm, hkey, hiv, hcl, ne_eq, not_true_eq_false, if_false, if_neg hchecks, List.nil_append]
    rw [ctrCrypt_ctrCrypt hlen _ iv input hiv hblocks]

/-! ## Texts -/

/-- the characters that `boost::algorithm::trim_right` takes for spaces -/
def isSpace (c : UInt8) : Bool := c == 32 || (9 ≤ c && c ≤ 13)

def trimRight (text : Bytes) : Bytes := text.rdropWhile isSpace

/-- the string that a buffer of characters holds: it ends at the first NUL -/
def cString (buffer : Bytes) : Bytes := buffer.takeWhile (· ≠ 0)

/-- `fromText`: the text is padded with spaces to a width, which is an `int`, and a newline follows -/
def fromText (text : Bytes) (blockSize : ℕ) : Bytes :=
  let width := toInt (sub64 blockSize 1)
  text ++ List.replicate (width.toNat - text.length) 32 ++ [10]

/-- `toText`. The data are copied into a buffer of the size of a block, of which the last character is overwritten. -/
def toText (data : Bytes) (blockSize : ℕ) : Except Exception Bytes :=
  if blockSize < data.length ∨ blockSize = 0 then .error .writePastEnd
  else
    let buffer := patch (List.replicate blockSize 0) 0 data
    .ok (trimRight (cString (patch buffer (blockSize - 1) [0])))

end PathOram
