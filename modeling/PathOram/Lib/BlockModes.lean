/-
Modes of operation of a block cipher, over any function on blocks of sz bytes: cipher block chaining and counter mode.
`cbcDecrypt_cbcEncrypt` and `ctrCrypt_ctrCrypt` are the round trips.
-/
import PathOram.Lib.Bytes

namespace PathOram.Lib

def xorBytes (a b : List UInt8) : List UInt8 := List.zipWith (fun x y => x ^^^ y) a b

/-- chain n blocks of the input, starting from iv -/
def cbcEncrypt (E : List UInt8 → List UInt8) (sz : ℕ) : ℕ → List UInt8 → List UInt8 → List UInt8
  | 0, _, _ => []
  | n + 1, iv, input =>
    let c := E (xorBytes (input.take sz) iv)
    c ++ cbcEncrypt E sz n c (input.drop sz)

def cbcDecrypt (D : List UInt8 → List UInt8) (sz : ℕ) : ℕ → List UInt8 → List UInt8 → List UInt8
  | 0, _, _ => []
  | n + 1, iv, input => xorBytes (D (input.take sz)) iv ++ cbcDecrypt D sz n (input.take sz) (input.drop sz)

/-- the next value of a big-endian counter -/
def ctrNext (c : List UInt8) : List UInt8 := (leBytes c.length (leNumber c.reverse + 1)).reverse

/-- n blocks of key stream from a counter -/
def ctrStream (E : List UInt8 → List UInt8) : ℕ → List UInt8 → List UInt8
  | 0, _ => []
  | n + 1, c => E c ++ ctrStream E n (ctrNext c)

/-- counter mode encrypts and decrypts alike -/
def ctrCrypt (E : List UInt8 → List UInt8) (n : ℕ) (iv input : List UInt8) : List UInt8 :=
  xorBytes input (ctrStream E n iv)

theorem length_xorBytes {a b : List UInt8} (h : a.length ≤ b.length) : (xorBytes a b).length = a.length := by
  simp [xorBytes, h]

theorem xorBytes_xorBytes {a b : List UInt8} (h : a.length ≤ b.length) : xorBytes (xorBytes a b) b = a := by
  induction a generalizing b with
  | nil => simp [xorBytes]
  | cons x a ih =>
    cases b with
    | nil => simp at h
    | cons y b =>
      simp only [xorBytes, List.zipWith_cons_cons] at ih ⊢
      rw [ih (by simpa using h), UInt8.xor_assoc, UInt8.xor_self, UInt8.xor_zero]

section Cipher

variable {E D : List UInt8 → List UInt8} {sz : ℕ}

theorem length_cbcEncrypt (hE : ∀ b, b.length = sz → (E b).length = sz) (n : ℕ) (iv input : List UInt8)
    (hiv : iv.length = sz) (hin : input.length = n * sz) : (cbcEncrypt E sz n iv input).length = n * sz := by
  induction n generalizing iv input with
  | zero => simp [cbcEncrypt]
  | succ n ih =>
    have htake : (input.take sz).length = sz := by rw [List.length_take, hin, Nat.succ_mul]; omega
    have hc : (E (xorBytes (input.take sz) iv)).length = sz := hE _ (by rw [length_xorBytes (by omega), htake])
    rw [cbcEncrypt, List.length_append, hc, ih _ _ hc (by rw [List.length_drop, hin, Nat.succ_mul]; omega),
      Nat.succ_mul, Nat.add_comm]

theorem cbcDecrypt_cbcEncrypt (hE : ∀ b, b.length = sz → (E b).length = sz) (hD : ∀ b, b.length = sz → D (E b) = b)
    (n : ℕ) (iv input : List UInt8) (hiv : iv.length = sz) (hin : input.length = n * sz) :
    cbcDecrypt D sz n iv (cbcEncrypt E sz n iv input) = input := by
  induction n generalizing iv input with
  | zero => rw [Nat.zero_mul, List.length_eq_zero_iff] at hin; simp [cbcDecrypt, hin]
  | succ n ih =>
    have htake : (input.take sz).length = sz := by rw [List.length_take, hin, Nat.succ_mul]; omega
    have hx : (xorBytes (input.take sz) iv).length = sz := by rw [length_xorBytes (by omega), htake]
    have hc := hE _ hx
    rw [cbcEncrypt, cbcDecrypt, List.take_left' hc, List.drop_left' hc, hD _ hx, xorBytes_xorBytes (by omega),
      ih _ _ hc (by rw [List.length_drop, hin, Nat.succ_mul]; omega), List.take_append_drop]

theorem length_ctrStream (hE : ∀ b, b.length = sz → (E b).length = sz) (n : ℕ) (c : List UInt8) (hc : c.length = sz) :
    (ctrStream E n c).length = n * sz := by
  induction n generalizing c with
  | zero => simp [ctrStream]
  | succ n ih =>
    rw [ctrStream, List.length_append, hE c hc, ih _ (by simp [ctrNext, hc]), Nat.succ_mul, Nat.add_comm]

theorem length_ctrCrypt (hE : ∀ b, b.length = sz → (E b).length = sz) (n : ℕ) (iv input : List UInt8)
    (hiv : iv.length = sz) (hin : input.length = n * sz) : (ctrCrypt E n iv input).length = n * sz := by
  rw [ctrCrypt, length_xorBytes (by rw [length_ctrStream hE n iv hiv, hin]), hin]

theorem ctrCrypt_ctrCrypt (hE : ∀ b, b.length = sz → (E b).length = sz) (n : ℕ) (iv input : List UInt8)
    (hiv : iv.length = sz) (hin : input.length = n * sz) : ctrCrypt E n iv (ctrCrypt E n iv input) = input :=
  xorBytes_xorBytes (by rw [length_ctrStream hE n iv hiv, hin])

end Cipher

end PathOram.Lib
