/-
Bytes: little-endian numbers, zero padding, and memory that is read and written at offsets.
-/
import Mathlib.Tactic

namespace PathOram.Lib

/-- the n low-order bytes of a number, least significant first -/
def leBytes : ℕ → ℕ → List UInt8
  | 0, _ => []
  | n + 1, x => UInt8.ofNat x :: leBytes n (x / 256)

/-- the number that bytes stand for, least significant first -/
def leNumber : List UInt8 → ℕ
  | [] => 0
  | b :: l => b.toNat + 256 * leNumber l

@[simp] theorem length_leBytes (n x : ℕ) : (leBytes n x).length = n := by
  induction n generalizing x with
  | zero => rfl
  | succ n ih => simp [leBytes, ih]

theorem leNumber_leBytes (n x : ℕ) : leNumber (leBytes n x) = x % 256 ^ n := by
  induction n generalizing x with
  | zero => simp [leBytes, leNumber, Nat.mod_one]
  | succ n ih =>
    have hb : (UInt8.ofNat x).toNat = x % 256 := rfl
    rw [leBytes, leNumber, ih, hb, pow_succ', Nat.mod_mul]

theorem leNumber_lt (l : List UInt8) : leNumber l < 256 ^ l.length := by
  induction l with
  | nil => simp [leNumber]
  | cons b l ih =>
    have hb := b.toNat_lt
    rw [leNumber, List.length_cons, pow_succ']
    omega

/-- d is p with zero bytes on the right -/
def ZeroPadded (p d : List UInt8) : Prop := ∃ k, d = p ++ List.replicate k 0

theorem ZeroPadded.refl (p : List UInt8) : ZeroPadded p p := ⟨0, by simp⟩

theorem ZeroPadded.trans {p d e : List UInt8} (h : ZeroPadded p d) (h' : ZeroPadded d e) : ZeroPadded p e := by
  obtain ⟨k, rfl⟩ := h
  obtain ⟨k', rfl⟩ := h'
  exact ⟨k + k', by rw [List.append_assoc, List.replicate_append_replicate]⟩

/-- extend bytes to a length with zeros -/
def zeroPad (n : ℕ) (d : List UInt8) : List UInt8 := d ++ List.replicate (n - d.length) 0

theorem zeroPadded_zeroPad (n : ℕ) (d : List UInt8) : ZeroPadded d (zeroPad n d) := ⟨_, rfl⟩

theorem length_zeroPad {n : ℕ} {d : List UInt8} (h : d.length ≤ n) : (zeroPad n d).length = n := by
  simp [zeroPad]; omega

theorem zeroPad_of_length {n : ℕ} {d : List UInt8} (h : d.length = n) : zeroPad n d = d := by
  simp [zeroPad, h]

/-- padding again changes nothing -/
theorem zeroPad_zeroPad (n : ℕ) (d : List UInt8) : zeroPad n (zeroPad n d) = zeroPad n d := by
  have hlen : n - (zeroPad n d).length = 0 := by
    rw [zeroPad, List.length_append, List.length_replicate]
    omega
  rw [zeroPad, hlen, List.replicate_zero, List.append_nil]

/-! ## Memory -/

section Memory

variable {α : Type}

/-- the n elements from an offset on -/
def slice (l : List α) (offset n : ℕ) : List α := (l.drop offset).take n

/-- write over the elements from an offset on, and not past the end -/
def patch (l : List α) (offset : ℕ) (d : List α) : List α :=
  (l.take offset ++ (d ++ l.drop (offset + d.length))).take l.length

@[simp] theorem length_patch (l : List α) (offset : ℕ) (d : List α) : (patch l offset d).length = l.length := by
  simp only [patch, List.length_take, List.length_append, List.length_drop]
  omega

theorem slice_take {l : List α} {offset n k : ℕ} (h : offset + n ≤ k) : slice (l.take k) offset n = slice l offset n := by
  rw [slice, slice, List.drop_take, List.take_take, Nat.min_eq_left (by omega)]

theorem length_slice {l : List α} {offset n : ℕ} (h : offset + n ≤ l.length) : (slice l offset n).length = n := by
  simp only [slice, List.length_take, List.length_drop]
  omega

theorem patch_of_le {l : List α} {offset : ℕ} {d : List α} (h : offset + d.length ≤ l.length) :
    patch l offset d = l.take offset ++ (d ++ l.drop (offset + d.length)) := by
  refine List.take_of_length_le ?_
  simp only [List.length_append, List.length_take, List.length_drop]
  omega

/-- what was written is read back -/
theorem slice_patch {l : List α} {offset : ℕ} {d : List α} (h : offset + d.length ≤ l.length) :
    slice (patch l offset d) offset d.length = d := by
  have hlen : (l.take offset).length = offset := List.length_take_of_le (by omega)
  rw [patch_of_le h, slice, List.drop_left' hlen, List.take_left]

/-- what is before or after is as it was -/
theorem slice_patch_of_disjoint {l : List α} {offset offset' n : ℕ} {d : List α} (h : offset + d.length ≤ l.length)
    (hd : offset' + n ≤ offset ∨ offset + d.length ≤ offset') : slice (patch l offset d) offset' n = slice l offset' n := by
  have hlen : (l.take offset).length = offset := List.length_take_of_le (by omega)
  apply List.ext_getElem?
  intro i
  rw [patch_of_le h, slice, slice, List.getElem?_take, List.getElem?_take]
  split_ifs with hi
  · rw [List.getElem?_drop, List.getElem?_drop]
    rcases hd with hd | hd
    · rw [List.getElem?_append_left (by omega), List.getElem?_take_of_lt (by omega)]
    · rw [List.getElem?_append_right (by omega), List.getElem?_append_right (by omega), List.getElem?_drop, hlen]
      congr 1
      omega
  · rfl

theorem patch_append {front back : List α} {offset : ℕ} {d : List α} (ho : offset = front.length)
    (h : d.length ≤ back.length) : patch (front ++ back) offset d = front ++ (d ++ back.drop d.length) := by
  subst ho
  rw [patch_of_le (by rw [List.length_append]; omega), List.take_left, ← List.drop_drop, List.drop_left]

theorem patch_zero {l d : List α} (h : d.length = l.length) : patch l 0 d = d := by
  rw [patch_of_le (by omega), List.take_zero, List.nil_append, Nat.zero_add, h, List.drop_length, List.append_nil]

theorem patch_zeros {n : ℕ} {d : List UInt8} (h : d.length ≤ n) : patch (List.replicate n 0) 0 d = zeroPad n d := by
  rw [patch_of_le (by simpa using h), List.take_zero, List.nil_append, Nat.zero_add, List.drop_replicate, zeroPad]

theorem patch_last {l : List α} {a : α} (h : 0 < l.length) : patch l (l.length - 1) [a] = l.take (l.length - 1) ++ [a] := by
  have hlen : l.length - 1 + [a].length = l.length := by
    rw [List.length_singleton]
    omega
  rw [patch_of_le hlen.le, hlen, List.drop_length, List.append_nil]

theorem slice_slice {l : List α} {offset n offset' n' : ℕ} (h : offset' + n' ≤ n) :
    slice (slice l offset n) offset' n' = slice l (offset + offset') n' := by
  rw [slice, slice, slice, List.drop_take, List.take_take, List.drop_drop, Nat.min_eq_left (by omega)]

/-! ## Arrays of records -/

theorem drop_flatten {n : ℕ} {chunks : List (List α)} (h : ∀ c ∈ chunks, c.length = n) (i : ℕ) :
    chunks.flatten.drop (i * n) = (chunks.drop i).flatten := by
  induction i generalizing chunks with
  | zero => simp
  | succ i ih =>
    cases chunks with
    | nil => simp
    | cons c chunks =>
      have hc : c.length = n := h c List.mem_cons_self
      rw [Nat.succ_mul, Nat.add_comm, ← List.drop_drop, List.flatten_cons, List.drop_left' hc,
        ih fun c hc => h c (List.mem_cons_of_mem _ hc), List.drop_succ_cons]

theorem length_flatten {n : ℕ} {chunks : List (List α)} (h : ∀ c ∈ chunks, c.length = n) :
    chunks.flatten.length = chunks.length * n := by
  induction chunks with
  | nil => simp
  | cons c chunks ih =>
    rw [List.flatten_cons, List.length_append, h c List.mem_cons_self, ih fun c hc => h c (List.mem_cons_of_mem _ hc),
      List.length_cons, Nat.succ_mul, Nat.add_comm]

/-- the i-th record, by its offset -/
theorem slice_flatMap {γ : Type} {f : γ → List α} {n : ℕ} {l : List γ} (h : ∀ c ∈ l, (f c).length = n) {i : ℕ}
    (hi : i < l.length) : slice (l.flatMap f) (i * n) n = f l[i] := by
  have hlen : ∀ c ∈ l.map f, c.length = n := by
    intro c hc
    obtain ⟨a, ha, rfl⟩ := List.mem_map.1 hc
    exact h a ha
  rw [slice, List.flatMap_def, drop_flatten hlen, List.drop_eq_getElem_cons (by simpa using hi), List.flatten_cons,
    List.take_left' (hlen _ (List.getElem_mem _)), List.getElem_map]

end Memory

end PathOram.Lib
