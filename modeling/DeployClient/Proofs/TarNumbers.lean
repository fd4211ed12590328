import DeployClient.Tar.Header
import Mathlib.Tactic.Lemma
import Mathlib.Tactic.Ring

/-!
The numbers of a tar header read back.

Digits are written from the last one to the first, so a reading that starts with any number
shifts it by as many places as there are digits. An octal field is cut at its final NUL; a
field in base 256 is told by its first byte, which no digit can be.
-/

namespace DeployClient.Tar

/-! ### Octal digits -/

@[simp] lemma length_octalDigits (width n : Nat) : (octalDigits width n).length = width := by
  induction width generalizing n with
  | zero => rfl
  | succ width ih => simp [octalDigits, ih]

lemma toNat_octalDigit (n : Nat) : (UInt8.ofNat (48 + n % 8)).toNat = 48 + n % 8 := by
  simp only [UInt8.toNat_ofNat']
  omega

lemma isOctal_octalDigit (n : Nat) : isOctal (UInt8.ofNat (48 + n % 8)) = true := by
  have h := toNat_octalDigit n
  simp only [isOctal, Bool.and_eq_true, decide_eq_true_eq, UInt8.le_iff_toNat_le, h]
  have hlt := Nat.mod_lt n (by decide : 0 < 8)
  exact ⟨Nat.le_add_right 48 _, Nat.add_le_add_left (Nat.le_of_lt_succ hlt) 48⟩

lemma isOctal_of_mem_octalDigits {width n : Nat} {b : UInt8} (h : b ∈ octalDigits width n) :
    isOctal b = true := by
  induction width generalizing n with
  | zero => simp [octalDigits] at h
  | succ width ih =>
    rcases List.mem_append.mp h with h' | h'
    · exact ih h'
    · rw [List.mem_singleton.mp h']
      exact isOctal_octalDigit n

/-- Reading digits after the number `acc`. -/
lemma foldl_octalDigits (width n acc : Nat) :
    (octalDigits width n).foldl (fun n d => n * 8 + (d.toNat - 48)) acc
      = acc * 8 ^ width + n % 8 ^ width := by
  induction width generalizing n with
  | zero => simp [octalDigits, Nat.mod_one]
  | succ width ih =>
    rw [octalDigits, List.foldl_append, ih, List.foldl_cons, List.foldl_nil, toNat_octalDigit]
    have hsplit : n % 8 ^ (width + 1) = n % 8 + 8 * (n / 8 % 8 ^ width) := by
      rw [pow_succ, Nat.mul_comm, Nat.mod_mul]
    rw [hsplit, Nat.add_sub_cancel_left]
    ring

@[simp] lemma length_octalField {width n : Nat} (h : 0 < width) :
    (octalField width n).length = width := by
  simp only [octalField, List.length_append, length_octalDigits, List.length_singleton]
  omega

lemma readOctal_octalField {width n : Nat} (h : n < 8 ^ (width - 1)) :
    readOctal (octalField width n) = n := by
  have hcut : (octalField width n).takeWhile isOctal = octalDigits (width - 1) n := by
    rw [octalField, List.takeWhile_append_of_pos fun b hb => isOctal_of_mem_octalDigits hb]
    simp [isOctal]
  rw [readOctal, hcut, foldl_octalDigits, Nat.zero_mul, Nat.zero_add, Nat.mod_eq_of_lt h]

/-! ### Base 256 -/

@[simp] lemma length_bigEndian (width n : Nat) : (bigEndian width n).length = width := by
  induction width generalizing n with
  | zero => rfl
  | succ width ih => simp [bigEndian, ih]

lemma foldl_bigEndian (width n acc : Nat) :
    (bigEndian width n).foldl (fun n d => n * 256 + d.toNat) acc
      = acc * 256 ^ width + n % 256 ^ width := by
  induction width generalizing n with
  | zero => simp [bigEndian, Nat.mod_one]
  | succ width ih =>
    rw [bigEndian, List.foldl_append, ih, List.foldl_cons, List.foldl_nil, UInt8.toNat_ofNat']
    have hsplit : n % 256 ^ (width + 1) = n % 256 + 256 * (n / 256 % 256 ^ width) := by
      rw [pow_succ, Nat.mul_comm, Nat.mod_mul]
    rw [hsplit, show 2 ^ 8 = 256 from rfl]
    ring

/-! ### Fields that switch between the two -/

@[simp] lemma length_numberField {width : Nat} (h : 0 < width) (n : Nat) :
    (numberField width n).length = width := by
  unfold numberField
  split
  · exact length_octalField h
  · rw [List.length_cons, length_bigEndian]
    omega

/-- The first byte of an octal field is a digit, so the field is not taken for base 256. -/
lemma readNumber_octalField {width n : Nat} (hw : 1 < width) (h : n < 8 ^ (width - 1)) :
    readNumber (octalField width n) = n := by
  rcases hf : octalField width n with _ | ⟨b, rest⟩
  · have := length_octalField (n := n) (show 0 < width by omega)
    simp [hf] at this
    omega
  · have hb : isOctal b = true := by
      rcases hd : octalDigits (width - 1) n with _ | ⟨d, ds⟩
      · have := length_octalDigits (width - 1) n
        simp [hd] at this
        omega
      · simp only [octalField, hd, List.cons_append, List.cons.injEq] at hf
        rw [← hf.1]
        exact isOctal_of_mem_octalDigits (hd ▸ List.mem_cons_self)
    have hlow : ¬ (0x80 : UInt8) ≤ b := by
      simp only [isOctal, Bool.and_eq_true, decide_eq_true_eq, UInt8.le_iff_toNat_le] at hb ⊢
      have h55 : (55 : UInt8).toNat = 55 := rfl
      have h80 : (0x80 : UInt8).toNat = 128 := rfl
      omega
    rw [readNumber, if_neg hlow, ← hf, readOctal_octalField h]

/-- **Numbers read back**, on both sides of the switch to base 256. -/
theorem readNumber_numberField {width n : Nat} (hw : 1 < width) (h : n < 256 ^ (width - 1)) :
    readNumber (numberField width n) = n := by
  unfold numberField
  split
  · next hsmall => exact readNumber_octalField hw hsmall
  · have hfold := foldl_bigEndian (width - 1) n 0
    rw [Nat.mod_eq_of_lt h, Nat.zero_mul, Nat.zero_add] at hfold
    simpa [readNumber, readBigEndian] using hfold

end DeployClient.Tar
