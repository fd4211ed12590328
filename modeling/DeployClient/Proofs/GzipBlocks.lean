import DeployClient.Gzip
import Mathlib.Tactic.Lemma
import Mathlib.Tactic.Ring

/-!
A gzip file of stored blocks reads back as the data that it was made of.

The data is cut into full blocks and a last one that may be shorter. Each block tells its length
twice, so a reader that takes block after block finds every cut where it was made.
-/

namespace DeployClient.Gzip

/-! ### Numbers -/

@[simp] lemma length_littleEndian (width n : Nat) : (littleEndian width n).length = width := by
  induction width generalizing n with
  | zero => rfl
  | succ width ih => simp [littleEndian, ih]

lemma readLittleEndian_littleEndian {width n : Nat} (h : n < 256 ^ width) :
    readLittleEndian (littleEndian width n) = n := by
  induction width generalizing n with
  | zero =>
    have hn : n = 0 := by simpa using h
    simp [hn, littleEndian, readLittleEndian]
  | succ width ih =>
    have hdiv : n / 256 < 256 ^ width := by
      apply Nat.div_lt_of_lt_mul
      rwa [pow_succ, Nat.mul_comm] at h
    have hrest := ih hdiv
    have hbyte : (UInt8.ofNat n).toNat = n % 256 := by simp
    simp only [readLittleEndian, littleEndian, List.foldr_cons] at hrest ⊢
    rw [hrest, hbyte]
    omega

/-! ### Blocks -/

lemma length_storedBlock (final : Bool) (data : Bytes) :
    (storedBlock final data).length = data.length + 5 := by
  simp only [storedBlock, List.length_cons, List.length_append, length_littleEndian]
  omega

/-- A block is cut off where it ends. -/
lemma readBlocks_cons {final : Bool} {data rest : Bytes} (n : Nat) (h : data.length ≤ maxBlock) :
    readBlocks (n + 1) (storedBlock final data ++ rest)
      = if final then some (data, rest)
        else (readBlocks n rest).map fun p => (data ++ p.1, p.2) := by
  have hlow : data.length < 256 ^ 2 := by
    simp only [maxBlock] at h
    omega
  have hhigh : maxBlock - data.length < 256 ^ 2 := by
    simp only [maxBlock]
    omega
  have hsum : data.length + (maxBlock - data.length) = maxBlock := by omega
  -- the three parts after the flag, each at its place
  have hbody : storedBlock final data ++ rest = (if final then 1 else 0)
      :: (littleEndian 2 data.length ++ (littleEndian 2 (maxBlock - data.length)
        ++ (data ++ rest))) := by
    simp [storedBlock]
  have hcheck : ∀ tail : Bytes,
      (littleEndian 2 (maxBlock - data.length) ++ tail).take 2
        = littleEndian 2 (maxBlock - data.length) := by
    intro tail
    exact List.take_left' (length_littleEndian _ _)
  have hdata : (littleEndian 2 data.length ++ (littleEndian 2 (maxBlock - data.length)
      ++ (data ++ rest))).drop 4 = data ++ rest := by
    rw [← List.append_assoc]
    exact List.drop_left' (by simp)
  rw [hbody]
  simp only [readBlocks]
  rw [List.take_left' (length_littleEndian _ _), List.drop_left' (length_littleEndian _ _),
    hcheck, hdata, readLittleEndian_littleEndian hlow, readLittleEndian_littleEndian hhigh, hsum,
    if_neg (by simp), List.take_left' rfl, List.drop_left' rfl]
  cases final with
  | true => rfl
  | false =>
    simp only [Bool.false_eq_true, if_false]
    rw [if_neg (by decide), if_pos trivial]
    cases readBlocks n rest <;> rfl

/-- As many full blocks as there are, and the last one. -/
lemma readBlocks_storedBlocks {count fuel : Nat} {data : Bytes} (rest : Bytes)
    (hfuel : count < fuel) (h : data.length ≤ (count + 1) * maxBlock) :
    readBlocks fuel (storedBlocks count data ++ rest) = some (data, rest) := by
  induction count generalizing fuel data with
  | zero =>
    obtain ⟨n, rfl⟩ := Nat.exists_eq_add_of_lt hfuel
    rw [Nat.zero_add, storedBlocks, readBlocks_cons _ (by omega)]
    rfl
  | succ count ih =>
    obtain ⟨n, rfl⟩ : ∃ n, fuel = n + 1 := ⟨fuel - 1, by omega⟩
    have hfull : (data.take maxBlock).length ≤ maxBlock := by
      rw [List.length_take]
      omega
    have hleft : (data.drop maxBlock).length ≤ (count + 1) * maxBlock := by
      rw [List.length_drop]
      have hsplit : (count + 1 + 1) * maxBlock = (count + 1) * maxBlock + maxBlock := by ring
      omega
    rw [storedBlocks, List.append_assoc, readBlocks_cons _ hfull, ih (by omega) hleft]
    simp

lemma length_storedBlocks (count : Nat) (data : Bytes) :
    data.length + count < (storedBlocks count data).length := by
  induction count generalizing data with
  | zero =>
    rw [storedBlocks, length_storedBlock]
    omega
  | succ count ih =>
    have hrest := ih (data.drop maxBlock)
    rw [storedBlocks, List.length_append, length_storedBlock, List.length_take]
    rw [List.length_drop] at hrest
    omega

/-! ### Files -/

lemma length_header (l : Level) : (header l).length = 10 := rfl

/-- **The round trip**: a file holds its data, and its checksum is the data's. -/
theorem decode?_encode (l : Level) (data : Bytes) : decode? (encode l data) = some data := by
  have hstart : (encode l data).take 4 = [0x1F, 0x8B, 8, 0] := by simp [encode, header]
  have hblocks : (encode l data).drop 10
      = storedBlocks ((data.length - 1) / maxBlock) data ++ trailer data := by
    rw [encode, List.append_assoc]
    exact List.drop_left' (length_header l)
  have hfuel : (data.length - 1) / maxBlock < (encode l data).length + 1 := by
    have hlength := length_storedBlocks ((data.length - 1) / maxBlock) data
    simp only [encode, List.length_append]
    omega
  have hsize : data.length ≤ ((data.length - 1) / maxBlock + 1) * maxBlock := by
    have hdiv := Nat.lt_div_mul_add (a := data.length - 1) (show 0 < maxBlock by decide)
    rw [Nat.add_mul, Nat.one_mul]
    omega
  rw [decode?, if_neg (by simp [hstart]), hblocks, readBlocks_storedBlocks _ hfuel hsize]
  simp

end DeployClient.Gzip
