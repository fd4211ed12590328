import DeployClient.Proofs.TarNumbers
import DeployClient.Tar.Reader

/-!
Blocks of a tar stream.

A header is a row of fields of fixed width, so each of them is found at its place again. A
stream of raw entries is cut at the same places where it was put together, because every
entry takes whole blocks and none of its headers is a block of zeros.
-/

namespace DeployClient.Tar

lemma length_padTo {width : Nat} {b : Bytes} (h : b.length ≤ width) :
    (padTo width b).length = width := by
  simp only [padTo, List.length_append, List.length_replicate]
  omega

namespace Header

/-! ### Fields at their places -/

variable {start width w : Nat} {a b : Bytes}

lemma slice_left (h : a.length = width) : slice 0 width (a ++ b) = a := by
  subst h
  simp [slice]

lemma slice_right (h : a.length = w) (hw : w ≤ start) :
    slice start width (a ++ b) = slice (start - w) width b := by
  subst h
  simp [slice, List.drop_append, List.drop_eq_nil_of_le hw]

lemma textField_padTo (width : Nat) (b : Bytes) : textField (padTo width b) = textField b := by
  rw [textField, textField, padTo, List.takeWhile_append]
  split
  · next h =>
    rw [List.takeWhile_replicate]
    simp only [ne_eq, not_true_eq_false, decide_false, Bool.false_eq_true, if_false,
      List.append_nil]
    exact ((List.takeWhile_prefix _).eq_of_length h).symm
  · rfl

lemma textField_eq_self {b : Bytes} (h : 0 ∉ b) : textField b = b := by
  have hall : ∀ x ∈ b, (decide (x ≠ 0)) = true := by
    intro x hx
    simp only [decide_eq_true_eq]
    rintro rfl
    exact h hx
  have hcut := @List.takeWhile_append_of_pos _ _ b [] hall
  simpa [textField] using hcut

/-- The values of the fields can be written in their widths. -/
structure Fits (h : Header) : Prop where
  name : h.name.length ≤ nameWidth
  mode : h.mode < 8 ^ 7
  size : h.size < 2 ^ 64
  mtime : h.mtime < 2 ^ 64
  link : h.link.length ≤ nameWidth

lemma length_magic : magic.length = 8 := by decide

lemma length_octal8 (n : Nat) : (octalField 8 n).length = 8 := length_octalField (by decide)

lemma length_number8 (n : Nat) : (numberField 8 n).length = 8 := length_numberField (by decide) n

lemma length_number12 (n : Nat) : (numberField 12 n).length = 12 :=
  length_numberField (by decide) n

lemma readNumber_id (id : UInt32) : readNumber (numberField 8 id.toNat) = id.toNat :=
  readNumber_numberField (by decide) (Nat.lt_trans id.toNat_lt (by decide))

lemma readNumber_of_lt {n : Nat} (h : n < 2 ^ 64) : readNumber (numberField 12 n) = n :=
  readNumber_numberField (by decide) (Nat.lt_trans h (by decide))

variable {h : Header}

lemma length_beforeChecksum (hf : h.Fits) : h.beforeChecksum.length = 148 := by
  simp only [beforeChecksum, List.length_append, length_padTo hf.name, length_octal8,
    length_number8, length_number12]
  rfl

lemma length_afterChecksum (hf : h.Fits) : h.afterChecksum.length = 356 := by
  simp only [afterChecksum, List.length_cons, List.length_append, length_padTo hf.link,
    length_magic, List.length_replicate]
  rfl

lemma length_encode (hf : h.Fits) : h.encode.length = blockSize := by
  simp only [encode, List.length_append, length_beforeChecksum hf, length_octal8,
    length_afterChecksum hf]
  rfl

/-- **A header reads back**, but for what its two text fields hold from a NUL on. -/
theorem decode_encode (hf : h.Fits) :
    decode h.encode = { h with name := textField h.name, link := textField h.link } := by
  have hbefore := length_beforeChecksum hf
  have hname := length_padTo hf.name
  have hlink := length_padTo hf.link
  -- the fields before the sum
  have sname : slice 0 nameWidth h.encode = padTo nameWidth h.name := by
    simp only [encode, beforeChecksum, List.append_assoc]
    exact slice_left hname
  have smode : slice 100 8 h.encode = octalField 8 h.mode := by
    simp only [encode, beforeChecksum, List.append_assoc]
    rw [slice_right hname (by decide)]
    exact slice_left (length_octal8 _)
  have suser : slice 108 8 h.encode = numberField 8 h.owner.user.toNat := by
    simp only [encode, beforeChecksum, List.append_assoc]
    rw [slice_right hname (by decide), slice_right (length_octal8 _) (by decide)]
    exact slice_left (length_number8 _)
  have sgroup : slice 116 8 h.encode = numberField 8 h.owner.group.toNat := by
    simp only [encode, beforeChecksum, List.append_assoc]
    rw [slice_right hname (by decide), slice_right (length_octal8 _) (by decide),
      slice_right (length_number8 _) (by decide)]
    exact slice_left (length_number8 _)
  have ssize : slice 124 12 h.encode = numberField 12 h.size := by
    simp only [encode, beforeChecksum, List.append_assoc]
    rw [slice_right hname (by decide), slice_right (length_octal8 _) (by decide),
      slice_right (length_number8 _) (by decide), slice_right (length_number8 _) (by decide)]
    exact slice_left (length_number12 _)
  have smtime : slice 136 12 h.encode = numberField 12 h.mtime := by
    simp only [encode, beforeChecksum, List.append_assoc]
    rw [slice_right hname (by decide), slice_right (length_octal8 _) (by decide),
      slice_right (length_number8 _) (by decide), slice_right (length_number8 _) (by decide),
      slice_right (length_number12 _) (by decide)]
    exact slice_left (length_number12 _)
  -- the fields after it
  have sflag : slice 156 1 h.encode = [h.flag] := by
    rw [encode, List.append_assoc, slice_right hbefore (by decide),
      slice_right (length_octal8 _) (by decide), afterChecksum, ← List.singleton_append]
    exact slice_left rfl
  have slink : slice 157 nameWidth h.encode = padTo nameWidth h.link := by
    rw [encode, List.append_assoc, slice_right hbefore (by decide),
      slice_right (length_octal8 _) (by decide), afterChecksum, ← List.singleton_append,
      slice_right (w := 1) rfl (by decide), List.append_assoc]
    exact slice_left hlink
  have hmode : readOctal (octalField 8 h.mode) = h.mode :=
    readOctal_octalField (by simpa using hf.mode)
  simp only [decode, mtimeField, sname, smode, suser, sgroup, ssize, smtime, sflag, slink,
    textField_padTo, hmode, readNumber_id, UInt32.ofNat_toNat, readNumber_of_lt hf.size,
    readNumber_of_lt hf.mtime, List.headD_cons]

/-- A header is no block of zeros, since its magic is not. -/
lemma not_isZero_encode (h : Header) : isZero h.encode = false := by
  rw [isZero, List.all_eq_false]
  refine ⟨117, ?_, by decide⟩
  have h117 : (117 : UInt8) ∈ magic := by decide
  simp only [encode, afterChecksum, List.mem_append, List.mem_cons]
  exact .inr (.inr (.inl (.inr h117)))

lemma foldl_byteSum (b : Bytes) (n : Nat) :
    b.foldl (fun (n : Nat) (d : UInt8) => n + d.toNat) n ≤ n + 255 * b.length := by
  induction b generalizing n with
  | nil => simp
  | cons d b ih =>
    have hd : d.toNat < 256 := d.toNat_lt
    have hrest := ih (n + d.toNat)
    rw [List.foldl_cons, List.length_cons]
    omega

/-- A header carries the sum of its bytes, which seven digits can write. -/
lemma hasChecksum_encode (hf : h.Fits) : hasChecksum h.encode = true := by
  have hbefore := length_beforeChecksum hf
  have hsum : slice 148 8 h.encode = octalField 8 h.checksum := by
    rw [encode, List.append_assoc, slice_right hbefore (by decide)]
    exact slice_left (length_octal8 _)
  have hle : h.checksum ≤ 0 + 255 * 512 := by
    refine (foldl_byteSum _ 0).trans (Nat.add_le_add_left (Nat.mul_le_mul_left _ ?_) 0)
    simp only [List.length_append, hbefore, List.length_replicate, length_afterChecksum hf]
    decide
  have hlt : h.checksum < 8 ^ (8 - 1) := lt_of_le_of_lt hle (by decide)
  have htake : h.encode.take 148 = h.beforeChecksum := by
    rw [encode, List.append_assoc, ← hbefore, List.take_left]
  have hdrop : h.encode.drop 156 = h.afterChecksum := by
    have hlen : (h.beforeChecksum ++ octalField 8 h.checksum).length = 156 := by
      rw [List.length_append, hbefore, length_octal8]
    rw [encode, ← hlen, List.drop_left]
  rw [hasChecksum, hsum, readOctal_octalField hlt, htake, hdrop, decide_eq_true_eq, checksum]

end Header

/-! ### Cutting a stream into entries -/

lemma length_padded (data : Bytes) :
    (padded data).length = (data.length + blockSize - 1) / blockSize * blockSize := by
  simp only [padded, List.length_append, List.length_replicate, blockSize]
  omega

lemma take_padded (data rest : Bytes) : (padded data ++ rest).take data.length = data := by
  simp [padded]

lemma drop_padded (data rest : Bytes) :
    (padded data ++ rest).drop ((data.length + blockSize - 1) / blockSize * blockSize) = rest := by
  rw [← length_padded, List.drop_left]

namespace RawEntry

def encode (e : RawEntry) : Bytes := e.block ++ padded e.data

/-- A header in front of as much data as it announces. -/
structure Sound (e : RawEntry) : Prop where
  length : e.block.length = blockSize
  nonzero : isZero e.block = false
  checksum : Header.hasChecksum e.block = true
  size : e.header.size = e.data.length

lemma sound_of_fits {h : Header} (hf : h.Fits) {data : Bytes} (hs : h.size = data.length) :
    Sound ⟨h.encode, data⟩ :=
  ⟨Header.length_encode hf, Header.not_isZero_encode h, Header.hasChecksum_encode hf, by
    simp only [header, Header.decode_encode hf, hs]⟩

end RawEntry

lemma cutEntries_endBlocks (n : Nat) : cutEntries (n + 1) endBlocks = some ([], []) := by
  have hmin : min blockSize (2 * blockSize) = blockSize := by decide
  have hsub : 2 * blockSize - blockSize = blockSize := by decide
  have hzero : isZero (List.replicate blockSize 0) = true := by
    simp only [isZero, List.all_replicate]
    decide
  simp only [cutEntries, endBlocks, List.take_replicate, List.drop_replicate, hmin, hsub,
    List.length_replicate, Nat.lt_irrefl, if_false, hzero, Nat.min_self, Nat.sub_self, and_self,
    if_true, List.replicate_zero]

lemma cutEntries_cons (n : Nat) {e : RawEntry} (he : e.Sound) (rest : Bytes) :
    cutEntries (n + 1) (e.encode ++ rest)
      = (cutEntries n rest).map fun r => (e :: r.1, r.2) := by
  have htake : (e.encode ++ rest).take blockSize = e.block := by
    rw [RawEntry.encode, List.append_assoc, ← he.length, List.take_left]
  have hdrop : (e.encode ++ rest).drop blockSize = padded e.data ++ rest := by
    rw [RawEntry.encode, List.append_assoc, ← he.length, List.drop_left]
  have hsize : (Header.decode e.block).size = e.data.length := he.size
  simp only [cutEntries, htake, hdrop, he.length, he.nonzero, he.checksum, hsize, take_padded,
    drop_padded, Nat.lt_irrefl, if_false, Bool.false_eq_true, Bool.not_true]
  rcases cutEntries n rest with _ | ⟨es, left⟩ <;> rfl

lemma cutEntries_flatMap {es : List RawEntry} (hs : ∀ e ∈ es, e.Sound) {n : Nat}
    (hn : es.length < n) :
    cutEntries n (es.flatMap RawEntry.encode ++ endBlocks) = some (es, []) := by
  induction es generalizing n with
  | nil =>
    obtain ⟨k, rfl⟩ : ∃ k, n = k + 1 := ⟨n - 1, by simp at hn; omega⟩
    rw [List.flatMap_nil, List.nil_append, cutEntries_endBlocks]
  | cons e es ih =>
    obtain ⟨k, rfl⟩ : ∃ k, n = k + 1 := ⟨n - 1, by omega⟩
    have hrest : cutEntries k (es.flatMap RawEntry.encode ++ endBlocks) = some (es, []) :=
      ih (fun e he => hs e (List.mem_cons_of_mem _ he)) (by simpa using hn)
    rw [List.flatMap_cons, List.append_assoc, cutEntries_cons k (hs e List.mem_cons_self), hrest]
    rfl

lemma length_le_length_flatMap {es : List RawEntry} (hs : ∀ e ∈ es, e.Sound) :
    es.length * blockSize ≤ (es.flatMap RawEntry.encode).length := by
  induction es with
  | nil => simp
  | cons e es ih =>
    have hrest := ih fun e he => hs e (List.mem_cons_of_mem _ he)
    have hlen : blockSize ≤ e.encode.length := by
      rw [RawEntry.encode, List.length_append, (hs e List.mem_cons_self).length]
      exact Nat.le_add_right _ _
    rw [List.flatMap_cons, List.length_append, List.length_cons, Nat.succ_mul]
    omega

/-- **A stream of entries is cut where it was put together**, and nothing is left over. -/
theorem rawEntries?_flatMap {es : List RawEntry} (hs : ∀ e ∈ es, e.Sound) :
    rawEntries? (es.flatMap RawEntry.encode ++ endBlocks) = some es := by
  have hfuel : es.length
      < (es.flatMap RawEntry.encode ++ endBlocks).length / blockSize + 1 := by
    have hle := length_le_length_flatMap hs
    rw [List.length_append, Nat.lt_succ_iff, Nat.le_div_iff_mul_le (by decide)]
    omega
  rw [rawEntries?, cutEntries_flatMap hs hfuel]

end DeployClient.Tar
