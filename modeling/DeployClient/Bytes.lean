/-!
Byte strings and the text they spell.

Paths, file contents and network bodies are byte strings. Some of them are text, which
`toText?` reads strictly and `ofText` writes.
-/

namespace DeployClient

abbrev Bytes := List UInt8

namespace Bytes

def slash : UInt8 := 47
def dot : UInt8 := 46
def newline : UInt8 := 10

def ofText (s : String) : Bytes := s.toByteArray.data.toList

/-- The text that the bytes spell, if they are valid UTF-8. -/
def toText? (b : Bytes) : Option String := String.fromUTF8? ⟨b.toArray⟩

@[simp] theorem toText?_ofText (s : String) : toText? (ofText s) = some s := by
  have h : (⟨(ofText s).toArray⟩ : ByteArray) = s.toByteArray := by simp [ofText]
  simp [toText?, h, String.fromUTF8?, String.isValidUTF8, String.fromUTF8]

theorem eq_ofText_of_toText? {b : Bytes} {s : String} (h : toText? b = some s) :
    b = ofText s := by
  simp only [toText?, String.fromUTF8?] at h
  split at h
  · simp only [Option.some.injEq] at h
    subst h
    simp [ofText, String.fromUTF8]
  · simp at h

@[simp] theorem ofText_empty : ofText "" = [] := rfl

@[simp] theorem ofText_append (s t : String) : ofText (s ++ t) = ofText s ++ ofText t := by
  simp [ofText]

theorem ofText_ofList (cs : List Char) :
    ofText (String.ofList cs) = cs.flatMap String.utf8EncodeChar := by
  simp [ofText, List.utf8Encode]

/-! ### Bytes of one character -/

/-- Bytes of characters beyond ASCII are beyond ASCII. -/
theorem le_of_mem_utf8EncodeChar {d : Char} (hd : 128 ≤ d.toNat) :
    ∀ b ∈ String.utf8EncodeChar d, 128 ≤ b.toNat := by
  have hwide : ¬ d.val.toNat ≤ 0x7f := Nat.not_le.mpr hd
  simp only [String.utf8EncodeChar, if_neg hwide]
  repeat' split
  all_goals
    simp only [List.forall_mem_cons, List.not_mem_nil, false_implies, implies_true, and_true,
      UInt8.toNat_ofNat']
    omega

/-- The byte of an ASCII character stands for nothing else. -/
theorem mem_utf8EncodeChar_iff {c d : Char} (h : c.toNat < 128) :
    UInt8.ofNat c.toNat ∈ String.utf8EncodeChar d ↔ d = c := by
  have hbyte : (UInt8.ofNat c.toNat).toNat = c.toNat := by
    rw [UInt8.toNat_ofNat']
    omega
  by_cases hd : d.toNat ≤ 0x7f
  · have hone : String.utf8EncodeChar d = [UInt8.ofNat d.toNat] := if_pos hd
    rw [hone, List.mem_singleton, ← UInt8.toNat_inj, hbyte, UInt8.toNat_ofNat',
      Nat.mod_eq_of_lt (by omega), Char.toNat_inj, eq_comm]
  · refine iff_of_false (fun hmem => ?_) fun hdc => ?_
    · have := le_of_mem_utf8EncodeChar (Nat.not_le.mp hd) _ hmem
      omega
    · rw [hdc] at hd
      omega

theorem mem_ofText_iff {c : Char} {s : String} (h : c.toNat < 128) :
    UInt8.ofNat c.toNat ∈ ofText s ↔ c ∈ s.toList := by
  rw [← String.ofList_toList (s := s), ofText_ofList, String.toList_ofList, List.mem_flatMap]
  constructor
  · rintro ⟨d, hd, hbyte⟩
    exact (mem_utf8EncodeChar_iff h).mp hbyte ▸ hd
  · exact fun hc => ⟨c, hc, (mem_utf8EncodeChar_iff h).mpr rfl⟩

end Bytes

end DeployClient
