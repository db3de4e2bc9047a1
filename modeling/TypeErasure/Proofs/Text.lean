import TypeErasure.Proofs.Cut

/-!
# Texts and their character boundaries

A byte string is a text if it is the UTF-8 encoding of one. Of a text, an offset is a boundary if it
lies between two characters. Both notions are those of strings:
`Bytes.IsText` says that the bytes are those of some string, `Bytes.Boundary` that the offset is a
valid position of it.

* A seam of a text is a boundary (`Seam.boundary`): an ASCII character is one byte, and so it is a
  text of its own.
* What lies between two boundaries is a text (`Bytes.Boundary.isText_slice`).
* A text that is commented out stays a text (`Bytes.IsText.commentOut`), since the blanks that are
  put into it stand behind an ASCII character.
-/

namespace TypeErasure

namespace Bytes

/-- **The bytes encode a text.** -/
def IsText (b : Bytes) : Prop :=
  ∃ s : String, ofString s = b

/-- **The offset lies between two characters** of the text that the bytes encode, or at an end of
it. -/
def Boundary (b : Bytes) (i : Nat) : Prop :=
  ∃ s : String, ofString s = b ∧ (String.Pos.Raw.mk i).IsValid s

theorem isText_ofString (s : String) : (ofString s).IsText :=
  ⟨s, rfl⟩

/-- Texts are what the standard library calls valid. -/
private theorem isText_iff {b : Bytes} : b.IsText ↔ ByteArray.IsValidUTF8 ⟨b⟩ := by
  constructor
  · rintro ⟨s, rfl⟩
    exact s.isValidUTF8
  · intro h
    exact ⟨.ofByteArray ⟨b⟩ h, rfl⟩

/-- A text can be decoded. -/
theorem IsText.decode? {b : Bytes} (h : b.IsText) : ∃ s, b.decode? = some s :=
  ⟨_, dif_pos (isText_iff.mp h)⟩

theorem isText_empty : IsText #[] :=
  isText_iff.mpr ByteArray.isValidUTF8_empty

theorem IsText.append {x y : Bytes} (hx : x.IsText) (hy : y.IsText) : (x ++ y).IsText := by
  obtain ⟨s, rfl⟩ := hx
  obtain ⟨t, rfl⟩ := hy
  exact ⟨s ++ t, ByteArray.data_append⟩

/-- The encoding of an ASCII character is one byte. -/
private theorem utf8EncodeChar_ascii {c : Byte} (h : c.isAscii = true) :
    String.utf8EncodeChar (Char.ofNat c.toNat) = [c] := by
  have hc : c.toNat < 128 := by simpa [Byte.isAscii] using h
  have hval : (Char.ofNat c.toNat).val.toNat = c.toNat := by
    rw [Char.ofNat, dif_pos (.inl (by omega))]
    rfl
  rw [String.utf8EncodeChar]
  simp only [hval]
  rw [if_pos (by omega), UInt8.ofNat_toNat]

/-- A single ASCII character is a text. -/
private theorem isText_singleton {c : Byte} (h : c.isAscii = true) : IsText #[c] := by
  rw [isText_iff]
  refine .intro [Char.ofNat c.toNat] ?_
  rw [List.utf8Encode_singleton, utf8EncodeChar_ascii h]
  rfl

/-! ### Boundaries -/

theorem Boundary.le_size {b : Bytes} {i : Nat} (h : b.Boundary i) : i ≤ b.size := by
  obtain ⟨s, rfl, hi⟩ := h
  exact hi.le_utf8ByteSize

theorem Boundary.isText {b : Bytes} {i : Nat} (h : b.Boundary i) : b.IsText := by
  obtain ⟨s, rfl, -⟩ := h
  exact isText_ofString s

/-- **What lies between two boundaries is a text.** Both are positions of one string, and what lies
between two positions of a string is valid. -/
theorem Boundary.isText_slice {b : Bytes} {i j : Nat} (hi : b.Boundary i) (hj : b.Boundary j)
    (hij : i ≤ j) : (b.slice i j).IsText := by
  obtain ⟨s, rfl, hi⟩ := hi
  obtain ⟨t, ht, hj⟩ := hj
  -- both boundaries are about the same string, since the bytes determine it
  obtain rfl : t = s := String.toByteArray_inj.mp (congrArg ByteArray.mk ht)
  have := (String.Pos.Raw.isValidUTF8_extract_iff _ _ hij hj.le_rawEndPos).mpr (.inr ⟨hi, hj⟩)
  rw [isText_iff]
  rwa [show t.toByteArray.extract i j = ⟨(ofString t).slice i j⟩ from
    ByteArray.ext ByteArray.data_extract] at this

/-- A range that is a text lies between two boundaries. -/
private theorem IsText.boundary_of_slice {b : Bytes} (hb : b.IsText) {i j : Nat} (hij : i < j)
    (hj : j ≤ b.size) (h : (b.slice i j).IsText) : b.Boundary i ∧ b.Boundary j := by
  obtain ⟨s, rfl⟩ := hb
  rw [isText_iff] at h
  rw [show (⟨(ofString s).slice i j⟩ : ByteArray) = s.toByteArray.extract i j from
    (ByteArray.ext ByteArray.data_extract).symm] at h
  -- the bytes of an empty range are a text wherever it stands, so the range must not be empty
  rcases (String.Pos.Raw.isValidUTF8_extract_iff ⟨i⟩ ⟨j⟩ (Nat.le_of_lt hij) hj).mp h with
    heq | hboth
  · have : i = j := congrArg String.Pos.Raw.byteIdx heq
    omega
  · exact ⟨⟨s, rfl, hboth.1⟩, ⟨s, rfl, hboth.2⟩⟩

private theorem IsText.boundary_zero {b : Bytes} (hb : b.IsText) : b.Boundary 0 := by
  obtain ⟨s, rfl⟩ := hb
  exact ⟨s, rfl, String.Pos.Raw.isValid_zero⟩

theorem IsText.boundary_size {b : Bytes} (hb : b.IsText) : b.Boundary b.size := by
  obtain ⟨s, rfl⟩ := hb
  exact ⟨s, rfl, String.Pos.Raw.isValid_rawEndPos⟩

/-- Around an ASCII character there are two boundaries. The character alone is a text, so that this
is `boundary_of_slice`. -/
private theorem IsText.boundary_of_isAscii {b : Bytes} (hb : b.IsText) {i : Nat}
    (h : b.satAt i Byte.isAscii = true) : b.Boundary i ∧ b.Boundary (i + 1) := by
  have hi := lt_size_of_satAt h
  have hslice : b.slice i (i + 1) = #[b[i]] := by
    apply Array.ext
    · rw [size_slice hi]
      exact Nat.add_sub_cancel_left i 1
    · intro k hk _
      obtain rfl : k = 0 := by
        rw [size_slice hi] at hk
        omega
      simp [slice]
  refine hb.boundary_of_slice (Nat.lt_succ_self i) hi ?_
  rw [hslice]
  refine isText_singleton ?_
  rwa [satAt, Array.getElem?_eq_getElem hi, Option.any_some] at h

end Bytes

/-- **A seam of a text is a boundary.** A seam is an end of the text or stands next to an ASCII
character. -/
theorem Seam.boundary {b : Bytes} {i : Nat} (h : Seam b i) (hb : b.IsText) : b.Boundary i := by
  obtain ⟨hi, rfl | rfl | hat | hbefore⟩ := h
  · exact hb.boundary_zero
  · exact hb.boundary_size
  · exact (hb.boundary_of_isAscii hat).1
  · cases i with
    | zero => exact hb.boundary_zero
    | succ n => exact (hb.boundary_of_isAscii hbefore).2

namespace Bytes

theorem slice_append_left (x y : Bytes) : (x ++ y).slice 0 x.size = x := by
  rw [slice, Array.extract_append_left, Array.extract_size]

/-- A text and what follows it meet at a boundary. -/
theorem IsText.boundary_append {x y : Bytes} (h : (x ++ y).IsText) (hx : x.IsText) :
    (x ++ y).Boundary x.size := by
  rcases Nat.eq_zero_or_pos x.size with hzero | hpos
  · rw [hzero]
    exact h.boundary_zero
  · have hle : x.size ≤ (x ++ y).size := by rw [Array.size_append]; omega
    exact (h.boundary_of_slice hpos hle (by rwa [slice_append_left])).2

/-- At a boundary a text falls into two. -/
private theorem Boundary.isText_append {x y : Bytes} (h : (x ++ y).Boundary x.size) :
    x.IsText ∧ y.IsText := by
  have hleft := h.isText.boundary_zero.isText_slice h (Nat.zero_le _)
  have hright := h.isText_slice h.isText.boundary_size h.le_size
  rw [slice_append_left] at hleft
  rw [slice_append_right] at hright
  exact ⟨hleft, hright⟩

/-! ### Comments -/

/-- The blank that breaks a `*/` stands behind an ASCII character. Here `x` is what stands before
the bytes. By induction on the bytes. -/
private theorem IsText.append_breakClosers {x : Bytes} {cs : List Byte}
    (h : (x ++ cs.toArray).IsText) : (x ++ (breakClosers cs).toArray).IsText := by
  induction cs generalizing x with
  | nil => exact h
  | cons c cs ih =>
    have hsplit (l : List Byte) : x ++ (c :: l).toArray = x ++ #[c] ++ l.toArray := by simp
    rw [breakClosers]
    split
    · rename_i hcloser
      have hstar : c.is '*' = true := (Bool.and_eq_true_iff.mp hcloser).1
      have hstar : c.isAscii = true := Byte.ascii_is rfl c hstar
      rw [hsplit] at h
      have hat : (x ++ #[c] ++ cs.toArray).satAt x.size Byte.isAscii = true := by
        rw [satAt, Array.append_assoc]
        simpa using hstar
      have hseam : Seam (x ++ #[c] ++ cs.toArray) (x ++ #[c]).size := by
        rw [Array.size_append]
        exact .succ_of_satAt hat fun _ h => h
      -- the text is parted behind the star and the blank goes between the parts
      obtain ⟨hleft, hright⟩ := (hseam.boundary h).isText_append
      have hblank := hleft.append (isText_singleton (c := 32) rfl)
      have := ih (hblank.append hright)
      rw [hsplit]
      simpa using this
    · -- nothing is put in behind any other byte
      rw [hsplit] at h ⊢
      exact ih h

/-- **A text that is commented out stays a text.** Its ends are texts, and for what is between them
this is `append_breakClosers`. -/
theorem IsText.commentOut {b : Bytes} (h : b.IsText) : b.commentOut.IsText := by
  refine ((isText_ofString "/*").append ?_).append (isText_ofString "*/")
  have hb : IsText (#[] ++ b.toList.toArray) := by rwa [Array.empty_append]
  simpa using hb.append_breakClosers

end Bytes

end TypeErasure
