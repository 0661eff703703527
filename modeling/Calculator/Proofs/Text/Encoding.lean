import Calculator.CommandLine
import Calculator.Proofs.Text.Lines

/-!
# Lines of bytes and lines of characters

The bytes of a line feed and of a carriage return are no part of any other character. So the lines of the
bytes of a text are the bytes of its lines, and a sequence of bytes is the bytes of a text if each of its
lines is.
-/

namespace Calculator.Text

/-- The bytes of a text. -/
def encode (text : List Char) : List UInt8 := text.flatMap String.utf8EncodeChar

theorem encode_append (text text' : List Char) : encode (text ++ text') = encode text ++ encode text' :=
  List.flatMap_append

theorem encode_ne_nil {text : List Char} (more : text ≠ []) : encode text ≠ [] := by
  obtain ⟨c, rest, rfl⟩ := List.exists_cons_of_ne_nil more
  simp [encode]

/-- A byte below 128 stands for its character and is no part of any other. -/
theorem eq_of_mem_utf8EncodeChar {c sign : Char} (ascii : sign.toNat < 128)
    (mem : sign.toUInt8 ∈ String.utf8EncodeChar c) : c = sign := by
  have code : sign.toUInt8.toNat = sign.toNat :=
    (UInt32.toNat_toUInt8 _).trans (Nat.mod_eq_of_lt (Nat.lt_trans ascii (by decide)))
  -- Every byte of a character of more than one byte is 128 or more.
  have high : ∀ n, 128 ≤ n → n < 256 → sign.toUInt8 ≠ UInt8.ofNat n := by
    intro n low below same
    have equal := congrArg UInt8.toNat same
    rw [code, UInt8.toNat_ofNat_of_lt' below] at equal
    omega
  simp only [String.utf8EncodeChar] at mem
  split at mem
  · rename_i single
    have equal := congrArg UInt8.toNat (List.mem_singleton.1 mem)
    rw [code, UInt8.toNat_ofNat_of_lt' (Nat.lt_of_le_of_lt single (by decide))] at equal
    exact Char.ext (UInt32.toNat_inj.1 equal.symm)
  · exfalso
    split at mem
    · simp only [List.mem_cons, List.not_mem_nil, or_false] at mem
      rcases mem with same | same <;> exact high _ (by omega) (by omega) same
    · split at mem
      · simp only [List.mem_cons, List.not_mem_nil, or_false] at mem
        rcases mem with same | same | same <;> exact high _ (by omega) (by omega) same
      · simp only [List.mem_cons, List.not_mem_nil, or_false] at mem
        rcases mem with same | same | same | same <;> exact high _ (by omega) (by omega) same

theorem notMem_encode (sign : Char) (ascii : sign.toNat < 128) {text : List Char}
    (absent : sign ∉ text) : sign.toUInt8 ∉ encode text := by
  intro mem
  obtain ⟨c, mem, part⟩ := List.mem_flatMap.1 mem
  exact absent (eq_of_mem_utf8EncodeChar ascii part ▸ mem)

/-- The bytes of a text end in such a byte only if the text ends in its character. -/
theorem getLast?_encode (sign : Char) (ascii : sign.toNat < 128) {text : List Char}
    (last : (encode text).getLast? = some sign.toUInt8) : text.getLast? = some sign := by
  rcases List.eq_nil_or_concat text with rfl | ⟨before, c, rfl⟩
  · cases last
  · rw [List.concat_eq_append] at last ⊢
    have nonempty : (String.utf8EncodeChar c).getLast? ≠ none := by simp
    obtain ⟨byte, found⟩ := Option.ne_none_iff_exists'.1 nonempty
    have whole : encode [c] = String.utf8EncodeChar c := List.flatMap_singleton _ _
    rw [encode_append, List.getLast?_append, whole, found, Option.some_or] at last
    cases last
    rw [eq_of_mem_utf8EncodeChar ascii (List.mem_of_getLast? found), List.getLast?_concat]

/-- The lines of the bytes of a text are the bytes of its lines. -/
theorem Lined.encode {text : List Char} {ls : List (List Char)} (lined : Lined '\n' '\r' text ls) :
    Lined 0x0A 0x0D (encode text) (ls.map Text.encode) := by
  induction lined with
  | nil => exact .nil
  | last more absent =>
    exact .last (encode_ne_nil more) (notMem_encode '\n' (by decide) absent)
  | returned absent _ ih =>
    rw [encode_append]
    exact .returned (notMem_encode '\n' (by decide) absent) ih
  | ended absent other _ ih =>
    rw [encode_append]
    refine .ended (notMem_encode '\n' (by decide) absent) ?_ ih
    exact mt (getLast?_encode '\r' (by decide)) other

/-- Bytes whose lines are the bytes of texts are the bytes of a text. -/
theorem Lined.exists_encode {bytes : List UInt8} {ls : List (List UInt8)}
    (lined : Lined 0x0A 0x0D bytes ls) (each : ∀ line ∈ ls, ∃ text, line = Text.encode text) :
    ∃ text, bytes = Text.encode text := by
  induction lined with
  | nil => exact ⟨[], rfl⟩
  | last _ _ => exact each _ List.mem_cons_self
  | returned _ _ ih =>
    obtain ⟨text, rfl⟩ := each _ List.mem_cons_self
    obtain ⟨text', rfl⟩ := ih fun line mem => each line (List.mem_cons_of_mem _ mem)
    exact ⟨text ++ '\r' :: '\n' :: text', by rw [encode_append]; rfl⟩
  | ended _ _ _ ih =>
    obtain ⟨text, rfl⟩ := each _ List.mem_cons_self
    obtain ⟨text', rfl⟩ := ih fun line mem => each line (List.mem_cons_of_mem _ mem)
    exact ⟨text ++ '\n' :: text', by rw [encode_append]; rfl⟩

theorem toUTF8_eq_iff {text : String} {bytes : List UInt8} :
    text.toUTF8 = ⟨bytes.toArray⟩ ↔ bytes = encode text.toList := by
  have whole : text.toUTF8 = (encode text.toList).toByteArray := String.utf8Encode_toList.symm
  have given : (⟨bytes.toArray⟩ : ByteArray) = bytes.toByteArray :=
    ByteArray.ext List.data_toByteArray.symm
  rw [whole, given, List.toByteArray_inj, eq_comm]

theorem isValidUTF8_iff {bytes : List UInt8} :
    ByteArray.IsValidUTF8 ⟨bytes.toArray⟩ ↔ ∃ text, bytes = encode text := by
  constructor
  · rintro ⟨text, same⟩
    have whole : (String.ofList text).toUTF8 = ⟨bytes.toArray⟩ := by
      rw [same]
      exact String.toByteArray_ofList
    exact ⟨_, toUTF8_eq_iff.1 whole⟩
  · rintro ⟨text, rfl⟩
    have same : (String.ofList text).toUTF8 = ⟨(encode text).toArray⟩ := by
      rw [toUTF8_eq_iff, String.toList_ofList]
    exact same ▸ (String.ofList text).isValidUTF8

end Calculator.Text
