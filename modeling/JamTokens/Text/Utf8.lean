/-!
# UTF-8

Texts are lists of characters and bytes are lists of bytes; `encode` and
`decode?` go between them.  Decoding accepts exactly what encoding produces,
so a byte list stands for at most one text.
-/

set_option autoImplicit false

namespace JamTokens.Utf8

def encode (text : List Char) : List UInt8 := text.flatMap String.utf8EncodeChar

/-- The text that the bytes encode, if they encode one. -/
def decode? (bytes : List UInt8) : Option (List Char) :=
  bytes.toByteArray.utf8Decode?.map Array.toList

@[simp] theorem encode_nil : encode [] = [] := rfl

theorem encode_cons (c : Char) (text : List Char) :
    encode (c :: text) = String.utf8EncodeChar c ++ encode text := rfl

theorem encode_append (text more : List Char) :
    encode (text ++ more) = encode text ++ encode more := List.flatMap_append

theorem toByteArray_encode (text : List Char) : (encode text).toByteArray = text.utf8Encode := rfl

@[simp] theorem decode?_encode (text : List Char) : decode? (encode text) = some text := by
  simp [decode?, toByteArray_encode]

theorem eq_encode_of_decode? {bytes : List UInt8} {text : List Char}
    (h : decode? bytes = some text) : bytes = encode text := by
  obtain ⟨chars, hchars, rfl⟩ := Option.map_eq_some_iff.1 h
  have valid : bytes.toByteArray.IsValidUTF8 := by
    rw [← ByteArray.isSome_utf8Decode?_iff, hchars]
    rfl
  obtain ⟨text, htext⟩ := valid
  have same : text.toArray = chars := by
    rw [htext, List.utf8Decode?_utf8Encode] at hchars
    exact Option.some.inj hchars
  have bytesEq : bytes = text.utf8Encode.data.toList := by
    rw [← htext, List.toList_data_toByteArray]
  rw [bytesEq, ← toByteArray_encode, List.toList_data_toByteArray, ← same]

theorem toList_toUTF8 (s : String) : s.toUTF8.data.toList = encode s.toList := by
  rw [String.toUTF8_eq_toByteArray, ← String.utf8Encode_toList, ← toByteArray_encode,
    List.toList_data_toByteArray]

theorem decode?_toUTF8 (s : String) : decode? s.toUTF8.data.toList = some s.toList := by
  rw [toList_toUTF8, decode?_encode]

theorem eq_toUTF8_of_decode? {content : ByteArray} {text : List Char}
    (h : decode? content.data.toList = some text) : (String.ofList text).toUTF8 = content := by
  apply ByteArray.ext
  apply Array.toList_inj.mp
  rw [toList_toUTF8, String.toList_ofList, eq_encode_of_decode? h]

theorem decode?_eq_some_iff {bytes : List UInt8} {text : List Char} :
    decode? bytes = some text ↔ bytes = encode text :=
  ⟨eq_encode_of_decode?, fun h => h ▸ decode?_encode text⟩

end JamTokens.Utf8
