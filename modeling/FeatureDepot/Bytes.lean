/-! Contents of files, and the texts that they are in UTF-8. -/
namespace FeatureDepot

abbrev Bytes := List UInt8

namespace Bytes

/-- The text that bytes are, if they are one. -/
def decode? (bytes : Bytes) : Option String := String.fromUTF8? (ByteArray.mk bytes.toArray)

/-- The bytes of a text. -/
def encode (text : String) : Bytes := text.toUTF8.data.toList

@[simp] theorem decode?_encode (text : String) : decode? (encode text) = some text := by
  have h : ByteArray.mk (encode text).toArray = text.toUTF8 := by simp [encode]
  unfold decode?
  rw [h]
  simp [String.fromUTF8?, String.fromUTF8, String.toUTF8, text.isValidUTF8]

end Bytes
end FeatureDepot
