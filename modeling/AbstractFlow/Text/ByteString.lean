import AbstractFlow.Text.Quoted

/-!
# Byte strings

The strings of an analysed program are sequences of bytes, and are measured, ordered and told
apart as such. To show them or to take them apart, they are read as UTF-8; a byte that is part of
no character stands by itself.
-/
namespace AbstractFlow

structure ByteString where
  bytes : List UInt8
deriving DecidableEq, Inhabited

namespace ByteString

def ofString (s : String) : ByteString := ⟨s.toUTF8.data.toList⟩

/-- The bytes of a text are those of its characters. -/
theorem bytes_ofString (s : String) :
    (ofString s).bytes = s.toList.flatMap String.utf8EncodeChar := by
  have h : s.toList.utf8Encode = s.toUTF8 := String.utf8Encode_toList
  rw [ofString, ← h, List.utf8Encode]
  simp

def size (s : ByteString) : Nat := s.bytes.length

instance : LT ByteString := ⟨fun s t => s.bytes < t.bytes⟩

instance (s t : ByteString) : Decidable (s < t) := inferInstanceAs (Decidable (s.bytes < t.bytes))

def startsWith (s start : ByteString) : Bool := start.bytes.isPrefixOf s.bytes

def endsWith (s ending : ByteString) : Bool := ending.bytes.isSuffixOf s.bytes

inductive Glyph where
  | char (c : Char)
  | stray (b : UInt8)
deriving DecidableEq

def leading? (bytes : List UInt8) : Option Char := (bytes.take 4).toByteArray.utf8DecodeChar? 0

def glyphsOf : List UInt8 → List Glyph
  | [] => []
  | b :: rest =>
    match leading? (b :: rest) with
    | some c => .char c :: glyphsOf (rest.drop (c.utf8Size - 1))
    | none => .stray b :: glyphsOf rest
termination_by bytes => bytes.length
decreasing_by all_goals grind

def glyphs (s : ByteString) : List Glyph := glyphsOf s.bytes

/-- The character that is shown; stray bytes show as the replacement character. -/
def Glyph.shown : Glyph → Char
  | .char c => c
  | .stray _ => '\ufffd'

def text (s : ByteString) : String := String.ofList (s.glyphs.map Glyph.shown)

def Glyph.escape : Glyph → List Char
  | .char c => Text.Quotation.escape {} c
  | .stray b => '\\' :: 'x' :: Text.hexDigits 2 b.toNat

def quote (s : ByteString) : String :=
  Text.Quotation.enclose {} (s.glyphs.flatMap Glyph.escape)

theorem leading?_utf8EncodeChar_append (c : Char) (rest : List UInt8) :
    leading? (String.utf8EncodeChar c ++ rest) = some c := by
  have hsize : (String.utf8EncodeChar c).length ≤ 4 := by
    rw [String.length_utf8EncodeChar]
    exact c.utf8Size_le_four
  rw [leading?, List.take_append, List.take_of_length_le hsize, List.toByteArray_append]
  exact ByteArray.utf8DecodeChar?_utf8EncodeChar_append

theorem glyphsOf_utf8EncodeChar_append (c : Char) (rest : List UInt8) :
    glyphsOf (String.utf8EncodeChar c ++ rest) = .char c :: glyphsOf rest := by
  have hlead := leading?_utf8EncodeChar_append c rest
  have hlen := String.length_utf8EncodeChar c
  have hpos := c.utf8Size_pos
  cases h : String.utf8EncodeChar c with
  | nil => simp [h] at hlen; omega
  | cons b bs =>
    rw [h] at hlead hlen
    simp only [List.cons_append] at hlead ⊢
    rw [glyphsOf, hlead]
    have : c.utf8Size - 1 = bs.length := by simp at hlen; omega
    simp [this]

/-- The glyphs of a text are its characters. -/
theorem glyphs_ofString (s : String) : (ofString s).glyphs = s.toList.map .char := by
  suffices h : ∀ cs : List Char,
      glyphsOf (cs.flatMap String.utf8EncodeChar) = cs.map .char by
    rw [glyphs, bytes_ofString, h]
  intro cs
  induction cs with
  | nil => simp [glyphsOf]
  | cons c cs ih => simp [glyphsOf_utf8EncodeChar_append, ih]

theorem text_ofString (s : String) : (ofString s).text = s := by
  simp [text, glyphs_ofString, Glyph.shown, Function.comp_def]

end ByteString

end AbstractFlow
