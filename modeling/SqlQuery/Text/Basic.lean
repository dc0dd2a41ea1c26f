/-!
# Text as bytes

A text is a sequence of bytes, and every length, column and padding counts bytes.  The classes of
bytes are those of ASCII: a byte above 127 is neither blank nor a digit and has no case.
-/

namespace SqlQuery

/-- A text is the sequence of its bytes. -/
abbrev Text := List UInt8

namespace Text

/-- The UTF-8 bytes of a string. -/
def ofString (s : String) : Text := s.toList.flatMap String.utf8EncodeChar

instance : Coe String Text := ⟨ofString⟩

/-- The line feed, which ends a line. -/
def lineFeed : UInt8 := 10

/-! ## Classes of bytes -/

/-- Tab, line feed, vertical tab, form feed, carriage return and space. -/
def isBlank (b : UInt8) : Bool := b == 32 || (9 ≤ b && b ≤ 13)

/-- The letters `a` to `z` become `A` to `Z`; all else stays. -/
def upperByte (b : UInt8) : UInt8 := if 97 ≤ b && b ≤ 122 then b - 32 else b

/-- The letters `A` to `Z` become `a` to `z`; all else stays. -/
def lowerByte (b : UInt8) : UInt8 := if 65 ≤ b && b ≤ 90 then b + 32 else b

def upper (t : Text) : Text := t.map upperByte

def lower (t : Text) : Text := t.map lowerByte

/-! ## Blanks -/

/-- Whether every byte is blank; the empty text is. -/
def allBlank (t : Text) : Bool := t.all isBlank

def trimLeft (t : Text) : Text := t.dropWhile isBlank

def trimRight (t : Text) : Text := (t.reverse.dropWhile isBlank).reverse

/-- The text without the blanks at both ends. -/
def trim (t : Text) : Text := trimRight (trimLeft t)

/-- The text followed by spaces up to the given width; a longer text stays as it is. -/
def padRight (width : Nat) (t : Text) : Text := t ++ List.replicate (width - t.length) 32

/-! ## Search -/

/-- Whether `needle` occurs as a contiguous part of a text. -/
def occursIn (needle : Text) : Text → Bool
  | [] => needle.isEmpty
  | b :: t => needle.isPrefixOf (b :: t) || occursIn needle t

/-- Whether `needle` occurs in `t` when letters are compared without regard to case. -/
def containsAnyCase (t needle : Text) : Bool := occursIn (upper needle) (upper t)

/-! ## Texts that end at a NUL -/

/-- The part before the first NUL byte. -/
def upToNul (t : Text) : Text := t.takeWhile (· != 0)

/-- Whether two texts agree up to their first NUL. -/
def sameUpToNul (s t : Text) : Bool := upToNul s == upToNul t

/-- Whether two texts agree up to their first NUL in the first `n` bytes. -/
def sameFirst (n : Nat) (s t : Text) : Bool := (upToNul s).take n == (upToNul t).take n

/-! ## Lines -/

/-- The lines of a text, without the line feeds that end them.  After the last line feed there is
one more line only if bytes follow. -/
def lines : Text → List Text
  | [] => []
  | b :: t =>
    if b == lineFeed then [] :: lines t
    else match lines t with
      | [] => [[b]]
      | l :: ls => (b :: l) :: ls

/-- The text of the given lines, each ended by a line feed. -/
def ofLines (ls : List Text) : Text := ls.flatMap (· ++ [lineFeed])

end Text

end SqlQuery
