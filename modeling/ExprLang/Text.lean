/-!
# Characters and Their Bytes

Positions in a source count UTF-8 bytes, so a list of characters is measured in bytes here.  The
module also names the characters with the Unicode property `White_Space`, writes text between double
quotes and keeps text from steering a terminal.
-/

namespace ExprLang.Text

/-- The number of bytes that the characters take in UTF-8. -/
def byteSize : List Char → Nat
  | [] => 0
  | c :: cs => c.utf8Size + byteSize cs

@[simp]
theorem byteSize_nil : byteSize [] = 0 := rfl

@[simp]
theorem byteSize_cons (c : Char) (cs : List Char) :
    byteSize (c :: cs) = c.utf8Size + byteSize cs := rfl

@[simp]
theorem byteSize_append (cs ds : List Char) : byteSize (cs ++ ds) = byteSize cs + byteSize ds := by
  induction cs with
  | nil => simp
  | cons c cs ih => simp [ih, Nat.add_assoc]

theorem length_le_byteSize (cs : List Char) : cs.length ≤ byteSize cs := by
  induction cs with
  | nil => simp
  | cons c cs ih =>
    have := c.utf8Size_pos
    simp only [List.length_cons, byteSize_cons]
    omega

/-- The 25 characters with the Unicode property `White_Space`. -/
def isWhiteSpace (c : Char) : Bool :=
  (9 ≤ c.toNat && c.toNat ≤ 13) || (0x2000 ≤ c.toNat && c.toNat ≤ 0x200A) ||
    [0x20, 0x85, 0xA0, 0x1680, 0x2028, 0x2029, 0x202F, 0x205F, 0x3000].contains c.toNat

theorem isWhiteSpace_of_isWhitespace (c : Char) (h : c.isWhitespace) : isWhiteSpace c := by
  simp only [Char.isWhitespace, Bool.or_eq_true, decide_eq_true_eq] at h
  rcases h with ((rfl | rfl) | rfl) | rfl <;> decide

/-- The text without the white space at its end. -/
def trimEnd (cs : List Char) : List Char :=
  (cs.reverse.dropWhile isWhiteSpace).reverse

/-- The control characters: U+0000 to U+001F and U+007F to U+009F. -/
def isControl (c : Char) : Bool :=
  c.toNat < 0x20 || (0x7F ≤ c.toNat && c.toNat < 0xA0)

/-- How one character stands between double quotes.  A control character without a name of its own
is given by its number in hexadecimal.  Every other character stands for itself.  This assumes that
the text has no characters that cannot be printed, such as unassigned ones, and none that extend the
character before them, which are otherwise given by their numbers as well. -/
def escaped (c : Char) : List Char :=
  if c = '\x22' ∨ c = '\\' then ['\\', c]
  else if c = '\t' then ['\\', 't']
  else if c = '\r' then ['\\', 'r']
  else if c = '\n' then ['\\', 'n']
  else if c.toNat = 0 then ['\\', '0']
  else if isControl c then ['\\', 'u', '\x7b'] ++ Nat.toDigits 16 c.toNat ++ ['\x7d']
  else [c]

/-- The text between double quotes. -/
def quoted (text : String) : String :=
  String.ofList ('\x22' :: text.toList.flatMap escaped ++ ['\x22'])

/-- The characters that a terminal may take for a command: bell, backspace, form feed, escape and
U+007F to U+009F. -/
def steersTerminal (c : Char) : Bool :=
  [7, 8, 12, 27].contains c.toNat || (0x7F ≤ c.toNat && c.toNat < 0xA0)

/-- How one character stands in text for a terminal.  A character that steers it is given by its
number in hexadecimal, with two digits in ASCII. -/
def shielded (c : Char) : List Char :=
  if steersTerminal c then
    if c.toNat < 16 then ['\\', 'x', '0'] ++ Nat.toDigits 16 c.toNat
    else if c.toNat < 128 then ['\\', 'x'] ++ Nat.toDigits 16 c.toNat
    else ['\\', 'u', '\x7b'] ++ Nat.toDigits 16 c.toNat ++ ['\x7d']
  else [c]

/-- The text without characters that steer a terminal. -/
def forTerminal (text : String) : String :=
  String.ofList (text.toList.flatMap shielded)

/-- The text moved to the right end of a field of the given width. -/
def alignRight (fill : Char) (width : Nat) (text : String) : String :=
  String.ofList (List.replicate (width - text.length) fill) ++ text

end ExprLang.Text
