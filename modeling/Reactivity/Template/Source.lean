
namespace Reactivity.Template

/-- Source text, one entry per UTF-8 byte, so that an offset is a list index. -/
abbrev Source := List UInt8

def Source.ofString (s : String) : Source :=
  s.toList.flatMap String.utf8EncodeChar

/-- The string a source encodes; bytes that are no valid encoding read as the empty string. -/
def Source.toString (s : Source) : String :=
  (String.fromUTF8? ⟨s.toArray⟩).getD ""

abbrev Source.newline : UInt8 := 0x0A
abbrev Source.doubleQuote : UInt8 := 0x22
abbrev Source.dollar : UInt8 := 0x24
abbrev Source.singleQuote : UInt8 := 0x27
abbrev Source.star : UInt8 := 0x2A
abbrev Source.dot : UInt8 := 0x2E
abbrev Source.slash : UInt8 := 0x2F
abbrev Source.semicolon : UInt8 := 0x3B
abbrev Source.question : UInt8 := 0x3F
abbrev Source.backslash : UInt8 := 0x5C
abbrev Source.underscore : UInt8 := 0x5F
abbrev Source.backtick : UInt8 := 0x60

/-- Removes the given bytes from the front, if the text starts with them. -/
def dropPrefix? : Source → Source → Option Source
  | [], s => some s
  | _ :: _, [] => none
  | a :: p, b :: s => if a = b then dropPrefix? p s else none

theorem dropPrefix?_eq_some_iff {p s r : Source} : dropPrefix? p s = some r ↔ s = p ++ r := by
  induction p generalizing s with
  | nil => simp [dropPrefix?]
  | cons a p ih =>
    cases s with
    | nil => simp [dropPrefix?]
    | cons b s =>
      by_cases h : a = b
      · simp [dropPrefix?, h, ih]
      · simp [dropPrefix?, h, Ne.symm h]

def blankCharacters : List Char :=
  ['\t', '\n', '\x0b', '\x0c', '\r', ' ', '\u0085', '\u00a0', '\u1680',
   '\u2000', '\u2001', '\u2002', '\u2003', '\u2004', '\u2005', '\u2006', '\u2007', '\u2008',
   '\u2009', '\u200a', '\u2028', '\u2029', '\u202f', '\u205f', '\u3000']

def blanks : List Source :=
  blankCharacters.map String.utf8EncodeChar

def dropBlank? (s : Source) : Option Source :=
  blanks.findSome? (dropPrefix? · s)

theorem dropBlank?_eq_append {s r : Source} (h : dropBlank? s = some r) :
    ∃ w ∈ blanks, s = w ++ r := by
  obtain ⟨w, hw, hr⟩ := List.exists_of_findSome?_eq_some h
  exact ⟨w, hw, dropPrefix?_eq_some_iff.1 hr⟩

theorem blank_length_pos {w : Source} (h : w ∈ blanks) : 0 < w.length := by
  obtain ⟨c, -, rfl⟩ := List.mem_map.1 h
  rw [String.length_utf8EncodeChar]
  exact c.utf8Size_pos

theorem dropBlank?_length_lt {s r : Source} (h : dropBlank? s = some r) :
    r.length < s.length := by
  obtain ⟨w, hw, rfl⟩ := dropBlank?_eq_append h
  have := blank_length_pos hw
  simp only [List.length_append]
  omega

def trimStart (s : Source) : Source :=
  match _h : dropBlank? s with
  | some r => trimStart r
  | none => s
termination_by s.length
decreasing_by exact dropBlank?_length_lt _h

theorem trimStart_length_le (s : Source) : (trimStart s).length ≤ s.length := by
  fun_induction trimStart s with
  | case1 _ _ h ih => exact Nat.le_trans ih (Nat.le_of_lt (dropBlank?_length_lt h))
  | case2 => exact Nat.le_refl _

/-- The text without the white space at its end: it stops where only white space follows. -/
def trimEnd : Source → Source
  | [] => []
  | b :: r => if trimStart (b :: r) = [] then [] else b :: trimEnd r

def trim (s : Source) : Source :=
  trimEnd (trimStart s)

/-- The text without the given byte at its end, however often it stands there. -/
def dropTrailing (b : UInt8) (s : Source) : Source :=
  (s.reverse.dropWhile (· == b)).reverse

def isDigit (b : UInt8) : Bool :=
  0x30 ≤ b && b ≤ 0x39

/-- Bytes an identifier is made of: ASCII letters and digits, underscore, dollar, and every byte of
a character outside ASCII. -/
def isIdentifierByte (b : UInt8) : Bool :=
  isDigit b || (0x41 ≤ b && b ≤ 0x5A) || (0x61 ≤ b && b ≤ 0x7A)
    || b == Source.underscore || b == Source.dollar || 0x80 ≤ b

/-- Number of bytes of the identifier at the front. An identifier does not start with a digit. -/
def identifierLength (s : Source) : Nat :=
  if s.head?.any isDigit then 0 else (s.takeWhile isIdentifierByte).length

/-- Removes a word from the front, with the white space after it, if no identifier byte follows. -/
def dropWord? (word s : Source) : Option Source :=
  match dropPrefix? word s with
  | none => none
  | some rest => if rest.head?.any isIdentifierByte then none else some (trimStart rest)

end Reactivity.Template
