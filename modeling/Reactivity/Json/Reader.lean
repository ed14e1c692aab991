import Reactivity.Json.Basic

namespace Reactivity.Json

/-- Why a text cannot be read. -/
inductive ReadError
  /-- The text is no JSON. -/
  | malformed
  /-- The text ends too early. -/
  | truncated
  /-- A value is of a kind, or in a range, that is not expected. -/
  | mismatch
  deriving DecidableEq, Repr

def ReadError.category : ReadError → String
  | .malformed => "syntax"
  | .truncated => "eof"
  | .mismatch => "data"

def isBlank (c : Char) : Bool :=
  c == ' ' || c == '\t' || c == '\n' || c == '\r'

def skipBlank (s : List Char) : List Char :=
  s.dropWhile isBlank

def nextToken (s : List Char) : Except ReadError (Char × List Char) :=
  match skipBlank s with
  | [] => .error .truncated
  | c :: r => .ok (c, r)

def readWord : List Char → List Char → Except ReadError (List Char)
  | [], s => .ok s
  | _ :: _, [] => .error .truncated
  | w :: word, c :: s => if c = w then readWord word s else .error .malformed

def readDigits (s : List Char) : List Char × List Char :=
  s.span Char.isDigit

def readSomeDigits (s : List Char) : Except ReadError (List Char × List Char) :=
  match readDigits s with
  | ([], []) => .error .truncated
  | ([], _ :: _) => .error .malformed
  | (digits, r) => .ok (digits, r)

/-- The parts of a number. -/
structure Numeral where
  negative : Bool
  whole : List Char
  fraction : Option (List Char)
  exponent : Option Int

def digitsValue (digits : List Char) : Nat :=
  digits.foldl (fun n c => n * 10 + (c.toNat - '0'.toNat)) 0

def readWhole (s : List Char) : Except ReadError (List Char × List Char) :=
  match readSomeDigits s with
  | .ok ('0' :: _ :: _, _) => .error .malformed
  | result => result

def readFraction (s : List Char) : Except ReadError (Option (List Char) × List Char) :=
  match s with
  | '.' :: r => (readSomeDigits r).map fun (digits, r) => (some digits, r)
  | _ => .ok (none, s)

def readExponent (s : List Char) : Except ReadError (Option Int × List Char) :=
  match s with
  | [] => .ok (none, s)
  | c :: r =>
    if c = 'e' ∨ c = 'E' then
      let (sign, r) : Int × List Char :=
        match r with
        | '+' :: r => (1, r)
        | '-' :: r => (-1, r)
        | _ => (1, r)
      (readSomeDigits r).map fun (digits, r) => (some (sign * digitsValue digits), r)
    else .ok (none, s)

def readNumeral (s : List Char) : Except ReadError (Numeral × List Char) := do
  let (negative, s) :=
    match s with
    | '-' :: r => (true, r)
    | _ => (false, s)
  let (whole, s) ← readWhole s
  let (fraction, s) ← readFraction s
  let (exponent, s) ← readExponent s
  return (⟨negative, whole, fraction, exponent⟩, s)

def Numeral.nearest (t : Numeral) : Number :=
  let fraction := t.fraction.getD []
  Number.ofDecimal t.negative (digitsValue (t.whole ++ fraction))
    (t.exponent.getD 0 - fraction.length)

/-- The value of a numeral: an integer if it has neither fraction nor exponent and fits 64 bits,
signed or unsigned. Minus zero is a float, and a float must not be too large. -/
def Numeral.value (t : Numeral) : Except ReadError Json :=
  let n := digitsValue t.whole
  let asFloat :=
    let x := t.nearest
    if x.isFinite then .ok (.float x) else .error .malformed
  if t.fraction.isSome || t.exponent.isSome then asFloat
  else if t.negative then if n = 0 ∨ Nat.pow 2 63 < n then asFloat else .ok (.int (-n))
  else if n < Nat.pow 2 64 then .ok (.int n) else asFloat

def readNumber (s : List Char) : Except ReadError (Json × List Char) := do
  let (t, r) ← readNumeral s
  let value ← t.value
  return (value, r)

def skipNumber (s : List Char) : Except ReadError (List Char) :=
  match readNumeral s with
  | .ok (_, r) => .ok r
  | .error _ => .error .malformed

def hexDigit? (c : Char) : Option Nat :=
  if '0' ≤ c ∧ c ≤ '9' then some (c.toNat - '0'.toNat)
  else if 'a' ≤ c ∧ c ≤ 'f' then some (c.toNat - 'a'.toNat + 10)
  else if 'A' ≤ c ∧ c ≤ 'F' then some (c.toNat - 'A'.toNat + 10)
  else none

/-- Reads the four digits of an escaped UTF-16 unit. The text ends too early if fewer than four
bytes follow. -/
def readUnit (s : List Char) : Except ReadError (Nat × List Char) :=
  match s with
  | a :: b :: c :: d :: r =>
    match hexDigit? a, hexDigit? b, hexDigit? c, hexDigit? d with
    | some a, some b, some c, some d => .ok (((a * 16 + b) * 16 + c) * 16 + d, r)
    | _, _, _, _ => .error .malformed
  | s => .error (if (String.ofList s).utf8ByteSize < 4 then .truncated else .malformed)

def readTrailingUnit (s : List Char) : Except ReadError (Nat × List Char) :=
  match s with
  | [] => .error .truncated
  | '\\' :: r =>
    match r with
    | [] => .error .truncated
    | 'u' :: r =>
      match readUnit r with
      | .error e => .error e
      | .ok (unit, r) =>
        if 0xDC00 ≤ unit ∧ unit ≤ 0xDFFF then .ok (unit, r) else .error .malformed
    | _ :: _ => .error .malformed
  | _ :: _ => .error .malformed

def joinUnits (leading trailing : Nat) : Char :=
  Char.ofNat (0x10000 + (leading - 0xD800) * 0x400 + (trailing - 0xDC00))

def simpleEscape? : Char → Option Char
  | '"' => some '"'
  | '\\' => some '\\'
  | '/' => some '/'
  | 'b' => some '\x08'
  | 'f' => some '\x0c'
  | 'n' => some '\n'
  | 'r' => some '\r'
  | 't' => some '\t'
  | _ => none

/-- Reads an escape after its backslash. A unit that is half of a character needs its partner. -/
def readEscape (s : List Char) : Except ReadError (Char × List Char) :=
  match s with
  | [] => .error .truncated
  | 'u' :: r =>
    match readUnit r with
    | .error e => .error e
    | .ok (unit, r) =>
      if 0xDC00 ≤ unit ∧ unit ≤ 0xDFFF then .error .malformed
      else if 0xD800 ≤ unit ∧ unit ≤ 0xDBFF then
        match readTrailingUnit r with
        | .error e => .error e
        | .ok (trailing, r) => .ok (joinUnits unit trailing, r)
      else .ok (Char.ofNat unit, r)
  | c :: r =>
    match simpleEscape? c with
    | some c => .ok (c, r)
    | none => .error .malformed

/-- Skips an escape after its backslash, without regard to which unit it is. -/
def skipEscape (s : List Char) : Except ReadError (List Char) :=
  match s with
  | [] => .error .truncated
  | 'u' :: r => (readUnit r).map (·.2)
  | c :: r => if (simpleEscape? c).isSome then .ok r else .error .malformed

theorem readUnit_length_lt {s r : List Char} {n : Nat} (h : readUnit s = .ok (n, r)) :
    r.length < s.length := by
  unfold readUnit at h
  split at h
  · split at h
    · cases h
      simp +arith
    · cases h
  · cases h

theorem readTrailingUnit_length_lt {s r : List Char} {n : Nat}
    (h : readTrailingUnit s = .ok (n, r)) : r.length < s.length := by
  unfold readTrailingUnit at h
  split at h
  · cases h
  · split at h
    · cases h
    · split at h
      · cases h
      · next hu =>
        split at h
        · cases h
          have := readUnit_length_lt hu
          simp only [List.length_cons]
          omega
        · cases h
    · cases h
  · cases h

theorem readEscape_length_lt {s r : List Char} {c : Char} (h : readEscape s = .ok (c, r)) :
    r.length < s.length := by
  unfold readEscape at h
  split at h
  · cases h
  · split at h
    · cases h
    · next hu =>
      have := readUnit_length_lt hu
      split at h
      · cases h
      · split at h
        · split at h
          · cases h
          · next ht =>
            have := readTrailingUnit_length_lt ht
            simp only [Except.ok.injEq, Prod.mk.injEq] at h
            simp only [List.length_cons, ← h.2]
            omega
        · simp only [Except.ok.injEq, Prod.mk.injEq] at h
          simp only [List.length_cons, ← h.2]
          omega
  · split at h
    · simp only [Except.ok.injEq, Prod.mk.injEq] at h
      simp [← h.2]
    · cases h

theorem skipEscape_length_lt {s r : List Char} (h : skipEscape s = .ok r) :
    r.length < s.length := by
  unfold skipEscape at h
  split at h
  · cases h
  · next t =>
    rcases hu : readUnit t with _ | ⟨n, u⟩
    · rw [hu] at h
      cases h
    · rw [hu] at h
      cases h
      have := readUnit_length_lt hu
      simp only [List.length_cons]
      omega
  · grind

def readString (acc : List Char) (s : List Char) : Except ReadError (String × List Char) :=
  match s with
  | [] => .error .truncated
  | c :: r =>
    if c = '"' then .ok (String.ofList acc.reverse, r)
    else if c = '\\' then
      match _h : readEscape r with
      | .error e => .error e
      | .ok (c, r') => readString (c :: acc) r'
    else if c < ' ' then .error .malformed
    else readString (c :: acc) r
termination_by s.length
decreasing_by
  · have := readEscape_length_lt _h
    simp only [List.length_cons]
    omega
  · simp

def skipString (s : List Char) : Except ReadError (List Char) :=
  match s with
  | [] => .error .truncated
  | c :: r =>
    if c = '"' then .ok r
    else if c = '\\' then
      match _h : skipEscape r with
      | .error e => .error e
      | .ok r' => skipString r'
    else if c < ' ' then .error .malformed
    else skipString r
termination_by s.length
decreasing_by
  · have := skipEscape_length_lt _h
    simp only [List.length_cons]
    omega
  · simp

def nextItem (first : Bool) (s : List Char) : Except ReadError (Option (List Char)) :=
  match skipBlank s with
  | [] => .error .truncated
  | c :: r =>
    if c = ']' then .ok none
    else if first then .ok (some (c :: r))
    else if c = ',' then
      match skipBlank r with
      | [] => .error .truncated
      | d :: r' => if d = ']' then .error .malformed else .ok (some (d :: r'))
    else .error .malformed

/-- Steps to the text after the quote that opens the next name of an object: `none` at the closing
brace. -/
def nextName (first : Bool) (s : List Char) : Except ReadError (Option (List Char)) :=
  match skipBlank s with
  | [] => .error .truncated
  | c :: r =>
    if c = '}' then .ok none
    else if first then if c = '"' then .ok (some r) else .error .malformed
    else if c = ',' then
      match skipBlank r with
      | [] => .error .truncated
      | d :: r' => if d = '"' then .ok (some r') else .error .malformed
    else .error .malformed

def skipColon (s : List Char) : Except ReadError (List Char) := do
  let (c, r) ← nextToken s
  if c = ':' then return r else throw .malformed

def skipClosing (s : List Char) : List Char :=
  (skipBlank s).drop 1

def expectEnd (s : List Char) : Except ReadError Unit :=
  match skipBlank s with
  | [] => .ok ()
  | _ :: _ => .error .malformed

mutual

/-- Reads a value. Each value, item and member takes one unit of fuel, so that the length of the
text is enough. -/
def readValue : Nat → List Char → Except ReadError (Json × List Char)
  | 0, _ => .error .malformed
  | fuel + 1, s => do
    let (c, r) ← nextToken s
    if c = 'n' then return (.null, ← readWord "ull".toList r)
    else if c = 't' then return (.bool true, ← readWord "rue".toList r)
    else if c = 'f' then return (.bool false, ← readWord "alse".toList r)
    else if c = '"' then
      let (text, r) ← readString [] r
      return (.string text, r)
    else if c = '[' then
      let (items, r) ← readItems fuel true r
      return (.array items, r)
    else if c = '{' then
      let (members, r) ← readMembers fuel true r
      return (ofMembers members, r)
    else if c = '-' ∨ c.isDigit then readNumber (c :: r)
    else throw .malformed

def readItems : Nat → Bool → List Char → Except ReadError (List Json × List Char)
  | 0, _, _ => .error .malformed
  | fuel + 1, first, s => do
    match ← nextItem first s with
    | none => return ([], skipClosing s)
    | some s =>
      let (item, s) ← readValue fuel s
      let (items, s) ← readItems fuel false s
      return (item :: items, s)

def readMembers : Nat → Bool → List Char → Except ReadError (List (String × Json) × List Char)
  | 0, _, _ => .error .malformed
  | fuel + 1, first, s => do
    match ← nextName first s with
    | none => return ([], skipClosing s)
    | some s =>
      let (name, s) ← readString [] s
      let s ← skipColon s
      let (value, s) ← readValue fuel s
      let (members, s) ← readMembers fuel false s
      return ((name, value) :: members, s)

end

mutual

/-- Skips a value that is not looked into: halves of characters and numbers out of range pass. -/
def skipValue : Nat → List Char → Except ReadError (List Char)
  | 0, _ => .error .malformed
  | fuel + 1, s => do
    let (c, r) ← nextToken s
    if c = 'n' then readWord "ull".toList r
    else if c = 't' then readWord "rue".toList r
    else if c = 'f' then readWord "alse".toList r
    else if c = '"' then skipString r
    else if c = '[' then skipItems fuel true r
    else if c = '{' then skipMembers fuel true r
    else if c = '-' ∨ c.isDigit then skipNumber (c :: r)
    else throw .malformed

def skipItems : Nat → Bool → List Char → Except ReadError (List Char)
  | 0, _, _ => .error .malformed
  | fuel + 1, first, s => do
    match ← nextItem first s with
    | none => return skipClosing s
    | some s => skipItems fuel false (← skipValue fuel s)

def skipMembers : Nat → Bool → List Char → Except ReadError (List Char)
  | 0, _, _ => .error .malformed
  | fuel + 1, first, s => do
    match ← nextName first s with
    | none => return skipClosing s
    | some s =>
      let s ← skipColon (← skipString s)
      skipMembers fuel false (← skipValue fuel s)

end

def enoughFuel (s : List Char) : Nat :=
  2 * s.length + 2

def parse (text : String) : Except ReadError Json := do
  let s := text.toList
  let (value, rest) ← readValue (enoughFuel s) s
  expectEnd rest
  return value

end Reactivity.Json
