import DerivativeParsing.Text.Printable

/-!
# Quoted text

Two ways to write a text so that every character can be seen. `quoted` is for diagnostics: it
encloses the text in a mark and escapes that mark, the backslash, the common control characters and
whatever is not printable. `ascii` is for labels: only printable ASCII stays as it is.
-/

namespace DerivativeParsing.Text

/-- A number in base sixteen, lower case, without leading zeros. -/
def hex (n : Nat) : String := String.ofList (Nat.toDigits 16 n)

/-- The escape that names a character by its code point. -/
def codePoint (c : Char) : String := "\\u\x7b" ++ hex c.toNat ++ "\x7d"

/-- One character of a text that is enclosed in `mark`. -/
def quotedChar (mark c : Char) : String :=
  if c = '\x00' then "\\0"
  else if c = '\t' then "\\t"
  else if c = '\r' then "\\r"
  else if c = '\n' then "\\n"
  else if c = '\\' then "\\\\"
  else if c = mark then "\\" ++ String.singleton mark
  else if isPrintable c then String.singleton c
  else codePoint c

def quoted (mark : Char) (s : String) : String :=
  String.singleton mark ++ s.foldl (fun acc c => acc ++ quotedChar mark c) "" ++
    String.singleton mark

/-- One character of a label, in printable ASCII; both quotation marks are escaped. -/
def asciiChar (c : Char) : String :=
  if c = '\t' then "\\t"
  else if c = '\r' then "\\r"
  else if c = '\n' then "\\n"
  else if c = '\x27' then "\\\x27"
  else if c = '\x22' then "\\\""
  else if c = '\\' then "\\\\"
  else if 0x20 ≤ c.toNat && c.toNat ≤ 0x7e then String.singleton c
  else codePoint c

def ascii (s : String) : String :=
  s.foldl (fun acc c => acc ++ asciiChar c) ""

/-- A number written to the right of a field of `width` blanks. -/
def alignRight (width n : Nat) : String :=
  let digits := toString n
  String.ofList (List.replicate (width - digits.length) ' ') ++ digits

end DerivativeParsing.Text
