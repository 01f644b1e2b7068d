import BlockScope.Text.Visible
/-!
# Quoted text

Text between double quotes on one line. The quote, the backslash, NUL, tab, line feed and carriage
return are written with a backslash and a letter; any other character that cannot be shown as it is
is written as its code point in braces.
-/
namespace BlockScope.Text

/-- A code point as `\u`, then its lowercase hexadecimal digits in braces. -/
def codePointEscape (c : Char) : String :=
  "\\u\x7b" ++ String.ofList (Nat.toDigits 16 c.toNat) ++ "\x7d"

/-- How one character is written between the quotes. -/
def quoteChar (c : Char) : String :=
  if c = '\x00' then "\\0"
  else if c = '\t' then "\\t"
  else if c = '\r' then "\\r"
  else if c = '\n' then "\\n"
  else if c = '\\' then "\\\\"
  else if c = '"' then "\\\""
  else if isVisible c then c.toString
  else codePointEscape c

/-- The text between double quotes. -/
def quote (text : String) : String :=
  "\"" ++ String.join (text.toList.map quoteChar) ++ "\""

end BlockScope.Text
