import TreeCode.Text.Hex
import TreeCode.Text.Visible

/-!
# Quoted text

Text between double quotes, on one line and unambiguous: quotes, backslashes and characters that
cannot be shown are escaped.
-/

namespace TreeCode.Text

/-- A character between double quotes. -/
def escape (c : Char) : String :=
  match c with
  | '\x22' => "\\\""
  | '\\' => "\\\\"
  | '\n' => "\\n"
  | '\r' => "\\r"
  | '\t' => "\\t"
  | '\x00' => "\\0"
  | c => if isVisible c then c.toString else "\\u\x7b" ++ hexDigits c.toNat ++ "\x7d"

/-- A text between double quotes. -/
def quoted (s : String) : String := "\"" ++ String.join (s.toList.map escape) ++ "\""

end TreeCode.Text
