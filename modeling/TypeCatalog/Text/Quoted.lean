/-!
Quoted text, as values are shown to a developer. A quotation mark and a backslash are escaped, as
are the control characters; all else is written as it is. The rule is stated for ASCII texts.
-/

namespace TypeCatalog.Quoted

def hexDigits (n : Nat) : String :=
  String.ofList (Nat.toDigits 16 n)

def escape (c : Char) : String :=
  match c with
  | '"' => "\\\""
  | '\\' => "\\\\"
  | '\n' => "\\n"
  | '\r' => "\\r"
  | '\t' => "\\t"
  | '\x00' => "\\0"
  | c => if c.toNat < 32 ∨ c.toNat = 127 then "\\u\x7b" ++ hexDigits c.toNat ++ "\x7d"
    else String.singleton c

def quote (text : String) : String :=
  "\"" ++ String.join (text.toList.map escape) ++ "\""

end TypeCatalog.Quoted
