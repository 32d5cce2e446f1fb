/-!
# Escaped text

How strings and characters are written so that they can be read back: a string stands in double
quotes with five characters escaped, a character follows a backslash and a few have names.
-/
namespace LispKernel.Text

def escapeChar : Char → List Char
  | '\n' => ['\\', 'n']
  | '\t' => ['\\', 't']
  | '\r' => ['\\', 'r']
  | '\\' => ['\\', '\\']
  | '"' => ['\\', '"']
  | c => [c]

def escape (text : List Char) : List Char := text.flatMap escapeChar

def quote (text : String) : String := String.ofList ('"' :: escape text.toList ++ ['"'])

def charName : Char → String
  | '\n' => "newline"
  | ' ' => "space"
  | '\t' => "tab"
  | '\r' => "return"
  | '\x08' => "backspace"
  | '\x0c' => "formfeed"
  | c => c.toString

end LispKernel.Text
