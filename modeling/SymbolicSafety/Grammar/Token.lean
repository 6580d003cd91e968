namespace SymbolicSafety

/-! The words of the formula language. -/

inductive Token where
  | openParen
  | closeParen
  | bang
  | conjunction
  | disjunction
  | implies
  | iff
  | equal
  | unequal
  | less
  | lessEqual
  | greater
  | greaterEqual
  | plus
  | minus
  | star
  | slash
  | percent
  | tick
  | atSign
  | ifWord
  | thenWord
  | elseWord
  | trueWord
  | falseWord
  | literal (value : Int64)
  | name (word : String)
  deriving DecidableEq, Repr, Inhabited

namespace Token

def text : Token → String
  | .openParen => "("
  | .closeParen => ")"
  | .bang => "!"
  | .conjunction => "/\\"
  | .disjunction => "\\/"
  | .implies => "=>"
  | .iff => "<=>"
  | .equal => "="
  | .unequal => "!="
  | .less => "<"
  | .lessEqual => "<="
  | .greater => ">"
  | .greaterEqual => ">="
  | .plus => "+"
  | .minus => "-"
  | .star => "*"
  | .slash => "/"
  | .percent => "%"
  | .tick => "'"
  | .atSign => "@"
  | .ifWord => "if"
  | .thenWord => "then"
  | .elseWord => "else"
  | .trueWord => "true"
  | .falseWord => "false"
  | .literal value => value.toInt.repr
  | .name word => word

def ofWord (word : String) : Token :=
  match word with
  | "if" => .ifWord
  | "then" => .thenWord
  | "else" => .elseWord
  | "true" => .trueWord
  | "false" => .falseWord
  | word => .name word

end Token

/-- Why a text is not a formula. Reading stops at the first character, or the
first token, at which what was read so far has no valid continuation. -/
inductive ReadError where
  | lexing (found : Option Char)
  | parsing (found : Option Token)
  | unknownName (name : String)
  deriving DecidableEq, Repr

namespace ReadError

def quoted : Option String → String
  | some found => "'" ++ found ++ "'"
  | none => "end of input"

def message : ReadError → String
  | .lexing found => "lexing error: found " ++ quoted (found.map Char.toString)
  | .parsing found => "parse error: found " ++ quoted (found.map Token.text)
  | .unknownName name => "Unknown identifier `" ++ name ++ "`."

end ReadError

end SymbolicSafety
