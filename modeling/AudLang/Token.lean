import AudLang.Position

/-!
Tokens: the words of the language.
-/

namespace AudLang

/-- The reserved words. -/
inductive Keyword where
  | func | int | float | bool | string | folder | file | audio | list
  | if_ | else_ | while_ | return_ | true_ | false_ | void | null
deriving DecidableEq, Repr

namespace Keyword

/-- The spelling of a reserved word. -/
def spelling : Keyword → String
  | func => "func" | int => "int" | float => "float" | bool => "bool" | string => "string"
  | folder => "Folder" | file => "File" | audio => "Audio" | list => "List"
  | if_ => "if" | else_ => "else" | while_ => "while" | return_ => "return"
  | true_ => "true" | false_ => "false" | void => "void" | null => "null"

/-- The name of the word's kind of token. -/
def kindName : Keyword → String
  | func => "KEYWORD_FUNC" | int => "KEYWORD_INT" | float => "KEYWORD_FLOAT"
  | bool => "KEYWORD_BOOL" | string => "KEYWORD_STRING" | folder => "KEYWORD_FOLDER"
  | file => "KEYWORD_FILE" | audio => "KEYWORD_AUDIO" | list => "KEYWORD_LIST"
  | if_ => "KEYWORD_IF" | else_ => "KEYWORD_ELSE" | while_ => "KEYWORD_WHILE"
  | return_ => "KEYWORD_RETURN" | true_ => "KEYWORD_TRUE" | false_ => "KEYWORD_FALSE"
  | void => "KEYWORD_VOID" | null => "KEYWORD_NULL"

/-- All reserved words. -/
def all : List Keyword :=
  [func, int, float, bool, string, folder, file, audio, list,
   if_, else_, while_, return_, true_, false_, void, null]

/-- The reserved word with this spelling. -/
def ofSpelling? (s : String) : Option Keyword := all.find? (·.spelling = s)

end Keyword

/-- Operators and punctuation. -/
inductive Symbol where
  | assign | plus | minus | times | divide | eq | ne | lt | le | gt | ge | and_ | or_
  | lparen | rparen | lbrace | rbrace | lbracket | rbracket | comma | semicolon | dot
deriving DecidableEq, Repr

namespace Symbol

/-- The spelling of a symbol. -/
def spelling : Symbol → String
  | assign => "=" | plus => "+" | minus => "-" | times => "*" | divide => "/"
  | eq => "==" | ne => "!=" | lt => "<" | le => "<=" | gt => ">" | ge => ">="
  | and_ => "&&" | or_ => "||"
  | lparen => "(" | rparen => ")" | lbrace => "\x7b" | rbrace => "\x7d"
  | lbracket => "[" | rbracket => "]" | comma => "," | semicolon => ";" | dot => "."

/-- The name of the symbol's kind of token. -/
def kindName : Symbol → String
  | assign => "OP_ASSIGN" | plus => "OP_PLUS" | minus => "OP_MINUS" | times => "OP_MULTIPLY"
  | divide => "OP_DIVIDE" | eq => "OP_EQ" | ne => "OP_NEQ" | lt => "OP_LT" | le => "OP_LTE"
  | gt => "OP_GT" | ge => "OP_GTE" | and_ => "OP_AND" | or_ => "OP_OR"
  | lparen => "LPAREN" | rparen => "RPAREN" | lbrace => "LBRACE" | rbrace => "RBRACE"
  | lbracket => "LBRACKET" | rbracket => "RBRACKET" | comma => "COMMA"
  | semicolon => "SEMICOLON" | dot => "DOT"

end Symbol

/-- The kinds of tokens that grammar rules distinguish. -/
inductive Kind where
  | keyword (word : Keyword)
  | identifier
  | intLiteral
  | floatLiteral
  | stringLiteral
  | symbol (mark : Symbol)
  | eof
deriving DecidableEq, Repr

/-- The name of a kind of token. -/
def Kind.name : Kind → String
  | keyword word => word.kindName
  | identifier => "IDENTIFIER"
  | intLiteral => "LITERAL_INT"
  | floatLiteral => "LITERAL_FLOAT"
  | stringLiteral => "LITERAL_STRING"
  | symbol mark => mark.kindName
  | eof => "EOF"

/-- What a token says. -/
inductive Lexeme where
  | keyword (word : Keyword)
  | identifier (name : String)
  | int (value : Nat)
  | float (value : Float)
  | string (value : String)
  | symbol (mark : Symbol)
deriving Repr

/-- The kind of a lexeme. -/
def Lexeme.kind : Lexeme → Kind
  | keyword word => .keyword word
  | identifier _ => .identifier
  | int _ => .intLiteral
  | float _ => .floatLiteral
  | string _ => .stringLiteral
  | symbol mark => .symbol mark

/-- A lexeme and the place of its first character. -/
structure Token where
  lexeme : Lexeme
  position : Position
deriving Repr

/-- The kind of a token. -/
def Token.kind (t : Token) : Kind := t.lexeme.kind

/-- The name in an identifier token, empty for other tokens. -/
def Token.identifier (t : Token) : String :=
  match t.lexeme with
  | .identifier s => s
  | _ => ""

end AudLang
