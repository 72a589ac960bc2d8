import Bitzer.Lib.Munch
import Bitzer.Lib.Regex
import Bitzer.Task

/-!
# The scanner

`conf_scan.l` on bytes: its rules in order, flex's default rule, which echoes
the byte, and the beginning-of-line flag. The longest match wins, the first rule
on a tie. `$` needs a newline after the match, which counts for the length of
the match and stays in the input.
-/

namespace Bitzer

open Lib Lib.Regex

/-- The tokens of `conf_gram.y`. The scanner never returns a `string`. -/
inductive Token where
  | openBrace
  | endBrace
  | tokenTask
  | tokenName
  | tokenPath
  | tokenArgs
  | tokenEnv
  | tokenDir
  | semicolon
  | quote
  | number (s : Str)
  | alnumWord (s : Str)
  | alphaWord (s : Str)
  | string (s : Str)
  | path (s : Str)
  | envar (s : Str)
  | argKey (s : Str)
  deriving DecidableEq, Repr

/-- The bytes of ASCII characters. -/
def bytes (cs : List Char) : Str := cs.map Char.toUInt8

def oneOf (cs : List Char) (c : UInt8) : Bool := (bytes cs).contains c

/-- `[0-9]`. -/
def isDigit (c : UInt8) : Bool := 48 ≤ c && c ≤ 57

/-- `[a-zA-Z]`. -/
def isAlpha (c : UInt8) : Bool := (97 ≤ c && c ≤ 122) || (65 ≤ c && c ≤ 90)

/-! ## The patterns -/

namespace Pattern

def number : Regex UInt8 := plus (cls isDigit)

/-- `[0-9]+[_a-zA-Z-]*`. -/
def alnumWord : Regex UInt8 :=
  seq (plus (cls isDigit)) (star (cls fun c => isAlpha c || oneOf ['_', '-'] c))

/-- `[a-zA-Z][\.\/_a-zA-Z0-9-]*`. -/
def alphaWord : Regex UInt8 :=
  seq (cls isAlpha) (star (cls fun c => isAlpha c || isDigit c || oneOf ['.', '/', '_', '-'] c))

/-- `\/[-\.+a-zA-Z0-9]*(\/[-\._+a-zA-Z0-9]*)*`. -/
def path : Regex UInt8 :=
  seq (cls (oneOf ['/'])) (seq
    (star (cls fun c => isAlpha c || isDigit c || oneOf ['-', '.', '+'] c))
    (star (seq (cls (oneOf ['/']))
      (star (cls fun c => isAlpha c || isDigit c || oneOf ['-', '.', '_', '+'] c)))))

/-- `-(-)?[^ \t\n;0-9-]+`. -/
def argKey : Regex UInt8 :=
  seq (cls (oneOf ['-'])) (seq (opt (cls (oneOf ['-'])))
    (plus (cls fun c => !(isDigit c || oneOf [' ', '\t', '\n', ';', '-'] c))))

/-- `[a-zA-Z][a-zA-Z0-9]*=[^;\n]+`. -/
def envar : Regex UInt8 :=
  seq (cls isAlpha) (seq (star (cls fun c => isAlpha c || isDigit c)) (seq (cls (oneOf ['=']))
    (plus (cls fun c => !oneOf [';', '\n'] c))))

/-- `[ \t]+`. -/
def blanks : Regex UInt8 := plus (cls (oneOf [' ', '\t']))

/-- `#.*` and the newline that `$` asks for. -/
def comment : Regex UInt8 :=
  seq (cls (oneOf ['#'])) (seq (star (cls fun c => !oneOf ['\n'] c)) (cls (oneOf ['\n'])))

end Pattern

/-! ## The rules -/

structure Rule where
  /-- `^`: at the beginning of a line only. -/
  bol : Bool := false
  /-- The pattern with its trailing context. -/
  pattern : Regex UInt8
  /-- The length of the trailing context. -/
  trail : Nat := 0
  /-- What it returns, if anything. -/
  action : Str → Option Token

/-- `strdup`, which stops at a NUL. -/
def strdup (s : Str) : Str := s.takeWhile fun c => c != 0

def Rule.fixed (cs : List Char) (token : Token) : Rule where
  pattern := lit (bytes cs)
  action _ := some token

def Rule.word (pattern : Regex UInt8) (token : Str → Token) : Rule where
  pattern := pattern
  action yytext := some (token (strdup yytext))

def Rule.skip (pattern : Regex UInt8) : Rule where
  pattern := pattern
  action _ := none

def rules : List Rule := [
  .fixed ['{'] .openBrace,
  .fixed ['}'] .endBrace,
  .fixed ['t', 'a', 's', 'k'] .tokenTask,
  .fixed ['n', 'a', 'm', 'e'] .tokenName,
  .fixed ['p', 'a', 't', 'h'] .tokenPath,
  .fixed ['a', 'r', 'g', 's'] .tokenArgs,
  .fixed ['e', 'n', 'v'] .tokenEnv,
  .fixed ['d', 'i', 'r'] .tokenDir,
  .fixed ['"'] .quote,
  .fixed [';'] .semicolon,
  .word Pattern.number .number,
  .word Pattern.alnumWord .alnumWord,
  .word Pattern.alphaWord .alphaWord,
  .word Pattern.path .path,
  .word Pattern.argKey .argKey,
  .word Pattern.envar .envar,
  .skip (lit (bytes ['\n'])),
  .skip Pattern.blanks,
  { bol := true, pattern := Pattern.comment, trail := 1, action := fun _ => none }]

/-- What a match of the rule at the start of the text is long. -/
def Rule.len (bol : Bool) (s : Str) (r : Rule) : Option Nat :=
  if r.bol && !bol then none else r.pattern.longest s

/-- A piece of the text, the token it gives, and whether it was echoed. -/
structure Lexeme where
  text : Str
  token : Option Token
  echoed : Bool := false
  deriving DecidableEq

/-- `yy_at_bol` after a match. -/
def endsLine (yytext : Str) : Bool := yytext.getLast? == some 10

/-- The lexeme at the start of a non-empty text. -/
def lexeme (bol : Bool) (s : Str) : Nat × Bool × Lexeme :=
  match firstLongest (Rule.len bol s) rules with
  | some (r, n) =>
      let yytext := s.take (n - r.trail)
      (yytext.length, endsLine yytext, { text := yytext, token := r.action yytext })
  | none =>
      let yytext := s.take 1
      (yytext.length, endsLine yytext, { text := yytext, token := none, echoed := true })

/-- The lexemes of a text. -/
def lexemes (s : Str) : List Lexeme := scanFrom lexeme 0 true s

/-- The tokens that `yylex` returns. -/
def yylex (s : Str) : List Token := (lexemes s).filterMap Lexeme.token

end Bitzer
