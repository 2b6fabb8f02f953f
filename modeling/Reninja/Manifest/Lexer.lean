import Reninja.Manifest.Env

/-!
# The lexer

`Lexer` cuts a manifest into tokens, paths and values. A call reads at the offset the last one
left; behind the input it reads NUL bytes. The rules of the generated scanners take the longest
match, and the first rule of that length.
-/

namespace Reninja

structure Lexer where
  filename : GoString := []
  input : GoString := []
  ofs : Nat := 0
  lastToken : Int := -1

namespace Lexer

inductive Token where
  | error | build | colon | default | equals | ident | «include» | indent | newline
  | pipe2 | pipe | pipeAt | pool | rule | subninja | eof
  deriving DecidableEq, Repr

def tokenName : Token → GoString
  | .error     => "lexing error"
  | .build     => "'build'"
  | .colon     => "':'"
  | .default   => "'default'"
  | .equals    => "'='"
  | .ident     => "identifier"
  | .«include» => "'include'"
  | .indent    => "indent"
  | .newline   => "newline"
  | .pipe      => "'|'"
  | .pipe2     => "'||'"
  | .pipeAt    => "'|@'"
  | .pool      => "'pool'"
  | .rule      => "'rule'"
  | .subninja  => "'subninja'"
  | .eof       => "eof"

def tokenErrorHint : Token → GoString
  | .colon => " ($ also escapes ':')"
  | _ => []

variable (l : Lexer)

def start (filename input : GoString) : Lexer := { filename := filename, input := input }

def rest : GoString := l.input.drop l.ofs

/-- The position of the last token: its line, counted from one, and where that line starts. -/
def lineOf : GoString × Nat :=
  let before := l.input.take l.lastToken.toNat
  (Nat.toDigits 10 (before.count 10 + 1) |>.map fun c => UInt8.ofNat c.toNat,
    before.length - (before.reverse.takeWhile (· ≠ 10)).length)

/-- The end of the text quoted from `i` on: the loop stops at a newline or at the end of the
input, and at the latest at the 72nd byte of the input; the flag is for a text that is cut. -/
def quoteEnd (input : GoString) : Nat → Nat → Nat × Bool
  | 0, i => (i, true)
  | fuel + 1, i =>
    if i < 72 then
      match input[i]? with
      | none => (i, false)
      | some c => if c = 10 then (i, false) else quoteEnd input fuel (i + 1)
    else
      (i, true)

def column (lineStart : Nat) : Int := if l.lastToken ≠ 0 then l.lastToken - lineStart else 0

def error (message : GoString) : GoString :=
  let (line, lineStart) := l.lineOf
  let col := l.column lineStart
  let head := l.filename ++ (":" : GoString) ++ line ++ (": " : GoString) ++ message ++ [10]
  if 0 < col ∧ col < 72 then
    let (last, truncated) := quoteEnd l.input 72 lineStart
    head ++ (l.input.take last).drop lineStart ++ (if truncated then ("..." : GoString) else []) ++
      [10] ++ List.replicate col.toNat 32 ++ ("^ near here" : GoString)
  else
    head

/-! ### Tokens -/

def isSimpleVarname (c : UInt8) : Bool :=
  (97 ≤ c && c ≤ 122) || (65 ≤ c && c ≤ 90) || (48 ≤ c && c ≤ 57) || c = 95 || c = 45

def isVarname (c : UInt8) : Bool := isSimpleVarname c || c = 46

/-- The token for a longest run of name characters. -/
def wordToken (word : GoString) : Token :=
  if word = "build" then .build
  else if word = "pool" then .pool
  else if word = "rule" then .rule
  else if word = "default" then .default
  else if word = "include" then .«include»
  else if word = "subninja" then .subninja
  else .ident

def matchWord (c : UInt8) (cs : GoString) : Token × Nat :=
  if c = 61 then (.equals, 1)
  else if c = 58 then (.colon, 1)
  else if c = 124 then
    match cs.head? with
    | some 64 => (.pipeAt, 2)
    | some 124 => (.pipe2, 2)
    | _ => (.pipe, 1)
  else if isVarname c then
    let word := (c :: cs).takeWhile isVarname
    (wordToken word, word.length)
  else if c = 0 then (.eof, 1)
  else (.error, 1)

/-- What `ReadToken` matches at the front of a text: a comment, for which there is no token, or
a token, and the length of the match. -/
def matchToken (s : GoString) : Option Token × Nat :=
  let spaces := (s.takeWhile (· = 32)).length
  let indent : Option Token × Nat := (some .indent, spaces)
  match s.drop spaces with
  | [] => if spaces = 0 then (some .eof, 1) else indent
  | c :: cs =>
    if c = 35 ∧ (cs.dropWhile fun c => c ≠ 0 && c ≠ 10).head? = some 10 then
      (none, spaces + (cs.takeWhile fun c => c ≠ 0 && c ≠ 10).length + 2)
    else if c = 13 ∧ cs.head? = some 10 then (some .newline, spaces + 2)
    else if c = 10 then (some .newline, spaces + 1)
    else if spaces = 0 then ((matchWord c cs).1, (matchWord c cs).2)
    else indent

def comments : Nat → GoString → Nat
  | 0, _ => 0
  | fuel + 1, s =>
    match matchToken s with
    | (none, n) => n + comments fuel (s.drop n)
    | (some _, _) => 0

/-- The length of the white space after a token: spaces and escaped line ends. -/
def whitespace : GoString → Nat
  | [] => 0
  | c :: cs =>
    if c = 32 then 1 + whitespace cs
    else match c, cs with
      | 36, 10 :: s => 2 + whitespace s
      | 36, 13 :: 10 :: s => 3 + whitespace s
      | _, _ => 0

def eatWhitespace : Lexer := { l with ofs := l.ofs + whitespace l.rest }

def readToken : Token × Lexer :=
  let start := l.ofs + comments l.rest.length l.rest
  let (token, n) := matchToken (l.input.drop start)
  let token := token.getD .error
  let l := { l with lastToken := start, ofs := start + n }
  (token, if token ≠ .newline ∧ token ≠ .eof then l.eatWhitespace else l)

def unreadToken : Lexer := { l with ofs := l.lastToken.toNat }

/-- A byte that no rule of `ReadEvalString` singles out. -/
def isPlain (c : UInt8) : Bool :=
  c ≠ 36 && c ≠ 32 && c ≠ 58 && c ≠ 13 && c ≠ 10 && c ≠ 124 && c ≠ 0

/-- One match of `ReadEvalString`. -/
inductive Piece where
  /-- Text that is added, and the length of the match. -/
  | text (t : GoString) (length : Nat)
  /-- A variable, and the length of the match. -/
  | special (name : GoString) (length : Nat)
  /-- The end, and the length of what is taken with it. -/
  | done (length : Nat)
  | badEscape
  | unexpectedEof
  | lexingError
  deriving DecidableEq, Repr

/-- A match that starts with `$`, given what follows it. -/
def matchEscape (cs : GoString) : Piece :=
  match cs.head? with
  | some 36 => .text [36] 2
  | some 32 => .text [32] 2
  | some 58 => .text [58] 2
  | some 94 => .text [10] 2
  | some 10 => .text [] (2 + (cs.tail.takeWhile (· = 32)).length)
  | some 13 =>
    if cs.tail.head? = some 10 then .text [] (3 + (cs.tail.tail.takeWhile (· = 32)).length)
    else .badEscape
  | some 123 =>
    let name := cs.tail.takeWhile isVarname
    if name ≠ [] ∧ (cs.tail.dropWhile isVarname).head? = some 125 then
      .special name (name.length + 3)
    else .badEscape
  | some _ =>
    let name := cs.takeWhile isSimpleVarname
    if name ≠ [] then .special name (name.length + 1) else .badEscape
  | none => .badEscape

def matchPiece (path : Bool) (s : GoString) : Piece :=
  match s with
  | [] => .unexpectedEof
  | c :: cs =>
    if isPlain c then .text (s.takeWhile isPlain) (s.takeWhile isPlain).length
    else if c = 13 then
      if cs.head? = some 10 then .done (if path then 0 else 2) else .lexingError
    else if c = 36 then matchEscape cs
    else if c = 0 then .unexpectedEof
    else if path then .done 0
    else if c = 10 then .done 1
    else .text [c] 1

end Lexer

end Reninja
