import Xv6.Shell.Grammar

/-!
# Shell — the parser

`gettoken`, `peek` and the functions of `sh.c` that parse a command line.

A pointer into the line is the string that starts there: `es` is the empty string, and `*s` is
`deref s`.  A word of a command is the pair `q`, `eq` of pointers that `gettoken` returns; after
parsing, `nulterminate` stores a NUL at every `eq`.
-/

namespace Xv6.Sh

open Fs (Str deref O_RDONLY O_WRONLY O_CREATE)

/-- The calls of `panic` in the parser. -/
inductive Panic where
  | leftovers
  | missingFile
  | parseblock
  | missingParen
  | noArgument
  | tooManyArgs
  deriving DecidableEq, Repr

/-- What `panic` prints. -/
def Panic.msg : Panic → String
  | .leftovers => "syntax"
  | .missingFile => "missing file for redirection"
  | .parseblock => "parseblock"
  | .missingParen => "syntax - missing )"
  | .noArgument => "syntax"
  | .tooManyArgs => "too many args"

/-- What ends the parser without a tree; `fuel` is no behaviour of the code, it marks a bound on the
depth of recursion that was too small. -/
inductive Stop where
  | panic (p : Panic)
  | fuel
  deriving DecidableEq, Repr

/-- What the parser returns, or why it stops. -/
abbrev Parse (α : Type) := Except Stop α

/-- The characters of a token: `q` and `eq` point to the first and behind the last. -/
structure Word where
  q : Str
  eq : Str
  deriving DecidableEq, Repr

/-- `" \t\r\n\v"`. -/
def whitespace : List UInt8 := [32, 9, 13, 10, 11]

/-- `"<|>&;()"`. -/
def symbols : List UInt8 := [60, 124, 62, 38, 59, 40, 41]

/-- `while (s < es && strchr(whitespace, *s)) s++;` -/
def skip (s : Str) : Str := s.dropWhile (· ∈ whitespace)

/-- The character goes on with a word. -/
def isWordChar (c : UInt8) : Bool := c ∉ whitespace ∧ c ∉ symbols

/-- What `gettoken` returns, and where it leaves `*ps`. -/
structure Got where
  ret : UInt8
  word : Word
  rest : Str

/-- The `switch` of `gettoken` at `q`: the result, and where the token ends. -/
def scan (q : Str) : UInt8 × Str :=
  match q with
  | [] => (0, [])
  | c :: cs =>
      -- '|', '(', ')', ';', '&', '<'
      if c ∈ ([124, 40, 41, 59, 38, 60] : List UInt8) then (c, cs)
      else if c = 62 then
        -- ">>" is returned as '+'
        if deref cs = 62 then (43, cs.tail) else (62, cs)
      else (97, q.dropWhile isWordChar)

/-- `gettoken`: the kind of the token, the word, and what is left. -/
def gettoken (s : Str) : Got :=
  let q := skip s
  ⟨(scan q).1, ⟨q, (scan q).2⟩, skip (scan q).2⟩

/-- `peek`: whether the next character is one of `toks`. -/
def peek (s : Str) (toks : List UInt8) : Bool × Str :=
  let s := skip s
  (deref s ≠ 0 ∧ deref s ∈ toks, s)

/-- The `switch` of `parseredirs`. -/
def redirect (tok : UInt8) (cmd : Cmd Word) (w : Word) : Cmd Word :=
  if tok = 60 then .redir cmd w O_RDONLY 0
  else if tok = 62 then .redir cmd w (O_WRONLY ||| O_CREATE) 1
  else if tok = 43 then .redir cmd w (O_WRONLY ||| O_CREATE) 1
  else cmd

/-- `parseredirs`: every redirection wraps the command once more. -/
def parseredirs : ℕ → Cmd Word → Str → Parse (Cmd Word × Str)
  | 0, _, _ => .error .fuel
  | n + 1, cmd, s =>
      let (more, s) := peek s [60, 62]
      if more then
        let tok := gettoken s
        let file := gettoken tok.rest
        if file.ret ≠ 97 then .error (.panic .missingFile)
        else parseredirs n (redirect tok.ret cmd file.word) file.rest
      else .ok (cmd, s)

/-- `cmd->argv[argc] = q`, where `cmd` is the command inside the redirections of `ret`. -/
def Cmd.addArg {α : Type} (w : α) : Cmd α → Cmd α
  | .exec argv => .exec (argv ++ [w])
  | .redir cmd file mode fd => .redir (cmd.addArg w) file mode fd
  | cmd => cmd

/-- The loop of `parseexec`. -/
def parseargs : ℕ → ℕ → Cmd Word → Str → Parse (Cmd Word × Str)
  | 0, _, _, _ => .error .fuel
  | n + 1, argc, ret, s =>
      let (stop, s) := peek s [124, 41, 38, 59]
      if stop then .ok (ret, s)
      else
        let tok := gettoken s
        if tok.ret = 0 then .ok (ret, tok.rest)
        else if tok.ret ≠ 97 then .error (.panic .noArgument)
        else
          let ret := ret.addArg tok.word
          if MAXARGS ≤ argc + 1 then .error (.panic .tooManyArgs)
          else do
            let (ret, s) ← parseredirs (tok.rest.length + 1) ret tok.rest
            parseargs n (argc + 1) ret s

/-- The loop of `parseline`. -/
def parsebacks : ℕ → Cmd Word → Str → Parse (Cmd Word × Str)
  | 0, _, _ => .error .fuel
  | n + 1, cmd, s =>
      let (more, s) := peek s [38]
      if more then parsebacks n (.back cmd) (gettoken s).rest else .ok (cmd, s)

mutual

/-- `parseline`. -/
def parseline : ℕ → Str → Parse (Cmd Word × Str)
  | 0, _ => .error .fuel
  | n + 1, s => do
      let (cmd, s) ← parsepipe n s
      let (cmd, s) ← parsebacks (s.length + 1) cmd s
      let (more, s) := peek s [59]
      if more then
        let (right, s) ← parseline n (gettoken s).rest
        pure (.list cmd right, s)
      else pure (cmd, s)

/-- `parsepipe`. -/
def parsepipe : ℕ → Str → Parse (Cmd Word × Str)
  | 0, _ => .error .fuel
  | n + 1, s => do
      let (cmd, s) ← parseexec n s
      let (more, s) := peek s [124]
      if more then
        let (right, s) ← parsepipe n (gettoken s).rest
        pure (.pipe cmd right, s)
      else pure (cmd, s)

/-- `parseexec`: a block, or the words of a command among its redirections. -/
def parseexec : ℕ → Str → Parse (Cmd Word × Str)
  | 0, _ => .error .fuel
  | n + 1, s =>
      let (block, s) := peek s [40]
      if block then parseblock n s
      else do
        let (ret, s) ← parseredirs (s.length + 1) (.exec []) s
        parseargs (s.length + 1) 0 ret s

/-- `parseblock`. -/
def parseblock : ℕ → Str → Parse (Cmd Word × Str)
  | 0, _ => .error .fuel
  | n + 1, s =>
      let (block, s) := peek s [40]
      if ¬ block then .error (.panic .parseblock)
      else do
        let (cmd, s) ← parseline n (gettoken s).rest
        let (closed, s) := peek s [41]
        if ¬ closed then .error (.panic .missingParen)
        else
          let s := (gettoken s).rest
          parseredirs (s.length + 1) cmd s

end

/-- `*p = 0`, in the bytes of a line of `n` characters. -/
def store (n : ℕ) (p : Str) (buf : List UInt8) : List UInt8 := buf.set (n - p.length) 0

/-- `nulterminate`: a NUL after each word, in the buffer of `n` characters. -/
def nulterminate (n : ℕ) : Cmd Word → List UInt8 → List UInt8
  | .exec argv, buf => argv.foldl (fun buf w => store n w.eq buf) buf
  | .redir cmd file _ _, buf => store n file.eq (nulterminate n cmd buf)
  | .pipe left right, buf => nulterminate n right (nulterminate n left buf)
  | .list left right, buf => nulterminate n right (nulterminate n left buf)
  | .back cmd, buf => nulterminate n cmd buf

/-- The tree, and the line with its NULs. -/
def parsecmd (line : Str) : Parse (Cmd Word × List UInt8) := do
  let (cmd, s) ← parseline (4 * line.length + 4) line
  let s := (peek s []).2
  if s ≠ [] then .error (.panic .leftovers)
  else pure (cmd, nulterminate line.length cmd (line ++ [0]))

/-! ### The tokens of a line -/

/-- The characters from `q` up to `eq`. -/
def Word.text (w : Word) : Str := w.q.take (w.q.length - w.eq.length)

/-- The kind of a token. -/
def Got.token (g : Got) : Option Token :=
  if g.ret = 124 then some .bar
  else if g.ret = 40 then some .lparen
  else if g.ret = 41 then some .rparen
  else if g.ret = 59 then some .semi
  else if g.ret = 38 then some .amp
  else if g.ret = 60 then some .lt
  else if g.ret = 62 then some .gt
  else if g.ret = 43 then some .gtgt
  else if g.ret = 97 then some (.word g.word.text)
  else none

/-- The tokens of a line, as many as asked for at most. -/
def tokensUpTo : ℕ → Str → List Token
  | 0, _ => []
  | n + 1, s =>
      match (gettoken s).token with
      | none => []
      | some tk => tk :: tokensUpTo n (gettoken s).rest

/-- What repeated calls of `gettoken` return. -/
def tokens (s : Str) : List Token := tokensUpTo s.length s

/-- The string that a pointer into the line points to in `buf`. -/
def stringAt (n : ℕ) (buf : List UInt8) (p : Str) : Str := (buf.drop (n - p.length)).takeWhile (· ≠ 0)

end Xv6.Sh
