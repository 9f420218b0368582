import Xv6.Fs.Layout

/-!
# Shell — commands and the grammar of a line

The command trees of `sh.c`, the tokens a line is made of, and which tokens a line, a pipeline, a
command and a redirection may be, each with the tree it stands for:

    line  ::= pipe '&'* [';' line]
    pipe  ::= exec ['|' pipe]
    exec  ::= '(' line ')' redir* | redir* (word redir*)*
    redir ::= ('<' | '>' | '>>') word

with less than `MAXARGS` words in a command.
-/

namespace Xv6.Sh

open Fs (Str O_RDONLY O_WRONLY O_CREATE)

/-- The length of `argv`. -/
def MAXARGS : ℕ := 10

/-- A parsed command.  Its words are pointers into the line for the parser, and strings for the
grammar. -/
inductive Cmd (α : Type) where
  | exec (argv : List α)
  | redir (cmd : Cmd α) (file : α) (mode fd : ℕ)
  | pipe (left right : Cmd α)
  | list (left right : Cmd α)
  | back (cmd : Cmd α)
  deriving Repr, DecidableEq

namespace Cmd

variable {α β : Type}

/-- The words of a command change. -/
def map (f : α → β) : Cmd α → Cmd β
  | exec argv => exec (argv.map f)
  | redir cmd file mode fd => redir (cmd.map f) (f file) mode fd
  | pipe left right => pipe (left.map f) (right.map f)
  | list left right => list (left.map f) (right.map f)
  | back cmd => back (cmd.map f)

/-- The words of a command. -/
def words : Cmd α → List α
  | exec argv => argv
  | redir cmd file _ _ => file :: cmd.words
  | pipe left right => left.words ++ right.words
  | list left right => left.words ++ right.words
  | back cmd => cmd.words

/-- Maps that agree on the words of a command. -/
theorem map_congr {f g : α → β} {c : Cmd α} (h : ∀ w ∈ c.words, f w = g w) : c.map f = c.map g := by
  induction c with
  | exec argv => exact congrArg exec (List.map_congr_left h)
  | redir cmd file mode fd ih =>
      rw [map, map, h file (List.mem_cons_self ..), ih fun w hw => h w (List.mem_cons_of_mem _ hw)]
  | pipe left right ihl ihr =>
      rw [map, map, ihl fun w hw => h w (List.mem_append_left _ hw),
        ihr fun w hw => h w (List.mem_append_right _ hw)]
  | list left right ihl ihr =>
      rw [map, map, ihl fun w hw => h w (List.mem_append_left _ hw),
        ihr fun w hw => h w (List.mem_append_right _ hw)]
  | back cmd ih => rw [map, map, ih h]

/-- `backcmd` for each of `k` ampersands. -/
def backs : ℕ → Cmd α → Cmd α
  | 0, c => c
  | k + 1, c => backs k (back c)

end Cmd

/-! ### Tokens -/

/-- What a line is made of. -/
inductive Token where
  | bar
  | lparen
  | rparen
  | semi
  | amp
  | lt
  | gt
  | gtgt
  | word (w : Str)
  deriving Repr, DecidableEq

/-! ### The grammar -/

/-- A redirection: its file, its mode, and the descriptor. -/
structure Redirection where
  file : Str
  mode : ℕ
  fd : ℕ

/-- Every redirection wraps the earlier ones. -/
def wrap (fs : List Redirection) (c : Cmd Str) : Cmd Str :=
  fs.foldl (fun c f => .redir c f.file f.mode f.fd) c

/-- `<`, `>`, and `>>`, which opens its file as `>` does. -/
inductive Redir : List Token → Redirection → Prop
  | lt (w : Str) : Redir [.lt, .word w] ⟨w, O_RDONLY, 0⟩
  | gt (w : Str) : Redir [.gt, .word w] ⟨w, O_WRONLY ||| O_CREATE, 1⟩
  | gtgt (w : Str) : Redir [.gtgt, .word w] ⟨w, O_WRONLY ||| O_CREATE, 1⟩

/-- `redir*` -/
inductive Redirs : List Token → List Redirection → Prop
  | nil : Redirs [] []
  | cons {r rs : List Token} {f : Redirection} {fs : List Redirection} (h : Redir r f)
      (hs : Redirs rs fs) : Redirs (r ++ rs) (f :: fs)

/-- `(word redir*)*` -/
inductive Args : List Token → List Str → List Redirection → Prop
  | nil : Args [] [] []
  | cons {w : Str} {rs ts : List Token} {ws : List Str} {fs fs' : List Redirection}
      (hr : Redirs rs fs) (h : Args ts ws fs') : Args (.word w :: rs ++ ts) (w :: ws) (fs ++ fs')

mutual

/-- A line: pipes with `;` between them and `&` behind them. -/
inductive Line : List Token → Cmd Str → Prop
  | pipe {ts : List Token} {c : Cmd Str} (h : Pipe ts c) (k : ℕ) :
      Line (ts ++ List.replicate k .amp) (c.backs k)
  | list {ts ts' : List Token} {c c' : Cmd Str} (h : Pipe ts c) (k : ℕ) (h' : Line ts' c') :
      Line (ts ++ List.replicate k .amp ++ .semi :: ts') (.list (c.backs k) c')

/-- Commands with `|` between them. -/
inductive Pipe : List Token → Cmd Str → Prop
  | exec {ts : List Token} {c : Cmd Str} (h : Exec ts c) : Pipe ts c
  | pipe {ts ts' : List Token} {c c' : Cmd Str} (h : Exec ts c) (h' : Pipe ts' c') :
      Pipe (ts ++ .bar :: ts') (.pipe c c')

/-- A command: a block in parentheses, or words, and redirections among them. -/
inductive Exec : List Token → Cmd Str → Prop
  | block {ts rs : List Token} {c : Cmd Str} {fs : List Redirection} (h : Line ts c)
      (hr : Redirs rs fs) : Exec (.lparen :: ts ++ .rparen :: rs) (wrap fs c)
  | words {rs ts : List Token} {ws : List Str} {fs fs' : List Redirection} (hr : Redirs rs fs)
      (ha : Args ts ws fs') (hlen : ws.length < MAXARGS) :
      Exec (rs ++ ts) (wrap (fs ++ fs') (.exec ws))

end

end Xv6.Sh
