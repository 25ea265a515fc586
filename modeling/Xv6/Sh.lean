import Xv6.Lib.Except

namespace Xv6.Sh

-- user/sh.c, the parser of the shell. A line is the bytes of a string before its NUL; a
-- char* into it is an index.
abbrev Byte := BitVec 8

def ch (c : Char) : Byte := BitVec.ofNat 8 c.toNat

def MAXARGS : Nat := 10
def O_RDONLY : Nat := 0x000
def O_WRONLY : Nat := 0x001
def O_CREATE : Nat := 0x200
def O_TRUNC : Nat := 0x400

def whitespace : List Byte := [ch ' ', ch '\t', ch '\r', ch '\n', 0x0b]
def symbols : List Byte := [ch '<', ch '|', ch '>', ch '&', ch ';', ch '(', ch ')']

def charAt (line : List Byte) (s : Nat) : Byte := line.getD s 0

-- `while(s < es && p(*s)) s++`, in at most that many turns.
def advance (line : List Byte) (p : Byte → Bool) : Nat → Nat → Nat
  | 0, s => s
  | turns + 1, s => if s < line.length ∧ p (charAt line s) = true then advance line p turns (s + 1) else s

def isSpace (b : Byte) : Bool := whitespace.contains b
def isWord (b : Byte) : Bool := !whitespace.contains b && !symbols.contains b

def skip (line : List Byte) (s : Nat) : Nat := advance line isSpace (line.length - s) s

-- A token: what gettoken() returns, where the token begins and ends, and where the next one is.
structure Scanned where
  ret : Byte
  q : Nat
  eq : Nat
  s : Nat
  deriving DecidableEq

def gettoken (line : List Byte) (s : Nat) : Scanned :=
  let q := skip line s
  let c := charAt line q
  let (ret, eq) :=
    if c = 0 then (0, q)
    else if c = ch '|' ∨ c = ch '(' ∨ c = ch ')' ∨ c = ch ';' ∨ c = ch '&' ∨ c = ch '<' then (c, q + 1)
    else if c = ch '>' then
      if charAt line (q + 1) = ch '>' then (ch '+', q + 2) else (c, q + 1)
    else (ch 'a', advance line isWord (line.length - q) q)
  { ret := ret, q := q, eq := eq, s := skip line eq }

def peek (line : List Byte) (s : Nat) (toks : List Byte) : Bool × Nat :=
  let s := skip line s
  (charAt line s ≠ 0 && toks.contains (charAt line s), s)

-- The counted strings of a command, and the commands over them. argv ends with the null
-- pointer.
structure Slice where
  q : Nat
  eq : Nat
  deriving DecidableEq

inductive Cmd (α : Type) where
  | exec (argv : List α)
  | redir (cmd : Cmd α) (file : α) (mode fd : Nat)
  | pipe (left right : Cmd α)
  | list (left right : Cmd α)
  | back (cmd : Cmd α)
  deriving DecidableEq

def Cmd.map {α β : Type} (f : α → β) : Cmd α → Cmd β
  | .exec argv => .exec (argv.map f)
  | .redir cmd file mode fd => .redir (cmd.map f) (f file) mode fd
  | .pipe left right => .pipe (left.map f) (right.map f)
  | .list left right => .list (left.map f) (right.map f)
  | .back cmd => .back (cmd.map f)

-- cmd->argv[argc] = q, where cmd is the execcmd that the redirections are wrapped around.
def Cmd.addArg {α : Type} (w : α) : Cmd α → Cmd α
  | .exec argv => .exec (argv ++ [w])
  | .redir cmd file mode fd => .redir (cmd.addArg w) file mode fd
  | cmd => cmd

-- The calls of panic() in the parser, with the text each passes.
inductive Panic where
  | leftovers      -- "syntax", after the leftovers have been printed
  | missingFile    -- "missing file for redirection"
  | parseblock     -- "parseblock"
  | missingParen   -- "syntax - missing )"
  | argument       -- "syntax"
  | tooManyArgs    -- "too many args"
  | turns          -- no panic() of its own: more turns than the model gives
  deriving DecidableEq

section Parse

variable (line : List Byte)

def parseredirs : Nat → Cmd Slice → Nat → Except Panic (Cmd Slice × Nat)
  | 0, _, _ => .error .turns
  | fuel + 1, cmd, s =>
    let (more, s) := peek line s [ch '<', ch '>']
    if more then
      let tok := gettoken line s
      let file := gettoken line tok.s
      if file.ret ≠ ch 'a' then .error .missingFile
      else
        let w := { q := file.q, eq := file.eq }
        let cmd :=
          if tok.ret = ch '<' then .redir cmd w O_RDONLY 0
          else if tok.ret = ch '>' then .redir cmd w (O_WRONLY ||| O_CREATE ||| O_TRUNC) 1
          else if tok.ret = ch '+' then .redir cmd w (O_WRONLY ||| O_CREATE) 1
          else cmd
        parseredirs fuel cmd file.s
    else .ok (cmd, s)

def parseargs : Nat → Cmd Slice → Nat → Nat → Except Panic (Cmd Slice × Nat)
  | 0, _, _, _ => .error .turns
  | fuel + 1, ret, argc, s =>
    let (stop, s) := peek line s [ch '|', ch ')', ch '&', ch ';']
    if stop then .ok (ret, s)
    else
      let tok := gettoken line s
      if tok.ret = 0 then .ok (ret, tok.s)
      else if tok.ret ≠ ch 'a' then .error .argument
      else
        let ret := ret.addArg { q := tok.q, eq := tok.eq }
        if argc + 1 ≥ MAXARGS then .error .tooManyArgs
        else do
          let (ret, s) ← parseredirs line fuel ret tok.s
          parseargs fuel ret (argc + 1) s

def parsebacks : Nat → Cmd Slice → Nat → Except Panic (Cmd Slice × Nat)
  | 0, _, _ => .error .turns
  | fuel + 1, cmd, s =>
    let (more, s) := peek line s [ch '&']
    if more then parsebacks fuel (.back cmd) (gettoken line s).s else .ok (cmd, s)

mutual

def parseline : Nat → Nat → Except Panic (Cmd Slice × Nat)
  | 0, _ => .error .turns
  | fuel + 1, s => do
      let (cmd, s) ← parsepipe fuel s
      let (cmd, s) ← parsebacks line fuel cmd s
      let (more, s) := peek line s [ch ';']
      if more then do
        let (right, s) ← parseline fuel (gettoken line s).s
        return (.list cmd right, s)
      else return (cmd, s)

def parsepipe : Nat → Nat → Except Panic (Cmd Slice × Nat)
  | 0, _ => .error .turns
  | fuel + 1, s => do
      let (cmd, s) ← parseexec fuel s
      let (more, s) := peek line s [ch '|']
      if more then do
        let (right, s) ← parsepipe fuel (gettoken line s).s
        return (.pipe cmd right, s)
      else return (cmd, s)

def parseexec : Nat → Nat → Except Panic (Cmd Slice × Nat)
  | 0, _ => .error .turns
  | fuel + 1, s =>
    let (block, s) := peek line s [ch '(']
    if block then parseblock fuel s
    else do
      let (ret, s) ← parseredirs line fuel (.exec []) s
      parseargs line fuel ret 0 s

def parseblock : Nat → Nat → Except Panic (Cmd Slice × Nat)
  | 0, _ => .error .turns
  | fuel + 1, s =>
    let (paren, s) := peek line s [ch '(']
    if paren then do
      let (cmd, s) ← parseline fuel (gettoken line s).s
      let (paren, s) := peek line s [ch ')']
      if paren then parseredirs line fuel cmd (gettoken line s).s else .error .missingParen
    else .error .parseblock

end

end Parse

-- The buffer has the line and its NUL.
def nulterminate : Cmd Slice → List Byte → List Byte
  | .exec argv, buf => argv.foldl (fun buf w => buf.set w.eq 0) buf
  | .redir cmd file _ _, buf => (nulterminate cmd buf).set file.eq 0
  | .pipe left right, buf => nulterminate right (nulterminate left buf)
  | .list left right, buf => nulterminate right (nulterminate left buf)
  | .back cmd, buf => nulterminate cmd buf

-- Every call and every turn of a loop but a few takes a token.
def parsecmd (line : List Byte) : Except Panic (Cmd Slice × List Byte) := do
  let (cmd, s) ← parseline line (4 * line.length + 5) 0
  let (_, s) := peek line s []
  if s ≠ line.length then .error .leftovers
  else return (cmd, nulterminate cmd (line ++ [0]))

def cstring (buf : List Byte) (w : Slice) : List Byte := (buf.drop w.q).takeWhile (· ≠ 0)

end Xv6.Sh
