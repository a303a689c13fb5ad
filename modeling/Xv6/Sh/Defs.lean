import Xv6.Lib.Cstring
import Xv6.Lib.Run

/-!
# Sh — Defs

The parser of the shell: `gettoken`, `peek`, `parsecmd` and what it calls, `nulterminate`.

The line is the list of its bytes up to the NUL, and a pointer into it is an index; `es` is the length.
The parser goes down one level of the grammar a call, or once round a loop, with a bound on how deep.
A panic is an error with its text.
-/

namespace Xv6.Sh
open Xv6.Lib

abbrev MAXARGS : Nat := 10

abbrev O_RDONLY : Nat := 0x000
abbrev O_WRONLY : Nat := 0x001
abbrev O_CREATE : Nat := 0x200
abbrev O_TRUNC : Nat := 0x400

/-- A parsed command; a string is where it starts and ends in the line. -/
inductive Cmd where
  | exec (argv : List (Nat × Nat))
  | redir (cmd : Cmd) (file efile : Nat) (mode fd : Nat)
  | pipe (left right : Cmd)
  | list (left right : Cmd)
  | back (cmd : Cmd)
  deriving DecidableEq

def whitespace : List Byte := [chr ' ', chr '\t', chr '\r', chr '\n', 11]

def symbols : List Byte := [chr '<', chr '|', chr '>', chr '&', chr ';', chr '(', chr ')']

/-- `strchr(s, c) != 0` -/
def strchr (s : List Byte) (c : Byte) : Bool := decide (c ∈ s)

/-- `*s` -/
def deref (buf : List Byte) (s : Nat) : Byte := buf.getD s 0

/-- `while(s < es && p(*s)) s++` -/
def skip (buf : List Byte) (p : Byte → Bool) (s : Nat) : Nat :=
  s + ((buf.drop s).takeWhile p).length

/-- A byte of a word. -/
def wordByte (c : Byte) : Bool := !strchr whitespace c && !strchr symbols c

/-- The token, where it starts and ends, and the new `*ps`. -/
def gettoken (buf : List Byte) (ps : Nat) : (Byte × Nat × Nat) × Nat :=
  let q := skip buf (strchr whitespace) ps
  let c := deref buf q
  let (ret, eq) :=
    if c = 0 then (c, q)
    else if strchr [chr '|', chr '(', chr ')', chr ';', chr '&', chr '<'] c then (c, q + 1)
    else if c = chr '>' then
      if deref buf (q + 1) = chr '>' then (chr '+', q + 2) else (c, q + 1)
    else (chr 'a', skip buf wordByte q)
  ((ret, q, eq), skip buf (strchr whitespace) eq)

/-- Whether the next byte is one of `toks`, and the new `*ps`. -/
def peek (buf : List Byte) (ps : Nat) (toks : List Byte) : Bool × Nat :=
  let s := skip buf (strchr whitespace) ps
  (decide (deref buf s ≠ 0) && strchr toks (deref buf s), s)

/-- `cmd->argv[argc] = q`, for the `execcmd` inside of `ret`. -/
def Cmd.addArg : Cmd → Nat → Nat → Cmd
  | .exec argv, q, eq => .exec (argv ++ [(q, eq)])
  | .redir cmd file efile mode fd, q, eq => .redir (cmd.addArg q eq) file efile mode fd
  | cmd, _, _ => cmd

def parseredirs (buf : List Byte) : Nat → Cmd → Nat → Except String (Cmd × Nat)
  | 0, _, _ => .error "parseredirs: no turn left"
  | turns + 1, cmd, ps =>
    let (more, ps) := peek buf ps [chr '<', chr '>']
    if !more then .ok (cmd, ps)
    else
      let ((tok, _, _), ps) := gettoken buf ps
      let ((ret, q, eq), ps) := gettoken buf ps
      if ret ≠ chr 'a' then .error "missing file for redirection"
      else
        let cmd :=
          if tok = chr '<' then .redir cmd q eq O_RDONLY 0
          else if tok = chr '>' then .redir cmd q eq (O_WRONLY ||| O_CREATE ||| O_TRUNC) 1
          else if tok = chr '+' then .redir cmd q eq (O_WRONLY ||| O_CREATE) 1
          else cmd
        parseredirs buf turns cmd ps

/-- The loop of `parseexec`. -/
def parseargs (buf : List Byte) : Nat → Cmd → Nat → Nat → Except String (Cmd × Nat)
  | 0, _, _, _ => .error "parseexec: no turn left"
  | turns + 1, ret, argc, ps =>
    let (done, ps) := peek buf ps [chr '|', chr ')', chr '&', chr ';']
    if done then .ok (ret, ps)
    else
      let ((tok, q, eq), ps) := gettoken buf ps
      if tok = 0 then .ok (ret, ps)
      else if tok ≠ chr 'a' then .error "syntax"
      else
        let ret := ret.addArg q eq
        if argc + 1 ≥ MAXARGS then .error "too many args"
        else do
          let (ret, ps) ← parseredirs buf turns ret ps
          parseargs buf turns ret (argc + 1) ps

/-- The `while` of `parseline`. -/
def parsebacks (buf : List Byte) : Nat → Cmd → Nat → Except String (Cmd × Nat)
  | 0, _, _ => .error "parseline: no turn left"
  | turns + 1, cmd, ps =>
    let (more, ps) := peek buf ps [chr '&']
    if !more then .ok (cmd, ps)
    else
      let (_, ps) := gettoken buf ps
      parsebacks buf turns (.back cmd) ps

mutual

def parseline (buf : List Byte) : Nat → Nat → Except String (Cmd × Nat)
  | 0, _ => .error "parseline: no call left"
  | calls + 1, ps => do
    let (cmd, ps) ← parsepipe buf calls ps
    let (cmd, ps) ← parsebacks buf (buf.length + 1) cmd ps
    let (semi, ps) := peek buf ps [chr ';']
    if semi then
      let (_, ps) := gettoken buf ps
      let (right, ps) ← parseline buf calls ps
      return (.list cmd right, ps)
    else return (cmd, ps)

def parsepipe (buf : List Byte) : Nat → Nat → Except String (Cmd × Nat)
  | 0, _ => .error "parsepipe: no call left"
  | calls + 1, ps => do
    let (cmd, ps) ← parseexec buf calls ps
    let (bar, ps) := peek buf ps [chr '|']
    if bar then
      let (_, ps) := gettoken buf ps
      let (right, ps) ← parsepipe buf calls ps
      return (.pipe cmd right, ps)
    else return (cmd, ps)

def parseexec (buf : List Byte) : Nat → Nat → Except String (Cmd × Nat)
  | 0, _ => .error "parseexec: no call left"
  | calls + 1, ps =>
    let (paren, ps) := peek buf ps [chr '(']
    if paren then parseblock buf calls ps
    else do
      let (ret, ps) ← parseredirs buf (buf.length + 1) (.exec []) ps
      parseargs buf (buf.length + 1) ret 0 ps

def parseblock (buf : List Byte) : Nat → Nat → Except String (Cmd × Nat)
  | 0, _ => .error "parseblock: no call left"
  | calls + 1, ps =>
    let (paren, ps) := peek buf ps [chr '(']
    if !paren then .error "parseblock"
    else do
      let (_, ps) := gettoken buf ps
      let (cmd, ps) ← parseline buf calls ps
      let (close, ps) := peek buf ps [chr ')']
      if !close then .error "syntax - missing )"
      else
        let (_, ps) := gettoken buf ps
        parseredirs buf (buf.length + 1) cmd ps

end

/-- The line after `nulterminate`. -/
def nulterminate : Cmd → List Byte → List Byte
  | .exec argv, buf => argv.foldl (fun buf arg => buf.set arg.2 0) buf
  | .redir cmd _ efile _ _, buf => (nulterminate cmd buf).set efile 0
  | .pipe left right, buf => nulterminate right (nulterminate left buf)
  | .list left right, buf => nulterminate right (nulterminate left buf)
  | .back cmd, buf => nulterminate cmd buf

/-- The command, and the line that its strings are in. -/
def parsecmd (buf : List Byte) : Except String (Cmd × List Byte) := do
  let (cmd, ps) ← parseline buf (4 * buf.length + 4) 0
  let (_, ps) := peek buf ps []
  if ps ≠ buf.length then .error "syntax"
  else return (cmd, nulterminate cmd buf)

end Xv6.Sh
