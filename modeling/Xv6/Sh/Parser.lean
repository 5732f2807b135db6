import Xv6.Lib.Exec

/-! The command parser of `sh.c`. Pointers into the line are offsets, and `malloc` succeeds. -/
namespace Xv6.Sh

open Lib Lib.Exec

def MAXARGS : Nat := 10

def O_RDONLY : Nat := 0x000
def O_WRONLY : Nat := 0x001
def O_CREATE : Nat := 0x200
def O_TRUNC : Nat := 0x400

structure ExecCmd where
  argv : Fin MAXARGS → Option Nat
  eargv : Fin MAXARGS → Option Nat

inductive Cmd where
  | exec (cmd : ExecCmd)
  | redir (cmd : Cmd) (file efile : Nat) (mode fd : Nat)
  | pipe (left right : Cmd)
  | list (left right : Cmd)
  | back (cmd : Cmd)

/-- Calls of `panic`, accesses outside `argv`, and loops past their bound. -/
inductive Failure where
  | badToken
  | leftovers
  | missingFile
  | parseblock
  | missingParen
  | tooManyArgs
  | outOfBounds
  | outOfFuel
  deriving DecidableEq

def whitespace : List UInt8 := [32, 9, 13, 10, 11] -- " \t\r\n\v"

def symbols : List UInt8 := [60, 124, 62, 38, 59, 40, 41] -- "<|>&;()"

/-- A symbol, `+` for two `>`, `a` for a word, or 0 at the end. -/
inductive Tok where
  | eof
  | pipe
  | lparen
  | rparen
  | semi
  | amp
  | lt
  | gt
  | append
  | word
  deriving DecidableEq

/-- Cases of `switch(*s)` of one character. -/
def symbol? : UInt8 → Option Tok
  | 124 => some .pipe
  | 40 => some .lparen
  | 41 => some .rparen
  | 59 => some .semi
  | 38 => some .amp
  | 60 => some .lt
  | 62 => some .gt
  | _ => none

def inWord (c : UInt8) : Bool := !whitespace.contains c && !symbols.contains c

namespace ExecCmd

def empty : ExecCmd where
  argv _ := none
  eargv _ := none

def store (cmd : ExecCmd) (i : Nat) (q eq : Option Nat) : Exec Nat Failure ExecCmd :=
  if h : i < MAXARGS then
    return { argv := Function.update cmd.argv ⟨i, h⟩ q, eargv := Function.update cmd.eargv ⟨i, h⟩ eq }
  else throw .outOfBounds

end ExecCmd

/-- A chain of redirections around an EXEC node that has become `node`. -/
def Cmd.withNode (node : ExecCmd) : Cmd → Cmd
  | .redir cmd file efile mode fd => .redir (cmd.withNode node) file efile mode fd
  | _ => .exec node

section Parser

variable (buf : List UInt8)

def skipSpace (s : Nat) : Nat := s + ((buf.drop s).takeWhile whitespace.contains).length

/-- The token at `s` and its end. -/
def scanToken (s : Nat) : Tok × Nat :=
  match buf.getD s 0 with
  | 0 => (.eof, s)
  | c =>
    match symbol? c with
    | some .gt => if buf.getD (s + 1) 0 = 62 then (.append, s + 2) else (.gt, s + 1)
    | some tok => (tok, s + 1)
    | none => (.word, s + ((buf.drop s).takeWhile inWord).length)

/-- The token, its begin and its end. -/
def gettoken : Exec Nat Failure (Tok × Nat × Nat) := do
  let q := skipSpace buf (← get)
  let (ret, eq) := scanToken buf q
  set (skipSpace buf eq)
  return (ret, q, eq)

def peek (toks : List UInt8) : Exec Nat Failure Bool := do
  let s := skipSpace buf (← get)
  set s
  return buf.getD s 0 ≠ 0 ∧ toks.contains (buf.getD s 0)

def parseredirsLoop : Nat → Cmd → Exec Nat Failure Cmd
  | 0, _ => throw .outOfFuel
  | fuel + 1, cmd => do
    if ← peek buf [60, 62] then do -- "<>"
      let (tok, _, _) ← gettoken buf
      let (tok', q, eq) ← gettoken buf
      if tok' ≠ .word then throw .missingFile
      else
        match tok with
        | .lt => parseredirsLoop fuel (.redir cmd q eq O_RDONLY 0)
        | .gt => parseredirsLoop fuel (.redir cmd q eq (O_WRONLY ||| O_CREATE ||| O_TRUNC) 1)
        | .append => parseredirsLoop fuel (.redir cmd q eq (O_WRONLY ||| O_CREATE) 1)
        | _ => parseredirsLoop fuel cmd
    else return cmd

def parseredirs (cmd : Cmd) : Exec Nat Failure Cmd := parseredirsLoop buf (buf.length + 1) cmd

def parseArgs : Nat → ExecCmd → Nat → Cmd → Exec Nat Failure (ExecCmd × Nat × Cmd)
  | 0, _, _, _ => throw .outOfFuel
  | fuel + 1, cmd, argc, ret => do
    if ← peek buf [124, 41, 38, 59] then return (cmd, argc, ret) -- "|)&;"
    else do
      let (tok, q, eq) ← gettoken buf
      if tok = .eof then return (cmd, argc, ret)
      else if tok ≠ .word then throw .badToken
      else do
        let cmd ← cmd.store argc (some q) (some eq)
        let argc := argc + 1
        if argc ≥ MAXARGS then throw .tooManyArgs
        else do
          let ret ← parseredirs buf ret
          parseArgs fuel cmd argc ret

def parseBacks : Nat → Cmd → Exec Nat Failure Cmd
  | 0, _ => throw .outOfFuel
  | fuel + 1, cmd => do
    if ← peek buf [38] then do -- "&"
      let _ ← gettoken buf
      parseBacks fuel (.back cmd)
    else return cmd

mutual

def parseline : Nat → Exec Nat Failure Cmd
  | 0 => throw .outOfFuel
  | fuel + 1 => do
    let cmd ← parsepipe fuel
    let cmd ← parseBacks buf (buf.length + 1) cmd
    if ← peek buf [59] then do -- ";"
      let _ ← gettoken buf
      let right ← parseline fuel
      return .list cmd right
    else return cmd

def parsepipe : Nat → Exec Nat Failure Cmd
  | 0 => throw .outOfFuel
  | fuel + 1 => do
    let cmd ← parseexec fuel
    if ← peek buf [124] then do -- "|"
      let _ ← gettoken buf
      let right ← parsepipe fuel
      return .pipe cmd right
    else return cmd

def parseblock : Nat → Exec Nat Failure Cmd
  | 0 => throw .outOfFuel
  | fuel + 1 => do
    if !(← peek buf [40]) then throw .parseblock -- "("
    else do
      let _ ← gettoken buf
      let cmd ← parseline fuel
      if !(← peek buf [41]) then throw .missingParen -- ")"
      else do
        let _ ← gettoken buf
        parseredirs buf cmd

def parseexec : Nat → Exec Nat Failure Cmd
  | 0 => throw .outOfFuel
  | fuel + 1 => do
    if ← peek buf [40] then parseblock fuel -- "("
    else do
      let ret ← parseredirs buf (.exec .empty)
      let (cmd, argc, ret) ← parseArgs buf (buf.length + 1) .empty 0 ret
      let cmd ← cmd.store argc none none
      return ret.withNode cmd

end

end Parser

/-- The loop over the arguments from `i` on, in the memory of the line. -/
def nulterminateArgs (cmd : ExecCmd) : Nat → Nat → List UInt8 → Except Failure (List UInt8)
  | 0, _, _ => throw .outOfFuel
  | fuel + 1, i, mem =>
    if h : i < MAXARGS then
      match cmd.argv ⟨i, h⟩, cmd.eargv ⟨i, h⟩ with
      | some _, some e => nulterminateArgs cmd fuel (i + 1) (mem.set e 0)
      | some _, none => throw .outOfBounds -- a write through a null pointer
      | none, _ => return mem
    else throw .outOfBounds

def nulterminate : Cmd → List UInt8 → Except Failure (List UInt8)
  | .exec cmd, mem => nulterminateArgs cmd (MAXARGS + 1) 0 mem
  | .redir cmd _ efile _ _, mem => do
    let mem ← nulterminate cmd mem
    return mem.set efile 0
  | .pipe left right, mem => do
    let mem ← nulterminate left mem
    nulterminate right mem
  | .list left right, mem => do
    let mem ← nulterminate left mem
    nulterminate right mem
  | .back cmd, mem => nulterminate cmd mem

/-- Returns the command, and the memory of the line with its NULs. -/
def parsecmd (buf : List UInt8) : Except Failure (Cmd × List UInt8) := do
  let (cmd, s) ← parseline buf (4 * buf.length + 4) 0
  let (_, s) ← peek buf [] s
  if s ≠ buf.length then throw .leftovers
  else do
    let mem ← nulterminate cmd (buf ++ [0])
    return (cmd, mem)

end Xv6.Sh
