import Sisop.CStrings

/-! The parser of the shell: `parsing.c`, `createcmd.c`, `utils.c` and `readline.c` of `shell`. A buffer is the list of the
characters from a pointer on, and what is read or written outside of it fails. -/
namespace Sisop
namespace Shell

/-- `BUFLEN`. -/
def buflen : ℕ := 1024

/-- `ARGSIZE`. -/
def argsize : ℕ := 1024

/-- `MAXARGS`. -/
def maxargs : ℕ := 20

/-- `block_contains`, or nothing for -1. -/
def blockContains : List (BitVec 8) → BitVec 8 → Option ℕ
  | [], _ => none
  | b :: buf, c => if b = c then some 0 else (blockContains buf c).map (· + 1)

/-- `count_c`. -/
def countC (buf : List (BitVec 8)) (c : BitVec 8) : ℕ := buf.countP (· = c)

/-- `split_line`: the buffer with its string cut off at the splitter, and what it returns. -/
def splitLine (buf : List (BitVec 8)) (splitter : BitVec 8) : Option (List (BitVec 8) × List (BitVec 8)) :=
  let i := (buf.takeWhile fun c => c ≠ splitter ∧ c ≠ 0#8).length
  if i < buf.length then
    match (buf.drop (i + 1)).dropWhile (· = chr ' ') with
    | [] => none
    | c :: right => some (buf.set i 0#8, c :: right)
  else none

/-- The loop of `get_token`. -/
def getTokenLoop (tok : List (BitVec 8)) (i : ℕ) : List (BitVec 8) → Option (List (BitVec 8))
  | [] => none
  | c :: buf =>
    if c ≠ chr ' ' ∧ c ≠ 0#8 then do
      let tok ← storeAt tok i c
      getTokenLoop tok (i + 1) buf
    else some tok

/-- `get_token`. -/
def getToken (buf : List (BitVec 8)) : Option (List (BitVec 8)) := getTokenLoop (List.replicate argsize 0#8) 0 buf

/-- `struct execcmd`. The arrays `argv` and `eargv` are the lists of what has been stored to them, `argc` and `eargc` the
lengths of these lists. -/
structure Execcmd where
  redir : Bool
  scmd : List (BitVec 8)
  argv : List (List (BitVec 8))
  eargv : List (List (BitVec 8))
  outFile : List (BitVec 8)
  inFile : List (BitVec 8)
  errFile : List (BitVec 8)
  deriving DecidableEq

/-- All that was stored to `argv`, the null pointer at its end, and to `eargv` is inside of them. -/
def Execcmd.Inside (c : Execcmd) : Prop := c.argv.length + 1 ≤ maxargs ∧ c.eargv.length ≤ maxargs

instance (c : Execcmd) : Decidable c.Inside := inferInstanceAs (Decidable (_ ∧ _))

/-- `exec_cmd_create`. -/
def execCmdCreate (bufCmd : List (BitVec 8)) : Option Execcmd := do
  let s ← cstr bufCmd
  if s.length < buflen then some ⟨false, s, [], [], [], [], []⟩ else none

/-- `parse_redir_flow`, or nothing if it returns `false`. A token is not longer than a name of a file may be. -/
def parseRedirFlow (c : Execcmd) (arg : List (BitVec 8)) : Option Execcmd :=
  match blockContains arg (chr '>') with
  | some 0 => some { c with outFile := arg.drop 1, redir := true }
  | some 1 => some { c with errFile := arg.drop 2, redir := true }
  | some _ => some { c with redir := true }
  | none =>
    match blockContains arg (chr '<') with
    | some _ => some { c with inFile := arg.drop 1, redir := true }
    | none => none

/-- `parse_environ_var`, or nothing if it returns `false`. -/
def parseEnvironVar (c : Execcmd) (arg : List (BitVec 8)) : Option Execcmd :=
  match blockContains arg (chr '=') with
  | some (_ + 1) =>
    match blockContains arg (chr '-') with
    | none => some { c with eargv := c.eargv ++ [arg] }
    | some _ => none
  | _ => none

/-- What the shell knows of its surroundings: the environment, and the status of the last command. -/
structure Env where
  getenv : List (BitVec 8) → Option (List (BitVec 8))
  status : BitVec 32

/-- `expand_environ_var`. -/
def expandEnvironVar (env : Env) (arg : List (BitVec 8)) : List (BitVec 8) :=
  match blockContains arg (chr '$') with
  | some 0 =>
    if arg.length = 2 ∧ arg[1]? = some (chr '?') then [chr '0' + env.status.setWidth 8].takeWhile (· ≠ 0#8)
    else match env.getenv (arg.drop 1) with
      | none => []
      | some val => val
  | _ => arg

/-- What `parse_exec` does with a token. -/
def execWord (env : Env) (c : Execcmd) (tok : List (BitVec 8)) : Execcmd :=
  match parseRedirFlow c tok with
  | some c => c
  | none =>
    match parseEnvironVar c tok with
    | some c => c
    | none => { c with argv := c.argv ++ [expandEnvironVar env tok] }

/-- `if (buf_cmd[idx] != END_STRING) idx++;` -/
def skipChar : List (BitVec 8) → Option (List (BitVec 8))
  | [] => none
  | c :: buf => if c ≠ 0#8 then some buf else some (c :: buf)

/-- The loop of `parse_exec`, for at most `n` tokens. -/
def execLoop (env : Env) : ℕ → Execcmd → List (BitVec 8) → Option Execcmd
  | 0, _, _ => none
  | _ + 1, _, [] => none
  | n + 1, c, b :: buf =>
    if b ≠ 0#8 then do
      let tok ← getToken (b :: buf)
      let word ← cstr tok
      let next ← skipChar ((b :: buf).drop word.length)
      execLoop env n (execWord env c word) next
    else some c

/-- `parse_exec`. -/
def parseExec (env : Env) (bufCmd : List (BitVec 8)) : Option Execcmd := do
  let c ← execCmdCreate bufCmd
  execLoop env (bufCmd.length + 1) c bufCmd

/-- What `parse_cmd` returns: a command to be executed, or one in the background. -/
inductive Cmd
  | exec (c : Execcmd)
  | back (scmd : List (BitVec 8)) (c : Execcmd)
  deriving DecidableEq

/-- `parse_back`. -/
def parseBack (env : Env) (bufCmd : List (BitVec 8)) : Option Cmd := do
  let i := (bufCmd.takeWhile (· ≠ chr '&')).length
  let bufCmd ← storeAt bufCmd i 0#8
  let e ← parseExec env bufCmd
  some (.back e.scmd e)

/-- `parse_cmd`, where `before` is the character in front of the buffer. -/
def parseCmd (env : Env) (before : Option (BitVec 8)) (bufCmd : List (BitVec 8)) : Option (Option Cmd) := do
  let s ← cstr bufCmd
  if s.length = 0 then some none
  else match blockContains s (chr '&') with
    | some idx => do
      let prev ← if idx = 0 then before else bufCmd[idx - 1]?
      if prev ≠ chr '>' then (parseBack env bufCmd).map some
      else (parseExec env bufCmd).map fun c => some (.exec c)
    | none => (parseExec env bufCmd).map fun c => some (.exec c)

/-- What `parse_line` returns: a command, or null, or the array of a pipe. -/
inductive Line
  | cmd (c : Option Cmd)
  | pipe (commands : List (Option Cmd))
  deriving DecidableEq

/-- `pipe_cmd_create`. -/
def pipeCmdCreate (allCmd : List (Option Cmd)) : Option Line := do
  match ← allCmd[1]? with
  | none => (allCmd[0]?).map .cmd
  | some _ => some (.pipe allCmd)

/-- The loop of `parse_line`, with `n` commands to go. -/
def lineLoop (env : Env) : ℕ → Option (BitVec 8) → List (BitVec 8) → Option (List (Option Cmd))
  | 0, _, _ => some []
  | n + 1, before, buf => do
    let (left, right) ← splitLine buf (chr '|')
    let c ← parseCmd env before left
    let cs ← lineLoop env n left[left.length - right.length - 1]? right
    some (c :: cs)

/-- `parse_line`. -/
def parseLine (env : Env) (buf : List (BitVec 8)) : Option Line := do
  let s ← cstr buf
  let commands ← lineLoop env (countC s (chr '|') + 1) none buf
  pipeCmdCreate (commands ++ [none])

/-- The loop of `read_line`, over the characters that are typed: the buffer, or a null pointer at the end of the input. -/
def readLoop (buffer : List (BitVec 8)) (i : ℕ) : List (BitVec 8) → Option (Option (List (BitVec 8)))
  | [] => some none
  | c :: input =>
    if c ≠ chr '\n' then do
      let buffer ← storeAt buffer i c
      readLoop buffer (i + 1) input
    else (storeAt buffer i 0#8).map some

/-- `read_line`. -/
def readLine (input : List (BitVec 8)) : Option (Option (List (BitVec 8))) :=
  readLoop (List.replicate buflen 0#8) 0 input

end Shell
end Sisop
