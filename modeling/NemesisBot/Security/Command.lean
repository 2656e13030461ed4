import NemesisBot.Lib.Strings

/-! Command lines: tokens, top-level segments, environment prefixes and the reduction of
a command to the prefix that an approval rule remembers. -/
namespace NemesisBot.Command
open NemesisBot.Strings

/-- The loop of `tokenize_command`: the current token, the two quote flags and whether the
token has been started. -/
def tokenizeFrom (cur : Text) (inSingle inDouble hasContent : Bool) : List Char → List Text
  | [] => if hasContent || cur ≠ [] then [cur] else []
  | ch :: rest =>
    if ch = '\'' && !inDouble then tokenizeFrom cur (!inSingle) inDouble true rest
    else if ch = '"' && !inSingle then tokenizeFrom cur inSingle (!inDouble) true rest
    else if isWhitespace ch && !inSingle && !inDouble then
      if hasContent || cur ≠ [] then cur :: tokenizeFrom [] inSingle inDouble false rest
      else tokenizeFrom cur inSingle inDouble hasContent rest
    else tokenizeFrom (cur ++ [ch]) inSingle inDouble true rest

def tokenizeCommand (cmd : Text) : List Text := tokenizeFrom [] false false false cmd

/-- The loop of `scan_segments`. `skip` drops the second character of `&&` and `||`. The
result is the raw segments and whether the quotes are closed. -/
def scanFrom (quoteAware : Bool) (cur : Text) (inSingle inDouble : Bool) (prev : Option Char)
    (skip : Bool) : List Char → List Text × Bool
  | [] => ([cur], !inSingle && !inDouble)
  | ch :: rest =>
    if skip then scanFrom quoteAware cur inSingle inDouble prev false rest
    else if quoteAware && (ch = '\'' || ch = '"') then
      if ch = '\'' && !inDouble then
        scanFrom quoteAware (cur ++ [ch]) (!inSingle) inDouble (some ch) false rest
      else if ch = '"' && !inSingle then
        scanFrom quoteAware (cur ++ [ch]) inSingle (!inDouble) (some ch) false rest
      else scanFrom quoteAware (cur ++ [ch]) inSingle inDouble (some ch) false rest
    else if (ch = ';' || ch = '\n' || ch = '\r') && !inSingle && !inDouble then
      let (segs, balanced) := scanFrom quoteAware [] inSingle inDouble none false rest
      (cur :: segs, balanced)
    else if (ch = '&' || ch = '|') && !inSingle && !inDouble then
      -- `2>&1`, `<&0`, `&>file` and `>|file` redirect; they do not separate
      if (ch = '&' && (prev = some '>' || prev = some '<' || rest.head? = some '>')) ||
          (ch = '|' && prev = some '>') then
        scanFrom quoteAware (cur ++ [ch]) inSingle inDouble (some ch) false rest
      else
        let (segs, balanced) :=
          scanFrom quoteAware [] inSingle inDouble none (rest.head? = some ch) rest
        (cur :: segs, balanced)
    else scanFrom quoteAware (cur ++ [ch]) inSingle inDouble (some ch) false rest

def scanSegments (cmd : Text) (quoteAware : Bool) : List Text × Bool :=
  scanFrom quoteAware [] false false none false cmd

def finishSegments (segments : List Text) : List Text :=
  dedup ((segments.map trim).filter (· ≠ []))

/-- Unclosed quotes fall back to cutting blindly. -/
def commandSegments (cmd : Text) : List Text :=
  let (segments, balanced) := scanSegments cmd true
  if balanced then finishSegments segments else finishSegments (scanSegments cmd false).1

/-- `VAR=value`, with any value. -/
def isEnvAssignment (token : Text) : Bool :=
  match token.takeWhile (· ≠ '=') with
  | [] => false
  | c :: name =>
    token.contains '=' && (isAsciiAlphabetic c || c = '_') &&
      name.all fun c => isAsciiAlphanumeric c || c = '_'

def stripEnvTokens (tokens : List Text) : List Text := tokens.dropWhile isEnvAssignment

/-- The loop of `strip_env_assignments`; every turn removes a token, so the length of the
segment is fuel enough. -/
def stripEnvFrom : Nat → Text → Text
  | 0, rest => rest
  | fuel + 1, rest => match (splitWhitespace rest).head? with
    | none => rest
    | some token =>
      if isEnvAssignment token then match afterFirst token rest with
        | some rest => stripEnvFrom fuel (trimStart rest)
        | none => rest
      else rest

def stripEnvAssignments (segment : Text) : Text := stripEnvFrom segment.length segment

def arityTable : List (Text × Nat) :=
  [("npm run", 3), ("npm exec", 3), ("pnpm run", 3), ("yarn run", 3), ("docker compose", 3),
   ("cargo", 2), ("rustup", 2),
   ("npm", 2), ("npx", 2), ("pnpm", 2), ("yarn", 2), ("bun", 2), ("bunx", 2), ("deno", 2),
   ("node", 2),
   ("python", 2), ("python3", 2), ("pip", 2), ("pip3", 2), ("uv", 2), ("poetry", 2),
   ("go", 2), ("dotnet", 2), ("flutter", 2), ("gradle", 2), ("mvn", 2), ("make", 2),
   ("cmake", 2),
   ("docker", 2), ("docker-compose", 2), ("podman", 2), ("kubectl", 2), ("helm", 2),
   ("git", 2), ("gh", 2), ("adb", 2),
   ("apt", 2), ("apt-get", 2), ("dnf", 2), ("yum", 2), ("pacman", 2), ("brew", 2),
   ("winget", 2), ("choco", 2), ("scoop", 2), ("systemctl", 2)].map
    fun (key, arity) => (key.toList, arity)

/-- How many tokens the table keeps: the largest arity of a key that the tokens start
with, at least one. -/
def keepCount (rest : List Text) : Nat :=
  arityTable.foldl (fun keep (key, arity) =>
    if splitWhitespace key <+: rest ∧ arity > keep then arity else keep) 1

def space : Text := [' ']
def starSuffix : Text := [' ', '*']

def reduceCommand (cmd : Text) : Text :=
  let rest := stripEnvTokens (tokenizeCommand cmd)
  if rest = [] then []
  else
    let keep := keepCount rest
    if rest.length ≤ keep then join space rest
    else join space (rest.take keep) ++ starSuffix

/-- The tokens that `reduce_command` keeps. -/
def keptTokens (cmd : Text) : List Text :=
  let rest := stripEnvTokens (tokenizeCommand cmd)
  rest.take (keepCount rest)

example : reduceCommand "FOO=1 cargo build --release".toList = "cargo build *".toList := by decide
example : commandSegments "cd x && rm -rf 'a && b'; ls 2>&1".toList =
    ["cd x".toList, "rm -rf 'a && b'".toList, "ls 2>&1".toList] := by decide

end NemesisBot.Command
