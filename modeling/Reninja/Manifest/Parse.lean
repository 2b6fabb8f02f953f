import Reninja.Manifest.Checked
import Reninja.Scan.Basic

/-!
# The parser of manifests

`ManifestParser` and the functions of `State` that it calls. A parser of an included file works
on the same state with a lexer and a scope of its own, which is why the ones of the including
file are put back afterwards.
-/

namespace Reninja

open Program

/-! ### Building the graph -/

namespace State

variable (st : State)

def setNode (n : Path) (f : Node → Node) : State := { st with world := st.world.setNode n f }

def setEdge (e : EdgeId) (f : Edge → Edge) : State := { st with world := st.world.setEdge e f }

/-- `GetNode` adds a node for the path if there is none. -/
def touch (n : Path) : State := if n ∈ st.paths then st else { st with paths := st.paths ++ [n] }

@[simp] lemma touch_world (n : Path) : (st.touch n).world = st.world := by
  unfold touch
  split <;> rfl

/-- `NewState`: the rule and the two pools that every manifest has. -/
def initial (disk : Disk) : State where
  world := { disk := disk, pools := fun i =>
    if i = 1 then { name := "console", depth := 1 } else {} }
  rules := fun s name =>
    if s = 0 ∧ name = "phony" then some { name := "phony", phony := true } else none
  poolIds := fun name =>
    if name = [] then some 0 else if name = "console" then some 1 else none
  poolCount := 2

def addEdge (rule : Rule) (scope : ScopeId) : State :=
  let e := st.world.edgeCount
  { st with
    edgeRule := Function.update st.edgeRule e rule
    world := { st.world with
      edgeCount := e + 1
      edges := Function.update st.world.edges e
        { phony := rule.phony, scope := scope, parents := st.parents scope } } }

def removeLastEdge : State :=
  let e := st.world.edgeCount - 1
  { st with world := { st.world with
    edgeCount := e, edges := Function.update st.world.edges e {} } }

def addOut (n : Path) (e : EdgeId) : Except GoString State :=
  match st.world.producer n with
  | some other =>
    .error (if other = e then n ++ " is defined as an output multiple times"
      else "multiple rules generate " ++ n)
  | none =>
    .ok (((st.touch n).setEdge e fun x => { x with outputs := x.outputs ++ [n] }).setNode n
      fun m => { m with inEdge := some e, generatedByDepLoader := false })

def addIn (add : Path → Edge → Edge) (n : Path) (e : EdgeId) : State :=
  ((st.touch n).setEdge e (add n)).setNode n fun m =>
    { m with generatedByDepLoader := false, outEdges := m.outEdges ++ [e] }

def addExplicitIn : Path → EdgeId → State :=
  st.addIn fun n x => { x with explicitInputs := x.explicitInputs ++ [n] }

def addImplicitIn : Path → EdgeId → State :=
  st.addIn fun n x => { x with implicitInputs := x.implicitInputs ++ [n] }

def addOrderOnlyIn : Path → EdgeId → State :=
  st.addIn fun n x => { x with orderOnlyInputs := x.orderOnlyInputs ++ [n] }

def addValidation (n : Path) (e : EdgeId) : State :=
  ((st.touch n).setEdge e fun x => { x with validations := x.validations ++ [n] }).setNode n
    fun m => { m with generatedByDepLoader := false }

def addDefault (n : Path) : Except GoString State :=
  if n ∈ st.paths then .ok { st with defaults := st.defaults ++ [n] }
  else .error ("unknown target '" ++ n ++ "'")

def addPool (name : GoString) (depth : Nat) : State :=
  { st with
    poolCount := st.poolCount + 1
    poolIds := Function.update st.poolIds name (some st.poolCount)
    world := st.world.setPool st.poolCount fun _ => { name := name, depth := depth } }

def addRule (s : ScopeId) (rule : Rule) : State :=
  { st with
    rules := Function.update st.rules s (Function.update (st.rules s) rule.name (some rule)) }

/-- `RemoveInput`, which leaves the out edges of the node alone. `dropped` remembers the edges
that lost an input. -/
def removeInput (e : EdgeId) (n : Path) : State :=
  { st.setEdge e fun x => { x with
      explicitInputs := x.explicitInputs.filter (· ≠ n)
      implicitInputs := x.implicitInputs.filter (· ≠ n)
      orderOnlyInputs := x.orderOnlyInputs.filter (· ≠ n) } with
    dropped := if n ∈ (st.world.edges e).inputs then st.dropped ++ [e] else st.dropped }

end State

/-! ### The parser -/

inductive PhonyCycleAction where
  | warn | error
  deriving DecidableEq, Repr

/-- The options of the parser. `scanInt` is the number that `fmt.Sscan` finds in a string. -/
structure ParserOptions where
  phonyCycleAction : PhonyCycleAction := .warn
  scanInt : GoString → Int := fun _ => 0

structure Parser where
  state : State
  lexer : Lexer := {}
  env : ScopeId := 0

abbrev P := EStateM Failure Parser

namespace Parser

def modifyState (f : State → State) : P Unit := modify fun p => { p with state := f p.state }

/-- The result of a function that checks its indices. -/
def checked {α : Type} : Except Failure α → P α
  | .ok a => pure a
  | .error f => throw f

def lexing {α : Type} (f : Lexer → Except Failure (α × Lexer)) : P α := do
  let (a, l) ← checked (f (← get).lexer)
  modify fun p => { p with lexer := l }
  pure a

def fail {α : Type} (message : GoString) : P α := do
  let text ← checked (Checked.error (← get).lexer message)
  throw (.error text)

def orFail {α : Type} : Except GoString α → P α
  | .ok a => pure a
  | .error e => throw (.error e)

def peekToken (token : Lexer.Token) : P Bool := lexing (Checked.peekToken token)

def unreadToken : P Unit := lexing fun l => do
  let l ← Checked.unreadToken l
  pure ((), l)

def expectToken (expected : Lexer.Token) : P Unit := do
  let token ← lexing Checked.readToken
  if token = expected then pure ()
  else fail ("expected " ++ Lexer.tokenName expected ++ ", got " ++
    Lexer.tokenName token ++ Lexer.tokenErrorHint expected)

def readIdent (otherwise : GoString) : P GoString := do
  match ← lexing Checked.readIdent with
  | some name => pure name
  | none => fail otherwise

def readPath : P EvalString := do orFail (← lexing (Checked.readEvalString true))

def readVarValue : P EvalString := do orFail (← lexing (Checked.readEvalString false))

def pathsLoop : Nat → P (List EvalString)
  | 0 => throw .outOfFuel
  | fuel + 1 => do
    let path ← readPath
    if path.empty then
      pure []
    else
      let paths ← pathsLoop fuel
      pure (path :: paths)

/-- Every path but the last takes a byte of the input. -/
def readPaths : P (List EvalString) := do pathsLoop ((← get).lexer.rest.length + 1)

def readPathsAfter (separator : Lexer.Token) : P (List EvalString) := do
  if ← peekToken separator then readPaths else pure []

def parseLet : P (GoString × EvalString) := do
  let key ← readIdent "expected variable name"
  expectToken .equals
  let value ← readVarValue
  pure (key, value)

def letsLoop {β : Type} (step : β → GoString → EvalString → P β) : Nat → β → P β
  | 0, _ => throw .outOfFuel
  | fuel + 1, b => do
    if ← peekToken .indent then
      let (key, value) ← parseLet
      letsLoop step fuel (← step b key value)
    else
      pure b

def foldLets {β : Type} (step : β → GoString → EvalString → P β) (b : β) : P β := do
  letsLoop step ((← get).lexer.rest.length + 1) b

def evaluate (scope : ScopeId) (es : EvalString) : P GoString := do
  return (← get).state.evaluate scope es

def evaluatePath (env : Env) (scope : ScopeId) (es : EvalString) : P Path := do
  match ← evaluate scope es with
  | []      => fail "empty path"
  | c :: cs => pure (env.canonicalizePath (c :: cs))

/-- Numbers that `strconv.Atoi` accepts: digits with at most one sign. -/
def atoiDigits (s : GoString) : Option Nat :=
  if s ≠ [] ∧ s.all (fun c => 48 ≤ c && c ≤ 57) then
    some (s.foldl (fun n c => 10 * n + (c.toNat - 48)) 0)
  else none

/-- `strconv.Atoi` without its error: zero for what is no number, the nearest number that fits
for one out of range. -/
def atoi (s : GoString) : Int :=
  match s with
  | 45 :: cs => max (-2 ^ 63) (-((atoiDigits cs).getD 0 : Int))
  | 43 :: cs => min (2 ^ 63 - 1) ((atoiDigits cs).getD 0 : Int)
  | _ => min (2 ^ 63 - 1) ((atoiDigits s).getD 0 : Int)

def poolVariable (_depth : Int) (key : GoString) (value : EvalString) : P Int := do
  if key = "depth" then
    let depth := atoi (← evaluate (← get).env value)
    if depth < 0 then fail "invalid pool depth" else pure depth
  else
    fail ("unexpected variable '" ++ key ++ "'")

def parsePool : P Unit := do
  let name ← readIdent "expected pool name"
  expectToken .newline
  if ((← get).state.poolIds name).isSome then
    fail ("duplicate pool '" ++ name ++ "'")
  else
    let depth ← foldLets poolVariable (-1)
    if depth < 0 then fail "expected 'depth =' line"
    else modifyState fun st => st.addPool name depth.toNat

def isReservedBinding (key : GoString) : Bool :=
  [("command" : GoString), ("depfile" : GoString), ("dyndep" : GoString),
    ("description" : GoString), ("deps" : GoString), ("generator" : GoString),
    ("pool" : GoString), ("restat" : GoString), ("rspfile" : GoString),
    ("rspfile_content" : GoString), ("msvc_deps_prefix" : GoString)].contains key

def ruleVariable (rule : Rule) (key : GoString) (value : EvalString) : P Rule :=
  if isReservedBinding key then
    pure { rule with bindings := Function.update rule.bindings key (some value) }
  else
    fail ("unexpected variable '" ++ key ++ "'")

def Empty (es : Option EvalString) : Bool := (es.map EvalString.empty).getD true

def addRule (rule : Rule) : P Unit := do
  let p ← get
  if (p.state.rules p.env rule.name).isSome then
    throw (.panic "AddRule attempting to duplicate rule in current scope")
  else
    modifyState fun st => st.addRule p.env rule

def parseRule : P Unit := do
  let name ← readIdent "expected rule name"
  expectToken .newline
  let p ← get
  if (p.state.rules p.env name).isSome then
    fail ("duplicate rule '" ++ name ++ "'")
  else
    let rule ← foldLets ruleVariable { name := name }
    let rspfile := rule.bindings "rspfile"
    let content := rule.bindings "rspfile_content"
    if rspfile.isSome ≠ content.isSome ∨ Empty rspfile ≠ Empty content then
      fail "rspfile and rspfile_content need to be both specified"
    else if Empty (rule.bindings "command") then
      fail "expected 'command =' line"
    else
      addRule rule

/-! ### Build statements -/

/-- A build statement before its paths are evaluated. -/
structure BuildStatement where
  outs : List EvalString
  implicitOuts : Nat
  rule : Rule
  explicitIns : List EvalString
  implicitIns : List EvalString
  orderOnlyIns : List EvalString
  validations : List EvalString

/-- The part of the first line that follows the name of the rule. -/
def readInputs (outs implicitOuts : List EvalString) (rule : Rule) : P BuildStatement := do
  let explicitIns ← readPaths
  let implicitIns ← readPathsAfter .pipe
  let orderOnlyIns ← readPathsAfter .pipe2
  let validations ← readPathsAfter .pipeAt
  expectToken .newline
  pure { outs := outs ++ implicitOuts, implicitOuts := implicitOuts.length, rule, explicitIns,
         implicitIns, orderOnlyIns, validations }

def readBuildLine : P BuildStatement := do
  let outs ← readPaths
  let implicitOuts ← readPathsAfter .pipe
  if outs ++ implicitOuts = [] then
    fail "OH SHIT    expected path"
  else
    expectToken .colon
    let ruleName ← readIdent "expected build command name"
    let p ← get
    match p.state.lookupRule p.env ruleName with
    | none      => fail ("unknown build rule '" ++ ruleName ++ "'")
    | some rule => readInputs outs implicitOuts rule

/-- A binding of a build statement: its value is evaluated outside of it. -/
def bindVariable (scope : ScopeId) (_ : Unit) (key : GoString) (value : EvalString) : P Unit := do
  let value ← evaluate (← get).env value
  modifyState fun st => st.addBinding scope key value

def readEdgeScope : P ScopeId := do
  let p ← get
  if ← peekToken .indent then
    let scope := p.state.scopeCount
    modifyState fun st => st.newScope p.env
    let (key, value) ← parseLet
    bindVariable scope () key value
    foldLets (bindVariable scope) ()
    pure scope
  else
    pure p.env

/-- More than a chain of rule variables can be long: the reserved names and the first lookup. -/
def lookupDepth : Nat := 13

def edgeBinding (e : EdgeId) (shellEscape : Bool) (v : GoString) : P GoString := do
  checked (Checked.getBinding (← get).state e shellEscape lookupDepth v)

def setEdgePool (e : EdgeId) : P Unit := do
  match ← edgeBinding e true "pool" with
  | [] => pure ()
  | c :: cs =>
    match (← get).state.poolIds (c :: cs) with
    | none   => fail ("unknown pool name '" ++ (c :: cs) ++ "'")
    | some i => modifyState fun st => st.setEdge e fun x => { x with pool := i }

def addOut (env : Env) (scope : ScopeId) (e : EdgeId) (es : EvalString) : P Unit := do
  let n ← evaluatePath env scope es
  let st ← orFail ((← get).state.addOut n e)
  modifyState fun _ => st

def addPath (env : Env) (scope : ScopeId) (add : State → Path → EdgeId → State) (e : EdgeId)
    (es : EvalString) : P Unit := do
  let n ← evaluatePath env scope es
  modifyState fun st => add st n e

def dropSelfReference (opts : ParserOptions) (e : EdgeId) : P Unit := do
  let x := (← get).state.world.edges e
  if opts.phonyCycleAction = .warn ∧ x.phony then
    let out ← checked (Checked.index x.outputs 0)
    modifyState fun st => st.removeInput e out
  else
    pure ()

def setDyndep (env : Env) (e : EdgeId) : P Unit := do
  match ← edgeBinding e false "dyndep" with
  | [] => pure ()
  | c :: cs =>
    let n := env.canonicalizePath (c :: cs)
    modifyState fun st =>
      ((st.touch n).setNode n fun m => { m with dyndepPending := true }).setEdge e
        fun x => { x with dyndep := some n }
    let st := (← get).state
    if n ∉ (st.world.edges e).inputs then
      fail ("dyndep '" ++ n ++ "' is not an input")
    else if (st.world.nodes n).generatedByDepLoader then
      throw (.panic "dyndep should not have been generated by dep loaded")
    else
      pure ()

def connectInputs (env : Env) (opts : ParserOptions) (stmt : BuildStatement) (scope : ScopeId)
    (e : EdgeId) : P Unit := do
  modifyState fun st => st.setEdge e fun x => { x with implicitOuts := stmt.implicitOuts }
  forEach stmt.explicitIns (addPath env scope State.addExplicitIn e)
  forEach stmt.implicitIns (addPath env scope State.addImplicitIn e)
  forEach stmt.orderOnlyIns (addPath env scope State.addOrderOnlyIn e)
  forEach stmt.validations (addPath env scope State.addValidation e)
  dropSelfReference opts e
  setDyndep env e

def parseEdge (env : Env) (opts : ParserOptions) : P Unit := do
  let stmt ← readBuildLine
  let scope ← readEdgeScope
  let e := (← get).state.world.edgeCount
  modifyState fun st => st.addEdge stmt.rule scope
  setEdgePool e
  forEach stmt.outs (addOut env scope e)
  if ((← get).state.world.edges e).outputs = [] then modifyState State.removeLastEdge
  else connectInputs env opts stmt scope e

/-! ### Files -/

def defaultsLoop (env : Env) : Nat → EvalString → P Unit
  | 0, _ => throw .outOfFuel
  | fuel + 1, es => do
    let n ← evaluatePath env (← get).env es
    match (← get).state.addDefault (env.canonicalizePath n) with
    | .error err => fail err
    | .ok st =>
      modifyState fun _ => st
      let next ← readPath
      if next.empty then pure () else defaultsLoop env fuel next

def parseDefault (env : Env) : P Unit := do
  let es ← readPath
  if es.empty then
    fail "expected target name"
  else
    defaultsLoop env ((← get).lexer.rest.length + 1) es
    expectToken .newline

/-- `find`: where the next dot is, or the end of the text. -/
def find (s : GoString) (start : Nat) : Except Failure Nat := do
  let rest ← Checked.slice s start s.length
  let dot := (rest.takeWhile (· ≠ 46)).length
  pure (if dot = rest.length then s.length else dot + start)

/-- `ParseVersion`: the numbers in front of the first dot and behind it. -/
def parseVersion (opts : ParserOptions) (version : GoString) : Except Failure (Int × Int) := do
  let stop ← find version 0
  let major ← Checked.slice version 0 stop
  if stop ≠ version.length then
    let next ← find version (stop + 1)
    let minor ← Checked.slice version (stop + 1) next
    pure (opts.scanInt major, opts.scanInt minor)
  else
    pure (opts.scanInt major, 0)

def ninjaVersion : GoString := "1.14.0.git"

def checkNinjaVersion (opts : ParserOptions) (fileVersion : GoString) : P Unit := do
  let (binMajor, binMinor) ← checked (parseVersion opts ninjaVersion)
  let (fileMajor, fileMinor) ← checked (parseVersion opts fileVersion)
  if (binMajor = fileMajor ∧ binMinor < fileMinor) ∨ binMajor < fileMajor then
    throw (.fatal ("ninja executable version (" ++ ninjaVersion ++
      ") greater than build file ninja_required_version (" ++ fileVersion ++
      "); versions may be incompatible."))
  else
    pure ()

def checkVariable (opts : ParserOptions) (name value : GoString) : P Unit :=
  if name = "ninja_required_version" then checkNinjaVersion opts value else pure ()

def parseVariable (opts : ParserOptions) : P Unit := do
  unreadToken
  let (name, value) ← parseLet
  let value ← evaluate (← get).env value
  checkVariable opts name value
  let scope := (← get).env
  modifyState fun st => st.addBinding scope name value

def readFile (filename : GoString) : P GoString := do
  match (← get).state.world.disk.readFile filename with
  | .ok (some content) => pure content
  | .ok none           => throw (.error ("loading '" ++ filename ++
      "': file does not exist"))
  | .error err         => throw (.error ("loading '" ++ filename ++
      "': " ++ err))

/-- The scope of an included file: a new one for `subninja`. -/
def enterScope (newScope : Bool) : P Unit :=
  if newScope then
    modify fun p => { p with state := p.state.newScope p.env, env := p.state.scopeCount }
  else
    pure ()

def parseFileInclude (parseFile : GoString → P Unit) (newScope : Bool) : P Unit := do
  let es ← readPath
  let p ← get
  let path := p.state.evaluate p.env es
  enterScope newScope
  parseFile path
  modify fun q => { q with lexer := p.lexer, env := p.env }
  expectToken .newline

/-- The statement that a token starts; the result says whether the file goes on. -/
def parseStatement (env : Env) (opts : ParserOptions) (parseFile : GoString → P Unit) :
    Lexer.Token → P Bool
  | .pool => do parsePool; pure true
  | .build => do parseEdge env opts; pure true
  | .rule => do parseRule; pure true
  | .default => do parseDefault env; pure true
  | .ident => do parseVariable opts; pure true
  | .«include» => do parseFileInclude parseFile false; pure true
  | .subninja => do parseFileInclude parseFile true; pure true
  | .error => do
    let text ← checked (Checked.describeLastError (← get).lexer)
    fail text
  | .eof => pure false
  | .newline => pure true
  | token      => fail ("unexpected " ++ Lexer.tokenName token)

def parseLoop (env : Env) (opts : ParserOptions) (parseFile : GoString → P Unit) : Nat → P Unit
  | 0 => throw .outOfFuel
  | fuel + 1 => do
    let token ← lexing Checked.readToken
    if ← parseStatement env opts parseFile token then parseLoop env opts parseFile fuel
    else pure ()

/-- `ParseFile`; `depth` bounds how deep files include each other. -/
def parseFile (env : Env) (opts : ParserOptions) : Nat → GoString → P Unit
  | 0, _ => throw .outOfFuel
  | depth + 1, filename => do
    let content ← readFile filename
    modify fun p => { p with lexer := Lexer.start filename content }
    parseLoop env opts (parseFile env opts depth) (content.length + 2)

end Parser

def Parses (env : Env) (opts : ParserOptions) (disk : Disk) (filename : GoString) (st : State) :
    Prop :=
  ∃ depth p, Parser.parseFile env opts depth filename { state := State.initial disk } = .ok () p ∧
    p.state = st

end Reninja
