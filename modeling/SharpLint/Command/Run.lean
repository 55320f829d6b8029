import SharpLint.Command.Output

/-!
# Running a command

`run` answers a command line with an exit status and the lines for both outputs. Files are read and
written through `FileAccess`.
-/

namespace SharpLint.Command

/-- What a run leaves behind. -/
structure Outcome where
  status : Nat
  output : List String
  errors : List String
  deriving DecidableEq

namespace Outcome

/-- A run without complaints. -/
def success (output : List String) : Outcome := ⟨0, output, []⟩

def failure (output errors : List String) (e : Failure) : Outcome :=
  ⟨1, output, errors ++ (splitAtEach '\n' ("Error: " ++ e.message).toList).map String.ofList⟩

/-- A command line that is not well formed. -/
def usage : Outcome := ⟨2, [], ["error: invalid arguments", "", "For more information, try '--help'."]⟩

/-- All lines of the output, each with its end. -/
def outputText (o : Outcome) : String := String.join (o.output.map (· ++ "\n"))

end Outcome

/-- The documents of a run, and the files that could not be parsed. -/
structure Sources where
  snapshot : Snapshot
  skipped : List DocumentError

/-- With a file added. -/
def Sources.add (s : Sources) (id : DocumentId) (text : String) : Sources :=
  match Document.parse id text with
  | .ok d => { s with snapshot := s.snapshot.insert d }
  | .error e => { s with skipped := s.skipped ++ [e] }

variable {m : Type → Type} [Monad m]

/-- The path of a document. A document without a name is the analysed file itself. -/
def documentPath (root : String) (id : DocumentId) : String :=
  if id.spelling.isEmpty then root else joinPath root id.spelling

def readSources (fs : FileAccess m) (root : String) :
    Sources → List DocumentId → m (Except Failure Sources)
  | s, [] => pure (.ok s)
  | s, id :: ids => do
    let path := documentPath root id
    match ← fs.read path with
    | none => pure (.error (.unreadable path))
    | some text => readSources fs root (s.add id text) ids

/-- The documents that the settings ask for. -/
def loadSources (fs : FileAccess m) (u : UserPlaces) (s : Settings) : m (Except Failure Sources) := do
  match ← sourceFiles fs u s.config s.root with
  | .error .missing => pure (.error (.missingPath s.root))
  | .error .throughFile => pure (.error (.pathThroughFile s.root))
  | .error (.ignoreFiles messages) => pure (.error (.ignoreFiles messages))
  | .ok files => readSources fs s.root ⟨.empty, []⟩ files

/-- The parts of a list with commas, without outer blanks. -/
def listed (text : String) : List String :=
  (splitAtEach ',' text.toList).map fun part => String.ofList (trim part)

/-- The rules with one of some names or codes, whatever the preset. -/
def rulesNamed (c : Config) (names : List String) : List Rule :=
  ({ c with preset := some Preset.strict.name } : Config).chosenRules.filter fun r =>
    names.contains r.name || r.descriptors.any fun d => names.contains d.code

def checkRules (c : Config) : Option String → List Rule
  | none => c.chosenRules
  | some names => rulesNamed c (listed names)

/-- Reports what the rules find. -/
def check (fs : FileAccess m) (u : UserPlaces) (s : Settings) (format : Format)
    (rules : Option String) : m Outcome := do
  match ← loadSources fs u s with
  | .error e => pure (.failure [] [] e)
  | .ok sources =>
    let engine : Engine := ⟨checkRules s.config rules, s.config.providers, s.config⟩
    let report := engine.analyzeWorkspace (.ofSnapshot sources.snapshot)
    let status := if report.reaches s.config.threshold then 1 else 0
    pure ⟨status, reportLines format report, skippedLines sources.skipped⟩

/-- Writes the changed documents. Gives the lines printed, and the path that could not be written. -/
def writeDocuments (fs : FileAccess m) (root : String) (dryRun : Bool) (s : Snapshot) :
    List String → List DocumentId → m (List String × Option String)
  | lines, [] => pure (lines, none)
  | lines, id :: ids => do
    match s.find? id with
    | none => writeDocuments fs root dryRun s lines ids
    | some d =>
      let path := joinPath root id.spelling
      if dryRun then writeDocuments fs root dryRun s (lines ++ ["would update " ++ path]) ids
      else if ← fs.write path d.text then
        writeDocuments fs root dryRun s (lines ++ ["updated " ++ path]) ids
      else pure (lines, some path)

/-- Applies the fixes and writes the changed files. -/
def fix (fs : FileAccess m) (u : UserPlaces) (s : Settings) (codes : Option String) (dryRun : Bool) :
    m Outcome := do
  match ← loadSources fs u s with
  | .error e => pure (.failure [] [] e)
  | .ok sources =>
    let engine := Engine.ofConfig s.config
    let report := match codes with
      | none => engine.fixEverything sources.snapshot
      | some codes => engine.fixCodes sources.snapshot (listed codes)
    let skipped := skippedLines sources.skipped
    let (written, failed) ← writeDocuments fs s.root dryRun report.snapshot [] report.documents
    let output := fixedLines report ++ written
    match failed with
    | some path => pure (.failure output skipped (.unwritable path))
    | none =>
      let output := output ++ fixSummary report
      if report.failures.isEmpty then pure ⟨0, output, skipped⟩
      else pure (.failure output (skipped ++ failureLines report) (.rejected report.failures.length))

/-- Writes a first configuration. -/
def init (fs : FileAccess m) (force : Bool) : m Outcome := do
  if (← fs.isPresent configFile) && !force then pure (.failure [] [] (.configPresent configFile))
  else if ← fs.write configFile (String.join (firstConfig.map (· ++ "\n"))) then
    pure (.success nextSteps)
  else pure (.failure [] [] .isDirectory)

/-- Does what a command line asks for. -/
def run (fs : FileAccess m) (u : UserPlaces) (args : List String) : m Outcome := do
  match Invocation.parse? args with
  | none => pure .usage
  | some ⟨config, action⟩ =>
    match action with
    | .check path format rules exclude =>
      match ← Settings.resolve fs u.home path config exclude with
      | .error e => pure (.failure [] [] e)
      | .ok s => check fs u s format rules
    | .fix path codes dryRun exclude =>
      match ← Settings.resolve fs u.home path config exclude with
      | .error e => pure (.failure [] [] e)
      | .ok s => fix fs u s codes dryRun
    | .listRules => pure (.success rulesLines)
    | .init force => init fs force
    | .help topic full => pure (.success (topic.lines full))
    | .version => pure (.success [versionLine])

end SharpLint.Command
