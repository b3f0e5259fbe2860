/-
A build as a function on disks.

A build is written against the operations of a store, and on a workspace every one of them may also
take notes. The notes never decide anything: what an action gives, and the disk behind it, depend on
the disk in front of it (`ActsAs`). So every part of a build is matched here with a function on
disks, step by step in the order of its text, and the rest of the theory speaks of these functions.
For one file that is `Disk.compile`, made of `Disk.produce` for each of its outputs; for a path it
is `Disk.compileAll` on the sources that the path stands for (`outcome_compilePath`).
-/
import Jack.Build
import Jack.Proofs.Outputs

set_option autoImplicit false

namespace Jack

/-! ## Actions and effects -/

namespace Build

variable {α β : Type}

/-- What an action of a build gives on a workspace, and the disk behind it. -/
def outcome (action : ExceptT Error (StateM Workspace) α) (workspace : Workspace) :
    Except Error α × Disk := Prod.map id Workspace.disk (action.run workspace)

/-- An action does what a function on disks says. What has been noted before does not matter. -/
def ActsAs (action : ExceptT Error (StateM Workspace) α) (effect : Disk → Except Error α × Disk) :
    Prop :=
  ∀ workspace, outcome action workspace = effect workspace.disk

/-- What happens behind an effect that may fail. -/
def andThen (effect : Disk → Except Error α × Disk) (next : α → Disk → Except Error β × Disk)
    (disk : Disk) : Except Error β × Disk :=
  match effect disk with
  | (.ok value, reached) => next value reached
  | (.error error, reached) => (.error error, reached)

section AndThen

variable {effect : Disk → Except Error α × Disk}
  {next : α → Disk → Except Error β × Disk} {disk reached : Disk}

theorem andThen_ok {value : α} (heffect : effect disk = (.ok value, reached)) :
    andThen effect next disk = next value reached := by
  rw [andThen, heffect]

theorem andThen_error {error : Error} (heffect : effect disk = (.error error, reached)) :
    andThen effect next disk = (.error error, reached) := by
  rw [andThen, heffect]

/-- What ends well has passed through a disk on which its first part had ended well. -/
theorem exists_of_andThen_ok {result : β} (hok : andThen effect next disk = (.ok result, reached)) :
    ∃ value middle, effect disk = (.ok value, middle) ∧
      next value middle = (.ok result, reached) := by
  rcases heffect : effect disk with ⟨error | value, middle⟩
  · rw [andThen_error heffect] at hok
    cases hok
  · rw [andThen_ok heffect] at hok
    exact ⟨value, middle, rfl, hok⟩

end AndThen

theorem actsAs_pure (value : α) :
    ActsAs (pure value) fun disk => (.ok value, disk) := fun _ => rfl

theorem actsAs_throw (error : Error) :
    ActsAs (throw error : ExceptT Error (StateM Workspace) α) fun disk => (.error error, disk) :=
  fun _ => rfl

/-- A result that is known beforehand is given without a look at the disk. -/
theorem actsAs_given (result : Except Error α) :
    ActsAs (ExceptT.mk (pure result)) fun disk => (result, disk) := fun _ => rfl

/-- Taking notes is no effect at all. This is where the notes drop out of everything that
follows. -/
theorem actsAs_record (events : Log) :
    ActsAs (ExceptT.lift (Store.record events)) fun disk => (.ok (), disk) := fun _ => rfl

theorem actsAs_remove (path : String) :
    ActsAs (ExceptT.lift (Store.remove path)) fun disk => (.ok (), disk.remove path) := fun _ => rfl

/-- Effects follow one another as actions do. The second action may have been chosen by what the
first one gave, so it is matched for every value. -/
theorem ActsAs.bind {action : ExceptT Error (StateM Workspace) α}
    {next : α → ExceptT Error (StateM Workspace) β} {effect : Disk → Except Error α × Disk}
    {after : α → Disk → Except Error β × Disk} (haction : ActsAs action effect)
    (hnext : ∀ value, ActsAs (next value) (after value)) :
    ActsAs (action >>= next) (andThen effect after) := by
  intro workspace
  have hrun := haction workspace
  unfold outcome at hrun
  change Prod.map id Workspace.disk
    (ExceptT.bindCont next (action.run workspace).1 (action.run workspace).2) = _
  rw [andThen, ← hrun]
  obtain ⟨result, reached⟩ := action.run workspace
  cases result with
  | error error => rfl
  | ok value => exact hnext value reached

/-- What follows an action that cannot fail and whose value is known. -/
theorem ActsAs.bind_ok {action : ExceptT Error (StateM Workspace) α}
    {next : α → ExceptT Error (StateM Workspace) β} {value : α} {change : Disk → Disk}
    {after effect : Disk → Except Error β × Disk}
    (haction : ActsAs action fun disk => (.ok value, change disk))
    (hnext : ActsAs (next value) after) (heffect : ∀ disk, after (change disk) = effect disk) :
    ActsAs (action >>= next) effect := by
  intro workspace
  have hrun := haction workspace
  unfold outcome at hrun
  -- the value is known, so only the disk has to be carried over to the rest
  obtain ⟨hvalue, hdisk⟩ := Prod.mk.inj hrun
  change Prod.map id Workspace.disk
    (ExceptT.bindCont next (action.run workspace).1 (action.run workspace).2) = _
  rw [show (action.run workspace).1 = .ok value from hvalue, ← heffect, ← hdisk]
  exact hnext _

/-- A handler begins on the disk that the failure has left behind. Nothing that was done before the
failure is taken back. -/
theorem run_tryCatch (action : ExceptT Error (StateM Workspace) α)
    (handler : Error → ExceptT Error (StateM Workspace) α) (workspace : Workspace) :
    (tryCatch action handler).run workspace =
      match action.run workspace with
      | (.ok value, reached) => (.ok value, reached)
      | (.error error, reached) => (handler error).run reached := by
  simp only [tryCatch, tryCatchThe, MonadExceptOf.tryCatch, ExceptT.tryCatch, ExceptT.run,
    ExceptT.mk, bind, StateT.bind]
  obtain ⟨result, reached⟩ := action workspace
  cases result <;> rfl

/-- An effect with a way out: what was reached before the failure is the disk that the rescue works
on. -/
theorem ActsAs.catching {action : ExceptT Error (StateM Workspace) α}
    {handler : Error → ExceptT Error (StateM Workspace) α} {effect : Disk → Except Error α × Disk}
    {rescue : Error → Disk → Except Error α × Disk} (haction : ActsAs action effect)
    (hhandler : ∀ error, ActsAs (handler error) (rescue error)) :
    ActsAs (tryCatch action handler) fun disk =>
      match effect disk with
      | (.ok value, reached) => (.ok value, reached)
      | (.error error, reached) => rescue error reached := by
  intro workspace
  have hrun := haction workspace
  unfold outcome at hrun
  dsimp only
  rw [← hrun, outcome, run_tryCatch]
  obtain ⟨result, reached⟩ := action.run workspace
  cases result with
  | error error => exact hhandler error reached
  | ok value => rfl

/-- An operation of the store that may fail does to the disk what its step says, and a cause of the
machine becomes an error of the build. -/
theorem actsAs_attempt {operation : StateM Workspace (Except IoCause α)}
    (step : Disk → Except IoCause α × Disk)
    (hstep : ∀ workspace, Prod.map id Workspace.disk (operation workspace) = step workspace.disk) :
    ActsAs (attempt operation) fun disk => ((step disk).1.mapError .io, (step disk).2) := by
  intro workspace
  dsimp only
  rw [← hstep workspace, outcome, attempt]
  simp only [ExceptT.run, ExceptT.mk, bind, StateT.bind]
  obtain ⟨result, reached⟩ := operation workspace
  cases result <;> rfl

/-- Opening reads nothing. Which file was opened is all that is kept until the output has been
created. -/
theorem actsAs_openSource (path : String) :
    ActsAs (attempt (Store.openSource path)) fun disk =>
      ((disk.openSource path).mapError .io, disk) :=
  actsAs_attempt (fun disk => (disk.openSource path, disk)) fun _ => rfl

/-- Reading gives what the file holds by now, and that need not be what it held when it was
opened. -/
theorem actsAs_read (input : Entry) :
    ActsAs (ExceptT.lift (Store.read (m := StateM Workspace) input)) fun disk =>
      (.ok (disk.read input), disk) := fun _ => rfl

/-- Creating changes the disk only if it succeeds. -/
theorem actsAs_create (path : String) :
    ActsAs (attempt (Store.create path)) fun disk =>
      match disk.create path with
      | .ok (output, created) => (.ok output, created)
      | .error cause => (.error (.io cause), disk) := by
  have hstep : ∀ workspace : Workspace,
      Prod.map id Workspace.disk (Workspace.create path workspace) =
        match workspace.disk.create path with
        | .ok (output, created) => (.ok output, created)
        | .error cause => (.error cause, workspace.disk) := by
    intro workspace
    unfold Workspace.create
    cases workspace.disk.create path <;> rfl
  intro workspace
  refine (actsAs_attempt (fun disk => match disk.create path with
    | .ok (output, created) => (.ok output, created)
    | .error cause => (.error cause, disk)) hstep workspace).trans ?_
  dsimp only
  cases workspace.disk.create path <;> rfl

/-- On a disk everything fits. A store whose writes may fail is the sink of the compiler, not this
one. -/
theorem actsAs_save (output : Nat) (content : ByteArray) :
    ActsAs (ExceptT.lift (Store.save (m := StateM Workspace) output content)) fun disk =>
      (.ok (.ok ()), disk.fill output content.data.toList) := fun _ => rfl

/-- A result that is an error leaves the output to the removal, and the removal says nothing about
how it went. -/
theorem actsAs_orRemove (target : String) (result : Except Error Unit) :
    ActsAs (orRemove target result) fun disk =>
      match result with
      | .ok _ => (.ok (), disk)
      | .error error => (.error error, disk.remove target) := by
  intro workspace
  refine (((actsAs_given result).catching fun error =>
    (actsAs_remove target).bind fun _ => actsAs_throw (α := Unit) error) workspace).trans ?_
  cases result <;> rfl

/-- Finishing an output that was created. A disk takes whatever is saved, so all that can have
failed is the making, and nothing but notes comes behind. -/
theorem actsAs_finish {target : String} {output : Nat} (made : Except Error Unit × ByteArray)
    {check : Except IoCause Unit → Except Error Unit}
    {rest : Except IoCause Unit → ExceptT Error (StateM Workspace) String}
    (hcheck : check (.ok ()) = made.1)
    (hrest : ActsAs (rest (.ok ())) fun disk => (.ok target, disk)) :
    ActsAs (do
      let saved ← ExceptT.lift (Store.save (m := StateM Workspace) output made.2)
      orRemove target (check saved)
      rest saved) fun created => created.complete target output made := by
  refine ActsAs.bind_ok (actsAs_save output made.2)
    ((actsAs_orRemove target (check (.ok ()))).bind fun _ => hrest) fun created => ?_
  rw [hcheck, andThen, Disk.complete]
  cases made.1 <;> rfl

/-- Making an output of a source. -/
theorem actsAs_produce {source target : String}
    {make : Source → Except Error Unit × ByteArray}
    {rest : Nat → Source → ExceptT Error (StateM Workspace) String}
    (hrest : ∀ output lines,
      ActsAs (rest output lines) fun created => created.complete target output (make lines)) :
    ActsAs (do
      let input ← attempt (Store.openSource (m := StateM Workspace) source)
      let output ← attempt (Store.create (m := StateM Workspace) target)
      let lines ← ExceptT.lift (Store.read input)
      rest output lines) fun disk => disk.produce source target make := by
  intro workspace
  refine (((actsAs_openSource source).bind fun input => (actsAs_create target).bind fun output =>
    (actsAs_read input).bind fun lines => hrest output lines) workspace).trans ?_
  unfold andThen Disk.produce
  dsimp only
  cases workspace.disk.openSource source with
  | error cause => rfl
  | ok input =>
    dsimp only [Except.mapError]
    cases workspace.disk.create target <;> rfl

end Build

/-! ## One file -/

/-- Makes an output of a source: the output is named after it. -/
def Disk.output (disk : Disk) (source : String) (options : BuildOptions) (ending : String)
    (make : Source → Except Error Unit × ByteArray) : Except Error String × Disk :=
  Build.andThen (fun disk => (Build.outputPath source options ending, disk))
    (fun target disk => disk.produce source target make) disk

/-- An output whose name is known is produced under that name. -/
theorem Disk.output_eq {disk : Disk} {source target ending : String} {options : BuildOptions}
    (htarget : Build.outputPath source options ending = .ok target)
    (make : Source → Except Error Unit × ByteArray) :
    disk.output source options ending make = disk.produce source target make := by
  rw [output, Build.andThen, htarget]

namespace Build

/-- The bytes of the commands that a source is compiled to, and how the compilation ends. -/
def codeOf (lines : Source) : Except Error Unit × ByteArray :=
  ((Compiler.run lines).1, (Compiler.run lines).2.writer.sink.bytes)

/-- The bytes of the tokens of a source, and how the dump ends. -/
def dumpOf (lines : Source) : Except Error Unit × ByteArray :=
  ((TokenDump.ofSource lines).1, (TokenDump.ofSource lines).2.bytes)

end Build

/-- Compiles a source on a disk, with or without a token dump in front. -/
def Disk.compile (disk : Disk) (source : String) (options : BuildOptions) :
    Except Error String × Disk :=
  if !Path.isSource source then (.error (.io (.notSource source)), disk)
  else if options.tokens then
    Build.andThen (fun disk => disk.output source options "T.xml" Build.dumpOf)
      (fun _ middle => middle.output source options ".vm" Build.codeOf) disk
  else disk.output source options ".vm" Build.codeOf

namespace Build

/-- The name of an output is found before anything is done, and noting it changes nothing. -/
theorem actsAs_output {source ending : String} {options : BuildOptions}
    {make : Source → Except Error Unit × ByteArray} {event : String → LogEvent}
    {rest : String → ExceptT Error (StateM Workspace) String}
    (hrest : ∀ target, ActsAs (rest target) fun disk => disk.produce source target make) :
    ActsAs (do
      let target ← ExceptT.mk (pure (outputPath source options ending))
      note (event target)
      rest target) fun disk => disk.output source options ending make :=
  (actsAs_given (outputPath source options ending)).bind fun target =>
    (actsAs_record #[event target]).bind fun _ => hrest target

/-- A token dump is an output with the ending of one. -/
theorem actsAs_dumpTokens (source : String) (options : BuildOptions) :
    ActsAs (dumpTokens source options) fun disk =>
      disk.output source options "T.xml" dumpOf := by
  refine actsAs_output fun target => actsAs_produce fun output lines => ?_
  exact actsAs_finish (dumpOf lines) rfl ((actsAs_given (.ok ())).bind fun _ => actsAs_pure target)

/-- What is noted about the name of a class changes nothing. -/
theorem actsAs_misnamed (className source target : String) :
    ActsAs (if some className ≠ Path.stem? source then do
        note (.misnamedFile className source)
        return target
      else return target) fun disk => (.ok target, disk) := by
  split
  · exact (actsAs_record _).bind fun _ => actsAs_pure target
  · exact actsAs_pure target

/-- Compiling a source, behind its token dump. -/
theorem actsAs_code (source : String) (options : BuildOptions) :
    ActsAs (do
      let target ← ExceptT.mk (pure (outputPath source options ".vm"))
      note (.compilingFile source target)
      let input ← attempt (Store.openSource (m := StateM Workspace) source)
      let output ← attempt (Store.create (m := StateM Workspace) target)
      let lines ← ExceptT.lift (Store.read input)
      ExceptT.lift (Store.record (Compiler.run lines).2.writer.log)
      let saved ← ExceptT.lift
        (Store.save output (Compiler.run lines).2.writer.sink.bytes)
      orRemove target ((Compiler.run lines).1.bind fun _ => saved.mapError .io)
      if some (Compiler.run lines).2.className ≠ Path.stem? source then do
        note (.misnamedFile (Compiler.run lines).2.className source)
        return target
      else return target) fun disk => disk.output source options ".vm" codeOf := by
  refine actsAs_output fun target => actsAs_produce fun output lines => ?_
  have hcheck : ((Compiler.run lines).1.bind fun _ => (.ok () : Except IoCause Unit).mapError .io) =
      (codeOf lines).1 := by
    rw [codeOf]
    cases (Compiler.run lines).1 <;> rfl
  exact ActsAs.bind_ok (actsAs_record _)
    (actsAs_finish (codeOf lines) hcheck (actsAs_misnamed _ _ _)) fun _ => rfl

/-- What a token dump gives on a workspace, told from the disk alone. -/
theorem outcome_dumpTokens (source : String) (options : BuildOptions) (workspace : Workspace) :
    outcome (dumpTokens source options) workspace =
      workspace.disk.output source options "T.xml" dumpOf :=
  actsAs_dumpTokens source options workspace

/-- A file with the wrong extension is turned down before anything else. Otherwise the dump comes
first, if it is asked for, and the commands are made on the disk behind it. -/
theorem actsAs_compileFile (source : String) (options : BuildOptions) :
    ActsAs (compileFile source options) fun disk => disk.compile source options := by
  intro workspace
  unfold compileFile Disk.compile
  dsimp only
  cases Path.isSource source with
  | false => rfl
  | true =>
    cases options.tokens with
    | false => exact actsAs_code source options workspace
    | true =>
      exact ((actsAs_dumpTokens source options).bind fun _ => actsAs_code source options) workspace

/-- What compiling a file gives on a workspace, told from the disk alone. -/
theorem outcome_compileFile (source : String) (options : BuildOptions) (workspace : Workspace) :
    outcome (compileFile source options) workspace = workspace.disk.compile source options :=
  actsAs_compileFile source options workspace

end Build

/-! ## Several files -/

namespace Disk

/-- The sources among names inside a directory, in order of the names. -/
def select (disk : Disk) (path : String) (names : List String) : List String :=
  ((names.mergeSort fun a b => decide (a ≤ b)).map (Path.join path)).filter fun source =>
    disk.isFile source && Path.isSource source

/-- The sources that a path stands for: those inside, or itself if it is not a directory. -/
def sources (disk : Disk) (path : String) : List String :=
  match disk.entryNames path with
  | .ok names => disk.select path names
  | .error _ => [path]

/-- Compiles sources in order, up to the first that fails. -/
def compileAll (options : BuildOptions) : List String → Disk → Except Error (List String) × Disk
  | [], disk => (.ok [], disk)
  | source :: rest, disk =>
    Build.andThen (fun disk => disk.compile source options)
      (fun target => Build.andThen (compileAll options rest)
        fun targets disk => (.ok (target :: targets), disk)) disk

/-- A directory is what can be listed. So a build that lists a path has asked already whether it is
one. -/
theorem isDirectory_eq_isOk {disk : Disk} {path : String} :
    disk.isDirectory path = (disk.entryNames path).isOk := by
  unfold isDirectory entryNames
  cases disk.find path with
  | error cause => rfl
  | ok found =>
    obtain ⟨location, node⟩ := found
    cases node <;> rfl

end Disk

namespace Build

/-- Going through names changes nothing. Every name is asked for, also behind the last source. -/
theorem actsAs_selectSources (paths : List String) :
    ActsAs (selectSources paths) fun disk =>
      (.ok (paths.filter fun path => disk.isFile path && Path.isSource path), disk) := by
  induction paths with
  | nil => exact actsAs_pure []
  | cons path rest ih =>
    have hfile : ActsAs (ExceptT.lift (Store.isFile path)) fun disk =>
        (.ok (disk.isFile path), disk) := fun _ => rfl
    intro workspace
    refine ((hfile.bind fun isFile => ih.bind fun sources =>
      actsAs_pure (if isFile && Path.isSource path then path :: sources else sources))
        workspace).trans ?_
    simp only [andThen, List.filter_cons]

/-- The recursion over sources is the same on both sides, so each step is one source and the rest of
them. -/
theorem actsAs_compileFiles (options : BuildOptions) (sources : List String) :
    ActsAs (compileFiles options sources) (Disk.compileAll options sources) := by
  induction sources with
  | nil => exact actsAs_pure []
  | cons source rest ih =>
    exact (actsAs_compileFile source options).bind fun target =>
      ih.bind fun targets => actsAs_pure (target :: targets)

/-- Listing the sources of a directory only looks. -/
theorem actsAs_sourcesIn (path : String) :
    ActsAs (sourcesIn path) fun disk =>
      (((disk.entryNames path).mapError .io).map (disk.select path), disk) := by
  have hnames : ActsAs (attempt (Store.entryNames path)) fun disk =>
      ((disk.entryNames path).mapError .io, disk) :=
    actsAs_attempt (fun disk => (disk.entryNames path, disk)) fun _ => rfl
  intro workspace
  refine ((hnames.bind fun names => actsAs_selectSources _) workspace).trans ?_
  dsimp only [andThen]
  cases workspace.disk.entryNames path <;> rfl

/-- The sources are found first, on the disk as it is, and then compiled in order. -/
theorem actsAs_compilePath (path : String) (options : BuildOptions) :
    ActsAs (compilePath path options) fun disk =>
      Disk.compileAll options (disk.sources path) disk := by
  have hdirectory : ActsAs (ExceptT.lift (Store.isDirectory path)) fun disk =>
      (.ok (disk.isDirectory path), disk) := fun _ => rfl
  have hchoice : ∀ isDirectory : Bool,
      ActsAs (if isDirectory = true then do compileFiles options (← sourcesIn path)
        else compileFiles options [path])
      fun disk => if isDirectory = true then
          andThen (fun disk => (((disk.entryNames path).mapError .io).map (disk.select path), disk))
            (Disk.compileAll options) disk
        else Disk.compileAll options [path] disk := by
    intro isDirectory
    cases isDirectory with
    | false => exact actsAs_compileFiles options [path]
    | true => exact (actsAs_sourcesIn path).bind (actsAs_compileFiles options)
  intro workspace
  refine ((hdirectory.bind hchoice) workspace).trans ?_
  dsimp only [andThen]
  rw [Disk.isDirectory_eq_isOk, Disk.sources]
  cases workspace.disk.entryNames path <;> rfl

/-- What compiling several files gives on a workspace, told from the disk alone. -/
theorem outcome_compileFiles (options : BuildOptions) (sources : List String)
    (workspace : Workspace) :
    outcome (compileFiles options sources) workspace =
      Disk.compileAll options sources workspace.disk :=
  actsAs_compileFiles options sources workspace

/-- What a build gives on a workspace, told from the disk alone. -/
theorem outcome_compilePath (path : String) (options : BuildOptions) (workspace : Workspace) :
    outcome (compilePath path options) workspace =
      Disk.compileAll options (workspace.disk.sources path) workspace.disk :=
  actsAs_compilePath path options workspace

end Build

end Jack
