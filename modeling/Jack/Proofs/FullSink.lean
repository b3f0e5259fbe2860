/-
A full sink cuts off what is written, and changes nothing else.

Two runs are compared, one into a sink without a limit and one into the same sink with a limit.
As long as everything fits they go through the same states and end alike. The first write that
does not fit ends the limited run. The other one goes on, but it can only add to its sink, so the
bytes that the limited sink took remain the first ones of all that the other writes. `CutOff` is
this alternative for two results, and `Bounded` says of an action that its runs are related in
this way. It goes through sequences, and so through the rules of the grammar and through the
elements of a token dump.

The compiler keeps its sink inside a state of its own and a dump works on the sink itself, so the
argument is about a state in which a sink can be seen, a `View`.
-/
import Jack.Proofs.Reuse
import Jack.TokenDump

set_option autoImplicit false

namespace Jack

namespace Vm

variable {σ α β : Type}

/-! ## The first bytes -/

/-- A limit that the first part exceeds cuts that part. -/
theorem extract_append_of_le {bytes : ByteArray} {limit : Nat} (h : limit ≤ bytes.size)
    (added : ByteArray) : (bytes ++ added).extract 0 limit = bytes.extract 0 limit := by
  have hrest : added.extract (0 - bytes.size) (limit - bytes.size) = .empty := by
    apply ByteArray.ext
    simp [h]
  rw [ByteArray.extract_append, hrest, ByteArray.append_empty]

/-- A limit that leaves room for the first part cuts the second one. -/
theorem extract_append_of_ge {bytes : ByteArray} {limit : Nat} (h : bytes.size ≤ limit)
    (added : ByteArray) :
    (bytes ++ added).extract 0 limit = bytes ++ added.extract 0 (limit - bytes.size) := by
  have hfirst : bytes.extract 0 limit = bytes := by
    apply ByteArray.ext
    simp [h]
  rw [ByteArray.extract_append, hfirst, Nat.zero_sub]

/-! ## Two runs -/

/-- The state that a run ends in. -/
def ended : EStateM.Result Error σ α → σ
  | .ok _ state => state
  | .error _ state => state

/-- The error that a run ends with, if it fails. -/
def failure : EStateM.Result Error σ α → Option Error
  | .ok _ _ => none
  | .error error _ => some error

/-- A result whose state is changed. -/
def onState (change : σ → σ) : EStateM.Result Error σ α → EStateM.Result Error σ α
  | .ok value state => .ok value (change state)
  | .error error state => .error error (change state)

/-- Changing the state of a result changes the state that the run ends in. -/
theorem ended_onState (change : σ → σ) (result : EStateM.Result Error σ α) :
    ended (onState change result) = change (ended result) := by
  cases result <;> rfl

/-- Changing the state of a result leaves its error. -/
theorem failure_onState (change : σ → σ) (result : EStateM.Result Error σ α) :
    failure (onState change result) = failure result := by
  cases result <;> rfl

/-- A kind of state that holds a sink: the sink, and the state with a limit put on it. -/
structure View (σ : Type) where
  sink : σ → Sink
  limited : Nat → σ → σ
  sink_limited : ∀ limit state,
    sink (limited limit state) = { sink state with capacity := some limit }

/-- The sink of a state has no limit, and holds no more than one would allow. -/
structure View.Within (view : View σ) (limit : Nat) (state : σ) : Prop where
  unlimited : (view.sink state).capacity = none
  size_le : (view.sink state).bytes.size ≤ limit

/-- How a run with a limit ends, next to the run without: in the same way if everything fits, and
otherwise at the limit. -/
inductive CutOff (view : View σ) (limit : Nat) :
    EStateM.Result Error σ α → EStateM.Result Error σ α → Prop where
  | fits {result result' : EStateM.Result Error σ α} (hroom : view.Within limit (ended result))
      (hsame : result' = onState (view.limited limit) result) : CutOff view limit result result'
  | full {result : EStateM.Result Error σ α} {last : σ}
      (hover : limit < (view.sink (ended result)).bytes.size)
      (hbytes : (view.sink last).bytes = (view.sink (ended result)).bytes.extract 0 limit) :
      CutOff view limit result (.error (.io .sinkFull) last)

/-- An action that only adds to the sink, and that a limit on the sink merely cuts off. -/
structure Bounded (view : View σ) (limit : Nat) (action : EStateM Error σ α) : Prop where
  grows : ∀ state, ∃ added,
    (view.sink (ended (action state))).bytes = (view.sink state).bytes ++ added
  cutOff : ∀ state, view.Within limit state →
    CutOff view limit (action state) (action (view.limited limit state))

section

variable {view : View σ} {limit : Nat}

/-- An action that does not write does the same with a limit. -/
theorem Bounded.of_still {action : EStateM Error σ α}
    (hlimited : ∀ state, action (view.limited limit state) =
      onState (view.limited limit) (action state))
    (hbytes : ∀ state, (view.sink (ended (action state))).bytes = (view.sink state).bytes)
    (hcapacity : ∀ state,
      (view.sink (ended (action state))).capacity = (view.sink state).capacity) :
    Bounded view limit action where
  grows := by
    intro state
    refine ⟨.empty, ?_⟩
    rw [hbytes, ByteArray.append_empty]
  cutOff := by
    intro state hwithin
    refine .fits ⟨?_, ?_⟩ (hlimited state)
    · rw [hcapacity, hwithin.unlimited]
    · rw [hbytes]
      exact hwithin.size_le

theorem bounded_pure (value : α) : Bounded view limit (pure value) :=
  .of_still (fun _ => rfl) (fun _ => rfl) fun _ => rfl

/-- One action after the other. If the limit ended the first one, the second one only runs without
it, and what it adds there stands behind the limit. -/
theorem Bounded.bind {action : EStateM Error σ α} {next : α → EStateM Error σ β}
    (hfirst : Bounded view limit action) (hnext : ∀ value, Bounded view limit (next value)) :
    Bounded view limit (action >>= next) where
  grows := by
    intro state
    obtain ⟨first, hadded⟩ := hfirst.grows state
    simp only [Bind.bind, EStateM.bind]
    cases hrun : action state with
    | ok value reached =>
      obtain ⟨rest, hrest⟩ := (hnext value).grows reached
      rw [hrun] at hadded
      refine ⟨first ++ rest, ?_⟩
      rw [hrest, ← ByteArray.append_assoc, ← hadded]
      rfl
    | error error reached =>
      rw [hrun] at hadded
      exact ⟨first, hadded⟩
  cutOff := by
    intro state hwithin
    have hends := hfirst.cutOff state hwithin
    simp only [Bind.bind, EStateM.bind]
    generalize action state = result, action (view.limited limit state) = result' at hends
    cases hends with
    | fits hroom hsame =>
      subst hsame
      cases result with
      | ok value reached => exact (hnext value).cutOff reached hroom
      | error error reached => exact .fits hroom rfl
    | full hover hbytes =>
      cases result with
      | error error reached => exact .full hover hbytes
      | ok value reached =>
        -- what the free run adds now comes behind the bytes that the limited sink took
        obtain ⟨added, hadded⟩ := (hnext value).grows reached
        refine .full ?_ ?_
        · rw [hadded, ByteArray.size_append]
          exact Nat.lt_add_right _ hover
        · rw [hadded, hbytes]
          exact (extract_append_of_le hover.le added).symm

end

/-! ## Writing -/

/-- A sink seen as it is. -/
def Sink.view : View Sink where
  sink := id
  limited limit sink := { sink with capacity := some limit }
  sink_limited _ _ := rfl

section

variable {bytes : ByteArray} {text : String} {limit flushes : Nat} {flushFails : Bool}

/-- A text that fits is taken whole. -/
theorem Sink.write_of_fits (h : text.toUTF8.size ≤ limit - bytes.size) :
    Sink.write text ⟨bytes, some limit, flushFails, flushes⟩ =
      .ok () ⟨bytes ++ text.toUTF8, some limit, flushFails, flushes⟩ := if_pos h

/-- Of a text that does not fit the sink takes as much as it has room for, and the write fails. -/
theorem Sink.write_of_not_fits (h : ¬ text.toUTF8.size ≤ limit - bytes.size) :
    Sink.write text ⟨bytes, some limit, flushFails, flushes⟩ =
      .error (.io .sinkFull) ⟨bytes ++ text.toUTF8.extract 0 (limit - bytes.size), some limit,
        flushFails, flushes⟩ := if_neg h

end

/-- A write that succeeds adds the whole text. -/
theorem Sink.bytes_of_write {text : String} {sink reached : Sink}
    (hwrite : sink.write text = .ok () reached) : reached.bytes = sink.bytes ++ text.toUTF8 := by
  obtain ⟨bytes, capacity, flushFails, flushes⟩ := sink
  cases capacity with
  | none =>
    cases hwrite
    rfl
  | some limit =>
    by_cases hfits : text.toUTF8.size ≤ limit - bytes.size
    · rw [write_of_fits hfits] at hwrite
      cases hwrite
      rfl
    · rw [write_of_not_fits hfits] at hwrite
      cases hwrite

/-- A write that does not fit keeps what fits. -/
theorem Sink.bounded_write (limit : Nat) (text : String) :
    Bounded Sink.view limit (Sink.write text) where
  grows := by
    intro sink
    obtain ⟨added, hwrite | hwrite⟩ := sink.write_cases text <;> rw [hwrite] <;> exact ⟨added, rfl⟩
  cutOff := by
    rintro ⟨bytes, capacity, flushFails, flushes⟩ ⟨hunlimited, hsize⟩
    obtain rfl : capacity = none := hunlimited
    replace hsize : bytes.size ≤ limit := hsize
    by_cases hfits : text.toUTF8.size ≤ limit - bytes.size
    · have hroom : (bytes ++ text.toUTF8).size ≤ limit := by
        rw [ByteArray.size_append]
        omega
      exact .fits ⟨rfl, hroom⟩ (write_of_fits hfits)
    · have hover : limit < (bytes ++ text.toUTF8).size := by
        rw [ByteArray.size_append]
        omega
      rw [Sink.view, write_of_not_fits hfits]
      exact .full hover (extract_append_of_ge hsize _).symm

end Vm

/-! ## Token dumps -/

namespace TokenDump

/-- A sequence of actions that do not flush does not flush. -/
theorem flushes_bind {α β : Type} {action : EStateM Error Vm.Sink α}
    {next : α → EStateM Error Vm.Sink β}
    (hfirst : ∀ sink, (Vm.ended (action sink)).flushes = sink.flushes)
    (hnext : ∀ value sink, (Vm.ended (next value sink)).flushes = sink.flushes) (sink : Vm.Sink) :
    (Vm.ended ((action >>= next) sink)).flushes = sink.flushes := by
  have hsame := hfirst sink
  simp only [Bind.bind, EStateM.bind]
  cases hrun : action sink with
  | ok value reached =>
    rw [hrun] at hsame
    exact (hnext value reached).trans hsame
  | error error reached =>
    rw [hrun] at hsame
    exact hsame

/-- A write does not flush, whether it fits or not. -/
theorem flushes_sinkWrite (text : String) (sink : Vm.Sink) :
    (Vm.ended (sink.write text)).flushes = sink.flushes := by
  obtain ⟨added, hwrite | hwrite⟩ := sink.write_cases text <;> rw [hwrite] <;> rfl

/-- The elements of a dump are written one after the other, without a flush. -/
theorem flushes_writeItems (items : List Lexer.Item) (sink : Vm.Sink) :
    (Vm.ended (writeItems items sink)).flushes = sink.flushes := by
  induction items generalizing sink with
  | nil => rfl
  | cons item rest ih =>
    obtain ⟨result, line⟩ := item
    cases result with
    | error error => rfl
    | ok token => exact flushes_bind (flushes_sinkWrite _) (fun _ => ih) sink

/-- A dump leaves the flushing to others. -/
theorem flushes_write (lexer : Lexer) (sink : Vm.Sink) :
    (Vm.ended (write lexer sink)).flushes = sink.flushes := by
  apply flushes_bind (flushes_sinkWrite _)
  intro _
  exact flushes_bind (flushes_writeItems _) fun _ => flushes_sinkWrite _

/-- The elements of a dump are cut off at the limit. -/
theorem bounded_writeItems (limit : Nat) (items : List Lexer.Item) :
    Vm.Bounded Vm.Sink.view limit (writeItems items) := by
  induction items with
  | nil => exact Vm.bounded_pure ()
  | cons item rest ih =>
    obtain ⟨result, line⟩ := item
    cases result with
    | error error => exact .of_still (fun _ => rfl) (fun _ => rfl) fun _ => rfl
    | ok token => exact (Vm.Sink.bounded_write limit _).bind fun _ => ih

/-- A dump is its opening line, its elements and its closing line, so it is cut off at the limit. -/
theorem bounded_write (limit : Nat) (lexer : Lexer) :
    Vm.Bounded Vm.Sink.view limit (write lexer) := by
  apply (Vm.Sink.bounded_write limit _).bind
  intro _
  exact (bounded_writeItems limit _).bind fun _ => Vm.Sink.bounded_write limit _

end TokenDump

/-! ## Compiling -/

namespace Compiler

open Vm (Bounded Command)

variable {α : Type} {limit : Nat}

/-- The sink that a compiler writes to. -/
def sinkView : Vm.View Compiler where
  sink compiler := compiler.writer.sink
  limited limit compiler :=
    { compiler with writer.sink := { compiler.writer.sink with capacity := some limit } }
  sink_limited _ _ := rfl

/-- The two names for the state that a run ends in agree. -/
theorem ended_eq_after (result : EStateM.Result Error Compiler α) :
    Vm.ended result = after result := by
  cases result <;> rfl

/-- A limit on the sink is nothing that a rule can look at. -/
theorem sameView_limited (limit : Nat) (compiler : Compiler) :
    SameView compiler (sinkView.limited limit compiler) := ⟨rfl, rfl, rfl, rfl⟩

/-- Pulling a token does not touch the sink. -/
theorem bounded_advance : Bounded sinkView limit advance := by
  apply Bounded.of_still
  · intro compiler
    simp only [advance, sinkView]
    cases compiler.lexer.next <;> rfl
  all_goals
    intro compiler
    unfold advance
    cases compiler.lexer.next <;> rfl

/-- Declaring a name does not touch the sink. -/
theorem bounded_define (name type : String) (kind : VarKind) :
    Bounded sinkView limit (define name type kind) := by
  apply Bounded.of_still
  · intro compiler
    simp only [define, sinkView]
    cases SymbolTable.declare name type kind compiler.symbols <;> rfl
  all_goals
    intro compiler
    unfold define
    cases SymbolTable.declare name type kind compiler.symbols <;> rfl

/-- An action that decides by what it sees decides the same with a limit. -/
theorem bounded_look {next : Compiler → CompileM α}
    (hview : ∀ {compiler other : Compiler}, SameView compiler other → next compiler = next other)
    (hnext : ∀ compiler, Bounded sinkView limit (next compiler)) :
    Bounded sinkView limit (get >>= next) where
  grows := fun compiler => (hnext compiler).grows compiler
  cutOff := by
    intro compiler hwithin
    rw [get_bind, get_bind, ← hview (sameView_limited limit compiler)]
    exact (hnext compiler).cutOff compiler hwithin

/-- A command that is captured needs no room, and one that is written needs that of its line. -/
theorem bounded_emit (command : Command) : Bounded sinkView limit (emit command) where
  grows := by
    intro compiler
    obtain ⟨writer, deferred, hafter, ⟨added, log, rfl⟩, -, -⟩ := after_emit compiler command
    rw [ended_eq_after, hafter]
    exact ⟨added, rfl⟩
  cutOff := by
    rintro ⟨lexer, ⟨sink, closed, log⟩, symbols, current, className, subroutineName, labels,
      deferred⟩ hwithin
    cases deferred with
    | cons captured outer => exact .fits ⟨hwithin.unlimited, hwithin.size_le⟩ rfl
    | nil =>
      cases closed with
      | true =>
        simp only [emit, Vm.Writer.write_closed, sinkView]
        exact .fits ⟨hwithin.unlimited, hwithin.size_le⟩ rfl
      | false =>
        have hwrite := (Vm.Sink.bounded_write limit (command.render ++ "\n")).cutOff sink
          ⟨hwithin.unlimited, hwithin.size_le⟩
        simp only [emit, Vm.Writer.write_eq, Vm.Writer.writeLine, sinkView, Vm.Sink.view] at hwrite ⊢
        -- the two writes are related already, and a command adds nothing to them
        generalize Vm.Sink.write (command.render ++ "\n") sink = result,
          Vm.Sink.write (command.render ++ "\n") { sink with capacity := some limit } = result'
          at hwrite
        cases hwrite with
        | fits hroom hsame =>
          subst hsame
          cases result <;> exact .fits ⟨hroom.unlimited, hroom.size_le⟩ rfl
        | full hover hbytes => cases result <;> exact .full hover hbytes

/-- Closing flushes but writes nothing, so there is nothing for a limit to cut off. -/
theorem bounded_close : Bounded sinkView limit close := by
  apply Bounded.of_still
  all_goals
    rintro ⟨lexer, ⟨⟨bytes, capacity, flushFails, flushes⟩, closed, log⟩, symbols, current,
      className, subroutineName, labels, deferred⟩
    cases closed <;> cases flushFails <;> rfl

/-- A list that is opened for commands needs no room; what the action inside writes is cut off as it
is. -/
theorem bounded_defer {action : CompileM Unit} (h : Bounded sinkView limit action) :
    Bounded sinkView limit (defer action) where
  grows := by
    intro compiler
    obtain ⟨added, hadded⟩ := h.grows compiler.opened
    rw [ended_eq_after] at hadded ⊢
    rw [after_defer]
    exact ⟨added, hadded⟩
  cutOff := by
    intro compiler hwithin
    have hends := h.cutOff compiler.opened ⟨hwithin.unlimited, hwithin.size_le⟩
    have hopened : sinkView.limited limit compiler.opened =
        (sinkView.limited limit compiler).opened := rfl
    rw [hopened] at hends
    generalize hrun : action compiler.opened = result,
      hrun' : action (sinkView.limited limit compiler).opened = result' at hends
    cases hends with
    | fits hroom hsame =>
      subst hsame
      cases result with
      | ok value reached =>
        rw [defer_of_ok hrun, defer_of_ok hrun']
        exact .fits ⟨hroom.unlimited, hroom.size_le⟩ rfl
      | error error reached =>
        rw [defer_of_error hrun, defer_of_error hrun']
        exact .fits ⟨hroom.unlimited, hroom.size_le⟩ rfl
    | full hover hbytes =>
      -- the limited run failed inside, and the free one may have ended either way
      rw [defer_of_error hrun']
      cases result with
      | ok value reached =>
        rw [defer_of_ok hrun]
        exact .full hover hbytes
      | error error reached =>
        rw [defer_of_error hrun]
        exact .full hover hbytes

/-- What is put together from bounded parts is bounded, by induction on how it is put together. -/
theorem Composed.bounded {Base : (α : Type) → CompileM α → Prop}
    (hbase : ∀ (α : Type) (action : CompileM α), Base α action → Bounded sinkView limit action)
    {action : CompileM α} (h : Composed Base action) : Bounded sinkView limit action := by
  induction h with
  | base haction => exact hbase _ _ haction
  | pure value => exact Vm.bounded_pure value
  | bind _ _ ihfirst ihnext => exact ihfirst.bind ihnext
  | look hview _ ih => exact bounded_look hview ih
  | advance => exact bounded_advance
  | define name type kind => exact bounded_define name type kind
  | emit _ => exact bounded_emit _
  -- complaints and notes, and the steps that set names, do not see the sink
  | complain | startSubroutine | nameSubroutine | nameClass | note =>
    exact .of_still (fun _ => rfl) (fun _ => rfl) fun _ => rfl

/-- Labels, their commands and deferred actions are bounded. -/
theorem Special.bounded {action : CompileM α} (h : Special α action) :
    Bounded sinkView limit action := by
  cases h with
  | freshLabel => exact .of_still (fun _ => rfl) (fun _ => rfl) fun _ => rfl
  | emit command => exact bounded_emit command
  | defer haction => exact bounded_defer (haction.bounded fun _ _ hfalse => hfalse.elim)

/-- A run of the compiler is cut off at the limit: it is put together from statements, steps and the
closing of the writer. -/
theorem bounded_compileWithin (limit budget : Nat) :
    Bounded sinkView limit (compileWithin budget) := by
  have hstatements : Bounded sinkView limit (statements budget) :=
    (composed_statements budget).bounded fun _ _ => Special.bounded
  have hcomposed : Composed (fun _ => Bounded sinkView limit) (compileWithin budget) :=
    composed_compileWithin (.base hstatements) (.base bounded_close)
  exact hcomposed.bounded fun _ _ haction => haction

/-- A run that a full sink ended has not come to the flush. -/
theorem flushes_of_sinkFull {compiler reached : Compiler}
    (hrun : compile compiler = .error (.io .sinkFull) reached) :
    reached.writer.sink.flushes = compiler.writer.sink.flushes := by
  obtain ⟨budget, hcases⟩ := compile_cases compiler
  have hunflushed := unflushed_readClass budget compiler
  rcases hcases with ⟨error, last, hread, hfail⟩ | ⟨last, -, hrest⟩
  · rw [hread] at hunflushed
    rw [hrun] at hfail
    cases hfail
    exact hunflushed.flushes
  · rcases hrest with ⟨line, found, hfail⟩ | ⟨-, hclose⟩
    · rw [hrun] at hfail
      cases hfail
    -- closing fails in one way only, which is another one
    · rw [hrun] at hclose
      obtain ⟨lexer, ⟨⟨bytes, capacity, flushFails, flushes⟩, closed, log⟩, symbols, current,
        className, subroutineName, labels, deferred⟩ := last
      cases closed <;> cases flushFails <;> cases hclose

end Compiler

/-! ## Full sinks -/

/-- What a limit on a sink does to a run that begins with an empty one. -/
structure Truncated {σ : Type} (view : Vm.View σ) (limit : Nat)
    (free limited : EStateM.Result Error σ Unit) : Prop where
  /-- If everything fits, the sinks take the same bytes and the runs end alike. -/
  fits : (view.sink (Vm.ended free)).bytes.size ≤ limit →
    (view.sink (Vm.ended limited)).bytes = (view.sink (Vm.ended free)).bytes ∧
      (view.sink (Vm.ended limited)).flushes = (view.sink (Vm.ended free)).flushes ∧
      Vm.failure limited = Vm.failure free
  /-- Otherwise the limited run fails, with the sink filled up to the limit and never flushed. -/
  full : limit < (view.sink (Vm.ended free)).bytes.size →
    (view.sink (Vm.ended limited)).bytes = (view.sink (Vm.ended free)).bytes.extract 0 limit ∧
      (view.sink (Vm.ended limited)).flushes = 0 ∧
      Vm.failure limited = some (.io .sinkFull)

/-- From related results to what can be seen of them. The flushes of a run that the limit ended have
to be known, since a cut-off run says nothing about them. -/
theorem Vm.CutOff.truncated {σ : Type} {view : Vm.View σ} {limit : Nat}
    {free limited : EStateM.Result Error σ Unit} (h : Vm.CutOff view limit free limited)
    (hflushes : ∀ last, limited = .error (.io .sinkFull) last → (view.sink last).flushes = 0) :
    Truncated view limit free limited := by
  cases h with
  | fits hroom hsame =>
    refine ⟨fun _ => ?_, fun hover => absurd hroom.size_le (Nat.not_le_of_lt hover)⟩
    subst hsame
    rw [Vm.ended_onState, Vm.failure_onState, view.sink_limited]
    exact ⟨rfl, rfl, rfl⟩
  | full hover hbytes =>
    refine ⟨fun hsize => absurd hsize (Nat.not_le_of_lt hover), fun _ => ?_⟩
    exact ⟨hbytes, hflushes _ rfl, rfl⟩

/-- **A full sink truncates and does nothing else.** A compilation of any bytes into a sink with a
limit, and a token dump of what any lexer has left, do what they do into one without if that fits;
otherwise they fail for the full sink, which holds the first bytes of it and was not flushed. -/
theorem full_sink_truncates (limit : Nat) (flushFails : Bool) :
    (∀ bytes : List UInt8, Truncated Compiler.sinkView limit
      (Compiler.compile (.start (.ofBytes bytes) { flushFails }))
      (Compiler.compile (.start (.ofBytes bytes) { capacity := some limit, flushFails }))) ∧
    (∀ lexer : Lexer, Truncated Vm.Sink.view limit (TokenDump.write lexer { flushFails })
      (TokenDump.write lexer { capacity := some limit, flushFails })) ∧
    Error.message (.io .sinkFull) = "io error: failed to write whole buffer" := by
  refine ⟨?_, ?_, rfl⟩
  · intro bytes
    have hbounded := Compiler.bounded_compileWithin limit ((Lexer.ofBytes bytes).budget + 2)
    have hcut : Vm.CutOff Compiler.sinkView limit
        (Compiler.compile (.start (.ofBytes bytes) { flushFails }))
        (Compiler.compile (.start (.ofBytes bytes) { capacity := some limit, flushFails })) :=
      hbounded.cutOff (.start (.ofBytes bytes) { flushFails }) ⟨rfl, Nat.zero_le limit⟩
    apply hcut.truncated
    intro last hlast
    exact Compiler.flushes_of_sinkFull hlast
  · intro lexer
    have hcut : Vm.CutOff Vm.Sink.view limit (TokenDump.write lexer { flushFails })
        (TokenDump.write lexer { capacity := some limit, flushFails }) :=
      (TokenDump.bounded_write limit lexer).cutOff { flushFails } ⟨rfl, Nat.zero_le limit⟩
    apply hcut.truncated
    intro last hlast
    have hsame := TokenDump.flushes_write lexer { capacity := some limit, flushFails }
    rw [hlast] at hsame
    exact hsame

end Jack
