import Mathlib
import RunGrammar.Proofs.CommandLine.Host
import RunGrammar.Proofs.Compression.Lossless
import RunGrammar.Proofs.Format.Meaning

/-!
# A job does what it is asked to

A job is followed from the contents of its input file to its answer. The input is
few enough bytes for all the ids that could be wanted, so compression succeeds;
the grammar derives the text and can be stored; and what is read back derives the
text again. Hence neither verification ever fails, and the file that is left
behind holds the text in the format asked for. That threads can be started is
taken from the host, and only for the strategy that needs them; where they cannot,
the job ends after the input was read.

Names come before everything else. A job with a name that nobody knows fails on
every host without a single action on it.
-/

namespace RunGrammar

/-! ### The parts of a job -/

namespace Text

variable {limit : Nat} {dropZeroes : Bool} {bytes : List UInt8}

theorem ofContents_eq (limit : Nat) (dropZeroes : Bool) (bytes : List UInt8) :
    ofContents limit dropZeroes bytes =
      ((if limit = 0 then bytes else bytes.take limit).filter fun b => !dropZeroes || b != 0).map
        UInt8.toUInt32 := by
  cases dropZeroes <;> simp [ofContents, firstBytes, ofBytes]

theorem length_ofContents_le : (ofContents limit dropZeroes bytes).length ≤ bytes.length := by
  have kept : (if limit = 0 then bytes else bytes.take limit).length ≤ bytes.length := by
    split <;> simp
  calc
    (ofContents limit dropZeroes bytes).length
      ≤ (if limit = 0 then bytes else bytes.take limit).length := by
        simpa [ofContents_eq] using List.length_filter_le _ _
    _ ≤ bytes.length := kept

theorem lt_byteAlphabet_of_mem {a : Symbol} (h : a ∈ ofContents limit dropZeroes bytes) :
    a.toNat < byteAlphabet := by
  rw [ofContents_eq] at h
  obtain ⟨b, _, rfl⟩ := List.mem_map.mp h
  exact b.toNat_lt

end Text

namespace Strategy

theorem ofName_name (s : Strategy) : ofName s.name = .ok s := by
  cases s <;> rfl

theorem ofName_of_unknown {name : String} (unknown : ∀ s : Strategy, s.name ≠ name) :
    ofName name = .error (.unknownStrategy name) := by
  have none : all.find? (·.name == name) = none := by simp [unknown]
  simp [ofName, none]

end Strategy

namespace Format

theorem ofName_name (f : Format) : ofName f.name = .ok f := by
  cases f <;> rfl

theorem ofName_of_unknown {name : String} (unknown : ∀ f : Format, f.name ≠ name) :
    ofName name = .error (.unknownFormat name) := by
  have none : all.find? (·.name == name) = none := by simp [unknown]
  simp [ofName, none]

end Format

/-- With ids for the terminals and for all symbols of the text but one, the text is compressed, and
into a grammar that can be stored. -/
theorem Compressor.exists_storable (c : Compressor) {terminals : Nat} {text : Text}
    (short : text.length < idSpace) (below : ∀ a ∈ text, a.toNat < terminals)
    (room : terminals + max text.length 1 - 1 ≤ idSpace) :
    ∃ g, (c.compress terminals text).1.result = .ok g ∧ g.Storable ∧ g.derivedText = text := by
  obtain ⟨u, stage, last, result, _⟩ | ⟨e, _, wanted, _, full, few⟩ :=
    c.compress_of_inside short (by omega) below
  · have valid := (stage.derives last short).valid
    refine ⟨u.rooted, result, ⟨valid, stage.arena.fits, stage.sized.withRoot _⟩, ?_⟩
    exact (Grammar.derivedText_eq valid).trans (stage.expand_root last)
  · omega

/-- Fewer bytes than there are ids above the letters can always be compressed. -/
theorem Compressor.exists_storable_of_contents (c : Compressor) (limit : Nat) (dropZeroes : Bool)
    {bytes : List UInt8} (few : bytes.length < idSpace - 255) :
    ∃ g, (c.compress byteAlphabet (Text.ofContents limit dropZeroes bytes)).1.result = .ok g ∧
      g.Storable ∧ g.derivedText = Text.ofContents limit dropZeroes bytes := by
  have length : (Text.ofContents limit dropZeroes bytes).length ≤ bytes.length :=
    Text.length_ofContents_le
  have space : byteAlphabet + 255 < idSpace := by decide
  have letters : byteAlphabet = 256 := rfl
  exact c.exists_storable (by omega) (fun _ => Text.lt_byteAlphabet_of_mem) (by omega)

namespace CommandLine

variable {W : Type} {host : Host (StateM W)} {held : W → Contents} {o : Options} {w : W}
variable {text : Text} {g : Grammar}

/-- The file of this name holds, in this format, a sound grammar that gives the text symbol by
symbol. -/
def Stores (held : Contents) (f : Format) (name : String) (text : Text) : Prop :=
  ∃ bytes g, held name = .ok bytes ∧ f.decode bytes = .ok g ∧ g.validate = .ok () ∧
    Cursor.Yields g (.start g) text

theorem readInput_succeeds (serves : host.Serves held) {bytes : List UInt8}
    (holds : held w o.input = .ok bytes) :
    Succeeds (readInput host o) w fun text w' =>
      text = Text.ofContents o.limit o.dropZeroes bytes ∧ held w' = held w := by
  unfold readInput
  apply (serves.contents holds).bind
  rintro _ w' ⟨rfl, same⟩
  apply (Succeeds.keeps (serves.tell _ _)).bind
  intro _ w'' same'
  exact .pure ⟨rfl, same'.trans same⟩

/-- What is stored reads back as a grammar of the text. -/
theorem storeGrammar_succeeds (serves : host.Serves held) {f : Format}
    (accepts : host.Accepts held (o.outputName f)) (storable : g.Storable)
    (derives : g.derivedText = text) :
    Succeeds (storeGrammar host o f g text) w fun answer w' =>
      answer = true ∧ Stores (held w') f (o.outputName f) text := by
  obtain ⟨h, decoded, storable', same⟩ := f.derivedText_decode_encode storable
  have derives' : h.derivedText = text := same.trans derives
  have reads : Cursor.Yields h (.start h) text :=
    derives' ▸ Grammar.yields_derivedText storable'.valid
  unfold storeGrammar
  apply (accepts.store f g).bind
  intro _ w₁ holds
  apply (Succeeds.keeps (serves.tell _ _)).bind
  intro _ w₂ same₂
  apply (Succeeds.keeps (serves.print _)).bind
  intro _ w₃ same₃
  have holds₃ : held w₃ (o.outputName f) = .ok (f.encode g) := by
    simpa [same₃, same₂] using holds
  have stores : Stores (held w₃) f (o.outputName f) text :=
    ⟨_, h, holds₃, decoded, storable'.valid, reads⟩
  split
  · apply (serves.load holds₃ decoded).bind
    rintro _ w₄ ⟨rfl, same₄⟩
    apply (Succeeds.keeps (serves.tell _ _)).bind
    intro _ w₅ same₅
    exact .pure ⟨by simp [derives'], by simpa [same₅, same₄] using stores⟩
  · exact .pure ⟨rfl, stores⟩

theorem prepare_succeeds (serves : host.Serves held) {s : Strategy} {format : Option Format}
    {bytes : List UInt8} (strategy : o.strategy = s.name)
    (named : o.format = format.map Format.name)
    (holds : held w o.input = .ok bytes) :
    Succeeds (prepare host o) w fun task w' =>
      task = ⟨s, format, Text.ofContents o.limit o.dropZeroes bytes⟩ ∧ held w' = held w := by
  have known : Strategy.ofName o.strategy = .ok s := strategy ▸ s.ofName_name
  have formats : o.format.mapM Format.ofName = .ok format := by
    cases format with
    | none => simp [named]
    | some f => simp [named, Format.ofName_name]
  unfold prepare
  apply Succeeds.ofExcept_bind known
  apply Succeeds.ofExcept_bind formats
  apply (readInput_succeeds serves holds).bind
  rintro _ w' ⟨rfl, same⟩
  exact .pure ⟨rfl, same⟩

theorem startStrategy_succeeds {s : Strategy}
    (threads : s = .chunked → host.Threads held (max 1 o.parts)) :
    Succeeds (startStrategy host o s) w fun _ w' => held w' = held w := by
  cases s with
  | firstSeen => exact .pure rfl
  | dense => exact .pure rfl
  | chunked =>
      have ⟨ok, same⟩ := threads rfl w
      have started : Succeeds
          (liftM (host.startThreads (max 1 o.parts)) : ExceptT JobFailure (StateM W) _) w
          fun answer w' => answer = .ok () ∧ held w' = held w := .lift ⟨ok, same⟩
      apply started.bind
      rintro _ w' ⟨rfl, same⟩
      exact .pure same

/-- What a task has worked out is verified, and left in the file that was asked for. -/
theorem carryOut_succeeds (serves : host.Serves held) {s : Strategy} {format : Option Format}
    {bytes : List UInt8} (accepts : ∀ f ∈ format, host.Accepts held (o.outputName f))
    (few : bytes.length < idSpace - 255) :
    Succeeds (carryOut host o ⟨s, format, Text.ofContents o.limit o.dropZeroes bytes⟩) w
      fun answer w' => answer = true ∧ ∀ f ∈ format,
        Stores (held w') f (o.outputName f) (Text.ofContents o.limit o.dropZeroes bytes) := by
  obtain ⟨g, result, storable, derives⟩ :=
    (s.start o.parts).exists_storable_of_contents o.limit o.dropZeroes few
  have verdict :
      (!o.verify || g.derivedText == Text.ofContents o.limit o.dropZeroes bytes) = true := by
    simp [derives]
  unfold carryOut
  dsimp only
  apply (Succeeds.keeps serves.clock).bind
  intro _ w₂ _
  apply (serves.tellAll _).bind
  intro _ w₃ _
  apply Succeeds.ofExcept_bind result
  apply (Succeeds.keeps serves.clock).bind
  intro _ w₄ _
  apply (Succeeds.keeps (serves.print _)).bind
  intro _ w₅ _
  apply (Succeeds.keeps (serves.print _)).bind
  intro _ w₆ _
  simp only [verdict]
  apply Succeeds.ite_bind (Succeeds.keeps (serves.tell _ _))
  intro w₇
  cases format with
  | none => exact .pure ⟨rfl, by simp⟩
  | some f =>
      apply (storeGrammar_succeeds serves (accepts f rfl) storable derives).bind
      rintro _ w₈ ⟨rfl, stores⟩
      exact .pure ⟨rfl, by simpa using stores⟩

/-- The job answers that everything derives the text, and leaves it in the file it was asked for. -/
theorem run_succeeds (serves : host.Serves held) {s : Strategy} {format : Option Format}
    {bytes : List UInt8} (threads : s = .chunked → host.Threads held (max 1 o.parts))
    (strategy : o.strategy = s.name) (named : o.format = format.map Format.name)
    (accepts : ∀ f ∈ format, host.Accepts held (o.outputName f))
    (holds : held w o.input = .ok bytes) (few : bytes.length < idSpace - 255) :
    Succeeds (run host o) w fun answer w' => answer = true ∧ ∀ f ∈ format,
      Stores (held w') f (o.outputName f) (Text.ofContents o.limit o.dropZeroes bytes) := by
  unfold run
  apply ((prepare_succeeds serves strategy named holds).adapt JobFailure.failed).bind
  rintro _ w₁ ⟨rfl, -⟩
  apply (startStrategy_succeeds threads).bind
  intro _ w₂ _
  exact (carryOut_succeeds serves accepts few).adapt JobFailure.failed

/-- A strategy whose threads are refused is not started. -/
theorem startStrategy_of_refused {reason : String} {w' : W}
    (refused : (host.startThreads (max 1 o.parts)).run w = (.error reason, w')) :
    (startStrategy host o .chunked).run.run w = (.error (.noThreads reason), w') := by
  have asked : (liftM (host.startThreads (max 1 o.parts)) :
      ExceptT JobFailure (StateM W) _).run.run w = (.ok (.error reason), w') := by
    show (Except.ok ((host.startThreads (max 1 o.parts)).run w).1,
      ((host.startThreads (max 1 o.parts)).run w).2) = _
    rw [refused]
  exact run_bind_of_ok asked

/-- Without its threads the job ends once the input was read. -/
theorem run_of_refused (serves : host.Serves held) {format : Option Format} {bytes : List UInt8}
    {reason : String}
    (refused : ∀ w, ((host.startThreads (max 1 o.parts)).run w).1 = .error reason)
    (strategy : o.strategy = Strategy.chunked.name) (named : o.format = format.map Format.name)
    (holds : held w o.input = .ok bytes) :
    ∃ w', held w' = held w ∧ (run host o).run.run w =
      (.error (.noThreads reason), ((host.startThreads (max 1 o.parts)).run w').2) := by
  obtain ⟨task, w', ended, rfl, same⟩ :=
    (prepare_succeeds serves strategy named holds).adapt JobFailure.failed
  have started : (startStrategy host o .chunked).run.run w' =
      (.error (.noThreads reason), ((host.startThreads (max 1 o.parts)).run w').2) :=
    startStrategy_of_refused (Prod.ext (refused w') rfl)
  exact ⟨w', same, (run_bind_of_ok ended).trans (run_bind_of_error started)⟩

/-- A command whose job answers `true` ends well, in the world that the job leaves. -/
theorem exitCode_command_of_true {words : List String} {w' : W}
    (parsed : Options.ofWords words = .ok o) (ran : (run host o).run.run w = (.ok true, w')) :
    (Ending.exitCode <$> command host words).run w = (0, w') := by
  have ends : (command host words).run w = (.success, w') := by
    simp only [command, parsed, StateT.run_bind, ran]
    rfl
  simp only [StateT.run_map, ends]
  rfl

/-- A command whose job fails ends with the exit code for that. -/
theorem exitCode_command_of_error {words : List String} {e : JobFailure} {w' : W}
    (parsed : Options.ofWords words = .ok o) (ran : (run host o).run.run w = (.error e, w')) :
    ((Ending.exitCode <$> command host words).run w).1 = 1 := by
  have ends : (command host words).run w = (fail host e.message).run w' := by
    simp only [command, parsed, StateT.run_bind, ran]
    rfl
  simp only [StateT.run_map, ends]
  rfl

section Unknown

variable {m : Type → Type} [Monad m] [LawfulMonad m] (host : Host m) {name : String} {e : Failure}

/-- What fails before the threads are started is the failure of the job. -/
theorem run_of_throw (fails : prepare host o = throw e) : run host o = throw (.failed e) := by
  have renamed : ExceptT.adapt JobFailure.failed (throw e : ExceptT Failure m Task) =
      throw (.failed e) := by
    show ExceptT.mk (Except.mapError JobFailure.failed <$>
      (Pure.pure (.error e) : m (Except Failure Task))) = _
    rw [map_pure]
    rfl
  rw [run, fails, renamed]
  simp

theorem run_of_unknownStrategy (unknown : ∀ s : Strategy, s.name ≠ o.strategy) :
    run host o = throw (.failed (.unknownStrategy o.strategy)) := by
  apply run_of_throw
  simp [prepare, Strategy.ofName_of_unknown unknown, MonadExcept.ofExcept]

theorem run_of_unknownFormat {s : Strategy} (strategy : s.name = o.strategy)
    (given : o.format = some name) (unknown : ∀ f : Format, f.name ≠ name) :
    run host o = throw (.failed (.unknownFormat name)) := by
  apply run_of_throw
  simp [prepare, ← strategy, s.ofName_name, given, Format.ofName_of_unknown unknown,
    MonadExcept.ofExcept]

/-- A failure is reported and printed, and that is all. -/
theorem exitCode_command_of_throw {words : List String} (parsed : Options.ofWords words = .ok o)
    {e : JobFailure} (fails : run host o = throw e) :
    Ending.exitCode <$> command host words = do
      host.report .error e.message
      host.printError ("error: " ++ e.message)
      return 1 := by
  have ends : command host words = fail host e.message := by simp [command, parsed, fails]
  simp only [ends, fail, map_bind, map_pure]
  rfl

end Unknown

/-- A job on few enough bytes with names that are known answers `true`, verified or not, and its
command ends with the exit code 0, on every host that serves it, accepts the output and, for the
chunked strategy, has the threads. The file that it was asked for then holds, in its format, a sound
grammar of the text: of the bytes up to the limit, without the zeroes if they are to be dropped.

If a host refuses the threads that the chunked strategy needs, the job fails with that reason after
it has read its input, and its exit code is 1.

A job with an unknown name fails on any host before it has done anything there. All that its command
does is to report and to print the reason, and its exit code is 1. -/
theorem command_end_to_end :
    (∀ {W : Type} (host : Host (StateM W)) (held : W → Contents) (o : Options) (s : Strategy)
        (format : Option Format) (bytes : List UInt8) (w : W),
      host.Serves held → (s = .chunked → host.Threads held (max 1 o.parts)) →
      (∀ f ∈ format, host.Accepts held (o.outputName f)) →
      o.strategy = s.name → o.format = format.map Format.name →
      held w o.input = .ok bytes → bytes.length < idSpace - 255 →
      ∃ w', (run host o).run.run w = (.ok true, w') ∧
        (∀ words, Options.ofWords words = .ok o →
          (Ending.exitCode <$> command host words).run w = (0, w')) ∧
        ∀ f ∈ format, Stores (held w') f (o.outputName f)
          (((if o.limit = 0 then bytes else bytes.take o.limit).filter fun b =>
            !o.dropZeroes || b != 0).map UInt8.toUInt32)) ∧
    (∀ {W : Type} (host : Host (StateM W)) (held : W → Contents) (o : Options)
        (format : Option Format) (bytes : List UInt8) (w : W) (reason : String),
      host.Serves held →
      (∀ w, ((host.startThreads (max 1 o.parts)).run w).1 = .error reason) →
      o.strategy = Strategy.chunked.name → o.format = format.map Format.name →
      held w o.input = .ok bytes →
      (∃ w', held w' = held w ∧ (run host o).run.run w =
        (.error (.noThreads reason), ((host.startThreads (max 1 o.parts)).run w').2)) ∧
      ∀ words, Options.ofWords words = .ok o →
        ((Ending.exitCode <$> command host words).run w).1 = 1) ∧
    ∀ {m : Type → Type} [Monad m] [LawfulMonad m] (host : Host m) (o : Options),
      (∀ s : Strategy, s.name ≠ o.strategy) ∨
        (∃ name, o.format = some name ∧ ∀ f : Format, f.name ≠ name) →
      ∃ e, (e = .unknownStrategy o.strategy ∨ ∃ name, o.format = some name ∧
          e = .unknownFormat name) ∧
        run host o = throw (.failed e) ∧
        ∀ words, Options.ofWords words = .ok o →
          Ending.exitCode <$> command host words = do
            host.report .error e.message
            host.printError ("error: " ++ e.message)
            return 1 := by
  refine ⟨?_, ?_, ?_⟩
  · intro W host held o s format bytes w serves threads accepts strategy named holds few
    obtain ⟨answer, w', ran, rfl, stores⟩ :=
      run_succeeds serves threads strategy named accepts holds few
    exact ⟨w', ran, fun _ parsed => exitCode_command_of_true parsed ran,
      Text.ofContents_eq o.limit o.dropZeroes bytes ▸ stores⟩
  · intro W host held o format bytes w reason serves refused strategy named holds
    obtain ⟨w', same, ran⟩ := run_of_refused serves refused strategy named holds
    exact ⟨⟨w', same, ran⟩, fun _ parsed => exitCode_command_of_error parsed ran⟩
  · intro m _ _ host o unknown
    by_cases strategy : ∀ s : Strategy, s.name ≠ o.strategy
    · have fails := run_of_unknownStrategy host strategy
      exact ⟨_, .inl rfl, fails, fun _ parsed =>
        exitCode_command_of_throw host parsed fails⟩
    · obtain ⟨s, known⟩ := not_forall_not.mp strategy
      obtain ⟨name, given, nobody⟩ := unknown.resolve_left strategy
      have fails := run_of_unknownFormat host known given nobody
      exact ⟨_, .inr ⟨name, given, rfl⟩, fails,
        fun _ parsed => exitCode_command_of_throw host parsed fails⟩

/-- The zero is dropped and the two is behind the limit. -/
theorem command_end_to_end_sevens :
    let held : Contents := fun name =>
      if name = "in" then .ok [7, 7, 0, 7, 2] else .error .notFound
    (∃ held', (Ending.exitCode <$> command Host.table ["--algorithm=parallel", "--cores=3",
        "--prefix=4", "--remove-zeroes", "--coder=sorted", "--verify", "in"]).run held =
          (0, held') ∧
      Stores held' .sorted "in.srlslp" [7, 7, 7]) ∧
    (Ending.exitCode <$> command Host.table ["--algorithm=huffman", "in"]).run held =
      (1, held) := by
  intro held
  let o : Options :=
    { input := "in", strategy := "parallel", parts := 3, limit := 4, format := some "sorted",
      dropZeroes := true, verify := true }
  let o' : Options := { input := "in", strategy := "huffman" }
  constructor
  · obtain ⟨held', _, ends, stores⟩ :=
      command_end_to_end.1 Host.table id o .chunked (some .sorted) [7, 7, 0, 7, 2] held
        Host.table_serves (fun _ => Host.table_threads 3)
        (fun f _ => Host.table_accepts (o.outputName f)) rfl rfl rfl (by decide)
    exact ⟨held', ends _ rfl, stores .sorted rfl⟩
  · have unknown : ∀ s : Strategy, s.name ≠ o'.strategy := by
      intro s
      cases s <;> decide
    obtain ⟨e, _, _, ends⟩ := command_end_to_end.2.2 Host.table o' (.inl unknown)
    rw [ends _ rfl]
    rfl

end CommandLine

end RunGrammar
