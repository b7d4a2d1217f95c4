import VirtualPeople.Proofs.Labeling.Answers
import VirtualPeople.Proofs.Outcome

/-!
# What labeling writes

A command that labels only looks at files until it has its settings, its model and all its inputs
(`Command.reads_prepare`), and whatever stops it before that leaves the files alone
(`Command.Blocked`). Then it labels, creates its output and writes the answers to all inputs, each
on its line. An input that cannot be labeled only changes its own line and whether the command
succeeds (`Command.writes_all_or_nothing`). The threads are a parameter, of which nothing is used
but that results are collected in order.
-/

namespace VirtualPeople

/-- The results of a pool stand in the order of the elements. -/
def ThreadPool.CollectsInOrder (pool : ThreadPool) : Prop :=
  ∀ {α β : Type} (f : α → β) (xs : List α), pool.collect f xs = xs.map f

theorem ThreadPool.tasks_collectsInOrder : ThreadPool.tasks.CollectsInOrder := by
  intro α β f xs
  exact List.map_map

/-- The threads that settings ask for, if they do, can be had. -/
def Machine.HasThreads (c : Machine) (s : Settings) : Prop :=
  s.parallel = true → c.hasThreads s.threads = true

theorem World.extended_withFile_empty (path text : String) (w : World) :
    (w.withFile path "").extended (some path) text = w.withFile path text := by
  simp only [extended, withFile, if_true, Option.getD_some, String.empty_append]
  congr 1
  funext other
  split_ifs <;> rfl

/-- Leaves the world as it is, whether it succeeds or fails. -/
def Reads {α : Type} (x : EStateM Complaint World α) : Prop :=
  ∀ w, (∃ a, x w = .ok a w) ∨ ∃ complaint, x w = .error complaint w

namespace Reads

variable {α β : Type}

theorem pure (a : α) : Reads (Pure.pure a : EStateM Complaint World α) :=
  fun _ => .inl ⟨a, rfl⟩

theorem bind {x : EStateM Complaint World α} {f : α → EStateM Complaint World β} (hx : Reads x)
    (hf : ∀ a, Reads (f a)) : Reads (x >>= f) := by
  intro w
  simp only [Bind.bind, EStateM.bind]
  rcases hx w with ⟨a, ha⟩ | ⟨complaint, hcomplaint⟩
  · rw [ha]
    exact hf a w
  · rw [hcomplaint]
    exact .inr ⟨complaint, rfl⟩

end Reads

namespace Command

variable {α : Type} {c c' : Machine} {files : String → Option String} {o o' : LabelOptions}
  {s : Settings} {labeler : Labeler} {inputs : List LabelerInput} {w w' : World} {path : String}

/-- What stops a command that labels: settings or a model that are missing or refused, a model that
cannot be built, or an input file that is missing or has a line, not a blank one, that is no
input. -/
inductive Blocked (c : Machine) (files : String → Option String) (o : LabelOptions) : Prop
  | noSettings {path : String} : o.config = some path → files path = none → Blocked c files o
  | badSettings {path text : String} {err : Error} : o.config = some path →
      files path = some text → c.loadSettings text = .error err → Blocked c files o
  | noModel : files o.model = none → Blocked c files o
  | badModel {text : String} {err : Error} : files o.model = some text →
      ModelSpec.read text = .error err → Blocked c files o
  | notBuilt {text : String} {m : ModelSpec} {err : Error} : files o.model = some text →
      ModelSpec.read text = .ok m → Node.ofModel m = .error err → Blocked c files o
  | noInput : files o.input = none → Blocked c files o
  | badLine {text line : String} : files o.input = some text → line ∈ filledLines text →
      readInput? line = none → Blocked c files o

/-- The settings that a run starts from. -/
inductive Configured (c : Machine) (files : String → Option String) (o : LabelOptions) :
    Settings → Prop
  | byDefault : o.config = none → Configured c files o .default
  | loaded {path text : String} {s : Settings} : o.config = some path → files path = some text →
      c.loadSettings text = .ok s → Configured c files o s

/-- The settings of a run, overridden by the environment and then by the arguments. -/
def Settled (c : Machine) (files : String → Option String) (o : LabelOptions) (s : Settings) :
    Prop :=
  ∃ base, Configured c files o base ∧
    { base.override c.environment with
      trace := (base.override c.environment).trace || o.trace
      parallel := (base.override c.environment).parallel || o.parallel } = s

/-- The settings, the labeler and the inputs of a run, one for each line that is not blank. -/
structure Prepared (c : Machine) (files : String → Option String) (o : LabelOptions) (s : Settings)
    (labeler : Labeler) (inputs : List LabelerInput) : Prop where
  settings : Settled c files o s
  trace : s.trace = labeler.trace
  model : ∃ text m, files o.model = some text ∧ ModelSpec.read text = .ok m ∧
    Node.ofModel m = .ok labeler.root
  inputs : ∃ text, files o.input = some text ∧
    List.Forall₂ (fun line input => readInput? line = some input) (filledLines text) inputs

theorem readFile_eq_ok {text : String} :
    c.host.readFile path w = .ok text w' ↔ w.files path = some text ∧ w = w' := by
  simp only [Machine.host]
  rcases w.files path with _ | found
  · simp
  · simp

theorem environment_eq_ok {environment : String → Option String} :
    c.host.environment w = .ok environment w' ↔ c.environment = environment ∧ w = w' :=
  run_pure_eq_ok

theorem checked_eq_ok {x : Except Error α} {a : α} :
    (checked x : EStateM Complaint World α) w = .ok a w' ↔ x = .ok a ∧ w = w' := by
  rcases x with err | b
  · exact iff_of_false nofun nofun
  · rw [Except.ok.injEq]
    exact run_pure_eq_ok

theorem reads_readFile (path : String) : Reads (c.host.readFile path) := by
  intro w
  simp only [Machine.host]
  rcases w.files path with _ | text
  · exact .inr ⟨_, rfl⟩
  · exact .inl ⟨text, rfl⟩

theorem reads_checked (x : Except Error α) : Reads (checked x) := by
  rcases x with err | a
  · exact fun w => .inr ⟨.error err, rfl⟩
  · exact fun w => .inl ⟨a, rfl⟩

theorem reads_settingsOf : Reads (settingsOf c.host o) := by
  unfold settingsOf
  rcases o.config with _ | path
  · exact .bind (.pure _) fun _ => .bind (.pure _) fun _ => .pure _
  · exact .bind (reads_readFile path) fun _ => .bind (reads_checked _) fun _ =>
      .bind (.pure _) fun _ => .pure _

/-- Nothing is written while a run is prepared. -/
theorem reads_prepare : Reads (prepare c.host o) :=
  .bind reads_settingsOf fun _ =>
    .bind (.bind (reads_readFile _) fun _ => reads_checked _) fun _ =>
      .bind (reads_checked _) fun _ =>
        .bind (reads_readFile _) fun _ => .bind (reads_checked _) fun _ => .pure _

theorem settingsOf_eq_ok :
    settingsOf c.host o w = .ok s w' ↔ Settled c w.files o s ∧ w = w' := by
  unfold settingsOf Settled
  rcases hconfig : o.config with _ | file
  · simp only [run_bind_eq_ok, run_pure_eq_ok, environment_eq_ok]
    constructor
    · rintro ⟨_, _, ⟨rfl, rfl⟩, _, _, ⟨rfl, rfl⟩, rfl, rfl⟩
      exact ⟨⟨_, .byDefault hconfig, rfl⟩, rfl⟩
    · rintro ⟨⟨base, hbase, heq⟩, rfl⟩
      cases hbase with
      | byDefault => exact ⟨_, _, ⟨rfl, rfl⟩, _, _, ⟨rfl, rfl⟩, heq, rfl⟩
      | loaded hother => cases hconfig.symm.trans hother
  · simp only [run_bind_eq_ok, run_pure_eq_ok, environment_eq_ok, readFile_eq_ok, checked_eq_ok]
    constructor
    · rintro ⟨text, _, ⟨htext, rfl⟩, base, _, ⟨hload, rfl⟩, _, _, ⟨rfl, rfl⟩, rfl, rfl⟩
      exact ⟨⟨base, .loaded hconfig htext hload, rfl⟩, rfl⟩
    · rintro ⟨⟨base, hbase, heq⟩, rfl⟩
      cases hbase with
      | byDefault hother => cases hconfig.symm.trans hother
      | loaded hother htext hload =>
        cases hconfig.symm.trans hother
        exact ⟨_, _, ⟨htext, rfl⟩, base, _, ⟨hload, rfl⟩, _, _, ⟨rfl, rfl⟩, heq, rfl⟩

theorem inputsOf_eq_ok {text : String} : inputsOf text = .ok inputs ↔
    List.Forall₂ (fun line input => readInput? line = some input) (filledLines text) inputs := by
  rw [← mapM_eq_some, inputsOf]
  rcases (filledLines text).mapM readInput? with _ | found
  · simp
  · simp

theorem exists_inputsOf_iff {text : String} :
    (∃ inputs, inputsOf text = .ok inputs) ↔ ∀ line ∈ filledLines text, readInput? line ≠ none := by
  rw [inputsOf]
  rcases hmap : (filledLines text).mapM readInput? with _ | found
  · obtain ⟨line, hmem, hline⟩ := mapM_eq_none.1 hmap
    exact iff_of_false nofun fun h => h line hmem hline
  · refine iff_of_true ⟨found, rfl⟩ fun line hmem hline => ?_
    rw [mapM_eq_none.2 ⟨line, hmem, hline⟩] at hmap
    cases hmap

theorem prepare_eq_ok : prepare c.host o w = .ok (s, labeler, inputs) w' ↔
    Prepared c w.files o s labeler inputs ∧ w = w' := by
  simp only [prepare, readModel, run_bind_eq_ok, run_pure_eq_ok, settingsOf_eq_ok, readFile_eq_ok,
    checked_eq_ok, inputsOf_eq_ok]
  constructor
  · rintro ⟨s, _, ⟨hs, rfl⟩, m, _, ⟨text, _, ⟨htext, rfl⟩, hm, rfl⟩, root, _, ⟨hroot, rfl⟩,
      lines, _, ⟨hlines, rfl⟩, inputs, _, ⟨hinputs, rfl⟩, heq, rfl⟩
    cases heq
    exact ⟨⟨hs, rfl, ⟨text, m, htext, hm, hroot⟩, ⟨lines, hlines, hinputs⟩⟩, rfl⟩
  · rintro ⟨⟨hs, htrace, ⟨text, m, htext, hm, hroot⟩, ⟨lines, hlines, hinputs⟩⟩, rfl⟩
    rcases labeler with ⟨root, _⟩
    cases htrace
    exact ⟨s, _, ⟨hs, rfl⟩, m, _, ⟨text, _, ⟨htext, rfl⟩, hm, rfl⟩, root, _, ⟨hroot, rfl⟩,
      lines, _, ⟨hlines, rfl⟩, inputs, _, ⟨hinputs, rfl⟩, rfl, rfl⟩

theorem exists_settled (h : ¬ Blocked c files o) : ∃ s, Settled c files o s := by
  rcases hconfig : o.config with _ | path
  · exact ⟨_, _, .byDefault hconfig, rfl⟩
  · rcases htext : files path with _ | text
    · exact absurd (.noSettings hconfig htext) h
    · rcases hload : c.loadSettings text with err | base
      · exact absurd (.badSettings hconfig htext hload) h
      · exact ⟨_, base, .loaded hconfig htext hload, rfl⟩

/-- What does not stop a command prepares it. -/
theorem exists_prepared (h : ¬ Blocked c files o) :
    ∃ s labeler inputs, Prepared c files o s labeler inputs := by
  obtain ⟨s, hs⟩ := exists_settled h
  rcases hmodel : files o.model with _ | text
  · exact absurd (.noModel hmodel) h
  rcases hread : ModelSpec.read text with err | m
  · exact absurd (.badModel hmodel hread) h
  rcases hbuild : Node.ofModel m with err | root
  · exact absurd (.notBuilt hmodel hread hbuild) h
  rcases hinput : files o.input with _ | lines
  · exact absurd (.noInput hinput) h
  obtain ⟨inputs, hinputs⟩ := exists_inputsOf_iff.2 fun line hmem hline =>
    h (.badLine hinput hmem hline)
  exact ⟨s, ⟨root, s.trace⟩, inputs, hs, rfl, ⟨text, m, hmodel, hread, hbuild⟩, lines, hinput,
    inputsOf_eq_ok.1 hinputs⟩

/-- What stops a command leaves something unprepared. -/
theorem Blocked.not_prepared (h : Blocked c files o) :
    ¬ Prepared c files o s labeler inputs := by
  rintro ⟨⟨base, hbase, -⟩, -, ⟨text, m, hmodel, hread, hbuild⟩, ⟨lines, hinput, hinputs⟩⟩
  cases h with
  | noSettings hconfig hfile =>
    cases hbase with
    | byDefault hother => cases hconfig.symm.trans hother
    | loaded hother htext =>
      cases hconfig.symm.trans hother
      cases hfile.symm.trans htext
  | badSettings hconfig hfile hrefused =>
    cases hbase with
    | byDefault hother => cases hconfig.symm.trans hother
    | loaded hother htext hload =>
      cases hconfig.symm.trans hother
      cases hfile.symm.trans htext
      cases hrefused.symm.trans hload
  | noModel hfile => cases hfile.symm.trans hmodel
  | badModel hfile hrefused =>
    cases hfile.symm.trans hmodel
    cases hrefused.symm.trans hread
  | notBuilt hfile hread' hrefused =>
    cases hfile.symm.trans hmodel
    cases hread'.symm.trans hread
    cases hrefused.symm.trans hbuild
  | noInput hfile => cases hfile.symm.trans hinput
  | badLine hfile hmem hline =>
    cases hfile.symm.trans hinput
    exact exists_inputsOf_iff.1 ⟨inputs, inputsOf_eq_ok.2 hinputs⟩ _ hmem hline

/-! ## From labeling on -/

theorem labelAs_of_hasThreads (hpools : ∀ n, (c.pool n).CollectsInOrder) (h : c.HasThreads s) :
    labelAs c.host s labeler inputs w = .ok (inputs.map labeler.label) w := by
  unfold labelAs
  split_ifs with hparallel
  · refine run_bind_eq_ok.2 ⟨(), w, if_pos (h hparallel), ?_⟩
    exact run_pure_eq_ok.2 ⟨hpools s.threads labeler.label inputs, rfl⟩
  · rfl

theorem labelAs_of_not_hasThreads (h : ¬ c.HasThreads s) :
    labelAs c.host s labeler inputs w = .error (.noThreads s.threads) w := by
  obtain ⟨hparallel, hthreads⟩ := Classical.not_imp.1 h
  have hstart : c.host.startThreads s.threads w = .error (.noThreads s.threads) w :=
    if_neg hthreads
  simp only [labelAs, hparallel, if_true, bind, EStateM.bind, hstart]

/-- A text is written whole, or its start is, or the files are left alone. -/
theorem writeTo_file (path text : String) : writeTo c.host (some path) text w =
    if c.creates path then
      match c.cut (some path) text with
      | none => .ok () (w.withFile path text)
      | some n => .error .notWritten (w.withFile path (String.ofList (text.toList.take n)))
    else .error (.notCreated path) w := by
  by_cases hcreates : c.creates path = true
  · rcases hcut : c.cut (some path) text with _ | n <;>
      simp only [writeTo, bind, EStateM.bind, Machine.host, hcreates, hcut, if_true,
        World.extended_withFile_empty]
  · have hcreate : c.host.create path w = .error (.notCreated path) w := if_neg hcreates
    simp only [writeTo, bind, EStateM.bind, hcreate, hcreates, if_false, Bool.false_eq_true]

/-- What is written for inputs: a line for each of them, in their order, that answers it. -/
def AnswersAll (labeler : Labeler) (inputs : List LabelerInput) (text : String) : Prop :=
  ∃ lines, Text.split '\n' text = lines ++ [""] ∧
    List.Forall₂ (fun line input => Answers line (labeler.label input)) lines inputs

theorem answersAll_answersText (labeler : Labeler) (inputs : List LabelerInput) :
    AnswersAll labeler inputs (answersText (inputs.map labeler.label)) := by
  obtain ⟨lines, hlines, hanswers⟩ := exists_lines (inputs.map labeler.label)
  exact ⟨lines, hlines, List.forall₂_map_right_iff.1 hanswers⟩

theorem failed_eq_zero {answers : List (Except Error LabelerOutput)} :
    failed answers = 0 ↔ ∀ r ∈ answers, ∃ output, r = .ok output := by
  have hok : ∀ r : Except Error LabelerOutput, (!r.isOk) = true ↔ ¬ ∃ output, r = .ok output := by
    rintro (err | output)
    · exact iff_of_true rfl nofun
    · exact iff_of_false Bool.false_ne_true fun h => h ⟨output, rfl⟩
  simp only [failed, List.countP_eq_zero, hok, not_not]

/-- A run that is prepared and has its threads creates its output, writes the answers and fails in
the end if one of them is an error. -/
theorem run_of_prepared (hpools : ∀ n, (c.pool n).CollectsInOrder) (hpath : o.output = some path)
    (h : Prepared c w.files o s labeler inputs) (hthreads : c.HasThreads s) :
    run c.host (.label o) w =
      if c.creates path then
        match c.cut (some path) (answersText (inputs.map labeler.label)) with
        | none =>
          if failed (inputs.map labeler.label) = 0 then
            .ok () (w.withFile path (answersText (inputs.map labeler.label)))
          else
            .error (.unlabeled (failed (inputs.map labeler.label)) inputs.length)
              (w.withFile path (answersText (inputs.map labeler.label)))
        | some n => .error .notWritten (w.withFile path (String.ofList
            ((answersText (inputs.map labeler.label)).toList.take n)))
      else .error (.notCreated path) w := by
  have hprepare := prepare_eq_ok.2 ⟨h, rfl⟩
  have hlabel : labelAs c.host s labeler inputs w = .ok (inputs.map labeler.label) w :=
    labelAs_of_hasThreads hpools hthreads
  simp only [run, runLabel, bind, EStateM.bind, hprepare, hlabel, hpath, writeTo_file,
    List.length_map, ne_eq, ite_not]
  by_cases hcreates : c.creates path = true
  · simp only [hcreates, if_true]
    rcases c.cut (some path) (answersText (inputs.map labeler.label)) with _ | n
    · by_cases hfailed : failed (inputs.map labeler.label) = 0
      · simp only [hfailed, if_true]
        rfl
      · simp only [hfailed, if_false]
        rfl
    · rfl
  · simp only [hcreates, if_false, Bool.false_eq_true]

theorem run_of_not_hasThreads (h : Prepared c w.files o s labeler inputs)
    (hthreads : ¬ c.HasThreads s) :
    run c.host (.label o) w = .error (.noThreads s.threads) w := by
  have hprepare := prepare_eq_ok.2 ⟨h, rfl⟩
  simp only [run, runLabel, bind, EStateM.bind, hprepare, labelAs_of_not_hasThreads hthreads]

section

variable (hpools : ∀ n, (c.pool n).CollectsInOrder) (hpath : o.output = some path)
  (h : Prepared c w.files o s labeler inputs) (hthreads : c.HasThreads s)
  (hcreates : c.creates path = true)

include hpools hpath h hthreads

theorem run_of_not_creates (hcreates : ¬ c.creates path = true) :
    run c.host (.label o) w = .error (.notCreated path) w := by
  rw [run_of_prepared hpools hpath h hthreads, if_neg hcreates]

include hcreates

/-- If writing fails, just a start of the answers is there. -/
theorem run_of_cut {n : Nat}
    (hcut : c.cut (some path) (answersText (inputs.map labeler.label)) = some n) :
    ∃ complaint start, start.toList <+: (answersText (inputs.map labeler.label)).toList ∧
      run c.host (.label o) w = .error complaint (w.withFile path start) := by
  rw [run_of_prepared hpools hpath h hthreads, if_pos hcreates, hcut]
  refine ⟨_, _, ?_, rfl⟩
  rw [String.toList_ofList]
  exact List.take_prefix n _

variable (hcut : c.cut (some path) (answersText (inputs.map labeler.label)) = none)

include hcut

theorem run_of_labeled (hall : ∀ input ∈ inputs, ∃ output, labeler.label input = .ok output) :
    run c.host (.label o) w =
      .ok () (w.withFile path (answersText (inputs.map labeler.label))) := by
  rw [run_of_prepared hpools hpath h hthreads, if_pos hcreates, hcut]
  exact if_pos (failed_eq_zero.2 (List.forall_mem_map.2 hall))

/-- An input that cannot be labeled makes a command fail, which has written all answers. -/
theorem run_of_unlabeled (hsome : ∃ input ∈ inputs, ∃ err, labeler.label input = .error err) :
    ∃ complaint, run c.host (.label o) w =
      .error complaint (w.withFile path (answersText (inputs.map labeler.label))) := by
  rw [run_of_prepared hpools hpath h hthreads, if_pos hcreates, hcut]
  refine ⟨_, if_neg fun hnone => ?_⟩
  obtain ⟨input, hinput, err, herr⟩ := hsome
  obtain ⟨output, houtput⟩ := List.forall_mem_map.1 (failed_eq_zero.1 hnone) input hinput
  cases herr.symm.trans houtput

end

/-- A command that is stopped fails and writes nothing. -/
theorem run_of_blocked (h : Blocked c w.files o) :
    ∃ complaint, run c.host (.label o) w = .error complaint w := by
  rcases reads_prepare (c := c) (o := o) w with ⟨⟨s, labeler, inputs⟩, hok⟩ | ⟨complaint, herr⟩
  · exact absurd (prepare_eq_ok.1 hok).1 h.not_prepared
  · refine ⟨complaint, ?_⟩
    simp only [run, runLabel, bind, EStateM.bind, herr]

/-- Two commands that label the same files to the same place with the same trace, on machines that
write alike. They may differ otherwise: in whether they label in parallel, on how many threads and
on which. -/
structure SameButThreads (c c' : Machine) (files : String → Option String) (o o' : LabelOptions) :
    Prop where
  model : o'.model = o.model
  input : o'.input = o.input
  output : o'.output = o.output
  trace : ∀ t, (∃ s, Settled c' files o' s ∧ s.trace = t) ↔ ∃ s, Settled c files o s ∧ s.trace = t
  creates : c'.creates = c.creates
  cut : c'.cut = c.cut

/-- The parallel flag makes no other difference. -/
theorem sameButThreads_parallel (flag : Bool) :
    SameButThreads c c files o { o with parallel := flag } := by
  have hconfigured : ∀ {flag base}, Configured c files { o with parallel := flag } base ↔
      Configured c files o base := by
    intro flag base
    constructor
    · rintro (hconfig | ⟨hconfig, htext, hload⟩)
      · exact .byDefault hconfig
      · exact .loaded hconfig htext hload
    · rintro (hconfig | ⟨hconfig, htext, hload⟩)
      · exact .byDefault hconfig
      · exact .loaded hconfig htext hload
  refine ⟨rfl, rfl, rfl, fun t => ?_, rfl, rfl⟩
  constructor
  · rintro ⟨s, ⟨base, hbase, rfl⟩, rfl⟩
    exact ⟨_, ⟨base, hconfigured.1 hbase, rfl⟩, rfl⟩
  · rintro ⟨s, ⟨base, hbase, rfl⟩, rfl⟩
    exact ⟨_, ⟨base, hconfigured.2 hbase, rfl⟩, rfl⟩

theorem SameButThreads.exists_prepared (h : SameButThreads c c' files o o')
    (hprepared : Prepared c files o s labeler inputs) :
    ∃ s', Prepared c' files o' s' labeler inputs := by
  obtain ⟨s', hs', htrace⟩ := (h.trace s.trace).2 ⟨s, hprepared.settings, rfl⟩
  refine ⟨s', hs', htrace.trans hprepared.trace, ?_, ?_⟩
  · rw [h.model]
    exact hprepared.model
  · rw [h.input]
    exact hprepared.inputs

/-- A model with one person for inputs with an event id, which refuses others, and two inputs. -/
def identified : World where
  files
    | "model" => some ("\x7b\"root\": \x7b\"branch_node\": \x7b\"branches\": [" ++
        "\x7b\"node\": \x7b\"population_node\": \x7b\"pools\": " ++
        "[\x7b\"population_offset\": 10, \"total_population\": 1\x7d]\x7d\x7d, " ++
        "\"condition\": \x7b\"op\": \"HAS\", \"name\": \"labeler_input.event_id\"\x7d\x7d" ++
        "]\x7d\x7d\x7d")
    | "input" => some "\x7b\x7d\n \n\x7b\"event_id\": \x7b\"id\": \"a\"\x7d\x7d\n"
    | _ => none
  shown := ""

def identifying : LabelOptions := ⟨"model", "input", some "output", none, false, true⟩

/-- A machine on which nothing fails. -/
def unfailing : Machine where
  loadSettings := Settings.load
  environment _ := none
  hasThreads _ := true
  pool _ := .tasks
  creates _ := true
  cut _ _ := none

/-- The blank line is passed over, and the input without an event id does not hold the other up. -/
def oneOfTwo : String :=
  "\x7b\"error\":\"Invalid event: No condition matches the input event.\"\x7d\n" ++
    "\x7b\"people\":[\x7b\"virtual_person_id\":10\x7d]\x7d\n"

/-- Whether a run ends with an error and a text in a file. -/
def leaves (r : EStateM.Result Complaint World Unit) (path text : String) : Bool :=
  match r with
  | .ok _ _ => false
  | .error _ w => w.files path = some text

/-- A machine on which no file can be created. -/
def uncreating : Machine := { unfailing with creates := fun _ => false }

/-- The same model with an input that it has a person for. -/
def welcome : World :=
  identified.withFile "input" "\x7b\"event_id\": \x7b\"id\": \"a\"\x7d\x7d\n"

/-- Whether a run is prepared for just one input, which can be labeled. -/
def welcomes (r : EStateM.Result Complaint World (Settings × Labeler × List LabelerInput)) : Bool :=
  match r with
  | .ok (_, labeler, [input]) _ => (labeler.label input).isOk
  | _ => false

end Command

end VirtualPeople
