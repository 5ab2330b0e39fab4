import Brainfuck.Proofs.Agreement

/-!
# The text in the arguments

The arguments of `run` are read from the front, and each of them is an option, the value of one, or
the beginning of the text, behind which nothing is an option any more (`RunRequest.reads`). So what
follows the first part of the text is appended to it, whatever it looks like, and changes nothing
else; and of parts behind `--` only their concatenation counts
(`Surroundings.code_is_taken_literally`).
-/

namespace Brainfuck.CommandLine

namespace RunRequest

variable {a a' : RunRequest} {pending : Option OptionName} {xs : List String}

/-! ## One argument -/

theorem setValue_code {value : String} {option : OptionName}
    (h : a.setValue value option = some a') : a'.code = a.code := by
  cases option with
  | file =>
    simp only [setValue] at h
    split at h <;> cases h
    rfl
  | memory | timeout =>
    simp only [setValue] at h
    split at h
    · cases h
    · obtain ⟨n, -, rfl⟩ := Option.map_eq_some_iff.mp h
      rfl
  | help => cases h

theorem setHelp_code (h : a.setHelp = some a') : a'.code = a.code := by
  unfold setHelp at h
  split at h <;> cases h
  rfl

theorem setLetters_code {cluster : List Char} (h : a.setLetters cluster = some (a', pending)) :
    a'.code = a.code := by
  induction cluster generalizing a with
  | nil => cases h; rfl
  | cons c rest ih =>
    unfold setLetters at h
    split at h
    · cases h
    · obtain ⟨a₁, hhelp, hrest⟩ := Option.bind_eq_some_iff.mp h
      exact (ih hrest).trans (setHelp_code hhelp)
    · split at h
      · cases h; rfl
      · obtain ⟨a₁, hvalue, hsame⟩ := Option.map_eq_some_iff.mp h
        cases hsame
        exact setValue_code hvalue

/-- What the reader makes of one argument, whatever comes behind it. -/
inductive Takes (a : RunRequest) (pending : Option OptionName) (arg : String) : Prop where
  | refuses (h : ∀ ys, parseFrom a pending (arg :: ys) = .none)
  /-- It is an option or the value of one. -/
  | goesOn (a' : RunRequest) (pending' : Option OptionName) (code : a'.code = a.code)
      (h : ∀ ys, parseFrom a pending (arg :: ys) = parseFrom a' pending' ys)
  | escapes (dashes : arg = "--")
      (h : ∀ ys, parseFrom a pending (arg :: ys) = some { a with code := ys })
  | begins (h : ∀ ys, parseFrom a pending (arg :: ys) = some { a with code := arg :: ys })

theorem eq_of_escape {arg : String} (h : Shape.ofArgument arg = .escape) : arg = "--" := by
  unfold Shape.ofArgument at h
  split at h
  · next hdashes => exact String.toList_inj.mp hdashes
  · dsimp only at h
    split at h <;> simp at h
  · split at h <;> simp at h
  · cases h

theorem takes (a : RunRequest) (pending : Option OptionName) (arg : String) :
    Takes a pending arg := by
  cases hshape : Shape.ofArgument arg with
  | text =>
    cases pending with
    | none => exact .begins fun ys => by simp [parseFrom, hshape]
    | some option =>
      cases hvalue : a.setValue arg option with
      | none => exact .refuses fun ys => by simp [parseFrom, hshape, hvalue]
      | some a' =>
        exact .goesOn a' .none (setValue_code hvalue) fun ys => by simp [parseFrom, hshape, hvalue]
  | escape =>
    cases pending with
    | none => exact .escapes (eq_of_escape hshape) fun ys => by simp [parseFrom, hshape]
    | some option => exact .refuses fun ys => by simp [parseFrom, hshape]
  | long option value =>
    cases pending with
    | some waiting => exact .refuses fun ys => by simp [parseFrom, hshape]
    | none =>
      cases htakes : option.takesValue with
      | true =>
        cases value with
        | none => exact .goesOn a (some option) rfl fun ys => by simp [parseFrom, hshape, htakes]
        | some value =>
          cases hvalue : a.setValue value option with
          | none => exact .refuses fun ys => by simp [parseFrom, hshape, htakes, hvalue]
          | some a' =>
            exact .goesOn a' .none (setValue_code hvalue) fun ys => by
              simp [parseFrom, hshape, htakes, hvalue]
      | false =>
        cases value with
        | some value => exact .refuses fun ys => by simp [parseFrom, hshape, htakes]
        | none =>
          cases hhelp : a.setHelp with
          | none => exact .refuses fun ys => by simp [parseFrom, hshape, htakes, hhelp]
          | some a' =>
            exact .goesOn a' .none (setHelp_code hhelp) fun ys => by
              simp [parseFrom, hshape, htakes, hhelp]
  | letters cluster =>
    cases pending with
    | some waiting => exact .refuses fun ys => by simp [parseFrom, hshape]
    | none =>
      cases hletters : a.setLetters cluster with
      | none => exact .refuses fun ys => by simp [parseFrom, hshape, hletters]
      | some result =>
        obtain ⟨a', pending'⟩ := result
        exact .goesOn a' pending' (setLetters_code hletters) fun ys => by
          simp [parseFrom, hshape, hletters]

/-! ## The arguments of an invocation -/

/-- What the reader makes of arguments, whatever comes behind them. -/
inductive Reads (a : RunRequest) (pending : Option OptionName) (xs : List String) : Prop where
  | refuses (h : ∀ ys, parseFrom a pending (xs ++ ys) = .none)
  /-- They are options. -/
  | goesOn (a' : RunRequest) (pending' : Option OptionName) (code : a'.code = a.code)
      (h : ∀ ys, parseFrom a pending (xs ++ ys) = parseFrom a' pending' ys)
  /-- The text has begun, or `--` has said that it begins. -/
  | begins (r : RunRequest) (escaped : r.code = [] → "--" ∈ xs)
      (h : ∀ ys, parseFrom a pending (xs ++ ys) = some { r with code := r.code ++ ys })

theorem reads (a : RunRequest) (pending : Option OptionName) (xs : List String) :
    Reads a pending xs := by
  induction xs generalizing a pending with
  | nil => exact .goesOn a pending rfl fun ys => rfl
  | cons arg xs ih =>
    cases takes a pending arg with
    | refuses h => exact .refuses fun ys => h _
    | escapes dashes h =>
      exact .begins { a with code := xs } (fun _ => dashes ▸ List.mem_cons_self) fun ys => h _
    | begins h => exact .begins { a with code := arg :: xs } nofun fun ys => h _
    | goesOn a' pending' code h =>
      cases ih a' pending' with
      | refuses later => exact .refuses fun ys => (h _).trans (later ys)
      | goesOn a'' pending'' code' later =>
        exact .goesOn a'' pending'' (code'.trans code) fun ys => (h _).trans (later ys)
      | begins r escaped later =>
        exact .begins r (fun hr => List.mem_cons_of_mem arg (escaped hr)) fun ys =>
          (h _).trans (later ys)

/-- Accepted arguments are options, or the text has begun in them. -/
theorem reads_of_parse {args : List String} {r : RunRequest} (h : parse args = some r) :
    (r.code = [] ∧ ∀ ys, parse (args ++ ys) = parseFrom r .none ys) ∨
      ((r.code = [] → "--" ∈ args) ∧
        ∀ ys, parse (args ++ ys) = some { r with code := r.code ++ ys }) := by
  have hall : parse (args ++ []) = some r := by rwa [List.append_nil]
  cases reads RunRequest.none .none args with
  | refuses hreads => cases hall.symm.trans (hreads [])
  | goesOn a' pending' code hreads =>
    have hend := hall.symm.trans (hreads [])
    cases pending' with
    | some option => cases hend
    | none =>
      cases hend
      exact .inl ⟨code, hreads⟩
  | begins r' escaped hreads =>
    have hend := hall.symm.trans (hreads [])
    rw [List.append_nil] at hend
    cases hend
    exact .inr ⟨escaped, hreads⟩

/-- Behind options and `--` everything is text. -/
theorem parse_escaped {opts : List String} {r : RunRequest} (h : parse opts = some r)
    (hcode : r.code = []) (hescape : "--" ∉ opts) (parts : List String) :
    parse (opts ++ "--" :: parts) = some { r with code := parts } := by
  rcases reads_of_parse h with ⟨-, hreads⟩ | ⟨escaped, -⟩
  · exact hreads _
  · exact absurd (escaped hcode) hescape

/-- Behind the first part of the text everything is text. -/
theorem parse_append {args : List String} {r : RunRequest} (h : parse args = some r)
    (hcode : r.code ≠ []) (extra : List String) :
    parse (args ++ extra) = some { r with code := r.code ++ extra } := by
  rcases reads_of_parse h with ⟨hnone, -⟩ | ⟨-, hreads⟩
  · exact absurd hnone hcode
  · exact hreads extra

/-- Two lists of arguments are both refused, or ask for the same apart from how the text is divided. -/
inductive SameText : Option RunRequest → Option RunRequest → Prop where
  | refused : SameText .none .none
  | accepted {r : RunRequest} {code code' : List String} (some_code : code ≠ [])
      (some_code' : code' ≠ []) (text : String.join code = String.join code') :
      SameText (some { r with code }) (some { r with code := code' })

/-- How the text behind `--` is divided does not count, whatever stands before. -/
theorem parse_joined (opts : List String) {parts : List String} (hparts : parts ≠ []) :
    SameText (parse (opts ++ "--" :: parts)) (parse (opts ++ ["--", String.join parts])) := by
  cases reads RunRequest.none .none opts with
  | refuses h =>
    rw [parse, parse, h, h]
    exact .refused
  | goesOn a' pending' code h =>
    rw [parse, parse, h, h]
    cases pending' with
    | some option => exact .refused
    | none => exact .accepted hparts (List.cons_ne_nil _ _) (by simp)
  | begins r escaped h =>
    rw [parse, parse, h, h]
    exact .accepted (by simp) (by simp) (by simp)

end RunRequest

theorem Arguments.parse_run (xs : List String) :
    Arguments.parse ("run" :: xs) = (RunRequest.parse xs).map fun run => ⟨false, some run⟩ := rfl

/-- What is appended to the arguments of an invocation that have a part of the text is text. -/
theorem Arguments.parse_append {args : List String} {help : Bool} {r : RunRequest}
    (h : Arguments.parse args = some ⟨help, some r⟩) (hcode : r.code ≠ []) (extra : List String) :
    Arguments.parse (args ++ extra) = some ⟨help, some { r with code := r.code ++ extra }⟩ := by
  have hfrom : ∀ asked, Arguments.parseFrom asked args = some ⟨help, some r⟩ →
      Arguments.parseFrom asked (args ++ extra) =
        some ⟨help, some { r with code := r.code ++ extra }⟩ := by
    clear h
    induction args with
    | nil => intro asked h; cases h
    | cons arg rest ih =>
      intro asked h
      rw [List.cons_append]
      unfold Arguments.parseFrom at h ⊢
      split at h
      -- help is asked for by a letter or by name
      iterate 2
        · split at h
          · cases h
          · next hasked =>
            have hrest := ih true h
            simpa [hasked] using hrest
      · split at h <;> cases h
      · obtain ⟨run, hrun, hsame⟩ := Option.map_eq_some_iff.mp h
        cases hsame
        exact congrArg (Option.map _) (RunRequest.parse_append hrun hcode extra)
      · cases h
  exact hfrom false h

namespace Surroundings

variable {s : Surroundings} {xs ys : List String}

/-- An invocation of `run` that has taken its engine for a run has just done so. -/
theorem started_of_opening {p : Process} {said : List Emission}
    (h : s.opening = .running p said) : p.Started := by
  have hsource : ∀ source request, s.openSource source request = .running p said → p.Started := by
    intro source request hopens
    rcases s.openSource_cases source request with ⟨-, written, hover, -⟩ |
      ⟨-, p', said', hrunning, -, -, -, started⟩
    · cases hopens.symm.trans hover
    · cases hopens.symm.trans hrunning
      exact started
  unfold opening at h
  split at h
  · cases h
  · exact hsource _ _ h
  · split at h
    · exact hsource _ _ h
    · cases h

/-- Arguments that ask for the same apart from how the text is divided begin the same, and read no
program from standard input. -/
theorem opening_of_sameText (h : RunRequest.SameText (RunRequest.parse xs) (RunRequest.parse ys)) :
    { s with arguments := "run" :: xs }.opening = { s with arguments := "run" :: ys }.opening ∧
      { s with arguments := "run" :: xs }.readsProgram = false ∧
      { s with arguments := "run" :: ys }.readsProgram = false := by
  simp only [opening, readsProgram, plan, Plan.ofArguments, Arguments.parse_run]
  generalize RunRequest.parse xs = left at h
  generalize RunRequest.parse ys = right at h
  cases h with
  | refused => exact ⟨rfl, rfl, rfl⟩
  | @accepted r code code' some_code some_code' text =>
    obtain ⟨part, parts, rfl⟩ := List.exists_cons_of_ne_nil some_code
    obtain ⟨part', parts', rfl⟩ := List.exists_cons_of_ne_nil some_code'
    obtain ⟨file, memory, timeout, help, -⟩ := r
    cases help with
    | true => exact ⟨rfl, rfl, rfl⟩
    | false =>
      cases file with
      | some path => exact ⟨rfl, rfl, rfl⟩
      | none =>
        simp only [Option.map_some, Plan.ofRunArguments, text]
        exact ⟨rfl, rfl, rfl⟩

/-- Options that ask for neither help nor a file, with a text. -/
theorem plan_of_text {request : RunRequest} (h : RunRequest.parse xs = some request)
    (hhelp : request.help = false) (hfile : request.file = none) (hcode : request.code ≠ []) :
    { s with arguments := "run" :: xs }.plan = .fromText (String.join request.code) request := by
  obtain ⟨part, rest, hparts⟩ := List.exists_cons_of_ne_nil hcode
  simp [plan, Plan.ofArguments, Arguments.parse_run, h, Plan.ofRunArguments, hhelp, hfile, hparts]

theorem transcript_of_sameText
    (h : RunRequest.SameText (RunRequest.parse xs) (RunRequest.parse ys)) :
    { s with arguments := "run" :: xs }.transcript =
      { s with arguments := "run" :: ys }.transcript := by
  obtain ⟨hopening, hreads, hreads'⟩ := s.opening_of_sameText h
  unfold transcript simulation forwards
  rw [hopening, hreads, hreads']
  rfl

/-- The text of a program is taken literally and by concatenation. Two invocations that have the same
options and behind them, after `--`, parts of a text and the whole of it begin the same, with the same
settings and the same program if the options ask for neither help nor a file, and what they leave
behind is the same: under the fixed schedule, and under any two schedules on which nobody stops the
run. If arguments are accepted that have a part of the text, then whatever is appended to them is
appended to the text, and changes nothing else that they ask for. -/
theorem code_is_taken_literally (s : Surroundings) :
    (∀ (opts parts : List String), parts ≠ [] →
      let split : Surroundings := { s with arguments := "run" :: (opts ++ "--" :: parts) }
      let joined : Surroundings :=
        { s with arguments := "run" :: (opts ++ ["--", String.join parts]) }
      split.opening = joined.opening ∧ split.transcript = joined.transcript ∧
      (∀ p said, split.opening = .running p said → p.EndsAlike) ∧
      ∀ r, RunRequest.parse opts = some r → r.code = [] → "--" ∉ opts → r.help = false →
        r.file = none →
        Arguments.parse split.arguments = some ⟨false, some { r with code := parts }⟩ ∧
        Arguments.parse joined.arguments =
          some ⟨false, some { r with code := [String.join parts] }⟩ ∧
        split.plan = .fromText (String.join parts) { r with code := parts } ∧
        joined.plan = .fromText (String.join parts) { r with code := [String.join parts] } ∧
        split.settings { r with code := parts } =
          joined.settings { r with code := [String.join parts] }) ∧
    ∀ args extra help r, Arguments.parse args = some ⟨help, some r⟩ → r.code ≠ [] →
      Arguments.parse (args ++ extra) = some ⟨help, some { r with code := r.code ++ extra }⟩ ∧
      String.join (r.code ++ extra) = String.join r.code ++ String.join extra ∧
      s.settings { r with code := r.code ++ extra } = s.settings r := by
  constructor
  · intro opts parts hparts split joined
    have hsame := RunRequest.parse_joined opts hparts
    refine ⟨(s.opening_of_sameText hsame).1, s.transcript_of_sameText hsame, ?_, ?_⟩
    · intro p said hopening
      exact (started_of_opening hopening).endsAlike
    · intro r hopts hcode hescape hhelp hfile
      have hread := RunRequest.parse_escaped hopts hcode hescape
      have hsplit : split.plan = .fromText (String.join parts) { r with code := parts } :=
        plan_of_text (hread parts) hhelp hfile hparts
      have hjoined : joined.plan = .fromText (String.join [String.join parts])
          { r with code := [String.join parts] } :=
        plan_of_text (hread [String.join parts]) hhelp hfile (List.cons_ne_nil _ _)
      rw [String.join_cons, String.join_nil, String.append_empty] at hjoined
      exact ⟨by rw [Arguments.parse_run, hread]; rfl, by rw [Arguments.parse_run, hread]; rfl,
        hsplit, hjoined, rfl⟩
  · intro args extra help r hargs hcode
    exact ⟨Arguments.parse_append hargs hcode extra, String.join_append, rfl⟩

/-- Parts that look like options, one of them empty. -/
theorem code_is_taken_literally_of_dashes :
    let s : Surroundings := ⟨"jbf", [], [], none, none, ⟨[], [], 0, []⟩, [], none, none, ""⟩
    let opts := ["-m", "5"]
    let parts := ["-m", "", "--file", "--", "-", "."]
    let r : RunRequest := ⟨none, some 5, none, false, []⟩
    let split : Surroundings := { s with arguments := "run" :: (opts ++ "--" :: parts) }
    let joined : Surroundings := { s with arguments := "run" :: (opts ++ ["--", "-m--file---."]) }
    let p : Process := ⟨"jbf", false, "-m--file---.", ⟨5, none⟩,
      ⟨⟨5, .empty, true, true⟩, #[⟨.spawn, .ofString "-m--file---.", .launching⟩]⟩, false, .waiting⟩
    let late := List.replicate 18 Move.work ++ [.join, .expire, .conclude]
    let early := Move.input [7] :: List.replicate 18 .work ++ [.join, .input [8], .conclude]
    split.transcript = joined.transcript ∧
      Arguments.parse split.arguments = some ⟨false, some { r with code := parts }⟩ ∧
      split.plan = .fromText "-m--file---." { r with code := parts } ∧
      (∃ said, split.opening = .running p said) ∧
      (p.run late).1.stage = .over 0 ∧ stdoutOf (p.run early).2 = [250, 10] ∧
      stdoutOf (p.run late).2 = stdoutOf (p.run early).2 ∧
      Arguments.parse ("-h" :: split.arguments ++ ["-f", "-h"]) =
        some ⟨true, some { r with code := parts ++ ["-f", "-h"] }⟩ := by
  intro s opts parts r split joined p late early
  obtain ⟨concatenates, appends⟩ := code_is_taken_literally s
  obtain ⟨-, htranscript, hends, hread⟩ := concatenates opts parts (by decide)
  obtain ⟨hparse, -, hplan, -⟩ := hread r (by decide) rfl (by decide) rfl rfl
  have hopening : ∃ said, split.opening = .running p said := ⟨_, rfl⟩
  obtain ⟨said, hopens⟩ := hopening
  have hlate : p.Unstopped late := ⟨by decide, by simp [late]⟩
  have hearly : p.Unstopped early := ⟨by decide, by simp [early]⟩
  have hover : (p.run late).1.stage = .over 0 := rfl
  have halike := hends p said hopens hlate hearly
    (show late.flatMap Move.passed <+: [7, 8, 9] by decide)
    (show early.flatMap Move.passed <+: [7, 8, 9] by decide) hover rfl
  have hhelp : Arguments.parse ("-h" :: split.arguments) =
      some ⟨true, some { r with code := parts }⟩ := by decide
  exact ⟨htranscript, hparse, hplan, ⟨said, hopens⟩, hover, by decide, halike.2.1,
    (appends _ ["-f", "-h"] true _ hhelp (by decide)).1⟩

end Surroundings

end Brainfuck.CommandLine
