import Lox.CommandLine
import Lox.Proofs.ClockReadings
import Lox.Proofs.ParserSteps

/-!
# Two ways to give a source

A source is an argument behind `--`, or else the bytes of the standard input. Does it matter
which? It does not: arguments that ask for a command without a source ask for the same command
with one if `--` and the source are put behind them, and the text that the bytes encode is the
source that is run. What is left behind is what the command has to say about that text, which is
printed as a whole or not at all.

The arguments are any that make sense, so a text may start with a hyphen or be empty, and options
may be written in every way there is. Two runs are made at two times, so each of them has a clock of
its own, and what the clocks show makes a difference only if the text asks for it.
-/

namespace Lox.CommandLine

/-! ## Arguments behind a break -/

variable {known : List Flag} {waiting : Option Flag} {arguments : List String}

/-- Settings that come to an end have been told of nothing wrong. -/
theorem Settings.not_wrong {ps : List Piece} {s s' : Settings}
    (h : ps.foldlM Settings.add s = .ok s') : ∀ reason, .wrong reason ∉ ps := by
  induction ps generalizing s with
  | nil => exact fun _ => List.not_mem_nil
  | cons p ps ih =>
      intro reason hmem
      rw [List.foldlM_cons] at h
      cases hadd : s.add p with
      | error refusal => rw [hadd] at h; cases h
      | ok s₁ =>
          rw [hadd] at h
          rcases List.mem_cons.mp hmem with rfl | hmem
          · cases hadd
          · exact ih h reason hmem

/-- The last option of an argument may take the next argument for its value. -/
theorem allPieces_cons {argument : String} (h : argument ≠ "--") (later : List String) :
    allPieces known none (argument :: later)
      = (pieces known argument).1 ++ allPieces known (pieces known argument).2 later := by
  rw [allPieces, if_neg h]

/-- Behind `--` there are only operands, if the arguments in front of it are complete. -/
theorem allPieces_append_break (hbreak : "--" ∉ arguments)
    (hright : ∀ reason, .wrong reason ∉ allPieces known waiting arguments)
    (operands : List String) :
    allPieces known waiting (arguments ++ "--" :: operands)
      = allPieces known waiting arguments ++ operands.map .operand := by
  induction arguments generalizing waiting with
  | nil =>
      cases waiting with
      | none => rfl
      | some f => exact absurd (List.mem_singleton.mpr rfl) (hright (.missingValue f))
  | cons argument later ih =>
      obtain ⟨hargument, hlater⟩ := List.ne_and_not_mem_of_not_mem_cons hbreak
      rw [List.cons_append]
      cases waiting with
      | some f =>
          rw [allPieces] at hright ⊢
          by_cases hoperand : isOperand argument = true
          · rw [if_pos hoperand] at hright ⊢
            rw [allPieces, if_pos hoperand, List.cons_append,
              ih hlater fun reason hmem => hright reason (List.mem_cons_of_mem _ hmem)]
          · rw [if_neg hoperand] at hright
            exact absurd (List.mem_singleton.mpr rfl) (hright (.missingValue f))
      | none =>
          rw [allPieces_cons hargument.symm] at hright
          rw [allPieces_cons hargument.symm, allPieces_cons hargument.symm, List.append_assoc,
            ih hlater fun reason hmem => hright reason (List.mem_append_right _ hmem)]

/-- A command and its options do not depend on the source. -/
theorem commandOf_source (name : Name) (s : Settings) (source : Option String) :
    commandOf name { s with source } = commandOf name s := by
  cases name <;> rfl

/-- A request is made of settings. -/
theorem parseCommand_eq_ok {name : Name} {r : Request} :
    parseCommand name arguments = .ok r ↔
      ∃ s, (allPieces name.flags none arguments).foldlM Settings.add Settings.none = .ok s
        ∧ commandOf name s = .ok r.command ∧ s.source = r.source := by
  unfold parseCommand
  cases hfold : (allPieces name.flags none arguments).foldlM Settings.add Settings.none with
  | error refusal =>
      constructor
      · intro h; cases h
      · rintro ⟨_, h, _⟩; cases h
  | ok s =>
      dsimp only [bind, Except.bind]
      cases hcommand : commandOf name s with
      | error refusal =>
          constructor
          · intro h; cases h
          · rintro ⟨_, h, hcommand', _⟩
            cases h
            rw [hcommand] at hcommand'
            cases hcommand'
      | ok command =>
          constructor
          · intro h; cases h; exact ⟨s, rfl, hcommand, rfl⟩
          · rintro ⟨_, h, hcommand', hsource⟩
            cases h
            rw [hcommand] at hcommand'
            cases hcommand'
            rw [hsource]
            rfl

/-- What makes sense in front of a command leads to the command, whatever is behind it. -/
theorem parseAfter_eq_ok {s : Settings} {r : Request} (h : parseAfter s arguments = .ok r) :
    ∃ name front later, arguments = front ++ later ∧ parseCommand name later = .ok r
      ∧ ∀ other, parseAfter s (front ++ other) = parseCommand name other := by
  induction arguments generalizing s with
  | nil => cases h
  | cons argument later ih =>
      rw [parseAfter] at h
      cases hname : Name.ofString? argument with
      | some name =>
          rw [hname] at h
          refine ⟨name, [argument], later, rfl, h, fun other => ?_⟩
          rw [List.singleton_append, parseAfter, hname]
      | none =>
          rw [hname] at h
          dsimp only at h
          by_cases hhelp : argument = "help"
          · rw [if_pos hhelp] at h; cases h
          rw [if_neg hhelp] at h
          by_cases hoperand : isOperand argument = true
          · rw [if_pos hoperand] at h; cases h
          rw [if_neg hoperand] at h
          cases hfold : (pieces leadingFlags argument).1.foldlM Settings.add s with
          | error refusal => rw [hfold] at h; cases h
          | ok s' =>
              rw [hfold] at h
              obtain ⟨name, front, later', rfl, hparse, hother⟩ := ih h
              refine ⟨name, argument :: front, later', rfl, hparse, fun other => ?_⟩
              rw [List.cons_append, parseAfter, hname]
              dsimp only
              rw [if_neg hhelp, if_neg hoperand, hfold]
              exact hother other

/-- **Arguments that ask for a command without a source ask for it with the one behind them.** -/
theorem parse_append_source {command : Command} (hbreak : "--" ∉ arguments)
    (h : parse arguments = .ok ⟨command, none⟩) (text : String) :
    parse (arguments ++ ["--", text]) = .ok ⟨command, some text⟩ := by
  obtain ⟨name, front, later, rfl, hparse, hother⟩ := parseAfter_eq_ok h
  obtain ⟨s, hfold, hcommand, hsource⟩ := parseCommand_eq_ok.mp hparse
  have hlater : "--" ∉ later := fun hmem => hbreak (List.mem_append_right _ hmem)
  unfold parse
  rw [List.append_assoc, hother]
  refine parseCommand_eq_ok.mpr ⟨{ s with source := some text }, ?_, ?_, rfl⟩
  · rw [allPieces_append_break hlater (Settings.not_wrong hfold), List.foldlM_append, hfold]
    show s.add (.operand text) >>= pure = _
    rw [Settings.add, hsource]
    rfl
  · rw [commandOf_source]
    exact hcommand

/-! ## Commands that can be asked for -/

/-- A request for a command has a name and settings that the command stands for. -/
theorem command_of_parse {r : Request} (h : parse arguments = .ok r) :
    ∃ name s, commandOf name s = .ok r.command := by
  obtain ⟨name, _, _, _, hparse, _⟩ := parseAfter_eq_ok h
  obtain ⟨s, _, hcommand, _⟩ := parseCommand_eq_ok.mp hparse
  exact ⟨name, s, hcommand⟩

/-- Layout is not asked for without JSON. -/
theorem commandOf_ne_pretty (name : Name) (s : Settings) :
    commandOf name s ≠ .ok (.ast false true) := by
  cases name with
  | ast =>
      intro h
      rw [commandOf] at h
      split at h
      · cases h
      · rename_i hlayout
        injection h with h
        injection h with hjson hpretty
        rw [hjson, hpretty] at hlayout
        exact hlayout rfl
  | _ => nofun

/-- An option with its value in one argument. -/
def globalOption (name : String) : String := "--global=" ++ name

theorem toList_globalOption (name : String) :
    (globalOption name).toList = '-' :: '-' :: ("global=".toList ++ name.toList) := by
  rw [globalOption, String.toList_append]
  rfl

theorem pieces_globalOption (name : String) :
    pieces Name.resolve.flags (globalOption name) = ([.option .global name], none) := by
  unfold pieces
  rw [toList_globalOption]
  show ([Piece.option .global (String.ofList name.toList)], none) = _
  rw [String.ofList_toList]

theorem globalOption_ne_break (name : String) : globalOption name ≠ "--" := by
  intro h
  have hlist := congrArg String.toList h
  rw [toList_globalOption] at hlist
  cases hlist

/-- Settings that are told the names of globals know them in this order. -/
theorem foldlM_add_options (s : Settings) (names : List String) :
    (names.map (Piece.option .global)).foldlM Settings.add s
      = .ok { s with globals := s.globals ++ names } := by
  induction names generalizing s with
  | nil => rw [List.append_nil]; rfl
  | cons name names ih =>
      rw [List.map_cons, List.foldlM_cons]
      show (names.map (Piece.option .global)).foldlM Settings.add
        { s with globals := s.globals ++ [name] } = _
      rw [ih, List.append_assoc]
      rfl

theorem allPieces_globalOptions (names : List String) :
    allPieces Name.resolve.flags none (names.map globalOption)
      = names.map (Piece.option .global) := by
  induction names with
  | nil => rfl
  | cons name names ih =>
      rw [List.map_cons, allPieces_cons (globalOption_ne_break name), pieces_globalOption, ih]
      rfl

/-- **A command can be asked for unless it lays out what is no JSON.** -/
theorem exists_parse_iff {command : Command} :
    (∃ arguments, "--" ∉ arguments ∧ parse arguments = .ok ⟨command, none⟩)
      ↔ command ≠ .ast false true := by
  constructor
  · rintro ⟨arguments, _, hparse⟩ rfl
    obtain ⟨name, s, hcommand⟩ := command_of_parse hparse
    exact commandOf_ne_pretty name s hcommand
  · intro hcommand
    cases command with
    | tokens => exact ⟨["tokens"], by decide, rfl⟩
    | eval => exact ⟨["eval"], by decide, rfl⟩
    | ast json pretty =>
        cases json <;> cases pretty
        · exact ⟨["ast"], by decide, rfl⟩
        · exact absurd rfl hcommand
        · exact ⟨["ast", "--json"], by decide, rfl⟩
        · exact ⟨["ast", "--json", "--pretty"], by decide, rfl⟩
    | resolve globals =>
        refine ⟨"resolve" :: globals.map globalOption, ?_, ?_⟩
        · intro hmem
          rcases List.mem_cons.mp hmem with h | hmem
          · exact absurd h (by decide)
          · obtain ⟨name, _, h⟩ := List.mem_map.mp hmem
            exact globalOption_ne_break name h
        · show parseCommand .resolve (globals.map globalOption) = _
          refine parseCommand_eq_ok.mpr ⟨⟨[], [] ++ globals, none⟩, ?_, rfl, rfl⟩
          rw [allPieces_globalOptions, foldlM_add_options]
          rfl

/-! ## What is left behind -/

/-- This is left behind by what a command has come to: all of its lines, each with a line end, or
else its error and no output. -/
def Outcome.Tells (o : Outcome) (result : Except CommandError (List String)) : Prop :=
  (∀ lines, result = .ok lines → o = ⟨0, String.join (lines.map (· ++ "\n")), ""⟩)
    ∧ ∀ error, result = .error error → o = ⟨1, "", error.message ++ "\n"⟩

/-- What has been come to leaves nothing else behind. -/
theorem Outcome.Tells.unique {o o' : Outcome} {result : Except CommandError (List String)}
    (h : o.Tells result) (h' : o'.Tells result) : o = o' := by
  cases result with
  | ok lines => exact (h.1 lines rfl).trans (h'.1 lines rfl).symm
  | error error => exact (h.2 error rfl).trans (h'.2 error rfl).symm

section

variable {clock : Clock} {r : Request} {input : Option ByteArray} {source : Option String}

/-- A request tells what its command comes to for the source that is read. -/
theorem Request.run_tells (clock : Clock) (hread : r.readSource input = .ok source) :
    (r.run clock input).Tells (r.command.execute clock source) := by
  unfold Request.run
  rw [hread]
  dsimp only [bind, Except.bind]
  cases r.command.execute clock source with
  | ok lines =>
      refine ⟨fun lines' h => ?_, nofun⟩
      cases h
      rfl
  | error error =>
      refine ⟨nofun, fun error' h => ?_⟩
      cases h
      rfl

theorem Request.run_of_unread {error : CommandError} (hread : r.readSource input = .error error) :
    r.run clock input = .ofError error := by
  unfold Request.run
  rw [hread]
  rfl

theorem run_of_parse (h : parse arguments = .ok r) :
    run clock arguments input = r.run clock input := by
  unfold run
  rw [h]

end

/-- The bytes of a text are read as the text. -/
theorem readSource_text (command : Command) (text : String) :
    (⟨command, none⟩ : Request).readSource (some text.toUTF8) = .ok (some text) := by
  have hdecode : String.fromUTF8? text.toUTF8 = some text := dif_pos text.isValidUTF8
  unfold Request.readSource
  dsimp only
  rw [hdecode]

/-- Bytes that are those of no text are not read. -/
theorem readSource_no_text (command : Command) {bytes : ByteArray}
    (h : ∀ text : String, text.toUTF8 ≠ bytes) :
    (⟨command, none⟩ : Request).readSource (some bytes) = .error .notUtf8 := by
  have hdecode : String.fromUTF8? bytes = none :=
    dif_neg fun hvalid => h (String.fromUTF8 bytes hvalid) rfl
  unfold Request.readSource
  dsimp only
  rw [hdecode]

/--
**It makes no difference how a source is given.**

Every command but the one that lays out what is no JSON can be asked for. Whatever arguments ask
for it without a source, a text behind `--`, with anything on the standard input, and the same
text on the standard input each leave behind what the command has to say about the text: its lines,
each with a line end, or else its error and no output.

Each of the two runs has a clock of its own. They leave the same behind if the clocks show the same
whenever the first run looks at its clock. In particular they do if it never looks, and it never
looks if the text is not evaluated, or does not name the variable `clock`.

Bytes on the standard input that are those of no text are an error too.
-/
theorem source_paths_agree :
    (∀ command : Command, (∃ arguments, "--" ∉ arguments ∧ parse arguments = .ok ⟨command, none⟩)
      ↔ command ≠ .ast false true)
    ∧ (∀ (arguments : List String) (command : Command), "--" ∉ arguments →
      parse arguments = .ok ⟨command, none⟩ →
      ∀ (clock clock' : Clock) (text : String) (input : Option ByteArray),
        let given := run clock (arguments ++ ["--", text]) input
        let piped := run clock' arguments (some text.toUTF8)
        given.Tells (command.execute clock (some text))
          ∧ piped.Tells (command.execute clock' (some text))
          ∧ ((∀ moment, command.LooksAt clock text moment →
            clock'.shows moment = clock.shows moment) → given = piped)
          ∧ ((command = .eval → ∀ e, Lox.parse text = .ok e → ¬e.Reports "clock") →
            given = piped))
    ∧ ∀ (arguments : List String) (command : Command), parse arguments = .ok ⟨command, none⟩ →
      ∀ (clock : Clock) (bytes : ByteArray), (∀ text : String, text.toUTF8 ≠ bytes) →
        let piped := run clock arguments (some bytes)
        piped.code = 1 ∧ piped.output = "" := by
  refine ⟨fun _ => exists_parse_iff, ?texts, ?bytes⟩
  case texts =>
    intro arguments command hbreak hparse clock clock' text input given piped
    have hread : (⟨command, some text⟩ : Request).readSource input = .ok (some text) := by
      unfold Request.readSource
      rfl
    have hgiven : given.Tells (command.execute clock (some text)) := by
      have htells := Request.run_tells clock hread
      rwa [← run_of_parse (parse_append_source hbreak hparse text)] at htells
    have hpiped : piped.Tells (command.execute clock' (some text)) := by
      have htells := Request.run_tells clock' (readSource_text command text)
      rwa [← run_of_parse hparse] at htells
    have hsame : (∀ moment, command.LooksAt clock text moment →
        clock'.shows moment = clock.shows moment) → given = piped := by
      intro hshows
      have hexecute : command.execute clock' (some text) = command.execute clock (some text) :=
        Command.run_eq_of_shows hshows
      rw [hexecute] at hpiped
      exact hgiven.unique hpiped
    refine ⟨hgiven, hpiped, hsame, fun hquiet => hsame fun moment hlooks => ?_⟩
    exact absurd hlooks (Command.not_looksAt hquiet moment)
  case bytes =>
    intro arguments command hparse clock bytes hbytes
    rw [run_of_parse hparse, Request.run_of_unread (readSource_no_text command hbytes)]
    exact ⟨rfl, rfl⟩

/-- A text that looks like an option is an expression, one that looks like a break is none, a clock
that is broken for both runs gives the same error, though one of them is repaired later, and one
that is not broken gives no error. A byte that starts no character is no text. -/
theorem source_paths_agree_hyphens :
    let broken : Clock := ⟨fun _ => .error "broken"⟩
    let repaired : Clock := ⟨fun moment => if moment = 0 then .error "broken" else .ok 1⟩
    let given (name text : String) := run repaired (["-v", name] ++ ["--", text]) none
    let piped (name : String) (bytes : ByteArray) := run broken ["-v", name] (some bytes)
    (parse ["-v", "ast"] = .ok ⟨.ast false false, none⟩ ∧ parse ["-v", "eval"] = .ok ⟨.eval, none⟩)
      ∧ (given "ast" "-nil" = piped "ast" "-nil".toUTF8
        ∧ piped "ast" "-nil".toUTF8 = ⟨0, "(- nil)\n", ""⟩)
      ∧ (given "ast" "--" = piped "ast" "--".toUTF8
        ∧ piped "ast" "--".toUTF8 = ⟨1, "", "[line 1] Error at end: Expect expression.\n"⟩)
      ∧ (given "eval" "!nil" = piped "eval" "!nil".toUTF8
        ∧ piped "eval" "!nil".toUTF8 = ⟨0, "true\n", ""⟩)
      ∧ (given "eval" "clock()" = piped "eval" "clock()".toUTF8
        ∧ piped "eval" "clock()".toUTF8 = ⟨1, "", "clock: broken\n"⟩
        ∧ (run (.stopped 1) (["-v", "eval"] ++ ["--", "clock()"]) none).code = 0)
      ∧ (piped "eval" ⟨#[255]⟩).code = 1 ∧ (piped "eval" ⟨#[255]⟩).output = "" := by
  intro broken repaired given piped
  have hast : parse ["-v", "ast"] = .ok ⟨.ast false false, none⟩ := rfl
  have heval : parse ["-v", "eval"] = .ok ⟨.eval, none⟩ := rfl
  have hbytes : ∀ text : String, text.toUTF8 ≠ ⟨#[255]⟩ := by
    intro text h
    have hvalid := text.isValidUTF8
    rw [show text.toByteArray = _ from h] at hvalid
    exact absurd (ByteArray.validateUTF8_eq_true_iff.mpr hvalid) (by decide +kernel)
  let token (kind : TokenKind) (lexeme : String) : Token := ⟨kind, lexeme, none, 1⟩
  have hdenial : Lox.parse "!nil" = .ok (.unary (token .bang "!") (.literal .nil)) := by
    have hscan : Scan.ofText "!nil"
        = ⟨[token .bang "!", ⟨.nilWord, "nil", some .nil, 1⟩], .finished 1⟩ := rfl
    exact parse_of_scan hscan rfl
  have hquiet : ∀ e, Lox.parse "!nil" = .ok e → ¬e.Reports "clock" := by
    intro e hparse hreports
    cases hdenial.symm.trans hparse
    obtain ⟨r, hr, _⟩ := Expr.reports_iff.mp hreports
    cases hr
  let name : Expr := .var (token .identifier "clock")
  have hcall : Lox.parse "clock()" = .ok (.call name []) := by
    have hscan : Scan.ofText "clock()" = ⟨[token .identifier "clock", token .leftParen "(",
        token .rightParen ")"], .finished 1⟩ := rfl
    exact parse_of_scan hscan rfl
  have hshows : ∀ moment, Command.LooksAt .eval repaired "clock()" moment →
      broken.shows moment = repaired.shows moment := by
    rintro moment ⟨_, e, hparse, f, objects, m, hruns, _, rfl⟩
    cases hcall.symm.trans hparse
    -- of the four events the last one is a function that is run, before any other has been
    let first := (Session.start repaired).memory
    have hlog : Observed.log (Session.start repaired).host (.call name []) first
        = [.begins (.call name []) first, .begins name first, .uses ⟨"clock", 1, .read⟩ first,
          .runs .clock [] first] := rfl
    rw [hlog] at hruns
    simp only [List.mem_cons, reduceCtorEq, List.not_mem_nil, or_false, false_or] at hruns
    obtain ⟨_, _, rfl⟩ := Event.runs.inj hruns
    rfl
  obtain ⟨_, htexts, hno⟩ := source_paths_agree
  obtain ⟨_, hlines, _, hsame⟩ := htexts _ _ (by decide) hast repaired broken "-nil" none
  obtain ⟨_, hfails, _, hsame'⟩ := htexts _ _ (by decide) hast repaired broken "--" none
  obtain ⟨_, hvalue, _, hunnamed⟩ := htexts _ _ (by decide) heval repaired broken "!nil" none
  obtain ⟨_, hbroken, hseen, _⟩ := htexts _ _ (by decide) heval repaired broken "clock()" none
  obtain ⟨hshown, _⟩ := htexts _ _ (by decide) heval (.stopped 1) broken "clock()" none
  exact ⟨⟨hast, heval⟩, ⟨hsame nofun, hlines.1 _ rfl⟩, ⟨hsame' nofun, hfails.2 _ rfl⟩,
    ⟨hunnamed fun _ => hquiet, hvalue.1 _ ((Command.run_eval hdenial rfl).trans rfl)⟩,
    ⟨hseen hshows, hbroken.2 _ ((Command.run_eval hcall rfl).trans rfl),
      congrArg Outcome.code (hshown.1 _ ((Command.run_eval hcall rfl).trans rfl))⟩,
    hno _ _ heval _ _ hbytes⟩

end Lox.CommandLine
