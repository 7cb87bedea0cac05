import FilterQuery.Proofs.ArgumentRules
/-!
# Delivery of the query

With a parser that follows the rules the order of the arguments in front of `--` does not matter,
except for the words in which arguments are refused. A query is the same as an argument and as the
input, since flags alone ask for what they ask for with a query behind them. The logger may be any.
-/
namespace FilterQuery

theorem Input.text_piped (s : String) : (Input.piped s.toUTF8).text = .ok s := by
  have hdecode : String.fromUTF8? s.toUTF8 = some s := dif_pos s.isValidUTF8
  rw [Input.text, hdecode]

theorem Collected.run_query {s : Collected} {command : Command} (h : s.query = none)
    (query : String) (input : Input) :
    ({ s with query := some query }.arguments command).run input =
      (s.arguments command).run (.piped query.toUTF8) := by
  obtain ⟨_, strict, json, pretty, onlyQueries⟩ := s
  subst h
  cases command <;>
    simp only [CommandArguments.run, arguments, CommandArguments.query, Input.text_piped] <;> rfl

namespace ArgumentParser

variable {parser : ArgumentParser} {logger : Logger} {arguments arguments' : List String}
  {input input' : Input}

theorem outcome_of_usage (h : parser.read arguments = .usage) :
    parser.outcome logger arguments input = ⟨2, "", parser.complaint arguments⟩ := by
  rw [outcome, runCommandLine, h]
  rfl

theorem exitCode_outcome_eq_two_iff :
    (parser.outcome logger arguments input).exitCode = 2 ↔ parser.read arguments = .usage := by
  constructor
  · intro h
    rw [outcome, runCommandLine] at h
    cases hread : parser.read arguments with
    | usage => rfl
    | shown text =>
      rw [hread] at h
      cases h
    | run a =>
      rw [hread, Invocation.ending] at h
      cases hresult : (a.run input).result <;> rw [hresult] at h <;> cases h
  · intro h
    rw [outcome_of_usage h]

theorem outcome_congr (h : parser.read arguments ≠ .usage)
    (hending : (parser.read arguments).ending input = (parser.read arguments').ending input')
    (hlog : (parser.read arguments).log input = (parser.read arguments').log input') :
    parser.outcome logger arguments input = parser.outcome logger arguments' input' := by
  rw [outcome, outcome, runCommandLine, runCommandLine, ← hending, ← hlog]
  cases hread : parser.read arguments with
  | usage => exact absurd hread h
  | shown text => rfl
  | run a =>
    rw [Invocation.ending]
    cases (a.run input).result <;> rfl

end ArgumentParser

/-- For a parser that follows the rules, what a run leaves behind does not depend on the order of
arguments without `--` that do not ask for help, except that refused arguments are complained
about as they stand; nor on whether the query is an argument or the input. And the input does not
matter for whether the arguments are understood. -/
theorem outcome_independent (parser : ArgumentParser) (hrules : parser.FollowsRules)
    (logger : Logger) :
    (∀ (command : Command) (arguments arguments' : List String) (input : Input),
      (∀ a ∈ arguments, a ≠ "--" ∧ command.asksForHelp a = false) → arguments.Perm arguments' →
      let outcome := parser.outcome logger (command.argument :: arguments) input
      let outcome' := parser.outcome logger (command.argument :: arguments') input
      outcome.exitCode = outcome'.exitCode ∧ outcome.stdout = outcome'.stdout ∧
        (outcome.exitCode ≠ 2 → outcome.stderr = outcome'.stderr) ∧
        (outcome.exitCode = 2 →
          outcome = ⟨2, "", parser.complaint (command.argument :: arguments)⟩)) ∧
    (∀ (command : Command) (flags : List String) (query : String) (input : Input),
      command.TakesFlags flags →
      parser.outcome logger (command.argument :: (flags ++ ["--", query])) input =
          parser.outcome logger (command.argument :: flags) (.piped query.toUTF8) ∧
        (parser.outcome logger (command.argument :: flags) (.piped query.toUTF8)).exitCode ≠ 2) ∧
    ∀ (arguments : List String) (input input' : Input),
      (parser.outcome logger arguments input).exitCode = 2 ↔
        (parser.outcome logger arguments input').exitCode = 2 := by
  refine ⟨?_, ?_, ?_⟩
  · intro command arguments arguments' input hplain hperm outcome outcome'
    have hread := (hrules command arguments).eq_of_perm (hrules command arguments') hperm hplain
    by_cases husage : parser.read (command.argument :: arguments) = .usage
    · have houtcome : outcome = _ := ArgumentParser.outcome_of_usage husage
      have houtcome' : outcome' = _ := ArgumentParser.outcome_of_usage (hread ▸ husage)
      rw [houtcome, houtcome']
      exact ⟨rfl, rfl, fun hne => absurd rfl hne, fun _ => rfl⟩
    · have heq : outcome = outcome' :=
        ArgumentParser.outcome_congr husage (by rw [hread]) (by rw [hread])
      rw [← heq]
      refine ⟨rfl, rfl, fun _ => rfl, fun hexit => ?_⟩
      exact absurd (ArgumentParser.exitCode_outcome_eq_two_iff.mp hexit) husage
  · intro command flags query input hflags
    obtain ⟨s, hnone, halone, hquery⟩ := hflags.exists_arguments
    have hread := halone _ (hrules command flags)
    have hread' := hquery query _ (hrules command (flags ++ ["--", query]))
    have hrun : _ = (s.arguments command).run _ := Collected.run_query hnone query input
    constructor
    · refine ArgumentParser.outcome_congr (by simp [hread']) ?_ ?_
      · rw [hread, hread', Invocation.ending, Invocation.ending, hrun]
      · rw [hread, hread', Invocation.log, Invocation.log, hrun]
    · rw [Ne, ArgumentParser.exitCode_outcome_eq_two_iff, hread]
      simp
  · intro arguments input input'
    rw [ArgumentParser.exitCode_outcome_eq_two_iff, ArgumentParser.exitCode_outcome_eq_two_iff]

/-- A query with a warning among its flags, a query that looks like a flag with bytes that are no
text at the input, and a flag given twice. -/
theorem outcome_of_dashes :
    let logger := Logger.warnings fun _ => "2024-05-01T12:00:00Z"
    argumentParser.FollowsRules ∧
    (argumentParser.outcome logger ["tree", "--json", "a eq: 1 b", "-p"] .terminal).stderr =
      "[2024-05-01T12:00:00Z WARN  uql::parser] " ++
        "ignoring 1 token(s) after the expression, starting at 'b'\n" ∧
    argumentParser.outcome logger ["tokens", "--json", "--strict"] (.piped "-p".toUTF8) =
      ⟨0, "[\x7b\"kind\":\"IDENTIFIER\",\"text\":\"-p\"\x7d]\n", ""⟩ ∧
    (argumentParser.outcome logger ["check", "--strict", "a", "--strict"]
      (.piped ⟨#[255]⟩)).exitCode = 2 := by
  intro logger
  obtain ⟨horder, hdelivery, hinput⟩ :=
    outcome_independent argumentParser argumentParser_followsRules logger
  have hwarns := (horder .tree ["a eq: 1 b", "-p", "--json"] ["--json", "a eq: 1 b", "-p"] .terminal
    (by decide) (by decide)).2.2.1 (by decide +kernel)
  have hflags : Command.tokens.TakesFlags ["--json", "--strict"] := by
    refine ⟨?_, ?_⟩ <;> decide
  have hquery := (hdelivery .tokens _ "-p" (.piped ⟨#[255]⟩) hflags).1
  have htwice := hinput ["check", "--strict", "a", "--strict"] .terminal (.piped ⟨#[255]⟩)
  refine ⟨argumentParser_followsRules, ?_, ?_, htwice.mp (by decide)⟩
  · exact hwarns.symm.trans (by decide +kernel)
  · exact hquery.symm.trans (by decide +kernel)

/-- Of two unknown options the first is complained about. -/
theorem stderr_of_unknown_options :
    let logger := Logger.warnings fun _ => "2024-05-01T12:00:00Z"
    argumentParser.FollowsRules ∧ ["--x", "--y"].Perm ["--y", "--x"] ∧
    (∀ a ∈ ["--x", "--y"], a ≠ "--" ∧ Command.check.asksForHelp a = false) ∧
    (argumentParser.outcome logger ["check", "--x", "--y"] .terminal).stderr =
      "error: unexpected argument '--x' found\n\n" ++
        "  tip: to pass '--x' as a value, use '-- --x'\n\n" ++
        "Usage: uql check [OPTIONS] [QUERY]\n\nFor more information, try '--help'.\n" ∧
    (argumentParser.outcome logger ["check", "--x", "--y"] .terminal).stderr ≠
      (argumentParser.outcome logger ["check", "--y", "--x"] .terminal).stderr :=
  ⟨argumentParser_followsRules, by decide, by decide, by decide +kernel, by decide +kernel⟩

end FilterQuery
