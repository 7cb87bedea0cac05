import Mathlib
import FilterQuery.CommandLine
/-!
# The rules of arguments

How the arguments of a command are read, from left to right: what each of them adds, and which are
refused. In which words they are refused is open, and so is what a wish for help leads to. Read by
the rules, arguments without one and without `--` ask for the same in every order.
-/
namespace FilterQuery

/-- What comes of arguments of a command when those before them have asked for `s`. -/
inductive Reads (command : Command) : Collected → List String → Invocation → Prop
  | done {s} : Reads command s [] (.run (s.arguments command))
  | query {s argument rest i} : s.isQuery argument → s.query = none →
      Reads command { s with query := some argument } rest i → Reads command s (argument :: rest) i
  | secondQuery {s argument rest} : s.isQuery argument → s.query ≠ none →
      Reads command s (argument :: rest) .usage
  | dashes {s rest i} : s.isQuery "--" = false →
      Reads command { s with onlyQueries := true } rest i → Reads command s ("--" :: rest) i
  | help {s argument rest i} : s.isQuery argument = false →
      command.asksForHelp argument → Reads command s (argument :: rest) i
  | flag {s argument flag rest i} : s.isQuery argument = false →
      Flag.ofArgument? command argument = some flag → s.has flag = false →
      Reads command (s.set flag) rest i → Reads command s (argument :: rest) i
  | repeated {s argument flag rest} : s.isQuery argument = false →
      Flag.ofArgument? command argument = some flag → s.has flag →
      Reads command s (argument :: rest) .usage
  | unknown {s argument rest} : s.isQuery argument = false → argument ≠ "--" →
      command.asksForHelp argument = false → Flag.ofArgument? command argument = none →
      Reads command s (argument :: rest) .usage

/-- The parser reads the arguments of every command by the rules. -/
def ArgumentParser.FollowsRules (parser : ArgumentParser) : Prop :=
  ∀ command arguments, Reads command {} arguments (parser.read (command.argument :: arguments))

variable {command : Command} {s s' : Collected} {a : String} {arguments : List String}
  {i : Invocation}

theorem Flag.isOption_of_ofArgument? {flag : Flag} (h : ofArgument? command a = some flag) :
    isOption a ∧ a ≠ "--" ∧ command.asksForHelp a = false := by
  have hmem : a ∈ ["--strict", "--json", "--pretty", "-p"] := by
    by_contra hnot
    simp only [List.mem_cons, List.not_mem_nil, or_false, not_or] at hnot
    simp [ofArgument?, hnot] at h
  have hall : ∀ a ∈ ["--strict", "--json", "--pretty", "-p"],
      isOption a ∧ a ≠ "--" ∧ command.asksForHelp a = false := by cases command <;> decide
  exact hall a hmem

/-! ### What an argument adds -/

namespace Collected

variable (s : Collected) (query : Option String) (flag flag' : Flag)

@[simp] theorem query_set : (s.set flag).query = s.query := by cases flag <;> rfl

@[simp] theorem onlyQueries_set : (s.set flag).onlyQueries = s.onlyQueries := by
  cases flag <;> rfl

@[simp] theorem has_query : { s with query := query }.has flag = s.has flag := by
  cases flag <;> rfl

@[simp] theorem set_query :
    { s with query := query }.set flag = { s.set flag with query := query } := by
  cases flag <;> rfl

@[simp] theorem has_set : (s.set flag).has flag' = (s.has flag' || flag = flag') := by
  cases flag <;> cases flag' <;> simp [set, has]

theorem set_comm : (s.set flag).set flag' = (s.set flag').set flag := by
  cases flag <;> cases flag' <;> rfl

end Collected

/-- What an argument other than `--` does to what has been asked for. -/
inductive Effect
  | ask (query : String)
  | set (flag : Flag)
  | refuse

namespace Effect

def apply : Effect → Collected → Option Collected
  | .ask query, s => if s.query = none then some { s with query := some query } else none
  | .set flag, s => if s.has flag then none else some (s.set flag)
  | .refuse, _ => none

theorem onlyQueries_of_apply {e : Effect} (h : e.apply s = some s') :
    s'.onlyQueries = s.onlyQueries := by
  cases e with
  | ask query =>
    obtain ⟨-, h⟩ := Option.ite_none_right_eq_some.mp h
    cases h
    rfl
  | set flag =>
    obtain ⟨-, h⟩ := Option.ite_none_left_eq_some.mp h
    cases h
    exact s.onlyQueries_set flag
  | refuse => cases h

variable (s : Collected) (query : String) (flag flag' : Flag)

theorem apply_ask_set :
    ((ask query).apply s).bind (set flag).apply = ((set flag).apply s).bind (ask query).apply := by
  by_cases hquery : s.query = none <;> by_cases hflag : s.has flag <;> simp [apply, hquery, hflag]

theorem apply_set_set :
    ((set flag).apply s).bind (set flag').apply = ((set flag').apply s).bind (set flag).apply := by
  by_cases heq : flag = flag'
  · rw [heq]
  · by_cases h : s.has flag <;> by_cases h' : s.has flag' <;>
      simp [apply, h, h', heq, Ne.symm heq, s.set_comm flag flag']

theorem apply_comm (e e' : Effect) : (e.apply s).bind e'.apply = (e'.apply s).bind e.apply := by
  cases e with
  | refuse => cases h : e'.apply s <;> rfl
  | ask query =>
    cases e' with
    | refuse => cases (ask query).apply s <;> rfl
    | ask query' => by_cases h : s.query = none <;> simp [apply, h]
    | set flag => exact apply_ask_set s query flag
  | set flag =>
    cases e' with
    | refuse => cases (set flag).apply s <;> rfl
    | ask query => exact (apply_ask_set s query flag).symm
    | set flag' => exact apply_set_set s flag flag'

end Effect

/-- What an argument in front of `--` does. -/
def effectOf (command : Command) (argument : String) : Effect :=
  if isOption argument then (Flag.ofArgument? command argument).elim .refuse .set
  else .ask argument

/-- What arguments in front of `--` ask for on top of `s`, unless one of them is refused. -/
def collect (command : Command) (s : Option Collected) (arguments : List String) :
    Option Collected :=
  arguments.foldl (fun s argument => s.bind (effectOf command argument).apply) s

theorem collect_none (arguments : List String) : collect command none arguments = none := by
  induction arguments with
  | nil => rfl
  | cons a rest ih => exact ih

theorem collect_perm {arguments' : List String} (h : arguments.Perm arguments')
    (s : Option Collected) : collect command s arguments = collect command s arguments' := by
  refine h.foldl_eq' (fun a _ b _ s => ?_) s
  cases s with
  | none => rfl
  | some s => exact Effect.apply_comm s _ _

/-! ### Reading by the rules -/

theorem isOption_of_not_isQuery (h : s.isQuery a = false) : isOption a ∧ s.onlyQueries = false := by
  simpa [Collected.isQuery, and_comm] using h

theorem effectOf_of_isQuery (h : s.isQuery a) (hopen : s.onlyQueries = false) :
    effectOf command a = .ask a := by
  have hoption : ¬ isOption a := by simpa [Collected.isQuery, hopen] using h
  exact if_neg hoption

theorem effectOf_of_flag {flag : Flag} (h : Flag.ofArgument? command a = some flag) :
    effectOf command a = .set flag := by
  rw [effectOf, if_pos (Flag.isOption_of_ofArgument? h).1, h, Option.elim_some]

theorem effectOf_of_unknown (h : s.isQuery a = false) (hflag : Flag.ofArgument? command a = none) :
    effectOf command a = .refuse := by
  rw [effectOf, if_pos (isOption_of_not_isQuery h).1, hflag, Option.elim_none]

theorem Reads.step {rest : List String} (h : Reads command s (a :: rest) i)
    (hopen : s.onlyQueries = false) (ha : a ≠ "--" ∧ command.asksForHelp a = false) :
    ((effectOf command a).apply s).elim (i = .usage) fun s' => Reads command s' rest i := by
  cases h with
  | query hquery hnone h =>
    rw [effectOf_of_isQuery hquery hopen, Effect.apply, if_pos hnone]
    exact h
  | secondQuery hquery hsome =>
    rw [effectOf_of_isQuery hquery hopen, Effect.apply, if_neg hsome]
    rfl
  | dashes => exact absurd rfl ha.1
  | help _ hhelp => simp [ha.2] at hhelp
  | flag _ hflag hnew h =>
    rw [effectOf_of_flag hflag, Effect.apply, if_neg (by simp [hnew])]
    exact h
  | repeated _ hflag hgiven =>
    rw [effectOf_of_flag hflag, Effect.apply, if_pos hgiven]
    rfl
  | unknown hoption _ _ hflag =>
    rw [effectOf_of_unknown hoption hflag]
    rfl

theorem Reads.run {rest : List String} (h : Reads command s (arguments ++ rest) i)
    (hopen : s.onlyQueries = false)
    (hplain : ∀ a ∈ arguments, a ≠ "--" ∧ command.asksForHelp a = false) :
    (collect command (some s) arguments).elim (i = .usage) fun s' => Reads command s' rest i := by
  induction arguments generalizing s with
  | nil => exact h
  | cons a arguments ih =>
    rw [List.forall_mem_cons] at hplain
    have hstep := h.step hopen hplain.1
    change (collect command ((effectOf command a).apply s) arguments).elim _ _
    cases hs : (effectOf command a).apply s with
    | none =>
      rw [hs] at hstep
      rw [collect_none]
      exact hstep
    | some s' =>
      rw [hs] at hstep
      exact ih hstep ((Effect.onlyQueries_of_apply hs).trans hopen) hplain.2

/-- Arguments without `--` ask for the same in every order. -/
theorem Reads.eq_of_perm {arguments' : List String} {i' : Invocation}
    (h : Reads command {} arguments i) (h' : Reads command {} arguments' i')
    (hperm : arguments.Perm arguments')
    (hplain : ∀ a ∈ arguments, a ≠ "--" ∧ command.asksForHelp a = false) :
    i = i' := by
  have hplain' : ∀ a ∈ arguments', a ≠ "--" ∧ command.asksForHelp a = false := fun a ha =>
    hplain a (hperm.mem_iff.mpr ha)
  rw [← List.append_nil arguments] at h
  rw [← List.append_nil arguments'] at h'
  have hrun := h.run rfl hplain
  have hrun' := h'.run rfl hplain'
  rw [← collect_perm hperm] at hrun'
  cases hs : collect command (some {}) arguments with
  | none =>
    rw [hs] at hrun hrun'
    exact hrun.trans hrun'.symm
  | some s =>
    rw [hs] at hrun hrun'
    cases hrun
    cases hrun'
    rfl

/-! ### Flags alone -/

/-- Whether the arguments are flags of the command, none of them given twice. -/
def Command.TakesFlags (command : Command) (arguments : List String) : Prop :=
  (∀ a ∈ arguments, Flag.ofArgument? command a ≠ none) ∧
    (arguments.map (Flag.ofArgument? command)).Nodup

theorem collect_flags (h : command.TakesFlags arguments)
    (hnew : ∀ flag, some flag ∈ arguments.map (Flag.ofArgument? command) → s.has flag = false) :
    ∃ s', collect command (some s) arguments = some s' ∧ s'.query = s.query ∧
      s'.onlyQueries = s.onlyQueries := by
  induction arguments generalizing s with
  | nil => exact ⟨s, rfl, rfl, rfl⟩
  | cons a arguments ih =>
    obtain ⟨hflags, hnodup⟩ := h
    rw [List.forall_mem_cons] at hflags
    rw [List.map_cons, List.nodup_cons] at hnodup
    rw [List.map_cons] at hnew
    obtain ⟨flag, hflag⟩ := Option.ne_none_iff_exists'.mp hflags.1
    rw [hflag] at hnodup hnew
    have hset : (effectOf command a).apply s = some (s.set flag) := by
      rw [effectOf_of_flag hflag, Effect.apply, if_neg (by simp [hnew flag List.mem_cons_self])]
    obtain ⟨s', hs', hquery, hopen⟩ := ih (s := s.set flag) ⟨hflags.2, hnodup.2⟩ fun flag' h => by
      have hne : flag ≠ flag' := fun heq => hnodup.1 (heq ▸ h)
      simp [hnew flag' (List.mem_cons_of_mem _ h), hne]
    refine ⟨s', ?_, hquery.trans (s.query_set flag), hopen.trans (s.onlyQueries_set flag)⟩
    rw [← hs', ← hset]
    rfl

theorem Reads.eq_of_dashes {query : String} (h : Reads command s ["--", query] i)
    (hnone : s.query = none) (hopen : s.onlyQueries = false) :
    i = .run ({ s with query := some query }.arguments command) := by
  have hdashes : s.isQuery "--" = false := by
    rw [Collected.isQuery, hopen]
    decide
  cases h with
  | query hquery | secondQuery hquery => simp [hdashes] at hquery
  | help _ hhelp => cases command <;> cases hhelp
  | flag _ hflag | repeated _ hflag => exact absurd rfl (Flag.isOption_of_ofArgument? hflag).2.1
  | unknown _ hplain => exact absurd rfl hplain
  | dashes _ h =>
    -- everything is a query now
    cases h with
    | query _ _ h =>
      cases h
      cases command <;> rfl
    | secondQuery _ hsome => exact absurd hnone hsome
    | dashes hoption | help hoption | flag hoption | repeated hoption | unknown hoption =>
      cases (isOption_of_not_isQuery hoption).2

theorem Command.TakesFlags.exists_arguments (h : command.TakesFlags arguments) :
    ∃ s : Collected, s.query = none ∧
      (∀ i, Reads command {} arguments i → i = .run (s.arguments command)) ∧
      ∀ query i, Reads command {} (arguments ++ ["--", query]) i →
        i = .run ({ s with query := some query }.arguments command) := by
  have hplain : ∀ a ∈ arguments, a ≠ "--" ∧ command.asksForHelp a = false := by
    intro a ha
    obtain ⟨flag, hflag⟩ := Option.ne_none_iff_exists'.mp (h.1 a ha)
    exact (Flag.isOption_of_ofArgument? hflag).2
  obtain ⟨s, hs, hquery, hopen⟩ := collect_flags (s := {}) h fun flag _ => by cases flag <;> rfl
  refine ⟨s, hquery, fun i hi => ?_, fun query i hi => ?_⟩
  · rw [← List.append_nil arguments] at hi
    have hrun := hi.run rfl hplain
    rw [hs] at hrun
    cases hrun
    rfl
  · have hrun := hi.run rfl hplain
    rw [hs] at hrun
    exact Reads.eq_of_dashes hrun hquery hopen

/-! ### A parser that follows the rules -/

/-- What comes of arguments that were read one after another. -/
def Invocation.ofTaken (command : Command) (help : Invocation) :
    Except ArgumentStop Collected → Invocation
  | .ok s => .run (s.arguments command)
  | .error .help => help
  | .error (.fault _) => .usage

theorem reads_taken (help : Invocation) (arguments : List String) (s : Collected) :
    Reads command s arguments
      (.ofTaken command help (arguments.foldlM (Collected.take command) s)) := by
  induction arguments generalizing s with
  | nil => exact .done
  | cons a arguments ih =>
    rw [List.foldlM_cons]
    by_cases hquery : s.isQuery a
    · rw [Collected.take, if_pos hquery]
      cases hs : s.query with
      | none => exact .query hquery hs (ih _)
      | some query => exact .secondQuery hquery (by simp [hs])
    · rw [Bool.not_eq_true] at hquery
      rw [Collected.take, if_neg (by simp [hquery])]
      by_cases hdashes : a = "--"
      · rw [if_pos hdashes]
        subst hdashes
        exact .dashes hquery (ih _)
      rw [if_neg hdashes]
      by_cases hhelp : command.asksForHelp a
      · exact .help hquery hhelp
      rw [if_neg hhelp]
      cases hflag : Flag.ofArgument? command a with
      | none => exact .unknown hquery hdashes (by simpa using hhelp) hflag
      | some flag =>
        dsimp only
        by_cases hhas : s.has flag
        · rw [if_pos hhas]
          exact .repeated hquery hflag hhas
        · rw [if_neg hhas]
          exact .flag hquery hflag (by simpa using hhas) (ih _)

theorem argumentParser_followsRules : argumentParser.FollowsRules := by
  intro command arguments
  have hversion : ¬ (command.argument = "--version" ∨ startsGroup "-V" command.argument) := by
    cases command <;> decide
  have hhelp : ¬ (command.argument = "--help" ∨ startsGroup "-h" command.argument) := by
    cases command <;> decide
  have hnames : command.argument ≠ "help" := by cases command <;> decide
  have hcommand : Command.ofArgument? command.argument = some command := by
    cases command <;> rfl
  have hread : readArguments (command.argument :: arguments) =
      (arguments.foldlM (Collected.take command) {}).map fun s => .run (s.arguments command) := by
    rw [readArguments, if_neg hversion, if_neg hhelp, if_neg hnames, hcommand]
  have htaken : argumentParser.read (command.argument :: arguments) =
      .ofTaken command (.shown (usageText (some command)))
        (arguments.foldlM (Collected.take command) {}) := by
    simp only [argumentParser, hread, List.head?_cons, Option.bind_some, hcommand]
    cases arguments.foldlM (Collected.take command) {} with
    | ok s => rfl
    | error stop => cases stop <;> rfl
  rw [htaken]
  exact reads_taken _ arguments {}

end FilterQuery
