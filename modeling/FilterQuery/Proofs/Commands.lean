import Mathlib
import FilterQuery.Command
/-!
# Commands and queries

Checking a query and showing its tree succeed exactly if the query has a tree, and fail with its
error. Showing the tokens succeeds exactly if the query has tokens. JSON may be written by anything
that does not fail.
-/
namespace FilterQuery

section
variable {ε ζ α β : Type} {x : Except ε α} {f : ε → ζ} {g : α → β}

theorem mapError_map_eq_ok {b : β} :
    (x.mapError f).map g = .ok b ↔ ∃ a, x = .ok a ∧ b = g a := by
  cases x with
  | error e => simp [Except.mapError, Except.map]
  | ok a => simp [Except.mapError, Except.map, eq_comm]

theorem mapError_map_eq_error {e : ζ} :
    (x.mapError f).map g = .error e ↔ ∃ cause, x = .error cause ∧ e = f cause := by
  cases x with
  | error cause => simp [Except.mapError, Except.map, eq_comm]
  | ok a => simp [Except.mapError, Except.map]

theorem map_mapError_mapError {η : Type} (x : Except ε α) (f : ε → ζ) (f' : ζ → η) (g : α → β) :
    ((x.mapError f).mapError f').map g = (x.mapError (f' ∘ f)).bind fun a => .ok (g a) := by
  cases x <;> rfl

end

theorem queryTree_of_tokenize_error {mode : Mode} {query : String} {e : ScanError}
    (h : tokenize mode query = .error e) : queryTree mode query = .error (.scan e) := by
  rw [queryTree_eq, h]
  rfl

namespace Request

section
variable (write : Json.Layout → Json → Except String String)

/-- Reports a JSON value as `write` writes it, or the plain text. -/
def reportWith (r : Request) (value : Json) (plain : String) : Except CommandError Report :=
  if r.json then ((write r.layout value).mapError CommandError.json).map .rendered
  else .ok (.rendered plain)

/-- Carries out a request with JSON written by `write`, which may fail. -/
def executeWith (r : Request) (query : String) : Except CommandError Report := do
  let ts ← (tokenize r.mode query).mapError fun e => .query (.scan e)
  match r.command with
  | .tokens =>
    r.reportWith write (tokensToJson ts) ("\n".intercalate (ts.map Token.render))
  | .check =>
    let _ ← (tokensTree r.mode ts).mapError fun e => .query (.parse e)
    return .valid
  | .tree =>
    let tree ← (tokensTree r.mode ts).mapError fun e => .query (.parse e)
    r.reportWith write tree.toJson tree.outline

end

variable {write : Json.Layout → Json → Except String String} {text : Json.Layout → Json → String}
  {r : Request} {query : String}

theorem reportWith_eq (hwrite : ∀ layout value, write layout value = .ok (text layout value))
    (value : Json) (plain : String) : r.reportWith write value plain =
      .ok (.rendered (if r.json then text r.layout value else plain)) := by
  rw [reportWith, hwrite]
  cases r.json <;> rfl

/-- Requests are carried out with the writer `Json.render`. -/
theorem executeWith_render (r : Request) (query : String) :
    r.executeWith (fun layout value => .ok (value.render layout)) query = r.execute query := by
  have hreport (value : Json) (plain : String) :
      r.reportWith (fun layout value => .ok (value.render layout)) value plain =
        .ok (.rendered (if r.json then value.render r.layout else plain)) :=
    reportWith_eq (fun _ _ => rfl) value plain
  simp only [executeWith, hreport]
  exact (r.execute_eq query).symm

/-- What a request for anything but the tokens reports of a query with the tree `t`. -/
def treeReport (text : Json.Layout → Json → String) (r : Request) (t : Node) : Report :=
  match r.command with
  | .tree => .rendered (if r.json then text r.layout t.toJson else t.outline)
  | _ => .valid

variable (hwrite : ∀ layout value, write layout value = .ok (text layout value))

include hwrite

theorem executeWith_tokens (h : r.command = .tokens) : r.executeWith write query =
    ((tokenize r.mode query).mapError (CommandError.query ∘ QueryError.scan)).map fun ts =>
      .rendered (if r.json then text r.layout (tokensToJson ts)
        else "\n".intercalate (ts.map Token.render)) := by
  simp only [executeWith, reportWith_eq hwrite, h]
  cases tokenize r.mode query <;> rfl

theorem executeWith_tree (h : r.command ≠ .tokens) : r.executeWith write query =
    ((queryTree r.mode query).mapError CommandError.query).map (r.treeReport text) := by
  simp only [executeWith, reportWith_eq hwrite]
  obtain ⟨command, json, pretty, mode⟩ := r
  rw [queryTree_eq]
  cases tokenize mode query with
  | error e => rfl
  | ok ts =>
    cases command with
    | tokens => exact absurd rfl h
    | check => exact (map_mapError_mapError (tokensTree mode ts) _ _ _).symm
    | tree => exact (map_mapError_mapError (tokensTree mode ts) _ _ _).symm

theorem executeWith_succeeds_iff : (∃ report, r.executeWith write query = .ok report) ↔
    if r.command = .tokens then ∃ ts, tokenize r.mode query = .ok ts
    else ∃ t, queryTree r.mode query = .ok t := by
  split
  · rename_i h
    simp [executeWith_tokens hwrite h, mapError_map_eq_ok]
  · rename_i h
    simp [executeWith_tree hwrite h, mapError_map_eq_ok]

theorem exists_cause {e : CommandError} (h : r.executeWith write query = .error e) :
    ∃ cause, e = .query cause := by
  by_cases hr : r.command = .tokens
  · rw [executeWith_tokens hwrite hr, mapError_map_eq_error] at h
    obtain ⟨cause, -, rfl⟩ := h
    exact ⟨.scan cause, rfl⟩
  · rw [executeWith_tree hwrite hr, mapError_map_eq_error] at h
    obtain ⟨cause, -, rfl⟩ := h
    exact ⟨cause, rfl⟩

end Request

/-- Checking a query and showing its tree succeed exactly if the query has a tree, which is the one
shown, and fail with its error. Showing tokens succeeds exactly if the query has tokens, and fails
with an error that the other two share. The settings of the output do not matter for success, and
only the query is ever at fault, as long as JSON can be written. -/
theorem commands_agree (write : Json.Layout → Json → Except String String)
    (text : Json.Layout → Json → String)
    (hwrite : ∀ layout value, write layout value = .ok (text layout value))
    (query : String) (mode : Mode) (json pretty : Bool) :
    let run (command : Command) := (Request.mk command json pretty mode).executeWith write query
    let layout : Json.Layout := if pretty then .indented else .compact
    (∀ report, run .check = .ok report ↔ ∃ t, queryTree mode query = .ok t ∧ report = .valid) ∧
    (∀ report, run .tree = .ok report ↔ ∃ t, queryTree mode query = .ok t ∧
      report = .rendered (if json then text layout t.toJson else t.outline)) ∧
    (∀ report, run .tokens = .ok report ↔ ∃ ts, tokenize mode query = .ok ts ∧
      report = .rendered (if json then text layout (tokensToJson ts)
        else "\n".intercalate (ts.map Token.render))) ∧
    (∀ e, run .check = .error e ↔
      ∃ cause, queryTree mode query = .error cause ∧ e = .query cause) ∧
    (∀ e, run .tree = .error e ↔ run .check = .error e) ∧
    (∀ e, run .tokens = .error e ↔
      ∃ cause, tokenize mode query = .error cause ∧ e = .query (.scan cause)) ∧
    (∀ e, run .tokens = .error e → run .check = .error e ∧ run .tree = .error e) ∧
    (∀ command json' pretty',
      (∃ report, (Request.mk command json' pretty' mode).executeWith write query = .ok report) ↔
        ∃ report, run command = .ok report) ∧
    ∀ command e, run command = .error e → ∃ cause, e = .query cause := by
  intro run layout
  have htokens : run .tokens = _ := Request.executeWith_tokens hwrite rfl
  have hcheck : run .check = _ := Request.executeWith_tree hwrite (by simp)
  have htree : run .tree = _ := Request.executeWith_tree hwrite (by simp)
  refine ⟨?_, ?_, ?_, ?_, ?_, ?_, ?_, ?_, fun command e => Request.exists_cause hwrite⟩
  · intro report
    rw [hcheck, mapError_map_eq_ok]
    rfl
  · intro report
    rw [htree, mapError_map_eq_ok]
    rfl
  · intro report
    rw [htokens, mapError_map_eq_ok]
    rfl
  · intro e
    rw [hcheck, mapError_map_eq_error]
  · intro e
    rw [hcheck, htree, mapError_map_eq_error, mapError_map_eq_error]
  · intro e
    rw [htokens, mapError_map_eq_error]
    rfl
  · intro e h
    rw [htokens, mapError_map_eq_error] at h
    obtain ⟨cause, hcause, rfl⟩ := h
    have herror := queryTree_of_tokenize_error hcause
    rw [hcheck, htree, mapError_map_eq_error, mapError_map_eq_error]
    exact ⟨⟨_, herror, rfl⟩, _, herror, rfl⟩
  · intro command json' pretty'
    change _ ↔ ∃ report, (Request.mk command json pretty mode).executeWith write query = .ok report
    rw [Request.executeWith_succeeds_iff hwrite, Request.executeWith_succeeds_iff hwrite]

/-- A colon that starts no token is an error of every command. -/
theorem commands_agree_on_colon :
    (Request.mk .tokens true false .lenient).execute "a : 1" =
      .error (.query (.scan (.invalidCharacter ':' 3))) ∧
    (Request.mk .check true false .lenient).execute "a : 1" =
      .error (.query (.scan (.invalidCharacter ':' 3))) ∧
    (Request.mk .tree true false .lenient).execute "a : 1" =
      .error (.query (.scan (.invalidCharacter ':' 3))) := by
  have h : (Request.mk .tokens true false .lenient).execute "a : 1" =
    .error (.query (.scan (.invalidCharacter ':' 3))) := by cbv
  have hagree := commands_agree (fun layout value => .ok (value.render layout))
    (fun layout value => value.render layout) (fun _ _ => rfl) "a : 1" .lenient true false
  simp only [Request.executeWith_render] at hagree
  exact ⟨h, hagree.2.2.2.2.2.2.1 _ h⟩

example : (Request.mk .tokens false false .strict).execute "" = .ok (.rendered "") ∧
    (Request.mk .check false false .strict).execute "" = .error (.query (.parse .emptyInput)) :=
  ⟨by cbv, by cbv⟩

end FilterQuery
