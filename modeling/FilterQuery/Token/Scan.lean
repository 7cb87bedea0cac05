import FilterQuery.Logged
import FilterQuery.Mode
import FilterQuery.Token.Piece
/-!
# Scanning

The mode decides what becomes of the pieces of a query text. Blanks pass silently and lexemes
become tokens in both modes; a strict scan ends at the first piece that is neither, a lenient
one reports it and goes on. Columns count characters from one.
-/
namespace FilterQuery

inductive ScanError
  /-- No token starts with the character at this column. -/
  | invalidCharacter (ch : Char) (column : Nat)
  /-- The quote at this column is not closed. -/
  | unterminatedLiteral (column : Nat)
deriving DecidableEq, Repr

def ScanError.message : ScanError → String
  | .invalidCharacter ch column => s!"Invalid character '{ch}' at column {column}"
  | .unterminatedLiteral column => s!"Unterminated literal starting at column {column}"

/-- A record of the scan. -/
inductive ScanEvent
  /-- A token was read by a rule; `column` is that of its last character. -/
  | token (rule : Rule) (token : Token) (column : Nat)
  | skipped (ch : Char) (column : Nat)
  /-- An unclosed quote starts at this column. -/
  | dropped (column : Nat)
  | finished (characters tokens : Nat)
deriving DecidableEq, Repr

namespace ScanEvent

def severity : ScanEvent → Severity
  | .token .. => .trace
  | .skipped .. => .warn
  | .dropped _ => .warn
  | .finished .. => .debug

def message : ScanEvent → String
  | .token rule t column => rule.name ++ " " ++ t.render ++ s!" ending at column {column}"
  | .skipped ch column => s!"skipping unrecognized character '{ch}' at column {column}"
  | .dropped column => s!"dropping unterminated literal at column {column}"
  | .finished characters tokens => s!"tokenized {characters} characters into {tokens} tokens"

end ScanEvent

/-- What a scan makes of a text. -/
abbrev Scanned := Logged ScanEvent ScanError

/-- The characters that no mode skips. -/
def isReservedChar (c : Char) : Bool := c = '@' || c = ':'

/-- What a piece means that has `before` characters of the text before it. -/
def Piece.read (mode : Mode) (before : Nat) : Piece → Scanned (Option Token)
  | .blank _ => pure none
  | .lexeme rule cs => do
    let token : Token := ⟨rule.kind, String.ofList cs⟩
    Logged.write (.token rule token (before + cs.length))
    return some token
  | .unknown c =>
    if mode = .strict || isReservedChar c then Logged.fail (.invalidCharacter c (before + 1))
    else do
      Logged.write (.skipped c (before + 1))
      return none
  | .unclosed _ =>
    if mode = .strict then Logged.fail (.unterminatedLiteral (before + 1))
    else do
      Logged.write (.dropped (before + 1))
      return none

/-- Reads pieces in turn, after `before` characters that gave `log` and `tokens`. -/
def scanOnto (mode : Mode) (log : Array ScanEvent) (tokens : Array Token) (before : Nat) :
    List Piece → Scanned (List Token)
  | [] => ⟨(log.push (.finished before tokens.size)).toList, .ok tokens.toList⟩
  | piece :: pieces =>
    let step := piece.read mode before
    match step.result with
    | .error e => ⟨log.toList ++ step.log, .error e⟩
    | .ok token? =>
      scanOnto mode (log ++ step.log) (tokens ++ token?.toList) (before + piece.chars.length) pieces

/-- The tokens of a query text. -/
def scan (mode : Mode) (query : String) : Scanned (List Token) :=
  scanOnto mode #[] #[] 0 (Piece.split query.toList)

/-- The tokens of a query text, without the log. -/
def tokenize (mode : Mode) (query : String) : Except ScanError (List Token) :=
  (scan mode query).result

/-- The tokens of a run of pieces. -/
def readPieces (mode : Mode) (before : Nat) : List Piece → Scanned (List Token)
  | [] => pure []
  | piece :: pieces => do
    let token? ← piece.read mode before
    let tokens ← readPieces mode (before + piece.chars.length) pieces
    return token?.toList ++ tokens

theorem scanOnto_eq (mode : Mode) (log : Array ScanEvent) (tokens : Array Token) (before : Nat)
    (pieces : List Piece) :
    scanOnto mode log tokens before pieces =
      match (readPieces mode before pieces).result with
      | .error e => ⟨log.toList ++ (readPieces mode before pieces).log, .error e⟩
      | .ok ts =>
        ⟨log.toList ++ (readPieces mode before pieces).log ++
          [.finished (before + (pieces.flatMap Piece.chars).length) (tokens.size + ts.length)],
          .ok (tokens.toList ++ ts)⟩ := by
  induction pieces generalizing log tokens before with
  | nil => simp [scanOnto, readPieces]
  | cons piece pieces ih =>
    rw [scanOnto, readPieces]
    cases hp : (piece.read mode before).result with
    | error e => simp [hp, Logged.result_bind, Logged.log_bind_error hp, Except.bind]
    | ok token? =>
      rw [Logged.result_bind, Logged.log_bind_ok hp, hp]
      simp only [ih, Except.bind, Logged.result_bind]
      cases hr : (readPieces mode (before + piece.chars.length) pieces).result with
      | error e => simp [Logged.log_bind_error hr]
      | ok ts =>
        simp [Logged.log_bind_ok hr, Nat.add_assoc, ← Array.length_toList]

/-- A scan reads the pieces of the text and closes its log with the two totals. -/
theorem scan_eq (mode : Mode) (query : String) :
    scan mode query = do
      let tokens ← readPieces mode 0 (Piece.split query.toList)
      Logged.write (.finished query.length tokens.length)
      return tokens := by
  rw [scan, scanOnto_eq, Piece.chars_split]
  cases h : (readPieces mode 0 (Piece.split query.toList)).result with
  | error e =>
    ext1
    · simp [Logged.log_bind_error h]
    · simp [Logged.result_bind, h, Except.bind]
  | ok ts =>
    ext1
    · rw [Logged.log_bind_ok h, Logged.log_bind_ok (Logged.result_write _)]
      simp [String.length_toList]
    · simp [Logged.result_bind, h, Except.bind]

end FilterQuery
