/-!
# What a compression reports

While a text is compressed, every phase that went through, a round that led
nowhere, and the finished grammar are reported as events. The text of an event
is fixed here; whether anybody reads it is decided elsewhere.
-/

namespace RunGrammar

/-- How much an event matters. -/
inductive Severity where
  | debug
  | info
  | warning
  | error
deriving DecidableEq, Repr

def Severity.label : Severity → String
  | debug => "DEBUG"
  | info => "INFO"
  | warning => "WARN"
  | error => "ERROR"

inductive Event where
  /-- A phase replaced this many runs. -/
  | runsReplaced (level count before after : Nat)
  /-- A phase replaced this many pairs. -/
  | pairsReplaced (level count before after : Nat)
  /-- A round left the text as long as it was. -/
  | stalled (level length : Nat)
  | finished (name : String) (rules blocks levels textLength : Nat)
deriving DecidableEq, Repr

namespace Event

def severity : Event → Severity
  | runsReplaced .. => .debug
  | pairsReplaced .. => .debug
  | stalled .. => .warning
  | finished .. => .info

def message : Event → String
  | runsReplaced level count before after =>
    s!"level {level}: bcomp replaced {count} runs, {before} -> {after} symbols"
  | pairsReplaced level count before after =>
    s!"level {level}: pcomp replaced {count} pairs, {before} -> {after} symbols"
  | stalled level length => s!"level {level}: no progress at length {length}"
  | finished name rules blocks levels textLength =>
    s!"{name}: {rules} productions ({blocks} blocks) in {levels} levels, text length {textLength}"

/-- The event as one line, with its severity in front. -/
def line (e : Event) : String :=
  let label := e.severity.label
  let text := e.message
  s!"{label} {text}"

end Event

end RunGrammar
