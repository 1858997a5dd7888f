import Predictive.Command.Basic
import Predictive.Search
import Predictive.Trace

/-! What the commands print. All of them work on the standard grammar and its table. -/
namespace Predictive

/-- The output of a command. Lines that were printed before a fault stay printed. -/
structure Report where
  lines : List String
  fault : Option Fault := none
  accepted : Bool := true

namespace Report

def output (r : Report) : String :=
  String.join (r.lines.map (· ++ "\n"))

def errors (r : Report) : String :=
  match r.fault with
  | some fault => "error: " ++ fault.message ++ "\n"
  | none => ""

def exitCode (r : Report) : Nat :=
  if r.fault = none ∧ r.accepted then 0 else 1

def ofFault (fault : Fault) : Report :=
  { lines := [], fault := some fault }

def after (lines : List String) (r : Report) : Report :=
  { r with lines := lines ++ r.lines }

end Report

namespace Command

def tableReport : Report where
  lines :=
    "Grammar:" :: Grammar.standard.lines ++ "" :: "Parsing table:" :: Table.standardRows.lines ++ [""]

def parseReport (sentence : String) (json : Bool) : Report :=
  match Parser.standard.parse sentence with
  | .error fault => .ofFault fault
  | .ok a =>
    { lines := if json then [a.toJson.pretty 0] else a.lines
      accepted := a.status.isAccepted }

def sentenceLine (i : Nat) (r : Generated) : String :=
  toString i ++ ". " ++ r.sentence ++ if r.fallback then "  (fallback)" else ""

def fallbackLines (fallbacks count : Nat) : List String :=
  if fallbacks > 0 then
    ["", toString fallbacks ++ " of " ++ toString count ++ " used the fallback"]
  else []

def sentencesFrom (source : Source σ) (options : GenerateOptions) (i : Nat) :
    Nat → Generator σ → Report
  | 0, gen => { lines := fallbackLines gen.fallbacks options.count }
  | left + 1, gen =>
    match gen.generate Grammar.standard source with
    | (.error fault, _) => .ofFault fault
    | (.ok r, gen) =>
      if options.check then
        match Parser.standard.parse r.sentence with
        | .error fault => (Report.ofFault fault).after [sentenceLine i r]
        | .ok a =>
          let rest := sentencesFrom source options (i + 1) left gen
          { rest.after [sentenceLine i r, "   " ++ a.status.text] with
            accepted := a.status.isAccepted && rest.accepted }
      else (sentencesFrom source options (i + 1) left gen).after [sentenceLine i r]

/-- The settings of a command: the file's or the defaults, overruled by the options. -/
def settingsOf (options : GenerateOptions) (file : Except FileFault ByteArray) :
    Except Fault Settings := do
  let settings ← if options.config.isSome then Settings.ofFile file else .ok {}
  return { settings with
    maxLength := options.maxLength.getD settings.maxLength
    seed := options.seed.or settings.seed }

def generateReport (options : GenerateOptions) (file : Except FileFault ByteArray)
    (entropy : UInt64) : Report :=
  match settingsOf options file with
  | .error fault => .ofFault fault
  | .ok settings =>
    sentencesFrom .random options 1 options.count
      (.ofState settings (.ofSeed (settings.seed.getD entropy)))

def nextChoices (s : Session) : String :=
  ", ".intercalate
    ((s.available Grammar.standard).zipIdx.map fun c => toString c.2 ++ ": " ++ c.1.text)

def closingLines (s : Session) : List String :=
  match s.sentence? with
  | some sentence => ["", "Complete: " ++ sentence]
  | none => ["", "Next choices: " ++ nextChoices s]

def deriveFrom : List Nat → Session → Report
  | [], s => { lines := closingLines s }
  | i :: rest, s =>
    match s.apply Grammar.standard i with
    | .error fault => .ofFault fault
    | .ok (p, s) => (deriveFrom rest s).after ["=>  " ++ s.text ++ "    (" ++ p.text ++ ")"]

def deriveReport (choices : List Nat) : Report :=
  let s := Session.start Grammar.standard
  (deriveFrom choices s).after ["    " ++ s.text]

def file? : Command → Option String
  | generate options => options.config
  | _ => none

/-- Carries out a command, given the content of its file and a seed for when it has none. -/
def run (file : Except FileFault ByteArray) (entropy : UInt64) : Command → Report
  | table => tableReport
  | parse sentence json => parseReport sentence json
  | generate options => generateReport options file entropy
  | derive choices => deriveReport choices

end Command

end Predictive
