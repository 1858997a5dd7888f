import Predictive.Search
import Predictive.Trace

/-! The journal: what the library has to tell about its work, by level. Nothing is written
while the work is done; the entries are read off its results. -/
namespace Predictive.Journal

inductive Level where
  | trace
  | debug
  | info
  | warn
deriving DecidableEq, Repr

structure Entry where
  level : Level
  message : String
deriving DecidableEq, Repr

def Level.name : Level → String
  | trace => "TRACE"
  | debug => "DEBUG"
  | info => "INFO"
  | warn => "WARN"

def inQuotes (s : String) : String :=
  "\"" ++ s ++ "\""

def ofAddition (p : Production) : Entry :=
  ⟨.debug, "adding production " ++ p.text⟩

def ofRules : List Rule → List Entry
  | [] => []
  | rule :: rest =>
    match rule.read with
    | .ok p => ofAddition p :: ofRules rest
    | .error _ => []

def ofRecord (r : Record) : List Entry :=
  ⟨.debug, r.line 3 16⟩ ::
    match r.action with
    | .accept _ => [⟨.info, r.action.text⟩]
    | _ => []

def ofProgress (before after : Analysis) : List Entry :=
  (after.trace.drop before.history.length).flatMap ofRecord

/-- The entries of an analysis from its beginning. The sentence is what the first record
has as its input, without the end-marker. -/
def ofAnalysis (a : Analysis) : List Entry :=
  match a.trace with
  | [] => []
  | r :: _ =>
    ⟨.info, "starting analysis of " ++ inQuotes (String.ofList r.configuration.input.dropLast)⟩ ::
      a.trace.flatMap ofRecord

def ofApplied (p : Production) : Entry :=
  ⟨.debug, "session applied " ++ p.text⟩

/-- Undoing applies again every production that is kept. -/
def ofReplay (g : Grammar) (s : Session) : List Entry :=
  (s.derivation.productions g).map ofApplied

def ofEvent : Event → Entry
  | .tooDeep => ⟨.trace, "depth limit reached"⟩
  | .tooLong p => ⟨.trace, p.text ++ " exceeds the length bound"⟩
  | .tried depth p => ⟨.debug, "depth " ++ toString depth ++ ": trying " ++ p.text⟩
  | .exhausted maxLength start =>
    ⟨.warn, "No derivation within " ++ toString maxLength ++
      " characters was found; using the first production of " ++ start⟩
  | .generated sentence choices =>
    ⟨.info, "generated " ++ inQuotes sentence ++ " in " ++ toString choices ++ " expansions"⟩

end Predictive.Journal
